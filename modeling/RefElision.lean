import RefElision.Dominance.DomTree
import RefElision.Dominance.FlowGraph
import RefElision.Dominance.LinkForest
import RefElision.Dominance.Oracle
import RefElision.Dominance.Removal
import RefElision.Dominance.Semidominator
import RefElision.Dominance.SpanningTree
import RefElision.Environment
import RefElision.Graph.Digraph
import RefElision.Graph.Walk
import RefElision.Options
import RefElision.Program.Builder
import RefElision.Program.CaseTable
import RefElision.Program.Func
import RefElision.Program.Instr
import RefElision.Program.Operand
import RefElision.Program.Reader
import RefElision.Program.Statement
import RefElision.Program.Terminator
import RefElision.Proofs.Dominance.Agreement
import RefElision.Proofs.Dominance.Chains
import RefElision.Proofs.Dominance.Compression
import RefElision.Proofs.Dominance.DepthFirst
import RefElision.Proofs.Dominance.Exactness
import RefElision.Proofs.Dominance.Exploration
import RefElision.Proofs.Dominance.ImmediateDominators
import RefElision.Proofs.Dominance.Indexing
import RefElision.Proofs.Dominance.Intervals
import RefElision.Proofs.Dominance.LinkEval
import RefElision.Proofs.Dominance.Semidominators
import RefElision.Proofs.Dominance.Stability
import RefElision.Proofs.Dominance.Sweep
import RefElision.Proofs.Dominance.Times
import RefElision.Proofs.Dominance.Tour
import RefElision.Proofs.Dominance.Transposition
import RefElision.Proofs.Graph.Alternation
import RefElision.Proofs.Graph.Dominators
import RefElision.Proofs.Graph.Path
import RefElision.Proofs.Graph.Search
import RefElision.Proofs.Graph.WalkChains
import RefElision.Proofs.Graph.WalkCover
import RefElision.Proofs.Graph.WalkRuns
import RefElision.Proofs.Program.Bodies
import RefElision.Proofs.Program.Building
import RefElision.Proofs.Program.Coherence
import RefElision.Proofs.Program.Completion
import RefElision.Proofs.Program.Flow
import RefElision.Proofs.Program.Histories
import RefElision.Proofs.Program.Layout
import RefElision.Proofs.Program.Legibility
import RefElision.Proofs.Program.Naming
import RefElision.Proofs.Program.Printing
import RefElision.Proofs.Program.Reading
import RefElision.Proofs.Program.Rebuilding
import RefElision.Proofs.Program.Renaming
import RefElision.Proofs.Program.Rewiring
import RefElision.Proofs.Program.RoundTrip
import RefElision.Proofs.Program.Transcripts
import RefElision.Proofs.Refs.Accounting
import RefElision.Proofs.Refs.Balance
import RefElision.Proofs.Refs.Convergence
import RefElision.Proofs.Refs.Counting
import RefElision.Proofs.Refs.Crossing
import RefElision.Proofs.Refs.Delays
import RefElision.Proofs.Refs.Equivariance
import RefElision.Proofs.Refs.Executions
import RefElision.Proofs.Refs.Exhaustion
import RefElision.Proofs.Refs.FanoutPaths
import RefElision.Proofs.Refs.FanoutRuns
import RefElision.Proofs.Refs.Frame
import RefElision.Proofs.Refs.Freshness
import RefElision.Proofs.Refs.Guard
import RefElision.Proofs.Refs.Matching
import RefElision.Proofs.Refs.NormalForm
import RefElision.Proofs.Refs.Operations
import RefElision.Proofs.Refs.Records
import RefElision.Proofs.Refs.Release
import RefElision.Proofs.Refs.Removals
import RefElision.Proofs.Refs.Scoping
import RefElision.Proofs.Refs.Searches
import RefElision.Proofs.Refs.Survivors
import RefElision.Proofs.Refs.Windows
import RefElision.Proofs.Text.Letters
import RefElision.Proofs.Text.Numerals
import RefElision.Proofs.Text.Splitting
import RefElision.Refs.Between
import RefElision.Refs.Event
import RefElision.Refs.Fanout
import RefElision.Refs.Normalize
import RefElision.Refs.Pipeline
import RefElision.Refs.Prune
import RefElision.Refs.RefOp
import RefElision.Session
import RefElision.Text.Blank
import RefElision.Text.Ident
import RefElision.Text.Numeral
import RefElision.Text.Printable
import RefElision.Text.Quoted
import RefElision.Text.Split
