import RefElision.Proofs.Program.Printing
import RefElision.Proofs.Program.Reading

/-! The text of a function, line by line. Behind the header there is a line for each label,
instruction and terminator. Reading the text carries out what these lines say, in turn. -/
namespace RefElision

open Text

theorem Atom.map_atom_values (start : Nat) (atoms : List Atom) :
    (Atom.values start atoms).map Value.atom = atoms := by
  apply List.ext_getElem
  · simp [Atom.values]
  · intro i hi hAtoms
    simp [Atom.values]

theorem Operation.map_atom_tagged (start : Nat) (o : Operation Atom) :
    (o.tagged start).map Value.atom = o := by
  simp only [Operation.map, Operation.tagged, Atom.map_atom_values]

theorem Terminator.map_atom_tagged (start : Nat) (t : Terminator Atom) :
    (t.tagged start).map Value.atom = t := by
  cases t <;> simp [Terminator.map, Terminator.tagged, Atom.map_atom_values]

/-- What the text tells about an instruction. -/
def Instr.written (i : Instr) : Operation Atom :=
  i.operation.map Value.atom

/-- What the text tells about how a block ends. -/
def Block.ending (b : Block) : Terminator Atom :=
  b.term.map Value.atom

/-- The lines that a block is printed as. -/
def Block.statements (b : Block) : List Statement :=
  .label b.label :: b.body.map (fun i => .operation i.written) ++ [.terminator b.ending]

/-- The lines of the body of a function. -/
def Func.statements (f : Func) : List Statement :=
  f.blocks.flatMap Block.statements

namespace Statement

/-- Labels stand at the start of a line. -/
def indent : Statement → List Char
  | .label _ => []
  | .operation _ => [' ', ' ', ' ', ' ']
  | .terminator _ => [' ', ' ', ' ', ' ']

def line (st : Statement) : List Char :=
  st.indent ++ st.text.toList

theorem eq_blank_of_mem_indent (st : Statement) : ∀ c ∈ st.indent, c = ' ' := by
  cases st <;> simp [indent]

theorem stripComment_line {st : Statement} (h : st.Readable) :
    stripComment st.line = st.text.toList :=
  (isLine_text h).stripComment_eq st.eq_blank_of_mem_indent

theorem no_feed_line {st : Statement} (h : st.Readable) : '\n' ∉ st.line := by
  intro hMem
  rcases List.mem_append.mp hMem with hBlank | hText
  · exact absurd (st.eq_blank_of_mem_indent _ hBlank) (by decide)
  · exact (isLine_text h).no_feed hText

end Statement

theorem Block.toList_text (b : Block) :
    b.text.toList = ['\n'].intercalate (b.statements.map Statement.line) := by
  have hFeed : "\n".toList = ['\n'] := rfl
  have hBlanks : "    ".toList = [' ', ' ', ' ', ' '] := rfl
  have hLines : ([b.label ++ ":"] ++ b.body.map (fun i => "    " ++ i.text) ++
      ["    " ++ (b.term.map Value.atom).text]).map String.toList =
        b.statements.map Statement.line := by
    simp only [statements, Statement.line, Statement.indent, Statement.text, Instr.text,
      Instr.written, ending, List.map_append, List.map_cons, List.map_nil, List.map_map, Function.comp_def,
      String.toList_append, hBlanks, List.cons_append, List.nil_append]
  rw [Block.text, String.toList_intercalate, hLines, hFeed]

namespace Func

/-- The line in front of the body. -/
def header (f : Func) : String :=
  "func @" ++ f.name ++ "(" ++ ", ".intercalate (f.args.map variableText) ++ ") \x7b"

theorem toList_text (f : Func) :
    f.text.toList = f.header.toList ++ '\n' :: (['\n'].intercalate
      ((f.blocks.map fun b => b.statements.map Statement.line).map ['\n'].intercalate) ++
        '\n' :: ['\x7d', '\n']) := by
  have hBegin : ") \x7b\n".toList = ") \x7b".toList ++ ['\n'] := rfl
  have hEnd : "\n\x7d\n".toList = ['\n', '\x7d', '\n'] := rfl
  have hBlocks : ("\n".intercalate (f.blocks.map Block.text)).toList = ['\n'].intercalate
      ((f.blocks.map fun b => b.statements.map Statement.line).map ['\n'].intercalate) := by
    rw [String.toList_intercalate, List.map_map, List.map_map]
    congr 1
    exact List.map_congr_left fun b _ => b.toList_text
  simp only [text, header, String.toList_append, hBlocks, hBegin, hEnd, List.append_assoc,
    List.cons_append, List.nil_append]

variable {f : Func}

/-- The function is cut into its lines. -/
theorem splitOn_text (hne : f.blocks ≠ []) (hHeader : '\n' ∉ f.header.toList)
    (h : ∀ st ∈ f.statements, st.Readable) :
    splitOn '\n' f.text.toList =
      f.header.toList :: (f.statements.map Statement.line ++ [['\x7d'], []]) := by
  have hGroups : ∀ lines ∈ f.blocks.map (fun b => b.statements.map Statement.line),
      lines ≠ [] ∧ ∀ s ∈ lines, '\n' ∉ s := by
    intro lines hLines
    obtain ⟨b, hb, rfl⟩ := List.mem_map.mp hLines
    refine ⟨by simp [Block.statements], fun s hs => ?_⟩
    obtain ⟨st, hst, rfl⟩ := List.mem_map.mp hs
    exact Statement.no_feed_line (h st (List.mem_flatMap.mpr ⟨b, hb, hst⟩))
  have hFlat : (f.blocks.map fun b => b.statements.map Statement.line).flatten =
      f.statements.map Statement.line := by
    rw [statements, List.map_flatMap, List.flatMap_def]
  rw [toList_text, splitOn_append hHeader, splitOn_groups (by simpa using hne) hGroups, hFlat]
  rfl

/-- The header with the marks in it written out. -/
theorem toList_header (f : Func) :
    f.header.toList = "func @".toList ++ (f.name.toList ++ '(' ::
      ([',', ' '].intercalate (f.args.map fun x => '%' :: x.toList) ++ [')']) ++ [' '] ++
        ['\x7b']) := by
  have hOpening : "(".toList = ['('] := rfl
  have hClosing : ") \x7b".toList = [')', ' ', '\x7b'] := rfl
  have hArgs : (", ".intercalate (f.args.map variableText)).toList =
      [',', ' '].intercalate (f.args.map fun x => '%' :: x.toList) := by
    rw [String.toList_intercalate, List.map_map]
    congr 1
    exact List.map_congr_left fun x _ => String.toList_append
  simp only [header, String.toList_append, hArgs, hOpening, hClosing, List.append_assoc,
    List.cons_append, List.nil_append]

end Func

namespace Reader

variable {f : Func}

theorem readArgument_text {x : String} (h : isIdent x.toList = true) :
    readArgument ('%' :: x.toList) = .ok x := by
  rw [readArgument, if_pos h, String.ofList_toList]

/-- A header is read part by part. -/
theorem readHeader_eq {name : String} {inside : List Char} {args : List String}
    (hName : isIdent name.toList = true)
    (hArgs : (listItems inside).mapM readArgument = .ok args) :
    readHeader ("func @".toList ++ (name.toList ++ '(' :: (inside ++ [')']) ++ [' '] ++
      ['\x7b'])) = .ok (.empty name args) := by
  have hWord := isWord_of_isIdent hName
  have hTight : Tight (name.toList ++ '(' :: (inside ++ [')'])) := by
    have hList : name.toList ++ '(' :: (inside ++ [')']) =
        name.toList ++ ('(' :: inside) ++ [')'] := by
      simp
    rw [hList]
    exact hWord.tight.append (tight_singleton rfl) hWord.nonempty (by simp) _
  have hTrim : trim (name.toList ++ '(' :: (inside ++ [')']) ++ [' ']) =
      name.toList ++ '(' :: (inside ++ [')']) := trim_back hTight (by decide)
  have hBrackets : bracketed? '(' ')' (name.toList ++ '(' :: (inside ++ [')'])) =
      some (name.toList, inside) := bracketed?_append (not_mem_of_isIdent hName (by decide))
  rw [readHeader, after?_append]
  simp only [List.getLast?_concat, if_true, List.dropLast_concat, hTrim, hBrackets]
  cases hChars : name.toList with
  | nil => exact (hWord.nonempty hChars).elim
  | cons c rest =>
      rw [hChars] at hName
      have hOfList : String.ofList (c :: rest) = name := by rw [← hChars, String.ofList_toList]
      simp only [if_pos hName, hArgs, hOfList]
      rfl

variable (hName : isIdent f.name.toList = true) (hArgs : ∀ x ∈ f.args, isIdent x.toList = true)
include hName hArgs

/-- A header that was printed is read again. -/
theorem readHeader_text : readHeader f.header.toList = .ok (.empty f.name f.args) := by
  have hItems : ∀ s ∈ f.args.map (fun x => '%' :: x.toList), IsItem s := by
    intro s hs
    obtain ⟨x, hx, rfl⟩ := List.mem_map.mp hs
    exact (isWord_variable (hArgs x hx)).isItem
  rw [Func.toList_header]
  apply readHeader_eq hName
  rw [listItems_intercalate hItems]
  exact mapM_printed fun x hx => readArgument_text (hArgs x hx)

/-- The header in front of the brace has no characters that the lines of a body do not have. -/
theorem all_header : ∃ front, f.header.toList = ['f'] ++ front ++ ['\x7b'] ∧
    front.all isLineChar = true := by
  have hItems : ([',', ' '].intercalate (f.args.map fun x => '%' :: x.toList)).all
      isLineChar = true := by
    apply all_intercalate (by decide)
    intro s hs
    obtain ⟨x, hx, rfl⟩ := List.mem_map.mp hs
    exact (isWord_variable (hArgs x hx)).all_isLineChar
  have hFunc : "unc @".toList.all isLineChar = true := by decide
  have hMarks : isLineChar '(' = true ∧ isLineChar ')' = true ∧ isLineChar ' ' = true := by
    decide
  refine ⟨"unc @".toList ++ (f.name.toList ++ '(' ::
    ([',', ' '].intercalate (f.args.map fun x => '%' :: x.toList) ++ [')', ' '])), ?_, ?_⟩
  · have hStart : "func @".toList = 'f' :: "unc @".toList := rfl
    rw [Func.toList_header, hStart]
    simp only [List.append_assoc, List.cons_append, List.nil_append]
  · simp only [List.all_append, List.all_cons, List.all_nil, hFunc, hMarks, hItems,
      (isWord_of_isIdent hName).all_isLineChar, Bool.and_self]

theorem isLine_header : Statement.IsLine f.header.toList := by
  obtain ⟨front, hList, hAll⟩ := all_header hName hArgs
  have hMem : ∀ d, isLineChar d = false → d ≠ '\x7b' → d ∉ f.header.toList := by
    intro d hd hBrace hc
    rw [hList, List.mem_append, List.mem_append, List.mem_singleton, List.mem_singleton] at hc
    rcases hc with (rfl | hLine) | hLast
    · exact absurd hd (by decide)
    · exact not_mem_of_all hAll hd hLine
    · exact hBrace hLast
  constructor
  case nonempty => simp [hList]
  case tight =>
    rw [hList]
    exact (tight_singleton rfl).append (tight_singleton rfl) (by simp) (by simp) _
  case no_feed => exact hMem _ (by decide) (by decide)
  case no_comment => exact hMem _ (by decide) (by decide)
  case no_brace => exact hMem _ (by decide) (by decide)

end Reader

namespace Builder

variable {b : Builder}

/-- A mistake is not forgotten. -/
theorem error_of_statement {st : Statement} (h : (b.statement st).error = none) :
    b.error = none := by
  cases st with
  | label l => exact (label_ok h).1
  | operation o => exact (error_of_emitShown h : ((b.reserve _).reserve 1).error = none)
  | terminator t => exact (error_of_terminate h : (b.reserve _).error = none)

theorem error_of_foldl {statements : List Statement}
    (h : (statements.foldl statement b).error = none) : b.error = none := by
  induction statements generalizing b with
  | nil => exact h
  | cons st rest ih => exact error_of_statement (ih h)

end Builder

namespace Reader

theorem readLine_statement {b : Builder} {st : Statement} (h : st.Readable)
    (hError : (b.statement st.simplified).error = none) :
    readLine (.inBody b) st.text.toList = .ok (.inBody (b.statement st.simplified)) := by
  have hBrace : st.text.toList ≠ ['\x7d'] := by
    intro hEq
    have hNot := (Statement.isLine_text h).no_brace
    rw [hEq] at hNot
    exact hNot (by simp)
  rw [readLine, if_neg hBrace, readBodyLine, Statement.read_text h]
  simp only [hError]

theorem readLines_nonempty {r next : Reader} {number : Nat} {line : List Char}
    {rest : List (List Char)} (hne : stripComment line ≠ [])
    (h : readLine r (stripComment line) = .ok next) :
    readLines r number (line :: rest) = readLines next (number + 1) rest := by
  rw [readLines]
  split
  case h_1 hNil => exact (hne hNil).elim
  case h_2 => rw [h]

/-- If the statements can be carried out, then reading their lines does so. -/
theorem readLines_statements {statements : List Statement} (h : ∀ st ∈ statements, st.Readable)
    {b : Builder} {number : Nat} {tail : List (List Char)}
    (hError : ((statements.map Statement.simplified).foldl Builder.statement b).error = none) :
    ∃ number', readLines (.inBody b) number (statements.map Statement.line ++ tail) =
      readLines (.inBody ((statements.map Statement.simplified).foldl Builder.statement b))
        number' tail := by
  induction statements generalizing b number with
  | nil => exact ⟨number, rfl⟩
  | cons st rest ih =>
      rw [List.forall_mem_cons] at h
      have hStrip := Statement.stripComment_line h.1
      have hne : stripComment st.line ≠ [] := hStrip ▸ (Statement.isLine_text h.1).nonempty
      have hLine := readLine_statement h.1 (Builder.error_of_foldl hError)
      rw [← hStrip] at hLine
      obtain ⟨number', hRest⟩ := ih h.2 hError
      refine ⟨number', ?_⟩
      rw [List.map_cons, List.cons_append, readLines_nonempty hne hLine]
      exact hRest

/-- The brace finishes the function, and nothing follows it but an empty line. -/
theorem readLines_end {b : Builder} {g : Func} (h : b.build.2 = .ok g) (number : Nat) :
    readLines (.inBody b) number [['\x7d'], []] = .ok (.done g) := by
  have hBrace : readLine (.inBody b) (stripComment ['\x7d']) = .ok (.done g) := by
    have hStrip : stripComment ['\x7d'] = ['\x7d'] := rfl
    rw [hStrip, readLine, if_pos rfl, h]
  rw [readLines_nonempty (by decide) hBrace]
  rfl

end Reader

/-- Reading the text of a function builds what its lines say. -/
theorem Func.parse_text {f g : Func} (hNames : ∀ x ∈ f.name :: f.args, isIdent x.toList = true)
    (hne : f.blocks ≠ []) (h : ∀ st ∈ f.statements, st.Readable)
    (hBuild : ((f.statements.map Statement.simplified).foldl Builder.statement
      (.empty f.name f.args)).build.2 = .ok g) : Func.parse f.text = .ok g := by
  rw [List.forall_mem_cons] at hNames
  have hHeader := Reader.isLine_header hNames.1 hNames.2
  have hStrip : stripComment ([] ++ f.header.toList) = f.header.toList :=
    hHeader.stripComment_eq (by simp)
  rw [List.nil_append] at hStrip
  have hBegin : Reader.readLine .beforeHeader (stripComment f.header.toList) =
      .ok (.inBody (.empty f.name f.args)) := by
    rw [hStrip, Reader.readLine, Reader.readHeader_text hNames.1 hNames.2]
    rfl
  have hFirst : stripComment f.header.toList ≠ [] := by
    rw [hStrip]
    exact hHeader.nonempty
  have hError := (Builder.finalError_eq_none.mp (Builder.build_ok hBuild).1).1
  have hLines : Reader.readLines .beforeHeader 1 (splitOn '\n' f.text.toList) = .ok (.done g) := by
    obtain ⟨number, hBody⟩ := Reader.readLines_statements h hError
    rw [splitOn_text hne hHeader.no_feed h, Reader.readLines_nonempty hFirst hBegin, hBody,
      Reader.readLines_end hBuild]
  rw [Func.parse]
  simp only [hLines]

end RefElision
