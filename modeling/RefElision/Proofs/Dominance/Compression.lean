import RefElision.Proofs.Dominance.Sweep

/-! Compression goes unnoticed. What the sweep does to its forest is a list of moves: vertices
are linked to their parents in descending order, semidominators are lowered as long as
their vertices are not linked, and questions are asked in between. The links alone make up
the forest as it would be without compression. -/
namespace RefElision

namespace LinkForest

/-- What can be done to a forest. -/
inductive Move where
  | eval (v : Nat)
  | lower (v semi : Nat)
  | link (parent child : Nat)
  deriving DecidableEq

def apply (f : LinkForest) : Move → LinkForest
  | .eval v => (f.eval v).2
  | .lower v semi => f.lower v semi
  | .link parent child => f.link parent child

/-- The semidominator of the vertex that answers a question. -/
def answer (f : LinkForest) (v : Nat) : Nat :=
  (f.eval v).2.semiOf (f.eval v).1

def replay (f : LinkForest) (moves : List Move) : LinkForest :=
  moves.foldl apply f

/-- Moves before which the vertices from the first number on are linked, and after which
those from the last number on are linked. -/
inductive Performable (parent : Nat → Nat) (size : Nat) : Nat → List Move → Nat → Prop where
  | nil (first : Nat) : Performable parent size first [] first
  | eval {first last v : Nat} {moves : List Move} (vertex : v < size)
      (rest : Performable parent size first moves last) :
      Performable parent size first (.eval v :: moves) last
  | lower {first last v semi : Nat} {moves : List Move} (vertex : v < size)
      (unlinked : v < first) (rest : Performable parent size first moves last) :
      Performable parent size first (.lower v semi :: moves) last
  | link {last i : Nat} {moves : List Move} (positive : 0 < i) (vertex : i < size)
      (rest : Performable parent size i moves last) :
      Performable parent size (i + 1) (.link (parent i) i :: moves) last

/-- The second vertex is on the way up from the first in the forest of the links made. The
root of the tree, which is not linked, does not count. -/
inductive OnPath (moves : List Move) : Nat → Nat → Prop where
  | here {p w : Nat} (linked : .link w p ∈ moves) : OnPath moves p p
  | up {p w x : Nat} (linked : .link w p ∈ moves) (rest : OnPath moves w x) : OnPath moves p x

/-- The compression of a path, followed from ancestor to ancestor until it ends below the
root of the tree. -/
inductive Compresses (f : LinkForest) : Nat → LinkForest → Prop where
  | short {v a : Nat} (ancestor : f.ancestorOf v = some a) (root : f.ancestorOf a = none) :
      Compresses f v f
  | long {v a b : Nat} {g : LinkForest} (ancestor : f.ancestorOf v = some a)
      (above : f.ancestorOf a = some b) (rest : Compresses f a g) :
      Compresses f v (g.shortcut v a)

theorem replay_append (f : LinkForest) (front back : List Move) :
    replay f (front ++ back) = replay (replay f front) back :=
  List.foldl_append

section Moves

variable {parent : Nat → Nat} {size first mid last : Nat} {moves more : List Move}

namespace Performable

theorem append (h : Performable parent size first moves mid)
    (h' : Performable parent size mid more last) :
    Performable parent size first (moves ++ more) last := by
  induction h with
  | nil => exact h'
  | eval vertex _ ih => exact .eval vertex (ih h')
  | lower vertex unlinked _ ih => exact .lower vertex unlinked (ih h')
  | link positive vertex _ ih => exact .link positive vertex (ih h')

theorem split (h : Performable parent size first (moves ++ more) last) :
    ∃ mid, Performable parent size first moves mid ∧ Performable parent size mid more last := by
  induction moves generalizing first with
  | nil => exact ⟨first, .nil first, h⟩
  | cons move moves ih =>
      cases h with
      | eval vertex rest =>
          obtain ⟨mid, hFront, hBack⟩ := ih rest
          exact ⟨mid, .eval vertex hFront, hBack⟩
      | lower vertex unlinked rest =>
          obtain ⟨mid, hFront, hBack⟩ := ih rest
          exact ⟨mid, .lower vertex unlinked hFront, hBack⟩
      | link positive vertex rest =>
          obtain ⟨mid, hFront, hBack⟩ := ih rest
          exact ⟨mid, .link positive vertex hFront, hBack⟩

theorem last_le (h : Performable parent size first moves last) : last ≤ first := by
  induction h with
  | nil => exact Nat.le_refl _
  | eval _ _ ih => exact ih
  | lower _ _ _ ih => exact ih
  | link _ _ _ ih => exact Nat.le_succ_of_le ih

/-- The links made are those of the vertices in between to their parents. -/
theorem mem_link_iff (h : Performable parent size first moves last) {w p : Nat} :
    .link w p ∈ moves ↔ w = parent p ∧ last ≤ p ∧ p < first := by
  induction h with
  | nil => simp only [List.not_mem_nil, false_iff]; omega
  | eval _ _ ih => simpa using ih
  | lower _ _ _ ih => simpa using ih
  | @link last i moves _ _ rest ih =>
      have hLe := rest.last_le
      rw [List.mem_cons, ih]
      constructor
      · rintro (hEq | ⟨hw, hLast, hFirst⟩)
        · obtain ⟨rfl, rfl⟩ := Move.link.inj hEq
          exact ⟨rfl, hLe, Nat.lt_succ_self _⟩
        · exact ⟨hw, hLast, by omega⟩
      · rintro ⟨rfl, hLast, hFirst⟩
        by_cases hEq : p = i
        · exact .inl (by rw [hEq])
        · exact .inr ⟨rfl, hLast, by omega⟩

theorem positive_of_link (h : Performable parent size first moves last) {w p : Nat}
    (hMem : .link w p ∈ moves) : 0 < p := by
  induction h with
  | nil => cases hMem
  | eval _ _ ih => exact ih (by simpa using hMem)
  | lower _ _ _ ih => exact ih (by simpa using hMem)
  | link positive _ _ ih =>
      rcases List.mem_cons.mp hMem with hEq | hRest
      · obtain ⟨_, rfl⟩ := Move.link.inj hEq
        exact positive
      · exact ih hRest

end Performable

variable {succ : Nat → List Nat} {f g : LinkForest}

/-- The forest of the links is the tree of parents, cut off above the vertices linked. -/
theorem onPath_iff (hDepth : DepthFirst size succ parent)
    (h : Performable parent size size moves first) {p x : Nat} (hp : p < size) :
    OnPath moves p x ↔ Ancestor parent x p ∧ first ≤ x := by
  constructor
  · intro hPath
    induction hPath with
    | here linked =>
        obtain ⟨_, hFirst, _⟩ := h.mem_link_iff.mp linked
        exact ⟨.refl _, hFirst⟩
    | up linked _ ih =>
        obtain ⟨rfl, _, hLt⟩ := h.mem_link_iff.mp linked
        have hPositive := h.positive_of_link linked
        have hLess := hDepth.parent_lt _ hPositive hLt
        obtain ⟨hAnc, hFirst⟩ := ih (by omega)
        exact ⟨.above hPositive hAnc, hFirst⟩
  · rintro ⟨hAnc, hFirst⟩
    induction hAnc with
    | refl => exact .here (h.mem_link_iff.mpr ⟨rfl, hFirst, hp⟩)
    | @above p positive rest ih =>
        have hLess := hDepth.parent_lt p positive hp
        have hLe := hDepth.le_of_ancestor rest (by omega)
        exact .up (h.mem_link_iff.mpr ⟨rfl, by omega, hp⟩) (ih (by omega))

/-- Whatever is done, the vertices linked so far are those from the last number on. -/
theorem Linked.replay (hDepth : DepthFirst size succ parent) (h : Linked parent size first f)
    (hMoves : Performable parent size first moves last) :
    Linked parent size last (f.replay moves) := by
  induction hMoves generalizing f with
  | nil => exact h
  | eval vertex _ ih => exact ih (h.eval hDepth vertex).1
  | lower vertex unlinked _ ih => exact ih (h.lower unlinked vertex)
  | link positive vertex _ ih => exact ih (h.link hDepth positive vertex)

/-- Two forests that differ by compression only still do so after the same moves. -/
theorem semi_replay (hDepth : DepthFirst size succ parent) (hf : Linked parent size first f)
    (hg : Linked parent size first g) (hSemi : f.semi = g.semi)
    (hMoves : Performable parent size first moves last) :
    (f.replay moves).semi = (g.replay moves).semi := by
  induction hMoves generalizing f g with
  | nil => exact hSemi
  | eval vertex _ ih =>
      obtain ⟨hfLinked, hfSemi, _⟩ := hf.eval hDepth vertex
      obtain ⟨hgLinked, hgSemi, _⟩ := hg.eval hDepth vertex
      exact ih hfLinked hgLinked (hfSemi.trans (hSemi.trans hgSemi.symm))
  | lower vertex unlinked _ ih =>
      refine ih (hf.lower unlinked vertex) (hg.lower unlinked vertex) ?_
      simp only [apply, LinkForest.lower, semiOf, hSemi]
  | link positive vertex _ ih =>
      exact ih (hf.link hDepth positive vertex) (hg.link hDepth positive vertex) hSemi

/-- The semidominator of an answer depends on the links and the semidominators only. -/
theorem answer_eq (hDepth : DepthFirst size succ parent) (hf : Linked parent size first f)
    (hg : Linked parent size first g) (hSemi : f.semi = g.semi) {q : Nat} (hq : q < size) :
    f.answer q = g.answer q := by
  obtain ⟨_, hfKept, hfRoot, hfBranch⟩ := hf.eval hDepth hq
  obtain ⟨_, hgKept, hgRoot, hgBranch⟩ := hg.eval hDepth hq
  have hSame : ∀ x, f.semiOf x = g.semiOf x := fun x => by simp only [semiOf, hSemi]
  have hfAnswer : f.answer q = f.semiOf (f.eval q).1 := by simp only [answer, semiOf, hfKept]
  have hgAnswer : g.answer q = g.semiOf (g.eval q).1 := by simp only [answer, semiOf, hgKept]
  rw [hfAnswer, hgAnswer]
  by_cases hFirst : q < first
  · rw [hfRoot hFirst, hgRoot hFirst, hSame]
  · obtain ⟨hfOn, hfLinked, hfLeast⟩ := hfBranch (by omega)
    obtain ⟨hgOn, hgLinked, hgLeast⟩ := hgBranch (by omega)
    apply Nat.le_antisymm
    · exact Nat.le_trans (hfLeast _ hgOn hgLinked) (Nat.le_of_eq (hSame _))
    · exact Nat.le_trans (hgLeast _ hfOn hfLinked) (Nat.le_of_eq (hSame _).symm)

theorem Linked.ancestor_lt (h : Linked parent size first f) {v w : Nat}
    (hAncestor : f.ancestorOf v = some w) : w < v := by
  by_cases hv : v < size
  · exact (h.spanned_of_ancestor hv hAncestor).less
  · rw [ancestorOf, Array.getD_eq_getD_getElem?,
      Array.getElem?_eq_none (h.ancestor_size.symm ▸ Nat.le_of_not_lt hv)] at hAncestor
    cases hAncestor

/-- Compression follows the ancestors to the end, since each has a smaller number than the
one before. -/
theorem Linked.compresses (h : Linked parent size first f) {v : Nat} (hFirst : first ≤ v)
    (hv : v < size) : Compresses f v (f.compress v) := by
  fun_induction LinkForest.compress f v with
  | case1 v hNone =>
      obtain ⟨a, hSpanned⟩ := h.spanned v hFirst hv
      simp [hSpanned.ancestor] at hNone
  | case2 v a hSome hGuard ih =>
      obtain ⟨b, hAbove⟩ := Option.isSome_iff_exists.mp hGuard.2
      have ha : a < size := Nat.lt_trans hGuard.1 hv
      exact .long hSome hAbove (ih (h.first_le ha hGuard.2) ha)
  | case3 v a hSome hGuard =>
      have hLess := h.ancestor_lt hSome
      have hRoot : f.ancestorOf a = none := by
        cases hAbove : f.ancestorOf a with
        | none => rfl
        | some b => exact (hGuard ⟨hLess, by rw [hAbove]; rfl⟩).elim
      exact .short hSome hRoot

section Answers

variable {p : Nat} (hDepth : DepthFirst size succ parent)
  (hDone : Performable parent size size moves first) (hLinked : Linked parent size first f)
include hDepth hDone hLinked

/-- A vertex without a link answers itself. -/
theorem eval_of_not_linked (hp : p < size) (hNone : ∀ w, .link w p ∉ moves) :
    (f.eval p).1 = p := by
  obtain ⟨_, _, hSelf, _⟩ := hLinked.eval hDepth hp
  apply hSelf
  by_contra hFirst
  exact hNone (parent p) (hDone.mem_link_iff.mpr ⟨rfl, by omega, hp⟩)

/-- A vertex with a link answers with the least semidominator on its way up. -/
theorem eval_of_linked {w : Nat} (hp : p < size) (hMem : .link w p ∈ moves) :
    OnPath moves p (f.eval p).1 ∧
      ∀ x, OnPath moves p x → f.semiOf (f.eval p).1 ≤ f.semiOf x := by
  obtain ⟨_, hFirst, _⟩ := hDone.mem_link_iff.mp hMem
  obtain ⟨_, _, _, hBranch⟩ := hLinked.eval hDepth hp
  obtain ⟨hOn, hAnswer, hLeast⟩ := hBranch hFirst
  refine ⟨(onPath_iff hDepth hDone hp).mpr ⟨hOn, hAnswer⟩, fun x hx => ?_⟩
  obtain ⟨hAnc, hxFirst⟩ := (onPath_iff hDepth hDone hp).mp hx
  exact hLeast x hAnc hxFirst

end Answers

/-- Having asked about a vertex changes no later answer. -/
theorem answer_after_eval (hDepth : DepthFirst size succ parent)
    (hLinked : Linked parent size first f) {p q : Nat} (hp : p < size)
    (hLater : Performable parent size first more last) (hq : q < size) :
    ((f.eval p).2.replay more).answer q = (f.replay more).answer q := by
  obtain ⟨hKept, hSemi, _⟩ := hLinked.eval hDepth hp
  exact answer_eq hDepth (hKept.replay hDepth hLater) (hLinked.replay hDepth hLater)
    (semi_replay hDepth hKept hLinked hSemi hLater) hq

end Moves

end LinkForest

namespace Semidominator

open LinkForest (Move Performable OnPath Compresses replay_append)

variable {t : SpanningTree} {a : Adjacency} {root i : Nat} {s : State}

/-- What is done to take the offers of some predecessors. -/
def offerMoves (i : Nat) : LinkForest → List Nat → List Move
  | _, [] => []
  | f, p :: preds =>
    .eval p :: .lower i (f.answer p) :: offerMoves i (offer i f p) preds

/-- What is done during one visit. -/
def visitMoves (t : SpanningTree) (a : Adjacency) (i : Nat) (s : State) : List Move :=
  let offered := (t.predecessors a i).foldl (offer i) s.forest
  let semi := offered.semiOf i
  let buckets := s.buckets.setIfInBounds semi (i :: s.buckets.getD semi [])
  offerMoves i s.forest (t.predecessors a i) ++
    .link (t.parent i) i :: (buckets.getD (t.parent i) []).map .eval

/-- What is done by the sweep from the given number on. -/
def sweepMoves (t : SpanningTree) (a : Adjacency) : Nat → State → List Move
  | 0, _ => []
  | i + 1, s => visitMoves t a (i + 1) s ++ sweepMoves t a i (visit t a (i + 1) s)

theorem replay_offerMoves (i : Nat) (f : LinkForest) (preds : List Nat) :
    f.replay (offerMoves i f preds) = preds.foldl (offer i) f := by
  induction preds generalizing f with
  | nil => rfl
  | cons p preds ih => exact ih (offer i f p)

theorem replay_settle (parent : Nat) (s : State) (vs : List Nat) :
    s.forest.replay (vs.map .eval) = (vs.foldl (settle parent) s).forest := by
  induction vs generalizing s with
  | nil => rfl
  | cons v vs ih => exact ih (settle parent s v)

theorem replay_visitMoves : s.forest.replay (visitMoves t a i s) = (visit t a i s).forest := by
  rw [visitMoves, replay_append, replay_offerMoves]
  exact replay_settle (t.parent i) { s with forest := _ } _

theorem replay_sweepMoves : s.forest.replay (sweepMoves t a i s) = (sweep t a i s).forest := by
  induction i generalizing s with
  | zero => rfl
  | succ i ih => rw [sweepMoves, replay_append, replay_visitMoves, ih, sweep]

theorem performable_offerMoves {parent : Nat → Nat} {size : Nat} (hi : i < size)
    {f : LinkForest} {preds : List Nat} (hPreds : ∀ p ∈ preds, p < size) :
    Performable parent size (i + 1) (offerMoves i f preds) (i + 1) := by
  induction preds generalizing f with
  | nil => exact .nil _
  | cons p preds ih =>
      refine .eval (hPreds p List.mem_cons_self) (.lower hi (Nat.lt_succ_self i) ?_)
      exact ih fun q hq => hPreds q (List.mem_cons_of_mem _ hq)

theorem performable_evals {parent : Nat → Nat} {size first : Nat} {vs : List Nat}
    (h : ∀ v ∈ vs, v < size) : Performable parent size first (vs.map .eval) first := by
  induction vs with
  | nil => exact .nil _
  | cons v vs ih =>
      exact .eval (h v List.mem_cons_self) (ih fun w hw => h w (List.mem_cons_of_mem _ hw))

/-- Only vertices wait in buckets. -/
def OnlyVertices (size : Nat) (buckets : Array (List Nat)) : Prop :=
  ∀ k, ∀ v ∈ buckets.getD k [], v < size

theorem OnlyVertices.set {size : Nat} {buckets : Array (List Nat)}
    (h : OnlyVertices size buckets) (k : Nat) {vs : List Nat} (hvs : ∀ v ∈ vs, v < size) :
    OnlyVertices size (buckets.setIfInBounds k vs) := by
  intro j v hv
  by_cases hk : k < buckets.size
  · rw [getD_setIfInBounds _ hk] at hv
    split at hv
    case isTrue => exact hvs v hv
    case isFalse => exact h j v hv
  · rw [Array.setIfInBounds, dif_neg hk] at hv
    exact h j v hv

theorem OnlyVertices.put {size : Nat} (h : OnlyVertices size s.buckets) (hi : i < size)
    (semi : Nat) : OnlyVertices size (s.buckets.setIfInBounds semi (i :: s.buckets.getD semi [])) :=
  h.set semi fun v hv => (List.mem_cons.mp hv).elim (fun hEq => hEq ▸ hi) (h semi v)

theorem OnlyVertices.visit (h : OnlyVertices t.size s.buckets) (hi : i < t.size) :
    OnlyVertices t.size (visit t a i s).buckets :=
  (h.put hi _).set _ fun _ hv => nomatch hv

theorem onlyVertices_start (size : Nat) : OnlyVertices size (start size).buckets := by
  intro k v hv
  simp only [start, Array.getD_eq_getD_getElem?, Array.getElem?_replicate] at hv
  split at hv <;> simp at hv

/-- One visit links its vertex. -/
theorem performable_visitMoves (h : OnlyVertices t.size s.buckets) (hPositive : 0 < i)
    (hi : i < t.size) : Performable t.parent t.size (i + 1) (visitMoves t a i s) i := by
  have hPreds : ∀ p ∈ t.predecessors a i, p < t.size := fun p hp =>
    ((SpanningTree.mem_predecessors hi).mp hp).1
  exact (performable_offerMoves hi hPreds).append
    (.link hPositive hi (performable_evals ((h.put hi _) _)))

/-- The sweep links all vertices but the root. -/
theorem performable_sweepMoves (h : OnlyVertices t.size s.buckets) (hi : i < t.size) :
    Performable t.parent t.size (i + 1) (sweepMoves t a i s) 1 := by
  induction i generalizing s with
  | zero => exact .nil 1
  | succ i ih =>
      exact (performable_visitMoves h (Nat.succ_pos i) hi).append (ih (h.visit hi) (by omega))

/-- The moves of the sweep can be cut off anywhere, and what has been done up to there are
moves that can be performed. After any such moves, ancestors have smaller numbers, so
compression comes to an end. A vertex that is not linked answers itself. A linked one
answers with a vertex of least semidominator on its way up in the forest of the links.
Asking about it changes the semidominator of no later answer. -/
theorem compression_keeps_answers (hRange : a.InRange) (hRoot : root < a.size) :
    let t := SpanningTree.ofRoot a root
    let moves := sweepMoves t a (t.size - 1) (start t.size)
    ((LinkForest.unlinked t.size).replay moves = (sweep t a (t.size - 1) (start t.size)).forest ∧
      ∀ done rest, moves = done ++ rest → ∃ first, Performable t.parent t.size t.size done first ∧
        Performable t.parent t.size first rest 1) ∧
    ∀ done first, Performable t.parent t.size t.size done first →
      let f := (LinkForest.unlinked t.size).replay done
      (∀ v w, f.ancestorOf v = some w → w < v) ∧
      ∀ p, p < t.size →
        ((∀ w, .link w p ∉ done) → (f.eval p).1 = p) ∧
        (∀ w, .link w p ∈ done → Compresses f p (f.compress p) ∧ OnPath done p (f.eval p).1 ∧
          ∀ x, OnPath done p x → f.semiOf (f.eval p).1 ≤ f.semiOf x) ∧
        ∀ later last, Performable t.parent t.size first later last → ∀ q, q < t.size →
          ((f.eval p).2.replay later).answer q = (f.replay later).answer q := by
  intro t moves
  have hSpans : t.Spans a root := SpanningTree.spans_ofRoot hRange hRoot
  have hDepth := hSpans.depthFirst
  have hForest : (start t.size).forest.replay moves =
      (sweep t a (t.size - 1) (start t.size)).forest := replay_sweepMoves
  refine ⟨⟨hForest, fun done rest hSplit => ?_⟩, fun done first hDone => ?_⟩
  · have hPositive := hSpans.positive
    have hAll : Performable t.parent t.size (t.size - 1 + 1) moves 1 :=
      performable_sweepMoves (onlyVertices_start t.size) (by omega)
    rw [Nat.sub_add_cancel hPositive, hSplit] at hAll
    exact hAll.split
  · intro f
    have hLinked : LinkForest.Linked t.parent t.size first f :=
      (LinkForest.linked_unlinked t.parent t.size).replay hDepth hDone
    refine ⟨fun v w => hLinked.ancestor_lt, fun p hp => ⟨?_, fun w hMem => ?_, ?_⟩⟩
    · exact LinkForest.eval_of_not_linked hDepth hDone hLinked hp
    · obtain ⟨_, hFirst, _⟩ := hDone.mem_link_iff.mp hMem
      exact ⟨hLinked.compresses hFirst hp, LinkForest.eval_of_linked hDepth hDone hLinked hp hMem⟩
    · exact fun later last hLater q => LinkForest.answer_after_eval hDepth hLinked hp hLater

/-- A cycle that is entered both at its beginning and past it. -/
def lateEntry : Adjacency :=
  #[[1, 3], [2], [3], [4], [2]]

/-- What is done until vertex 2 asks about vertex 4, from which two links lead up to it. -/
def lateEntryDone : List Move :=
  [.eval 3, .lower 4 3, .link 3 4, .eval 4, .eval 0, .lower 3 0, .eval 2, .lower 3 2, .link 2 3,
    .eval 1, .lower 2 1]

def lateEntryRest : List Move :=
  [.lower 2 0, .link 1 2, .eval 0, .lower 1 0, .link 0 1, .eval 1, .eval 2, .eval 3]

def lateEntryForest : LinkForest :=
  { semi := #[0, 1, 1, 0, 3]
    best := #[0, 1, 2, 3, 4]
    ancestor := #[none, none, none, some 2, some 3] }

/-- The answer is vertex 3, which has semidominator 0. Vertex 4 leads straight to vertex 2
afterwards, and the rest of the sweep gets the same answers either way. -/
theorem compression_keeps_answers_lateEntry :
    lateEntry.InRange ∧
    sweepMoves (SpanningTree.ofRoot lateEntry 0) lateEntry 4 (start 5) =
      lateEntryDone ++ .eval 4 :: lateEntryRest ∧
    (LinkForest.unlinked 5).replay lateEntryDone = lateEntryForest ∧
    (lateEntryForest.eval 4).1 = 3 ∧ (lateEntryForest.eval 4).2.ancestorOf 4 = some 2 ∧
    OnPath lateEntryDone 4 3 ∧
    (∀ x, OnPath lateEntryDone 4 x → lateEntryForest.semiOf 3 ≤ lateEntryForest.semiOf x) ∧
    ∀ q, q < 5 → ((lateEntryForest.eval 4).2.replay lateEntryRest).answer q =
      (lateEntryForest.replay lateEntryRest).answer q := by
  have hRange : lateEntry.InRange := by
    unfold Adjacency.InRange
    decide
  have hSize : (SpanningTree.ofRoot lateEntry 0).size = 5 := by decide +kernel
  have hMoves : sweepMoves (SpanningTree.ofRoot lateEntry 0) lateEntry 4 (start 5) =
      lateEntryDone ++ .eval 4 :: lateEntryRest := by decide +kernel
  have hForest : (LinkForest.unlinked 5).replay lateEntryDone = lateEntryForest := by decide +kernel
  have hAnswer : (lateEntryForest.eval 4).1 = 3 := by decide +kernel
  have hCompressed : (lateEntryForest.eval 4).2.ancestorOf 4 = some 2 := by decide +kernel
  obtain ⟨⟨_, hCut⟩, hStates⟩ :=
    compression_keeps_answers hRange (show 0 < lateEntry.size by decide)
  simp only [hSize, Nat.reduceSub] at hCut hStates
  obtain ⟨first, hDone, hRest⟩ := hCut lateEntryDone (.eval 4 :: lateEntryRest) hMoves
  obtain ⟨_, hLinked, hLater⟩ := (hStates lateEntryDone first hDone).2 4 (by decide)
  rw [hForest] at hLinked hLater
  obtain ⟨_, hOn, hLeast⟩ := hLinked 3 (by simp [lateEntryDone])
  rw [hAnswer] at hOn hLeast
  cases hRest with
  | eval _ hRest =>
      exact ⟨hRange, hMoves, hForest, hAnswer, hCompressed, hOn, hLeast,
        hLater lateEntryRest 1 hRest⟩

end Semidominator

end RefElision
