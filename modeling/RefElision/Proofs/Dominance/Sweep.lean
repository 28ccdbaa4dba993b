import RefElision.Dominance.Semidominator
import RefElision.Proofs.Dominance.Exploration
import RefElision.Proofs.Dominance.LinkEval
import RefElision.Proofs.Dominance.Semidominators

/-! The sweep against the depth-first numbers. After each visit the semidominators of all
vertices visited so far are known, and each of these vertices either waits in the
bucket of its semidominator or has its relative dominator recorded. -/
namespace RefElision.Semidominator

open LinkForest (Linked)

variable {t : SpanningTree} {a : Adjacency} {root i : Nat}

/-- What is recorded for a vertex: the vertex with the least semidominator on the branch
below the vertex's own semidominator, or that semidominator itself if no other one
is less. -/
def Recorded (parent semi dom : Nat → Nat) (v : Nat) : Prop :=
  ∃ u, Ancestor parent u v ∧ semi v < u ∧
    (∀ y, Ancestor parent y v → semi v < y → semi u ≤ semi y) ∧
    dom v = if semi u < semi v then u else semi v

/-- The semidominators before vertex `i` is visited: they are known for later vertices,
and every other vertex is still its own. -/
structure Known (t : SpanningTree) (semi : Nat → Nat) (i : Nat) (f : LinkForest) : Prop where
  linked : Linked t.parent t.size (i + 1) f
  done : ∀ v, i < v → v < t.size → f.semiOf v = semi v
  todo : ∀ v, v < i → v < t.size → f.semiOf v = v

/-- The offers of some predecessors of `i` have been taken: the semidominator of `i` so
far has a detour, and none of what they offer is less. -/
structure Offered (t : SpanningTree) (a : Adjacency) (semi : Nat → Nat) (i : Nat)
    (preds : List Nat) (f : LinkForest) : Prop where
  known : Known t semi i f
  sound : f.semiOf i = i ∨ Detour (t.numberSucc a) i (f.semiOf i)
  before : ∀ p ∈ preds, p < i → f.semiOf i ≤ p
  behind : ∀ p ∈ preds, ∀ u, Ancestor t.parent u p → i < u → f.semiOf i ≤ semi u

/-- A vertex that waits for the visit of `i`: the branch below its semidominator starts
with `i`. -/
structure Waiting (t : SpanningTree) (semi : Nat → Nat) (i v : Nat) : Prop where
  lt_size : v < t.size
  semi_eq : semi v = t.parent i
  ancestor : Ancestor t.parent i v

/-- The state before vertex `i` is visited. A vertex waits in the bucket of its
semidominator as long as no child of that has been visited from the vertex on. -/
structure Swept (t : SpanningTree) (semi : Nat → Nat) (i : Nat) (s : State) : Prop where
  known : Known t semi i s.forest
  own : i < t.size → s.forest.semiOf i = i
  dom_size : s.dom.size = t.size
  buckets_size : s.buckets.size = t.size
  bucket : ∀ k, ∀ v ∈ s.buckets.getD k [], i < v ∧ v < t.size ∧ semi v = k ∧
    ∀ w, i < w → w ≤ v → t.parent w ≠ k
  placed : ∀ v, i < v → v < t.size → v ∈ s.buckets.getD (semi v) [] ∨
    Recorded t.parent semi (fun w => s.dom.getD w 0) v

section

variable {semi : Nat → Nat} (hSpans : t.Spans a root)
  (hSemi : ∀ v, 0 < v → v < t.size → Semidominates t.size (t.numberSucc a) (semi v) v)

section Offer

variable {f : LinkForest} {p : Nat}
include hSpans

/-- An offer lowers the semidominator of the vertex that it is made to, and no other one. -/
theorem Known.semiOf_offer (h : Known t semi i f) (hi : i < t.size) (hp : p < t.size) (v : Nat) :
    (offer i f p).semiOf v =
      if i = v then min (f.semiOf i) (f.semiOf (f.eval p).1) else f.semiOf v := by
  obtain ⟨hLinked, hKept, _⟩ := h.linked.eval hSpans.depthFirst hp
  have hSemiOf : ∀ v, (f.eval p).2.semiOf v = f.semiOf v := fun v => by
    simp only [LinkForest.semiOf, hKept]
  show ((f.eval p).2.lower i ((f.eval p).2.semiOf (f.eval p).1)).semiOf v = _
  rw [LinkForest.semiOf_lower _ _ _ _ (hLinked.semi_size.symm ▸ hi)]
  simp only [hSemiOf]

theorem Known.offer (h : Known t semi i f) (hi : i < t.size) (hp : p < t.size) :
    Known t semi i (offer i f p) := by
  have hOther : ∀ v, i ≠ v → (Semidominator.offer i f p).semiOf v = f.semiOf v := fun v hv => by
    rw [h.semiOf_offer hSpans hi hp, if_neg hv]
  constructor
  case linked => exact (h.linked.eval hSpans.depthFirst hp).1.lower (by omega) hi
  case done =>
    intro v hiv hv
    rw [hOther v (by omega)]
    exact h.done v hiv hv
  case todo =>
    intro v hvi hv
    rw [hOther v (by omega)]
    exact h.todo v hvi hv

/-- An earlier vertex offers itself. -/
theorem Known.eval_before (h : Known t semi i f) (hp : p < t.size) (hLess : p < i) :
    f.semiOf (f.eval p).1 = p := by
  obtain ⟨_, _, hRoot, _⟩ := h.linked.eval hSpans.depthFirst hp
  rw [hRoot (by omega)]
  exact h.todo p hLess hp

/-- A later vertex offers the least semidominator on its branch. -/
theorem Known.eval_behind (h : Known t semi i f) (hp : p < t.size) (hLess : i < p) :
    ∃ u, Ancestor t.parent u p ∧ i < u ∧ f.semiOf (f.eval p).1 = semi u ∧
      ∀ x, Ancestor t.parent x p → i < x → semi u ≤ semi x := by
  obtain ⟨_, _, _, hBranch⟩ := h.linked.eval hSpans.depthFirst hp
  obtain ⟨hAnc, hFirst, hLeast⟩ := hBranch hLess
  have hLe := hSpans.depthFirst.le_of_ancestor hAnc hp
  have hEq := h.done (f.eval p).1 (by omega) (by omega)
  refine ⟨(f.eval p).1, hAnc, hFirst, hEq, fun x hx hix => ?_⟩
  have hxLe := hSpans.depthFirst.le_of_ancestor hx hp
  rw [← hEq, ← h.done x hix (by omega)]
  exact hLeast x hx hix

include hSemi

/-- Taking the offer of one more predecessor. -/
theorem Offered.take (hi : i < t.size) {preds : List Nat} (h : Offered t a semi i preds f)
    (hp : p ∈ t.predecessors a i) : Offered t a semi i (preds ++ [p]) (offer i f p) := by
  obtain ⟨hpSize, hEdge⟩ := (SpanningTree.mem_predecessors hi).mp hp
  have hOwn : (offer i f p).semiOf i = min (f.semiOf i) (f.semiOf (f.eval p).1) := by
    rw [h.known.semiOf_offer hSpans hi hpSize, if_pos rfl]
  constructor
  case known => exact h.known.offer hSpans hi hpSize
  case sound =>
    rw [hOwn]
    rcases Nat.le_total (f.semiOf i) (f.semiOf (f.eval p).1) with hLe | hLe
    · rw [Nat.min_eq_left hLe]
      exact h.sound
    · rw [Nat.min_eq_right hLe]
      rcases Nat.lt_trichotomy p i with hLess | rfl | hGreater
      · rw [h.known.eval_before hSpans hpSize hLess]
        exact .inr (.edge hEdge)
      · obtain ⟨_, _, hRoot, _⟩ := h.known.linked.eval hSpans.depthFirst hpSize
        rw [hRoot (by omega)]
        exact h.sound
      · obtain ⟨u, hAnc, hFirst, hEq, _⟩ := h.known.eval_behind hSpans hpSize hGreater
        have hLess := hSpans.depthFirst.le_of_ancestor hAnc hpSize
        rw [hEq]
        refine .inr (Detour.of_ancestor hSpans.depthFirst hAnc hpSize (by omega) hEdge ?_)
        exact (hSemi u (by omega) (by omega)).detour
  case before =>
    intro q hq hLess
    rw [hOwn]
    rcases List.mem_append.mp hq with hOld | hNew
    · have hBound := h.before q hOld hLess
      omega
    · obtain rfl := List.mem_singleton.mp hNew
      rw [h.known.eval_before hSpans hpSize hLess]
      omega
  case behind =>
    intro q hq u hAnc hLess
    rw [hOwn]
    rcases List.mem_append.mp hq with hOld | hNew
    · have hBound := h.behind q hOld u hAnc hLess
      omega
    · obtain rfl := List.mem_singleton.mp hNew
      have hLe := hSpans.depthFirst.le_of_ancestor hAnc hpSize
      obtain ⟨_, _, _, hEq, hLeast⟩ := h.known.eval_behind hSpans hpSize (by omega)
      have hBound := hLeast u hAnc hLess
      omega

end Offer

include hSpans hSemi in
/-- The offers of all predecessors together give the semidominator. -/
theorem known_offered (hi : 0 < i) (hSize : i < t.size) {f : LinkForest}
    (hKnown : Known t semi i f) (hOwn : f.semiOf i = i) :
    Known t semi i ((t.predecessors a i).foldl (offer i) f) ∧
      ((t.predecessors a i).foldl (offer i) f).semiOf i = semi i := by
  have hFold : ∀ preds rest : List Nat, ∀ f, preds ++ rest = t.predecessors a i →
      Offered t a semi i preds f →
      Offered t a semi i (preds ++ rest) (rest.foldl (offer i) f) := by
    intro preds rest
    induction rest generalizing preds with
    | nil => intro f _ h; simpa using h
    | cons p rest ih =>
        intro f hEq h
        have hMem : p ∈ t.predecessors a i := hEq ▸ by simp
        have hStep := ih (preds ++ [p]) (offer i f p) (by simpa using hEq)
          (h.take hSpans hSemi hSize hMem)
        simpa using hStep
  have h := hFold [] (t.predecessors a i) f rfl
    ⟨hKnown, .inl hOwn, fun p hp => (List.not_mem_nil hp).elim,
      fun p hp => (List.not_mem_nil hp).elim⟩
  rw [List.nil_append] at h
  refine ⟨h.known, ?_⟩
  have hDepth := hSpans.depthFirst
  have hPred : ∀ p, p < t.size → i ∈ t.numberSucc a p → p ∈ t.predecessors a i :=
    fun p hp hEdge => (SpanningTree.mem_predecessors hSize).mpr ⟨hp, hEdge⟩
  have hParent := hDepth.parent_lt i hi hSize
  have hLow := h.before _ (hPred _ (by omega) (hDepth.parent_edge i hi hSize)) hParent
  have hIs := hSemi i hi hSize
  have hLess := hDepth.semi_lt hIs hi hSize
  have hGe := hIs.least _ (by omega) (h.sound.resolve_left (by omega))
  refine Nat.le_antisymm ?_ hGe
  rcases hDepth.detour_cases hIs.detour (by omega) with hEdge | ⟨p, u, hp, hEdge, hAnc, hiu, hRest⟩
  · exact h.before _ (hPred _ (by omega) hEdge) hLess
  · have hLe := hDepth.le_of_ancestor hAnc hp
    have hBound := h.behind p (hPred p hp hEdge) u hAnc hiu
    have hLeast := (hSemi u (by omega) (by omega)).least _ (by omega) hRest
    omega

include hSpans in
/-- The vertices on the branch of a vertex below `i` that are numbered above the parent
of `i` are those numbered from `i` on. -/
theorem between_iff (hi : 0 < i) (hSize : i < t.size) {v x : Nat} (hv : v < t.size)
    (hiv : Ancestor t.parent i v) (hx : Ancestor t.parent x v) : t.parent i < x ↔ i ≤ x := by
  have hDepth := hSpans.depthFirst
  have hParent := hDepth.parent_lt i hi hSize
  constructor
  · intro hBelow
    by_cases hLess : x < i
    · have hxi := hDepth.ancestor_of_le hx hiv hv (by omega)
      have hLe := hDepth.le_of_ancestor (hxi.parent_of_ne (by omega)).2 (by omega)
      omega
    · omega
  · intro hGe
    omega

include hSpans in
/-- Settling a waiting vertex records its relative dominator and leaves everything else
as it is recorded. -/
theorem settle_recorded (hi : 0 < i) (hSize : i < t.size) {s : State}
    (hLinked : Linked t.parent t.size i s.forest)
    (hKnown : ∀ v, i ≤ v → v < t.size → s.forest.semiOf v = semi v)
    (hDom : s.dom.size = t.size) {v : Nat} (hWaiting : Waiting t semi i v) :
    Linked t.parent t.size i (settle (t.parent i) s v).forest ∧
      (settle (t.parent i) s v).forest.semi = s.forest.semi ∧
      (settle (t.parent i) s v).dom.size = t.size ∧
      Recorded t.parent semi (fun w => (settle (t.parent i) s v).dom.getD w 0) v ∧
      ∀ w, w ≠ v → (settle (t.parent i) s v).dom.getD w 0 = s.dom.getD w 0 := by
  have hv := hWaiting.lt_size
  have hiv := hWaiting.ancestor
  have hLe := hSpans.depthFirst.le_of_ancestor hiv hv
  obtain ⟨hForest, hKept, _, hBranch⟩ := hLinked.eval hSpans.depthFirst hv
  obtain ⟨hAnc, hFirst, hLeast⟩ := hBranch hLe
  have hAncLe := hSpans.depthFirst.le_of_ancestor hAnc hv
  have hSemiOf : ∀ w, i ≤ w → w < t.size → (s.forest.eval v).2.semiOf w = semi w := by
    intro w hiw hw
    rw [← hKnown w hiw hw]
    simp only [LinkForest.semiOf, hKept]
  have hEntry : ∀ w, (settle (t.parent i) s v).dom.getD w 0 =
      if v = w then
        (if semi (s.forest.eval v).1 < semi v then (s.forest.eval v).1 else t.parent i)
      else s.dom.getD w 0 := by
    intro w
    rw [← hSemiOf _ hFirst (by omega), ← hSemiOf v hLe hv]
    exact getD_setIfInBounds _ (hDom.symm ▸ hv) _ _ _
  refine ⟨hForest, hKept, by simpa [settle] using hDom, ?_, fun w hw => ?_⟩
  · have hRange : ∀ x, Ancestor t.parent x v → (semi v < x ↔ i ≤ x) := by
      intro x hx
      rw [hWaiting.semi_eq]
      exact between_iff hSpans hi hSize hv hiv hx
    refine ⟨(s.forest.eval v).1, hAnc, (hRange _ hAnc).mpr hFirst, ?_, ?_⟩
    · intro y hy hBelow
      have hyLe := hSpans.depthFirst.le_of_ancestor hy hv
      have hyFirst := (hRange y hy).mp hBelow
      rw [← hKnown _ hFirst (by omega), ← hKnown y hyFirst (by omega)]
      exact hLeast y hy hyFirst
    · exact (hEntry v).trans (by rw [if_pos rfl, hWaiting.semi_eq])
  · rw [hEntry, if_neg (Ne.symm hw)]

include hSpans in
/-- Settling a bucket records the relative dominators of all its vertices. -/
theorem settle_bucket (hi : 0 < i) (hSize : i < t.size) (bucket : List Nat) {s : State}
    (hLinked : Linked t.parent t.size i s.forest)
    (hKnown : ∀ v, i ≤ v → v < t.size → s.forest.semiOf v = semi v)
    (hDom : s.dom.size = t.size) (hWaiting : ∀ v ∈ bucket, Waiting t semi i v) :
    let s' := bucket.foldl (settle (t.parent i)) s
    Linked t.parent t.size i s'.forest ∧ s'.forest.semi = s.forest.semi ∧
      s'.dom.size = t.size ∧
      (∀ v ∈ bucket, Recorded t.parent semi (fun w => s'.dom.getD w 0) v) ∧
      ∀ w, w ∉ bucket → s'.dom.getD w 0 = s.dom.getD w 0 := by
  induction bucket generalizing s with
  | nil => exact ⟨hLinked, rfl, hDom, by simp, fun _ _ => rfl⟩
  | cons v rest ih =>
      obtain ⟨hLinked', hKept, hDom', hRecorded, hOther⟩ :=
        settle_recorded hSpans hi hSize hLinked hKnown hDom (hWaiting v List.mem_cons_self)
      have hKnown' : ∀ w, i ≤ w → w < t.size →
          (settle (t.parent i) s v).forest.semiOf w = semi w := by
        intro w hiw hw
        rw [← hKnown w hiw hw]
        simp only [LinkForest.semiOf, hKept]
      obtain ⟨hLinkedR, hKeptR, hDomR, hRecordedR, hOtherR⟩ := ih hLinked' hKnown' hDom'
        fun w hw => hWaiting w (List.mem_cons_of_mem _ hw)
      refine ⟨hLinkedR, hKeptR.trans hKept, hDomR, fun w hw => ?_, fun w hw => ?_⟩
      · by_cases hIn : w ∈ rest
        · exact hRecordedR w hIn
        · obtain rfl := (List.mem_cons.mp hw).resolve_right hIn
          obtain ⟨u, hAnc, hBelow, hLeast, hEq⟩ := hRecorded
          exact ⟨u, hAnc, hBelow, hLeast, (hOtherR w hIn).trans hEq⟩
      · obtain ⟨hne, hOut⟩ := not_or.mp (fun h => hw (List.mem_cons.mpr h))
        exact (hOtherR w hOut).trans (hOther w hne)

include hSpans hSemi in
/-- The branch from a semidominator to its vertex starts with a child of the former. -/
theorem exists_branch_child {v : Nat} (hv : 0 < v) (hSize : v < t.size) :
    ∃ c, 0 < c ∧ c ≤ v ∧ t.parent c = semi v ∧ Ancestor t.parent c v := by
  have hDepth := hSpans.depthFirst
  have hChild : ∀ k w, Ancestor t.parent k w → k < w → w ≤ v → Ancestor t.parent w v →
      ∃ c, 0 < c ∧ c ≤ v ∧ t.parent c = k ∧ Ancestor t.parent c v := by
    intro k w hkw
    induction hkw with
    | refl => intro hLess; omega
    | @above w positive rest ih =>
        intro _ hwv hwAnc
        by_cases hEq : k = t.parent w
        · exact ⟨w, positive, hwv, hEq.symm, hwAnc⟩
        · have hParent := hDepth.parent_lt w positive (by omega)
          have hLe := hDepth.le_of_ancestor rest (by omega)
          refine ih (by omega) (by omega) (Ancestor.trans ?_ hwAnc)
          exact .above positive (.refl _)
  have hIs := hSemi v hv hSize
  exact hChild _ v (hDepth.semi_ancestor hIs hv hSize) (hDepth.semi_lt hIs hv hSize)
    (Nat.le_refl v) (.refl v)

include hSpans hSemi in
/-- A vertex in the bucket of the parent of the vertex being visited is below the vertex
being visited. -/
theorem waiting_of_bucket (hi : 0 < i) (hSize : i < t.size) {v : Nat} (hiv : i ≤ v)
    (hv : v < t.size) (hEq : semi v = t.parent i)
    (hNone : ∀ w, i < w → w ≤ v → t.parent w ≠ t.parent i) : Waiting t semi i v := by
  have hDepth := hSpans.depthFirst
  refine ⟨hv, hEq, ?_⟩
  obtain ⟨c, hc, hcv, hcParent, hcAnc⟩ := exists_branch_child hSpans hSemi (by omega) hv
  rw [hEq] at hcParent
  rcases Nat.lt_trichotomy c i with hBefore | rfl | hAfter
  · have hci := hDepth.ancestor_of_between hcAnc hv (by omega) hiv
    have hParent := hDepth.parent_lt i hi hSize
    have hLe := hDepth.le_of_ancestor (hci.parent_of_ne (by omega)).2 (by omega)
    have hcLess := hDepth.parent_lt c hc (by omega)
    omega
  · exact hcAnc
  · exact (hNone c hAfter hcv hcParent).elim

end

theorem swept_start (hSpans : t.Spans a root) (semi : Nat → Nat) :
    Swept t semi (t.size - 1) (start t.size) := by
  have hPositive := hSpans.positive
  have hOwn : ∀ v, v < t.size → (start t.size).forest.semiOf v = v :=
    fun v hv => LinkForest.semiOf_unlinked hv
  constructor
  case known =>
    constructor
    case linked =>
      rw [Nat.sub_add_cancel hPositive]
      exact LinkForest.linked_unlinked t.parent t.size
    case done => intro v _ _; omega
    case todo => exact fun v _ hv => hOwn v hv
  case own => exact hOwn _
  case dom_size => simp [start]
  case buckets_size => simp [start]
  case bucket =>
    intro k v hv
    simp only [start, Array.getD_eq_getD_getElem?, Array.getElem?_replicate] at hv
    split at hv <;> simp at hv
  case placed => intro v _ _; omega

/-- Once the vertex being visited has joined the bucket of its semidominator, all vertices
from it on are in a bucket or recorded. -/
theorem Swept.put {semi : Nat → Nat} {s : State} (h : Swept t semi (i + 1) s)
    (hSize : i + 1 < t.size) (hSemi : semi (i + 1) < t.size) {buckets : Array (List Nat)}
    (hPut : s.buckets.setIfInBounds (semi (i + 1))
      ((i + 1) :: s.buckets.getD (semi (i + 1)) []) = buckets) :
    buckets.size = t.size ∧
      (∀ k, ∀ v ∈ buckets.getD k [], i < v ∧ v < t.size ∧ semi v = k ∧
        ∀ w, i + 1 < w → w ≤ v → t.parent w ≠ k) ∧
      ∀ v, i < v → v < t.size → v ∈ buckets.getD (semi v) [] ∨
        Recorded t.parent semi (fun w => s.dom.getD w 0) v := by
  have hBucket : ∀ k, buckets.getD k [] =
      if semi (i + 1) = k then (i + 1) :: s.buckets.getD (semi (i + 1)) []
      else s.buckets.getD k [] := by
    intro k
    rw [← hPut]
    exact getD_setIfInBounds _ (h.buckets_size.symm ▸ hSemi) _ _ _
  refine ⟨by rw [← hPut, Array.size_setIfInBounds, h.buckets_size], ?_, ?_⟩
  · intro k v hv
    have hOld : v ∈ s.buckets.getD k [] → i < v ∧ v < t.size ∧ semi v = k ∧
        ∀ w, i + 1 < w → w ≤ v → t.parent w ≠ k := by
      intro hMem
      obtain ⟨hLow, hRest⟩ := h.bucket k v hMem
      exact ⟨by omega, hRest⟩
    rw [hBucket] at hv
    split at hv
    case isTrue hEq =>
      rcases List.mem_cons.mp hv with rfl | hMem
      · exact ⟨by omega, hSize, hEq, fun w _ _ => by omega⟩
      · exact hOld (hEq ▸ hMem)
    case isFalse => exact hOld hv
  · intro v hiv hv
    rcases Nat.eq_or_lt_of_le hiv with rfl | hAfter
    · exact .inl (by rw [hBucket, if_pos rfl]; exact List.mem_cons_self)
    · refine (h.placed v hAfter hv).imp_left fun hMem => ?_
      rw [hBucket]
      split
      case isTrue hEq => exact List.mem_cons_of_mem _ (hEq ▸ hMem)
      case isFalse => exact hMem

section Clear

variable {semi : Nat → Nat} {buckets : Array (List Nat)}
  (hParent : t.parent (i + 1) < buckets.size)
include hParent

theorem getD_cleared (k : Nat) :
    (buckets.setIfInBounds (t.parent (i + 1)) []).getD k [] =
      if t.parent (i + 1) = k then [] else buckets.getD k [] :=
  getD_setIfInBounds _ hParent _ _ _

/-- What still waits once the bucket of the parent has been emptied waits for no visit made so
far. -/
theorem bucket_cleared
    (hWaits : ∀ k, ∀ v ∈ buckets.getD k [], i < v ∧ v < t.size ∧ semi v = k ∧
      ∀ w, i + 1 < w → w ≤ v → t.parent w ≠ k) (k v : Nat)
    (hv : v ∈ (buckets.setIfInBounds (t.parent (i + 1)) []).getD k []) :
    i < v ∧ v < t.size ∧ semi v = k ∧ ∀ w, i < w → w ≤ v → t.parent w ≠ k := by
  rw [getD_cleared hParent] at hv
  split at hv
  case isTrue => exact (List.not_mem_nil hv).elim
  case isFalse hne =>
    obtain ⟨hiv, hvSize, hEq, hNone⟩ := hWaits k v hv
    refine ⟨hiv, hvSize, hEq, fun w hiw hwv => ?_⟩
    rcases Nat.eq_or_lt_of_le hiw with rfl | hAfter
    · exact hne
    · exact hNone w hAfter hwv

/-- The vertices of the bucket that has been emptied are recorded. -/
theorem placed_cleared {dom dom' : Nat → Nat} {v : Nat}
    (hStays : v ∈ buckets.getD (semi v) [] ∨ Recorded t.parent semi dom v)
    (hRecorded : ∀ v ∈ buckets.getD (t.parent (i + 1)) [], Recorded t.parent semi dom' v)
    (hOther : ∀ w, w ∉ buckets.getD (t.parent (i + 1)) [] → dom' w = dom w) :
    v ∈ (buckets.setIfInBounds (t.parent (i + 1)) []).getD (semi v) [] ∨
      Recorded t.parent semi dom' v := by
  by_cases hHere : v ∈ buckets.getD (t.parent (i + 1)) []
  · exact .inr (hRecorded v hHere)
  · rcases hStays with hMem | ⟨u, hAnc, hBelow, hLeast, hEq⟩
    · have hne : t.parent (i + 1) ≠ semi v := fun hEq => hHere (hEq ▸ hMem)
      exact .inl (by rw [getD_cleared hParent, if_neg hne]; exact hMem)
    · exact .inr ⟨u, hAnc, hBelow, hLeast, (hOther v hHere).trans hEq⟩

end Clear

section

variable {semi : Nat → Nat} (hSpans : t.Spans a root)
  (hSemi : ∀ v, 0 < v → v < t.size → Semidominates t.size (t.numberSucc a) (semi v) v)
include hSpans hSemi

/-- One visit. -/
theorem Swept.next {s : State} (h : Swept t semi (i + 1) s) (hSize : i + 1 < t.size) :
    Swept t semi i (visit t a (i + 1) s) := by
  have hDepth := hSpans.depthFirst
  have hi : 0 < i + 1 := Nat.succ_pos i
  have hParent := hDepth.parent_lt (i + 1) hi hSize
  have hLess := hDepth.semi_lt (hSemi (i + 1) hi hSize) hi hSize
  obtain ⟨hKnown, hFound⟩ := known_offered hSpans hSemi hi hSize h.known (h.own hSize)
  obtain ⟨offered, hOffered⟩ :
      ∃ f, (t.predecessors a (i + 1)).foldl (offer (i + 1)) s.forest = f := ⟨_, rfl⟩
  obtain ⟨buckets, hPut⟩ : ∃ b, s.buckets.setIfInBounds (semi (i + 1))
      ((i + 1) :: s.buckets.getD (semi (i + 1)) []) = b := ⟨_, rfl⟩
  rw [hOffered] at hKnown hFound
  obtain ⟨hBuckets, hWaits, hStays⟩ := h.put hSize (by omega) hPut
  have hDone : ∀ v, i + 1 ≤ v → v < t.size → offered.semiOf v = semi v := by
    intro v hv hvSize
    rcases Nat.eq_or_lt_of_le hv with rfl | hAfter
    · exact hFound
    · exact hKnown.done v hAfter hvSize
  have hSettled := settle_bucket hSpans hi hSize (buckets.getD (t.parent (i + 1)) [])
    (s := { s with forest := offered.link (t.parent (i + 1)) (i + 1) })
    (hKnown.linked.link hDepth hi hSize) hDone h.dom_size fun v hv =>
      let ⟨hiv, hvSize, hEq, hNone⟩ := hWaits _ v hv
      waiting_of_bucket hSpans hSemi hi hSize hiv hvSize hEq hNone
  have hVisit : visit t a (i + 1) s =
      { (buckets.getD (t.parent (i + 1)) []).foldl (settle (t.parent (i + 1)))
          { s with forest := offered.link (t.parent (i + 1)) (i + 1) } with
        buckets := buckets.setIfInBounds (t.parent (i + 1)) [] } := by
    simp only [visit, hOffered, hFound, hPut]
  rw [hVisit]
  generalize (buckets.getD (t.parent (i + 1)) []).foldl (settle (t.parent (i + 1)))
    { s with forest := offered.link (t.parent (i + 1)) (i + 1) } = s' at hSettled ⊢
  obtain ⟨hLinked, hKept, hDomSize, hRecorded, hOther⟩ := hSettled
  have hSemiOf : ∀ v, s'.forest.semiOf v = offered.semiOf v := fun v => by
    simp only [LinkForest.semiOf, hKept, LinkForest.link]
  have hInside : t.parent (i + 1) < buckets.size := by omega
  constructor
  case known =>
    constructor
    case linked => exact hLinked
    case done => exact fun v hiv hv => (hSemiOf v).trans (hDone v hiv hv)
    case todo => exact fun v hvi hv => (hSemiOf v).trans (hKnown.todo v (by omega) hv)
  case own => exact fun hiSize => (hSemiOf i).trans (hKnown.todo i (by omega) hiSize)
  case dom_size => exact hDomSize
  case buckets_size => rw [Array.size_setIfInBounds, hBuckets]
  case bucket => exact bucket_cleared hInside hWaits
  case placed => exact fun v hiv hv => placed_cleared hInside (hStays v hiv hv) hRecorded hOther

/-- All visits. -/
theorem Swept.sweep {s : State} (h : Swept t semi i s) (hi : i < t.size) :
    Swept t semi 0 (Semidominator.sweep t a i s) := by
  induction i generalizing s with
  | zero => exact h
  | succ i ih => exact ih (h.next hSpans hSemi hi) (by omega)

/-- After the sweep nothing waits any more, since the branch from a semidominator to its
vertex has a first vertex and that has been visited. -/
theorem recorded_of_swept {s : State} (h : Swept t semi 0 s) {v : Nat} (hv : 0 < v)
    (hSize : v < t.size) : Recorded t.parent semi (fun w => s.dom.getD w 0) v := by
  refine (h.placed v hv hSize).resolve_left fun hMem => ?_
  obtain ⟨_, _, _, hNone⟩ := h.bucket _ v hMem
  obtain ⟨c, hc, hcv, hParent, _⟩ := exists_branch_child hSpans hSemi hv hSize
  exact hNone c hc hcv hParent

end

end RefElision.Semidominator
