import Mathlib.Data.List.Nodup
import Mathlib.Data.List.Perm.Subperm
import Mathlib.Tactic.ByContra
import RefElision.Dominance.DomTree

/-! Walks around a tree. A vertex is entered and left once, and in between the walk goes
around exactly the part of the tree below it. -/
namespace RefElision

variable {parent : Array (Option Nat)} {root a b c : Nat}

/-- Behind the end of an array there is nothing but the default. -/
theorem lt_size_of_getD {α : Type} {xs : Array α} {i : Nat} {x d : α} (h : xs.getD i d = x)
    (hne : x ≠ d) : i < xs.size := by
  by_contra hOut
  rw [Array.getD_eq_getD_getElem?, Array.getElem?_eq_none (Nat.le_of_not_lt hOut)] at h
  exact hne h.symm

/-- The first vertex is reached from the second by going to parents at least once. -/
inductive Above (parent : Array (Option Nat)) (a : Nat) : Nat → Prop where
  | parent {b : Nat} (entry : parent.getD b none = some a) : Above parent a b
  | step {b c : Nat} (entry : parent.getD b none = some c) (rest : Above parent a c) :
      Above parent a b

/-- Parents that make a tree: whatever has a parent reaches the root. -/
structure Rooted (parent : Array (Option Nat)) (root : Nat) : Prop where
  root_lt : root < parent.size
  root_none : parent.getD root none = none
  reaches : ∀ v p, parent.getD v none = some p → Above parent root v

/-- The number of steps up to the root. -/
inductive Depth (parent : Array (Option Nat)) (root : Nat) : Nat → Nat → Prop where
  | root : Depth parent root root 0
  | step {b c n : Nat} (entry : parent.getD b none = some c) (rest : Depth parent root c n) :
      Depth parent root b (n + 1)

theorem Above.trans (hab : Above parent a b) (hbc : Above parent b c) : Above parent a c := by
  induction hbc with
  | parent entry => exact .step entry hab
  | step entry _ ih => exact .step entry ih

/-- The vertices above one vertex are above each other. -/
theorem Above.total (ha : Above parent a c) (hb : Above parent b c) :
    a = b ∨ Above parent a b ∨ Above parent b a := by
  induction ha with
  | @parent c entry =>
      cases hb with
      | parent entry' => exact .inl (by rw [entry] at entry'; exact Option.some.inj entry')
      | step entry' rest =>
          obtain rfl := Option.some.inj (entry.symm.trans entry')
          exact .inr (.inr rest)
  | @step c d entry rest ih =>
      cases hb with
      | parent entry' =>
          obtain rfl := Option.some.inj (entry.symm.trans entry')
          exact .inr (.inl rest)
      | step entry' rest' =>
          obtain rfl := Option.some.inj (entry.symm.trans entry')
          exact ih rest'

theorem Above.of_child (hEntry : parent.getD b none = some a)
    (hc : c = b ∨ Above parent b c) : Above parent a c := by
  rcases hc with rfl | hBelow
  · exact .parent hEntry
  · exact Above.trans (.parent hEntry) hBelow

theorem Above.exists_depth (h : Above parent root b) : ∃ n, Depth parent root b n := by
  induction h with
  | parent entry => exact ⟨1, .step entry .root⟩
  | step entry _ ih =>
      obtain ⟨n, hDepth⟩ := ih
      exact ⟨n + 1, .step entry hDepth⟩

namespace Rooted

variable {n m : Nat}

theorem lt_size (h : Rooted parent root) (hDepth : Depth parent root b n) :
    b < parent.size := by
  cases hDepth with
  | root => exact h.root_lt
  | step entry _ => exact lt_size_of_getD entry (Option.some_ne_none _)

/-- A parent has one depth less. -/
theorem depth_parent (h : Rooted parent root) (hEntry : parent.getD b none = some c)
    (hb : Depth parent root b m) : ∃ n, m = n + 1 ∧ Depth parent root c n := by
  cases hb with
  | root => rw [h.root_none] at hEntry; cases hEntry
  | @step _ _ n entry rest =>
      obtain rfl := Option.some.inj (hEntry.symm.trans entry)
      exact ⟨n, rfl, rest⟩

theorem depth_unique (h : Rooted parent root) (hn : Depth parent root b n)
    (hm : Depth parent root b m) : n = m := by
  induction hn generalizing m with
  | root =>
      cases hm with
      | root => rfl
      | step entry _ => rw [h.root_none] at entry; cases entry
  | step entry _ ih =>
      obtain ⟨k, rfl, hParent⟩ := h.depth_parent entry hm
      rw [ih hParent]

/-- What is above has less depth. -/
theorem depth_lt (h : Rooted parent root) (hAbove : Above parent a b)
    (ha : Depth parent root a n) (hb : Depth parent root b m) : n < m := by
  induction hAbove generalizing m with
  | parent entry =>
      have hEq := h.depth_unique hb (.step entry ha)
      omega
  | step entry rest ih =>
      obtain ⟨k, rfl, hParent⟩ := h.depth_parent entry hb
      exact Nat.lt_succ_of_lt (ih hParent)

theorem not_above_self (h : Rooted parent root) (ha : Depth parent root a n) :
    ¬ Above parent a a := by
  intro hAbove
  have hLess := h.depth_lt hAbove ha ha
  omega

/-- The vertices on the way up to the root are pairwise different, so there are not more
of them than there are vertices. -/
theorem depth_lt_size (h : Rooted parent root) (hDepth : Depth parent root b n) :
    n < parent.size := by
  have hChain : ∀ b n, Depth parent root b n → ∃ chain : List Nat,
      chain.length = n + 1 ∧ chain.Nodup ∧
      ∀ v ∈ chain, ∃ m, m ≤ n ∧ Depth parent root v m := by
    intro b n hDepth
    induction hDepth with
    | root => exact ⟨[root], rfl, List.nodup_singleton _, by simpa using Depth.root⟩
    | @step b c n entry rest ih =>
        obtain ⟨chain, hLength, hNodup, hAll⟩ := ih
        have hb : Depth parent root b (n + 1) := .step entry rest
        refine ⟨b :: chain, by simp [hLength], List.nodup_cons.mpr ⟨fun hMem => ?_, hNodup⟩, ?_⟩
        · obtain ⟨m, hm, hDepth⟩ := hAll b hMem
          have hEq := h.depth_unique hb hDepth
          omega
        · intro v hv
          rcases List.mem_cons.mp hv with rfl | hv
          · exact ⟨n + 1, Nat.le_refl _, hb⟩
          · obtain ⟨m, hm, hDepth⟩ := hAll v hv
            exact ⟨m, by omega, hDepth⟩
  obtain ⟨chain, hLength, hNodup, hAll⟩ := hChain b n hDepth
  have hSub : chain ⊆ List.range parent.size := fun v hv =>
    let ⟨_, _, hDepth⟩ := hAll v hv
    List.mem_range.mpr (h.lt_size hDepth)
  have hLe := (List.subperm_of_subset hNodup hSub).length_le
  rw [List.length_range] at hLe
  omega

end Rooted

inductive Visit where
  | enter (v : Nat)
  | leave (v : Nat)
  deriving DecidableEq

/-- The vertex that is entered or left. -/
def Visit.vertex : Visit → Nat
  | .enter v => v
  | .leave v => v

namespace DomTree

/-- The walk around the part of a tree below a vertex, down to a bounded depth. -/
def tour (children : Nat → List Nat) : Nat → Nat → List Visit
  | 0, _ => []
  | depth + 1, v =>
    .enter v :: ((children v).flatMap (tour children depth) ++ [.leave v])

theorem mem_childrenIn {v : Nat} :
    c ∈ childrenIn parent v ↔ parent.getD c none = some v := by
  simp only [childrenIn, List.mem_filter, List.mem_range, beq_iff_eq, and_iff_right_iff_imp]
  exact fun hEntry => lt_size_of_getD hEntry (Option.some_ne_none _)

/-- A walk meets only the vertex it starts from and what is below that. -/
theorem above_of_mem_tour {depth v : Nat} {x : Visit}
    (hMem : x ∈ tour (childrenIn parent) depth v) : x.vertex = v ∨ Above parent v x.vertex := by
  induction depth generalizing v with
  | zero => simp [tour] at hMem
  | succ depth ih =>
      simp only [tour, List.mem_cons, List.mem_append, List.mem_flatMap, List.not_mem_nil,
        or_false] at hMem
      rcases hMem with rfl | ⟨c, hc, hIn⟩ | rfl
      · exact .inl rfl
      · exact .inr (.of_child (mem_childrenIn.mp hc) (ih hIn))
      · exact .inl rfl

section

variable (h : Rooted parent root)
include h

/-- What is below two children of one vertex is below the same child. -/
theorem child_unique {v n w : Nat} (hDepth : Depth parent root v n)
    (hb : parent.getD b none = some v) (hc : parent.getD c none = some v)
    (hwb : w = b ∨ Above parent b w) (hwc : w = c ∨ Above parent c w) : b = c := by
  have hbDepth : Depth parent root b (n + 1) := .step hb hDepth
  have hcDepth : Depth parent root c (n + 1) := .step hc hDepth
  have hRelated : b = c ∨ Above parent b c ∨ Above parent c b := by
    rcases hwb with rfl | hwb
    · rcases hwc with hEq | hwc
      · exact .inl hEq
      · exact .inr (.inr hwc)
    · rcases hwc with rfl | hwc
      · exact .inr (.inl hwb)
      · exact hwb.total hwc
  rcases hRelated with hEq | hAbove | hAbove
  · exact hEq
  · have hLess := h.depth_lt hAbove hbDepth hcDepth
    omega
  · have hLess := h.depth_lt hAbove hcDepth hbDepth
    omega

theorem nodup_tour {v n : Nat} (depth : Nat) (hDepth : Depth parent root v n) :
    (tour (childrenIn parent) depth v).Nodup := by
  induction depth generalizing v n with
  | zero => exact List.nodup_nil
  | succ depth ih =>
      have hBelow : ∀ c ∈ childrenIn parent v, ∀ x ∈ tour (childrenIn parent) depth c,
          x.vertex ≠ v := by
        intro c hc x hx hEq
        have hAbove := Above.of_child (mem_childrenIn.mp hc) (above_of_mem_tour hx)
        exact h.not_above_self hDepth (hEq ▸ hAbove)
      rw [tour, List.nodup_cons, List.nodup_append]
      refine ⟨?_, ?_, List.nodup_singleton _, ?_⟩
      · simp only [List.mem_append, List.mem_flatMap, List.mem_singleton, reduceCtorEq, or_false]
        rintro ⟨c, hc, hx⟩
        exact hBelow c hc _ hx rfl
      · rw [List.nodup_flatMap]
        refine ⟨fun c hc => ih (.step (mem_childrenIn.mp hc) hDepth), ?_⟩
        have hChildren : (childrenIn parent v).Nodup := List.nodup_range.filter _
        refine hChildren.imp_of_mem fun hb hc hne x hxb hxc => hne ?_
        exact child_unique h hDepth (mem_childrenIn.mp hb) (mem_childrenIn.mp hc)
          (above_of_mem_tour hxb) (above_of_mem_tour hxc)
      · intro x hx y hy hEq
        obtain rfl := List.mem_singleton.mp hy
        obtain ⟨c, hc, hIn⟩ := List.mem_flatMap.mp hx
        exact hBelow c hc x hIn (hEq ▸ rfl)

/-- The walk around what is below a vertex is a part of the walk around what is below its
parent, since the depth is less than the number of vertices. -/
theorem tour_child_within {n : Nat} (hEntry : parent.getD b none = some a)
    (ha : Depth parent root a n) :
    tour (childrenIn parent) (parent.size - (n + 1)) b <:+:
      tour (childrenIn parent) (parent.size - n) a := by
  have hLess := h.depth_lt_size (.step hEntry ha)
  have hRoom : parent.size - n = parent.size - (n + 1) + 1 := by omega
  obtain ⟨pre, post, hEq⟩ := List.infix_of_mem_flatten (List.mem_map_of_mem
    (f := tour (childrenIn parent) (parent.size - (n + 1))) (mem_childrenIn.mpr hEntry))
  rw [hRoom, tour, List.flatMap_def, ← hEq]
  exact ⟨.enter a :: pre, post ++ [.leave a], by simp⟩

theorem tour_within {n m : Nat} (hAbove : Above parent a b) (ha : Depth parent root a n)
    (hb : Depth parent root b m) :
    tour (childrenIn parent) (parent.size - m) b <:+:
      tour (childrenIn parent) (parent.size - n) a := by
  induction hAbove generalizing m with
  | parent entry =>
      obtain rfl := h.depth_unique hb (.step entry ha)
      exact tour_child_within h entry ha
  | step entry rest ih =>
      obtain ⟨k, rfl, hParent⟩ := h.depth_parent entry hb
      exact (tour_child_within h entry hParent).trans (ih hParent)

/-- The vertices in the tree are those that the walk meets. -/
theorem exists_depth_iff : (∃ n, Depth parent root a n) ↔ a = root ∨ Above parent root a := by
  constructor
  · rintro ⟨n, hDepth⟩
    cases hDepth with
    | root => exact .inl rfl
    | step entry _ => exact .inr (h.reaches _ _ entry)
  · rintro (rfl | hAbove)
    · exact ⟨0, .root⟩
    · exact hAbove.exists_depth

/-- What is above a vertex is in the tree. -/
theorem exists_depth_of_above (hAbove : Above parent a b) : ∃ n, Depth parent root a n := by
  have hRoot : Above parent root b := by
    cases hAbove with
    | parent entry => exact h.reaches _ _ entry
    | step entry _ => exact h.reaches _ _ entry
  rcases hAbove.total hRoot with hEq | hAbove | hBelow
  · exact (exists_depth_iff h).mpr (.inl hEq)
  · cases hAbove with
    | parent entry => rw [h.root_none] at entry; cases entry
    | step entry _ => rw [h.root_none] at entry; cases entry
  · exact (exists_depth_iff h).mpr (.inr hBelow)

end

/-- The positions of a part of a list without repetitions. -/
theorem mem_infix_iff {α : Type} [DecidableEq α] {pre part post : List α} {x : α}
    (hNodup : (pre ++ part ++ post).Nodup) :
    x ∈ part ↔ pre.length ≤ (pre ++ part ++ post).idxOf x ∧
      (pre ++ part ++ post).idxOf x < pre.length + part.length := by
  rw [List.nodup_append, List.nodup_append] at hNodup
  obtain ⟨⟨_, _, hPre⟩, _, hPost⟩ := hNodup
  rw [List.idxOf_append, List.idxOf_append]
  by_cases hInPre : x ∈ pre
  · have hLess := List.idxOf_lt_length_iff.mpr hInPre
    have hOut : x ∉ part := fun hIn => hPre x hInPre x hIn rfl
    simp only [List.mem_append, hInPre, true_or, if_true, hOut, false_iff]
    omega
  · by_cases hInPart : x ∈ part
    · have hLess := List.idxOf_lt_length_iff.mpr hInPart
      simp only [List.mem_append, hInPre, hInPart, or_true, if_true, if_false, true_iff]
      omega
    · simp only [List.mem_append, hInPre, hInPart, or_self, if_false, false_iff,
        List.length_append]
      omega

theorem idxOf_of_split {α : Type} [DecidableEq α] {l pre : List α} (post : List α) {x : α}
    (hNodup : l.Nodup) (hSplit : l = pre ++ x :: post) : l.idxOf x = pre.length := by
  subst hSplit
  have hOut : x ∉ pre := fun hIn =>
    (List.nodup_append.mp hNodup).2.2 x hIn x List.mem_cons_self rfl
  rw [List.idxOf_append_of_notMem hOut, List.idxOf_cons_self, Nat.add_zero]

theorem idxOf?_of_mem {α : Type} [DecidableEq α] {l : List α} {x : α} (hx : x ∈ l) :
    l.idxOf? x = some (l.idxOf x) := by
  cases hIdx : l.idxOf? x with
  | none => exact (List.idxOf?_eq_none_iff.mp hIdx hx).elim
  | some i => rw [List.idxOf_eq_getD_idxOf?, hIdx, Option.getD_some]

end DomTree

end RefElision
