import RefElision.Proofs.Graph.Path

/-! The search finds exactly the nodes that paths lead to. -/
namespace RefElision.Digraph

variable {α : Type} [DecidableEq α]

/-- Induction along a search. Something new that is found stops remaining, and then anything
may be pending; what is pending but does not remain is passed over. -/
@[elab_as_elim]
theorem search_induction {β : Type} (key : β → α) {motive : List α → List β → Prop}
    (nil : ∀ remaining, motive remaining [])
    (found : ∀ remaining e rest, key e ∈ remaining →
      (∀ pending, motive (remaining.erase (key e)) pending) → motive remaining (e :: rest))
    (known : ∀ remaining e rest, key e ∉ remaining → motive remaining rest →
      motive remaining (e :: rest)) (remaining : List α) (pending : List β) :
    motive remaining pending := by
  induction hLength : remaining.length using Nat.strongRecOn generalizing remaining pending with
  | _ n hFewer =>
      subst hLength
      induction pending with
      | nil => exact nil remaining
      | cons e rest ih =>
          by_cases hRemains : key e ∈ remaining
          · refine found remaining e rest hRemains fun pending => hFewer _ ?_ _ pending rfl
            rw [List.length_erase_of_mem hRemains]
            exact Nat.sub_lt (List.length_pos_of_mem hRemains) Nat.one_pos
          · exact known remaining e rest hRemains ih

section Equations

variable {β : Type} {key : β → α} {brings : Nat → β → List β} {remaining : List α} {number : Nat}
  {pending rest : List β} {e : β}

theorem search_of_nil (h : pending.dropWhile (fun e => key e ∉ remaining) = []) :
    search key brings remaining number pending = [] := by
  rw [search]
  split
  case h_1 => rfl
  case h_2 hSome => cases h.symm.trans hSome

theorem search_of_cons (h : pending.dropWhile (fun e => key e ∉ remaining) = e :: rest) :
    search key brings remaining number pending = e :: search key brings
      (remaining.erase (key e)) (number + 1) (brings number e ++ rest) := by
  rw [search]
  split
  case h_1 hNone => cases hNone.symm.trans h
  case h_2 d others hSome =>
    obtain ⟨rfl, rfl⟩ := List.cons.inj (h.symm.trans hSome)
    rfl

/-- What asks for a node that remains is found, and what it brings along comes next. -/
theorem search_of_mem (h : key e ∈ remaining) :
    search key brings remaining number (e :: rest) = e :: search key brings
      (remaining.erase (key e)) (number + 1) (brings number e ++ rest) :=
  search_of_cons (by simp [h])

/-- What asks for any other node changes nothing. -/
theorem search_of_not_mem (h : key e ∉ remaining) :
    search key brings remaining number (e :: rest) =
      search key brings remaining number rest := by
  have hSkip : (e :: rest).dropWhile (fun e => key e ∉ remaining) =
      rest.dropWhile fun e => key e ∉ remaining := by
    simp [h]
  cases hRest : rest.dropWhile (fun e => key e ∉ remaining) with
  | nil => rw [search_of_nil hRest, search_of_nil (hSkip.trans hRest)]
  | cons d others => rw [search_of_cons hRest, search_of_cons (hSkip.trans hRest)]

end Equations

/-- The nodes found are those at the end of a path that starts at a pending node and
stays within the nodes that remain. -/
theorem mem_gather_iff (succ : α → List α) (remaining pending : List α) (y : α) :
    y ∈ gather succ remaining pending ↔
      ∃ x ∈ pending, ∃ p, Path succ x y p ∧ p ⊆ remaining := by
  -- What a node brings along does not depend on the count here, but the count goes on.
  suffices hAll : ∀ number, y ∈ search (fun x => x) (fun _ x => succ x) remaining number pending ↔
      ∃ x ∈ pending, ∃ p, Path succ x y p ∧ p ⊆ remaining from hAll 0
  refine search_induction (fun x => x) ?nil ?found ?known remaining pending
  case nil => exact fun remaining number => by simp [search_of_nil]
  case found =>
    intro remaining x rest hRemains ih number
    rw [search_of_mem hRemains, List.mem_cons, ih]
    constructor
    · rintro (rfl | ⟨t, ht, p, hPath, hSub⟩)
      · exact ⟨y, List.mem_cons_self, [y], .single y, by simpa using hRemains⟩
      · have hSub' : p ⊆ remaining := List.Subset.trans hSub List.erase_subset
        rcases List.mem_append.mp ht with hEdge | hRest
        · refine ⟨x, List.mem_cons_self, x :: p, .step hEdge hPath, ?_⟩
          exact List.cons_subset.mpr ⟨hRemains, hSub'⟩
        · exact ⟨t, List.mem_cons_of_mem _ hRest, p, hPath, hSub'⟩
    · rintro ⟨s, hs, p, hPath, hSub⟩
      by_cases hy : y = x
      · exact .inl hy
      -- After its last visit to `x` the path stays within what remains without `x`.
      obtain ⟨t, q, hStart, hPath', hSub', hAvoid⟩ := hPath.bypass hy
      have hErase : q ⊆ remaining.erase x := by
        intro a ha
        have hne : a ≠ x := fun h => hAvoid (h ▸ ha)
        exact (List.mem_erase_of_ne hne).mpr (hSub (hSub' ha))
      refine .inr ⟨t, List.mem_append.mpr ?_, q, hPath', hErase⟩
      rcases hStart with rfl | hEdge
      · have hne : t ≠ x := fun h => hAvoid (h ▸ hPath'.start_mem)
        exact .inr ((List.mem_cons.mp hs).resolve_left hne)
      · exact .inl hEdge
  case known =>
    intro remaining x rest hGone ih number
    rw [search_of_not_mem hGone, ih]
    constructor
    · rintro ⟨t, ht, hPath⟩
      exact ⟨t, List.mem_cons_of_mem _ ht, hPath⟩
    · rintro ⟨t, ht, p, hPath, hSub⟩
      have hne : t ≠ x := fun h => hGone (h ▸ hSub hPath.start_mem)
      exact ⟨t, (List.mem_cons.mp ht).resolve_left hne, p, hPath, hSub⟩

/-- Every edge between nodes leads to a node. -/
def Closed (g : Digraph α) : Prop :=
  ∀ x ∈ g.nodes, ∀ y ∈ g.succ x, y ∈ g.nodes

/-- In a closed graph the nodes reached beyond some nodes are those at the end of a
path of at least one edge on which only the first node may be one to be avoided. -/
theorem mem_reachBeyond_iff {g : Digraph α} (hClosed : g.Closed) (avoid : α → Bool)
    {start : List α} (hStart : start ⊆ g.nodes) (y : α) :
    y ∈ g.reachBeyond avoid start ↔
      ∃ x ∈ start, ∃ t ∈ g.succ x, ∃ p, Path g.succ t y p ∧ ∀ a ∈ p, avoid a = false := by
  rw [reachBeyond, reach, mem_gather_iff]
  constructor
  · rintro ⟨t, ht, p, hPath, hSub⟩
    obtain ⟨x, hx, hEdge⟩ := List.mem_flatMap.mp ht
    refine ⟨x, hx, t, hEdge, p, hPath, fun a ha => ?_⟩
    simpa using (List.mem_filter.mp (hSub ha)).2
  · rintro ⟨x, hx, t, hEdge, p, hPath, hAvoid⟩
    refine ⟨t, List.mem_flatMap.mpr ⟨x, hx, hEdge⟩, p, hPath, fun a ha => ?_⟩
    have hNode := hPath.mem_of_closed (hClosed x (hStart hx) t hEdge) hClosed a ha
    exact List.mem_filter.mpr ⟨hNode, by simp [hAvoid a ha]⟩

/-- A start without a way on adds nothing to what is reached. -/
theorem reachBeyond_filter {g : Digraph α} {keep : α → Bool}
    (hEnds : ∀ x, keep x = false → g.succ x = []) (avoid : α → Bool) (start : List α) :
    g.reachBeyond avoid (start.filter keep) = g.reachBeyond avoid start := by
  have hSame : (start.filter keep).flatMap g.succ = start.flatMap g.succ := by
    induction start with
    | nil => rfl
    | cons x rest ih =>
        cases hKeep : keep x with
        | true => simp [hKeep, ih]
        | false => simp [hKeep, ih, hEnds x hKeep]
  rw [reachBeyond, hSame, reachBeyond]

end RefElision.Digraph
