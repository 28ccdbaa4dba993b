import RefElision.Proofs.Dominance.Exactness

/-! Chains of immediate dominators. A table that was found elsewhere may say of the root what
it likes, as long as it says nothing about a parent of it. Walking up its chains comes to
the same answers as the tree. -/
namespace RefElision

/-- A table tells the immediate dominators from a root. The root has none or is put down as
its own. -/
structure TellsDominators (succ : Nat → List Nat) (root : Nat) (table : Array (Option Nat)) :
    Prop where
  immediate : ∀ v, v ≠ root → (∃ p, Path succ root v p) →
    ∃ d, table.getD v none = some d ∧ ImmediatelyDominates succ root d v
  at_root : table.getD root none = none ∨ table.getD root none = some root
  unreached : ∀ v, (¬ ∃ p, Path succ root v p) → table.getD v none = none

/-- In graphs without loops, immediate dominators are found. -/
def FindsDominators (find : Adjacency → Nat → Array (Option Nat)) : Prop :=
  ∀ (a : Adjacency) (root : Nat), a.InRange → root < a.size → (∀ v, v ∉ a.succ v) →
    TellsDominators a.succ root (find a root)

section Loops

variable {a : Adjacency}

theorem Adjacency.mem_withoutLoops (v w : Nat) :
    w ∈ a.withoutLoops.succ v ↔ w ∈ a.succ v ∧ w ≠ v := by
  simp only [withoutLoops, Adjacency.succ, Array.getElem?_mapIdx]
  cases a[v]? with
  | none => simp
  | some targets => simp

theorem Adjacency.size_withoutLoops : a.withoutLoops.size = a.size :=
  Array.size_mapIdx

theorem Adjacency.InRange.withoutLoops (h : a.InRange) : a.withoutLoops.InRange := by
  intro v hv w hw
  rw [size_withoutLoops] at hv ⊢
  exact h v hv w ((mem_withoutLoops v w).mp hw).1

/-- A table of immediate dominators is one for the graph without loops. -/
theorem DominatorTable.withoutLoops {root size : Nat} {table : Array (Option Nat)}
    (h : DominatorTable a.succ root size table) :
    DominatorTable a.withoutLoops.succ root size table where
  size_eq := h.size_eq
  none_iff v := by
    rw [h.none_iff, reached_kept_iff Adjacency.mem_withoutLoops]
  immediate v d hEntry :=
    (immediatelyDominates_kept_iff Adjacency.mem_withoutLoops d v).mpr (h.immediate v d hEntry)

end Loops

section Chain

variable {succ : Nat → List Nat} {root size d v : Nat} {table : Array (Option Nat)}

/-- All tables that tell the immediate dominators agree, the root aside. -/
theorem TellsDominators.entry_eq {other : Array (Option Nat)} (h : TellsDominators succ root table)
    (hOther : DominatorTable succ root size other) (hv : v ≠ root) :
    table.getD v none = other.getD v none := by
  by_cases hReached : ∃ p, Path succ root v p
  case neg =>
    rw [h.unreached v hReached, (hOther.none_iff v).mpr (.inr hReached)]
  case pos =>
    obtain ⟨d, hEntry, hImmediate⟩ := h.immediate v hv hReached
    obtain ⟨p, hPath⟩ := hReached
    cases hEntry' : other.getD v none with
    | none =>
        cases (hOther.none_iff v).mp hEntry' with
        | inl hRoot => exact (hv hRoot).elim
        | inr hNone => exact (hNone ⟨p, hPath⟩).elim
    | some e => rw [hEntry, hImmediate.unique (hOther.immediate v e hEntry') hPath]

/-- So the chains are the same: at the root they end in any case. -/
theorem TellsDominators.chain_eq {other : Array (Option Nat)} (h : TellsDominators succ root table)
    (hOther : DominatorTable succ root size other) (bound v : Nat) :
    chain table bound v = chain other bound v := by
  induction bound generalizing v with
  | zero => rfl
  | succ bound ih =>
      by_cases hRoot : v = root
      case pos =>
        have hNone : other.getD root none = none := (hOther.none_iff root).mpr (.inl rfl)
        rw [chain, chain, hRoot, hNone]
        cases h.at_root with
        | inl hEntry => rw [hEntry]
        | inr hEntry => simp [hEntry]
      case neg =>
        rw [chain, chain, h.entry_eq hOther hRoot]
        cases other.getD v none with
        | none => rfl
        | some p => simp only [ih p]

theorem above_of_mem_chain {bound : Nat} (h : d ∈ chain table bound v) : Above table d v := by
  induction bound generalizing v with
  | zero => exact (List.not_mem_nil h).elim
  | succ bound ih =>
      rw [chain] at h
      split at h
      case h_1 => exact (List.not_mem_nil h).elim
      case h_2 p hEntry =>
        split at h
        case isTrue => exact (List.not_mem_nil h).elim
        case isFalse =>
          cases List.mem_cons.mp h with
          | inl hEq => exact .parent (hEq ▸ hEntry)
          | inr hRest => exact .step hEntry (ih hRest)

theorem chain_cons {p : Nat} (hEntry : table.getD v none = some p) (hne : p ≠ v) (bound : Nat) :
    chain table (bound + 1) v = p :: chain table bound p := by
  rw [chain, hEntry]
  exact if_neg hne

theorem Rooted.parent_ne {p : Nat} (h : Rooted table root) (hEntry : table.getD v none = some p) :
    p ≠ v := by
  rintro rfl
  obtain ⟨n, hDepth⟩ := (h.reaches p p hEntry).exists_depth
  exact Nat.lt_irrefl n (h.depth_lt (.parent hEntry) hDepth hDepth)

/-- What is above stands on the chain if the chain is long enough to come to the root. -/
theorem mem_chain_of_above (hRooted : Rooted table root) (h : Above table d v) {n bound : Nat}
    (hDepth : Depth table root v n) (hBound : n ≤ bound) : d ∈ chain table bound v := by
  have hStep : ∀ {v p : Nat} {n bound : Nat}, table.getD v none = some p →
      Depth table root v n → n ≤ bound → ∃ m rest, Depth table root p m ∧ m ≤ rest ∧
        chain table bound v = p :: chain table rest p := by
    intro v p n bound hEntry hDepth hBound
    obtain ⟨m, rfl, hParent⟩ := hRooted.depth_parent hEntry hDepth
    obtain ⟨k, rfl⟩ : ∃ k, bound = k + 1 := ⟨bound - 1, by omega⟩
    exact ⟨m, k, hParent, by omega, chain_cons hEntry (hRooted.parent_ne hEntry) k⟩
  induction h generalizing n bound with
  | parent entry =>
      obtain ⟨_, _, _, _, hChain⟩ := hStep entry hDepth hBound
      rw [hChain]
      exact List.mem_cons_self
  | step entry _ ih =>
      obtain ⟨m, rest, hUp, hLe, hChain⟩ := hStep entry hDepth hBound
      rw [hChain]
      exact List.mem_cons_of_mem _ (ih hUp hLe)

/-- On a chain that may be as long as there are vertices stands all that is above. -/
theorem mem_chain_iff (hRooted : Rooted table root) :
    d ∈ chain table table.size v ↔ Above table d v := by
  constructor
  · exact above_of_mem_chain
  · intro hAbove
    have hReaches : Above table root v := by
      cases hAbove with
      | parent entry => exact hRooted.reaches _ _ entry
      | step entry _ => exact hRooted.reaches _ _ entry
    obtain ⟨n, hDepth⟩ := hReaches.exists_depth
    exact mem_chain_of_above hRooted hAbove hDepth (Nat.le_of_lt (hRooted.depth_lt_size hDepth))

/-- About two different vertices, the chains of one table and the tree of another say the
same. -/
theorem TellsDominators.onChain_eq {other : Array (Option Nat)}
    (h : TellsDominators succ root table) (hOther : DominatorTable succ root size other)
    (hRoot : root < size) (hne : d ≠ v) :
    onChain table size d v = (DomTree.ofParents other root).dominates d v := by
  have hRooted : Rooted other root := hOther.rooted hRoot
  rw [Bool.eq_iff_iff, DomTree.dominates_ofParents hRooted, onChain, List.contains_iff_mem,
    h.chain_eq hOther, ← hOther.size_eq, mem_chain_iff hRooted]
  exact (or_iff_right hne).symm

end Chain

theorem FlowGraph.index?_inj {g : FlowGraph} {a b : Label} {i : Nat} (ha : g.index? a = some i)
    (hb : g.index? b = some i) : a = b := by
  obtain ⟨_, hEqA, _⟩ := List.idxOf?_eq_some_iff.mp ha
  obtain ⟨_, hEqB, _⟩ := List.idxOf?_eq_some_iff.mp hb
  exact hEqA.symm.trans hEqB

/-- Oracles are the same if they say the same of different indices. -/
theorem Oracle.ofIndices_congr {g : FlowGraph} {dom dom' postDom postDom' : Nat → Nat → Bool}
    (hDom : ∀ i j, i ≠ j → dom i j = dom' i j)
    (hPostDom : ∀ i j, i ≠ j → postDom i j = postDom' i j) :
    ofIndices g dom postDom = ofIndices g dom' postDom' := by
  have hLift : ∀ {answer answer' : Nat → Nat → Bool}, (∀ i j, i ≠ j → answer i j = answer' i j) →
      ∀ a b : Label, (ofIndices g answer answer).dominates a b =
        (ofIndices g answer' answer').dominates a b := by
    intro answer answer' hSame a b
    by_cases hEq : a = b
    case pos => simp [ofIndices, hEq]
    case neg =>
      simp only [ofIndices]
      congr 1
      split
      case h_1 i j hi hj =>
        apply hSame
        rintro rfl
        exact hEq (FlowGraph.index?_inj hi hj)
      case h_2 => rfl
  rw [ofIndices, ofIndices]
  congr 1
  · funext a b
    exact hLift hDom a b
  · funext a b
    exact hLift hPostDom a b

/-- However immediate dominators are found, the chains answer as the trees do, in whatever
state a function is. -/
theorem FindsDominators.ofFinder_eq {find : Adjacency → Nat → Array (Option Nat)}
    (h : FindsDominators find) (f : Func) : .ofFinder find f = (DomTrees.ofFunc f).oracle := by
  have hAnswers : ∀ {a : Adjacency} {root : Nat}, a.InRange → root < a.size → ∀ i j, i ≠ j →
      onChain (find a.withoutLoops root) a.size i j =
        (DomTree.ofParents (immediateDominators a root) root).dominates i j := by
    intro a root hRange hRoot i j hne
    have hTells := h a.withoutLoops root hRange.withoutLoops
      (Adjacency.size_withoutLoops.symm ▸ hRoot)
      fun v hLoop => ((Adjacency.mem_withoutLoops v v).mp hLoop).2 rfl
    exact hTells.onChain_eq (dominatorTable_immediateDominators hRange hRoot).withoutLoops hRoot hne
  have hSucc : 0 < (FlowGraph.ofFunc f).succ.size := by
    rw [Func.Recorded.size_succ]
    exact Nat.succ_pos _
  have hPred : (FlowGraph.ofFunc f).exit < (FlowGraph.ofFunc f).pred.size := by
    rw [Func.Recorded.size_pred]
    exact Nat.lt_succ_self _
  exact Oracle.ofIndices_congr (hAnswers (Func.Recorded.succ_inRange f) hSucc)
    (hAnswers (Func.Recorded.pred_inRange f) hPred)

end RefElision
