import RefElision.Proofs.Dominance.Agreement
import RefElision.Proofs.Refs.Guard
import RefElision.Proofs.Refs.Matching
import RefElision.Proofs.Refs.Operations

/-! What is removed from a function: operations on null, and groups of one incref and the
decrefs that balance it. Within a group the block of the incref and the blocks of the
decrefs take turns on every path, unless all is in one block. -/
namespace RefElision.Func

variable {f : Func} {o : Options} {oracle : Oracle}

/-- The pairs that are removed, and what is left for fanning out. -/
def pairing (f : Func) (o : Options) (oracle : Oracle) : Prune.Pairing :=
  Prune.pair f.graph oracle (RefOps.ofFunc o.symbols f).decrefs (RefOps.ofFunc o.symbols f).increfs

/-- The increfs that are fanned out, each with its decrefs. -/
def fans (f : Func) (o : Options) (oracle : Oracle) : List (RefOp × List RefOp) :=
  if o.fanout then
    Prune.fanOut f.graph oracle o (f.pairing o oracle).live (f.pairing o oracle).unpaired
  else []

/-- All groups that are removed. -/
def removals (f : Func) (o : Options) (oracle : Oracle) : List (RefOp × List RefOp) :=
  (f.pairing o oracle).pairs.map (fun x => (x.1, [x.2])) ++ f.fans o oracle

/-- All operations that are removed. -/
def removedOps (f : Func) (o : Options) (oracle : Oracle) : List RefOp :=
  (RefOps.ofFunc o.symbols f).null ++ (f.removals o oracle).flatMap fun r => r.1 :: r.2

theorem mem_removedOps {r : RefOp × List RefOp} (hr : r ∈ f.removals o oracle) {op : RefOp}
    (hOp : op ∈ r.1 :: r.2) : op ∈ f.removedOps o oracle :=
  List.mem_append_right _ (List.mem_flatMap.mpr ⟨r, hr, hOp⟩)

theorem mem_removedOps_of_pair {i d : RefOp} (hPair : (i, d) ∈ (f.pairing o oracle).pairs) :
    i ∈ f.removedOps o oracle ∧ d ∈ f.removedOps o oracle := by
  have hr : (i, [d]) ∈ f.removals o oracle := List.mem_append_left _ (List.mem_map_of_mem hPair)
  exact ⟨mem_removedOps hr (by simp), mem_removedOps hr (by simp)⟩

theorem pairing_paired (f : Func) (o : Options) (oracle : Oracle) :
    Prune.Paired f.graph oracle (RefOps.ofFunc o.symbols f).decrefs
      (RefOps.ofFunc o.symbols f).increfs (f.pairing o oracle) :=
  Prune.paired _ _

theorem fans_fanned (f : Func) (o : Options) (oracle : Oracle) :
    Prune.Fanned f.graph oracle (f.pairing o oracle).live (f.pairing o oracle).unpaired
      (f.fans o oracle) := by
  rw [fans]
  split
  case isTrue => exact Prune.fanned o _ _
  case isFalse => exact ⟨by simp, by simp, by simp, by simp⟩

/-- The increfs of all groups. -/
theorem removals_fst : (f.removals o oracle).map Prod.fst =
    (f.pairing o oracle).pairs.map Prod.fst ++ (f.fans o oracle).map Prod.fst := by
  simp [removals, Function.comp_def]

/-- The decrefs of all groups. -/
theorem removals_snd : (f.removals o oracle).flatMap Prod.snd =
    (f.pairing o oracle).pairs.map Prod.snd ++ (f.fans o oracle).flatMap Prod.snd := by
  rw [removals, List.flatMap_append, List.flatMap_map, List.map_eq_flatMap]

theorem removals_fst_subset :
    (f.removals o oracle).map Prod.fst ⊆ (RefOps.ofFunc o.symbols f).increfs := by
  rw [removals_fst]
  intro op hOp
  apply (pairing_paired f o oracle).increfs_perm.subset
  rcases List.mem_append.mp hOp with hPair | hFan
  · exact List.mem_append_left _ hPair
  · exact List.mem_append_right _ ((fans_fanned f o oracle).increfs_sublist.subset hFan)

theorem removals_snd_subset :
    (f.removals o oracle).flatMap Prod.snd ⊆ (RefOps.ofFunc o.symbols f).decrefs := by
  rw [removals_snd]
  intro op hOp
  rcases List.mem_append.mp hOp with hPair | hFan
  · exact (pairing_paired f o oracle).decrefs_perm.subset (List.mem_append_left _ hPair)
  · exact (pairing_paired f o oracle).live_sublist.subset
      ((fans_fanned f o oracle).decrefs_subset hFan)

theorem removedOps_subset : f.removedOps o oracle ⊆ RefOp.ofFunc o.symbols f := by
  intro op hOp
  rcases List.mem_append.mp hOp with hNull | hGroup
  · exact (RefOps.mem_null.mp hNull).1
  · obtain ⟨r, hr, hMem⟩ := List.mem_flatMap.mp hGroup
    rcases List.mem_cons.mp hMem with rfl | hDecref
    · exact (RefOps.mem_increfs.mp (removals_fst_subset (List.mem_map_of_mem hr))).1
    · exact (RefOps.mem_decrefs.mp (removals_snd_subset (List.mem_flatMap.mpr ⟨r, hr, hDecref⟩))).1

/-- The members of all groups, increfs first. -/
theorem groups_perm (groups : List (RefOp × List RefOp)) :
    (groups.flatMap fun r => r.1 :: r.2).Perm (groups.map Prod.fst ++ groups.flatMap Prod.snd) := by
  induction groups with
  | nil => exact .refl _
  | cons r rest ih =>
      simp only [List.flatMap_cons, List.map_cons, List.cons_append]
      apply List.Perm.cons
      calc r.2 ++ rest.flatMap (fun r => r.1 :: r.2)
          |>.Perm (r.2 ++ (rest.map Prod.fst ++ rest.flatMap Prod.snd)) := ih.append_left r.2
        _ |>.Perm (rest.map Prod.fst ++ (r.2 ++ rest.flatMap Prod.snd)) := by
            rw [← List.append_assoc, ← List.append_assoc]
            exact List.perm_append_comm.append_right _

/-- No operation is removed twice. -/
theorem removedOps_nodup (h : f.Linked) : (f.removedOps o oracle).Nodup := by
  have hAll : (RefOp.ofFunc o.symbols f).Nodup := RefOp.nodup_ofFunc h
  have hPaired := pairing_paired f o oracle
  have hFanned := fans_fanned f o oracle
  have hIncrefs : ((f.removals o oracle).map Prod.fst).Nodup := by
    rw [removals_fst]
    refine List.Nodup.sublist (hFanned.increfs_sublist.append_left _) ?_
    exact hPaired.increfs_perm.nodup_iff.mpr (hAll.sublist RefOps.increfs_sublist)
  have hDecrefs : ((f.removals o oracle).flatMap Prod.snd).Nodup := by
    have hParts := hPaired.decrefs_perm.nodup_iff.mpr (hAll.sublist RefOps.decrefs_sublist)
    rw [List.nodup_append] at hParts
    rw [removals_snd, List.nodup_append]
    refine ⟨hParts.1, hFanned.decrefs_nodup, fun a ha b hb => ?_⟩
    exact hParts.2.2 a ha b (hFanned.decrefs_subset hb)
  rw [removedOps, List.nodup_append]
  refine ⟨hAll.filter _, ?_, ?_⟩
  · rw [(groups_perm _).nodup_iff, List.nodup_append]
    refine ⟨hIncrefs, hDecrefs, ?_⟩
    rintro a ha b hb rfl
    have hKindA := (RefOps.mem_increfs.mp (removals_fst_subset ha)).2.1
    have hKindB := (RefOps.mem_decrefs.mp (removals_snd_subset hb)).2.1
    rw [hKindA] at hKindB
    cases hKindB
  · rintro a ha b hb rfl
    have hNull := (RefOps.mem_null.mp ha).2
    rw [(groups_perm _).mem_iff, List.mem_append] at hb
    rcases hb with hIncref | hDecref
    · rw [(RefOps.mem_increfs.mp (removals_fst_subset hIncref)).2.2] at hNull
      cases hNull
    · rw [(RefOps.mem_decrefs.mp (removals_snd_subset hDecref)).2.2] at hNull
      cases hNull

/-- Pruning erases the tags of the operations that are removed, and changes nothing else. -/
theorem prune_func (hTags : f.tags.Nodup) :
    (f.prune o oracle).func =
      f.mapBlocks fun b => b.erase ((f.removedOps o oracle).map fun op => op.instr.tag) := by
  have hPairs : (f.pairing o oracle).pairs.flatMap (fun x => [x.1, x.2]) =
      ((f.pairing o oracle).pairs.map fun x => (x.1, [x.2])).flatMap fun r => r.1 :: r.2 := by
    rw [List.flatMap_map]
  have hParts : f.removedOps o oracle = (RefOps.ofFunc o.symbols f).null ++
      ((f.pairing o oracle).pairs.flatMap (fun x => [x.1, x.2]) ++
        (f.fans o oracle).flatMap fun r => r.1 :: r.2) := by
    rw [removedOps, removals, List.flatMap_append, ← hPairs]
  have hListed := @removedOps_subset f o oracle
  rw [hParts, List.append_subset, List.append_subset] at hListed
  calc (f.prune o oracle).func
      = ((f.eraseOps (RefOps.ofFunc o.symbols f).null).eraseOps
          ((f.pairing o oracle).pairs.flatMap fun x => [x.1, x.2])).eraseOps
            ((f.fans o oracle).flatMap fun r => r.1 :: r.2) := rfl
    _ = f.mapBlocks fun b => b.erase ((f.removedOps o oracle).map fun op => op.instr.tag) := by
        rw [eraseOps_listed hTags hListed.1, eraseOps_erase hTags hListed.2.1,
          eraseOps_erase hTags hListed.2.2, hParts, List.map_append, List.map_append,
          List.append_assoc]

/-- An incref that is fanned out and the blocks found for it take turns. Only what the oracle
says of dominance has to be true. -/
theorem takeTurns_of_found (h : f.Linked)
    (hSound : ∀ a ∈ f.labels, ∀ b ∈ f.labels, a ≠ b → oracle.dominates a b = true →
      ∀ p, f.FromEntry b p → a ∈ p)
    {entry : Label} (hEntry : f.entry? = some entry) {live : List RefOp} {i : RefOp}
    {found : List Label} (hi : i.block ∈ f.labels)
    (hFound : Fanout.Found f.graph oracle live i found) (hLabels : found ⊆ f.labels) :
    TakeTurns f.graph.succ entry i.block found := by
  have hMiss : ∀ q : List Label, (¬ ∃ x ∈ found, x ∈ q) → ∀ y ∈ q, y ∉ found :=
    fun q hNone y hy hFoundY => hNone ⟨y, hFoundY, hy⟩
  constructor
  case distinct => exact hFound.apart
  case opener_first =>
    intro x hx p hPath
    have hne : i.block ≠ x := fun hEq => hFound.apart (hEq ▸ hx)
    exact hSound _ hi _ (hLabels hx) hne (hFound.dominated x hx) p
      ⟨entry, hEntry, hPath⟩
  case opener_between =>
    exact mem_of_reachesAvoiding h.closed (h.graph_nodes.symm ▸ hLabels) hFound.none_avoids
  case closer_between =>
    intro t ht q hPath
    by_contra hNone
    exact (hFound.covered t ht _ q hPath (hMiss q hNone)).1 rfl
  case closer_last =>
    intro z q hPath hEnd
    by_contra hNone
    cases hPath with
    | single => exact hFound.goes_on hEnd
    | @step _ t _ q edge rest =>
        have hNone' : ¬ ∃ x ∈ found, x ∈ q := fun ⟨x, hx, hMem⟩ =>
          hNone ⟨x, hx, List.mem_cons_of_mem _ hMem⟩
        exact (hFound.covered t edge z q rest (hMiss q hNone')).2 hEnd

/-- A pair that fits and stands in two blocks takes turns. -/
theorem takeTurns_of_fits (h : f.Linked) (hSound : oracle.SoundFor f) {entry : Label}
    (hEntry : f.entry? = some entry) {live : List RefOp} {i d : RefOp} (hi : i.block ∈ f.labels)
    (hd : d.block ∈ f.labels) (hFits : Prune.Fits f.graph oracle live i d)
    (hne : d.block ≠ i.block) : TakeTurns f.graph.succ entry i.block [d.block] := by
  obtain ⟨hBalances, hObjection⟩ := hFits
  simp only [Prune.balances, RefOp.dominates, RefOp.postDominates, hne, Ne.symm hne, if_false,
    Bool.and_eq_true] at hBalances
  obtain ⟨⟨_, hDom⟩, hPost⟩ := hBalances
  exact h.takeTurns_of_balanced hEntry hi hd (Ne.symm hne)
    (hSound.dominates _ hi _ hd (Ne.symm hne) hDom) (hSound.postDominates _ hd _ hi hne hPost)
    (Prune.of_objection?_eq_none hObjection hne).2

/-- All of the group stands in one block, the incref first. -/
def Within (r : RefOp × List RefOp) : Prop :=
  ∃ d, r.2 = [d] ∧ d.block = r.1.block ∧ r.1.position < d.position

/-- A group that is removed counts one value, and its blocks take turns or are one. -/
theorem removal_cases (h : f.Linked) (hSound : oracle.SoundFor f) {entry : Label}
    (hEntry : f.entry? = some entry) {r : RefOp × List RefOp} (hr : r ∈ f.removals o oracle) :
    (∀ d ∈ r.2, d.value = r.1.value) ∧ (r.2.map RefOp.block).Nodup ∧
      (Within r ∨ TakeTurns f.graph.succ entry r.1.block (r.2.map RefOp.block)) := by
  have hIncref : r.1.block ∈ f.labels :=
    RefOp.block_mem (RefOps.mem_increfs.mp (removals_fst_subset (List.mem_map_of_mem hr))).1
  have hListed : ∀ d ∈ r.2, d ∈ (RefOps.ofFunc o.symbols f).decrefs := fun d hd =>
    removals_snd_subset (List.mem_flatMap.mpr ⟨r, hr, hd⟩)
  have hDecrefs : ∀ d ∈ r.2, d.block ∈ f.labels := fun d hd =>
    RefOp.block_mem (RefOps.mem_decrefs.mp (hListed d hd)).1
  have hValue : ∀ d ∈ r.2, r.1.related d = true → d.value = r.1.value := fun d hd hRelated =>
    ((Value.same_iff (RefOps.mem_decrefs.mp (hListed d hd)).2.2).mp hRelated).symm
  rcases List.mem_append.mp hr with hPair | hFan
  · obtain ⟨⟨i, d⟩, hMem, rfl⟩ := List.mem_map.mp hPair
    obtain ⟨live, _, _, hPartner⟩ := (pairing_paired f o oracle).matched i d hMem
    obtain ⟨_, _, _, hFits, _⟩ := Prune.partner_some hPartner
    have hBalances := hFits.1
    simp only [Prune.balances, Bool.and_eq_true] at hBalances
    refine ⟨by simpa using hValue d (by simp) hBalances.1.1, by simp, ?_⟩
    by_cases hBlock : d.block = i.block
    · refine .inl ⟨d, rfl, hBlock, ?_⟩
      simpa [RefOp.dominates, hBlock] using hBalances.1.2
    · exact .inr (takeTurns_of_fits h hSound hEntry hIncref (hDecrefs d (by simp)) hFits hBlock)
  · obtain ⟨live, found, _, _, hFound, hEq⟩ := (fans_fanned f o oracle).decisions r.1 r.2 hFan
    have hBlocks : r.2.map RefOp.block = found := hEq ▸ hFound.map_block
    refine ⟨fun d hd => ?_, hBlocks ▸ hFound.nodup, .inr ?_⟩
    · obtain ⟨l, _, hRelated⟩ := List.mem_filterMap.mp (hEq ▸ hd)
      exact hValue d hd (relatedDecref?_some hRelated).2.1
    · rw [hBlocks]
      refine takeTurns_of_found h hSound.dominates hEntry hIncref hFound fun l hl => ?_
      rw [← hBlocks] at hl
      obtain ⟨d, hd, rfl⟩ := List.mem_map.mp hl
      exact hDecrefs d hd

end RefElision.Func
