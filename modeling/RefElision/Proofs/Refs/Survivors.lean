import RefElision.Proofs.Refs.Windows

/-! Decrefs that are left. Where the window of a group is open, a decref of the same value
that is left would have been taken for the group; the one exception is a pair whose
decref was found in a block that is listed before the block of the incref. -/
namespace RefElision

namespace Prune

variable {g : Digraph Label} {oracle : Oracle} {live : List RefOp} {i d e : RefOp}

/-- A decref behind the incref in its block fits. -/
theorem fits_within (hValue : e.value = i.value) (hBlock : e.block = i.block)
    (hLess : i.position < e.position) : Fits g oracle live i e := by
  constructor
  · simp [balances, RefOp.related, Value.same_self, RefOp.dominates, RefOp.postDominates, hValue,
      hBlock, hLess]
  · rw [objection?, if_pos hBlock]

/-- In another block it does not matter which decref of the value is asked about. -/
theorem Fits.congr (hFits : Fits g oracle live i d) (hne : d.block ≠ i.block)
    (hValue : e.value = i.value) (hBlock : e.block = d.block) : Fits g oracle live i e := by
  obtain ⟨hBalances, hObjection⟩ := hFits
  constructor
  · simp only [balances, RefOp.related, RefOp.dominates, RefOp.postDominates, hne, Ne.symm hne,
      if_false, Bool.and_eq_true] at hBalances
    simp [balances, RefOp.related, Value.same_self, RefOp.dominates, RefOp.postDominates, hne,
      Ne.symm hne, hValue, hBlock, hBalances.1.2, hBalances.2]
  · simpa only [objection?, hBlock] using hObjection

end Prune

namespace Group

variable {s : Symbols} {f : Func} {r : RefOp × List RefOp} {l : Label} {front back : List Instr}

/-- The incref stands in the part of a body that opened the window. -/
theorem opener_front (hGroup : Group s f r) (h : f.Linked) (hTags : f.tags.Nodup)
    (hBody : f.bodyAt l = front ++ back) (hMem : r.1.instr.tag ∈ front.map Instr.tag) :
    r.1.block = l ∧ r.1.position < front.length := by
  have hBlock : r.1.block = l := by
    rw [← RefOp.tag_mem_bodyAt h hTags hGroup.opener_mem, hBody, List.map_append]
    exact List.mem_append_left _ hMem
  subst hBlock
  exact ⟨rfl, (RefOp.tag_mem_front h hTags hGroup.opener_mem hBody).mp hMem⟩

/-- Where the window of a group over several blocks is open: behind the incref in its
block, in a block between, or before a decref in the block of that. -/
theorem open_cases (hGroup : Group s f r) (h : f.Linked) (hTags : f.tags.Nodup)
    (hApart : r.1.block ∉ r.2.map RefOp.block) {entry : Label} {q : List Label}
    (hPath : Path f.graph.succ entry l (q ++ [l])) (hBody : f.bodyAt l = front ++ back)
    (hOpen : window r false (f.executed q ++ front) = some true) :
    (r.1.block = l ∧ r.1.position < front.length) ∨
      (∃ t ∈ f.graph.succ r.1.block, ∃ p, Path f.graph.succ t l p ∧
        ∀ z ∈ p, z ∉ r.2.map RefOp.block) ∨
      ∃ d ∈ r.2, d.block = l ∧ front.length ≤ d.position := by
  rw [window_append] at hOpen
  obtain ⟨between, hBefore, hFront⟩ := Option.bind_eq_some_iff.mp hOpen
  rcases of_turns_eq_true hFront with ⟨rfl, hMiss⟩ | ⟨first, second, hSplit, _⟩
  · -- the window was open when the block was entered
    right
    rw [hGroup.window_executed h hTags hApart] at hBefore
    rcases of_turns_eq_true hBefore with ⟨hFalse, _⟩ | ⟨first, second, rfl, hBetween⟩
    · cases hFalse
    · rw [List.append_assoc, List.cons_append] at hPath
      obtain ⟨t, ht, hRest⟩ := (hPath.split rfl).2.tail (by simp)
      by_cases hCloser : l ∈ r.2.map RefOp.block
      · obtain ⟨d, hd, rfl⟩ := List.mem_map.mp hCloser
        refine .inr ⟨d, hd, rfl, Nat.le_of_not_lt fun hLess => ?_⟩
        apply hMiss d.instr.tag _ (List.mem_map_of_mem hd)
        exact (RefOp.tag_mem_front h hTags (hGroup.closer_mem d hd) hBody).mpr hLess
      · refine .inl ⟨t, ht, _, hRest, fun z hz => ?_⟩
        rcases List.mem_append.mp hz with hIn | hLast
        · exact hBetween z hIn
        · exact List.mem_singleton.mp hLast ▸ hCloser
  · exact .inl (hGroup.opener_front h hTags hBody (by rw [hSplit]; simp))

/-- Where the window of a group within one block is open: between the two. -/
theorem open_within (hGroup : Group s f r) (h : f.Linked) (hTags : f.tags.Nodup)
    (hWithin : Func.Within r) {q : List Label} (hBody : f.bodyAt l = front ++ back)
    (hOpen : window r false (f.executed q ++ front) = some true) :
    r.1.block = l ∧ r.1.position < front.length ∧ ∀ d ∈ r.2, front.length ≤ d.position := by
  rw [window_append, hGroup.window_executed_within h hTags hWithin, Option.bind_some] at hOpen
  rcases of_turns_eq_true hOpen with ⟨hFalse, _⟩ | ⟨first, second, hSplit, hMiss⟩
  · cases hFalse
  obtain ⟨hBlock, hOpener⟩ := hGroup.opener_front h hTags hBody (by rw [hSplit]; simp)
  refine ⟨hBlock, hOpener, fun d hd => Nat.le_of_not_lt fun hLess => ?_⟩
  obtain ⟨d', hEq, hSame, hOrder⟩ := hWithin
  obtain rfl : d = d' := by simpa [hEq] using hd
  subst hBlock
  -- the decref cannot stand before the incref, nor behind it without closing the window
  have hCut : ∃ before behind, front = before ++ behind ∧ before.map Instr.tag = first ∧
      behind.map Instr.tag = r.1.instr.tag :: second := List.map_eq_append_iff.mp hSplit
  obtain ⟨before, behind, rfl, rfl, hBehind⟩ := hCut
  have hMem := (RefOp.tag_mem_front h hTags (hGroup.closer_mem d hd) (hSame ▸ hBody)).mpr hLess
  rw [List.map_append, hBehind, List.mem_append, List.mem_cons] at hMem
  rw [List.append_assoc] at hBody
  rcases hMem with hBefore | hOpenerTag | hSecond
  · have hNotBefore : r.1.instr.tag ∉ before.map Instr.tag := by
      have hNodup := Func.nodup_bodyAt hTags r.1.block
      rw [hBody, List.map_append, List.map_append, hBehind, List.cons_append] at hNodup
      intro hIn
      exact (List.nodup_append.mp hNodup).2.2 _ hIn _ List.mem_cons_self rfl
    rw [RefOp.tag_mem_front h hTags hGroup.opener_mem hBody] at hNotBefore
    rw [RefOp.tag_mem_front h hTags (hGroup.closer_mem d hd) (hSame ▸ hBody)] at hBefore
    omega
  · apply (List.nodup_cons.mp (hGroup.tags_nodup hTags)).1
    rw [← hOpenerTag]
    exact List.mem_map_of_mem hd
  · exact hMiss _ hSecond (List.mem_map_of_mem hd)

end Group

namespace Func

variable {f : Func} {o : Options} {oracle : Oracle} {i d e : RefOp} {ds : List RefOp}

/-- Decrefs in a part of the list of all decrefs, cut at one of them. -/
theorem earlier_of_split (h : f.Linked) {current front back : List RefOp}
    (hSub : current.Sublist (RefOps.ofFunc o.symbols f).decrefs)
    (hSplit : current = front ++ d :: back) (he : e ∈ current) (hne : e ≠ d)
    (hFront : e ∉ front) : RefOp.Earlier f d e := by
  have hSorted : current.Pairwise (RefOp.Earlier f) :=
    (RefOp.pairwise_ofFunc h).sublist (hSub.trans RefOps.decrefs_sublist)
  rw [hSplit] at he hSorted
  have hBack : e ∈ back := by
    rcases List.mem_append.mp he with hIn | hIn
    · exact (hFront hIn).elim
    · exact (List.mem_cons.mp hIn).resolve_left hne
  exact (List.pairwise_cons.mp (List.pairwise_append.mp hSorted).2.1).1 e hBack

/-- A decref that is left was live when a pair was found. If it fits too, it is listed
behind the one that was taken. -/
theorem exists_first_fit (h : f.Linked) (hPair : (i, d) ∈ (f.pairing o oracle).pairs)
    (hLive : e ∈ (f.pairing o oracle).live) :
    ∃ current, e ∈ current ∧ Prune.Fits f.graph oracle current i d ∧
      (Prune.Fits f.graph oracle current i e → RefOp.Earlier f d e) := by
  have hPaired := pairing_paired f o oracle
  obtain ⟨current, hLow, hHigh, hPartner⟩ := hPaired.matched i d hPair
  obtain ⟨front, back, hSplit, hFits, hFront⟩ := Prune.partner_some hPartner
  have hne : e ≠ d := by
    have hNodup := hPaired.decrefs_perm.nodup_iff.mpr
      ((RefOp.nodup_ofFunc h).sublist RefOps.decrefs_sublist)
    exact fun hEq => (List.nodup_append.mp hNodup).2.2 d
      (List.mem_map_of_mem (f := Prod.snd) hPair) e hLive hEq.symm
  refine ⟨current, hLow.subset hLive, hFits, fun hFitsToo => ?_⟩
  exact earlier_of_split h hHigh hSplit (hLow.subset hLive) hne fun hIn => hFront e hIn hFitsToo

/-- An incref without a partner has no decref of its value that is live in the end behind it in
its block. -/
theorem not_behind_of_unpaired (hUnpaired : i ∈ (f.pairing o oracle).unpaired)
    (hLive : e ∈ (f.pairing o oracle).live) (hValue : e.value = i.value)
    (hBlock : e.block = i.block) : ¬ i.position < e.position := by
  intro hLess
  obtain ⟨current, hLow, _, hPartner⟩ := (pairing_paired f o oracle).unmatched i hUnpaired
  exact Prune.partner_none hPartner e (hLow.subset hLive)
    (Prune.fits_within hValue hBlock hLess)

/-- An incref that is fanned out has no decref behind it in its block. -/
theorem not_behind_of_fan (hFan : (i, ds) ∈ f.fans o oracle)
    (hLive : e ∈ (f.pairing o oracle).live) (hValue : e.value = i.value)
    (hBlock : e.block = i.block) : ¬ i.position < e.position := by
  have hUnpaired : i ∈ (f.pairing o oracle).unpaired :=
    (fans_fanned f o oracle).increfs_sublist.subset (List.mem_map_of_mem (f := Prod.fst) hFan)
  exact not_behind_of_unpaired hUnpaired hLive hValue hBlock

/-- A decref that is left was live when an incref was fanned out. In a block that was
found it is listed behind the one that was taken. -/
theorem exists_first_found (h : f.Linked) (hFan : (i, ds) ∈ f.fans o oracle)
    (hLive : e ∈ (f.pairing o oracle).live) (hOut : e ∉ (f.fans o oracle).flatMap Prod.snd) :
    ∃ current found, e ∈ current ∧ Fanout.Found f.graph oracle current i found ∧
      ds.map RefOp.block = found ∧
      ∀ d ∈ ds, e.block = d.block → e.value = i.value → RefOp.Earlier f d e := by
  obtain ⟨current, found, hSub, hSurvives, hFound, hEq⟩ :=
    (fans_fanned f o oracle).decisions i ds hFan
  have hIn : e ∈ current := hSurvives e hLive hOut
  refine ⟨current, found, hIn, hFound, hEq ▸ hFound.map_block, fun d hd hBlock hValue => ?_⟩
  have hne : e ≠ d := fun hSame => hOut (List.mem_flatMap.mpr ⟨_, hFan, hSame ▸ hd⟩)
  rw [hEq] at hd
  obtain ⟨l, _, hRelated⟩ := List.mem_filterMap.mp hd
  obtain ⟨hBlockD, _, front, back, hSplit, hFront⟩ := relatedDecref?_some hRelated
  exact earlier_of_split h (hSub.trans (pairing_paired f o oracle).live_sublist) hSplit hIn hne
    fun hMem => hFront e hMem ⟨hBlock.trans hBlockD, hValue⟩

/-- A decref that is left. -/
structure Survives (f : Func) (o : Options) (oracle : Oracle) (e : RefOp) : Prop where
  decref : e ∈ (RefOps.ofFunc o.symbols f).decrefs
  kept : e ∉ f.removedOps o oracle

theorem Survives.live (hSurvives : f.Survives o oracle e) : e ∈ (f.pairing o oracle).live := by
  have hParts := (pairing_paired f o oracle).decrefs_perm.mem_iff.mpr hSurvives.decref
  rcases List.mem_append.mp hParts with hPair | hLive
  · obtain ⟨⟨i, d⟩, hMem, rfl⟩ := List.mem_map.mp hPair
    exact (hSurvives.kept (mem_removedOps_of_pair hMem).2).elim
  · exact hLive

theorem Survives.unfanned (hSurvives : f.Survives o oracle e) :
    e ∉ (f.fans o oracle).flatMap Prod.snd := by
  intro hMem
  obtain ⟨r, hr, hIn⟩ := List.mem_flatMap.mp hMem
  exact hSurvives.kept (mem_removedOps (List.mem_append_right _ hr) (List.mem_cons_of_mem _ hIn))

theorem not_earlier_of_le (hBlock : d.block = e.block) (hLe : e.position ≤ d.position) :
    ¬ RefOp.Earlier f d e := by
  rintro (hLess | ⟨_, hLess⟩)
  · rw [hBlock] at hLess
    omega
  · omega

section Open

variable {q : List Label} {front back : List Instr} (h : f.Linked) (hTags : f.tags.Nodup)
  (hSound : oracle.SoundFor f) (hSurvives : f.Survives o oracle e)
  (hPath : f.FromEntry e.block (q ++ [e.block]))
  (hBody : f.bodyAt e.block = front ++ back) (hLength : front.length = e.position)
include h hTags hSound hSurvives hPath hBody hLength

/-- A decref that is left runs while the window of a pair is open only if it stands in the
block of the incref and the other decref does not. -/
theorem apart_of_open_pair (hPair : (i, d) ∈ (f.pairing o oracle).pairs)
    (hValue : e.value = i.value)
    (hOpen : window (i, [d]) false (f.executed q ++ front) = some true) :
    i.block = e.block ∧ d.block ≠ e.block := by
  have hr : (i, [d]) ∈ f.removals o oracle := List.mem_append_left _ (List.mem_map_of_mem hPair)
  have hGroup := group_of_removal h hSound hr
  obtain ⟨entry, hEntry, hPath⟩ := hPath
  obtain ⟨current, hIn, hFits, hFirst⟩ := exists_first_fit h hPair hSurvives.live
  obtain ⟨_, _, hWithin | hTurns⟩ := removal_cases h hSound hEntry hr
  · obtain ⟨hBlock, hLess, hBehind⟩ := hGroup.open_within h hTags hWithin hBody hOpen
    obtain ⟨d', hEq, hSame, _⟩ := hWithin
    obtain rfl : d = d' := by simpa using hEq
    have hEarlier := hFirst (Prune.fits_within hValue hBlock.symm (hLength ▸ hLess))
    exact (not_earlier_of_le (hSame.trans hBlock) (hLength ▸ hBehind d (by simp)) hEarlier).elim
  · have hne : d.block ≠ i.block := fun hEq => hTurns.distinct (by simp [hEq])
    obtain ⟨hBlock, _⟩ | ⟨t, ht, p, hRest, hMiss⟩ | ⟨d', hd, hBlock, hLe⟩ :=
      hGroup.open_cases h hTags hTurns.distinct hPath hBody hOpen
    · have hIs : i.block = e.block := hBlock
      exact ⟨hIs, hIs ▸ hne⟩
    · have hNone := (Prune.of_objection?_eq_none hFits.2 hne).1
      have hNode : i.block ∈ f.graph.nodes :=
        h.graph_nodes.symm ▸ RefOp.block_mem hGroup.opener_mem
      exact (not_mem_of_decrefBetween h.closed hNode hNone ht hRest (by simpa using hMiss) hIn).elim
    · obtain rfl : d' = d := by simpa using hd
      have hEarlier := hFirst (hFits.congr hne hValue hBlock.symm)
      exact (not_earlier_of_le hBlock (hLength ▸ hLe) hEarlier).elim

/-- No decref that is left runs while the window of an incref that was fanned out is open. -/
theorem closed_of_fan (hFan : (i, ds) ∈ f.fans o oracle) (hValue : e.value = i.value) :
    window (i, ds) false (f.executed q ++ front) ≠ some true := by
  intro hOpen
  have hr : (i, ds) ∈ f.removals o oracle := List.mem_append_right _ hFan
  have hGroup := group_of_removal h hSound hr
  obtain ⟨entry, hEntry, hPath⟩ := hPath
  obtain ⟨current, found, hIn, hFound, hBlocks, hFirst⟩ :=
    exists_first_found h hFan hSurvives.live hSurvives.unfanned
  have hApart : i.block ∉ ds.map RefOp.block := hBlocks ▸ hFound.apart
  obtain ⟨hBlock, hLess⟩ | ⟨t, ht, p, hRest, hMiss⟩ | ⟨d, hd, hBlock, hLe⟩ :=
    hGroup.open_cases h hTags hApart hPath hBody hOpen
  · exact not_behind_of_fan hFan hSurvives.live hValue hBlock.symm (hLength ▸ hLess)
  · have hNode : i.block ∈ f.graph.nodes :=
      h.graph_nodes.symm ▸ RefOp.block_mem hGroup.opener_mem
    exact not_mem_of_decrefBetween h.closed hNode hFound.none_between ht hRest
      (hBlocks ▸ hMiss) hIn
  · exact not_earlier_of_le hBlock (hLength ▸ hLe) (hFirst d hd hBlock.symm hValue)

end Open

/-- If a decref is left behind the incref of a pair over two blocks, the block of the
decref that was taken is listed first. -/
theorem listed_first_of_pair (h : f.Linked) (hPair : (i, d) ∈ (f.pairing o oracle).pairs)
    (hne : d.block ≠ i.block) (hSurvives : f.Survives o oracle e) (hValue : e.value = i.value)
    (hBlock : e.block = i.block) (hLess : i.position < e.position) :
    f.labels.idxOf d.block < f.labels.idxOf i.block := by
  obtain ⟨_, _, _, hFirst⟩ := exists_first_fit h hPair hSurvives.live
  rcases hFirst (Prune.fits_within hValue hBlock hLess) with hListed | ⟨hSame, _⟩
  · rwa [hBlock] at hListed
  · exact (hne (hSame.trans hBlock)).elim

end Func

end RefElision
