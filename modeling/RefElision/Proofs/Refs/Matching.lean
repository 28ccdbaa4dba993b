import Mathlib.Data.List.Nodup
import RefElision.Proofs.Graph.WalkCover
import RefElision.Refs.Prune

/-! Which operations are matched with each other. An incref gets the first live decref
that fits, or else the first ones on all paths that leave its block. A decref is used
up once, and what survives was live at every decision. -/
namespace RefElision

/-- The decref found in a block is the first related one. -/
theorem relatedDecref?_some {live : List RefOp} {l : Label} {incref d : RefOp}
    (h : relatedDecref? live l incref = some d) :
    d.block = l ∧ incref.related d = true ∧ ∃ front back, live = front ++ d :: back ∧
      ∀ e ∈ front, ¬ (e.block = l ∧ e.value = incref.value) := by
  obtain ⟨hd, front, back, hSplit, hFront⟩ := List.find?_eq_some_iff_append.mp h
  simp only [Bool.and_eq_true, beq_iff_eq] at hd
  refine ⟨hd.1, hd.2, front, back, hSplit, fun e he hBoth => ?_⟩
  have hNot := hFront e he
  simp [RefOp.related, hBoth.1, hBoth.2, Value.same_self] at hNot

namespace Fanout

/-- What speaks for the blocks that are found. -/
structure Found (g : Digraph Label) (oracle : Oracle) (live : List RefOp) (incref : RefOp)
    (found : List Label) : Prop where
  nonempty : found ≠ []
  nodup : found.Nodup
  apart : incref.block ∉ found
  decref : ∀ l ∈ found, ∃ d, relatedDecref? live l incref = some d
  dominated : ∀ l ∈ found, oracle.dominates incref.block l = true
  none_between : decrefBetween g live incref.block found = false
  none_avoids : reachesAvoiding g found found (some incref.block) = false
  goes_on : g.succ incref.block ≠ []
  covered : ∀ t ∈ g.succ incref.block, ∀ z q, Path g.succ t z q → (∀ y ∈ q, y ∉ found) →
    z ≠ incref.block ∧ g.succ z ≠ []

theorem found_of_blocks? {g : Digraph Label} {o : Options} {oracle : Oracle} {live : List RefOp}
    {incref : RefOp} {found : List Label} (h : blocks? g o oracle live incref = some found) :
    Found g oracle live incref found := by
  rw [blocks?] at h
  split at h
  case h_1 => cases h
  case h_2 blocks hNearest =>
    split at h
    case isFalse => cases h
    case isTrue hChecks =>
      obtain rfl := Option.some.inj h
      obtain ⟨hGoesOn, hNodup, hHits, hCovered⟩ := Walk.resolve_spec hNearest
      simp only [Bool.and_eq_true, List.all_eq_true, Bool.not_eq_true'] at hChecks
      constructor
      case nonempty => exact Walk.ne_nil_of_resolve hNearest
      case nodup => exact hNodup
      case apart => exact fun hMem => (hHits _ hMem).2 rfl
      case decref => exact fun l hl => Option.isSome_iff_exists.mp (hHits l hl).1
      case dominated => exact hChecks.1.1
      case none_between => exact hChecks.1.2
      case none_avoids => exact hChecks.2
      case goes_on => exact Digraph.succ_ne_nil hGoesOn
      case covered =>
        intro t ht z q hPath hMiss
        obtain ⟨hne, hz⟩ := hCovered t ht z q hPath hMiss
        exact ⟨hne, Digraph.succ_ne_nil hz⟩

/-- There is one decref for each block that was found. -/
theorem Found.map_block {g : Digraph Label} {oracle : Oracle} {live : List RefOp}
    {incref : RefOp} {found : List Label} (h : Found g oracle live incref found) :
    (found.filterMap fun l => relatedDecref? live l incref).map RefOp.block = found := by
  have hAll := h.decref
  clear h
  induction found with
  | nil => rfl
  | cons l rest ih =>
      obtain ⟨d, hd⟩ := hAll l List.mem_cons_self
      have hRest := ih fun m hm => hAll m (List.mem_cons_of_mem _ hm)
      simp [hd, (relatedDecref?_some hd).1, hRest]

end Fanout

namespace Prune

variable {g : Digraph Label} {oracle : Oracle} {live : List RefOp} {incref decref : RefOp}

/-- The decref balances the incref and nothing speaks against the pair. -/
def Fits (g : Digraph Label) (oracle : Oracle) (live : List RefOp) (incref decref : RefOp) :
    Prop :=
  balances oracle incref decref = true ∧ objection? g live incref decref = none

/-- What is checked of a pair in two blocks. -/
theorem of_objection?_eq_none (h : objection? g live incref decref = none)
    (hne : decref.block ≠ incref.block) :
    decrefBetween g live incref.block [decref.block] = false ∧
      balanced g incref.block decref.block = true := by
  rw [objection?, if_neg hne] at h
  split at h
  case isTrue => cases h
  case isFalse hBetween =>
    split at h
    case isTrue => cases h
    case isFalse hBalanced => exact ⟨by simpa using hBetween, by simpa using hBalanced⟩

/-- The partner is the first candidate that fits. -/
theorem partner_some {candidates : List RefOp}
    (h : (partner g oracle live incref candidates).2 = some decref) :
    ∃ front back, candidates = front ++ decref :: back ∧ Fits g oracle live incref decref ∧
      ∀ d ∈ front, ¬ Fits g oracle live incref d := by
  induction candidates with
  | nil => cases h
  | cons d rest ih =>
      have hRest : ¬ Fits g oracle live incref d →
          (partner g oracle live incref rest).2 = some decref →
          ∃ front back, d :: rest = front ++ decref :: back ∧
            Fits g oracle live incref decref ∧ ∀ d ∈ front, ¬ Fits g oracle live incref d := by
        intro hNot hFound
        obtain ⟨front, back, hSplit, hFits, hFront⟩ := ih hFound
        exact ⟨d :: front, back, by rw [hSplit]; rfl, hFits,
          List.forall_mem_cons.mpr ⟨hNot, hFront⟩⟩
      rw [partner] at h
      split at h
      case isTrue hBalances =>
        split at h
        case h_1 hNone =>
          obtain rfl := Option.some.inj h
          exact ⟨[], rest, rfl, ⟨hBalances, hNone⟩, by simp⟩
        case h_2 objection hSome =>
          apply hRest _ h
          rintro ⟨_, hNone⟩
          rw [hSome] at hNone
          cases hNone
      case isFalse hNot => exact hRest (fun hFits => hNot hFits.1) h

/-- Without a partner no candidate fits. -/
theorem partner_none {candidates : List RefOp}
    (h : (partner g oracle live incref candidates).2 = none) :
    ∀ d ∈ candidates, ¬ Fits g oracle live incref d := by
  induction candidates with
  | nil => exact fun _ hMem => (List.not_mem_nil hMem).elim
  | cons d rest ih =>
      rw [partner] at h
      split at h
      case isTrue =>
        split at h
        case h_1 => cases h
        case h_2 objection hSome =>
          refine List.forall_mem_cons.mpr ⟨?_, ih h⟩
          rintro ⟨_, hNone⟩
          rw [hSome] at hNone
          cases hNone
      case isFalse hNot => exact List.forall_mem_cons.mpr ⟨fun hFits => hNot hFits.1, ih h⟩

/-- What looking for pairs comes to. Each decision was made on a list of live decrefs
between the first and the last one. -/
structure Paired (g : Digraph Label) (oracle : Oracle) (live increfs : List RefOp)
    (p : Pairing) : Prop where
  live_sublist : p.live.Sublist live
  matched : ∀ i d, (i, d) ∈ p.pairs → ∃ current, p.live.Sublist current ∧ current.Sublist live ∧
    (partner g oracle current i current).2 = some d
  unmatched : ∀ i ∈ p.unpaired, ∃ current, p.live.Sublist current ∧ current.Sublist live ∧
    (partner g oracle current i current).2 = none
  increfs_perm : (p.pairs.map Prod.fst ++ p.unpaired).Perm increfs
  decrefs_perm : (p.pairs.map Prod.snd ++ p.live).Perm live
  events : ∀ i d, .prunedPair i d ∈ p.events ↔ (i, d) ∈ p.pairs

section PairStep

variable {increfs : List RefOp} {p : Pairing} {rejected : Nat} {events : List Event}

/-- An incref without a partner is put aside. -/
theorem Paired.skip (h : Paired g oracle live increfs p)
    (hPartner : (partner g oracle live incref live).2 = none)
    (hEvents : ∀ i d, .prunedPair i d ∈ events ↔ .prunedPair i d ∈ p.events) :
    Paired g oracle live (incref :: increfs)
      { p with unpaired := incref :: p.unpaired, rejected := rejected, events := events } := by
  constructor
  case live_sublist => exact h.live_sublist
  case matched => exact h.matched
  case unmatched =>
    refine List.forall_mem_cons.mpr ⟨?_, h.unmatched⟩
    exact ⟨live, h.live_sublist, List.Sublist.refl _, hPartner⟩
  case increfs_perm => exact List.perm_middle.trans (h.increfs_perm.cons incref)
  case decrefs_perm => exact h.decrefs_perm
  case events => exact fun i d => (hEvents i d).trans (h.events i d)

/-- A decref that is a partner is used up. -/
theorem Paired.use (h : Paired g oracle (live.erase decref) increfs p)
    (hPartner : (partner g oracle live incref live).2 = some decref)
    (hEvents : ∀ i d, .prunedPair i d ∈ events ↔
      (i, d) = (incref, decref) ∨ .prunedPair i d ∈ p.events) :
    Paired g oracle live (incref :: increfs)
      { p with pairs := (incref, decref) :: p.pairs, rejected := rejected, events := events } := by
  have hErase : (live.erase decref).Sublist live := List.erase_sublist
  have hMem : decref ∈ live := by
    obtain ⟨front, back, hSplit, _⟩ := partner_some hPartner
    rw [hSplit]
    simp
  constructor
  case live_sublist => exact h.live_sublist.trans hErase
  case matched =>
    intro i d hPair
    rcases List.mem_cons.mp hPair with hEq | hRest
    · obtain ⟨rfl, rfl⟩ := Prod.mk.inj hEq
      exact ⟨live, h.live_sublist.trans hErase, List.Sublist.refl _, hPartner⟩
    · obtain ⟨current, hLow, hHigh, hFirst⟩ := h.matched i d hRest
      exact ⟨current, hLow, hHigh.trans hErase, hFirst⟩
  case unmatched =>
    intro i hi
    obtain ⟨current, hLow, hHigh, hNone⟩ := h.unmatched i hi
    exact ⟨current, hLow, hHigh.trans hErase, hNone⟩
  case increfs_perm => exact h.increfs_perm.cons incref
  case decrefs_perm => exact (h.decrefs_perm.cons decref).trans (List.perm_cons_erase hMem).symm
  case events =>
    intro i d
    rw [hEvents, h.events, List.mem_cons]

end PairStep

theorem paired (live increfs : List RefOp) :
    Paired g oracle live increfs (pair g oracle live increfs) := by
  induction increfs generalizing live with
  | nil =>
      exact ⟨List.Sublist.refl _, by simp [pair], by simp [pair], by simp [pair], by simp [pair],
        by simp [pair]⟩
  | cons incref rest ih =>
      obtain ⟨⟨refused, found⟩, hPartner⟩ : ∃ x, partner g oracle live incref live = x := ⟨_, rfl⟩
      have hFound : (partner g oracle live incref live).2 = found := by rw [hPartner]
      simp only [pair, hPartner]
      cases found with
      | none => exact (ih live).skip hFound (by simp)
      | some decref => exact (ih (live.erase decref)).use hFound (by simp)

/-- What fanning out comes to. A decref that no incref uses was live at every decision. -/
structure Fanned (g : Digraph Label) (oracle : Oracle) (live increfs : List RefOp)
    (fans : List (RefOp × List RefOp)) : Prop where
  decisions : ∀ i ds, (i, ds) ∈ fans → ∃ current found, current.Sublist live ∧
    (∀ d ∈ live, d ∉ fans.flatMap Prod.snd → d ∈ current) ∧
    Fanout.Found g oracle current i found ∧
    ds = found.filterMap fun l => relatedDecref? current l i
  increfs_sublist : (fans.map Prod.fst).Sublist increfs
  decrefs_subset : fans.flatMap Prod.snd ⊆ live
  decrefs_nodup : (fans.flatMap Prod.snd).Nodup

/-- The decrefs in the blocks that were found are used up. -/
theorem Fanned.use {found : List Label} {decrefs increfs : List RefOp}
    {fans : List (RefOp × List RefOp)} (hFound : Fanout.Found g oracle live incref found)
    (hDecrefs : decrefs = found.filterMap fun l => relatedDecref? live l incref)
    (h : Fanned g oracle (live.filter fun d => !decrefs.contains d) increfs fans) :
    Fanned g oracle live (incref :: increfs) ((incref, decrefs) :: fans) := by
  have hBlocks : decrefs.map RefOp.block = found := hDecrefs ▸ hFound.map_block
  have hLive : decrefs ⊆ live := by
    intro d hd
    rw [hDecrefs] at hd
    obtain ⟨l, _, hRelated⟩ := List.mem_filterMap.mp hd
    exact List.mem_of_find?_eq_some hRelated
  have hLater : ∀ d ∈ fans.flatMap Prod.snd, d ∈ live ∧ d ∉ decrefs := by
    intro d hd
    simpa using h.decrefs_subset hd
  constructor
  case decisions =>
    intro i ds hFan
    rcases List.mem_cons.mp hFan with hEq | hRest
    · obtain ⟨rfl, rfl⟩ := Prod.mk.inj hEq
      exact ⟨live, found, List.Sublist.refl _, fun d hd _ => hd, hFound, hDecrefs⟩
    · obtain ⟨current, found', hSub, hSurvives, hRest'⟩ := h.decisions i ds hRest
      refine ⟨current, found', hSub.trans List.filter_sublist, fun d hd hOut => ?_, hRest'⟩
      rw [List.flatMap_cons, List.mem_append, not_or] at hOut
      exact hSurvives d (by simpa using ⟨hd, hOut.1⟩) hOut.2
  case increfs_sublist => exact h.increfs_sublist.cons_cons incref
  case decrefs_subset =>
    rw [List.flatMap_cons]
    exact List.append_subset.mpr ⟨hLive, fun d hd => (hLater d hd).1⟩
  case decrefs_nodup =>
    rw [List.flatMap_cons, List.nodup_append]
    refine ⟨(hBlocks.symm ▸ hFound.nodup).of_map _, h.decrefs_nodup, ?_⟩
    rintro d hd e he rfl
    exact (hLater d he).2 hd

theorem fanned (o : Options) (live increfs : List RefOp) :
    Fanned g oracle live increfs (fanOut g oracle o live increfs) := by
  induction increfs generalizing live with
  | nil => exact ⟨by simp [fanOut], by simp [fanOut], by simp [fanOut], by simp [fanOut]⟩
  | cons incref rest ih =>
      rw [fanOut]
      split
      case h_1 =>
        have h := ih live
        exact { h with increfs_sublist := h.increfs_sublist.cons incref }
      case h_2 found hBlocks => exact Fanned.use (Fanout.found_of_blocks? hBlocks) rfl (ih _)

end Prune

end RefElision
