import RefElision.Proofs.Refs.Records

/-! What a pass reports agrees with what it does. Counters, records and the flag for changes
are compared with the instructions that are moved and removed, whatever the oracle says. -/
namespace RefElision

namespace Symbols

variable (s : Symbols)

/-- Whether an instruction counts references to something other than null. -/
def isRef (kind : RefKind) (i : Instr) : Bool :=
  (s.classify i).any fun x => x.1 == kind && !x.2.isNull

def isNullRef (i : Instr) : Bool :=
  (s.classify i).any fun x => x.2.isNull

/-- How many decrefs of a body stand before some incref. -/
def earlyDecrefs : List Instr → Nat
  | [] => 0
  | i :: rest => (if s.isDecref i && rest.any s.isIncref then 1 else 0) + earlyDecrefs rest

end Symbols

namespace Normalize

variable {s : Symbols}

theorem earlyDecrefs_of_no_incref {body : List Instr} (h : ∀ i ∈ body, s.isIncref i = false) :
    s.earlyDecrefs body = 0 := by
  induction body with
  | nil => rfl
  | cons i rest ih =>
      rw [List.forall_mem_cons] at h
      have hNone : rest.any s.isIncref = false := List.any_eq_false.mpr (by simpa using h.2)
      rw [Symbols.earlyDecrefs, hNone, Bool.and_false, ih h.2]
      rfl

theorem earlyDecrefs_append_of_no_decref {front : List Instr}
    (h : ∀ i ∈ front, s.isDecref i = false) (back : List Instr) :
    s.earlyDecrefs (front ++ back) = s.earlyDecrefs back := by
  induction front with
  | nil => rfl
  | cons i rest ih =>
      rw [List.forall_mem_cons] at h
      rw [List.cons_append, Symbols.earlyDecrefs, h.1, Bool.false_and, ih h.2]
      exact Nat.zero_add _

/-- In front of the last incref all decrefs are early. -/
theorem earlyDecrefs_split {i : Instr} (hi : s.isIncref i = true) {back : List Instr}
    (hBack : ∀ j ∈ back, s.isIncref j = false) (front : List Instr) :
    s.earlyDecrefs (front ++ i :: back) = (front.filter s.isDecref).length := by
  induction front with
  | nil =>
      rw [List.nil_append, Symbols.earlyDecrefs, Symbols.isDecref_of_isIncref hi,
        earlyDecrefs_of_no_incref hBack]
      rfl
  | cons j rest ih =>
      have hLater : (rest ++ i :: back).any s.isIncref = true := by simp [hi]
      rw [List.cons_append, Symbols.earlyDecrefs, hLater, Bool.and_true, ih]
      cases hj : s.isDecref j <;> simp [hj, Nat.add_comm]

/-- A body without an incref, or the parts around its last incref. -/
theorem splitAtLastIncref_cases (body : List Instr) :
    ((splitAtLastIncref s body).1 = [] ∧ ∀ i ∈ body, s.isIncref i = false) ∨
      ∃ front i, (splitAtLastIncref s body).1 = front ++ [i] ∧ s.isIncref i = true ∧
        ∀ j ∈ (splitAtLastIncref s body).2, s.isIncref j = false := by
  have hLater : ∀ j ∈ (splitAtLastIncref s body).2, s.isIncref j = false := by
    intro j hj
    simpa using List.mem_takeWhile_imp (List.mem_reverse.mp hj)
  cases hDrop : body.reverse.dropWhile fun i => !s.isIncref i with
  | nil =>
      left
      have hFront : (splitAtLastIncref s body).1 = [] := by
        simp [splitAtLastIncref, hDrop]
      refine ⟨hFront, ?_⟩
      have hAll := splitAtLastIncref_append (s := s) body
      rw [hFront, List.nil_append] at hAll
      rwa [← hAll]
  | cons i rest =>
      right
      refine ⟨rest.reverse, i, by simp [splitAtLastIncref, hDrop], ?_, hLater⟩
      have hHead := List.head?_dropWhile_not (fun i => !s.isIncref i) body.reverse
      rw [hDrop] at hHead
      simpa using hHead

/-- As many decrefs are moved as stand before some incref. -/
theorem length_early (body : List Instr) : (early s body).length = s.earlyDecrefs body := by
  rw [early]
  rcases splitAtLastIncref_cases (s := s) body with ⟨hFront, hNone⟩ | ⟨front, i, hFront, hi, hBack⟩
  · rw [hFront, earlyDecrefs_of_no_incref hNone]
    rfl
  · calc ((splitAtLastIncref s body).1.filter s.isDecref).length
        = (front.filter s.isDecref).length := by
          rw [hFront, List.filter_append, List.filter_cons_of_neg
            (by simp [Symbols.isDecref_of_isIncref hi]), List.filter_nil, List.append_nil]
      _ = s.earlyDecrefs (front ++ i :: (splitAtLastIncref s body).2) :=
          (earlyDecrefs_split hi hBack front).symm
      _ = s.earlyDecrefs body := by
          rw [List.append_cons, ← hFront, splitAtLastIncref_append]

theorem earlyDecrefs_normalBody (body : List Instr) : s.earlyDecrefs (normalBody s body) = 0 := by
  obtain ⟨front, back, hSplit, hFront, hBack⟩ := normalBody_split (s := s) body
  rw [hSplit, earlyDecrefs_append_of_no_decref hFront, earlyDecrefs_of_no_incref hBack]

theorem normalBody_eq_self {body : List Instr} (h : s.earlyDecrefs body = 0) :
    normalBody s body = body := by
  have hEarly : early s body = [] := List.eq_nil_of_length_eq_zero (length_early body ▸ h)
  have hSettled : settled s body = body := by
    have hFront : (splitAtLastIncref s body).1.filter (fun i => !s.isDecref i) =
        (splitAtLastIncref s body).1 := by
      rw [List.filter_eq_self]
      intro i hi
      simpa using List.filter_eq_nil_iff.mp hEarly i hi
    show (splitAtLastIncref s body).1.filter (fun i => !s.isDecref i) ++
      (splitAtLastIncref s body).2 = body
    rw [hFront, splitAtLastIncref_append]
  rw [normalBody, hSettled, hEarly, List.append_nil, ← List.reverse_append,
    List.takeWhile_append_dropWhile, List.reverse_reverse]

end Normalize

namespace Func

variable {f g : Func} {o : Options} {oracle : Oracle} {s : Symbols}

/-- How many instructions count references of a kind, to something other than null. -/
def countRefs (f : Func) (s : Symbols) (kind : RefKind) : Nat :=
  f.instrs.countP (s.isRef kind)

def countNullRefs (f : Func) (s : Symbols) : Nat :=
  f.instrs.countP s.isNullRef

/-- How many decrefs stand before some incref of their block. -/
def earlyDecrefs (f : Func) (s : Symbols) : Nat :=
  (f.blocks.map fun b => s.earlyDecrefs b.body).sum

theorem decrefsMoved_normalize : (f.normalize o).counters.decrefsMoved = f.earlyDecrefs o.symbols := by
  show ((f.blocks.map fun b => (b.label, Normalize.movedIn o.symbols b)).map Prod.snd).sum = _
  rw [List.map_map]
  congr 1
  apply List.map_congr_left
  intro b _
  exact Normalize.length_early b.body

theorem earlyDecrefs_eq_zero_iff :
    f.earlyDecrefs s = 0 ↔ ∀ b ∈ f.blocks, s.earlyDecrefs b.body = 0 := by
  rw [earlyDecrefs, List.sum_eq_zero_iff_forall_eq_nat]
  simp

theorem changed_normalize : (f.normalize o).changed = true ↔ f.earlyDecrefs o.symbols ≠ 0 := by
  rw [Ne, earlyDecrefs_eq_zero_iff]
  simp [normalize, Normalize.movedIn, Normalize.length_early]

/-- A function without early decrefs is in normal form, and a normal form has none. -/
theorem normalize_func_eq_self : (f.normalize o).func = f ↔ f.earlyDecrefs o.symbols = 0 := by
  rw [earlyDecrefs_eq_zero_iff]
  constructor
  · intro hSame b hb
    have hBlocks : f.blocks.map (Normalize.normalBlock o.symbols) = f.blocks :=
      congrArg Func.blocks hSame
    rw [← hBlocks] at hb
    obtain ⟨c, _, rfl⟩ := List.mem_map.mp hb
    exact Normalize.earlyDecrefs_normalBody c.body
  · intro hNone
    have hBlock : ∀ b ∈ f.blocks, Normalize.normalBlock o.symbols b = id b := by
      intro b hb
      rw [Normalize.normalBlock, Normalize.normalBody_eq_self (hNone b hb), id]
    rw [normalize_func, mapBlocks, List.map_congr_left hBlock, List.map_id]

theorem Thins.countP_eq {removed : List Instr} (h : f.Thins removed g) (test : Instr → Bool) :
    f.instrs.countP test = removed.countP test + g.instrs.countP test := by
  rw [← h.perm.countP_eq test, List.countP_append]

section Removed

theorem isRef_instr {op : RefOp} (h : op ∈ RefOp.ofFunc s f) (kind : RefKind) :
    s.isRef kind op.instr = (op.kind == kind && !op.value.isNull) := by
  obtain ⟨_, _, _, _, hClassify⟩ := RefOp.mem_ofFunc.mp h
  rw [Symbols.isRef, hClassify, Option.any_some]

theorem isNullRef_instr {op : RefOp} (h : op ∈ RefOp.ofFunc s f) :
    s.isNullRef op.instr = op.value.isNull := by
  obtain ⟨_, _, _, _, hClassify⟩ := RefOp.mem_ofFunc.mp h
  rw [Symbols.isNullRef, hClassify, Option.any_some]

/-- An operation on null is neither an incref nor a decref. -/
theorem tests_null {op : RefOp} (h : op ∈ (RefOps.ofFunc s f).null) :
    s.isRef .incref op.instr = false ∧ s.isRef .decref op.instr = false ∧
      s.isNullRef op.instr = true := by
  obtain ⟨hOp, hNull⟩ := RefOps.mem_null.mp h
  simp [isRef_instr hOp, isNullRef_instr hOp, hNull]

theorem tests_incref {op : RefOp} (h : op ∈ (RefOps.ofFunc s f).increfs) :
    s.isRef .incref op.instr = true ∧ s.isRef .decref op.instr = false ∧
      s.isNullRef op.instr = false := by
  obtain ⟨hOp, hKind, hNull⟩ := RefOps.mem_increfs.mp h
  simp [isRef_instr hOp, isNullRef_instr hOp, hKind, hNull]

theorem tests_decref {op : RefOp} (h : op ∈ (RefOps.ofFunc s f).decrefs) :
    s.isRef .incref op.instr = false ∧ s.isRef .decref op.instr = true ∧
      s.isNullRef op.instr = false := by
  obtain ⟨hOp, hKind, hNull⟩ := RefOps.mem_decrefs.mp h
  simp [isRef_instr hOp, isNullRef_instr hOp, hKind, hNull]

theorem countP_instr_of_all {ops : List RefOp} {test : Instr → Bool}
    (h : ∀ op ∈ ops, test op.instr = true) : (ops.map RefOp.instr).countP test = ops.length := by
  rw [List.countP_map, List.countP_eq_length]
  exact h

theorem countP_instr_of_none {ops : List RefOp} {test : Instr → Bool}
    (h : ∀ op ∈ ops, test op.instr = false) : (ops.map RefOp.instr).countP test = 0 := by
  rw [List.countP_map, List.countP_eq_zero]
  intro op hOp
  rw [Function.comp_apply, h op hOp]
  exact Bool.false_ne_true

/-- Instructions are those of operations on null, those of the increfs and decrefs that are
removed, or left. -/
theorem countP_prune (h : f.Linked) (hTags : f.tags.Nodup) (test : Instr → Bool) :
    f.instrs.countP test =
      ((RefOps.ofFunc o.symbols f).null.map RefOp.instr).countP test +
        ((((f.removals o oracle).map Prod.fst).map RefOp.instr).countP test +
          (((f.removals o oracle).flatMap Prod.snd).map RefOp.instr).countP test) +
        (f.prune o oracle).func.instrs.countP test := by
  have hThins : f.Thins ((f.removedOps o oracle).map RefOp.instr) (f.prune o oracle).func :=
    thins_prune h hTags
  rw [hThins.countP_eq, removedOps, List.map_append, List.countP_append,
    ((groups_perm (f.removals o oracle)).map RefOp.instr).countP_eq, List.map_append,
    List.countP_append]

theorem exists_op {i : Instr} (hi : i ∈ f.instrs) {kind : RefKind} {v : Value}
    (hClassify : s.classify i = some (kind, v)) :
    ∃ op ∈ RefOp.ofFunc s f, op.instr = i ∧ op.value = v := by
  obtain ⟨b, hb, hBody⟩ := mem_instrs.mp hi
  obtain ⟨position, hPosition⟩ := List.mem_iff_getElem?.mp hBody
  exact ⟨⟨kind, v, i, b.label, position⟩, RefOp.mem_ofFunc.mpr ⟨b, hb, rfl, hPosition, hClassify⟩,
    rfl, rfl⟩

/-- Pruning leaves no operation on null. -/
theorem countNullRefs_prune (hTags : f.tags.Nodup) :
    (f.prune o oracle).func.countNullRefs o.symbols = 0 := by
  rw [prune_func hTags, countNullRefs, instrs_erase, List.countP_eq_zero]
  intro i hi hNull
  obtain ⟨hIn, hKept⟩ := List.mem_filter.mp hi
  rw [Symbols.isNullRef] at hNull
  cases hClassify : o.symbols.classify i with
  | none =>
      rw [hClassify] at hNull
      cases hNull
  | some x =>
      rw [hClassify] at hNull
      obtain ⟨op, hOp, rfl, hValue⟩ := exists_op hIn hClassify
      have hMem : op ∈ f.removedOps o oracle :=
        List.mem_append_left _ (RefOps.mem_null.mpr ⟨hOp, hValue ▸ hNull⟩)
      rw [List.contains_eq_mem, decide_eq_true (List.mem_map_of_mem hMem)] at hKept
      cases hKept

end Removed

/-- The counters of a pass tell how many operations of each kind are gone, and all other
instructions are still there. -/
structure Edits (f : Func) (s : Symbols) (r : Outcome) : Prop where
  increfs : f.countRefs s .incref =
    r.func.countRefs s .incref + (r.counters.pairsPruned + r.counters.fanoutIncrefs)
  decrefs : f.countRefs s .decref =
    r.func.countRefs s .decref + (r.counters.pairsPruned + r.counters.fanoutDecrefs)
  nulls : f.countNullRefs s = r.func.countNullRefs s + r.counters.nullDropped
  others : ∀ i, s.classify i = none → r.func.instrs.count i = f.instrs.count i

theorem edits_normalize : f.Edits o.symbols (f.normalize o) where
  increfs := (instrs_normalize.countP_eq _).symm
  decrefs := (instrs_normalize.countP_eq _).symm
  nulls := (instrs_normalize.countP_eq _).symm
  others i _ := instrs_normalize.count_eq i

theorem edits_prune (h : f.Linked) (hTags : f.tags.Nodup) :
    f.Edits o.symbols (f.prune o oracle) where
  increfs := by
    have hCount := @countP_prune f o oracle h hTags (o.symbols.isRef .incref)
    rw [countP_instr_of_none fun _ hOp => (tests_null hOp).1,
      countP_instr_of_all fun _ hOp => (tests_incref (removals_fst_subset hOp)).1,
      countP_instr_of_none fun _ hOp => (tests_decref (removals_snd_subset hOp)).1,
      removals_fst, List.length_append, List.length_map, List.length_map] at hCount
    rw [countRefs, countRefs, counters_prune h hTags]
    dsimp only
    omega
  decrefs := by
    have hCount := @countP_prune f o oracle h hTags (o.symbols.isRef .decref)
    rw [countP_instr_of_none fun _ hOp => (tests_null hOp).2.1,
      countP_instr_of_none fun _ hOp => (tests_incref (removals_fst_subset hOp)).2.1,
      countP_instr_of_all fun _ hOp => (tests_decref (removals_snd_subset hOp)).2.1,
      removals_snd, List.length_append, List.length_map, List.length_flatMap] at hCount
    rw [countRefs, countRefs, counters_prune h hTags]
    dsimp only
    omega
  nulls := by
    have hCount := @countP_prune f o oracle h hTags o.symbols.isNullRef
    rw [countP_instr_of_all fun _ hOp => (tests_null hOp).2.2,
      countP_instr_of_none fun _ hOp => (tests_incref (removals_fst_subset hOp)).2.2,
      countP_instr_of_none fun _ hOp => (tests_decref (removals_snd_subset hOp)).2.2] at hCount
    rw [countNullRefs, countNullRefs, counters_prune h hTags]
    dsimp only
    omega
  others i hi := by
    have hNone : ((f.removedOps o oracle).map RefOp.instr).count i = 0 := by
      rw [List.count_eq_zero]
      intro hMem
      have hSome := isSome_classify_of_removed hMem
      rw [hi] at hSome
      cases hSome
    have hCount : f.instrs.count i = ((f.removedOps o oracle).map RefOp.instr).count i +
        (f.prune o oracle).func.instrs.count i := (thins_prune h hTags).countP_eq (· == i)
    rw [hCount, hNone, Nat.zero_add]

theorem Edits.andThen {r : Outcome} {pass : Func → Outcome} (hFirst : f.Edits s r)
    (hSecond : r.func.Edits s (pass r.func)) : f.Edits s (r.andThen pass) where
  increfs := by
    have h := hFirst.increfs
    rw [hSecond.increfs] at h
    simp only [Outcome.andThen, Counters.add]
    omega
  decrefs := by
    have h := hFirst.decrefs
    rw [hSecond.decrefs] at h
    simp only [Outcome.andThen, Counters.add]
    omega
  nulls := by
    have h := hFirst.nulls
    rw [hSecond.nulls] at h
    simp only [Outcome.andThen, Counters.add]
    omega
  others i hi := (hSecond.others i hi).trans (hFirst.others i hi)

theorem removedOps_eq_nil : f.removedOps o oracle = [] ↔
    (RefOps.ofFunc o.symbols f).null = [] ∧ (f.pairing o oracle).pairs = [] ∧
      f.fans o oracle = [] := by
  have hGroups : (f.removals o oracle).flatMap (fun r => r.1 :: r.2) = [] ↔
      f.removals o oracle = [] := by
    cases f.removals o oracle <;> simp
  rw [removedOps, List.append_eq_nil_iff, hGroups, removals, List.append_eq_nil_iff,
    List.map_eq_nil_iff]

section Changed

variable (h : f.Linked) (hTags : f.tags.Nodup)
include h hTags

theorem changed_prune : (f.prune o oracle).changed = true ↔ f.removedOps o oracle ≠ [] := by
  show (f.size - (f.eraseOps (RefOps.ofFunc o.symbols f).null).size != 0 ||
    (f.pairing o oracle).pairs.length + (f.fans o oracle).length != 0) = true ↔ _
  rw [size_eraseOps_null h hTags, Ne, removedOps_eq_nil]
  simp [imp_iff_not_or]

theorem length_prune :
    f.instrs.length = (f.removedOps o oracle).length + (f.prune o oracle).func.instrs.length := by
  have hThins : f.Thins ((f.removedOps o oracle).map RefOp.instr) (f.prune o oracle).func :=
    thins_prune h hTags
  have hLength := hThins.perm.length_eq
  rw [List.length_append, List.length_map] at hLength
  exact hLength.symm

theorem prune_func_eq_self : (f.prune o oracle).func = f ↔ f.removedOps o oracle = [] := by
  constructor
  · intro hSame
    have hLength : f.instrs.length = (f.removedOps o oracle).length + _ := length_prune h hTags
    rw [hSame] at hLength
    exact List.eq_nil_of_length_eq_zero (by omega)
  · intro hNone
    rw [prune_func hTags, hNone, List.map_nil, erase_nil]

/-- Optimising changes a function exactly if one of the two passes does. -/
theorem changed_optimize : (f.optimize o).changed = true ↔ (f.optimize o).func ≠ f := by
  obtain ⟨g, hNormal⟩ : ∃ g, (f.normalize o).func = g := ⟨_, rfl⟩
  have hLinked : g.Linked := hNormal ▸ h.normalize
  have hNodup : g.tags.Nodup := hNormal ▸ thins_normalize.tags_nodup hTags
  have hChanged : (f.optimize o).changed =
      ((f.normalize o).changed || (g.prune o (o.dominators.compute g)).changed) := by
    rw [← hNormal]
    rfl
  have hFunc : (f.optimize o).func = (g.prune o (o.dominators.compute g)).func := by
    rw [← hNormal]
    rfl
  rw [hChanged, hFunc, Bool.or_eq_true, changed_prune hLinked hNodup]
  by_cases hNone : g.removedOps o (o.dominators.compute g) = []
  case pos =>
    rw [(prune_func_eq_self hLinked hNodup).mpr hNone, changed_normalize, Ne, Ne,
      ← normalize_func_eq_self, hNormal]
    simp [hNone]
  case neg =>
    have hShorter : (g.prune o (o.dominators.compute g)).func ≠ f := by
      intro hSame
      have hLength : g.instrs.length = (g.removedOps o (o.dominators.compute g)).length + _ :=
        length_prune hLinked hNodup
      have hSize : g.instrs.length = f.instrs.length := hNormal ▸ instrs_normalize.length_eq
      rw [hSame, hSize] at hLength
      exact hNone (List.eq_nil_of_length_eq_zero (by omega))
    exact iff_of_true (.inr hNone) hShorter

end Changed

end Func

namespace Pass

def normalizes : Pass → Bool
  | .prune _ => false
  | _ => true

def prunes : Pass → Bool
  | .normalize => false
  | _ => true

end Pass

namespace Func

/-- A function that was read from text and has gone through passes. -/
inductive Processed : Func → Prop where
  | parsed {f : Func} : f.IsParsed → Processed f
  | run {f : Func} (p : Pass) (o : Options) : Processed f → Processed (p.run o f).func

theorem Processed.linked_tags {f : Func} (h : f.Processed) : f.Linked ∧ f.tags.Nodup := by
  induction h with
  | parsed hParsed => exact ⟨hParsed.wellFormed.toLinked, hParsed.tags_nodup⟩
  | run p o _ ih =>
      obtain ⟨removed, _, hThins⟩ := p.thins ih.1 ih.2 o
      exact ⟨hThins.linked ih.1, hThins.tags_nodup ih.2⟩

/-- The counters of a pass are those of its records and tell what is gone. The flag is set if
the function is no longer the same, and then something was counted. -/
structure Accounts (f : Func) (s : Symbols) (r : Outcome) : Prop extends f.Edits s r where
  recorded : r.counters = .ofRecords f.name r.events
  changed_iff_edited : r.changed = true ↔ r.func ≠ f
  changed_iff_counted : r.changed = true ↔ 0 < r.counters.changes

section Passes

variable {f : Func} {o : Options} {oracle : Oracle} (h : f.Linked) (hTags : f.tags.Nodup)

theorem accounts_normalize : f.Accounts o.symbols (f.normalize o) where
  toEdits := edits_normalize
  recorded := booked_normalize.trans (Counters.ofEvents_eq f.name _)
  changed_iff_edited := by
    rw [changed_normalize, Ne, Ne, normalize_func_eq_self]
  changed_iff_counted := by
    rw [changed_normalize, ← decrefsMoved_normalize]
    exact Nat.pos_iff_ne_zero.symm

include h hTags

theorem accounts_prune : f.Accounts o.symbols (f.prune o oracle) where
  toEdits := edits_prune h hTags
  recorded := (booked_prune h hTags).trans (Counters.ofEvents_eq f.name _)
  changed_iff_edited := by
    rw [changed_prune h hTags, Ne, Ne, prune_func_eq_self h hTags]
  changed_iff_counted := by
    simp only [prune, Bool.or_eq_true, bne_iff_ne, Counters.changes]
    omega

theorem accounts_optimize : f.Accounts o.symbols (f.optimize o) where
  toEdits := edits_normalize.andThen
    (edits_prune h.normalize (thins_normalize.tags_nodup hTags))
  recorded := (Pass.booked h hTags .optimize o).trans (Counters.ofEvents_eq f.name _)
  changed_iff_edited := changed_optimize h hTags
  changed_iff_counted := by
    have hFirst : (f.normalize o).changed = true ↔ 0 < (f.normalize o).counters.changes :=
      accounts_normalize.changed_iff_counted
    have hSecond : ∀ oracle, ((f.normalize o).func.pruneWith o oracle).changed = true ↔
        0 < ((f.normalize o).func.pruneWith o oracle).counters.changes := fun _ =>
      (accounts_prune h.normalize (thins_normalize.tags_nodup hTags)).changed_iff_counted
    show ((f.normalize o).changed || ((f.normalize o).func.pruneWith o (some _)).changed) = true ↔
      0 < ((f.normalize o).counters.add
        ((f.normalize o).func.pruneWith o (some _)).counters).changes
    rw [Bool.or_eq_true, hFirst, hSecond, Counters.changes_add]
    omega

end Passes

/-- Whatever passes ran before, and whatever an oracle says, a pass accounts for all that it
does. If it normalises, then it moves the early decrefs, and if it prunes, then it drops all
operations on null. -/
theorem run_accounted {f : Func} (h : f.Processed) (p : Pass) (o : Options) :
    f.Accounts o.symbols (p.run o f) ∧
    (p.normalizes = true →
      (p.run o f).counters.decrefsMoved = f.earlyDecrefs o.symbols) ∧
    (p.prunes = true →
      (p.run o f).counters.nullDropped = f.countNullRefs o.symbols ∧
        (p.run o f).func.countNullRefs o.symbols = 0) := by
  obtain ⟨hLinked, hTags⟩ := h.linked_tags
  -- No operation on null is left, so all of them were counted.
  have hDropped : ∀ {r : Outcome}, f.Accounts o.symbols r → r.func.countNullRefs o.symbols = 0 →
      r.counters.nullDropped = f.countNullRefs o.symbols := by
    intro r hAccounts hNone
    rw [hAccounts.nulls, hNone, Nat.zero_add]
  cases p with
  | normalize =>
      rw [Pass.run]
      refine ⟨accounts_normalize, fun _ => decrefsMoved_normalize, fun hPrunes => ?_⟩
      cases hPrunes
  | prune oracle =>
      have hAccounts : f.Accounts o.symbols (f.pruneWith o oracle) := accounts_prune hLinked hTags
      have hNone : (f.pruneWith o oracle).func.countNullRefs o.symbols = 0 :=
        countNullRefs_prune hTags
      rw [Pass.run]
      refine ⟨hAccounts, fun hNormalizes => ?_, fun _ => ⟨hDropped hAccounts hNone, hNone⟩⟩
      cases hNormalizes
  | optimize =>
      rw [Pass.run]
      have hAccounts : f.Accounts o.symbols (f.optimize o) := accounts_optimize hLinked hTags
      have hNone : (f.optimize o).func.countNullRefs o.symbols = 0 :=
        countNullRefs_prune (thins_normalize.tags_nodup hTags)
      exact ⟨hAccounts, fun _ => decrefsMoved_normalize,
        fun _ => ⟨hDropped hAccounts hNone, hNone⟩⟩

/-- Something of everything: the decref of `w` is early, there is an incref of null, and two
blocks release `v`. -/
def manifold : Func where
  name := "f"
  args := ["v", "w"]
  blocks :=
    [⟨1, "a", [⟨1, none, .call "dec", [.var "w"]⟩, ⟨3, none, .call "inc", [.null 2]⟩,
        ⟨5, none, .call "inc", [.var "v"]⟩, ⟨7, none, .call "inc", [.var "w"]⟩], [],
        .branch (.var "w") "b" "c"⟩,
      ⟨2, "b", [⟨10, none, .call "dec", [.var "v"]⟩], ["a"], .ret []⟩,
      ⟨3, "c", [⟨12, none, .call "dec", [.var "v"]⟩], ["a"], .ret []⟩]

theorem isParsed_manifold : manifold.IsParsed := by
  have hRead : (Func.parse ("func @f(%v, %w) \x7b\na:\ncall @dec(%w)\ncall @inc(null)\n" ++
      "call @inc(%v)\ncall @inc(%w)\nbr %w, b, c\nb:\ncall @dec(%v)\nret\nc:\n" ++
      "call @dec(%v)\nret\n\x7d\n")).toOption = some manifold := by
    decide +kernel
  exact isParsed_of_toOption hRead

/-- All blocks are said to dominate each other, and `b` to post-dominate all of them. -/
def overstated : Oracle where
  dominates _ _ := true
  postDominates l _ := l == "b"

/-- The pair that counts `v` is refused, and then its incref is fanned out. -/
theorem run_accounted_manifold :
    manifold.Processed ∧
      (manifold.normalize { symbols := ⟨"inc", "dec"⟩ }).counters = ⟨1, 0, 0, 0, 0, 0⟩ ∧
      manifold.Accounts ⟨"inc", "dec"⟩ (manifold.normalize { symbols := ⟨"inc", "dec"⟩ }) ∧
      ((manifold.normalize { symbols := ⟨"inc", "dec"⟩ }).func.prune
        { symbols := ⟨"inc", "dec"⟩ } overstated).counters = ⟨0, 1, 1, 1, 1, 2⟩ ∧
      (manifold.normalize { symbols := ⟨"inc", "dec"⟩ }).func.Accounts ⟨"inc", "dec"⟩
        ((manifold.normalize { symbols := ⟨"inc", "dec"⟩ }).func.prune
          { symbols := ⟨"inc", "dec"⟩ } overstated) := by
  have hProcessed : manifold.Processed := .parsed isParsed_manifold
  have hNormal := Processed.run .normalize { symbols := ⟨"inc", "dec"⟩ } hProcessed
  exact ⟨hProcessed, by decide,
    (run_accounted hProcessed .normalize { symbols := ⟨"inc", "dec"⟩ }).1, by decide +kernel,
    (run_accounted hNormal (.prune (some overstated)) { symbols := ⟨"inc", "dec"⟩ }).1⟩

end Func

end RefElision
