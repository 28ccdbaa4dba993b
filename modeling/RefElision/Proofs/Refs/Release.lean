import RefElision.Proofs.Refs.Balance
import RefElision.Proofs.Refs.Executions
import RefElision.Proofs.Refs.Survivors

/-! No value is released too early. If a function can be executed along a path without
reading a value whose count is below one, then so can the optimised function, unless
the path comes to a block where a pair over two blocks was pruned and a decref of the
value is left behind the incref. -/
namespace RefElision.Func

variable {f : Func} {o : Options} {oracle : Oracle} {v : Value}

/-- How many windows of a value are open, and that one is if there are any. -/
theorem sum_open_cases (groups : List (RefOp × List RefOp)) (v : Value)
    (isOpen : RefOp × List RefOp → Bool) :
    0 ≤ (groups.map fun r => if r.1.value = v then (isOpen r).toInt else 0).sum ∧
      (0 < (groups.map fun r => if r.1.value = v then (isOpen r).toInt else 0).sum →
        ∃ r ∈ groups, r.1.value = v ∧ isOpen r = true) := by
  induction groups with
  | nil => simp
  | cons r rest ih =>
      obtain ⟨hRest, hSome⟩ := ih
      rw [List.map_cons, List.sum_cons]
      by_cases hr : r.1.value = v ∧ isOpen r = true
      · rw [if_pos hr.1, hr.2, Bool.toInt_true]
        exact ⟨by omega, fun _ => ⟨r, List.mem_cons_self, hr⟩⟩
      · have hZero : (if r.1.value = v then (isOpen r).toInt else 0) = 0 := by
          split
          case isTrue hValue =>
            have hClosed : isOpen r = false := by simpa [hValue] using hr
            rw [hClosed]
            rfl
          case isFalse => rfl
        rw [hZero, Int.zero_add]
        refine ⟨hRest, fun hPositive => ?_⟩
        obtain ⟨x, hx, hBoth⟩ := hSome hPositive
        exact ⟨x, List.mem_cons_of_mem _ hx, hBoth⟩

/-- Some window of a value is open if the count is behind. -/
theorem exists_open (h : f.Linked) (hTags : f.tags.Nodup) (hSound : oracle.SoundFor f)
    (hv : v.isNull = false) {last : Label} {p : List Label} (hPath : f.FromEntry last p)
    {front back : List Instr} (hSplit : f.executed p = front ++ back) :
    o.symbols.net v (front.filter fun i =>
        !((f.removedOps o oracle).map fun op => op.instr.tag).contains i.tag) ≤
      o.symbols.net v front ∧
    (o.symbols.net v (front.filter fun i =>
        !((f.removedOps o oracle).map fun op => op.instr.tag).contains i.tag) <
      o.symbols.net v front →
      ∃ r ∈ f.removals o oracle, r.1.value = v ∧ window r false front = some true) := by
  have hOpen : ∀ r ∈ f.removals o oracle,
      window r false front = some ((window r false front).getD false) := by
    intro r hr
    obtain ⟨isOpen, hWindow, _⟩ := window_of_path h hTags hSound hr hPath
    rw [hSplit, window_append] at hWindow
    obtain ⟨between, hFront, _⟩ := Option.bind_eq_some_iff.mp hWindow
    rw [hFront, Option.getD_some]
  have hInstrs : ∀ i ∈ front, ∃ b ∈ f.blocks, i ∈ b.body := fun i hi =>
    exists_of_mem_executed (p := p) (hSplit ▸ List.mem_append_left _ hi)
  have hNet := net_removed h hTags hSound hv hInstrs (fun r => (window r false front).getD false)
    hOpen
  obtain ⟨hSum, hSome⟩ := sum_open_cases (f.removals o oracle) v
    fun r => (window r false front).getD false
  refine ⟨by omega, fun hLess => ?_⟩
  obtain ⟨r, hr, hValue, hIs⟩ := hSome (by omega)
  exact ⟨r, hr, hValue, by rw [hOpen r hr, hIs]⟩

/-- A decref in the body of a block whose tag is not erased is left. -/
theorem survives_of_place (h : f.Linked) (hv : v.isNull = false) {l : Label} {k : Nat} {i : Instr}
    (hPlace : (f.bodyAt l)[k]? = some i) (hClassify : o.symbols.classify i = some (.decref, v))
    (hKept : i.tag ∉ (f.removedOps o oracle).map fun op => op.instr.tag) :
    f.Survives o oracle ⟨.decref, v, i, l, k⟩ := by
  obtain ⟨b, hb, rfl, _⟩ := exists_of_mem_bodyAt (List.mem_of_getElem? hPlace)
  rw [h.bodyAt_label hb] at hPlace
  constructor
  case decref =>
    exact RefOps.mem_decrefs.mpr ⟨RefOp.mem_ofFunc.mpr ⟨b, hb, rfl, hPlace, hClassify⟩, rfl, hv⟩
  case kept => exact fun hRemoved => hKept (List.mem_map.mpr ⟨_, hRemoved, rfl⟩)

/-- A decref that is left does not run while a window of its value is open, unless that is
the window of a pair over two blocks and the decref stands in the block of the incref. -/
theorem exposed_of_open (h : f.Linked) (hTags : f.tags.Nodup) (hSound : oracle.SoundFor f)
    (hv : v.isNull = false) {last : Label} {p : List Label} (hPath : f.FromEntry last p)
    {front back : List Step} {x : Instr} (hSplit : f.steps p = front ++ .instr x :: back)
    (hClassify : o.symbols.classify x = some (.decref, v))
    (hKept : x.tag ∉ (f.removedOps o oracle).map fun op => op.instr.tag)
    {r : RefOp × List RefOp} (hr : r ∈ f.removals o oracle) (hValue : r.1.value = v)
    (hOpen : window r false (front.filterMap Step.instr?) = some true) :
    ∃ i d e, (i, d) ∈ (f.pairing o oracle).pairs ∧ i.value = v ∧ d.block ≠ i.block ∧
      f.Survives o oracle e ∧ e.value = v ∧ e.block = i.block ∧ i.block ∈ p := by
  obtain ⟨q, l, rest, before, after, rfl, hAt, rfl⟩ := steps_split hSplit
  have hBody := bodyAt_of_stepsAt hAt
  rw [List.filterMap_append, filterMap_steps] at hOpen
  -- The decref that is about to run, as an operation at its place.
  have hPlace : (f.bodyAt l)[(before.filterMap Step.instr?).length]? = some x := by
    rw [hBody]
    simp
  have hSurvives := survives_of_place h hv hPlace hClassify hKept
  have hFront : f.FromEntry l (q ++ [l]) := by
    obtain ⟨entry, hEntry, hWhole⟩ := hPath
    exact ⟨entry, hEntry, (hWhole.split rfl).1⟩
  rcases List.mem_append.mp hr with hPair | hFan
  · obtain ⟨⟨i, d⟩, hMem, rfl⟩ := List.mem_map.mp hPair
    obtain ⟨hBlock, hApart⟩ := apart_of_open_pair h hTags hSound hSurvives hFront hBody
      rfl hMem hValue.symm hOpen
    refine ⟨i, d, _, hMem, hValue, hBlock ▸ hApart, hSurvives, rfl, hBlock.symm, ?_⟩
    rw [hBlock]
    simp
  · exact (closed_of_fan h hTags hSound hSurvives hFront hBody rfl hFan hValue.symm hOpen).elim

/-- Pruning with an oracle that is sound keeps an execution safe, unless the path comes to
a block with the incref of a pruned pair whose decref stands in another block, where a
decref of the value is left. -/
theorem safe_prune (h : f.Linked) (hTags : f.tags.Nodup) (hSound : oracle.SoundFor f)
    (hv : v.isNull = false) {n : Int} {last : Label} {p : List Label}
    (hPath : f.FromEntry last p) (hSafe : Safe o.symbols v n (f.steps p))
    (hNone : ∀ i d e, (i, d) ∈ (f.pairing o oracle).pairs → i.value = v → d.block ≠ i.block →
      f.Survives o oracle e → e.value = v → e.block = i.block → i.block ∉ p) :
    Safe o.symbols v n ((f.prune o oracle).func.steps p) := by
  have hExecuted : ∀ front back, f.steps p = front ++ back → f.executed p =
      front.filterMap Step.instr? ++ back.filterMap Step.instr? := fun front back hSplit => by
    rw [← filterMap_steps, hSplit, List.filterMap_append]
  rw [prune_func hTags, steps_erase]
  apply hSafe.filter
  · intro front back hSplit
    rw [Step.net_eq, Step.net_eq, Step.filterMap_isKept]
    exact (exists_open h hTags hSound hv hPath (hExecuted front back hSplit)).1
  · intro front x back hSplit hKept hLess
    rw [Step.net_eq, Step.net_eq, Step.filterMap_isKept] at hLess
    obtain ⟨r, hr, hValue, hOpen⟩ :=
      (exists_open h hTags hSound hv hPath (hExecuted front _ hSplit)).2 hLess
    by_contra hDown
    cases x with
    | term t => exact hDown (Int.le_refl 0)
    | instr x =>
        have hClassify := Symbols.classify_of_effect_neg (Int.not_le.mp hDown)
        have hTag : x.tag ∉ (f.removedOps o oracle).map fun op => op.instr.tag := by
          simpa [Step.isKept] using hKept
        obtain ⟨i, d, e, hPair, hOf, hApart, hLeft, hSame, hBlock, hOn⟩ :=
          exposed_of_open h hTags hSound hv hPath hSplit hClassify hTag hr hValue hOpen
        exact hNone i d e hPair hOf hApart hLeft hSame hBlock hOn

/-- The dominance that optimising relies on. -/
def optimizeOracle (f : Func) (o : Options) : Oracle :=
  o.dominators.compute (f.normalize o).func

theorem optimize_func :
    (f.optimize o).func = ((f.normalize o).func.prune o (f.optimizeOracle o)).func :=
  rfl

/-- The pairs that optimising reports are those that it removes. -/
theorem prunedPair_mem_optimize {i d : RefOp} :
    .prunedPair i d ∈ (f.optimize o).events ↔
      (i, d) ∈ ((f.normalize o).func.pairing o (f.optimizeOracle o)).pairs := by
  have hEvents : (f.optimize o).events = (f.normalize o).events ++
      ((RefOps.ofFunc o.symbols (f.normalize o).func).null.map .droppedNull ++
        ((f.normalize o).func.pairing o (f.optimizeOracle o)).events ++
        ((f.normalize o).func.fans o (f.optimizeOracle o)).map fun x =>
          .prunedFanout x.1 x.2.length) := rfl
  rw [hEvents, ← (pairing_paired (f.normalize o).func o (f.optimizeOracle o)).events]
  simp [Func.normalize]

/-- A decref that is left stands in the optimised block, and is the only kind that does. -/
theorem survives_iff {g : Func} (h : g.Linked) (hTags : g.tags.Nodup) (hv : v.isNull = false)
    {l : Label} :
    (∃ e, g.Survives o oracle e ∧ e.value = v ∧ e.block = l) ↔
      ∃ i ∈ (g.prune o oracle).func.bodyAt l, o.symbols.classify i = some (.decref, v) := by
  have hBody : (g.prune o oracle).func.bodyAt l = (g.bodyAt l).filter fun i =>
      !((g.removedOps o oracle).map fun op => op.instr.tag).contains i.tag := by
    have hOne := executed_erase (f := g) ((g.removedOps o oracle).map fun op => op.instr.tag) [l]
    rw [← prune_func hTags] at hOne
    simpa [executed] using hOne
  constructor
  · rintro ⟨e, hSurvives, rfl, rfl⟩
    obtain ⟨hMem, hKind, _⟩ := RefOps.mem_decrefs.mp hSurvives.decref
    have hPlace := RefOp.bodyAt_position h hMem
    obtain ⟨_, _, _, _, hClassify⟩ := RefOp.mem_ofFunc.mp hMem
    refine ⟨e.instr, ?_, hKind ▸ hClassify⟩
    rw [hBody, List.mem_filter]
    refine ⟨List.mem_of_getElem? hPlace, ?_⟩
    simp only [Bool.not_eq_true', List.contains_eq_mem, decide_eq_false_iff_not]
    intro hTag
    obtain ⟨op, hOp, hEq⟩ := List.mem_map.mp hTag
    exact hSurvives.kept (RefOp.eq_of_tag hTags (removedOps_subset hOp) hMem hEq ▸ hOp)
  · rintro ⟨i, hi, hClassify⟩
    rw [hBody, List.mem_filter] at hi
    obtain ⟨hIn, hKept⟩ := hi
    obtain ⟨k, hPlace⟩ := List.mem_iff_getElem?.mp hIn
    refine ⟨_, survives_of_place h hv hPlace hClassify ?_, rfl, rfl⟩
    simpa using hKept

/-- A pair was pruned whose decref stands in another block, and a decref of the value is
left in the block of the incref. -/
def Exposes (f : Func) (o : Options) (v : Value) (incref decref : RefOp) : Prop :=
  .prunedPair incref decref ∈ (f.optimize o).events ∧ incref.value = v ∧
    decref.block ≠ incref.block ∧
    ∃ i ∈ (f.optimize o).func.bodyAt incref.block, o.symbols.classify i = some (.decref, v)

/-- In a block in normal form every incref stands before every decref. -/
theorem incref_before_decref (h : f.Linked) {i e : RefOp}
    (hi : i ∈ RefOp.ofFunc o.symbols (f.normalize o).func) (hIncref : i.kind = .incref)
    (he : e ∈ RefOp.ofFunc o.symbols (f.normalize o).func) (hDecref : e.kind = .decref)
    (hBlock : e.block = i.block) : i.position < e.position := by
  have hPlaceI := RefOp.bodyAt_position h.normalize hi
  have hPlaceE := RefOp.bodyAt_position h.normalize he
  rw [hBlock] at hPlaceE
  rw [bodyAt_normalize] at hPlaceI hPlaceE
  obtain ⟨front, back, hSplit, hFront, hBack⟩ :=
    Normalize.normalBody_split (s := o.symbols) (f.bodyAt i.block)
  rw [hSplit] at hPlaceI hPlaceE
  obtain ⟨_, _, _, _, hClassifyI⟩ := RefOp.mem_ofFunc.mp hi
  obtain ⟨_, _, _, _, hClassifyE⟩ := RefOp.mem_ofFunc.mp he
  have hLow : i.position < front.length := by
    by_contra hNot
    rw [List.getElem?_append_right (Nat.le_of_not_lt hNot)] at hPlaceI
    have hNo := hBack _ (List.mem_of_getElem? hPlaceI)
    simp [Symbols.isIncref, hClassifyI, hIncref] at hNo
  have hHigh : front.length ≤ e.position := by
    by_contra hNot
    rw [List.getElem?_append_left (Nat.lt_of_not_le hNot)] at hPlaceE
    have hNo := hFront _ (List.mem_of_getElem? hPlaceE)
    simp [Symbols.isDecref, hClassifyE, hDecref] at hNo
  omega

/-- If an execution is safe, it is safe after optimising, provided that the path comes to no
block where a decref is left behind the incref of a pair over two blocks. That can
only be where the block of the decref is listed before the block of the incref. -/
theorem optimize_keeps_safe (hParsed : f.IsParsed) (o : Options) (hv : v.isNull = false) :
    (∀ n last p, f.FromEntry last p → Safe o.symbols v n (f.steps p) →
      (∀ i d, f.Exposes o v i d → i.block ∉ p) →
        Safe o.symbols v n ((f.optimize o).func.steps p)) ∧
    ∀ i d, f.Exposes o v i d → f.labels.idxOf d.block < f.labels.idxOf i.block := by
  have h : f.Linked := hParsed.wellFormed.toLinked
  have hTags : (f.normalize o).func.tags.Nodup :=
    tags_normalize_perm.nodup_iff.mpr hParsed.tags_nodup
  have hBody := Normalize.bodyOnly_normalBlock o.symbols
  constructor
  · intro n last p hPath hSafe hNone
    have hSound : (f.optimizeOracle o).SoundFor (f.normalize o).func :=
      h.normalize.compute_sound o.dominators
    have hPathAfter : (f.normalize o).func.FromEntry last p := by
      rw [normalize_func, fromEntry_mapBlocks hBody]
      exact hPath
    rw [optimize_func]
    apply safe_prune h.normalize hTags hSound hv hPathAfter (safe_normalize hSafe)
    intro i d e hPair hValue hne hSurvives hEValue hBlock
    apply hNone i d
    exact ⟨prunedPair_mem_optimize.mpr hPair, hValue, hne,
      (survives_iff h.normalize hTags hv).mp ⟨e, hSurvives, hEValue, hBlock⟩⟩
  · rintro i d ⟨hEvent, hValue, hne, hLeft⟩
    have hPair := prunedPair_mem_optimize.mp hEvent
    obtain ⟨e, hSurvives, hEValue, hBlock⟩ := (survives_iff h.normalize hTags hv).mpr hLeft
    have hIncref := RefOps.mem_increfs.mp ((pairing_paired _ o (f.optimizeOracle o)).increfs_perm.subset
      (List.mem_append_left _ (List.mem_map_of_mem (f := Prod.fst) hPair)))
    have hDecref := RefOps.mem_decrefs.mp hSurvives.decref
    have hLess := incref_before_decref h hIncref.1 hIncref.2.1 hDecref.1 hDecref.2.1 hBlock
    have hListed := listed_first_of_pair h.normalize hPair hne hSurvives
      (hEValue.trans hValue.symm) hBlock hLess
    rwa [normalize_func, labels_mapBlocks hBody] at hListed

/-- An incref whose decref comes in the next block. -/
def heldOver : Func where
  name := "f"
  args := ["v"]
  blocks :=
    [⟨1, "entry", [⟨1, none, .call "NRT_incref", [.var "v"]⟩], [], .jump "c"⟩,
      ⟨2, "c", [⟨3, none, .op "use", [.var "v"]⟩, ⟨5, none, .call "NRT_decref", [.var "v"]⟩],
        ["entry"], .ret []⟩]

/-- The pair goes, and nothing is left behind its incref. -/
theorem optimize_keeps_safe_heldOver :
    heldOver.IsParsed ∧ (Value.var "v").isNull = false ∧
      heldOver.FromEntry "c" ["entry", "c"] ∧
      Safe ({} : Options).symbols (.var "v") 1 (heldOver.steps ["entry", "c"]) ∧
      (∀ i d, heldOver.Exposes {} (.var "v") i d → i.block ∉ ["entry", "c"]) ∧
      Safe ({} : Options).symbols (.var "v") 1 ((heldOver.optimize {}).func.steps ["entry", "c"]) := by
  have hRead : (Func.parse ("func @f(%v) \x7b\nentry:\ncall @NRT_incref(%v)\ngoto c\n" ++
      "c:\nuse %v\ncall @NRT_decref(%v)\nret\n\x7d\n")).toOption = some heldOver := by
    decide +kernel
  have hParsed : heldOver.IsParsed := isParsed_of_toOption hRead
  have hPath : heldOver.FromEntry "c" ["entry", "c"] :=
    ⟨"entry", rfl, .step (by decide) (.single _)⟩
  have hSafe : Safe ({} : Options).symbols (.var "v") 1 (heldOver.steps ["entry", "c"]) := by
    decide
  have hBlocks : ∀ l ∈ ["entry", "c"], ∀ i ∈ (heldOver.optimize {}).func.bodyAt l,
      ({} : Options).symbols.classify i = none := by
    have hEntry : (heldOver.optimize {}).func.bodyAt "entry" = [] := by decide +kernel
    have hLast : (heldOver.optimize {}).func.bodyAt "c" =
        [⟨3, none, .op "use", [.var "v"]⟩] := by decide +kernel
    simp [hEntry, hLast, Symbols.classify]
  have hNone : ∀ i d, heldOver.Exposes {} (.var "v") i d → i.block ∉ ["entry", "c"] := by
    rintro i d ⟨_, _, _, x, hx, hClassify⟩ hOn
    rw [hBlocks _ hOn x hx] at hClassify
    cases hClassify
  exact ⟨hParsed, rfl, hPath, hSafe, hNone,
    (optimize_keeps_safe hParsed {} rfl).1 _ _ _ hPath hSafe hNone⟩

/-- Block `c` is listed before block `a`, which leads to it. -/
def listedBackwards : Func where
  name := "f"
  args := ["v"]
  blocks :=
    [⟨1, "entry", [], [], .jump "a"⟩,
      ⟨2, "c", [⟨1, none, .op "use", [.var "v"]⟩, ⟨3, none, .call "NRT_decref", [.var "v"]⟩], ["a"],
        .ret []⟩,
      ⟨3, "a", [⟨5, none, .call "NRT_incref", [.var "v"]⟩,
        ⟨7, none, .call "NRT_decref", [.var "v"]⟩], ["entry"], .jump "c"⟩]

/-- The incref in `a` is paired with the decref in `c`, which is found first. The decref that
is left in `a` then releases the argument before `c` uses it. -/
theorem optimize_releases_early :
    listedBackwards.IsParsed ∧ "v" ∈ listedBackwards.args ∧
      listedBackwards.FromEntry "c" ["entry", "a", "c"] ∧
      Safe ({} : Options).symbols (.var "v") 1 (listedBackwards.steps ["entry", "a", "c"]) ∧
      ¬ Safe ({} : Options).symbols (.var "v") 1
        ((listedBackwards.optimize {}).func.steps ["entry", "a", "c"]) := by
  have hRead : (Func.parse ("func @f(%v) \x7b\nentry:\ngoto a\nc:\nuse %v\n" ++
      "call @NRT_decref(%v)\nret\na:\ncall @NRT_incref(%v)\ncall @NRT_decref(%v)\ngoto c\n" ++
      "\x7d\n")).toOption = some listedBackwards := by
    decide +kernel
  have hSteps : (listedBackwards.optimize {}).func.steps ["entry", "a", "c"] =
      [.term (.jump "a"), .instr ⟨7, none, .call "NRT_decref", [.var "v"]⟩, .term (.jump "c"),
        .instr ⟨1, none, .op "use", [.var "v"]⟩, .term (.ret [])] := by
    decide +kernel
  refine ⟨isParsed_of_toOption hRead, by decide, ?_, by decide, ?_⟩
  · exact ⟨"entry", rfl, .step (by decide) (.step (by decide) (.single _))⟩
  · rw [hSteps]
    decide

end RefElision.Func
