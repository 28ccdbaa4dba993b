import RefElision.Proofs.Program.Histories

/-! When a function can be finished. The checks on the way and those at the end are told from
the steps: there is a function exactly if there is nothing wrong with them, and its blocks
are those of the labels. -/
namespace RefElision.Builder

/-- Steps that have nothing wrong with them, if the arguments are given. -/
structure Complete (args : List String) (steps : List Step) : Prop where
  labels_nodup : (steps.filterMap Step.label?).Nodup
  inside : ∀ before s after, steps = before ++ s :: after → s.isInner = true → InBlock before
  no_terminator_emitted : ∀ t, .emitTerminator t ∉ steps
  targets_placed : ∀ t, .terminate t ∈ steps → ∀ l ∈ t.successors, .label l ∈ steps
  nonempty : ∃ l, .label l ∈ steps
  terminated : ∀ before l after, steps = before ++ .label l :: after →
    (∀ k, .label k ∉ after) → ∃ t, .terminate t ∈ after
  defined : ∀ s ∈ steps, ∀ x, .var x ∈ s.operands → x ∈ args ∨ ∃ r ∈ steps, x ∈ r.results

/-- A label that no other one follows. -/
theorem exists_last_label {steps : List Step} {l : Label} (h : .label l ∈ steps) :
    ∃ before k after, steps = before ++ .label k :: after ∧ ∀ m, .label m ∉ after := by
  induction steps using List.reverseRecOn with
  | nil => simp at h
  | append_singleton steps s ih =>
      by_cases hLast : ∃ k, s = .label k
      · obtain ⟨k, rfl⟩ := hLast
        exact ⟨steps, k, [], rfl, by simp⟩
      · have hFront : .label l ∈ steps := by
          rcases List.mem_append.mp h with hFront | hNew
          · exact hFront
          · exact (hLast ⟨l, (List.mem_singleton.mp hNew).symm⟩).elim
        obtain ⟨before, k, after, rfl, hNone⟩ := ih hFront
        refine ⟨before, k, after ++ [s], by simp, fun m hMem => ?_⟩
        rcases List.mem_append.mp hMem with hOld | hNew
        · exact hNone m hOld
        · exact hLast ⟨m, (List.mem_singleton.mp hNew).symm⟩

/-- No block is open exactly if a terminator follows the last label. -/
theorem not_inBlock_iff {steps : List Step} : ¬ InBlock steps ↔
    ∀ before l after, steps = before ++ .label l :: after →
      (∀ k, .label k ∉ after) → ∃ t, .terminate t ∈ after := by
  constructor
  · intro hClosed before l after hSplit _
    by_contra hNone
    exact hClosed ⟨before, l, after, hSplit, fun t ht => hNone ⟨t, ht⟩⟩
  · rintro hAll ⟨before, l, after, rfl, hNone⟩
    have hFirst : .label l ∈ Step.label l :: after := List.mem_cons_self
    obtain ⟨front, k, back, hSplit, hLast⟩ := exists_last_label hFirst
    obtain ⟨t, ht⟩ := hAll (before ++ front) k back (by rw [hSplit, List.append_assoc]) hLast
    have hMem : .terminate t ∈ Step.label l :: after := by
      rw [hSplit]
      exact List.mem_append_right _ (List.mem_cons_of_mem _ ht)
    exact hNone t (by simpa using hMem)

/-- Labels do not repeat exactly if each of them is new where it is placed. -/
theorem labels_nodup_iff {steps : List Step} : (steps.filterMap Step.label?).Nodup ↔
    ∀ before l after, steps = before ++ .label l :: after → .label l ∉ before := by
  constructor
  · rintro hNodup before l after rfl hMem
    rw [List.filterMap_append, List.nodup_append] at hNodup
    exact hNodup.2.2 l (mem_labels_iff.mpr hMem) l (mem_labels_iff.mpr List.mem_cons_self) rfl
  · intro hNew
    induction steps using List.reverseRecOn with
    | nil => exact List.nodup_nil
    | append_singleton steps s ih =>
        have hFront := ih fun before l after hSplit =>
          hNew before l (after ++ [s]) (by rw [hSplit]; simp)
        cases hLabel : s.label? with
        | none => simpa [hLabel] using hFront
        | some l =>
            obtain rfl := label?_eq_some.mp hLabel
            rw [List.filterMap_append]
            refine List.nodup_append.mpr ⟨hFront, List.nodup_singleton l, ?_⟩
            rintro x hx y hy rfl
            obtain rfl := List.mem_singleton.mp hy
            exact hNew steps x [] rfl (mem_labels_iff.mp hx)

theorem allowed_iff {steps : List Step} :
    (∀ before s after, steps = before ++ s :: after → Allowed before s) ↔
      (steps.filterMap Step.label?).Nodup ∧
      (∀ before s after, steps = before ++ s :: after → s.isInner = true → InBlock before) ∧
      ∀ t, .emitTerminator t ∉ steps := by
  rw [labels_nodup_iff]
  constructor
  · intro hAll
    refine ⟨fun before l after hSplit => (hAll before _ after hSplit).label_new l rfl,
      fun before s after hSplit => (hAll before s after hSplit).inside, fun t hMem => ?_⟩
    obtain ⟨before, after, hSplit⟩ := List.append_of_mem hMem
    exact (hAll before _ after hSplit).not_emitted t rfl
  · rintro ⟨hNew, hInside, hNone⟩ before s after hSplit
    refine ⟨fun l hl => ?_, hInside before s after hSplit, fun t ht => ?_⟩
    · exact hNew before l after (hl ▸ hSplit)
    · exact hNone t (by rw [hSplit, ht]; simp)

/-- A variable is used or assigned in the finished blocks if some step does so. -/
theorem Reflects.defined_iff {steps : List Step} {b : Builder} (h : Reflects steps b)
    (hClosed : b.current = none) : (∀ x ∈ b.used, x ∈ b.defined) ↔
      ∀ s ∈ steps, ∀ x, .var x ∈ s.operands → x ∈ b.args ∨ ∃ r ∈ steps, x ∈ r.results := by
  have hUsed : ∀ x, x ∈ b.used ↔ .var x ∈ b.operands := by
    intro x
    have hFilter : b.used = b.operands.filterMap Value.variable? := by
      simp [used, operands, hClosed, List.filterMap_flatMap]
    rw [hFilter, List.mem_filterMap]
    simp only [exists_eq_right, Value.variable?_eq_some]
  have hDefined : ∀ x, x ∈ b.defined ↔ x ∈ b.args ∨ x ∈ b.results := by
    intro x
    simp [defined, results, hClosed]
  simp only [hUsed, hDefined, h.operands_eq, h.results_eq, List.mem_flatMap]
  constructor
  · exact fun hAll s hs x hx => hAll x ⟨s, hs, hx⟩
  · rintro hAll x ⟨s, hs, hx⟩
    exact hAll s hs x hx

/-- The checks that are made when a function is finished, told from the steps. -/
theorem Reflects.checks_iff {steps : List Step} {b : Builder} (h : Reflects steps b) :
    ((∀ l ∈ b.targets, l ∈ b.placedLabels) ∧ b.current = none ∧ b.finished ≠ [] ∧
      ∀ x ∈ b.used, x ∈ b.defined) ↔
    (∀ t, .terminate t ∈ steps → ∀ l ∈ t.successors, .label l ∈ steps) ∧ ¬ InBlock steps ∧
      (∃ l, .label l ∈ steps) ∧
      ∀ s ∈ steps, ∀ x, .var x ∈ s.operands → x ∈ b.args ∨ ∃ r ∈ steps, x ∈ r.results := by
  have hTargets : (∀ l ∈ b.targets, l ∈ b.placedLabels) ↔
      ∀ t, .terminate t ∈ steps → ∀ l ∈ t.successors, .label l ∈ steps := by
    simp only [h.named, h.placed, mem_labels_iff, List.mem_flatMap]
    constructor
    · exact fun hAll t ht l hl => hAll l ⟨_, ht, hl⟩
    · rintro hAll l ⟨s, hs, hl⟩
      cases s with
      | terminate t => exact hAll t hs l hl
      | _ => cases hl
  have hClosed : b.current = none ↔ ¬ InBlock steps := by rw [← h.is_open, not_not]
  rw [hTargets, hClosed]
  refine and_congr_right fun _ => and_congr_right fun hNot => ?_
  have hNone : b.current = none := hClosed.mpr hNot
  rw [h.defined_iff hNone]
  refine and_congr_left fun _ => ?_
  have hLabels : b.finished.map Block.label = steps.filterMap Step.label? := by
    rw [← h.placed, placedLabels, hNone]
    exact (List.append_nil _).symm
  constructor
  · intro hSome
    obtain ⟨l, hl⟩ := List.exists_mem_of_ne_nil _ (hLabels ▸ List.map_eq_nil_iff.not.mpr hSome)
    exact ⟨l, mem_labels_iff.mp hl⟩
  · rintro ⟨l, hl⟩ hNil
    have hMem := mem_labels_iff.mpr hl
    rw [← hLabels, hNil] at hMem
    exact List.not_mem_nil hMem

/-- Finishing succeeds exactly if nothing is wrong with the steps. -/
theorem finalError_run (name : String) (args : List String) {steps : List Step}
    (hOnce : .build ∉ steps) :
    ((empty name args).run steps).finalError = none ↔ Complete args steps := by
  obtain ⟨hIff, hReflects⟩ := reflects_run name args hOnce
  have hArgs : ((empty name args).run steps).args = args := (header_run _ steps).2
  rw [finalError_eq_none]
  generalize (empty name args).run steps = b at hIff hReflects hArgs ⊢
  rw [allowed_iff] at hIff
  constructor
  · rintro ⟨hError, hChecks⟩
    obtain ⟨hLabels, hInside, hEmitted⟩ := hIff.mp hError
    obtain ⟨hTargets, hClosed, hSome, hDefined⟩ := (hReflects hError).checks_iff.mp hChecks
    exact ⟨hLabels, hInside, hEmitted, hTargets, hSome, not_inBlock_iff.mp hClosed,
      hArgs ▸ hDefined⟩
  · intro h
    have hError := hIff.mpr ⟨h.labels_nodup, h.inside, h.no_terminator_emitted⟩
    refine ⟨hError, (hReflects hError).checks_iff.mpr ?_⟩
    exact ⟨h.targets_placed, not_inBlock_iff.mpr h.terminated, h.nonempty, hArgs.symm ▸ h.defined⟩

/-- A function is finished exactly if no label is placed twice, instructions and terminators
stand in open blocks, no terminator is emitted, targets are placed, there is a label, a
terminator follows the last one, and the variables used are arguments or results. Its
blocks are those of the labels in their order. A block holds what was appended while it
was open, and it ends with its terminator or falls through to the label that came first. -/
theorem build_succeeds_iff (name : String) (args : List String) {steps : List Step}
    (hOnce : .build ∉ steps) :
    ((∃ f, ((empty name args).run steps).build.2 = .ok f) ↔ Complete args steps) ∧
    ∀ f, ((empty name args).run steps).build.2 = .ok f →
      f.name = name ∧ f.args = args ∧ f.labels = steps.filterMap Step.label? ∧
      ∀ before l after, steps = before ++ .label l :: after →
        ∃ block ∈ f.blocks, block.label = l ∧
          block.body = instrs (before.countP Step.makes) (opened after) ∧
          after.findSome? Step.ending? = some block.term := by
  constructor
  · rw [← finalError_run name args hOnce]
    constructor
    · rintro ⟨f, hBuild⟩
      exact (build_ok hBuild).1
    · intro hNone
      rw [build, hNone]
      exact ⟨_, rfl⟩
  · intro f hBuild
    obtain ⟨hName, hArgs, hLabels⟩ := labels_of_run hBuild
    refine ⟨hName, hArgs, hLabels, fun before l after hSplit => ?_⟩
    obtain ⟨hNone, rfl⟩ := build_ok hBuild
    obtain ⟨hError, _, hCurrent, _⟩ := finalError_eq_none.mp hNone
    have hReflects := (reflects_run name args hOnce).2 hError
    cases hEnding : after.findSome? Step.ending? with
    | none =>
        obtain ⟨block, hOpen, _⟩ := hReflects.open_block before l after hSplit hEnding
        rw [hCurrent] at hOpen
        cases hOpen
    | some t =>
        obtain ⟨block, hMem, hLabel, hTerm, hBody⟩ :=
          hReflects.closed_block before l after t hSplit hEnding
        exact ⟨_, List.mem_map_of_mem hMem, hLabel, hBody, by rw [hTerm]⟩

/-- Block `a` falls through to `b`, which names `c` before that is placed. The instruction
in `a` is emitted once more in `c`. -/
def fallingThrough : List Step :=
  [.label "a", .emit ⟨7, ⟨some "y", .op "copy", [.var "x"]⟩⟩, .label "b",
    .perform ⟨none, .call "g", [.var "z"]⟩, .terminate (.branch (.var "y") "c" "a"),
    .label "c", .emit ⟨7, ⟨some "y", .op "copy", [.var "x"]⟩⟩,
    .performThenName ⟨some "z", .call "h", []⟩, .terminate (.ret [.var "z"])]

/-- The first instruction made gets tag zero and stands in `b`, the second one and the one
emitted stand in `c`. -/
theorem build_succeeds_iff_fallingThrough :
    .build ∉ fallingThrough ∧ Complete ["x"] fallingThrough ∧
      ∃ f, ((empty "f" ["x"]).run fallingThrough).build.2 = .ok f ∧
        (∃ block ∈ f.blocks, block.label = "a" ∧ block.term = .jump "b") ∧
        ∃ block ∈ f.blocks, block.label = "c" ∧ block.body.map Instr.tag = [7, 1] := by
  have hOnce : .build ∉ fallingThrough := by decide
  have hBuilt : ∃ f, ((empty "f" ["x"]).run fallingThrough).build.2 = .ok f := by
    have hSome : ((empty "f" ["x"]).run fallingThrough).build.2.toOption.isSome = true := by
      decide +kernel
    cases hBuild : ((empty "f" ["x"]).run fallingThrough).build.2 with
    | error e => rw [hBuild] at hSome; cases hSome
    | ok f => exact ⟨f, rfl⟩
  obtain ⟨hIff, hBlocks⟩ := build_succeeds_iff "f" ["x"] hOnce
  refine ⟨hOnce, hIff.mp hBuilt, ?_⟩
  obtain ⟨f, hBuild⟩ := hBuilt
  obtain ⟨_, _, _, hContent⟩ := hBlocks f hBuild
  refine ⟨f, hBuild, ?_, ?_⟩
  · obtain ⟨block, hMem, hLabel, _, hTerm⟩ := hContent [] "a" (fallingThrough.drop 1) rfl
    exact ⟨block, hMem, hLabel, (Option.some.inj hTerm).symm⟩
  · obtain ⟨block, hMem, hLabel, hBody, _⟩ :=
      hContent (fallingThrough.take 5) "c" (fallingThrough.drop 6) rfl
    exact ⟨block, hMem, hLabel, by rw [hBody]; rfl⟩

end RefElision.Builder
