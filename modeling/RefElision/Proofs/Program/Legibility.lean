import RefElision.Proofs.Program.Transcripts

/-! What is read can be printed. A line that can be read names things by names only, and an
opcode in it is no word with another meaning; so all names in a function that was read are
names that can be read. -/
namespace RefElision

open Text

namespace Statement

variable {s : List Char}

theorem isIdent_of_readLabel {l : Label} (h : readLabel s = .ok l) : isIdent l.toList = true := by
  rw [readLabel] at h
  split at h
  case isTrue hIdent =>
    obtain rfl := Except.ok.inj h
    rwa [String.toList_ofList]
  case isFalse => cases h

theorem readable_of_readAtom {a : Atom} (h : readAtom s = .ok a) : a.Readable := by
  unfold readAtom at h
  split at h
  case isTrue =>
    obtain rfl := Except.ok.inj h
    exact trivial
  case isFalse =>
    split at h
    case h_1 =>
      split at h
      case isTrue hIdent =>
        obtain rfl := Except.ok.inj h
        show isIdent (String.ofList _).toList = true
        rwa [String.toList_ofList]
      case isFalse => cases h
    case h_2 =>
      split at h
      case h_1 =>
        obtain rfl := Except.ok.inj h
        exact trivial
      case h_2 => cases h

theorem readable_of_readAtoms {atoms : List Atom} (h : readAtoms s = .ok atoms) :
    ∀ a ∈ atoms, a.Readable :=
  Reader.forall_mem_of_mapM (fun _ _ => readable_of_readAtom) h

theorem readable_of_readBranch {t : Terminator Atom} (h : readBranch s = .ok t) : t.Readable := by
  rw [readBranch] at h
  split at h
  case h_1 =>
    obtain ⟨condition, hCondition, h⟩ := exists_of_bind h
    obtain ⟨yes, hYes, h⟩ := exists_of_bind h
    obtain ⟨no, hNo, h⟩ := exists_of_bind h
    obtain rfl := Except.ok.inj h
    refine Terminator.readable_switch.mpr
      ⟨readable_of_readAtom hCondition, ?_, isIdent_of_readLabel hNo⟩
    have hEntries : (CaseTable.singleton 1 yes).entries = [(1, yes)] := rfl
    rw [hEntries, List.forall_mem_singleton]
    exact isIdent_of_readLabel hYes
  case h_2 => cases h

/-- Each case that is added has a label that was read. -/
theorem isIdent_of_readCases {items : List (List Char)} {table whole : CaseTable}
    (hTable : ∀ e ∈ table.entries, isIdent e.2.toList = true)
    (h : readCases table items = .ok whole) : ∀ e ∈ whole.entries, isIdent e.2.toList = true := by
  induction items generalizing table with
  | nil =>
      obtain rfl := Except.ok.inj h
      exact hTable
  | cons item rest ih =>
      rw [readCases] at h
      split at h
      case h_2 => cases h
      case h_1 =>
        split at h
        case h_1 => cases h
        case h_2 value _ =>
          split at h
          case isTrue => cases h
          case isFalse =>
            split at h
            case h_1 => cases h
            case h_2 target hTarget =>
              apply ih _ h
              intro e he
              rcases CaseTable.mem_insertEntry he with rfl | hOld
              · exact isIdent_of_readLabel hTarget
              · exact hTable e hOld

theorem readable_of_readSwitch {t : Terminator Atom} (h : readSwitch s = .ok t) : t.Readable := by
  rw [readSwitch] at h
  split at h
  case h_1 => cases h
  case h_2 =>
    split at h
    case h_2 => cases h
    case h_1 =>
      obtain ⟨scrutinee, hScrutinee, h⟩ := exists_of_bind h
      obtain ⟨otherwise, hOtherwise, h⟩ := exists_of_bind h
      obtain ⟨cases, hCases, h⟩ := exists_of_bind h
      obtain rfl := Except.ok.inj h
      have hEmpty : ∀ e ∈ CaseTable.empty.entries, isIdent e.2.toList = true := by
        simp [CaseTable.empty]
      exact Terminator.readable_switch.mpr ⟨readable_of_readAtom hScrutinee,
        isIdent_of_readCases hEmpty hCases, isIdent_of_readLabel hOtherwise⟩

/-- The words that start a terminator. -/
theorem readable_of_readTerminator? {word : String} {outcome : Except Reason (Terminator Atom)}
    {t : Terminator Atom} (h : readTerminator? word s = some outcome) (ht : outcome = .ok t) :
    t.Readable := by
  unfold readTerminator? at h
  split at h
  case h_1 =>
    obtain rfl := Option.some.inj h
    obtain ⟨target, hTarget, rfl⟩ := exists_of_map ht
    exact Terminator.readable_jump.mpr (isIdent_of_readLabel hTarget)
  case h_2 => exact readable_of_readBranch ((Option.some.inj h).trans ht)
  case h_3 => exact readable_of_readSwitch ((Option.some.inj h).trans ht)
  case h_4 =>
    obtain rfl := Option.some.inj h
    obtain ⟨values, hValues, rfl⟩ := exists_of_map ht
    exact Terminator.readable_ret.mpr (readable_of_readAtoms hValues)
  case h_5 => cases h

theorem not_keyword {word : String} (h : readTerminator? word s = none) (hCall : word ≠ "call") :
    word ∉ keywords := by
  intro hMem
  simp only [keywords, List.mem_cons, List.not_mem_nil, or_false] at hMem
  rcases hMem with rfl | rfl | rfl | rfl | rfl
  · cases h
  · cases h
  · cases h
  · cases h
  · exact hCall rfl

theorem readable_of_readCall {result : Option String}
    (hResult : ∀ x, result = some x → isIdent x.toList = true) {o : Operation Atom}
    (h : readCall result s = .ok o) : o.Readable := by
  rw [readCall] at h
  split at h
  case h_1 => cases h
  case h_2 =>
    split at h
    case isFalse => cases h
    case isTrue hCallee =>
      obtain ⟨args, hArgs, h⟩ := exists_of_bind h
      obtain rfl := Except.ok.inj h
      refine ⟨hResult, ?_, readable_of_readAtoms hArgs⟩
      show isIdent (String.ofList _).toList = true
      rwa [String.toList_ofList]

theorem readable_of_readOp {result : Option String} {opcode : List Char}
    (hResult : ∀ x, result = some x → isIdent x.toList = true)
    (hKeyword : String.ofList opcode ∉ keywords) {o : Operation Atom}
    (h : readOp result opcode s = .ok o) : o.Readable := by
  rw [readOp] at h
  split at h
  case isFalse => cases h
  case isTrue hOpcode =>
    obtain ⟨args, hArgs, h⟩ := exists_of_bind h
    obtain rfl := Except.ok.inj h
    refine ⟨hResult, ⟨?_, hKeyword⟩, readable_of_readAtoms hArgs⟩
    rwa [String.toList_ofList]

theorem readable_of_readAction {result : Option String}
    (hResult : ∀ x, result = some x → isIdent x.toList = true) {st : Statement}
    (h : readAction result s = .ok st) : st.Readable := by
  rw [readAction] at h
  split at h
  split at h
  case h_1 hWord =>
    split at h
    case isTrue => cases h
    case isFalse =>
      obtain ⟨t, ht, rfl⟩ := exists_of_map h
      exact readable_of_readTerminator? hWord ht
  case h_2 hWord =>
    split at h
    case isTrue =>
      obtain ⟨o, ho, rfl⟩ := exists_of_map h
      exact readable_of_readCall hResult ho
    case isFalse hCall =>
      obtain ⟨o, ho, rfl⟩ := exists_of_map h
      exact readable_of_readOp hResult (not_keyword hWord hCall) ho

/-- Whatever a line reads as can be printed. -/
theorem readable_of_read {st : Statement} (h : read s = .ok st) : st.Readable := by
  unfold read at h
  split at h
  case isTrue =>
    obtain ⟨l, hl, rfl⟩ := exists_of_map h
    exact isIdent_of_readLabel hl
  case isFalse =>
    split at h
    case h_1 =>
      split at h
      case h_1 => cases h
      case h_2 =>
        split at h
        case isFalse => cases h
        case isTrue hIdent =>
          apply readable_of_readAction _ h
          intro x hx
          rwa [← Option.some.inj hx, String.toList_ofList]
    case h_2 => exact readable_of_readAction (by simp) h

end Statement

section Names

variable {f : Func}

theorem forall_readable_atoms {values : List Value} :
    (∀ a ∈ values.map Value.atom, a.Readable) ↔
      ∀ x ∈ values.filterMap Value.variable?, isIdent x.toList = true := by
  simp only [List.forall_mem_map, List.mem_filterMap]
  constructor
  · rintro h x ⟨v, hv, hx⟩
    cases v with
    | var name =>
        obtain rfl := Option.some.inj hx
        exact h _ hv
    | null => cases hx
    | int => cases hx
  · intro h v hv
    cases v with
    | var name => exact h name ⟨_, hv, rfl⟩
    | null => exact trivial
    | int => exact trivial

/-- Which instructions can be printed. -/
theorem Instr.readable_written {i : Instr} :
    i.written.Readable ↔ (∀ x ∈ i.names, isIdent x.toList = true) ∧
      ∀ x, i.operation.action.opcode? = some x → x ∉ keywords := by
  obtain ⟨tag, result, action, args⟩ := i
  have hResult : (∀ x ∈ result.toList, isIdent x.toList = true) ↔
      ∀ x, result = some x → isIdent x.toList = true := by
    simp [Option.mem_toList]
  have hAction : action.Readable ↔ isIdent action.name.toList = true ∧
      ∀ x, action.opcode? = some x → x ∉ keywords := by
    cases action <;> simp [Action.Readable, Action.name, Action.opcode?]
  have hNames : (∀ x ∈ Instr.names ⟨tag, result, action, args⟩, isIdent x.toList = true) ↔
      (∀ x, result = some x → isIdent x.toList = true) ∧ isIdent action.name.toList = true ∧
        ∀ a ∈ args.map Value.atom, a.Readable := by
    rw [forall_readable_atoms, ← hResult]
    show (∀ x ∈ result.toList ++ action.name :: args.filterMap Value.variable?,
      isIdent x.toList = true) ↔ _
    rw [List.forall_mem_append, List.forall_mem_cons]
  rw [hNames]
  constructor
  · exact fun h => ⟨⟨h.result, (hAction.mp h.action).1, h.args⟩, (hAction.mp h.action).2⟩
  · rintro ⟨⟨hResultName, hActionName, hArgs⟩, hKeyword⟩
    exact ⟨hResultName, hAction.mpr ⟨hActionName, hKeyword⟩, hArgs⟩

theorem Block.readable_ending {b : Block} :
    b.ending.Readable ↔ (∀ x ∈ b.term.uses.filterMap Value.variable?, isIdent x.toList = true) ∧
      ∀ l ∈ b.successors, isIdent l.toList = true := by
  have hUses : b.ending.uses = b.term.uses.map Value.atom := Terminator.uses_map _ _
  have hTargets : b.ending.successors = b.successors := Terminator.successors_map _ _
  rw [← forall_readable_atoms, ← hUses, ← hTargets]
  exact ⟨fun h => ⟨h.uses, h.targets⟩, fun h => ⟨h.1, h.2⟩⟩

theorem Block.forall_statements {b : Block} :
    (∀ st ∈ b.statements, st.Readable) ↔
      isIdent b.label.toList = true ∧ (∀ i ∈ b.body, i.written.Readable) ∧ b.ending.Readable := by
  rw [Block.statements, List.forall_mem_append, List.forall_mem_cons, List.forall_mem_map,
    List.forall_mem_singleton, and_assoc]
  rfl

/-- Which blocks can be printed. -/
theorem Block.readable_iff {b : Block} :
    (∀ st ∈ b.statements, st.Readable) ↔
      (∀ x ∈ b.names, isIdent x.toList = true) ∧
        (∀ x ∈ b.body.filterMap fun i => i.operation.action.opcode?, x ∉ keywords) ∧
        ∀ l ∈ b.successors, isIdent l.toList = true := by
  rw [Block.forall_statements, Block.readable_ending, Block.names, List.forall_mem_append,
    List.forall_mem_cons]
  simp only [Instr.readable_written, List.mem_flatMap, List.mem_filterMap]
  constructor
  · rintro ⟨hLabel, hBody, hUses, hTargets⟩
    refine ⟨⟨⟨hLabel, ?_⟩, hUses⟩, ?_, hTargets⟩
    · rintro x ⟨i, hi, hx⟩
      exact (hBody i hi).1 x hx
    · rintro x ⟨i, hi, hx⟩
      exact (hBody i hi).2 x hx
  · rintro ⟨⟨⟨hLabel, hNames⟩, hUses⟩, hOpcodes, hTargets⟩
    refine ⟨hLabel, fun i hi => ⟨fun x hx => ?_, fun x hx => ?_⟩, hUses, hTargets⟩
    · exact hNames x ⟨i, hi, hx⟩
    · exact hOpcodes x ⟨i, hi, hx⟩

namespace Func

/-- The lines of a function can be printed if its names can be. The targets of its edges
are labels. -/
theorem WellNamed.readable (h : f.WellNamed) (hLinked : f.Linked) :
    ∀ st ∈ f.statements, st.Readable := by
  rw [statements, List.forall_mem_flatMap]
  intro b hb
  rw [Block.readable_iff]
  have hNames : ∀ c ∈ f.blocks, ∀ x ∈ c.names, isIdent x.toList = true := fun c hc x hx =>
    h.idents x (List.mem_append_right _ (List.mem_flatMap.mpr ⟨c, hc, hx⟩))
  refine ⟨hNames b hb, fun x hx => h.opcodes x (List.mem_flatMap.mpr ⟨b, hb, hx⟩), ?_⟩
  intro l hl
  obtain ⟨c, hc, rfl⟩ := List.mem_map.mp (hLinked.targets b hb l hl)
  exact hNames c hc c.label List.mem_cons_self

theorem wellNamed_of_readable (hNames : ∀ x ∈ f.name :: f.args, isIdent x.toList = true)
    (h : ∀ st ∈ f.statements, st.Readable) : f.WellNamed := by
  rw [statements, List.forall_mem_flatMap] at h
  constructor
  case idents =>
    rw [names, List.forall_mem_append]
    refine ⟨hNames, ?_⟩
    rw [List.forall_mem_flatMap]
    exact fun b hb => (Block.readable_iff.mp (h b hb)).1
  case opcodes =>
    rw [Func.opcodes, List.forall_mem_flatMap]
    exact fun b hb => (Block.readable_iff.mp (h b hb)).2.1

end Func

end Names

namespace Builder

/-- All that has been built so far can be printed. -/
structure Legible (b : Builder) : Prop where
  names : ∀ x ∈ b.name :: b.args, isIdent x.toList = true
  finished : ∀ c ∈ b.finished, ∀ st ∈ c.statements, st.Readable
  label : ∀ block, b.current = some block → isIdent block.label.toList = true
  body : ∀ block, b.current = some block → ∀ i ∈ block.body, i.written.Readable

namespace Legible

variable {b : Builder}

/-- The open block may be ended by what can be printed. -/
theorem forall_close (h : b.Legible) {block : OpenBlock} (hCurrent : b.current = some block)
    {t : Terminator Value} (ht : (t.map Value.atom).Readable) :
    ∀ c ∈ b.finished ++ [block.close t], ∀ st ∈ c.statements, st.Readable := by
  rw [List.forall_mem_append, List.forall_mem_singleton]
  exact ⟨h.finished, Block.forall_statements.mpr ⟨h.label block hCurrent, h.body block hCurrent, ht⟩⟩

theorem placeLabel (h : b.Legible) {l : Label} (hl : isIdent l.toList = true) :
    (b.label l).Legible := by
  rw [Builder.label]
  split
  case isTrue => exact ⟨h.names, h.finished, h.label, h.body⟩
  case isFalse =>
    constructor
    case names => exact h.names
    case finished =>
      cases hCurrent : b.current with
      | none => simpa using h.finished
      | some block => exact h.forall_close hCurrent (Terminator.readable_jump.mpr hl)
    case label =>
      intro block hBlock
      rwa [← Option.some.inj hBlock]
    case body =>
      intro block hBlock
      rw [← Option.some.inj hBlock]
      simp

theorem emitShown (h : b.Legible) (shown : Operation Value) {i : Instr} (hi : i.written.Readable) :
    (b.emitShown shown i).Legible := by
  rw [Builder.emitShown]
  split
  case h_1 => exact ⟨h.names, h.finished, h.label, h.body⟩
  case h_2 block hCurrent =>
    refine ⟨h.names, h.finished, ?_, ?_⟩
    · intro next hNext
      obtain rfl := Option.some.inj hNext
      exact h.label block hCurrent
    · intro next hNext
      obtain rfl := Option.some.inj hNext
      rw [List.forall_mem_append, List.forall_mem_singleton]
      exact ⟨h.body block hCurrent, hi⟩

theorem terminate (h : b.Legible) {t : Terminator Value} (ht : (t.map Value.atom).Readable) :
    (b.terminate t).Legible := by
  rw [Builder.terminate]
  split
  case h_1 => exact ⟨h.names, h.finished, h.label, h.body⟩
  case h_2 block hCurrent =>
    exact ⟨h.names, h.forall_close hCurrent ht, by simp, by simp⟩

theorem statement (h : b.Legible) {st : Statement} (hst : st.Readable) :
    (b.statement st).Legible := by
  cases st with
  | label l => exact h.placeLabel hst
  | operation o =>
      have hReserved : ((b.reserve o.args.length).reserve 1).Legible :=
        ⟨h.names, h.finished, h.label, h.body⟩
      apply hReserved.emitShown
      show ((o.tagged b.nextTag).map Value.atom).Readable
      rwa [Operation.map_atom_tagged]
  | terminator t =>
      have hReserved : (b.reserve t.uses.length).Legible := ⟨h.names, h.finished, h.label, h.body⟩
      apply hReserved.terminate
      rwa [Terminator.map_atom_tagged]

end Legible

end Builder

/-- The names in a function that was read are names that can be read. -/
theorem Func.IsParsed.wellNamed {f : Func} (h : f.IsParsed) : f.WellNamed := by
  obtain ⟨source, hParse⟩ := h
  obtain ⟨name, args, statements, hNames, hRead, hBuild⟩ := Func.exists_statements_of_parse hParse
  have hLegible : Builder.Legible (statements.foldl Builder.statement (.empty name args)) := by
    apply Builder.foldl_statement
    · intro b st hst hb
      obtain ⟨s, hs⟩ := hRead st hst
      exact hb.statement (Statement.readable_of_read hs)
    · exact ⟨List.forall_mem_cons.mpr hNames, by simp [Builder.empty], by simp [Builder.empty],
        by simp [Builder.empty]⟩
  obtain ⟨_, rfl⟩ := Builder.build_ok hBuild
  apply Func.wellNamed_of_readable hLegible.names
  rw [Func.statements, Func.rebuild, List.flatMap_map, List.forall_mem_flatMap]
  exact hLegible.finished

end RefElision
