import Mathlib.Data.List.Flatten
import RefElision.Program.Reader
import RefElision.Proofs.Program.Building

/-! Functions that are read from text. A text that can be read is a header and some
statements, which a builder carries out in turn; each instruction that it makes has a
tag of its own. -/
namespace RefElision

/-- The function is what some text reads as. -/
def Func.IsParsed (f : Func) : Prop :=
  ∃ source, Func.parse source = .ok f

/-- A reading that goes well has gone well so far. -/
theorem exists_of_bind {ε α β : Type} {x : Except ε α} {next : α → Except ε β} {y : β}
    (h : x >>= next = .ok y) : ∃ a, x = .ok a ∧ next a = .ok y := by
  cases x with
  | error e => cases h
  | ok a => exact ⟨a, rfl, h⟩

theorem exists_of_map {ε α β : Type} {x : Except ε α} {f : α → β} {y : β}
    (h : x.map f = .ok y) : ∃ a, x = .ok a ∧ f a = y := by
  cases x with
  | error e => cases h
  | ok a => exact ⟨a, rfl, Except.ok.inj h⟩

namespace Reader

/-- One line is skipped or read. -/
theorem readLines_cons {r r' : Reader} {number : Nat} {line : List Char}
    {rest : List (List Char)} (h : readLines r number (line :: rest) = .ok r') :
    (Text.stripComment line = [] ∧ readLines r (number + 1) rest = .ok r') ∨
      ∃ next, readLine r (Text.stripComment line) = .ok next ∧
        readLines next (number + 1) rest = .ok r' := by
  rw [readLines] at h
  split at h
  case h_1 hBlank => exact .inl ⟨hBlank, h⟩
  case h_2 =>
    split at h
    case h_1 => cases h
    case h_2 next hLine => exact .inr ⟨next, hLine, h⟩

theorem readLines_done {f : Func} {number : Nat} {lines : List (List Char)} {r : Reader}
    (h : readLines (.done f) number lines = .ok r) : r = .done f := by
  induction lines generalizing number with
  | nil => exact (Except.ok.inj h).symm
  | cons line rest ih =>
      rcases readLines_cons h with ⟨_, hRest⟩ | ⟨_, hLine, _⟩
      · exact ih hRest
      · cases hLine

/-- A line of a body ends it or is a statement. -/
theorem readLine_inBody {b : Builder} {s : List Char} {r : Reader}
    (h : readLine (.inBody b) s = .ok r) :
    (∃ f, b.build.2 = .ok f ∧ r = .done f) ∨
      ∃ st, Statement.read s = .ok st ∧ r = .inBody (b.statement st) := by
  rw [readLine] at h
  split at h
  case isTrue =>
    split at h
    case h_1 f hBuild => exact .inl ⟨f, hBuild, (Except.ok.inj h).symm⟩
    case h_2 => cases h
  case isFalse =>
    rw [readBodyLine] at h
    split at h
    case h_1 => cases h
    case h_2 st hRead =>
      split at h
      case h_1 => cases h
      case h_2 => exact .inr ⟨st, hRead, (Except.ok.inj h).symm⟩

/-- The lines of a body up to the closing brace are statements. -/
theorem readLines_inBody {b : Builder} {number : Nat} {lines : List (List Char)} {f : Func}
    (h : readLines (.inBody b) number lines = .ok (.done f)) :
    ∃ statements : List Statement, (∀ st ∈ statements, ∃ s, Statement.read s = .ok st) ∧
      (statements.foldl Builder.statement b).build.2 = .ok f := by
  induction lines generalizing b number with
  | nil => cases h
  | cons line rest ih =>
      rcases readLines_cons h with ⟨_, hRest⟩ | ⟨next, hLine, hRest⟩
      · exact ih hRest
      · rcases readLine_inBody hLine with ⟨g, hBuild, rfl⟩ | ⟨st, hRead, rfl⟩
        · obtain rfl := Reader.done.inj (readLines_done hRest)
          exact ⟨[], fun _ hMem => (List.not_mem_nil hMem).elim, hBuild⟩
        · obtain ⟨statements, hAll, hBuild⟩ := ih hRest
          exact ⟨st :: statements, List.forall_mem_cons.mpr ⟨⟨_, hRead⟩, hAll⟩, hBuild⟩

/-- A text that can be read is a header and statements. -/
theorem readLines_beforeHeader {number : Nat} {lines : List (List Char)} {f : Func}
    (h : readLines .beforeHeader number lines = .ok (.done f)) :
    ∃ (b : Builder) (statements : List Statement), (∃ s, readHeader s = .ok b) ∧
      (∀ st ∈ statements, ∃ s, Statement.read s = .ok st) ∧
      (statements.foldl Builder.statement b).build.2 = .ok f := by
  induction lines generalizing number with
  | nil => cases h
  | cons line rest ih =>
      rcases readLines_cons h with ⟨_, hRest⟩ | ⟨next, hLine, hRest⟩
      · exact ih hRest
      · rw [readLine] at hLine
        obtain ⟨b, hHeader, rfl⟩ := exists_of_map hLine
        obtain ⟨statements, hAll, hBuild⟩ := readLines_inBody hRest
        exact ⟨b, statements, ⟨_, hHeader⟩, hAll, hBuild⟩

theorem readArgument_isIdent {s : List Char} {x : String} (h : readArgument s = .ok x) :
    Text.isIdent x.toList = true := by
  unfold readArgument at h
  split at h
  case h_1 name =>
    split at h
    case isTrue hIdent =>
      obtain rfl := Except.ok.inj h
      rwa [String.toList_ofList]
    case isFalse => cases h
  case h_2 => cases h

/-- What all members of a list become if each of them can be read. -/
theorem forall_mem_of_mapM {α β : Type} {read : α → Except Reason β} {good : β → Prop}
    (hGood : ∀ x y, read x = .ok y → good y) {xs : List α} {ys : List β}
    (h : xs.mapM read = .ok ys) : ∀ y ∈ ys, good y := by
  induction xs generalizing ys with
  | nil =>
      obtain rfl := Except.ok.inj h
      exact fun _ hMem => (List.not_mem_nil hMem).elim
  | cons x xs ih =>
      rw [List.mapM_cons] at h
      obtain ⟨y, hHead, h⟩ := exists_of_bind h
      obtain ⟨zs, hTail, h⟩ := exists_of_bind h
      obtain rfl := Except.ok.inj h
      exact List.forall_mem_cons.mpr ⟨hGood x y hHead, ih hTail⟩

/-- A header gives a builder that has done nothing. -/
theorem readHeader_empty {s : List Char} {b : Builder} (h : readHeader s = .ok b) :
    ∃ name args, b = .empty name args ∧ Text.isIdent name.toList = true ∧
      ∀ x ∈ args, Text.isIdent x.toList = true := by
  unfold readHeader at h
  split at h
  case h_1 => cases h
  case h_2 =>
    split at h
    case isFalse => cases h
    case isTrue =>
      split at h
      case h_1 => cases h
      case h_2 => cases h
      case h_3 name args _ _ =>
        split at h
        case isFalse => cases h
        case isTrue hName =>
          obtain ⟨args', hArgs, h⟩ := exists_of_bind h
          refine ⟨_, args', (Except.ok.inj h).symm, by rwa [String.toList_ofList], ?_⟩
          exact forall_mem_of_mapM (fun _ _ => readArgument_isIdent) hArgs

end Reader

/-- A function that was read comes from a builder that carried out statements. -/
theorem Func.exists_statements_of_parse {source : String} {f : Func}
    (h : Func.parse source = .ok f) :
    ∃ (name : String) (args : List String) (statements : List Statement),
      (Text.isIdent name.toList = true ∧ ∀ x ∈ args, Text.isIdent x.toList = true) ∧
      (∀ st ∈ statements, ∃ s, Statement.read s = .ok st) ∧
      (statements.foldl Builder.statement (.empty name args)).build.2 = .ok f := by
  rw [Func.parse] at h
  split at h
  case h_1 => cases h
  case h_2 g hLines =>
    obtain rfl := Except.ok.inj h
    obtain ⟨b, statements, ⟨s, hHeader⟩, hAll, hBuild⟩ := Reader.readLines_beforeHeader hLines
    obtain ⟨name, args, rfl, hNames⟩ := Reader.readHeader_empty hHeader
    exact ⟨name, args, statements, hNames, hAll, hBuild⟩
  case h_3 => cases h

/-- The tags of the constants among some operands. -/
def constantTags (values : List Value) : List Nat :=
  values.filterMap fun v =>
    match v with
    | .var _ => none
    | .null tag => some tag
    | .int tag _ => some tag

/-- The tags of the constants that an instruction reads, and its own. -/
def Instr.objectTags (i : Instr) : List Nat :=
  constantTags i.uses ++ [i.tag]

def Block.objectTags (b : Block) : List Nat :=
  b.body.flatMap Instr.objectTags ++ constantTags b.term.uses

/-- Constants that are written in a row take different tags. -/
theorem constantTags_values (start : Nat) (atoms : List Atom) :
    (constantTags (Atom.values start atoms)).Sublist (List.range' start atoms.length) := by
  induction atoms generalizing start with
  | nil => exact List.Sublist.refl _
  | cons a rest ih =>
      have hValues : Atom.values start (a :: rest) =
          a.value start :: Atom.values (start + 1) rest := by
        simp [Atom.values, List.mapIdx_cons, Nat.add_assoc, Nat.add_comm 1]
      rw [hValues, List.length_cons, List.range'_succ]
      cases a with
      | var name => exact (ih (start + 1)).cons start
      | null => exact (ih (start + 1)).cons_cons start
      | int value => exact (ih (start + 1)).cons_cons start

theorem Terminator.uses_tagged (start : Nat) (t : Terminator Atom) :
    (t.tagged start).uses = Atom.values start t.uses := by
  cases t <;> simp [Terminator.tagged, Terminator.uses, Atom.values]

namespace Builder

/-- A statement is a step, but for the tags that it puts aside. -/
theorem exists_step (b : Builder) (st : Statement) :
    ∃ s : Step, ∀ tag, step { b with nextTag := tag } s =
      { b.statement st with nextTag := tag } := by
  cases st with
  | label l =>
      refine ⟨.label l, fun tag => ?_⟩
      have hPlaced : placedLabels { b with nextTag := tag } = b.placedLabels := rfl
      by_cases hOld : l ∈ b.placedLabels <;> simp [step, statement, label, hPlaced, hOld, fail]
  | operation o =>
      refine ⟨.emit ⟨b.nextTag + o.args.length, o.tagged b.nextTag⟩, fun tag => ?_⟩
      cases hCurrent : b.current <;>
        simp [step, statement, perform, emit, emitShown, reserve, nextInstr, intern, hCurrent, fail]
  | terminator t =>
      refine ⟨.terminate (t.tagged b.nextTag), fun tag => ?_⟩
      cases hCurrent : b.current <;>
        simp [step, statement, terminate, reserve, intern, hCurrent, fail]

theorem exists_steps (b : Builder) (statements : List Statement) :
    ∃ steps, ∀ tag, run { b with nextTag := tag } steps =
      { statements.foldl statement b with nextTag := tag } := by
  induction statements generalizing b with
  | nil => exact ⟨[], fun _ => rfl⟩
  | cons st rest ih =>
      obtain ⟨s, hStep⟩ := exists_step b st
      obtain ⟨steps, hSteps⟩ := ih (b.statement st)
      refine ⟨s :: steps, fun tag => ?_⟩
      rw [run, List.foldl_cons, hStep, ← run, hSteps, List.foldl_cons]

/-- Finishing does not look at tags. -/
theorem build_nextTag (b : Builder) (tag : Nat) :
    (build { b with nextTag := tag }).2 = b.build.2 := by
  have hSame : finalError { b with nextTag := tag } = b.finalError := rfl
  rw [build, build, hSame]
  cases b.finalError <;> rfl

/-- The tags of all objects made so far, in the order in which they were made. -/
def tags (b : Builder) : List Nat :=
  b.finished.flatMap Block.objectTags ++
    (b.current.map fun block => block.body.flatMap Instr.objectTags).getD []

theorem tags_label (b : Builder) (l : Label) : (b.label l).tags = b.tags := by
  rw [Builder.label]
  split
  case isTrue => rfl
  case isFalse =>
    simp only [tags, List.flatMap_append]
    cases b.current <;> simp [OpenBlock.close, Block.objectTags, Terminator.uses, constantTags]

theorem tags_emitShown (b : Builder) (shown : Operation Value) (i : Instr) :
    (b.emitShown shown i).tags = b.tags ∨
      (b.emitShown shown i).tags = b.tags ++ i.objectTags := by
  rw [Builder.emitShown]
  split
  case h_1 => exact .inl rfl
  case h_2 block hCurrent => exact .inr (by simp [tags, intern, hCurrent])

theorem tags_terminate (b : Builder) (t : Terminator Value) :
    (b.terminate t).tags = b.tags ∨ (b.terminate t).tags = b.tags ++ constantTags t.uses := by
  rw [Builder.terminate]
  split
  case h_1 => exact .inl rfl
  case h_2 block hCurrent =>
    simp only [intern] at hCurrent
    exact .inr (by simp [tags, intern, hCurrent, OpenBlock.close, Block.objectTags])

theorem nextTag_label (b : Builder) (l : Label) : (b.label l).nextTag = b.nextTag := by
  rw [Builder.label]
  split <;> rfl

theorem nextTag_emitShown (b : Builder) (shown : Operation Value) (i : Instr) :
    (b.emitShown shown i).nextTag = b.nextTag := by
  rw [Builder.emitShown]
  split <;> rfl

theorem nextTag_terminate (b : Builder) (t : Terminator Value) :
    (b.terminate t).nextTag = b.nextTag := by
  rw [Builder.terminate]
  split <;> rfl

/-- Tags are handed out in ascending order, each to one object at most. -/
def TagsInOrder (b : Builder) : Prop :=
  b.tags.Sublist (List.range b.nextTag)

namespace TagsInOrder

variable {b c : Builder}

/-- New objects take their tags from those that are next. -/
theorem grow (h : b.TagsInOrder) {count : Nat} {new : List Nat}
    (hNew : new.Sublist (List.range' b.nextTag count))
    (hTags : c.tags = b.tags ∨ c.tags = b.tags ++ new)
    (hNext : c.nextTag = b.nextTag + count) : c.TagsInOrder := by
  have hRange : List.range c.nextTag =
      List.range b.nextTag ++ List.range' b.nextTag count := by
    rw [hNext, List.range_eq_range', List.range_eq_range', ← List.range'_append_1, Nat.zero_add]
  rw [TagsInOrder, hRange]
  cases hTags with
  | inl hSame => exact hSame ▸ h.trans (List.sublist_append_left _ _)
  | inr hMore => exact hMore ▸ h.append hNew

theorem statement (h : b.TagsInOrder) (st : Statement) : (b.statement st).TagsInOrder := by
  cases st with
  | label l =>
      have hNext : (b.label l).nextTag = b.nextTag + 0 := nextTag_label b l
      exact h.grow (List.nil_sublist _) (.inl (tags_label b l)) hNext
  | operation o =>
      have hNew : (Instr.objectTags ⟨b.nextTag + o.args.length, o.tagged b.nextTag⟩).Sublist
          (List.range' b.nextTag (o.args.length + 1)) := by
        rw [List.range'_1_concat]
        exact (constantTags_values b.nextTag o.args).append (List.Sublist.refl _)
      exact h.grow hNew (tags_emitShown _ _ _) (nextTag_emitShown _ _ _)
  | terminator t =>
      have hNew : (constantTags (t.tagged b.nextTag).uses).Sublist
          (List.range' b.nextTag t.uses.length) := by
        rw [Terminator.uses_tagged]
        exact constantTags_values b.nextTag t.uses
      exact h.grow hNew (tags_terminate _ _) (nextTag_terminate _ _)

end TagsInOrder

end Builder

/-- What statements keep holds after all of them. -/
theorem Builder.foldl_statement {holds : Builder → Prop} {statements : List Statement}
    (hStep : ∀ b, ∀ st ∈ statements, holds b → holds (b.statement st)) {b : Builder}
    (h : holds b) : holds (statements.foldl Builder.statement b) := by
  induction statements generalizing b with
  | nil => exact h
  | cons st rest ih =>
      exact ih (fun b st hst => hStep b st (List.mem_cons_of_mem _ hst))
        (hStep b st List.mem_cons_self h)

namespace Func

/-- Something computed from what a text reads as tells that the text can be read. -/
theorem exists_parse {source : String} {β : Type} {view : Func → β} {x : β}
    (h : (Func.parse source).toOption.map view = some x) :
    ∃ f, Func.parse source = .ok f ∧ view f = x := by
  cases hParse : Func.parse source with
  | error e => rw [hParse] at h; cases h
  | ok f =>
      rw [hParse] at h
      exact ⟨f, rfl, Option.some.inj h⟩

theorem isParsed_of_toOption {source : String} {f : Func}
    (h : (Func.parse source).toOption = some f) : f.IsParsed := by
  cases hParse : Func.parse source with
  | error e => rw [hParse] at h; cases h
  | ok g =>
      rw [hParse] at h
      exact ⟨source, Option.some.inj h ▸ hParse⟩

/-- All tags of instructions, block after block. -/
def tags (f : Func) : List Nat :=
  f.blocks.flatMap fun b => b.body.map Instr.tag

/-- A function that was read could have been built step by step. -/
theorem IsParsed.isBuilt {f : Func} (h : f.IsParsed) : f.IsBuilt := by
  obtain ⟨source, hParse⟩ := h
  obtain ⟨name, args, statements, _, _, hBuild⟩ := Func.exists_statements_of_parse hParse
  obtain ⟨steps, hSteps⟩ := Builder.exists_steps (.empty name args) statements
  have hRun : (Builder.empty name args).run steps =
      { statements.foldl Builder.statement (.empty name args) with nextTag := 0 } := hSteps 0
  exact ⟨name, args, steps, by rw [hRun, Builder.build_nextTag, hBuild]⟩

theorem IsParsed.wellFormed {f : Func} (h : f.IsParsed) : f.WellFormed :=
  h.isBuilt.wellFormed

/-- The tags of all constants and instructions, block after block. -/
def objectTags (f : Func) : List Nat :=
  f.blocks.flatMap Block.objectTags

/-- No two constants or instructions of a function that was read are the same. -/
theorem IsParsed.objectTags_nodup {f : Func} (h : f.IsParsed) : f.objectTags.Nodup := by
  obtain ⟨source, hParse⟩ := h
  obtain ⟨name, args, statements, _, _, hBuild⟩ := Func.exists_statements_of_parse hParse
  have hOrder : Builder.TagsInOrder (statements.foldl Builder.statement (.empty name args)) :=
    Builder.foldl_statement (fun _ st _ hb => hb.statement st) (List.Sublist.refl _)
  obtain ⟨hNone, rfl⟩ := Builder.build_ok hBuild
  have hCurrent := (Builder.finalError_eq_none.mp hNone).2.2.1
  have hNodup := hOrder.nodup List.nodup_range
  rw [Builder.tags, hCurrent, Option.map_none, Option.getD_none, List.append_nil] at hNodup
  rw [objectTags, rebuild, List.flatMap_map]
  exact hNodup

theorem IsParsed.tags_nodup {f : Func} (h : f.IsParsed) : f.tags.Nodup := by
  have hBody : ∀ b : Block, (b.body.map Instr.tag).Sublist b.objectTags := by
    intro b
    rw [List.map_eq_flatMap]
    exact (List.Sublist.flatMap_right _ fun i _ => List.sublist_append_right _ _).trans
      (List.sublist_append_left _ _)
  exact h.objectTags_nodup.sublist (List.Sublist.flatMap_right _ fun b _ => hBody b)

end Func

end RefElision
