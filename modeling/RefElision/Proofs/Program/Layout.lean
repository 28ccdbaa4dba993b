import RefElision.Proofs.Program.Transcripts

/-! Reading does not depend on layout. Lines that say nothing may be put anywhere, and a line
may be written in another way, with other white space or another comment. The same function
is read, or the same mistake is found where its line has come to stand. -/
namespace RefElision

open Text

/-- The lines that a text is cut into. -/
def Text.lines (source : String) : List (List Char) :=
  splitOn '\n' source.toList

/-- New lines for old ones: `place` tells where a line has come to stand, counted from zero.
Lines keep their order and what they say, and all other lines say nothing. -/
structure Relaid (old new : List (List Char)) (place : Nat → Nat) : Prop where
  ascending : ∀ i j, i < j → j < old.length → place i < place j
  replaced : ∀ i line, old[i]? = some line →
    ∃ line', new[place i]? = some line' ∧ stripComment line' = stripComment line
  inserted : ∀ j line, new[j]? = some line → (∀ i < old.length, place i ≠ j) →
    stripComment line = []

namespace Relaid

variable {old new : List (List Char)} {line : List Char} {place : Nat → Nat}

theorem eq_nil (h : Relaid old [] place) : old = [] := by
  cases old with
  | nil => rfl
  | cons line rest =>
      obtain ⟨line', hLine, _⟩ := h.replaced 0 line rfl
      cases hLine

/-- Only the first line can have become the first one. -/
theorem place_pos (h : Relaid old new place) {i : Nat} (hi : i < old.length)
    (hFirst : place 0 = 0 → 0 < i) : 0 < place i := by
  rcases Nat.eq_zero_or_pos i with rfl | hPos
  · exact Nat.pos_of_ne_zero fun hZero => absurd (hFirst hZero) (by omega)
  · have hLess := h.ascending 0 i hPos hi
    omega

/-- The first line is new. -/
theorem of_inserted (h : Relaid old (line :: new) place)
    (hNew : ∀ i < old.length, 0 < place i) :
    stripComment line = [] ∧ Relaid old new fun i => place i - 1 := by
  refine ⟨h.inserted 0 line rfl fun i hi => Nat.ne_of_gt (hNew i hi), ?_⟩
  constructor
  case ascending =>
    intro i j hij hj
    have hLess := h.ascending i j hij hj
    have hPos := hNew i (by omega)
    omega
  case replaced =>
    intro i old hOld
    obtain ⟨line', hLine, hSame⟩ := h.replaced i old hOld
    have hPos := hNew i (List.getElem?_eq_some_iff.mp hOld).1
    refine ⟨line', ?_, hSame⟩
    rwa [← List.getElem?_cons_succ (a := line), Nat.sub_add_cancel hPos]
  case inserted =>
    intro j line' hLine hOther
    refine h.inserted (j + 1) line' hLine fun i hi hEq => hOther i hi ?_
    omega

/-- The first line stands for the first one. -/
theorem of_replaced {first : List Char} (h : Relaid (first :: old) (line :: new) place)
    (hFirst : place 0 = 0) :
    stripComment line = stripComment first ∧ Relaid old new fun i => place (i + 1) - 1 := by
  have hPos : ∀ i < old.length, 0 < place (i + 1) := fun i hi =>
    h.place_pos (by simpa using hi) fun _ => Nat.succ_pos i
  constructor
  · obtain ⟨line', hLine, hSame⟩ := h.replaced 0 first rfl
    rw [hFirst] at hLine
    obtain rfl := Option.some.inj hLine
    exact hSame
  constructor
  case ascending =>
    intro i j hij hj
    have hLess := h.ascending (i + 1) (j + 1) (by omega) (by simpa using hj)
    have hPlace := hPos i (by omega)
    omega
  case replaced =>
    intro i old hOld
    obtain ⟨line', hLine, hSame⟩ := h.replaced (i + 1) old hOld
    have hPlace := hPos i (List.getElem?_eq_some_iff.mp hOld).1
    refine ⟨line', ?_, hSame⟩
    rwa [← List.getElem?_cons_succ (a := line), Nat.sub_add_cancel hPlace]
  case inserted =>
    intro j line' hLine hOther
    refine h.inserted (j + 1) line' hLine fun i hi hEq => ?_
    cases i with
    | zero => omega
    | succ i => exact hOther i (by simpa using hi) (by omega)

end Relaid

/-- The same mistake where its line has come to stand. The lines are counted from the given
numbers on. -/
structure Counterpart (old new : List (List Char)) (place : Nat → Nat) (number number' : Nat)
    (e e' : SyntaxError) : Prop where
  reason_eq : e'.reason = e.reason
  located : ∃ i line, i < old.length ∧ e.line = number + i ∧ new[place i]? = some line ∧
    e'.line = number' + place i ∧ e'.source = String.ofList line

namespace Counterpart

variable {old new : List (List Char)} {line : List Char} {place : Nat → Nat}
  {number number' : Nat} {e e' : SyntaxError}

theorem behind_inserted (hNew : ∀ i < old.length, 0 < place i)
    (h : Counterpart old new (fun i => place i - 1) number (number' + 1) e e') :
    Counterpart old (line :: new) place number number' e e' := by
  obtain ⟨i, line', hi, hLine, hNewLine, hLine', hSource⟩ := h.located
  have hPos := hNew i hi
  refine ⟨h.reason_eq, i, line', hi, hLine, ?_, by omega, hSource⟩
  rwa [← Nat.sub_add_cancel hPos, List.getElem?_cons_succ]

theorem behind_replaced {first : List Char} (hPos : ∀ i < old.length, 0 < place (i + 1))
    (h : Counterpart old new (fun i => place (i + 1) - 1) (number + 1) (number' + 1) e e') :
    Counterpart (first :: old) (line :: new) place number number' e e' := by
  obtain ⟨i, line', hi, hLine, hNewLine, hLine', hSource⟩ := h.located
  have hPlace := hPos i hi
  refine ⟨h.reason_eq, i + 1, line', by simpa using hi, by omega, ?_, by omega, hSource⟩
  rwa [← Nat.sub_add_cancel hPlace, List.getElem?_cons_succ]

end Counterpart

namespace Reader

variable {r : Reader} {number : Nat} {line : List Char} {rest : List (List Char)}

/-- A line that says nothing is skipped. -/
theorem readLines_blank (h : stripComment line = []) :
    readLines r number (line :: rest) = readLines r (number + 1) rest := by
  rw [readLines]
  split
  case h_1 => rfl
  case h_2 hne => exact (hne h).elim

theorem readLines_mistake {reason : Reason} (hne : stripComment line ≠ [])
    (h : readLine r (stripComment line) = .error reason) :
    readLines r number (line :: rest) = .error ⟨number, String.ofList line, reason⟩ := by
  rw [readLines]
  split
  case h_1 hNil => exact (hne hNil).elim
  case h_2 => rw [h]

/-- Both texts are read to the same state, or both have the same mistake. -/
def Agree (old new : List (List Char)) (place : Nat → Nat) (number number' : Nat)
    (outcome outcome' : Except SyntaxError Reader) : Prop :=
  (∃ r, outcome = .ok r ∧ outcome' = .ok r) ∨
    ∃ e e', outcome = .error e ∧ outcome' = .error e' ∧
      Counterpart old new place number number' e e'

section Relaid

variable {old new : List (List Char)} {place : Nat → Nat} {number' : Nat}

/-- A first line that is new makes no difference. -/
theorem Agree.behind_inserted (hNew : ∀ i < old.length, 0 < place i)
    (hBlank : stripComment line = [])
    (h : Agree old new (fun i => place i - 1) number (number' + 1) (readLines r number old)
      (readLines r (number' + 1) new)) :
    Agree old (line :: new) place number number' (readLines r number old)
      (readLines r number' (line :: new)) := by
  rw [readLines_blank hBlank]
  rcases h with hOk | ⟨e, e', hOld, hRest, hSame⟩
  · exact .inl hOk
  · exact .inr ⟨e, e', hOld, hRest, hSame.behind_inserted hNew⟩

/-- First lines that say the same are read alike. -/
theorem Agree.behind_replaced {first : List Char} (hPos : ∀ i < old.length, 0 < place (i + 1))
    (hFirst : place 0 = 0) (hSame : stripComment line = stripComment first)
    (h : ∀ next, Agree old new (fun i => place (i + 1) - 1) (number + 1) (number' + 1)
      (readLines next (number + 1) old) (readLines next (number' + 1) new)) :
    Agree (first :: old) (line :: new) place number number' (readLines r number (first :: old))
      (readLines r number' (line :: new)) := by
  have hBehind : ∀ next, readLines r number (first :: old) = readLines next (number + 1) old →
      readLines r number' (line :: new) = readLines next (number' + 1) new →
      Agree (first :: old) (line :: new) place number number' (readLines r number (first :: old))
        (readLines r number' (line :: new)) := by
    intro next hOld hNew
    rw [hOld, hNew]
    rcases h next with hOk | ⟨e, e', hOld, hNew, hMistake⟩
    · exact .inl hOk
    · exact .inr ⟨e, e', hOld, hNew, hMistake.behind_replaced hPos⟩
  by_cases hBlank : stripComment first = []
  · exact hBehind r (readLines_blank hBlank) (readLines_blank (hSame.trans hBlank))
  · have hBlank' : stripComment line ≠ [] := hSame ▸ hBlank
    cases hLine : readLine r (stripComment first) with
    | ok next =>
        exact hBehind next (readLines_nonempty hBlank hLine)
          (readLines_nonempty hBlank' (hSame ▸ hLine))
    | error reason =>
        refine .inr ⟨_, _, readLines_mistake hBlank hLine,
          readLines_mistake hBlank' (hSame ▸ hLine), rfl, 0, line, ?_, ?_, ?_, ?_, ?_⟩
        · exact Nat.succ_pos _
        · rfl
        · rw [hFirst]
          rfl
        · rw [hFirst]
          rfl
        · rfl

theorem readLines_relaid (h : Relaid old new place) (r : Reader) (number number' : Nat) :
    Agree old new place number number' (readLines r number old) (readLines r number' new) := by
  induction new generalizing old place r number number' with
  | nil =>
      obtain rfl := h.eq_nil
      exact .inl ⟨r, rfl, rfl⟩
  | cons line new ih =>
      have hInserted : (∀ i < old.length, 0 < place i) → Agree old (line :: new) place number
          number' (readLines r number old) (readLines r number' (line :: new)) := by
        intro hNew
        obtain ⟨hBlank, hRest⟩ := h.of_inserted hNew
        exact Agree.behind_inserted hNew hBlank (ih hRest r number (number' + 1))
      cases old with
      | nil => exact hInserted fun i hi => absurd hi (Nat.not_lt_zero i)
      | cons first old =>
          by_cases hFirst : place 0 = 0
          · obtain ⟨hSame, hRest⟩ := h.of_replaced hFirst
            refine Agree.behind_replaced (fun i hi => ?_) hFirst hSame fun next =>
              ih hRest next (number + 1) (number' + 1)
            exact h.place_pos (by simpa using hi) fun _ => Nat.succ_pos i
          · exact hInserted fun i hi => h.place_pos hi fun hZero => (hFirst hZero).elim

end Relaid

end Reader

/-- What is wrong with a line, if anything, is not that the text has ended. -/
def WithinLine {α : Type} (outcome : Except Reason α) : Prop :=
  outcome ≠ .error .endOfInput

namespace WithinLine

variable {α β : Type}

theorem ok (a : α) : WithinLine (.ok a) := by
  simp [WithinLine]

theorem mistake {reason : Reason} (h : reason ≠ .endOfInput) :
    WithinLine (.error reason : Except Reason α) := by
  simpa [WithinLine] using h

/-- A mistake that is passed on. -/
theorem error {outcome : Except Reason α} {reason : Reason} (h : WithinLine outcome)
    (hError : outcome = .error reason) : WithinLine (.error reason : Except Reason β) :=
  fun hEnd => h (hError.trans (congrArg Except.error (Except.error.inj hEnd)))

theorem bind {outcome : Except Reason α} {next : α → Except Reason β} (h : WithinLine outcome)
    (hNext : ∀ a, WithinLine (next a)) : WithinLine (outcome >>= next) := by
  cases outcome with
  | error reason => exact h.error rfl
  | ok a => exact hNext a

theorem map {outcome : Except Reason α} (h : WithinLine outcome) (f : α → β) :
    WithinLine (outcome.map f) := by
  cases outcome with
  | error reason => exact h.error rfl
  | ok a => exact ok _

theorem mapM {read : α → Except Reason β} (h : ∀ a, WithinLine (read a)) (items : List α) :
    WithinLine (items.mapM read) := by
  induction items with
  | nil => exact ok []
  | cons a rest ih =>
      rw [List.mapM_cons]
      exact (h a).bind fun b => ih.bind fun bs => ok (b :: bs)

end WithinLine

namespace Statement

theorem readLabel_within (s : List Char) : WithinLine (readLabel s) := by
  rw [readLabel]
  split <;> simp [WithinLine]

theorem readAtom_within (s : List Char) : WithinLine (readAtom s) := by
  unfold readAtom
  repeat' split
  all_goals simp [WithinLine]

theorem readAtoms_within (s : List Char) : WithinLine (readAtoms s) :=
  .mapM readAtom_within _

theorem readBranch_within (s : List Char) : WithinLine (readBranch s) := by
  unfold readBranch
  split
  case h_1 condition yes no _ =>
    exact (readAtom_within condition).bind fun _ => (readLabel_within yes).bind fun _ =>
      (readLabel_within no).bind fun _ => .ok _
  case h_2 => exact .mistake (by simp)

theorem readCases_within (table : CaseTable) (items : List (List Char)) :
    WithinLine (readCases table items) := by
  induction items generalizing table with
  | nil => exact .ok table
  | cons item rest ih =>
      rw [readCases]
      split
      case h_2 => exact .mistake (by simp)
      case h_1 value target _ =>
        split
        case h_1 => exact .mistake (by simp)
        case h_2 =>
          split
          case isTrue => exact .mistake (by simp)
          case isFalse =>
            split
            case h_1 hTarget => exact (readLabel_within (trim target)).error hTarget
            case h_2 => exact ih _

theorem readSwitch_within (s : List Char) : WithinLine (readSwitch s) := by
  rw [readSwitch]
  split
  case h_1 => exact .mistake (by simp)
  case h_2 head items _ =>
    split
    case h_1 scrutinee otherwise _ =>
      exact (readAtom_within scrutinee).bind fun _ => (readLabel_within otherwise).bind fun _ =>
        (readCases_within _ _).bind fun _ => .ok _
    case h_2 => exact .mistake (by simp)

theorem readCall_within (result : Option String) (s : List Char) :
    WithinLine (readCall result s) := by
  rw [readCall]
  split
  case h_1 => exact .mistake (by simp)
  case h_2 callee args _ =>
    split
    case isTrue => exact (readAtoms_within args).bind fun _ => .ok _
    case isFalse => exact .mistake (by simp)

theorem readOp_within (result : Option String) (opcode s : List Char) :
    WithinLine (readOp result opcode s) := by
  rw [readOp]
  split
  case isTrue => exact (readAtoms_within s).bind fun _ => .ok _
  case isFalse => exact .mistake (by simp)

theorem readTerminator?_within {word : String} {s : List Char}
    {outcome : Except Reason (Terminator Atom)} (h : readTerminator? word s = some outcome) :
    WithinLine outcome := by
  unfold readTerminator? at h
  split at h
  case h_1 => exact Option.some.inj h ▸ (readLabel_within s).map _
  case h_2 => exact Option.some.inj h ▸ readBranch_within s
  case h_3 => exact Option.some.inj h ▸ readSwitch_within s
  case h_4 => exact Option.some.inj h ▸ (readAtoms_within s).map _
  case h_5 => cases h

theorem readAction_within (result : Option String) (s : List Char) :
    WithinLine (readAction result s) := by
  rw [readAction]
  split
  split
  case h_1 hWord =>
    split
    case isTrue => exact .mistake (by simp)
    case isFalse => exact (readTerminator?_within hWord).map _
  case h_2 =>
    split
    case isTrue => exact (readCall_within result _).map _
    case isFalse => exact (readOp_within result _ _).map _

theorem read_within (s : List Char) : WithinLine (read s) := by
  unfold read
  split
  case isTrue => exact (readLabel_within _).map _
  case isFalse =>
    split
    case h_1 =>
      split
      case h_1 => exact .mistake (by simp)
      case h_2 =>
        split
        case isTrue => exact readAction_within _ _
        case isFalse => exact .mistake (by simp)
    case h_2 => exact readAction_within none s

end Statement

namespace Reader

theorem readArgument_within (s : List Char) : WithinLine (readArgument s) := by
  unfold readArgument
  repeat' split
  all_goals simp [WithinLine]

theorem readHeader_within (s : List Char) : WithinLine (readHeader s) := by
  unfold readHeader
  split
  case h_1 => exact .mistake (by simp)
  case h_2 =>
    split
    case isFalse => exact .mistake (by simp)
    case isTrue =>
      split
      case h_1 => exact .mistake (by simp)
      case h_2 => exact .mistake (by simp)
      case h_3 =>
        split
        case isFalse => exact .mistake (by simp)
        case isTrue => exact (WithinLine.mapM readArgument_within _).bind fun _ => .ok _

theorem readBodyLine_within (b : Builder) (s : List Char) : WithinLine (readBodyLine b s) := by
  rw [readBodyLine]
  split
  case h_1 hRead => exact (Statement.read_within s).error hRead
  case h_2 =>
    split
    case h_1 => exact .mistake (by simp)
    case h_2 => exact .ok _

/-- Reading a line does not tell that the text has ended. -/
theorem readLine_within (r : Reader) (s : List Char) : WithinLine (readLine r s) := by
  unfold readLine
  split
  case h_1 => exact (readHeader_within s).map _
  case h_2 b =>
    split
    case isTrue =>
      split
      case h_1 => exact .ok _
      case h_2 => exact .mistake (by simp)
    case isFalse => exact readBodyLine_within b s
  case h_3 => exact .mistake (by simp)

theorem reason_ne_endOfInput {r : Reader} {number : Nat} {lines : List (List Char)}
    {e : SyntaxError} (h : readLines r number lines = .error e) : e.reason ≠ .endOfInput := by
  induction lines generalizing r number with
  | nil => cases h
  | cons line rest ih =>
      rw [readLines] at h
      split at h
      case h_1 => exact ih h
      case h_2 =>
        split at h
        case h_1 reason hLine =>
          obtain rfl := Except.error.inj h
          exact fun hEnd => readLine_within _ _ (hLine.trans (congrArg _ hEnd))
        case h_2 => exact ih h

end Reader

namespace Func

section Outcomes

variable {source : String} {r : Reader} {f : Func} {e : SyntaxError}

theorem parse_of_error (h : Reader.readLines .beforeHeader 1 (lines source) = .error e) :
    Func.parse source = .error e := by
  rw [lines] at h
  simp only [Func.parse, h]

theorem parse_of_done (h : Reader.readLines .beforeHeader 1 (lines source) = .ok (.done f)) :
    Func.parse source = .ok f := by
  rw [lines] at h
  simp only [Func.parse, h]

theorem parse_of_unfinished (h : Reader.readLines .beforeHeader 1 (lines source) = .ok r)
    (hDone : ¬ ∃ f, r = .done f) :
    Func.parse source = .error ⟨(lines source).length, "", .endOfInput⟩ := by
  rw [lines] at h ⊢
  cases r with
  | done f => exact (hDone ⟨f, rfl⟩).elim
  | beforeHeader => simp only [Func.parse, h]
  | inBody b => simp only [Func.parse, h]

end Outcomes

/-- Two texts with the same lines up to layout read as the same function, so it prints the
same, or have the same mistake. It is reported where its line has come to stand, with that line
as it is written there. If the text ends too early, then this is told behind its last line. -/
theorem parse_ignores_layout {source source' : String} {place : Nat → Nat}
    (h : Relaid (lines source) (lines source') place) :
    (∀ f, Func.parse source = .ok f ↔ Func.parse source' = .ok f) ∧
    ∀ e, Func.parse source = .error e →
      (e.reason = .endOfInput →
        Func.parse source' = .error ⟨(lines source').length, "", .endOfInput⟩) ∧
      (e.reason ≠ .endOfInput →
        ∃ n line, n < (lines source).length ∧ e.line = n + 1 ∧
          (lines source')[place n]? = some line ∧
          Func.parse source' = .error ⟨place n + 1, String.ofList line, e.reason⟩) := by
  rcases Reader.readLines_relaid h .beforeHeader 1 1 with
    ⟨r, hOld, hNew⟩ | ⟨e, e', hOld, hNew, hSame⟩
  · by_cases hDone : ∃ f, r = .done f
    · obtain ⟨f, rfl⟩ := hDone
      rw [parse_of_done hOld, parse_of_done hNew]
      exact ⟨fun _ => Iff.rfl, fun e he => by cases he⟩
    · rw [parse_of_unfinished hOld hDone, parse_of_unfinished hNew hDone]
      refine ⟨fun f => by simp, fun e he => ?_⟩
      obtain rfl := Except.error.inj he
      exact ⟨fun _ => rfl, fun hne => (hne rfl).elim⟩
  · rw [parse_of_error hOld, parse_of_error hNew]
    refine ⟨fun f => by simp, fun e₁ he => ?_⟩
    obtain rfl := Except.error.inj he
    have hReason := Reader.reason_ne_endOfInput hOld
    refine ⟨fun hEnd => (hReason hEnd).elim, fun _ => ?_⟩
    obtain ⟨n, line, hn, hLine, hAt, hLine', hSource⟩ := hSame.located
    refine ⟨n, line, hn, by omega, hAt, ?_⟩
    obtain ⟨number, text, reason⟩ := e'
    obtain rfl : reason = e.reason := hSame.reason_eq
    obtain rfl : text = String.ofList line := hSource
    obtain rfl : number = 1 + place n := hLine'
    rw [Nat.add_comm]

/-- A function that reads a variable which it does not define. -/
def compactText : String :=
  "func @f(%x) \x7b\nentry:\nret %y\n\x7d"

/-- The same function with comments, empty lines and other line ends. -/
def spreadText : String :=
  "; by hand\r\n\tfunc @f(%x) \x7b;\r\n\nentry:;;\n \nret %y ; %x\r\n \x7d ;\n;\n"

/-- The brace at which the mistake is found has moved from line four to line seven. -/
theorem parse_ignores_layout_spreadText :
    Relaid (lines compactText) (lines spreadText) (fun i => [1, 3, 5, 6].getD i 0) ∧
      Func.parse compactText = .error ⟨4, "\x7d", .build (.undefinedVariables ["y"])⟩ ∧
      Func.parse spreadText = .error ⟨7, " \x7d ;", .build (.undefinedVariables ["y"])⟩ := by
  have hOld : Func.parse compactText =
      .error ⟨4, "\x7d", .build (.undefinedVariables ["y"])⟩ := by
    decide +kernel
  have hLength : (lines compactText).length = 4 := by decide +kernel
  have hSpread : (lines spreadText).length = 9 := by decide +kernel
  have hRelaid : Relaid (lines compactText) (lines spreadText)
      (fun i => [1, 3, 5, 6].getD i 0) := by
    constructor
    case ascending =>
      have hAll : ∀ j < 4, ∀ i < j, [1, 3, 5, 6].getD i 0 < [1, 3, 5, 6].getD j 0 := by decide
      exact fun i j hij hj => hAll j (hLength ▸ hj) i hij
    case replaced =>
      have hAll : ∀ i < 4, (lines spreadText)[[1, 3, 5, 6].getD i 0]?.map stripComment =
          (lines compactText)[i]?.map stripComment := by
        decide +kernel
      intro i line hLine
      have hi := (List.getElem?_eq_some_iff.mp hLine).1
      have hSame := hAll i (hLength ▸ hi)
      rw [hLine, Option.map_some, Option.map_eq_some_iff] at hSame
      exact hSame
    case inserted =>
      have hAll : ∀ j < 9, (∀ i < 4, [1, 3, 5, 6].getD i 0 ≠ j) →
          (lines spreadText)[j]?.map stripComment = some [] := by
        decide +kernel
      intro j line hLine hOther
      have hj := (List.getElem?_eq_some_iff.mp hLine).1
      have hBlank := hAll j (hSpread ▸ hj) (hLength ▸ hOther)
      rw [hLine] at hBlank
      exact Option.some.inj hBlank
  obtain ⟨n, line, _, hn, hLine, hNew⟩ :=
    ((parse_ignores_layout hRelaid).2 _ hOld).2 (by simp)
  obtain rfl : 3 = n := Nat.succ.inj hn
  obtain rfl : [' ', '\x7d', ' ', ';'] = line := Option.some.inj hLine
  exact ⟨hRelaid, hOld, hNew⟩

end Func

end RefElision
