import RefElision.Proofs.Program.Naming
import RefElision.Proofs.Text.Letters

/-! Reading a line that was printed. Each kind of line is cut apart at the marks that were
put between its parts, which do not occur inside of them. -/
namespace RefElision

open Text

section Operands

variable {a : Atom} {atoms : List Atom}

theorem Atom.isWord_text (h : a.Readable) : IsWord a.text.toList := by
  cases a with
  | var name =>
      have hText : (Atom.var name).text.toList = '%' :: name.toList := by
        simp [Atom.text, variableText]
      rw [hText]
      exact isWord_variable h
  | null => exact isWord_of_isIdent (by decide)
  | int value =>
      obtain ⟨c, rest, hText, _, hWord⟩ := decimal_cases value.toInt
      have hList : (Atom.int value).text.toList = c :: rest := hText
      rwa [hList]

theorem Statement.readAtom_text (h : a.Readable) : readAtom a.text.toList = .ok a := by
  cases a with
  | var name =>
      have hText : (Atom.var name).text.toList = '%' :: name.toList := by
        simp [Atom.text, variableText]
      have hIdent : isIdent name.toList = true := h
      rw [hText, readAtom, if_neg (by simp)]
      simp [hIdent, String.ofList_toList]
  | null => rfl
  | int value =>
      obtain ⟨c, rest, hText, hFirst, _⟩ := decimal_cases value.toInt
      have hList : (Atom.int value).text.toList = c :: rest := hText
      have hSigned := signed?_decimal value
      rw [hText] at hSigned
      have hOther : ∀ d, d.isDigit = false → d ≠ '-' → c ≠ d := by
        rintro d hDigit hMinus rfl
        rcases hFirst with hIs | hIs
        · rw [hIs] at hDigit
          cases hDigit
        · exact hMinus hIs
      have hNull : c ≠ 'n' := hOther 'n' (by decide) (by decide)
      rw [hList, readAtom, if_neg (by simp [hNull]), hSigned]
      intro name hEq
      exact hOther '%' (by decide) (by decide) (List.cons.inj hEq).1

theorem toList_atomsText (atoms : List Atom) :
    (atomsText atoms).toList = [',', ' '].intercalate (atoms.map fun a => a.text.toList) := by
  rw [atomsText, String.toList_intercalate, List.map_map]
  rfl

theorem isItem_of_mem_texts (h : ∀ a ∈ atoms, a.Readable) :
    ∀ s ∈ atoms.map (fun a => a.text.toList), IsItem s := by
  intro s hs
  obtain ⟨a, ha, rfl⟩ := List.mem_map.mp hs
  exact (Atom.isWord_text (h a ha)).isItem

/-- What was printed piece by piece is read piece by piece. -/
theorem mapM_printed {α : Type} {print : α → List Char} {read : List Char → Except Reason α}
    {xs : List α} (h : ∀ x ∈ xs, read (print x) = .ok x) : (xs.map print).mapM read = .ok xs := by
  induction xs with
  | nil => rfl
  | cons x rest ih =>
      rw [List.forall_mem_cons] at h
      rw [List.map_cons, List.mapM_cons, h.1, ih h.2]
      rfl

theorem Statement.readAtoms_text (h : ∀ a ∈ atoms, a.Readable) :
    readAtoms (atomsText atoms).toList = .ok atoms := by
  rw [toList_atomsText, readAtoms, listItems_intercalate (isItem_of_mem_texts h)]
  exact mapM_printed fun a ha => readAtom_text (h a ha)

theorem tight_atomsText (h : ∀ a ∈ atoms, a.Readable) : Tight (atomsText atoms).toList := by
  rw [toList_atomsText]
  exact tight_intercalate (isItem_of_mem_texts h)

theorem all_atomsText (h : ∀ a ∈ atoms, a.Readable) :
    (atomsText atoms).toList.all isLineChar = true := by
  rw [toList_atomsText]
  apply all_intercalate
  · decide
  · intro s hs
    obtain ⟨a, ha, rfl⟩ := List.mem_map.mp hs
    exact (Atom.isWord_text (h a ha)).all_isLineChar

theorem atomsText_eq_nil (h : ∀ a ∈ atoms, a.Readable) :
    (atomsText atoms).toList = [] ↔ atoms = [] := by
  cases atoms with
  | nil => simp [atomsText]
  | cons a rest =>
      have hne := intercalate_ne_nil (by simp) (isItem_of_mem_texts h)
      rw [← toList_atomsText] at hne
      simp [hne]

end Operands

namespace Statement

variable {s word rest : List Char} {result : Option String}

section Phrases

/-- A word, and behind a blank what follows it, if anything does. -/
def phrase (word rest : List Char) : List Char :=
  if rest = [] then word else word ++ ' ' :: rest

/-- What a word and the rest have to be like for the line to be cut between them. -/
structure IsPhrase (word rest : List Char) : Prop where
  word : isIdent word = true
  tight : Tight rest
  chars : rest.all isLineChar = true

variable (h : IsPhrase word rest)
include h

theorem IsPhrase.all_chars : (phrase word rest).all isLineChar = true := by
  have hWord := (isWord_of_isIdent h.word).all_isLineChar
  have hBlank : isLineChar ' ' = true := rfl
  rw [phrase]
  split
  · exact hWord
  · rw [List.all_append, List.all_cons, hWord, h.chars, hBlank]
    rfl

theorem IsPhrase.tight_phrase : Tight (phrase word rest) := by
  have hWord := isWord_of_isIdent h.word
  rw [phrase]
  split
  case isTrue => exact hWord.tight
  case isFalse hne =>
    have hWhole := hWord.tight.append h.tight hWord.nonempty hne [' ']
    rwa [List.append_assoc] at hWhole

theorem IsPhrase.exists_head :
    ∃ c tail, phrase word rest = c :: tail ∧ isIdentChar c = true := by
  cases hChars : word with
  | nil => exact ((isWord_of_isIdent h.word).nonempty hChars).elim
  | cons c tail =>
      have hc : isIdentChar c = true :=
        isIdentChar_of_mem h.word (by rw [hChars]; exact List.mem_cons_self)
      rw [phrase]
      split
      · exact ⟨c, tail, rfl, hc⟩
      · exact ⟨c, _, rfl, hc⟩

/-- The word ends at the first blank. -/
theorem IsPhrase.cutOpcode_eq : cutOpcode (phrase word rest) = (word, rest) := by
  have hNoGap : ∀ c ∈ word, (c == ' ' || c == '\t') = false := by
    intro c hc
    have hSpace : c ≠ ' ' := fun hEq => not_mem_of_isIdent h.word (by decide) (hEq ▸ hc)
    have hTab : c ≠ '\t' := fun hEq => not_mem_of_isIdent h.word (by decide) (hEq ▸ hc)
    simp [hSpace, hTab]
  rw [phrase]
  split
  case isTrue hNil => rw [cutOpcode, cutAt?_none hNoGap, hNil]
  case isFalse =>
    have hCut : cutAt? (fun c => c == ' ' || c == '\t') (word ++ ' ' :: rest) =
        some (word, rest) := cutAt?_append hNoGap rfl
    rw [cutOpcode, hCut]
    simp only [trim_self h.tight]

/-- A line that assigns nothing and is no label. -/
theorem IsPhrase.read_eq : read (phrase word rest) = readAction none (phrase word rest) := by
  obtain ⟨c, tail, hChars, hc⟩ := h.exists_head
  have hColon : (phrase word rest).getLast? ≠ some ':' := fun hLast =>
    not_mem_of_all h.all_chars (by decide) (List.mem_of_getLast? hLast)
  rw [hChars] at hColon ⊢
  rw [read, if_neg hColon]
  · rintro _ hEq
    rw [(List.cons.inj hEq).1] at hc
    exact absurd hc (by decide)

/-- A line that assigns a variable. -/
theorem IsPhrase.read_result {x : String} (hx : isIdent x.toList = true) :
    read ('%' :: x.toList ++ [' ', '=', ' '] ++ phrase word rest) =
      readAction (some x) (phrase word rest) := by
  have hList : '%' :: x.toList ++ [' ', '=', ' '] ++ phrase word rest =
      '%' :: (x.toList ++ [' '] ++ '=' :: ([' '] ++ phrase word rest)) := by
    simp
  have hne : phrase word rest ≠ [] := by
    obtain ⟨c, tail, hChars, _⟩ := h.exists_head
    simp [hChars]
  have hColon : ('%' :: x.toList ++ [' ', '=', ' '] ++ phrase word rest).getLast? ≠
      some ':' := by
    rw [getLast?_append hne]
    exact fun hLast => not_mem_of_all h.all_chars (by decide) (List.mem_of_getLast? hLast)
  have hCut : cutAt? (· == '=') (x.toList ++ [' '] ++ '=' :: ([' '] ++ phrase word rest)) =
      some (x.toList ++ [' '], [' '] ++ phrase word rest) := by
    apply cutAt?_append
    · intro c hc
      have hne : c ≠ '=' := by
        rintro rfl
        rcases List.mem_append.mp hc with hName | hBlank
        · exact not_mem_of_isIdent hx (by decide) hName
        · exact absurd hBlank (by decide)
      simpa using hne
    · rfl
  have hName : trim (x.toList ++ [' ']) = x.toList :=
    trim_back (isWord_of_isIdent hx).tight (by decide)
  have hAction : trim ([' '] ++ phrase word rest) = phrase word rest :=
    trim_front h.tight_phrase (by decide)
  rw [hList] at hColon ⊢
  rw [read, if_neg hColon]
  simp only [hCut, hName, hAction, if_pos hx, String.ofList_toList]

end Phrases

end Statement

namespace CaseTable

theorem eq_of_entries {t u : CaseTable} (h : t.entries = u.entries) : t = u := by
  cases t
  cases u
  cases h
  rfl

/-- A case with a larger value than all others comes last. -/
theorem insertEntry_last {value : Int64} {target : Label} {entries : List (Int64 × Label)}
    (h : ∀ e ∈ entries, e.1 < value) :
    insertEntry value target entries = entries ++ [(value, target)] := by
  induction entries with
  | nil => rfl
  | cons e rest ih =>
      rw [List.forall_mem_cons] at h
      have hNot : ¬ value < e.1 := Int64.lt_asymm h.1
      have hne : value ≠ e.1 := fun hEq => Int64.lt_irrefl (hEq ▸ h.1)
      rw [insertEntry, if_neg hNot, if_neg hne, ih h.2]
      rfl

theorem contains_eq_false {table : CaseTable} {value : Int64}
    (h : ∀ e ∈ table.entries, e.1 < value) : table.contains value = false := by
  rw [contains, List.any_eq_false]
  intro e he
  simpa using fun hEq : e.1 = value => Int64.lt_irrefl (hEq ▸ h e he)

end CaseTable

namespace Statement

theorem readLabel_eq {l : Label} (h : isIdent l.toList = true) : readLabel l.toList = .ok l := by
  rw [readLabel, if_pos h, String.ofList_toList]

/-- Cases are read from left to right and put behind those that were read before. -/
theorem readCases_eq {entries : List (Int64 × Label)}
    (hNames : ∀ e ∈ entries, isIdent e.2.toList = true) {table whole : CaseTable}
    (hWhole : whole.entries = table.entries ++ entries) :
    readCases table (entries.map fun e => (Terminator.caseText e).toList) = .ok whole := by
  induction entries generalizing table with
  | nil =>
      rw [List.append_nil] at hWhole
      rw [CaseTable.eq_of_entries hWhole]
      rfl
  | cons e rest ih =>
      rw [List.forall_mem_cons] at hNames
      obtain ⟨value, target⟩ := e
      have hAscending := whole.ascending
      rw [hWhole, List.pairwise_append] at hAscending
      have hBelow : ∀ x ∈ table.entries, x.1 < value := fun x hx =>
        hAscending.2.2 x hx _ List.mem_cons_self
      obtain ⟨c, digits, hDigits, _, hNumber⟩ := decimal_cases value.toInt
      have hTarget := isWord_of_isIdent hNames.1
      have hText : (Terminator.caseText (value, target)).toList =
          (decimal value.toInt).toList ++ [' '] ++ '=' :: '>' :: ([' '] ++ target.toList) := by
        simp [Terminator.caseText]
      have hLeft : '=' ∉ (decimal value.toInt).toList ++ [' '] := by
        rw [hDigits]
        simpa using hNumber.not_mem (d := '=') (by decide)
      have hRight : '=' ∉ [' '] ++ target.toList := by
        simpa using hTarget.not_mem (d := '=') (by decide)
      have hValue : trim ((decimal value.toInt).toList ++ [' ']) = (decimal value.toInt).toList :=
        trim_back (hDigits ▸ hNumber.tight) (by decide)
      have hLabel : trim ([' '] ++ target.toList) = target.toList :=
        trim_front hTarget.tight (by decide)
      rw [List.map_cons, hText, readCases, splitArrows_append hLeft hRight]
      simp only [hValue, signed?_decimal, CaseTable.contains_eq_false hBelow, hLabel,
        readLabel_eq hNames.1, Bool.false_eq_true, if_false]
      apply ih hNames.2
      show whole.entries = CaseTable.insertEntry value target table.entries ++ rest
      rw [hWhole, CaseTable.insertEntry_last hBelow, List.append_assoc]
      rfl

theorem isItem_caseText {e : Int64 × Label} (h : isIdent e.2.toList = true) :
    IsItem (Terminator.caseText e).toList := by
  obtain ⟨c, digits, hDigits, _, hNumber⟩ := decimal_cases e.1.toInt
  have hTarget := isWord_of_isIdent h
  have hText : (Terminator.caseText e).toList =
      c :: digits ++ [' ', '=', '>', ' '] ++ e.2.toList := by
    simp [Terminator.caseText, hDigits]
  rw [hText]
  constructor
  case nonempty => simp
  case tight => exact hNumber.tight.append hTarget.tight (by simp) hTarget.nonempty _
  case no_comma =>
    have hLeft := hNumber.not_mem (d := ',') (by decide)
    have hRight := hTarget.not_mem (d := ',') (by decide)
    simp only [List.mem_append, not_or]
    exact ⟨⟨hLeft, by decide⟩, hRight⟩

theorem all_caseText {e : Int64 × Label} (h : isIdent e.2.toList = true) :
    (Terminator.caseText e).toList.all isLineChar = true := by
  obtain ⟨c, digits, hDigits, _, hNumber⟩ := decimal_cases e.1.toInt
  have hArrow : " => ".toList.all isLineChar = true := by decide
  rw [Terminator.caseText, String.toList_append, String.toList_append, hDigits, List.all_append,
    List.all_append, hNumber.all_isLineChar, hArrow, (isWord_of_isIdent h).all_isLineChar]
  rfl

section Operations

theorem readTerminator?_eq_none {name : String} (h : name ∉ keywords) :
    readTerminator? name s = none := by
  simp only [keywords, List.mem_cons, List.not_mem_nil, or_false, not_or] at h
  rw [readTerminator?]
  all_goals simp [h]

/-- An opcode that is no keyword starts an operation. -/
theorem exists_phrase_op {name : String} {args : List Atom}
    (hName : isIdent name.toList = true ∧ name ∉ keywords) (hArgs : ∀ a ∈ args, a.Readable) :
    ∃ word rest, IsPhrase word rest ∧
      (if args.isEmpty then name else name ++ " " ++ atomsText args).toList = phrase word rest ∧
      readAction result (phrase word rest) = .ok (.operation ⟨result, .op name, args⟩) := by
  have hPhrase : IsPhrase name.toList (atomsText args).toList :=
    ⟨hName.1, tight_atomsText hArgs, all_atomsText hArgs⟩
  refine ⟨_, _, hPhrase, ?_, ?_⟩
  · simp only [phrase, atomsText_eq_nil hArgs]
    cases args <;> simp
  · have hCall : name ≠ "call" := fun hEq => hName.2 (by simp [hEq, keywords])
    rw [readAction, hPhrase.cutOpcode_eq]
    simp only [String.ofList_toList, readTerminator?_eq_none hName.2, if_neg hCall, readOp,
      if_pos hName.1, readAtoms_text hArgs]
    rfl

theorem exists_phrase_call {callee : String} {args : List Atom}
    (hCallee : isIdent callee.toList = true) (hArgs : ∀ a ∈ args, a.Readable) :
    ∃ word rest, IsPhrase word rest ∧
      ("call @" ++ callee ++ "(" ++ atomsText args ++ ")").toList = phrase word rest ∧
      readAction result (phrase word rest) = .ok (.operation ⟨result, .call callee, args⟩) := by
  have hRest : ['@'] ++ (callee.toList ++ '(' :: (atomsText args).toList) ++ [')'] =
      '@' :: (callee.toList ++ '(' :: ((atomsText args).toList ++ [')'])) := by
    simp
  have hPhrase : IsPhrase "call".toList
      ('@' :: (callee.toList ++ '(' :: ((atomsText args).toList ++ [')']))) := by
    constructor
    case word => decide
    case tight =>
      rw [← hRest]
      exact (tight_singleton rfl).append (tight_singleton rfl) (by simp) (by simp) _
    case chars =>
      have hMarks : isLineChar '@' = true ∧ isLineChar '(' = true ∧ isLineChar ')' = true := by
        decide
      simp only [List.all_cons, List.all_append, List.all_nil, hMarks,
        (isWord_of_isIdent hCallee).all_isLineChar, all_atomsText hArgs, Bool.and_self]
  refine ⟨_, _, hPhrase, by simp [phrase], ?_⟩
  have hAt : after? ['@'] ('@' :: (callee.toList ++ '(' :: ((atomsText args).toList ++ [')']))) =
      some (callee.toList ++ '(' :: ((atomsText args).toList ++ [')'])) := after?_append ['@'] _
  have hBrackets : bracketed? '(' ')' (callee.toList ++ '(' :: ((atomsText args).toList ++ [')'])) =
      some (callee.toList, (atomsText args).toList) :=
    bracketed?_append (not_mem_of_isIdent hCallee (by decide))
  rw [readAction, hPhrase.cutOpcode_eq]
  simp only [String.ofList_toList, readTerminator?, if_true, readCall, hAt, Option.bind_some,
    hBrackets, if_pos hCallee, readAtoms_text hArgs]
  rfl

/-- What is printed of an operation behind its result is a phrase, which reads as the
operation if the result is known. -/
theorem exists_phrase_operation {o : Operation Atom} (h : o.Readable) :
    ∃ word rest, IsPhrase word rest ∧
      o.text.toList = (resultText o.result).toList ++ phrase word rest ∧
      readAction o.result (phrase word rest) = .ok (.operation o) := by
  obtain ⟨result, action, args⟩ := o
  cases action with
  | call callee =>
      obtain ⟨word, rest, hPhrase, hText, hRead⟩ := exists_phrase_call h.action h.args
      refine ⟨word, rest, hPhrase, ?_, hRead⟩
      rw [Operation.text, String.toList_append, hText]
  | op name =>
      obtain ⟨word, rest, hPhrase, hText, hRead⟩ := exists_phrase_op h.action h.args
      refine ⟨word, rest, hPhrase, ?_, hRead⟩
      rw [Operation.text, String.toList_append, hText]

/-- An operation that was printed reads as itself. -/
theorem read_operation {o : Operation Atom} (h : o.Readable) :
    read o.text.toList = .ok (.operation o) := by
  obtain ⟨word, rest, hPhrase, hText, hRead⟩ := exists_phrase_operation h
  rw [hText]
  cases hResult : o.result with
  | none =>
      have hNothing : (resultText none).toList = [] := rfl
      rw [hNothing, List.nil_append, hPhrase.read_eq, ← hRead, hResult]
  | some x =>
      have hFront : (resultText (some x)).toList = '%' :: x.toList ++ [' ', '=', ' '] := by
        simp [resultText, variableText]
      rw [hFront, hPhrase.read_result (h.result x hResult), ← hRead, hResult]

end Operations

section Terminators

/-- The line of a terminator is a phrase that reads as the terminator. -/
def PrintedAs (text : String) (t : Terminator Atom) : Prop :=
  ∃ word rest, IsPhrase word rest ∧ text.toList = phrase word rest ∧
    readTerminator? (String.ofList word) rest = some (.ok t)

theorem printedAs_jump {target : Label} (h : isIdent target.toList = true) :
    PrintedAs ("goto " ++ target) (.jump target) := by
  have hWord := isWord_of_isIdent h
  refine ⟨"goto".toList, target.toList, ⟨by decide, hWord.tight, hWord.all_isLineChar⟩, ?_, ?_⟩
  · simp [phrase, hWord.nonempty]
  · simp only [String.ofList_toList, readTerminator?, readLabel_eq h]
    rfl

variable {scrutinee : Atom} {otherwise : Label}

theorem printedAs_branch {yes : Label} (hValue : scrutinee.Readable)
    (hYes : isIdent yes.toList = true) (hNo : isIdent otherwise.toList = true) :
    PrintedAs ("br " ++ scrutinee.text ++ ", " ++ yes ++ ", " ++ otherwise)
      (.branch scrutinee yes otherwise) := by
  have hWords : ∀ s ∈ [scrutinee.text.toList, yes.toList, otherwise.toList], IsWord s := by
    simp [Atom.isWord_text hValue, isWord_of_isIdent hYes, isWord_of_isIdent hNo]
  have hItems := fun s hs => (hWords s hs).isItem
  refine ⟨"br".toList, [',', ' '].intercalate [scrutinee.text.toList, yes.toList,
    otherwise.toList], ⟨by decide, tight_intercalate hItems, ?_⟩, ?_, ?_⟩
  · exact all_intercalate (by decide) fun s hs => (hWords s hs).all_isLineChar
  · rw [phrase, if_neg (intercalate_ne_nil (by simp) hItems)]
    simp [List.intercalate]
  · simp only [String.ofList_toList, readTerminator?, readBranch, listItems_intercalate hItems,
      readAtom_text hValue, readLabel_eq hYes, readLabel_eq hNo]
    rfl

theorem isPhrase_switch {head inside : List Char} (hHead : Tight head) (hne : head ≠ [])
    (hAll : head.all isLineChar = true) (hInside : inside.all isLineChar = true) :
    IsPhrase "switch".toList (head ++ [' '] ++ '[' :: (inside ++ [']'])) := by
  constructor
  case word => decide
  case tight =>
    have hList : head ++ [' '] ++ '[' :: (inside ++ [']']) =
        head ++ (' ' :: '[' :: inside) ++ [']'] := by
      simp
    rw [hList]
    exact hHead.append (tight_singleton rfl) hne (by simp) _
  case chars =>
    have hMarks : isLineChar ' ' = true ∧ isLineChar '[' = true ∧ isLineChar ']' = true := by
      decide
    simp only [List.all_cons, List.all_append, List.all_nil, hMarks, hAll, hInside, Bool.and_self]

/-- A switch is read part by part. -/
theorem readSwitch_eq {head inside : List Char} {cases : CaseTable} (hBracket : '[' ∉ head)
    (hHead : listItems (head ++ [' ']) = [scrutinee.text.toList, otherwise.toList])
    (hValue : scrutinee.Readable) (hOtherwise : isIdent otherwise.toList = true)
    (hCases : readCases .empty (listItems inside) = .ok cases) :
    readSwitch (head ++ [' '] ++ '[' :: (inside ++ [']'])) =
      .ok (.switch scrutinee cases otherwise) := by
  have hCut : bracketed? '[' ']' (head ++ [' '] ++ '[' :: (inside ++ [']'])) =
      some (head ++ [' '], inside) := bracketed?_append (by simpa using hBracket)
  rw [readSwitch, hCut]
  simp only [hHead, readAtom_text hValue, readLabel_eq hOtherwise, hCases]
  rfl

theorem printedAs_switch {cases : CaseTable} (hValue : scrutinee.Readable)
    (hOtherwise : isIdent otherwise.toList = true)
    (hTargets : ∀ e ∈ cases.entries, isIdent e.2.toList = true) :
    PrintedAs ("switch " ++ scrutinee.text ++ ", " ++ otherwise ++ " [" ++
        ", ".intercalate (cases.entries.map Terminator.caseText) ++ "]")
      (.switch scrutinee cases otherwise) := by
  have hWords : ∀ s ∈ [scrutinee.text.toList, otherwise.toList], IsWord s := by
    simp [Atom.isWord_text hValue, isWord_of_isIdent hOtherwise]
  have hItems := fun s hs => (hWords s hs).isItem
  have hCases : ∀ s ∈ cases.entries.map (fun e => (Terminator.caseText e).toList), IsItem s := by
    intro s hs
    obtain ⟨e, he, rfl⟩ := List.mem_map.mp hs
    exact isItem_caseText (hTargets e he)
  have hHead : '[' ∉ [',', ' '].intercalate [scrutinee.text.toList, otherwise.toList] := by
    have hOthers : ([',', ' '].intercalate [scrutinee.text.toList, otherwise.toList]).all
        (· != '[') = true := by
      apply all_intercalate (by decide)
      intro s hs
      rw [List.all_eq_true]
      intro c hc
      simpa using fun hEq : c = '[' => (hWords s hs).not_mem (by decide) (hEq ▸ hc)
    exact not_mem_of_all hOthers (by decide)
  have hHeadAll : ([',', ' '].intercalate [scrutinee.text.toList, otherwise.toList]).all
      isLineChar = true := all_intercalate (by decide) fun s hs => (hWords s hs).all_isLineChar
  have hCasesAll : ([',', ' '].intercalate
      (cases.entries.map fun e => (Terminator.caseText e).toList)).all isLineChar = true := by
    apply all_intercalate (by decide)
    intro s hs
    obtain ⟨e, he, rfl⟩ := List.mem_map.mp hs
    exact all_caseText (hTargets e he)
  refine ⟨_, _, isPhrase_switch (tight_intercalate hItems)
    (intercalate_ne_nil (by simp) hItems) hHeadAll hCasesAll, ?_, ?_⟩
  · simp [phrase, List.intercalate, String.toList_intercalate, Function.comp_def]
  · rw [String.ofList_toList]
    apply congrArg some
    apply readSwitch_eq hHead (listItems_intercalate_blank hItems) hValue hOtherwise
    rw [listItems_intercalate hCases]
    exact readCases_eq hTargets rfl

theorem printedAs_ret {values : List Atom} (h : ∀ a ∈ values, a.Readable) :
    PrintedAs (Terminator.ret values).text (.ret values) := by
  refine ⟨"ret".toList, (atomsText values).toList,
    ⟨by decide, tight_atomsText h, all_atomsText h⟩, ?_, ?_⟩
  · simp only [phrase, atomsText_eq_nil h]
    cases values <;> simp [Terminator.text]
  · simp only [String.ofList_toList, readTerminator?, readAtoms_text h]
    rfl

theorem printedAs_text {t : Terminator Atom} (h : t.Readable) : PrintedAs t.text t.simplified := by
  cases t with
  | jump target => exact printedAs_jump (Terminator.readable_jump.mp h)
  | ret values => exact printedAs_ret h.uses
  | switch scrutinee cases otherwise =>
      obtain ⟨hValue, hTargets, hOtherwise⟩ := Terminator.readable_switch.mp h
      rw [Terminator.text, Terminator.simplified]
      split
      case h_1 hNil =>
        rw [if_pos hNil]
        exact printedAs_jump hOtherwise
      case h_2 yes hOne =>
        have hEntries : cases.entries = [(1, yes)] := hOne
        have hTable : cases = .singleton 1 yes := CaseTable.eq_of_entries hEntries
        rw [if_neg (by simp [hEntries]), hTable]
        exact printedAs_branch hValue (hTargets (1, yes) (by simp [hEntries])) hOtherwise
      case h_3 hSome _ =>
        rw [if_neg hSome]
        exact printedAs_switch hValue hOtherwise hTargets

theorem read_terminator {t : Terminator Atom} (h : t.Readable) :
    read t.text.toList = .ok (.terminator t.simplified) := by
  obtain ⟨word, rest, hPhrase, hText, hRead⟩ := printedAs_text h
  rw [hText, hPhrase.read_eq, readAction, hPhrase.cutOpcode_eq]
  simp only [hRead, Option.isSome_none, Bool.false_eq_true, if_false]
  rfl

end Terminators

/-- What is printed of a statement reads as the statement. -/
theorem read_text {st : Statement} (h : st.Readable) : read st.text.toList = .ok st.simplified := by
  cases st with
  | operation o => exact read_operation h
  | terminator t => exact read_terminator h
  | label l =>
      have hIdent : isIdent l.toList = true := h
      have hList : (text (.label l)).toList = l.toList ++ [':'] := by
        simp [text]
      rw [hList]
      unfold read
      rw [if_pos (by simp), List.dropLast_concat, readLabel_eq hIdent]
      rfl

/-- A text that fills a line of its own, with neither a comment nor a brace in it. -/
structure IsLine (s : List Char) : Prop where
  nonempty : s ≠ []
  tight : Tight s
  no_feed : '\n' ∉ s
  no_comment : ';' ∉ s
  no_brace : '\x7d' ∉ s

theorem isLine_of_all (hNonempty : s ≠ []) (hTight : Tight s) (h : s.all isLineChar = true) :
    IsLine s :=
  ⟨hNonempty, hTight, not_mem_of_all h (by decide), not_mem_of_all h (by decide),
    not_mem_of_all h (by decide)⟩

theorem isLine_phrase (h : IsPhrase word rest) : IsLine (phrase word rest) := by
  obtain ⟨c, tail, hChars, _⟩ := h.exists_head
  exact isLine_of_all (by simp [hChars]) h.tight_phrase h.all_chars

theorem isLine_operation {o : Operation Atom} (h : o.Readable) : IsLine o.text.toList := by
  obtain ⟨word, rest, hPhrase, hText, _⟩ := exists_phrase_operation h
  rw [hText]
  cases hResult : o.result with
  | none => exact isLine_phrase hPhrase
  | some x =>
      have hFront : (resultText (some x)).toList = '%' :: x.toList ++ [' ', '=', ' '] := by
        simp [resultText, variableText]
      have hWord := isWord_variable (h.result x hResult)
      have hMarks : [' ', '=', ' '].all isLineChar = true := by decide
      rw [hFront]
      apply isLine_of_all (by simp)
      · exact hWord.tight.append hPhrase.tight_phrase (by simp) (isLine_phrase hPhrase).nonempty _
      · rw [List.all_append, List.all_append, hWord.all_isLineChar, hMarks, hPhrase.all_chars]
        rfl

theorem isLine_text {st : Statement} (h : st.Readable) : IsLine st.text.toList := by
  cases st with
  | operation o => exact isLine_operation h
  | terminator t =>
      obtain ⟨word, rest, hPhrase, hText, _⟩ := printedAs_text h
      have hList : (text (.terminator t)).toList = phrase word rest := hText
      rw [hList]
      exact isLine_phrase hPhrase
  | label l =>
      have hIdent : isIdent l.toList = true := h
      have hWord := isWord_of_isIdent hIdent
      have hList : (text (.label l)).toList = l.toList ++ [] ++ [':'] := by
        simp [text]
      rw [hList]
      constructor
      case nonempty => simp
      case tight => exact hWord.tight.append (tight_singleton rfl) hWord.nonempty (by simp) _
      case no_feed => simpa using hWord.not_mem (d := '\n') (by decide)
      case no_comment => simpa using hWord.not_mem (d := ';') (by decide)
      case no_brace => simpa using hWord.not_mem (d := '\x7d') (by decide)

/-- A line is found again behind blanks. -/
theorem IsLine.stripComment_eq (h : IsLine s) {front : List Char} (hFront : ∀ c ∈ front, c = ' ') :
    stripComment (front ++ s) = s := by
  have hNoComment : ∀ c ∈ front ++ s, (c != ';') = true := by
    intro c hc
    have hne : c ≠ ';' := by
      rintro rfl
      rcases List.mem_append.mp hc with hBlank | hText
      · exact absurd (hFront _ hBlank) (by decide)
      · exact h.no_comment hText
    simpa using hne
  have hTake : (front ++ s).takeWhile (· != ';') = front ++ s := by
    rw [← List.append_nil (front ++ s), List.takeWhile_append_of_pos hNoComment]
    simp
  rw [stripComment, hTake]
  apply trim_front h.tight
  rw [List.all_eq_true]
  exact fun c hc => hFront c hc ▸ rfl

end Statement

end RefElision
