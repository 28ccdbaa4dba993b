import RefElision.Proofs.Text.Numerals
import RefElision.Proofs.Text.Splitting
import RefElision.Text.Ident

/-! Which characters names and numbers are made of. None of them is a blank or one of the
marks between which names and numbers stand. -/
namespace RefElision.Text

variable {s : List Char} {c d : Char}

theorem isBlank_of_isIdentChar (h : isIdentChar c = true) : isBlank c = false := by
  have hRange : 46 ≤ c.toNat ∧ c.toNat ≤ 122 := by
    change ((((decide (c.val ≥ 'A'.val ∧ c.val ≤ 'Z'.val) ||
      (decide (c.val ≥ 'a'.val) && decide (c.val ≤ 'z'.val))) ||
      (decide (c.val ≥ '0'.val) && decide (c.val ≤ '9'.val))) || c == '_') || c == '.') = true at h
    simp only [Bool.or_eq_true, Bool.and_eq_true, decide_eq_true_eq, beq_iff_eq, ge_iff_le,
      UInt32.le_iff_toNat_le] at h
    rcases h with (((hUpper | hLower) | hDigit) | rfl) | rfl
    · have hBounds : 65 ≤ c.toNat ∧ c.toNat ≤ 90 := hUpper
      omega
    · have hBounds : 97 ≤ c.toNat ∧ c.toNat ≤ 122 := hLower
      omega
    · have hBounds : 48 ≤ c.toNat ∧ c.toNat ≤ 57 := hDigit
      omega
    · decide
    · decide
  simp [isBlank]
  omega

/-- Characters of names, numbers and the marks in front of them. -/
def isWordChar (c : Char) : Bool :=
  isIdentChar c || c == '%' || c == '-'

theorem isBlank_of_isWordChar (h : isWordChar c = true) : isBlank c = false := by
  simp only [isWordChar, Bool.or_eq_true, beq_iff_eq] at h
  rcases h with (hIdent | rfl) | rfl
  · exact isBlank_of_isIdentChar hIdent
  · decide
  · decide

theorem isWordChar_of_isIdentChar (h : isIdentChar c = true) : isWordChar c = true := by
  simp [isWordChar, h]

/-- A text of such characters. -/
structure IsWord (s : List Char) : Prop where
  nonempty : s ≠ []
  chars : ∀ c ∈ s, isWordChar c = true

namespace IsWord

theorem not_mem (h : IsWord s) (hd : isWordChar d = false) : d ∉ s := by
  intro hMem
  rw [h.chars d hMem] at hd
  cases hd

theorem tight (h : IsWord s) : Tight s where
  first := fun c hc => isBlank_of_isWordChar (h.chars c (List.mem_of_head? hc))
  last := fun c hc => isBlank_of_isWordChar (h.chars c (List.mem_of_getLast? hc))

theorem isItem (h : IsWord s) : IsItem s :=
  ⟨h.nonempty, h.tight, h.not_mem (by decide)⟩

end IsWord

theorem isWord_of_isIdent (h : isIdent s = true) : IsWord s := by
  simp only [isIdent, Bool.and_eq_true, Bool.not_eq_true', List.isEmpty_eq_false_iff,
    List.all_eq_true] at h
  exact ⟨h.1, fun c hc => isWordChar_of_isIdentChar (h.2 c hc)⟩

theorem isIdentChar_of_mem (h : isIdent s = true) (hc : c ∈ s) : isIdentChar c = true := by
  simp only [isIdent, Bool.and_eq_true, List.all_eq_true] at h
  exact h.2 c hc

/-- A character that no name has. -/
theorem not_mem_of_isIdent (h : isIdent s = true) (hd : isIdentChar d = false) : d ∉ s := by
  intro hMem
  rw [isIdentChar_of_mem h hMem] at hd
  cases hd

theorem isWord_variable (h : isIdent s = true) : IsWord ('%' :: s) where
  nonempty := by simp
  chars := List.forall_mem_cons.mpr ⟨by decide, (isWord_of_isIdent h).chars⟩

theorem isWordChar_of_isDigit (h : c.isDigit = true) : isWordChar c = true := by
  simp [isWordChar, isIdentChar, Char.isAlphanum, h]

/-- How a printed number starts, and that it is one word. -/
theorem decimal_cases (i : Int) :
    ∃ c rest, (decimal i).toList = c :: rest ∧ (c.isDigit = true ∨ c = '-') ∧
      IsWord (c :: rest) := by
  have hDigits : ∀ n, ∀ c ∈ Nat.toDigits 10 n, isWordChar c = true := fun n c hc =>
    isWordChar_of_isDigit (isDigit_of_mem_toDigits hc)
  cases i with
  | ofNat n =>
      have hList : (decimal (Int.ofNat n)).toList = Nat.toDigits 10 n := String.toList_ofList
      cases hCons : Nat.toDigits 10 n with
      | nil => exact (Nat.toDigits_ne_nil hCons).elim
      | cons c rest =>
          refine ⟨c, rest, hList.trans hCons, .inl ?_, by simp, ?_⟩
          · exact isDigit_of_mem_toDigits (n := n) (by rw [hCons]; simp)
          · exact hCons ▸ hDigits n
  | negSucc n =>
      refine ⟨'-', Nat.toDigits 10 (n + 1), by simp [decimal, decimalNat], .inr rfl, by simp, ?_⟩
      exact List.forall_mem_cons.mpr ⟨by decide, hDigits (n + 1)⟩

/-- Characters of the lines of a body, labels aside. -/
def isLineChar (c : Char) : Bool :=
  isWordChar c || [' ', ',', '@', '(', ')', '[', ']', '=', '>'].contains c

theorem IsWord.all_isLineChar (h : IsWord s) : s.all isLineChar = true := by
  rw [List.all_eq_true]
  intro c hc
  simp [isLineChar, h.chars c hc]

theorem not_mem_of_all {p : Char → Bool} (h : s.all p = true) (hd : p d = false) : d ∉ s := by
  intro hMem
  rw [List.all_eq_true.mp h d hMem] at hd
  cases hd

/-- What all characters of the pieces and of the separator have in common. -/
theorem all_intercalate {p : Char → Bool} {sep : List Char} {pieces : List (List Char)}
    (hSep : sep.all p = true) (h : ∀ s ∈ pieces, s.all p = true) :
    (sep.intercalate pieces).all p = true := by
  induction pieces with
  | nil => rfl
  | cons s rest ih =>
      rw [List.forall_mem_cons] at h
      cases rest with
      | nil =>
          rw [List.intercalate_singleton]
          exact h.1
      | cons t rest => simp only [List.intercalate_cons_cons, List.all_append, h.1, hSep, ih h.2,
          Bool.and_self]

end RefElision.Text
