import RefElision.Text.Numeral

/-! A number that is printed reads as itself. Decimal digits have no leading zero, so they
are never taken for octal ones, and the least number of sixty-four bits fits behind a
minus sign. -/
namespace RefElision.Text

theorem digitValue?_of_isDigit {c : Char} (h : c.isDigit = true) :
    digitValue? c = some (c.toNat - '0'.toNat) := by
  rw [digitValue?, if_pos h]

theorem digitValue_lt {c : Char} (h : c.isDigit = true) : c.toNat - '0'.toNat < 10 := by
  simp only [Char.isDigit, Bool.and_eq_true, decide_eq_true_eq, ge_iff_le,
    UInt32.le_iff_toNat_le] at h
  have hHigh : c.toNat ≤ 57 := h.2
  have hZero : '0'.toNat = 48 := rfl
  omega

/-- Digits are read one by one. -/
theorem readDigits?_digits {cs : List Char} (h : ∀ c ∈ cs, c.isDigit = true) {before : Preceding}
    (hBefore : before ≠ .underscore) (acc : Nat) :
    readDigits? 10 before acc cs = some (Nat.ofDigitChars 10 cs acc) := by
  induction cs generalizing before acc with
  | nil =>
      cases before with
      | nothing => rfl
      | digit => rfl
      | underscore => exact (hBefore rfl).elim
  | cons c rest ih =>
      rw [List.forall_mem_cons] at h
      have hne : c ≠ '_' := by
        rintro rfl
        exact absurd h.1 (by decide)
      have hValue := digitValue_lt h.1
      rw [readDigits?]
      · rw [if_neg hne, digitValue?_of_isDigit h.1]
        simp only [hValue, if_true]
        rw [ih h.2 (by decide), Nat.ofDigitChars_cons, Nat.mul_comm]

theorem head_toDigits_ne_zero {n : Nat} (hn : 0 < n) : (Nat.toDigits 10 n).head? ≠ some '0' := by
  induction n using Nat.strongRecOn with
  | ind n ih =>
      rw [Nat.toDigits_eq_if (by decide)]
      split
      case isTrue =>
        intro hHead
        have hDigit : n.digitChar = '0' := Option.some.inj hHead
        rw [Nat.digitChar_eq_zero] at hDigit
        omega
      case isFalse =>
        have hSmaller : 0 < n / 10 := by omega
        have hTop := ih (n / 10) (by omega) hSmaller
        cases hDigits : Nat.toDigits 10 (n / 10) with
        | nil => exact (Nat.toDigits_ne_nil hDigits).elim
        | cons c rest =>
            rw [hDigits] at hTop
            exact hTop

theorem natural?_of_head {c : Char} (hc : c ≠ '0') (rest : List Char) :
    natural? (c :: rest) = readDigits? 10 .nothing 0 (c :: rest) := by
  rw [natural?]
  · simp
  · intro _ _ _ hEq
    exact (hc (List.cons.inj hEq).1).elim
  · intro _ hEq
    exact (hc (List.cons.inj hEq).1).elim

theorem isDigit_of_mem_toDigits {n : Nat} {c : Char} (h : c ∈ Nat.toDigits 10 n) :
    c.isDigit = true :=
  Nat.isDigit_of_mem_toDigits (by decide) (by decide) h

theorem natural?_toDigits (n : Nat) : natural? (Nat.toDigits 10 n) = some n := by
  cases n with
  | zero => rfl
  | succ n =>
      cases hDigits : Nat.toDigits 10 (n + 1) with
      | nil => exact (Nat.toDigits_ne_nil hDigits).elim
      | cons c rest =>
          have hHead := head_toDigits_ne_zero (Nat.succ_pos n)
          rw [hDigits] at hHead
          have hAll : ∀ x ∈ c :: rest, x.isDigit = true :=
            fun x hx => isDigit_of_mem_toDigits (hDigits ▸ hx)
          rw [natural?_of_head (fun hEq => hHead (by rw [hEq]; rfl)),
            readDigits?_digits hAll (by decide), ← hDigits, Nat.ofDigitChars_ten_toDigits]

theorem signed?_of_digit {c : Char} (hc : c.isDigit = true) (rest : List Char) :
    signed? (c :: rest) = nonnegative? (c :: rest) := by
  rw [signed?]
  · rintro _ hEq
    rw [(List.cons.inj hEq).1] at hc
    exact absurd hc (by decide)
  · rintro _ hEq
    rw [(List.cons.inj hEq).1] at hc
    exact absurd hc (by decide)

/-- Every number of sixty-four bits reads as itself. -/
theorem signed?_decimal (n : Int64) : signed? (decimal n.toInt).toList = some n := by
  have hOfInt : Int64.ofInt n.toInt = n := Int64.ofInt_toInt n
  have hHigh := n.toInt_lt
  have hLow := n.le_toInt
  cases hInt : n.toInt with
  | ofNat k =>
      rw [hInt] at hOfInt hHigh
      have hList : (decimal (Int.ofNat k)).toList = Nat.toDigits 10 k := String.toList_ofList
      have hBound : k < 0x8000000000000000 := by
        have hCast : (k : Int) < 2 ^ 63 := hHigh
        omega
      rw [hList]
      cases hDigits : Nat.toDigits 10 k with
      | nil => exact (Nat.toDigits_ne_nil hDigits).elim
      | cons c rest =>
          have hc : c.isDigit = true := isDigit_of_mem_toDigits (n := k) (by rw [hDigits]; simp)
          rw [signed?_of_digit hc, ← hDigits, nonnegative?, natural?_toDigits]
          simp only [hBound, if_true]
          exact congrArg some hOfInt
  | negSucc k =>
      rw [hInt] at hOfInt hLow
      have hList : (decimal (Int.negSucc k)).toList = '-' :: Nat.toDigits 10 (k + 1) := by
        simp [decimal, decimalNat]
      have hBound : k + 1 ≤ 0x8000000000000000 := by omega
      rw [hList, signed?, natural?_toDigits]
      simp only [hBound, if_true]
      exact congrArg some hOfInt

end RefElision.Text
