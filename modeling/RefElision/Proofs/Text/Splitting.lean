import RefElision.Text.Split

/-! Putting pieces together and cutting them apart again. A piece that neither starts nor
ends with a blank is found again between blanks, and pieces without the separator are
found again between separators. -/
namespace RefElision.Text

variable {s t front back : List Char} {sep c : Char}

/-- There is no blank at either end. -/
structure Tight (s : List Char) : Prop where
  first : ∀ c, s.head? = some c → isBlank c = false
  last : ∀ c, s.getLast? = some c → isBlank c = false

theorem head?_append (hs : s ≠ []) (t : List Char) : (s ++ t).head? = s.head? := by
  cases s with
  | nil => exact (hs rfl).elim
  | cons c rest => rfl

theorem getLast?_append (ht : t ≠ []) (s : List Char) : (s ++ t).getLast? = t.getLast? := by
  rw [List.getLast?_append, List.getLast?_eq_some_getLast ht]
  rfl

/-- What stands between two tight texts does not matter. -/
theorem Tight.append (hs : Tight s) (ht : Tight t) (hsNe : s ≠ []) (htNe : t ≠ [])
    (middle : List Char) : Tight (s ++ middle ++ t) := by
  constructor
  case first =>
    intro c hc
    apply hs.first c
    rwa [List.append_assoc, head?_append hsNe] at hc
  case last =>
    intro c hc
    apply ht.last c
    rwa [getLast?_append htNe] at hc

theorem tight_singleton (h : isBlank c = false) : Tight [c] where
  first := fun _ hc => Option.some.inj hc ▸ h
  last := fun _ hc => Option.some.inj hc ▸ h

theorem trimStart_eq (hFront : front.all isBlank = true)
    (hs : ∀ c, s.head? = some c → isBlank c = false) : trimStart (front ++ s) = s := by
  rw [trimStart, List.dropWhile_append_of_pos (List.all_eq_true.mp hFront)]
  cases s with
  | nil => rfl
  | cons c rest => rw [List.dropWhile_cons_of_neg (by simp [hs c rfl])]

theorem trimEnd_eq (hBack : back.all isBlank = true)
    (hs : ∀ c, s.getLast? = some c → isBlank c = false) : trimEnd (s ++ back) = s := by
  have hReversed : trimStart (back.reverse ++ s.reverse) = s.reverse := by
    apply trimStart_eq
    · rwa [List.all_reverse]
    · rwa [List.head?_reverse]
  rw [trimEnd, List.reverse_append]
  exact (congrArg List.reverse hReversed).trans (List.reverse_reverse s)

/-- Blanks around a tight text are trimmed. -/
theorem trim_eq (hs : Tight s) (hFront : front.all isBlank = true)
    (hBack : back.all isBlank = true) : trim (front ++ s ++ back) = s := by
  by_cases hNil : s = []
  · subst hNil
    have hAll : (front ++ back).all isBlank = true := by
      rw [List.all_append, hFront, hBack]
      rfl
    have hStart : trimStart (front ++ back ++ []) = [] := trimStart_eq hAll (by simp)
    rw [List.append_nil] at hStart
    rw [trim, List.append_nil, hStart]
    rfl
  · have hStart : trimStart (front ++ (s ++ back)) = s ++ back := by
      apply trimStart_eq hFront
      rw [head?_append hNil]
      exact hs.first
    rw [trim, List.append_assoc, hStart]
    exact trimEnd_eq hBack hs.last

theorem trim_front (hs : Tight s) (hFront : front.all isBlank = true) :
    trim (front ++ s) = s := by
  have hTrim : trim (front ++ s ++ []) = s := trim_eq hs hFront rfl
  rwa [List.append_nil] at hTrim

theorem trim_back (hs : Tight s) (hBack : back.all isBlank = true) : trim (s ++ back) = s := by
  have hTrim : trim ([] ++ s ++ back) = s := trim_eq hs rfl hBack
  rwa [List.nil_append] at hTrim

theorem trim_self (hs : Tight s) : trim s = s := by
  have hTrim : trim ([] ++ s) = s := trim_front hs rfl
  rwa [List.nil_append] at hTrim

section SplitOn

theorem splitOn_cons (sep c : Char) (s : List Char) :
    splitOn sep (c :: s) = if c = sep then [] :: splitOn sep s else consFirst c (splitOn sep s) :=
  rfl

/-- A text without the separator is one piece. -/
theorem splitOn_of_not_mem (h : sep ∉ s) : splitOn sep s = [s] := by
  induction s with
  | nil => rfl
  | cons c rest ih =>
      rw [List.mem_cons, not_or] at h
      rw [splitOn_cons, if_neg (Ne.symm h.1), ih h.2]
      rfl

/-- The first piece runs up to the first separator. -/
theorem splitOn_append (h : sep ∉ s) : splitOn sep (s ++ sep :: t) = s :: splitOn sep t := by
  induction s with
  | nil => simp [splitOn_cons]
  | cons c rest ih =>
      rw [List.mem_cons, not_or] at h
      rw [List.cons_append, splitOn_cons, if_neg (Ne.symm h.1), ih h.2]
      rfl

/-- Pieces without the separator are found again in front of whatever follows them. -/
theorem splitOn_intercalate {pieces : List (List Char)} (hne : pieces ≠ [])
    (h : ∀ s ∈ pieces, sep ∉ s) (t : List Char) :
    splitOn sep ([sep].intercalate pieces ++ sep :: t) = pieces ++ splitOn sep t := by
  induction pieces with
  | nil => exact (hne rfl).elim
  | cons s rest ih =>
      rw [List.forall_mem_cons] at h
      cases rest with
      | nil => rw [List.intercalate_singleton, splitOn_append h.1, List.singleton_append]
      | cons u rest =>
          rw [List.intercalate_cons_cons, List.append_assoc, List.append_assoc,
            List.singleton_append, splitOn_append h.1, ih (by simp) h.2]
          rfl

/-- Pieces may be put together in groups first. -/
theorem splitOn_groups {groups : List (List (List Char))} (hne : groups ≠ [])
    (h : ∀ pieces ∈ groups, pieces ≠ [] ∧ ∀ s ∈ pieces, sep ∉ s) (t : List Char) :
    splitOn sep ([sep].intercalate (groups.map [sep].intercalate) ++ sep :: t) =
      groups.flatten ++ splitOn sep t := by
  induction groups with
  | nil => exact (hne rfl).elim
  | cons pieces rest ih =>
      rw [List.forall_mem_cons] at h
      cases rest with
      | nil =>
          rw [List.map_singleton, List.intercalate_singleton, splitOn_intercalate h.1.1 h.1.2]
          simp
      | cons others rest =>
          rw [List.map_cons, List.map_cons, List.intercalate_cons_cons, ← List.map_cons,
            List.append_assoc, List.append_assoc, List.singleton_append,
            splitOn_intercalate h.1.1 h.1.2, ih (by simp) h.2]
          simp

end SplitOn

section ListItems

/-- An item that can stand in a list. -/
structure IsItem (s : List Char) : Prop where
  nonempty : s ≠ []
  tight : Tight s
  no_comma : ',' ∉ s

theorem intercalate_ne_nil {items : List (List Char)} (hne : items ≠ [])
    (h : ∀ s ∈ items, IsItem s) : [',', ' '].intercalate items ≠ [] := by
  cases items with
  | nil => exact (hne rfl).elim
  | cons s rest =>
      have hs : s ≠ [] := (h s List.mem_cons_self).nonempty
      cases rest with
      | nil => rwa [List.intercalate_singleton]
      | cons t rest =>
          rw [List.intercalate_cons_cons]
          simp [hs]

theorem tight_intercalate {items : List (List Char)} (h : ∀ s ∈ items, IsItem s) :
    Tight ([',', ' '].intercalate items) := by
  induction items with
  | nil => exact ⟨by simp, by simp⟩
  | cons s rest ih =>
      rw [List.forall_mem_cons] at h
      cases rest with
      | nil =>
          rw [List.intercalate_singleton]
          exact h.1.tight
      | cons t rest =>
          rw [List.intercalate_cons_cons]
          exact h.1.tight.append (ih h.2) h.1.nonempty (intercalate_ne_nil (by simp) h.2) _

/-- The pieces of a row of items, blanks in front of it included. -/
theorem map_trim_splitOn {items : List (List Char)} (hne : items ≠ [])
    (h : ∀ s ∈ items, IsItem s) (hFront : front.all isBlank = true) :
    (splitOn ',' (front ++ [',', ' '].intercalate items)).map trim = items := by
  induction items generalizing front with
  | nil => exact (hne rfl).elim
  | cons s rest ih =>
      rw [List.forall_mem_cons] at h
      have hTrim : trim (front ++ s) = s := trim_front h.1.tight hFront
      have hComma : ',' ∉ front := fun hc => absurd (List.all_eq_true.mp hFront _ hc) (by decide)
      have hFree : ',' ∉ front ++ s := by simp [hComma, h.1.no_comma]
      cases rest with
      | nil => rw [List.intercalate_singleton, splitOn_of_not_mem hFree, List.map_singleton, hTrim]
      | cons t rest =>
          have hSplit : front ++ [',', ' '].intercalate (s :: t :: rest) =
              (front ++ s) ++ ',' :: ([' '] ++ [',', ' '].intercalate (t :: rest)) := by
            rw [List.intercalate_cons_cons]
            simp
          rw [hSplit, splitOn_append hFree, List.map_cons, hTrim,
            ih (by simp) h.2 (by decide)]

/-- The items of a row are found again. -/
theorem listItems_intercalate {items : List (List Char)} (h : ∀ s ∈ items, IsItem s) :
    listItems ([',', ' '].intercalate items) = items := by
  by_cases hNil : items = []
  · subst hNil
    rfl
  · rw [listItems, trim_self (tight_intercalate h), if_neg (intercalate_ne_nil hNil h)]
    have hPieces : (splitOn ',' ([] ++ [',', ' '].intercalate items)).map trim = items :=
      map_trim_splitOn hNil h rfl
    exact hPieces

/-- A row of items may be followed by a blank. -/
theorem listItems_intercalate_blank {items : List (List Char)} (h : ∀ s ∈ items, IsItem s) :
    listItems ([',', ' '].intercalate items ++ [' ']) = items := by
  have hTrim : trim ([',', ' '].intercalate items ++ [' ']) = [',', ' '].intercalate items :=
    trim_back (tight_intercalate h) (by decide)
  rw [listItems, hTrim, ← trim_self (tight_intercalate h)]
  have hItems := listItems_intercalate h
  rwa [listItems] at hItems

end ListItems

section Cut

variable {p : Char → Bool}

/-- The first character with the property is found again. -/
theorem cutAt?_append (h : ∀ c ∈ s, p c = false) (hc : p c = true) :
    cutAt? p (s ++ c :: t) = some (s, t) := by
  have hSkip : ∀ x ∈ s, (!p x) = true := fun x hx => by rw [h x hx]; rfl
  rw [cutAt?, List.dropWhile_append_of_pos hSkip, List.takeWhile_append_of_pos hSkip]
  simp [hc]

theorem cutAt?_none (h : ∀ c ∈ s, p c = false) : cutAt? p s = none := by
  have hNil : s.dropWhile (fun c => !p c) = [] := by
    have hSkip : ∀ x ∈ s, (!p x) = true := fun x hx => by rw [h x hx]; rfl
    have hAll : (s ++ []).dropWhile (fun c => !p c) = [] := List.dropWhile_append_of_pos hSkip
    rwa [List.append_nil] at hAll
  rw [cutAt?, hNil]

/-- What stands in front of the bracket and inside of it is found again. -/
theorem bracketed?_append {opening closing : Char} {head inside : List Char}
    (h : opening ∉ head) :
    bracketed? opening closing (head ++ opening :: (inside ++ [closing])) = some (head, inside) := by
  have hCut : cutAt? (· == opening) (head ++ opening :: (inside ++ [closing])) =
      some (head, inside ++ [closing]) := by
    apply cutAt?_append
    · intro c hc
      simpa using fun hEq : c = opening => h (hEq ▸ hc)
    · simp
  simp [bracketed?, hCut]

theorem after?_append (start s : List Char) : after? start (start ++ s) = some s := by
  induction start with
  | nil => rfl
  | cons c rest ih => simpa [after?] using ih

theorem splitArrows_of_not_mem (h : '=' ∉ s) : splitArrows s = [s] := by
  induction s with
  | nil => rfl
  | cons c rest ih =>
      rw [List.mem_cons, not_or] at h
      rw [splitArrows, ih h.2]
      · rfl
      · rintro _ rfl
        exact (h.1 rfl).elim

/-- What stands on the two sides of an arrow is found again. -/
theorem splitArrows_append (hs : '=' ∉ s) (ht : '=' ∉ t) :
    splitArrows (s ++ '=' :: '>' :: t) = [s, t] := by
  induction s with
  | nil => simp [splitArrows, splitArrows_of_not_mem ht]
  | cons c rest ih =>
      rw [List.mem_cons, not_or] at hs
      rw [List.cons_append, splitArrows, ih hs.2]
      · rfl
      · rintro _ rfl
        exact (hs.1 rfl).elim

end Cut

end RefElision.Text
