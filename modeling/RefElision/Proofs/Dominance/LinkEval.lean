import RefElision.Dominance.LinkForest
import RefElision.Proofs.Dominance.DepthFirst

/-! The linked forest answers as if its paths were never compressed. The vertices from
some number on are linked to their parents, and an answer is a vertex with the least
semidominator among the linked ones on the branch. -/
namespace RefElision

theorem getD_setIfInBounds {α : Type} (xs : Array α) {i : Nat} (hi : i < xs.size) (x d : α)
    (j : Nat) : (xs.setIfInBounds i x).getD j d = if i = j then x else xs.getD j d := by
  rw [Array.getD_eq_getD_getElem?, Array.getElem?_setIfInBounds]
  by_cases hEq : i = j
  · simp [hEq, hEq ▸ hi]
  · rw [if_neg hEq, if_neg hEq, Array.getD_eq_getD_getElem?]

namespace LinkForest

section Access

variable (f : LinkForest) (v w a s : Nat)

@[simp] theorem semiOf_link : (f.link a v).semiOf w = f.semiOf w := rfl

@[simp] theorem bestOf_link : (f.link a v).bestOf w = f.bestOf w := rfl

theorem ancestorOf_link (hv : v < f.ancestor.size) :
    (f.link a v).ancestorOf w = if v = w then some a else f.ancestorOf w :=
  getD_setIfInBounds _ hv _ _ _

@[simp] theorem bestOf_lower : (f.lower v s).bestOf w = f.bestOf w := rfl

@[simp] theorem ancestorOf_lower : (f.lower v s).ancestorOf w = f.ancestorOf w := rfl

theorem semiOf_lower (hv : v < f.semi.size) :
    (f.lower v s).semiOf w = if v = w then min (f.semiOf v) s else f.semiOf w :=
  getD_setIfInBounds _ hv _ _ _

@[simp] theorem semiOf_shortcut : (f.shortcut v a).semiOf w = f.semiOf w := rfl

theorem ancestorOf_shortcut (hv : v < f.ancestor.size) :
    (f.shortcut v a).ancestorOf w = if v = w then f.ancestorOf a else f.ancestorOf w :=
  getD_setIfInBounds _ hv _ _ _

theorem bestOf_shortcut (hv : v < f.best.size) :
    (f.shortcut v a).bestOf w =
      if v = w ∧ f.semiOf (f.bestOf a) < f.semiOf (f.bestOf v) then f.bestOf a
      else f.bestOf w := by
  by_cases hLess : f.semiOf (f.bestOf a) < f.semiOf (f.bestOf v)
  · have hBest : (f.shortcut v a).best = f.best.setIfInBounds v (f.bestOf a) := if_pos hLess
    rw [bestOf, hBest, getD_setIfInBounds _ hv]
    simp only [hLess, and_true]
    rfl
  · have hBest : (f.shortcut v a).best = f.best := if_neg hLess
    rw [bestOf, hBest, if_neg (fun h => hLess h.2), bestOf]

end Access

variable {size : Nat} {succ : Nat → List Nat} {parent : Nat → Nat} {first v a : Nat}
  {f : LinkForest}

/-- The compressed edge of `v` leads to `a` and stands for the branch between them, which
is linked. The best vertex is one with the least semidominator on that branch. -/
structure Spanned (parent : Nat → Nat) (first : Nat) (f : LinkForest) (v a : Nat) : Prop where
  ancestor : f.ancestorOf v = some a
  less : a < v
  above : Ancestor parent a v
  linked : ∀ x, Ancestor parent x v → a < x → first ≤ x
  best_on : Ancestor parent (f.bestOf v) v
  best_below : a < f.bestOf v
  best_least : ∀ x, Ancestor parent x v → a < x → f.semiOf (f.bestOf v) ≤ f.semiOf x

/-- The vertices from `first` on are linked, those before are not. -/
structure Linked (parent : Nat → Nat) (size first : Nat) (f : LinkForest) : Prop where
  semi_size : f.semi.size = size
  best_size : f.best.size = size
  ancestor_size : f.ancestor.size = size
  unlinked : ∀ v, v < first → v < size → f.ancestorOf v = none ∧ f.bestOf v = v
  spanned : ∀ v, first ≤ v → v < size → ∃ a, Spanned parent first f v a

/-- Only a linked vertex has an ancestor. -/
theorem Linked.first_le (h : Linked parent size first f) (hv : v < size)
    (hAncestor : (f.ancestorOf v).isSome = true) : first ≤ v := by
  apply Nat.le_of_not_lt
  intro hLess
  rw [(h.unlinked v hLess hv).1] at hAncestor
  cases hAncestor

theorem Linked.spanned_of_ancestor (h : Linked parent size first f) (hv : v < size)
    (hAncestor : f.ancestorOf v = some a) : Spanned parent first f v a := by
  obtain ⟨b, hSpanned⟩ := h.spanned v (h.first_le hv (by rw [hAncestor]; rfl)) hv
  obtain rfl := Option.some.inj (hSpanned.ancestor.symm.trans hAncestor)
  exact hSpanned

theorem linked_unlinked (parent : Nat → Nat) (size : Nat) :
    Linked parent size size (unlinked size) where
  semi_size := by simp [LinkForest.unlinked]
  best_size := by simp [LinkForest.unlinked]
  ancestor_size := by simp [LinkForest.unlinked]
  unlinked v hv _ := by
    simp [LinkForest.unlinked, ancestorOf, bestOf, Array.getD_eq_getD_getElem?, hv]
  spanned v hFirst hv := by omega

theorem semiOf_unlinked (hv : v < size) : (unlinked size).semiOf v = v := by
  simp [LinkForest.unlinked, semiOf, Array.getD_eq_getD_getElem?, hv]

/-- Only vertices that are not linked yet have their semidominators lowered. -/
theorem Linked.lower (h : Linked parent size first f) {s : Nat} (hFirst : v < first)
    (hv : v < size) : Linked parent size first (f.lower v s) where
  semi_size := by simpa [LinkForest.lower] using h.semi_size
  best_size := h.best_size
  ancestor_size := h.ancestor_size
  unlinked := h.unlinked
  spanned w hw hSize := by
    obtain ⟨a, hSpanned⟩ := h.spanned w hw hSize
    refine ⟨a, { hSpanned with best_least := fun x hx hax => ?_ }⟩
    have hBest := hSpanned.linked _ hSpanned.best_on hSpanned.best_below
    have hLinked := hSpanned.linked x hx hax
    rw [bestOf_lower, semiOf_lower _ _ _ _ (h.semi_size.symm ▸ hv),
      semiOf_lower _ _ _ _ (h.semi_size.symm ▸ hv), if_neg (by omega), if_neg (by omega)]
    exact hSpanned.best_least x hx hax

/-- Linking the last vertex that is not linked to its parent. -/
theorem Linked.link (hDepth : DepthFirst size succ parent) {i : Nat}
    (h : Linked parent size (i + 1) f) (hi : 0 < i) (hSize : i < size) :
    Linked parent size i (f.link (parent i) i) where
  semi_size := h.semi_size
  best_size := h.best_size
  ancestor_size := by simpa [LinkForest.link] using h.ancestor_size
  unlinked w hw hwSize := by
    rw [ancestorOf_link _ _ _ _ (h.ancestor_size.symm ▸ hSize), if_neg (by omega)]
    exact h.unlinked w (by omega) hwSize
  spanned w hw hwSize := by
    have hAncestor := ancestorOf_link f i w (parent i) (h.ancestor_size.symm ▸ hSize)
    rcases Nat.eq_or_lt_of_le hw with rfl | hLater
    · have hOnly : ∀ x, Ancestor parent x i → parent i < x → x = i := by
        intro x hx hBelow
        by_cases hEq : x = i
        · exact hEq
        · have hLess := hDepth.parent_lt i hi hSize
          have hLe := hDepth.le_of_ancestor (hx.parent_of_ne hEq).2 (by omega)
          omega
      have hBest := (h.unlinked i (by omega) hSize).2
      have hLess := hDepth.parent_lt i hi hSize
      refine ⟨parent i, ?_⟩
      constructor
      case ancestor => simpa using hAncestor
      case less => exact hLess
      case above => exact .above hi (.refl _)
      case linked => exact fun x hx hBelow => Nat.le_of_eq (hOnly x hx hBelow).symm
      case best_on => rw [bestOf_link, hBest]; exact .refl i
      case best_below => rw [bestOf_link, hBest]; exact hLess
      case best_least =>
        intro x hx hBelow
        exact Nat.le_of_eq (by rw [bestOf_link, hBest, hOnly x hx hBelow])
    · rw [if_neg (by omega)] at hAncestor
      obtain ⟨a, hSpanned⟩ := h.spanned w (by omega) hwSize
      refine ⟨a, { hSpanned with
        ancestor := hAncestor.trans hSpanned.ancestor
        linked := fun x hx hax => ?_ }⟩
      have hLinked := hSpanned.linked x hx hax
      omega

/-- Two compressed edges in a row become one. -/
theorem Spanned.shortcut (hDepth : DepthFirst size succ parent)
    (h : Linked parent size first f) {r : Nat} (hv : v < size)
    (hLow : Spanned parent first f v a) (hHigh : Spanned parent first f a r) :
    Spanned parent first (f.shortcut v a) v r := by
  have hBest := bestOf_shortcut f v v a (h.best_size.symm ▸ hv)
  have hav := hLow.less
  have hra := hHigh.less
  have hOn : ∀ x, Ancestor parent x v → x ≤ a → Ancestor parent x a :=
    fun x hx hLe => hDepth.ancestor_of_le hx hLow.above hv hLe
  constructor
  case ancestor =>
    rw [ancestorOf_shortcut f v v a (h.ancestor_size.symm ▸ hv), if_pos rfl]
    exact hHigh.ancestor
  case less => omega
  case above => exact hHigh.above.trans hLow.above
  case linked =>
    intro x hx hBelow
    by_cases hLe : x ≤ a
    · exact hHigh.linked x (hOn x hx hLe) hBelow
    · exact hLow.linked x hx (by omega)
  case best_on =>
    rw [hBest]
    split
    · exact hHigh.best_on.trans hLow.above
    · exact hLow.best_on
  case best_below =>
    rw [hBest]
    split
    · exact hHigh.best_below
    · have hBelow := hLow.best_below
      omega
  case best_least =>
    have hMin : f.semiOf ((f.shortcut v a).bestOf v) ≤ f.semiOf (f.bestOf a) ∧
        f.semiOf ((f.shortcut v a).bestOf v) ≤ f.semiOf (f.bestOf v) := by
      rw [hBest]
      split
      case isTrue hLess => exact ⟨Nat.le_refl _, Nat.le_of_lt hLess.2⟩
      case isFalse hNot => exact ⟨Nat.le_of_not_lt fun hLess => hNot ⟨rfl, hLess⟩, Nat.le_refl _⟩
    intro x hx hBelow
    rw [semiOf_shortcut, semiOf_shortcut]
    by_cases hLe : x ≤ a
    · exact Nat.le_trans hMin.1 (hHigh.best_least x (hOn x hx hLe) hBelow)
    · exact Nat.le_trans hMin.2 (hLow.best_least x hx (by omega))

/-- A shortcut changes nothing for other vertices. -/
theorem Spanned.shortcut_other (h : Linked parent size first f) (hv : v < size) {w b : Nat}
    (hne : v ≠ w) (hOld : Spanned parent first f w b) :
    Spanned parent first (f.shortcut v a) w b := by
  have hAncestor : (f.shortcut v a).ancestorOf w = f.ancestorOf w := by
    rw [ancestorOf_shortcut f v w a (h.ancestor_size.symm ▸ hv), if_neg hne]
  have hBest : (f.shortcut v a).bestOf w = f.bestOf w := by
    rw [bestOf_shortcut f v w a (h.best_size.symm ▸ hv), if_neg (by simp [hne])]
  refine { hOld with
    ancestor := hAncestor.trans hOld.ancestor
    best_on := hBest.symm ▸ hOld.best_on
    best_below := hBest.symm ▸ hOld.best_below
    best_least := fun x hx hbx => ?_ }
  rw [hBest]
  exact hOld.best_least x hx hbx

theorem Linked.shortcut (hDepth : DepthFirst size succ parent)
    (h : Linked parent size first f) {r : Nat} (hv : v < size) (hFirst : first ≤ v)
    (hLow : Spanned parent first f v a) (hHigh : Spanned parent first f a r) :
    Linked parent size first (f.shortcut v a) := by
  constructor
  case semi_size => exact h.semi_size
  case best_size =>
    simp only [LinkForest.shortcut]
    split <;> simpa using h.best_size
  case ancestor_size => simpa [LinkForest.shortcut] using h.ancestor_size
  case unlinked =>
    intro w hw hSize
    rw [ancestorOf_shortcut f v w a (h.ancestor_size.symm ▸ hv),
      bestOf_shortcut f v w a (h.best_size.symm ▸ hv), if_neg (by omega), if_neg (by omega)]
    exact h.unlinked w hw hSize
  case spanned =>
    intro w hw hSize
    by_cases hEq : v = w
    · exact hEq ▸ ⟨r, hLow.shortcut hDepth h hv hHigh⟩
    · obtain ⟨b, hOld⟩ := h.spanned w hw hSize
      exact ⟨b, hOld.shortcut_other h hv hEq⟩

/-- Compressing the path of a linked vertex makes it lead to the root of its tree, which
is not linked. Nothing changes for later vertices. -/
theorem Linked.compress (hDepth : DepthFirst size succ parent)
    (h : Linked parent size first f) (hFirst : first ≤ v) (hv : v < size) :
    Linked parent size first (f.compress v) ∧ (f.compress v).semi = f.semi ∧
      (∀ w, v < w → (f.compress v).ancestorOf w = f.ancestorOf w) ∧
      ∃ r, r < first ∧ Spanned parent first (f.compress v) v r := by
  fun_induction LinkForest.compress f v with
  | case1 v hNone =>
      obtain ⟨a, hSpanned⟩ := h.spanned v hFirst hv
      simp [hSpanned.ancestor] at hNone
  | case2 v a hSome hGuard ih =>
      have ha : a < size := Nat.lt_trans hGuard.1 hv
      obtain ⟨hLinked, hSemi, hFrame, r, hr, hHigh⟩ := ih (h.first_le ha hGuard.2) ha
      have hLow : Spanned parent first (f.compress a) v a :=
        hLinked.spanned_of_ancestor hv ((hFrame v hGuard.1).trans hSome)
      have hLinked' := hLinked.shortcut hDepth hv hFirst hLow hHigh
      refine ⟨hLinked', hSemi, fun w hw => ?_, r, hr, hLow.shortcut hDepth hLinked hv hHigh⟩
      rw [ancestorOf_shortcut _ _ _ _ (hLinked.ancestor_size.symm ▸ hv), if_neg (by omega)]
      exact hFrame w (by omega)
  | case3 v a hSome hGuard =>
      have hSpanned := h.spanned_of_ancestor hv hSome
      have hLess := hSpanned.less
      refine ⟨h, rfl, fun _ _ => rfl, a, Nat.lt_of_not_le fun ha => ?_, hSpanned⟩
      obtain ⟨b, hUpper⟩ := h.spanned a ha (by omega)
      exact hGuard ⟨hLess, by rw [hUpper.ancestor]; rfl⟩

/-- The answer for a vertex that is not linked is the vertex itself. For a linked one it
is a linked vertex on its branch, with the least semidominator among those. The
forest stays linked as it was. -/
theorem Linked.eval (hDepth : DepthFirst size succ parent)
    (h : Linked parent size first f) (hv : v < size) :
    Linked parent size first (f.eval v).2 ∧ (f.eval v).2.semi = f.semi ∧
      (v < first → (f.eval v).1 = v) ∧
      (first ≤ v → Ancestor parent (f.eval v).1 v ∧ first ≤ (f.eval v).1 ∧
        ∀ x, Ancestor parent x v → first ≤ x → f.semiOf (f.eval v).1 ≤ f.semiOf x) := by
  by_cases hFirst : v < first
  · have hNone := (h.unlinked v hFirst hv).1
    have hEval : f.eval v = (v, f) := by simp [LinkForest.eval, hNone]
    rw [hEval]
    exact ⟨h, rfl, fun _ => rfl, fun hGe => absurd hFirst (by omega)⟩
  · obtain ⟨a, hSpanned⟩ := h.spanned v (by omega) hv
    have hEval : f.eval v = ((f.compress v).bestOf v, f.compress v) := by
      simp [LinkForest.eval, hSpanned.ancestor]
    obtain ⟨hLinked, hSemi, _, r, hr, hRoot⟩ := h.compress hDepth (by omega) hv
    have hSemiOf : ∀ x, (f.compress v).semiOf x = f.semiOf x := by
      intro x
      simp only [semiOf, hSemi]
    rw [hEval]
    refine ⟨hLinked, hSemi, fun hLess => absurd hLess hFirst, fun _ => ⟨hRoot.best_on, ?_, ?_⟩⟩
    · exact hRoot.linked _ hRoot.best_on hRoot.best_below
    · intro x hx hxFirst
      have hLeast := hRoot.best_least x hx (by omega)
      rwa [hSemiOf, hSemiOf] at hLeast

end LinkForest

end RefElision
