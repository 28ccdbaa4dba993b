import Mathlib.Data.List.Perm.Basic
import Mathlib.Data.List.TakeWhile
import RefElision.Proofs.Program.Bodies
import RefElision.Refs.Normalize

/-! The normal form of a block is reached by delaying decrefs: a decref changes places with
the instruction behind it, again and again. -/
namespace RefElision

variable {s : Symbols}

/-- The second list is the first with decrefs delayed. -/
inductive Delays (s : Symbols) : List Instr → List Instr → Prop where
  | refl (xs : List Instr) : Delays s xs xs
  | swap {d : Instr} (i : Instr) (rest : List Instr) (hd : s.isDecref d = true) :
      Delays s (d :: i :: rest) (i :: d :: rest)
  | cons (i : Instr) {xs ys : List Instr} : Delays s xs ys → Delays s (i :: xs) (i :: ys)
  | trans {xs ys zs : List Instr} : Delays s xs ys → Delays s ys zs → Delays s xs zs

namespace Delays

variable {xs ys : List Instr}

theorem append_left (front : List Instr) (h : Delays s xs ys) :
    Delays s (front ++ xs) (front ++ ys) := by
  induction front with
  | nil => exact h
  | cons i rest ih => exact .cons i ih

theorem append_right (h : Delays s xs ys) (back : List Instr) :
    Delays s (xs ++ back) (ys ++ back) := by
  induction h with
  | refl xs => exact .refl _
  | swap i rest hd => exact .swap i (rest ++ back) hd
  | cons i _ ih => exact .cons i ih
  | trans _ _ ihFirst ihSecond => exact ihFirst.trans ihSecond

theorem perm (h : Delays s xs ys) : xs.Perm ys := by
  induction h with
  | refl xs => exact .refl xs
  | swap i rest _ => exact .swap i _ rest
  | cons i _ ih => exact ih.cons i
  | trans _ _ ihFirst ihSecond => exact ihFirst.trans ihSecond

/-- One decref is delayed past many instructions. -/
theorem past {d : Instr} (hd : s.isDecref d = true) (xs back : List Instr) :
    Delays s (d :: (xs ++ back)) (xs ++ d :: back) := by
  induction xs with
  | nil => exact .refl _
  | cons i rest ih => exact .trans (.swap i (rest ++ back) hd) (.cons i ih)

/-- Many decrefs are delayed past many instructions. -/
theorem all_past {ds : List Instr} (hds : ∀ d ∈ ds, s.isDecref d = true) (xs : List Instr) :
    Delays s (ds ++ xs) (xs ++ ds) := by
  induction ds with
  | nil => simpa using Delays.refl xs
  | cons d rest ih =>
      rw [List.forall_mem_cons] at hds
      exact .trans (.cons d (ih hds.2)) (past hds.1 xs rest)

/-- Decrefs are delayed past everything else. -/
theorem separate (xs : List Instr) :
    Delays s xs (xs.filter (fun i => !s.isDecref i) ++ xs.filter s.isDecref) := by
  induction xs with
  | nil => exact .refl _
  | cons i rest ih =>
      cases hi : s.isDecref i with
      | false =>
          rw [List.filter_cons_of_pos (by simp [hi]), List.filter_cons_of_neg (by simp [hi])]
          exact .cons i ih
      | true =>
          rw [List.filter_cons_of_neg (by simp [hi]), List.filter_cons_of_pos hi]
          exact .trans (.cons i ih) (past hi _ _)

end Delays

section While

variable {α : Type} {keep : α → Bool} {ys : List α}

theorem takeWhile_append_of_none (h : ∀ y ∈ ys, keep y = false) (xs : List α) :
    (xs ++ ys).takeWhile keep = xs.takeWhile keep := by
  induction xs with
  | nil =>
      cases ys with
      | nil => rfl
      | cons y rest => simp [h y List.mem_cons_self]
  | cons x rest ih => cases hx : keep x <;> simp [hx, ih]

theorem dropWhile_append_of_none (h : ∀ y ∈ ys, keep y = false) (xs : List α) :
    (xs ++ ys).dropWhile keep = xs.dropWhile keep ++ ys := by
  induction xs with
  | nil =>
      cases ys with
      | nil => rfl
      | cons y rest => simp [h y List.mem_cons_self]
  | cons x rest ih => cases hx : keep x <;> simp [hx, ih]

end While

theorem Symbols.isIncref_of_isDecref {i : Instr} (h : s.isDecref i = true) :
    s.isIncref i = false := by
  rw [isDecref] at h
  rw [isIncref]
  cases hClassify : s.classify i with
  | none => rfl
  | some x =>
      obtain ⟨kind, w⟩ := x
      rw [hClassify] at h
      cases kind with
      | incref => cases h
      | decref => rfl

theorem Symbols.isDecref_of_isIncref {i : Instr} (h : s.isIncref i = true) :
    s.isDecref i = false := by
  cases hEq : s.isDecref i with
  | false => rfl
  | true =>
      rw [isIncref_of_isDecref hEq] at h
      cases h

namespace Normalize

theorem splitAtLastIncref_append (body : List Instr) :
    (splitAtLastIncref s body).1 ++ (splitAtLastIncref s body).2 = body := by
  rw [splitAtLastIncref, ← List.reverse_append, List.takeWhile_append_dropWhile,
    List.reverse_reverse]

/-- The normal form in three parts: what stays, the early decrefs, and the run of decrefs
at the end. -/
theorem normalBody_eq (body : List Instr) :
    normalBody s body =
      (splitAtLastIncref s body).1.filter (fun i => !s.isDecref i) ++
        ((splitAtLastIncref s body).2.reverse.dropWhile s.isDecref).reverse ++ early s body ++
          ((splitAtLastIncref s body).2.reverse.takeWhile s.isDecref).reverse := by
  have hNone : ∀ i ∈ ((splitAtLastIncref s body).1.filter fun i => !s.isDecref i).reverse,
      s.isDecref i = false := by
    intro i hi
    simpa using (List.mem_filter.mp (List.mem_reverse.mp hi)).2
  simp only [normalBody, settled, List.reverse_append, takeWhile_append_of_none hNone,
    dropWhile_append_of_none hNone, List.reverse_reverse]

theorem delays_normalBody (body : List Instr) : Delays s body (normalBody s body) := by
  obtain ⟨front, back, hFront, hBack⟩ : ∃ front back,
      (splitAtLastIncref s body).1 = front ∧ (splitAtLastIncref s body).2 = back :=
    ⟨_, _, rfl, rfl⟩
  have hBody : body = front ++ back := by
    rw [← hFront, ← hBack, splitAtLastIncref_append]
  have hEarly : ∀ d ∈ front.filter s.isDecref, s.isDecref d = true :=
    fun d hd => (List.mem_filter.mp hd).2
  rw [normalBody_eq, early, hFront, hBack]
  obtain ⟨stays, run, hStays, hRun⟩ : ∃ stays run,
      (back.reverse.dropWhile s.isDecref).reverse = stays ∧
        (back.reverse.takeWhile s.isDecref).reverse = run := ⟨_, _, rfl, rfl⟩
  have hParts : back = stays ++ run := by
    rw [← hStays, ← hRun, ← List.reverse_append, List.takeWhile_append_dropWhile,
      List.reverse_reverse]
  rw [hStays, hRun, hBody, hParts]
  have hFirst := (Delays.separate (s := s) front).append_right (stays ++ run)
  have hSecond := ((Delays.all_past hEarly stays).append_right run).append_left
    (front.filter fun i => !s.isDecref i)
  simp only [List.append_assoc] at hFirst hSecond ⊢
  exact hFirst.trans hSecond

/-- In the normal form no decref stands before an incref. -/
theorem normalBody_split (body : List Instr) :
    ∃ front back, normalBody s body = front ++ back ∧ (∀ i ∈ front, s.isDecref i = false) ∧
      ∀ i ∈ back, s.isIncref i = false := by
  have hLater : ∀ i ∈ (splitAtLastIncref s body).2, s.isIncref i = false := by
    intro i hi
    simpa using List.mem_takeWhile_imp (List.mem_reverse.mp hi)
  rw [normalBody_eq, List.append_assoc, List.append_assoc]
  refine ⟨_, _, rfl, ?_, ?_⟩
  · intro i hi
    simpa using (List.mem_filter.mp hi).2
  · intro i hi
    simp only [List.mem_append, List.mem_reverse] at hi
    rcases hi with hStays | hEarly | hRun
    · exact hLater i (List.mem_reverse.mp ((List.dropWhile_sublist _).subset hStays))
    · exact Symbols.isIncref_of_isDecref (List.mem_filter.mp hEarly).2
    · exact Symbols.isIncref_of_isDecref (List.mem_takeWhile_imp hRun)

theorem bodyOnly_normalBlock (s : Symbols) : Block.BodyOnly (normalBlock s) :=
  ⟨fun _ => rfl, fun _ => rfl, fun _ => rfl, fun _ => rfl⟩

end Normalize

namespace Func

variable {f : Func} {o : Options}

theorem normalize_func : (f.normalize o).func = f.mapBlocks (Normalize.normalBlock o.symbols) :=
  rfl

theorem Linked.normalize (h : f.Linked) : (f.normalize o).func.Linked :=
  h.mapBlocks (Normalize.bodyOnly_normalBlock o.symbols)

theorem bodyAt_normalize (l : Label) :
    (f.normalize o).func.bodyAt l = Normalize.normalBody o.symbols (f.bodyAt l) := by
  rw [normalize_func, bodyAt, block?_mapBlocks (Normalize.bodyOnly_normalBlock o.symbols), bodyAt]
  cases f.block? l with
  | none => rfl
  | some b => rfl

/-- All instructions, block after block. -/
def instrs (f : Func) : List Instr :=
  f.blocks.flatMap Block.body

theorem tags_eq : f.tags = f.instrs.map Instr.tag := by
  rw [tags, instrs, List.map_flatMap]

theorem instrs_normalize : (f.normalize o).func.instrs.Perm f.instrs := by
  rw [normalize_func, instrs, mapBlocks, List.flatMap_map, instrs]
  apply List.Perm.flatMap_left
  intro b _
  exact (Normalize.delays_normalBody b.body).perm.symm

theorem tags_normalize_perm : (f.normalize o).func.tags.Perm f.tags := by
  rw [tags_eq, tags_eq]
  exact instrs_normalize.map Instr.tag

end Func

end RefElision
