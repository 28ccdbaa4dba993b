import RefElision.Proofs.Refs.Accounting

/-! What normalising makes of a body. Decrefs are delayed until none of them stands before an
incref, and nothing else happens. The decrefs that are moved are put in front of the run of
decrefs that ends the body, so they pass those that stand behind the last incref but not in
that run. -/
namespace RefElision

variable {s : Symbols}

namespace Normalize

variable {body : List Instr}

/-- No decref stands before an incref. -/
def IsNormal (s : Symbols) (body : List Instr) : Prop :=
  body.Pairwise fun i j => s.isDecref i = true → s.isIncref j = false

theorem isNormal_iff : IsNormal s body ↔ s.earlyDecrefs body = 0 := by
  induction body with
  | nil => simp [IsNormal, Symbols.earlyDecrefs]
  | cons i rest ih =>
      rw [IsNormal, List.pairwise_cons, Symbols.earlyDecrefs, Nat.add_eq_zero_iff, ← ih, IsNormal]
      apply and_congr_left'
      cases s.isDecref i <;> simp

theorem isNormal_normalBody (body : List Instr) : IsNormal s (normalBody s body) :=
  isNormal_iff.mpr (earlyDecrefs_normalBody body)

end Normalize

/-- In front of each instruction that is no decref stand the same ones of its kind as before,
and only such decrefs as stood there before. -/
def OnlyDelays (s : Symbols) (before after : List Instr) : Prop :=
  ∀ front i back, after = front ++ i :: back → s.isDecref i = false →
    ∃ front' back', before = front' ++ i :: back' ∧
      (front.filter fun j => !s.isDecref j) = (front'.filter fun j => !s.isDecref j) ∧
      (front.filter s.isDecref).Subperm (front'.filter s.isDecref)

namespace Delays

variable {xs ys : List Instr}

theorem filter_eq (h : Delays s xs ys) :
    (ys.filter fun i => !s.isDecref i) = xs.filter fun i => !s.isDecref i := by
  induction h with
  | refl xs => rfl
  | swap i rest hd => simp [hd, List.filter_cons]
  | cons i _ ih => rw [List.filter_cons, ih, List.filter_cons]
  | trans _ _ ihFirst ihSecond => exact ihSecond.trans ihFirst

theorem onlyDelays_swap {d : Instr} (hd : s.isDecref d = true) (i : Instr) (rest : List Instr) :
    OnlyDelays s (d :: i :: rest) (i :: d :: rest) := by
  intro front x back hSplit hx
  cases front with
  | nil =>
      obtain ⟨rfl, rfl⟩ := List.cons.inj hSplit
      exact ⟨[d], rest, rfl, by simp [hd], List.nil_subperm⟩
  | cons j others =>
      obtain ⟨rfl, hSecond⟩ := List.cons.inj hSplit
      cases others with
      | nil =>
          -- the second instruction is the decref itself
          obtain ⟨rfl, _⟩ := List.cons.inj hSecond
          rw [hd] at hx
          cases hx
      | cons e others =>
          obtain ⟨rfl, rfl⟩ := List.cons.inj hSecond
          refine ⟨d :: i :: others, back, rfl, by simp [hd, List.filter_cons], ?_⟩
          exact ((List.Perm.swap d i others).filter _).subperm

theorem onlyDelays_cons {before after : List Instr} (h : OnlyDelays s before after) (i : Instr) :
    OnlyDelays s (i :: before) (i :: after) := by
  intro front x back hSplit hx
  cases front with
  | nil =>
      obtain ⟨rfl, rfl⟩ := List.cons.inj hSplit
      exact ⟨[], before, rfl, rfl, List.nil_subperm⟩
  | cons j others =>
      obtain ⟨rfl, hRest⟩ := List.cons.inj hSplit
      obtain ⟨front', back', rfl, hOthers, hDecrefs⟩ := h others x back hRest hx
      refine ⟨i :: front', back', rfl, ?_, ?_⟩
      · rw [List.filter_cons, hOthers, List.filter_cons]
      · rw [List.filter_cons, List.filter_cons]
        split
        case isTrue => exact (List.subperm_cons i).mpr hDecrefs
        case isFalse => exact hDecrefs

/-- A decref that is delayed comes in front of nothing. -/
theorem onlyDelays (h : Delays s xs ys) : OnlyDelays s xs ys := by
  induction h with
  | refl xs => exact fun front i back hSplit _ => ⟨front, back, hSplit, rfl, List.Subperm.refl _⟩
  | swap i rest hd => exact onlyDelays_swap hd i rest
  | cons i _ ih => exact onlyDelays_cons ih i
  | trans _ _ ihFirst ihSecond =>
      intro front i back hSplit hi
      obtain ⟨front', back', hMiddle, hOthers, hDecrefs⟩ := ihSecond front i back hSplit hi
      obtain ⟨front'', back'', hStart, hOthers', hDecrefs'⟩ := ihFirst front' i back' hMiddle hi
      exact ⟨front'', back'', hStart, hOthers.trans hOthers', hDecrefs.trans hDecrefs'⟩

end Delays

namespace Normalize

/-- The second body is a normal form of the first one, which was left alone if it was normal
already. -/
structure Reached (s : Symbols) (before after : List Instr) : Prop where
  perm : after.Perm before
  others_eq : (after.filter fun i => !s.isDecref i) = before.filter fun i => !s.isDecref i
  normal : IsNormal s after
  delayed : OnlyDelays s before after
  eq_of_normal : IsNormal s before → after = before

theorem reached_normalBody (body : List Instr) : Reached s body (normalBody s body) where
  perm := (delays_normalBody body).perm.symm
  others_eq := (delays_normalBody body).filter_eq
  normal := isNormal_normalBody body
  delayed := (delays_normalBody body).onlyDelays
  eq_of_normal hNormal := normalBody_eq_self (isNormal_iff.mp hNormal)

end Normalize

namespace Func

variable {f : Func} {o : Options}

/-- All blocks are in normal form. -/
def IsNormal (f : Func) (s : Symbols) : Prop :=
  ∀ b ∈ f.blocks, Normalize.IsNormal s b.body

theorem isNormal_iff : f.IsNormal s ↔ f.earlyDecrefs s = 0 := by
  simp only [IsNormal, Normalize.isNormal_iff, earlyDecrefs_eq_zero_iff]

theorem isNormal_normalize (f : Func) (o : Options) : (f.normalize o).func.IsNormal o.symbols := by
  intro c hc
  obtain ⟨b, _, rfl⟩ := List.mem_map.mp hc
  exact Normalize.isNormal_normalBody b.body

/-- Normalising does nothing to a normal form. -/
theorem IsNormal.normalize (h : f.IsNormal o.symbols) :
    (f.normalize o).changed = false ∧ (f.normalize o).func = f := by
  rw [isNormal_iff] at h
  refine ⟨?_, normalize_func_eq_self.mpr h⟩
  rw [← Bool.not_eq_true, changed_normalize]
  exact fun hSome => hSome h

/-- Erasing operations does not bring a decref in front of an incref. -/
theorem IsNormal.eraseOps (h : f.IsNormal s) (ops : List RefOp) : (f.eraseOps ops).IsNormal s := by
  intro c hc
  obtain ⟨b, hb, rfl⟩ := List.mem_map.mp hc
  split
  case isTrue => exact (h b hb).sublist List.filter_sublist
  case isFalse => exact h b hb

theorem IsNormal.prune (h : f.IsNormal s) (o : Options) (oracle : Oracle) :
    (f.prune o oracle).func.IsNormal s :=
  ((h.eraseOps _).eraseOps _).eraseOps _

/-- Normalising brings each body into normal form by delaying decrefs, changes nothing else of a
block, and has nothing to do when it is run again. -/
theorem normalize_reaches_normal_form (f : Func) (o : Options) :
    List.Forall₂ (fun b c => c = { b with body := c.body } ∧
        Normalize.Reached o.symbols b.body c.body) f.blocks (f.normalize o).func.blocks ∧
      ((f.normalize o).func.normalize o).changed = false ∧
      ((f.normalize o).func.normalize o).func = (f.normalize o).func := by
  refine ⟨?_, (isNormal_normalize f o).normalize⟩
  rw [normalize_func, mapBlocks, List.forall₂_map_right_iff, List.forall₂_same]
  exact fun b _ => ⟨rfl, Normalize.reached_normalBody b.body⟩

end Func

namespace Normalize

variable {body : List Instr}

/-- Behind all increfs a decref is followed by decrefs only. -/
def DecrefsLast (s : Symbols) (body : List Instr) : Prop :=
  ∀ front back, body = front ++ back → (∀ i ∈ back, s.isIncref i = false) →
    back.Pairwise fun i j => s.isDecref i = true → s.isDecref j = true

/-- The run of decrefs that ends the body. It stands behind the last incref. -/
def ending (s : Symbols) (body : List Instr) : List Instr :=
  ((splitAtLastIncref s body).2.reverse.takeWhile s.isDecref).reverse

/-- The decrefs behind the last incref that do not belong to the run at the end. -/
def passed (s : Symbols) (body : List Instr) : List Instr :=
  ((splitAtLastIncref s body).2.reverse.dropWhile s.isDecref).reverse.filter s.isDecref

theorem filter_ending (body : List Instr) : (ending s body).filter s.isDecref = ending s body := by
  rw [List.filter_eq_self]
  intro i hi
  exact List.mem_takeWhile_imp (List.mem_reverse.mp hi)

/-- Behind the last incref the body goes on and then ends with a run of decrefs. -/
theorem middle_append_ending (body : List Instr) :
    ((splitAtLastIncref s body).2.reverse.dropWhile s.isDecref).reverse ++ ending s body =
      (splitAtLastIncref s body).2 := by
  rw [ending, ← List.reverse_append, List.takeWhile_append_dropWhile, List.reverse_reverse]

theorem decrefs_eq (body : List Instr) :
    body.filter s.isDecref = early s body ++ passed s body ++ ending s body := by
  calc body.filter s.isDecref
      = early s body ++ (splitAtLastIncref s body).2.filter s.isDecref := by
        rw [early, ← List.filter_append, splitAtLastIncref_append]
    _ = early s body ++ passed s body ++ ending s body := by
        rw [← middle_append_ending, List.filter_append, filter_ending, ← passed, List.append_assoc]

theorem decrefs_normalBody (body : List Instr) :
    (normalBody s body).filter s.isDecref = passed s body ++ early s body ++ ending s body := by
  have hFront : ((splitAtLastIncref s body).1.filter fun i => !s.isDecref i).filter s.isDecref =
      [] := by
    simp [List.filter_filter]
  have hEarly : (early s body).filter s.isDecref = early s body := by
    rw [early, List.filter_filter]
    simp
  rw [normalBody_eq, ← ending, List.filter_append, List.filter_append, List.filter_append, hFront,
    List.nil_append, ← passed, hEarly, filter_ending]

theorem early_eq_nil_iff : early s body = [] ↔ IsNormal s body := by
  rw [← List.length_eq_zero_iff, length_early, isNormal_iff]

/-- What ends the body and holds no incref stands behind the last incref. -/
theorem suffix_of_no_incref {front back : List Instr} (hBody : body = front ++ back)
    (hBack : ∀ i ∈ back, s.isIncref i = false) : back <:+ (splitAtLastIncref s body).2 := by
  have hAll : ∀ i ∈ back.reverse, (!s.isIncref i) = true := by
    intro i hi
    simpa using hBack i (List.mem_reverse.mp hi)
  rw [splitAtLastIncref, hBody, List.reverse_append, List.takeWhile_append_of_pos hAll,
    List.reverse_append, List.reverse_reverse]
  exact List.suffix_append _ _

theorem filter_dropWhile_eq_nil {α : Type} (test : α → Bool) (xs : List α) :
    (xs.dropWhile test).filter test = [] ↔
      xs.Pairwise fun x y => test y = true → test x = true := by
  induction xs with
  | nil => simp
  | cons x rest ih =>
      rw [List.pairwise_cons, ← ih]
      cases hx : test x with
      | true => simp [hx]
      | false =>
          have hSub : (rest.dropWhile test).Sublist rest := List.dropWhile_sublist _
          simp only [List.dropWhile_cons, hx, List.filter_cons, Bool.false_eq_true, if_false,
            List.filter_eq_nil_iff, imp_false]
          exact ⟨fun hNone => ⟨hNone, fun y hy => hNone y (hSub.subset hy)⟩, And.left⟩

theorem passed_eq_nil_iff : passed s body = [] ↔ DecrefsLast s body := by
  have hPairwise : passed s body = [] ↔
      (splitAtLastIncref s body).2.Pairwise fun i j =>
        s.isDecref i = true → s.isDecref j = true := by
    rw [passed, List.filter_reverse, List.reverse_eq_nil_iff, filter_dropWhile_eq_nil,
      List.pairwise_reverse]
  rw [hPairwise]
  constructor
  · intro hAll front back hBody hBack
    exact hAll.sublist (suffix_of_no_incref hBody hBack).sublist
  · intro hLast
    refine hLast _ _ (splitAtLastIncref_append body).symm fun i hi => ?_
    simpa using List.mem_takeWhile_imp (List.mem_reverse.mp hi)

/-- Of two groups that change places, one is empty or the order is another one. -/
theorem append_comm_iff_of_nodup {α : Type} {xs ys : List α} (h : (xs ++ ys).Nodup) :
    ys ++ xs = xs ++ ys ↔ xs = [] ∨ ys = [] := by
  constructor
  · intro hSame
    cases xs with
    | nil => exact .inl rfl
    | cons x xs =>
        cases ys with
        | nil => exact .inr rfl
        | cons y ys =>
            obtain ⟨rfl, _⟩ := List.cons.inj hSame
            exact ((List.nodup_append.mp h).2.2 y List.mem_cons_self y List.mem_cons_self rfl).elim
  · rintro (rfl | rfl) <;> simp

/-- A body is cut behind its last incref and before the run of decrefs that ends it. -/
structure Cut (s : Symbols) (body front middle run : List Instr) : Prop where
  body_eq : body = front ++ middle ++ run
  front_last : ∀ i ∈ front.getLast?, s.isIncref i = true
  no_incref : ∀ i ∈ middle ++ run, s.isIncref i = false
  run_decref : ∀ i ∈ run, s.isDecref i = true
  middle_last : ∀ i ∈ middle.getLast?, s.isDecref i = false

theorem dropWhile_getLast? {α : Type} {test : α → Bool} {xs : List α} {x : α}
    (h : x ∈ (xs.reverse.dropWhile test).reverse.getLast?) : test x = false := by
  have hHead := List.head?_dropWhile_not test xs.reverse
  rw [List.getLast?_reverse] at h
  rwa [Option.mem_def.mp h] at hHead

/-- Where the groups stand: early decrefs before the last incref, those that are passed
behind it, and the others in the run at the end. -/
theorem exists_cut (body : List Instr) :
    ∃ front middle, Cut s body front middle (ending s body) ∧
      early s body = front.filter s.isDecref ∧ passed s body = middle.filter s.isDecref := by
  refine ⟨(splitAtLastIncref s body).1,
    ((splitAtLastIncref s body).2.reverse.dropWhile s.isDecref).reverse, ?_, rfl, rfl⟩
  constructor
  case body_eq => rw [List.append_assoc, middle_append_ending, splitAtLastIncref_append]
  case front_last => exact fun i hi => by simpa using dropWhile_getLast? hi
  case no_incref =>
    rw [middle_append_ending]
    exact fun i hi => by simpa using List.mem_takeWhile_imp (List.mem_reverse.mp hi)
  case run_decref => exact fun i hi => List.mem_takeWhile_imp (List.mem_reverse.mp hi)
  case middle_last => exact fun i hi => dropWhile_getLast? hi

/-- The early decrefs change places with those that are passed, which stand behind the last
incref but are not among the last instructions. In a body without repeated instructions the
order of decrefs stays the same only if one of the two groups is empty. -/
structure Exchanged (s : Symbols) (before after : List Instr) : Prop where
  groups : ∃ front middle, Cut s before front middle (ending s before) ∧
    early s before = front.filter s.isDecref ∧ passed s before = middle.filter s.isDecref
  decrefs_before : before.filter s.isDecref = early s before ++ passed s before ++ ending s before
  decrefs_after : after.filter s.isDecref = passed s before ++ early s before ++ ending s before
  early_nil_iff : early s before = [] ↔ IsNormal s before
  passed_nil_iff : passed s before = [] ↔ DecrefsLast s before
  kept_iff : before.Nodup →
    (after.filter s.isDecref = before.filter s.isDecref ↔ IsNormal s before ∨ DecrefsLast s before)

theorem exchanged_normalBody (body : List Instr) : Exchanged s body (normalBody s body) where
  groups := exists_cut body
  decrefs_before := decrefs_eq body
  decrefs_after := decrefs_normalBody body
  early_nil_iff := early_eq_nil_iff
  passed_nil_iff := passed_eq_nil_iff
  kept_iff hNodup := by
    have hDecrefs : (early s body ++ passed s body).Nodup := by
      have hAll : (body.filter s.isDecref).Nodup := hNodup.filter _
      rw [decrefs_eq] at hAll
      exact hAll.of_append_left
    rw [decrefs_normalBody, decrefs_eq, List.append_left_inj, append_comm_iff_of_nodup hDecrefs,
      early_eq_nil_iff, passed_eq_nil_iff]

end Normalize

namespace Func

/-- Normalising keeps the order of decrefs but for two groups in each block, which change
places. -/
theorem normalize_exchanges_decrefs (f : Func) (o : Options) :
    List.Forall₂ (fun b c => Normalize.Exchanged o.symbols b.body c.body)
      f.blocks (f.normalize o).func.blocks := by
  rw [normalize_func, mapBlocks, List.forall₂_map_right_iff, List.forall₂_same]
  exact fun b _ => Normalize.exchanged_normalBody b.body

/-- The decref of `a` is early, and that of `c` is behind the last incref but not the last
instruction. -/
def overtaken : Func where
  name := "f"
  args := ["a", "b", "c"]
  blocks :=
    [⟨1, "entry", [⟨1, none, .call "NRT_decref", [.var "a"]⟩,
        ⟨3, none, .call "NRT_incref", [.var "b"]⟩, ⟨5, none, .call "NRT_decref", [.var "c"]⟩,
        ⟨7, none, .op "use", [.var "b"]⟩], [], .ret []⟩]

/-- The decref of `a` is moved to the end, past that of `c`. -/
theorem normalize_reorders_decrefs :
    overtaken.IsParsed ∧
      ¬ List.Forall₂ (fun b c => c.body.filter ({} : Options).symbols.isDecref =
          b.body.filter ({} : Options).symbols.isDecref)
        overtaken.blocks (overtaken.normalize {}).func.blocks := by
  have hRead : (Func.parse ("func @f(%a, %b, %c) \x7b\nentry:\ncall @NRT_decref(%a)\n" ++
      "call @NRT_incref(%b)\ncall @NRT_decref(%c)\nuse %b\nret\n\x7d\n")).toOption =
        some overtaken := by
    decide +kernel
  refine ⟨isParsed_of_toOption hRead, fun hSame => ?_⟩
  have hEntry := (List.forall₂_cons.mp hSame).1
  revert hEntry
  decide

end Func

end RefElision
