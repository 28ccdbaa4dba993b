import Mathlib.Algebra.BigOperators.Ring.List
import Mathlib.Algebra.Ring.Int.Defs
import RefElision.Proofs.Refs.Windows

/-! Counting references. Along a path an incref of a value adds one to its count and a
decref takes one away. What erasing operations does to the count is read off their tags. -/
namespace RefElision

/-- By how much an operation changes the count of its value. -/
def RefKind.change : RefKind → Int
  | .incref => 1
  | .decref => -1

/-- By how much an instruction changes the count of a value. -/
def Symbols.effect (s : Symbols) (v : Value) (i : Instr) : Int :=
  match s.classify i with
  | some (kind, w) => if w = v then kind.change else 0
  | none => 0

/-- By how much instructions change the count of a value together. -/
def Symbols.net (s : Symbols) (v : Value) (instrs : List Instr) : Int :=
  (instrs.map (s.effect v)).sum

/-- By how much the count of a value changes along a path. -/
def Func.netCount (f : Func) (s : Symbols) (v : Value) (p : List Label) : Int :=
  s.net v (f.executed p)

section Sums

variable {α β : Type} [DecidableEq β] (key : α → β) (value : α → Int)

theorem sum_ite_not_key {xs : List α} {k : β} (hk : k ∉ xs.map key) :
    (xs.map fun y => if key y = k then value y else 0).sum = 0 := by
  have hZero : (xs.map fun y => if key y = k then value y else 0) = xs.map fun _ => 0 := by
    apply List.map_congr_left
    intro y hy
    have hne : key y ≠ k := fun hEq => hk (hEq ▸ List.mem_map_of_mem hy)
    rw [if_neg hne]
  simp [hZero]

/-- Exactly one member of a list without repeated keys has a given key. -/
theorem sum_ite_key {xs : List α} (hNodup : (xs.map key).Nodup) {x : α} (hx : x ∈ xs) :
    (xs.map fun y => if key y = key x then value y else 0).sum = value x := by
  induction xs with
  | nil => exact (List.not_mem_nil hx).elim
  | cons y rest ih =>
      rw [List.map_cons, List.nodup_cons] at hNodup
      rw [List.map_cons, List.sum_cons]
      cases List.mem_cons.mp hx with
      | inl hHead =>
          subst hHead
          rw [if_pos rfl, sum_ite_not_key key value hNodup.1, Int.add_zero]
      | inr hRest =>
          have hne : key y ≠ key x := fun hEq => hNodup.1 (hEq ▸ List.mem_map_of_mem hRest)
          rw [if_neg hne, Int.zero_add]
          exact ih hNodup.2 hRest

/-- What one more key adds to a sum in which members are counted by keys. -/
theorem sum_count_cons (xs : List α) (k : β) (ks : List β) :
    (xs.map fun y => value y * ((k :: ks).count (key y) : Int)).sum =
      (xs.map fun y => value y * (ks.count (key y) : Int)).sum +
        (xs.map fun y => if key y = k then value y else 0).sum := by
  induction xs with
  | nil => rfl
  | cons y rest ih =>
      simp only [List.map_cons, List.sum_cons]
      rw [ih, List.count_cons]
      by_cases hEq : key y = k
      · simp [hEq, Int.mul_add]
        omega
      · simp [hEq, Ne.symm hEq]
        omega

/-- The members of a list that are in another one are counted one by one. -/
theorem sum_count_eq_countP {ds : List β} (hNodup : ds.Nodup) (ks : List β) :
    (ds.map fun d => (ks.count d : Int)).sum = (ks.countP (· ∈ ds) : Int) := by
  induction ks with
  | nil => simp
  | cons k ks ih =>
      have hCons := sum_count_cons id (fun _ => 1) ds k ks
      simp only [id, Int.one_mul] at hCons
      rw [hCons, ih, List.countP_cons]
      by_cases hk : k ∈ ds
      · have hOne := sum_ite_key id (fun _ => 1) ((List.map_id ds).symm ▸ hNodup) hk
        simp only [id] at hOne
        simp [hOne, hk]
      · have hZero := sum_ite_not_key id (fun _ => 1) ((List.map_id ds).symm ▸ hk)
        simp only [id] at hZero
        simp [hZero, hk]

end Sums

namespace RefOp

variable {s : Symbols} {f : Func} {v : Value}

/-- The effect of an operation on the count of the value it names. -/
theorem effect_instr {op : RefOp} (hOp : op ∈ ofFunc s f) :
    s.effect v op.instr = if op.value = v then op.kind.change else 0 := by
  obtain ⟨_, _, _, _, hClassify⟩ := mem_ofFunc.mp hOp
  rw [Symbols.effect, hClassify]

/-- Erasing operations from what is executed takes away the effect of each, as often as
it is executed. -/
theorem net_filter (hTags : f.tags.Nodup) {ops : List RefOp} (hOps : ops ⊆ ofFunc s f)
    (hNodup : ops.Nodup) {instrs : List Instr}
    (hInstrs : ∀ i ∈ instrs, ∃ b ∈ f.blocks, i ∈ b.body) :
    s.net v instrs =
      s.net v (instrs.filter fun i => !(ops.map fun op => op.instr.tag).contains i.tag) +
        (ops.map fun op =>
          s.effect v op.instr * ((instrs.map Instr.tag).count op.instr.tag : Int)).sum := by
  have hKeys : (ops.map fun op => op.instr.tag).Nodup :=
    hNodup.map_on fun a ha b hb hEq => eq_of_tag hTags (hOps ha) (hOps hb) hEq
  induction instrs with
  | nil => simp [Symbols.net]
  | cons i rest ih =>
      have hRest := ih fun j hj => hInstrs j (List.mem_cons_of_mem _ hj)
      have hCons := sum_count_cons (fun op : RefOp => op.instr.tag)
        (fun op => s.effect v op.instr) ops i.tag (rest.map Instr.tag)
      rw [List.map_cons, hCons]
      have hHead : s.net v (i :: rest) = s.effect v i + s.net v rest := rfl
      rw [hHead, hRest]
      by_cases hErased : i.tag ∈ ops.map fun op => op.instr.tag
      · obtain ⟨op, hOp, hTag⟩ := List.mem_map.mp hErased
        obtain ⟨b, hb, _, hBody, _⟩ := mem_ofFunc.mp (hOps hOp)
        obtain ⟨c, hc, hi⟩ := hInstrs i List.mem_cons_self
        have hInstr : op.instr = i :=
          (Func.tag_unique hTags hb hc (List.mem_of_getElem? hBody) hi hTag).2
        have hOne := sum_ite_key (fun op : RefOp => op.instr.tag)
          (fun op => s.effect v op.instr) hKeys hOp
        rw [hInstr] at hOne
        rw [hOne, List.filter_cons_of_neg (by simpa using hErased)]
        omega
      · rw [sum_ite_not_key _ _ hErased, List.filter_cons_of_pos (by simpa using hErased)]
        have hKept : ∀ kept, s.net v (i :: kept) = s.effect v i + s.net v kept := fun _ => rfl
        rw [hKept]
        omega

end RefOp

/-- Together the operations of a group count what its window leaves open. -/
theorem Group.net_eq {s : Symbols} {f : Func} {r : RefOp × List RefOp} {v : Value}
    (hGroup : Group s f r) (hTags : f.tags.Nodup) {instrs : List Instr} {isOpen : Bool}
    (hWindow : window r false instrs = some isOpen) :
    ((r.1 :: r.2).map fun op =>
        s.effect v op.instr * ((instrs.map Instr.tag).count op.instr.tag : Int)).sum =
      if r.1.value = v then isOpen.toInt else 0 := by
  obtain ⟨hOut, hNodup⟩ := List.nodup_cons.mp (hGroup.tags_nodup hTags)
  have hCount := count_of_turns hOut hWindow
  rw [← sum_count_eq_countP hNodup, List.map_map] at hCount
  rw [List.map_cons, List.sum_cons, RefOp.effect_instr hGroup.opener_mem, hGroup.opener_kind]
  have hDecref : ∀ d ∈ r.2, s.effect v d.instr = if r.1.value = v then -1 else 0 := by
    intro d hd
    rw [RefOp.effect_instr (hGroup.closer_mem d hd), hGroup.closer_kind d hd,
      hGroup.values_eq d hd, RefKind.change]
  have hDecrefs : (r.2.map fun d =>
      s.effect v d.instr * ((instrs.map Instr.tag).count d.instr.tag : Int)).sum =
      (if r.1.value = v then -1 else 0) *
        (r.2.map fun d => ((instrs.map Instr.tag).count d.instr.tag : Int)).sum := by
    rw [← List.sum_map_mul_left]
    congr 1
    apply List.map_congr_left
    intro d hd
    rw [hDecref d hd]
  rw [hDecrefs]
  simp only [Function.comp_def, Bool.toInt_false, Int.sub_zero] at hCount
  rw [RefKind.change]
  split
  case isTrue => omega
  case isFalse => simp

namespace Func

variable {f : Func} {o : Options} {oracle : Oracle} {v : Value}

/-- What is executed before and after removal differs by the windows that are open. -/
theorem net_removed (h : f.Linked) (hTags : f.tags.Nodup) (hSound : oracle.SoundFor f)
    (hv : v.isNull = false) {instrs : List Instr}
    (hInstrs : ∀ i ∈ instrs, ∃ b ∈ f.blocks, i ∈ b.body) (isOpen : RefOp × List RefOp → Bool)
    (hOpen : ∀ r ∈ f.removals o oracle, window r false instrs = some (isOpen r)) :
    o.symbols.net v instrs =
      o.symbols.net v (instrs.filter fun i =>
        !((f.removedOps o oracle).map fun op => op.instr.tag).contains i.tag) +
      ((f.removals o oracle).map fun r => if r.1.value = v then (isOpen r).toInt else 0).sum := by
  rw [RefOp.net_filter hTags removedOps_subset (removedOps_nodup h) hInstrs]
  congr 1
  rw [removedOps, List.map_append, List.sum_append]
  -- an operation on null has no effect on the count of another value
  have hNull : ((RefOps.ofFunc o.symbols f).null.map fun op => o.symbols.effect v op.instr *
      ((instrs.map Instr.tag).count op.instr.tag : Int)).sum = 0 := by
    have hZero : ∀ op ∈ (RefOps.ofFunc o.symbols f).null, o.symbols.effect v op.instr *
        ((instrs.map Instr.tag).count op.instr.tag : Int) = 0 := by
      intro op hOp
      obtain ⟨hMem, hIsNull⟩ := RefOps.mem_null.mp hOp
      have hne : op.value ≠ v := fun hEq => by rw [hEq, hv] at hIsNull; cases hIsNull
      rw [RefOp.effect_instr hMem, if_neg hne, Int.zero_mul]
    rw [List.map_congr_left hZero]
    simp
  have hGroups : (((f.removals o oracle).flatMap fun r => r.1 :: r.2).map fun op =>
      o.symbols.effect v op.instr * ((instrs.map Instr.tag).count op.instr.tag : Int)).sum =
      ((f.removals o oracle).map fun r => if r.1.value = v then (isOpen r).toInt else 0).sum := by
    rw [List.map_flatMap, List.flatMap_def, List.sum_flatten, List.map_map]
    congr 1
    apply List.map_congr_left
    intro r hr
    exact (group_of_removal h hSound hr).net_eq hTags (hOpen r hr)
  rw [hNull, hGroups, Int.zero_add]

/-- Along a path that ends pruning keeps the count of every value but null. -/
theorem netCount_prune (h : f.Linked) (hTags : f.tags.Nodup) (hSound : oracle.SoundFor f)
    (hv : v.isNull = false) {last : Label} {p : List Label} (hPath : f.FromEntry last p)
    (hReturns : f.Returns last) :
    (f.prune o oracle).func.netCount o.symbols v p = f.netCount o.symbols v p := by
  have hClosed : ∀ r ∈ f.removals o oracle, window r false (f.executed p) = some false := by
    intro r hr
    obtain ⟨isOpen, hWindow, hEnd⟩ := window_of_path h hTags hSound hr hPath
    rw [hWindow, hEnd hReturns]
  have hNet := net_removed h hTags hSound hv (fun i hi => exists_of_mem_executed hi)
    (fun _ => false) hClosed
  have hZero : ((f.removals o oracle).map fun r =>
      if r.1.value = v then false.toInt else 0).sum = 0 := by
    simp
  rw [hZero, Int.add_zero] at hNet
  rw [netCount, netCount, hNet, prune_func hTags, executed_erase]

end Func

end RefElision
