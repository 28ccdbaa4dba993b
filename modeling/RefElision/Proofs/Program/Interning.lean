import Mathlib.Data.List.Nodup
import RefElision.Proofs.Program.Building

/-! How a builder finds variables by their names. A name gets a variable when it is first
asked for, the variable belongs to no other name, and the name keeps it whatever steps follow. -/
namespace RefElision

namespace VariableTable

variable {table : VariableTable} {x y : String} {n : Nat}

/-- No name has two variables, and the variables are numbered in the order in which they
were made. -/
structure OneEach (table : VariableTable) : Prop where
  names_nodup : (table.map Prod.fst).Nodup
  numbers : table.map Prod.snd = (List.range table.length).reverse

/-- The name has a variable. -/
def Has (table : VariableTable) (x : String) : Prop :=
  ∃ n, table.lookup x = some n

/-- Names that have a variable keep it. -/
def Extends (before after : VariableTable) : Prop :=
  ∀ x n, before.lookup x = some n → after.lookup x = some n

theorem Extends.trans {first second third : VariableTable} (h : Extends first second)
    (h' : Extends second third) : Extends first third :=
  fun x n hx => h' x n (h x n hx)

theorem Extends.has {after : VariableTable} (h : Extends table after) (hx : table.Has x) :
    after.Has x :=
  hx.imp (h x)

theorem enter_known (h : table.lookup x = some n) : table.enter x = table := by
  rw [enter, h]

theorem enter_new (h : table.lookup x = none) : table.enter x = (x, table.length) :: table := by
  rw [enter, h]

theorem OneEach.enter (h : table.OneEach) (x : String) : (table.enter x).OneEach := by
  cases hx : table.lookup x with
  | some n => exact (enter_known hx).symm ▸ h
  | none =>
      have hNew : x ∉ table.map Prod.fst := by
        intro hMem
        obtain ⟨e, he, rfl⟩ := List.mem_map.mp hMem
        simpa using List.lookup_eq_none_iff.mp hx e he
      rw [enter_new hx]
      constructor
      case names_nodup => exact List.nodup_cons.mpr ⟨hNew, h.names_nodup⟩
      case numbers =>
        rw [List.map_cons, h.numbers, List.length_cons, List.range_succ, List.reverse_append]
        rfl

theorem has_enter (table : VariableTable) (x : String) : (table.enter x).Has x := by
  cases hx : table.lookup x with
  | some n => exact ⟨n, (enter_known hx).symm ▸ hx⟩
  | none => exact ⟨table.length, by rw [enter_new hx, List.lookup_cons_self]⟩

theorem extends_enter (table : VariableTable) (x : String) : Extends table (table.enter x) := by
  intro y n hy
  cases hx : table.lookup x with
  | some m => rwa [enter_known hx]
  | none =>
      have hne : (y == x) = false := by
        rw [beq_eq_false_iff_ne]
        rintro rfl
        rw [hx] at hy
        cases hy
      rw [enter_new hx, List.lookup_cons, hne]
      exact hy

/-- What asking for a number of names does. -/
theorem enterAll_spec (table : VariableTable) (names : List String) :
    (table.OneEach → (table.enterAll names).OneEach) ∧ Extends table (table.enterAll names) ∧
      ∀ x ∈ names, (table.enterAll names).Has x := by
  induction names generalizing table with
  | nil => exact ⟨id, fun _ _ => id, fun x hx => (List.not_mem_nil hx).elim⟩
  | cons y rest ih =>
      obtain ⟨hEach, hExtends, hHas⟩ := ih (table.enter y)
      refine ⟨fun h => hEach (h.enter y), (extends_enter table y).trans hExtends, fun x hx => ?_⟩
      rcases List.mem_cons.mp hx with rfl | hRest
      · exact hExtends.has (has_enter table x)
      · exact hHas x hRest

end VariableTable

/-- The variables that occur in a block. -/
def Block.mentioned (b : Block) : List String :=
  b.body.flatMap Instr.mentioned ++ b.term.mentioned

namespace Builder

variable {b c : Builder}

/-- The variables that occur in what was built so far. -/
def mentioned (b : Builder) : List String :=
  b.args ++ b.finished.flatMap Block.mentioned ++
    (b.current.map fun block => block.body.flatMap Instr.mentioned).getD []

/-- One builder comes from another, and for what is new in it names were asked for. -/
def Asked (b c : Builder) : Prop :=
  ∃ names, c.table = b.table.enterAll names ∧ c.mentioned ⊆ b.mentioned ++ names

theorem Asked.of_eq (hTable : c.table = b.table) (hMentioned : c.mentioned = b.mentioned) :
    Asked b c :=
  ⟨[], hTable, by simp [hMentioned]⟩

theorem asked_label (b : Builder) (l : Label) : Asked b (b.label l) := by
  rw [label]
  split
  case isTrue => exact .of_eq rfl rfl
  case isFalse =>
    refine .of_eq rfl ?_
    simp only [mentioned, List.flatMap_append]
    cases b.current <;>
      simp [OpenBlock.close, Block.mentioned, Terminator.mentioned, Terminator.uses]

theorem asked_emitShown (b : Builder) (shown : Operation Value) (i : Instr) :
    Asked b (b.emitShown shown i) := by
  rw [emitShown]
  split
  case h_1 => exact ⟨i.mentioned, rfl, List.subset_append_left _ _⟩
  case h_2 block hCurrent =>
    refine ⟨i.mentioned, rfl, ?_⟩
    simp [mentioned, intern, hCurrent]

theorem asked_emitTerminator (b : Builder) (t : Terminator Value) :
    Asked b (b.emitTerminator t) := by
  rw [emitTerminator]
  split
  case h_1 => exact ⟨t.mentioned, rfl, List.subset_append_left _ _⟩
  case h_2 => exact ⟨t.mentioned, rfl, List.subset_append_left _ _⟩

theorem asked_terminate (b : Builder) (t : Terminator Value) : Asked b (b.terminate t) := by
  rw [terminate]
  split
  case h_1 => exact ⟨t.mentioned, rfl, List.subset_append_left _ _⟩
  case h_2 block hCurrent =>
    simp only [intern] at hCurrent
    refine ⟨t.mentioned, rfl, ?_⟩
    simp [mentioned, intern, hCurrent, OpenBlock.close, Block.mentioned]

theorem asked_step (b : Builder) (s : Step) : Asked b (b.step s) := by
  cases s with
  | label l => exact asked_label b l
  | perform o => exact asked_emitShown (b.reserve 1) _ _
  | performThenName o => exact asked_emitShown (b.reserve 1) _ _
  | emit i => exact asked_emitShown b _ _
  | emitTerminator t => exact asked_emitTerminator b t
  | terminate t => exact asked_terminate b t
  | build =>
      rw [step, build]
      split <;> exact .of_eq rfl rfl

/-- Names are in order, and each variable that occurs is found by its name. -/
structure Named (b : Builder) : Prop where
  one_each : b.table.OneEach
  has : ∀ x ∈ b.mentioned, b.table.Has x

theorem Named.asked (h : b.Named) (hAsked : Asked b c) : c.Named := by
  obtain ⟨names, hTable, hMentioned⟩ := hAsked
  obtain ⟨hEach, hExtends, hHas⟩ := b.table.enterAll_spec names
  refine ⟨hTable ▸ hEach h.one_each, fun x hx => hTable ▸ ?_⟩
  rcases List.mem_append.mp (hMentioned hx) with hOld | hNew
  · exact hExtends.has (h.has x hOld)
  · exact hHas x hNew

/-- After any steps all variables are found by their names. -/
theorem Named.run (h : b.Named) (steps : List Step) : (b.run steps).Named := by
  induction steps generalizing b with
  | nil => exact h
  | cons s rest ih => exact ih (h.asked (asked_step b s))

end Builder

end RefElision
