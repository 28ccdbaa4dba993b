import RefElision.Program.Operand

/-! The cases of a switch: a finite map from case values to labels, listed by
ascending value. -/
namespace RefElision

/-- A list of cases with strictly ascending values. -/
structure CaseTable where
  entries : List (Int64 × Label)
  ascending : entries.Pairwise (fun a b => a.1 < b.1)
  deriving DecidableEq, Repr

namespace CaseTable

/-- Puts a case where its value belongs. An entry with that value is replaced. -/
def insertEntry (value : Int64) (target : Label) :
    List (Int64 × Label) → List (Int64 × Label)
  | [] => [(value, target)]
  | e :: rest =>
    if value < e.1 then (value, target) :: e :: rest
    else if value = e.1 then (value, target) :: rest
    else e :: insertEntry value target rest

theorem mem_insertEntry {value : Int64} {target : Label} {x : Int64 × Label}
    {entries : List (Int64 × Label)} (h : x ∈ insertEntry value target entries) :
    x = (value, target) ∨ x ∈ entries := by
  induction entries with
  | nil => simpa [insertEntry] using h
  | cons e rest ih =>
      unfold insertEntry at h
      split at h
      · simpa using h
      · split at h
        · rcases List.mem_cons.mp h with h | h
          · exact Or.inl h
          · exact Or.inr (List.mem_cons_of_mem _ h)
        · rcases List.mem_cons.mp h with h | h
          · exact Or.inr (h ▸ List.mem_cons_self)
          · exact (ih h).imp id (List.mem_cons_of_mem _)

theorem pairwise_insertEntry (value : Int64) (target : Label)
    {entries : List (Int64 × Label)} (h : entries.Pairwise (fun a b => a.1 < b.1)) :
    (insertEntry value target entries).Pairwise (fun a b => a.1 < b.1) := by
  induction entries with
  | nil => simp [insertEntry]
  | cons e rest ih =>
      obtain ⟨hHead, hRest⟩ := List.pairwise_cons.mp h
      unfold insertEntry
      split
      · rename_i hLess
        refine List.pairwise_cons.mpr ⟨fun x hx => ?_, h⟩
        rcases List.mem_cons.mp hx with rfl | hx
        · exact hLess
        · exact Int64.lt_trans hLess (hHead x hx)
      · split
        · rename_i hSame
          exact List.pairwise_cons.mpr ⟨fun x hx => hSame ▸ hHead x hx, hRest⟩
        · rename_i hNotLess hDifferent
          refine List.pairwise_cons.mpr ⟨fun x hx => ?_, ih hRest⟩
          rcases mem_insertEntry hx with rfl | hx
          · exact (Int64.lt_or_lt_of_ne hDifferent).resolve_left hNotLess
          · exact hHead x hx

def empty : CaseTable :=
  ⟨[], List.Pairwise.nil⟩

/-- The table with one case added, or changed if it has that value already. -/
def insert (t : CaseTable) (value : Int64) (target : Label) : CaseTable :=
  ⟨insertEntry value target t.entries, pairwise_insertEntry value target t.ascending⟩

/-- The table of some cases. Of two cases with one value the later counts. -/
def ofList (cases : List (Int64 × Label)) : CaseTable :=
  cases.foldl (fun t c => t.insert c.1 c.2) empty

def singleton (value : Int64) (target : Label) : CaseTable :=
  empty.insert value target

def contains (t : CaseTable) (value : Int64) : Bool :=
  t.entries.any (·.1 == value)

end CaseTable

end RefElision
