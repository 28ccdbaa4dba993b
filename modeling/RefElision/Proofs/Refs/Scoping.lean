import RefElision.Proofs.Program.RoundTrip
import RefElision.Proofs.Refs.Frame

/-! Whether variables stay defined. A call that counts references may have a result, which is
lost if the call is removed. All that is defined in another way stays defined, and the text
can be read again. -/
namespace RefElision.Func

variable {f g : Func}

/-- The variable is no argument, and the instructions that assign it all count references. -/
structure AssignedByCounting (f : Func) (s : Symbols) (x : String) : Prop where
  not_arg : x ∉ f.args
  assigned : ∃ i ∈ f.instrs, x ∈ i.defs
  counts : ∀ i ∈ f.instrs, x ∈ i.defs → (s.classify i).isSome = true

theorem mem_defined {x : String} : x ∈ f.defined ↔ x ∈ f.args ∨ ∃ i ∈ f.instrs, x ∈ i.defs := by
  rw [defined, instrs, List.mem_append, ← List.flatMap_assoc, List.mem_flatMap]

/-- If what is removed counts references, then no other variable becomes undefined. -/
theorem Thins.mem_defined_or {s : Symbols} {removed : List Instr} (h : f.Thins removed g)
    (hCounts : ∀ i ∈ removed, (s.classify i).isSome = true) {x : String} (hx : x ∈ f.defined) :
    x ∈ g.defined ∨ f.AssignedByCounting s x := by
  rw [mem_defined, h.args_eq]
  by_cases hArg : x ∈ f.args
  case pos => exact .inl (.inl hArg)
  case neg =>
    have hAssigned : ∃ i ∈ f.instrs, x ∈ i.defs := (mem_defined.mp hx).resolve_left hArg
    by_cases hAll : ∀ i ∈ f.instrs, x ∈ i.defs → (s.classify i).isSome = true
    case pos => exact .inr ⟨hArg, hAssigned, hAll⟩
    case neg =>
      push Not at hAll
      obtain ⟨i, hi, hDefs, hPlain⟩ := hAll
      cases h.mem_or_mem hi with
      | inl hRemoved => exact (hPlain (hCounts i hRemoved)).elim
      | inr hKept => exact .inl (.inr ⟨i, hKept, hDefs⟩)

/-- After optimising, a variable that is used is defined unless only calls that count
references assigned it. If those that are used have kept an assignment, then the text can be
read again and is printed as before. -/
theorem optimize_keeps_defined (h : f.IsParsed) (o : Options) :
    (∀ x ∈ (f.optimize o).func.used,
      x ∈ (f.optimize o).func.defined ∨ f.AssignedByCounting o.symbols x) ∧
    ((∀ x ∈ (f.optimize o).func.used,
        f.AssignedByCounting o.symbols x → x ∈ (f.optimize o).func.defined) →
      (∀ x ∈ (f.optimize o).func.used, x ∈ (f.optimize o).func.defined) ∧
        ∃ g, Func.parse (f.optimize o).func.text = .ok g ∧ g.text = (f.optimize o).func.text) := by
  obtain ⟨removed, hCounts, hThins⟩ := Pass.thins h.wellFormed.toLinked h.tags_nodup .optimize o
  have hDefined : ∀ x ∈ (f.optimize o).func.used,
      x ∈ (f.optimize o).func.defined ∨ f.AssignedByCounting o.symbols x := fun x hx =>
    hThins.mem_defined_or hCounts (h.wellFormed.defined_of_used x (hThins.used_subset hx))
  refine ⟨hDefined, fun hCounted => ?_⟩
  have hAll : ∀ x ∈ (f.optimize o).func.used, x ∈ (f.optimize o).func.defined := fun x hx =>
    (hDefined x hx).elim id (hCounted x hx)
  have hWell : (f.optimize o).func.WellFormed := ⟨hThins.linked h.wellFormed.toLinked, hAll⟩
  obtain ⟨g, hParse, hName, hArgs, _, hBlocks⟩ :=
    hWell.exists_parse_text (hThins.wellNamed h.wellNamed)
  exact ⟨hAll, g, hParse, text_eq_of_alike hName hArgs hBlocks⟩

/-- The incref of the pair has a result that is assigned before. The other incref has no
decref and is the only one to assign its result. -/
def keptResults : Func where
  name := "f"
  args := ["v"]
  blocks := [⟨1, "entry", [⟨0, some "q", .op "new", []⟩,
    ⟨2, some "r", .call "NRT_incref", [.var "q"]⟩,
    ⟨4, some "q", .call "NRT_incref", [.var "v"]⟩,
    ⟨6, none, .call "NRT_decref", [.var "v"]⟩], [], .ret [.var "q", .var "r"]⟩]

theorem optimize_keeps_defined_keptResults :
    keptResults.IsParsed ∧ (keptResults.optimize {}).changed = true ∧
      keptResults.AssignedByCounting ({} : Options).symbols "r" ∧
      ∃ g, Func.parse (keptResults.optimize {}).func.text = .ok g ∧
        g.text = (keptResults.optimize {}).func.text := by
  have hRead : (Func.parse ("func @f(%v) \x7b\nentry:\n%q = new\n%r = call @NRT_incref(%q)\n" ++
      "%q = call @NRT_incref(%v)\ncall @NRT_decref(%v)\nret %q, %r\n\x7d\n")).toOption =
        some keptResults := by
    decide +kernel
  have hParsed : keptResults.IsParsed := isParsed_of_toOption hRead
  have hChanged : (keptResults.optimize {}).changed = true := by decide +kernel
  have hFunc : (keptResults.optimize {}).func =
      ⟨"f", ["v"], [⟨1, "entry", [⟨0, some "q", .op "new", []⟩,
        ⟨2, some "r", .call "NRT_incref", [.var "q"]⟩], [], .ret [.var "q", .var "r"]⟩], []⟩ := by
    decide +kernel
  have hLeft : ∀ x ∈ (keptResults.optimize {}).func.used,
      x ∈ (keptResults.optimize {}).func.defined := by
    rw [hFunc]
    decide
  exact ⟨hParsed, hChanged, ⟨by decide, by decide, by decide⟩,
    ((optimize_keeps_defined hParsed {}).2 fun x hx _ => hLeft x hx).2⟩

/-- The incref and the decref form a pair, and the result of the incref is returned. -/
def countedResult : Func where
  name := "f"
  args := ["v"]
  blocks := [⟨1, "entry", [⟨1, some "r", .call "NRT_incref", [.var "v"]⟩,
    ⟨3, none, .call "NRT_decref", [.var "v"]⟩], [], .ret [.var "r"]⟩]

/-- The pair is removed, and what is returned is no longer defined. -/
theorem optimize_forgets_result :
    countedResult.IsParsed ∧ "r" ∈ (countedResult.optimize {}).func.used ∧
      "r" ∉ (countedResult.optimize {}).func.defined ∧
      ¬ ∃ g, Func.parse (countedResult.optimize {}).func.text = .ok g := by
  have hRead : (Func.parse ("func @f(%v) \x7b\nentry:\n%r = call @NRT_incref(%v)\n" ++
      "call @NRT_decref(%v)\nret %r\n\x7d\n")).toOption = some countedResult := by
    decide +kernel
  have hFunc : (countedResult.optimize {}).func =
      ⟨"f", ["v"], [⟨1, "entry", [], [], .ret [.var "r"]⟩], []⟩ := by
    decide +kernel
  have hFails : (Func.parse (countedResult.optimize {}).func.text).toOption = none := by
    rw [hFunc]
    decide +kernel
  refine ⟨isParsed_of_toOption hRead, by rw [hFunc]; decide, by rw [hFunc]; decide, ?_⟩
  rintro ⟨g, hParse⟩
  rw [hParse] at hFails
  cases hFails

end RefElision.Func
