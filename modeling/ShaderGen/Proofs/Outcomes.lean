import ShaderGen.Proofs.Bounding
import ShaderGen.Proofs.Budget
import ShaderGen.Proofs.Emission
import ShaderGen.Proofs.Entries

/-!
What comes of a configuration. A valid configuration gives a shader, or the budget is
exceeded, or one of the reasons of `Config.Breaks` applies: no search is left without
an answer, no loop runs out of steps and the entry point is always there. With equal
weights these reasons are numbers that are too large (`Config.Breaks.of_uniform`).
-/

namespace ShaderGen

open RandomSource (choosable total isDrawable)

variable {ρ : Type} [RandomSource ρ] {c : Config}

/-! ### Finishing -/

/-- A shader made of functions is finished, unless its ids do not fit their word. -/
theorem Shader.Assembled.finish_answers {s : Shader} {fs : List FunctionParts}
    (hs : s.Assembled c fs) : (∃ s', s.finish = .ok s') ∨
      s.finish = .error .overflow ∧ ∃ count bounded, s.boundIndices = .ok (count, bounded) ∧
        2 ^ 32 ≤ bounded.code.imports.size + bounded.code.table.size + bounded.body.size + 1 := by
  obtain ⟨count, bounded, hbound⟩ := hs.boundIndices_answers
  obtain ⟨fs', hbounded, -⟩ := hs.boundIndices hbound
  rcases Numbering.assign_answers fun id hid => (hbounded.occupies.mem_iff.mp hid).2 with
    ⟨n, hn⟩ | ⟨hfull, hlarge⟩
  · refine .inl ⟨{ bounded with numbering := some n }, ?_⟩
    simp only [Shader.finish, Shader.assignIds, hbound, hn, bind, Except.bind]
    rfl
  · refine .inr ⟨?_, count, bounded, hbound, by simpa using hlarge⟩
    simp only [Shader.finish, Shader.assignIds, hbound, hfull, bind, Except.bind]

/-! ### Outcomes -/

/-- A valid configuration gives a shader, or the budget is exceeded, or there is one of
the reasons to stop that validation does not rule out. There is no shader if the numbers
of the configuration are too large. -/
theorem Config.outcome_of_validate [LawfulRandomSource ρ] (hc : c.validate = .ok ()) (source : ρ) :
    (c.Fits ∧ ∃ s, c.shaderFrom source = .ok s) ∨
      c.shaderFrom source = .error (.overBudget c.instructionBudget) ∨
      ∃ cause, c.shaderFrom source = .error cause ∧ c.Breaks ρ cause := by
  have hprogram := (Gen.program_finishes hc source).and
    (Gen.program_ends (c.maxFunctions_ne_zero hc) source)
  rcases hrun : Gen.program.run c (.start source) with ⟨_ | program, s⟩
  · obtain ⟨⟨cause, rfl, hcause⟩, -⟩ := hprogram.of_run_error hrun
    have hstop : c.shaderFrom source = .error cause := by
      rw [Config.shaderFrom, hc, hrun]
      rfl
    rcases hcause with rfl | hbreaks
    · exact .inr (.inl hstop)
    · exact .inr (.inr ⟨cause, hstop, hbreaks⟩)
  · obtain ⟨hfits, -, fs, hassembled⟩ := hprogram.of_run_ok hrun
    rcases hassembled.finish_answers with ⟨s', hs'⟩ | ⟨hfull, count, bounded, hbound, hlarge⟩
    · refine .inl ⟨hfits, s', ?_⟩
      rw [Config.shaderFrom, hc, hrun]
      simp only [hs']
      rfl
    · refine .inr (.inr ⟨.fault .overflow, ?_, .ids hrun hbound hlarge⟩)
      rw [Config.shaderFrom, hc, hrun]
      simp only [hfull]
      rfl

namespace Config

/-- A configuration of so many types that four attempts for each do not fit their word. -/
def swollen : Config := { small with maxTypes := 2 ^ 62 }

theorem swollen_validate : swollen.validate = .ok () := rfl

theorem swollen_shaderFrom : swollen.shaderFrom Script.selection = .error (.fault .overflow) := rfl

/-- There is a shader, of numbers that are not too large; and of too many types there is none. -/
theorem outcome_small :
    (small.validate = .ok () ∧ small.Fits ∧ ∃ s, small.shaderFrom Script.selection = .ok s) ∧
    swollen.validate = .ok () ∧ swollen.Breaks Script (.fault .overflow) := by
  refine ⟨⟨small_validate, ?_⟩, swollen_validate, ?_⟩
  · obtain ⟨s, hs, -⟩ := small_shaderFrom
    rcases outcome_of_validate small_validate Script.selection with h | h | ⟨_, h, -⟩
    · exact h
    · cases hs.symm.trans h
    · cases hs.symm.trans h
  · rcases outcome_of_validate swollen_validate Script.selection with
      ⟨-, _, h⟩ | h | ⟨_, h, hbreaks⟩
    · cases swollen_shaderFrom.symm.trans h
    · cases swollen_shaderFrom.symm.trans h
    · cases swollen_shaderFrom.symm.trans h
      exact hbreaks

end Config

end ShaderGen
