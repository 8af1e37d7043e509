import ShaderGen.Proofs.Bounding

/-!
Type soundness of generation. Whatever is drawn, every instruction of a finished
shader keeps the typing rule of its opcode, the modulos that bound dynamic accesses
and the accesses they bound included.
-/

namespace ShaderGen

variable {ρ : Type} [RandomSource ρ] [BoundedRandomSource ρ]

/-- Every instruction in the body of a generated shader is typed. -/
theorem Config.typed_of_shaderFrom {c : Config} {source : ρ} {s : Shader}
    (h : c.shaderFrom source = .ok s) :
    ∀ id ∈ s.body, ∃ i, s.code.instrs[id.index]? = some i ∧ s.code.Typed i := by
  obtain ⟨fs, n, hs, _, _⟩ := c.assembled_of_shaderFrom h
  intro id hid
  have hlt := (hs.occupies.mem_iff.mp (Array.mem_toList_iff.mpr hid)).2
  have hi := Array.getElem?_eq_getElem hlt
  exact ⟨_, hi, hs.typed hi⟩

theorem Config.typed_small : ∃ s, Config.small.shaderFrom Script.selection = .ok s ∧
    ∀ id ∈ s.body, ∃ i, s.code.instrs[id.index]? = some i ∧ s.code.Typed i := by
  obtain ⟨s, hs, _⟩ := small_shaderFrom
  exact ⟨s, hs, typed_of_shaderFrom hs⟩

end ShaderGen
