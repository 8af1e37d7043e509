import ShaderGen.Proofs.Binding

/-!
No instruction is lost. The arena takes an instruction as soon as it is made, while the
stream is put together from pieces; at the end the stream holds each instruction of the
arena once. So nothing that is read is missing, a shader can be written, and the ids
of imports, entries and instructions follow each other without a gap.
-/

namespace ShaderGen

/-- The slots of an arena, in order. -/
theorem Occupies.range (n : Nat) : Occupies ((List.range n).map InstrId.mk) 0 n := by
  induction n with
  | zero => exact .nil 0
  | succ n ih =>
    rw [List.range_succ, List.map_append]
    exact ih.append (.single n) (Nat.zero_le n) (Nat.le_succ n)

/-- What holds each slot once holds the slots in some order. -/
theorem Occupies.perm_range {ids : List InstrId} {n : Nat} (h : Occupies ids 0 n) :
    ids.Perm ((List.range n).map InstrId.mk) :=
  List.perm_iff_count.mpr fun id => (h id).trans (Occupies.range n id).symm

namespace Numbering

/-- The ids of the imports and entries of a module and of the instructions of a stream, in
that order. -/
def handedOut (n : Numbering) (m : Module) (body : List InstrId) : List (Option Nat) :=
  (List.range m.imports.size).map (fun i => (n.importId ⟨i⟩).toOption) ++
    (List.range m.table.size).map (fun i => (n.entryId ⟨i⟩).toOption) ++
      body.map n.instrId?

/-- The first id that is not handed out comes behind as many as there are things to
number. -/
theorem next_of_assign {n : Numbering} {m : Module} {body : List InstrId}
    (hbody : ∀ id ∈ body, id.index < m.instrs.size) (h : assign m body = .ok n) :
    n.next = 1 + m.imports.size + m.table.size + body.length := by
  obtain ⟨ids, hids⟩ := number_answers (Array.replicate m.instrs.size none)
    (m.imports.size + m.table.size + 1) (by simpa using hbody)
  simp only [assign, hids, bind_eq_ok, pure_eq_ok, Except.ok.injEq] at h
  obtain ⟨_, rfl, next, hword, rfl⟩ := h
  unfold Fault.checkWord at hword
  split at hword
  · cases hword
    dsimp only
    omega
  · cases hword

/-- The ids that are handed out are the numbers from one on. -/
theorem handedOut_of_assign {n : Numbering} {m : Module} {body : List InstrId}
    (hnodup : body.Nodup) (hbody : ∀ id ∈ body, id.index < m.instrs.size)
    (h : assign m body = .ok n) :
    n.handedOut m body = (List.range' 1 (n.next - 1)).map some := by
  have hn := assign_fits hnodup h
  have himports : (List.range m.imports.size).map (fun i => (n.importId ⟨i⟩).toOption) =
      (List.range' 1 m.imports.size).map some := by
    rw [List.range'_eq_map_range, List.map_map]
    refine List.map_congr_left fun i hi => ?_
    have hid : n.importId ⟨i⟩ = .ok (i + 1) := if_pos (hn.imports ▸ List.mem_range.mp hi)
    rw [hid, Function.comp_apply, Nat.add_comm]
    rfl
  have hentries : (List.range m.table.size).map (fun i => (n.entryId ⟨i⟩).toOption) =
      (List.range' (1 + m.imports.size) m.table.size).map some := by
    rw [List.range'_eq_map_range, List.map_map]
    refine List.map_congr_left fun i hi => ?_
    have hid : n.entryId ⟨i⟩ = .ok (n.imports + i + 1) := if_pos (hn.entries ▸ List.mem_range.mp hi)
    rw [hid, hn.imports, Function.comp_apply, Nat.add_comm _ 1, ← Nat.add_assoc]
    rfl
  have hinstrs : body.map n.instrId? =
      (List.range' (1 + m.imports.size + m.table.size) body.length).map some := by
    refine List.ext_getElem (by simp) fun k hk _ => ?_
    rw [List.length_map] at hk
    rw [List.getElem_map, List.getElem_map, hn.instr (List.getElem?_eq_getElem hk),
      List.getElem_range']
    congr 1
    omega
  have hlength : n.next - 1 = m.imports.size + m.table.size + body.length := by
    have := next_of_assign hbody h
    omega
  rw [handedOut, himports, hentries, hinstrs, ← List.map_append, ← List.map_append, hlength,
    List.range'_append_1, Nat.add_assoc 1, List.range'_append_1]

end Numbering

variable {ρ : Type} [RandomSource ρ] [BoundedRandomSource ρ]

/-- The body of a generated shader holds each instruction of the arena once, and each of
them that has a typed result has its type. The shader can be written, and what it numbers
gets the numbers from one on. -/
theorem Config.complete_of_shaderFrom {c : Config} {source : ρ} {s : Shader}
    (h : c.shaderFrom source = .ok s) :
    s.body.toList.Perm ((List.range s.code.instrs.size).map InstrId.mk) ∧
      (∀ i ∈ s.code.instrs, i.opcode.isTyped = true → ∃ ty, i.resultType = some ty) ∧
      (∃ text, s.text = .ok text) ∧
      ∃ n, s.numbering = some n ∧
        n.handedOut s.code s.body.toList = (List.range' 1 (n.next - 1)).map some := by
  obtain ⟨fs, n, hs, hnumbering, hassign⟩ := c.assembled_of_shaderFrom h
  have hn := Numbering.assign_fits hs.occupies.nodup hassign
  obtain ⟨_, _, _, hlisting, _⟩ := hs.listing_sections hn hnumbering
  refine ⟨hs.occupies.perm_range, fun i hi htyped => ?_, ?_, n, hnumbering, ?_⟩
  · obtain ⟨k, hk, rfl⟩ := Array.mem_iff_getElem.mp hi
    rw [(hs.typed (Array.getElem?_eq_getElem hk)).isTyped] at htyped
    exact Option.isSome_iff_exists.mp htyped
  · rw [Shader.text, hlisting]
    exact ⟨_, rfl⟩
  · exact Numbering.handedOut_of_assign hs.occupies.nodup
      (fun id hid => (hs.occupies.mem_iff.mp hid).2) hassign

theorem Config.complete_small : ∃ s, Config.small.shaderFrom Script.selection = .ok s ∧
    s.body.toList.Perm ((List.range s.code.instrs.size).map InstrId.mk) ∧
      (∀ i ∈ s.code.instrs, i.opcode.isTyped = true → ∃ ty, i.resultType = some ty) ∧
      (∃ text, s.text = .ok text) ∧
      ∃ n, s.numbering = some n ∧
        n.handedOut s.code s.body.toList = (List.range' 1 (n.next - 1)).map some := by
  obtain ⟨s, hs, _⟩ := small_shaderFrom
  exact ⟨s, hs, complete_of_shaderFrom hs⟩

end ShaderGen
