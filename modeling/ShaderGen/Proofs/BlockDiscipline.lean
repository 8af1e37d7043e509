import ShaderGen.Proofs.Buffering

/-!
Block discipline. In a generated shader exactly the structs that storage buffers hold are
decorated as blocks, each once and with one offset for each member; each buffer has its
place and no two of them the same; nothing else is decorated; and no private variable and
no variable of a function holds a block, however its type came about.
-/

namespace ShaderGen

namespace Module

/-- A storage buffer and the type it holds. -/
def BufferHolds (m : Module) (buffer pointee : EntryId) : Prop :=
  ∃ v, m.table.get? buffer = some (.var v) ∧ v.storage = .storageBuffer ∧
    m.table.IsType v.ty (.pointer .storageBuffer pointee)

/-- Blocks and buffers are decorated as they have to be, and nothing else is. -/
structure BlockDiscipline (m : Module) : Prop where
  /-- What is decorated as a block is what a buffer holds. -/
  blocks : ∀ id, .entry id .block ∈ m.annotations ↔ ∃ buffer, m.BufferHolds buffer id
  /-- It is a struct, decorated once, with one offset for each member. -/
  block : ∀ id, .entry id .block ∈ m.annotations → ∃ (members : List EntryId)
    (offsets : List Nat), m.table.IsType id (.struct members) ∧ offsets.length = members.length ∧
      m.about id = .entry id .block :: offsets.zipIdx.map fun x => .member id x.2 (.offset x.1)
  /-- Each buffer has its descriptor set and its binding. -/
  buffer : ∀ id v, m.table.get? id = some (.var v) → v.storage = .storageBuffer →
    ∃ binding, m.about id = [.entry id (.descriptorSet 0), .entry id (.binding binding)]
  bindings : ∀ id id' binding, .entry id (.binding binding) ∈ m.annotations →
    .entry id' (.binding binding) ∈ m.annotations → id = id'
  others : ∀ id, (∀ buffer, ¬ m.BufferHolds buffer id) → (∀ pointee, ¬ m.BufferHolds id pointee) →
    m.about id = []
  /-- No other variable holds a block. -/
  entries : ∀ id v, m.table.get? id = some (.var v) → v.storage ≠ .storageBuffer →
    ∃ pointee, m.table.IsType v.ty (.pointer v.storage pointee) ∧
      .entry pointee .block ∉ m.annotations
  locals : ∀ i ∈ m.instrs, i.opcode = .var → ∃ pointer pointee, i.resultType = some pointer ∧
    m.table.IsType pointer (.pointer .function pointee) ∧ .entry pointee .block ∉ m.annotations

variable {m : Module} {bs : List BufferDecl} {d : BufferDecl}

theorem not_block_of_isBlock {id : EntryId} (h : m.isBlock id = false) :
    .entry id .block ∉ m.annotations := by
  intro hmem
  rw [isBlock_iff.mpr hmem] at h
  cases h

namespace Declares

theorem bufferHolds_iff (h : m.Declares bs) {buffer pointee : EntryId} :
    m.BufferHolds buffer pointee ↔ ∃ d ∈ bs, d.buffer = buffer ∧ d.block = pointee := by
  constructor
  · rintro ⟨v, hv, hstorage, hty⟩
    have hmem : (buffer, v) ∈ m.bufferVars := mem_bufferVars.mpr ⟨hv, hstorage⟩
    obtain ⟨d, hd, hbuffer, hblock⟩ := forall₂_exists_of_mem h.vars.flip hmem
    exact ⟨d, hd, hbuffer.symm, (Ty.pointer.inj (hblock.unique hty)).2⟩
  · rintro ⟨d, hd, rfl, rfl⟩
    obtain ⟨⟨id, v⟩, hmem, rfl, hty⟩ := forall₂_exists_of_mem h.vars hd
    obtain ⟨hv, hstorage⟩ := mem_bufferVars.mp hmem
    exact ⟨v, hv, hstorage, hty⟩

/-- The binding of a buffer is its place in the list. -/
theorem binding (h : m.Declares bs) {id : EntryId} {binding : Nat}
    (hmem : .entry id (.binding binding) ∈ m.annotations) :
    ∃ d, bs[binding]? = some d ∧ d.buffer = id := by
  have habout : .entry id (.binding binding) ∈ m.about id := mem_about.mpr ⟨hmem, rfl⟩
  by_cases hblock : ∃ d ∈ bs, d.block = id
  · obtain ⟨d, hd, rfl⟩ := hblock
    rw [h.blocks d hd] at habout
    simp [BufferDecl.blockNotes] at habout
  by_cases hbuffer : ∃ d ∈ bs, d.buffer = id
  · obtain ⟨d, hd, rfl⟩ := hbuffer
    obtain ⟨i, hi⟩ := List.mem_iff_getElem?.mp hd
    rw [h.buffers i d hi] at habout
    obtain rfl : binding = i := by simpa [BufferDecl.bufferNotes] using habout
    exact ⟨d, hi, rfl⟩
  · push Not at hblock hbuffer
    rw [h.others id fun d hd => ⟨(hblock d hd).symm, (hbuffer d hd).symm⟩] at habout
    cases habout

/-- Declared buffers are disciplined if no other variable holds a block. -/
theorem blockDiscipline (h : m.Declares bs) (ha : m.Apart) : m.BlockDiscipline where
  blocks id := by
    rw [← isBlock_iff, h.isBlock_iff_mem]
    constructor
    · rintro ⟨d, hd, hblock⟩
      exact ⟨d.buffer, h.bufferHolds_iff.mpr ⟨d, hd, rfl, hblock⟩⟩
    · rintro ⟨buffer, hholds⟩
      obtain ⟨d, hd, -, hblock⟩ := h.bufferHolds_iff.mp hholds
      exact ⟨d, hd, hblock⟩
  block id hid := by
    obtain ⟨d, hd, rfl⟩ := h.isBlock_iff_mem.mp (isBlock_iff.mpr hid)
    have hlength : d.offsets.length = d.types.length := by
      rw [BufferDecl.offsets, List.length_map, (h.sound d hd).members.length_eq]
    exact ⟨d.types, d.offsets, (h.sound d hd).struct, hlength, h.blocks d hd⟩
  buffer id v hv hstorage := by
    have hmem : (id, v) ∈ m.bufferVars := mem_bufferVars.mpr ⟨hv, hstorage⟩
    obtain ⟨d, hd, rfl, -⟩ := forall₂_exists_of_mem h.vars.flip hmem
    obtain ⟨i, hi⟩ := List.mem_iff_getElem?.mp hd
    exact ⟨i, h.buffers i d hi⟩
  bindings id id' binding hid hid' := by
    obtain ⟨d, hd, rfl⟩ := h.binding hid
    obtain ⟨d', hd', rfl⟩ := h.binding hid'
    cases hd.symm.trans hd'
    rfl
  others id hblock hbuffer := h.others id fun d hd =>
    ⟨fun heq => hblock d.buffer (h.bufferHolds_iff.mpr ⟨d, hd, rfl, heq.symm⟩),
      fun heq => hbuffer d.block (h.bufferHolds_iff.mpr ⟨d, hd, heq.symm, rfl⟩)⟩
  entries id v hv hstorage := by
    obtain ⟨pointee, hty, hpointee⟩ := ha.entries id v hv hstorage
    exact ⟨pointee, hty, not_block_of_isBlock hpointee⟩
  locals i hi hop := by
    obtain ⟨pointer, hpointer, pointee, hty, hpointee⟩ := ha.locals i hi hop
    exact ⟨pointer, pointee, hpointer, hty, not_block_of_isBlock hpointee⟩

end Declares

end Module

variable {ρ : Type} [RandomSource ρ] [BoundedRandomSource ρ]

/-- In every generated shader blocks are what storage buffers hold, and nothing else is
decorated or holds a block. -/
theorem Config.blockDiscipline_of_shaderFrom {c : Config} {source : ρ} {s : Shader}
    (h : c.shaderFrom source = .ok s) : s.code.BlockDiscipline := by
  obtain ⟨bs, -, hdeclares, hapart⟩ := declares_of_shaderFrom h
  exact hdeclares.blockDiscipline hapart

theorem Config.blockDiscipline_buffered :
    ∃ s, Config.buffered.shaderFrom Script.buffered = .ok s ∧ s.code.BlockDiscipline := by
  obtain ⟨s, hs, -⟩ := buffered_shaderFrom
  exact ⟨s, hs, blockDiscipline_of_shaderFrom hs⟩

end ShaderGen
