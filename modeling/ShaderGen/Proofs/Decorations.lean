import ShaderGen.Proofs.Placement
import ShaderGen.Proofs.Session
import ShaderGen.Proofs.Sparing

/-!
What a module says of its storage buffers. Buffers of the same members share a block, and
the first of them decorates it. `Module.Declares` lists the buffers of a module in the order
of their variables and says what stands in the annotations: each block is decorated once,
each buffer is bound to its place in the list, and of all else nothing is said. One more
buffer keeps that, whether its block is new or not.
-/

namespace ShaderGen

/-- Types are no variables. -/
theorem Table.IsType.ne_var {t : Table} {id id' : EntryId} {ty : Ty} {v : GlobalVar}
    (h : t.IsType id ty) (h' : t.get? id' = some (.var v)) : id ≠ id' := by
  rintro rfl
  cases Eq.trans h.symm h'

/-- A storage buffer: its variable, the struct it holds, and the types of the struct's
members with the members themselves. -/
structure BufferDecl where
  buffer : EntryId
  block : EntryId
  types : List EntryId
  members : List BufferMember

namespace BufferDecl

/-- The offsets of the members. -/
def offsets (d : BufferDecl) : List Nat := d.members.map (·.offset)

/-- What is said of a block. -/
def blockNotes (block : EntryId) (offsets : List Nat) : List Annotation :=
  .entry block .block :: offsets.zipIdx.map fun (offset, i) => .member block i (.offset offset)

/-- What is said of a buffer with a binding. -/
def bufferNotes (buffer : EntryId) (binding : Nat) : List Annotation :=
  [.entry buffer (.descriptorSet 0), .entry buffer (.binding binding)]

theorem target_of_mem_blockNotes {block : EntryId} {offsets : List Nat} {a : Annotation}
    (ha : a ∈ blockNotes block offsets) : a.target = block := by
  rcases List.mem_cons.mp ha with rfl | ha
  · rfl
  · obtain ⟨x, -, rfl⟩ := List.mem_map.mp ha
    rfl

theorem target_of_mem_bufferNotes {buffer : EntryId} {binding : Nat} {a : Annotation}
    (ha : a ∈ bufferNotes buffer binding) : a.target = buffer := by
  rcases List.mem_pair.mp ha with rfl | rfl
  · rfl
  · rfl

/-- The struct of a buffer has one to four members, which stand where the layout says. -/
structure Sound (m : Module) (d : BufferDecl) : Prop where
  struct : m.table.IsType d.block (.struct d.types)
  few : 1 ≤ d.types.length ∧ d.types.length ≤ 4
  members : List.Forall₂ (fun ty b => b.Holds m.table ty) d.types d.members
  offsets : Layout.offsets? m d.types = .ok (some d.offsets)

theorem Sound.mono {m m' : Module} {d : BufferDecl} (h : d.Sound m) (hle : m.table ≤ m'.table) :
    d.Sound m' where
  struct := hle h.struct
  few := h.few
  members := h.members.imp fun _ _ hb => hb.mono hle
  offsets := (Layout.offsetsFrom_mono hle h.members 0).trans h.offsets

end BufferDecl

namespace Module

variable {m m' : Module}

/-! ### Annotations -/

/-- The annotations that are about an entry, in order. -/
def about (m : Module) (id : EntryId) : List Annotation :=
  m.annotations.toList.filter fun a => a.target = id

theorem about_congr (h : m'.annotations = m.annotations) (id : EntryId) :
    m'.about id = m.about id := by
  rw [about, h, about]

theorem mem_about {id : EntryId} {a : Annotation} :
    a ∈ m.about id ↔ a ∈ m.annotations ∧ a.target = id := by
  rw [about, List.mem_filter, Array.mem_toList_iff, decide_eq_true_iff]

theorem isBlock_iff {id : EntryId} : m.isBlock id = true ↔ .entry id .block ∈ m.annotations := by
  rw [isBlock, Array.any_eq_true']
  constructor
  · rintro ⟨a, ha, heq⟩
    obtain rfl := beq_iff_eq.mp heq
    exact ha
  · exact fun h => ⟨_, h, beq_self_eq_true _⟩

/-- What is said behind the annotations there are, all of it about one entry. -/
theorem about_append {as : List Annotation} {target : EntryId}
    (h : m'.annotations.toList = m.annotations.toList ++ as) (has : ∀ a ∈ as, a.target = target)
    (id : EntryId) : m'.about id = if id = target then m.about id ++ as else m.about id := by
  rw [about, h, List.filter_append]
  by_cases heq : id = target
  · rw [if_pos heq, List.filter_eq_self.mpr fun a ha => decide_eq_true ((has a ha).trans heq.symm),
      about]
  · have hnone : as.filter (fun a => a.target = id) = [] :=
      List.filter_eq_nil_iff.mpr fun a ha => by simpa [has a ha] using Ne.symm heq
    rw [if_neg heq, hnone, List.append_nil, about]

/-! ### Declared buffers -/

/-- The module declares the given buffers, and of nothing else anything is said. -/
structure Declares (m : Module) (bs : List BufferDecl) : Prop where
  vars : List.Forall₂ (fun (x : EntryId × GlobalVar) (d : BufferDecl) => x.1 = d.buffer ∧
    m.table.IsType x.2.ty (.pointer .storageBuffer d.block)) m.bufferVars bs
  sound : ∀ d ∈ bs, d.Sound m
  blocks : ∀ d ∈ bs, m.about d.block = BufferDecl.blockNotes d.block d.offsets
  buffers : ∀ i d, bs[i]? = some d → m.about d.buffer = BufferDecl.bufferNotes d.buffer i
  others : ∀ id, (∀ d ∈ bs, id ≠ d.block ∧ id ≠ d.buffer) → m.about id = []

namespace Declares

variable {bs : List BufferDecl} {d : BufferDecl}

theorem nil (hvars : m.bufferVars = []) (hannotations : m.annotations = #[]) : m.Declares [] where
  vars := hvars ▸ .nil
  sound := by simp
  blocks := by simp
  buffers := by simp
  others := by simp [about, hannotations]

theorem mono (h : m.Declares bs) (hle : m.table ≤ m'.table) (hvars : m'.bufferVars = m.bufferVars)
    (hannotations : m'.annotations = m.annotations) : m'.Declares bs where
  vars := hvars ▸ h.vars.imp fun _ _ hx => ⟨hx.1, hle hx.2⟩
  sound := fun d hd => (h.sound d hd).mono hle
  blocks := fun d hd => (about_congr hannotations _).trans (h.blocks d hd)
  buffers := fun i d hd => (about_congr hannotations _).trans (h.buffers i d hd)
  others := fun id hid => (about_congr hannotations _).trans (h.others id hid)

theorem var (h : m.Declares bs) (hd : d ∈ bs) : ∃ v, m.table.get? d.buffer = some (.var v) := by
  obtain ⟨⟨id, v⟩, hmem, rfl, -⟩ := forall₂_exists_of_mem h.vars hd
  exact ⟨v, (mem_bufferVars.mp hmem).1⟩

/-- The blocks are what the buffers hold. -/
theorem isBlock_iff_mem (h : m.Declares bs) {id : EntryId} :
    m.isBlock id = true ↔ ∃ d ∈ bs, d.block = id := by
  rw [isBlock_iff]
  constructor
  · intro hmem
    have hblock : .entry id .block ∈ m.about id := mem_about.mpr ⟨hmem, rfl⟩
    by_contra hnone
    push Not at hnone
    by_cases hbuffer : ∃ d ∈ bs, d.buffer = id
    · obtain ⟨d, hd, rfl⟩ := hbuffer
      obtain ⟨i, hi⟩ := List.mem_iff_getElem?.mp hd
      rw [h.buffers i d hi] at hblock
      simp [BufferDecl.bufferNotes] at hblock
    · push Not at hbuffer
      rw [h.others id fun d hd => ⟨(hnone d hd).symm, (hbuffer d hd).symm⟩] at hblock
      cases hblock
  · rintro ⟨d, hd, rfl⟩
    have hblock : .entry d.block .block ∈ m.about d.block := by
      rw [h.blocks d hd]
      exact List.mem_cons_self
    exact (mem_about.mp hblock).1

/-- Buffers of one block have the same members at the same places. -/
theorem offsets_unique {d' : BufferDecl} (h : d.Sound m) (h' : d'.Sound m)
    (hblock : d.block = d'.block) : d.offsets = d'.offsets := by
  have htypes : d.types = d'.types := Ty.struct.inj ((hblock ▸ h.struct).unique h'.struct)
  have hoffsets := h.offsets.symm.trans (htypes ▸ h'.offsets)
  exact Option.some.inj (Except.ok.inj hoffsets)

section Add

variable {n : Module} (h : m.Declares bs) (hle : m.table ≤ n.table) (hd : d.Sound n)
  (hnoted : n.annotations.toList = m.annotations.toList ++
    if m.isBlock d.block then [] else BufferDecl.blockNotes d.block d.offsets)
include h hle hd hnoted

/-- A block is decorated once, whether it has been before or not. -/
theorem about_noted : n.about d.block = BufferDecl.blockNotes d.block d.offsets ∧
    ∀ id, id ≠ d.block → n.about id = m.about id := by
  have htarget : ∀ a ∈ if m.isBlock d.block then [] else BufferDecl.blockNotes d.block d.offsets,
      a.target = d.block := by
    intro a ha
    split at ha
    · cases ha
    · exact BufferDecl.target_of_mem_blockNotes ha
  have habout (id : EntryId) := about_append hnoted htarget id
  refine ⟨?_, fun id hne => by rw [habout, if_neg hne]⟩
  rw [habout, if_pos rfl]
  by_cases hknown : m.isBlock d.block = true
  · obtain ⟨e, he, hsame⟩ := h.isBlock_iff_mem.mp hknown
    rw [if_pos hknown, List.append_nil, ← hsame, h.blocks e he,
      offsets_unique ((h.sound e he).mono hle) hd hsame]
  · have hnone : m.about d.block = [] := h.others _ fun e he => by
      refine ⟨fun heq => hknown (h.isBlock_iff_mem.mpr ⟨e, he, heq.symm⟩), ?_⟩
      rintro heq
      obtain ⟨v, hv⟩ := h.var he
      have := hle hv
      rw [← heq, hd.struct] at this
      cases this
    rw [if_neg hknown, hnone, List.nil_append]

/-- One more buffer, whose block is decorated unless it is a block already. -/
theorem add (hle' : n.table ≤ m'.table) {v : GlobalVar}
    (hvars : m'.bufferVars = m.bufferVars ++ [(d.buffer, v)])
    (hty : m'.table.IsType v.ty (.pointer .storageBuffer d.block))
    (hfresh : m.table.get? d.buffer = none)
    (hannotations : m'.annotations.toList =
      n.annotations.toList ++ BufferDecl.bufferNotes d.buffer bs.length) :
    m'.Declares (bs ++ [d]) := by
  obtain ⟨hblock, hother⟩ := h.about_noted hle hd hnoted
  have hsound : ∀ e ∈ bs ++ [d], e.Sound m' := by
    intro e he
    rcases List.mem_append.mp he with he | he
    · exact (h.sound e he).mono (hle.trans hle')
    · obtain rfl := List.mem_singleton.mp he
      exact hd.mono hle'
  have hbuffer : m'.table.get? d.buffer = some (.var v) := by
    have hmem : (d.buffer, v) ∈ m'.bufferVars := by simp [hvars]
    exact (mem_bufferVars.mp hmem).1
  -- the new buffer is neither a block nor an old buffer, and its block is no buffer
  have hnoblock : ∀ e ∈ bs ++ [d], e.block ≠ d.buffer :=
    fun e he => (hsound e he).struct.ne_var hbuffer
  have hold : ∀ e ∈ bs, e.buffer ≠ d.buffer ∧ e.buffer ≠ d.block := by
    intro e he
    obtain ⟨w, hw⟩ := h.var he
    refine ⟨fun heq => ?_, (hd.struct.ne_var (hle hw)).symm⟩
    rw [heq, hfresh] at hw
    cases hw
  have habout (id : EntryId) := about_append hannotations
    (fun _ => BufferDecl.target_of_mem_bufferNotes) id
  exact {
    vars := by
      rw [hvars]
      exact List.rel_append (h.vars.imp fun _ _ hx => ⟨hx.1, hle' (hle hx.2)⟩)
        (.cons ⟨rfl, hty⟩ .nil)
    sound := hsound
    blocks := fun e he => by
      rw [habout, if_neg (hnoblock e he)]
      by_cases hsame : e.block = d.block
      · rw [hsame, hblock, offsets_unique (hsound e he) (hsound d (by simp)) hsame]
      · rcases List.mem_append.mp he with he | he
        · rw [hother _ hsame, h.blocks e he]
        · exact absurd (congrArg BufferDecl.block (List.mem_singleton.mp he)) hsame
    buffers := fun i e he => by
      rcases Nat.lt_trichotomy i bs.length with hlt | rfl | hgt
      · rw [List.getElem?_append_left hlt] at he
        obtain ⟨hne, hne'⟩ := hold e (List.mem_of_getElem? he)
        rw [habout, if_neg hne, hother _ hne', h.buffers i e he]
      · obtain rfl : d = e := by simpa using he
        rw [habout, if_pos rfl, hother _ (hnoblock d (by simp)).symm, h.others, List.nil_append]
        exact fun e he => ⟨(hnoblock e (by simp [he])).symm, (hold e he).1.symm⟩
      · have hend : (bs ++ [d])[i]? = none := List.getElem?_eq_none (by
          rw [List.length_append]
          exact hgt)
        rw [hend] at he
        cases he
    others := fun id hid => by
      obtain ⟨hne, hne'⟩ := hid d (by simp)
      rw [habout, if_neg hne', hother _ hne]
      exact h.others id fun e he => hid e (List.mem_append_left _ he) }

end Add

end Declares

end Module

end ShaderGen
