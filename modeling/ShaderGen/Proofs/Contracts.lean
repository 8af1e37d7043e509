import ShaderGen.Proofs.Books
import ShaderGen.Proofs.Runs

/-!
Contracts between routines. A contract says what a routine needs when it is called, what
holds at every moment while it runs, and what it leaves behind. It may be about whole
sessions or about their books alone. A routine keeps its contract if its own plan does, with
calls taken at their word; then whatever runs keeps it, however deep the calls go.
-/

namespace ShaderGen

/-- What of a session contracts are about. -/
class Aspect (ρ σ : Type) where
  of : State ρ → σ

instance {ρ : Type} : Aspect ρ Books := ⟨State.books⟩

instance {ρ : Type} : Aspect ρ (State ρ) := ⟨id⟩

/-- What is agreed about the routines: what a call needs, what holds at every moment of one
that started with a given aspect of the session, and how it ends. -/
structure Contract (σ : Type) where
  needs : {α : Type} → Routine α → σ → Prop
  during : {α : Type} → Routine α → σ → Event → σ → Prop
  leaves : {α : Type} → Routine α → σ → Except Ending α → σ → Prop

/-- What may be relied on when a routine is called. -/
structure Contract.Allows {σ : Type} (k : Contract σ) {α : Type} (r : Routine α) (pre : σ → Prop)
    (during : Event → σ → Prop) (post : σ → Prop) : Prop where
  needs : ∀ b, pre b → k.needs r b
  during : ∀ b e b', pre b → k.during r b e b' → during e b'
  leaves : ∀ b out b', pre b → k.leaves r b out b' → post b'

namespace Plan

variable {ρ σ α β : Type}

/-- A plan started with the given aspect of a session satisfies `during` at all moments and
`post` in the end, if every call keeps its contract. -/
def Meets [Aspect ρ σ] (c : Config) (k : Contract σ) (during : Event → σ → Prop) :
    {α : Type} → Plan ρ α → (Except Ending α → σ → Prop) → σ → Prop
  | _, .done a, post, b => post (.ok a) b
  | _, .step e x, post, b =>
    during e b ∧ ∀ s, Aspect.of s = b → post (x.run c s).1 (Aspect.of (x.run c s).2)
  | _, .call r, post, b =>
    k.needs r b ∧ (∀ e b', k.during r b e b' → during e b') ∧
      ∀ out b', k.leaves r b out b' → post out b'
  | _, .seq p q, post, b => Meets c k during p (fun
    | .ok a, b' => Meets c k during (q a) post b'
    | .error e, b' => post (.error e) b') b
  | _, .handle p q, post, b => Meets c k during p (fun
    | .ok a, b' => Meets c k during (q (some a)) post b'
    | .error .infeasible, b' => Meets c k during (q none) post b'
    | .error (.stopped cause), b' => post (.error (.stopped cause)) b') b

section Aspects

variable [Aspect ρ σ] {c : Config} {k : Contract σ} {during : Event → σ → Prop}
  {post : Except Ending α → σ → Prop} {b : σ}

theorem Meets.mono {during' : Event → σ → Prop} {post' : Except Ending α → σ → Prop}
    {p : Plan ρ α} (h : p.Meets c k during post b) (hduring : ∀ e b', during e b' → during' e b')
    (hpost : ∀ out b', post out b' → post' out b') : p.Meets c k during' post' b := by
  induction p generalizing b with
  | done a => exact hpost _ _ h
  | step e x => exact ⟨hduring _ _ h.1, fun s hs => hpost _ _ (h.2 s hs)⟩
  | call r =>
    exact ⟨h.1, fun e b' he => hduring e b' (h.2.1 e b' he),
      fun out b' hb => hpost out b' (h.2.2 out b' hb)⟩
  | seq p q ihp ihq =>
    rw [Meets] at h ⊢
    refine ihp h fun out b' hout => ?_
    cases out with
    | error e => exact hpost _ _ hout
    | ok a => exact ihq a hout hpost
  | handle p q ihp ihq =>
    rw [Meets] at h ⊢
    refine ihp h fun out b' hout => ?_
    rcases out with (_ | cause) | a
    · exact ihq none hout hpost
    · exact hpost _ _ hout
    · exact ihq (some a) hout hpost

/-! ### Rules -/

variable {p : Plan ρ α}

theorem Meets.step {e : Event} {x : Gen ρ β} {q : β → Plan ρ α} (hduring : during e b)
    (hok : ∀ s a s', Aspect.of s = b → x.run c s = (.ok a, s') →
      (q a).Meets c k during post (Aspect.of s'))
    (herror : ∀ s e s', Aspect.of s = b → x.run c s = (.error e, s') →
      post (.error e) (Aspect.of s')) :
    (.step e x >>= q).Meets c k during post b := by
  change Meets c k during (.seq (.step e x) q) post b
  rw [Meets, Meets]
  refine ⟨hduring, fun s hs => ?_⟩
  rcases hrun : x.run c s with ⟨e | a, s'⟩
  · exact herror s e s' hs hrun
  · exact hok s a s' hs hrun

theorem Meets.call {r : Routine α} {pre post' : σ → Prop}
    (h : k.Allows r pre during post') (hb : pre b) (hpost : ∀ out b', post' b' → post out b') :
    (Plan.call r : Plan ρ α).Meets c k during post b :=
  ⟨h.needs b hb, fun e b' he => h.during b e b' hb he,
    fun out b' hb' => hpost out b' (h.leaves b out b' hb hb')⟩

/-- How a call that is tried goes on depends on how it ends. -/
theorem Meets.handle {r : Routine β} {q : Option β → Plan ρ α} (hneeds : k.needs r b)
    (hduring : ∀ e b', k.during r b e b' → during e b')
    (hok : ∀ a b', k.leaves r b (.ok a) b' → (q (some a)).Meets c k during post b')
    (hinfeasible : ∀ b', k.leaves r b (.error .infeasible) b' →
      (q none).Meets c k during post b')
    (hstop : ∀ cause b', k.leaves r b (.error (.stopped cause)) b' →
      post (.error (.stopped cause)) b') :
    (.attempt (.call r) >>= q).Meets c k during post b := by
  change Meets c k during (.seq (.handle (.call r) .done) q) post b
  rw [Meets, Meets]
  refine ⟨hneeds, hduring, ?_⟩
  rintro ((_ | cause) | a) b' hb'
  · exact hinfeasible b' hb'
  · exact hstop cause b' hb'
  · exact hok a b' hb'

theorem Meets.attempt {r : Routine β} {q : Option β → Plan ρ α} {pre post' : σ → Prop}
    (h : k.Allows r pre during post') (hb : pre b)
    (hok : ∀ o b', post' b' → (q o).Meets c k during post b')
    (hstop : ∀ cause b', post' b' → post (.error (.stopped cause)) b') :
    (.attempt (.call r) >>= q).Meets c k during post b :=
  .handle (h.needs b hb) (fun e b' he => h.during b e b' hb he)
    (fun a b' hb' => hok (some a) b' (h.leaves b _ b' hb hb'))
    (fun b' hb' => hok none b' (h.leaves b _ b' hb hb'))
    fun cause b' hb' => hstop cause b' (h.leaves b _ b' hb hb')

end Aspects

/-! ### Plans that leave the books to others -/

section Books

variable {c : Config} {k : Contract Books} {during : Event → Books → Prop}
  {post : Except Ending α → Books → Prop} {b : Books} {p : Plan ρ α}

/-- A step that only changes weights. -/
theorem Meets.work {x : Gen ρ β} {q : β → Plan ρ α} (hx : Gen.Keeps .drawing x)
    (hduring : during .work b)
    (hok : ∀ a b', Upkeep.drawing.rel c b b' → (q a).Meets c k during post b')
    (herror : ∀ e b', Upkeep.drawing.rel c b b' → post (.error e) b') :
    (.work x >>= q).Meets c k during post b := by
  refine .step hduring ?_ ?_
  · rintro s a s' rfl hrun
    exact hok a s'.books ((hx.ends c s).of_run_ok hrun)
  · rintro s e s' rfl hrun
    exact herror e s'.books ((hx.ends c s).of_run_error hrun)

/-- A value that a plan may give. -/
def Gives (c : Config) : Plan ρ α → α → Prop
  | .done a', a => a' = a
  | .step _ x, a => ∃ s s', x.run c s = (.ok a, s')
  | _, _ => True

/-- Every step that a plan may take satisfies a condition, and so does every routine that it
calls. -/
def Each (c : Config) (steps : Event → (α : Type) → Gen ρ α → Prop)
    (calls : {α : Type} → Routine α → Prop) : {α : Type} → Plan ρ α → Prop
  | _, .done _ => True
  | _, .step e x => steps e _ x
  | _, .call r => calls r
  | _, .seq p q => p.Each c steps calls ∧ ∀ a, p.Gives c a → (q a).Each c steps calls
  | _, .handle p q => p.Each c steps calls ∧ ∀ o, (q o).Each c steps calls

/-- No step of a plan counts statements or is worth watching, and the routines it calls
satisfy a condition. -/
abbrev Tidy (c : Config) (calls : {α : Type} → Routine α → Prop) {α : Type} (p : Plan ρ α) : Prop :=
  p.Each c (fun e _ x => e = .work ∧ Gen.Keeps .drawing x) calls

/-- An invariant of the books that changes of weights keep is kept by a tidy plan, if it
is kept by the routines it calls. -/
theorem Tidy.meets {calls : {α : Type} → Routine α → Prop} (h : p.Tidy c calls)
    {inv : Books → Prop} (hinv : ∀ b b', Upkeep.drawing.rel c b b' → inv b → inv b')
    (hwork : ∀ b, inv b → during .work b)
    (hcalls : ∀ {β : Type} (r : Routine β), calls r → k.Allows r inv during inv) (hb : inv b) :
    p.Meets c k during (fun _ => inv) b := by
  suffices hgives : p.Meets c k during (fun out b' => inv b' ∧ ∀ a, out = .ok a → p.Gives c a) b
    from hgives.mono (fun _ _ he => he) fun _ _ hout => hout.1
  induction p generalizing b with
  | done a => exact ⟨hb, fun _ ha => Except.ok.inj ha⟩
  | step e x =>
    obtain ⟨rfl, hx⟩ := h
    refine ⟨hwork b hb, ?_⟩
    rintro s rfl
    exact ⟨hinv _ _ (hx c s).1 hb, fun a ha => ⟨s, (x.run c s).2, Prod.ext ha rfl⟩⟩
  | call r =>
    exact .call (hcalls r h) hb fun _ b' hb' => ⟨hb', fun _ _ => trivial⟩
  | seq p q ihp ihq =>
    rw [Meets]
    refine (ihp h.1 hb).mono (fun _ _ he => he) ?_
    rintro (e | a) b' ⟨hb', hgives⟩
    · exact ⟨hb', nofun⟩
    · exact (ihq a (h.2 a (hgives a rfl)) hb').mono (fun _ _ he => he)
        fun _ _ hout => ⟨hout.1, fun _ _ => trivial⟩
  | handle p q ihp ihq =>
    rw [Meets]
    refine (ihp h.1 hb).mono (fun _ _ he => he) ?_
    rintro ((_ | cause) | a) b' ⟨hb', -⟩
    · exact (ihq none (h.2 none) hb').mono (fun _ _ he => he)
        fun _ _ hout => ⟨hout.1, fun _ _ => trivial⟩
    · exact ⟨hb', nofun⟩
    · exact (ihq (some a) (h.2 (some a)) hb').mono (fun _ _ he => he)
        fun _ _ hout => ⟨hout.1, fun _ _ => trivial⟩

end Books

end Plan

/-! ### Runs -/

/-- Every routine does what the contract says, as far as the others do. -/
def Contract.Kept {σ : Type} (ρ : Type) [RandomSource ρ] [Aspect ρ σ] (c : Config)
    (k : Contract σ) : Prop :=
  ∀ {α : Type} (r : Routine α) (b : σ), k.needs r b →
    (r.body : Plan ρ α).Meets c k (k.during r b) (k.leaves r b) b

namespace Plan

variable [RandomSource ρ] [Aspect ρ σ] {c : Config} {k : Contract σ}
  {during : Event → σ → Prop} {post : Except Ending α → σ → Prop} {p : Plan ρ α} {s : State ρ}
  {ms : List (Moment ρ)} {out : Except Ending α × State ρ}

omit [Aspect ρ σ] in
theorem Runs.gives {s' : State ρ} {a : α} (h : p.Runs c s ms (.ok a, s')) : p.Gives c a := by
  generalize hout : ((.ok a, s') : Except Ending α × State ρ) = out at h
  cases h with
  | done =>
    cases hout
    rfl
  | step => exact ⟨s, s', hout.symm⟩
  | _ => trivial

/-- If every routine keeps its contract, then a plan that relies on them does what it
promises. -/
theorem Runs.meets (hk : k.Kept ρ c) (h : p.Runs c s ms out)
    (hp : p.Meets c k during post (Aspect.of s)) :
    (∀ m ∈ ms, during m.event (Aspect.of m.state)) ∧ post out.1 (Aspect.of out.2) := by
  induction h generalizing during with
  | done => exact ⟨by simp, hp⟩
  | step => exact ⟨by simpa using hp.1, hp.2 _ rfl⟩
  | call _ ih =>
    obtain ⟨hneeds, hduring, hleaves⟩ := hp
    obtain ⟨hms, hout⟩ := ih (hk _ _ hneeds)
    exact ⟨fun m hm => hduring _ _ (hms m hm), hleaves _ _ hout⟩
  | seq _ _ ihp ihq =>
    rw [Meets] at hp
    obtain ⟨hms, hok⟩ := ihp hp
    obtain ⟨hms', hout⟩ := ihq hok
    exact ⟨List.forall_mem_append.mpr ⟨hms, hms'⟩, hout⟩
  | seqError _ ihp =>
    rw [Meets] at hp
    exact ihp hp
  | handle _ _ ihp ihq =>
    rw [Meets] at hp
    obtain ⟨hms, hok⟩ := ihp hp
    obtain ⟨hms', hout⟩ := ihq hok
    exact ⟨List.forall_mem_append.mpr ⟨hms, hms'⟩, hout⟩
  | handleInfeasible _ _ ihp ihq =>
    rw [Meets] at hp
    obtain ⟨hms, hok⟩ := ihp hp
    obtain ⟨hms', hout⟩ := ihq hok
    exact ⟨List.forall_mem_append.mpr ⟨hms, hms'⟩, hout⟩
  | handleStopped _ ihp =>
    rw [Meets] at hp
    exact ihp hp

end Plan

end ShaderGen
