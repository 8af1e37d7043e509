import ShaderGen.Proofs.Plans
import ShaderGen.Proofs.Step

/-!
What happens when a plan is carried out. A run lists the moments at which a step was
taken, each with the state it was taken in, and ends like a step of a session. Calls are
replaced by the plans of their routines as often as it takes, so a plan that goes on
forever has no run, and a plan has at most one.
-/

namespace ShaderGen

/-- A step about to be taken. -/
structure Moment (ρ : Type) where
  event : Event
  state : State ρ

namespace Plan

variable {ρ : Type} [RandomSource ρ]

/-- The moments of a plan carried out from a state, and how it ends. -/
inductive Runs (c : Config) :
    {α : Type} → Plan ρ α → State ρ → List (Moment ρ) → Except Ending α × State ρ → Prop
  | done {α : Type} {a : α} {s : State ρ} : Runs c (.done a) s [] (.ok a, s)
  | step {α : Type} {e : Event} {x : Gen ρ α} {s : State ρ} :
      Runs c (.step e x) s [⟨e, s⟩] (x.run c s)
  | call {α : Type} {r : Routine α} {s : State ρ} {ms : List (Moment ρ)}
      {out : Except Ending α × State ρ} (h : Runs c r.body s ms out) :
      Runs c (.call r) s ms out
  | seq {α β : Type} {p : Plan ρ α} {q : α → Plan ρ β} {s s' : State ρ} {a : α}
      {ms ms' : List (Moment ρ)} {out : Except Ending β × State ρ}
      (hp : Runs c p s ms (.ok a, s')) (hq : Runs c (q a) s' ms' out) :
      Runs c (.seq p q) s (ms ++ ms') out
  | seqError {α β : Type} {p : Plan ρ α} {q : α → Plan ρ β} {s s' : State ρ} {e : Ending}
      {ms : List (Moment ρ)} (hp : Runs c p s ms (.error e, s')) :
      Runs c (.seq p q) s ms (.error e, s')
  | handle {α β : Type} {p : Plan ρ α} {q : Option α → Plan ρ β} {s s' : State ρ} {a : α}
      {ms ms' : List (Moment ρ)} {out : Except Ending β × State ρ}
      (hp : Runs c p s ms (.ok a, s')) (hq : Runs c (q (some a)) s' ms' out) :
      Runs c (.handle p q) s (ms ++ ms') out
  | handleInfeasible {α β : Type} {p : Plan ρ α} {q : Option α → Plan ρ β} {s s' : State ρ}
      {ms ms' : List (Moment ρ)} {out : Except Ending β × State ρ}
      (hp : Runs c p s ms (.error .infeasible, s')) (hq : Runs c (q none) s' ms' out) :
      Runs c (.handle p q) s (ms ++ ms') out
  | handleStopped {α β : Type} {p : Plan ρ α} {q : Option α → Plan ρ β} {s s' : State ρ}
      {cause : Stop} {ms : List (Moment ρ)} (hp : Runs c p s ms (.error (.stopped cause), s')) :
      Runs c (.handle p q) s ms (.error (.stopped cause), s')

variable {c : Config} {α β : Type} {p : Plan ρ α} {s : State ρ} {ms : List (Moment ρ)}
  {out : Except Ending α × State ρ}

/-- A plan has at most one run. -/
theorem Runs.unique {ms' : List (Moment ρ)} {out' : Except Ending α × State ρ}
    (h : Runs c p s ms out) (h' : Runs c p s ms' out') : ms = ms' ∧ out = out' := by
  induction h generalizing ms' with
  | done =>
    cases h'
    exact ⟨rfl, rfl⟩
  | step =>
    cases h'
    exact ⟨rfl, rfl⟩
  | call _ ih =>
    cases h' with
    | call h' => exact ih h'
  | seq _ _ ihp ihq =>
    cases h' with
    | seq hp hq =>
      obtain ⟨rfl, hout⟩ := ihp hp
      cases hout
      obtain ⟨rfl, rfl⟩ := ihq hq
      exact ⟨rfl, rfl⟩
    | seqError hp => cases (ihp hp).2
  | seqError _ ihp =>
    cases h' with
    | seq hp => cases (ihp hp).2
    | seqError hp =>
      obtain ⟨rfl, hout⟩ := ihp hp
      cases hout
      exact ⟨rfl, rfl⟩
  | handle _ _ ihp ihq =>
    cases h' with
    | handle hp hq =>
      obtain ⟨rfl, hout⟩ := ihp hp
      cases hout
      obtain ⟨rfl, rfl⟩ := ihq hq
      exact ⟨rfl, rfl⟩
    | handleInfeasible hp => cases (ihp hp).2
    | handleStopped hp => cases (ihp hp).2
  | handleInfeasible _ _ ihp ihq =>
    cases h' with
    | handle hp => cases (ihp hp).2
    | handleInfeasible hp hq =>
      obtain ⟨rfl, hout⟩ := ihp hp
      cases hout
      obtain ⟨rfl, rfl⟩ := ihq hq
      exact ⟨rfl, rfl⟩
    | handleStopped hp => cases (ihp hp).2
  | handleStopped _ ihp =>
    cases h' with
    | handle hp => cases (ihp hp).2
    | handleInfeasible hp => cases (ihp hp).2
    | handleStopped hp =>
      obtain ⟨rfl, hout⟩ := ihp hp
      cases hout
      exact ⟨rfl, rfl⟩

end Plan

end ShaderGen
