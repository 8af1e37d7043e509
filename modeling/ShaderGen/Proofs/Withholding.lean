import ShaderGen.Proofs.Termination

/-!
Variants that are withheld. A configuration without extended instructions lets them weigh
nothing whenever weights are put in place. They have no pin, so each new draw of weights has to
take theirs away again; it does, so no table has a weight for them and no draw gives them.
-/

namespace ShaderGen

variable {ρ α : Type} {c : Config}

/-! ### Tables -/

namespace WeightTable

variable {t t' : WeightTable} {cat : Category}

/-- Wherever there are weights, those of withheld variants are zero. -/
def Withholds (c : Config) (t : WeightTable) : Prop := ∀ cat, t.Zeroes cat c.withheld

theorem withholds_empty : Withholds c {} := by
  intro cat w h
  rw [weights?, row_empty] at h
  cases h

theorem Withholds.install (h : t.Withholds c) (base : List Float)
    (hinstall : t.install cat (if c.extendedInstructions then base
      else applyPins [.extInst] base cat.members) = .ok t') : t'.Withholds c := by
  intro cat' w hw
  obtain ⟨-, hweights⟩ := weights?_install hinstall cat'
  rw [hweights] at hw
  split_ifs at hw with hcat hextended
  · subst hcat
    have hnone : c.withheld = [] := if_pos hextended
    exact ⟨base, _, hnone ▸ List.nil_subset _, (Option.some.inj hw).symm⟩
  · subst hcat
    rw [applyPins_append] at hw
    have hwithheld : c.withheld = [.extInst] := if_neg hextended
    exact ⟨base, _, hwithheld ▸ List.subset_append_right _ _, (Option.some.inj hw).symm⟩
  · exact h cat' w hw

theorem Withholds.pinZero (h : t.Withholds c) (cat : Category) (op : Opcode) :
    (t.pinZero cat op).Withholds c := by
  intro cat' w hw
  obtain ⟨w', hw', hpinned⟩ := weights?_pinZero hw
  obtain ⟨base, pins, hpins, heq⟩ := h cat' w' hw'
  refine ⟨base, _, ?_, hpinned pins base heq⟩
  split_ifs
  · exact List.subset_cons_of_subset op hpins
  · exact hpins

/-- A session may have the table: it comes from no weights at all. -/
def Allowed (c : Config) (t : WeightTable) : Prop := Evolves c {} t

/-- However often weights are drawn anew, those of withheld variants stay zero. -/
theorem Allowed.withholds (h : t.Allowed c) : t.Withholds c := by
  induction h with
  | refl => exact withholds_empty
  | install _ _ base hinstall ih => exact ih.install base hinstall
  | pin _ cat op ih => exact ih.pinZero cat op

theorem Allowed.weight?_eq (h : t.Allowed c) {op : Opcode} (hmem : op ∈ cat.members)
    (hop : op ∈ c.withheld) :
    t.weight? cat op = if t.isParametrized cat then some 0.0 else none :=
  (h.withholds cat).weight?_eq (aligned_empty.revised (Evolves.revised h)) hmem hop

end WeightTable

/-- Whatever a session is asked to do with its weights, the table it has is allowed. -/
theorem WeightCall.Reaches.allowed [RandomSource ρ] {s s' : State ρ} (h : Reaches c s s')
    (hs : s.weights.Allowed c) : s'.weights.Allowed c := by
  induction h with
  | refl => exact hs
  | call _ k ih => exact ih.trans (k.body_keeps c _).1.1

/-! ### Draws -/

/-- No withheld variant is entered. -/
def Event.Offered (c : Config) : Event → Prop
  | .enter _ op => op ∉ c.withheld
  | _ => True

/-- Weights are allowed, and no withheld variant is entered. -/
def Contract.withholding (c : Config) : Contract Books where
  needs
    | .variant _ op, b => b.weights.Allowed c ∧ op ∉ c.withheld
    | _, b => b.weights.Allowed c
  during _ _ e b := b.weights.Allowed c ∧ e.Offered c
  leaves _ _ _ b := b.weights.Allowed c

namespace Plan

theorem allows_withholding {r : Routine α} {pre : Books → Prop}
    (hneeds : ∀ b, pre b → (Contract.withholding c).needs r b) :
    (Contract.withholding c).Allows r pre (fun e b => b.weights.Allowed c ∧ e.Offered c)
      fun b => b.weights.Allowed c where
  needs := hneeds
  during _ _ _ _ he := he
  leaves _ _ _ _ h := h

theorem Tidy.withholding {p : Plan ρ α} {b : Books}
    (h : p.Tidy c fun r => ∀ b, b.weights.Allowed c → (Contract.withholding c).needs r b)
    (hb : b.weights.Allowed c) :
    p.Meets c (.withholding c) (fun e b => b.weights.Allowed c ∧ e.Offered c)
      (fun _ b => b.weights.Allowed c) b :=
  h.meets (fun _ _ hdrawn hb => hb.trans hdrawn.1) (fun _ hb => ⟨hb, trivial⟩)
    (fun _ hr => allows_withholding hr) hb

variable [RandomSource ρ] [LawfulRandomSource ρ]

theorem withholding_kept : (Contract.withholding c).Kept ρ c := by
  intro α r b hb
  cases r with
  | dispatch t =>
    exact dispatch_meets (fun _ hb => hb) (fun _ hb _ => hb)
      (fun _ _ hdrawn hb => hb.trans hdrawn.1) (fun _ hb => hb) (fun _ hb => ⟨hb, trivial⟩)
      (fun _ hb => ⟨hb, trivial⟩) (allows_withholding fun _ hb => hb) hb
  | resample t misses =>
    refine resample_meets (fun _ b => b.weights.Allowed c) (fun _ hb => hb) (fun _ _ hb => hb)
      (fun _ _ hb => hb) (fun _ hb => ⟨hb, trivial⟩) (fun _ hb => ⟨hb, trivial⟩) ?_ ?_
      (fun _ _ hdrawn hb => hb.trans hdrawn.1) hb
    · rintro op s s' rfl hrun
      have hop := ((Gen.sample?_weighs (hb.withholds t.category)).of_run_ok hrun op rfl).2
      refine allows_withholding ?_
      rintro _ rfl
      exact ⟨hb, hop⟩
    · intro op s hs
      refine ((Gen.prune_keeps t.category op).ends c s).mono ?_ fun _ _ _ => trivial
      rintro _ s' ⟨hevolves, -⟩
      refine allows_withholding ?_
      rintro _ rfl
      exact hs.trans hevolves
  | variant t op =>
    refine enter_meets hb ?_
    cases t with
    | type cat =>
      exact Tidy.withholding (typeVariant_each tidy_covers (fun _ _ _ hb => hb) arrayType_tidy) hb.1
    | constant =>
      exact Tidy.withholding (constantVariant_each tidy_covers (fun _ _ _ hb => hb) op) hb.1
    | statement levels scope =>
      exact Tidy.withholding
        (statementVariant_each tidy_covers (fun _ _ _ _ hb => hb) scope extended_tidy) hb.1
  | fill levels scope block =>
    exact Tidy.withholding (fill_each tidy_covers (fun _ hb => hb) fun _ _ hb => hb) hb

/-- At every moment of the run of a shader the weights are allowed, and no withheld variant is
entered. -/
theorem Runs.withholds (hdepth : c.maxDepth ≠ 0) {source : ρ} {ms : List (Moment ρ)}
    {out : Except Ending Shader × State ρ} (h : program.Runs c (.start source) ms out) :
    (∀ m ∈ ms, m.state.weights.Allowed c ∧ m.event.Offered c) ∧
      out.2.weights.Allowed c :=
  h.meets withholding_kept <| Tidy.withholding
    (program_each tidy_covers hdepth (fun _ hb => hb) (fun _ hb => hb) fun _ _ _ _ hb => hb)
    WeightTable.Evolves.refl

end Plan

end ShaderGen
