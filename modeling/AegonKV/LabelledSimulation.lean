import AegonKV.TransitionSystem

/-!
# Simulation of a labelled transition system

The runs of a system are simulated by a transition relation with the same labels when every step is
answered by one that keeps the two states related.
-/

namespace TransitionSystem

variable {σ τ α : Type*} {step : σ → α → Option σ} {next : τ → α → τ → Prop}

inductive Runs (next : τ → α → τ → Prop) : τ → List α → τ → Prop
  | nil (t : τ) : Runs next t [] t
  | cons {t t' t'' : τ} {a : α} {as : List α} (h : next t a t') (later : Runs next t' as t'') :
      Runs next t (a :: as) t''

/-- The case of a deterministic system that answers every step. -/
theorem run_answered {step' : τ → α → Option τ} {R : σ → τ → Prop}
    (hstep : ∀ s t a s', R s t → step s a = some s' → ∃ t', step' t a = some t' ∧ R s' t')
    {as : List α} {s s' : σ} {t : τ} (hs : R s t) (hr : run step s as = some s') :
    ∃ t', run step' t as = some t' ∧ R s' t' := by
  induction as generalizing s t with
  | nil =>
      obtain rfl : s = s' := Option.some.inj hr
      exact ⟨t, rfl, hs⟩
  | cons a as ih =>
      obtain ⟨mid, hmid, hrest⟩ := run_cons_some hr
      obtain ⟨t₁, hnext, hR⟩ := hstep s t a mid hs hmid
      obtain ⟨t₂, hlater, hlast⟩ := ih hR hrest
      refine ⟨t₂, ?_, hlast⟩
      rw [run, hnext]
      exact hlater

theorem run_simulated {condition : σ → α → Prop} {R : σ → τ → Prop}
    (hstep : ∀ s t a s', R s t → condition s a → step s a = some s' → ∃ t', next t a t' ∧ R s' t')
    {as : List α} {s s' : σ} {t : τ} (hs : R s t) (hm : Meets step condition s as)
    (hr : run step s as = some s') : ∃ t', Runs next t as t' ∧ R s' t' := by
  induction as generalizing s t with
  | nil =>
      obtain rfl : s = s' := Option.some.inj hr
      exact ⟨t, .nil t, hs⟩
  | cons a as ih =>
      obtain ⟨mid, hmid, hrest⟩ := run_cons_some hr
      obtain ⟨t₁, hnext, hR⟩ := hstep s t a mid hs hm.1 hmid
      obtain ⟨t₂, hlater, hlast⟩ := ih hR (hm.2 mid hmid) hrest
      exact ⟨t₂, .cons hnext hlater, hlast⟩

end TransitionSystem
