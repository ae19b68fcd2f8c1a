import Mathlib.Data.Nat.Notation

/-!
# Runs of a deterministic labelled transition system

`step s a` is the state after action `a`, or `none` where the action is not enabled. `Meets` says
that every step of a run satisfies a condition in the state it is taken from. Invariants are
proved for one step and carried to whole runs by `run_invariant`.
-/

namespace TransitionSystem

variable {σ α : Type*} (step : σ → α → Option σ)

def run : σ → List α → Option σ
  | s, [] => some s
  | s, a :: as => (step s a).bind fun s' => run s' as

def Meets (condition : σ → α → Prop) : σ → List α → Prop
  | _, [] => True
  | s, a :: as => condition s a ∧ ∀ s', step s a = some s' → Meets condition s' as

variable {step}

theorem run_cons_some {s s' : σ} {a : α} {as : List α} (h : run step s (a :: as) = some s') :
    ∃ t, step s a = some t ∧ run step t as = some s' := by
  simpa only [run, Option.bind_eq_some_iff] using h

theorem run_append (s : σ) (as bs : List α) :
    run step s (as ++ bs) = (run step s as).bind fun s' => run step s' bs := by
  induction as generalizing s with
  | nil => rfl
  | cons a as ih =>
      rw [List.cons_append, run, run, Option.bind_assoc]
      exact Option.bind_congr fun s' _ => ih s'

/-- A property that every step meeting the condition preserves holds at the end of every run whose
steps meet it. -/
theorem run_invariant {condition : σ → α → Prop} {Inv : σ → Prop}
    (hstep : ∀ s a s', Inv s → condition s a → step s a = some s' → Inv s')
    {as : List α} {s s' : σ} (hs : Inv s) (hm : Meets step condition s as)
    (hr : run step s as = some s') : Inv s' := by
  induction as generalizing s with
  | nil =>
      obtain rfl : s = s' := Option.some.inj hr
      exact hs
  | cons a as ih =>
      obtain ⟨t, ht, hrest⟩ := run_cons_some hr
      exact ih (hstep s a t hs hm.1 ht) (hm.2 t ht) hrest

/-- A property that a step keeps or restores in no other way than by meeting the condition tells
exactly which runs meet it. -/
theorem run_iff_meets {condition : σ → α → Prop} {Inv Good : σ → Prop}
    (hinv : ∀ s a s', Inv s → step s a = some s' → Inv s')
    (hgood : ∀ s a s', Inv s → step s a = some s' → (Good s' ↔ Good s ∧ condition s a))
    {as : List α} {s s' : σ} (hs : Inv s) (hr : run step s as = some s') :
    Good s' ↔ Good s ∧ Meets step condition s as := by
  induction as generalizing s with
  | nil =>
      obtain rfl : s = s' := Option.some.inj hr
      simp only [Meets, and_true]
  | cons a as ih =>
      obtain ⟨t, ht, hrest⟩ := run_cons_some hr
      rw [ih (hinv s a t hs ht) hrest, hgood s a t hs ht, and_assoc]
      simp only [Meets, ht, Option.some.injEq, forall_eq']

theorem Meets.cons {condition : σ → α → Prop} {s t : σ} {a : α} {as : List α}
    (hstep : step s a = some t) (hc : condition s a) (h : Meets step condition t as) :
    Meets step condition s (a :: as) := by
  refine ⟨hc, fun t' ht' => ?_⟩
  obtain rfl : t = t' := Option.some.inj (hstep.symm.trans ht')
  exact h

theorem Meets.append {condition : σ → α → Prop} {s : σ} {as bs : List α}
    (h : Meets step condition s as)
    (hrest : ∀ t, run step s as = some t → Meets step condition t bs) :
    Meets step condition s (as ++ bs) := by
  induction as generalizing s with
  | nil => exact hrest s rfl
  | cons a as ih =>
      refine ⟨h.1, fun t ht => ih (h.2 t ht) fun u hu => hrest u ?_⟩
      rw [run, ht]
      exact hu

theorem Meets.mono {weak strong : σ → α → Prop} (himp : ∀ s a, strong s a → weak s a) {s : σ}
    {as : List α} (h : Meets step strong s as) : Meets step weak s as := by
  induction as generalizing s with
  | nil => trivial
  | cons a as ih => exact ⟨himp s a h.1, fun s' hs' => ih (h.2 s' hs')⟩

/-- A condition that an invariant of all steps gives is met by every run. -/
theorem meets_of_invariant {condition : σ → α → Prop} {Inv : σ → Prop}
    (hstep : ∀ s a s', Inv s → step s a = some s' → Inv s') (hc : ∀ s a, Inv s → condition s a)
    {s : σ} (hs : Inv s) (as : List α) : Meets step condition s as := by
  induction as generalizing s with
  | nil => trivial
  | cons a as ih => exact ⟨hc s a hs, fun s' hs' => ih (hstep s a s' hs hs')⟩

theorem meets_of_mem {condition : σ → α → Prop} {s : σ} {as : List α}
    (h : ∀ s, ∀ a ∈ as, condition s a) : Meets step condition s as := by
  induction as generalizing s with
  | nil => trivial
  | cons a as ih =>
      exact ⟨h s a List.mem_cons_self, fun s' _ =>
        ih fun t b hb => h t b (List.mem_cons_of_mem _ hb)⟩

theorem meets_of_forall {condition : σ → α → Prop} (h : ∀ s a, condition s a) (s : σ)
    (as : List α) : Meets step condition s as := meets_of_mem fun s a _ => h s a

/-- The case of a condition that every step meets. -/
theorem run_invariant_always {Inv : σ → Prop}
    (hstep : ∀ s a s', Inv s → step s a = some s' → Inv s')
    {as : List α} {s s' : σ} (hs : Inv s) (hr : run step s as = some s') : Inv s' := by
  have hm : Meets step (fun _ _ => True) s as := meets_of_forall (fun _ _ => trivial) s as
  exact run_invariant (fun s a s' hi _ h => hstep s a s' hi h) hs hm hr

end TransitionSystem
