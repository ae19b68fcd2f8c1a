import Mathlib.Order.Lattice
import Mathlib.Data.List.Induction

/-!
# Folding a sorted stream key by key

A pass over a stream sorted by key that keeps one candidate a key. An element of the newest
candidate's key changes that candidate, any other element starts the next one. If one step keeps
what holds between a candidate and the elements of its key, the whole pass does.
-/

namespace KeyedFold

variable {κ α β : Type} [LinearOrder κ] {keyIn : α → κ} {keyOut : β → κ}
  {step : List β → α → Option (List β)} {Holds : List α → β → Prop}

/-- One step, on the candidates with the newest first. -/
structure Pass (keyIn : α → κ) (keyOut : β → κ) (step : List β → α → Option (List β))
    (Holds : List α → β → Prop) : Prop where
  same : ∀ {queue b a run}, keyIn a = keyOut b → Holds run b →
    ∃ b', step (b :: queue) a = some (b' :: queue) ∧ keyOut b' = keyOut b ∧ Holds (run ++ [a]) b'
  other : ∀ {queue a}, (∀ b ∈ queue.head?, keyIn a ≠ keyOut b) →
    ∃ b, step queue a = some (b :: queue) ∧ keyOut b = keyIn a ∧ Holds [a] b

def run (keyIn : α → κ) (k : κ) (input : List α) : List α := input.filter fun a => keyIn a = k

theorem run_append_self (input : List α) (a : α) :
    run keyIn (keyIn a) (input ++ [a]) = run keyIn (keyIn a) input ++ [a] := by
  simp [run]

theorem run_append_other {k : κ} (input : List α) {a : α} (h : keyIn a ≠ k) :
    run keyIn k (input ++ [a]) = run keyIn k input := by
  simp [run, h]

theorem run_eq_nil {k : κ} {input : List α} (h : k ∉ input.map keyIn) : run keyIn k input = [] := by
  rw [run, List.filter_eq_nil_iff]
  intro a ha hk
  exact h (List.mem_map.mpr ⟨a, ha, of_decide_eq_true hk⟩)

/-- The candidates after a prefix of the input. -/
structure Candidates (keyIn : α → κ) (keyOut : β → κ) (Holds : List α → β → Prop) (seen : List α)
    (queue : List β) : Prop where
  sorted : queue.Pairwise fun a b => keyOut b < keyOut a
  covers : ∀ k, k ∈ queue.map keyOut ↔ k ∈ seen.map keyIn
  holds : ∀ b ∈ queue, Holds (run keyIn (keyOut b) seen) b

theorem Candidates.same {seen : List α} {queue : List β} {a : α} {b : β}
    (hinv : Candidates keyIn keyOut Holds seen (b :: queue)) (hpass : Pass keyIn keyOut step Holds)
    (hkey : keyIn a = keyOut b) :
    ∃ queue', step (b :: queue) a = some queue' ∧
      Candidates keyIn keyOut Holds (seen ++ [a]) queue' := by
  obtain ⟨b', hstep, hb', hholds⟩ := hpass.same hkey (hinv.holds b List.mem_cons_self)
  obtain ⟨hlast, hrest⟩ := List.pairwise_cons.mp hinv.sorted
  refine ⟨b' :: queue, hstep, ?_, ?_, ?_⟩
  · refine List.pairwise_cons.mpr ⟨fun c hc => ?_, hrest⟩
    rw [hb']
    exact hlast c hc
  · intro k
    have := hinv.covers k
    simp only [List.map_cons, List.mem_cons, List.map_append, List.mem_append, List.map_nil,
      List.not_mem_nil, or_false, hb', hkey] at this ⊢
    tauto
  · intro c hc
    obtain rfl | hc := List.mem_cons.mp hc
    · rw [hb', ← hkey, run_append_self, hkey]
      exact hholds
    · have hne : keyIn a ≠ keyOut c := by
        rw [hkey]
        exact ne_of_gt (hlast c hc)
      rw [run_append_other _ hne]
      exact hinv.holds c (List.mem_cons_of_mem _ hc)

theorem Candidates.other {seen : List α} {queue : List β} {a : α}
    (hinv : Candidates keyIn keyOut Holds seen queue) (hpass : Pass keyIn keyOut step Holds)
    (hlt : ∀ b ∈ queue, keyOut b < keyIn a) :
    ∃ queue', step queue a = some queue' ∧ Candidates keyIn keyOut Holds (seen ++ [a]) queue' := by
  have hnew : ∀ b ∈ queue.head?, keyIn a ≠ keyOut b :=
    fun b hb => ne_of_gt (hlt b (List.mem_of_mem_head? hb))
  obtain ⟨b, hstep, hb, hholds⟩ := hpass.other hnew
  refine ⟨b :: queue, hstep, ?_, ?_, ?_⟩
  · refine List.pairwise_cons.mpr ⟨fun c hc => ?_, hinv.sorted⟩
    rw [hb]
    exact hlt c hc
  · intro k
    have := hinv.covers k
    simp only [List.map_cons, List.mem_cons, List.map_append, List.mem_append, List.map_nil,
      List.not_mem_nil, or_false, hb] at this ⊢
    tauto
  · intro c hc
    obtain rfl | hc := List.mem_cons.mp hc
    · have hnew : run keyIn (keyIn a) seen = [] := by
        apply run_eq_nil
        intro hin
        obtain ⟨d, hd, hk⟩ := List.mem_map.mp ((hinv.covers (keyIn a)).mpr hin)
        exact absurd hk (ne_of_lt (hlt d hd))
      rw [hb, run_append_self, hnew]
      exact hholds
    · rw [run_append_other _ (ne_of_gt (hlt c hc))]
      exact hinv.holds c hc

theorem Candidates.advance {seen : List α} {queue : List β} {a : α}
    (hinv : Candidates keyIn keyOut Holds seen queue) (hpass : Pass keyIn keyOut step Holds)
    (hle : ∀ c ∈ seen, keyIn c ≤ keyIn a) :
    ∃ queue', step queue a = some queue' ∧ Candidates keyIn keyOut Holds (seen ++ [a]) queue' := by
  have hcov : ∀ b ∈ queue, keyOut b ≤ keyIn a := by
    intro b hb
    obtain ⟨c, hc, hk⟩ := List.mem_map.mp ((hinv.covers (keyOut b)).mp (List.mem_map_of_mem hb))
    exact hk ▸ hle c hc
  cases queue with
  | nil => exact hinv.other hpass fun b hb => (by cases hb)
  | cons b queue =>
      by_cases hkey : keyIn a = keyOut b
      · exact hinv.same hpass hkey
      · have hb : keyOut b < keyIn a := lt_of_le_of_ne (hcov b List.mem_cons_self) (Ne.symm hkey)
        refine hinv.other hpass fun c hc => ?_
        obtain rfl | hc := List.mem_cons.mp hc
        · exact hb
        · exact lt_trans ((List.pairwise_cons.mp hinv.sorted).1 c hc) hb

/-- The pass succeeds on every sorted input, with one candidate for every key of it. -/
theorem Pass.foldlM (hpass : Pass keyIn keyOut step Holds) {input : List α}
    (hs : input.Pairwise fun a b => keyIn a ≤ keyIn b) :
    ∃ queue, input.foldlM step [] = some queue ∧ Candidates keyIn keyOut Holds input queue := by
  induction input using List.reverseRecOn with
  | nil => exact ⟨[], rfl, List.Pairwise.nil, by simp, by simp⟩
  | append_singleton input a ih =>
      obtain ⟨hinput, -, hle⟩ := List.pairwise_append.mp hs
      obtain ⟨queue, hqueue, hinv⟩ := ih hinput
      obtain ⟨queue', hstep, hinv'⟩ :=
        hinv.advance hpass fun c hc => hle c hc a (List.mem_singleton.mpr rfl)
      refine ⟨queue', ?_, hinv'⟩
      simp [List.foldlM_append, hqueue, hstep]

end KeyedFold
