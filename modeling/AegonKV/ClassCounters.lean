import Mathlib.Algebra.BigOperators.Group.Finset.Piecewise
import Mathlib.Data.List.AList

/-!
# Counters of keyed entries, one for each class

Entries of an association list fall into classes, some into none, and an unsigned counter is kept
for each class. The counters are right when every change of an entry takes it out of the counter of
its old class and into the counter of its new one. A subtraction from a counter that is zero wraps;
the counters remember that one did.
-/

namespace ClassCounters

section Classes

variable {α κ : Type*} {β : α → Type*} [DecidableEq κ]

/-! ## Entries of a class -/

/-- One at the class, where there is one. -/
def one (class? : Option κ) (k : κ) : ℕ := if class? = some k then 1 else 0

@[simp] theorem one_none (k : κ) : one none k = 0 := rfl

@[simp] theorem one_some_self (k : κ) : one (some k) k = 1 := if_pos rfl

theorem one_some_ne {k k' : κ} (h : k ≠ k') : one (some k) k' = 0 :=
  if_neg fun heq => h (Option.some.inj heq)

theorem add_one_none (numbers : κ → ℕ) : numbers + one none = numbers := rfl

def count (m : AList β) (classOf : (a : α) → β a → Option κ) (k : κ) : ℕ :=
  m.entries.countP fun e => classOf e.1 e.2 = some k

variable {m : AList β} {a : α} {classOf classOf' : (a : α) → β a → Option κ}

theorem countP_cons_class (b : β a) (es : List (Sigma β)) (k : κ) :
    (⟨a, b⟩ :: es : List (Sigma β)).countP (fun e => classOf e.1 e.2 = some k) =
      es.countP (fun e => classOf e.1 e.2 = some k) + one (classOf a b) k := by
  rw [List.countP_cons]
  simp only [decide_eq_true_eq, one]

theorem count_congr (h : ∀ e ∈ m.entries, classOf e.1 e.2 = classOf' e.1 e.2) :
    count m classOf = count m classOf' := by
  funext k
  refine List.countP_congr fun e he => ?_
  rw [h e he]

theorem count_le_length (m : AList β) (classOf : (a : α) → β a → Option κ) (k : κ) :
    count m classOf k ≤ m.entries.length := List.countP_le_length

/-- The classes together have all entries that are in some class. -/
theorem sum_count [Fintype κ] (m : AList β) (classOf : (a : α) → β a → Option κ) :
    ∑ k, count m classOf k = m.entries.countP fun e => (classOf e.1 e.2).isSome := by
  simp only [count]
  induction m.entries with
  | nil => simp only [List.countP_nil, Finset.sum_const_zero]
  | cons e es ih =>
      simp only [List.countP_cons, Finset.sum_add_distrib, ih]
      cases classOf e.1 e.2 with
      | none => simp
      | some k => simp

/-! ## One entry changes -/

variable [DecidableEq α]

theorem entries_perm_of_lookup {b : β a} (h : m.lookup a = some b) :
    m.entries.Perm (⟨a, b⟩ :: (m.erase a).entries) := by
  have hinsert : ((m.erase a).insert a b).entries = ⟨a, b⟩ :: (m.erase a).entries :=
    AList.entries_insert_of_notMem (by simp [AList.mem_erase])
  rw [← hinsert]
  refine List.lookup_ext m.nodupKeys (AList.nodupKeys _) fun a' b' => ?_
  change b' ∈ m.lookup a' ↔ b' ∈ ((m.erase a).insert a b).lookup a'
  by_cases ha : a' = a
  · subst ha
    rw [AList.lookup_insert, h]
  · rw [AList.lookup_insert_ne ha, AList.lookup_erase_ne ha]

theorem ne_of_mem_erase {e : Sigma β} (h : e ∈ (m.erase a).entries) : e.1 ≠ a := by
  have hmem : e.1 ∈ m.erase a := AList.mem_keys.mpr (List.mem_map_of_mem h)
  exact (AList.mem_erase.mp hmem).1

/-- An entry counts in its class, if it is there and has one. -/
theorem count_erase (m : AList β) (a : α) (classOf : (a : α) → β a → Option κ) :
    count m classOf = count (m.erase a) classOf + one ((m.lookup a).bind (classOf a)) := by
  funext k
  cases h : m.lookup a with
  | none =>
      have hmem : a ∉ m.keys := AList.lookup_eq_none.mp h
      have herase : (m.erase a).entries = m.entries := List.kerase_of_notMem_keys hmem
      simp only [count, herase, Option.bind_none, Pi.add_apply, one_none, add_zero]
  | some b =>
      rw [Option.bind_some, Pi.add_apply, count, (entries_perm_of_lookup h).countP_eq]
      exact countP_cons_class b _ k

theorem count_insert (m : AList β) (a : α) (b : β a) (classOf : (a : α) → β a → Option κ) :
    count (m.insert a b) classOf = count (m.erase a) classOf + one (classOf a b) := by
  funext k
  exact countP_cons_class b _ k

/-- What the other entries count stays when one entry and its class change. -/
theorem count_replace (m : AList β) (a : α) (b : β a)
    (h : ∀ a' b', a' ≠ a → classOf' a' b' = classOf a' b') :
    ∃ others, count m classOf = others + one ((m.lookup a).bind (classOf a)) ∧
      count (m.insert a b) classOf' = others + one (classOf' a b) := by
  refine ⟨count (m.erase a) classOf, count_erase m a classOf, ?_⟩
  rw [count_insert]
  congr 1
  exact count_congr fun e he => h e.1 e.2 (ne_of_mem_erase he)

end Classes

/-! ## The counters -/

structure Counters (κ : Type*) where
  value : κ → UInt64 := fun _ => 0
  /-- Some subtraction has found its counter at zero. -/
  wrapped : Bool := false

namespace Counters

variable {κ : Type*}

structure Shows (t : Counters κ) (numbers : κ → ℕ) : Prop where
  value : ∀ k, (t.value k).toNat = numbers k
  unwrapped : t.wrapped = false

theorem shows_zero : Shows ({} : Counters κ) fun _ => 0 := ⟨fun _ => rfl, rfl⟩

variable [DecidableEq κ] {t : Counters κ} {numbers : κ → ℕ} {k : κ}

def add (t : Counters κ) (k : κ) : Counters κ where
  value := Function.update t.value k (t.value k + 1)
  wrapped := t.wrapped

def sub (t : Counters κ) (k : κ) : Counters κ where
  value := Function.update t.value k (t.value k - 1)
  wrapped := t.wrapped || t.value k == 0

theorem Shows.add (h : t.Shows numbers) (hk : numbers k + 1 < 2 ^ 64) :
    (t.add k).Shows (numbers + one (some k)) := by
  refine ⟨fun k' => ?_, h.unwrapped⟩
  simp only [Counters.add, Pi.add_apply]
  by_cases hk' : k' = k
  · subst hk'
    rw [Function.update_self, one_some_self, UInt64.toNat_add, h.value]
    exact Nat.mod_eq_of_lt hk
  · rw [Function.update_of_ne hk', one_some_ne (Ne.symm hk'), h.value, add_zero]

theorem Shows.sub (h : t.Shows (numbers + one (some k))) : (t.sub k).Shows numbers := by
  have hvalue : (t.value k).toNat = numbers k + 1 := by
    rw [h.value, Pi.add_apply, one_some_self]
  have hpos : (1 : UInt64) ≤ t.value k := by
    rw [UInt64.le_iff_toNat_le, hvalue]
    exact Nat.le_add_left 1 _
  refine ⟨fun k' => ?_, ?_⟩
  · simp only [Counters.sub]
    by_cases hk' : k' = k
    · subst hk'
      rw [Function.update_self, UInt64.toNat_sub_of_le _ _ hpos, hvalue]
      exact Nat.add_sub_cancel _ 1
    · rw [Function.update_of_ne hk', h.value, Pi.add_apply, one_some_ne (Ne.symm hk'), add_zero]
  · have hne : t.value k ≠ 0 := by
      intro heq
      rw [heq] at hpos
      exact absurd hpos (by decide)
    simp only [Counters.sub, h.unwrapped, Bool.false_or, beq_eq_false_iff_ne]
    exact hne

end Counters

end ClassCounters
