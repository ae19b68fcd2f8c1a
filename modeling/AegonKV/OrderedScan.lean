import Mathlib.Order.Bounds.Basic
import Mathlib.Order.Interval.Set.Basic

/-!
# Scanning an ordered set

A cursor stands on an element of a set or beyond it. It is moved to the ends, to the element next to a
target, or to a neighbour of the element it stands on.
-/

namespace OrderedScan

variable {κ : Type*} [LinearOrder κ]

def First (S : Set κ) : Option κ → Prop
  | none => S = ∅
  | some k => IsLeast S k

def Last (S : Set κ) : Option κ → Prop
  | none => S = ∅
  | some k => IsGreatest S k

inductive Op (κ : Type*)
  | seekToFirst
  | seekToLast
  | seek (target : κ)
  | seekForPrev (target : κ)
  | next
  | prev

/-- The neighbours are asked for only where the cursor stands on an element. -/
def Moves (S : Set κ) (current : Option κ) : Op κ → Option κ → Prop
  | .seekToFirst, r => First S r
  | .seekToLast, r => Last S r
  | .seek target, r => First (S ∩ Set.Ici target) r
  | .seekForPrev target, r => Last (S ∩ Set.Iic target) r
  | .next, r => ∃ k, current = some k ∧ First (S ∩ Set.Ioi k) r
  | .prev, r => ∃ k, current = some k ∧ Last (S ∩ Set.Iio k) r

variable {S : Set κ} {r : Option κ}

theorem first_none (h : ∀ k, k ∉ S) : First S none := Set.eq_empty_iff_forall_notMem.mpr h

theorem last_none (h : ∀ k, k ∉ S) : Last S none := Set.eq_empty_iff_forall_notMem.mpr h

theorem First.unique {r' : Option κ} (h : First S r) (h' : First S r') : r = r' := by
  cases r with
  | none =>
      cases r' with
      | none => rfl
      | some k' => exact absurd (h ▸ h'.1) (Set.notMem_empty k')
  | some k =>
      cases r' with
      | none => exact absurd (h' ▸ h.1) (Set.notMem_empty k)
      | some k' => exact congrArg some (h.unique h')

theorem Last.unique {r' : Option κ} (h : Last S r) (h' : Last S r') : r = r' := by
  cases r with
  | none =>
      cases r' with
      | none => rfl
      | some k' => exact absurd (h ▸ h'.1) (Set.notMem_empty k')
  | some k =>
      cases r' with
      | none => exact absurd (h' ▸ h.1) (Set.notMem_empty k)
      | some k' => exact congrArg some (h.unique h')

variable {current : Option κ} {op : Op κ}

/-- A move ends on an element of the set or beyond it. -/
theorem Moves.mem (h : Moves S current op r) : ∀ k, r = some k → k ∈ S := by
  rintro k rfl
  cases op with
  | seekToFirst => exact h.1
  | seekToLast => exact h.1
  | seek target => exact h.1.1
  | seekForPrev target => exact h.1.1
  | next =>
      obtain ⟨k, -, h⟩ := h
      exact h.1.1
  | prev =>
      obtain ⟨k, -, h⟩ := h
      exact h.1.1

theorem Moves.unique {r' : Option κ} (h : Moves S current op r) (h' : Moves S current op r') : r = r' := by
  cases op with
  | seekToFirst => exact First.unique h h'
  | seekToLast => exact Last.unique h h'
  | seek target => exact First.unique h h'
  | seekForPrev target => exact Last.unique h h'
  | next =>
      obtain ⟨k, hk, h⟩ := h
      obtain ⟨k', hk', h'⟩ := h'
      obtain rfl : k = k' := Option.some.inj (hk.symm.trans hk')
      exact First.unique h h'
  | prev =>
      obtain ⟨k, hk, h⟩ := h
      obtain ⟨k', hk', h'⟩ := h'
      obtain rfl : k = k' := Option.some.inj (hk.symm.trans hk')
      exact Last.unique h h'

end OrderedScan
