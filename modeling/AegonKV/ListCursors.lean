import Mathlib.Data.List.TakeWhile

/-!
# A cursor on a list

The cursor stands on an item of a fixed list, or on none, and can be sent to the first item that a
predicate does not hold of. Going forward one looks at the list as what is before the position and what
begins there. Going backward one looks at it as what ends at the position and what comes later, and a
cursor on no item stands before the first one.
-/

namespace ListCursors

variable {α : Type*}

structure Cursor (α : Type*) where
  /-- The items before the position, nearest first. -/
  before : List α
  /-- The items from the position on. -/
  after : List α

namespace Cursor

def items (c : Cursor α) : List α := c.before.reverse ++ c.after

def current (c : Cursor α) : Option α := c.after.head?

def exhausted (items : List α) : Cursor α := ⟨items.reverse, []⟩

def first (items : List α) : Cursor α := ⟨[], items⟩

def next (c : Cursor α) : Cursor α :=
  match c.after with
  | [] => c
  | x :: xs => ⟨x :: c.before, xs⟩

def prev (c : Cursor α) : Cursor α :=
  match c.before with
  | [] => exhausted c.items
  | y :: ys => ⟨ys, y :: c.after⟩

def last (items : List α) : Cursor α := (exhausted items).prev

/-- To the first item behind those that `below` holds of. -/
def seek (c : Cursor α) (below : α → Bool) : Cursor α :=
  ⟨(c.items.takeWhile below).reverse, c.items.dropWhile below⟩

def seekForPrev (c : Cursor α) (upTo : α → Bool) : Cursor α := (c.seek upTo).prev

def earlier (c : Cursor α) : List α :=
  match c.after with
  | [] => []
  | x :: _ => x :: c.before

def later (c : Cursor α) : List α :=
  match c.after with
  | [] => c.items
  | _ :: xs => xs

variable {c : Cursor α} {x : α} {xs : List α} {below : α → Bool}

theorem current_eq_some : c.current = some x ↔ ∃ xs, c.after = x :: xs := List.head?_eq_some_iff

theorem current_eq_none : c.current = none ↔ c.after = [] := List.head?_eq_none_iff

@[simp] theorem items_exhausted (l : List α) : (exhausted l).items = l := by
  rw [exhausted, items, List.reverse_reverse, List.append_nil]

@[simp] theorem items_next (c : Cursor α) : c.next.items = c.items := by
  rw [next]
  split
  · rfl
  · next x xs h => rw [items, items, h, List.reverse_cons, List.append_assoc, List.singleton_append]

@[simp] theorem items_prev (c : Cursor α) : c.prev.items = c.items := by
  rw [prev]
  split
  · exact items_exhausted _
  · next y ys h => rw [items, items, h, List.reverse_cons, List.append_assoc, List.singleton_append]

@[simp] theorem items_last (l : List α) : (last l).items = l := by rw [last, items_prev, items_exhausted]

@[simp] theorem items_seek (c : Cursor α) (below : α → Bool) : (c.seek below).items = c.items := by
  rw [seek, items, List.reverse_reverse, List.takeWhile_append_dropWhile]

@[simp] theorem items_seekForPrev (c : Cursor α) (upTo : α → Bool) :
    (c.seekForPrev upTo).items = c.items := by
  rw [seekForPrev, items_prev, items_seek]

theorem next_of_cons (h : c.after = x :: xs) : c.next = ⟨x :: c.before, xs⟩ := by rw [next, h]

theorem earlier_later (c : Cursor α) : c.earlier.reverse ++ c.later = c.items := by
  rw [earlier, later]
  split
  · rfl
  · next x xs h => rw [items, h, List.reverse_cons, List.append_assoc, List.singleton_append]

/-- One step back moves an item to what comes later. -/
theorem earlier_prev (c : Cursor α) : c.prev.earlier = c.before := by
  rw [prev]
  split
  · next hbefore => exact hbefore.symm
  · next y ys hbefore => exact hbefore.symm

theorem later_prev (h : c.after = x :: xs) : c.prev.later = x :: xs := by
  rw [prev]
  split
  · next hbefore =>
      change (exhausted c.items).items = x :: xs
      rw [items_exhausted, items, hbefore, h]
      rfl
  · next y ys hbefore => exact h

theorem earlier_seekForPrev (c : Cursor α) (upTo : α → Bool) :
    (c.seekForPrev upTo).earlier = (c.items.takeWhile upTo).reverse := by
  rw [seekForPrev, prev]
  split
  · next hbefore => exact hbefore.symm
  · next y ys hbefore => exact hbefore.symm

theorem later_seekForPrev (c : Cursor α) (upTo : α → Bool) :
    (c.seekForPrev upTo).later = c.items.dropWhile upTo := by
  rw [seekForPrev, prev]
  split
  · next hbefore =>
      change (exhausted (c.seek upTo).items).items = c.items.dropWhile upTo
      rw [items_exhausted, items, hbefore]
      rfl
  · next y ys hbefore => rfl

theorem seek_before (h : x ∈ (c.seek below).before) : below x = true :=
  List.mem_takeWhile_imp (List.mem_reverse.mp h)

/-- Where the predicate holds of a first part of the items. -/
theorem seek_after (hmono : c.items.Pairwise fun a b => below b = true → below a = true)
    (h : x ∈ (c.seek below).after) : below x = false := by
  change x ∈ c.items.dropWhile below at h
  cases hd : c.items.dropWhile below with
  | nil =>
      rw [hd] at h
      cases h
  | cons y ys =>
      have hy : below y = false := by
        have hhead := List.head?_dropWhile_not below c.items
        rw [hd] at hhead
        exact hhead
      rw [hd] at h
      rcases List.mem_cons.mp h with rfl | hx
      · exact hy
      · have hsub : List.Sublist (y :: ys) c.items := hd ▸ List.dropWhile_sublist below
        have hyx := List.rel_of_pairwise_cons (hmono.sublist hsub) hx
        rw [← Bool.not_eq_true]
        intro hc
        rw [hyx hc] at hy
        cases hy

/-- A cursor is sent on when the predicate holds of everything before it. -/
theorem length_after_seek (h : ∀ y ∈ c.before, below y = true) :
    (c.seek below).after.length ≤ c.after.length := by
  change (c.items.dropWhile below).length ≤ c.after.length
  rw [items, List.dropWhile_append_of_pos fun y hy => h y (List.mem_reverse.mp hy)]
  exact (List.dropWhile_sublist below).length_le

end Cursor

end ListCursors
