import Mathlib.Data.List.Nodup
import Mathlib.Data.List.Perm.Basic

/-!
# Distinct resources of the entries of a list

Each entry of a list has resources, and no resource belongs to two entries or twice to one. What
this says about one entry, and how it survives another entry in the place of one.
-/

namespace Ownership

variable {α β : Type*} {owned : α → List β} {l : List α} {j : ℕ} {a b : α}

/-- The resources of an entry are distinct, and no other entry has them. -/
theorem nodup_of_getElem? (h : (l.flatMap owned).Nodup) (hj : l[j]? = some a) :
    (owned a).Nodup ∧ ((l.eraseIdx j).flatMap owned).Nodup ∧
      ∀ x ∈ owned a, x ∉ (l.eraseIdx j).flatMap owned := by
  obtain ⟨hlt, hget⟩ := List.getElem?_eq_some_iff.mp hj
  have hperm : (a :: l.eraseIdx j).Perm l := by
    rw [← hget]
    exact List.getElem_cons_eraseIdx_perm hlt
  have hn := (hperm.flatMap_right owned).nodup_iff.mpr h
  rw [List.flatMap_cons] at hn
  obtain ⟨ha, hothers, hdisjoint⟩ := List.nodup_append'.mp hn
  exact ⟨ha, hothers, fun x hx hother => hdisjoint hx hother⟩

theorem nodup_set (h : (l.flatMap owned).Nodup) (hj : l[j]? = some a) (hn : (owned b).Nodup)
    (hdisjoint : ∀ x ∈ owned b, x ∉ (l.eraseIdx j).flatMap owned) :
    ((l.set j b).flatMap owned).Nodup := by
  obtain ⟨hlt, -⟩ := List.getElem?_eq_some_iff.mp hj
  have hperm : (l.set j b).Perm (b :: l.eraseIdx j) := List.set_perm_cons_eraseIdx hlt b
  rw [(hperm.flatMap_right owned).nodup_iff, List.flatMap_cons]
  exact List.nodup_append'.mpr
    ⟨hn, (nodup_of_getElem? h hj).2.1, fun x hx hother => hdisjoint x hx hother⟩

theorem mem_set (hj : l[j]? = some a) {c : α} (hc : c ∈ l.set j b) :
    c = b ∨ c ∈ l.eraseIdx j := by
  obtain ⟨hlt, -⟩ := List.getElem?_eq_some_iff.mp hj
  exact List.mem_cons.mp ((List.set_perm_cons_eraseIdx hlt b).subset hc)

end Ownership
