import Mathlib.Data.List.AList

/-!
# Folding into a map

A map that keeps one accumulator for each key, as a loop that does `map[key] += x` builds it: a key
that is missing counts as the initial value. What such a loop leaves for a key is the fold over the
elements of that key.
-/

namespace GroupedFold

variable {κ α β : Type} [DecidableEq κ] (f : β → α → β) (init : β)

def accumulate (m : AList fun _ : κ => β) (k : κ) (a : α) : AList fun _ : κ => β :=
  m.insert k (f ((m.lookup k).getD init) a)

def valueAt (m : AList fun _ : κ => β) (k : κ) : β := (m.lookup k).getD init

theorem valueAt_accumulate_self (m : AList fun _ : κ => β) (k : κ) (a : α) :
    valueAt init (accumulate f init m k a) k = f (valueAt init m k) a := by
  rw [valueAt, accumulate, AList.lookup_insert, Option.getD_some, valueAt]

theorem valueAt_accumulate_ne (m : AList fun _ : κ => β) {k k' : κ} (h : k' ≠ k) (a : α) :
    valueAt init (accumulate f init m k a) k' = valueAt init m k' := by
  rw [valueAt, accumulate, AList.lookup_insert_ne h, valueAt]

/-- A whole loop, seen at one key. -/
theorem valueAt_foldl_accumulate (key : α → κ) (l : List α) (m : AList fun _ : κ => β) (k : κ) :
    valueAt init (l.foldl (fun m a => accumulate f init m (key a) a) m) k =
      (l.filter fun a => key a = k).foldl f (valueAt init m k) := by
  induction l generalizing m with
  | nil => rfl
  | cons a l ih =>
      rw [List.foldl_cons, ih]
      by_cases ha : key a = k
      · rw [List.filter_cons_of_pos (by simpa using ha), List.foldl_cons, ← ha, valueAt_accumulate_self]
      · rw [List.filter_cons_of_neg (by simpa using ha), valueAt_accumulate_ne f init m (Ne.symm ha)]

theorem mem_foldl_accumulate (key : α → κ) (l : List α) (m : AList fun _ : κ => β) (k : κ) :
    k ∈ l.foldl (fun m a => accumulate f init m (key a) a) m ↔ k ∈ m ∨ ∃ a ∈ l, key a = k := by
  induction l generalizing m with
  | nil => simp
  | cons a l ih =>
      rw [List.foldl_cons, ih, accumulate, AList.mem_insert, List.exists_mem_cons_iff, eq_comm]
      tauto

/-- Every element starts at most one entry. -/
theorem length_foldl_accumulate_le (key : α → κ) (l : List α) (m : AList fun _ : κ => β) :
    (l.foldl (fun m a => accumulate f init m (key a) a) m).entries.length ≤
      m.entries.length + l.length := by
  induction l generalizing m with
  | nil => exact le_rfl
  | cons a l ih =>
      have hinsert : (accumulate f init m (key a) a).entries.length ≤ m.entries.length + 1 := by
        rw [accumulate, AList.entries_insert, List.length_cons]
        exact Nat.succ_le_succ (List.kerase_sublist _ _).length_le
      have hrest := ih (accumulate f init m (key a) a)
      rw [List.foldl_cons, List.length_cons]
      omega

/-! ## From one map into another -/

section Entries
variable {γ : Type} (g : β → γ → β) {k : κ}

/-- Among the entries of a map at most one has the key. -/
theorem filter_key_eq {es : List ((_ : κ) × γ)} (hn : es.NodupKeys) (k : κ) :
    (es.filter fun e => e.1 = k).map (·.2) = (es.dlookup k).toList := by
  induction es with
  | nil => rfl
  | cons e es ih =>
      obtain ⟨key, x⟩ := e
      obtain ⟨hnot, hn⟩ := List.nodupKeys_cons.mp hn
      by_cases hk : key = k
      · subst hk
        have hnone := List.dlookup_eq_none.mpr hnot
        rw [List.filter_cons_of_pos (by simp), List.dlookup_cons_eq, List.map_cons, ih hn, hnone]
        rfl
      · rw [List.filter_cons_of_neg (by simpa using hk), List.dlookup_cons_ne _ _ (Ne.symm hk), ih hn]

/-- A loop over the entries of a map changes every key once. -/
theorem valueAt_foldl_entries {es : List ((_ : κ) × γ)} (hn : es.NodupKeys)
    (m : AList fun _ : κ => β) (k : κ) :
    valueAt init (es.foldl (fun m e => accumulate (fun b e => g b e.2) init m e.1 e) m) k =
      (es.dlookup k).toList.foldl g (valueAt init m k) := by
  rw [valueAt_foldl_accumulate (fun b (e : (_ : κ) × γ) => g b e.2) init (fun e => e.1),
    ← filter_key_eq hn, List.foldl_map]

theorem lookup_foldl_insert {es : List ((_ : κ) × β)} (hn : es.NodupKeys)
    (m : AList fun _ : κ => β) (k : κ) :
    (es.foldl (fun m e => m.insert e.1 e.2) m).lookup k = (es.dlookup k).or (m.lookup k) := by
  induction es generalizing m with
  | nil => rfl
  | cons e es ih =>
      obtain ⟨key, x⟩ := e
      obtain ⟨hnot, hn⟩ := List.nodupKeys_cons.mp hn
      rw [List.foldl_cons, ih hn]
      by_cases hk : k = key
      · subst hk
        rw [List.dlookup_eq_none.mpr hnot, List.dlookup_cons_eq, AList.lookup_insert]
        rfl
      · rw [List.dlookup_cons_ne _ _ hk, AList.lookup_insert_ne hk]

end Entries

end GroupedFold
