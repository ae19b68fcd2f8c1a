import Mathlib.Data.List.Basic

/-!
# Walking a sorted list between two positions

Two searches in a sorted list each find the end of a prefix: of the elements with `p` and of those
with `q`. An iterator that starts behind the first prefix and goes on until it meets the end of the
second gives the elements with `q` but not `p`. If some element has `p` but not `q`, it starts
behind its goal and runs out of the list.
-/

namespace SortedWalk
variable {α : Type}

/-- The elements from position `it` on, up to position `stop`; `none` where the end of the list
comes first. -/
def walkTo (stop : ℕ) : ℕ → List α → Option (List α)
  | it, [] => if it = stop then some [] else none
  | it, a :: l => if it = stop then some [] else (walkTo stop (it + 1) l).map (a :: ·)

theorem walkTo_of_lt {stop it : ℕ} (h : stop < it) (l : List α) : walkTo stop it l = none := by
  induction l generalizing it with
  | nil => exact if_neg (by omega)
  | cons a l ih => rw [walkTo, if_neg (by omega), ih (by omega), Option.map_none]

theorem walkTo_succ (stop it : ℕ) (l : List α) : walkTo (stop + 1) (it + 1) l = walkTo stop it l := by
  induction l generalizing it with
  | nil => simp only [walkTo, Nat.add_right_cancel_iff]
  | cons a l ih => simp only [walkTo, Nat.add_right_cancel_iff, ih]

theorem walkTo_zero {stop : ℕ} {l : List α} (h : stop ≤ l.length) :
    walkTo stop 0 l = some (l.take stop) := by
  induction l generalizing stop with
  | nil =>
      obtain rfl : stop = 0 := by simpa using h
      rfl
  | cons a l ih =>
      cases stop with
      | zero => rfl
      | succ stop =>
          rw [walkTo, if_neg (by omega), walkTo_succ, ih (by simpa using h), Option.map_some,
            List.take_succ_cons]

/-- No element with `p` stands behind one without. -/
def Leads (p : α → Bool) (l : List α) : Prop := l.Pairwise fun a b => p b = true → p a = true

variable {p q : α → Bool} {l : List α}

theorem leads_of_pairwise {r : α → α → Prop} (hl : l.Pairwise r)
    (hp : ∀ a b, r a b → p b = true → p a = true) : Leads p l := hl.imp fun {a b} => hp a b

theorem Leads.filter_eq_nil {a : α} (h : Leads p (a :: l)) (ha : ¬p a = true) :
    l.filter p = [] := by
  rw [List.filter_eq_nil_iff]
  intro b hb hpb
  exact ha ((List.pairwise_cons.mp h).1 b hb hpb)

theorem Leads.takeWhile_eq_filter (h : Leads p l) : l.takeWhile p = l.filter p := by
  induction l with
  | nil => rfl
  | cons a l ih =>
      by_cases ha : p a = true
      · rw [List.takeWhile_cons_of_pos ha, List.filter_cons_of_pos ha,
          ih (List.pairwise_cons.mp h).2]
      · rw [List.takeWhile_cons_of_neg ha, List.filter_cons_of_neg ha, h.filter_eq_nil ha]

theorem Leads.dropWhile_eq_filter (h : Leads p l) : l.dropWhile p = l.filter fun a => !p a := by
  induction l with
  | nil => rfl
  | cons a l ih =>
      by_cases ha : p a = true
      · rw [List.dropWhile_cons_of_pos ha, ih (List.pairwise_cons.mp h).2,
          List.filter_cons_of_neg (by rw [ha]; exact Bool.false_ne_true)]
      · rw [List.dropWhile_cons_of_neg ha, eq_comm, List.filter_eq_self]
        intro b hb
        rw [Bool.not_eq_true']
        rcases List.mem_cons.mp hb with rfl | hb
        · exact Bool.eq_false_iff.mpr ha
        · exact Bool.eq_false_iff.mpr fun hpb => ha ((List.pairwise_cons.mp h).1 b hb hpb)

/-- The walk from the end of one prefix to the end of the other. -/
theorem walkTo_between (hp : Leads p l) (hq : Leads q l) :
    walkTo (l.takeWhile q).length (l.takeWhile p).length (l.drop (l.takeWhile p).length) =
      if l.any fun a => p a && !q a then none else some (l.filter fun a => !p a && q a) := by
  induction l with
  | nil => rfl
  | cons a l ih =>
      have hpl := (List.pairwise_cons.mp hp).2
      have hql := (List.pairwise_cons.mp hq).2
      by_cases hpa : p a = true
      · by_cases hqa : q a = true
        · have hhead : (p a && !q a) = false := by rw [hpa, hqa]; rfl
          have hskip : ((a :: l).filter fun b => !p b && q b) = l.filter fun b => !p b && q b := by
            refine List.filter_cons_of_neg ?_
            rw [hpa, Bool.not_true, Bool.false_and]
            exact Bool.false_ne_true
          rw [List.takeWhile_cons_of_pos hpa, List.takeWhile_cons_of_pos hqa, List.length_cons,
            List.length_cons, List.drop_succ_cons, walkTo_succ, ih hpl hql, List.any_cons, hhead,
            Bool.false_or, hskip]
        · have hhead : (p a && !q a) = true := by
            rw [hpa, Bool.eq_false_iff.mpr hqa]
            rfl
          rw [List.takeWhile_cons_of_pos hpa, List.takeWhile_cons_of_neg hqa, List.any_cons, hhead,
            Bool.true_or, if_pos rfl]
          exact walkTo_of_lt (Nat.succ_pos _) _
      · -- nothing has `p`, so that the walk starts at the front
        have hnone : ∀ b ∈ a :: l, p b = false := by
          intro b hb
          rw [Bool.eq_false_iff]
          intro hpb
          rcases List.mem_cons.mp hb with rfl | hb
          · exact hpa hpb
          · exact hpa ((List.pairwise_cons.mp hp).1 b hb hpb)
        have hany : ((a :: l).any fun b => p b && !q b) = false := by
          rw [List.any_eq_false]
          intro b hb
          rw [hnone b hb]
          exact Bool.false_ne_true
        have hfilter : ((a :: l).filter fun b => !p b && q b) = (a :: l).filter q := by
          apply List.filter_congr
          intro b hb
          rw [hnone b hb]
          rfl
        have hlen := (List.takeWhile_prefix (l := a :: l) q).length_le
        rw [List.takeWhile_cons_of_neg hpa, hany, hfilter, List.length_nil, List.drop_zero,
          walkTo_zero hlen, if_neg Bool.false_ne_true, ← hq.takeWhile_eq_filter]
        congr 1
        exact List.prefix_iff_eq_take.mp (List.takeWhile_prefix q) |>.symm

end SortedWalk
