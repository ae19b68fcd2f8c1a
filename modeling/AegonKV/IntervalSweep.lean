import Mathlib.Data.List.Dedup
import Mathlib.Data.List.Induction
import Mathlib.Data.List.Nodup
import Mathlib.Data.List.Perm.Subperm
import Mathlib.Order.Defs.Unbundled
import Mathlib.Order.RelClasses

/-!
# Sweeping over the ends of intervals

The lower and upper ends of intervals are sorted by key, upper ends first among equal keys. A sweep
opens an interval at its lower end and closes it at its upper end, and marks all open intervals
whenever it has opened one and there are more than a limit. Where every interval has its lower key
below its upper one, the sweep closes all of them and marks those that are crowded. An interval with
its ends at one key, or the wrong way round, is closed before it is opened and stays open.
-/

namespace IntervalSweep
variable {α ι κ : Type} [DecidableEq ι]

/-! ## The sweep -/

section
variable (name : α → ι)

def track (opened : List ι) (e : α × Bool) : List ι :=
  if e.2 then if name e.1 ∈ opened then opened else opened ++ [name e.1]
  else opened.erase (name e.1)

def openAfter (ends : List (α × Bool)) : List ι := ends.foldl (track name) []

def sweep (limit : ℕ) (acc : List ι × List ι) (e : α × Bool) : List ι × List ι :=
  (track name acc.1 e,
    if e.2 && decide (limit < (track name acc.1 e).length) then acc.2 ++ track name acc.1 e else acc.2)

end

variable {name : α → ι}

theorem nodup_track {opened : List ι} (h : opened.Nodup) (e : α × Bool) :
    (track name opened e).Nodup := by
  rw [track]
  split_ifs with hopen hmem
  · exact h
  · exact List.nodup_append'.mpr ⟨h, List.nodup_singleton _, List.disjoint_singleton.mpr hmem⟩
  · exact h.erase _

theorem nodup_openAfter (ends : List (α × Bool)) : (openAfter name ends).Nodup := by
  have hfold (opened : List ι) (h : opened.Nodup) : (ends.foldl (track name) opened).Nodup := by
    induction ends generalizing opened with
    | nil => exact h
    | cons e ends ih => exact ih _ (nodup_track h e)
  exact hfold [] List.nodup_nil

theorem openAfter_snoc (ends : List (α × Bool)) (e : α × Bool) :
    openAfter name (ends ++ [e]) = track name (openAfter name ends) e := by
  rw [openAfter, List.foldl_append]
  rfl

theorem mem_track_open {opened : List ι} {a : α} {x : ι} :
    x ∈ track name opened (a, true) ↔ x = name a ∨ x ∈ opened := by
  rw [track, if_pos rfl]
  split_ifs with hmem
  · exact ⟨Or.inr, fun h => h.elim (fun heq => heq ▸ hmem) id⟩
  · rw [List.mem_append, List.mem_singleton, or_comm]

theorem mem_track_close {opened : List ι} (h : opened.Nodup) {a : α} {x : ι} :
    x ∈ track name opened (a, false) ↔ x ≠ name a ∧ x ∈ opened := by
  rw [track, if_neg Bool.false_ne_true]
  exact h.mem_erase_iff

theorem openAfter_subset (ends : List (α × Bool)) :
    openAfter name ends ⊆ ends.map fun e => name e.1 := by
  induction ends using List.reverseRecOn with
  | nil => exact List.nil_subset _
  | append_singleton ends e ih =>
      intro x hx
      obtain ⟨a, flag⟩ := e
      rw [List.map_append]
      rw [openAfter_snoc] at hx
      cases flag with
      | true =>
          rcases mem_track_open.mp hx with rfl | hx
          · exact List.mem_append_right _ List.mem_cons_self
          · exact List.mem_append_left _ (ih hx)
      | false =>
          exact List.mem_append_left _ (ih ((mem_track_close (nodup_openAfter ends)).mp hx).2)

theorem foldl_sweep_fst (limit : ℕ) (ends : List (α × Bool)) (acc : List ι × List ι) :
    (ends.foldl (sweep name limit) acc).1 = ends.foldl (track name) acc.1 := by
  induction ends generalizing acc with
  | nil => rfl
  | cons e ends ih => exact ih _

/-- An interval is marked where it is open after a lower end with too many others. -/
theorem mem_foldl_sweep {limit : ℕ} {x : ι} (ends : List (α × Bool)) (acc : List ι × List ι) :
    x ∈ (ends.foldl (sweep name limit) acc).2 ↔ x ∈ acc.2 ∨ ∃ pre a post,
      ends = pre ++ (a, true) :: post ∧
        limit < ((pre ++ [(a, true)]).foldl (track name) acc.1).length ∧
          x ∈ (pre ++ [(a, true)]).foldl (track name) acc.1 := by
  induction ends generalizing acc with
  | nil =>
      refine ⟨Or.inl, fun h => h.elim id ?_⟩
      rintro ⟨pre, a, post, heq, -⟩
      cases pre with
      | nil => cases heq
      | cons b pre => cases heq
  | cons e ends ih =>
      rw [List.foldl_cons, ih]
      constructor
      · rintro (hacc | ⟨pre, a, post, rfl, hmany, hx⟩)
        · rw [sweep] at hacc
          split_ifs at hacc with hmark
          · rcases List.mem_append.mp hacc with hacc | hx
            · exact Or.inl hacc
            · obtain ⟨hopen, hmany⟩ := Bool.and_eq_true_iff.mp hmark
              obtain ⟨a, b⟩ := e
              change b = true at hopen
              subst hopen
              exact Or.inr ⟨[], a, ends, rfl, of_decide_eq_true hmany, hx⟩
          · exact Or.inl hacc
        · exact Or.inr ⟨e :: pre, a, post, rfl, hmany, hx⟩
      · rintro (hacc | ⟨pre, a, post, heq, hmany, hx⟩)
        · refine Or.inl ?_
          rw [sweep]
          split_ifs
          · exact List.mem_append_left _ hacc
          · exact hacc
        · cases pre with
          | nil =>
              obtain ⟨rfl, rfl⟩ := List.cons.inj heq
              refine Or.inl ?_
              have hmark : decide (limit < (track name acc.1 (a, true)).length) = true :=
                decide_eq_true hmany
              rw [sweep, hmark]
              exact List.mem_append_right _ hx
          | cons b pre =>
              obtain ⟨rfl, rfl⟩ := List.cons.inj heq
              exact Or.inr ⟨pre, a, post, rfl, hmany, hx⟩

/-! ## Sorted ends -/

section
variable (lt : κ → κ → Prop) (lo hi : α → κ)

def key (e : α × Bool) : κ := if e.2 then lo e.1 else hi e.1

/-- The order of the ends: by key, and at one key the upper ends first. -/
def before (a b : α × Bool) : Prop :=
  lt (key lo hi a) (key lo hi b) ∨ (key lo hi a = key lo hi b ∧ a.2 = false ∧ b.2 = true)

structure Sorted (intervals : List α) (ends : List (α × Bool)) : Prop where
  pairwise : ends.Pairwise fun a b => ¬before lt lo hi b a
  mem : ∀ a b, (a, b) ∈ ends ↔ a ∈ intervals

/-- The interval is open just after the lower ends at a key. -/
def Active (x : κ) (a : α) : Prop := lo a = x ∨ (lt (lo a) x ∧ lt x (hi a))

end

variable {lt : κ → κ → Prop} {lo hi : α → κ} {intervals : List α} {ends : List (α × Bool)}

theorem not_before [IsStrictTotalOrder κ lt] {a b : α × Bool} :
    ¬before lt lo hi b a ↔ lt (key lo hi a) (key lo hi b) ∨
      (key lo hi a = key lo hi b ∧ (a.2 = true → b.2 = true)) := by
  have hflag : (¬(b.2 = false ∧ a.2 = true)) ↔ (a.2 = true → b.2 = true) := by
    cases a.2 <;> cases b.2 <;> decide
  rw [before, not_or]
  constructor
  · rintro ⟨hnot, htie⟩
    rcases trichotomous_of lt (key lo hi a) (key lo hi b) with hlt | heq | hgt
    · exact Or.inl hlt
    · exact Or.inr ⟨heq, hflag.mp fun hboth => htie ⟨heq.symm, hboth⟩⟩
    · exact absurd hgt hnot
  · rintro (hlt | ⟨heq, hle⟩)
    · exact ⟨fun hgt => asymm_of lt hlt hgt, fun htie => irrefl_of lt _ (htie.1 ▸ hlt)⟩
    · exact ⟨fun hgt => irrefl_of lt _ (heq ▸ hgt), fun htie => hflag.mpr hle htie.2⟩

theorem not_before_trans [IsStrictTotalOrder κ lt] {a b c : α × Bool}
    (hab : ¬before lt lo hi b a) (hbc : ¬before lt lo hi c b) : ¬before lt lo hi c a := by
  rw [not_before] at hab hbc ⊢
  rcases hab with hab | ⟨hab, hle⟩
  · rcases hbc with hbc | ⟨hbc, -⟩
    · exact Or.inl (trans_of lt hab hbc)
    · exact Or.inl (hbc ▸ hab)
  · rcases hbc with hbc | ⟨hbc, hle'⟩
    · exact Or.inl (hab ▸ hbc)
    · exact Or.inr ⟨hab.trans hbc, fun h => hle' (hle h)⟩

theorem not_before_total [IsStrictTotalOrder κ lt] (a b : α × Bool) :
    ¬before lt lo hi b a ∨ ¬before lt lo hi a b := by
  rw [not_before, not_before]
  rcases trichotomous_of lt (key lo hi a) (key lo hi b) with hlt | heq | hgt
  · exact Or.inl (Or.inl hlt)
  · cases ha : a.2 with
    | false => exact Or.inl (Or.inr ⟨heq, fun h => by cases h⟩)
    | true => exact Or.inr (Or.inr ⟨heq.symm, fun _ => rfl⟩)
  · exact Or.inr (Or.inl hgt)

/-- After a sorted list of ends an interval is open when its lower end is in the list and its upper
one is not, or comes first. -/
theorem mem_openAfter [IsStrictTotalOrder κ lt]
    (hsorted : ends.Pairwise fun a b => ¬before lt lo hi b a) {a : α}
    (hname : ∀ e ∈ ends, name e.1 = name a → e.1 = a) :
    name a ∈ openAfter name ends ↔
      (a, true) ∈ ends ∧ ((a, false) ∈ ends → ¬lt (lo a) (hi a)) := by
  induction ends using List.reverseRecOn with
  | nil => exact iff_of_false List.not_mem_nil fun h => List.not_mem_nil h.1
  | append_singleton ends e ih =>
      obtain ⟨hends, -, hlast⟩ := List.pairwise_append.mp hsorted
      have ih := ih hends fun e he => hname e (List.mem_append_left _ he)
      have hlast (e' : α × Bool) (he' : e' ∈ ends) : ¬before lt lo hi e e' :=
        hlast e' he' e List.mem_cons_self
      obtain ⟨b, flag⟩ := e
      by_cases hb : b = a
      · subst hb
        cases flag with
        | true =>
            rw [openAfter_snoc, mem_track_open]
            refine iff_of_true (Or.inl rfl) ⟨List.mem_append_right _ List.mem_cons_self, fun hclosed => ?_⟩
            rcases List.mem_append.mp hclosed with hclosed | hclosed
            · -- the upper end comes first, so that it is not above the lower one
              intro hlt
              exact hlast _ hclosed (Or.inl hlt)
            · cases List.mem_singleton.mp hclosed
        | false =>
            rw [openAfter_snoc, mem_track_close (nodup_openAfter ends)]
            refine iff_of_false (fun h => h.1 rfl) ?_
            rintro ⟨hopened, hclosed⟩
            refine hclosed (List.mem_append_right _ List.mem_cons_self) ?_
            rcases List.mem_append.mp hopened with hopened | hopened
            · rcases not_before.mp (hlast _ hopened) with hlt | ⟨-, hflag⟩
              · exact hlt
              · cases hflag rfl
            · cases List.mem_singleton.mp hopened
      · have hother (flag' : Bool) : (a, flag') ∈ ends ++ [(b, flag)] ↔ (a, flag') ∈ ends := by
          rw [List.mem_append, List.mem_singleton]
          exact or_iff_left fun h => hb (congrArg Prod.fst h).symm
        have hne : name a ≠ name b := fun h =>
          hb (hname (b, flag) (List.mem_append_right _ List.mem_cons_self) h.symm)
        rw [openAfter_snoc, hother, hother, ← ih]
        cases flag with
        | true => rw [mem_track_open, or_iff_right hne]
        | false => rw [mem_track_close (nodup_openAfter ends), and_iff_right hne]

/-! ## What the sweep finds -/

/-- The intervals that stay open are those whose lower key is not below the upper one. -/
theorem openAfter_eq_nil_iff [IsStrictTotalOrder κ lt] (h : Sorted lt lo hi intervals ends)
    (hname : ∀ a ∈ intervals, ∀ b ∈ intervals, name a = name b → a = b) :
    openAfter name ends = [] ↔ ∀ a ∈ intervals, lt (lo a) (hi a) := by
  have hopen {a : α} (ha : a ∈ intervals) :
      name a ∈ openAfter name ends ↔ ¬lt (lo a) (hi a) := by
    rw [mem_openAfter h.pairwise fun e he => hname e.1 ((h.mem e.1 e.2).mp he) a ha]
    rw [and_iff_right ((h.mem a true).mpr ha)]
    exact forall_prop_of_true ((h.mem a false).mpr ha)
  constructor
  · intro hnil a ha
    by_contra hnot
    have hmem := (hopen ha).mpr hnot
    rw [hnil] at hmem
    exact List.not_mem_nil hmem
  · intro hproper
    refine List.eq_nil_iff_forall_not_mem.mpr fun x hx => ?_
    obtain ⟨e, he, rfl⟩ := List.mem_map.mp (openAfter_subset ends hx)
    have ha := (h.mem e.1 e.2).mp he
    exact (hopen ha).mp hx (hproper e.1 ha)

/-- An interval that is open after a lower end is active at its key. -/
theorem active_of_open [IsStrictTotalOrder κ lt] {pre post : List (α × Bool)} {a b : α}
    (h : Sorted lt lo hi intervals (pre ++ (b, true) :: post))
    (hname : ∀ a ∈ intervals, ∀ b ∈ intervals, name a = name b → a = b)
    (hproper : ∀ a ∈ intervals, lt (lo a) (hi a)) (ha : a ∈ intervals)
    (hopen : name a ∈ openAfter name (pre ++ [(b, true)])) : Active lt lo hi (lo b) a := by
  have hsplit : pre ++ (b, true) :: post = (pre ++ [(b, true)]) ++ post := List.append_cons _ _ _
  have hsorted := h.pairwise
  rw [hsplit] at hsorted
  obtain ⟨hfront, -, hbehind⟩ := List.pairwise_append.mp hsorted
  have hmem (e : α × Bool) (he : e ∈ pre ++ [(b, true)]) : e.1 ∈ intervals := by
    refine (h.mem e.1 e.2).mp ?_
    rw [hsplit]
    exact List.mem_append_left _ he
  obtain ⟨hopened, hclosed⟩ :=
    (mem_openAfter hfront fun e he => hname e.1 (hmem e he) a ha).mp hopen
  have hupper : (a, false) ∈ post := by
    have hin := (h.mem a false).mpr ha
    rw [hsplit] at hin
    exact (List.mem_append.mp hin).resolve_left fun hin => hclosed hin (hproper a ha)
  -- the upper end comes behind a lower end at the key, so that its key is greater
  have hlt : lt (lo b) (hi a) := by
    have hlast := hbehind (b, true) (List.mem_append_right _ List.mem_cons_self) _ hupper
    rcases not_before.mp hlast with hlt | ⟨-, hflag⟩
    · exact hlt
    · cases hflag rfl
  rcases List.mem_append.mp hopened with hopened | hopened
  · have hfirst := (List.pairwise_append.mp hfront).2.2 _ hopened (b, true) List.mem_cons_self
    rcases not_before.mp hfirst with hlo | ⟨heq, -⟩
    · exact Or.inr ⟨hlo, hlt⟩
    · exact Or.inl heq
  · obtain rfl : a = b := congrArg Prod.fst (List.mem_singleton.mp hopened)
    exact Or.inl rfl

/-- After the last lower end at a key every interval active there is open. -/
theorem open_of_active [IsStrictTotalOrder κ lt] {pre post : List (α × Bool)} {a b : α}
    (h : Sorted lt lo hi intervals (pre ++ (b, true) :: post))
    (hname : ∀ a ∈ intervals, ∀ b ∈ intervals, name a = name b → a = b)
    (hproper : ∀ a ∈ intervals, lt (lo a) (hi a)) (ha : a ∈ intervals)
    (hlast : ∀ e ∈ post, e.2 = true → lo e.1 ≠ lo b) (hactive : Active lt lo hi (lo b) a) :
    name a ∈ openAfter name (pre ++ [(b, true)]) := by
  have hsplit : pre ++ (b, true) :: post = (pre ++ [(b, true)]) ++ post := List.append_cons _ _ _
  have hsorted := h.pairwise
  rw [hsplit] at hsorted
  obtain ⟨hfront, -, hbehind⟩ := List.pairwise_append.mp hsorted
  have hmem (e : α × Bool) (he : e ∈ pre ++ [(b, true)]) : e.1 ∈ intervals := by
    refine (h.mem e.1 e.2).mp ?_
    rw [hsplit]
    exact List.mem_append_left _ he
  have hlt : lt (lo b) (hi a) := by
    rcases hactive with heq | ⟨-, hlt⟩
    · exact heq ▸ hproper a ha
    · exact hlt
  rw [mem_openAfter hfront fun e he => hname e.1 (hmem e he) a ha]
  constructor
  · have hin := (h.mem a true).mpr ha
    rw [hsplit] at hin
    refine (List.mem_append.mp hin).resolve_right fun hin => ?_
    have hnot := hbehind (b, true) (List.mem_append_right _ List.mem_cons_self) _ hin
    rcases hactive with heq | ⟨hlo, -⟩
    · exact hlast _ hin rfl heq
    · exact hnot (Or.inl hlo)
  · intro hclosed
    rcases List.mem_append.mp hclosed with hclosed | hclosed
    · have hnot := (List.pairwise_append.mp hfront).2.2 _ hclosed (b, true) List.mem_cons_self
      exact absurd (Or.inl hlt) hnot
    · cases List.mem_singleton.mp hclosed

/-- The last element with a property. -/
theorem exists_last {β : Type} {p : β → Prop} {l : List β} (h : ∃ b ∈ l, p b) :
    ∃ pre b post, l = pre ++ b :: post ∧ p b ∧ ∀ b' ∈ post, ¬p b' := by
  classical
  induction l with
  | nil =>
      obtain ⟨b, hb, -⟩ := h
      cases hb
  | cons a l ih =>
      by_cases hl : ∃ b ∈ l, p b
      · obtain ⟨pre, b, post, rfl, hb, hpost⟩ := ih hl
        exact ⟨a :: pre, b, post, rfl, hb, hpost⟩
      · obtain ⟨b, hb, hp⟩ := h
        rcases List.mem_cons.mp hb with rfl | hb
        · exact ⟨[], b, l, rfl, hp, fun b' hb' hp' => hl ⟨b', hb', hp'⟩⟩
        · exact absurd ⟨b, hb, hp⟩ hl

def namesOf (name : α → ι) (intervals : List α) (p : α → Bool) : List ι :=
  ((intervals.filter p).map name).dedup

theorem mem_namesOf {p : α → Bool} {x : ι} :
    x ∈ namesOf name intervals p ↔ ∃ a ∈ intervals, p a = true ∧ name a = x := by
  simp only [namesOf, List.mem_dedup, List.mem_map, List.mem_filter, and_assoc]

/-- A sweep over proper intervals marks those that are active at a lower key with too many others. -/
theorem mem_marks_iff [IsStrictTotalOrder κ lt] (h : Sorted lt lo hi intervals ends)
    (hname : ∀ a ∈ intervals, ∀ b ∈ intervals, name a = name b → a = b)
    (hproper : ∀ a ∈ intervals, lt (lo a) (hi a)) {active : κ → α → Bool}
    (hactive : ∀ x, ∀ a ∈ intervals, active x a = true ↔ Active lt lo hi x a) {limit : ℕ} {x : ι} :
    x ∈ (ends.foldl (sweep name limit) ([], [])).2 ↔ ∃ b ∈ intervals,
      limit < (namesOf name intervals (active (lo b))).length ∧
        x ∈ namesOf name intervals (active (lo b)) := by
  -- the open intervals after a lower end are among those active at its key
  have hsub {pre post : List (α × Bool)} {b : α} (heq : ends = pre ++ (b, true) :: post) :
      openAfter name (pre ++ [(b, true)]) ⊆ namesOf name intervals (active (lo b)) := by
    intro y hy
    obtain ⟨e, he, rfl⟩ := List.mem_map.mp (openAfter_subset _ hy)
    have ha : e.1 ∈ intervals := by
      refine (h.mem e.1 e.2).mp ?_
      rw [heq, List.append_cons]
      exact List.mem_append_left _ he
    exact mem_namesOf.mpr ⟨e.1, ha, (hactive _ _ ha).mpr
      (active_of_open (heq ▸ h) hname hproper ha hy), rfl⟩
  rw [mem_foldl_sweep]
  constructor
  · rintro (hx | ⟨pre, b, post, heq, hmany, hx⟩)
    · cases hx
    · have hb : b ∈ intervals := by
        refine (h.mem b true).mp ?_
        rw [heq]
        exact List.mem_append_right _ List.mem_cons_self
      have hlen := (List.subperm_of_subset (nodup_openAfter _) (hsub heq)).length_le
      exact ⟨b, hb, Nat.lt_of_lt_of_le hmany hlen, hsub heq hx⟩
  · rintro ⟨b, hb, hmany, hx⟩
    have hex : ∃ e ∈ ends, e.2 = true ∧ lo e.1 = lo b := ⟨(b, true), (h.mem b true).mpr hb, rfl, rfl⟩
    obtain ⟨pre, e, post, heq, ⟨hflag, hlo⟩, hlast⟩ := exists_last hex
    obtain ⟨c, flag⟩ := e
    change flag = true at hflag
    subst hflag
    rw [← hlo] at hmany hx hlast
    -- after the last lower end at the key all of them are open
    have hall : namesOf name intervals (active (lo c)) ⊆ openAfter name (pre ++ [(c, true)]) := by
      intro y hy
      obtain ⟨a, ha, hact, rfl⟩ := mem_namesOf.mp hy
      exact open_of_active (heq ▸ h) hname hproper ha (fun e he hup hkey => hlast e he ⟨hup, hkey⟩)
        ((hactive _ _ ha).mp hact)
    have hlen := (List.subperm_of_subset (List.nodup_dedup _) hall).length_le
    exact Or.inr ⟨pre, c, post, heq, Nat.lt_of_lt_of_le hmany hlen, hall hx⟩

end IntervalSweep
