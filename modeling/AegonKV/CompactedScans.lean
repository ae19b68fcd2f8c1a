import AegonKV.DBIterRuns
import Mathlib.Data.List.Perm.Basic

/-!
# Scans across a flush or a compaction

The inner iterator merges the memtables and the levels by key. An iterator at a live snapshot shows
the same before and after a compaction of some of them, whatever calls are made.
-/

namespace AegonKV.DBIter
open LittleEndian ListCursors State TransitionSystem
open CompactionIterator (Env Context Visits Inv Before visited versions look look_visible look_cons
  look_upper look_visited visits_of_visitFrom)

variable {κ : Type} [LinearOrder κ] {o : Options κ} {entries entries' levels : List (Kv κ)}

/-! ## Merged levels -/

/-- Newer versions of a key come before older ones, as newer levels come before older ones. -/
def NewestFirst (levels : List (Kv κ)) : Prop :=
  levels.Pairwise fun a b => a.userKey = b.userKey → b.sequence < a.sequence

structure Merges (entries levels : List (Kv κ)) : Prop where
  perm : entries.Perm levels
  sorted : entries.Pairwise Before

omit [LinearOrder κ] in
theorem NewestFirst.versions [DecidableEq κ] (h : NewestFirst levels) (k : κ) :
    (versions k levels).Pairwise fun a b => b.sequence < a.sequence := by
  refine (List.Pairwise.sublist List.filter_sublist h).imp_of_mem fun {a b} ha hb hab => hab ?_
  exact (of_decide_eq_true (List.mem_filter.mp ha).2).trans (of_decide_eq_true (List.mem_filter.mp hb).2).symm

theorem newestFirst_of_sorted (h : entries.Pairwise Before) : NewestFirst entries :=
  h.imp fun hab hkey => hab.elim (fun hlt => absurd hkey hlt.ne) fun hab => hab.2

omit [LinearOrder κ] in
/-- A read depends on the versions of the key only. -/
theorem look_versions [DecidableEq κ] (s : ℕ) (k : κ) (l : List (Kv κ)) :
    look s k (versions k l) = look s k l := by
  induction l with
  | nil => rfl
  | cons kv l ih =>
      by_cases hkey : kv.userKey = k
      · have hcons : versions k (kv :: l) = kv :: versions k l :=
          List.filter_cons_of_pos (decide_eq_true hkey)
        rw [hcons]
        by_cases hvisible : kv.sequence ≤ s
        · rw [look_visible hkey hvisible, look_visible hkey hvisible]
        · rw [look_cons fun _ => hvisible, look_cons fun _ => hvisible, ih]
      · have hcons : versions k (kv :: l) = versions k l :=
          List.filter_cons_of_neg (Bool.not_eq_true _ ▸ decide_eq_false hkey)
        rw [hcons, ih, look_cons fun hc => absurd hc hkey]

/-- What a reader of the levels sees, newer ones first, is what the merged versions show. -/
theorem Merges.look_eq (h : Merges entries levels) (hlevels : NewestFirst levels) (s : ℕ) (k : κ) :
    look s k entries = look s k levels := by
  have hperm : (versions k entries).Perm (versions k levels) := h.perm.filter _
  have hversions : versions k entries = versions k levels :=
    hperm.eq_of_pairwise (fun a b _ _ hab hba => absurd hab hba.asymm)
      ((newestFirst_of_sorted h.sorted).versions k) (hlevels.versions k)
  rw [← look_versions s k entries, hversions, look_versions]

/-! ## Across a compaction -/

section

variable {env : Env κ} {upper input low out : List (Kv κ)} (hctx : Context env low input)
  (hvisits : Visits env true { input := input } out)
include hctx hvisits

theorem newestFirst_visited (hordered : env.Ordered) (h : NewestFirst (upper ++ (input ++ low))) :
    NewestFirst (upper ++ (out ++ low)) := by
  rw [NewestFirst, List.pairwise_append, List.pairwise_append] at h ⊢
  obtain ⟨hupper, ⟨-, hlow, hbetween⟩, habove⟩ := h
  have hsorted := hvisits.sorted hordered hctx (Inv.noKey rfl rfl)
  refine ⟨hupper, ⟨newestFirst_of_sorted hsorted, hlow, fun v hv u hu hkey => ?_⟩,
    fun a ha b hb hkey => ?_⟩
  · obtain ⟨kv, hkv, hvkey, -, hsequence⟩ := hvisits.origin v hv
    rcases hsequence with hsame | ⟨hbottom, -⟩
    · exact hsame ▸ hbetween kv hkv u hu (hvkey.symm.trans hkey)
    · -- a sequence number is zeroed where no older version is left
      have hgone := hctx.gone kv hkv (hctx.bottommost hbottom kv hkv) u hu
      exact absurd (hkey.symm.trans hvkey) hgone
  · rcases List.mem_append.mp hb with hb | hb
    · obtain ⟨kv, hkv, hbkey, hle⟩ := hvisits.source b hb
      exact hle.trans_lt (habove a ha kv (List.mem_append_left _ hkv) (hkey.trans hbkey))
    · exact habove a ha b (List.mem_append_right _ hb) hkey

omit hctx in
theorem ordered_visited (hentries : Ordered entries) (hold : Merges entries (upper ++ (input ++ low)))
    (hnew : Merges entries' (upper ++ (out ++ low))) : Ordered entries' := by
  have hsource : ∀ kv ∈ entries', ∃ u ∈ entries, kv.sequence ≤ u.sequence ∧
      (kv.type = .kTypeMerge → u.type = .kTypeMerge) := by
    intro kv hkv
    have hmem := hnew.perm.mem_iff.mp hkv
    rw [List.mem_append, List.mem_append] at hmem
    have hin : ∀ u, u ∈ upper ∨ u ∈ input ∨ u ∈ low → u ∈ entries := by
      intro u hu
      rw [hold.perm.mem_iff, List.mem_append, List.mem_append]
      exact hu
    rcases hmem with hmem | hmem | hmem
    · exact ⟨kv, hin kv (Or.inl hmem), le_rfl, id⟩
    · obtain ⟨u, hu, -, hmerge, hsequence⟩ := hvisits.origin kv hmem
      refine ⟨u, hin u (Or.inr (Or.inl hu)), ?_, hmerge⟩
      rcases hsequence with hsame | ⟨-, hzero⟩
      · exact hsame.le
      · exact hzero.le.trans (Nat.zero_le _)
    · exact ⟨kv, hin kv (Or.inr (Or.inr hmem)), le_rfl, id⟩
  refine ⟨hnew.sorted, fun kv hkv => ?_, fun kv hkv htype => ?_⟩
  · obtain ⟨u, hu, hle, -⟩ := hsource kv hkv
    exact hle.trans_lt (hentries.bounded u hu)
  · obtain ⟨u, hu, -, hmerge⟩ := hsource kv hkv
    exact hentries.noMerge u hu (hmerge htype)

end

/-- The same calls on an iterator at a live snapshot, or one that sees every version that was compacted
and all older ones, show the same before and after a flush or a compaction. -/
theorem run_compacted {env : Env κ} {upper input low out : List (Kv κ)} (hordered : env.Ordered)
    (hctx : Context env low input) (hvisited : visited env input = .ok out)
    (hlevels : NewestFirst (upper ++ (input ++ low))) (hentries : Ordered entries)
    (hold : Merges entries (upper ++ (input ++ low))) (hnew : Merges entries' (upper ++ (out ++ low)))
    (hs : o.sequence ∈ env.snapshots ∨ ∀ kv ∈ input ++ low, kv.sequence ≤ o.sequence)
    {savedKey savedKey' : κ} {ops : List (OrderedScan.Op κ)} {st : State κ}
    (hr : run (State.step o) (State.init entries savedKey) ops = some st) :
    ∃ st', run (State.step o) (State.init entries' savedKey') ops = some st' ∧ Agree st st' := by
  have hvisits : Visits env true { input := input } out := visits_of_visitFrom le_rfl hvisited
  have hlow : ∀ kv ∈ low, kv.sequence ≤ CompactionIterator.kMaxSequenceNumber := by
    intro kv hkv
    refine (hentries.bounded kv (hold.perm.mem_iff.mpr ?_)).le
    exact List.mem_append_right _ (List.mem_append_right _ hkv)
  have hnewest := newestFirst_visited hctx hvisits hordered hlevels
  refine run_agree hentries (ordered_visited hvisits hentries hold hnew) ⟨rfl, rfl, fun k => ?_⟩ hr
  calc look o.sequence k entries'
      = look o.sequence k (upper ++ (out ++ low)) := hnew.look_eq hnewest _ k
    _ = look o.sequence k (upper ++ (input ++ low)) :=
        look_upper (look_visited hordered hctx hlow hvisited k hs)
    _ = look o.sequence k entries := (hold.look_eq hlevels _ k).symm

section

open CompactionIterator (threeKeys bottommost bottommost_ordered threeKeys_context visited_threeKeys)

def newerKey : Kv ℕ := ⟨0, 12, .kTypeValue, [6]⟩

def atSnapshot : Options ℕ where
  sequence := 5
  maxSkip := 8

theorem threeKeys_merged : Merges (newerKey :: threeKeys) ([newerKey] ++ (threeKeys ++ [])) where
  perm := .refl _
  sorted := by
    change (newerKey :: threeKeys).Pairwise fun a b =>
      a.userKey < b.userKey ∨ a.userKey = b.userKey ∧ b.sequence < a.sequence
    decide +kernel

theorem run_compacted_threeKeys : ∃ st', run (State.step atSnapshot)
      (State.init [newerKey, ⟨1, 9, .kTypeBlobIndex, [1]⟩, ⟨1, 0, .kTypeValue, [2]⟩] 0) [.seekToLast] = some st' ∧
    st'.valid = true ∧ st'.key = 1 ∧ st'.value = [2] := by
  have hr : ∃ st, run (State.step atSnapshot) (State.init (newerKey :: threeKeys) 0) [.seekToLast] = some st ∧
      st.valid = true ∧ st.key = 1 ∧ st.value = [2] := ⟨_, rfl, rfl, rfl, rfl⟩
  have hnew : Merges [newerKey, ⟨1, 9, .kTypeBlobIndex, [1]⟩, ⟨1, 0, .kTypeValue, [2]⟩]
      ([newerKey] ++ ([⟨1, 9, .kTypeBlobIndex, [1]⟩, ⟨1, 0, .kTypeValue, [2]⟩] ++ [])) := by
    refine ⟨.refl _, ?_⟩
    change List.Pairwise (fun a b : Kv ℕ =>
      a.userKey < b.userKey ∨ a.userKey = b.userKey ∧ b.sequence < a.sequence) _
    decide +kernel
  have hentries : Ordered (newerKey :: threeKeys) :=
    ⟨threeKeys_merged.sorted, by decide +kernel, by decide +kernel⟩
  obtain ⟨st, hr, hvalid, hkey, hvalue⟩ := hr
  obtain ⟨st', hr', hagree⟩ := run_compacted bottommost_ordered threeKeys_context visited_threeKeys
    (newestFirst_of_sorted threeKeys_merged.sorted) hentries threeKeys_merged hnew
    (Or.inl List.mem_cons_self) hr
  exact ⟨st', hr', hagree.valid.symm.trans hvalid, (hagree.key hvalid).symm.trans hkey,
    (hagree.entry hvalid).2.symm.trans hvalue⟩

end

end AegonKV.DBIter
