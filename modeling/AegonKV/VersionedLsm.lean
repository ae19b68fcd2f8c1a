import AegonKV.BlobStorage
import Mathlib.Data.List.Find

/-!
# The LSM tree without write-back resolution

With no hardware driver `compaction_preprocess` stays off, and a lookup takes the newest version
whose sequence number is visible. Where a version lives does not matter then, so the tree is one
list of versions per key, newest first. Flushes and compactions rewrite tables: they separate
Values into a new blob file, copy the records of indices there or put the values in their place,
and drop versions that a newer one shadows.
-/

namespace AegonKV
open LittleEndian

inductive LsmEntry
  | deletion
  | value (v : Bytes)
  | blobIndex (p : BlobIndexType)
  deriving DecidableEq, Repr

/-- The record an entry references: file number and index. -/
def LsmEntry.ref? : LsmEntry → Option (UInt64 × UInt64)
  | .blobIndex p => some (p.fileNumber, p.index)
  | _ => none

theorem LsmEntry.ref?_eq_some {e : LsmEntry} {ref : UInt64 × UInt64} (h : e.ref? = some ref) :
    ∃ p, e = .blobIndex p ∧ p.fileNumber = ref.1 ∧ p.index = ref.2 := by
  unfold LsmEntry.ref? at h
  split at h
  · obtain rfl := Option.some.inj h
    exact ⟨_, rfl, rfl, rfl⟩
  · cases h

/-- The value behind an entry, read from its blob file if the entry is an index. -/
def LsmEntry.valueIn {κ : Type} (files : BlobFiles κ) : LsmEntry → Option Bytes
  | .deletion => none
  | .value v => some v
  | .blobIndex p => (files.read p).map (·.value)

/-- An index whose record can be read becomes the value, any other entry stays. -/
def LsmEntry.inlineValue {κ : Type} (files : BlobFiles κ) (e : LsmEntry) : LsmEntry :=
  match e with
  | .blobIndex p => (files.read p).elim e fun r => .value r.value
  | _ => e

/-- A value in the place of an index references nothing. -/
theorem LsmEntry.ref?_inlineValue {κ : Type} {files : BlobFiles κ} {e : LsmEntry}
    {ref : UInt64 × UInt64} (h : (e.inlineValue files).ref? = some ref) : e.ref? = some ref := by
  cases e with
  | blobIndex p =>
      unfold LsmEntry.inlineValue at h
      dsimp only at h
      cases hr : files.read p with
      | none => simpa [hr] using h
      | some r => simp [hr, LsmEntry.ref?] at h
  | _ => exact h

structure LsmVersion where
  sequence : ℕ
  entry : LsmEntry
  deriving DecidableEq, Repr

/-- The versions of every key, by decreasing sequence number. -/
structure Lsm (κ : Type) where
  versions : κ → List LsmVersion
  lastSequence : ℕ
  decreasing : ∀ k, (versions k).Pairwise fun a b => b.sequence < a.sequence
  bounded : ∀ k, ∀ v ∈ versions k, v.sequence ≤ lastSequence

namespace Lsm

variable {κ : Type}

def empty : Lsm κ := ⟨fun _ => [], 0, fun _ => .nil, by simp⟩

/-- `DBImpl::GetImpl` at a snapshot. -/
def view (lsm : Lsm κ) (n : ℕ) (k : κ) : Option LsmEntry :=
  ((lsm.versions k).find? fun v => v.sequence ≤ n).map (·.entry)

def latest (lsm : Lsm κ) (k : κ) : Option LsmEntry :=
  lsm.view lsm.lastSequence k

/-- What some version of the key says. -/
def Holds (lsm : Lsm κ) (k : κ) (e : LsmEntry) : Prop :=
  ∃ v ∈ lsm.versions k, v.entry = e

/-- Some version of some key references the record. -/
def Referenced (lsm : Lsm κ) (ref : UInt64 × UInt64) : Prop :=
  ∃ k, ∃ v ∈ lsm.versions k, v.entry.ref? = some ref

theorem holds_of_view {lsm : Lsm κ} {n : ℕ} {k : κ} {e : LsmEntry} (h : lsm.view n k = some e) :
    lsm.Holds k e := by
  obtain ⟨v, hv, rfl⟩ := Option.map_eq_some_iff.mp h
  exact ⟨v, List.mem_of_find?_eq_some hv, rfl⟩

theorem view_eq_latest {lsm : Lsm κ} {n : ℕ} (hn : lsm.lastSequence ≤ n) (k : κ) :
    lsm.view n k = lsm.latest k := by
  simp only [latest, view]
  congr 1
  apply List.find?_congr
  intro v hv
  have := lsm.bounded k v hv
  simp only [decide_eq_decide]
  omega

/-- Sequence numbers tell the versions of a key apart. -/
theorem find?_sequence {lsm : Lsm κ} {k : κ} {v : LsmVersion} (hv : v ∈ lsm.versions k) :
    ((lsm.versions k).find? fun u => u.sequence = v.sequence) = some v := by
  have hdec := lsm.decreasing k
  generalize lsm.versions k = vs at hv hdec ⊢
  induction vs with
  | nil => cases hv
  | cons u vs ih =>
      obtain ⟨hu, hdec⟩ := List.pairwise_cons.mp hdec
      rcases List.mem_cons.mp hv with rfl | hv
      · simp
      · have hne : u.sequence ≠ v.sequence := by
          have := hu v hv
          omega
        simpa [hne] using ih hv hdec

section Write

variable [DecidableEq κ]

/-- One write of one key at the next sequence number. -/
def write (lsm : Lsm κ) (k : κ) (e : LsmEntry) : Lsm κ where
  versions := Function.update lsm.versions k (⟨lsm.lastSequence + 1, e⟩ :: lsm.versions k)
  lastSequence := lsm.lastSequence + 1
  decreasing k' := by
    by_cases hk : k' = k
    · subst hk
      rw [Function.update_self, List.pairwise_cons]
      exact ⟨fun v hv => Nat.lt_succ_of_le (lsm.bounded k' v hv), lsm.decreasing k'⟩
    · rw [Function.update_of_ne hk]
      exact lsm.decreasing k'
  bounded k' v hv := by
    by_cases hk : k' = k
    · subst hk
      rw [Function.update_self] at hv
      rcases List.mem_cons.mp hv with rfl | hv
      · exact le_rfl
      · exact Nat.le_succ_of_le (lsm.bounded k' v hv)
    · rw [Function.update_of_ne hk] at hv
      exact Nat.le_succ_of_le (lsm.bounded k' v hv)

theorem versions_write_self (lsm : Lsm κ) (k : κ) (e : LsmEntry) :
    (lsm.write k e).versions k = ⟨lsm.lastSequence + 1, e⟩ :: lsm.versions k :=
  Function.update_self _ _ _

theorem versions_write_other (lsm : Lsm κ) {k k' : κ} (hk : k' ≠ k) (e : LsmEntry) :
    (lsm.write k e).versions k' = lsm.versions k' :=
  Function.update_of_ne hk _ _

theorem mem_versions_write {lsm : Lsm κ} {k k' : κ} {e : LsmEntry} {v : LsmVersion}
    (h : v ∈ (lsm.write k e).versions k') :
    (k' = k ∧ v = ⟨lsm.lastSequence + 1, e⟩) ∨ v ∈ lsm.versions k' := by
  by_cases hk : k' = k
  · subst hk
    rw [versions_write_self] at h
    exact (List.mem_cons.mp h).imp (fun hv => ⟨rfl, hv⟩) id
  · rw [versions_write_other _ hk] at h
    exact Or.inr h

theorem view_write_of_le (lsm : Lsm κ) {n : ℕ} (hn : n ≤ lsm.lastSequence) (k k' : κ)
    (e : LsmEntry) : (lsm.write k e).view n k' = lsm.view n k' := by
  by_cases hk : k' = k
  · subst hk
    have hlt : ¬lsm.lastSequence + 1 ≤ n := by omega
    simp [view, versions_write_self, hlt]
  · simp only [view, versions_write_other _ hk]

theorem view_write_other (lsm : Lsm κ) (n : ℕ) {k k' : κ} (hk : k' ≠ k) (e : LsmEntry) :
    (lsm.write k e).view n k' = lsm.view n k' := by
  simp only [view, versions_write_other _ hk]

theorem view_write_self (lsm : Lsm κ) {n : ℕ} (hn : lsm.lastSequence < n) (k : κ)
    (e : LsmEntry) : (lsm.write k e).view n k = some e := by
  have hle : lsm.lastSequence + 1 ≤ n := hn
  simp [view, versions_write_self, hle]

theorem latest_write_self (lsm : Lsm κ) (k : κ) (e : LsmEntry) :
    (lsm.write k e).latest k = some e :=
  lsm.view_write_self (Nat.lt_succ_self _) k e

theorem latest_write_other (lsm : Lsm κ) {k k' : κ} (hk : k' ≠ k) (e : LsmEntry) :
    (lsm.write k e).latest k' = lsm.latest k' := by
  rw [latest, view_write_other lsm _ hk e]
  exact view_eq_latest (Nat.le_succ _) k'

end Write

/-! ## Flushes and compactions -/

section RewriteTables

variable [DecidableEq κ]

/-- `TitanTableBuilder::Add` for one version. A version with a record in the new blob file becomes
its index; in fallback mode an index becomes the value it leads to. -/
def tableAdd (files : BlobFiles κ) (f : UInt64) (records : List (ℕ × BlobRec κ))
    (inlined : List (κ × ℕ)) (k : κ) (v : LsmVersion) : LsmVersion :=
  match records.find? fun x => x.2.key = k ∧ x.1 = v.sequence with
  | some x => ⟨v.sequence, .blobIndex (pointerTo f x.2)⟩
  | none => if (k, v.sequence) ∈ inlined then ⟨v.sequence, v.entry.inlineValue files⟩ else v

/-- The records hold the Values of the versions they are separated from. -/
def Separates (lsm : Lsm κ) (records : List (ℕ × BlobRec κ)) : Prop :=
  ∀ x ∈ records, ∀ v ∈ lsm.versions x.2.key, v.sequence = x.1 → v.entry = .value x.2.value

/-- The records hold the values behind their versions: a level merge copies those of indices. -/
def Copies (lsm : Lsm κ) (files : BlobFiles κ) (records : List (ℕ × BlobRec κ)) : Prop :=
  ∀ x ∈ records, ∀ v ∈ lsm.versions x.2.key, v.sequence = x.1 →
    v.entry.valueIn files = some x.2.value

/-- Every dropped version lies under a newer one that is kept and visible at `n` whenever the
dropped one is. -/
def ShadowedAt (lsm : Lsm κ) (dropped : List (κ × ℕ)) (n : ℕ) : Prop :=
  ∀ d ∈ dropped, ∃ v ∈ lsm.versions d.1, (d.1, v.sequence) ∉ dropped ∧ d.2 < v.sequence ∧
    (d.2 ≤ n → v.sequence ≤ n)

instance (lsm : Lsm κ) (records : List (ℕ × BlobRec κ)) : Decidable (lsm.Separates records) :=
  inferInstanceAs (Decidable (∀ x ∈ records, _))

instance (lsm : Lsm κ) (files : BlobFiles κ) (records : List (ℕ × BlobRec κ)) :
    Decidable (lsm.Copies files records) :=
  inferInstanceAs (Decidable (∀ x ∈ records, _))

instance (lsm : Lsm κ) (dropped : List (κ × ℕ)) (n : ℕ) : Decidable (lsm.ShadowedAt dropped n) :=
  inferInstanceAs (Decidable (∀ d ∈ dropped, _))

omit [DecidableEq κ] in
theorem Separates.copies {lsm : Lsm κ} {records : List (ℕ × BlobRec κ)}
    (h : lsm.Separates records) (files : BlobFiles κ) : lsm.Copies files records := by
  intro x hx v hv hseq
  rw [h x hx v hv hseq]
  rfl

omit [DecidableEq κ] in
theorem ShadowedAt.of_le {lsm : Lsm κ} {dropped : List (κ × ℕ)} {upto n : ℕ}
    (h : lsm.ShadowedAt dropped upto) (hle : ∀ d ∈ dropped, d.2 ≤ upto) (hn : upto ≤ n) :
    lsm.ShadowedAt dropped n := by
  intro d hd
  obtain ⟨v, hv, hkeep, hlt, hvis⟩ := h d hd
  exact ⟨v, hv, hkeep, hlt, fun _ => (hvis (hle d hd)).trans hn⟩

theorem sequence_tableAdd (files : BlobFiles κ) (f : UInt64) (records : List (ℕ × BlobRec κ))
    (inlined : List (κ × ℕ)) (k : κ) (v : LsmVersion) :
    (tableAdd files f records inlined k v).sequence = v.sequence := by
  unfold tableAdd
  split
  · rfl
  · split_ifs <;> rfl

def rewriteTables (lsm : Lsm κ) (files : BlobFiles κ) (f : UInt64) (records : List (ℕ × BlobRec κ))
    (inlined dropped : List (κ × ℕ)) : Lsm κ where
  versions k := ((lsm.versions k).filter fun v => (k, v.sequence) ∉ dropped).map
    (tableAdd files f records inlined k)
  lastSequence := lsm.lastSequence
  decreasing k := by
    rw [List.pairwise_map]
    simp only [sequence_tableAdd]
    exact (lsm.decreasing k).filter _
  bounded k v hv := by
    obtain ⟨u, hu, rfl⟩ := List.mem_map.mp hv
    rw [sequence_tableAdd]
    exact lsm.bounded k u (List.mem_filter.mp hu).1

/-- How an entry survives a rewrite: as it is, as the index of a record with its value, or as the
value that its index leads to. -/
inductive Added (files : BlobFiles κ) (f : UInt64) (records : List (ℕ × BlobRec κ)) (k : κ)
    (e : LsmEntry) : LsmEntry → Prop
  | same : Added files f records k e e
  | copied (x : ℕ × BlobRec κ) (hx : x ∈ records) (hkey : x.2.key = k)
      (hvalue : e.valueIn files = some x.2.value) :
      Added files f records k e (.blobIndex (pointerTo f x.2))
  | inlined (p : BlobIndexType) (r : BlobRec κ) (he : e = .blobIndex p)
      (hr : files.read p = some r) : Added files f records k e (.value r.value)

theorem added_tableAdd {lsm : Lsm κ} {files : BlobFiles κ} (f : UInt64)
    {records : List (ℕ × BlobRec κ)} (inlined : List (κ × ℕ)) (hc : lsm.Copies files records)
    {k : κ} {v : LsmVersion} (hv : v ∈ lsm.versions k) :
    Added files f records k v.entry (tableAdd files f records inlined k v).entry := by
  unfold tableAdd
  split
  · rename_i x hx
    have hmem := List.mem_of_find?_eq_some hx
    obtain ⟨rfl, hseq⟩ : x.2.key = k ∧ x.1 = v.sequence := by simpa using List.find?_some hx
    exact .copied x hmem rfl (hc x hmem v hv hseq.symm)
  split_ifs
  · obtain ⟨q, e⟩ := v
    cases e with
    | deletion => exact .same
    | value b => exact .same
    | blobIndex p =>
        cases hr : files.read p with
        | none =>
            simp only [LsmEntry.inlineValue, hr, Option.elim_none]
            exact .same
        | some r =>
            simp only [LsmEntry.inlineValue, hr, Option.elim_some]
            exact .inlined p r rfl hr
  · exact .same

theorem mem_versions_rewriteTables {lsm : Lsm κ} {files : BlobFiles κ} {f : UInt64}
    {records : List (ℕ × BlobRec κ)} {inlined dropped : List (κ × ℕ)} {k : κ} {v : LsmVersion}
    (h : v ∈ (lsm.rewriteTables files f records inlined dropped).versions k) :
    ∃ u ∈ lsm.versions k, (k, u.sequence) ∉ dropped ∧ v = tableAdd files f records inlined k u := by
  obtain ⟨u, hu, rfl⟩ := List.mem_map.mp h
  obtain ⟨hmem, hkeep⟩ := List.mem_filter.mp hu
  exact ⟨u, hmem, by simpa using hkeep, rfl⟩

/-- The newest visible version is never dropped. -/
theorem find?_filter_of_shadowedAt {lsm : Lsm κ} {dropped : List (κ × ℕ)} {n : ℕ}
    (h : lsm.ShadowedAt dropped n) (k : κ) :
    ((lsm.versions k).filter fun v => (k, v.sequence) ∉ dropped).find? (fun v => v.sequence ≤ n) =
      (lsm.versions k).find? fun v => v.sequence ≤ n := by
  cases hfind : (lsm.versions k).find? fun v => v.sequence ≤ n with
  | none =>
      rw [List.find?_eq_none] at hfind ⊢
      exact fun v hv => hfind v (List.mem_filter.mp hv).1
  | some u =>
      obtain ⟨hle, newer, older, hsplit, hnewer⟩ := List.find?_eq_some_iff_append.mp hfind
      have hle : u.sequence ≤ n := by simpa using hle
      have hkeep : (k, u.sequence) ∉ dropped := by
        intro hdrop
        obtain ⟨v, hv, -, hlt, hvis⟩ := h _ hdrop
        have hdec := lsm.decreasing k
        rw [hsplit] at hv hdec
        rcases List.mem_append.mp hv with hv | hv
        · have := hnewer v hv
          have := hvis hle
          simp_all
        · rcases List.mem_cons.mp hv with rfl | hv
          · exact lt_irrefl _ hlt
          · have := (List.pairwise_cons.mp (List.pairwise_append.mp hdec).2.1).1 v hv
            exact lt_asymm hlt this
      rw [hsplit, List.filter_append, List.filter_cons_of_pos (by simpa using hkeep),
        List.find?_append, List.find?_cons_of_pos (by simpa using hle)]
      have hnone : (newer.filter fun v => (k, v.sequence) ∉ dropped).find?
          (fun v => v.sequence ≤ n) = none := by
        rw [List.find?_eq_none]
        intro v hv
        simpa using hnewer v (List.mem_filter.mp hv).1
      rw [hnone, Option.none_or]

/-- A rewrite that keeps the versions of a snapshot rewrites the entry it sees. -/
theorem view_rewriteTables_eq {lsm : Lsm κ} {files : BlobFiles κ} {f : UInt64}
    {records : List (ℕ × BlobRec κ)} {inlined dropped : List (κ × ℕ)} {n : ℕ}
    (hd : lsm.ShadowedAt dropped n) (k : κ) :
    (lsm.rewriteTables files f records inlined dropped).view n k =
      ((lsm.versions k).find? fun v => v.sequence ≤ n).map
        fun v => (tableAdd files f records inlined k v).entry := by
  have hcomp : (fun v : LsmVersion => decide (v.sequence ≤ n)) ∘
      tableAdd files f records inlined k = fun v => decide (v.sequence ≤ n) := by
    funext v
    simp [sequence_tableAdd]
  simp only [view, rewriteTables, List.find?_map, hcomp, find?_filter_of_shadowedAt hd,
    Option.map_map]
  rfl

/-- What a snapshot sees after a rewrite that keeps its versions. -/
theorem view_rewriteTables {lsm : Lsm κ} {files : BlobFiles κ} (f : UInt64)
    {records : List (ℕ × BlobRec κ)} (inlined : List (κ × ℕ)) {dropped : List (κ × ℕ)} {n : ℕ}
    (hc : lsm.Copies files records) (hd : lsm.ShadowedAt dropped n) (k : κ) :
    (lsm.view n k = none ∧
      (lsm.rewriteTables files f records inlined dropped).view n k = none) ∨
      ∃ e e', lsm.view n k = some e ∧
        (lsm.rewriteTables files f records inlined dropped).view n k = some e' ∧
        Added files f records k e e' := by
  rw [view_rewriteTables_eq hd]
  cases hfind : (lsm.versions k).find? fun v => v.sequence ≤ n with
  | none => exact Or.inl ⟨by simp [view, hfind], rfl⟩
  | some v =>
      refine Or.inr ⟨v.entry, _, by simp [view, hfind], rfl, ?_⟩
      exact added_tableAdd f inlined hc (List.mem_of_find?_eq_some hfind)

/-- Separating Values leaves an index that a snapshot sees where it is. -/
theorem view_blobIndex_of_separates {lsm : Lsm κ} {files : BlobFiles κ} {f : UInt64}
    {records : List (ℕ × BlobRec κ)} {dropped : List (κ × ℕ)} {n : ℕ}
    (hs : lsm.Separates records) (hd : lsm.ShadowedAt dropped n) {k : κ} {p : BlobIndexType}
    (hp : lsm.view n k = some (.blobIndex p)) :
    (lsm.rewriteTables files f records [] dropped).view n k = some (.blobIndex p) := by
  obtain ⟨v, hfind, hentry⟩ := Option.map_eq_some_iff.mp hp
  rw [view_rewriteTables_eq hd, hfind, Option.map_some]
  unfold tableAdd
  split
  · rename_i x hx
    have hmem := List.mem_of_find?_eq_some hx
    obtain ⟨rfl, hseq⟩ : x.2.key = k ∧ x.1 = v.sequence := by simpa using List.find?_some hx
    have hvalue := hs x hmem v (List.mem_of_find?_eq_some hfind) hseq.symm
    rw [hentry] at hvalue
    cases hvalue
  · rw [if_neg List.not_mem_nil, hentry]

end RewriteTables
end Lsm
end AegonKV
