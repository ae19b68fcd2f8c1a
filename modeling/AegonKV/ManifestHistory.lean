import AegonKV.ManifestReplay
import Mathlib.Data.List.Forall2

/-!
# Histories of a blob file set

A history starts with the snapshot that `OpenManifest` writes and goes on with `LogAndApply` calls,
purges and new column families. The invariants relate the storages in memory to the log that the
manifest holds: what is live in memory is added by the log and not deleted by it.
-/

namespace AegonKV
open LittleEndian TransitionSystem

namespace BlobFileSet

def rangeEdit (cf : UInt32) (st : BlobStorage) (ranges : List (Option Key × Option Key))
    (includeEnd : Bool) (obsoleteSequence : ℕ) : VersionEdit BlobFileMeta :=
  ⟨cf, none, [], (st.getBlobFilesInRanges ranges includeEnd).map fun f => (f, obsoleteSequence)⟩

/-- No record names the column family. The base DB never reuses an id. -/
def unusedColumn (s : BlobFileSet) (cf : UInt32) : Bool :=
  s.manifest.all fun record =>
    match VersionEdit.decodeFrom record with
    | .error _ => true
    | .ok edit => edit.columnFamilyId != cf

/-- The set whose manifest is the snapshot just written. -/
def afterSnapshot (s : BlobFileSet) : BlobFileSet := { s with manifest := s.writeSnapshot }

end BlobFileSet

structure History where
  set : BlobFileSet
  /-- All numbers `NewFileNumber` has returned. -/
  handedOut : List UInt64
  /-- Those returned before the last record of the manifest was written. -/
  covered : List UInt64

namespace History

/-- A change of the set; numbers are covered when a record is written. -/
def after (h : History) (set : BlobFileSet) : History :=
  { h with
    set := set
    covered := if set.manifest.length = h.set.manifest.length then h.covered else h.handedOut }

inductive Action
  | newFileNumber
  | logAndApply (edit : VersionEdit BlobFileMeta) (io : ManifestIO)
  | dropColumnFamilies (cfs : List (UInt32 × ManifestIO)) (obsoleteSequence : ℕ)
  | deleteBlobFilesInRanges (cf : UInt32) (ranges : List (Option Key × Option Key))
      (includeEnd : Bool) (obsoleteSequence : ℕ) (io : ManifestIO)
  | getObsoleteFiles (oldestSequence : ℕ)
  | maybeDestroyColumnFamily (cf : UInt32)
  | addColumnFamilies (cf : UInt32) (options : TitanCFOptions)

/-- The 64-bit counter of file numbers is never exhausted. -/
def step (h : History) : Action → Option History
  | .newFileNumber =>
    if h.set.nextFileNumber.toNat + 1 < 2 ^ 64 then
      some { h with
        set := { h.set with nextFileNumber := h.set.nextFileNumber + 1 }
        handedOut := h.set.nextFileNumber :: h.handedOut }
    else none
  | .logAndApply edit io => some (h.after (h.set.logAndApply edit io).2)
  | .dropColumnFamilies cfs seq => some (h.after (h.set.dropColumnFamilies seq cfs).2)
  | .deleteBlobFilesInRanges cf ranges includeEnd seq io =>
    some (h.after (h.set.deleteBlobFilesInRanges cf ranges includeEnd seq io).2)
  | .getObsoleteFiles oldest => some (h.after (h.set.getObsoleteFiles oldest).2)
  | .maybeDestroyColumnFamily cf => some (h.after (h.set.maybeDestroyColumnFamily cf).2)
  | .addColumnFamilies cf options =>
    if h.set.unusedColumn cf then some (h.after (h.set.addColumnFamilies [(cf, options)])) else none

/-- The calls of `LogAndApply` in a loop of `DropColumnFamilies` meet a condition. -/
def DropMeets (condition : BlobFileSet → VersionEdit BlobFileMeta → ManifestIO → Prop) (seq : ℕ) :
    BlobFileSet → List (UInt32 × ManifestIO) → Prop
  | _, [] => True
  | s, (cf, io) :: cfs => ∀ st, s.columnFamilies.lookup cf = some st →
    condition s (BlobFileSet.dropEdit cf st seq) io ∧
      ((s.logAndApply (BlobFileSet.dropEdit cf st seq) io).1.isOk = true →
        DropMeets condition seq
          { (s.logAndApply (BlobFileSet.dropEdit cf st seq) io).2 with
            obsoleteColumns :=
              cf :: (s.logAndApply (BlobFileSet.dropEdit cf st seq) io).2.obsoleteColumns } cfs)

/-- Every call of `LogAndApply` that an action makes meets a condition. -/
def CallsMeet (condition : BlobFileSet → VersionEdit BlobFileMeta → ManifestIO → Prop) (h : History) :
    Action → Prop
  | .logAndApply edit io => condition h.set edit io
  | .dropColumnFamilies cfs seq => DropMeets condition seq h.set cfs
  | .deleteBlobFilesInRanges cf ranges includeEnd seq io =>
    ∀ st, h.set.columnFamilies.lookup cf = some st →
      condition h.set (BlobFileSet.rangeEdit cf st ranges includeEnd seq) io
  | _ => True

end History

/-! ## What the log says about a file -/

section

variable {cf : UInt32} {log : List (VersionEdit BlobFileMeta)} {edit : VersionEdit BlobFileMeta}
  {f : UInt64} {s : BlobFileSet}

/-- The numbers that a record adds to the column family, and those it deletes there. -/
def recordAdds (cf : UInt32) (record : Bytes) : List UInt64 :=
  match VersionEdit.decodeFrom record with
  | .error _ => []
  | .ok edit => if edit.columnFamilyId = cf then edit.addedFiles.map (·.1) else []

def recordDeletes (cf : UInt32) (record : Bytes) : List UInt64 :=
  match VersionEdit.decodeFrom record with
  | .error _ => []
  | .ok edit => if edit.columnFamilyId = cf then edit.deletedFiles.map (·.1) else []

def BlobFileSet.AddedIn (s : BlobFileSet) (cf : UInt32) (f : UInt64) : Prop :=
  ∃ record ∈ s.manifest, f ∈ recordAdds cf record

def BlobFileSet.DeletedIn (s : BlobFileSet) (cf : UInt32) (f : UInt64) : Prop :=
  ∃ record ∈ s.manifest, f ∈ recordDeletes cf record

instance (s : BlobFileSet) (cf : UInt32) (f : UInt64) : Decidable (s.AddedIn cf f) :=
  inferInstanceAs (Decidable (∃ record ∈ s.manifest, f ∈ recordAdds cf record))

instance (s : BlobFileSet) (cf : UInt32) (f : UInt64) : Decidable (s.DeletedIn cf f) :=
  inferInstanceAs (Decidable (∃ record ∈ s.manifest, f ∈ recordDeletes cf record))

theorem Decodes.exists_record {records : List Bytes} (h : Decodes records log) (he : edit ∈ log) :
    ∃ record ∈ records, VersionEdit.decodeFrom record = .ok edit := by
  induction h with
  | nil => cases he
  | @cons record e records log hdec hrest ih =>
      rcases List.mem_cons.mp he with rfl | he
      · exact ⟨record, List.mem_cons_self, hdec⟩
      · obtain ⟨r, hr, hd⟩ := ih he
        exact ⟨r, List.mem_cons_of_mem _ hr, hd⟩

/-- What an edit of the column says is said by a record of the manifest. -/
theorem Decodes.exists_of_ofColumn {records : List Bytes} (h : Decodes records log) {α : Type}
    {part : VersionEdit BlobFileMeta → List α} {x : α} (hx : x ∈ (ofColumn cf log).flatMap part) :
    ∃ record ∈ records, ∃ e, VersionEdit.decodeFrom record = .ok e ∧ e.columnFamilyId = cf ∧
      x ∈ part e := by
  obtain ⟨e, he, hmem⟩ := List.mem_flatMap.mp hx
  obtain ⟨he, hcf⟩ := List.mem_filter.mp he
  obtain ⟨record, hr, hd⟩ := h.exists_record he
  exact ⟨record, hr, e, hd, by simpa using hcf, hmem⟩

theorem addedIn_of_added (h : Decodes s.manifest log) (hf : Added (ofColumn cf log) f) :
    s.AddedIn cf f := by
  obtain ⟨file, hfile, rfl⟩ := List.mem_map.mp hf
  obtain ⟨record, hr, e, hd, hcf, hmem⟩ := h.exists_of_ofColumn hfile
  refine ⟨record, hr, ?_⟩
  simp only [recordAdds, hd, if_pos hcf]
  exact List.mem_map_of_mem hmem

theorem deletedIn_of_deleted (h : Decodes s.manifest log) (hf : Deleted (ofColumn cf log) f) :
    s.DeletedIn cf f := by
  obtain ⟨file, hfile, rfl⟩ := List.mem_map.mp hf
  obtain ⟨record, hr, e, hd, hcf, hmem⟩ := h.exists_of_ofColumn hfile
  refine ⟨record, hr, ?_⟩
  simp only [recordDeletes, hd, if_pos hcf]
  exact List.mem_map_of_mem hmem

theorem added_of_liveIn {file : BlobFileMeta} (h : LiveIn cf log f file) :
    Added (ofColumn cf log) f := List.mem_map_of_mem h.1

theorem added_ofColumn_snoc : Added (ofColumn cf (log ++ [edit])) f ↔
    Added (ofColumn cf log) f ∨ edit.columnFamilyId = cf ∧ f ∈ edit.addedFiles.map (·.1) := by
  by_cases hcf : edit.columnFamilyId = cf
  · rw [ofColumn_snoc_self hcf, added_snoc]
    simp [hcf]
  · rw [ofColumn_snoc_ne hcf]
    simp [hcf]

theorem deleted_ofColumn_snoc : Deleted (ofColumn cf (log ++ [edit])) f ↔
    Deleted (ofColumn cf log) f ∨ edit.columnFamilyId = cf ∧ f ∈ edit.deletedFiles.map (·.1) := by
  by_cases hcf : edit.columnFamilyId = cf
  · rw [ofColumn_snoc_self hcf, deleted_snoc]
    simp [hcf]
  · rw [ofColumn_snoc_ne hcf]
    simp [hcf]

theorem liveIn_snoc {file : BlobFileMeta} : LiveIn cf (log ++ [edit]) f file ↔
    ((f, file) ∈ addedFiles (ofColumn cf log) ∨ edit.columnFamilyId = cf ∧ (f, file) ∈ edit.addedFiles) ∧
      ¬Deleted (ofColumn cf log) f ∧
      ¬(edit.columnFamilyId = cf ∧ f ∈ edit.deletedFiles.map (·.1)) := by
  rw [LiveIn, deleted_ofColumn_snoc, not_or]
  by_cases hcf : edit.columnFamilyId = cf
  · rw [ofColumn_snoc_self hcf, addedFiles_snoc, List.mem_append]
    simp [hcf]
  · rw [ofColumn_snoc_ne hcf]
    simp [hcf]

theorem persistent_added (edit : VersionEdit BlobFileMeta) :
    edit.persistent.addedFiles.map (·.1) = edit.addedFiles.map (·.1) := by
  simp [VersionEdit.persistent]

theorem persistent_deleted (edit : VersionEdit BlobFileMeta) :
    edit.persistent.deletedFiles.map (·.1) = edit.deletedFiles.map (·.1) := by
  simp [VersionEdit.persistent]

/-! ## The log covers the files in memory -/

/-- The manifest holds a log that collects, and every live file of an open column family is one of
its files. -/
structure Recoverable (s : BlobFileSet) (log : List (VersionEdit BlobFileMeta)) : Prop where
  decodes : Decodes s.manifest log
  collectable : Collectable log
  paired : ∀ cf, (s.columnFamilies.lookup cf).isSome → ∀ f, Deleted (ofColumn cf log) f →
    Added (ofColumn cf log) f
  live : ∀ cf st, s.columnFamilies.lookup cf = some st → ∀ f file, st.files.lookup f = some file →
    file.isObsolete = false → LiveIn cf log f file.persistent
  bounded : ∀ e ∈ log, ∀ n, e.nextFileNumber = some n → n ≤ s.nextFileNumber
  hasNext : ∃ e ∈ log, e.nextFileNumber ≠ none

abbrev loggedEdit (s : BlobFileSet) (edit : VersionEdit BlobFileMeta) : VersionEdit BlobFileMeta :=
  (s.withNext edit).persistent

theorem Decodes.snoc {records : List Bytes} (h : Decodes records log)
    (edit : VersionEdit BlobFileMeta) :
    Decodes (records ++ [edit.encodeTo]) (log ++ [edit.persistent]) :=
  List.rel_append h (.cons (VersionEdit.decodeFrom_encodeTo edit) .nil)

theorem Collectable.snoc (h : Collectable log) (hna : (edit.addedFiles.map (·.1)).Nodup)
    (hnd : (edit.deletedFiles.map (·.1)).Nodup)
    (hadd : ∀ f ∈ edit.addedFiles.map (·.1), ¬Added (ofColumn edit.columnFamilyId log) f)
    (hdel : ∀ f ∈ edit.deletedFiles.map (·.1), ¬Deleted (ofColumn edit.columnFamilyId log) f)
    (hnext : ∀ n, edit.nextFileNumber = some n →
      ∀ e ∈ log, ∀ m, e.nextFileNumber = some m → m ≤ n) :
    Collectable (log ++ [edit]) := by
  refine ⟨fun cf => ?_, fun cf => ?_, ?_⟩
  · by_cases hcf : edit.columnFamilyId = cf
    · subst hcf
      rw [ofColumn_snoc_self rfl, addedFiles_snoc, List.map_append]
      exact List.nodup_append'.mpr ⟨h.added _, hna, fun f hf hf' => hadd f hf' hf⟩
    · rw [ofColumn_snoc_ne hcf]
      exact h.added cf
  · by_cases hcf : edit.columnFamilyId = cf
    · subst hcf
      rw [ofColumn_snoc_self rfl, deletedFiles_snoc, List.map_append]
      exact List.nodup_append'.mpr ⟨h.deleted _, hnd, fun f hf hf' => hdel f hf' hf⟩
    · rw [ofColumn_snoc_ne hcf]
      exact h.deleted cf
  · rw [List.filterMap_append]
    refine List.pairwise_append.mpr ⟨h.next, ?_, fun m hm n hn => ?_⟩
    · cases hn : edit.nextFileNumber <;> simp [hn]
    · obtain ⟨e, he, hem⟩ := List.mem_filterMap.mp hm
      have hn : edit.nextFileNumber = some n := by simpa using hn
      exact hnext n hn e he m hem

structure EditFits (s : BlobFileSet) (log : List (VersionEdit BlobFileMeta))
    (edit : VersionEdit BlobFileMeta) : Prop where
  added_nodup : (edit.addedFiles.map (·.1)).Nodup
  deleted_nodup : (edit.deletedFiles.map (·.1)).Nodup
  added : ∀ f ∈ edit.addedFiles.map (·.1), ¬Added (ofColumn edit.columnFamilyId log) f
  deleted : ∀ f ∈ edit.deletedFiles.map (·.1), ¬Deleted (ofColumn edit.columnFamilyId log) f
  paired : (s.columnFamilies.lookup edit.columnFamilyId).isSome →
    ∀ f ∈ edit.deletedFiles.map (·.1),
      Added (ofColumn edit.columnFamilyId log) f ∨ f ∈ edit.addedFiles.map (·.1)

theorem accepts_inv (h : s.accepts edit) :
    (edit.addedFiles.map (·.1)).Nodup ∧ (edit.deletedFiles.map (·.1)).Nodup ∧
      ∀ st, s.columnFamilies.lookup edit.columnFamilyId = some st →
        ∀ file ∈ edit.deletedFiles, file.1 ∉ edit.addedFiles.map (·.1) →
          ∃ old, st.files.lookup file.1 = some old ∧ old.isObsolete = false := by
  obtain ⟨c, hadd, hseal⟩ := h
  obtain ⟨hc, hna, hnd⟩ := addEdit_empty hadd
  refine ⟨hna, hnd, fun st hst file hfile hnot => ?_⟩
  have hseal := forM_eq_ok.mp hseal edit.columnFamilyId List.mem_cons_self
  have hc' : c.columnFamilies edit.columnFamilyId = ⟨edit.addedFiles, edit.deletedFiles⟩ := hc
  simp only [hst, hc'] at hseal
  exact lookup_of_fileStatus_some
    ((sealed_inv hseal).2 file (mem_goneFiles.mpr ⟨hfile, hnot⟩))

theorem Recoverable.editFits (h : Recoverable s log) (hacc : s.accepts edit)
    (hadd : ∀ f ∈ edit.addedFiles.map (·.1), ¬s.AddedIn edit.columnFamilyId f)
    (hdel : s.columnFamilies.lookup edit.columnFamilyId = none →
      ∀ f ∈ edit.deletedFiles.map (·.1), ¬s.DeletedIn edit.columnFamilyId f) :
    EditFits s log edit := by
  obtain ⟨hna, hnd, hgone⟩ := accepts_inv hacc
  have hfresh : ∀ f ∈ edit.addedFiles.map (·.1), ¬Added (ofColumn edit.columnFamilyId log) f :=
    fun f hf hc => hadd f hf (addedIn_of_added h.decodes hc)
  cases hst : s.columnFamilies.lookup edit.columnFamilyId with
  | none =>
      refine ⟨hna, hnd, hfresh, fun f hf hc => ?_, fun hc => ?_⟩
      · exact hdel hst f hf (deletedIn_of_deleted h.decodes hc)
      · rw [hst] at hc
        cases hc
  | some st =>
      have hsome : (s.columnFamilies.lookup edit.columnFamilyId).isSome := by rw [hst]; rfl
      -- a deleted file is added by the same edit, or live in the storage and so in the log
      have hcase : ∀ f ∈ edit.deletedFiles.map (·.1), f ∈ edit.addedFiles.map (·.1) ∨
          ∃ file, LiveIn edit.columnFamilyId log f file := by
        intro f hf
        by_cases hmem : f ∈ edit.addedFiles.map (·.1)
        · exact Or.inl hmem
        · obtain ⟨file, hfile, rfl⟩ := List.mem_map.mp hf
          obtain ⟨old, hold, hlive⟩ := hgone st hst file hfile hmem
          exact Or.inr ⟨_, h.live _ st hst file.1 old hold hlive⟩
      refine ⟨hna, hnd, hfresh, fun f hf hc => ?_, fun _ f hf => ?_⟩
      · rcases hcase f hf with hmem | ⟨file, hlive⟩
        · exact hfresh f hmem (h.paired _ hsome f hc)
        · exact hlive.2 hc
      · rcases hcase f hf with hmem | ⟨file, hlive⟩
        · exact Or.inr hmem
        · exact Or.inl (added_of_liveIn hlive)

/-- One more record, whatever becomes of the storages, as long as the live files are in the log. -/
theorem Recoverable.snoc (h : Recoverable s log) (hfit : EditFits s log edit)
    {storages : BlobStorages}
    (hsome : ∀ cf, (storages.lookup cf).isSome → (s.columnFamilies.lookup cf).isSome)
    (hlive : ∀ cf st, storages.lookup cf = some st → ∀ f file, st.files.lookup f = some file →
      file.isObsolete = false → LiveIn cf (log ++ [loggedEdit s edit]) f file.persistent) :
    Recoverable { s.logged edit with columnFamilies := storages } (log ++ [loggedEdit s edit]) := by
  refine ⟨h.decodes.snoc _, ?_, fun cf hcf f hf => ?_, hlive, fun e he n hn => ?_, ?_⟩
  · refine h.collectable.snoc ?_ ?_ ?_ ?_ fun n hn e he m hm => ?_
    · rw [persistent_added]
      exact hfit.added_nodup
    · rw [persistent_deleted]
      exact hfit.deleted_nodup
    · rw [persistent_added]
      exact hfit.added
    · rw [persistent_deleted]
      exact hfit.deleted
    · obtain rfl := Option.some.inj hn
      exact h.bounded e he m hm
  · rw [added_ofColumn_snoc, persistent_added]
    rw [deleted_ofColumn_snoc, persistent_deleted] at hf
    rcases hf with hf | ⟨rfl, hf⟩
    · exact Or.inl (h.paired cf (hsome cf hcf) f hf)
    · rcases hfit.paired (hsome _ hcf) f hf with hf | hf
      · exact Or.inl hf
      · exact Or.inr ⟨rfl, hf⟩
  · rcases List.mem_append.mp he with he | he
    · exact h.bounded e he n hn
    · obtain rfl := List.mem_singleton.mp he
      obtain rfl := Option.some.inj hn
      exact UInt64.le_refl _
  · obtain ⟨e, he, hne⟩ := h.hasNext
    exact ⟨e, List.mem_append_left _ he, hne⟩

/-- The record is written and applied. -/
theorem Recoverable.applied (h : Recoverable s log) (hfit : EditFits s log edit)
    {storages : BlobStorages} (hst : BlobFileSet.Applies edit s.columnFamilies storages) :
    Recoverable { s.logged edit with columnFamilies := storages } (log ++ [loggedEdit s edit]) := by
  cases hst with
  | unknown hnone =>
      refine h.snoc hfit (fun _ hc => hc) fun cf st hst f file hf hlive => ?_
      have hold := h.live cf st hst f file hf hlive
      have hne : ¬(edit.columnFamilyId = cf) := by
        rintro rfl
        rw [hst] at hnone
        cases hnone
      exact liveIn_snoc.mpr ⟨Or.inl hold.1, hold.2, fun hc => hne hc.1⟩
  | @known st st' hst happ =>
      refine h.snoc hfit (fun cf hc => ?_) fun cf st'' hst'' f file hf hlive => ?_
      · by_cases hcf : cf = edit.columnFamilyId
        · subst hcf
          rw [hst]
          rfl
        · rwa [AList.lookup_insert_ne hcf] at hc
      · rw [liveIn_snoc, persistent_deleted]
        by_cases hcf : cf = edit.columnFamilyId
        · subst hcf
          rw [AList.lookup_insert] at hst''
          obtain rfl := Option.some.inj hst''
          by_cases hdel : f ∈ edit.deletedFiles.map (·.1)
          · by_cases hadd : f ∈ edit.addedFiles.map (·.1)
            · rw [happ.other f ⟨fun _ => hdel, fun _ => hadd⟩] at hf
              exact absurd (added_of_liveIn (h.live _ st hst f file hf hlive)) (hfit.added f hadd)
            · obtain ⟨g, hg, rfl⟩ := List.mem_map.mp hdel
              obtain ⟨old, -, -, hold⟩ := happ.deleted g hg hadd
              obtain rfl := Option.some.inj (hold.symm.trans hf)
              cases hlive
          · by_cases hadd : f ∈ edit.addedFiles.map (·.1)
            · obtain ⟨g, hg, rfl⟩ := List.mem_map.mp hadd
              obtain rfl := Option.some.inj ((happ.added g hg hdel).2.symm.trans hf)
              refine ⟨Or.inr ⟨rfl, List.mem_map_of_mem hg⟩, fun hc => ?_, fun hc => hdel hc.2⟩
              exact hfit.added g.1 hadd (h.paired _ (by rw [hst]; rfl) g.1 hc)
            · rw [happ.other f ⟨fun hc => absurd hc hadd, fun hc => absurd hc hdel⟩] at hf
              have hold := h.live _ st hst f file hf hlive
              exact ⟨Or.inl hold.1, hold.2, fun hc => hdel hc.2⟩
        · rw [AList.lookup_insert_ne hcf] at hst''
          have hold := h.live cf st'' hst'' f file hf hlive
          exact ⟨Or.inl hold.1, hold.2, fun hc => hcf hc.1.symm⟩

/-- The record is written and its sync fails; it deletes nothing that was there. -/
theorem Recoverable.unapplied (h : Recoverable s log) (hfit : EditFits s log edit)
    (hdel : (s.columnFamilies.lookup edit.columnFamilyId).isSome →
      ∀ f ∈ edit.deletedFiles.map (·.1), f ∈ edit.addedFiles.map (·.1)) :
    Recoverable (s.logged edit) (log ++ [loggedEdit s edit]) := by
  refine h.snoc hfit (fun _ hc => hc) fun cf st hst f file hf hlive => ?_
  have hold := h.live cf st hst f file hf hlive
  rw [liveIn_snoc, persistent_deleted]
  refine ⟨Or.inl hold.1, hold.2, fun hc => ?_⟩
  obtain rfl : edit.columnFamilyId = cf := hc.1
  exact hfit.added f (hdel (by rw [hst]; rfl) f hc.2) (added_of_liveIn hold)

end

/-! ## Storages that lose files -/

/-- Every entry of `obsolete_files_` is an obsolete file of the storage, once. -/
structure BlobStorage.WellFormed (st : BlobStorage) : Prop where
  nodup : (st.obsoleteFiles.map (·.1)).Nodup
  obsolete : ∀ p ∈ st.obsoleteFiles, ∃ file, st.files.lookup p.1 = some file ∧
    file.isObsolete = true

/-- The second storage has only files of the first, and all live ones. -/
structure BlobStorage.Shrinks (st st' : BlobStorage) : Prop where
  sub : ∀ f file, st'.files.lookup f = some file → st.files.lookup f = some file
  live : st.WellFormed → ∀ f file, st.files.lookup f = some file → file.isObsolete = false →
    st'.files.lookup f = some file
  wf : st.WellFormed → st'.WellFormed

theorem BlobStorage.Shrinks.refl (st : BlobStorage) : st.Shrinks st :=
  ⟨fun _ _ h => h, fun _ _ _ h _ => h, fun h => h⟩

theorem BlobStorage.Shrinks.trans {st mid st' : BlobStorage} (h : st.Shrinks mid)
    (h' : mid.Shrinks st') : st.Shrinks st' :=
  ⟨fun f file hf => h.sub f file (h'.sub f file hf),
    fun hwf f file hf hlive => h'.live (h.wf hwf) f file (h.live hwf f file hf hlive) hlive,
    fun hwf => h'.wf (h.wf hwf)⟩

def StoragesShrink (storages storages' : BlobStorages) : Prop :=
  ∀ cf st', storages'.lookup cf = some st' → ∃ st, storages.lookup cf = some st ∧ st.Shrinks st'

theorem StoragesShrink.refl (storages : BlobStorages) : StoragesShrink storages storages :=
  fun _ st hst => ⟨st, hst, .refl st⟩

theorem StoragesShrink.trans {a b c : BlobStorages} (h : StoragesShrink a b)
    (h' : StoragesShrink b c) : StoragesShrink a c := by
  intro cf st' hst'
  obtain ⟨mid, hmid, hs'⟩ := h' cf st' hst'
  obtain ⟨st, hst, hs⟩ := h cf mid hmid
  exact ⟨st, hst, hs.trans hs'⟩

theorem StoragesShrink.erase (storages : BlobStorages) (cf : UInt32) :
    StoragesShrink storages (storages.erase cf) := by
  intro g st hst
  by_cases hg : g = cf
  · subst hg
    rw [AList.lookup_erase] at hst
    cases hst
  · rw [AList.lookup_erase_ne hg] at hst
    exact ⟨st, hst, .refl st⟩

theorem StoragesShrink.insert {storages : BlobStorages} {cf : UInt32} {st st' : BlobStorage}
    (hst : storages.lookup cf = some st) (h : st.Shrinks st') :
    StoragesShrink storages (storages.insert cf st') := by
  intro g mid hmid
  by_cases hg : g = cf
  · subst hg
    rw [AList.lookup_insert] at hmid
    obtain rfl := Option.some.inj hmid
    exact ⟨st, hst, h⟩
  · rw [AList.lookup_insert_ne hg] at hmid
    exact ⟨mid, hmid, .refl mid⟩

theorem lookup_removeFile (st : BlobStorage) (n f : UInt64) :
    (st.removeFile n).files.lookup f = if f = n then none else st.files.lookup f := by
  rw [BlobStorage.removeFile]
  split
  · next hnone =>
      split_ifs with hf
      · rw [hf, hnone]
      · rfl
  · split_ifs with hf
    · rw [hf, AList.lookup_erase]
    · rw [AList.lookup_erase_ne hf]

theorem lookup_foldl_removeFile (ns : List UInt64) (st : BlobStorage) (f : UInt64) :
    (ns.foldl BlobStorage.removeFile st).files.lookup f =
      if f ∈ ns then none else st.files.lookup f := by
  induction ns generalizing st with
  | nil => simp
  | cons n ns ih =>
      rw [List.foldl_cons, ih, lookup_removeFile]
      by_cases hf : f ∈ ns
      · simp [hf]
      · simp [hf]

/-- A purge removes obsolete files only. -/
theorem BlobStorage.shrinks_getObsoleteFiles (st : BlobStorage) (oldest : ℕ) :
    st.Shrinks (st.getObsoleteFiles oldest).2 := by
  have hlook : ∀ f, (st.getObsoleteFiles oldest).2.files.lookup f =
      if f ∈ (st.getObsoleteFiles oldest).1 then none else st.files.lookup f :=
    lookup_foldl_removeFile _ st
  have hremoved : ∀ f ∈ (st.getObsoleteFiles oldest).1, ∃ p ∈ st.obsoleteFiles, p.1 = f ∧
      p.2 < oldest := by
    intro f hf
    obtain ⟨p, hp, rfl⟩ := List.mem_map.mp hf
    obtain ⟨hp, hlt⟩ := List.mem_filter.mp hp
    exact ⟨p, hp, rfl, by simpa using hlt⟩
  refine ⟨fun f file hf => ?_, fun hwf f file hf hlive => ?_, fun hwf => ?_⟩
  · rw [hlook] at hf
    split_ifs at hf
    exact hf
  · rw [hlook, if_neg]
    · exact hf
    · intro hmem
      obtain ⟨p, hp, rfl, -⟩ := hremoved f hmem
      obtain ⟨file', hf', hob⟩ := hwf.obsolete p hp
      obtain rfl := Option.some.inj (hf.symm.trans hf')
      rw [hlive] at hob
      cases hob
  · refine ⟨hwf.nodup.sublist (List.filter_sublist.map _), fun p hp => ?_⟩
    obtain ⟨hp, hge⟩ := List.mem_filter.mp hp
    obtain ⟨file, hf, hob⟩ := hwf.obsolete p hp
    refine ⟨file, ?_, hob⟩
    rw [hlook, if_neg]
    · exact hf
    · intro hmem
      obtain ⟨q, hq, heq, hlt⟩ := hremoved p.1 hmem
      obtain rfl : q = p := List.inj_on_of_nodup_map hwf.nodup hq hp heq
      simp only [hlt, decide_true, Bool.not_true, Bool.false_eq_true] at hge

theorem shrink_purgeColumn (s : BlobFileSet) (oldest : ℕ) (acc : List UInt64 × BlobStorages)
    (cf : UInt32) : StoragesShrink acc.2 (s.purgeColumn oldest acc cf).2 := by
  rw [BlobFileSet.purgeColumn]
  split_ifs with hob
  · exact .refl _
  · split
    · exact .refl _
    · next st hst =>
        dsimp only
        split_ifs
        · exact .erase _ _
        · exact .insert hst (st.shrinks_getObsoleteFiles oldest)

theorem shrink_getObsoleteFiles (s : BlobFileSet) (oldest : ℕ) :
    StoragesShrink s.columnFamilies (s.getObsoleteFiles oldest).2.columnFamilies := by
  have hfold : ∀ (cfs : List UInt32) (acc : List UInt64 × BlobStorages),
      StoragesShrink acc.2 (cfs.foldl (s.purgeColumn oldest) acc).2 := by
    intro cfs
    induction cfs with
    | nil => exact fun acc => .refl _
    | cons cf cfs ih => exact fun acc => (shrink_purgeColumn s oldest acc cf).trans (ih _)
  exact hfold _ ([], s.columnFamilies)

theorem shrink_maybeDestroyColumnFamily (s : BlobFileSet) (cf : UInt32) :
    StoragesShrink s.columnFamilies (s.maybeDestroyColumnFamily cf).2.columnFamilies := by
  rw [BlobFileSet.maybeDestroyColumnFamily]
  dsimp only
  split
  · exact .refl _
  · next st hst =>
      dsimp only
      split_ifs
      · exact .erase _ _
      · exact .insert hst ⟨fun _ _ h => h, fun _ _ _ h _ => h, fun h => ⟨h.nodup, h.obsolete⟩⟩

/-! ## Runs -/

/-- The steps a property of the set has to survive, for a condition on the calls. -/
structure Preserved (condition : BlobFileSet → VersionEdit BlobFileMeta → ManifestIO → Prop)
    (I : BlobFileSet → Prop) : Prop where
  call : ∀ s edit io, I s → condition s edit io → I (s.logAndApply edit io).2
  shrink : ∀ s s', I s → s'.manifest = s.manifest → s'.nextFileNumber = s.nextFileNumber →
    StoragesShrink s.columnFamilies s'.columnFamilies → I s'
  number : ∀ s n, I s → s.nextFileNumber ≤ n → I { s with nextFileNumber := n }
  opens : ∀ s cf options, I s → s.unusedColumn cf = true → I (s.addColumnFamilies [(cf, options)])

variable {condition : BlobFileSet → VersionEdit BlobFileMeta → ManifestIO → Prop}
  {I : BlobFileSet → Prop}

theorem Preserved.drop (hI : Preserved condition I) {cfs : List (UInt32 × ManifestIO)} {seq : ℕ}
    {s : BlobFileSet} (hs : I s) (hm : History.DropMeets condition seq s cfs) :
    I (s.dropColumnFamilies seq cfs).2 := by
  induction cfs generalizing s with
  | nil => exact hs
  | cons cf cfs ih =>
      obtain ⟨cf, io⟩ := cf
      rw [BlobFileSet.dropColumnFamilies]
      cases hst : s.columnFamilies.lookup cf with
      | none => exact hs
      | some st =>
          obtain ⟨hc, hrest⟩ := hm st hst
          have hcall := hI.call s _ io hs hc
          dsimp only
          split_ifs with hok
          · exact hcall
          · refine ih (hI.shrink _ _ hcall rfl rfl (.refl _)) (hrest ?_)
            simpa using hok

theorem Preserved.step (hI : Preserved condition I) {h h' : History} {a : History.Action}
    (hs : I h.set) (hm : h.CallsMeet condition a) (hstep : h.step a = some h') : I h'.set := by
  cases a with
  | newFileNumber =>
      simp only [History.step] at hstep
      split_ifs at hstep with hlt
      obtain rfl := Option.some.inj hstep
      refine hI.number _ _ hs ?_
      rw [UInt64.le_iff_toNat_le, UInt64.toNat_add]
      simp only [UInt64.reduceToNat]
      omega
  | logAndApply edit io =>
      obtain rfl := Option.some.inj hstep
      exact hI.call _ edit io hs hm
  | dropColumnFamilies cfs seq =>
      obtain rfl := Option.some.inj hstep
      exact hI.drop hs hm
  | deleteBlobFilesInRanges cf ranges includeEnd seq io =>
      obtain rfl := Option.some.inj hstep
      change I (h.set.deleteBlobFilesInRanges cf ranges includeEnd seq io).2
      rw [BlobFileSet.deleteBlobFilesInRanges]
      cases hst : h.set.columnFamilies.lookup cf with
      | none => exact hs
      | some st => exact hI.call _ _ io hs (hm st hst)
  | getObsoleteFiles oldest =>
      obtain rfl := Option.some.inj hstep
      exact hI.shrink _ _ hs rfl rfl (shrink_getObsoleteFiles h.set oldest)
  | maybeDestroyColumnFamily cf =>
      obtain rfl := Option.some.inj hstep
      refine hI.shrink h.set _ hs ?_ ?_ (shrink_maybeDestroyColumnFamily h.set cf)
      · simp only [History.after, BlobFileSet.maybeDestroyColumnFamily]
        split <;> rfl
      · simp only [History.after, BlobFileSet.maybeDestroyColumnFamily]
        split <;> rfl
  | addColumnFamilies cf options =>
      simp only [History.step] at hstep
      split_ifs at hstep with hunused
      obtain rfl := Option.some.inj hstep
      exact hI.opens _ cf options hs hunused

end AegonKV
