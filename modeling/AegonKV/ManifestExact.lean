import AegonKV.ManifestRuns

/-!
# Exact recovery

When all calls of a run succeed, with new file numbers, the log and the storages agree: replay gives
back exactly the files that are not obsolete in memory. The next file number of the last record is
above every number that was handed out before it.
-/

namespace AegonKV
open LittleEndian TransitionSystem

section

variable {s : BlobFileSet} {log : List (VersionEdit BlobFileMeta)} {edit : VersionEdit BlobFileMeta}
  {io : ManifestIO} {cf : UInt32} {f : UInt64}

structure ExactLog (s : BlobFileSet) (log : List (VersionEdit BlobFileMeta)) : Prop
    extends Recoverable s log where
  exact : ∀ cf st, s.columnFamilies.lookup cf = some st → ∀ f file, LiveIn cf log f file →
    (f, file) ∈ st.liveEntries
  wf : ∀ cf st, s.columnFamilies.lookup cf = some st → st.WellFormed

def recordNumbers (record : Bytes) : List UInt64 :=
  match VersionEdit.decodeFrom record with
  | .error _ => []
  | .ok edit => edit.addedFiles.map (·.1)

theorem recordAdds_subset (cf : UInt32) (record : Bytes) :
    recordAdds cf record ⊆ recordNumbers record := by
  rw [recordAdds, recordNumbers]
  cases VersionEdit.decodeFrom record with
  | error e => exact List.nil_subset _
  | ok edit =>
      dsimp only
      split_ifs
      · exact List.Subset.refl _
      · exact List.nil_subset _

/-- A call that succeeds once its edit is accepted: files that are not obsolete, with numbers that no
record adds, and deletions in an open column family only. -/
def Regular (s : BlobFileSet) (edit : VersionEdit BlobFileMeta) (io : ManifestIO) : Prop :=
  io.addRecord.isOk = true ∧ io.sync.isOk = true ∧
    (∀ file ∈ edit.addedFiles, file.2.isObsolete = false ∧
      ∀ record ∈ s.manifest, file.1 ∉ recordNumbers record) ∧
    (s.columnFamilies.lookup edit.columnFamilyId = none → edit.deletedFiles = [])

theorem Regular.replayable (h : Regular s edit io) : Replayable s edit io := by
  obtain ⟨-, hsync, hadd, hdel⟩ := h
  refine fun _ _ => ⟨fun f hf => ?_, fun hnone f hf => ?_, fun hno => ?_⟩
  · obtain ⟨file, hfile, rfl⟩ := List.mem_map.mp hf
    rintro ⟨record, hrecord, hmem⟩
    exact (hadd file hfile).2 record hrecord (recordAdds_subset _ record hmem)
  · rw [hdel hnone] at hf
    cases hf
  · rw [hsync] at hno
    cases hno

/-- What is obsolete stays in the list of obsolete files. -/
theorem AppliedExactly.wellFormed {st st' : BlobStorage} (h : AppliedExactly edit st st')
    (hnd : (edit.deletedFiles.map (·.1)).Nodup) (hwf : st.WellFormed) : st'.WellFormed := by
  have hgone : ∀ file ∈ edit.deletedFiles.filter (fun file => file.1 ∉ edit.addedFiles.map (·.1)),
      file ∈ edit.deletedFiles ∧ file.1 ∉ edit.addedFiles.map (·.1) := by
    intro file hfile
    obtain ⟨hmem, hnot⟩ := List.mem_filter.mp hfile
    exact ⟨hmem, by simpa using hnot⟩
  refine ⟨?_, fun p hp => ?_⟩
  · rw [h.obsolete, List.map_append]
    refine List.nodup_append'.mpr ⟨hwf.nodup, hnd.sublist (List.filter_sublist.map _), ?_⟩
    intro n hn hn'
    obtain ⟨p, hp, rfl⟩ := List.mem_map.mp hn
    obtain ⟨file, hfile, heq⟩ := List.mem_map.mp hn'
    obtain ⟨hmem, hnot⟩ := hgone file hfile
    obtain ⟨old, hold, hlive, -⟩ := h.deleted file hmem hnot
    obtain ⟨old', hold', hob⟩ := hwf.obsolete p hp
    have heq' : file.1 = p.1 := heq
    rw [heq'] at hold
    obtain rfl := Option.some.inj (hold.symm.trans hold')
    rw [hlive] at hob
    cases hob
  · rw [h.obsolete] at hp
    rcases List.mem_append.mp hp with hp | hp
    · obtain ⟨old, hold, hob⟩ := hwf.obsolete p hp
      refine ⟨old, ?_, hob⟩
      rw [h.other p.1, hold]
      refine ⟨fun hadd => ?_, fun hdel => ?_⟩
      · by_contra hnot
        obtain ⟨g, hg, heq⟩ := List.mem_map.mp hadd
        have hnone := (h.added g hg (heq ▸ hnot)).1
        rw [heq, hold] at hnone
        cases hnone
      · by_contra hnot
        obtain ⟨g, hg, heq⟩ := List.mem_map.mp hdel
        obtain ⟨old', hold', hlive, -⟩ := h.deleted g hg (heq ▸ hnot)
        rw [heq] at hold'
        obtain rfl := Option.some.inj (hold.symm.trans hold')
        rw [hlive] at hob
        cases hob
    · obtain ⟨hmem, hnot⟩ := hgone p hp
      obtain ⟨old, -, -, hnew⟩ := h.deleted p hmem hnot
      exact ⟨_, hnew, rfl⟩

theorem ExactLog.applied (h : ExactLog s log) (hfit : EditFits s log edit)
    (hlive : ∀ file ∈ edit.addedFiles, file.2.isObsolete = false)
    {storages : BlobStorages} (hst : BlobFileSet.Applies edit s.columnFamilies storages) :
    ExactLog { s.logged edit with columnFamilies := storages } (log ++ [loggedEdit s edit]) := by
  refine { h.toRecoverable.applied hfit hst with exact := ?_, wf := ?_ }
  · intro cf st' hst' f file hf
    rw [liveIn_snoc, persistent_deleted] at hf
    obtain ⟨hadd, hnd, hne⟩ := hf
    cases hst with
    | unknown hnone =>
        have hcf : edit.columnFamilyId ≠ cf := by
          rintro rfl
          cases hnone.symm.trans hst'
        have hold : (f, file) ∈ addedFiles (ofColumn cf log) :=
          hadd.resolve_right fun hc => hcf hc.1
        exact h.exact cf st' hst' f file ⟨hold, hnd⟩
    | @known st st₁ hst happ =>
        by_cases hcf : cf = edit.columnFamilyId
        · subst hcf
          obtain rfl := Option.some.inj ((AList.lookup_insert _).symm.trans hst')
          have hdel : f ∉ edit.deletedFiles.map (·.1) := fun hc => hne ⟨rfl, hc⟩
          rcases hadd with hold | ⟨-, hnew⟩
          · have hlog : LiveIn edit.columnFamilyId log f file := ⟨hold, hnd⟩
            have hnot : f ∉ edit.addedFiles.map (·.1) :=
              fun hc => hfit.added f hc (added_of_liveIn hlog)
            have hmem := h.exact _ st hst f file hlog
            rw [BlobStorage.mem_liveEntries] at hmem ⊢
            rwa [happ.other f ⟨fun hc => absurd hc hnot, fun hc => absurd hc hdel⟩]
          · obtain ⟨g, hg, heq⟩ := List.mem_map.mp hnew
            obtain ⟨rfl, rfl⟩ : g.1 = f ∧ g.2.persistent = file := by simpa using heq
            exact BlobStorage.mem_liveEntries.mpr ⟨g.2, (happ.added g hg hdel).2, hlive g hg, rfl⟩
        · have hold : (f, file) ∈ addedFiles (ofColumn cf log) :=
            hadd.resolve_right fun hc => hcf hc.1.symm
          exact h.exact cf st' ((AList.lookup_insert_ne hcf).symm.trans hst') f file ⟨hold, hnd⟩
  · intro cf st' hst'
    cases hst with
    | unknown hnone => exact h.wf cf st' hst'
    | @known st st₁ hst happ =>
        by_cases hcf : cf = edit.columnFamilyId
        · subst hcf
          obtain rfl := Option.some.inj ((AList.lookup_insert _).symm.trans hst')
          exact happ.wellFormed hfit.deleted_nodup (h.wf _ st hst)
        · exact h.wf cf st' ((AList.lookup_insert_ne hcf).symm.trans hst')

theorem ExactLog.call (h : ExactLog s log) (hc : Regular s edit io) :
    ∃ log', ExactLog (s.logAndApply edit io).2 log' := by
  rcases BlobFileSet.logAndApply_cases s edit io with ⟨-, hs, -⟩ | ⟨-, -, hsync, -, -⟩ |
    ⟨hacc, hrec, -, -, storages, hst, hs⟩
  · rw [hs]
    exact ⟨log, h⟩
  · rw [hc.2.1] at hsync
    cases hsync
  · obtain ⟨hadd, hdel, -⟩ := hc.replayable hacc hrec
    rw [hs]
    exact ⟨_, h.applied (h.toRecoverable.editFits hacc hadd hdel)
      (fun file hfile => (hc.2.2.1 file hfile).1) hst⟩

theorem exactLog_preserved : Preserved Regular fun s => ∃ log, ExactLog s log where
  call _ _ _ := fun ⟨_, h⟩ hc => h.call hc
  shrink s s' := by
    rintro ⟨log, h⟩ hman hnext hst
    refine ⟨log, { h.toRecoverable.shrink hman hnext hst with exact := ?_, wf := ?_ }⟩
    · intro cf st' hst' f file hf
      obtain ⟨st, hold, hs⟩ := hst cf st' hst'
      obtain ⟨old, hlook, hlive, rfl⟩ :=
        BlobStorage.mem_liveEntries.mp (h.exact cf st hold f file hf)
      have hnew := hs.live (h.wf cf st hold) f old hlook hlive
      exact BlobStorage.mem_liveEntries.mpr ⟨old, hnew, hlive, rfl⟩
    · intro cf st' hst'
      obtain ⟨st, hold, hs⟩ := hst cf st' hst'
      exact hs.wf (h.wf cf st hold)
  number s n := fun ⟨log, h⟩ hn => ⟨log, { h.toRecoverable.number hn with exact := h.exact, wf := h.wf }⟩
  opens s cf options := by
    rintro ⟨log, h⟩ hunused
    refine ⟨log, { h.toRecoverable.opens hunused with exact := ?_, wf := ?_ }⟩
    · intro g st hst f file hf
      rcases storage_of_opens h.decodes hunused hst with hold | ⟨-, hnil⟩
      · exact h.exact g st hold f file hf
      · have hadd := added_of_liveIn hf
        rw [hnil] at hadd
        cases hadd
    · intro g st hst
      rcases storage_of_opens h.decodes hunused hst with hold | ⟨rfl, -⟩
      · exact h.wf g st hold
      · exact ⟨List.nodup_nil, fun p hp => (by cases hp)⟩

def BlobFileSet.WellFormed (s : BlobFileSet) : Prop :=
  ∀ cf st, s.columnFamilies.lookup cf = some st → st.WellFormed

theorem exactLog_afterSnapshot (h : s.WellFormed) : ExactLog s.afterSnapshot (snapshotLog s) := by
  refine { recoverable_afterSnapshot s with exact := ?_, wf := h }
  intro cf st hst f file hf
  obtain ⟨st', hst', hmem⟩ := liveIn_snapshotLog.mp hf
  obtain rfl := Option.some.inj (hst'.symm.trans hst)
  exact hmem

/-! ## File numbers -/

def recordNext (record : Bytes) : Option UInt64 :=
  match VersionEdit.decodeFrom record with
  | .error _ => none
  | .ok edit => edit.nextFileNumber

/-- The next file number of the last record that has one. -/
def lastNext (records : List Bytes) : Option UInt64 := (records.filterMap recordNext).getLast?

theorem Decodes.filterMap_recordNext {records : List Bytes} (h : Decodes records log) :
    records.filterMap recordNext = log.filterMap (·.nextFileNumber) := by
  induction h with
  | nil => rfl
  | @cons record edit records log hdec hrest ih =>
      have hrec : recordNext record = edit.nextFileNumber := by rw [recordNext, hdec]
      rw [List.filterMap_cons, List.filterMap_cons, hrec, ih]

theorem recordNext_encodeTo (edit : VersionEdit BlobFileMeta) :
    recordNext edit.encodeTo = edit.nextFileNumber := by
  rw [recordNext, VersionEdit.decodeFrom_encodeTo]
  rfl

/-- The manifest is as before, or its last record has the next file number. -/
def Logs (s s' : BlobFileSet) : Prop :=
  s'.nextFileNumber = s.nextFileNumber ∧ (s'.manifest = s.manifest ∨
    s.manifest.length < s'.manifest.length ∧ lastNext s'.manifest = some s.nextFileNumber)

theorem Logs.trans {a b c : BlobFileSet} (h : Logs a b) (h' : Logs b c) : Logs a c := by
  obtain ⟨hn, h⟩ := h
  obtain ⟨hn', h'⟩ := h'
  refine ⟨hn'.trans hn, ?_⟩
  rcases h' with hman' | ⟨hlen', hlast'⟩
  · rw [hman']
    exact h
  · rw [hn] at hlast'
    rcases h with hman | ⟨hlen, -⟩
    · exact Or.inr ⟨hman ▸ hlen', hlast'⟩
    · exact Or.inr ⟨hlen.trans hlen', hlast'⟩

theorem logs_logged (s : BlobFileSet) (edit : VersionEdit BlobFileMeta) : Logs s (s.logged edit) := by
  refine ⟨rfl, Or.inr ⟨by simp [BlobFileSet.logged], ?_⟩⟩
  simp only [BlobFileSet.logged, lastNext, List.filterMap_append, List.filterMap_cons,
    recordNext_encodeTo, BlobFileSet.withNext, List.filterMap_nil, List.getLast?_append,
    List.getLast?_singleton, Option.some_or]

theorem logs_logAndApply (s : BlobFileSet) (edit : VersionEdit BlobFileMeta) (io : ManifestIO) :
    Logs s (s.logAndApply edit io).2 := by
  rcases BlobFileSet.logAndApply_cases s edit io with ⟨-, hs, -⟩ | ⟨-, -, -, -, hs⟩ |
    ⟨-, -, -, -, storages, -, hs⟩
  · rw [hs]
    exact ⟨rfl, Or.inl rfl⟩
  · rw [hs]
    exact logs_logged s edit
  · rw [hs]
    exact logs_logged s edit

theorem logs_dropColumnFamilies (cfs : List (UInt32 × ManifestIO)) (seq : ℕ) (s : BlobFileSet) :
    Logs s (s.dropColumnFamilies seq cfs).2 := by
  induction cfs generalizing s with
  | nil => exact ⟨rfl, Or.inl rfl⟩
  | cons cf cfs ih =>
      obtain ⟨cf, io⟩ := cf
      rw [BlobFileSet.dropColumnFamilies]
      cases hst : s.columnFamilies.lookup cf with
      | none => exact ⟨rfl, Or.inl rfl⟩
      | some st =>
          have hcall := logs_logAndApply s (BlobFileSet.dropEdit cf st seq) io
          dsimp only
          split_ifs
          · exact hcall
          · exact Logs.trans hcall (Logs.trans ⟨rfl, Or.inl rfl⟩ (ih _))

/-- Every number handed out is below the counter, and those covered are below the last record's. -/
structure History.Numbered (h : History) : Prop where
  handedOut : ∀ n ∈ h.handedOut, n < h.set.nextFileNumber
  covered : ∀ n ∈ h.covered, ∃ m, lastNext h.set.manifest = some m ∧ n < m

theorem History.Numbered.after {h : History} (hn : h.Numbered) {set : BlobFileSet}
    (hlogs : Logs h.set set) : (h.after set).Numbered := by
  obtain ⟨hnext, hman⟩ := hlogs
  refine ⟨fun n hmem => ?_, fun n hmem => ?_⟩
  · change n < set.nextFileNumber
    rw [hnext]
    exact hn.handedOut n hmem
  · simp only [History.after] at hmem ⊢
    rcases hman with hman | ⟨hlen, hlast⟩
    · rw [hman, if_pos rfl] at hmem
      rw [hman]
      exact hn.covered n hmem
    · rw [if_neg (by omega)] at hmem
      exact ⟨_, hlast, hn.handedOut n hmem⟩

theorem History.Numbered.step {h h' : History} {a : History.Action} (hn : h.Numbered)
    (hstep : h.step a = some h') : h'.Numbered := by
  cases a with
  | newFileNumber =>
      simp only [History.step] at hstep
      split_ifs at hstep with hlt
      obtain rfl := Option.some.inj hstep
      have hsucc : h.set.nextFileNumber < h.set.nextFileNumber + 1 := by
        rw [UInt64.lt_iff_toNat_lt, UInt64.toNat_add]
        simp only [UInt64.reduceToNat]
        omega
      refine ⟨fun n hmem => ?_, hn.covered⟩
      rcases List.mem_cons.mp hmem with rfl | hmem
      · exact hsucc
      · exact UInt64.lt_trans (hn.handedOut n hmem) hsucc
  | logAndApply edit io =>
      obtain rfl := Option.some.inj hstep
      exact hn.after (logs_logAndApply h.set edit io)
  | dropColumnFamilies cfs seq =>
      obtain rfl := Option.some.inj hstep
      exact hn.after (logs_dropColumnFamilies cfs seq h.set)
  | deleteBlobFilesInRanges cf ranges includeEnd seq io =>
      obtain rfl := Option.some.inj hstep
      refine hn.after ?_
      rw [BlobFileSet.deleteBlobFilesInRanges]
      cases hst : h.set.columnFamilies.lookup cf with
      | none => exact ⟨rfl, Or.inl rfl⟩
      | some st => exact logs_logAndApply h.set _ io
  | getObsoleteFiles oldest =>
      obtain rfl := Option.some.inj hstep
      exact hn.after ⟨rfl, Or.inl rfl⟩
  | maybeDestroyColumnFamily cf =>
      obtain rfl := Option.some.inj hstep
      refine hn.after ?_
      rw [BlobFileSet.maybeDestroyColumnFamily]
      dsimp only
      split
      · exact ⟨rfl, Or.inl rfl⟩
      · exact ⟨rfl, Or.inl rfl⟩
  | addColumnFamilies cf options =>
      simp only [History.step] at hstep
      split_ifs at hstep with hunused
      obtain rfl := Option.some.inj hstep
      exact hn.after ⟨rfl, Or.inl rfl⟩

/-- The file as a recovered storage has it, if it is not obsolete. -/
def BlobStorage.liveFile (st : BlobStorage) (f : UInt64) : Option BlobFileMeta :=
  match st.files.lookup f with
  | none => none
  | some file => if file.isObsolete then none else some file.persistent

theorem BlobStorage.liveFile_eq_some {st : BlobStorage} {file : BlobFileMeta} :
    st.liveFile f = some file ↔ (f, file) ∈ st.liveEntries := by
  rw [mem_liveEntries, liveFile]
  cases hold : st.files.lookup f with
  | none => simp
  | some old => cases hob : old.isObsolete <;> simp [hob]

end
end AegonKV
