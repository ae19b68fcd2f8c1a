import AegonKV.ManifestRecovery
import AegonKV.RatioCounts

/-!
# The counters over whole runs

The machine of the blob files with the counters of every column family, from the moment on that the
column families are opened without files. The counters stay right in every run whose steps change no
live size that is unknown as if it were known, and whose compactions do not create blob files: a file
that `OnCompactionCompleted` finds `kPendingLSM` is added to its counter twice.
-/

namespace AegonKV
open ClassCounters TransitionSystem

/-! ## One `LogAndApply` -/

namespace BlobFileSet

/-- The edit gets to the storage of its column family. -/
structure AppliesStats (s : BlobFileSet) (edit : VersionEdit BlobFileMeta) (io : ManifestIO)
    (st : BlobStorage) : Prop where
  storage : s.columnFamilies.lookup edit.columnFamilyId = some st
  added : (edit.addedFiles.map (·.1)).Nodup
  deleted : (edit.deletedFiles.map (·.1)).Nodup
  seals : (CFEditCollector.mk edit.addedFiles edit.deletedFiles).sealed st.fileStatus = .ok ()
  calls : s.logAndApplyStats edit io =
    (CFEditCollector.mk edit.addedFiles edit.deletedFiles).applyStats st
  columns : (s.logAndApply edit io).2.columnFamilies = s.columnFamilies.insert edit.columnFamilyId
    ((CFEditCollector.mk edit.addedFiles edit.deletedFiles).apply st).2

theorem logAndApplyStats_cases (s : BlobFileSet) (edit : VersionEdit BlobFileMeta) (io : ManifestIO) :
    (s.logAndApplyStats edit io = [] ∧
        (s.logAndApply edit io).2.columnFamilies = s.columnFamilies ∧
        ∀ st, s.columnFamilies.lookup edit.columnFamilyId = some st →
          (s.logAndApply edit io).1.isOk = false) ∨
      ∃ st, s.AppliesStats edit io st := by
  cases hadd : EditCollector.empty.addEdit (s.withNext edit) with
  | error e =>
      refine Or.inl ⟨by rw [logAndApplyStats, hadd], by rw [logAndApply, hadd], fun st _ => ?_⟩
      rw [logAndApply, hadd]
      exact addEdit_errorsOnly _ _ e hadd
  | ok collector =>
      cases hseal : collector.sealIn [edit.columnFamilyId] s.columnFamilies with
      | error e =>
          refine Or.inl ⟨?_, ?_, fun st _ => ?_⟩
          · simp only [logAndApplyStats, hadd, hseal]
          · simp only [logAndApply, hadd, hseal]
          · simp only [logAndApply, hadd, hseal]
            exact sealIn_errorsOnly _ _ _ e hseal
      | ok u =>
          cases hrecord : io.addRecord.isOk with
          | false =>
              refine Or.inl ⟨?_, ?_, fun st _ => ?_⟩
              · simp [logAndApplyStats, hadd, hseal, hrecord]
              · simp [logAndApply, hadd, hseal, hrecord]
              · simp [logAndApply, hadd, hseal, hrecord]
          | true =>
              cases hsync : io.sync.isOk with
              | false =>
                  refine Or.inl ⟨?_, ?_, fun st _ => ?_⟩
                  · simp [logAndApplyStats, hadd, hseal, hrecord, hsync]
                  · simp [logAndApply, hadd, hseal, hrecord, hsync]
                  · simp [logAndApply, hadd, hseal, hrecord, hsync]
              | true =>
                  obtain ⟨hc, hna, hnd⟩ := addEdit_empty hadd
                  have hc' : collector.columnFamilies edit.columnFamilyId =
                      ⟨edit.addedFiles, edit.deletedFiles⟩ := hc
                  cases hst : s.columnFamilies.lookup edit.columnFamilyId with
                  | none =>
                      refine Or.inl ⟨?_, ?_, fun st hst' => by cases hst'⟩
                      · simp [logAndApplyStats, hadd, hseal, hrecord, hsync, hst]
                      · simp [logAndApply, hadd, hseal, hrecord, hsync, hst, EditCollector.applyTo]
                  | some st =>
                      have hcf := forM_eq_ok.mp hseal edit.columnFamilyId List.mem_cons_self
                      simp only [hst, hc'] at hcf
                      refine Or.inr ⟨st, hst, hna, hnd, hcf, ?_, ?_⟩
                      · simp [logAndApplyStats, hadd, hseal, hrecord, hsync, hst, hc']
                      · simp only [logAndApply, hadd, hseal, hrecord, hsync, Bool.not_true,
                          Bool.false_eq_true, if_false, EditCollector.applyTo, hst, hc']
                        split_ifs
                        · rfl
                        · rfl

end BlobFileSet

/-! ## The counters of a set -/

/-- The counters of every column family match its files. `issued` are the file numbers that have been
given out, each with the column family of its file, and `known` are the column families. -/
structure BlobFileSet.Counts (known : UInt32 → Prop) (issued : List (UInt32 × UInt64))
    (stats : InternalStats) (s : BlobFileSet) : Prop where
  counted : ∀ cf st, s.columnFamilies.lookup cf = some st →
    Counted (fun f => (cf, f) ∈ issued) (stats cf) st.files
  known_iff : ∀ cf, (s.columnFamilies.lookup cf).isSome ↔ known cf

namespace BlobFileSet

variable {known : UInt32 → Prop} {issued : List (UInt32 × UInt64)} {stats : InternalStats}
  {s s' : BlobFileSet} {cf : UInt32} {st st' : BlobStorage}

open InternalStats (forColumn run_forColumn)

/-- One column family changes, with its calls. -/
theorem Counts.insert (h : s.Counts known issued stats)
    (hst : s.columnFamilies.lookup cf = some st) {calls : List StatCall}
    (hcolumns : s'.columnFamilies = s.columnFamilies.insert cf st')
    (hcounted : Counted (fun f => (cf, f) ∈ issued) ((stats cf).run calls) st'.files) :
    s'.Counts known issued (stats.run (forColumn cf calls)) := by
  constructor
  case counted =>
    intro g new hnew
    rw [hcolumns] at hnew
    rw [run_forColumn]
    by_cases hg : g = cf
    · subst hg
      rw [AList.lookup_insert] at hnew
      rw [Function.update_self, ← Option.some.inj hnew]
      exact hcounted
    · rw [AList.lookup_insert_ne hg] at hnew
      rw [Function.update_of_ne hg]
      exact h.counted g new hnew
  case known_iff =>
    intro g
    rw [hcolumns, ← h.known_iff g]
    by_cases hg : g = cf
    · rw [hg, AList.lookup_insert, hst]
      exact iff_of_true rfl rfl
    · rw [AList.lookup_insert_ne hg]

theorem Counts.setStorage (h : s.Counts known issued stats)
    (hst : s.columnFamilies.lookup cf = some st) {calls : List StatCall}
    (hcounted : Counted (fun f => (cf, f) ∈ issued) ((stats cf).run calls) st'.files) :
    (s.setStorage cf st').Counts known issued (stats.run (forColumn cf calls)) :=
  h.insert hst rfl hcounted

/-- A change without calls. -/
theorem Counts.setFiles (h : s.Counts known issued stats)
    (hst : s.columnFamilies.lookup cf = some st)
    (hcounted : Counted (fun f => (cf, f) ∈ issued) (stats cf) st'.files) :
    (s.setStorage cf st').Counts known issued stats := by
  have hrun : Counted (fun f => (cf, f) ∈ issued) ((stats cf).run []) st'.files := hcounted
  exact h.setStorage hst hrun

/-- More numbers are given out. -/
theorem Counts.issue (h : s.Counts known issued stats) {new : List (UInt32 × UInt64)}
    (hnew : ∀ n ∈ new, n.2 ≠ 0) : s.Counts known (new ++ issued) stats := by
  refine ⟨fun cf st hst => ?_, h.known_iff⟩
  have hcounted := h.counted cf st hst
  refine hcounted.mono (fun f hf => List.mem_append_right new hf) fun hzero => ?_
  rcases List.mem_append.mp hzero with hmem | hmem
  · exact hnew _ hmem rfl
  · exact hcounted.zero hmem

theorem Counts.congr (h : s.Counts known issued stats)
    (hcolumns : s'.columnFamilies = s.columnFamilies) : s'.Counts known issued stats :=
  ⟨hcolumns ▸ h.counted, hcolumns ▸ h.known_iff⟩

theorem Counts.logAndApply (h : s.Counts known issued stats) {edit : VersionEdit BlobFileMeta}
    (io : ManifestIO)
    (hnew : ∀ st, s.columnFamilies.lookup edit.columnFamilyId = some st →
      ∀ file ∈ edit.addedFiles, (edit.columnFamilyId, file.1) ∈ issued ∧
        file.1 ∉ (stats edit.columnFamilyId).sized ∧ Enters file.2)
    (hgone : ∀ file ∈ edit.deletedFiles, ∀ st old,
      s.columnFamilies.lookup edit.columnFamilyId = some st →
      st.files.lookup file.1 = some old → old.state ≠ .kPendingLSM) :
    (s.logAndApply edit io).2.Counts known issued
      (stats.run (forColumn edit.columnFamilyId (s.logAndApplyStats edit io))) := by
  rcases s.logAndApplyStats_cases edit io with ⟨hcalls, hcolumns, -⟩ | ⟨st, happlies⟩
  · rw [hcalls]
    exact h.congr hcolumns
  · rw [happlies.calls]
    refine h.insert happlies.storage happlies.columns ?_
    exact (h.counted _ st happlies.storage).apply happlies.seals happlies.added happlies.deleted
      (hnew st happlies.storage) fun file hfile old hold =>
        hgone file hfile st old happlies.storage hold

/-- An edit that only deletes files. -/
theorem Counts.logDeletions (h : s.Counts known issued stats) (io : ManifestIO)
    {deleted : List (UInt64 × ℕ)}
    (hgone : ∀ file ∈ deleted, ∀ st old, s.columnFamilies.lookup cf = some st →
      st.files.lookup file.1 = some old → old.state ≠ .kPendingLSM) :
    (s.logAndApply ⟨cf, none, [], deleted⟩ io).2.Counts known issued
      (stats.run (forColumn cf (s.logAndApplyStats ⟨cf, none, [], deleted⟩ io))) := by
  have hnone : ∀ st, s.columnFamilies.lookup cf = some st →
      ∀ file ∈ ([] : List (UInt64 × BlobFileMeta)), (cf, file.1) ∈ issued ∧
        file.1 ∉ (stats cf).sized ∧ Enters file.2 := fun st _ file hfile => by cases hfile
  exact @Counts.logAndApply known issued stats s h ⟨cf, none, [], deleted⟩ io hnone hgone

theorem sized_foldl_addBlobFile {newFiles : List (UInt64 × BlobFileMeta)} (column : ColumnStats)
    {file : UInt64 × BlobFileMeta} (hfile : file ∈ newFiles) (hsize : file.2.liveDataSize ≠ 0) :
    file.1 ∈ (column.run (newFiles.flatMap fun file => addBlobFileStats file.1 file.2)).sized := by
  induction newFiles generalizing column with
  | nil => cases hfile
  | cons new newFiles ih =>
      rw [List.flatMap_cons, ColumnStats.run_append]
      rcases List.mem_cons.mp hfile with rfl | hfile
      · refine ColumnStats.sized_subset_run _ _ ?_
        rw [addBlobFileStats, if_pos hsize]
        exact List.mem_cons_self
      · exact ih _ hfile

/-- Files that are added with a live size have one from then on. -/
theorem sized_logAndApply (hst : s.columnFamilies.lookup cf = some st)
    {newFiles : List (UInt64 × BlobFileMeta)} {io : ManifestIO}
    (hok : (s.logAndApply ⟨cf, none, newFiles, []⟩ io).1.isOk) {file : UInt64 × BlobFileMeta}
    (hfile : file ∈ newFiles) (hsize : file.2.liveDataSize ≠ 0) :
    file.1 ∈ (stats.run (forColumn cf (s.logAndApplyStats ⟨cf, none, newFiles, []⟩ io)) cf).sized := by
  rcases s.logAndApplyStats_cases ⟨cf, none, newFiles, []⟩ io with ⟨-, -, hfail⟩ | ⟨st, happlies⟩
  · rw [hfail st hst] at hok
    cases hok
  · rw [happlies.calls, run_forColumn, Function.update_self, CFEditCollector.applyStats,
      ColumnStats.run_append]
    refine ColumnStats.sized_subset_run _ _ ?_
    refine sized_foldl_addBlobFile (stats cf) (mem_newFiles.mpr ⟨hfile, ?_⟩) hsize
    exact List.not_mem_nil

/-! ## The callbacks -/

theorem Counts.onFlushCompleted (h : s.Counts known issued stats) (cf : UInt32) (diff : SizeDiff) :
    (s.onFlushCompleted cf diff).1.Counts known issued
      (stats.run (s.onFlushCompletedStats cf diff)) := by
  rw [BlobFileSet.onFlushCompleted, onFlushCompletedStats]
  cases hst : s.columnFamilies.lookup cf with
  | none => exact h
  | some st =>
      have hwalk := @Walk.matches_applyDiff _ _ _ _ (fun _ _ => True) Walk.local_flushCompleted st
        diff (fun _ w number delta hw hd hc _ => hw.flushCompleted hd hc) (h.counted cf st hst)
        fun _ _ _ _ => trivial
      exact h.setStorage hst hwalk.counted

/-- What a merge deletes are files with a live size, or files of no column family 0. -/
theorem Counts.merge (h : s.Counts known issued stats) (hdistinct : (issued.map (·.2)).Nodup)
    (hst : s.columnFamilies.lookup cf = some st) {w : Walk} {calls : List StatCall}
    {options : TitanCFOptions}
    (hwalk : w.Matches (fun f => (cf, f) ∈ issued) options ((stats cf).run calls)) (seq : ℕ)
    (io : ManifestIO) :
    ((s.setStorage cf w.storage).logAndApply (mergeEdit w seq) io).2.Counts known issued
      ((stats.run (forColumn cf calls)).run (forColumn (mergeEdit w seq).columnFamilyId
        ((s.setStorage cf w.storage).logAndApplyStats (mergeEdit w seq) io))) := by
  have hset := h.setStorage hst hwalk.counted
  refine hset.logDeletions io ?_
  intro file hfile st0 old hst0 hold
  obtain ⟨f, hf, rfl⟩ := List.mem_map.mp hfile
  obtain ⟨old', hold', hsettled⟩ := hwalk.deleted f hf
  have hissued : (cf, f) ∈ issued := hwalk.counted.named f old' hold'
  have hissued0 : (0, f) ∈ issued := (hset.counted 0 st0 hst0).named f old hold
  have hcf : ((0 : UInt32), f) = (cf, f) :=
    List.inj_on_of_nodup_map hdistinct hissued0 hissued rfl
  obtain rfl : (0 : UInt32) = cf := (Prod.mk.inj hcf).1
  rw [BlobFileSet.setStorage, mergeEdit, AList.lookup_insert] at hst0
  obtain rfl := Option.some.inj hst0
  obtain rfl := Option.some.inj (hold.symm.trans hold')
  exact hsettled.2

/-- The compaction creates no file: what it reports about a `kPendingLSM` file is no gain. -/
def CreatesNone (s : BlobFileSet) (cf : UInt32) (diff : SizeDiff) : Prop :=
  ∀ st, s.columnFamilies.lookup cf = some st → ∀ e ∈ diff.entries, ∀ file,
    st.files.lookup e.1 = some file → file.state = .kPendingLSM → e.2 ≤ 0

/-- The deletion of the tables leaves the `kPendingLSM` files alone. -/
def SparesPending (o : MergeOptions) (s : BlobFileSet) (cf : UInt32) (diff : SizeDiff) : Prop :=
  ∀ st, s.columnFamilies.lookup cf = some st → ∀ e ∈ diff.entries, ∀ file,
    st.files.lookup e.1 = some file → file.state = .kPendingLSM →
      Walk.Unnoticed o st.cfOptions file e.2

theorem Counts.onCompactionCompleted (h : s.Counts known issued stats)
    (hdistinct : (issued.map (·.2)).Nodup) (o : MergeOptions) (outputLevel : ℤ) {diff : SizeDiff}
    (seq : ℕ) (io : ManifestIO) (hcreates : s.CreatesNone cf diff) :
    (s.onCompactionCompleted o cf outputLevel diff seq io).1.Counts known issued
      (stats.run (s.onCompactionCompletedStats o cf outputLevel diff seq io)) := by
  rw [BlobFileSet.onCompactionCompleted, onCompactionCompletedStats]
  cases hst : s.columnFamilies.lookup cf with
  | none => exact h
  | some st =>
      have hwalk := @Walk.matches_applyDiff _ _ _ _
        (fun file delta => file.state = .kPendingLSM → delta ≤ 0)
        (Walk.local_compactionCompleted o (countsSortedRun o st outputLevel)) st diff
        (fun _ w number delta hw hd hc hfits => hw.compactionCompleted o _ hd hc hfits)
        (h.counted cf st hst) (hcreates st hst)
      dsimp only
      rw [InternalStats.run_append, mergeStats]
      cases hmode : o.levelMerge with
      | false => exact h.setStorage hst hwalk.counted
      | true =>
          have hmerged := h.merge hdistinct hst hwalk seq io
          simp only [Bool.not_true, Bool.false_eq_true, if_false]
          split
          · exact hmerged
          · rename_i st' hst'
            refine hmerged.setFiles hst' ?_
            refine (hmerged.counted cf st' hst').transitFiles calm_kNeedMerge
              fun f hf file hfile => ?_
            -- a mark goes to a candidate, which the edit has left alone
            have hcandidate := Walk.ranges_subset st' _ (mergeMarks_subset _ _ hf)
            set w := Walk.applyDiff
              (Walk.compactionCompleted o (countsSortedRun o st outputLevel)) st diff
            obtain ⟨⟨old, hold, hsettled⟩, hnot⟩ := hwalk.candidates f hcandidate
            have hbefore : (s.setStorage cf w.storage).fileOf cf f = some old := by
              rw [fileOf_setStorage, hold]
            obtain ⟨file', hfile', hsame⟩ := fileOf_logAndApply (mergeEdit w seq) io hbefore
            rw [fileOf, hst', Option.bind_some] at hfile'
            obtain rfl := Option.some.inj (hfile.symm.trans hfile')
            rcases hsame with rfl | ⟨hdeleted, -⟩
            · exact settled_iff.mp hsettled
            · obtain ⟨d, hd, rfl⟩ := List.mem_map.mp hdeleted
              obtain ⟨number, hnumber, rfl⟩ := List.mem_map.mp hd
              exact absurd hnumber hnot

theorem Counts.deleteFilesInRanges (h : s.Counts known issued stats)
    (hdistinct : (issued.map (·.2)).Nodup) (o : MergeOptions) {diff : SizeDiff} (seq : ℕ)
    (io : ManifestIO) (hspares : s.SparesPending o cf diff) :
    (s.deleteFilesInRanges o cf diff seq io).1.Counts known issued
      (stats.run (s.deleteFilesInRangesStats o cf diff seq io)) := by
  rw [BlobFileSet.deleteFilesInRanges, deleteFilesInRangesStats]
  cases hst : s.columnFamilies.lookup cf with
  | none => exact h
  | some st =>
      have hwalk := @Walk.matches_applyDiff _ _ _ _
        (fun file delta => file.state = .kPendingLSM → Walk.Unnoticed o st.cfOptions file delta)
        (Walk.local_tablesDeleted o) st diff
        (fun _ w number delta hw hd hc hfits => hw.tablesDeleted o hd hc hfits)
        (h.counted cf st hst) (hspares st hst)
      dsimp only
      rw [InternalStats.run_append, mergeStats]
      cases hmode : o.levelMerge with
      | false => exact h.setStorage hst hwalk.counted
      | true => exact h.merge hdistinct hst hwalk seq io

/-- Column families without `kPendingLSM` files are dropped. -/
theorem Counts.dropColumnFamilies (h : s.Counts known issued stats) (seq : ℕ)
    (cfs : List (UInt32 × ManifestIO))
    (hpending : ∀ cf ∈ cfs.map (·.1), ∀ st, s.columnFamilies.lookup cf = some st →
      ∀ f file, st.files.lookup f = some file → file.state ≠ .kPendingLSM) :
    (s.dropColumnFamilies seq cfs).2.Counts known issued (stats.run (s.dropStats seq cfs)) := by
  induction cfs generalizing s stats with
  | nil => exact h
  | cons e cfs ih =>
      obtain ⟨cf, io⟩ := e
      rw [BlobFileSet.dropColumnFamilies, dropStats]
      cases hst : s.columnFamilies.lookup cf with
      | none => exact h
      | some st =>
          have hone : (s.logAndApply (dropEdit cf st seq) io).2.Counts known issued
              (stats.run (forColumn cf (s.logAndApplyStats (dropEdit cf st seq) io))) :=
            h.logDeletions io fun file _ st' old hst' hold =>
              hpending cf List.mem_cons_self st' hst' file.1 old hold
          dsimp only
          rw [InternalStats.run_append]
          split_ifs
          · exact hone
          · refine ih (hone.congr rfl) fun g hg st' hst' f file hfile => ?_
            rcases origin_logAndApply hst' hfile with ⟨-, hnew⟩ | ⟨st0, old, hst0, hold, hsame⟩
            · cases hnew
            · rcases hsame with rfl | rfl
              · exact hpending g (List.mem_cons_of_mem _ hg) st0 hst0 f file hold
              · exact fun hstate => by cases hstate

/-- Events on files of a column family, which make no calls. -/
theorem Counts.transitFiles (h : s.Counts known issued stats)
    (hst : s.columnFamilies.lookup cf = some st) {event : FileEvent} {P : FileState → Prop}
    (hcalm : event.Calm P) {numbers : List UInt64}
    (hP : ∀ f ∈ numbers, ∀ file, st.files.lookup f = some file → P file.state) :
    (s.setStorage cf (Walk.transitFiles event st numbers).storage).Counts known issued stats :=
  h.setFiles hst ((h.counted cf st hst).transitFiles hcalm hP)

end BlobFileSet

/-! ## The machine -/

/-- The machine of the blob files with the counters, and the file numbers given out so far, each with
the column family of its file. -/
structure StatsMachine where
  files : FileMachine
  issued : List (UInt32 × UInt64) := []
  stats : InternalStats := fun _ => {}

namespace StatsMachine
open FileMachine
open InternalStats (forColumn)

def opened (cfs : List (UInt32 × TitanCFOptions)) : StatsMachine where
  files := { set := openedSet cfs }

def newNumbers (m : FileMachine) : Action → List (UInt32 × UInt64)
  | .finishBlobFiles cf files _ => files.map fun file => (cf, file.1)
  | .installOutputs j _ files _ =>
    match m.jobs[j]? with
    | none => []
    | some job => files.map fun file => (job.cf, file.1)
  | _ => []

/-- A table builder does not know the live size of its file, a GC job does, and has written a record
to it. The database is not reopened. -/
def Arrives : Action → Bool
  | .finishBlobFiles _ files _ => files.all fun file => file.2.liveDataSize = 0
  | .installOutputs _ _ files _ => files.all fun file => file.2.liveDataSize ≠ 0
  | .restart _ _ => false
  | _ => true

def statCalls (c : LifecycleConfig) (m : FileMachine) : Action → List (UInt32 × StatCall)
  | .finishBlobFiles cf files io =>
    forColumn cf (m.set.logAndApplyStats (addEditOf cf .kFlushOrCompactionOutput files) io)
  | .flushCompleted cf diff => m.set.onFlushCompletedStats cf diff
  | .compactionCompleted cf outputLevel diff seq io =>
    m.set.onCompactionCompletedStats (c.merge cf) cf outputLevel diff seq io
  | .deleteFilesInRanges cf diff seq io =>
    m.set.deleteFilesInRangesStats (c.merge cf) cf diff seq io
  | .deleteBlobFilesInRanges cf ranges includeEnd seq io =>
    match m.set.columnFamilies.lookup cf with
    | none => []
    | some st =>
      forColumn cf (m.set.logAndApplyStats (BlobFileSet.rangeDeletion cf st ranges includeEnd seq) io)
  | .pickBlobGC _ => []
  | .installOutputs j _ files io =>
    match m.jobs[j]? with
    | none => []
    | some job =>
      forColumn job.cf (m.set.logAndApplyStats (addEditOf job.cf .kGCOutput files) io)
  | .rewriteValidKeys j dropped =>
    match m.jobs[j]? with
    | none => []
    | some job =>
      match m.set.columnFamilies.lookup job.cf with
      | none => []
      | some st => forColumn job.cf (BlobFileSet.rewriteDroppedStats st dropped)
  | .deleteInputBlobFiles j seq io =>
    match m.jobs[j]? with
    | none => []
    | some job => forColumn job.cf (m.set.logAndApplyStats (m.inputEdit job seq) io)
  | .releaseGcFiles _ => []
  | .dropColumnFamilies seq cfs => m.set.dropStats seq cfs
  | .restart _ _ => []

def step (c : LifecycleConfig) (m : StatsMachine) (a : Action) : Option StatsMachine :=
  -- `NewFileNumber` gives every number once, and none is zero.
  if Arrives a = true ∧ ((newNumbers m.files a).map (·.2)).Nodup ∧
      (newNumbers m.files a).all (fun n => n.2 ≠ 0 ∧ n.2 ∉ m.issued.map (·.2)) then
    (FileMachine.step c m.files a).map fun files =>
      ⟨files, newNumbers m.files a ++ m.issued, m.stats.run (statCalls c m.files a)⟩
  else none

/-- The step changes no file whose live size is unknown, and no obsolete one, as if it were counted;
if it is a compaction, it creates no blob file. -/
def Bracketed (c : LifecycleConfig) (m : StatsMachine) : Action → Prop
  | .compactionCompleted cf _ diff _ _ => m.files.set.CreatesNone cf diff
  | .deleteFilesInRanges cf diff _ _ => m.files.set.SparesPending (c.merge cf) cf diff
  | .deleteBlobFilesInRanges cf ranges includeEnd _ _ =>
    ∀ st, m.files.set.columnFamilies.lookup cf = some st →
      ∀ f ∈ st.getBlobFilesInRanges ranges includeEnd, ∀ file,
        st.files.lookup f = some file → file.state ≠ .kPendingLSM
  | .rewriteValidKeys j dropped =>
    ∀ job st, m.files.jobs[j]? = some job → m.files.set.columnFamilies.lookup job.cf = some st →
      ∀ d ∈ dropped, ∀ file, st.files.lookup d.1 = some file →
        file.state ≠ .kObsolete ∧ file.state ≠ .kPendingLSM
  | .dropColumnFamilies _ cfs =>
    ∀ cf ∈ cfs.map (·.1), ∀ st, m.files.set.columnFamilies.lookup cf = some st →
      ∀ f file, st.files.lookup f = some file → file.state ≠ .kPendingLSM
  | _ => True

/-- The counters match the files, and the files of the jobs have their live size. -/
structure Balanced (known : UInt32 → Prop) (m : StatsMachine) : Prop where
  set : m.files.set.Counts known m.issued m.stats
  distinct : (m.issued.map (·.2)).Nodup
  jobs : ∀ job ∈ m.files.jobs, known job.cf ∧
    ∀ f ∈ job.inputs ++ job.outputs, f ∈ (m.stats job.cf).sized

variable {known : UInt32 → Prop} {c : LifecycleConfig} {m m' : StatsMachine}

/-- A step that keeps the counters right; its jobs are old ones, or have files with live sizes. -/
theorem Balanced.of_set (h : m.Balanced known) {files' : FileMachine} {new : List (UInt32 × UInt64)}
    {calls : List (UInt32 × StatCall)}
    (hset : files'.set.Counts known (new ++ m.issued) (m.stats.run calls))
    (hdistinct : ((new ++ m.issued).map (·.2)).Nodup)
    (hjobs : ∀ job ∈ files'.jobs, (∃ old ∈ m.files.jobs, old.cf = job.cf ∧
        old.inputs ++ old.outputs = job.inputs ++ job.outputs) ∨
      known job.cf ∧ ∀ f ∈ job.inputs ++ job.outputs, f ∈ (m.stats.run calls job.cf).sized) :
    Balanced known ⟨files', new ++ m.issued, m.stats.run calls⟩ := by
  refine ⟨hset, hdistinct, fun job hjob => ?_⟩
  rcases hjobs job hjob with ⟨old, hold, hcf, hsame⟩ | hnew
  · obtain ⟨hknown, hsized⟩ := h.jobs old hold
    rw [hcf] at hknown hsized
    refine ⟨hknown, fun f hf => m.stats.sized_subset_run calls job.cf (hsized f ?_)⟩
    rw [hsame]
    exact hf
  · exact hnew

/-- A step without new jobs and without new numbers. -/
theorem Balanced.evolved (h : m.Balanced known) {files' : FileMachine}
    {calls : List (UInt32 × StatCall)}
    (hset : files'.set.Counts known m.issued (m.stats.run calls))
    (hjobs : files'.jobs = m.files.jobs) :
    Balanced known ⟨files', [] ++ m.issued, m.stats.run calls⟩ :=
  h.of_set hset h.distinct fun job hjob => Or.inl ⟨job, hjobs ▸ hjob, rfl, rfl⟩

/-- A step that brings a job to another stage. -/
theorem Balanced.staged (h : m.Balanced known) {files' : FileMachine}
    {calls : List (UInt32 × StatCall)} {j : ℕ} {job job' : GcJob}
    (hset : files'.set.Counts known m.issued (m.stats.run calls))
    (hj : m.files.jobs[j]? = some job) (hjobs : files'.jobs = m.files.jobs.set j job')
    (hcf : job.cf = job'.cf) (hsame : job.inputs ++ job.outputs = job'.inputs ++ job'.outputs) :
    Balanced known ⟨files', [] ++ m.issued, m.stats.run calls⟩ := by
  refine h.of_set hset h.distinct fun g hg => Or.inl ?_
  rw [hjobs] at hg
  rcases List.mem_or_eq_of_mem_set hg with hg | rfl
  · exact ⟨g, hg, rfl, rfl⟩
  · exact ⟨job, List.mem_of_getElem? hj, hcf, hsame⟩

/-- The files of a job are not `kPendingLSM`. -/
theorem Balanced.job_files (h : m.Balanced known) {job : GcJob} (hjob : job ∈ m.files.jobs)
    {st : BlobStorage} (hst : m.files.set.columnFamilies.lookup job.cf = some st) {f : UInt64}
    (hf : f ∈ job.inputs ++ job.outputs) {file : BlobFileMeta} (hfile : st.files.lookup f = some file) :
    file.state ≠ .kPendingLSM :=
  (h.set.counted job.cf st hst).not_pending_of_sized hfile ((h.jobs job hjob).2 f hf)

/-- Files are added that no column family has had before. -/
theorem Balanced.added (h : m.Balanced known) {cf : UInt32} {event : FileEvent}
    {files : List (UInt64 × BlobFileMeta)} (io : ManifestIO)
    (hfresh : ∀ file ∈ files, file.1 ≠ 0 ∧ file.1 ∉ m.issued.map (·.2))
    (henters : ∀ file ∈ files,
      Enters { file.2 with state := FileState.kInit.after event }) :
    (m.files.set.logAndApply (addEditOf cf event files) io).2.Counts known
      ((files.map fun file => (cf, file.1)) ++ m.issued)
      (m.stats.run (forColumn cf (m.files.set.logAndApplyStats (addEditOf cf event files) io))) := by
  have hzero : ∀ n ∈ files.map fun file => (cf, file.1), n.2 ≠ 0 := by
    intro n hn
    obtain ⟨file, hfile, rfl⟩ := List.mem_map.mp hn
    exact (hfresh file hfile).1
  refine @BlobFileSet.Counts.logAndApply _ _ _ _ (h.set.issue hzero) (addEditOf cf event files) io ?_
    fun file hfile => by cases hfile
  intro st hst file hfile
  obtain ⟨old, hold, rfl⟩ := List.mem_map.mp hfile
  refine ⟨List.mem_append_left _ (List.mem_map.mpr ⟨old, hold, rfl⟩), fun hsized => ?_,
    henters old hold⟩
  have hmine := (h.set.counted cf st hst).sized old.1 hsized
  exact (hfresh old hold).2 (List.mem_map_of_mem hmine)

/-! ## The steps -/

theorem finishBlobFiles_balanced {cf : UInt32} {files : List (UInt64 × BlobFileMeta)}
    {io : ManifestIO} {files' : FileMachine} (h : m.Balanced known)
    (harrives : ∀ file ∈ files, file.2.liveDataSize = 0)
    (hfresh : ∀ file ∈ files, file.1 ≠ 0 ∧ file.1 ∉ m.issued.map (·.2))
    (hdistinct : (((files.map fun file => (cf, file.1)) ++ m.issued).map (·.2)).Nodup)
    (hs : FileMachine.step c m.files (.finishBlobFiles cf files io) = some files') :
    Balanced known ⟨files', (files.map fun file => (cf, file.1)) ++ m.issued,
      m.stats.run (statCalls c m.files (.finishBlobFiles cf files io))⟩ := by
  obtain rfl := Option.some.inj hs
  have henters : ∀ file ∈ files,
      Enters { file.2 with state := FileState.kInit.after .kFlushOrCompactionOutput } := by
    intro file hfile
    refine ⟨rfl, ?_⟩
    exact iff_of_false (not_not.mpr (harrives file hfile)) (not_not.mpr rfl)
  exact h.of_set (h.added io hfresh henters) hdistinct fun job hjob => Or.inl ⟨job, hjob, rfl, rfl⟩

theorem installOutputs_balanced {j : ℕ} {offload : Bool} {files : List (UInt64 × BlobFileMeta)}
    {io : ManifestIO} {job : GcJob} {files' : FileMachine} (h : m.Balanced known)
    (hj : m.files.jobs[j]? = some job) (harrives : ∀ file ∈ files, file.2.liveDataSize ≠ 0)
    (hfresh : ∀ file ∈ files, file.1 ≠ 0 ∧ file.1 ∉ m.issued.map (·.2))
    (hdistinct : (((files.map fun file => (job.cf, file.1)) ++ m.issued).map (·.2)).Nodup)
    (hs : FileMachine.step c m.files (.installOutputs j offload files io) = some files') :
    Balanced known ⟨files', (files.map fun file => (job.cf, file.1)) ++ m.issued,
      m.stats.run (forColumn job.cf
        (m.files.set.logAndApplyStats (addEditOf job.cf .kGCOutput files) io))⟩ := by
  have henters : ∀ file ∈ files, Enters { file.2 with state := FileState.kInit.after .kGCOutput } := by
    intro file hfile
    refine ⟨rfl, iff_of_true (harrives file hfile) fun hstate => ?_⟩
    cases hstate
  have hset : (m.files.set.logAndApply (addEditOf job.cf .kGCOutput files) io).2.Counts known _ _ :=
    h.added io hfresh henters
  have hjob : job ∈ m.files.jobs := List.mem_of_getElem? hj
  obtain ⟨hknown, hsized⟩ := h.jobs job hjob
  simp only [FileMachine.step, hj] at hs
  by_cases hstage : job.stage = .picked
  case neg =>
    rw [if_neg hstage] at hs
    cases hs
  rw [if_pos hstage] at hs
  by_cases hok : (m.files.set.logAndApply (addEditOf job.cf .kGCOutput files) io).1.isOk = true
  · rw [if_pos hok] at hs
    obtain rfl := Option.some.inj hs
    refine h.of_set hset hdistinct fun g hg => ?_
    rcases List.mem_or_eq_of_mem_set hg with hg | rfl
    · exact Or.inl ⟨g, hg, rfl, rfl⟩
    · refine Or.inr ⟨hknown, fun f hf => ?_⟩
      rcases List.mem_append.mp hf with hf | hf
      · exact m.stats.sized_subset_run _ _ (hsized f (List.mem_append_left _ hf))
      · obtain ⟨file, hfile, rfl⟩ := List.mem_map.mp hf
        obtain ⟨st, hst⟩ := Option.isSome_iff_exists.mp ((h.set.known_iff job.cf).mpr hknown)
        exact @BlobFileSet.sized_logAndApply m.stats _ _ _ hst _ _ hok
          (file.1, { file.2 with state := FileState.kInit.after .kGCOutput })
          (List.mem_map.mpr ⟨file, hfile, rfl⟩) (harrives file hfile)
  · rw [if_neg hok] at hs
    obtain rfl := Option.some.inj hs
    refine h.of_set hset hdistinct fun g hg => ?_
    rcases List.mem_or_eq_of_mem_set hg with hg | rfl
    · exact Or.inl ⟨g, hg, rfl, rfl⟩
    · exact Or.inl ⟨job, hjob, rfl, rfl⟩

theorem pickBlobGC_balanced {cf : UInt32} {files' : FileMachine} (h : m.Balanced known)
    (hs : FileMachine.step c m.files (.pickBlobGC cf) = some files') :
    Balanced known ⟨files', [] ++ m.issued, m.stats.run []⟩ := by
  simp only [FileMachine.step] at hs
  split at hs
  · obtain rfl := Option.some.inj hs
    exact h
  · rename_i st hst
    split at hs
    · obtain rfl := Option.some.inj hs
      exact h
    · rename_i inputs hinputs
      obtain rfl := Option.some.inj hs
      split_ifs at hinputs
      obtain ⟨-, hnormal⟩ := pickBlobGC_normal hinputs
      have hset := h.set.transitFiles hst calm_kGCBegin fun f hf file hfile => by
        obtain ⟨file', hfile', hstate⟩ := hnormal f hf
        obtain rfl := Option.some.inj (hfile.symm.trans hfile')
        exact Or.inl hstate
      refine h.of_set hset h.distinct fun job hjob => ?_
      rcases List.mem_append.mp hjob with hjob | hjob
      · exact Or.inl ⟨job, hjob, rfl, rfl⟩
      · obtain rfl := List.mem_singleton.mp hjob
        refine Or.inr ⟨(h.set.known_iff cf).mp (by rw [hst]; rfl), fun f hf => ?_⟩
        rw [List.append_nil] at hf
        obtain ⟨file, hfile, hstate⟩ := hnormal f hf
        have hsettled : Settled file := settled_iff.mpr (by rw [hstate]; decide)
        exact ((h.set.counted cf st hst).sized_iff f file hfile hsettled.1).mpr hsettled.2

theorem rewriteValidKeys_balanced {j : ℕ} {dropped : List (UInt64 × UInt64)} {files' : FileMachine}
    (h : m.Balanced known) (ha : Bracketed c m (.rewriteValidKeys j dropped))
    (hs : FileMachine.step c m.files (.rewriteValidKeys j dropped) = some files') :
    Balanced known ⟨files', [] ++ m.issued,
      m.stats.run (statCalls c m.files (.rewriteValidKeys j dropped))⟩ := by
  cases hj : m.files.jobs[j]? with
  | none => simp only [FileMachine.step, hj, reduceCtorEq] at hs
  | some job =>
      simp only [FileMachine.step, hj] at hs
      simp only [statCalls, hj]
      split_ifs at hs
      cases hst : m.files.set.columnFamilies.lookup job.cf with
      | none =>
          simp only [hst] at hs
          obtain rfl := Option.some.inj hs
          exact h.staged h.set hj rfl rfl rfl
      | some st =>
          simp only [hst] at hs
          obtain rfl := Option.some.inj hs
          have hcounted := (h.set.counted job.cf st hst).rewriteDropped fun d hd file hfile =>
            settled_iff.mpr (ha job st hj hst d hd file hfile)
          exact h.staged (h.set.setStorage hst hcounted) hj rfl rfl rfl

theorem deleteInputBlobFiles_balanced {j seq : ℕ} {io : ManifestIO} {files' : FileMachine}
    (h : m.Balanced known)
    (hs : FileMachine.step c m.files (.deleteInputBlobFiles j seq io) = some files') :
    Balanced known ⟨files', [] ++ m.issued,
      m.stats.run (statCalls c m.files (.deleteInputBlobFiles j seq io))⟩ := by
  cases hj : m.files.jobs[j]? with
  | none => simp only [FileMachine.step, hj, reduceCtorEq] at hs
  | some job =>
      simp only [FileMachine.step, hj] at hs
      simp only [statCalls, hj]
      split_ifs at hs
      obtain rfl := Option.some.inj hs
      have hjob : job ∈ m.files.jobs := List.mem_of_getElem? hj
      refine h.staged (h.set.logDeletions io fun file hfile st old hst hold => ?_) hj rfl rfl rfl
      obtain ⟨f, hf, rfl⟩ := List.mem_map.mp hfile
      exact h.job_files hjob hst (List.mem_append_left _ (List.mem_filter.mp hf).1) hold

theorem releaseGcFiles_balanced {j : ℕ} {files' : FileMachine} (h : m.Balanced known)
    (hs : FileMachine.step c m.files (.releaseGcFiles j) = some files') :
    Balanced known ⟨files', [] ++ m.issued, m.stats.run []⟩ := by
  cases hj : m.files.jobs[j]? with
  | none => simp only [FileMachine.step, hj, reduceCtorEq] at hs
  | some job =>
      simp only [FileMachine.step, hj] at hs
      obtain rfl := Option.some.inj hs
      have hjob : job ∈ m.files.jobs := List.mem_of_getElem? hj
      have hset : (m.files.release job).set.Counts known m.issued m.stats := by
        rw [FileMachine.release]
        split
        · exact h.set
        · rename_i st hst
          exact h.set.transitFiles hst calm_kGCCompleted fun f hf file hfile =>
            h.job_files hjob hst hf hfile
      exact h.of_set hset h.distinct fun g hg =>
        Or.inl ⟨g, List.mem_of_mem_eraseIdx hg, rfl, rfl⟩

theorem Balanced.fileStep {a : Action} {files' : FileMachine} (h : m.Balanced known)
    (ha : Bracketed c m a) (harrives : Arrives a = true)
    (hfresh : ∀ n ∈ newNumbers m.files a, n.2 ≠ 0 ∧ n.2 ∉ m.issued.map (·.2))
    (hdistinct : ((newNumbers m.files a ++ m.issued).map (·.2)).Nodup)
    (hs : FileMachine.step c m.files a = some files') :
    Balanced known
      ⟨files', newNumbers m.files a ++ m.issued, m.stats.run (statCalls c m.files a)⟩ := by
  cases a with
  | finishBlobFiles cf files io =>
      have hsizes : ∀ file ∈ files, file.2.liveDataSize = 0 := fun file hfile =>
        of_decide_eq_true (List.all_eq_true.mp harrives file hfile)
      exact finishBlobFiles_balanced h hsizes
        (fun file hfile => hfresh (cf, file.1) (List.mem_map.mpr ⟨file, hfile, rfl⟩)) hdistinct hs
  | flushCompleted cf diff =>
      obtain rfl := Option.some.inj hs
      exact h.evolved (h.set.onFlushCompleted cf diff) rfl
  | compactionCompleted cf outputLevel diff seq io =>
      obtain rfl := Option.some.inj hs
      exact h.evolved (h.set.onCompactionCompleted h.distinct (c.merge cf) outputLevel seq io ha) rfl
  | deleteFilesInRanges cf diff seq io =>
      obtain rfl := Option.some.inj hs
      exact h.evolved (h.set.deleteFilesInRanges h.distinct (c.merge cf) seq io ha) rfl
  | deleteBlobFilesInRanges cf ranges includeEnd seq io =>
      rw [FileMachine.step] at hs
      rw [statCalls]
      cases hst : m.files.set.columnFamilies.lookup cf with
      | none =>
          rw [hst] at hs
          obtain rfl := Option.some.inj hs
          exact h
      | some st =>
          rw [hst] at hs
          obtain rfl := Option.some.inj hs
          refine h.evolved (h.set.logDeletions io fun file hfile st' old hst' hold => ?_) rfl
          obtain ⟨f, hf, rfl⟩ := List.mem_map.mp hfile
          obtain rfl := Option.some.inj (hst.symm.trans hst')
          exact ha st hst f hf old hold
  | pickBlobGC cf => exact pickBlobGC_balanced h hs
  | installOutputs j offload files io =>
      cases hj : m.files.jobs[j]? with
      | none => simp only [FileMachine.step, hj, reduceCtorEq] at hs
      | some job =>
          have hsizes : ∀ file ∈ files, file.2.liveDataSize ≠ 0 := fun file hfile =>
            of_decide_eq_true (List.all_eq_true.mp harrives file hfile)
          simp only [newNumbers, hj] at hfresh hdistinct
          simp only [newNumbers, statCalls, hj]
          exact installOutputs_balanced h hj hsizes
            (fun file hfile => hfresh (job.cf, file.1) (List.mem_map.mpr ⟨file, hfile, rfl⟩)) hdistinct
            hs
  | rewriteValidKeys j dropped => exact rewriteValidKeys_balanced h ha hs
  | deleteInputBlobFiles j seq io => exact deleteInputBlobFiles_balanced h hs
  | releaseGcFiles j => exact releaseGcFiles_balanced h hs
  | dropColumnFamilies seq cfs =>
      obtain rfl := Option.some.inj hs
      exact h.evolved (h.set.dropColumnFamilies seq cfs ha) rfl
  | restart recovered initialized => cases harrives

/-- A step that meets the condition keeps the counters right. -/
theorem Balanced.step {a : Action} (h : m.Balanced known) (ha : Bracketed c m a)
    (hs : step c m a = some m') : m'.Balanced known := by
  rw [StatsMachine.step] at hs
  split_ifs at hs with hguard
  obtain ⟨harrives, hn, hall⟩ := hguard
  obtain ⟨files', hfiles, rfl⟩ := Option.map_eq_some_iff.mp hs
  have hfresh : ∀ n ∈ newNumbers m.files a, n.2 ≠ 0 ∧ n.2 ∉ m.issued.map (·.2) := fun n hmem =>
    of_decide_eq_true (List.all_eq_true.mp hall n hmem)
  have hdistinct : ((newNumbers m.files a ++ m.issued).map (·.2)).Nodup := by
    rw [List.map_append]
    refine List.nodup_append'.mpr ⟨hn, h.distinct, fun f hf hissued => ?_⟩
    obtain ⟨n, hmem, rfl⟩ := List.mem_map.mp hf
    exact (hfresh n hmem).2 hissued
  exact h.fileStep ha harrives hfresh hdistinct hfiles

theorem balanced_opened (cfs : List (UInt32 × TitanCFOptions)) :
    (opened cfs).Balanced fun cf => ((openedSet cfs).columnFamilies.lookup cf).isSome := by
  refine ⟨⟨fun cf st hst => ?_, fun cf => Iff.rfl⟩, List.nodup_nil, fun job hjob => by cases hjob⟩
  rw [(openedSet_fresh cfs).files hst]
  constructor
  case shows => exact Counters.shows_zero
  case sized_iff => exact fun f file hfile => by cases hfile
  case named => exact fun f file hfile => by cases hfile
  case sized => exact fun f hf => by cases hf
  case zero => exact List.not_mem_nil

end StatsMachine

/-! ## What the counters show -/

/-- The files that are not obsolete and whose live size has been set. -/
def BlobStorage.sizedFiles (st : BlobStorage) (sized : List UInt64) :
    List ((_ : UInt64) × BlobFileMeta) :=
  st.files.entries.filter fun e => !e.2.isObsolete && decide (e.1 ∈ sized)

/-- Together the five counters show how many files have a live size, each of them how many at its
level, and none has ever gone below zero. -/
structure ColumnStats.Exact (stats : ColumnStats) (st : BlobStorage) : Prop where
  sum : ∑ type, (stats.counters.value type).toNat = (st.sizedFiles stats.sized).length
  each : ∀ type, (stats.counters.value type).toNat =
    (st.sizedFiles stats.sized).countP fun e => e.2.getDiscardableRatioLevel = type
  unwrapped : stats.counters.wrapped = false

theorem ColumnStats.isSome_levelOf (stats : ColumnStats) (f : UInt64) (file : BlobFileMeta) :
    (stats.levelOf f file).isSome = (!file.isObsolete && decide (f ∈ stats.sized)) := by
  rw [levelOf]
  cases !file.isObsolete && decide (f ∈ stats.sized) with
  | false => rfl
  | true => rfl

theorem ColumnStats.levelOf_eq_some_iff {stats : ColumnStats} {f : UInt64} {file : BlobFileMeta}
    {type : StatsType} : stats.levelOf f file = some type ↔
      file.getDiscardableRatioLevel = type ∧ (!file.isObsolete && decide (f ∈ stats.sized)) := by
  rw [levelOf]
  cases !file.isObsolete && decide (f ∈ stats.sized) with
  | false => simp
  | true => simp

theorem Counted.exact {mine : UInt64 → Prop} {stats : ColumnStats} {st : BlobStorage}
    (h : Counted mine stats st.files) : stats.Exact st where
  sum := by
    simp only [h.shows.value]
    rw [sum_count, BlobStorage.sizedFiles, ← List.countP_eq_length_filter]
    simp only [ColumnStats.isSome_levelOf]
  each type := by
    rw [h.shows.value, count, BlobStorage.sizedFiles, List.countP_filter]
    simp only [ColumnStats.levelOf_eq_some_iff, Bool.decide_and, Bool.decide_eq_true]
  unwrapped := h.shows.unwrapped

namespace StatsMachine
open FileMachine
open InternalStats (forColumn)

def Exact (m : StatsMachine) : Prop :=
  ∀ cf st, m.files.set.columnFamilies.lookup cf = some st → (m.stats cf).Exact st

/-- In every run whose steps meet the condition the counters are exact in every column family. -/
theorem ratioCounters_exact {c : LifecycleConfig} {cfs : List (UInt32 × TitanCFOptions)}
    {as : List Action} {m : StatsMachine} (hmeets : Meets (step c) (Bracketed c) (opened cfs) as)
    (hrun : run (step c) (opened cfs) as = some m) : m.Exact := by
  have hbalanced := run_invariant (fun m a m' h ha hs => Balanced.step h ha hs)
    (balanced_opened cfs) hmeets hrun
  exact fun cf st hst => (hbalanced.set.counted cf st hst).exact

def softwareConfig : LifecycleConfig := ⟨fun _ => ⟨false, false, 1⟩, fun _ => ⟨0, 200⟩⟩

def oneColumn : List (UInt32 × TitanCFOptions) := [(0, ⟨bytewise, 7, 8388608, 0.5⟩)]

/-- A file is flushed, loses data to a compaction and to a deletion of tables, and is deleted. -/
def bracketedRun : List Action :=
  [.finishBlobFiles 0 [(8, smallFile)] ioOk, .flushCompleted 0 (AList.singleton 8 100),
    .compactionCompleted 0 6 (AList.singleton 8 (-20)) 4 ioOk,
    .deleteFilesInRanges 0 (AList.singleton 8 (-10)) 5 ioOk,
    .deleteBlobFilesInRanges 0 [(none, none)] true 6 ioOk]

theorem bracketedRun_exact : ∃ m, run (step softwareConfig) (opened oneColumn) bracketedRun = some m ∧
    m.Exact := by
  have hmeets : Meets (step softwareConfig) (Bracketed softwareConfig) (opened oneColumn)
      bracketedRun := by
    refine .cons rfl trivial (.cons rfl trivial (.cons rfl ?_ (.cons rfl ?_ (.cons rfl ?_ trivial))))
    · intro st _ e he file _ _
      rw [List.mem_singleton.mp he]
      decide
    · intro st hst e he file hfile hstate
      obtain rfl := List.mem_singleton.mp he
      obtain rfl := Option.some.inj hst
      obtain rfl := Option.some.inj hfile
      cases hstate
    · intro st hst f hf file hfile hstate
      obtain rfl := Option.some.inj hst
      obtain rfl := List.mem_singleton.mp hf
      obtain rfl := Option.some.inj hfile
      cases hstate
  exact ⟨_, rfl, ratioCounters_exact hmeets rfl⟩

/-! ## A compaction that creates a file -/

/-- The file is added by the branch for `kPendingLSM` files, and again at the end of the round. -/
theorem compactionCompletedStats_creating (o : MergeOptions) (countSortedRun : Bool) {w : Walk}
    {number : UInt64} {delta : ℤ} {file : BlobFileMeta}
    (hfile : w.storage.files.lookup number = some file) (hstate : file.state = .kPendingLSM)
    (hdelta : 0 < delta) : Walk.compactionCompletedStats o countSortedRun w number delta =
      [.setLiveDataSize number, .addStats (file.settle delta).getDiscardableRatioLevel,
        .addStats (file.settle delta).getDiscardableRatioLevel] := by
  have hnot : ¬delta ≤ 0 := not_le.mpr hdelta
  have hfiles : (Walk.compactionCompleted o countSortedRun w number delta).storage.files =
      w.storage.files.insert number { file.settle delta with
        state := (file.settle delta).state.after .kCompactionCompleted } := by
    simp only [Walk.compactionCompleted, hfile, hstate, Walk.pendingCompacted, if_neg hnot]
    split_ifs
    · rfl
    · rfl
  simp only [Walk.compactionCompletedStats, Walk.addAfter_eq hfiles (Or.inl rfl), hfile, hstate,
    if_neg hnot]
  rfl

/-- The blob file of a compaction, and the callback of the compaction. -/
def creatingRun : List Action :=
  [.finishBlobFiles 0 [(8, smallFile)] ioOk, .compactionCompleted 0 6 (AList.singleton 8 100) 4 ioOk]

theorem sum_add_add (type : StatsType) :
    ∑ t, (((({} : Counters StatsType).add type).add type).value t).toNat = 2 := by
  cases type <;> rfl

theorem creatingRun_notExact : ¬∀ (c : LifecycleConfig) (cfs : List (UInt32 × TitanCFOptions))
    (as : List Action) (m : StatsMachine), run (step c) (opened cfs) as = some m → m.Exact := by
  intro h
  have hexact := h softwareConfig oneColumn creatingRun _ rfl 0 _ rfl
  have hsum := hexact.sum
  have htwice := sum_add_add (smallFile.settle 100).getDiscardableRatioLevel
  change ∑ t, (((({} : Counters StatsType).add (smallFile.settle 100).getDiscardableRatioLevel).add
    (smallFile.settle 100).getDiscardableRatioLevel).value t).toNat = 1 at hsum
  rw [htwice] at hsum
  cases hsum

end StatsMachine

end AegonKV
