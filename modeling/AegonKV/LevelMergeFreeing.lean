import AegonKV.CallbackAging
import AegonKV.CallbackOrder

/-!
# What a level merge frees

With level merge on, a compaction and a deletion of tables put the files that have lost their last
live data into one edit. The column family of the edit is never set, so that it goes to family 0
whatever family the event is about, and the result of `LogAndApply` is ignored. In family 0 every
emptied file gets obsolete; in any other family none does.
-/

namespace AegonKV
open LittleEndian

inductive MergeEvent
  | compactionCompleted (outputLevel : ℤ)
  | deleteFilesInRanges

namespace MergeEvent
variable (event : MergeEvent) (o : MergeOptions)

def handle (s : BlobFileSet) (cf : UInt32) (diff : SizeDiff) (seq : ℕ) (io : ManifestIO) :
    BlobFileSet :=
  match event with
  | .compactionCompleted outputLevel => (s.onCompactionCompleted o cf outputLevel diff seq io).1
  | .deleteFilesInRanges => (s.deleteFilesInRanges o cf diff seq io).1

def round (st : BlobStorage) : Walk → UInt64 → ℤ → Walk :=
  match event with
  | .compactionCompleted outputLevel =>
    Walk.compactionCompleted o (BlobFileSet.countsSortedRun o st outputLevel)
  | .deleteFilesInRanges => Walk.tablesDeleted o

def walk (st : BlobStorage) (diff : SizeDiff) : Walk := Walk.applyDiff (event.round o st) st diff

/-- The event puts the file into its edit. -/
def deletes (file : BlobFileMeta) (delta : ℤ) : Bool :=
  match event with
  | .compactionCompleted _ =>
    match file.state with
    | .kPendingLSM => decide (0 < delta) && (file.settle delta).noLiveData
    | .kNormal | .kToMerge => (file.updateLiveDataSize delta).noLiveData
    | _ => false
  | .deleteFilesInRanges => !file.isObsolete && (file.updateLiveDataSize delta).noLiveData

def deletesIn (st : BlobStorage) (e : (_ : UInt64) × ℤ) : Bool :=
  (st.files.lookup e.1).any fun file => event.deletes file e.2

end MergeEvent

/-! ## What is to be freed -/

/-- A normal or marked file that loses its last live data. -/
def Emptied (st : BlobStorage) (diff : SizeDiff) (n : UInt64) : Prop :=
  ∃ file delta, st.files.lookup n = some file ∧ (file.state = .kNormal ∨ file.state = .kToMerge) ∧
    diff.lookup n = some delta ∧ file.noLiveData = false ∧
      (file.updateLiveDataSize delta).noLiveData = true

/-- The records say that the file of the column family is deleted. -/
def RecordsDeletion (records : List Bytes) (cf : UInt32) (n : UInt64) : Prop :=
  ∃ record ∈ records, ∃ edit, VersionEdit.decodeFrom record = .ok edit ∧
    edit.columnFamilyId = cf ∧ n ∈ edit.deletedFiles.map (·.1)

/-- The emptied files of the column family are obsolete and recorded as deleted, and the files of
the other families are in the states they were in. -/
structure FreesEmptied (s s' : BlobFileSet) (cf : UInt32) (st : BlobStorage) (diff : SizeDiff) :
    Prop where
  obsolete : ∀ n, Emptied st diff n → ∃ file, s'.fileOf cf n = some file ∧ file.state = .kObsolete
  recorded : ∀ n, Emptied st diff n → ∃ records, s'.manifest = s.manifest ++ records ∧
    RecordsDeletion records cf n
  others : ∀ g ≠ cf, ∀ n, (s'.fileOf g n).map (·.state) = (s.fileOf g n).map (·.state)

/-- All files that the event deletes are live files of family 0. -/
def HitsDefault (s : BlobFileSet) (event : MergeEvent) (st : BlobStorage) (diff : SizeDiff) : Prop :=
  (∃ e ∈ diff.entries, event.deletesIn st e = true) ∧
    ∀ e ∈ diff.entries, event.deletesIn st e = true →
      ∃ file, s.fileOf 0 e.1 = some file ∧ file.isObsolete = false

/-! ## The files of the edit -/

variable {event : MergeEvent} {o : MergeOptions} {st : BlobStorage} {diff : SizeDiff} {n : UInt64}

namespace MergeEvent

theorem local_round (event : MergeEvent) (o : MergeOptions) (st : BlobStorage) :
    Walk.Local (event.round o st) := by
  cases event with
  | compactionCompleted outputLevel => exact Walk.local_compactionCompleted o _
  | deleteFilesInRanges => exact Walk.local_tablesDeleted o

theorem deleted_liveCompacted (hmerge : o.levelMerge = true) (countSortedRun : Bool) (w : Walk)
    (number : UInt64) (file : BlobFileMeta) (delta : ℤ) :
    (Walk.liveCompacted o countSortedRun w number file delta).deleted =
      w.deleted ++ if (file.updateLiveDataSize delta).noLiveData then [number] else [] := by
  rw [Walk.liveCompacted, hmerge]
  cases (file.updateLiveDataSize delta).noLiveData with
  | true => rfl
  | false =>
      rw [if_neg Bool.false_ne_true, if_neg Bool.false_ne_true, List.append_nil]
      split_ifs <;> rfl

theorem deleted_round (hmerge : o.levelMerge = true) (w : Walk) (e : (_ : UInt64) × ℤ) :
    (event.round o st w e.1 e.2).deleted =
      w.deleted ++ if event.deletesIn w.storage e then [e.1] else [] := by
  cases event with
  | compactionCompleted outputLevel =>
      change (Walk.compactionCompleted o _ w e.1 e.2).deleted = _
      rw [Walk.compactionCompleted, deletesIn]
      cases w.storage.files.lookup e.1 with
      | none => exact (List.append_nil _).symm
      | some file =>
          rw [Option.any_some, deletes]
          dsimp only
          cases file.state with
          | kPendingLSM =>
              dsimp only
              rw [Walk.pendingCompacted]
              by_cases hdelta : e.2 ≤ 0
              · rw [if_pos hdelta, decide_eq_false (by omega : ¬0 < e.2)]
                exact (List.append_nil _).symm
              · rw [if_neg hdelta, decide_eq_true (by omega : 0 < e.2), Bool.true_and]
                dsimp only
                cases (file.settle e.2).noLiveData with
                | true => rfl
                | false => exact (List.append_nil _).symm
          | kNormal => exact deleted_liveCompacted hmerge _ w e.1 file e.2
          | kToMerge => exact deleted_liveCompacted hmerge _ w e.1 file e.2
          | kInit => exact (List.append_nil _).symm
          | kBeingGC => exact (List.append_nil _).symm
          | kPendingGC => exact (List.append_nil _).symm
          | kObsolete => exact (List.append_nil _).symm
  | deleteFilesInRanges =>
      change (Walk.tablesDeleted o w e.1 e.2).deleted = _
      rw [Walk.tablesDeleted, deletesIn]
      cases w.storage.files.lookup e.1 with
      | none => exact (List.append_nil _).symm
      | some file =>
          rw [Option.any_some, deletes]
          dsimp only
          cases file.isObsolete with
          | true => exact (List.append_nil _).symm
          | false =>
              rw [hmerge]
              cases (file.updateLiveDataSize e.2).noLiveData with
              | true => rfl
              | false =>
                  refine Eq.trans ?_ (List.append_nil _).symm
                  split_ifs <;> rfl

theorem deleted_walk (hmerge : o.levelMerge = true) (event : MergeEvent) (st : BlobStorage)
    (diff : SizeDiff) :
    (event.walk o st diff).deleted = (diff.entries.filter (event.deletesIn st)).map (·.1) := by
  refine Walk.applyDiff_induction
    (P := fun done w => w.deleted = (done.filter (event.deletesIn st)).map (·.1))
    (event.local_round o st) rfl ?_
  intro done w e _ hsame hdeleted
  have hsees : event.deletesIn w.storage e = event.deletesIn st e := by
    rw [deletesIn, deletesIn, hsame]
  rw [deleted_round hmerge, hdeleted, hsees, List.filter_append, List.map_append]
  cases hd : event.deletesIn st e with
  | true => rw [List.filter_cons_of_pos hd, if_pos rfl]; rfl
  | false => rw [List.filter_cons_of_neg (by rw [hd]; exact Bool.false_ne_true)]; rfl

theorem mem_deleted_walk (hmerge : o.levelMerge = true) :
    n ∈ (event.walk o st diff).deleted ↔ ∃ e ∈ diff.entries, event.deletesIn st e = true ∧ e.1 = n := by
  simp only [deleted_walk hmerge, List.mem_map, List.mem_filter, and_assoc]

theorem nodup_deleted_walk (hmerge : o.levelMerge = true) (event : MergeEvent) (st : BlobStorage)
    (diff : SizeDiff) : (event.walk o st diff).deleted.Nodup := by
  rw [deleted_walk hmerge]
  exact List.Nodup.sublist (List.filter_sublist.map _) diff.nodupKeys

/-! ## The storage after the walk -/

/-- A compaction leaves a file that is still in use where it is. -/
theorem lookup_liveCompacted (hmerge : o.levelMerge = true) {w : Walk} {file : BlobFileMeta}
    {delta : ℤ} (hstate : file.state = .kNormal ∨ file.state = .kToMerge)
    (hnone : (file.updateLiveDataSize delta).noLiveData = true) (countSortedRun : Bool) :
    ∃ file', (Walk.liveCompacted o countSortedRun w n file delta).storage.files.lookup n = some file' ∧
      file'.isObsolete = false := by
  refine ⟨file.updateLiveDataSize delta, ?_, ?_⟩
  · rw [Walk.liveCompacted, hmerge, hnone]
    exact w.storage.lookup_setFile_self n _
  · change (file.state == .kObsolete) = false
    rcases hstate with hstate | hstate
    · rw [hstate]
      rfl
    · rw [hstate]
      rfl

theorem lookup_round_of_deletes (st : BlobStorage) (hmerge : o.levelMerge = true) {w : Walk} {delta : ℤ}
    (h : event.deletesIn w.storage ⟨n, delta⟩ = true) :
    ∃ file, (event.round o st w n delta).storage.files.lookup n = some file ∧
      file.isObsolete = false := by
  rw [deletesIn] at h
  cases hfile : w.storage.files.lookup n with
  | none =>
      rw [hfile] at h
      cases h
  | some file =>
      rw [hfile, Option.any_some, deletes.eq_def] at h
      cases event with
      | compactionCompleted outputLevel =>
          dsimp only at h
          change ∃ file', (Walk.compactionCompleted o _ w n delta).storage.files.lookup n = some file' ∧ _
          rw [Walk.compactionCompleted, hfile]
          dsimp only
          cases hstate : file.state with
          | kPendingLSM =>
              rw [hstate] at h
              dsimp only at h ⊢
              obtain ⟨hdelta, hnone⟩ := Bool.and_eq_true_iff.mp h
              rw [Walk.pendingCompacted, if_neg (by simpa using hdelta)]
              dsimp only
              rw [hnone]
              exact ⟨_, w.storage.lookup_setFile_self n _, rfl⟩
          | kNormal =>
              rw [hstate] at h
              exact lookup_liveCompacted hmerge (Or.inl hstate) h _
          | kToMerge =>
              rw [hstate] at h
              exact lookup_liveCompacted hmerge (Or.inr hstate) h _
          | kInit => rw [hstate] at h; cases h
          | kBeingGC => rw [hstate] at h; cases h
          | kPendingGC => rw [hstate] at h; cases h
          | kObsolete => rw [hstate] at h; cases h
      | deleteFilesInRanges =>
          dsimp only at h
          obtain ⟨hlive, hnone⟩ := Bool.and_eq_true_iff.mp h
          have hlive : file.isObsolete = false := (Bool.not_eq_true' _).mp hlive
          change ∃ file', (Walk.tablesDeleted o w n delta).storage.files.lookup n = some file' ∧ _
          refine ⟨file.updateLiveDataSize delta, ?_, hlive⟩
          rw [Walk.tablesDeleted, hfile]
          dsimp only
          rw [hlive, hmerge, hnone]
          exact w.storage.lookup_setFile_self n _

/-- A file of the edit is live when the edit is made. -/
theorem lookup_walk_of_mem (hmerge : o.levelMerge = true) (h : n ∈ (event.walk o st diff).deleted) :
    ∃ file, (event.walk o st diff).storage.files.lookup n = some file ∧ file.isObsolete = false := by
  obtain ⟨e, he, hdeletes, rfl⟩ := (mem_deleted_walk hmerge).mp h
  have hdelta : diff.lookup e.1 = some e.2 := AList.mem_lookup_iff.mpr he
  obtain ⟨w, hbefore, hafter⟩ := Walk.applyDiff_of_lookup_some (event.local_round o st) st hdelta
  have hsees : event.deletesIn w.storage ⟨e.1, e.2⟩ = true := by
    rw [deletesIn, hbefore.lookup]
    exact hdeletes
  obtain ⟨file, hfile, hlive⟩ := lookup_round_of_deletes st hmerge hsees
  exact ⟨file, hafter.lookup.trans hfile, hlive⟩

theorem mem_deleted_of_emptied (hmerge : o.levelMerge = true) (h : Emptied st diff n) :
    n ∈ (event.walk o st diff).deleted := by
  obtain ⟨file, delta, hfile, hstate, hdelta, -, hnone⟩ := h
  refine (mem_deleted_walk hmerge).mpr ⟨⟨n, delta⟩, AList.mem_lookup_iff.mp hdelta, ?_, rfl⟩
  rw [deletesIn, hfile, Option.any_some, deletes.eq_def]
  cases event with
  | compactionCompleted outputLevel =>
      dsimp only
      rcases hstate with hstate | hstate
      · rw [hstate]
        exact hnone
      · rw [hstate]
        exact hnone
  | deleteFilesInRanges =>
      dsimp only
      have hlive : file.isObsolete = false := by
        rw [BlobFileMeta.isObsolete]
        rcases hstate with hstate | hstate
        · rw [hstate]; rfl
        · rw [hstate]; rfl
      rw [hlive, hnone]
      rfl

/-- An emptied file is no candidate for the marks. -/
theorem not_candidate_of_emptied {outputLevel : ℤ} (h : Emptied st diff n) :
    n ∉ ((compactionCompleted outputLevel).walk o st diff).candidates := by
  obtain ⟨file, delta, hfile, hstate, hdelta, -, hnone⟩ := h
  change n ∉ (Walk.applyDiff (Walk.compactionCompleted o _) st diff).candidates
  rw [Walk.candidates_applyDiff]
  intro hmem
  obtain ⟨e, he, rfl⟩ := List.mem_map.mp hmem
  obtain ⟨hin, hcandidate⟩ := List.mem_filter.mp he
  have heq : e.2 = delta := Option.some.inj ((AList.mem_lookup_iff.mpr hin).symm.trans hdelta)
  rw [Walk.becomesCandidate, hfile, Option.any_some, heq] at hcandidate
  rcases hstate with hstate | hstate
  · rw [hstate] at hcandidate
    dsimp only at hcandidate
    rw [hnone, Bool.not_true, Bool.and_false, Bool.false_and, Bool.false_and] at hcandidate
    cases hcandidate
  · rw [hstate] at hcandidate
    dsimp only at hcandidate
    rw [hnone, Bool.not_true, Bool.and_false, Bool.false_and, Bool.false_and] at hcandidate
    cases hcandidate

end MergeEvent

/-! ## The call -/

namespace BlobFileSet
open MergeEvent

variable {s : BlobFileSet} {cf : UInt32} {seq : ℕ} {io : ManifestIO}

def walked (s : BlobFileSet) (event : MergeEvent) (o : MergeOptions) (cf : UInt32)
    (st : BlobStorage) (diff : SizeDiff) : BlobFileSet :=
  s.setStorage cf (event.walk o st diff).storage

def merged (s : BlobFileSet) (event : MergeEvent) (o : MergeOptions) (cf : UInt32)
    (st : BlobStorage) (diff : SizeDiff) (seq : ℕ) (io : ManifestIO) : BlobFileSet :=
  ((s.walked event o cf st diff).logAndApply (mergeEdit (event.walk o st diff) seq) io).2

/-- After `LogAndApply` an event only marks candidates of its own column family. -/
structure OnlyMarks (s s' : BlobFileSet) (cf : UInt32) (candidates : List UInt64) : Prop where
  manifest : s'.manifest = s.manifest
  others : ∀ g ≠ cf, ∀ n, s'.fileOf g n = s.fileOf g n
  files : ∀ n file, s.fileOf cf n = some file → ∃ file', s'.fileOf cf n = some file' ∧
    (file' = file ∨ n ∈ candidates ∧ file'.state = .kToMerge)

theorem OnlyMarks.refl (s : BlobFileSet) (cf : UInt32) (candidates : List UInt64) :
    OnlyMarks s s cf candidates :=
  ⟨rfl, fun _ _ _ => rfl, fun _ file hfile => ⟨file, hfile, Or.inl rfl⟩⟩

theorem onlyMarks_handle (event : MergeEvent) (diff : SizeDiff) (seq : ℕ) (io : ManifestIO)
    (hmerge : o.levelMerge = true) (hst : s.columnFamilies.lookup cf = some st) :
    OnlyMarks (s.merged event o cf st diff seq io) (event.handle o s cf diff seq io) cf
      (match event with
        | .compactionCompleted _ => (event.walk o st diff).candidates
        | .deleteFilesInRanges => []) := by
  cases event with
  | compactionCompleted outputLevel =>
      change OnlyMarks _ (s.onCompactionCompleted o cf outputLevel diff seq io).1 cf _
      cases hlookup : (s.merged (.compactionCompleted outputLevel) o cf st diff seq
          io).columnFamilies.lookup cf with
      | none =>
          have hhandle : (s.onCompactionCompleted o cf outputLevel diff seq io).1 =
              s.merged (.compactionCompleted outputLevel) o cf st diff seq io := by
            dsimp only [merged, walked, walk, MergeEvent.round] at hlookup ⊢
            rw [onCompactionCompleted, hst, hmerge]
            dsimp only
            rw [if_neg (by decide), hlookup]
          rw [hhandle]
          exact .refl _ _ _
      | some st' =>
          have hhandle : (s.onCompactionCompleted o cf outputLevel diff seq io).1 =
              (s.merged (.compactionCompleted outputLevel) o cf st diff seq io).setStorage cf
                (Walk.markFileIfNeedMerge st'
                  ((compactionCompleted outputLevel).walk o st diff).candidates
                  o.maxSortedRuns).storage := by
            dsimp only [merged, walked, walk, MergeEvent.round] at hlookup ⊢
            rw [onCompactionCompleted, hst, hmerge]
            dsimp only
            rw [if_neg (by decide), hlookup]
          rw [hhandle]
          refine ⟨rfl, fun g hg n => fileOf_setStorage_ne _ n hg, fun n file hfile => ?_⟩
          rw [fileOf, hlookup, Option.bind_some] at hfile
          obtain ⟨file', hfile', heq⟩ := Walk.lookup_markFileIfNeedMerge _ o.maxSortedRuns hfile
          refine ⟨file', (fileOf_setStorage _ cf _ n).trans hfile', heq.imp id fun hmark =>
            ⟨hmark.1, ?_⟩⟩
          rw [hmark.2]
  | deleteFilesInRanges =>
      have hhandle : (s.deleteFilesInRanges o cf diff seq io).1 =
          s.merged .deleteFilesInRanges o cf st diff seq io := by
        rw [BlobFileSet.deleteFilesInRanges, hst, hmerge]
        rfl
      change OnlyMarks _ (s.deleteFilesInRanges o cf diff seq io).1 cf _
      rw [hhandle]
      exact .refl _ _ _

/-! ## Family 0 and the others -/

theorem deletedFiles_mergeEdit (w : Walk) (seq : ℕ) :
    (mergeEdit w seq).deletedFiles.map (·.1) = w.deleted := by
  rw [mergeEdit, List.map_map]
  exact List.map_id _

/-- The edit is accepted where its files are live in family 0. -/
theorem accepts_mergeEdit {st₀ : BlobStorage} (hmerge : o.levelMerge = true)
    (hst₀ : (s.walked event o cf st diff).columnFamilies.lookup 0 = some st₀)
    (hlive : ∀ n ∈ (event.walk o st diff).deleted, ∃ file, st₀.files.lookup n = some file ∧
      file.isObsolete = false) :
    (s.walked event o cf st diff).accepts (mergeEdit (event.walk o st diff) seq) := by
  refine accepts_of_deletions hst₀ rfl ?_ fun file hfile => hlive file.1 ?_
  · rw [deletedFiles_mergeEdit]
    exact nodup_deleted_walk hmerge event st diff
  · rw [← deletedFiles_mergeEdit (event.walk o st diff) seq]
    exact List.mem_map_of_mem hfile

theorem fileOf_of_lookup (h : s.columnFamilies.lookup cf = some st) (n : UInt64) :
    s.fileOf cf n = st.files.lookup n := by rw [fileOf, h, Option.bind_some]

theorem fileOf_merged_ne {g : UInt32} (hg : g ≠ 0) (n : UInt64) :
    (s.merged event o cf st diff seq io).fileOf g n = (s.walked event o cf st diff).fileOf g n := by
  have hedit : (mergeEdit (event.walk o st diff) seq).columnFamilyId = 0 := rfl
  rw [fileOf, fileOf, merged, lookup_logAndApply_ne (hedit ▸ hg)]

theorem fileOf_walked_ne {g : UInt32} (hg : g ≠ cf) (n : UInt64) :
    (s.walked event o cf st diff).fileOf g n = s.fileOf g n := fileOf_setStorage_ne _ n hg

theorem recordsDeletion_mergeEdit {w : Walk} (h : n ∈ w.deleted) (next : Option UInt64) :
    RecordsDeletion [VersionEdit.encodeTo { mergeEdit w seq with nextFileNumber := next }] 0 n := by
  refine ⟨_, List.mem_cons_self, _, VersionEdit.decodeFrom_encodeTo _, rfl, ?_⟩
  have hfile : (n, seq) ∈ (mergeEdit w seq).deletedFiles := List.mem_map_of_mem h
  exact List.mem_map.mpr ⟨(n, 0), List.mem_map_of_mem hfile, rfl⟩

/-- An event on family 0 frees its emptied files. -/
theorem freesEmptied_default (hmerge : o.levelMerge = true)
    (hst : s.columnFamilies.lookup 0 = some st) (hrecord : io.addRecord.isOk) (hsync : io.sync.isOk) :
    FreesEmptied s (event.handle o s 0 diff seq io) 0 st diff := by
  have hwalked : (s.walked event o 0 st diff).columnFamilies.lookup 0 =
      some (event.walk o st diff).storage := AList.lookup_insert _
  have haccepts : (s.walked event o 0 st diff).accepts (mergeEdit (event.walk o st diff) seq) :=
    accepts_mergeEdit hmerge hwalked fun n hn => lookup_walk_of_mem hmerge hn
  obtain ⟨-, st', happlied, hset⟩ := logAndApply_of_accepts hwalked haccepts hrecord hsync
  have hmarks := onlyMarks_handle event diff seq io hmerge hst
  have hmerged : s.merged event o 0 st diff seq io =
      { (s.walked event o 0 st diff).logged (mergeEdit (event.walk o st diff) seq) with
        columnFamilies := (s.walked event o 0 st diff).columnFamilies.insert 0 st' } := hset
  constructor
  · intro n hemptied
    have hmem : n ∈ (event.walk o st diff).deleted := mem_deleted_of_emptied hmerge hemptied
    obtain ⟨old, -, -, hnew⟩ := happlied.deleted (n, seq) (List.mem_map_of_mem hmem)
      fun hadded => by cases hadded
    have hfile : (s.merged event o 0 st diff seq io).fileOf 0 n =
        some { old with state := .kObsolete } := by
      rw [hmerged]
      exact (fileOf_of_lookup (AList.lookup_insert _) n).trans hnew
    obtain ⟨file', hfile', heq⟩ := hmarks.files n _ hfile
    refine ⟨file', hfile', ?_⟩
    rcases heq with rfl | ⟨hcandidate, -⟩
    · rfl
    · cases event with
      | compactionCompleted outputLevel => exact absurd hcandidate (not_candidate_of_emptied hemptied)
      | deleteFilesInRanges => cases hcandidate
  · intro n hemptied
    refine ⟨[((s.walked event o 0 st diff).withNext (mergeEdit (event.walk o st diff) seq)).encodeTo],
      ?_, recordsDeletion_mergeEdit (mem_deleted_of_emptied hmerge hemptied) _⟩
    rw [hmarks.manifest, hmerged]
    rfl
  · intro g hg n
    rw [hmarks.others g hg, fileOf_merged_ne hg, fileOf_walked_ne hg]

/-- In another family an emptied file stays live. -/
theorem live_of_emptied (event : MergeEvent) (seq : ℕ) (io : ManifestIO) (hmerge : o.levelMerge = true)
    (hst : s.columnFamilies.lookup cf = some st) (hcf : cf ≠ 0) (h : Emptied st diff n) :
    ∃ file, (event.handle o s cf diff seq io).fileOf cf n = some file ∧ file.isObsolete = false := by
  have hmem : n ∈ (event.walk o st diff).deleted := mem_deleted_of_emptied hmerge h
  obtain ⟨file, hfile, hlive⟩ := lookup_walk_of_mem hmerge hmem
  have hmarks := onlyMarks_handle event diff seq io hmerge hst
  have hmerged : (s.merged event o cf st diff seq io).fileOf cf n = some file := by
    rw [fileOf_merged_ne hcf]
    exact (fileOf_setStorage s cf _ n).trans hfile
  obtain ⟨file', hfile', heq⟩ := hmarks.files n file hmerged
  refine ⟨file', hfile', ?_⟩
  rcases heq with rfl | ⟨-, hstate⟩
  · exact hlive
  · rw [BlobFileMeta.isObsolete, hstate]
    rfl

theorem lookup_walked_default (event : MergeEvent) (o : MergeOptions) (st : BlobStorage)
    (diff : SizeDiff) (hcf : cf ≠ 0) :
    (s.walked event o cf st diff).columnFamilies.lookup 0 = s.columnFamilies.lookup 0 :=
  AList.lookup_insert_ne (Ne.symm hcf)

/-- Where all files of the edit are live in family 0, the edit makes one of them obsolete there. -/
theorem merged_of_hits (seq : ℕ) (hmerge : o.levelMerge = true) (hcf : cf ≠ 0) (hrecord : io.addRecord.isOk)
    (hsync : io.sync.isOk) (hhits : HitsDefault s event st diff) :
    ∃ n, ((s.merged event o cf st diff seq io).fileOf 0 n).map (·.state) ≠
      (s.fileOf 0 n).map (·.state) := by
  obtain ⟨⟨e, he, hdeletes⟩, hlive⟩ := hhits
  obtain ⟨file, hfile, hobsolete⟩ := hlive e he hdeletes
  obtain ⟨st₀, hst₀, -⟩ := Option.bind_eq_some_iff.mp hfile
  rw [← lookup_walked_default event o st diff hcf] at hst₀
  have haccepts : (s.walked event o cf st diff).accepts (mergeEdit (event.walk o st diff) seq) := by
    refine accepts_mergeEdit hmerge hst₀ fun n hn => ?_
    obtain ⟨e', he', hdeletes', rfl⟩ := (mem_deleted_walk hmerge).mp hn
    obtain ⟨file', hfile', hlive'⟩ := hlive e' he' hdeletes'
    rw [lookup_walked_default event o st diff hcf] at hst₀
    exact ⟨file', (fileOf_of_lookup hst₀ e'.1).symm.trans hfile', hlive'⟩
  obtain ⟨-, st', happlied, hset⟩ := logAndApply_of_accepts hst₀ haccepts hrecord hsync
  have hmem : e.1 ∈ (event.walk o st diff).deleted :=
    (mem_deleted_walk hmerge).mpr ⟨e, he, hdeletes, rfl⟩
  obtain ⟨old, -, -, hnew⟩ := happlied.deleted (e.1, seq) (List.mem_map_of_mem hmem)
    fun hadded => by cases hadded
  have hgone : (s.merged event o cf st diff seq io).fileOf 0 e.1 =
      some { old with state := .kObsolete } := by
    rw [merged, hset]
    exact (fileOf_of_lookup (AList.lookup_insert _) e.1).trans hnew
  refine ⟨e.1, fun hstate => ?_⟩
  rw [hgone, hfile, Option.map_some, Option.map_some] at hstate
  rw [BlobFileMeta.isObsolete, ← Option.some.inj hstate] at hobsolete
  cases hobsolete

/-- An edit with files that family 0 does not have all live changes nothing there. -/
theorem merged_of_not_hits (hmerge : o.levelMerge = true) (hcf : cf ≠ 0) (hsync : io.sync.isOk)
    (hnot : ¬HitsDefault s event st diff) (n : UInt64) :
    (s.merged event o cf st diff seq io).fileOf 0 n = s.fileOf 0 n := by
  have hwalked : (s.walked event o cf st diff).fileOf 0 n = s.fileOf 0 n :=
    fileOf_walked_ne (Ne.symm hcf) n
  rw [← hwalked]
  rcases logAndApply_cases (s.walked event o cf st diff) (mergeEdit (event.walk o st diff) seq) io with
    ⟨-, hset, -⟩ | ⟨-, -, hno, -⟩ | ⟨-, -, -, -, storages, happlies, hset⟩
  · rw [merged, hset]
  · rw [hsync] at hno
    cases hno
  · rw [merged, hset]
    cases happlies with
    | unknown => rfl
    | @known st₀ st' hst₀ happlied =>
        -- an applied edit has files that are live in family 0, so that it has none here
        have hempty : (event.walk o st diff).deleted = [] := by
          by_contra hne
          obtain ⟨m, hm⟩ := List.exists_mem_of_ne_nil _ hne
          obtain ⟨e, he, hdeletes, -⟩ := (mem_deleted_walk hmerge).mp hm
          refine hnot ⟨⟨e, he, hdeletes⟩, fun e he hdeletes => ?_⟩
          have hmem : e.1 ∈ (event.walk o st diff).deleted :=
            (mem_deleted_walk hmerge).mpr ⟨e, he, hdeletes, rfl⟩
          obtain ⟨old, hold, hlive, -⟩ := happlied.deleted (e.1, seq) (List.mem_map_of_mem hmem)
            fun hadded => by cases hadded
          have hst₀' : s.columnFamilies.lookup 0 = some st₀ := by
            rw [← lookup_walked_default event o st diff hcf]
            exact hst₀
          exact ⟨old, (fileOf_of_lookup hst₀' e.1).trans hold, hlive⟩
        have hsame : st'.files.lookup n = st₀.files.lookup n := by
          apply happlied.other
          rw [deletedFiles_mergeEdit, hempty]
          exact Iff.rfl
        exact (fileOf_of_lookup (AList.lookup_insert _) n).trans
          (hsame.trans (fileOf_of_lookup hst₀ n).symm)

/-- Where the manifest is written, an event frees the emptied files of its family and touches no
other family, if and only if the family is family 0, or nothing gets emptied and the files of the
edit are not all live files of family 0. -/
theorem freesEmptied_iff (hmerge : o.levelMerge = true)
    (hst : s.columnFamilies.lookup cf = some st) (hrecord : io.addRecord.isOk)
    (hsync : io.sync.isOk) :
    FreesEmptied s (event.handle o s cf diff seq io) cf st diff ↔
      cf = 0 ∨ ((∀ n, ¬Emptied st diff n) ∧ ¬HitsDefault s event st diff) := by
  by_cases hcf : cf = 0
  · subst hcf
    exact iff_of_true (freesEmptied_default hmerge hst hrecord hsync) (Or.inl rfl)
  · rw [or_iff_right hcf]
    have hmarks := onlyMarks_handle event diff seq io hmerge hst
    constructor
    · intro hfrees
      constructor
      · intro n hemptied
        obtain ⟨file, hfile, hstate⟩ := hfrees.obsolete n hemptied
        obtain ⟨file', hfile', hlive⟩ := live_of_emptied event seq io hmerge hst hcf hemptied
        obtain rfl := Option.some.inj (hfile.symm.trans hfile')
        rw [BlobFileMeta.isObsolete, hstate] at hlive
        cases hlive
      · intro hhits
        obtain ⟨n, hchanged⟩ := merged_of_hits seq hmerge hcf hrecord hsync hhits
        refine hchanged ?_
        rw [← hmarks.others 0 (Ne.symm hcf)]
        exact hfrees.others 0 (Ne.symm hcf) n
    · rintro ⟨hnone, hdefault⟩
      refine ⟨fun n hn => absurd hn (hnone n), fun n hn => absurd hn (hnone n), fun g hg n => ?_⟩
      by_cases hg₀ : g = 0
      · subst hg₀
        rw [hmarks.others 0 hg, merged_of_not_hits hmerge hcf hsync hdefault]
      · rw [hmarks.others g hg, fileOf_merged_ne hg₀, fileOf_walked_ne hg]

/-! ## Runs -/

/-- A file with 100 live bytes, as the one file of a family with level merge. -/
def mergedStorage : BlobStorage :=
  (BlobStorage.empty ⟨bytewise, 7, 8388608, 0.5⟩).setFile 7 { smallFile with
    liveDataSize := 100
    state := .kNormal }

def mergedSet (cf : UInt32) : BlobFileSet := freshSet.setStorage cf mergedStorage

theorem emptied_merged : Emptied mergedStorage (AList.singleton 7 (-100)) 7 :=
  ⟨_, -100, rfl, Or.inl rfl, rfl, rfl, rfl⟩

theorem freesEmptied_mergedSet :
    FreesEmptied (mergedSet 0) (MergeEvent.deleteFilesInRanges.handle ⟨true, false, 1⟩ (mergedSet 0) 0
      (AList.singleton 7 (-100)) 9 ioOk) 0 mergedStorage (AList.singleton 7 (-100)) :=
  (freesEmptied_iff rfl rfl rfl rfl).mpr (Or.inl rfl)

/-- In family 1 the file stays live, whichever event empties it. -/
theorem not_freesEmptied_other :
    ¬FreesEmptied (mergedSet 1) ((MergeEvent.compactionCompleted 6).handle ⟨true, false, 1⟩
        (mergedSet 1) 1 (AList.singleton 7 (-100)) 9 ioOk) 1 mergedStorage (AList.singleton 7 (-100)) ∧
      ¬FreesEmptied (mergedSet 1) (MergeEvent.deleteFilesInRanges.handle ⟨true, false, 1⟩
        (mergedSet 1) 1 (AList.singleton 7 (-100)) 9 ioOk) 1 mergedStorage (AList.singleton 7 (-100)) := by
  have hstays (event : MergeEvent) : ¬FreesEmptied (mergedSet 1) (event.handle ⟨true, false, 1⟩
      (mergedSet 1) 1 (AList.singleton 7 (-100)) 9 ioOk) 1 mergedStorage (AList.singleton 7 (-100)) := by
    intro hfrees
    obtain ⟨file, hfile, hstate⟩ := hfrees.obsolete 7 emptied_merged
    have hmerge : (⟨true, false, 1⟩ : MergeOptions).levelMerge = true := rfl
    have hst : (mergedSet 1).columnFamilies.lookup 1 = some mergedStorage := rfl
    obtain ⟨file', hfile', hlive⟩ :=
      live_of_emptied event 9 ioOk hmerge hst (by decide) emptied_merged
    obtain rfl := Option.some.inj (hfile.symm.trans hfile')
    rw [BlobFileMeta.isObsolete, hstate] at hlive
    cases hlive
  exact ⟨hstays _, hstays _⟩

end BlobFileSet
end AegonKV
