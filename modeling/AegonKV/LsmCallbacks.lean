import AegonKV.LogAndApply

/-!
# The callbacks of the base database

`OnFlushCompleted` and `OnCompactionCompleted` tell Titan how the tables' references to its blob
files changed, `DeleteFilesInRanges` tells it for deleted tables. Each walks over the size
differences of the files under `mutex_`. Assertions of `FileStateTransit` do not stop a release
build, so a transition is the state it writes, and every call is recorded with the state it finds.
-/

namespace AegonKV
open LittleEndian

/-! ## State transitions -/

/-- What `FileStateTransit` leaves in `state_`, whether or not its assertion holds. -/
def FileState.after (state : FileState) : FileEvent → FileState
  | .kFlushCompleted => if state = .kPendingLSM then .kNormal else state
  | .kGCCompleted => if state = .kObsolete then state else .kNormal
  | .kCompactionCompleted => .kNormal
  | .kGCBegin => .kBeingGC
  | .kGCOutput => .kPendingGC
  | .kFlushOrCompactionOutput => .kPendingLSM
  | .kDbRestart => .kNormal
  | .kDelete => .kObsolete
  | .kNeedMerge => .kToMerge
  | .kReset => .kNormal
  | .kInit => state

structure TransitCall where
  fileNumber : UInt64
  state : FileState
  event : FileEvent
  deriving DecidableEq, Repr

/-- The assertion of the event holds, and an obsolete file stays so. -/
def TransitCall.Safe (c : TransitCall) : Prop :=
  (fileStateTransit c.state c.event).isSome ∧
    (c.state = .kObsolete → c.state.after c.event = .kObsolete)

instance (c : TransitCall) : Decidable c.Safe := inferInstanceAs (Decidable (_ ∧ _))

/-! ## Live data sizes -/

def castInt64 (n : UInt64) : ℤ := n.toBitVec.toInt

def castUInt64 (z : ℤ) : UInt64 := ⟨BitVec.ofInt 64 z⟩

namespace BlobFileMeta

def noLiveData (file : BlobFileMeta) : Bool := file.liveDataSize = 0

/-- `UpdateLiveDataSize`, which does not go below zero. -/
def updateLiveDataSize (file : BlobFileMeta) (delta : ℤ) : BlobFileMeta :=
  let result := castInt64 file.liveDataSize + delta
  { file with liveDataSize := if result < 0 then 0 else castUInt64 result }

/-- The size a file gets from the event that created it: what earlier callbacks have recorded while
the file was `kPendingLSM` is subtracted. -/
def settle (file : BlobFileMeta) (delta : ℤ) : BlobFileMeta :=
  let delta :=
    if file.liveDataSize ≠ 0 then castInt64 (castUInt64 delta - file.liveDataSize) else delta
  { file with liveDataSize := castUInt64 delta }

end BlobFileMeta

/-- `blob_file_size_diff`. -/
abbrev SizeDiff := AList fun _ : UInt64 => ℤ

/-- The options of a column family that decide about level merge. -/
structure MergeOptions where
  levelMerge : Bool
  rangeMerge : Bool
  maxSortedRuns : ℤ

/-! ## Walks over the differences -/

/-- The locals of a walk: the storage with its files, the calls made, the files put into the edit
and `to_merge_candidates`. -/
structure Walk where
  storage : BlobStorage
  calls : List TransitCall := []
  deleted : List UInt64 := []
  candidates : List UInt64 := []

namespace BlobStorage

def setFile (st : BlobStorage) (number : UInt64) (file : BlobFileMeta) : BlobStorage :=
  { st with files := st.files.insert number file }

end BlobStorage

namespace Walk

def setFile (w : Walk) (number : UInt64) (file : BlobFileMeta) : Walk :=
  { w with storage := w.storage.setFile number file }

def transit (w : Walk) (number : UInt64) (file : BlobFileMeta) (event : FileEvent) : Walk :=
  { w with
    storage := w.storage.setFile number { file with state := file.state.after event }
    calls := w.calls ++ [⟨number, file.state, event⟩] }

def deleteBlobFile (w : Walk) (number : UInt64) : Walk :=
  { w with deleted := w.deleted ++ [number] }

def addCandidate (w : Walk) (number : UInt64) : Walk :=
  { w with candidates := w.candidates ++ [number] }

/-- One round of `OnFlushCompleted`. -/
def flushCompleted (w : Walk) (number : UInt64) (delta : ℤ) : Walk :=
  match w.storage.files.lookup number with
  | none => w
  | some file =>
    if file.state ≠ .kPendingLSM then w
    else w.transit number (file.settle (if delta < 0 then 0 else delta)) .kFlushCompleted

/-- `file_level() >= num_levels - 2 && GetDiscardableRatio() > blob_file_discardable_ratio`. -/
def needsMerge (options : TitanCFOptions) (file : BlobFileMeta) : Bool :=
  file.fileLevel.toInt32.toInt ≥ (options.numLevels : ℤ) - 2 &&
    decide (file.getDiscardableRatio > options.blobFileDiscardableRatio)

/-- A `kPendingLSM` file in `OnCompactionCompleted`. A difference that is not positive belongs to a
later compaction than the event that created the file; it is recorded as a positive number. -/
def pendingCompacted (w : Walk) (number : UInt64) (file : BlobFileMeta) (delta : ℤ) : Walk :=
  if delta ≤ 0 then w.setFile number (file.updateLiveDataSize (castInt64 (castUInt64 (-delta))))
  else
    let file := file.settle delta
    let w := w.transit number file .kCompactionCompleted
    let w := if file.noLiveData then w.deleteBlobFile number else w
    w.addCandidate number

/-- A `kNormal` or `kToMerge` file in `OnCompactionCompleted`. -/
def liveCompacted (o : MergeOptions) (countSortedRun : Bool) (w : Walk) (number : UInt64)
    (file : BlobFileMeta) (delta : ℤ) : Walk :=
  let file := file.updateLiveDataSize delta
  let w := w.setFile number file
  if !o.levelMerge then w
  else if file.noLiveData then w.deleteBlobFile number
  else if needsMerge w.storage.cfOptions file then w.transit number file .kNeedMerge
  else if countSortedRun then w.addCandidate number
  else w

/-- One round of `OnCompactionCompleted`. -/
def compactionCompleted (o : MergeOptions) (countSortedRun : Bool) (w : Walk) (number : UInt64)
    (delta : ℤ) : Walk :=
  match w.storage.files.lookup number with
  | none => w
  | some file =>
    match file.state with
    | .kPendingLSM => w.pendingCompacted number file delta
    | .kNormal | .kToMerge => liveCompacted o countSortedRun w number file delta
    | _ => w

/-- One round of `DeleteFilesInRanges`, which does not look at the state of a live file. -/
def tablesDeleted (o : MergeOptions) (w : Walk) (number : UInt64) (delta : ℤ) : Walk :=
  match w.storage.files.lookup number with
  | none => w
  | some file =>
    if file.isObsolete then w
    else
      let file := file.updateLiveDataSize delta
      let w := w.setFile number file
      if !o.levelMerge then w
      else if file.noLiveData then w.deleteBlobFile number
      else if file.getDiscardableRatio > w.storage.cfOptions.blobFileDiscardableRatio then
        w.transit number file .kNeedMerge
      else w

def applyDiff (round : Walk → UInt64 → ℤ → Walk) (st : BlobStorage) (diff : SizeDiff) : Walk :=
  diff.entries.foldl (fun w e => round w e.1 e.2) { storage := st }

end Walk

/-! ## Merge marks -/

/-- What the sweep of `MarkFileIfNeedMerge` reads of a file. -/
structure BlobRange where
  fileNumber : UInt64
  smallestKey : Key
  largestKey : Key
  deriving DecidableEq

/-- `blob_ends_cmp`: by key, and at one key the largest ends before the smallest ends. -/
def blobEndsCmp (end1 end2 : BlobRange × Bool) : Bool :=
  let key := fun e : BlobRange × Bool => (if e.2 then e.1.smallestKey else e.1.largestKey).val
  if key end1 = key end2 then !end1.2 && end2.2 else decide (key end1 < key end2)

/-- One round over the sorted ends: the open files, and the files sent `kNeedMerge` so far. -/
def sweepEnd (maxSortedRuns : ℤ) (acc : List UInt64 × List UInt64) (e : BlobRange × Bool) :
    List UInt64 × List UInt64 :=
  if e.2 then
    let opened := if e.1.fileNumber ∈ acc.1 then acc.1 else acc.1 ++ [e.1.fileNumber]
    (opened,
      if (castUInt64 maxSortedRuns).toNat < opened.length then acc.2 ++ opened else acc.2)
  else (acc.1.erase e.1.fileNumber, acc.2)

/-- The files `MarkFileIfNeedMerge` sends `kNeedMerge` to, in order and with repetitions. -/
def mergeMarks (files : List BlobRange) (maxSortedRuns : ℤ) : List UInt64 :=
  let blobEnds := files.flatMap fun file => [(file, true), (file, false)]
  ((blobEnds.mergeSort fun end1 end2 => !blobEndsCmp end2 end1).foldl (sweepEnd maxSortedRuns)
    ([], [])).2

namespace Walk

def transitFile (event : FileEvent) (w : Walk) (number : UInt64) : Walk :=
  match w.storage.files.lookup number with
  | none => w
  | some file => w.transit number file event

def transitFiles (event : FileEvent) (st : BlobStorage) (numbers : List UInt64) : Walk :=
  numbers.foldl (transitFile event) { storage := st }

def ranges (st : BlobStorage) (candidates : List UInt64) : List BlobRange :=
  candidates.filterMap fun number => (st.files.lookup number).map fun file =>
    ⟨number, file.smallestKey, file.largestKey⟩

def markFileIfNeedMerge (st : BlobStorage) (candidates : List UInt64) (maxSortedRuns : ℤ) : Walk :=
  transitFiles .kNeedMerge st (mergeMarks (ranges st candidates) maxSortedRuns)

end Walk

/-! ## The calls of `LogAndApply` -/

/-- The `kDelete` calls of the loop `applyDeleted`. -/
def deletionCalls : List (UInt64 × ℕ) → BlobStorage → List TransitCall
  | [], _ => []
  | file :: files, st =>
    match st.files.lookup file.1, st.markFileObsolete file.1 file.2 with
    | some old, some st' => ⟨file.1, old.state, .kDelete⟩ :: deletionCalls files st'
    | _, _ => []

namespace BlobFileSet

def fileOf (s : BlobFileSet) (cf : UInt32) (f : UInt64) : Option BlobFileMeta :=
  (s.columnFamilies.lookup cf).bind fun st => st.files.lookup f

def setStorage (s : BlobFileSet) (cf : UInt32) (st : BlobStorage) : BlobFileSet :=
  { s with columnFamilies := s.columnFamilies.insert cf st }

/-- The calls `LogAndApply` makes, on the way through its checks that `logAndApply` takes. -/
def logAndApplyCalls (s : BlobFileSet) (edit : VersionEdit BlobFileMeta) (io : ManifestIO) :
    List TransitCall :=
  match EditCollector.empty.addEdit (s.withNext edit) with
  | .error _ => []
  | .ok collector =>
    match collector.sealIn [edit.columnFamilyId] s.columnFamilies with
    | .error _ => []
    | .ok () =>
      if !io.addRecord.isOk || !io.sync.isOk then []
      else
        match s.columnFamilies.lookup edit.columnFamilyId with
        | none => []
        | some st =>
          let c := collector.columnFamilies edit.columnFamilyId
          deletionCalls c.goneFiles (c.newFiles.foldl (fun st f => st.addBlobFile f.1 f.2) st)

/-! ## The callbacks -/

def onFlushCompleted (s : BlobFileSet) (cf : UInt32) (diff : SizeDiff) :
    BlobFileSet × List TransitCall :=
  match s.columnFamilies.lookup cf with
  | none => (s, [])
  | some st =>
    let w := Walk.applyDiff Walk.flushCompleted st diff
    (s.setStorage cf w.storage, w.calls)

/-- The edit of `OnCompactionCompleted` and `DeleteFilesInRanges`, whose column family is never
set. -/
def mergeEdit (w : Walk) (seq : ℕ) : VersionEdit BlobFileMeta :=
  ⟨0, none, [], w.deleted.map fun number => (number, seq)⟩

def countsSortedRun (o : MergeOptions) (st : BlobStorage) (outputLevel : ℤ) : Bool :=
  o.levelMerge && o.rangeMerge && decide ((st.cfOptions.numLevels : ℤ) - 1 = outputLevel)

/-- `OnCompactionCompleted` of a compaction that succeeded. -/
def onCompactionCompleted (o : MergeOptions) (s : BlobFileSet) (cf : UInt32) (outputLevel : ℤ)
    (diff : SizeDiff) (seq : ℕ) (io : ManifestIO) : BlobFileSet × List TransitCall :=
  match s.columnFamilies.lookup cf with
  | none => (s, [])
  | some st =>
    let w := Walk.applyDiff (Walk.compactionCompleted o (countsSortedRun o st outputLevel)) st diff
    if !o.levelMerge then (s.setStorage cf w.storage.computeGCScore, w.calls)
    else
      let s := s.setStorage cf w.storage
      let calls := w.calls ++ s.logAndApplyCalls (mergeEdit w seq) io
      let s := (s.logAndApply (mergeEdit w seq) io).2
      match s.columnFamilies.lookup cf with
      | none => (s, calls)
      | some st =>
        let marked := Walk.markFileIfNeedMerge st w.candidates o.maxSortedRuns
        (s.setStorage cf marked.storage, calls ++ marked.calls)

/-- `DeleteFilesInRanges` after the base database has deleted the tables. -/
def deleteFilesInRanges (o : MergeOptions) (s : BlobFileSet) (cf : UInt32) (diff : SizeDiff)
    (seq : ℕ) (io : ManifestIO) : BlobFileSet × List TransitCall :=
  match s.columnFamilies.lookup cf with
  | none => (s, [])
  | some st =>
    let w := Walk.applyDiff (Walk.tablesDeleted o) st diff
    if !o.levelMerge then (s.setStorage cf w.storage.computeGCScore, w.calls)
    else
      let s := s.setStorage cf w.storage
      ((s.logAndApply (mergeEdit w seq) io).2,
        w.calls ++ s.logAndApplyCalls (mergeEdit w seq) io)

end BlobFileSet

end AegonKV
