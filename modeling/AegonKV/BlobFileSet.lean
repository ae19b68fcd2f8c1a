import AegonKV.VersionEditCoding
import Mathlib.Data.List.AList

/-!
# The set of all blob files

A `BlobFileSet` keeps one `BlobStorage` for each open column family and the manifest. Every change
of the files goes through `LogAndApply`, which validates an edit, appends it to the manifest, syncs
the manifest and applies the edit to the storage. Hash maps of the source are association lists
without duplicate keys.
-/

namespace AegonKV
open LittleEndian

structure TitanCFOptions where
  comparator : Bytes → Bytes → Ordering
  numLevels : ℕ
  mergeSmallFileThreshold : UInt64
  blobFileDiscardableRatio : Float

structure GCScore where
  fileNumber : UInt64
  score : Float

structure BlobStorage where
  cfOptions : TitanCFOptions
  files : AList fun _ : UInt64 => BlobFileMeta
  levelsFileCount : List ℤ
  /-- The multimap from the smallest key of a file to the file. -/
  blobRanges : List (Key × UInt64)
  gcScore : List GCScore
  obsoleteFiles : List (UInt64 × ℕ)
  destroyed : Bool
  /-- Whether `levels_file_count_` was indexed behind its end. -/
  levelFault : Bool

/-- `GetDiscardableRatio`; the subtraction wraps as in the source. -/
def BlobFileMeta.getDiscardableRatio (file : BlobFileMeta) : Float :=
  if file.fileSize = 0 then 0
  else
    1 - file.liveDataSize.toFloat /
      (file.fileSize - UInt64.ofNat kBlobMaxHeaderSize - UInt64.ofNat kBlobFooterSize).toFloat

namespace BlobStorage

def empty (options : TitanCFOptions) : BlobStorage :=
  ⟨options, ∅, List.replicate options.numLevels 0, [], [], [], false, false⟩

/-- What `Seal` asks `FindFile` for: whether the file is there, and whether it is obsolete. -/
def fileStatus (st : BlobStorage) (number : UInt64) : Option Bool :=
  (st.files.lookup number).map (·.isObsolete)

/-- `blob_ranges_.emplace`, behind the files with the same smallest key. -/
def insertRange (st : BlobStorage) (key : Key) (number : UInt64) : List (Key × UInt64) :=
  let before := fun p : Key × UInt64 => st.cfOptions.comparator p.1.val key.val != .gt
  st.blobRanges.takeWhile before ++ (key, number) :: st.blobRanges.dropWhile before

/-- The access `levels_file_count_[level]`, with no counter for a level of `num_levels` or more. -/
def faultsAt (st : BlobStorage) (level : UInt32) : Bool :=
  decide (st.levelsFileCount.length ≤ level.toNat)

/-- `AddBlobFile`. `emplace` keeps a file that is there already. -/
def addBlobFile (st : BlobStorage) (number : UInt64) (file : BlobFileMeta) : BlobStorage :=
  { st with
    files := if number ∈ st.files then st.files else st.files.insert number file
    blobRanges := st.insertRange file.smallestKey number
    levelsFileCount := st.levelsFileCount.modify file.fileLevel.toNat (· + 1)
    levelFault := st.levelFault || st.faultsAt file.fileLevel }

def markFileObsolete (st : BlobStorage) (number : UInt64) (obsoleteSequence : ℕ) :
    Option BlobStorage :=
  match st.files.lookup number with
  | none => none
  | some file =>
    some { st with
      obsoleteFiles := st.obsoleteFiles ++ [(number, obsoleteSequence)]
      files := st.files.insert number { file with state := .kObsolete }
      levelsFileCount := st.levelsFileCount.modify file.fileLevel.toNat (· - 1)
      levelFault := st.levelFault || st.faultsAt file.fileLevel }

def score (st : BlobStorage) (file : BlobFileMeta) : Float :=
  if file.fileSize < st.cfOptions.mergeSmallFileThreshold then st.cfOptions.blobFileDiscardableRatio
  else file.getDiscardableRatio

def computeGCScore (st : BlobStorage) : BlobStorage :=
  { st with
    gcScore := ((st.files.entries.filter fun e => !e.2.isObsolete).map fun e =>
      ⟨e.1, st.score e.2⟩).mergeSort fun a b => !decide (a.score < b.score) }

def removeFile (st : BlobStorage) (number : UInt64) : BlobStorage :=
  match st.files.lookup number with
  | none => st
  | some file =>
    { st with
      blobRanges := st.blobRanges.eraseP fun p =>
        st.cfOptions.comparator p.1.val file.smallestKey.val == .eq && p.2 == number
      files := st.files.erase number }

/-- `GetObsoleteFiles`: the numbers of the removed files, and the storage without them. -/
def getObsoleteFiles (st : BlobStorage) (oldestSequence : ℕ) : List UInt64 × BlobStorage :=
  let removed := (st.obsoleteFiles.filter fun p => p.2 < oldestSequence).map (·.1)
  (removed, { removed.foldl removeFile st with
    obsoleteFiles := st.obsoleteFiles.filter fun p => !decide (p.2 < oldestSequence) })

def maybeRemove (st : BlobStorage) : Bool := st.destroyed && st.obsoleteFiles.isEmpty

/-- The files of one range, between `lower_bound` of the start and `upper_bound` of the limit, where
the first does not stand behind the second. -/
def filesInRange (st : BlobStorage) (includeEnd : Bool) (range : Option Key × Option Key) :
    List UInt64 :=
  let cmp := st.cfOptions.comparator
  let fromStart := st.blobRanges.dropWhile fun p => range.1.any fun b => cmp p.1.val b.val == .lt
  let inBounds := fromStart.takeWhile fun p => range.2.all fun e => cmp p.1.val e.val != .gt
  (inBounds.filter fun p => (st.files.lookup p.2).any fun file =>
    !file.isObsolete && !(file.largestKey.val.isEmpty && range.2.isSome) &&
      range.2.all fun e =>
        if includeEnd then cmp file.largestKey.val e.val != .gt
        else cmp file.largestKey.val e.val == .lt).map (·.2)

def getBlobFilesInRanges (st : BlobStorage) (ranges : List (Option Key × Option Key))
    (includeEnd : Bool) : List UInt64 := ranges.flatMap (st.filesInRange includeEnd)

end BlobStorage

abbrev BlobStorages := AList fun _ : UInt32 => BlobStorage

namespace CFEditCollector

/-- The loop of `Apply` over the deleted files that were not added. -/
def applyDeleted : List (UInt64 × ℕ) → BlobStorage → Status × BlobStorage
  | [], st => (.ok, st)
  | file :: files, st =>
    match st.markFileObsolete file.1 file.2 with
    | none => (.notFound ("Invalid file number " ++ toString file.1), st)
    | some st => applyDeleted files st

/-- The deletions `Apply` does not skip. -/
def goneFiles {μ : Type} (c : CFEditCollector μ) : List (UInt64 × ℕ) :=
  c.deletedFiles.filter fun file => file.1 ∉ c.addedFiles.map (·.1)

def apply (c : CFEditCollector BlobFileMeta) (st : BlobStorage) : Status × BlobStorage :=
  let st := c.newFiles.foldl (fun st file => st.addBlobFile file.1 file.2) st
  match applyDeleted c.goneFiles st with
  | (s, st) => if s.isOk then (.ok, st.computeGCScore) else (s, st)

end CFEditCollector

namespace EditCollector

/-- `Seal`. The keys of `column_families_` are the column families of the edits. -/
def sealIn (c : EditCollector BlobFileMeta) (cfs : List UInt32) (storages : BlobStorages) :
    Except Status Unit :=
  cfs.forM fun cf =>
    match storages.lookup cf with
    | none => .ok ()
    | some st => (c.columnFamilies cf).sealed st.fileStatus

def applyTo (c : EditCollector BlobFileMeta) : List UInt32 → BlobStorages → Status × BlobStorages
  | [], storages => (.ok, storages)
  | cf :: cfs, storages =>
    match storages.lookup cf with
    | none => c.applyTo cfs storages
    | some st =>
      match (c.columnFamilies cf).apply st with
      | (s, st) => if s.isOk then c.applyTo cfs (storages.insert cf st) else (s, storages.insert cf st)

end EditCollector

/-- What the environment answers to `AddRecord` and to the sync of the manifest. A record whose sync
fails stays in the file. -/
structure ManifestIO where
  addRecord : Status
  sync : Status

structure BlobFileSet where
  columnFamilies : BlobStorages
  /-- Dropped column families whose handle is not destroyed yet. -/
  obsoleteColumns : List UInt32
  nextFileNumber : UInt64
  /-- The records of the manifest file. -/
  manifest : List Bytes
  manifestFileNumber : UInt64
  obsoleteManifests : List UInt64

namespace BlobFileSet

def addColumnFamilies (s : BlobFileSet) (cfs : List (UInt32 × TitanCFOptions)) : BlobFileSet :=
  { s with
    columnFamilies := cfs.foldl (fun storages cf =>
      if cf.1 ∈ storages then storages else storages.insert cf.1 (.empty cf.2)) s.columnFamilies }

/-- `WriteSnapshot`. -/
def snapshotEdits (s : BlobFileSet) : List (VersionEdit BlobFileMeta) :=
  ⟨0, some s.nextFileNumber, [], []⟩ :: s.columnFamilies.entries.map fun e =>
    ⟨e.1, none, (e.2.files.entries.filter fun f => !f.2.isObsolete).map fun f => (f.1, f.2), []⟩

def writeSnapshot (s : BlobFileSet) : List Bytes := s.snapshotEdits.map VersionEdit.encodeTo

/-- The edit `LogAndApply` logs. -/
def withNext (s : BlobFileSet) (edit : VersionEdit BlobFileMeta) : VersionEdit BlobFileMeta :=
  { edit with nextFileNumber := some s.nextFileNumber }

def logAndApply (s : BlobFileSet) (edit : VersionEdit BlobFileMeta) (io : ManifestIO) :
    Status × BlobFileSet :=
  match EditCollector.empty.addEdit (s.withNext edit) with
  | .error status => (status, s)
  | .ok collector =>
    match collector.sealIn [edit.columnFamilyId] s.columnFamilies with
    | .error status => (status, s)
    | .ok () =>
      if !io.addRecord.isOk then (io.addRecord, s)
      else
        let logged := { s with manifest := s.manifest ++ [(s.withNext edit).encodeTo] }
        if !io.sync.isOk then (io.sync, logged)
        else
          match collector.applyTo [edit.columnFamilyId] s.columnFamilies with
          | (status, storages) => (status, { logged with columnFamilies := storages })

def dropEdit (cf : UInt32) (st : BlobStorage) (obsoleteSequence : ℕ) : VersionEdit BlobFileMeta :=
  ⟨cf, none, [], (st.files.entries.filter fun f => !f.2.isObsolete).map fun f =>
    (f.1, obsoleteSequence)⟩

def dropColumnFamilies (s : BlobFileSet) (obsoleteSequence : ℕ) :
    List (UInt32 × ManifestIO) → Status × BlobFileSet
  | [] => (.ok, s)
  | (cf, io) :: cfs =>
    match s.columnFamilies.lookup cf with
    | none => (.notFound "invalid column family", s)
    | some st =>
      match s.logAndApply (dropEdit cf st obsoleteSequence) io with
      | (status, s') =>
        if !status.isOk then (status, s')
        else
          dropColumnFamilies { s' with obsoleteColumns := cf :: s'.obsoleteColumns } obsoleteSequence
            cfs

def deleteBlobFilesInRanges (s : BlobFileSet) (cf : UInt32) (ranges : List (Option Key × Option Key))
    (includeEnd : Bool) (obsoleteSequence : ℕ) (io : ManifestIO) : Status × BlobFileSet :=
  match s.columnFamilies.lookup cf with
  | none => (.notFound "invalid column family", s)
  | some st =>
    s.logAndApply ⟨cf, none, [], (st.getBlobFilesInRanges ranges includeEnd).map fun f =>
      (f, obsoleteSequence)⟩ io

def maybeDestroyColumnFamily (s : BlobFileSet) (cf : UInt32) : Status × BlobFileSet :=
  let s := { s with obsoleteColumns := s.obsoleteColumns.filter (· != cf) }
  match s.columnFamilies.lookup cf with
  | none => (.notFound "invalid column family", s)
  | some st =>
    let st := { st with destroyed := true }
    (.ok, { s with
      columnFamilies :=
        if st.maybeRemove then s.columnFamilies.erase cf else s.columnFamilies.insert cf st })

/-- One round of the loop of `GetObsoleteFiles`. -/
def purgeColumn (s : BlobFileSet) (oldestSequence : ℕ) (acc : List UInt64 × BlobStorages)
    (cf : UInt32) : List UInt64 × BlobStorages :=
  if cf ∈ s.obsoleteColumns then acc
  else
    match acc.2.lookup cf with
    | none => acc
    | some st =>
      match st.getObsoleteFiles oldestSequence with
      | (removed, st) =>
        (acc.1 ++ removed, if st.maybeRemove then acc.2.erase cf else acc.2.insert cf st)

def getObsoleteFiles (s : BlobFileSet) (oldestSequence : ℕ) :
    (List UInt64 × List UInt64) × BlobFileSet :=
  match s.columnFamilies.keys.foldl (s.purgeColumn oldestSequence) ([], s.columnFamilies) with
  | (removed, storages) =>
    ((removed, s.obsoleteManifests), { s with columnFamilies := storages, obsoleteManifests := [] })

end BlobFileSet
end AegonKV
