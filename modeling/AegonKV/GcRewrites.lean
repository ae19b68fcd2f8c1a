import AegonKV.FaultyBuilder
import AegonKV.GcMergeIterator
import AegonKV.InternalKey
import AegonKV.BitMap

/-!
# The rewrites of a GC job

`DoRunGC` with the body of its loop, and `InstallOutputBlobFiles`. The database does not change while
the loop runs, nobody shuts it down, and a write batch takes its one entry. Writes into the output
files may fail.
-/

namespace AegonKV.GcRewrites
open LittleEndian AegonKV InternalKey

inductive LsmEntry
  | found (entry : Bytes) (isBlobIndex : Bool)
  | notFound
  | failed (s : Status)

/-- Why a function does not return OK: it returns a status, or it does something that the source
asserts not to happen. -/
inductive Stop
  | failed (s : Status)
  | undefined
  deriving DecidableEq, Repr

inductive BatchEntry
  | put (value : Bytes)
  | putBlobIndex (entry : Bytes)
  deriving DecidableEq, Repr

/-- An entry of `rewrite_batches_`: what the write callback holds, and the batch. -/
structure Rewrite where
  key : Bytes
  blobIndex : BlobIndex
  newBlobIndex : BlobIndex
  batch : BatchEntry
  deriving DecidableEq, Repr

structure Output where
  fileNumber : UInt64
  /-- Which of the job's output files it is. -/
  nth : ℕ
  builder : FaultyBuilder

structure Job where
  inputs : List (GcJob.Input Bytes)
  useBitmap : Bool
  storageFound : Bool
  /-- What `CopyInvalidEntryIndexesTo` copies for an input. -/
  bitmaps : UInt64 → BitMap
  getImpl : Bytes → LsmEntry
  /-- `blob_run_mode` is `kFallback`. -/
  fallback : Bool
  blobFileTargetSize : ℕ
  options : BuilderOptions
  /-- What the calls of `NewFile` return. -/
  newFile : ℕ → Except Status UInt64
  faults : ℕ → WriteFaults
  batchFinishFiles : Status

structure State where
  lastKey : Bytes := []
  lastKeyIsFresh : Bool := false
  fileSize : ℕ := 0
  output : Option Output := none
  blobFileBuilders : List Output := []
  rewriteBatches : List Rewrite := []

def blobIndexOf (x : UInt64 × BlobRec Bytes) : BlobIndex :=
  { fileNumber := x.1, blobHandle := x.2.handle }

/-- `operator==`, which leaves the index of the entry out. -/
def sameBlob (lhs rhs : BlobIndex) : Bool :=
  lhs.fileNumber == rhs.fileNumber && lhs.blobHandle.offset == rhs.blobHandle.offset &&
    lhs.blobHandle.size == rhs.blobHandle.size

/-- `BatchWriteNewIndices`. The status is assigned for every context. -/
def batchWriteNewIndices : List BlobRecordContext → Status → List Rewrite × Status
  | [], s => ([], s)
  | ctx :: contexts, _ =>
    let blobIndex : BlobIndex :=
      { fileNumber := ctx.newBlobIndex.fileNumber, blobHandle := ctx.newBlobIndex.blobHandle }
    match parseInternalKey ctx.key with
    | .error s => ([], s)
    | .ok ikey =>
      let (rewrites, s) := batchWriteNewIndices contexts .ok
      (⟨ikey.userKey, ctx.originalBlobIndex, blobIndex, .putBlobIndex blobIndex.encodeTo⟩ :: rewrites, s)

namespace Job

variable (job : Job)

def reads : GcJob.Job Bytes := ⟨job.inputs, job.useBitmap, job.storageFound, fun _ => .ok⟩

def discardEntry (key : Bytes) (blobIndex : BlobIndex) : Except Status Bool :=
  match job.getImpl key with
  | .failed s => .error s
  | .notFound => .ok true
  | .found _ false => .ok true
  | .found entry true =>
    match BlobIndex.decodeFrom entry with
    | .error s => .error s
    | .ok (other, _) => .ok (!sameBlob blobIndex other)

def validateByBitMap (x : UInt64 × BlobRec Bytes) : Except Stop Bool :=
  match (job.bitmaps x.1).getBit x.2.handle.index.toNat with
  | .error _ => .error .undefined
  | .ok result => .ok (result == 0)

def discardable (x : UInt64 × BlobRec Bytes) : Except Stop Bool :=
  if job.useBitmap then (job.validateByBitMap x).map (!·)
  else (job.discardEntry x.2.key (blobIndexOf x)).mapError .failed

/-- A new output file, once the one before it has reached the target size. `file_size` does not grow
with the records. -/
def openOutput (st : State) : Except Stop State := do
  let builders ←
    if st.fileSize ≥ job.blobFileTargetSize then
      match st.output with
      | none => .error .undefined
      | some output => .ok (st.blobFileBuilders ++ [output])
    else .ok st.blobFileBuilders
  let number ← (job.newFile builders.length).mapError .failed
  return { st with
    fileSize := 0
    output := some ⟨number, builders.length,
      .new (job.faults builders.length) job.options BlobFileHeader.kVersion2⟩
    blobFileBuilders := builders }

/-- The context of a record on its way to output file `number`. -/
def recordContext (number : UInt64) (x : UInt64 × BlobRec Bytes) : BlobRecordContext :=
  { key := appendInternalKey ⟨x.2.key, 1, .kTypeValue⟩
    originalBlobIndex := blobIndexOf x
    newBlobIndex := ⟨number, default, 0, default⟩ }

/-- The record is added to the output file, and the contexts that come back become rewrites. -/
def addToOutput (st : State) (output : Output) (x : UInt64 × BlobRec Bytes) : Except Stop State :=
  let (builder, contexts) := output.builder.add (job.faults output.nth) ⟨x.2.key, x.2.value⟩
    (recordContext output.fileNumber x)
  let (rewrites, s) := batchWriteNewIndices contexts .ok
  if s.isOk then
    .ok { st with
      output := some { output with builder := builder }
      rewriteBatches := st.rewriteBatches ++ rewrites }
  else .error (.failed s)

def rewriteEntry (st : State) (x : UInt64 × BlobRec Bytes) : Except Stop State := do
  let st ←
    if st.output.isNone ∨ st.fileSize ≥ job.blobFileTargetSize then job.openOutput st else .ok st
  match st.output with
  | none => .error .undefined
  | some output => job.addToOutput st output x

def iteration (st : State) (x : UInt64 × BlobRec Bytes) : Except Stop State := do
  let sameKey := !st.lastKey.isEmpty && x.2.key == st.lastKey
  if sameKey && st.lastKeyIsFresh then return st
  let st := if sameKey then st else { st with lastKey := x.2.key, lastKeyIsFresh := false }
  if ← job.discardable x then return st
  let st := if job.useBitmap then st else { st with lastKeyIsFresh := true }
  if job.fallback then
    return { st with rewriteBatches := st.rewriteBatches ++
      [⟨x.2.key, blobIndexOf x, ⟨0, default, 0, default⟩, .put x.2.value⟩] }
  job.rewriteEntry st x

variable [LinearOrder Bytes]

def loop : ℕ → GcJob.BlobFileMergeIterator Bytes → State →
    Except Stop (GcJob.BlobFileMergeIterator Bytes × State)
  | 0, m, st => .ok (m, st)
  | fuel + 1, m, st =>
    match m.current with
    | none => .ok (m, st)
    | some it =>
      if m.isValid then
        match (it.curBlobRecord.toList.map fun r => (it.fileNumber, r)).foldlM job.iteration st with
        | .error e => .error e
        | .ok st => loop fuel m.next st
      else .ok (m, st)

def doRunGC : Except Stop State :=
  match job.reads.buildIterator with
  | (s, iter) =>
    if !s.isOk then .error (.failed s)
    else
      match iter with
      | none => .error (.failed (.aborted "Build iterator for gc failed"))
      | some iter =>
        match job.loop job.reads.fuel iter.seekToFirst {} with
        | .error e => .error e
        | .ok (iter, st) =>
          if iter.getStatus.isOk then
            .ok { st with
              output := none
              blobFileBuilders := st.blobFileBuilders ++ st.output.toList }
          else .error (.failed iter.getStatus)

/-- The loop of `InstallOutputBlobFiles`: the rewrites it adds, and the files it hands over with their
numbers. -/
def finishOutputs : List Output → Except Stop (List Rewrite × List (UInt64 × Bytes))
  | [] => .ok ([], [])
  | output :: outputs =>
    let (builder, contexts, s) := output.builder.finish (job.faults output.nth)
    let (rewrites, s) := batchWriteNewIndices contexts s
    if s.isOk then
      match finishOutputs outputs with
      | .error e => .error e
      | .ok (more, files) =>
        .ok (rewrites ++ more, (output.fileNumber, builder.builder.file) :: files)
    else .error (.failed s)

structure Installed where
  rewriteBatches : List Rewrite
  files : List (UInt64 × Bytes)

def installOutputBlobFiles (st : State) : Except Stop Installed :=
  match job.finishOutputs st.blobFileBuilders with
  | .error e => .error e
  | .ok (rewrites, files) =>
    if job.batchFinishFiles.isOk then .ok ⟨st.rewriteBatches ++ rewrites, files⟩
    else .error (.failed job.batchFinishFiles)

end Job

end AegonKV.GcRewrites
