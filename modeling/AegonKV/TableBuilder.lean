import AegonKV.BlobFileRoundTrip
import AegonKV.BlobStorage
import AegonKV.InternalKey

/-!
# `TitanTableBuilder`

The builder of a table sits between a flush or a compaction and the base builder. It moves large
values into blob files, takes values back in fallback mode, and moves values on to new blob files for
level merge. Blob files are created, written and finished without an error; reading one may fail. The
base builder takes every entry.
-/

namespace AegonKV.TableBuilder
open LittleEndian AegonKV InternalKey

inductive TitanBlobRunMode
  | kNormal | kReadOnly | kFallback
  deriving DecidableEq, Repr

structure BlobFileView where
  fileLevel : ℤ
  fileState : FileState

structure Config where
  blobRunMode : TitanBlobRunMode
  minBlobSize : ℕ
  blobFileTargetSize : ℕ
  levelMerge : Bool
  targetLevel : ℤ
  mergeLevel : ℤ
  options : BuilderOptions
  /-- The numbers that `NewFile` hands out. -/
  newFile : ℕ → UInt64
  getBlobRecord : UInt64 → BlobHandle → Except Status BlobRecord

structure AddCall where
  key : Bytes
  value : Bytes
  findFile : UInt64 → Option BlobFileView

structure State where
  status : Status := .ok
  /-- What `base_builder_` has been given. -/
  base : List (Bytes × Bytes) := []
  /-- `blob_handle_` and `blob_builder_`. -/
  blob : Option (UInt64 × BlobFileBuilder) := none
  finishedBlobs : List (UInt64 × Bytes) := []

namespace State

def ok (t : State) : Bool :=
  t.status.isOk && t.blob.all fun blob => blob.2.status.isOk

def builderUnbuffered (t : State) : Bool :=
  t.blob.all fun blob => blob.2.builderState == .kUnbuffered

def addBaseEntry (t : State) (key value : Bytes) : State :=
  { t with base := t.base ++ [(key, value)] }

def addBlobResultsToBase (t : State) : List BlobRecordContext → State
  | [] => t
  | ctx :: contexts =>
    match parseInternalKey ctx.key with
    | .error s => { t with status := s }
    | .ok ikey =>
      let t := { t with status := .ok }
      let t :=
        if ctx.hasValue then t.addBaseEntry ctx.key ctx.value
        else t.addBaseEntry (appendInternalKey { ikey with type := .kTypeBlobIndex })
          ctx.newBlobIndex.encodeTo
      t.addBlobResultsToBase contexts

/-- `FinishBlobFile`. A file that cannot be finished is deleted, and the status is that of the
deletion. -/
def finishBlobFile (t : State) : State :=
  match t.blob with
  | none => t
  | some (number, b) =>
    let (b, contexts, s) := b.finish
    let t := { t with blob := some (number, b) }.addBlobResultsToBase contexts
    if s.isOk && t.ok then
      { t with finishedBlobs := t.finishedBlobs ++ [(number, b.file)], blob := none }
    else { t with status := .ok }

/-- `AddBase`: past a builder that holds entries back nothing may go directly. -/
def addBase (t : State) (key : Bytes) (ikey : ParsedInternalKey) (value : Bytes) : State :=
  if t.builderUnbuffered then t.addBaseEntry key value
  else
    let ctx : BlobRecordContext :=
      { key := appendInternalKey ikey, hasValue := true, value := value }
    { t with blob := t.blob.map fun blob => (blob.1, blob.2.addSmall ctx) }

/-- `Finish`, with the files that go to `BatchFinishFiles` in `finishedBlobs`. -/
def finish (t : State) : State := { t.finishBlobFile with status := .ok }

end State

namespace Config

variable (c : Config)

/-- `blob_builder_`, which is created for the first value after a file was finished. -/
def currentBlob (t : State) : UInt64 × BlobFileBuilder :=
  t.blob.getD (c.newFile t.finishedBlobs.length, .new c.options BlobFileHeader.kVersion2)

def addBlob (t : State) (ikey : ParsedInternalKey) (value : Bytes) : State :=
  if !t.ok then t
  else
    let (number, b) := c.currentBlob t
    let ctx : BlobRecordContext :=
      { key := appendInternalKey ikey, newBlobIndex := ⟨number, default, 0, default⟩ }
    let (b, contexts) := b.add ⟨ikey.userKey, value⟩ ctx
    let t := { t with blob := some (number, b) }
    let t := if b.file.length ≥ c.blobFileTargetSize then t.finishBlobFile else t
    t.addBlobResultsToBase contexts

def shouldMerge (file : Option BlobFileView) : Bool :=
  file.any fun file => file.fileLevel < c.targetLevel || file.fileState == .kToMerge

def add (t : State) (call : AddCall) : State :=
  if !t.ok then t
  else
    match parseInternalKey call.key with
    | .error s => { t with status := s }
    | .ok ikey =>
      let t := { t with status := .ok }
      if ikey.type = .kTypeBlobIndex ∧ c.blobRunMode = .kFallback then
        match BlobIndex.decodeFrom call.value with
        | .error s => { t with status := s }
        | .ok (index, _) =>
          match c.getBlobRecord index.fileNumber index.blobHandle with
          | .ok record =>
            t.addBaseEntry (appendInternalKey { ikey with type := .kTypeValue }) record.value
          | .error _ => t.addBaseEntry call.key call.value
      else if ikey.type = .kTypeValue ∧ c.blobRunMode = .kNormal then
        if call.value.length < c.minBlobSize then t.addBase call.key ikey call.value
        else c.addBlob t ikey call.value
      else if ikey.type = .kTypeBlobIndex ∧ c.levelMerge = true ∧ c.targetLevel ≥ c.mergeLevel ∧
          c.blobRunMode = .kNormal then
        match BlobIndex.decodeFrom call.value with
        | .error s => { t with status := s }
        | .ok (index, _) =>
          if c.shouldMerge (call.findFile index.fileNumber) then
            match c.getBlobRecord index.fileNumber index.blobHandle with
            | .ok record =>
              let t := c.addBlob t ikey record.value
              if t.ok then t else t.addBase call.key ikey call.value
            | .error _ => t.addBase call.key ikey call.value
          else t.addBase call.key ikey call.value
      else t.addBase call.key ikey call.value

def build (calls : List AddCall) : State := (calls.foldl c.add {}).finish

end Config

end AegonKV.TableBuilder
