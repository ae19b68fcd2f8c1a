import AegonKV.UncompressionDict

/-!
# Building blob files

`BlobFileBuilder` with appends that succeed. With a dictionary the builder holds back the records
and the inline entries between them until there are enough samples, trains the dictionary and then
writes the records that wait. `CompressData` and the training of a dictionary are parameters.
-/

namespace AegonKV
open LittleEndian

structure BuilderOptions where
  codec : Codec
  maxDictBytes : ℕ
  zstdMaxTrainBytes : ℕ
  /-- `ZSTD_TrainDictionary` from the samples, their lengths and the size limit. -/
  trainDictionary : Bytes → List ℕ → ℕ → Bytes
  comparator : Bytes → Bytes → Ordering

structure BlobRecordContext where
  key : Bytes
  originalBlobIndex : BlobIndex := ⟨0, default, 0, default⟩
  newBlobIndex : BlobIndex := ⟨0, default, 0, default⟩
  hasValue : Bool := false
  value : Bytes := []
  deriving DecidableEq, Repr

def BlobRecordContext.setHandle (ctx : BlobRecordContext) (handle : BlobHandle) :
    BlobRecordContext :=
  { ctx with newBlobIndex := { ctx.newBlobIndex with blobHandle := handle } }

inductive BuilderState
  | kBuffered | kUnbuffered
  deriving DecidableEq, Repr

structure BlobFileBuilder where
  options : BuilderOptions
  builderState : BuilderState
  blobFileVersion : UInt32
  /-- What has been appended to `file_`. -/
  file : Bytes
  status : Status
  /-- The dictionary of `encoder_`, at first the empty one. -/
  encoderDict : Bytes := []
  sampleRecords : List Bytes := []
  sampleStrLen : ℕ := 0
  compressionDict : Option Bytes := none
  cachedContexts : List BlobRecordContext := []
  numEntries : ℕ := 0
  smallestKey : Bytes := []
  largestKey : Bytes := []
  liveDataSize : ℕ := 0

namespace BlobFileBuilder

/-- `WriteHeader`. -/
def header (o : BuilderOptions) (version : UInt32) : BlobFileHeader :=
  ⟨version, if o.maxDictBytes > 0 then BlobFileHeader.kHasUncompressionDictionary else 0⟩

/-- The constructor. Writing the header overwrites the status that a dictionary in version 1 set. -/
def new (o : BuilderOptions) (version : UInt32) : BlobFileBuilder :=
  let b : BlobFileBuilder :=
    { options := o
      builderState := if o.maxDictBytes > 0 then .kBuffered else .kUnbuffered
      blobFileVersion := version
      file := []
      status := .ok }
  if version ≠ BlobFileHeader.kVersion1 ∧ version ≠ BlobFileHeader.kVersion2 then
    { b with status := .invalidArgument "unrecognized blob file version" }
  else { b with file := (header o version).encodeTo }

def writeEncoderData (b : BlobFileBuilder) (encoded : Bytes) : BlobFileBuilder × BlobHandle :=
  ({ b with
      file := b.file ++ encoded
      numEntries := b.numEntries + 1
      liveDataSize := b.liveDataSize + encoded.length },
    ⟨UInt64.ofNat b.file.length, UInt64.ofNat encoded.length, UInt64.ofNat b.numEntries⟩)

/-- The payload and the type that `Compress` settles on with the encoder's dictionary. -/
def compress (b : BlobFileBuilder) : Bytes → Bytes × UInt8 := b.options.codec.compress b.encoderDict

/-- The loops of `FlushSampleRecords`. There is a context without a value for every sample, which
the source asserts. -/
def flushSamples (b : BlobFileBuilder) :
    List Bytes → List BlobRecordContext → BlobFileBuilder × List BlobRecordContext
  | [], contexts => (b, contexts)
  | sample :: samples, contexts =>
    let inline := contexts.takeWhile (·.hasValue)
    match contexts.dropWhile (·.hasValue) with
    | [] => (b, inline)
    | ctx :: contexts =>
      let (b, handle) := b.writeEncoderData (BlobEncoder.encodeSlice b.compress sample)
      let (b, out) := flushSamples b samples contexts
      (b, inline ++ ctx.setHandle handle :: out)

def flushSampleRecords (b : BlobFileBuilder) : BlobFileBuilder × List BlobRecordContext :=
  let (b, out) := b.flushSamples b.sampleRecords b.cachedContexts
  ({ b with sampleRecords := [], sampleStrLen := 0, cachedContexts := [] }, out)

def enterUnbuffered (b : BlobFileBuilder) : BlobFileBuilder × List BlobRecordContext :=
  let dict := b.options.trainDictionary b.sampleRecords.flatten (b.sampleRecords.map (·.length))
    b.options.maxDictBytes
  let (b, out) := { b with compressionDict := some dict, encoderDict := dict }.flushSampleRecords
  ({ b with builderState := .kUnbuffered }, out)

def extendRange (b : BlobFileBuilder) (key : Bytes) : BlobFileBuilder :=
  { b with
    smallestKey := if b.smallestKey.isEmpty || b.options.comparator key b.smallestKey == .lt then key
      else b.smallestKey
    largestKey := if b.largestKey.isEmpty || b.options.comparator key b.largestKey == .gt then key
      else b.largestKey }

def add (b : BlobFileBuilder) (record : BlobRecord) (ctx : BlobRecordContext) :
    BlobFileBuilder × List BlobRecordContext :=
  if !b.status.isOk then (b, [])
  else
    match b.builderState with
    | .kBuffered =>
      let recordStr := record.encodeTo
      let b := { b with
        sampleRecords := b.sampleRecords ++ [recordStr]
        sampleStrLen := b.sampleStrLen + recordStr.length
        cachedContexts := b.cachedContexts ++ [ctx] }
      let (b, out) :=
        if b.options.zstdMaxTrainBytes > 0 ∧ b.sampleStrLen ≥ b.options.zstdMaxTrainBytes then
          b.enterUnbuffered
        else (b, [])
      (b.extendRange record.key, out)
    | .kUnbuffered =>
      let (b, handle) := b.writeEncoderData (BlobEncoder.encodeRecord b.compress record)
      (b.extendRange record.key, [ctx.setHandle handle])

def addSmall (b : BlobFileBuilder) (ctx : BlobRecordContext) : BlobFileBuilder :=
  { b with cachedContexts := b.cachedContexts ++ [ctx] }

/-- The blocks that `Finish` writes for a dictionary, and the handle for the footer. -/
def metaBlocks (offset : ℕ) (dict : Bytes) : Bytes × BlockHandle :=
  let dictBlock : BlockHandle := ⟨UInt64.ofNat offset, UInt64.ofNat dict.length⟩
  let index := metaIndexBlock kCompressionDictBlockName dictBlock
  (rawBlock dict ++ rawBlock index,
    ⟨UInt64.ofNat (offset + (rawBlock dict).length), UInt64.ofNat index.length⟩)

def finish (b : BlobFileBuilder) : BlobFileBuilder × List BlobRecordContext × Status :=
  if !b.status.isOk then (b, [], b.status)
  else
    let (b, out) := if b.builderState = .kBuffered then b.enterUnbuffered else (b, [])
    let (blocks, handle) : Bytes × BlockHandle :=
      if b.options.maxDictBytes > 0 then metaBlocks b.file.length (b.compressionDict.getD [])
      else ([], {})
    let footer : BlobFileFooter := ⟨handle⟩
    ({ b with file := b.file ++ blocks ++ footer.encodeTo }, out, .ok)

end BlobFileBuilder

inductive BuilderCall
  | add (record : BlobRecord) (ctx : BlobRecordContext)
  | addSmall (ctx : BlobRecordContext)

namespace BuilderCall

def context : BuilderCall → BlobRecordContext
  | .add _ ctx => ctx
  | .addSmall ctx => ctx

def record? : BuilderCall → Option BlobRecord
  | .add record _ => some record
  | .addSmall _ => none

/-- The builder and the contexts it has handed out so far, after one more call. -/
def apply (s : BlobFileBuilder × List BlobRecordContext) : BuilderCall →
    BlobFileBuilder × List BlobRecordContext
  | .add record ctx => ((s.1.add record ctx).1, s.2 ++ (s.1.add record ctx).2)
  | .addSmall ctx => (s.1.addSmall ctx, s.2)

end BuilderCall

/-- The builder after all calls and `Finish`, with all the contexts it handed out. -/
def buildFile (o : BuilderOptions) (version : UInt32) (calls : List BuilderCall) :
    BlobFileBuilder × List BlobRecordContext :=
  let s := calls.foldl BuilderCall.apply (BlobFileBuilder.new o version, [])
  (s.1.finish.1, s.2 ++ s.1.finish.2.1)

end AegonKV
