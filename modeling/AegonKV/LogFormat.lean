import AegonKV.Coding
import AegonKV.Crc32cCombine
import AegonKV.Status

/-!
# The record log

The Titan manifest and the WAL are written by `log::Writer` and read by `log::Reader`. The file is made
of blocks of 32 KiB. A record is cut into fragments that do not cross the end of a block, each with a
checksum, its length and its type; what is left of a block is filled with zeros where no header fits.
-/

namespace AegonKV.Log
open LittleEndian AegonKV Crc32c

/-! ## The format -/

def kZeroType : ℕ := 0
def kFullType : ℕ := 1
def kFirstType : ℕ := 2
def kMiddleType : ℕ := 3
def kLastType : ℕ := 4
def kRecyclableFullType : ℕ := 5
def kRecyclableFirstType : ℕ := 6
def kRecyclableMiddleType : ℕ := 7
def kRecyclableLastType : ℕ := 8
def kMaxRecordType : ℕ := kRecyclableLastType

def kBlockSize : ℕ := 32768
def kHeaderSize : ℕ := 7
def kRecyclableHeaderSize : ℕ := 11

def kMaskDelta : BitVec 32 := 0xa282ead8#32

def mask (crc : BitVec 32) : BitVec 32 := (crc >>> 15 ||| crc <<< 17) + kMaskDelta

def unmask (maskedCrc : BitVec 32) : BitVec 32 :=
  let rot := maskedCrc - kMaskDelta
  rot >>> 17 ||| rot <<< 15

/-! ## The writer -/

structure Writer where
  blockOffset : ℕ := 0
  logNumber : UInt64
  recycleLogFiles : Bool

namespace Writer

def headerSize (w : Writer) : ℕ := if w.recycleLogFiles then kRecyclableHeaderSize else kHeaderSize

/-- The bytes that `EmitPhysicalRecord` appends, whose appends succeed. -/
def physicalRecord (w : Writer) (t : ℕ) (payload : Bytes) : Bytes :=
  let n := payload.length
  let buf4 := [UInt8.ofNat n, UInt8.ofNat (n >>> 8), UInt8.ofNat t]
  let crc := value [UInt8.ofNat t]
  let payloadCrc := value payload
  if t < kRecyclableFullType then
    let crc := mask (crc32cCombine crc payloadCrc (BitVec.ofNat 64 n))
    putFixed32 (UInt32.ofBitVec crc) ++ buf4 ++ payload
  else
    let buf7 := putFixed32 w.logNumber.toUInt32
    let crc := extend crc buf7
    let crc := mask (crc32cCombine crc payloadCrc (BitVec.ofNat 64 n))
    putFixed32 (UInt32.ofBitVec crc) ++ buf4 ++ buf7 ++ payload

def emitPhysicalRecord (w : Writer) (t : ℕ) (payload : Bytes) : Bytes × Writer :=
  let headerSize := if t < kRecyclableFullType then kHeaderSize else kRecyclableHeaderSize
  (w.physicalRecord t payload, { w with blockOffset := w.blockOffset + (headerSize + payload.length) })

def recordType (w : Writer) (begins ends : Bool) : ℕ :=
  if begins && ends then if w.recycleLogFiles then kRecyclableFullType else kFullType
  else if begins then if w.recycleLogFiles then kRecyclableFirstType else kFirstType
  else if ends then if w.recycleLogFiles then kRecyclableLastType else kLastType
  else if w.recycleLogFiles then kRecyclableMiddleType else kMiddleType

def trailer (w : Writer) : Bytes :=
  if kBlockSize - w.blockOffset < w.headerSize then
    List.replicate (kBlockSize - w.blockOffset) 0
  else []

/-- Over to the next block where this one has no room for a header. -/
def switchBlock (w : Writer) : Writer :=
  if kBlockSize - w.blockOffset < w.headerSize then { w with blockOffset := 0 } else w

def addRecordLoop : ℕ → Writer → Bool → Bytes → Bytes × Writer
  | 0, w, _, _ => ([], w)
  | fuel + 1, w, begins, left =>
    let w' := w.switchBlock
    let avail := kBlockSize - w'.blockOffset - w'.headerSize
    let fragmentLength := if left.length < avail then left.length else avail
    let ends := decide (left.length = fragmentLength)
    let (bytes, w'') := w'.emitPhysicalRecord (w'.recordType begins ends) (left.take fragmentLength)
    let left' := left.drop fragmentLength
    if left'.length > 0 then
      let (more, w''') := addRecordLoop fuel w'' false left'
      (w.trailer ++ bytes ++ more, w''')
    else (w.trailer ++ bytes, w'')

/-- `AddRecord`: what it appends. Every block after the first takes some of the record. -/
def addRecord (w : Writer) (slice : Bytes) : Bytes × Writer :=
  addRecordLoop (slice.length + 2) w true slice

def addRecords (w : Writer) : List Bytes → Bytes × Writer
  | [] => ([], w)
  | r :: rs =>
    let (bytes, w') := w.addRecord r
    let (more, w'') := addRecords w' rs
    (bytes ++ more, w'')

end Writer

/-! ## The reader -/

inductive WALRecoveryMode
  | kTolerateCorruptedTailRecords
  | kAbsoluteConsistency
  | kPointInTimeRecovery
  | kSkipAnyCorruptedRecords
  deriving DecidableEq

/-- The modes that do not expect an incomplete record at the end. -/
def WALRecoveryMode.strict (mode : WALRecoveryMode) : Bool :=
  mode = .kAbsoluteConsistency || mode = .kPointInTimeRecovery

def kEof : ℕ := kMaxRecordType + 1
def kBadRecord : ℕ := kMaxRecordType + 2
def kBadHeader : ℕ := kMaxRecordType + 3
def kOldRecord : ℕ := kMaxRecordType + 4
def kBadRecordLen : ℕ := kMaxRecordType + 5
def kBadRecordChecksum : ℕ := kMaxRecordType + 6

structure Report where
  bytes : ℕ
  status : { s : Status // s.isOk = false }

def reportCorruption (bytes : ℕ) (reason : String) : Report := ⟨bytes, .corruption reason, rfl⟩

/-- The file behind the reader: the bytes that have not been read, and after how many reads one
fails. -/
structure SequentialFile where
  rest : Bytes
  failure : Option (ℕ × { s : Status // s.isOk = false }) := none

def SequentialFile.read (file : SequentialFile) (n : ℕ) :
    Except { s : Status // s.isOk = false } Bytes × SequentialFile :=
  match file.failure with
  | some (0, s) => (.error s, file)
  | some (k + 1, s) => (.ok (file.rest.take n), ⟨file.rest.drop n, some (k, s)⟩)
  | none => (.ok (file.rest.take n), ⟨file.rest.drop n, none⟩)

structure Reader where
  file : SequentialFile
  checksum : Bool := true
  buffer : Bytes := []
  /-- The last read returned less than a block. -/
  eof : Bool := false
  readError : Bool := false
  endOfBufferOffset : ℕ := 0
  logNumber : UInt64 := 0
  recycled : Bool := false

/-- What `ReadMore` or `ReadPhysicalRecord` returns: a record type or an error, the fragment, the
number of dropped bytes and the calls of the reporter. -/
structure Physical where
  recordType : ℕ
  fragment : Bytes := []
  dropSize : ℕ := 0
  reports : List Report := []

namespace Reader

/-- `ReadMore`: a reader to go on with, or the error that `ReadPhysicalRecord` returns. -/
def readMore (r : Reader) : Except (Physical × Reader) Reader :=
  if !r.eof && !r.readError then
    match r.file.read kBlockSize with
    | (.error s, file) =>
      .error ({ recordType := kEof, reports := [⟨kBlockSize, s⟩] },
        { r with file := file, buffer := [], readError := true })
    | (.ok buffer, file) =>
      .ok { r with
        file := file
        buffer := buffer
        endOfBufferOffset := r.endOfBufferOffset + buffer.length
        eof := decide (buffer.length < kBlockSize) }
  else if r.buffer.length ≠ 0 then
    .error ({ recordType := kBadHeader, dropSize := r.buffer.length }, { r with buffer := [] })
  else .error ({ recordType := kEof }, r)

/-- The type of a header, a `char` that is converted to `unsigned int`. -/
def charToUnsigned (b : UInt8) : ℕ :=
  if b.toNat < 128 then b.toNat else 2 ^ 32 - 256 + b.toNat

def headerLength (header : Bytes) : ℕ :=
  (header.getD 4 0).toNat ||| (header.getD 5 0).toNat <<< 8

def headerType (header : Bytes) : ℕ := charToUnsigned (header.getD 6 0)

def isRecyclable (type : ℕ) : Bool :=
  decide (kRecyclableFullType ≤ type) && decide (type ≤ kRecyclableLastType)

def decodeFixed32 (src : Bytes) : ℕ := leNat (src.take 4)

/-- A header that lies in the buffer as a whole: the length, the checksum and what follows. -/
def readBody (r : Reader) (type length headerSize : ℕ) : Physical × Reader :=
  if headerSize + length > r.buffer.length then
    ({ recordType := kBadRecordLen, dropSize := r.buffer.length }, { r with buffer := [] })
  else if type = kZeroType ∧ length = 0 then
    ({ recordType := kBadRecord }, { r with buffer := [] })
  else if r.checksum &&
      (value ((r.buffer.drop 6).take (length + headerSize - 6)) !=
        unmask (BitVec.ofNat 32 (decodeFixed32 r.buffer))) then
    ({ recordType := kBadRecordChecksum, dropSize := r.buffer.length }, { r with buffer := [] })
  else
    ({ recordType := type, fragment := (r.buffer.drop headerSize).take length },
      { r with buffer := r.buffer.drop (headerSize + length) })

/-- `ReadPhysicalRecord`. Its loop goes on after a read of another block. -/
def readPhysicalRecord : ℕ → Reader → Option (Physical × Reader)
  | 0, _ => none
  | fuel + 1, r =>
    if r.buffer.length < kHeaderSize then
      match r.readMore with
      | .error result => some result
      | .ok r' => readPhysicalRecord fuel r'
    else
      let type := headerType r.buffer
      let length := headerLength r.buffer
      if isRecyclable type then
        let r := if r.endOfBufferOffset - r.buffer.length = 0 then { r with recycled := true } else r
        if r.buffer.length < kRecyclableHeaderSize then
          match r.readMore with
          | .error result => some result
          | .ok r' => readPhysicalRecord fuel r'
        else if decodeFixed32 (r.buffer.drop 7) ≠ r.logNumber.toNat then
          some ({ recordType := kOldRecord }, r)
        else some (r.readBody type length kRecyclableHeaderSize)
      else some (r.readBody type length kHeaderSize)

/-- The bytes between the reader and the end of the file. -/
def unread (r : Reader) : Bytes := r.buffer ++ r.file.rest

def readPhysical (r : Reader) : Option (Physical × Reader) :=
  readPhysicalRecord (r.file.rest.length + 3) r

/-- How `ReadRecord` takes a fragment that ends its loop or goes on. -/
inductive Turn
  | done (record : Option Bytes) (reports : List Report)
  | again (inFragmentedRecord : Bool) (scratch : Bytes) (reports : List Report)

/-- A fragmented record that is given up. -/
def abandon (inFragmentedRecord : Bool) (scratch : Bytes) (reason : String) : List Report :=
  if inFragmentedRecord then [reportCorruption scratch.length reason] else []

def badRecord (inFragmentedRecord : Bool) (scratch : Bytes) (reports : List Report) : Turn :=
  .again false (if inFragmentedRecord then [] else scratch)
    (reports ++ abandon inFragmentedRecord scratch "error in middle of record")

/-- The end of the file: an incomplete record is ignored, and reported in the strict modes. -/
def endOfFile (mode : WALRecoveryMode) (inFragmentedRecord : Bool) (scratch : Bytes)
    (reports : List Report) : Turn :=
  .done none (reports ++
    if mode.strict then abandon inFragmentedRecord scratch "error reading trailing data" else [])

/-- The `switch` of `ReadRecord`; the reader is as `ReadPhysicalRecord` left it. -/
def turn (mode : WALRecoveryMode) (r : Reader) (p : Physical) (inFragmentedRecord : Bool)
    (scratch : Bytes) : Turn :=
  let t := p.recordType
  let partialRecord (reason : String) : List Report :=
    if inFragmentedRecord && !scratch.isEmpty then [reportCorruption scratch.length reason] else []
  if t = kFullType ∨ t = kRecyclableFullType then
    .done (some p.fragment) (partialRecord "partial record without end(1)")
  else if t = kFirstType ∨ t = kRecyclableFirstType then
    .again true p.fragment (partialRecord "partial record without end(2)")
  else if t = kMiddleType ∨ t = kRecyclableMiddleType then
    if inFragmentedRecord then .again true (scratch ++ p.fragment) []
    else .again false scratch
      [reportCorruption p.fragment.length "missing start of fragmented record(1)"]
  else if t = kLastType ∨ t = kRecyclableLastType then
    if inFragmentedRecord then .done (some (scratch ++ p.fragment)) []
    else .again false scratch
      [reportCorruption p.fragment.length "missing start of fragmented record(2)"]
  else if t = kBadHeader then
    endOfFile mode inFragmentedRecord scratch
      (if mode.strict then [reportCorruption p.dropSize "truncated header"] else [])
  else if t = kEof then endOfFile mode inFragmentedRecord scratch []
  else if t = kOldRecord then
    if mode ≠ .kSkipAnyCorruptedRecords then endOfFile mode inFragmentedRecord scratch []
    else badRecord inFragmentedRecord scratch []
  else if t = kBadRecord then badRecord inFragmentedRecord scratch []
  else if t = kBadRecordLen ∧ r.eof then
    .done none
      (if mode.strict then [reportCorruption p.dropSize "truncated record body"] else [])
  else if t = kBadRecordLen ∨ t = kBadRecordChecksum then
    if r.recycled ∧ mode = .kTolerateCorruptedTailRecords then .done none []
    else badRecord inFragmentedRecord scratch [reportCorruption p.dropSize
      (if t = kBadRecordLen then "bad record length" else "checksum mismatch")]
  else
    .again false []
      [reportCorruption (p.fragment.length + if inFragmentedRecord then scratch.length else 0)
        ("unknown record type " ++ toString t)]

/-- The loop of `ReadRecord`; `none` if it does not end within the fuel. -/
def readRecordLoop (mode : WALRecoveryMode) :
    ℕ → Reader → Bool → Bytes → List Report → Option (Option Bytes × List Report × Reader)
  | 0, _, _, _, _ => none
  | fuel + 1, r, inFragmentedRecord, scratch, reports =>
    match r.readPhysical with
    | none => none
    | some (p, r') =>
      match r'.turn mode p inFragmentedRecord scratch with
      | .done record more => some (record, reports ++ p.reports ++ more, r')
      | .again inFragmentedRecord scratch more =>
        readRecordLoop mode fuel r' inFragmentedRecord scratch (reports ++ p.reports ++ more)

def readRecord (mode : WALRecoveryMode) (r : Reader) : Option (Option Bytes × List Report × Reader) :=
  readRecordLoop mode (r.unread.length + 2) r false [] []

end Reader

/-- What the caller of the reader sees, in order. -/
inductive Event
  | record (r : Bytes)
  | corruption (report : Report)

def readLoop (mode : WALRecoveryMode) : ℕ → Reader → Option (List Event)
  | 0, _ => none
  | fuel + 1, r =>
    match r.readRecord mode with
    | none => none
    | some (none, reports, _) => some (reports.map .corruption)
    | some (some record, reports, r') =>
      (readLoop mode fuel r').map fun events => reports.map .corruption ++ .record record :: events

def readLog (mode : WALRecoveryMode) (r : Reader) : Option (List Event) :=
  readLoop mode (r.unread.length + 1) r

end AegonKV.Log
