import AegonKV.SliceDecoding

/-!
# What reading a record touches

`BlobFileReader::ReadRecord` and `GetBlobRecord` of the iterator over memory. Allocations succeed
and a file read puts what the file has into the buffer it is given. Both decoders stay inside the
slice that was read exactly where a slice with a checksum in it has a whole header and the record
of the length in the header, and then they give back a record only under its checksum.
-/

namespace AegonKV
open LittleEndian ByteMemory MemorySlices

/-! ## What a checksum seals -/

def openPayload (uncompress : UInt8 → Bytes → Except Status Bytes) (compression : UInt8)
    (payload : Bytes) : Except Status BlobRecord :=
  if compression = kNoCompression then decodeInto BlobRecord.decodeFrom payload
  else do
    let buffer ← uncompress compression payload
    decodeInto BlobRecord.decodeFrom buffer

/-- The bytes start with a payload as the encoder stores it, checksum and all, and the record is
in it. -/
def Seals (uncompress : UInt8 → Bytes → Except Status Bytes) (bytes : Bytes) (r : BlobRecord) :
    Prop :=
  ∃ payload compression rest, payload.length < 2 ^ 32 ∧
    bytes = BlobEncoder.encodeSlice (fun _ => (payload, compression)) [] ++ rest ∧
    openPayload uncompress compression payload = .ok r

theorem getFixed32_inv {src rest : Bytes} {v : UInt32} (h : getFixed32 src = some (v, rest)) :
    src = putFixed32 v ++ rest := by
  rw [getFixed32] at h
  split_ifs at h with hshort
  simp only [Option.some.injEq, Prod.mk.injEq] at h
  have hlen : (src.take 4).length = 4 := by
    rw [List.length_take]
    omega
  have hlt : leNat (src.take 4) < 2 ^ 32 := by
    have := leNat_lt (src.take 4)
    rwa [hlen] at this
  have hbytes := leBytes_leNat (src.take 4)
  rw [hlen] at hbytes
  rw [← h.1, ← h.2, putFixed32, UInt32.toNat_ofNat', Nat.mod_eq_of_lt hlt, hbytes,
    List.take_append_drop]

theorem getChar_inv {src rest : Bytes} {b : UInt8} (h : getChar src = some (b, rest)) :
    src = b :: rest := by
  cases src with
  | nil => cases h
  | cons a src =>
      simp only [getChar, Option.some.injEq, Prod.mk.injEq] at h
      rw [h.1, h.2]

namespace BlobDecoder

def sizeAndType (d : BlobDecoder) : Bytes := putFixed32 d.recordSize ++ [d.compression]

theorem decodeHeader_inv {src rest : Bytes} {d : BlobDecoder}
    (h : decodeHeader src = .ok (d, rest)) :
    src = putFixed32 d.crc ++ d.sizeAndType ++ rest ∧ d.headerCrc = Crc32c.value d.sizeAndType := by
  unfold decodeHeader at h
  split at h
  · cases h
  rename_i crc src₁ hcrc
  split at h
  · cases h
  rename_i recordSize src₂ hsize
  split at h
  · cases h
  rename_i compression src₃ hlast
  simp only [Except.ok.injEq, Prod.mk.injEq] at h
  obtain ⟨rfl, rfl⟩ := h
  have htail : src₁ = putFixed32 recordSize ++ [compression] ++ src₃ := by
    rw [getFixed32_inv hsize, getChar_inv hlast, List.append_assoc, List.singleton_append]
  refine ⟨?_, ?_⟩
  · rw [sizeAndType, List.append_assoc]
    exact (getFixed32_inv hcrc).trans (congrArg _ htail)
  · have hlen : (putFixed32 recordSize ++ [compression]).length = kRecordHeaderSize - 4 := by
      rw [List.length_append, putFixed32, length_leBytes]
      rfl
    dsimp only [sizeAndType]
    rw [htail, ← hlen, List.take_left]

theorem decodeRecord_inv {uncompress : UInt8 → Bytes → Except Status Bytes} {d : BlobDecoder}
    {src : Bytes} {r : BlobRecord} (hheader : d.headerCrc = Crc32c.value d.sizeAndType)
    (hsize : d.recordSize.toNat ≤ src.length) (h : d.decodeRecord uncompress src = .ok r) :
    Seals uncompress (putFixed32 d.crc ++ d.sizeAndType ++ src) r := by
  have hlen : (src.take d.recordSize.toNat).length = d.recordSize.toNat := by
    rw [List.length_take]
    omega
  rw [decodeRecord] at h
  split_ifs at h with hcrc hplain
  all_goals
    have hword : UInt32.ofNat (Crc32c.extend d.headerCrc (src.take d.recordSize.toNat)).toNat =
        d.crc := by
      rw [not_not.mp hcrc, UInt32.ofNat_toNat]
    refine ⟨src.take d.recordSize.toNat, d.compression, src.drop d.recordSize.toNat, ?_, ?_, ?_⟩
    · rw [hlen]
      exact d.recordSize.toNat_lt
    · rw [hheader, sizeAndType] at hword
      simp only [BlobEncoder.encodeSlice, hlen, UInt32.ofNat_toNat, hword, sizeAndType,
        List.append_assoc, List.take_append_drop]
  · rw [openPayload, if_pos hplain]
    exact h
  · rw [openPayload, if_neg hplain]
    exact h

end BlobDecoder

/-- A record under its checksum, or a status that is an error. -/
def Answers (uncompress : UInt8 → Bytes → Except Status Bytes) (bytes : Bytes) :
    Except Status BlobRecord → Prop
  | .ok r => Seals uncompress bytes r
  | .error status => status.isOk = false

theorem answers_decodeRecord {uncompress : UInt8 → Bytes → Except Status Bytes}
    (hu : ∀ type input s, uncompress type input = .error s → s.isOk = false) {d : BlobDecoder}
    {src rest data : Bytes} (hheader : BlobDecoder.decodeHeader src = .ok (d, rest))
    (hsize : d.recordSize.toNat ≤ data.length) :
    Answers uncompress (putFixed32 d.crc ++ d.sizeAndType ++ data) (d.decodeRecord uncompress data) := by
  cases hrecord : d.decodeRecord uncompress data with
  | error s => exact BlobDecoder.decodeRecord_error hu hrecord
  | ok r => exact BlobDecoder.decodeRecord_inv (BlobDecoder.decodeHeader_inv hheader).2 hsize hrecord

namespace InMemory
variable (m : Mem) (out : ℕ)

/-! ## `ReadRecord` and `GetBlobRecord` -/

section
variable (uncompress : UInt8 → Bytes → Except Status Bytes) (ubuf : ℕ)

/-- `ReadRecord` behind the file read. -/
def decodeBlob (blob : Slice) : Traced (Slice × Slice) (Except Status BlobRecord) := do
  match ← (decodeHeader m blob).mapTouched (Prod.mk blob) with
  | .error status => return .error status
  | .ok (decoder, rest) =>
    (decodeRecord m uncompress out decoder rest).mapTouched (Place.withBounds blob)

def readRecord (file : Bytes) (handle : BlobHandle) :
    Traced (Slice × Slice) (Except Status BlobRecord) :=
  match preadFile file handle.offset handle.size with
  | .error status => pure (.error status)
  | .ok contents =>
    let blob : Slice := ⟨ubuf, contents.length⟩
    if handle.size.toNat ≠ blob.size then
      pure (.error (.corruption ("ReadRecord actual size: " ++ toString blob.size ++
        " not equal to blob size " ++ toString handle.size)))
    else decodeBlob (writeBytes m ubuf contents) out uncompress blob

end

section
variable (uncompress : Bytes → UInt8 → Bytes → Except Status Bytes) (headerBuffer buffer : ℕ)

/-- `GetBlobRecord` behind the header. -/
def getRecordBehind (it : BlobFileIterator) (decoder : BlobDecoder) :
    Traced (Slice × Slice) BlobFileIterator :=
  let recordSize := decoder.recordSize.toUInt64
  match preadFile it.file (it.iterateOffset + UInt64.ofNat kRecordHeaderSize) recordSize with
  | .error status => pure { it with status := status }
  | .ok record => do
    let recordSlice : Slice := ⟨buffer, record.length⟩
    match ← (decodeRecord (writeBytes m buffer record) (uncompress it.uncompressionDict) out
        decoder recordSlice).mapTouched (Place.withBounds recordSlice) with
    | .error status => return { it with status := status }
    | .ok record =>
      let size := UInt64.ofNat kRecordHeaderSize + recordSize
      return { it with
        status := .ok
        curBlobRecord := record
        curRecordOffset := it.iterateOffset
        curRecordSize := size
        curRecordIndex := it.iterateIndex
        iterateIndex := it.iterateIndex + 1
        iterateOffset := it.iterateOffset + size
        valid := true }

def getBlobRecord (it : BlobFileIterator) : Traced (Slice × Slice) BlobFileIterator :=
  match preadFile it.file it.iterateOffset (UInt64.ofNat kRecordHeaderSize) with
  | .error status => pure { it with status := status }
  | .ok header => do
    let headerSlice : Slice := ⟨headerBuffer, header.length⟩
    match ← (decodeHeader (writeBytes m headerBuffer header) headerSlice).mapTouched
        (Prod.mk headerSlice) with
    | .error status => return { it with status := status }
    | .ok (decoder, _) => getRecordBehind m out uncompress buffer it decoder

end

/-! ## Where they stay inside -/

/-- The record size of a header at this offset of the file. -/
def storedRecordSize (file : Bytes) (offset : ℕ) : ℕ := leNat (readFile file (offset + 4) 4)

/-- The handle goes beyond the file, or ends before a checksum does, or has a whole header and as
many bytes behind it as the header says. -/
def HandleFits (file : Bytes) (handle : BlobHandle) : Prop :=
  file.length < handle.offset.toNat + handle.size.toNat ∨ handle.size.toNat < 4 ∨
    kRecordHeaderSize ≤ handle.size.toNat ∧
      kRecordHeaderSize + storedRecordSize file handle.offset.toNat ≤ handle.size.toNat

/-- The file ends before a checksum does, or has a whole header and as many bytes behind it as the
header says. -/
def RecordFits (file : Bytes) (offset : UInt64) : Prop :=
  file.length < offset.toNat + 4 ∨
    offset.toNat + kRecordHeaderSize ≤ file.length ∧
      (offset + UInt64.ofNat kRecordHeaderSize).toNat + storedRecordSize file offset.toNat ≤
        file.length

variable {m out} {uncompress : UInt8 → Bytes → Except Status Bytes}

theorem recordSize_headerAt {src : Slice} (h : kRecordHeaderSize ≤ src.size) :
    (headerAt m src).recordSize.toNat = leNat (((src.bytes m).drop 4).take 4) := by
  rw [kRecordHeaderSize] at h
  have hsize : 4 ≤ (src.removePrefix 4).size := by simp only [Slice.removePrefix]; omega
  have hlt : leNat ((⟨src.start + 4, 4⟩ : Slice).bytes m) < 2 ^ 32 := by
    have := leNat_lt ((⟨src.start + 4, 4⟩ : Slice).bytes m)
    rwa [Slice.length_bytes] at this
  rw [Slice.bytes_drop m (by omega), Slice.bytes_take m hsize, headerAt, UInt32.toNat_ofNat',
    Nat.mod_eq_of_lt hlt]
  rfl

/-- A decode of a blob stays inside it exactly where nothing or a whole record is decoded. -/
theorem keeps_decodeBlob (blob : Slice) :
    (decodeBlob m out uncompress blob).All Keeps ↔
      blob.size < 4 ∨ kRecordHeaderSize ≤ blob.size ∧
        kRecordHeaderSize + leNat (((blob.bytes m).drop 4).take 4) ≤ blob.size := by
  have hheader : ((decodeHeader m blob).mapTouched (Prod.mk blob)).All Keeps ↔
      blob.size < 4 ∨ kRecordHeaderSize ≤ blob.size :=
    (Traced.all_mapTouched _ _).trans inside_decodeHeader
  rw [decodeBlob, Traced.all_bind, hheader, Traced.value_mapTouched]
  by_cases hshort : blob.size < 4
  · rw [decodeHeader_of_lt hshort]
    simp only [hshort, true_or, true_and, Traced.value_pure, Traced.all_pure]
  · by_cases hlong : kRecordHeaderSize ≤ blob.size
    · have hrest : (blob.removePrefix kRecordHeaderSize).size = blob.size - kRecordHeaderSize := rfl
      rw [value_decodeHeader hlong]
      simp only [hshort, hlong, false_or, true_and, Traced.all_mapTouched]
      rw [keeps_decodeRecord (Slice.isSuffix_removePrefix hlong), recordSize_headerAt hlong, hrest]
      omega
    · simp only [hshort, hlong, false_or, false_and]

/-- There the decoders on lists of bytes come to the same. -/
theorem value_decodeBlob {blob : Slice} (hlong : kRecordHeaderSize ≤ blob.size)
    (hsize : kRecordHeaderSize + leNat (((blob.bytes m).drop 4).take 4) ≤ blob.size) :
    (decodeBlob m out uncompress blob).value =
      (headerAt m blob).decodeRecord uncompress
        ((blob.removePrefix kRecordHeaderSize).bytes m) := by
  have hrest : (blob.removePrefix kRecordHeaderSize).size = blob.size - kRecordHeaderSize := rfl
  have hrecord : (headerAt m blob).recordSize.toNat ≤ (blob.removePrefix kRecordHeaderSize).size := by
    rw [recordSize_headerAt hlong, hrest]
    omega
  rw [decodeBlob, Traced.value_bind, Traced.value_mapTouched, value_decodeHeader hlong]
  exact value_decodeRecord hrecord

theorem answers_decodeBlob
    (hu : ∀ type input s, uncompress type input = .error s → s.isOk = false) {blob : Slice}
    (h : (decodeBlob m out uncompress blob).All Keeps) :
    Answers uncompress (blob.bytes m) (decodeBlob m out uncompress blob).value := by
  rcases (keeps_decodeBlob blob).mp h with hshort | ⟨hlong, hsize⟩
  · rw [decodeBlob, decodeHeader_of_lt hshort]
    rfl
  · have hheader := decodeHeader_bytes (m := m) hlong
    have hrest : (blob.removePrefix kRecordHeaderSize).size = blob.size - kRecordHeaderSize := rfl
    have hrecord : (headerAt m blob).recordSize.toNat ≤
        ((blob.removePrefix kRecordHeaderSize).bytes m).length := by
      rw [recordSize_headerAt hlong, Slice.length_bytes, hrest]
      omega
    rw [value_decodeBlob hlong hsize, (BlobDecoder.decodeHeader_inv hheader).1]
    exact answers_decodeRecord hu hheader hrecord

theorem preadFile_error {file : Bytes} {offset size : UInt64} {status : Status}
    (h : preadFile file offset size = .error status) :
    status.isOk = false ∧ file.length < offset.toNat := by
  rw [preadFile] at h
  split_ifs at h with hrefused
  obtain rfl := Except.error.inj h
  exact ⟨rfl, hrefused.2.1⟩

theorem preadFile_ok {file contents : Bytes} {offset size : UInt64}
    (h : preadFile file offset size = .ok contents) :
    contents = readFile file offset.toNat size.toNat := by
  rw [preadFile] at h
  split_ifs at h
  exact (Except.ok.inj h).symm

theorem readFile_readFile (file : Bytes) {offset size : ℕ} (h : 8 ≤ size) :
    ((readFile file offset size).drop 4).take 4 = readFile file (offset + 4) 4 := by
  rw [readFile, readFile, List.drop_take, List.drop_drop, List.take_take,
    Nat.min_eq_left (by omega)]

/-- `ReadRecord` stays inside what it read, and answers, exactly where the handle fits. -/
theorem readRecord_inside_iff
    (hu : ∀ type input s, uncompress type input = .error s → s.isOk = false) (ubuf : ℕ)
    (file : Bytes) (handle : BlobHandle) :
    (readRecord m out uncompress ubuf file handle).All Keeps ∧
        Answers uncompress (readFile file handle.offset.toNat handle.size.toNat)
          (readRecord m out uncompress ubuf file handle).value ↔
      HandleFits file handle := by
  cases hread : preadFile file handle.offset handle.size with
  | error status =>
      obtain ⟨hstatus, hend⟩ := preadFile_error hread
      simp only [readRecord, hread]
      exact iff_of_true ⟨Traced.all_pure _, hstatus⟩ (Or.inl (by omega))
  | ok contents =>
      have hcontents := preadFile_ok hread
      have hlen : contents.length = min handle.size.toNat (file.length - handle.offset.toNat) := by
        rw [hcontents, readFile, List.length_take, List.length_drop]
      simp only [readRecord, hread]
      by_cases hne : handle.size.toNat ≠ contents.length
      · rw [if_pos hne]
        refine iff_of_true ⟨Traced.all_pure _, Status.isOk_corruption _ _⟩ (Or.inl ?_)
        omega
      · have hblob := Slice.bytes_writeBytes m ubuf contents
        have hanswers := @answers_decodeBlob (writeBytes m ubuf contents) out uncompress hu
          ⟨ubuf, contents.length⟩
        rw [hblob] at hanswers
        rw [if_neg hne, ← hcontents, and_iff_left_of_imp hanswers, keeps_decodeBlob, hblob,
          HandleFits]
        simp only [kRecordHeaderSize]
        by_cases hlong : 9 ≤ contents.length
        · rw [hcontents, readFile_readFile file (by omega), ← hcontents, storedRecordSize]
          omega
        · omega

/-- What `GetBlobRecord` leaves: an error in the status, or the record under its checksum. -/
def Fetches (uncompress : UInt8 → Bytes → Except Status Bytes) (bytes : Bytes)
    (it : BlobFileIterator) : Prop :=
  it.status.isOk = false ∨
    it.status = .ok ∧ it.valid = true ∧ Seals uncompress bytes it.curBlobRecord

/-- The header and the record behind it, as `GetBlobRecord` reads them. -/
def fetchedBytes (it : BlobFileIterator) : Bytes :=
  readFile it.file it.iterateOffset.toNat kRecordHeaderSize ++
    readFile it.file (it.iterateOffset + UInt64.ofNat kRecordHeaderSize).toNat
      (storedRecordSize it.file it.iterateOffset.toNat)

section
variable {uncompress : Bytes → UInt8 → Bytes → Except Status Bytes} {headerBuffer buffer : ℕ}
  {it : BlobFileIterator}

theorem getRecordBehind_inside_iff
    (hu : ∀ dict type input s, uncompress dict type input = .error s → s.isOk = false)
    {d : BlobDecoder} {header : Bytes} (hheader : BlobDecoder.decodeHeader header = .ok (d, []))
    (hoffset : (it.iterateOffset + UInt64.ofNat kRecordHeaderSize).toNat ≤ it.file.length) :
    (getRecordBehind m out uncompress buffer it d).All Keeps ∧
        Fetches (uncompress it.uncompressionDict)
          (header ++ readFile it.file (it.iterateOffset + UInt64.ofNat kRecordHeaderSize).toNat
            d.recordSize.toNat)
          (getRecordBehind m out uncompress buffer it d).value ↔
      (it.iterateOffset + UInt64.ofNat kRecordHeaderSize).toNat + d.recordSize.toNat ≤
        it.file.length := by
  have hsize : d.recordSize.toUInt64.toNat = d.recordSize.toNat := UInt32.toNat_toUInt64 _
  simp only [getRecordBehind, preadFile_of_le hoffset, hsize]
  generalize hrecord : readFile it.file
    (it.iterateOffset + UInt64.ofNat kRecordHeaderSize).toNat d.recordSize.toNat = record
  have hlen : record.length = min d.recordSize.toNat (it.file.length -
      (it.iterateOffset + UInt64.ofNat kRecordHeaderSize).toNat) := by
    rw [← hrecord, readFile, List.length_take, List.length_drop]
  have hkeeps := @keeps_decodeRecord (writeBytes m buffer record)
    (uncompress it.uncompressionDict) out d _ _ (Slice.isSuffix_refl ⟨buffer, record.length⟩)
  rw [Traced.all_bind, Traced.all_mapTouched, hkeeps, Traced.value_bind, Traced.value_mapTouched]
  by_cases hfits : d.recordSize.toNat ≤ record.length
  · refine iff_of_true ⟨⟨hfits, ?_⟩, ?_⟩ (by omega)
    · split
      · exact Traced.all_pure _
      · exact Traced.all_pure _
    · have hvalue := @value_decodeRecord (writeBytes m buffer record)
        (uncompress it.uncompressionDict) out d ⟨buffer, record.length⟩ hfits
      have hanswers := answers_decodeRecord (hu it.uncompressionDict) hheader hfits
      rw [Slice.bytes_writeBytes] at hvalue
      rw [hvalue]
      have hwhole := (BlobDecoder.decodeHeader_inv hheader).1
      rw [List.append_nil] at hwhole
      rw [← hwhole] at hanswers
      cases hdecode : d.decodeRecord (uncompress it.uncompressionDict) record with
      | error status =>
          rw [hdecode] at hanswers
          exact Or.inl hanswers
      | ok r =>
          rw [hdecode] at hanswers
          exact Or.inr ⟨rfl, rfl, hanswers⟩
  · exact iff_of_false (fun h => hfits h.1.1) (by omega)

/-- `GetBlobRecord` stays inside what it read, and answers, exactly where the record fits. -/
theorem getBlobRecord_inside_iff
    (hu : ∀ dict type input s, uncompress dict type input = .error s → s.isOk = false)
    (headerBuffer buffer : ℕ) (it : BlobFileIterator) :
    (getBlobRecord m out uncompress headerBuffer buffer it).All Keeps ∧
        Fetches (uncompress it.uncompressionDict) (fetchedBytes it)
          (getBlobRecord m out uncompress headerBuffer buffer it).value ↔
      RecordFits it.file it.iterateOffset := by
  cases hread : preadFile it.file it.iterateOffset (UInt64.ofNat kRecordHeaderSize) with
  | error status =>
      obtain ⟨hstatus, hend⟩ := preadFile_error hread
      simp only [getBlobRecord, hread]
      exact iff_of_true ⟨Traced.all_pure _, Or.inl hstatus⟩ (Or.inl (by omega))
  | ok header =>
      have hheader : header = readFile it.file it.iterateOffset.toNat kRecordHeaderSize :=
        preadFile_ok hread
      have hlen : header.length = min 9 (it.file.length - it.iterateOffset.toNat) := by
        rw [hheader, readFile, List.length_take, List.length_drop, kRecordHeaderSize]
      have hinside := @inside_decodeHeader (writeBytes m headerBuffer header)
        ⟨headerBuffer, header.length⟩
      simp only [getBlobRecord, hread]
      rw [Traced.all_bind, Traced.all_mapTouched, Traced.value_bind, Traced.value_mapTouched]
      by_cases hshort : header.length < 4
      · rw [decodeHeader_of_lt hshort]
        refine iff_of_true ⟨⟨Traced.all_pure _, Traced.all_pure _⟩, Or.inl rfl⟩ (Or.inl ?_)
        omega
      by_cases hlong : kRecordHeaderSize ≤ header.length
      · have hbytes := Slice.bytes_writeBytes m headerBuffer header
        have hdecode := @decodeHeader_bytes (writeBytes m headerBuffer header)
          ⟨headerBuffer, header.length⟩ hlong
        have hstored := @recordSize_headerAt (writeBytes m headerBuffer header)
          ⟨headerBuffer, header.length⟩ hlong
        have hall : (decodeHeader (writeBytes m headerBuffer header)
            ⟨headerBuffer, header.length⟩).All fun i => Keeps (⟨headerBuffer, header.length⟩, i) :=
          hinside.mpr (Or.inr hlong)
        have hnine : header.length = 9 := by
          rw [kRecordHeaderSize] at hlong
          omega
        have hrest : ((⟨headerBuffer, header.length⟩ : Slice).removePrefix kRecordHeaderSize).bytes
            (writeBytes m headerBuffer header) = [] :=
          Slice.bytes_nil _ (by simp only [Slice.removePrefix, kRecordHeaderSize]; omega)
        have hsize : storedRecordSize it.file it.iterateOffset.toNat =
            leNat ((header.drop 4).take 4) := by
          rw [hheader, readFile_readFile it.file (by decide), storedRecordSize]
        rw [hbytes] at hdecode hstored
        rw [hrest] at hdecode
        have hadd := UInt64.toNat_add it.iterateOffset (UInt64.ofNat kRecordHeaderSize)
        have hkey : (UInt64.ofNat kRecordHeaderSize).toNat = 9 := rfl
        have hoffset : (it.iterateOffset + UInt64.ofNat kRecordHeaderSize).toNat ≤
            it.file.length := by omega
        have hbehind := @getRecordBehind_inside_iff m out uncompress buffer it hu _ _ hdecode hoffset
        rw [value_decodeHeader hlong, fetchedBytes, RecordFits, hsize, ← hheader, ← hstored]
        dsimp only
        rw [and_iff_right hall, hbehind, kRecordHeaderSize]
        omega
      · refine iff_of_false (fun h => ?_) ?_
        · rcases hinside.mp h.1.1 with hsize | hsize
          · exact hshort hsize
          · exact hlong hsize
        · rw [RecordFits, kRecordHeaderSize] at *
          omega

end

/-! ## The reads on lists of bytes -/

/-- Where a blob fits, `ReadRecord` over memory is `ReadRecord` on lists of bytes. -/
theorem value_readRecord {ubuf : ℕ} {file : Bytes} {footer : BlobFileFooter} {handle : BlobHandle}
    (hoffset : handle.offset.toNat ≤ file.length) (hfits : HandleFits file handle) :
    (readRecord m out uncompress ubuf file handle).value =
      BlobFileReader.readRecord uncompress ⟨file, footer⟩ handle := by
  have hread := preadFile_of_le hoffset handle.size
  generalize hblob : readFile file handle.offset.toNat handle.size.toNat = blob at hread
  have hlen : blob.length = min handle.size.toNat (file.length - handle.offset.toNat) := by
    rw [← hblob, readFile, List.length_take, List.length_drop]
  simp only [readRecord, BlobFileReader.readRecord, hread, hblob]
  by_cases hne : handle.size.toNat ≠ blob.length
  · rw [if_pos hne, if_pos hne]
    rfl
  rw [if_neg hne, if_neg hne]
  have hbytes := Slice.bytes_writeBytes m ubuf blob
  rw [HandleFits, storedRecordSize, kRecordHeaderSize] at hfits
  by_cases hlong : kRecordHeaderSize ≤ blob.length
  · have hheader := @decodeHeader_bytes (writeBytes m ubuf blob) ⟨ubuf, blob.length⟩ hlong
    rw [hbytes] at hheader
    have hnine : 9 ≤ blob.length := hlong
    have hsize : kRecordHeaderSize + leNat (((Slice.mk ubuf blob.length).bytes
        (writeBytes m ubuf blob)).drop 4 |>.take 4) ≤ blob.length := by
      rw [hbytes, ← hblob, readFile_readFile file (by omega), hblob, kRecordHeaderSize]
      omega
    rw [value_decodeBlob hlong hsize, hheader]
    rfl
  · rw [kRecordHeaderSize] at hlong
    have hshort : blob.length < 4 := by omega
    have hnone : AegonKV.getFixed32 blob = none := if_pos hshort
    have hheader : BlobDecoder.decodeHeader blob = .error (.corruption "BlobHeader") := by
      simp only [BlobDecoder.decodeHeader, hnone]
    rw [decodeBlob, decodeHeader_of_lt hshort, hheader]
    rfl

/-- For every file and every place in it: both reads touch nothing outside the slices they read
and come back with the record under its checksum or with an error, exactly where the bytes that
are there fit the sizes. -/
theorem records_stay_inside_iff (c : Codec) (dict : Bytes) (m : Mem)
    (ubuf headerBuffer buffer out : ℕ) :
    (∀ file handle,
      (readRecord m out (c.uncompress dict) ubuf file handle).All Keeps ∧
          Answers (c.uncompress dict) (readFile file handle.offset.toNat handle.size.toNat)
            (readRecord m out (c.uncompress dict) ubuf file handle).value ↔
        HandleFits file handle) ∧
    ∀ it : BlobFileIterator,
      (getBlobRecord m out c.uncompress headerBuffer buffer it).All Keeps ∧
          Fetches (c.uncompress it.uncompressionDict) (fetchedBytes it)
            (getBlobRecord m out c.uncompress headerBuffer buffer it).value ↔
        RecordFits it.file it.iterateOffset := by
  constructor
  · intro file handle
    exact readRecord_inside_iff (fun _ _ _ h => Codec.uncompress_error h) ubuf file handle
  · intro it
    exact getBlobRecord_inside_iff (fun _ _ _ _ h => Codec.uncompress_error h) headerBuffer buffer it

/-- Five bytes with a handle on them: the checksum of the header takes nine. A header that asks for
one byte with nothing behind it: the checksum of the record takes that byte. -/
theorem readRecord_outside :
    ¬(readRecord (fun _ => 0) 0 (fun _ _ => .ok []) 0 [0, 0, 0, 0, 0] ⟨0, 5, 0⟩).All Keeps ∧
    ¬(readRecord (fun _ => 0) 0 (fun _ _ => .ok []) 0 [0, 0, 0, 0, 1, 0, 0, 0, 0] ⟨0, 9, 0⟩).All
      Keeps := by
  have hheader : ¬Keeps ((⟨0, 5⟩, ⟨4, 5⟩) : Slice × Slice) :=
    Slice.not_within_of_lt (by decide) (by decide)
  have hrecord : ¬Keeps ((⟨0, 9⟩, ⟨9, 1⟩) : Slice × Slice) :=
    Slice.not_within_of_lt (by decide) (by decide)
  constructor
  · intro hall
    exact hheader (hall _ (by decide))
  · intro hall
    exact hrecord (hall _ (by decide))

end InMemory
end AegonKV
