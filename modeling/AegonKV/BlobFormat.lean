import AegonKV.Coding
import AegonKV.Crc32c
import AegonKV.Status

/-!
# The blob file format

Records, indexes, headers and footers as the CPU writes and reads them. An encoder returns the
bytes it appends; a decoder consumes a prefix of its slice and returns the rest, or the status the
source returns. `uncompress` stands for the base DB's block codecs, which are entered only for a
record whose compression byte is not `kNoCompression`.
-/

namespace AegonKV
open LittleEndian

def kBlobMaxHeaderSize : ℕ := 12

def kRecordHeaderSize : ℕ := 9

def kBlockHandleMaxEncodedLength : ℕ := 20

def kBlobFooterSize : ℕ := kBlockHandleMaxEncodedLength + 8 + 4

def kNoCompression : UInt8 := 0

def decodeInto {α : Type} (decodeFrom : Bytes → Except Status (α × Bytes)) (src : Bytes)
    (ignoreExtraBytes : Bool := false) : Except Status α := do
  let (target, tmp) ← decodeFrom src
  if !ignoreExtraBytes && !tmp.isEmpty then
    .error (.corruption "redundant bytes when decoding blob file")
  else .ok target

structure BlobRecord where
  key : Bytes
  value : Bytes
  deriving DecidableEq, Repr

namespace BlobRecord

def encodeTo (r : BlobRecord) : Bytes :=
  putLengthPrefixedSlice r.key ++ putLengthPrefixedSlice r.value

def decodeFrom (src : Bytes) : Except Status (BlobRecord × Bytes) :=
  match getLengthPrefixedSlice src with
  | none => .error (.corruption "BlobRecord")
  | some (key, src) =>
    match getLengthPrefixedSlice src with
    | none => .error (.corruption "BlobRecord")
    | some (value, src) => .ok (⟨key, value⟩, src)

theorem decodeFrom_encodeTo (r : BlobRecord) (rest : Bytes) (hk : r.key.length < 2 ^ 32)
    (hv : r.value.length < 2 ^ 32) : decodeFrom (r.encodeTo ++ rest) = .ok (r, rest) := by
  rw [decodeFrom, encodeTo, List.append_assoc, getLengthPrefixedSlice_put hk]
  simp only [getLengthPrefixedSlice_put hv]

end BlobRecord

namespace BlobEncoder

/-- `EncodeSlice`: the nine-byte header followed by the record bytes. `compress` returns what
`Compress` hands back: the payload and the compression type it settled on. -/
def encodeSlice (compress : Bytes → Bytes × UInt8) (record : Bytes) : Bytes :=
  let (payload, compression) := compress record
  let body := putFixed32 (UInt32.ofNat payload.length) ++ [compression]
  let crc := Crc32c.extend (Crc32c.value body) payload
  putFixed32 (UInt32.ofNat crc.toNat) ++ body ++ payload

def encodeRecord (compress : Bytes → Bytes × UInt8) (r : BlobRecord) : Bytes :=
  encodeSlice compress r.encodeTo

end BlobEncoder

structure BlobDecoder where
  crc : UInt32
  headerCrc : BitVec 32
  recordSize : UInt32
  compression : UInt8
  deriving DecidableEq, Repr

namespace BlobDecoder

def decodeHeader (src : Bytes) : Except Status (BlobDecoder × Bytes) :=
  match getFixed32 src with
  | none => .error (.corruption "BlobHeader")
  | some (crc, src) =>
    let headerCrc := Crc32c.value (src.take (kRecordHeaderSize - 4))
    match getFixed32 src with
    | none => .error (.corruption "BlobHeader")
    | some (recordSize, src) =>
      match getChar src with
      | none => .error (.corruption "BlobHeader")
      | some (compression, src) => .ok (⟨crc, headerCrc, recordSize, compression⟩, src)

/-- `DecodeRecord`. The source takes `record_size_` bytes without a bounds check; the model takes
what the slice holds. -/
def decodeRecord (uncompress : UInt8 → Bytes → Except Status Bytes) (d : BlobDecoder)
    (src : Bytes) : Except Status BlobRecord := do
  let input := src.take d.recordSize.toNat
  let crc := Crc32c.extend d.headerCrc input
  if crc.toNat ≠ d.crc.toNat then .error (.corruption "BlobRecord" "checksum mismatch")
  else if d.compression = kNoCompression then decodeInto BlobRecord.decodeFrom input
  else
    let buffer ← uncompress d.compression input
    decodeInto BlobRecord.decodeFrom buffer

end BlobDecoder

structure BlobHandle where
  offset : UInt64
  size : UInt64
  index : UInt64
  deriving DecidableEq, Repr, Inhabited

namespace BlobHandle

def encodeTo (h : BlobHandle) : Bytes :=
  putVarint64 h.offset ++ putVarint64 h.size ++ putVarint64 h.index

def decodeFrom (src : Bytes) : Except Status (BlobHandle × Bytes) :=
  match (do
    let (offset, src) ← getVarint64 src
    let (size, src) ← getVarint64 src
    let (index, src) ← getVarint64 src
    return (⟨offset, size, index⟩, src) : Option (BlobHandle × Bytes)) with
  | none => .error (.corruption "BlobHandle")
  | some r => .ok r

theorem decodeFrom_encodeTo (h : BlobHandle) (rest : Bytes) :
    decodeFrom (h.encodeTo ++ rest) = .ok (h, rest) := by
  simp [decodeFrom, encodeTo, List.append_assoc, getVarint64_putVarint64]

end BlobHandle

structure BlobIndex where
  fileNumber : UInt64
  blobHandle : BlobHandle
  oldFileNumber : UInt64 := 0
  oldBlobHandle : BlobHandle := ⟨0, 0, 0⟩
  deriving DecidableEq, Repr

namespace BlobIndex

def kBlobRecord : UInt8 := 1

def encodeTo (b : BlobIndex) : Bytes :=
  kBlobRecord :: (putVarint64 b.fileNumber ++ b.blobHandle.encodeTo ++
    if b.oldFileNumber > 0 then putVarint64 b.oldFileNumber ++ b.oldBlobHandle.encodeTo else [])

def decodeFrom (src : Bytes) : Except Status (BlobIndex × Bytes) :=
  match (do
    let (type, src) ← getChar src
    if type ≠ kBlobRecord then none else getVarint64 src : Option (UInt64 × Bytes)) with
  | none => .error (.corruption "BlobIndex1")
  | some (fileNumber, src) =>
    match BlobHandle.decodeFrom src with
    | .error s => .error (.corruption "BlobIndex2" s.toString)
    | .ok (blobHandle, src) =>
      if src.isEmpty then .ok (⟨fileNumber, blobHandle, 0, ⟨0, 0, 0⟩⟩, src)
      else
        match getVarint64 src with
        | none => .error (.corruption "BlobIndex3")
        | some (oldFileNumber, src) =>
          match BlobHandle.decodeFrom src with
          | .error s => .error (.corruption "BlobIndex4" s.toString)
          | .ok (oldBlobHandle, src) =>
            .ok (⟨fileNumber, blobHandle, oldFileNumber, oldBlobHandle⟩, src)

theorem putVarint64_ne_nil (v : UInt64) : putVarint64 v ≠ [] := Varint.encode_ne_nil 9 v.toNat

/-- An index with an old part round-trips with it. -/
theorem decodeFrom_encodeTo_of_old {b : BlobIndex} (h : b.oldFileNumber > 0) :
    decodeFrom b.encodeTo = .ok (b, []) := by
  obtain ⟨f, hd, f', hd'⟩ := b
  have hne : (putVarint64 f' ++ hd'.encodeTo).isEmpty = false := by
    simp [putVarint64_ne_nil f']
  have hold := BlobHandle.decodeFrom_encodeTo hd' []
  rw [List.append_nil] at hold
  simp only [decodeFrom, encodeTo, if_pos h, getChar, Option.bind_eq_bind, Option.bind_some,
    ne_eq, not_true_eq_false, if_false, List.append_assoc, getVarint64_putVarint64,
    BlobHandle.decodeFrom_encodeTo, hne, hold]
  rfl

theorem decodeFrom_encodeTo_of_plain (f : UInt64) (h : BlobHandle) :
    decodeFrom (encodeTo { fileNumber := f, blobHandle := h }) =
      .ok ({ fileNumber := f, blobHandle := h }, []) := by
  have hh := BlobHandle.decodeFrom_encodeTo h []
  rw [List.append_nil] at hh
  simp [decodeFrom, encodeTo, getChar, getVarint64_putVarint64, hh]

end BlobIndex

structure BlockHandle where
  offset : UInt64 := 0
  size : UInt64 := 0
  deriving DecidableEq, Repr

namespace BlockHandle

def isNull (h : BlockHandle) : Bool := h.offset == 0 && h.size == 0

def encodeTo (h : BlockHandle) : Bytes := putVarint64 h.offset ++ putVarint64 h.size

def decodeFrom (src : Bytes) : Except Status (BlockHandle × Bytes) :=
  match (do
    let (offset, src) ← getVarint64 src
    let (size, src) ← getVarint64 src
    return (⟨offset, size⟩, src) : Option (BlockHandle × Bytes)) with
  | none => .error (.corruption "bad block handle")
  | some r => .ok r

theorem decodeFrom_encodeTo (h : BlockHandle) (rest : Bytes) :
    decodeFrom (h.encodeTo ++ rest) = .ok (h, rest) := by
  simp [decodeFrom, encodeTo, List.append_assoc, getVarint64_putVarint64]

end BlockHandle

structure BlobFileHeader where
  version : UInt32 := 2
  flags : UInt32 := 0
  deriving DecidableEq, Repr

namespace BlobFileHeader

def kHeaderMagicNumber : UInt32 := 0x2be0a614

def kVersion1 : UInt32 := 1

def kVersion2 : UInt32 := 2

def kMinEncodedLength : ℕ := 4 + 4

def kMaxEncodedLength : ℕ := 4 + 4 + 4

def kHasUncompressionDictionary : UInt32 := (1 : UInt32) <<< 0

def size (h : BlobFileHeader) : ℕ :=
  if h.version = kVersion1 then kMinEncodedLength else kMaxEncodedLength

def encodeTo (h : BlobFileHeader) : Bytes :=
  putFixed32 kHeaderMagicNumber ++ putFixed32 h.version ++
    if h.version = kVersion2 then putFixed32 h.flags else []

def decodeFrom (src : Bytes) : Except Status (BlobFileHeader × Bytes) :=
  match getFixed32 src with
  | none => .error (.corruption "Blob file header magic number missing or mismatched.")
  | some (magicNumber, src) =>
    if magicNumber ≠ kHeaderMagicNumber then
      .error (.corruption "Blob file header magic number missing or mismatched.")
    else
      match getFixed32 src with
      | none => .error (.corruption "Blob file header version missing or invalid.")
      | some (version, src) =>
        if version ≠ kVersion1 ∧ version ≠ kVersion2 then
          .error (.corruption "Blob file header version missing or invalid.")
        else if version = kVersion2 then
          match getFixed32 src with
          | none => .error (.corruption "Blob file header flags missing or invalid.")
          | some (flags, src) =>
            if flags &&& ~~~kHasUncompressionDictionary ≠ 0 then
              .error (.corruption "Blob file header flags missing or invalid.")
            else .ok (⟨version, flags⟩, src)
        else .ok (⟨version, 0⟩, src)

/-- A header the decoder accepts: a known version, and no flag in version 1 or beyond the
dictionary bit. -/
def WellFormed (h : BlobFileHeader) : Prop :=
  (h.version = kVersion1 ∧ h.flags = 0) ∨
    (h.version = kVersion2 ∧ h.flags &&& ~~~kHasUncompressionDictionary = 0)

theorem decodeFrom_encodeTo {h : BlobFileHeader} (hw : h.WellFormed) (rest : Bytes) :
    decodeFrom (h.encodeTo ++ rest) = .ok (h, rest) := by
  obtain ⟨version, flags⟩ := h
  simp only [WellFormed] at hw
  obtain ⟨rfl, rfl⟩ | ⟨rfl, hf⟩ := hw
  · simp [decodeFrom, encodeTo, List.append_assoc, getFixed32_putFixed32, kVersion1, kVersion2]
  · simp [decodeFrom, encodeTo, List.append_assoc, getFixed32_putFixed32, kVersion1, kVersion2, hf]

theorem length_encodeTo {h : BlobFileHeader} (hw : h.WellFormed) :
    h.encodeTo.length = h.size := by
  obtain ⟨version, flags⟩ := h
  simp only [WellFormed] at hw
  obtain ⟨rfl, rfl⟩ | ⟨rfl, -⟩ := hw <;> rfl

end BlobFileHeader

structure BlobFileFooter where
  metaIndexHandle : BlockHandle := {}
  deriving DecidableEq, Repr

namespace BlobFileFooter

def kFooterMagicNumber : UInt64 := 0x2be0a6148e39edc6

def kEncodedLength : ℕ := kBlobFooterSize

/-- The footer around an already padded handle area. The writer pads with zeros, a reader accepts
any padding. -/
def sealArea (area : Bytes) : Bytes :=
  let encoded := area ++ putFixed64 kFooterMagicNumber
  encoded ++ putFixed32 (UInt32.ofNat (Crc32c.value encoded).toNat)

def encodeTo (f : BlobFileFooter) : Bytes :=
  sealArea (f.metaIndexHandle.encodeTo ++
    List.replicate (kEncodedLength - 12 - f.metaIndexHandle.encodeTo.length) 0)

def decodeFrom (src : Bytes) : Except Status (BlobFileFooter × Bytes) :=
  match BlockHandle.decodeFrom src with
  | .error s => .error (.corruption "BlobFileFooter" s.toString)
  | .ok (metaIndexHandle, _) =>
    match getFixed64 (src.drop (kEncodedLength - 12)) with
    | none => .error (.corruption "BlobFileFooter" "magic number")
    | some (magicNumber, rest) =>
      if magicNumber ≠ kFooterMagicNumber then
        .error (.corruption "BlobFileFooter" "magic number")
      else
        let decoded := src.take (src.length - rest.length)
        match getFixed32 rest with
        | none => .error (.corruption "BlobFileFooter" "checksum")
        | some (checksum, rest) =>
          if (Crc32c.value decoded).toNat ≠ checksum.toNat then
            .error (.corruption "BlobFileFooter" "checksum")
          else .ok (⟨metaIndexHandle⟩, rest)

theorem length_sealArea {area : Bytes} (ha : area.length = kEncodedLength - 12) :
    (sealArea area).length = kEncodedLength := by
  simp [sealArea, putFixed64, putFixed32, ha, kEncodedLength, kBlobFooterSize,
    kBlockHandleMaxEncodedLength]

theorem toNat_ofNat_crc (c : BitVec 32) : (UInt32.ofNat c.toNat).toNat = c.toNat := by
  rw [UInt32.toNat_ofNat', Nat.mod_eq_of_lt c.isLt]

/-- Whatever pads the handle area, the sealed footer is accepted with the handle at its front. -/
theorem decodeFrom_sealArea (h : BlockHandle) (pad rest : Bytes)
    (hlen : (h.encodeTo ++ pad).length = kEncodedLength - 12) :
    decodeFrom (sealArea (h.encodeTo ++ pad) ++ rest) = .ok (⟨h⟩, rest) := by
  have hdec : BlockHandle.decodeFrom (sealArea (h.encodeTo ++ pad) ++ rest) =
      .ok (h, pad ++ (putFixed64 kFooterMagicNumber ++ (putFixed32 (UInt32.ofNat
        (Crc32c.value (h.encodeTo ++ pad ++ putFixed64 kFooterMagicNumber)).toNat) ++ rest))) := by
    simp only [sealArea, List.append_assoc]
    exact BlockHandle.decodeFrom_encodeTo _ _
  have hdrop : (sealArea (h.encodeTo ++ pad) ++ rest).drop (kEncodedLength - 12) =
      putFixed64 kFooterMagicNumber ++ (putFixed32 (UInt32.ofNat
        (Crc32c.value (h.encodeTo ++ pad ++ putFixed64 kFooterMagicNumber)).toNat) ++ rest) := by
    rw [← hlen, sealArea]
    simp only [List.append_assoc]
    rw [← List.append_assoc h.encodeTo, List.drop_left]
  rw [decodeFrom, hdec]
  simp only [hdrop, getFixed64_putFixed64]
  have htake : (sealArea (h.encodeTo ++ pad) ++ rest).take ((sealArea (h.encodeTo ++ pad) ++ rest).length -
      (putFixed32 (UInt32.ofNat (Crc32c.value (h.encodeTo ++ pad ++
        putFixed64 kFooterMagicNumber)).toNat) ++ rest).length) =
      h.encodeTo ++ pad ++ putFixed64 kFooterMagicNumber := by
    rw [sealArea]
    simp only [List.append_assoc (h.encodeTo ++ pad ++ putFixed64 kFooterMagicNumber)]
    rw [List.length_append, Nat.add_sub_cancel, List.take_left]
  rw [htake, getFixed32_putFixed32]
  simp only [ne_eq, not_true_eq_false, if_false, toNat_ofNat_crc]

end BlobFileFooter
end AegonKV
