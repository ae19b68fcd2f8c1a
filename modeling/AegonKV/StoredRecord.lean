import AegonKV.BlobFormat

/-!
# Records as they are stored

`Compress` and `Uncompress` around the codecs of the base DB, and the nine-byte header in front of
the payload. Whatever `Compress` settled on, the decoder accepts the header, and it accepts the
payload as well when `Uncompress` inverts `Compress`.
-/

namespace AegonKV
open LittleEndian

/-- `blob_file_compression` with the base DB's `CompressData` and `UncompressData`. Both take the
raw dictionary; a codec that is not linked in returns nothing. -/
structure Codec where
  compression : UInt8
  compressData : Bytes → Bytes → Option Bytes
  uncompressData : UInt8 → Bytes → Bytes → Option Bytes

namespace Codec

def compress (c : Codec) (dict input : Bytes) : Bytes × UInt8 :=
  if c.compression = kNoCompression then (input, kNoCompression)
  else
    match c.compressData dict input with
    | none => (input, kNoCompression)
    | some output => (output, c.compression)

def uncompress (c : Codec) (dict : Bytes) (type : UInt8) (input : Bytes) : Except Status Bytes :=
  match c.uncompressData type dict input with
  | none => .error (.corruption "Corrupted compressed blob")
  | some output => .ok output

/-- `UncompressData` inverts `CompressData` under the same dictionary. -/
def Inverts (c : Codec) : Prop :=
  ∀ dict input output, c.compressData dict input = some output →
    c.uncompressData c.compression dict output = some input

end Codec

/-- What the decoder makes of a compressed payload. -/
def Restores (uncompress : UInt8 → Bytes → Except Status Bytes) (stored : Bytes × UInt8)
    (record : Bytes) : Prop :=
  stored.2 = kNoCompression ∧ stored.1 = record ∨
    stored.2 ≠ kNoCompression ∧ uncompress stored.2 stored.1 = .ok record

theorem Codec.Inverts.restores {c : Codec} (hc : c.Inverts) (dict record : Bytes) :
    Restores (c.uncompress dict) (c.compress dict record) record := by
  unfold Codec.compress
  split_ifs with hnone
  · exact Or.inl ⟨rfl, rfl⟩
  · cases hdata : c.compressData dict record with
    | none => exact Or.inl ⟨rfl, rfl⟩
    | some output =>
        refine Or.inr ⟨hnone, ?_⟩
        simp only [Codec.uncompress, hc dict record output hdata]

/-! ## Errors of the decoder are errors -/

theorem BlobDecoder.decodeHeader_error {src : Bytes} {s : Status}
    (h : BlobDecoder.decodeHeader src = .error s) : s.isOk = false := by
  unfold BlobDecoder.decodeHeader at h
  split at h
  · obtain rfl := Except.error.inj h
    rfl
  split at h
  · obtain rfl := Except.error.inj h
    rfl
  split at h
  · obtain rfl := Except.error.inj h
    rfl
  · cases h

theorem BlobRecord.decodeInto_error {src : Bytes} {s : Status}
    (h : decodeInto BlobRecord.decodeFrom src = .error s) : s.isOk = false := by
  unfold decodeInto BlobRecord.decodeFrom at h
  split at h
  · obtain rfl := Except.error.inj h
    rfl
  split at h
  · obtain rfl := Except.error.inj h
    rfl
  · change (if _ then _ else _) = _ at h
    split_ifs at h
    obtain rfl := Except.error.inj h
    rfl

theorem BlobDecoder.decodeRecord_error {uncompress : UInt8 → Bytes → Except Status Bytes}
    (hu : ∀ type input s, uncompress type input = .error s → s.isOk = false) {d : BlobDecoder}
    {src : Bytes} {s : Status} (h : d.decodeRecord uncompress src = .error s) : s.isOk = false := by
  simp only [BlobDecoder.decodeRecord] at h
  split_ifs at h
  · obtain rfl := Except.error.inj h
    rfl
  · exact BlobRecord.decodeInto_error h
  · cases hbuffer : uncompress d.compression (src.take d.recordSize.toNat) with
    | error e =>
        rw [hbuffer] at h
        obtain rfl := Except.error.inj h
        exact hu _ _ _ hbuffer
    | ok buffer =>
        rw [hbuffer] at h
        exact BlobRecord.decodeInto_error h

theorem Codec.uncompress_error {c : Codec} {dict input : Bytes} {type : UInt8} {s : Status}
    (h : c.uncompress dict type input = .error s) : s.isOk = false := by
  unfold Codec.uncompress at h
  split at h
  · obtain rfl := Except.error.inj h
    rfl
  · cases h

namespace BlobEncoder

variable (compress : Bytes → Bytes × UInt8) (record : Bytes)

def sizeAndType : Bytes :=
  putFixed32 (UInt32.ofNat (compress record).1.length) ++ [(compress record).2]

def crcOf : BitVec 32 := Crc32c.extend (Crc32c.value (sizeAndType compress record)) (compress record).1

def header : Bytes := putFixed32 (UInt32.ofNat (crcOf compress record).toNat) ++ sizeAndType compress record

theorem encodeSlice_eq : encodeSlice compress record = header compress record ++ (compress record).1 := rfl

theorem length_header : (header compress record).length = kRecordHeaderSize := by
  simp [header, sizeAndType, putFixed32, kRecordHeaderSize]

theorem length_encodeSlice :
    (encodeSlice compress record).length = kRecordHeaderSize + (compress record).1.length := by
  rw [encodeSlice_eq, List.length_append, length_header]

/-- Records are never empty in the file. -/
theorem encodeRecord_pos (r : BlobRecord) : 0 < (encodeRecord compress r).length := by
  rw [encodeRecord, length_encodeSlice]
  exact Nat.add_pos_left (by decide) _

def decoder : BlobDecoder :=
  ⟨UInt32.ofNat (crcOf compress record).toNat, Crc32c.value (sizeAndType compress record),
    UInt32.ofNat (compress record).1.length, (compress record).2⟩

theorem decodeHeader_header (rest : Bytes) :
    BlobDecoder.decodeHeader (header compress record ++ rest) = .ok (decoder compress record, rest) := by
  have htake : (sizeAndType compress record ++ rest).take (kRecordHeaderSize - 4) =
      sizeAndType compress record := by
    rw [List.take_left']
    simp [sizeAndType, putFixed32, kRecordHeaderSize]
  have hsize : getFixed32 (sizeAndType compress record ++ rest) =
      some (UInt32.ofNat (compress record).1.length, (compress record).2 :: rest) := by
    rw [sizeAndType, List.append_assoc, getFixed32_putFixed32]
    rfl
  rw [BlobDecoder.decodeHeader, header, List.append_assoc, getFixed32_putFixed32]
  simp only [htake, hsize, getChar]
  rfl

theorem toNat_recordSize (hsize : (compress record).1.length < 2 ^ 32) :
    (decoder compress record).recordSize.toNat = (compress record).1.length := by
  rw [decoder, UInt32.toNat_ofNat', Nat.mod_eq_of_lt hsize]

variable {compress record}

/-- The checks of the decoder succeed on what the encoder stored. -/
theorem decodeRecord_decoder {uncompress : UInt8 → Bytes → Except Status Bytes} {r : BlobRecord}
    (hr : Restores uncompress (compress r.encodeTo) r.encodeTo)
    (hsize : (compress r.encodeTo).1.length < 2 ^ 32) (hk : r.key.length < 2 ^ 32)
    (hv : r.value.length < 2 ^ 32) :
    (decoder compress r.encodeTo).decodeRecord uncompress (compress r.encodeTo).1 = .ok r := by
  have hdec : decodeInto BlobRecord.decodeFrom r.encodeTo = .ok r := by
    have h := BlobRecord.decodeFrom_encodeTo r [] hk hv
    rw [List.append_nil] at h
    simp only [decodeInto, h]
    rfl
  have hcrc : (Crc32c.extend (decoder compress r.encodeTo).headerCrc (compress r.encodeTo).1).toNat =
      (decoder compress r.encodeTo).crc.toNat := by
    rw [decoder, BlobFileFooter.toNat_ofNat_crc, crcOf]
  rw [BlobDecoder.decodeRecord, toNat_recordSize _ _ hsize, List.take_length]
  simp only [hcrc, ne_eq, not_true_eq_false, if_false]
  rcases hr with ⟨htype, hpayload⟩ | ⟨htype, hpayload⟩
  · have hnone : (decoder compress r.encodeTo).compression = kNoCompression := htype
    rw [if_pos hnone, hpayload]
    exact hdec
  · have hsome : ¬(decoder compress r.encodeTo).compression = kNoCompression := htype
    rw [if_neg hsome]
    change (uncompress (compress r.encodeTo).2 (compress r.encodeTo).1 >>= _) = _
    rw [hpayload]
    exact hdec

end BlobEncoder

/-- The record fits the fields of the format, and its payload can be decompressed. The encoder
asserts the bound on the payload. -/
structure BlobRecord.Storable (r : BlobRecord) (compress : Bytes → Bytes × UInt8)
    (uncompress : UInt8 → Bytes → Except Status Bytes) : Prop where
  restores : Restores uncompress (compress r.encodeTo) r.encodeTo
  payload : (compress r.encodeTo).1.length < 2 ^ 32
  key : r.key.length < 2 ^ 32
  value : r.value.length < 2 ^ 32

theorem BlobRecord.Storable.decodeRecord {r : BlobRecord} {compress : Bytes → Bytes × UInt8}
    {uncompress : UInt8 → Bytes → Except Status Bytes} (h : r.Storable compress uncompress) :
    (BlobEncoder.decoder compress r.encodeTo).decodeRecord uncompress (compress r.encodeTo).1 =
      .ok r :=
  BlobEncoder.decodeRecord_decoder h.restores h.payload h.key h.value

end AegonKV
