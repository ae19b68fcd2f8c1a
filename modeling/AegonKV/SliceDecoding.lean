import AegonKV.MemorySlices
import AegonKV.BlobFileIterator

/-!
# Decoding blob records in memory

`BlobDecoder::DecodeHeader`, `DecodeRecord` and `BlobRecord::DecodeFrom` with the base DB's readers
below them, on slices of memory and with everything they touch. `DecodeHeader` takes the checksum
of five bytes before it looks how many there are, and `DecodeRecord` takes as many bytes as the
header says. Everything else stays inside its slice.
-/

namespace AegonKV.InMemory
open LittleEndian ByteMemory MemorySlices

section
variable (m : Mem)

def getChar (src : Slice) : Traced Slice (Option (UInt8 × Slice)) :=
  if src.size < 1 then pure none
  else do
    let _ ← read m ⟨src.start, 1⟩
    return some (m src.start, src.removePrefix 1)

def getFixed32 (src : Slice) : Traced Slice (Option (UInt32 × Slice)) :=
  if src.size < 4 then pure none
  else do
    let bytes ← read m ⟨src.start, 4⟩
    return some (UInt32.ofNat (leNat bytes), src.removePrefix 4)

def getVarint32Ptr : ℕ → ℕ → ℕ → Slice → Traced Slice (Option (ℕ × Slice))
  | 0, _, _, _ => pure none
  | fuel + 1, shift, result, src =>
    if src.size = 0 then pure none
    else do
      let _ ← read m ⟨src.start, 1⟩
      let byte := (m src.start).toNat
      if byte &&& 128 ≠ 0 then
        getVarint32Ptr fuel (shift + 7) ((result ||| (byte &&& 127) <<< shift) % 2 ^ 32)
          (src.removePrefix 1)
      else pure (some ((result ||| byte <<< shift) % 2 ^ 32, src.removePrefix 1))

def getVarint32 (src : Slice) : Traced Slice (Option (UInt32 × Slice)) :=
  (getVarint32Ptr m 5 0 0 src).andThen fun (value, src) => pure (some (UInt32.ofNat value, src))

def getLengthPrefixedSlice (src : Slice) : Traced Slice (Option (Slice × Slice)) :=
  (getVarint32 m src).andThen fun (len, src) =>
    if src.size < len.toNat then pure none
    else pure (some (⟨src.start, len.toNat⟩, src.removePrefix len.toNat))

theorem decodes_getVarint32Ptr (fuel shift result : ℕ) (src : Slice) :
    Decodes m id src (getVarint32Ptr m fuel shift result src)
      (Varint.decode 32 fuel shift result (src.bytes m)) := by
  induction fuel generalizing shift result src with
  | zero => exact Decodes.none m id src
  | succ fuel ih =>
      rw [getVarint32Ptr]
      by_cases hempty : src.size = 0
      · rw [if_pos hempty, Slice.bytes_nil m hempty]
        exact Decodes.none m id src
      · have hrest := Slice.isSuffix_removePrefix (Nat.one_le_iff_ne_zero.mpr hempty)
        rw [if_neg hempty, Slice.bytes_cons m hempty, Varint.decode]
        refine Decodes.read_bind (Slice.within_of_le le_rfl (by simp only; omega)) ?_
        dsimp only
        split_ifs
        · exact (ih _ _ _).of_suffix hrest
        · exact Decodes.some hrest

theorem decodes_getVarint32 (src : Slice) :
    Decodes m id src (getVarint32 m src) (AegonKV.getVarint32 (src.bytes m)) := by
  rw [AegonKV.getVarint32, Option.map_eq_bind]
  exact (decodes_getVarint32Ptr m 5 0 0 src).andThen fun _ _ hrest => Decodes.some hrest

theorem decodes_getLengthPrefixedSlice (src : Slice) :
    Decodes m (Slice.bytes m) src (getLengthPrefixedSlice m src)
      (AegonKV.getLengthPrefixedSlice (src.bytes m)) := by
  refine (decodes_getVarint32 m src).andThen fun len rest hrest => ?_
  simp only [id_eq, Slice.length_bytes]
  split_ifs with hlen
  · exact Decodes.none m _ src
  · rw [Slice.bytes_take m (Nat.not_lt.mp hlen), Slice.bytes_drop m (Nat.not_lt.mp hlen)]
    exact Decodes.some ((Slice.isSuffix_removePrefix (Nat.not_lt.mp hlen)).trans hrest)

def decodeFields (src : Slice) : Traced Slice (Option ((Slice × Slice) × Slice)) :=
  (getLengthPrefixedSlice m src).andThen fun (key, src) =>
    (getLengthPrefixedSlice m src).andThen fun (value, src) => pure (some ((key, value), src))

def decodeInto (src : Slice) : Traced Slice (Except Status BlobRecord) := do
  match ← decodeFields m src with
  | none => return .error (.corruption "BlobRecord")
  | some ((key, value), tmp) =>
    if tmp.size ≠ 0 then return .error (.corruption "redundant bytes when decoding blob file")
    else return .ok ⟨key.bytes m, value.bytes m⟩

def recordFields (src : Bytes) : Option ((Bytes × Bytes) × Bytes) :=
  (AegonKV.getLengthPrefixedSlice src).bind fun (key, src) =>
    (AegonKV.getLengthPrefixedSlice src).bind fun (value, src) => some ((key, value), src)

theorem decodes_decodeFields (src : Slice) :
    Decodes m (fun r => (r.1.bytes m, r.2.bytes m)) src (decodeFields m src)
      (recordFields (src.bytes m)) := by
  refine (decodes_getLengthPrefixedSlice m src).andThen fun key rest hrest => ?_
  refine ((decodes_getLengthPrefixedSlice m rest).of_suffix hrest).andThen fun value tmp htmp => ?_
  exact Decodes.some htmp

theorem decodeFrom_eq (src : Bytes) :
    BlobRecord.decodeFrom src =
      match recordFields src with
      | none => .error (.corruption "BlobRecord")
      | some ((key, value), rest) => .ok (⟨key, value⟩, rest) := by
  unfold BlobRecord.decodeFrom recordFields
  cases hkey : AegonKV.getLengthPrefixedSlice src with
  | none => rfl
  | some r =>
      simp only [Option.bind_some]
      cases hvalue : AegonKV.getLengthPrefixedSlice r.2 with
      | none => simp only [Option.bind_none]
      | some r' => simp only [Option.bind_some]

theorem value_decodeInto (src : Slice) :
    (decodeInto m src).value = AegonKV.decodeInto BlobRecord.decodeFrom (src.bytes m) := by
  have h := (decodes_decodeFields m src).value
  rw [decodeInto, AegonKV.decodeInto, decodeFrom_eq, ← h, Traced.value_bind]
  cases hfields : (decodeFields m src).value with
  | none => rfl
  | some r =>
      obtain ⟨⟨key, value⟩, tmp⟩ := r
      simp only [Option.map_some]
      by_cases htmp : tmp.size = 0
      · rw [if_neg (not_not_intro htmp)]
        change _ = if !false && !(tmp.bytes m).isEmpty then _ else _
        rw [Slice.bytes_nil m htmp]
        rfl
      · rw [if_pos htmp]
        change _ = if !false && !(tmp.bytes m).isEmpty then _ else _
        rw [Slice.bytes_cons m htmp]
        rfl

theorem inside_decodeInto (src : Slice) : (decodeInto m src).All (·.Within src) := by
  refine (Traced.all_bind _ _).mpr ⟨(decodes_decodeFields m src).inside, ?_⟩
  split
  · exact Traced.all_pure _
  · split_ifs
    · exact Traced.all_pure _
    · exact Traced.all_pure _

def decodeHeader (src : Slice) : Traced Slice (Except Status (BlobDecoder × Slice)) := do
  match ← getFixed32 m src with
  | none => return .error (.corruption "BlobHeader")
  | some (crc, src) =>
    let header ← read m ⟨src.start, kRecordHeaderSize - 4⟩
    match ← getFixed32 m src with
    | none => return .error (.corruption "BlobHeader")
    | some (recordSize, src) =>
      match ← getChar m src with
      | none => return .error (.corruption "BlobHeader")
      | some (compression, src) =>
        return .ok (⟨crc, Crc32c.value header, recordSize, compression⟩, src)

variable {m} {src : Slice}

theorem decodes_getFixed32 (src : Slice) :
    Decodes m id src (getFixed32 m src) (AegonKV.getFixed32 (src.bytes m)) := by
  rw [getFixed32, AegonKV.getFixed32, Slice.length_bytes]
  split_ifs with hshort
  · exact Decodes.none m id src
  · have hsize : 4 ≤ src.size := Nat.not_lt.mp hshort
    rw [Slice.bytes_take m hsize, Slice.bytes_drop m hsize]
    refine Decodes.read_bind (Slice.within_of_le le_rfl (by simp only; omega)) ?_
    exact Decodes.some (Slice.isSuffix_removePrefix hsize)

theorem getFixed32_of_le (h : 4 ≤ src.size) :
    (getFixed32 m src).value =
      some (UInt32.ofNat (leNat ((⟨src.start, 4⟩ : Slice).bytes m)), src.removePrefix 4) := by
  rw [getFixed32, if_neg (Nat.not_lt.mpr h)]
  rfl

theorem decodes_getChar (src : Slice) :
    Decodes m id src (getChar m src) (AegonKV.getChar (src.bytes m)) := by
  rw [getChar]
  split_ifs with hshort
  · rw [Slice.bytes_nil m (Nat.lt_one_iff.mp hshort)]
    exact Decodes.none m id src
  · have hsize : 1 ≤ src.size := Nat.not_lt.mp hshort
    rw [Slice.bytes_cons m (Nat.one_le_iff_ne_zero.mp hsize)]
    refine Decodes.read_bind (Slice.within_of_le le_rfl (by simp only; omega)) ?_
    exact Decodes.some (Slice.isSuffix_removePrefix hsize)

theorem getChar_of_le (h : 1 ≤ src.size) :
    (getChar m src).value = some (m src.start, src.removePrefix 1) := by
  rw [getChar, if_neg (Nat.not_lt.mpr h)]
  rfl

def headerAt (m : Mem) (src : Slice) : BlobDecoder where
  crc := UInt32.ofNat (leNat ((⟨src.start, 4⟩ : Slice).bytes m))
  headerCrc := Crc32c.value ((⟨src.start + 4, kRecordHeaderSize - 4⟩ : Slice).bytes m)
  recordSize := UInt32.ofNat (leNat ((⟨src.start + 4, 4⟩ : Slice).bytes m))
  compression := m (src.start + 4 + 4)

theorem decodeHeader_of_lt (h : src.size < 4) :
    decodeHeader m src = pure (.error (.corruption "BlobHeader")) := by
  rw [decodeHeader, getFixed32, if_pos h]
  rfl

theorem value_decodeHeader (h : kRecordHeaderSize ≤ src.size) :
    (decodeHeader m src).value = .ok (headerAt m src, src.removePrefix kRecordHeaderSize) := by
  rw [kRecordHeaderSize] at h
  have hsize : 4 ≤ (src.removePrefix 4).size := by simp only [Slice.removePrefix]; omega
  have hlast : 1 ≤ ((src.removePrefix 4).removePrefix 4).size := by
    simp only [Slice.removePrefix]
    omega
  rw [decodeHeader, Traced.value_bind, getFixed32_of_le (by omega)]
  simp only [Traced.value_bind, value_read, getFixed32_of_le hsize, getChar_of_le hlast,
    Traced.value_pure]
  rfl

/-- On a whole header the decoder on lists of bytes finds the same. -/
theorem decodeHeader_bytes (h : kRecordHeaderSize ≤ src.size) :
    BlobDecoder.decodeHeader (src.bytes m) =
      .ok (headerAt m src, (src.removePrefix kRecordHeaderSize).bytes m) := by
  rw [kRecordHeaderSize] at h
  have hcrc := (decodes_getFixed32 (m := m) src).value
  have hsize := (decodes_getFixed32 (m := m) (src.removePrefix 4)).value
  have hlast := (decodes_getChar (m := m) ((src.removePrefix 4).removePrefix 4)).value
  rw [getFixed32_of_le (by omega)] at hcrc
  rw [getFixed32_of_le (by simp only [Slice.removePrefix]; omega)] at hsize
  rw [getChar_of_le (by simp only [Slice.removePrefix]; omega)] at hlast
  have htake : ((src.removePrefix 4).bytes m).take (kRecordHeaderSize - 4) =
      (⟨src.start + 4, kRecordHeaderSize - 4⟩ : Slice).bytes m :=
    Slice.bytes_take m (by simp only [Slice.removePrefix, kRecordHeaderSize]; omega)
  simp only [BlobDecoder.decodeHeader, ← hcrc, Option.map_some, ← hsize, ← hlast, htake]
  rfl

/-- `DecodeHeader` stays inside its slice where there is no checksum or a whole header. -/
theorem inside_decodeHeader :
    (decodeHeader m src).All (·.Within src) ↔ src.size < 4 ∨ kRecordHeaderSize ≤ src.size := by
  constructor
  · intro hall
    by_contra hsizes
    rw [not_or, not_lt, not_le, kRecordHeaderSize] at hsizes
    rw [decodeHeader, Traced.all_bind, getFixed32_of_le hsizes.1] at hall
    have hcrc := (all_read m _).mp ((Traced.all_bind _ _).mp hall.2).1
    refine Slice.not_within_of_lt ?_ ?_ hcrc
    · simp only [kRecordHeaderSize]
      omega
    · simp only [Slice.removePrefix, kRecordHeaderSize]
      omega
  · rintro (hshort | hlong)
    · rw [decodeHeader_of_lt hshort]
      exact Traced.all_pure _
    · rw [kRecordHeaderSize] at hlong
      have hsize : 4 ≤ (src.removePrefix 4).size := by simp only [Slice.removePrefix]; omega
      have hlast : 1 ≤ ((src.removePrefix 4).removePrefix 4).size := by
        simp only [Slice.removePrefix]
        omega
      have hfour : (src.removePrefix 4).IsSuffix src := Slice.isSuffix_removePrefix (by omega)
      have height : ((src.removePrefix 4).removePrefix 4).IsSuffix src :=
        (Slice.isSuffix_removePrefix hsize).trans hfour
      rw [decodeHeader, Traced.all_bind, getFixed32_of_le (by omega)]
      refine ⟨(decodes_getFixed32 src).inside, ?_⟩
      simp only [Traced.all_bind, all_read, getFixed32_of_le hsize, getChar_of_le hlast]
      refine ⟨?_, ?_, ?_, Traced.all_pure _⟩
      · refine Slice.within_of_le ?_ ?_
        · simp only [Slice.removePrefix]
          omega
        · simp only [Slice.removePrefix, kRecordHeaderSize]
          omega
      · exact (decodes_getFixed32 _).inside.imp fun _ ha => ha.trans hfour.within
      · exact (decodes_getChar _).inside.imp fun _ ha => ha.trans height.within

end

/-! ## `DecodeRecord` -/

/-- A place in the slice that was read, or one in the buffer that `Uncompress` filled. -/
inductive Place
  | inSlice (touched : Slice)
  | inBuffer (buffer touched : Slice)
  deriving DecidableEq, Repr

namespace Place

/-- The bounds a place has to keep, with the place. -/
def withBounds (slice : Slice) : Place → Slice × Slice
  | .inSlice touched => (slice, touched)
  | .inBuffer buffer touched => (buffer, touched)

end Place

/-- The touched place lies within its bounds. -/
def Keeps (access : Slice × Slice) : Prop := access.2.Within access.1

section
variable (m : Mem) (uncompress : UInt8 → Bytes → Except Status Bytes) (out : ℕ)

/-- `DecodeRecord`; `Uncompress` puts its result at `out`. -/
def decodeRecord (d : BlobDecoder) (src : Slice) : Traced Place (Except Status BlobRecord) := do
  -- as long as the header says, whatever the slice holds
  let input : Slice := ⟨src.start, d.recordSize.toNat⟩
  let data ← (read m input).mapTouched .inSlice
  let crc := Crc32c.extend d.headerCrc data
  if crc.toNat ≠ d.crc.toNat then return .error (.corruption "BlobRecord" "checksum mismatch")
  else if d.compression = kNoCompression then (decodeInto m input).mapTouched .inSlice
  else
    let data ← (read m input).mapTouched .inSlice
    match uncompress d.compression data with
    | .error s => return .error s
    | .ok buffer =>
      (decodeInto (writeBytes m out buffer) ⟨out, buffer.length⟩).mapTouched
        (.inBuffer ⟨out, buffer.length⟩)

variable {m uncompress out} {d : BlobDecoder} {src outer : Slice}

/-- `DecodeRecord` stays inside the slice that was read just where the record does. -/
theorem keeps_decodeRecord (hsrc : src.IsSuffix outer) :
    (decodeRecord m uncompress out d src).All (fun place => Keeps (place.withBounds outer)) ↔
      d.recordSize.toNat ≤ src.size := by
  obtain ⟨hstart, hend⟩ := hsrc
  constructor
  · intro hall
    by_contra hsize
    have hread := (Traced.all_mapTouched _ _).mp ((Traced.all_bind _ _).mp hall).1
    rw [all_read] at hread
    have hinput : (⟨src.start, d.recordSize.toNat⟩ : Slice).Within outer := hread
    exact Slice.not_within_of_lt (by dsimp only; omega) (by dsimp only; omega) hinput
  · intro hsize
    have hinput : (⟨src.start, d.recordSize.toNat⟩ : Slice).Within outer :=
      Slice.within_of_le hstart (by dsimp only; omega)
    have hread : ((read m ⟨src.start, d.recordSize.toNat⟩).mapTouched Place.inSlice).All
        fun place => Keeps (place.withBounds outer) :=
      (Traced.all_mapTouched _ _).mpr ((all_read m _).mpr hinput)
    refine (Traced.all_bind _ _).mpr ⟨hread, ?_⟩
    dsimp only
    split_ifs
    · exact Traced.all_pure _
    · exact (Traced.all_mapTouched _ _).mpr ((inside_decodeInto m _).imp fun _ ha => ha.trans hinput)
    · refine (Traced.all_bind _ _).mpr ⟨hread, ?_⟩
      split
      · exact Traced.all_pure _
      · exact (Traced.all_mapTouched _ _).mpr (inside_decodeInto _ _)

/-- On a record inside the slice the decoder on lists of bytes comes to the same. -/
theorem value_decodeRecord (hsize : d.recordSize.toNat ≤ src.size) :
    (decodeRecord m uncompress out d src).value = d.decodeRecord uncompress (src.bytes m) := by
  rw [decodeRecord, BlobDecoder.decodeRecord, Slice.bytes_take m hsize, Traced.value_bind]
  by_cases hcrc : (Crc32c.extend d.headerCrc
      ((⟨src.start, d.recordSize.toNat⟩ : Slice).bytes m)).toNat ≠ d.crc.toNat
  · refine (congrArg Traced.value (if_pos hcrc)).trans ?_
    rw [if_pos hcrc]
    rfl
  refine (congrArg Traced.value (if_neg hcrc)).trans ?_
  rw [if_neg hcrc]
  by_cases hplain : d.compression = kNoCompression
  · rw [if_pos hplain, if_pos hplain]
    exact value_decodeInto m _
  rw [if_neg hplain, if_neg hplain, Traced.value_bind]
  simp only [Traced.value_mapTouched, value_read]
  cases hbuffer : uncompress d.compression ((⟨src.start, d.recordSize.toNat⟩ : Slice).bytes m) with
  | error s => rfl
  | ok buffer =>
      simp only [Traced.value_mapTouched, value_decodeInto, Slice.bytes_writeBytes]
      rfl

end
end AegonKV.InMemory
