import AegonKV.GcKernel

/-!
# The kernel on whole files

One turn of the entry loop reads an encoded record and, when its bit is 0, appends a copy to the
output file and an entry to the key list. `Written` is the loop invariant: the two output buffers
hold exactly what was copied so far. Running it over all files gives the contents of both buffers.
-/

namespace AegonKV.Kernel
open LittleEndian ByteMemory

def bitmapBit (bitmap : Bytes) (j : ℕ) : Bool :=
  (bitmap.getD (j >>> 3) 0).toNat &&& (1 <<< (7 - (j &&& 7))) != 0

/-- An input of the kernel: a file whose records fit the kernel's buffers, and its bitmap. -/
structure InputFile where
  image : BlobImage
  bitmap : Bytes
  covers : image.records.length ≤ 8 * bitmap.length
  fits : ∀ r ∈ image.records, r.key.length ≤ maxKeyLength ∧ r.value.length ≤ maxValueLength

structure BatchFile where
  image : BlobImage
  bitmap : Bytes
  covers : image.records.length ≤ 8 * bitmap.length
  encodable : ∀ r ∈ image.records, r.encodeTo.length < 2 ^ 32

/-- A record with bit 0, the index of its input file and its offset there. -/
structure Copied where
  fileIndex : ℕ
  oldOffset : ℕ
  record : BlobRecord
  deriving DecidableEq, Repr

def Copied.size (c : Copied) : ℕ := (encodedRecord c.record).length

def Copied.bytes (c : Copied) : Bytes := encodedRecord c.record

/-- The records with bit 0 among those from entry `j`, which starts at `offset`. -/
def copiedFrom (i : ℕ) (bitmap : Bytes) : ℕ → ℕ → List BlobRecord → List Copied
  | _, _, [] => []
  | j, offset, r :: rs =>
    let rest := copiedFrom i bitmap (j + 1) (offset + (encodedRecord r).length) rs
    if bitmapBit bitmap j then rest else ⟨i, offset, r⟩ :: rest

def copiedOf (file : InputFile) (i : ℕ) : List Copied :=
  copiedFrom i file.bitmap 0 file.image.header.size file.image.records

def copiedRecords : ℕ → List InputFile → List Copied
  | _, [] => []
  | i, file :: files => copiedOf file i ++ copiedRecords (i + 1) files

def BatchFile.copied (file : BatchFile) (i : ℕ) : List Copied :=
  copiedFrom i file.bitmap 0 file.image.header.size file.image.records

def copiedInBatch : ℕ → List BatchFile → List Copied
  | _, [] => []
  | i, file :: files => file.copied i ++ copiedInBatch (i + 1) files

/-- The entry of `output_key` for a copy at `newOffset`. -/
def keyEntry (newOffset : ℕ) (c : Copied) : Bytes :=
  putLengthPrefixedSlice c.record.key ++ leBytes 4 newOffset ++ leBytes 4 c.fileIndex ++
    leBytes 4 c.oldOffset ++ leBytes 4 c.size

def keyBytes : ℕ → List Copied → Bytes
  | _, [] => []
  | newOffset, c :: cs => keyEntry newOffset c ++ keyBytes (newOffset + c.size) cs

theorem keyBytes_snoc (newOffset : ℕ) (cs : List Copied) (c : Copied) :
    keyBytes newOffset (cs ++ [c]) =
      keyBytes newOffset cs ++ keyEntry (newOffset + (cs.flatMap Copied.bytes).length) c := by
  induction cs generalizing newOffset with
  | nil => simp [keyBytes]
  | cons d cs ih =>
      simp only [List.cons_append, keyBytes, ih, List.append_assoc, List.flatMap_cons,
        List.length_append, Copied.bytes, Copied.size, Nat.add_assoc]

/-! ## One record -/

theorem holds_encodeTo {m : Mem} {data : ℕ} {r : BlobRecord} (h : Holds m data (encodedRecord r)) :
    Holds m (data + kRecordHeaderSize) (putLengthPrefixedSlice r.key) ∧
      Holds m (data + kRecordHeaderSize + (putLengthPrefixedSlice r.key).length)
        (putLengthPrefixedSlice r.value) := by
  rw [encodedRecord_eq, checkedPart, BlobRecord.encodeTo, ← List.append_assoc] at h
  obtain ⟨-, hbody⟩ := holds_append.mp h
  have hlen : (putFixed32 (UInt32.ofNat (Crc32c.value (checkedPart r)).toNat) ++
      (putFixed32 (UInt32.ofNat r.encodeTo.length) ++ [kNoCompression])).length =
      kRecordHeaderSize := by
    simp [putFixed32, kRecordHeaderSize]
  simp only [checkedPart, BlobRecord.encodeTo] at hlen
  rw [hlen] at hbody
  exact holds_append.mp hbody

variable {r : BlobRecord}

theorem getKV_valid {m : Mem} {data cur : ℕ} (hk : r.key.length < 2 ^ 32)
    (hv : r.value.length < 2 ^ 32) (h : Holds m (data + cur) (encodedRecord r)) (kv : KeyValue) :
    getKV m data cur true (setZero kv) =
      (⟨writeBytes (fun _ => 0) 0 r.key, r.key.length, writeBytes (fun _ => 0) 0 r.value,
        r.value.length⟩, cur + (encodedRecord r).length) := by
  obtain ⟨hkey, hvalue⟩ := holds_encodeTo h
  simp only [getKV, setZero, if_true, decodeVarint32AndValue_of_holds hk hkey,
    decodeVarint32AndValue_of_holds hv hvalue]
  simp only [length_encodedRecord, BlobRecord.encodeTo, List.length_append, Nat.add_assoc]

theorem getKV_skip {m : Mem} {data cur : ℕ} (hk : r.key.length < 2 ^ 32)
    (hv : r.value.length < 2 ^ 32) (h : Holds m (data + cur) (encodedRecord r)) (kv : KeyValue) :
    (getKV m data cur false kv).2 = cur + (encodedRecord r).length := by
  obtain ⟨hkey, hvalue⟩ := holds_encodeTo h
  rw [putLengthPrefixedSlice_eq hk] at hkey hvalue
  rw [putLengthPrefixedSlice_eq hv] at hvalue
  have hkeyLen := decodeVarint32_of_holds hk (holds_append.mp hkey).1 kv.keySize 0
  have hvalueLen := decodeVarint32_of_holds hv (holds_append.mp hvalue).1 kv.valueSize 0
  rw [List.length_append] at hvalueLen
  simp only [getKV, Bool.false_eq_true, if_false, hkeyLen, Nat.zero_add, hvalueLen,
    length_encodedRecord, BlobRecord.encodeTo, putLengthPrefixedSlice_eq hk,
    putLengthPrefixedSlice_eq hv, List.length_append]
  omega

theorem putOutputData_wrote (m : Mem) {kv : KeyValue} (cur : ℕ) (hk : r.key.length < 2 ^ 32)
    (hv : r.value.length < 2 ^ 32) (hsize : r.encodeTo.length < 2 ^ 32)
    (hkv : kv.keySize = r.key.length ∧ kv.valueSize = r.value.length)
    (hkey : Holds kv.key 0 r.key) (hvalue : Holds kv.value 0 r.value) :
    Wrote m (putOutputData m kv cur).1 cur (encodedRecord r) ∧
      (putOutputData m kv cur).2 = cur + (encodedRecord r).length := by
  have hlen : (putLengthPrefixedSlice r.key).length + (putLengthPrefixedSlice r.value).length =
      r.encodeTo.length := by simp [BlobRecord.encodeTo]
  simp only [putOutputData, hkv.1, hkv.2, encodeVarint32AndValue_of_holds hk hkey,
    encodeVarint32AndValue_of_holds hv hvalue, encodeFixed32_eq, Nat.add_assoc, hlen]
  have wkey := wrote_writeBytes m (cur + kRecordHeaderSize) (putLengthPrefixedSlice r.key)
  have wbody := wkey.append (wrote_writeBytes _ _ (putLengthPrefixedSlice r.value))
  rw [← BlobRecord.encodeTo, Nat.add_assoc] at wbody
  generalize writeBytes (writeBytes m (cur + kRecordHeaderSize) (putLengthPrefixedSlice r.key))
    (cur + (kRecordHeaderSize + (putLengthPrefixedSlice r.key).length))
    (putLengthPrefixedSlice r.value) = m₁ at wbody ⊢
  have wsize := wrote_writeBytes m₁ (cur + 4) (leBytes 4 r.encodeTo.length)
  have whead := wsize.append (wrote_writeBytes _ _ [(0 : UInt8)])
  rw [length_leBytes, Nat.add_assoc] at whead
  have hwrite : ∀ m' : Mem, write m' (cur + 8) 0 = writeBytes m' (cur + 8) [0] := fun _ => rfl
  rw [hwrite]
  change Wrote m₁ (writeBytes _ (cur + 8) [0]) _ _ at whead
  generalize writeBytes (writeBytes m₁ (cur + 4) (leBytes 4 r.encodeTo.length)) (cur + 8) [0] = m₂
    at whead ⊢
  have hsize' : leBytes 4 r.encodeTo.length = putFixed32 (UInt32.ofNat r.encodeTo.length) := by
    rw [putFixed32, UInt32.toNat_ofNat', Nat.mod_eq_of_lt hsize]
  have wchecked : Wrote m m₂ (cur + 4) (checkedPart r) := by
    have hpre : cur + 4 + (leBytes 4 r.encodeTo.length ++ [(0 : UInt8)]).length =
        cur + kRecordHeaderSize := by simp [kRecordHeaderSize]
    have w := Wrote.prepend (hpre ▸ wbody) whead
    rwa [hsize'] at w
  have hcheckedLen : (checkedPart r).length = kRecordHeaderSize - 4 + r.encodeTo.length := by
    simp [checkedPart, putFixed32, kRecordHeaderSize]
    omega
  have hcrc : crc32c 0 m₂ (cur + 4) (kRecordHeaderSize - 4 + r.encodeTo.length) =
      Crc32c.value (checkedPart r) := by
    rw [crc32c, ← hcheckedLen, wchecked.1, Crc32c.value]
  rw [hcrc]
  refine ⟨?_, by rw [length_encodedRecord]⟩
  have wcrc := wrote_writeBytes m₂ cur (leBytes 4 (Crc32c.value (checkedPart r)).toNat)
  have w := Wrote.prepend (by rwa [length_leBytes]) wcrc
  rwa [encodedRecord_eq, putFixed32, BlobFileFooter.toNat_ofNat_crc]

theorem putOutputKey_wrote (m : Mem) {key : Mem} {c : Copied} (cur newOffset : ℕ)
    (hk : c.record.key.length < 2 ^ 32) (hkey : Holds key 0 c.record.key) :
    Wrote m (putOutputKey m key c.record.key.length cur newOffset c.fileIndex c.oldOffset
        c.size).1 cur (keyEntry newOffset c) ∧
      (putOutputKey m key c.record.key.length cur newOffset c.fileIndex c.oldOffset c.size).2 =
        cur + (keyEntry newOffset c).length := by
  have hread : readBytes key 0 c.record.key.length = c.record.key := hkey
  have hslice := putLengthPrefixedSlice_eq hk
  simp only [putOutputKey, encodeVarint32_spec, copy_eq, hread, encodeFixed32_eq, Nat.zero_add]
  refine ⟨?_, by simp [keyEntry, hslice]; omega⟩
  have w₀ := (wrote_writeBytes m cur (AegonKV.encodeVarint32 c.record.key.length)).append
    (wrote_writeBytes _ _ c.record.key)
  have w₁ := w₀.append (wrote_writeBytes _ _ (leBytes 4 newOffset))
  have w₂ := w₁.append (wrote_writeBytes _ _ (leBytes 4 c.fileIndex))
  have w₃ := w₂.append (wrote_writeBytes _ _ (leBytes 4 c.oldOffset))
  have w₄ := w₃.append (wrote_writeBytes _ _ (leBytes 4 c.size))
  rw [← hslice] at w₄
  simpa only [keyEntry, hslice, List.length_append, length_leBytes, Nat.add_assoc] using w₄

/-! ## The loops -/

def headerBytes : Bytes := BlobFileHeader.encodeTo {}

/-- The loop invariant: both output buffers hold the copies made so far, and nothing but the
offsets and the counter say how much. -/
structure Written (out : Output) (cs : List Copied) : Prop where
  data : Holds out.data 0 (headerBytes ++ cs.flatMap Copied.bytes)
  dataOffset : out.dataOffset = (headerBytes ++ cs.flatMap Copied.bytes).length
  key : Holds out.key 0 (keyBytes headerBytes.length cs)
  keyOffset : out.keyOffset = (keyBytes headerBytes.length cs).length
  rewriteKeyNum : out.rewriteKeyNum = cs.length

def Fits (r : BlobRecord) : Prop :=
  r.key.length ≤ maxKeyLength ∧ r.value.length ≤ maxValueLength

theorem Fits.key_lt (h : Fits r) : r.key.length < 2 ^ 32 :=
  lt_of_le_of_lt h.1 (by decide)

theorem Fits.value_lt (h : Fits r) : r.value.length < 2 ^ 32 :=
  lt_of_le_of_lt h.2 (by decide)

theorem length_putLengthPrefixedSlice_le {s : Bytes} (hs : s.length < 2 ^ 32) :
    (putLengthPrefixedSlice s).length ≤ s.length + 5 := by
  have := Varint.length_encode_le 4 s.length
  rw [putLengthPrefixedSlice_eq hs, List.length_append, encodeVarint32_eq hs]
  omega

theorem Fits.encodeTo_lt (h : Fits r) : r.encodeTo.length < 2 ^ 31 := by
  have hk := length_putLengthPrefixedSlice_le h.key_lt
  have hv := length_putLengthPrefixedSlice_le h.value_lt
  have h1 := h.1
  have h2 := h.2
  simp only [maxKeyLength, maxValueLength] at h1 h2
  rw [BlobRecord.encodeTo, List.length_append]
  omega

/-- The size field of the record header holds the record's size. -/
def Encodable (r : BlobRecord) : Prop := r.encodeTo.length < 2 ^ 32

theorem Fits.encodable (h : Fits r) : Encodable r := by
  have := h.encodeTo_lt
  rw [Encodable]
  omega

theorem length_le_putLengthPrefixedSlice (s : Bytes) :
    s.length ≤ (putLengthPrefixedSlice s).length := by
  rw [putLengthPrefixedSlice, List.length_append]
  exact Nat.le_add_left _ _

theorem Encodable.key_lt (h : Encodable r) : r.key.length < 2 ^ 32 := by
  have hk := length_le_putLengthPrefixedSlice r.key
  rw [Encodable, BlobRecord.encodeTo, List.length_append] at h
  omega

theorem Encodable.value_lt (h : Encodable r) : r.value.length < 2 ^ 32 := by
  have hv := length_le_putLengthPrefixedSlice r.value
  rw [Encodable, BlobRecord.encodeTo, List.length_append] at h
  omega

theorem Written.copy {out : Output} {cs : List Copied} (h : Written out cs) (c : Copied)
    (kv : KeyValue) (henc : Encodable c.record)
    (hkv : kv.keySize = c.record.key.length ∧ kv.valueSize = c.record.value.length)
    (hkey : Holds kv.key 0 c.record.key) (hvalue : Holds kv.value 0 c.record.value) :
    Written
      ⟨(putOutputData out.data kv out.dataOffset).1,
        (putOutputKey out.key kv.key kv.keySize out.keyOffset out.dataOffset c.fileIndex c.oldOffset
          c.size).1,
        (putOutputData out.data kv out.dataOffset).2,
        (putOutputKey out.key kv.key kv.keySize out.keyOffset out.dataOffset c.fileIndex c.oldOffset
          c.size).2, out.rewriteKeyNum + 1⟩ (cs ++ [c]) := by
  obtain ⟨wd, od⟩ := putOutputData_wrote out.data out.dataOffset henc.key_lt henc.value_lt
    henc hkv hkey hvalue
  obtain ⟨wk, ok⟩ := putOutputKey_wrote out.key out.keyOffset out.dataOffset henc.key_lt hkey
  have hnew : out.dataOffset = headerBytes.length + (cs.flatMap Copied.bytes).length := by
    rw [h.dataOffset, List.length_append]
  have hflat : headerBytes ++ (cs ++ [c]).flatMap Copied.bytes =
      headerBytes ++ cs.flatMap Copied.bytes ++ encodedRecord c.record := by
    simp [Copied.bytes]
  rw [hkv.1]
  refine ⟨?_, ?_, ?_, ?_, ?_⟩
  · rw [hflat]
    exact Wrote.extend h.data (by rw [Nat.zero_add, ← h.dataOffset]; exact wd)
  · rw [hflat, List.length_append, ← h.dataOffset]
    exact od
  · rw [keyBytes_snoc, ← hnew]
    exact Wrote.extend h.key (by rw [Nat.zero_add, ← h.keyOffset]; exact wk)
  · rw [keyBytes_snoc, ← hnew, List.length_append, ← h.keyOffset]
    exact ok
  · rw [List.length_append, ← h.rewriteKeyNum]
    rfl

theorem checkValid_eq {m : Mem} {base : ℕ} {bitmap : Bytes} (h : Holds m base bitmap) {j : ℕ}
    (hj : j < 8 * bitmap.length) : checkValid j m base = !bitmapBit bitmap j := by
  have hidx : j >>> 3 < bitmap.length := by
    rw [Nat.shiftRight_eq_div_pow]
    omega
  have hbyte : m (base + j >>> 3) = bitmap.getD (j >>> 3) 0 := by
    rw [List.getD_eq_getElem?_getD, List.getElem?_eq_getElem hidx, Option.getD_some]
    exact h.apply hidx
  simp [checkValid, bitmapBit, hbyte, bne]

/-- The entry loop appends the copies of the records it has left. -/
theorem entryLoop_written {inputs bitmaps : Mem} {inputData inputBitmap i : ℕ} {bitmap : Bytes}
    (hb : Holds bitmaps inputBitmap bitmap) (rs : List BlobRecord) {j cur : ℕ} (kv : KeyValue)
    {out : Output} {cs : List Copied} (hcover : j + rs.length ≤ 8 * bitmap.length)
    (henc : ∀ r ∈ rs, Encodable r) (hin : Holds inputs (inputData + cur) (rs.flatMap encodedRecord))
    (hout : Written out cs) :
    Written (entryLoop inputs inputData bitmaps inputBitmap i rs.length j cur kv out)
      (cs ++ copiedFrom i bitmap j cur rs) := by
  induction rs generalizing j cur kv out cs with
  | nil => simpa [entryLoop, copiedFrom] using hout
  | cons r rs ih =>
      have hfit := henc r List.mem_cons_self
      have hrest : ∀ q ∈ rs, Encodable q := fun q hq => henc q (List.mem_cons_of_mem _ hq)
      rw [List.flatMap_cons] at hin
      obtain ⟨hrec, htail⟩ := holds_append.mp hin
      rw [Nat.add_assoc] at htail
      simp only [List.length_cons] at hcover
      rw [List.length_cons, entryLoop, checkValid_eq hb (by omega)]
      by_cases hbit : bitmapBit bitmap j = true
      · simp only [hbit, Bool.not_true, Bool.false_eq_true, if_false,
          getKV_skip hfit.key_lt hfit.value_lt hrec, copiedFrom, if_true]
        exact ih _ (by omega) hrest htail hout
      · have hzero : bitmapBit bitmap j = false := by simpa using hbit
        have hget := getKV_valid hfit.key_lt hfit.value_lt hrec kv
        have hcopy := hout.copy ⟨i, cur, r⟩
          ⟨writeBytes (fun _ => 0) 0 r.key, r.key.length, writeBytes (fun _ => 0) 0 r.value,
            r.value.length⟩ hfit ⟨rfl, rfl⟩ (holds_writeBytes _ _ _) (holds_writeBytes _ _ _)
        simp only [hzero, Bool.not_false, if_true, hget, Nat.add_sub_cancel_left, copiedFrom,
          Bool.false_eq_true, if_false]
        rw [List.append_cons]
        exact ih _ (by omega) hrest htail hcopy

end AegonKV.Kernel
