import AegonKV.KernelCoding
import AegonKV.BlobFileReader

/-!
# The garbage collection kernel

`gcKernel` walks the input files in order, copies the records whose bitmap bit is 0 to the output
file, and lists every copy in `output_key`. The functions of `file_format.h` come first, each with
the bytes it reads or leaves. The local key and value arrays are buffers that every record starts
by clearing.
-/

namespace AegonKV.Kernel
open LittleEndian ByteMemory

def kBlobMinHeaderSize : ℕ := 8

def kHeaderMagicNumber : ℕ := 0x2be0a614

def kFooterMagicNumber : ℕ := 0x2be0a6148e39edc6

def maxKeyLength : ℕ := 64

def maxValueLength : ℕ := 8192

/-- `DecodeHeader`: the verdict, which the kernel ignores, and the advanced offset. -/
def decodeHeader (m : Mem) (data curOffset : ℕ) : Bool × ℕ :=
  let headBuf := data + curOffset
  if decodeFixed32 m headBuf ≠ kHeaderMagicNumber then (false, curOffset)
  else
    let version := decodeFixed32 m (headBuf + 4)
    if version ≠ 1 ∧ version ≠ 2 then (false, curOffset)
    else if version = 2 then
      -- any flag besides the dictionary bit
      if decodeFixed32 m (headBuf + 8) &&& 0xfffffffe ≠ 0 then (false, curOffset)
      else (true, curOffset + kBlobMaxHeaderSize)
    else (true, curOffset + kBlobMinHeaderSize)

def encodeHeader (data : Mem) (curOffset : ℕ) : Mem × ℕ :=
  let data := encodeFixed32 data curOffset kHeaderMagicNumber
  let data := encodeFixed32 data (curOffset + 4) 2
  let data := encodeFixed32 data (curOffset + 8) 0
  (data, curOffset + kBlobMaxHeaderSize)

def alignPadding (curOffset : ℕ) : ℕ :=
  let rest := (curOffset + kBlobFooterSize) &&& 4095
  if rest > 0 then 4096 - rest else rest

theorem alignPadding_spec (n : ℕ) :
    alignPadding n < 4096 ∧ (n + alignPadding n + kBlobFooterSize) % 4096 = 0 := by
  have hmod : (n + kBlobFooterSize) &&& 4095 = (n + kBlobFooterSize) % 4096 :=
    Nat.and_two_pow_sub_one_eq_mod _ 12
  rw [alignPadding, hmod]
  split_ifs with hrest
  · omega
  · omega

/-- `EncodeFooter`. The bytes between the two varints and the magic number are not written. -/
def encodeFooter (data : Mem) (curOffset : ℕ) : Mem × ℕ :=
  let start := curOffset + alignPadding curOffset
  let (data, varOffset) := encodeVarint64 data start 0 0
  let (data, _) := encodeVarint64 data (start + varOffset) 0 varOffset
  let data := encodeFixed64 data (start + kBlobFooterSize - 12) kFooterMagicNumber
  let crc := crc32c 0 data start (kBlobFooterSize - 4)
  let data := encodeFixed32 data (start + kBlobFooterSize - 4) crc.toNat
  (data, start + kBlobFooterSize)

def checkValid (offset : ℕ) (m : Mem) (bitmap : ℕ) : Bool :=
  (m (bitmap + offset >>> 3)).toNat &&& (1 <<< (7 - (offset &&& 7))) == 0

structure KeyValue where
  key : Mem
  keySize : ℕ
  value : Mem
  valueSize : ℕ

/-- `GetKV`; a skipped record is only measured. -/
def getKV (m : Mem) (data curOffset : ℕ) (valid : Bool) (kv : KeyValue) : KeyValue × ℕ :=
  let data := data + curOffset + kRecordHeaderSize
  let curOffset := curOffset + kRecordHeaderSize
  if valid then
    let (key, keySize, keyOffset) := decodeVarint32AndValue m data kv.key 0
    let (value, valueSize, valueOffset) := decodeVarint32AndValue m (data + keyOffset) kv.value 0
    (⟨key, keySize, value, valueSize⟩, curOffset + (keyOffset + valueOffset))
  else
    let (keySize, keyOffset) := decodeVarint32 m data (data + 5) kv.keySize 0
    let keyOffset := keyOffset + keySize
    let (valueSize, valueOffset) :=
      decodeVarint32 m (data + keyOffset) (data + keyOffset + 5) kv.valueSize 0
    let valueOffset := valueOffset + valueSize
    (⟨kv.key, keySize, kv.value, valueSize⟩, curOffset + (keyOffset + valueOffset))

def putOutputData (m : Mem) (kv : KeyValue) (curOffset : ℕ) : Mem × ℕ :=
  let (m, keyOffset) :=
    encodeVarint32AndValue m (curOffset + kRecordHeaderSize) kv.key kv.keySize 0
  let (m, valueOffset) := encodeVarint32AndValue m (curOffset + kRecordHeaderSize + keyOffset)
    kv.value kv.valueSize 0
  let m := encodeFixed32 m (curOffset + 4) (keyOffset + valueOffset)
  let m := write m (curOffset + 8) 0
  let crc := crc32c 0 m (curOffset + 4) (kRecordHeaderSize - 4 + keyOffset + valueOffset)
  let m := encodeFixed32 m curOffset crc.toNat
  (m, curOffset + (kRecordHeaderSize + keyOffset + valueOffset))

def putOutputKey (m key : Mem) (keySize curOffset newDataOffset originalFile originalDataOffset
    entrySize : ℕ) : Mem × ℕ :=
  let (m, offset) := encodeVarint32 m curOffset keySize 0
  let m := copy keySize m (curOffset + offset) key 0
  let m := encodeFixed32 m (curOffset + offset + keySize) newDataOffset
  let m := encodeFixed32 m (curOffset + offset + keySize + 4) originalFile
  let m := encodeFixed32 m (curOffset + offset + keySize + 8) originalDataOffset
  let m := encodeFixed32 m (curOffset + offset + keySize + 12) entrySize
  (m, curOffset + (offset + keySize + 16))

structure Output where
  data : Mem
  key : Mem
  dataOffset : ℕ
  keyOffset : ℕ
  rewriteKeyNum : ℕ

def setZero (kv : KeyValue) : KeyValue := { kv with key := fun _ => 0, value := fun _ => 0 }

/-- The loop over the entries of input file `i`, with the number of entries left. -/
def entryLoop (inputs : Mem) (inputData : ℕ) (bitmaps : Mem) (inputBitmap i : ℕ) :
    ℕ → ℕ → ℕ → KeyValue → Output → Output
  | 0, _, _, _, out => out
  | left + 1, j, curInput, kv, out =>
    let valid := checkValid j bitmaps inputBitmap
    let (kv, curInput') := getKV inputs inputData curInput valid (setZero kv)
    if valid then
      let (key, keyOffset) := putOutputKey out.key kv.key kv.keySize out.keyOffset out.dataOffset i
        curInput (curInput' - curInput)
      let (data, dataOffset) := putOutputData out.data kv out.dataOffset
      entryLoop inputs inputData bitmaps inputBitmap i left (j + 1) curInput' kv
        ⟨data, key, dataOffset, keyOffset, out.rewriteKeyNum + 1⟩
    else entryLoop inputs inputData bitmaps inputBitmap i left (j + 1) curInput' kv out

def fileLoop (inputs bitmaps : Mem) (dataLengths bitmapLengths entries : ℕ → ℕ) :
    ℕ → ℕ → ℕ → ℕ → Output → Output
  | 0, _, _, _, out => out
  | left + 1, i, inputData, inputBitmap, out =>
    let (_, curInput) := decodeHeader inputs inputData 0
    let out := entryLoop inputs inputData bitmaps inputBitmap i (entries i) 0 curInput
      ⟨fun _ => 0, 0, fun _ => 0, 0⟩ out
    fileLoop inputs bitmaps dataLengths bitmapLengths entries left (i + 1)
      (inputData + dataLengths i) (inputBitmap + bitmapLengths i) out

structure Result where
  outputData : Mem
  outputKey : Mem
  outputMeta : List ℕ

def gcKernel (inputDatas inputBitmaps outputData outputKey : Mem)
    (dataLengths bitmapLengths entries : ℕ → ℕ) (size : ℕ) : Result :=
  let (outputData, dataOffset) := encodeHeader outputData 0
  let out := fileLoop inputDatas inputBitmaps dataLengths bitmapLengths entries size 0 0 0
    ⟨outputData, outputKey, dataOffset, 0, 0⟩
  let (outputData, dataOffset) := encodeFooter out.data out.dataOffset
  ⟨outputData, out.key, [out.rewriteKeyNum, dataOffset, out.keyOffset]⟩

/-! ## Headers and footers -/

theorem decodeHeader_of_holds {m : Mem} {data : ℕ} {header : BlobFileHeader}
    (hw : header.WellFormed) (hflags : header.flags = 0) (h : Holds m data header.encodeTo) :
    decodeHeader m data 0 = (true, header.size) := by
  obtain ⟨version, flags⟩ := header
  simp only at hflags
  subst hflags
  simp only [BlobFileHeader.encodeTo] at h
  obtain ⟨hpre, hpost⟩ := holds_append.mp h
  obtain ⟨hmagic, hversion⟩ := holds_append.mp hpre
  have h1 := decodeFixed32_of_holds hmagic
  have h2 := decodeFixed32_of_holds hversion
  simp only [putFixed32, length_leBytes] at h2
  rcases hw with ⟨hv, -⟩ | ⟨hv, -⟩
  · simp only at hv
    subst hv
    simp only [decodeHeader, Nat.add_zero, h1, h2]
    rfl
  · simp only at hv
    subst hv
    have h3 := decodeFixed32_of_holds hpost
    simp only [putFixed32, length_leBytes, List.length_append] at h3
    simp only [decodeHeader, Nat.add_zero, h1, h2, h3]
    rfl

theorem encodeHeader_wrote (data : Mem) :
    Wrote data (encodeHeader data 0).1 0 (BlobFileHeader.encodeTo {}) := by
  have h1 := wrote_writeBytes data 0 (leBytes 4 kHeaderMagicNumber)
  have h2 := wrote_writeBytes (writeBytes data 0 (leBytes 4 kHeaderMagicNumber)) 4 (leBytes 4 2)
  have h3 := wrote_writeBytes (writeBytes (writeBytes data 0 (leBytes 4 kHeaderMagicNumber)) 4
    (leBytes 4 2)) 8 (leBytes 4 0)
  have h := (h1.append h2).append h3
  simp only [encodeHeader, encodeFixed32_eq, Nat.zero_add]
  exact h

theorem encodeHeader_offset (data : Mem) :
    (encodeHeader data 0).2 = (BlobFileHeader.encodeTo {}).length := rfl

theorem encodeTo_nullBlockHandle : BlockHandle.encodeTo {} = [0, 0] := rfl

/-- Sealing over whatever the buffer holds between the varints and the magic number. -/
theorem sealArea_of_wrote {data m₂ m₃ m₄ : Mem} {start : ℕ} (w₂ : Wrote data m₂ start [0, 0])
    (w₃ : Wrote m₂ m₃ (start + 20) (putFixed64 BlobFileFooter.kFooterMagicNumber))
    (w₄ : Wrote m₃ m₄ (start + 28) (leBytes 4 (crc32c 0 m₃ start 28).toNat)) :
    ∃ pad : Bytes, pad.length = 18 ∧
      Holds m₄ start (BlobFileFooter.sealArea (BlockHandle.encodeTo {} ++ pad)) ∧
      ∀ i < start, m₄ i = data i := by
  have hmagic : (putFixed64 BlobFileFooter.kFooterMagicNumber).length = 8 := length_leBytes _ _
  have harea : Holds m₃ start ([0, 0] ++ readBytes m₃ (start + 2) 18 ++
      putFixed64 BlobFileFooter.kFooterMagicNumber) := by
    refine holds_append.mpr ⟨holds_append.mpr ⟨?_, holds_readBytes _ _ _⟩, ?_⟩
    · exact w₃.holds_disjoint w₂.1 (Or.inl (by simp))
    · have hlen : ([0, 0] ++ readBytes m₃ (start + 2) 18 : Bytes).length = 20 := by simp
      rw [hlen]
      exact w₃.1
  have hlen : ([0, 0] ++ readBytes m₃ (start + 2) 18 ++
      putFixed64 BlobFileFooter.kFooterMagicNumber : Bytes).length = 28 := by
    simp [hmagic]
  have hcrc : crc32c 0 m₃ start 28 = Crc32c.value ([0, 0] ++ readBytes m₃ (start + 2) 18 ++
      putFixed64 BlobFileFooter.kFooterMagicNumber) := by
    rw [Holds, hlen] at harea
    rw [crc32c, Crc32c.value, harea]
  refine ⟨readBytes m₃ (start + 2) 18, length_readBytes _ _ _, ?_, ?_⟩
  · rw [encodeTo_nullBlockHandle, BlobFileFooter.sealArea]
    apply Wrote.extend harea
    rw [hlen, putFixed32, BlobFileFooter.toNat_ofNat_crc, ← hcrc]
    exact w₄
  · intro i hi
    rw [w₄.2 i (by omega), w₃.2 i (by omega), w₂.2 i (by omega)]

theorem encodeFooter_spec (data : Mem) (curOffset : ℕ) :
    (encodeFooter data curOffset).2 = curOffset + alignPadding curOffset + kBlobFooterSize ∧
    ∃ pad : Bytes, pad.length = 18 ∧
      Holds (encodeFooter data curOffset).1 (curOffset + alignPadding curOffset)
        (BlobFileFooter.sealArea (BlockHandle.encodeTo {} ++ pad)) ∧
      ∀ i < curOffset + alignPadding curOffset, (encodeFooter data curOffset).1 i = data i := by
  generalize hs : curOffset + alignPadding curOffset = start
  have hsub12 : start + kBlobFooterSize - 12 = start + 20 := rfl
  have hsub4 : start + kBlobFooterSize - 4 = start + 28 := rfl
  simp only [encodeFooter, encodeVarint64_zero, encodeFixed64_eq, encodeFixed32_eq, hs, hsub12,
    hsub4, Nat.zero_add, true_and]
  exact sealArea_of_wrote ((wrote_writeBytes _ _ _).append (wrote_writeBytes _ _ _))
    (wrote_writeBytes _ _ _) (wrote_writeBytes _ _ _)

end AegonKV.Kernel
