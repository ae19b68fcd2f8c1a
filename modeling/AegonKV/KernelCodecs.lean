import AegonKV.GcKernelRecords

/-!
# The kernel's codecs against the base DB's

The element loops of `EncodeVarint32AndValue` and `DecodeVarint32AndValue` count with an `int` up to
an unsigned length, and both functions use the offset they are given twice: the length stands at the
pointer, the bytes stand at the pointer plus the accumulated offset. The callers pass a new
accumulator; the other codecs only add to theirs.
-/

namespace AegonKV.Kernel
open LittleEndian ByteMemory

/-! ## The element loops -/

/-- The rest of `for (int i = 0; i < len; ++i)`; the counter has no value past the largest `int`. -/
def copyInt (doff : ℕ) (src : Mem) (soff : ℕ) : ℕ → ℕ → Mem → Option Mem
  | 0, _, dst => some dst
  | left + 1, i, dst =>
    if i + 1 < 2 ^ 31 then copyInt doff src soff left (i + 1) (write dst (doff + i) (src (soff + i)))
    else none

def decodeVarint32AndValueInt (m : Mem) (data : ℕ) (key : Mem) (offset : ℕ) :
    Option (Mem × ℕ × ℕ) :=
  let (len, offset) := decodeVarint32 m data (data + 5) 0 offset
  (copyInt 0 m (data + offset) len 0 key).map fun key => (key, len, offset + len)

def encodeVarint32AndValueInt (m : Mem) (data : ℕ) (key : Mem) (keySize offset : ℕ) :
    Option (Mem × ℕ) :=
  let (m, offset) := encodeVarint32 m data keySize offset
  (copyInt (data + offset) key 0 keySize 0 m).map fun m => (m, offset + keySize)

/-- What the skipping branch of `GetKV` does for a slice. -/
def skipSlice (m : Mem) (data size offset : ℕ) : ℕ × ℕ :=
  let (size, offset) := decodeVarint32 m data (data + 5) size offset
  (size, offset + size)

def getKVInt (m : Mem) (data curOffset : ℕ) (valid : Bool) (kv : KeyValue) :
    Option (KeyValue × ℕ) := do
  let data := data + curOffset + kRecordHeaderSize
  let curOffset := curOffset + kRecordHeaderSize
  if valid then
    let (key, keySize, keyOffset) ← decodeVarint32AndValueInt m data kv.key 0
    let (value, valueSize, valueOffset) ← decodeVarint32AndValueInt m (data + keyOffset) kv.value 0
    return (⟨key, keySize, value, valueSize⟩, curOffset + (keyOffset + valueOffset))
  else
    let (keySize, keyOffset) := skipSlice m data kv.keySize 0
    let (valueSize, valueOffset) := skipSlice m (data + keyOffset) kv.valueSize 0
    return (⟨kv.key, keySize, kv.value, valueSize⟩, curOffset + (keyOffset + valueOffset))

theorem copyInt_eq (doff : ℕ) (src : Mem) (soff left i : ℕ) (dst : Mem) :
    copyInt doff src soff left i dst =
      if left = 0 ∨ i + left < 2 ^ 31 then some (copy left dst (doff + i) src (soff + i))
      else none := by
  induction left generalizing i dst with
  | zero => rfl
  | succ left ih =>
      rw [copyInt, ih]
      by_cases hi : i + 1 < 2 ^ 31
      · rw [if_pos hi]
        have hiff : (left = 0 ∨ i + 1 + left < 2 ^ 31) ↔ (left + 1 = 0 ∨ i + (left + 1) < 2 ^ 31) := by
          omega
        simp only [hiff]
        simp only [copy, Nat.add_assoc]
      · rw [if_neg hi, if_neg (by omega)]

theorem encodeVarint32AndValueInt_eq (m : Mem) (data : ℕ) (key : Mem) (keySize offset : ℕ) :
    encodeVarint32AndValueInt m data key keySize offset =
      if keySize < 2 ^ 31 then some (encodeVarint32AndValue m data key keySize offset) else none := by
  have hiff : (keySize = 0 ∨ 0 + keySize < 2 ^ 31) ↔ keySize < 2 ^ 31 := by omega
  simp only [encodeVarint32AndValueInt, encodeVarint32AndValue, copyInt_eq, hiff, Nat.add_zero]
  split_ifs
  · rfl
  · rfl

theorem decodeVarint32AndValueInt_eq (m : Mem) (data : ℕ) (key : Mem) (offset : ℕ) :
    decodeVarint32AndValueInt m data key offset =
      if (decodeVarint32AndValue m data key offset).2.1 < 2 ^ 31 then
        some (decodeVarint32AndValue m data key offset) else none := by
  generalize hlen : (decodeVarint32 m data (data + 5) 0 offset).1 = len
  have hiff : (len = 0 ∨ 0 + len < 2 ^ 31) ↔ len < 2 ^ 31 := by omega
  simp only [decodeVarint32AndValueInt, decodeVarint32AndValue, copyInt_eq, hlen, hiff, Nat.add_zero]
  split_ifs
  · rfl
  · rfl

/-- The counter does not show on records below two gigabytes. -/
theorem getKVInt_eq {m : Mem} {data cur : ℕ} {valid : Bool} {kv : KeyValue}
    (hkey : (getKV m data cur valid kv).1.keySize < 2 ^ 31)
    (hvalue : (getKV m data cur valid kv).1.valueSize < 2 ^ 31) :
    getKVInt m data cur valid kv = some (getKV m data cur valid kv) := by
  cases valid with
  | false => rfl
  | true =>
      simp only [getKV, if_true] at hkey hvalue
      simp only [getKVInt, getKV, if_true, decodeVarint32AndValueInt_eq, if_pos hkey,
        Option.bind_eq_bind, Option.bind_some, if_pos hvalue]
      rfl

/-! ## Where the codecs agree -/

/-- The kernel's codecs on these values and this slice, from this offset on, against the base
DB's. -/
structure CodecsAgree (v32 : UInt32) (v64 : UInt64) (s : Bytes) (offset : ℕ) : Prop where
  encodeFixed32 : ∀ m buf, encodeFixed32 m buf v32.toNat = writeBytes m buf (putFixed32 v32)
  encodeFixed64 : ∀ m buf, encodeFixed64 m buf v64.toNat = writeBytes m buf (putFixed64 v64)
  encodeVarint32 : ∀ m dst, encodeVarint32 m dst v32.toNat offset =
    (writeBytes m dst (putVarint32 v32), offset + (putVarint32 v32).length)
  encodeVarint64 : ∀ m dst, encodeVarint64 m dst v64.toNat offset =
    (writeBytes m dst (putVarint64 v64), offset + (putVarint64 v64).length)
  encodeSlice : ∀ m data key, Holds key 0 s →
    encodeVarint32AndValueInt m data key s.length offset =
      some (writeBytes m data (putLengthPrefixedSlice s), offset + (putLengthPrefixedSlice s).length)
  decodeFixed32 : ∀ m input, Holds m input (putFixed32 v32) → decodeFixed32 m input = v32.toNat
  decodeFixed64 : ∀ m input, Holds m input (putFixed64 v64) → decodeFixed64 m input = v64.toNat
  decodeVarint32 : ∀ m p limit value, Holds m p (putVarint32 v32) →
    p + (putVarint32 v32).length ≤ limit → decodeVarint32 m p limit value offset =
      (v32.toNat, offset + (putVarint32 v32).length)
  decodeVarint64 : ∀ m p limit value, Holds m p (putVarint64 v64) →
    p + (putVarint64 v64).length ≤ limit → decodeVarint64 m p limit value offset =
      (v64.toNat, offset + (putVarint64 v64).length)
  decodeSlice : ∀ m data key, Holds m data (putLengthPrefixedSlice s) →
    decodeVarint32AndValueInt m data key offset =
      some (writeBytes key 0 s, s.length, offset + (putLengthPrefixedSlice s).length)
  skipSlice : ∀ m data size, Holds m data (putLengthPrefixedSlice s) →
    skipSlice m data size offset = (s.length, offset + (putLengthPrefixedSlice s).length)

section Slices
variable {s : Bytes} {offset : ℕ}

/-- From offset 0 on, or without bytes, the length and the bytes stand in a row. -/
theorem encodeVarint32AndValue_eq (hs : s.length < 2 ^ 32) (hrow : offset = 0 ∨ s = []) (m : Mem)
    (data : ℕ) {key : Mem} (h : Holds key 0 s) :
    encodeVarint32AndValue m data key s.length offset =
      (writeBytes m data (putLengthPrefixedSlice s), offset + (putLengthPrefixedSlice s).length) := by
  rcases hrow with rfl | rfl
  · rw [encodeVarint32AndValue_of_holds hs h, Nat.zero_add]
  · rw [encodeVarint32AndValue, encodeVarint32_spec, putLengthPrefixedSlice_eq hs, List.append_nil]
    rfl

theorem decodeVarint32AndValue_eq (hs : s.length < 2 ^ 32) (hrow : offset = 0 ∨ s = []) {m : Mem}
    {data : ℕ} (key : Mem) (h : Holds m data (putLengthPrefixedSlice s)) :
    decodeVarint32AndValue m data key offset =
      (writeBytes key 0 s, s.length, offset + (putLengthPrefixedSlice s).length) := by
  rcases hrow with rfl | rfl
  · rw [decodeVarint32AndValue_of_holds hs h, Nat.zero_add]
  · rw [putLengthPrefixedSlice_eq hs, List.append_nil] at h ⊢
    simp only [decodeVarint32AndValue, decodeVarint32_of_holds hs h]
    rfl

theorem skipSlice_eq (hs : s.length < 2 ^ 32) {m : Mem} {data : ℕ} (size : ℕ)
    (h : Holds m data (putLengthPrefixedSlice s)) :
    skipSlice m data size offset = (s.length, offset + (putLengthPrefixedSlice s).length) := by
  rw [putLengthPrefixedSlice_eq hs] at h ⊢
  rw [skipSlice, decodeVarint32_of_holds hs (holds_append.mp h).1, List.length_append,
    ← Nat.add_assoc]

/-- The counter leaves the range of `int`. -/
theorem not_codecsAgree_of_long {v32 : UInt32} {v64 : UInt64} (h : 2 ^ 31 ≤ s.length) :
    ¬CodecsAgree v32 v64 s offset := by
  intro hagree
  have hencode := hagree.encodeSlice (fun _ => 0) 0 _ (holds_writeBytes (fun _ => 0) 0 s)
  rw [encodeVarint32AndValueInt_eq, if_neg (by omega)] at hencode
  cases hencode

/-- The bytes are written behind a gap. -/
theorem not_codecsAgree_of_offset {v32 : UInt32} {v64 : UInt64} (hs : s.length < 2 ^ 31)
    (hoffset : offset ≠ 0) (hne : s ≠ []) : ¬CodecsAgree v32 v64 s offset := by
  intro hagree
  obtain ⟨b, rest, rfl⟩ := List.exists_cons_of_ne_nil hne
  -- a buffer whose bytes differ from the first one of the slice
  have hencode := hagree.encodeSlice (fun _ => b + 1) 0 _ (holds_writeBytes (fun _ => 0) 0 (b :: rest))
  rw [encodeVarint32AndValueInt_eq, if_pos hs] at hencode
  have hmem := congrArg Prod.fst (Option.some.inj hencode)
  simp only [encodeVarint32AndValue, encodeVarint32_spec, copy_eq] at hmem
  have hat := congrFun hmem (AegonKV.encodeVarint32 (b :: rest).length).length
  rw [writeBytes_apply_of_not_mem _ _ _ (by omega), writeBytes_apply_of_not_mem _ _ _ (by omega)]
    at hat
  have hwritten := holds_writeBytes (fun _ => b + 1) 0 (putLengthPrefixedSlice (b :: rest))
  rw [putLengthPrefixedSlice_eq (by omega)] at hwritten hat
  have hfirst := Holds.apply (holds_append.mp hwritten).2 (i := 0) (by simp)
  rw [Nat.zero_add, Nat.add_zero, ← hat] at hfirst
  have hnat := congrArg UInt8.toNat hfirst
  rw [UInt8.toNat_add] at hnat
  have hlt := b.toNat_lt
  simp at hnat
  omega

theorem codecsAgree_of (v32 : UInt32) (v64 : UInt64) (hs : s.length < 2 ^ 31)
    (hrow : offset = 0 ∨ s = []) : CodecsAgree v32 v64 s offset := by
  have h32 : v32.toNat < 2 ^ 32 := v32.toNat_lt
  have h64 : v64.toNat < 2 ^ 64 := v64.toNat_lt
  have hs32 : s.length < 2 ^ 32 := by omega
  have hputVarint32 : putVarint32 v32 = Varint.encode 4 v32.toNat := AegonKV.encodeVarint32_eq h32
  refine ⟨fun m buf => encodeFixed32_eq m buf _, fun m buf => encodeFixed64_eq m buf _,
    fun m dst => encodeVarint32_spec m dst _ _,
    fun m dst => encodeVarint64_eq 9 m dst _ _ (by omega), ?_,
    fun m input => decodeFixed32_of_holds, fun m input => decodeFixed64_of_holds, ?_, ?_, ?_,
    fun m data size => skipSlice_eq hs32 size⟩
  · intro m data key hkey
    rw [encodeVarint32AndValueInt_eq, if_pos hs, encodeVarint32AndValue_eq hs32 hrow m data hkey]
  · intro m p limit value h hlimit
    rw [hputVarint32] at h hlimit ⊢
    rw [decodeVarint32, decodeVarint32Loop_eq_decodeVarintLoop]
    exact decodeVarintLoop_of_holds (by omega) h32 h hlimit value offset
  · intro m p limit value h hlimit
    rw [decodeVarint64, decodeVarint64Loop_eq_decodeVarintLoop]
    exact decodeVarintLoop_of_holds (by omega) h64 h hlimit value offset
  · intro m data key h
    rw [decodeVarint32AndValueInt_eq, decodeVarint32AndValue_eq hs32 hrow key h, if_pos hs]

end Slices

/-- The codecs agree exactly for slices below two gigabytes whose accumulator is new, and both
branches of `GetKV`, which start new ones, take the same bytes. -/
theorem codecsAgree_iff (v32 : UInt32) (v64 : UInt64) {s : Bytes} (hs : s.length < 2 ^ 32)
    (offset : ℕ) :
    (CodecsAgree v32 v64 s offset ↔ s.length < 2 ^ 31 ∧ (offset = 0 ∨ s = [])) ∧
    ∀ (r : BlobRecord) (m : Mem) (data cur : ℕ) (kv : KeyValue), r.key.length < 2 ^ 31 →
      r.value.length < 2 ^ 31 → Holds m (data + cur) (encodedRecord r) →
      (getKVInt m data cur true (setZero kv)).map Prod.snd = some (cur + (encodedRecord r).length) ∧
        (getKVInt m data cur false kv).map Prod.snd = some (cur + (encodedRecord r).length) := by
  refine ⟨⟨fun hagree => ⟨?_, ?_⟩, fun h => codecsAgree_of v32 v64 h.1 h.2⟩, ?_⟩
  · by_contra hlong
    exact not_codecsAgree_of_long (by omega) hagree
  · by_contra hgap
    obtain ⟨hoffset, hne⟩ := not_or.mp hgap
    by_cases hlong : s.length < 2 ^ 31
    · exact not_codecsAgree_of_offset hlong hoffset hne hagree
    · exact not_codecsAgree_of_long (by omega) hagree
  · intro r m data cur kv hk hv h
    have hvalid := getKV_valid (by omega) (by omega) h kv
    have hskip := getKV_skip (by omega) (by omega) h kv
    refine ⟨?_, ?_⟩
    · rw [getKVInt_eq (by rw [hvalid]; exact hk) (by rw [hvalid]; exact hv), hvalid]
      rfl
    · rw [← hskip]
      rfl

/-- A slice behind a new accumulator. -/
theorem codecsAgree_seven : CodecsAgree 300 1099511627776 [7] 0 :=
  (codecsAgree_iff 300 1099511627776 (by decide) 0).1.mpr ⟨by decide, Or.inl rfl⟩

/-- One byte with an accumulator that has counted one byte already, and two gigabytes with a new
one. -/
theorem codecs_disagree :
    ¬CodecsAgree 0 0 [7] 1 ∧ ¬CodecsAgree 0 0 (List.replicate (2 ^ 31) 0) 0 :=
  ⟨not_codecsAgree_of_offset (by decide) (by decide) (by decide),
    not_codecsAgree_of_long List.length_replicate.ge⟩

end AegonKV.Kernel
