import AegonKV.ByteMemory
import AegonKV.Coding
import AegonKV.Crc32c

/-!
# The kernel's integer and slice codecs

The hardware kernel reads and writes buffers through pointers, here an offset into a `Mem`. Its
codecs were written independently of the base DB's. Each writer leaves the bytes that the base
DB's writer would append, and each reader returns what was written.
-/

namespace AegonKV.Kernel
open LittleEndian ByteMemory

def decodeFixed32 (m : Mem) (input : ℕ) : ℕ :=
  (List.range 4).foldl (fun result i => result ||| (m (input + i)).toNat <<< (8 * i)) 0

def decodeFixed64 (m : Mem) (input : ℕ) : ℕ :=
  (List.range 8).foldl (fun result i => result ||| (m (input + i)).toNat <<< (8 * i)) 0

/-- The loop of `EncodeFixed32` and `EncodeFixed64`; the store keeps the low byte. -/
def encodeFixed : ℕ → Mem → ℕ → ℕ → Mem
  | 0, m, _, _ => m
  | n + 1, m, buf, value =>
    encodeFixed n (write m buf (UInt8.ofNat ((value &&& 255) ||| 256))) (buf + 1) (value >>> 8)

def encodeFixed32 (m : Mem) (buf value : ℕ) : Mem := encodeFixed 4 m buf (value % 2 ^ 32)

def encodeFixed64 (m : Mem) (buf value : ℕ) : Mem := encodeFixed 8 m buf (value % 2 ^ 64)

/-- The loop of `DecodeVarint32`. It returns `value` and `offset`; without a last byte before the
limit `value` keeps what it had. -/
def decodeVarint32Loop (m : Mem) (limit : ℕ) : ℕ → ℕ → ℕ → ℕ → ℕ → ℕ → ℕ × ℕ
  | 0, _, _, _, value, offset => (value, offset)
  | fuel + 1, shift, p, result, value, offset =>
    if p < limit then
      let byte := (m p).toNat
      if byte &&& 128 ≠ 0 then
        decodeVarint32Loop m limit fuel (shift + 7) (p + 1)
          ((result ||| (byte &&& 127) <<< shift) % 2 ^ 32) value (offset + 1)
      else ((result ||| byte <<< shift) % 2 ^ 32, offset + 1)
    else (value, offset)

def decodeVarint32 (m : Mem) (p limit value offset : ℕ) : ℕ × ℕ :=
  decodeVarint32Loop m limit 5 0 p 0 value offset

def decodeVarint64Loop (m : Mem) (limit : ℕ) : ℕ → ℕ → ℕ → ℕ → ℕ → ℕ → ℕ × ℕ
  | 0, _, _, _, value, offset => (value, offset)
  | fuel + 1, shift, p, result, value, offset =>
    if p < limit then
      let byte := (m p).toNat
      if byte &&& 128 ≠ 0 then
        decodeVarint64Loop m limit fuel (shift + 7) (p + 1)
          ((result ||| (byte &&& 127) <<< shift) % 2 ^ 64) value (offset + 1)
      else ((result ||| byte <<< shift) % 2 ^ 64, offset + 1)
    else (value, offset)

def decodeVarint64 (m : Mem) (p limit value offset : ℕ) : ℕ × ℕ :=
  decodeVarint64Loop m limit 10 0 p 0 value offset

def encodeVarint32 (m : Mem) (dst v offset : ℕ) : Mem × ℕ :=
  if v < 1 <<< 7 then (writeBytes m dst [UInt8.ofNat v], offset + 1)
  else if v < 1 <<< 14 then
    (writeBytes m dst [UInt8.ofNat (v ||| 128), UInt8.ofNat (v >>> 7)], offset + 2)
  else if v < 1 <<< 21 then
    (writeBytes m dst [UInt8.ofNat (v ||| 128), UInt8.ofNat (v >>> 7 ||| 128),
      UInt8.ofNat (v >>> 14)], offset + 3)
  else if v < 1 <<< 28 then
    (writeBytes m dst [UInt8.ofNat (v ||| 128), UInt8.ofNat (v >>> 7 ||| 128),
      UInt8.ofNat (v >>> 14 ||| 128), UInt8.ofNat (v >>> 21)], offset + 4)
  else
    (writeBytes m dst [UInt8.ofNat (v ||| 128), UInt8.ofNat (v >>> 7 ||| 128),
      UInt8.ofNat (v >>> 14 ||| 128), UInt8.ofNat (v >>> 21 ||| 128), UInt8.ofNat (v >>> 28)],
      offset + 5)

def encodeVarint64 (m : Mem) (dst v offset : ℕ) : Mem × ℕ :=
  if h : v ≥ 128 then
    have : v >>> 7 < v := by
      rw [Nat.shiftRight_eq_div_pow]
      omega
    encodeVarint64 (write m dst (UInt8.ofNat ((v &&& 127) ||| 128))) (dst + 1) (v >>> 7)
      (offset + 1)
  else (write m dst (UInt8.ofNat v), offset + 1)
termination_by v

def copy : ℕ → Mem → ℕ → Mem → ℕ → Mem
  | 0, dst, _, _, _ => dst
  | n + 1, dst, doff, src, soff => copy n (write dst doff (src soff)) (doff + 1) src (soff + 1)

/-- `DecodeVarint32AndValue`: the filled key buffer, the key size and the offset. -/
def decodeVarint32AndValue (m : Mem) (data : ℕ) (key : Mem) (offset : ℕ) : Mem × ℕ × ℕ :=
  let (len, offset) := decodeVarint32 m data (data + 5) 0 offset
  (copy len key 0 m (data + offset), len, offset + len)

def encodeVarint32AndValue (m : Mem) (data : ℕ) (key : Mem) (keySize offset : ℕ) : Mem × ℕ :=
  let (m, offset) := encodeVarint32 m data keySize offset
  (copy keySize m (data + offset) key 0, offset + keySize)

/-- `Crc32c`: one table step per byte of `data[0, n)`. -/
def crc32c (initCrc : BitVec 32) (m : Mem) (data n : ℕ) : BitVec 32 :=
  Crc32c.extend initCrc (readBytes m data n)

theorem ofNat_low_or_256 (v : ℕ) : UInt8.ofNat ((v &&& 255) ||| 256) = UInt8.ofNat v := by
  have hand : v &&& 255 = v % 256 := Nat.and_two_pow_sub_one_eq_mod v 8
  have hlt : v % 256 < 2 ^ 8 := by omega
  have hor : v % 256 ||| 256 = v % 256 + 256 := by
    have h := Varint.lor_shiftLeft hlt 1
    simpa using h
  apply UInt8.toNat_inj.mp
  rw [hand, hor, UInt8.toNat_ofNat', UInt8.toNat_ofNat']
  omega

theorem encodeFixed_eq (n : ℕ) (m : Mem) (buf value : ℕ) :
    encodeFixed n m buf value = writeBytes m buf (leBytes n value) := by
  induction n generalizing m buf value with
  | zero => rfl
  | succ n ih =>
      rw [encodeFixed, ih, leBytes, writeBytes, ofNat_low_or_256, Nat.shiftRight_eq_div_pow]

theorem leBytes_mod (n value : ℕ) : leBytes n (value % 256 ^ n) = leBytes n value := by
  induction n generalizing value with
  | zero => rfl
  | succ n ih =>
      have hlow : UInt8.ofNat (value % 256 ^ (n + 1)) = UInt8.ofNat value := by
        apply UInt8.toNat_inj.mp
        rw [UInt8.toNat_ofNat', UInt8.toNat_ofNat', pow_succ]
        exact Nat.mod_mul_left_mod value (256 ^ n) 256
      have hhigh : value % 256 ^ (n + 1) / 256 = value / 256 % 256 ^ n := by
        rw [pow_succ, Nat.mul_comm, Nat.mod_mul_right_div_self]
      rw [leBytes, leBytes, hlow, hhigh, ih]

theorem encodeFixed32_eq (m : Mem) (buf value : ℕ) :
    encodeFixed32 m buf value = writeBytes m buf (leBytes 4 value) := by
  rw [encodeFixed32, encodeFixed_eq]
  exact congrArg _ (leBytes_mod 4 value)

theorem encodeFixed64_eq (m : Mem) (buf value : ℕ) :
    encodeFixed64 m buf value = writeBytes m buf (leBytes 8 value) := by
  rw [encodeFixed64, encodeFixed_eq]
  exact congrArg _ (leBytes_mod 8 value)

/-- The loop of `DecodeFixed32` and `DecodeFixed64` after `n` bytes. -/
theorem foldl_or_shiftLeft (m : Mem) (input n : ℕ) :
    (List.range n).foldl (fun result i => result ||| (m (input + i)).toNat <<< (8 * i)) 0 =
      leNat (readBytes m input n) := by
  induction n with
  | zero => rfl
  | succ n ih =>
      have hlow : leNat (readBytes m input n) < 2 ^ (8 * n) := by
        have h := leNat_lt (readBytes m input n)
        rwa [length_readBytes, show 256 = 2 ^ 8 from rfl, ← pow_mul] at h
      rw [List.range_succ, List.foldl_append, ih, readBytes_add, leNat_append, length_readBytes,
        List.foldl_cons, List.foldl_nil, Varint.lor_shiftLeft hlow]
      simp only [readBytes, leNat, Nat.mul_zero, Nat.add_zero]
      rw [pow_mul]
      ring

theorem decodeFixed32_eq (m : Mem) (input : ℕ) :
    decodeFixed32 m input = leNat (readBytes m input 4) := foldl_or_shiftLeft m input 4

theorem decodeFixed64_of_holds {m : Mem} {input : ℕ} {v : UInt64}
    (h : Holds m input (putFixed64 v)) : decodeFixed64 m input = v.toNat := by
  have hv : v.toNat < 256 ^ 8 := v.toNat_lt
  rw [decodeFixed64, foldl_or_shiftLeft]
  unfold Holds at h
  simp only [putFixed64, length_leBytes] at h
  rw [h, leNat_leBytes_of_lt hv]

theorem decodeFixed32_of_holds {m : Mem} {input : ℕ} {v : UInt32}
    (h : Holds m input (putFixed32 v)) : decodeFixed32 m input = v.toNat := by
  have hv : v.toNat < 256 ^ 4 := v.toNat_lt
  rw [decodeFixed32_eq]
  unfold Holds at h
  simp only [putFixed32, length_leBytes] at h
  rw [h, leNat_leBytes_of_lt hv]

def decodeVarintLoop (w : ℕ) (m : Mem) (limit : ℕ) : ℕ → ℕ → ℕ → ℕ → ℕ → ℕ → ℕ × ℕ
  | 0, _, _, _, value, offset => (value, offset)
  | fuel + 1, shift, p, result, value, offset =>
    if p < limit then
      if (m p).toNat &&& 128 ≠ 0 then
        decodeVarintLoop w m limit fuel (shift + 7) (p + 1)
          ((result ||| ((m p).toNat &&& 127) <<< shift) % 2 ^ w) value (offset + 1)
      else ((result ||| (m p).toNat <<< shift) % 2 ^ w, offset + 1)
    else (value, offset)

theorem decodeVarint32Loop_eq_decodeVarintLoop (m : Mem) (limit : ℕ) :
    decodeVarint32Loop m limit = decodeVarintLoop 32 m limit := by
  funext fuel
  induction fuel with
  | zero => rfl
  | succ fuel ih =>
      funext shift p result value offset
      rw [decodeVarint32Loop, decodeVarintLoop, ih]

theorem decodeVarint64Loop_eq_decodeVarintLoop (m : Mem) (limit : ℕ) :
    decodeVarint64Loop m limit = decodeVarintLoop 64 m limit := by
  funext fuel
  induction fuel with
  | zero => rfl
  | succ fuel ih =>
      funext shift p result value offset
      rw [decodeVarint64Loop, decodeVarintLoop, ih]

/-- The loop is the base DB's reader, as long as the bytes it takes lie before the limit. -/
theorem decodeVarintLoop_eq {w : ℕ} {m : Mem} {limit fuel shift p result value offset x : ℕ}
    {rest : Bytes}
    (h : Varint.decode w fuel shift result (readBytes m p fuel) = some (x, rest))
    (hp : p + (fuel - rest.length) ≤ limit) :
    decodeVarintLoop w m limit fuel shift p result value offset =
      (x, offset + (fuel - rest.length)) := by
  induction fuel generalizing shift p result offset with
  | zero => simp [Varint.decode] at h
  | succ fuel ih =>
      have hrest : rest.length < fuel + 1 := by simpa using Varint.length_rest_lt h
      rw [decodeVarintLoop, if_pos (by omega)]
      rw [readBytes, Varint.decode] at h
      split_ifs at h ⊢ with hmore
      · have hlen : rest.length < fuel := by simpa using Varint.length_rest_lt h
        rw [ih h (by omega)]
        congr 1
        omega
      · obtain ⟨rfl, rfl⟩ : _ = x ∧ _ = rest := by simpa using h
        simp

/-- The loop on an encoding that lies before the limit, whatever follows it. -/
theorem decodeVarintLoop_of_holds {w fuel x : ℕ} (hx : x < 128 ^ (fuel + 1)) (hw : x < 2 ^ w)
    {m : Mem} {p limit : ℕ} (h : Holds m p (Varint.encode fuel x))
    (hlimit : p + (Varint.encode fuel x).length ≤ limit) (value offset : ℕ) :
    decodeVarintLoop w m limit (fuel + 1) 0 p 0 value offset =
      (x, offset + (Varint.encode fuel x).length) := by
  have hlen := Varint.length_encode_le fuel x
  have hread : readBytes m p (fuel + 1) = Varint.encode fuel x ++
      readBytes m (p + (Varint.encode fuel x).length) (fuel + 1 - (Varint.encode fuel x).length) := by
    have hsplit := readBytes_add m p (Varint.encode fuel x).length
      (fuel + 1 - (Varint.encode fuel x).length)
    rw [Nat.add_sub_cancel' hlen] at hsplit
    rw [hsplit, h]
  have hdec := Varint.decode_encode (w := w) (readBytes m (p + (Varint.encode fuel x).length)
    (fuel + 1 - (Varint.encode fuel x).length)) hx hw
  rw [← hread] at hdec
  rw [decodeVarintLoop_eq hdec (by rw [length_readBytes]; omega), length_readBytes]
  congr 2
  omega

theorem decodeVarint32_of_holds {m : Mem} {p x : ℕ} (hx : x < 2 ^ 32)
    (h : Holds m p (AegonKV.encodeVarint32 x)) (value offset : ℕ) :
    decodeVarint32 m p (p + 5) value offset =
      (x, offset + (AegonKV.encodeVarint32 x).length) := by
  rw [encodeVarint32_eq hx] at h ⊢
  have hlen := Varint.length_encode_le 4 x
  rw [decodeVarint32, decodeVarint32Loop_eq_decodeVarintLoop]
  exact decodeVarintLoop_of_holds (by omega) hx h (by omega) value offset

theorem encodeVarint32_spec (m : Mem) (dst v offset : ℕ) :
    encodeVarint32 m dst v offset =
      (writeBytes m dst (AegonKV.encodeVarint32 v),
        offset + (AegonKV.encodeVarint32 v).length) := by
  unfold encodeVarint32 AegonKV.encodeVarint32
  simp only [Nat.one_shiftLeft]
  split_ifs <;> rfl

/-- `EncodeVarint64` on a value of at most `fuel + 1` digits. -/
theorem encodeVarint64_eq (fuel : ℕ) (m : Mem) (dst v offset : ℕ) (hv : v < 128 ^ (fuel + 1)) :
    encodeVarint64 m dst v offset =
      (writeBytes m dst (Varint.encode fuel v), offset + (Varint.encode fuel v).length) := by
  induction fuel generalizing m dst v offset with
  | zero =>
      rw [encodeVarint64, dif_neg (by omega)]
      rfl
  | succ fuel ih =>
      rw [encodeVarint64, Varint.encode]
      by_cases hsmall : v < 128
      · rw [dif_neg (by omega), if_pos hsmall]
        rfl
      · have hdiv : v >>> 7 = v / 128 := Nat.shiftRight_eq_div_pow v 7
        have hlt : v / 128 < 128 ^ (fuel + 1) := by
          rw [Nat.div_lt_iff_lt_mul (by norm_num), ← pow_succ]
          exact hv
        have hbyte : UInt8.ofNat ((v &&& 127) ||| 128) = UInt8.ofNat (v % 128 + 128) := by
          rw [Varint.and_127, ofNat_or_128, Nat.mod_mod]
        rw [← hdiv] at hlt
        rw [dif_pos (by omega), if_neg hsmall]
        dsimp only
        rw [ih _ _ _ _ hlt, hdiv, hbyte, writeBytes, List.length_cons, Nat.add_assoc, Nat.add_comm 1]

theorem encodeVarint64_zero (m : Mem) (dst offset : ℕ) :
    encodeVarint64 m dst 0 offset = (writeBytes m dst [0], offset + 1) := by
  rw [encodeVarint64, dif_neg (by omega)]
  rfl

theorem copy_eq (n : ℕ) (dst : Mem) (doff : ℕ) (src : Mem) (soff : ℕ) :
    copy n dst doff src soff = writeBytes dst doff (readBytes src soff n) := by
  induction n generalizing dst doff soff with
  | zero => rfl
  | succ n ih => rw [copy, ih, readBytes, writeBytes]

theorem putLengthPrefixedSlice_eq {s : Bytes} (hs : s.length < 2 ^ 32) :
    putLengthPrefixedSlice s = AegonKV.encodeVarint32 s.length ++ s := by
  rw [putLengthPrefixedSlice, putVarint32, UInt32.toNat_ofNat', Nat.mod_eq_of_lt hs]

theorem decodeVarint32AndValue_of_holds {m key : Mem} {data : ℕ} {s : Bytes}
    (hs : s.length < 2 ^ 32) (h : Holds m data (putLengthPrefixedSlice s)) :
    decodeVarint32AndValue m data key 0 =
      (writeBytes key 0 s, s.length, (putLengthPrefixedSlice s).length) := by
  rw [putLengthPrefixedSlice_eq hs] at h ⊢
  obtain ⟨hlen, hbody⟩ := holds_append.mp h
  have hread : readBytes m (data + (AegonKV.encodeVarint32 s.length).length) s.length = s := hbody
  simp only [decodeVarint32AndValue, decodeVarint32_of_holds hs hlen, Nat.zero_add, copy_eq, hread,
    List.length_append]

theorem encodeVarint32AndValue_of_holds {m key : Mem} {data : ℕ} {s : Bytes}
    (hs : s.length < 2 ^ 32) (h : Holds key 0 s) :
    encodeVarint32AndValue m data key s.length 0 =
      (writeBytes m data (putLengthPrefixedSlice s), (putLengthPrefixedSlice s).length) := by
  have hread : readBytes key 0 s.length = s := h
  simp only [putLengthPrefixedSlice_eq hs, encodeVarint32AndValue, encodeVarint32_spec,
    Nat.zero_add, copy_eq, hread, writeBytes_append, List.length_append]

end AegonKV.Kernel
