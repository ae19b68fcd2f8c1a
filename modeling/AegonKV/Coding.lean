import AegonKV.Varint

/-!
# The base DB's integer and slice codecs

`Put*` functions return the bytes they append and `Get*` functions return the decoded value with
the remaining slice, or `none` where the source returns `false`. Each reader inverts its writer on
every value, whatever follows.
-/

namespace AegonKV
open LittleEndian

def putFixed32 (v : UInt32) : Bytes := leBytes 4 v.toNat

def putFixed64 (v : UInt64) : Bytes := leBytes 8 v.toNat

/-- `EncodeVarint32`, branch by branch; every store truncates to one byte. -/
def encodeVarint32 (v : ℕ) : Bytes :=
  if v < 2 ^ 7 then [UInt8.ofNat v]
  else if v < 2 ^ 14 then [UInt8.ofNat (v ||| 128), UInt8.ofNat (v >>> 7)]
  else if v < 2 ^ 21 then
    [UInt8.ofNat (v ||| 128), UInt8.ofNat (v >>> 7 ||| 128), UInt8.ofNat (v >>> 14)]
  else if v < 2 ^ 28 then
    [UInt8.ofNat (v ||| 128), UInt8.ofNat (v >>> 7 ||| 128), UInt8.ofNat (v >>> 14 ||| 128),
      UInt8.ofNat (v >>> 21)]
  else
    [UInt8.ofNat (v ||| 128), UInt8.ofNat (v >>> 7 ||| 128), UInt8.ofNat (v >>> 14 ||| 128),
      UInt8.ofNat (v >>> 21 ||| 128), UInt8.ofNat (v >>> 28)]

def putVarint32 (v : UInt32) : Bytes := encodeVarint32 v.toNat

def putVarint64 (v : UInt64) : Bytes := Varint.encode 9 v.toNat

def putLengthPrefixedSlice (s : Bytes) : Bytes := putVarint32 (UInt32.ofNat s.length) ++ s

def getChar : Bytes → Option (UInt8 × Bytes)
  | [] => none
  | b :: rest => some (b, rest)

def getFixed32 (src : Bytes) : Option (UInt32 × Bytes) :=
  if src.length < 4 then none else some (UInt32.ofNat (leNat (src.take 4)), src.drop 4)

def getFixed64 (src : Bytes) : Option (UInt64 × Bytes) :=
  if src.length < 8 then none else some (UInt64.ofNat (leNat (src.take 8)), src.drop 8)

def getVarint32 (src : Bytes) : Option (UInt32 × Bytes) :=
  (Varint.decode 32 5 0 0 src).map fun p => (UInt32.ofNat p.1, p.2)

def getVarint64 (src : Bytes) : Option (UInt64 × Bytes) :=
  (Varint.decode 64 10 0 0 src).map fun p => (UInt64.ofNat p.1, p.2)

def getLengthPrefixedSlice (src : Bytes) : Option (Bytes × Bytes) := do
  let (len, rest) ← getVarint32 src
  if rest.length < len.toNat then none else some (rest.take len.toNat, rest.drop len.toNat)

theorem ofNat_or_128 (x : ℕ) : UInt8.ofNat (x ||| 128) = UInt8.ofNat (x % 128 + 128) := by
  have hmod : (x ||| 128) % 256 = x % 256 ||| 128 := by
    have := Nat.or_mod_two_pow (a := x) (b := 128) (n := 8)
    simpa using this
  have htab : ∀ i : Fin 256, i.val ||| 128 = i.val % 128 + 128 := by decide +kernel
  have h := htab ⟨x % 256, Nat.mod_lt _ (by norm_num)⟩
  apply UInt8.toNat_inj.mp
  simp only [UInt8.toNat_ofNat']
  simp only at h
  omega

theorem encodeVarint32_eq {v : ℕ} (hv : v < 2 ^ 32) : encodeVarint32 v = Varint.encode 4 v := by
  unfold encodeVarint32
  simp only [ofNat_or_128, Nat.shiftRight_eq_div_pow, Varint.encode, Nat.div_div_eq_div_mul]
  norm_num
  split_ifs <;> first | rfl | omega

theorem getFixed32_putFixed32 (v : UInt32) (rest : Bytes) :
    getFixed32 (putFixed32 v ++ rest) = some (v, rest) := by
  have hv : v.toNat < 256 ^ 4 := v.toNat_lt
  simp [getFixed32, putFixed32, leNat_leBytes_of_lt hv]

theorem getFixed64_putFixed64 (v : UInt64) (rest : Bytes) :
    getFixed64 (putFixed64 v ++ rest) = some (v, rest) := by
  have hv : v.toNat < 256 ^ 8 := v.toNat_lt
  simp [getFixed64, putFixed64, leNat_leBytes_of_lt hv]

theorem getVarint32_putVarint32 (v : UInt32) (rest : Bytes) :
    getVarint32 (putVarint32 v ++ rest) = some (v, rest) := by
  have hv : v.toNat < 2 ^ 32 := v.toNat_lt
  rw [getVarint32, putVarint32, encodeVarint32_eq hv, Varint.decode_encode rest (by omega) hv]
  simp

theorem getVarint64_putVarint64 (v : UInt64) (rest : Bytes) :
    getVarint64 (putVarint64 v ++ rest) = some (v, rest) := by
  have hv : v.toNat < 2 ^ 64 := v.toNat_lt
  rw [getVarint64, putVarint64, Varint.decode_encode rest (by omega) hv]
  simp

theorem getLengthPrefixedSlice_put {s : Bytes} (hs : s.length < 2 ^ 32) (rest : Bytes) :
    getLengthPrefixedSlice (putLengthPrefixedSlice s ++ rest) = some (s, rest) := by
  have hlen : (UInt32.ofNat s.length).toNat = s.length := by simp; omega
  simp [getLengthPrefixedSlice, putLengthPrefixedSlice, getVarint32_putVarint32, hlen]

end AegonKV
