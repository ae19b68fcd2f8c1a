import AegonKV.Status
import Mathlib.Data.Nat.Bitwise

/-!
# `BitMap`

The invalid-entry bits of a blob file: bit `i` is bit `7 - i % 8` of byte `i / 8`. The structure
carries the byte size that the constructor allocates, so every offset that passes the range check
lies inside the array.
-/

namespace AegonKV

structure BitMap where
  validBits : ℕ
  bits : List UInt8
  byteSize : bits.length = validBits / 8 + 1

namespace BitMap

def new (validBits : ℕ) : BitMap :=
  ⟨validBits, List.replicate (validBits / 8 + 1) 0, List.length_replicate⟩

/-- `byteval & (1 << bit)`, as a truth value. -/
def testByte (byteval : UInt8) (bit : ℕ) : Bool :=
  byteval.toBitVec &&& BitVec.twoPow 8 bit != 0#8

def updateByte (byteval : UInt8) (bit on : ℕ) : UInt8 :=
  ⟨byteval.toBitVec &&& ~~~BitVec.twoPow 8 bit ||| BitVec.ofNat 8 on <<< bit⟩

def bit (bm : BitMap) (i : ℕ) : Bool :=
  testByte (bm.bits.getD (i / 8) 0) (7 - i % 8)

def setBit (bm : BitMap) (bitoffset on : ℕ) : Except Status BitMap :=
  if on > 1 ∨ bitoffset > bm.validBits then
    .error (.invalidArgument "bit is not an integer or out of range")
  else if bm.bit bitoffset ≠ (on == 1) then
    let byteval := bm.bits.getD (bitoffset / 8) 0
    .ok ⟨bm.validBits, bm.bits.set (bitoffset / 8) (updateByte byteval (7 - bitoffset % 8) on),
      by rw [List.length_set, bm.byteSize]⟩
  else .ok bm

def getBit (bm : BitMap) (bitoffset : ℕ) : Except Status ℕ :=
  if bitoffset > bm.validBits then
    .error (.invalidArgument "bit is not an integer or out of range")
  else .ok (if bm.bit bitoffset then 1 else 0)

inductive BitOpsType
  | kBitAnd | kBitOr | kBitXor
  deriving DecidableEq, Repr

def BitOpsType.apply : BitOpsType → UInt8 → UInt8 → UInt8
  | .kBitAnd => (· &&& ·)
  | .kBitOr => (· ||| ·)
  | .kBitXor => (· ^^^ ·)

/-- `BitOps`. The fast path takes four words at a time; a bitwise operator on words acts on each of
their bytes. -/
def bitOps (bm : BitMap) (type : BitOpsType) (other : BitMap) : Except Status BitMap :=
  if h : bm.validBits ≠ other.validBits then .error (.invalidArgument "valid bits not match")
  else .ok ⟨bm.validBits, List.zipWith type.apply bm.bits other.bits, by
    simp only [ne_eq, not_not] at h
    rw [List.length_zipWith, bm.byteSize, other.byteSize, h, Nat.min_self]⟩

/-- `CopyTo`; a destination that holds bits already is refused. -/
def copyTo (bm : BitMap) : Option BitMap → Except Status BitMap
  | some _ => .error (.corruption "other bimap already been inited.")
  | none => .ok bm

/-! ## The bit array -/

theorem testByte_eq_getLsbD (b : UInt8) (i : ℕ) (hi : i < 8) :
    testByte b i = b.toBitVec.getLsbD i := by
  rw [testByte, BitVec.and_twoPow]
  by_cases h : b.toBitVec.getLsbD i = true
  · have hne : BitVec.twoPow 8 i ≠ 0#8 := by
      intro heq
      have := congrArg (fun v => v.getLsbD i) heq
      simp [hi] at this
    simp [h, hne]
  · simp [h]

theorem testByte_updateByte (b : UInt8) {i j on : ℕ} (hi : i < 8) (hj : j < 8) (hon : on ≤ 1) :
    testByte (updateByte b i on) j = if j = i then on == 1 else testByte b j := by
  rw [testByte_eq_getLsbD _ _ hj, testByte_eq_getLsbD _ _ hj]
  simp only [updateByte, BitVec.getLsbD_or, BitVec.getLsbD_and, BitVec.getLsbD_not,
    BitVec.getLsbD_twoPow, BitVec.getLsbD_shiftLeft, hj]
  obtain rfl | rfl : on = 0 ∨ on = 1 := by omega
  · by_cases hij : j = i
    · simp [hij, hi]
    · simp [hij, Ne.symm hij]
  · by_cases hij : j = i
    · simp [hij, hi]
    · -- the written bit is shifted below or above position `j`
      rcases Nat.lt_or_gt_of_ne hij with hlt | hgt
      · simp [hij, Ne.symm hij, hlt]
      · have hpos : j - i ≠ 0 := by omega
        simp [hij, Ne.symm hij, BitVec.getLsbD_one, hpos]

theorem bit_new (validBits i : ℕ) : (new validBits).bit i = false := by
  have hzero : (new validBits).bits.getD (i / 8) 0 = 0 := by
    rw [List.getD_eq_getElem?_getD]
    by_cases hi : i / 8 < validBits / 8 + 1 <;> simp [new, hi]
  rw [bit, hzero, testByte_eq_getLsbD _ _ (by omega)]
  simp

theorem getBit_eq_one {bm : BitMap} {i : ℕ} (h : bm.getBit i = .ok 1) : bm.bit i = true := by
  unfold getBit at h
  split_ifs at h with h₁ h₂
  · exact h₂
  · cases h

/-- `SetBit` replaces one bit. -/
theorem setBit_spec {bm bm' : BitMap} {i on : ℕ} (h : bm.setBit i on = .ok bm') :
    bm'.validBits = bm.validBits ∧ ∀ j, bm'.bit j = if j = i then on == 1 else bm.bit j := by
  unfold setBit at h
  split_ifs at h with hrange hne
  · obtain rfl := Except.ok.inj h
    refine ⟨rfl, fun j => ?_⟩
    have hlt : i / 8 < bm.bits.length := by
      rw [bm.byteSize]
      omega
    by_cases hbyte : j / 8 = i / 8
    · have hget : (bm.bits.set (i / 8) (updateByte (bm.bits.getD (i / 8) 0) (7 - i % 8) on)).getD
          (j / 8) 0 = updateByte (bm.bits.getD (j / 8) 0) (7 - i % 8) on := by
        rw [hbyte, List.getD_eq_getElem?_getD, List.getElem?_set_self hlt, Option.getD_some]
      simp only [bit, hget]
      rw [testByte_updateByte _ (by omega) (by omega) (by omega)]
      have : 7 - j % 8 = 7 - i % 8 ↔ j = i := by omega
      simp only [this]
    · have hget : (bm.bits.set (i / 8) (updateByte (bm.bits.getD (i / 8) 0) (7 - i % 8) on)).getD
          (j / 8) 0 = bm.bits.getD (j / 8) 0 := by
        rw [List.getD_eq_getElem?_getD, List.getElem?_set_ne (Ne.symm hbyte),
          ← List.getD_eq_getElem?_getD]
      have hji : j ≠ i := fun heq => hbyte (by rw [heq])
      simp only [bit, hget, if_neg hji]
  · obtain rfl := Except.ok.inj h
    refine ⟨rfl, fun j => ?_⟩
    split_ifs with hji
    · rw [hji]
      simpa using hne
    · rfl

def BitOpsType.applyBool : BitOpsType → Bool → Bool → Bool
  | .kBitAnd => and
  | .kBitOr => or
  | .kBitXor => xor

theorem testByte_apply (type : BitOpsType) (a b : UInt8) {i : ℕ} (hi : i < 8) :
    testByte (type.apply a b) i = type.applyBool (testByte a i) (testByte b i) := by
  rw [testByte_eq_getLsbD _ _ hi, testByte_eq_getLsbD _ _ hi, testByte_eq_getLsbD _ _ hi]
  cases type with
  | kBitAnd => exact BitVec.getLsbD_and
  | kBitOr => exact BitVec.getLsbD_or
  | kBitXor => exact BitVec.getLsbD_xor

/-- `BitOps` acts on each position alone. -/
theorem bitOps_spec {type : BitOpsType} {bm other bm' : BitMap} (h : bm.bitOps type other = .ok bm') :
    bm'.validBits = bm.validBits ∧ ∀ j, bm'.bit j = type.applyBool (bm.bit j) (other.bit j) := by
  unfold bitOps at h
  split_ifs at h with hne
  obtain rfl := Except.ok.inj h
  refine ⟨rfl, fun j => ?_⟩
  have hlen : bm.bits.length = other.bits.length := by
    rw [bm.byteSize, other.byteSize, not_not.mp hne]
  have hzero : type.apply 0 0 = 0 := by cases type <;> rfl
  have hget : (List.zipWith type.apply bm.bits other.bits).getD (j / 8) 0 =
      type.apply (bm.bits.getD (j / 8) 0) (other.bits.getD (j / 8) 0) := by
    by_cases hlt : j / 8 < bm.bits.length
    · simp [List.getD_eq_getElem?_getD, List.getElem?_zipWith, hlt, hlen ▸ hlt]
    · simp [List.getD_eq_getElem?_getD, List.getElem?_zipWith, hlt, hlen ▸ hlt, hzero]
  simp only [bit, hget]
  exact testByte_apply type _ _ (by omega)

/-- `BitOps(kBitOr)` is the union of the bits. -/
theorem bitOps_or_spec {bm other bm' : BitMap} (h : bm.bitOps .kBitOr other = .ok bm') :
    bm'.validBits = bm.validBits ∧ ∀ j, bm'.bit j = (bm.bit j || other.bit j) :=
  bitOps_spec h

end BitMap
end AegonKV
