import AegonKV.Crc32c
import AegonKV.ReflectedGF2

/-!
# Combining CRCs

`Crc32cCombine` computes the CRC of two strings from their CRCs and the length of the second. Up to
three zero bytes are appended to the first CRC one by one, the others by multiplications with powers of
`x ^ 32` that are squares of each other. The log writer makes the checksum of a record from those of its
type and of its payload this way.
-/

namespace Crc32c
open LittleEndian ReflectedGF2

def crc32cM : BitVec 32 := 0x82f63b78#32

/-- `gf_multiply_sw_1` with the number of rounds to go, `32 - i`. -/
def gfMultiplySw1 (m : BitVec 32) : ℕ → BitVec 32 → BitVec 32 → BitVec 32 → BitVec 32
  | 0, p, _, _ => p
  | n + 1, p, a, b => gfMultiplySw1 m n (p ^^^ ((0#32 - ((b >>> 31) &&& 1#32)) &&& a))
      ((a >>> 1) ^^^ ((0#32 - (a &&& 1#32)) &&& m)) (b <<< 1)

def gfMultiplySw (a b m : BitVec 32) : BitVec 32 := gfMultiplySw1 m 32 0#32 a b

def gfSquareSw (a m : BitVec 32) : BitVec 32 := gfMultiplySw a a m

def gfPowersMemo (m : BitVec 32) : ℕ → BitVec 32
  | 0 => m
  | i + 1 => gfSquareSw (gfPowersMemo m i) m

def crc32cPowers : List (BitVec 32) := (List.range 62).map (gfPowersMemo crc32cM)

/-- The loop of `Crc32AppendZeroes`; `powers` points to entry `i` of the array. -/
def appendZeroesLoop (polynomial : BitVec 32) (powersArray : List (BitVec 32)) :
    ℕ → BitVec 32 → BitVec 64 → ℕ → BitVec 32
  | 0, crc, _, _ => crc
  | fuel + 1, crc, lenBits, i =>
    if lenBits = 0#64 then crc
    else
      let r := lenBits.ctz.toNat
      appendZeroesLoop polynomial powersArray fuel
        (gfMultiplySw crc (powersArray[i + r]?.getD 0#32) polynomial) ((lenBits >>> r) >>> 1)
        (i + r + 1)

def crc32AppendZeroes (crc : BitVec 32) (lenOver4 : BitVec 64) (polynomial : BitVec 32)
    (powersArray : List (BitVec 32)) : BitVec 32 :=
  appendZeroesLoop polynomial powersArray 64 crc lenOver4 0

def invertedToPure (crc : BitVec 32) : BitVec 32 := ~~~crc

def pureToInverted (crc : BitVec 32) : BitVec 32 := ~~~crc

def pureExtend (crc : BitVec 32) (buf : Bytes) : BitVec 32 :=
  invertedToPure (extend (pureToInverted crc) buf)

def crc32cCombine (crc1 crc2 : BitVec 32) (crc2len : BitVec 64) : BitVec 32 :=
  let pureCrc1WithInit := invertedToPure crc1
  let pureCrc2WithInit := invertedToPure crc2
  let pureCrc2Init := 0xffffffff#32
  let len := (crc2len &&& 3#64).toNat
  let tmp := pureCrc1WithInit ^^^ pureCrc2Init
  let tmp := if len ≠ 0 then pureExtend tmp (List.replicate len 0) else tmp
  pureToInverted
    (crc32AppendZeroes tmp (crc2len / 4#64) crc32cM crc32cPowers ^^^ pureCrc2WithInit)

/-! ## One byte -/

theorem polyStep_eq (crc : BitVec 32) : polyStep crc = mulX crc32cM crc := by
  rw [polyStep, mulX]
  split
  · rfl
  · rw [BitVec.xor_zero]

theorem iterate_polyStep (n : ℕ) : polyStep^[n] = (mulX crc32cM)^[n] :=
  congrArg (·^[n]) (funext polyStep_eq)

/-- Steps on a word whose low bits are clear are shifts. -/
theorem iterate_mulX_of_low {m a : BitVec 32} {n : ℕ} (h : ∀ i < n, a.getLsbD i = false) :
    (mulX m)^[n] a = a >>> n := by
  induction n with
  | zero => rw [Function.iterate_zero_apply, BitVec.ushiftRight_zero]
  | succ n ih =>
      rw [Function.iterate_succ_apply', ih fun i hi => h i (Nat.lt_succ_of_lt hi), mulX,
        BitVec.getLsbD_ushiftRight, Nat.add_zero, h n (Nat.lt_succ_self n), if_neg Bool.false_ne_true,
        BitVec.xor_zero, BitVec.shiftRight_add]

/-- The low byte of a word and the rest of it. -/
theorem low_xor_high (a : BitVec 32) : (a.setWidth 8).setWidth 32 ^^^ ((a >>> 8) <<< 8) = a := by
  apply BitVec.eq_of_getLsbD_eq
  intro i hi
  simp only [BitVec.getLsbD_xor, BitVec.getLsbD_setWidth, BitVec.getLsbD_shiftLeft,
    BitVec.getLsbD_ushiftRight]
  by_cases hlow : i < 8
  · simp [hlow, hi]
  · have hsub : 8 + (i - 8) = i := by omega
    simp [hlow, hi, hsub]

theorem tableStep_eq (crc : BitVec 32) (b : UInt8) :
    tableStep crc b = (mulX crc32cM)^[8] (crc ^^^ b.toBitVec.setWidth 32) := by
  have hlow : (crc ^^^ b.toBitVec.setWidth 32).setWidth 8 = crc.setWidth 8 ^^^ b.toBitVec := by
    apply BitVec.eq_of_getLsbD_eq
    intro i hi
    simp only [BitVec.getLsbD_setWidth, BitVec.getLsbD_xor, hi, decide_true, Bool.true_and]
    have hi' : i < 32 := by omega
    simp [hi']
  have hhigh : (crc ^^^ b.toBitVec.setWidth 32) >>> 8 = crc >>> 8 := by
    apply BitVec.eq_of_getLsbD_eq
    intro i hi
    simp only [BitVec.getLsbD_ushiftRight, BitVec.getLsbD_xor, BitVec.getLsbD_setWidth]
    rw [BitVec.getLsbD_of_ge b.toBitVec (8 + i) (by omega), Bool.and_false, Bool.xor_false]
  have hshift : (mulX crc32cM)^[8] ((crc >>> 8) <<< 8) = crc >>> 8 := by
    rw [iterate_mulX_of_low]
    · apply BitVec.eq_of_getLsbD_eq
      intro i hi
      simp only [BitVec.getLsbD_ushiftRight, BitVec.getLsbD_shiftLeft]
      by_cases hin : 8 + i < 32
      · simp [hin]
      · rw [BitVec.getLsbD_of_ge crc (8 + i) (by omega)]
        simp [hin]
    · intro i hi
      rw [BitVec.getLsbD_shiftLeft, decide_eq_true hi]
      simp
  have hsplit := low_xor_high (crc ^^^ b.toBitVec.setWidth 32)
  rw [hlow, hhigh] at hsplit
  rw [← hsplit, (commutes_mulX.iterate 8).xor, hshift, tableStep, table, iterate_polyStep,
    BitVec.xor_comm]

/-! ## Strings -/

/-- The register after a string is the one of the string alone, and the one from before moved on. -/
theorem foldl_tableStep_xor (c d : BitVec 32) (data : Bytes) :
    data.foldl tableStep (c ^^^ d) =
      (mulX crc32cM)^[8 * data.length] c ^^^ data.foldl tableStep d := by
  induction data generalizing c d with
  | nil => rfl
  | cons b data ih =>
      have hstep : tableStep (c ^^^ d) b = (mulX crc32cM)^[8] c ^^^ tableStep d b := by
        rw [tableStep_eq, tableStep_eq, BitVec.xor_assoc, (commutes_mulX.iterate 8).xor]
      rw [List.foldl_cons, List.foldl_cons, hstep, ih, ← Function.iterate_add_apply, List.length_cons,
        Nat.mul_succ]

theorem foldl_tableStep_zeros (c : BitVec 32) (n : ℕ) :
    (List.replicate n (0 : UInt8)).foldl tableStep c = (mulX crc32cM)^[8 * n] c := by
  induction n generalizing c with
  | zero => rfl
  | succ n ih =>
      have hstep : tableStep c 0 = (mulX crc32cM)^[8] c := by
        rw [tableStep_eq]
        exact congrArg _ BitVec.xor_zero
      rw [List.replicate_succ, List.foldl_cons, hstep, ih, ← Function.iterate_add_apply, Nat.mul_succ]

theorem not_eq_xor (c : BitVec 32) : ~~~c = c ^^^ 0xffffffff#32 :=
  (BitVec.xor_allOnes (x := c)).symm

theorem not_xor_ones (c : BitVec 32) : ~~~c ^^^ 0xffffffff#32 = c := by
  rw [← not_eq_xor, BitVec.not_not]

theorem pureExtend_eq (crc : BitVec 32) (buf : Bytes) :
    pureExtend crc buf = buf.foldl tableStep crc := by
  rw [pureExtend, invertedToPure, pureToInverted, extend, not_xor_ones, not_eq_xor, BitVec.xor_assoc,
    BitVec.xor_self, BitVec.xor_zero]

theorem not_extend (crc : BitVec 32) (data : Bytes) :
    ~~~extend crc data = data.foldl tableStep (~~~crc) := by
  rw [extend, not_eq_xor, BitVec.xor_assoc, BitVec.xor_self, BitVec.xor_zero, ← not_eq_xor]

/-! ## Multiplications -/

theorem mask_low (x y : BitVec 32) :
    (0#32 - (x &&& 1#32)) &&& y = if x.getLsbD 0 then y else 0#32 := by
  rw [BitVec.and_one_eq_setWidth_ofBool_getLsbD]
  cases x.getLsbD 0 with
  | false => exact BitVec.zero_and
  | true => exact BitVec.allOnes_and

theorem gfMultiplySw1_eq (m a b : BitVec 32) {n i : ℕ} (hi : i + n = 32) :
    gfMultiplySw1 m n (mulUpTo m a b i) ((mulX m)^[i] a) (b <<< i) = mul m a b := by
  induction n generalizing i with
  | zero =>
      obtain rfl : i = 32 := hi
      rfl
  | succ n ih =>
      have hbit : ((b <<< i) >>> 31).getLsbD 0 = b.getMsbD i := by
        rw [BitVec.getLsbD_ushiftRight, BitVec.getLsbD_shiftLeft, BitVec.getMsbD_eq_getLsbD]
        have hlt : ¬ 31 < i := by omega
        simp only [Nat.add_zero, hlt, decide_false, Bool.not_false, Bool.and_true]
        rw [decide_eq_true (show 31 < 32 by omega), decide_eq_true (show i < 32 by omega)]
      have hp : mulUpTo m a b i ^^^ ((0#32 - (((b <<< i) >>> 31) &&& 1#32)) &&& (mulX m)^[i] a) =
          mulUpTo m a b (i + 1) := by
        rw [mask_low, hbit, mulUpTo]
      have ha : ((mulX m)^[i] a >>> 1) ^^^ ((0#32 - ((mulX m)^[i] a &&& 1#32)) &&& m) =
          (mulX m)^[i + 1] a := by
        rw [mask_low, Function.iterate_succ_apply', mulX]
      rw [gfMultiplySw1, hp, ha, ← BitVec.shiftLeft_add, ih (by omega)]

theorem gfMultiplySw_eq (a b m : BitVec 32) : gfMultiplySw a b m = mul m a b := by
  have h := gfMultiplySw1_eq m a b (n := 32) (i := 0) rfl
  rwa [BitVec.shiftLeft_zero] at h

theorem gfPowersMemo_eq (m : BitVec 32) (i : ℕ) : gfPowersMemo m i = (mulX m)^[32 * 2 ^ i] one := by
  induction i with
  | zero => exact (iterate_mulX_width (by decide)).symm
  | succ i ih =>
      rw [gfPowersMemo, gfSquareSw, gfMultiplySw_eq, ih, mul_iterate_mulX_one,
        ← Function.iterate_add_apply]
      congr 2
      rw [Nat.pow_succ]
      omega

/-! ## The loop over the bits of the length -/

theorem toNat_shiftRight_ctz {x : BitVec 64} (hx : x ≠ 0#64) :
    x.toNat = 2 ^ x.ctz.toNat * (2 * ((x >>> x.ctz.toNat) >>> 1).toNat + 1) := by
  set r := x.ctz.toNat with hr
  have hlow : x.toNat % 2 ^ r = 0 := by
    apply Nat.eq_of_testBit_eq
    intro i
    rw [Nat.testBit_mod_two_pow, Nat.zero_testBit]
    by_cases hi : i < r
    · have hfalse := BitVec.getLsbD_false_of_lt_ctz (x := x) (hr ▸ hi)
      rw [BitVec.getLsbD] at hfalse
      rw [hfalse, Bool.and_false]
    · rw [decide_eq_false hi, Bool.false_and]
  have hodd : x.toNat / 2 ^ r % 2 = 1 := by
    have htrue := BitVec.getLsbD_true_ctz_of_ne_zero hx
    rw [BitVec.getLsbD, Nat.testBit_eq_decide_div_mod_eq, decide_eq_true_eq] at htrue
    exact htrue
  rw [BitVec.toNat_ushiftRight, BitVec.toNat_ushiftRight, Nat.shiftRight_eq_div_pow,
    Nat.shiftRight_eq_div_pow]
  have hdiv := Nat.div_add_mod x.toNat (2 ^ r)
  have hhalf : 2 * (x.toNat / 2 ^ r / 2 ^ 1) + 1 = x.toNat / 2 ^ r := by omega
  rw [hhalf]
  omega

theorem appendZeroesLoop_eq {fuel : ℕ} (crc : BitVec 32) {len : BitVec 64} {i : ℕ}
    (hfuel : len.toNat < 2 ^ fuel) (hi : len.toNat * 2 ^ i < 2 ^ 62) :
    appendZeroesLoop crc32cM crc32cPowers fuel crc len i =
      (mulX crc32cM)^[32 * (2 ^ i * len.toNat)] crc := by
  induction fuel generalizing crc len i with
  | zero =>
      have hzero : len.toNat = 0 := by omega
      rw [appendZeroesLoop, hzero]
      rfl
  | succ fuel ih =>
      rw [appendZeroesLoop]
      by_cases hlen : len = 0#64
      · rw [if_pos hlen, hlen]
        rfl
      · rw [if_neg hlen]
        dsimp only
        have hsplit := toNat_shiftRight_ctz hlen
        set r := len.ctz.toNat
        set rest := (len >>> r) >>> 1
        have hpos : 0 < 2 ^ r := Nat.two_pow_pos r
        have hpow : 2 ^ (i + r) ≤ len.toNat * 2 ^ i := by
          rw [hsplit, Nat.pow_add]
          nlinarith [Nat.two_pow_pos i, Nat.zero_le (2 ^ r * rest.toNat * 2 ^ i)]
        have hindex : i + r < 62 := (Nat.pow_lt_pow_iff_right (by decide)).mp (hpow.trans_lt hi)
        have hentry : crc32cPowers[i + r]?.getD 0#32 = gfPowersMemo crc32cM (i + r) := by
          rw [crc32cPowers, List.getElem?_map, List.getElem?_range hindex]
          rfl
        have hrest : rest.toNat < 2 ^ fuel := by
          have hle : 2 * rest.toNat + 1 ≤ len.toNat := by
            rw [hsplit]
            exact Nat.le_mul_of_pos_left _ hpos
          rw [Nat.pow_succ] at hfuel
          omega
        have hbound : rest.toNat * 2 ^ (i + r + 1) < 2 ^ 62 := by
          refine lt_of_le_of_lt ?_ hi
          rw [hsplit, Nat.pow_succ, Nat.pow_add]
          nlinarith [Nat.zero_le (2 ^ i * 2 ^ r)]
        rw [hentry, gfMultiplySw_eq, gfPowersMemo_eq, mul_iterate_mulX_one, ih _ hrest hbound,
          ← Function.iterate_add_apply]
        congr 2
        rw [hsplit, Nat.pow_succ, Nat.pow_add]
        ring

/-! ## The combination -/

/-- `Crc32cCombine` extends the first CRC by the string of the second. -/
theorem crc32cCombine_value (crc : BitVec 32) (data : Bytes) (h : data.length < 2 ^ 64) :
    crc32cCombine crc (value data) (BitVec.ofNat 64 data.length) = extend crc data := by
  have hlen : (BitVec.ofNat 64 data.length).toNat = data.length := by
    rw [BitVec.toNat_ofNat, Nat.mod_eq_of_lt h]
  have hlow : (BitVec.ofNat 64 data.length &&& 3#64).toNat = data.length % 4 := by
    rw [BitVec.toNat_and, hlen]
    exact Nat.and_two_pow_sub_one_eq_mod data.length 2
  have hdiv : (BitVec.ofNat 64 data.length / 4#64).toNat = data.length / 4 := by
    rw [BitVec.toNat_udiv, hlen]
    rfl
  have hzeros : ∀ c : BitVec 32, (if data.length % 4 ≠ 0 then
      pureExtend c (List.replicate (data.length % 4) 0) else c) =
      (mulX crc32cM)^[8 * (data.length % 4)] c := by
    intro c
    split
    · rw [pureExtend_eq, foldl_tableStep_zeros]
    · rename_i hzero
      rw [not_not.mp hzero]
      rfl
  have hvalue : ~~~value data = data.foldl tableStep 0xffffffff#32 := not_extend 0#32 data
  rw [crc32cCombine, hlow, hzeros, invertedToPure, invertedToPure, pureToInverted, hvalue, crc32AppendZeroes,
    appendZeroesLoop_eq _ (by rw [hdiv]; omega) (by rw [hdiv]; omega), hdiv,
    ← Function.iterate_add_apply]
  have hsteps : 32 * (2 ^ 0 * (data.length / 4)) + 8 * (data.length % 4) = 8 * data.length := by omega
  rw [hsteps, ← foldl_tableStep_xor, BitVec.xor_assoc, BitVec.xor_self, BitVec.xor_zero, ← not_extend,
    BitVec.not_not]

/-- The CRC of two strings after one another from those of either. -/
theorem crc32cCombine_append (a b : Bytes) (h : b.length < 2 ^ 64) :
    crc32cCombine (value a) (value b) (BitVec.ofNat 64 b.length) = value (a ++ b) := by
  rw [crc32cCombine_value _ _ h, value, value, extend_append]

theorem crc32cCombine_append_five :
    crc32cCombine (value [7]) (value [1, 2, 3, 4, 5]) (BitVec.ofNat 64 5) =
      value [7, 1, 2, 3, 4, 5] :=
  crc32cCombine_append [7] [1, 2, 3, 4, 5] (by decide)

end Crc32c
