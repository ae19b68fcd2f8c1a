import AegonKV.BitMap
import AegonKV.GcKernelRecords
import Mathlib.Data.List.Induction

/-!
# Bitmaps as arrays of booleans

`BitOps` takes 32 bytes at a time as four words and the rest byte by byte, in place, and the other
bitmap may be the same object. The offset of a bit may equal `valid_bits`, so a bitmap stands for an
array of `valid_bits + 1` booleans; the objects of a program are compared with such arrays call by
call, and the kernel's `CheckValid` with `GetBit` in the buffer that `run_gc_kernel` fills.
-/

namespace AegonKV.BitMap
open LittleEndian ByteMemory

/-! ## The loops of `BitOps` -/

def BitOpsType.applyWord : BitOpsType → ℕ → ℕ → ℕ
  | .kBitAnd => (· &&& ·)
  | .kBitOr => (· ||| ·)
  | .kBitXor => (· ^^^ ·)

/-- One word assignment at byte `j`. The other bitmap's buffer is `none` when it is this bitmap's. -/
def wordStep (type : BitOpsType) (other : Option Bytes) (j : ℕ) (bits : Bytes) : Bytes :=
  let word := type.applyWord (leNat ((bits.drop j).take 8))
    (leNat (((other.getD bits).drop j).take 8))
  bits.take j ++ (leBytes 8 word ++ bits.drop (j + 8))

def fastPath (type : BitOpsType) (other : Option Bytes) (alignedRemainSize j : ℕ) (bits : Bytes) :
    Bytes × ℕ :=
  if 32 ≤ alignedRemainSize then
    let bits := wordStep type other j bits
    let bits := wordStep type other (j + 8) bits
    let bits := wordStep type other (j + 16) bits
    let bits := wordStep type other (j + 24) bits
    fastPath type other (alignedRemainSize - 32) (j + 32) bits
  else (bits, j)
termination_by alignedRemainSize

def byteTail (type : BitOpsType) (other : Option Bytes) (opsSize j : ℕ) (bits : Bytes) : Bytes :=
  if j < opsSize then
    let output := bits.getD j 0
    let byte := (other.getD bits).getD j 0
    byteTail type other opsSize (j + 1) (bits.set j (type.apply output byte))
  else bits
termination_by opsSize - j

def combineBytes (type : BitOpsType) (other : Option Bytes) (bits : Bytes) : Bytes :=
  let opsSize := min (other.getD bits).length bits.length
  let (bits, j) := fastPath type other opsSize 0 bits
  byteTail type other opsSize j bits

def combinedTo (type : BitOpsType) (other : Option Bytes) (bits : Bytes) (j : ℕ) : Bytes :=
  List.zipWith type.apply (bits.take j) ((other.getD bits).take j) ++ bits.drop j

theorem leNat_zipWith (type : BitOpsType) : ∀ {as bs : Bytes}, as.length = bs.length →
    type.applyWord (leNat as) (leNat bs) = leNat (List.zipWith type.apply as bs)
  | [], [], _ => by cases type <;> rfl
  | a :: as, b :: bs, h => by
      have hrest := leNat_zipWith type (Nat.succ.inj h)
      have hbyte : (type.apply a b).toNat < 256 := UInt8.toNat_lt _
      apply Nat.eq_of_testBit_eq
      intro j
      simp only [leNat, List.zipWith_cons_cons, ← hrest, testBit_byte_add hbyte]
      cases type with
      | kBitAnd =>
          simp only [BitOpsType.applyWord, BitOpsType.apply, Nat.testBit_and, UInt8.toNat_and,
            testBit_byte_add a.toNat_lt, testBit_byte_add b.toNat_lt]
          split_ifs <;> rfl
      | kBitOr =>
          simp only [BitOpsType.applyWord, BitOpsType.apply, Nat.testBit_or, UInt8.toNat_or,
            testBit_byte_add a.toNat_lt, testBit_byte_add b.toNat_lt]
          split_ifs <;> rfl
      | kBitXor =>
          simp only [BitOpsType.applyWord, BitOpsType.apply, Nat.testBit_xor, UInt8.toNat_xor,
            testBit_byte_add a.toNat_lt, testBit_byte_add b.toNat_lt]
          split_ifs <;> rfl

theorem take_one_drop {bits : Bytes} {j : ℕ} (hj : j < bits.length) :
    (bits.drop j).take 1 = [bits.getD j 0] := by
  rw [List.drop_eq_getElem_cons hj, List.take_succ_cons, List.take_zero, List.getD_eq_getElem]

section Loops
variable {type : BitOpsType} {other : Option Bytes} {bits : Bytes} {j : ℕ}

/-- Past byte `j` the buffers are as they were, whether or not they are one buffer. -/
theorem drop_combinedTo (hlen : (other.getD bits).length = bits.length) (hj : j ≤ bits.length) :
    (combinedTo type other bits j).drop j = bits.drop j := by
  have htaken : (List.zipWith type.apply (bits.take j) ((other.getD bits).take j)).length = j := by
    simp [hlen, hj]
  rw [combinedTo, List.drop_left' htaken]

theorem take_combinedTo (hlen : (other.getD bits).length = bits.length) (hj : j ≤ bits.length) :
    (combinedTo type other bits j).take j =
      List.zipWith type.apply (bits.take j) ((other.getD bits).take j) := by
  have htaken : (List.zipWith type.apply (bits.take j) ((other.getD bits).take j)).length = j := by
    simp [hlen, hj]
  rw [combinedTo, List.take_left' htaken]

theorem drop_other_combinedTo (hlen : (other.getD bits).length = bits.length)
    (hj : j ≤ bits.length) :
    (other.getD (combinedTo type other bits j)).drop j = (other.getD bits).drop j := by
  cases other with
  | none => exact drop_combinedTo hlen hj
  | some o => rfl

/-- What the loops add between two positions. -/
theorem combinedTo_add (hlen : (other.getD bits).length = bits.length) (n : ℕ) :
    combinedTo type other bits (j + n) =
      List.zipWith type.apply (bits.take j) ((other.getD bits).take j) ++
        (List.zipWith type.apply ((bits.drop j).take n) (((other.getD bits).drop j).take n) ++
          bits.drop (j + n)) := by
  rw [combinedTo, List.take_add, List.take_add, List.zipWith_append (by simp [hlen]),
    List.append_assoc]

theorem length_combinedTo (hlen : (other.getD bits).length = bits.length) :
    (combinedTo type other bits j).length = bits.length := by
  simp only [combinedTo, List.length_append, List.length_zipWith, List.length_take,
    List.length_drop, hlen]
  omega

theorem wordStep_combinedTo (hlen : (other.getD bits).length = bits.length)
    (hj : j + 8 ≤ bits.length) :
    wordStep type other j (combinedTo type other bits j) = combinedTo type other bits (j + 8) := by
  have hjle : j ≤ bits.length := by omega
  have hwords : ((bits.drop j).take 8).length = (((other.getD bits).drop j).take 8).length := by
    simp [hlen]
  have hbytes : (List.zipWith type.apply ((bits.drop j).take 8)
      (((other.getD bits).drop j).take 8)).length = 8 := by
    simp only [List.length_zipWith, List.length_take, List.length_drop, hlen]
    omega
  have hword := leBytes_leNat (List.zipWith type.apply ((bits.drop j).take 8)
    (((other.getD bits).drop j).take 8))
  rw [hbytes] at hword
  rw [wordStep, drop_combinedTo hlen hjle, drop_other_combinedTo hlen hjle,
    take_combinedTo hlen hjle, leNat_zipWith type hwords, hword, combinedTo_add hlen,
    ← List.drop_drop, drop_combinedTo hlen hjle, List.drop_drop]

/-- The fast path stops within 32 bytes of the end. -/
theorem fastPath_combinedTo (hlen : (other.getD bits).length = bits.length) (remain : ℕ)
    (hj : j + remain = bits.length) :
    ∃ j', j ≤ j' ∧ j' ≤ bits.length ∧ fastPath type other remain j (combinedTo type other bits j) =
      (combinedTo type other bits j', j') := by
  induction remain using Nat.strong_induction_on generalizing j with
  | _ remain ih =>
      rw [fastPath]
      by_cases h32 : 32 ≤ remain
      · obtain ⟨j', hle, hlast, hpath⟩ :=
          ih (remain - 32) (by omega) (j := j + 32) (by omega)
        refine ⟨j', by omega, hlast, ?_⟩
        simp only [if_pos h32]
        rw [wordStep_combinedTo hlen (by omega), wordStep_combinedTo hlen (by omega),
          wordStep_combinedTo hlen (by omega), wordStep_combinedTo hlen (by omega)]
        exact hpath
      · exact ⟨j, le_rfl, by omega, if_neg h32⟩

theorem byteTail_combinedTo (hlen : (other.getD bits).length = bits.length) (n : ℕ)
    (hj : j + n = bits.length) :
    byteTail type other bits.length j (combinedTo type other bits j) =
      combinedTo type other bits bits.length := by
  induction n generalizing j with
  | zero => rw [byteTail, if_neg (by omega), show j = bits.length by omega]
  | succ n ih =>
      have hjle : j ≤ bits.length := by omega
      have hlt : j < bits.length := by omega
      have hout : (combinedTo type other bits j).getD j 0 = bits.getD j 0 := by
        have hdrop : (combinedTo type other bits j).drop j = bits.drop j := drop_combinedTo hlen hjle
        have hhead := congrArg (fun l => l.getD 0 0) hdrop
        simpa [List.getD_eq_getElem?_getD] using hhead
      have hbyte : (other.getD (combinedTo type other bits j)).getD j 0 =
          (other.getD bits).getD j 0 := by
        have hdrop : (other.getD (combinedTo type other bits j)).drop j = (other.getD bits).drop j :=
          drop_other_combinedTo hlen hjle
        have hhead := congrArg (fun l => l.getD 0 0) hdrop
        simpa [List.getD_eq_getElem?_getD] using hhead
      have hset : (combinedTo type other bits j).set j
          (type.apply (bits.getD j 0) ((other.getD bits).getD j 0)) =
          combinedTo type other bits (j + 1) := by
        have hother : j < (other.getD bits).length := by omega
        rw [List.set_eq_take_append_cons_drop, if_pos (by rwa [length_combinedTo hlen]),
          take_combinedTo hlen hjle, combinedTo_add hlen, take_one_drop hlt, take_one_drop hother,
          ← List.drop_drop, drop_combinedTo hlen hjle, List.drop_drop]
        rfl
      rw [byteTail, if_pos hlt]
      simp only [hout, hbyte, hset]
      exact ih (by omega)

/-- The fast path and the tail together apply the operator to every byte. -/
theorem combineBytes_eq (hlen : (other.getD bits).length = bits.length) :
    combineBytes type other bits = List.zipWith type.apply bits (other.getD bits) := by
  have hstart : combinedTo type other bits 0 = bits := by simp [combinedTo]
  obtain ⟨j, -, hj, hpath⟩ : ∃ j, 0 ≤ j ∧ j ≤ bits.length ∧
      fastPath type other bits.length 0 (combinedTo type other bits 0) =
        (combinedTo type other bits j, j) :=
    fastPath_combinedTo hlen bits.length (Nat.zero_add _)
  rw [hstart] at hpath
  have htail : byteTail type other bits.length j (combinedTo type other bits j) =
      combinedTo type other bits bits.length :=
    byteTail_combinedTo hlen (bits.length - j) (by omega)
  have hend : combinedTo type other bits bits.length =
      List.zipWith type.apply bits (other.getD bits) := by
    rw [combinedTo, List.take_length, List.drop_length, List.append_nil, ← hlen, List.take_length]
  simp only [combineBytes, hlen, Nat.min_self, hpath]
  rw [htail, hend]

end Loops

/-! ## The objects of a program -/

/-- The other bitmap of a call is `none` when it is the bitmap itself. -/
theorem getD_bits (bm : BitMap) (other : Option BitMap) :
    (other.map bits).getD bm.bits = (other.getD bm).bits := by
  cases other with
  | none => rfl
  | some o => rfl

theorem length_combineBytes {type : BitOpsType} {bm : BitMap} {other : Option BitMap}
    (h : ¬bm.validBits ≠ (other.getD bm).validBits) :
    (combineBytes type (other.map bits) bm.bits).length = bm.validBits / 8 + 1 := by
  have hlen : ((other.map bits).getD bm.bits).length = bm.bits.length := by
    rw [getD_bits, bm.byteSize, (other.getD bm).byteSize, not_not.mp h]
  rw [combineBytes_eq hlen, List.length_zipWith, hlen, Nat.min_self, bm.byteSize]

def combine (bm : BitMap) (type : BitOpsType) (other : Option BitMap) : Except Status BitMap :=
  if h : bm.validBits ≠ (other.getD bm).validBits then
    .error (.invalidArgument "valid bits not match")
  else .ok ⟨bm.validBits, combineBytes type (other.map bits) bm.bits, length_combineBytes h⟩

theorem combine_eq (bm : BitMap) (type : BitOpsType) (other : Option BitMap) :
    bm.combine type other = bm.bitOps type (other.getD bm) := by
  unfold combine bitOps
  split_ifs with h
  · rfl
  · have hlen : ((other.map bits).getD bm.bits).length = bm.bits.length := by
      rw [getD_bits, bm.byteSize, (other.getD bm).byteSize, not_not.mp h]
    simp only [combineBytes_eq hlen, getD_bits]

def setBitOn (bm : BitMap) (bitoffset : ℕ) (on : BitVec 32) : Except Status BitMap :=
  if on &&& ~~~1#32 ≠ 0#32 then .error (.invalidArgument "bit is not an integer or out of range")
  else bm.setBit bitoffset on.toNat

/-- The values that pass the check are 0 and 1. -/
theorem and_not_one_eq_zero_iff (on : BitVec 32) : on &&& ~~~1#32 = 0#32 ↔ on = 0#32 ∨ on = 1#32 := by
  constructor
  · intro h
    have hlow : on = on &&& 1#32 := by
      have hsplit : on = on &&& ~~~1#32 ||| on &&& 1#32 := by
        ext i
        simp only [BitVec.getElem_or, BitVec.getElem_and, BitVec.getElem_not]
        cases on[i] <;> cases (1#32)[i] <;> rfl
      rw [h, BitVec.zero_or] at hsplit
      exact hsplit
    have hlt : on.toNat < 2 := by
      rw [hlow, BitVec.toNat_and, BitVec.toNat_ofNat, Nat.and_one_is_mod]
      omega
    obtain hzero | hone : on.toNat = 0 ∨ on.toNat = 1 := by omega
    · exact Or.inl (BitVec.eq_of_toNat_eq hzero)
    · exact Or.inr (BitVec.eq_of_toNat_eq hone)
  · rintro (rfl | rfl)
    · rfl
    · rfl

inductive Call
  | construct (id validBits : ℕ)
  | setBit (id bitoffset : ℕ) (on : BitVec 32)
  | getBit (id bitoffset : ℕ)
  | bitOps (id : ℕ) (type : BitOpsType) (other : Option ℕ)
  | copyTo (id dest : ℕ)

/-- The bitmaps of a program; an object that `BitMap()` made has no bits. -/
abbrev Objects := ℕ → Option BitMap

/-- A status that is not OK, or what `GetBit` left in its result. -/
abbrev Reply := Except Status (Option ℕ)

/-- The call returns, and the object it works on is as it left it. -/
def returned (objs : Objects) (id : ℕ) : Except Status BitMap → Reply × Objects
  | .error s => (.error s, objs)
  | .ok bm => (.ok none, Function.update objs id (some bm))

/-- One call; nothing is said about calls on objects without bits. -/
def call (objs : Objects) : Call → Option (Reply × Objects)
  | .construct id validBits => some (.ok none, Function.update objs id (some (new validBits)))
  | .setBit id bitoffset on =>
    (objs id).map fun bm => returned objs id (bm.setBitOn bitoffset on)
  | .getBit id bitoffset => (objs id).map fun bm => ((bm.getBit bitoffset).map some, objs)
  | .bitOps id _ none =>
    (objs id).map fun _ => (.error (.invalidArgument "bit operate with nullptr"), objs)
  | .bitOps id type (some k) => do
    let bm ← objs id
    let other ← objs k
    return returned objs id (bm.combine type (if k = id then none else some other))
  | .copyTo id dest => (objs id).map fun bm => returned objs dest (bm.copyTo (objs dest))

/-! ## The arrays of booleans they stand for -/

abbrev BoolArrays := ℕ → Option (List Bool)

/-- `none` for a call that is rejected. -/
abbrev ArrayReply := Option (Option Bool)

def settled (arrays : BoolArrays) (id : ℕ) : Option (List Bool) → ArrayReply × BoolArrays
  | none => (none, arrays)
  | some l => (some none, Function.update arrays id (some l))

def arrayCall (arrays : BoolArrays) : Call → Option (ArrayReply × BoolArrays)
  | .construct id validBits =>
    some (some none, Function.update arrays id (some (List.replicate (validBits + 1) false)))
  | .setBit id i on =>
    (arrays id).map fun l => settled arrays id
      (if (on = 0#32 ∨ on = 1#32) ∧ i < l.length then some (l.set i (on == 1#32)) else none)
  | .getBit id i => (arrays id).map fun l => (l[i]?.map some, arrays)
  | .bitOps id _ none => (arrays id).map fun _ => (none, arrays)
  | .bitOps id type (some k) => do
    let l ← arrays id
    let other ← arrays k
    return settled arrays id
      (if l.length = other.length then some (List.zipWith type.applyBool l other) else none)
  | .copyTo id dest =>
    (arrays id).map fun l => settled arrays dest (if (arrays dest).isNone then some l else none)

def bools (bm : BitMap) : List Bool := (List.range (bm.validBits + 1)).map bm.bit

def arraysOf (objs : Objects) : BoolArrays := fun id => (objs id).map bools

@[simp] theorem length_bools (bm : BitMap) : bm.bools.length = bm.validBits + 1 := by
  simp [bools]

theorem getElem?_bools (bm : BitMap) (i : ℕ) :
    bm.bools[i]? = if i ≤ bm.validBits then some (bm.bit i) else none := by
  rw [bools, List.getElem?_map]
  split_ifs with h
  · rw [List.getElem?_range (by omega), Option.map_some]
  · rw [List.getElem?_eq_none (by simp; omega), Option.map_none]

theorem bools_new (validBits : ℕ) : (new validBits).bools = List.replicate (validBits + 1) false := by
  apply List.ext_getElem?
  intro i
  rw [getElem?_bools, List.getElem?_replicate, bit_new]
  have : i ≤ (new validBits).validBits ↔ i < validBits + 1 := Nat.lt_succ_iff.symm
  simp only [this]

theorem bools_setBit {bm bm' : BitMap} {i on : ℕ} (h : bm.setBit i on = .ok bm') :
    bm'.bools = bm.bools.set i (on == 1) := by
  obtain ⟨hvalid, hbit⟩ := setBit_spec h
  apply List.ext_getElem?
  intro j
  rw [List.getElem?_set, getElem?_bools, getElem?_bools, length_bools, hvalid, hbit]
  by_cases hij : i = j
  · subst hij
    simp only [if_true, Nat.lt_succ_iff]
  · simp only [if_neg hij, if_neg (Ne.symm hij)]

theorem bools_bitOps {type : BitOpsType} {bm other bm' : BitMap} (h : bm.bitOps type other = .ok bm')
    (hsize : bm.validBits = other.validBits) :
    bm'.bools = List.zipWith type.applyBool bm.bools other.bools := by
  obtain ⟨hvalid, hbit⟩ := bitOps_spec h
  apply List.ext_getElem?
  intro j
  rw [List.getElem?_zipWith, getElem?_bools, getElem?_bools, getElem?_bools, hvalid, hbit, ← hsize]
  by_cases hj : j ≤ bm.validBits
  · simp only [if_pos hj]
  · simp only [if_neg hj]

/-- The call reports the same, and `GetBit` leaves 0 or 1. -/
def SameReply (r : Reply) (a : ArrayReply) : Prop := r.toOption = a.map (Option.map Bool.toNat)

def Agrees (r : Reply × Objects) (a : ArrayReply × BoolArrays) : Prop :=
  SameReply r.1 a.1 ∧ arraysOf r.2 = a.2

theorem arraysOf_update (objs : Objects) (id : ℕ) (bm : BitMap) :
    arraysOf (Function.update objs id (some bm)) =
      Function.update (arraysOf objs) id (some bm.bools) := by
  funext k
  by_cases hk : k = id
  · subst hk
    rw [arraysOf, Function.update_self, Function.update_self, Option.map_some]
  · rw [arraysOf, Function.update_of_ne hk, Function.update_of_ne hk, arraysOf]

theorem agrees_returned (objs : Objects) (id : ℕ) {x : Except Status BitMap} {y : Option (List Bool)}
    (h : x.toOption.map bools = y) : Agrees (returned objs id x) (settled (arraysOf objs) id y) := by
  cases x with
  | error s =>
      rw [← h]
      exact ⟨rfl, rfl⟩
  | ok bm =>
      rw [← h]
      exact ⟨rfl, arraysOf_update objs id bm⟩

theorem toOption_setBitOn (bm : BitMap) (i : ℕ) (on : BitVec 32) :
    (bm.setBitOn i on).toOption.map bools =
      if (on = 0#32 ∨ on = 1#32) ∧ i < bm.bools.length then some (bm.bools.set i (on == 1#32))
      else none := by
  rw [length_bools, setBitOn]
  by_cases hon : on &&& ~~~1#32 = 0#32
  · have hvalue := (and_not_one_eq_zero_iff on).mp hon
    have hle : ¬on.toNat > 1 := by
      rcases hvalue with rfl | rfl
      · decide
      · decide
    have hone : (on.toNat == 1) = (on == 1#32) := by
      rcases hvalue with rfl | rfl
      · rfl
      · rfl
    rw [if_neg (not_not_intro hon)]
    cases hset : bm.setBit i on.toNat with
    | error s =>
        have hrange : ¬i < bm.validBits + 1 := by
          intro hlt
          rw [setBit, if_neg (by omega)] at hset
          split_ifs at hset
        rw [if_neg fun h => hrange h.2]
        rfl
    | ok bm' =>
        have hrange : i < bm.validBits + 1 := by
          by_contra hge
          rw [setBit, if_pos (Or.inr (by omega))] at hset
          cases hset
        rw [if_pos ⟨hvalue, hrange⟩, ← hone, ← bools_setBit hset]
        rfl
  · rw [if_pos hon, if_neg fun h => hon ((and_not_one_eq_zero_iff on).mpr h.1)]
    rfl

theorem toOption_combine (bm : BitMap) (type : BitOpsType) (other : Option BitMap) :
    (bm.combine type other).toOption.map bools =
      if bm.bools.length = (other.getD bm).bools.length then
        some (List.zipWith type.applyBool bm.bools (other.getD bm).bools) else none := by
  rw [combine_eq, length_bools, length_bools]
  by_cases hsize : bm.validBits = (other.getD bm).validBits
  · cases hops : bm.bitOps type (other.getD bm) with
    | error s =>
        rw [bitOps, dif_neg (not_not_intro hsize)] at hops
        cases hops
    | ok bm' =>
        rw [if_pos (by omega), ← bools_bitOps hops hsize]
        rfl
  · rw [bitOps, dif_pos hsize, if_neg (by omega)]
    rfl

theorem toOption_copyTo (bm : BitMap) (dest : Option BitMap) :
    (bm.copyTo dest).toOption.map bools =
      if (dest.map bools).isNone then some bm.bools else none := by
  cases dest with
  | none => rfl
  | some d => rfl

/-- One call on the objects is the call on their arrays. -/
theorem call_agrees (objs : Objects) (c : Call) :
    Option.Rel Agrees (call objs c) (arrayCall (arraysOf objs) c) := by
  cases c with
  | construct id validBits =>
      refine .some ⟨rfl, ?_⟩
      rw [arraysOf_update, bools_new]
  | setBit id bitoffset on =>
      cases hid : objs id with
      | none => simp [call, arrayCall, arraysOf, hid]
      | some bm =>
          simp only [call, arrayCall, arraysOf, hid, Option.map_some]
          exact .some (agrees_returned objs id (toOption_setBitOn bm bitoffset on))
  | getBit id bitoffset =>
      cases hid : objs id with
      | none => simp [call, arrayCall, arraysOf, hid]
      | some bm =>
          simp only [call, arrayCall, arraysOf, hid, Option.map_some]
          refine .some ⟨?_, rfl⟩
          rw [SameReply, getElem?_bools, getBit]
          by_cases hrange : bitoffset ≤ bm.validBits
          · rw [if_neg (by omega), if_pos hrange]
            cases bm.bit bitoffset <;> rfl
          · rw [if_pos (by omega), if_neg hrange]
            rfl
  | bitOps id type other =>
      cases hid : objs id with
      | none => cases other <;> simp [call, arrayCall, arraysOf, hid]
      | some bm =>
          cases other with
          | none =>
              simp only [call, arrayCall, arraysOf, hid, Option.map_some]
              exact .some ⟨rfl, rfl⟩
          | some k =>
              cases hk : objs k with
              | none => simp [call, arrayCall, arraysOf, hid, hk]
              | some o =>
                  simp only [call, arrayCall, arraysOf, hid, hk, Option.map_some]
                  refine .some (agrees_returned objs id ?_)
                  have hsame : (if k = id then none else some o).getD bm = o := by
                    split_ifs with h
                    · subst h
                      exact Option.some.inj (hid.symm.trans hk)
                    · rfl
                  rw [toOption_combine, hsame]
  | copyTo id dest =>
      cases hid : objs id with
      | none => simp [call, arrayCall, arraysOf, hid]
      | some bm =>
          simp only [call, arrayCall, arraysOf, hid, Option.map_some]
          exact .some (agrees_returned objs dest (toOption_copyTo bm (objs dest)))

/-- Calls one after the other, with what they return. -/
def runCalls {σ ρ : Type} (step : σ → Call → Option (ρ × σ)) : σ → List Call → Option (List ρ × σ)
  | s, [] => some ([], s)
  | s, c :: cs => do
    let (r, s) ← step s c
    let (rs, s) ← runCalls step s cs
    return (r :: rs, s)

theorem runCalls_agrees (objs : Objects) (calls : List Call) :
    Option.Rel (fun r a => List.Forall₂ SameReply r.1 a.1 ∧ arraysOf r.2 = a.2)
      (runCalls call objs calls) (runCalls arrayCall (arraysOf objs) calls) := by
  induction calls generalizing objs with
  | nil => exact .some ⟨.nil, rfl⟩
  | cons c calls ih =>
      have hstep := call_agrees objs c
      rw [runCalls, runCalls]
      generalize call objs c = r at hstep
      generalize arrayCall (arraysOf objs) c = a at hstep
      cases hstep with
      | none => exact .none
      | @some r a h =>
          obtain ⟨hreply, harrays⟩ := h
          have hrest := ih r.2
          rw [harrays] at hrest
          simp only [Option.bind_eq_bind, Option.bind_some]
          generalize runCalls call r.2 calls = rs at hrest
          generalize runCalls arrayCall a.2 calls = as at hrest
          cases hrest with
          | none => exact .none
          | some h => exact .some ⟨.cons hreply h.1, h.2⟩

/-- A call that is rejected changes no object. -/
theorem call_rejected {objs objs' : Objects} {c : Call} {s : Status}
    (h : call objs c = some (.error s, objs')) : objs' = objs := by
  have hreturned {id : ℕ} {x : Except Status BitMap} (hx : returned objs id x = (.error s, objs')) :
      objs' = objs := by
    cases x with
    | error e => exact (Prod.mk.inj hx).2.symm
    | ok bm => cases hx
  cases c with
  | construct id validBits => cases h
  | setBit id bitoffset on =>
      obtain ⟨bm, -, hx⟩ := Option.map_eq_some_iff.mp h
      exact hreturned hx
  | getBit id bitoffset =>
      obtain ⟨bm, -, hx⟩ := Option.map_eq_some_iff.mp h
      exact (Prod.mk.inj hx).2.symm
  | bitOps id type other =>
      cases other with
      | none =>
          obtain ⟨bm, -, hx⟩ := Option.map_eq_some_iff.mp h
          exact (Prod.mk.inj hx).2.symm
      | some k =>
          obtain ⟨bm, -, hx⟩ := Option.bind_eq_some_iff.mp h
          obtain ⟨o, -, hx⟩ := Option.bind_eq_some_iff.mp hx
          exact hreturned (Option.some.inj hx)
  | copyTo id dest =>
      obtain ⟨bm, -, hx⟩ := Option.map_eq_some_iff.mp h
      exact hreturned hx

/-! ## The kernel's view -/

/-- `bitmap_sizes`. -/
def byteSizes (maps : List BitMap) (i : ℕ) : ℕ := (maps[i]?.map fun bm => bm.bits.length).getD 0

/-- The bitmaps are copied into `bitmaps_tmp` one after the other. -/
def copyBitmaps (maps : List BitMap) : Mem × ℕ :=
  maps.foldl (fun buffer bm =>
    (writeBytes buffer.1 buffer.2 bm.bits, buffer.2 + bm.bits.length)) (fun _ => 0, 0)

/-- `input_bitmap` when the kernel comes to file `i`. -/
def inputBitmapAt (bitmapLengths : ℕ → ℕ) : ℕ → ℕ
  | 0 => 0
  | i + 1 => inputBitmapAt bitmapLengths i + bitmapLengths i

theorem copyBitmaps_eq (maps : List BitMap) :
    copyBitmaps maps = (writeBytes (fun _ => 0) 0 (maps.flatMap bits), (maps.flatMap bits).length) := by
  induction maps using List.reverseRecOn with
  | nil => rfl
  | append_singleton maps bm ih =>
      have hlast : copyBitmaps (maps ++ [bm]) =
          (writeBytes (copyBitmaps maps).1 (copyBitmaps maps).2 bm.bits,
            (copyBitmaps maps).2 + bm.bits.length) := by
        rw [copyBitmaps, List.foldl_append]
        rfl
      rw [hlast, ih, List.flatMap_append, List.flatMap_singleton, writeBytes_append,
        List.length_append, Nat.zero_add]

theorem inputBitmapAt_eq (maps : List BitMap) {i : ℕ} (hi : i ≤ maps.length) :
    inputBitmapAt (byteSizes maps) i = ((maps.take i).flatMap bits).length := by
  induction i with
  | zero => rfl
  | succ i ih =>
      have hlt : i < maps.length := hi
      rw [inputBitmapAt, ih (by omega), List.take_succ_eq_append_getElem hlt, List.flatMap_append,
        List.flatMap_singleton, List.length_append, byteSizes, List.getElem?_eq_getElem hlt]
      rfl

/-- Every bitmap is found where the kernel looks for it. -/
theorem holds_copyBitmaps {maps : List BitMap} {i : ℕ} {bm : BitMap} (hi : maps[i]? = some bm) :
    Holds (copyBitmaps maps).1 (inputBitmapAt (byteSizes maps) i) bm.bits := by
  obtain ⟨hlt, rfl⟩ := List.getElem?_eq_some_iff.mp hi
  have hsplit : maps.flatMap bits = (maps.take i).flatMap bits ++
      (maps[i].bits ++ (maps.drop (i + 1)).flatMap bits) := by
    rw [← List.flatMap_cons, ← List.drop_eq_getElem_cons hlt, ← List.flatMap_append,
      List.take_append_drop]
  have hall := holds_writeBytes (fun _ => 0) 0 (maps.flatMap bits)
  rw [hsplit] at hall
  have hrest := (holds_append.mp hall).2
  rw [← hsplit, Nat.zero_add] at hrest
  rw [copyBitmaps_eq, inputBitmapAt_eq maps hlt.le]
  exact (holds_append.mp hrest).1

theorem bitmapBit_bits (bm : BitMap) (j : ℕ) : Kernel.bitmapBit bm.bits j = bm.bit j := by
  have hmod : j &&& 7 = j % 8 := Nat.and_two_pow_sub_one_eq_mod _ 3
  rw [Kernel.bitmapBit, bit, testByte_eq_getLsbD _ _ (by omega), Nat.shiftRight_eq_div_pow, hmod,
    Nat.one_shiftLeft, Nat.and_two_pow, show 2 ^ 3 = 8 from rfl]
  change _ = ((bm.bits.getD (j / 8) 0).toNat).testBit (7 - j % 8)
  cases ((bm.bits.getD (j / 8) 0).toNat).testBit (7 - j % 8) with
  | false => simp
  | true => simp

/-- The kernel keeps the entries whose bit is 0. -/
theorem checkValid_iff_getBit {maps : List BitMap} {i : ℕ} {bm : BitMap} (hi : maps[i]? = some bm)
    {j : ℕ} (hj : j ≤ bm.validBits) :
    Kernel.checkValid j (copyBitmaps maps).1 (inputBitmapAt (byteSizes maps) i) = true ↔
      bm.getBit j = .ok 0 := by
  have hrange : j < 8 * bm.bits.length := by
    rw [bm.byteSize]
    omega
  rw [Kernel.checkValid_eq (holds_copyBitmaps hi) hrange, bitmapBit_bits, getBit,
    if_neg (by omega)]
  cases bm.bit j with
  | false => simp
  | true => simp

/-- Bitmaps are arrays of booleans for every sequence of calls, and `CheckValid` reads the same bits
in the buffer of the kernel. -/
theorem bitMap_refines_boolArrays :
    (∀ objs calls, Option.Rel (fun r a => List.Forall₂ SameReply r.1 a.1 ∧ arraysOf r.2 = a.2)
      (runCalls call objs calls) (runCalls arrayCall (arraysOf objs) calls)) ∧
    (∀ objs objs' c s, call objs c = some (.error s, objs') → objs' = objs) ∧
    (∀ type other bits, (other.getD bits).length = bits.length →
      combineBytes type other bits = List.zipWith type.apply bits (other.getD bits)) ∧
    (∀ bm bm' type other, combine bm type other = .ok bm' → ∀ i,
      bm'.bit i = type.applyBool (bm.bit i) ((other.getD bm).bit i)) ∧
    (∀ maps i bm, maps[i]? = some bm → ∀ j ≤ bm.validBits,
      (Kernel.checkValid j (copyBitmaps maps).1 (inputBitmapAt (byteSizes maps) i) = true ↔
        bm.getBit j = .ok 0)) := by
  refine ⟨runCalls_agrees, fun _ _ _ _ => call_rejected, fun _ _ _ => combineBytes_eq, ?_,
    fun _ _ _ hi _ => checkValid_iff_getBit hi⟩
  intro bm bm' type other h
  rw [combine_eq] at h
  exact (bitOps_spec h).2

/-- Ten bits, the last one of them set. -/
def lastMarked : BitMap := ⟨9, [0, 0x40], rfl⟩

theorem lastMarked_not_checkValid :
    ¬Kernel.checkValid 9 (copyBitmaps [new 9, lastMarked]).1
      (inputBitmapAt (byteSizes [new 9, lastMarked]) 1) = true := by
  intro hvalid
  obtain ⟨-, -, -, -, hkernel⟩ := bitMap_refines_boolArrays
  have hbit := (hkernel [new 9, lastMarked] 1 lastMarked rfl 9 le_rfl).mp hvalid
  have hone : lastMarked.getBit 9 = .ok 1 := rfl
  rw [hone] at hbit
  cases hbit

end AegonKV.BitMap
