import Mathlib.Logic.Function.Iterate

/-!
# Polynomials over GF(2) in reflected words

A word stands for a polynomial whose constant coefficient is the highest bit, modulo a polynomial of
the degree of the word. Multiplication by `x` shifts down and reduces. Whatever is additive and
commutes with it is multiplication by its value at `1`, so that products commute and powers of `x` can
be taken by squaring.
-/

namespace ReflectedGF2

variable {w : ℕ} (m : BitVec w)

/-- Multiplication by `x` modulo the polynomial `x ^ w + m`. -/
def mulX (a : BitVec w) : BitVec w := (a >>> 1) ^^^ if a.getLsbD 0 then m else 0#w

def one : BitVec w := BitVec.twoPow w (w - 1)

/-- The sum of `a * x ^ i` over the coefficients `i < n` of `b`. -/
def mulUpTo (a b : BitVec w) : ℕ → BitVec w
  | 0 => 0#w
  | n + 1 => mulUpTo a b n ^^^ if b.getMsbD n then (mulX m)^[n] a else 0#w

def mul (a b : BitVec w) : BitVec w := mulUpTo m a b w

/-! ## Additive maps -/

theorem xor_xor_xor_comm (a b c d : BitVec w) : (a ^^^ b) ^^^ (c ^^^ d) = (a ^^^ c) ^^^ (b ^^^ d) := by
  ac_rfl

/-- The map is additive and commutes with multiplication by `x`. -/
structure Commutes (T : BitVec w → BitVec w) : Prop where
  xor : ∀ a b, T (a ^^^ b) = T a ^^^ T b
  mulX : ∀ a, T (mulX m a) = mulX m (T a)

variable {m} {T : BitVec w → BitVec w}

theorem Commutes.zero (h : Commutes m T) : T 0#w = 0#w := by
  have hsum := h.xor 0#w 0#w
  rw [BitVec.xor_self] at hsum
  rw [hsum, BitVec.xor_self]

theorem mulX_xor (a b : BitVec w) : mulX m (a ^^^ b) = mulX m a ^^^ mulX m b := by
  rw [mulX, mulX, mulX, BitVec.ushiftRight_xor_distrib, xor_xor_xor_comm, BitVec.getLsbD_xor]
  congr 1
  cases a.getLsbD 0 <;> cases b.getLsbD 0 <;> simp

theorem commutes_mulX : Commutes m (mulX m) := ⟨mulX_xor, fun _ => rfl⟩

theorem Commutes.comp {U : BitVec w → BitVec w} (h : Commutes m T) (hU : Commutes m U) :
    Commutes m (T ∘ U) := by
  refine ⟨fun a b => ?_, fun a => ?_⟩
  · rw [Function.comp_apply, hU.xor, h.xor]
    rfl
  · rw [Function.comp_apply, hU.mulX, h.mulX]
    rfl

theorem Commutes.iterate (h : Commutes m T) (n : ℕ) : Commutes m T^[n] := by
  induction n with
  | zero => exact ⟨fun _ _ => rfl, fun _ => rfl⟩
  | succ n ih => exact ih.comp h

theorem Commutes.iterate_mulX (h : Commutes m T) (n : ℕ) (a : BitVec w) :
    T ((ReflectedGF2.mulX m)^[n] a) = (ReflectedGF2.mulX m)^[n] (T a) := by
  induction n generalizing a with
  | zero => rfl
  | succ n ih => rw [Function.iterate_succ_apply, Function.iterate_succ_apply, ih, h.mulX]

theorem Commutes.mulUpTo (h : Commutes m T) (a b : BitVec w) (n : ℕ) :
    T (mulUpTo m a b n) = ReflectedGF2.mulUpTo m (T a) b n := by
  induction n with
  | zero => exact h.zero
  | succ n ih =>
      rw [ReflectedGF2.mulUpTo, ReflectedGF2.mulUpTo, h.xor, ih]
      congr 1
      split
      · exact h.iterate_mulX n a
      · exact h.zero

theorem Commutes.mul (h : Commutes m T) (a b : BitVec w) : T (mul m a b) = ReflectedGF2.mul m (T a) b :=
  h.mulUpTo a b w

/-- Multiplication by a fixed factor is such a map. -/
theorem commutes_mulUpTo (b : BitVec w) (n : ℕ) : Commutes m fun a => mulUpTo m a b n := by
  refine ⟨fun a a' => ?_, fun a => (commutes_mulX.mulUpTo a b n).symm⟩
  induction n with
  | zero => exact (BitVec.xor_self).symm
  | succ n ih =>
      rw [mulUpTo, mulUpTo, mulUpTo, xor_xor_xor_comm, ih]
      congr 1
      split
      · exact (commutes_mulX.iterate n).xor a a'
      · exact (BitVec.xor_self).symm

theorem commutes_mul (b : BitVec w) : Commutes m fun a => mul m a b := commutes_mulUpTo b w

/-! ## Powers of `x` -/

theorem iterate_mulX_one {n : ℕ} (hn : n < w) : (mulX m)^[n] one = BitVec.twoPow w (w - 1 - n) := by
  induction n with
  | zero => rfl
  | succ n ih =>
      rw [Function.iterate_succ_apply', ih (by omega), mulX]
      have hlow : (BitVec.twoPow w (w - 1 - n)).getLsbD 0 = false := by
        rw [BitVec.getLsbD_twoPow]
        simp
        omega
      rw [hlow, if_neg Bool.false_ne_true]
      apply BitVec.eq_of_getLsbD_eq
      intro i hi
      rw [BitVec.xor_zero, BitVec.getLsbD_ushiftRight, BitVec.getLsbD_twoPow, BitVec.getLsbD_twoPow]
      rw [Bool.eq_iff_iff, Bool.and_eq_true, Bool.and_eq_true]
      simp only [decide_eq_true_eq]
      omega

theorem getMsbD_mulUpTo_one (b : BitVec w) {n i : ℕ} (hn : n ≤ w) (hi : i < w) :
    (mulUpTo m one b n).getMsbD i = (decide (i < n) && b.getMsbD i) := by
  induction n with
  | zero => simp [mulUpTo]
  | succ n ih =>
      rw [mulUpTo, BitVec.getMsbD_xor, ih (by omega)]
      by_cases hbit : b.getMsbD n = true
      · rw [if_pos hbit, iterate_mulX_one (by omega),
          BitVec.getMsbD_eq_getLsbD (BitVec.twoPow w (w - 1 - n)), BitVec.getLsbD_twoPow]
        by_cases heq : i = n
        · subst heq
          simp [hbit, hi]
          omega
        · have hlt : decide (i < n + 1) = decide (i < n) := decide_eq_decide.mpr (by omega)
          have hne : decide (w - 1 - n = w - 1 - i) = false := decide_eq_false (by omega)
          rw [hlt, hne, Bool.and_false, Bool.and_false, Bool.xor_false]
      · rw [if_neg hbit]
        by_cases heq : i = n
        · subst heq
          simp only [Bool.not_eq_true] at hbit
          simp [hbit]
        · have hlt : decide (i < n + 1) = decide (i < n) := decide_eq_decide.mpr (by omega)
          rw [hlt, BitVec.getMsbD_zero, Bool.xor_false]

@[simp] theorem mul_one_left (b : BitVec w) : mul m one b = b := by
  apply BitVec.eq_of_getMsbD_eq
  intro i hi
  rw [mul, getMsbD_mulUpTo_one b (Nat.le_refl w) hi, decide_eq_true hi, Bool.true_and]

/-- Such a map is multiplication by its value at `1`. -/
theorem Commutes.eq_mul (h : Commutes m T) (a : BitVec w) : T a = ReflectedGF2.mul m (T one) a := by
  rw [← h.mul, mul_one_left]

theorem mul_comm (a b : BitVec w) : mul m a b = mul m b a := by
  have h := (commutes_mul (m := m) b).eq_mul a
  rwa [mul_one_left] at h

/-- `x ^ w` is the low part of the modulus. -/
theorem iterate_mulX_width (hw : 0 < w) : (mulX m)^[w] one = m := by
  obtain ⟨n, rfl⟩ := Nat.exists_eq_succ_of_ne_zero (Nat.ne_of_gt hw)
  rw [Function.iterate_succ_apply', iterate_mulX_one (Nat.lt_succ_self n), mulX]
  have hlow : (BitVec.twoPow n.succ (n.succ - 1 - n)).getLsbD 0 = true := by
    rw [BitVec.getLsbD_twoPow]
    simp
  rw [hlow, if_pos rfl]
  have hzero : BitVec.twoPow n.succ (n.succ - 1 - n) >>> 1 = 0#n.succ := by
    apply BitVec.eq_of_getLsbD_eq
    intro i hi
    rw [BitVec.getLsbD_ushiftRight, BitVec.getLsbD_twoPow, BitVec.getLsbD_zero]
    simp only [Nat.add_one_sub_one, Nat.sub_self, Bool.and_eq_false_iff, decide_eq_false_iff_not]
    omega
  rw [hzero, BitVec.zero_xor]

/-- Multiplication by a power of `x` is that many steps. -/
theorem mul_iterate_mulX_one (n : ℕ) (a : BitVec w) :
    mul m a ((mulX m)^[n] one) = (mulX m)^[n] a := by
  rw [mul_comm]
  exact ((commutes_mulX.iterate n).eq_mul a).symm

end ReflectedGF2
