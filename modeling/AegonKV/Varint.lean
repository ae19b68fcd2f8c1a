import AegonKV.LittleEndian

/-!
# Base-128 variable-length integers

`encode fuel x` emits seven payload bits per byte, low bits first, with the high bit set on every
byte but the last. `decode w fuel shift acc` is the accumulator loop of a reader for `w`-bit
integers that gives up after `fuel` bytes. The reader inverts the writer on every value that fits.
-/

namespace Varint
open LittleEndian

def encode : ℕ → ℕ → Bytes
  | 0, x => [UInt8.ofNat x]
  | fuel + 1, x =>
    if x < 128 then [UInt8.ofNat x] else UInt8.ofNat (x % 128 + 128) :: encode fuel (x / 128)

def decode (w : ℕ) : ℕ → ℕ → ℕ → Bytes → Option (ℕ × Bytes)
  | 0, _, _, _ => none
  | _ + 1, _, _, [] => none
  | fuel + 1, shift, acc, b :: rest =>
    if b.toNat &&& 128 ≠ 0 then
      decode w fuel (shift + 7) ((acc ||| (b.toNat &&& 127) <<< shift) % 2 ^ w) rest
    else some ((acc ||| b.toNat <<< shift) % 2 ^ w, rest)

theorem encode_ne_nil (fuel x : ℕ) : encode fuel x ≠ [] := by
  cases fuel with
  | zero => simp [encode]
  | succ fuel => simp only [encode]; split_ifs <;> simp

theorem length_encode_le (fuel x : ℕ) : (encode fuel x).length ≤ fuel + 1 := by
  induction fuel generalizing x with
  | zero => simp [encode]
  | succ fuel ih =>
      simp only [encode]
      split_ifs
      · simp
      · simpa using ih (x / 128)

theorem length_rest_lt {w fuel shift acc x : ℕ} {bs rest : Bytes}
    (h : decode w fuel shift acc bs = some (x, rest)) : rest.length < bs.length := by
  induction fuel generalizing shift acc bs with
  | zero => simp [decode] at h
  | succ fuel ih =>
      cases bs with
      | nil => simp [decode] at h
      | cons b bs =>
          rw [decode] at h
          split_ifs at h with hb
          · exact (ih h).trans (by simp)
          · obtain ⟨-, rfl⟩ : _ ∧ bs = rest := by simpa using h
            simp

theorem lor_shiftLeft {acc shift : ℕ} (hacc : acc < 2 ^ shift) (x : ℕ) :
    acc ||| x <<< shift = acc + x * 2 ^ shift := by
  rw [Nat.or_comm, ← Nat.shiftLeft_add_eq_or_of_lt hacc, Nat.shiftLeft_eq, Nat.add_comm]

theorem and_127 (x : ℕ) : x &&& 127 = x % 128 := Nat.and_two_pow_sub_one_eq_mod x 7

theorem and_128_eq_zero_iff {x : ℕ} (hx : x < 256) : x &&& 128 = 0 ↔ x < 128 := by
  have h : ∀ i : Fin 256, (i.val &&& 128 = 0) = (i.val < 128) := by decide +kernel
  exact iff_of_eq (h ⟨x, hx⟩)

theorem decode_last {w fuel shift acc : ℕ} {b : UInt8} (rest : Bytes) (hacc : acc < 2 ^ shift)
    (hb : b.toNat < 128) :
    decode w (fuel + 1) shift acc (b :: rest) = some ((acc + b.toNat * 2 ^ shift) % 2 ^ w, rest) := by
  have hz : b.toNat &&& 128 = 0 := (and_128_eq_zero_iff (by omega)).mpr hb
  simp [decode, hz, lor_shiftLeft hacc]

theorem decode_more {w fuel shift acc : ℕ} {b : UInt8} (rest : Bytes) (hacc : acc < 2 ^ shift)
    (hb : 128 ≤ b.toNat) :
    decode w (fuel + 1) shift acc (b :: rest) =
      decode w fuel (shift + 7) ((acc + b.toNat % 128 * 2 ^ shift) % 2 ^ w) rest := by
  have hz : b.toNat &&& 128 ≠ 0 := fun h => by
    have := (and_128_eq_zero_iff b.toNat_lt).mp h
    omega
  rw [decode, if_pos hz, and_127, lor_shiftLeft hacc]

/-- The reader's loop invariant: after `shift` bits the accumulator holds the low bits of the
value, and the remaining input is the image of its high bits. -/
theorem decode_encode_aux {w : ℕ} (fuel shift acc x : ℕ) (rest : Bytes) (hacc : acc < 2 ^ shift)
    (hx : x < 128 ^ (fuel + 1)) (hw : acc + x * 2 ^ shift < 2 ^ w) :
    decode w (fuel + 1) shift acc (encode fuel x ++ rest) =
      some (acc + x * 2 ^ shift, rest) := by
  induction fuel generalizing shift acc x with
  | zero =>
      have hb : (UInt8.ofNat x).toNat = x := by simp at hx ⊢; omega
      simp only [encode, List.cons_append, List.nil_append]
      rw [decode_last rest hacc (by simp at hx; omega), hb, Nat.mod_eq_of_lt hw]
  | succ fuel ih =>
      by_cases hsmall : x < 128
      · have hb : (UInt8.ofNat x).toNat = x := by simp; omega
        simp only [encode, if_pos hsmall, List.cons_append, List.nil_append]
        rw [decode_last rest hacc (by omega), hb, Nat.mod_eq_of_lt hw]
      · have hb : (UInt8.ofNat (x % 128 + 128)).toNat = x % 128 + 128 := by simp; omega
        have hpow : 2 ^ (shift + 7) = 2 ^ shift * 128 := by rw [pow_add]; norm_num
        have hsum : acc + x % 128 * 2 ^ shift + x / 128 * 2 ^ (shift + 7) =
            acc + x * 2 ^ shift := by
          have := Nat.div_add_mod x 128
          rw [hpow]
          calc acc + x % 128 * 2 ^ shift + x / 128 * (2 ^ shift * 128)
              = acc + (128 * (x / 128) + x % 128) * 2 ^ shift := by ring
            _ = acc + x * 2 ^ shift := by rw [this]
        have hlow : acc + x % 128 * 2 ^ shift < 2 ^ (shift + 7) := by
          have hm : x % 128 ≤ 127 := by omega
          have := Nat.mul_le_mul_right (2 ^ shift) hm
          rw [hpow]
          linarith
        have hd : x / 128 < 128 ^ (fuel + 1) := by
          rw [Nat.div_lt_iff_lt_mul (by norm_num), ← pow_succ]; exact hx
        have hfit : acc + x % 128 * 2 ^ shift < 2 ^ w := by
          have : 0 ≤ x / 128 * 2 ^ (shift + 7) := Nat.zero_le _
          omega
        simp only [encode, if_neg hsmall, List.cons_append]
        rw [decode_more _ hacc (by omega), hb, Nat.add_mod_right, Nat.mod_mod,
          Nat.mod_eq_of_lt hfit, ih _ _ _ hlow hd (by rw [hsum]; exact hw), hsum]

theorem decode_encode {w fuel x : ℕ} (rest : Bytes) (hx : x < 128 ^ (fuel + 1))
    (hw : x < 2 ^ w) : decode w (fuel + 1) 0 0 (encode fuel x ++ rest) = some (x, rest) := by
  have h := decode_encode_aux (w := w) fuel 0 0 x rest (by norm_num) hx (by simpa using hw)
  simpa using h

/-! ## What the reader accepts -/

/-- At most `fuel` bytes, all but the last of them with the high bit, that stand for a number. -/
inductive Image : ℕ → Bytes → ℕ → Prop
  | last {fuel : ℕ} {b : UInt8} (hb : b.toNat < 128) : Image (fuel + 1) [b] b.toNat
  | more {fuel n : ℕ} {b : UInt8} {bs : Bytes} (hb : 128 ≤ b.toNat) (h : Image fuel bs n) :
      Image (fuel + 1) (b :: bs) (b.toNat % 128 + 128 * n)

/-- The reader accepts an input exactly if it begins with an image, canonical or not. -/
theorem decode_eq_some_iff {w fuel shift acc x : ℕ} {src rest : Bytes} (hacc : acc < 2 ^ shift) :
    decode w fuel shift acc src = some (x, rest) ↔
      ∃ bs n, Image fuel bs n ∧ src = bs ++ rest ∧ x = (acc + n * 2 ^ shift) % 2 ^ w := by
  induction fuel generalizing shift acc src with
  | zero =>
      refine iff_of_false nofun ?_
      rintro ⟨bs, n, himage, -⟩
      cases himage
  | succ fuel ih =>
      cases src with
      | nil =>
          refine iff_of_false nofun ?_
          rintro ⟨bs, n, himage, hsrc, -⟩
          cases himage <;> cases hsrc
      | cons b src =>
          rcases Nat.lt_or_ge b.toNat 128 with hb | hb
          · rw [decode_last src hacc hb, Option.some.injEq, Prod.mk.injEq]
            constructor
            · rintro ⟨rfl, rfl⟩
              exact ⟨[b], b.toNat, .last hb, rfl, rfl⟩
            · rintro ⟨bs, n, himage, hsrc, hx⟩
              cases himage with
              | last hb' =>
                  obtain ⟨rfl, rfl⟩ := List.cons.inj hsrc
                  exact ⟨hx.symm, rfl⟩
              | more hb' _ =>
                  obtain ⟨rfl, -⟩ := List.cons.inj hsrc
                  omega
          · have hlow : (acc + b.toNat % 128 * 2 ^ shift) % 2 ^ w < 2 ^ (shift + 7) := by
              have hdigit : b.toNat % 128 * 2 ^ shift ≤ 127 * 2 ^ shift :=
                Nat.mul_le_mul_right _ (by omega)
              have hmod := Nat.mod_le (acc + b.toNat % 128 * 2 ^ shift) (2 ^ w)
              rw [pow_add]
              omega
            have hvalue : ∀ n, ((acc + b.toNat % 128 * 2 ^ shift) % 2 ^ w + n * 2 ^ (shift + 7)) % 2 ^ w =
                (acc + (b.toNat % 128 + 128 * n) * 2 ^ shift) % 2 ^ w := by
              intro n
              rw [Nat.mod_add_mod, pow_add]
              congr 1
              ring
            rw [decode_more src hacc hb, ih hlow]
            constructor
            · rintro ⟨bs, n, himage, rfl, rfl⟩
              exact ⟨b :: bs, _, .more hb himage, rfl, hvalue n⟩
            · rintro ⟨bs, n, himage, hsrc, hx⟩
              cases himage with
              | last hb' =>
                  obtain ⟨rfl, -⟩ := List.cons.inj hsrc
                  omega
              | more _ himage =>
                  obtain ⟨rfl, rfl⟩ := List.cons.inj hsrc
                  exact ⟨_, _, himage, rfl, hx.trans (hvalue _).symm⟩

end Varint
