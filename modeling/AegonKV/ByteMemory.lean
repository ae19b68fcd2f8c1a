import AegonKV.LittleEndian

/-!
# Byte-addressed memory

A buffer whose size the program does not track is a total map from offsets to bytes. `write` and
`writeBytes` update it, `readBytes` takes a slice, and `Holds m off bs` says that the slice at
`off` is `bs`. A block survives every later write outside its own range.
-/

namespace ByteMemory
open LittleEndian

abbrev Mem := ℕ → UInt8

def write (m : Mem) (off : ℕ) (b : UInt8) : Mem := fun i => if i = off then b else m i

def writeBytes (m : Mem) (off : ℕ) : Bytes → Mem
  | [] => m
  | b :: bs => writeBytes (write m off b) (off + 1) bs

def readBytes (m : Mem) (off : ℕ) : ℕ → Bytes
  | 0 => []
  | n + 1 => m off :: readBytes m (off + 1) n

def Holds (m : Mem) (off : ℕ) (bs : Bytes) : Prop := readBytes m off bs.length = bs

@[simp] theorem length_readBytes (m : Mem) (off n : ℕ) : (readBytes m off n).length = n := by
  induction n generalizing off with
  | zero => rfl
  | succ n ih => simp [readBytes, ih]

theorem writeBytes_append (m : Mem) (off : ℕ) (as bs : Bytes) :
    writeBytes m off (as ++ bs) = writeBytes (writeBytes m off as) (off + as.length) bs := by
  induction as generalizing m off with
  | nil => rfl
  | cons a as ih =>
      simp only [List.cons_append, writeBytes, ih, List.length_cons]
      rw [Nat.add_right_comm, ← Nat.add_assoc]

theorem readBytes_add (m : Mem) (off a b : ℕ) :
    readBytes m off (a + b) = readBytes m off a ++ readBytes m (off + a) b := by
  induction a generalizing off with
  | zero => simp [readBytes]
  | succ a ih =>
      rw [Nat.add_right_comm, readBytes, ih, readBytes, List.cons_append,
        Nat.add_right_comm off, ← Nat.add_assoc]

theorem readBytes_congr {m m' : Mem} {off n : ℕ}
    (h : ∀ i, off ≤ i → i < off + n → m i = m' i) : readBytes m off n = readBytes m' off n := by
  induction n generalizing off with
  | zero => rfl
  | succ n ih =>
      rw [readBytes, readBytes, h off le_rfl (by omega),
        ih (fun i hlo hhi => h i (by omega) (by omega))]

/-- A write leaves every byte outside its own range unchanged. -/
theorem writeBytes_apply_of_not_mem (m : Mem) (off : ℕ) (bs : Bytes) {i : ℕ}
    (h : i < off ∨ off + bs.length ≤ i) : writeBytes m off bs i = m i := by
  induction bs generalizing m off with
  | nil => rfl
  | cons b bs ih =>
      simp only [List.length_cons] at h
      rw [writeBytes, ih _ _ (by omega)]
      exact if_neg (by omega)

theorem holds_writeBytes (m : Mem) (off : ℕ) (bs : Bytes) : Holds (writeBytes m off bs) off bs := by
  induction bs generalizing m off with
  | nil => rfl
  | cons b bs ih =>
      have hb : writeBytes (write m off b) (off + 1) bs off = b := by
        rw [writeBytes_apply_of_not_mem _ _ _ (by omega)]
        exact if_pos rfl
      have htail := ih (write m off b) (off + 1)
      unfold Holds at htail ⊢
      rw [List.length_cons, readBytes, writeBytes, hb, htail]

theorem holds_append {m : Mem} {off : ℕ} {as bs : Bytes} :
    Holds m off (as ++ bs) ↔ Holds m off as ∧ Holds m (off + as.length) bs := by
  unfold Holds
  rw [List.length_append, readBytes_add]
  constructor
  · intro h
    exact List.append_inj h (length_readBytes _ _ _)
  · rintro ⟨ha, hb⟩
    rw [ha, hb]

theorem Holds.apply {m : Mem} {off : ℕ} {bs : Bytes} (h : Holds m off bs) {i : ℕ}
    (hi : i < bs.length) : m (off + i) = bs[i] := by
  induction bs generalizing off i with
  | nil => simp at hi
  | cons b bs ih =>
      simp only [Holds, List.length_cons, readBytes, List.cons.injEq] at h
      cases i with
      | zero => exact h.1
      | succ i =>
          have := ih h.2 (Nat.lt_of_succ_lt_succ hi)
          rw [List.getElem_cons_succ, ← this]
          congr 1
          omega

theorem holds_readBytes (m : Mem) (off n : ℕ) : Holds m off (readBytes m off n) := by
  rw [Holds, length_readBytes]

/-- `m'` is `m` with the block at `off` replaced by `bs`. -/
def Wrote (m m' : Mem) (off : ℕ) (bs : Bytes) : Prop :=
  Holds m' off bs ∧ ∀ i, i < off ∨ off + bs.length ≤ i → m' i = m i

theorem wrote_writeBytes (m : Mem) (off : ℕ) (bs : Bytes) : Wrote m (writeBytes m off bs) off bs :=
  ⟨holds_writeBytes m off bs, fun _ hi => writeBytes_apply_of_not_mem m off bs hi⟩

theorem Wrote.holds_disjoint {m m' : Mem} {off off' : ℕ} {bs bs' : Bytes} (h : Wrote m m' off' bs')
    (hold : Holds m off bs) (hd : off + bs.length ≤ off' ∨ off' + bs'.length ≤ off) :
    Holds m' off bs := by
  unfold Holds at hold ⊢
  rw [← hold, length_readBytes]
  apply readBytes_congr
  intro i hlo hhi
  exact h.2 i (by omega)

/-- Two neighbouring blocks written one after the other, the left one first. -/
theorem Wrote.append {m m₁ m₂ : Mem} {off : ℕ} {as bs : Bytes} (ha : Wrote m m₁ off as)
    (hb : Wrote m₁ m₂ (off + as.length) bs) : Wrote m m₂ off (as ++ bs) := by
  refine ⟨holds_append.mpr ⟨hb.holds_disjoint ha.1 (Or.inl le_rfl), hb.1⟩, ?_⟩
  intro i hi
  rw [List.length_append] at hi
  rw [hb.2 i (by omega), ha.2 i (by omega)]

/-- Two neighbouring blocks written one after the other, the right one first. -/
theorem Wrote.prepend {m m₁ m₂ : Mem} {off : ℕ} {as bs : Bytes}
    (hb : Wrote m m₁ (off + as.length) bs) (ha : Wrote m₁ m₂ off as) :
    Wrote m m₂ off (as ++ bs) := by
  refine ⟨holds_append.mpr ⟨ha.1, ha.holds_disjoint hb.1 (Or.inr le_rfl)⟩, ?_⟩
  intro i hi
  rw [List.length_append] at hi
  rw [ha.2 i (by omega), hb.2 i (by omega)]

theorem Wrote.extend {m m' : Mem} {off : ℕ} {as bs : Bytes} (ha : Holds m off as)
    (hb : Wrote m m' (off + as.length) bs) : Holds m' off (as ++ bs) :=
  holds_append.mpr ⟨hb.holds_disjoint ha (Or.inl le_rfl), hb.1⟩

end ByteMemory
