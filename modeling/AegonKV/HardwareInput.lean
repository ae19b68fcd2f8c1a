import AegonKV.ByteMemory

/-!
# Loading the input files

`run_gc_kernel` maps a region of whole mebibytes for each input file and reads the file into it in
chunks of 128 MiB. The number of rounds comes from the size of the region, the chunks from the file.
A round too many reads nothing and ends the process.
-/

namespace AegonKV.Kernel
open LittleEndian ByteMemory

/-- The size of the region of a file, `((file_size >> 20) + 1) << 20`. -/
def roundedSize (fileSize : ℕ) : ℕ := (fileSize >>> 20 + 1) <<< 20

def bufSize : ℕ := 128 * 1024 * 1024

def pread (file : Bytes) (count offset : ℕ) : Bytes := (file.drop offset).take count

/-- The rounds left of the read loop, with the memory and `read_offset` it ends with; `none` where
it exits. The pointer advances by whole buffers, the offset by what was read. -/
def readLoop (file : Bytes) (bufSize : ℕ) : ℕ → Mem → ℕ → ℕ → Option (Mem × ℕ)
  | 0, m, _, readOffset => some (m, readOffset)
  | iter + 1, m, p2pPtr, readOffset =>
    let chunk := pread file bufSize readOffset
    if chunk.length ≤ 0 then none
    else
      readLoop file bufSize iter (writeBytes m p2pPtr chunk) (p2pPtr + bufSize)
        (readOffset + chunk.length)

def readInput (file : Bytes) (m : Mem) (inputOffset : ℕ) : Option (Mem × ℕ) :=
  let size := roundedSize file.length
  readLoop file bufSize (size / bufSize + 1) m inputOffset 0

def readInputs : List Bytes → Mem → ℕ → Option Mem
  | [], m, _ => some m
  | file :: files, m, inputOffset => do
    let (m, _) ← readInput file m inputOffset
    readInputs files m (inputOffset + roundedSize file.length)

/-! ## The read loop -/

variable {file : Bytes}

theorem length_pread (file : Bytes) (count offset : ℕ) :
    (pread file count offset).length = min count (file.length - offset) := by
  rw [pread, List.length_take, List.length_drop]

/-- A loop whose last round still finds a byte reads up to the end of that round. -/
theorem readLoop_some {bufSize : ℕ} (hbuf : 0 < bufSize) (iter : ℕ) (m : Mem)
    (p2pPtr readOffset : ℕ) (h : iter * bufSize < file.length - readOffset + bufSize) :
    ∃ n, readLoop file bufSize iter m p2pPtr readOffset =
      some (writeBytes m p2pPtr (pread file (iter * bufSize) readOffset), n) := by
  induction iter generalizing m p2pPtr readOffset with
  | zero =>
      refine ⟨readOffset, ?_⟩
      rw [readLoop, pread, Nat.zero_mul, List.take_zero, writeBytes]
  | succ iter ih =>
      have hlen := length_pread file bufSize readOffset
      rw [Nat.succ_mul] at h
      have hpos : ¬(pread file bufSize readOffset).length ≤ 0 := by omega
      rw [readLoop, if_neg hpos]
      by_cases hfull : bufSize ≤ file.length - readOffset
      · have hchunk : (pread file bufSize readOffset).length = bufSize := by omega
        obtain ⟨n, hn⟩ := ih (writeBytes m p2pPtr (pread file bufSize readOffset))
          (p2pPtr + bufSize) (readOffset + bufSize) (by omega)
        refine ⟨n, ?_⟩
        have hsplit : pread file ((iter + 1) * bufSize) readOffset =
            pread file bufSize readOffset ++ pread file (iter * bufSize) (readOffset + bufSize) := by
          rw [pread, Nat.succ_mul, Nat.add_comm, List.take_add, List.drop_drop]
          rfl
        rw [hchunk, hn, hsplit, writeBytes_append, hchunk]
      · -- a short chunk is the last one
        have hlast : iter = 0 := by
          by_contra hne
          have := Nat.le_mul_of_pos_left bufSize (Nat.pos_of_ne_zero hne)
          omega
        subst hlast
        refine ⟨readOffset + (pread file bufSize readOffset).length, ?_⟩
        rw [readLoop, Nat.one_mul]

/-- One round more and the loop exits. -/
theorem readLoop_none {bufSize : ℕ} (hbuf : 0 < bufSize) (iter : ℕ) (m : Mem)
    (p2pPtr readOffset : ℕ) (h : file.length - readOffset + bufSize ≤ iter * bufSize) :
    readLoop file bufSize iter m p2pPtr readOffset = none := by
  induction iter generalizing m p2pPtr readOffset with
  | zero => omega
  | succ iter ih =>
      have hlen := length_pread file bufSize readOffset
      rw [Nat.succ_mul] at h
      rw [readLoop]
      by_cases hempty : (pread file bufSize readOffset).length ≤ 0
      · rw [if_pos hempty]
      · rw [if_neg hempty]
        apply ih
        by_cases hfull : bufSize ≤ file.length - readOffset
        · omega
        · have hone : bufSize ≤ iter * bufSize := by
            apply Nat.le_mul_of_pos_left
            by_contra hzero
            have : iter * bufSize = 0 := by rw [Nat.eq_zero_of_not_pos hzero, Nat.zero_mul]
            omega
          omega

/-! ## Which sizes load -/

/-- The sizes at which the loop has a round too many: the last mebibyte before a multiple of
128 MiB, and the multiple itself. -/
def RoundTooMany (fileSize : ℕ) : Prop :=
  ∃ k, 1 ≤ k ∧ k * bufSize ≤ fileSize + 2 ^ 20 ∧ fileSize ≤ k * bufSize

theorem roundedSize_eq (fileSize : ℕ) : roundedSize fileSize = (fileSize / 1048576 + 1) * 1048576 := by
  have hshift : fileSize >>> 20 = fileSize / 1048576 := Nat.shiftRight_eq_div_pow fileSize 20
  unfold roundedSize
  rw [hshift]
  exact Nat.shiftLeft_eq _ 20

theorem bufSize_eq : bufSize = 134217728 := rfl

theorem bufSize_pos : 0 < bufSize := Nat.zero_lt_succ _

theorem lt_roundedSize (fileSize : ℕ) : fileSize < roundedSize fileSize := by
  rw [roundedSize_eq]
  omega

theorem roundTooMany_iff {fileSize : ℕ} (hpos : 1 ≤ fileSize) :
    RoundTooMany fileSize ↔ fileSize ≤ roundedSize fileSize / bufSize * bufSize := by
  rw [roundedSize_eq, RoundTooMany, bufSize_eq]
  constructor
  · rintro ⟨k, hk, hlow, hhigh⟩
    have hmebibytes : k * 128 ≤ fileSize / 1048576 + 1 := by omega
    have hle : k ≤ (fileSize / 1048576 + 1) * 1048576 / 134217728 := by
      rw [Nat.le_div_iff_mul_le (by omega)]
      omega
    exact hhigh.trans (Nat.mul_le_mul_right _ hle)
  · intro h
    exact ⟨(fileSize / 1048576 + 1) * 1048576 / 134217728, by omega, by omega, h⟩

/-- The file is read without an exit, and the region starts with its bytes. -/
def Loads (file : Bytes) (m : Mem) (inputOffset : ℕ) : Prop :=
  ∃ m' n, readInput file m inputOffset = some (m', n) ∧ Holds m' inputOffset file

theorem readInput_some (hband : ¬RoundTooMany file.length) (hpos : 1 ≤ file.length) (m : Mem)
    (inputOffset : ℕ) :
    ∃ n, readInput file m inputOffset = some (writeBytes m inputOffset file, n) := by
  rw [roundTooMany_iff hpos] at hband
  have hrounds : (roundedSize file.length / bufSize + 1) * bufSize <
      file.length - 0 + bufSize := by
    rw [Nat.succ_mul]
    omega
  obtain ⟨n, hn⟩ := readLoop_some bufSize_pos _ m inputOffset 0 hrounds
  refine ⟨n, hn.trans ?_⟩
  have hall : pread file ((roundedSize file.length / bufSize + 1) * bufSize) 0 = file := by
    rw [pread, List.drop_zero, List.take_of_length_le]
    have := lt_roundedSize file.length
    rw [bufSize_eq]
    omega
  rw [hall]

theorem readInput_none (hband : RoundTooMany file.length) (hpos : 1 ≤ file.length) (m : Mem)
    (inputOffset : ℕ) : readInput file m inputOffset = none := by
  rw [roundTooMany_iff hpos] at hband
  apply readLoop_none bufSize_pos
  rw [Nat.succ_mul]
  omega

theorem not_loads (hband : RoundTooMany file.length) (hpos : 1 ≤ file.length) (m : Mem)
    (inputOffset : ℕ) : ¬Loads file m inputOffset := by
  rintro ⟨m', n, hread, -⟩
  cases (readInput_none hband hpos m inputOffset).symm.trans hread

/-- An input file of at least one byte is loaded exactly when its size is in none of the bands. -/
theorem loads_iff_not_roundTooMany (file : Bytes) (hpos : 1 ≤ file.length) (m : Mem)
    (inputOffset : ℕ) : Loads file m inputOffset ↔ ¬RoundTooMany file.length := by
  constructor
  · exact fun hloads hband => not_loads hband hpos m inputOffset hloads
  · intro hband
    obtain ⟨n, hn⟩ := readInput_some hband hpos m inputOffset
    exact ⟨_, n, hn, holds_writeBytes _ _ _⟩

/-- One byte more than a whole buffer takes two rounds. -/
theorem twoRounds_loads : 1 ≤ (List.replicate (bufSize + 1) (7 : UInt8)).length ∧
    Loads (List.replicate (bufSize + 1) 7) (fun _ => 0) 0 := by
  have hlen : (List.replicate (bufSize + 1) (7 : UInt8)).length = bufSize + 1 :=
    List.length_replicate
  have hpos : 1 ≤ (List.replicate (bufSize + 1) (7 : UInt8)).length := by
    rw [hlen]
    exact Nat.le_add_left _ _
  refine ⟨hpos, (loads_iff_not_roundTooMany _ hpos _ _).mpr ?_⟩
  rw [hlen]
  rintro ⟨k, hk, hlow, hhigh⟩
  rw [bufSize_eq] at hlow hhigh
  omega

/-- A file of 127 MiB fits one buffer, its region of 128 MiB asks for two rounds. -/
theorem region127MiB_exits : 1 ≤ (List.replicate (127 * 1024 * 1024) (7 : UInt8)).length ∧
    ¬Loads (List.replicate (127 * 1024 * 1024) 7) (fun _ => 0) 0 := by
  have hlen : (List.replicate (127 * 1024 * 1024) (7 : UInt8)).length = 133169152 :=
    List.length_replicate
  have hpos : 1 ≤ (List.replicate (127 * 1024 * 1024) (7 : UInt8)).length := by
    rw [hlen]
    omega
  refine ⟨hpos, not_loads ⟨1, le_rfl, ?_⟩ hpos _ _⟩
  rw [hlen, bufSize_eq]
  omega

/-! ## All files -/

/-- The process is still there only if every file has been loaded. -/
theorem not_roundTooMany_of_readInputs {files : List Bytes} {m m' : Mem} {inputOffset : ℕ}
    (hpos : ∀ file ∈ files, 1 ≤ file.length) (h : readInputs files m inputOffset = some m') :
    ∀ file ∈ files, ¬RoundTooMany file.length := by
  induction files generalizing m inputOffset with
  | nil => exact fun file hfile => absurd hfile List.not_mem_nil
  | cons file files ih =>
      have hone := hpos file List.mem_cons_self
      rw [readInputs] at h
      cases hread : readInput file m inputOffset with
      | none =>
          rw [hread] at h
          cases h
      | some loaded =>
          rw [hread] at h
          refine List.forall_mem_cons.mpr ⟨fun hband => ?_, ih (fun other hother =>
            hpos other (List.mem_cons_of_mem _ hother)) h⟩
          cases (readInput_none hband hone m inputOffset).symm.trans hread

/-- The files of a batch, each at the start of its region. -/
theorem readInputs_holds {files : List Bytes}
    (h : ∀ file ∈ files, 1 ≤ file.length ∧ ¬RoundTooMany file.length) (m : Mem) (inputOffset : ℕ) :
    ∃ m', readInputs files m inputOffset = some m' ∧ (∀ i < inputOffset, m' i = m i) ∧
      ∀ n file, files[n]? = some file →
        Holds m' (inputOffset + ((files.take n).map fun file => roundedSize file.length).sum) file := by
  induction files generalizing m inputOffset with
  | nil => exact ⟨m, rfl, fun _ _ => rfl, fun n file hfile => (by simp at hfile)⟩
  | cons file files ih =>
      obtain ⟨hpos, hband⟩ := h file List.mem_cons_self
      obtain ⟨n, hread⟩ := readInput_some hband hpos m inputOffset
      obtain ⟨m', hrest, hkeep, hholds⟩ := ih (fun x hx => h x (List.mem_cons_of_mem _ hx))
        (writeBytes m inputOffset file) (inputOffset + roundedSize file.length)
      have hlt := lt_roundedSize file.length
      refine ⟨m', ?_, fun i hi => ?_, fun k x hx => ?_⟩
      · rw [readInputs, hread]
        exact hrest
      · rw [hkeep i (by omega), writeBytes_apply_of_not_mem _ _ _ (Or.inl hi)]
      · cases k with
        | zero =>
            obtain rfl : file = x := Option.some.inj hx
            have hfile := holds_writeBytes m inputOffset file
            unfold Holds at hfile ⊢
            refine Eq.trans (readBytes_congr fun i hlow hhigh => hkeep i ?_) hfile
            have hstart : inputOffset + (((file :: files).take 0).map fun file =>
                roundedSize file.length).sum = inputOffset := rfl
            omega
        | succ k =>
            have hlater := hholds k x hx
            rw [List.take_succ_cons, List.map_cons, List.sum_cons, ← Nat.add_assoc]
            exact hlater

end AegonKV.Kernel
