import AegonKV.LogReading

/-!
# Reading back a log, whole or torn

The reader gets back the records of a log that ends anywhere: those that lie in it as a whole, and no
others. What is left of a record that was being written is ignored, or reported in the strict modes.
-/

namespace AegonKV.Log
open LittleEndian AegonKV Crc32c Reader

/-! ## What the writer appends are fragments -/

theorem unmask_mask (crc : BitVec 32) : unmask (mask crc) = crc := by
  rw [unmask, mask, BitVec.add_sub_cancel]
  apply BitVec.eq_of_getLsbD_eq
  intro i hi
  simp only [BitVec.getLsbD_or, BitVec.getLsbD_ushiftRight, BitVec.getLsbD_shiftLeft]
  by_cases hlow : i < 15
  · have hin : 17 + i < 32 := by omega
    have hsub : 17 + i - 17 = i := by omega
    have hge : crc.getLsbD (15 + (17 + i)) = false := BitVec.getLsbD_of_ge _ _ (by omega)
    simp [hlow, hin, hsub, hge]
  · have hsub : 15 + (i - 15) = i := by omega
    have hge : ¬ 17 + i < 32 := by omega
    have hno : crc.getLsbD (15 + (17 + i)) = false := BitVec.getLsbD_of_ge _ _ (by omega)
    have hlt : ¬ i - 15 ≥ 17 := by omega
    simp [hlow, hsub, hge, hno, hi, hlt]

theorem decodeFixed32_putFixed32 (v : UInt32) (rest : Bytes) :
    decodeFixed32 (putFixed32 v ++ rest) = v.toNat := by
  have hlen : (putFixed32 v).length = 4 := length_leBytes 4 _
  rw [decodeFixed32, List.take_append_of_le_length hlen.ge, List.take_of_length_le hlen.le, putFixed32,
    leNat_leBytes_of_lt v.toNat_lt]

/-- A checksum field, followed by the length and the type. -/
theorem header_fields (crc : BitVec 32) {n t : ℕ} (hn : n < 2 ^ 16) (ht : t < 128) (rest : Bytes) :
    let bytes := putFixed32 (UInt32.ofBitVec (mask crc)) ++
      [UInt8.ofNat n, UInt8.ofNat (n >>> 8), UInt8.ofNat t] ++ rest
    headerType bytes = t ∧ headerLength bytes = n ∧
      unmask (BitVec.ofNat 32 (decodeFixed32 bytes)) = crc ∧ bytes.drop 6 = UInt8.ofNat t :: rest ∧
      bytes.drop 7 = rest ∧ bytes.length = 7 + rest.length := by
  have hlen : (putFixed32 (UInt32.ofBitVec (mask crc))).length = 4 := length_leBytes 4 _
  have hget : ∀ i, (putFixed32 (UInt32.ofBitVec (mask crc)) ++
      [UInt8.ofNat n, UInt8.ofNat (n >>> 8), UInt8.ofNat t] ++ rest).getD (4 + i) 0 =
      ([UInt8.ofNat n, UInt8.ofNat (n >>> 8), UInt8.ofNat t] ++ rest).getD i 0 := by
    intro i
    rw [List.append_assoc, List.getD_eq_getElem?_getD, List.getD_eq_getElem?_getD,
      List.getElem?_append_right (by omega), hlen, Nat.add_sub_cancel_left]
  refine ⟨?_, ?_, ?_, ?_, ?_, ?_⟩
  · rw [headerType, hget 2]
    have htoNat : (UInt8.ofNat t).toNat = t := Nat.mod_eq_of_lt (by omega)
    change charToUnsigned (UInt8.ofNat t) = t
    rw [charToUnsigned, htoNat, if_pos ht]
  · rw [headerLength, hget 0, hget 1]
    change (UInt8.ofNat n).toNat ||| (UInt8.ofNat (n >>> 8)).toNat <<< 8 = n
    rw [UInt8.toNat_ofNat', UInt8.toNat_ofNat', Nat.or_comm,
      ← Nat.shiftLeft_add_eq_or_of_lt (Nat.mod_lt n (by decide)), Nat.shiftLeft_eq,
      Nat.shiftRight_eq_div_pow]
    omega
  · rw [List.append_assoc, decodeFixed32_putFixed32]
    have hcrc : BitVec.ofNat 32 (UInt32.ofBitVec (mask crc)).toNat = mask crc := by
      rw [← UInt32.toNat_toBitVec, BitVec.ofNat_toNat, BitVec.setWidth_eq]
    rw [hcrc, unmask_mask]
  · rw [List.append_assoc, List.drop_append, hlen, List.drop_eq_nil_of_le (by omega)]
    rfl
  · rw [List.append_assoc, List.drop_append, hlen, List.drop_eq_nil_of_le (by omega)]
    rfl
  · rw [List.length_append, List.length_append, hlen]
    rfl

/-- The reader compares the number in a fragment, which has 32 bits, with all 64 of its own. -/
def Writer.Readable (w : Writer) : Prop := w.recycleLogFiles = true → w.logNumber.toNat < 2 ^ 32

theorem isFragment_physicalRecord {w : Writer} {t : ℕ} {payload : Bytes} (ht : 0 < t) (ht' : t ≤ 8)
    (hnumber : isRecyclable t = true → w.logNumber.toNat < 2 ^ 32) (hlen : payload.length < 2 ^ 16) :
    IsFragment w.logNumber (w.physicalRecord t payload) t payload := by
  have hbig : payload.length < 2 ^ 64 := by omega
  have hnotZero : ¬(t = kZeroType ∧ payload.length = 0) := fun hc => by
    rw [kZeroType] at hc
    omega
  by_cases hrec : t < kRecyclableFullType
  · have hno : isRecyclable t = false := by
      rw [isRecyclable, decide_eq_false (Nat.not_le.mpr hrec), Bool.false_and]
    obtain ⟨htype, hlength, hcrc, hdrop6, hdrop7, hsize⟩ :=
      header_fields (crc32cCombine (value [UInt8.ofNat t]) (value payload)
        (BitVec.ofNat 64 payload.length)) hlen (show t < 128 by omega) payload
    have hbytes : w.physicalRecord t payload = _ := if_pos hrec
    have hheader : headerSizeOf t = 7 := by
      rw [headerSizeOf, hno]
      rfl
    rw [hbytes]
    refine ⟨?_, ?_, htype, hlength, fun hyes => ?_, ?_, hnotZero⟩
    · rw [hheader]
      exact hdrop7
    · rw [hheader]
      exact hsize
    · rw [hno] at hyes
      cases hyes
    · rw [hcrc, hdrop6, crc32cCombine_value _ _ hbig, value, value, ← extend_append]
      rfl
  · have hyes : isRecyclable t = true := by
      rw [isRecyclable, decide_eq_true (Nat.not_lt.mp hrec),
        decide_eq_true (show t ≤ kRecyclableLastType from ht'), Bool.and_self]
    obtain ⟨htype, hlength, hcrc, hdrop6, hdrop7, hsize⟩ :=
      header_fields (crc32cCombine (extend (value [UInt8.ofNat t])
        (putFixed32 w.logNumber.toUInt32)) (value payload) (BitVec.ofNat 64 payload.length)) hlen
        (show t < 128 by omega) (putFixed32 w.logNumber.toUInt32 ++ payload)
    have hbytes : w.physicalRecord t payload = _ := if_neg hrec
    have hheader : headerSizeOf t = 11 := by
      rw [headerSizeOf, hyes]
      rfl
    have hnum : (putFixed32 w.logNumber.toUInt32).length = 4 := length_leBytes 4 _
    rw [hbytes, List.append_assoc]
    refine ⟨?_, ?_, htype, hlength, fun _ => ?_, ?_, hnotZero⟩
    · rw [hheader, ← List.drop_drop (i := 4) (j := 7), hdrop7, List.drop_left' hnum]
    · rw [hheader, hsize, List.length_append, hnum]
      omega
    · rw [hdrop7, decodeFixed32_putFixed32, UInt64.toNat_toUInt32]
      exact Nat.mod_eq_of_lt (hnumber hyes)
    · rw [hcrc, hdrop6, crc32cCombine_value _ _ hbig, value, value, ← extend_append, ← extend_append]
      rfl

/-! ## Before a fragment -/

namespace Reader

theorem readPhysicalRecord_mono {fuel : ℕ} {r : Reader} {result : Physical × Reader}
    (h : readPhysicalRecord fuel r = some result) :
    readPhysicalRecord (fuel + 1) r = some result := by
  induction fuel generalizing r with
  | zero => cases h
  | succ fuel ih =>
      rw [readPhysicalRecord] at h ⊢
      by_cases hshort : r.buffer.length < kHeaderSize
      · rw [if_pos hshort] at h ⊢
        cases hmore : r.readMore with
        | error e => rwa [hmore] at h
        | ok r' =>
            rw [hmore] at h
            exact ih h
      · rw [if_neg hshort] at h ⊢
        dsimp only at h ⊢
        by_cases hrec : isRecyclable (headerType r.buffer) = true
        · rw [if_pos hrec] at h ⊢
          generalize (if r.endOfBufferOffset - r.buffer.length = 0 then { r with recycled := true }
            else r) = r at h ⊢
          by_cases hsecond : r.buffer.length < kRecyclableHeaderSize
          · rw [if_pos hsecond] at h ⊢
            cases hmore : r.readMore with
            | error e => rwa [hmore] at h
            | ok r' =>
                rw [hmore] at h
                exact ih h
          · rwa [if_neg hsecond] at h ⊢
        · rwa [if_neg hrec] at h ⊢

theorem readPhysical_of_three {r : Reader} {result : Physical × Reader}
    (h : readPhysicalRecord 3 r = some result) : r.readPhysical = some result := by
  have hall : ∀ n, readPhysicalRecord (n + 3) r = some result := by
    intro n
    induction n with
    | zero => exact h
    | succ n ih =>
        rw [Nat.add_right_comm]
        exact readPhysicalRecord_mono ih
  exact hall r.file.rest.length

/-- The reader stands before `u` at an offset, perhaps with a short trailer to go over. -/
def Before (r : Reader) (o : ℕ) (u : Bytes) : Prop :=
  r.At o u ∨ o = 0 ∧ ∃ o' trailer, r.At o' (trailer ++ u) ∧ o' + trailer.length = kBlockSize ∧
    trailer.length < kHeaderSize

theorem At.before {r : Reader} {o : ℕ} {u : Bytes} (h : r.At o u) : r.Before o u := Or.inl h

/-- A full block is behind the reader. -/
theorem At.before_next {r : Reader} {u : Bytes} (h : r.At kBlockSize u) : r.Before 0 u :=
  Or.inr ⟨rfl, kBlockSize, [], h, rfl, by decide⟩

theorem Before.fragment {r : Reader} {o : ℕ} {bytes payload u : Bytes} {type : ℕ}
    (h : r.Before o (bytes ++ u)) (hf : IsFragment r.logNumber bytes type payload)
    (hfits : o + bytes.length ≤ kBlockSize) :
    ∃ r', r.readPhysical = some ({ recordType := type, fragment := payload }, r') ∧
      r'.At (o + bytes.length) u ∧ r'.logNumber = r.logNumber := by
  rcases h with h | ⟨rfl, o', trailer, h, hblock, hlen⟩
  · obtain ⟨r', hread, hat, hnumber⟩ := h.fragment hf hfits 2
    exact ⟨r', readPhysical_of_three hread, hat, hnumber⟩
  · obtain ⟨r₀, hat₀, hnumber₀, -, hskip⟩ := h.skip hblock hlen
    obtain ⟨r', hread, hat, hnumber⟩ := hat₀.fragment (hnumber₀ ▸ hf) hfits 1
    exact ⟨r', readPhysical_of_three ((hskip 2).trans hread), hat, hnumber.trans hnumber₀⟩

theorem Before.torn {r : Reader} {o k : ℕ} {bytes payload : Bytes} {type : ℕ}
    (h : r.Before o (bytes.take k)) (hf : IsFragment r.logNumber bytes type payload)
    (hfits : o + bytes.length ≤ kBlockSize) (hk : k < bytes.length) :
    ∃ p r', r.readPhysical = some (p, r') ∧ Ends p r' (k = 0) := by
  rcases h with h | ⟨rfl, o', trailer, h, hblock, hlen⟩
  · obtain ⟨p, r', hread, hends⟩ := h.torn hf hfits hk 2
    exact ⟨p, r', readPhysical_of_three hread, hends⟩
  · obtain ⟨r₀, hat₀, hnumber₀, -, hskip⟩ := h.skip hblock hlen
    obtain ⟨p, r', hread, hends⟩ := hat₀.torn (hnumber₀ ▸ hf) hfits hk 1
    exact ⟨p, r', readPhysical_of_three ((hskip 2).trans hread), hends⟩

end Reader

/-! ## Turns of `ReadRecord` -/

theorem Writer.headerSize_bounds (w : Writer) : 7 ≤ w.headerSize ∧ w.headerSize ≤ 11 := by
  rw [Writer.headerSize]
  split <;> decide

theorem Writer.recordType_spec (w : Writer) (begins ends : Bool) :
    0 < w.recordType begins ends ∧ w.recordType begins ends ≤ 8 ∧
      isRecyclable (w.recordType begins ends) = w.recycleLogFiles := by
  rw [recordType]
  generalize w.recycleLogFiles = recycle
  revert begins ends recycle
  decide

theorem Writer.isFragment {w : Writer} (hw : w.Readable) (begins ends : Bool) {payload : Bytes}
    (hlen : payload.length < 2 ^ 16) :
    IsFragment w.logNumber (w.physicalRecord (w.recordType begins ends) payload)
      (w.recordType begins ends) payload := by
  obtain ⟨hpos, hle, hrec⟩ := w.recordType_spec begins ends
  exact isFragment_physicalRecord hpos hle (fun hyes => hw (hrec.symm.trans hyes)) hlen

theorem Writer.length_physicalRecord {w : Writer} (hw : w.Readable) (begins ends : Bool)
    {payload : Bytes} (hlen : payload.length < 2 ^ 16) :
    (w.physicalRecord (w.recordType begins ends) payload).length = w.headerSize + payload.length := by
  have hsize := (w.isFragment hw begins ends hlen).size
  rw [headerSizeOf, (w.recordType_spec begins ends).2.2] at hsize
  exact hsize

namespace Reader

/-- Fragments in the order in which they are written. -/
theorem turn_fragment (mode : WALRecoveryMode) (r : Reader) (w : Writer) (inFragment ends : Bool)
    {scratch : Bytes} (hscratch : inFragment = false → scratch = []) (payload : Bytes) :
    r.turn mode { recordType := w.recordType (!inFragment) ends, fragment := payload } inFragment
      scratch =
      if ends then .done (some (scratch ++ payload)) [] else .again true (scratch ++ payload) [] := by
  obtain ⟨offset, number, recycle⟩ := w
  cases inFragment with
  | false =>
      obtain rfl := hscratch rfl
      cases ends <;> cases recycle <;> rfl
  | true => cases ends <;> cases recycle <;> rfl

theorem turn_badRecord (mode : WALRecoveryMode) (r : Reader) :
    r.turn mode { recordType := kBadRecord } false [] = .again false [] [] := by
  cases mode <;> rfl

/-- At the end of the file there is no record; the strict modes report an incomplete one. -/
theorem turn_ends {p : Physical} {r : Reader} {clean : Prop} (h : Ends p r clean)
    (mode : WALRecoveryMode) (inFragment : Bool) (scratch : Bytes) :
    ∃ tail, r.turn mode p inFragment scratch = .done none tail ∧
      (mode.strict = false → tail = []) ∧
      (mode.strict = true → (tail = [] ↔ clean ∧ inFragment = false)) := by
  rcases h.code with ⟨hcode, hclean⟩ | ⟨hcode, hclean⟩
  · refine ⟨if mode.strict then abandon inFragment scratch "error reading trailing data" else [], ?_,
      fun hno => by rw [hno]; rfl, fun hyes => ?_⟩
    · rw [turn, hcode]
      rfl
    · rw [hyes]
      cases inFragment with
      | false => exact iff_of_true rfl ⟨hclean, rfl⟩
      | true => exact iff_of_false (List.cons_ne_nil _ _) fun hc => Bool.noConfusion hc.2
  rcases hcode with hcode | ⟨hcode, heof⟩
  · refine ⟨(if mode.strict then [reportCorruption p.dropSize "truncated header"] else []) ++
      if mode.strict then abandon inFragment scratch "error reading trailing data" else [], ?_,
      fun hno => by rw [hno]; rfl, fun hyes => ?_⟩
    · rw [turn, hcode]
      rfl
    · rw [hyes]
      exact iff_of_false (List.cons_ne_nil _ _) fun hc => hclean hc.1
  · refine ⟨if mode.strict then [reportCorruption p.dropSize "truncated record body"] else [], ?_,
      fun hno => by rw [hno]; rfl, fun hyes => ?_⟩
    · rw [turn, hcode, heof]
      rfl
    · rw [hyes]
      exact iff_of_false (List.cons_ne_nil _ _) fun hc => hclean hc.1

end Reader

/-! ## One record -/

namespace Writer

def avail (w : Writer) : ℕ := kBlockSize - w.blockOffset - w.headerSize

variable {w : Writer} {begins : Bool} {left : Bytes} {fuel : ℕ}

theorem switchBlock_of_room (hroom : w.blockOffset + w.headerSize ≤ kBlockSize) :
    w.switchBlock = w ∧ w.trailer = [] := by
  have hnot : ¬ kBlockSize - w.blockOffset < w.headerSize := by omega
  exact ⟨if_neg hnot, if_neg hnot⟩

theorem headerSize_recordType (w : Writer) (begins ends : Bool) :
    (if w.recordType begins ends < kRecyclableFullType then kHeaderSize else kRecyclableHeaderSize) =
      w.headerSize := by
  rw [recordType, headerSize]
  generalize w.recycleLogFiles = recycle
  revert begins ends recycle
  decide

/-- The rest of the record fits into the block. -/
theorem addRecordLoop_last (hroom : w.blockOffset + w.headerSize ≤ kBlockSize)
    (hfits : left.length ≤ w.avail) :
    addRecordLoop (fuel + 1) w begins left = (w.physicalRecord (w.recordType begins true) left,
      { w with blockOffset := w.blockOffset + (w.headerSize + left.length) }) := by
  obtain ⟨hswitch, htrailer⟩ := switchBlock_of_room hroom
  have hlength : (if left.length < w.avail then left.length else w.avail) = left.length := by
    split <;> omega
  rw [addRecordLoop]
  dsimp only
  rw [hswitch, htrailer, ← avail, hlength, List.drop_length, List.take_length, decide_eq_true rfl,
    emitPhysicalRecord]
  dsimp only
  rw [headerSize_recordType]
  rfl

/-- A fragment fills the block and the record goes on. -/
theorem addRecordLoop_more (hroom : w.blockOffset + w.headerSize ≤ kBlockSize)
    (hlong : w.avail < left.length) :
    addRecordLoop (fuel + 1) w begins left =
      (w.physicalRecord (w.recordType begins false) (left.take w.avail) ++
        (addRecordLoop fuel { w with blockOffset := kBlockSize } false (left.drop w.avail)).1,
      (addRecordLoop fuel { w with blockOffset := kBlockSize } false (left.drop w.avail)).2) := by
  obtain ⟨hswitch, htrailer⟩ := switchBlock_of_room hroom
  have hlength : (if left.length < w.avail then left.length else w.avail) = w.avail :=
    if_neg (by omega)
  have htake : (left.take w.avail).length = w.avail := by
    rw [List.length_take]
    omega
  have hoffset : w.blockOffset + (w.headerSize + w.avail) = kBlockSize := by
    rw [avail]
    omega
  rw [addRecordLoop]
  dsimp only
  rw [hswitch, htrailer, ← avail, hlength, decide_eq_false (by omega), emitPhysicalRecord]
  dsimp only
  rw [headerSize_recordType, htake, hoffset, if_pos (by rw [List.length_drop]; omega), List.nil_append]

/-- A full block is left behind. -/
theorem addRecordLoop_full (hoffset : w.blockOffset = kBlockSize) :
    addRecordLoop fuel w begins left = ((addRecordLoop fuel { w with blockOffset := 0 } begins left).1,
      if fuel = 0 then w else (addRecordLoop fuel { w with blockOffset := 0 } begins left).2) := by
  cases fuel with
  | zero => rfl
  | succ fuel =>
      have hbounds := w.headerSize_bounds
      have hswitch : w.switchBlock = { w with blockOffset := 0 } :=
        if_pos (by rw [hoffset, Nat.sub_self]; omega)
      have htrailer : w.trailer = [] := by
        rw [trailer, hoffset, Nat.sub_self]
        exact ite_self _
      have hstay := switchBlock_of_room (w := { w with blockOffset := 0 })
        (by change 0 + w.headerSize ≤ kBlockSize; rw [kBlockSize]; omega)
      rw [addRecordLoop, addRecordLoop, hswitch, htrailer, hstay.1, hstay.2]
      rfl

/-- Both ways a record goes on from a block with room for a header. -/
theorem addRecordLoop_room (begins : Bool) (hroom : w.blockOffset + w.headerSize ≤ kBlockSize)
    (hfuel : left.length + (if w.blockOffset = 0 then 1 else 2) ≤ fuel + 1) :
    (left.length ≤ w.avail ∧ addRecordLoop (fuel + 1) w begins left =
      (w.physicalRecord (w.recordType begins true) left,
        { w with blockOffset := w.blockOffset + (w.headerSize + left.length) })) ∨
    (w.avail < left.length ∧ (left.drop w.avail).length + 1 ≤ fuel ∧
      addRecordLoop (fuel + 1) w begins left =
        (w.physicalRecord (w.recordType begins false) (left.take w.avail) ++
          (addRecordLoop fuel { w with blockOffset := 0 } false (left.drop w.avail)).1,
        (addRecordLoop fuel { w with blockOffset := 0 } false (left.drop w.avail)).2)) := by
  have hbounds := w.headerSize_bounds
  rcases Nat.lt_or_ge w.avail left.length with hlong | hfits
  · have hless : (left.drop w.avail).length + 1 ≤ fuel := by
      rw [List.length_drop]
      by_cases hzero : w.blockOffset = 0
      · have havail : 1 ≤ w.avail := by
          rw [avail, hzero, kBlockSize]
          omega
        rw [if_pos hzero] at hfuel
        omega
      · rw [if_neg hzero] at hfuel
        omega
    refine Or.inr ⟨hlong, hless, ?_⟩
    rw [addRecordLoop_more hroom hlong, addRecordLoop_full rfl, if_neg (by omega)]
  · exact Or.inl ⟨hfits, addRecordLoop_last hroom hfits⟩

theorem headerSize_zero_room (w : Writer) : 0 + w.headerSize ≤ kBlockSize := by
  have hbounds := w.headerSize_bounds
  rw [kBlockSize]
  omega

theorem avail_lt (w : Writer) : w.avail < 2 ^ 16 := by
  rw [avail, kBlockSize]
  omega

theorem room_switchBlock (w : Writer) (hoffset : w.blockOffset ≤ kBlockSize) :
    w.switchBlock.blockOffset + w.switchBlock.headerSize ≤ kBlockSize := by
  rw [switchBlock]
  split
  · exact w.headerSize_zero_room
  · omega

theorem logNumber_switchBlock (w : Writer) : w.switchBlock.logNumber = w.logNumber := by
  rw [switchBlock]
  split <;> rfl

theorem recycleLogFiles_switchBlock (w : Writer) :
    w.switchBlock.recycleLogFiles = w.recycleLogFiles := by
  rw [switchBlock]
  split <;> rfl

theorem readable_switchBlock (w : Writer) (h : w.Readable) : w.switchBlock.Readable := by
  intro hyes
  rw [logNumber_switchBlock]
  exact h (w.recycleLogFiles_switchBlock.symm.trans hyes)

/-- A record is the trailer of the block before it, if that has no room, and its fragments. -/
theorem addRecord_switch (w : Writer) (slice : Bytes) :
    w.addRecord slice = (w.trailer ++ (w.switchBlock.addRecordLoop (slice.length + 2) true slice).1,
      (w.switchBlock.addRecordLoop (slice.length + 2) true slice).2) := by
  have hstay : w.switchBlock.switchBlock = w.switchBlock ∧ w.switchBlock.trailer = [] := by
    by_cases hshort : kBlockSize - w.blockOffset < w.headerSize
    · rw [switchBlock, switchBlock, if_pos hshort]
      exact switchBlock_of_room (w := { w with blockOffset := 0 }) w.headerSize_zero_room
    · have hsame : w.switchBlock = w := if_neg hshort
      rw [hsame]
      exact ⟨hsame, if_neg hshort⟩
  rw [addRecord, addRecordLoop, addRecordLoop, hstay.1, hstay.2]
  generalize (if slice.length < kBlockSize - w.switchBlock.blockOffset - w.switchBlock.headerSize then
    slice.length else kBlockSize - w.switchBlock.blockOffset - w.switchBlock.headerSize) = length
  dsimp only
  split <;> simp only [List.nil_append, List.append_assoc]

end Writer

namespace Reader

/-- What a writer of the log and a reader of it agree on while the record is read. -/
structure Follows (r : Reader) (w : Writer) (inFragment : Bool) (scratch bytes : Bytes) : Prop where
  readable : w.Readable
  number : r.logNumber = w.logNumber
  before : r.Before w.blockOffset bytes
  scratch : inFragment = false → scratch = []

/-- One fragment of a record that the file has as a whole. -/
theorem Follows.fragment {r : Reader} {w : Writer} {inFragment : Bool} {scratch payload u : Bytes}
    {ends : Bool}
    (h : r.Follows w inFragment scratch
      (w.physicalRecord (w.recordType (!inFragment) ends) payload ++ u))
    (hroom : w.blockOffset + w.headerSize + payload.length ≤ kBlockSize) :
    ∃ r', r.readPhysical =
        some ({ recordType := w.recordType (!inFragment) ends, fragment := payload }, r') ∧
      r'.At (w.blockOffset + (w.headerSize + payload.length)) u ∧ r'.logNumber = w.logNumber := by
  have hlen : payload.length < 2 ^ 16 := by
    rw [kBlockSize] at hroom
    omega
  have hsize := Writer.length_physicalRecord h.readable (!inFragment) ends hlen
  have hfragment := w.isFragment h.readable (!inFragment) ends hlen
  rw [← h.number] at hfragment
  obtain ⟨r', hread, hat, hnumber⟩ := h.before.fragment hfragment (by rw [hsize]; omega)
  exact ⟨r', hread, hsize ▸ hat, hnumber.trans h.number⟩

theorem Follows.next {r : Reader} {w : Writer} (scratch : Bytes) {bytes : Bytes} (hreadable : w.Readable)
    (hnumber : r.logNumber = w.logNumber) (hat : r.At kBlockSize bytes) :
    r.Follows { w with blockOffset := 0 } true scratch bytes :=
  ⟨hreadable, hnumber, hat.before_next, fun hc => Bool.noConfusion hc⟩

/-- The reader puts the fragments of a record together. -/
theorem Follows.record (mode : WALRecoveryMode) {fuel turns : ℕ} {r : Reader} {w : Writer}
    {inFragment : Bool} {scratch left u : Bytes}
    (h : r.Follows w inFragment scratch ((w.addRecordLoop fuel (!inFragment) left).1 ++ u))
    (hroom : w.blockOffset + w.headerSize ≤ kBlockSize)
    (hfuel : left.length + (if w.blockOffset = 0 then 1 else 2) ≤ fuel)
    (hturns : (w.addRecordLoop fuel (!inFragment) left).1.length ≤ turns) :
    ∃ r', readRecordLoop mode turns r inFragment scratch [] = some (some (scratch ++ left), [], r') ∧
      r'.At (w.addRecordLoop fuel (!inFragment) left).2.blockOffset u ∧
      r'.logNumber = w.logNumber := by
  induction fuel generalizing turns r w inFragment scratch left with
  | zero =>
      split at hfuel <;> omega
  | succ fuel ih =>
      have hbounds := w.headerSize_bounds
      rcases Writer.addRecordLoop_room (!inFragment) hroom hfuel with
        ⟨hfits, hstep⟩ | ⟨hlong, hless, hstep⟩
      · rw [hstep] at h hturns ⊢
        have hlen := Writer.length_physicalRecord h.readable (!inFragment) true
          (Nat.lt_of_le_of_lt hfits w.avail_lt)
        obtain ⟨r', hread, hat, hnumber⟩ := h.fragment (by rw [Writer.avail] at hfits; omega)
        obtain ⟨turns, rfl⟩ : ∃ n, turns = n + 1 := ⟨turns - 1, by dsimp only at hturns; omega⟩
        refine ⟨r', ?_, hat, hnumber⟩
        rw [readRecordLoop, hread]
        dsimp only
        rw [turn_fragment mode r' w inFragment true h.scratch]
        rfl
      · rw [hstep] at h hturns ⊢
        have htake : (left.take w.avail).length = w.avail := by
          rw [List.length_take]
          omega
        have hlen := Writer.length_physicalRecord h.readable (!inFragment) false
          (show (left.take w.avail).length < 2 ^ 16 by rw [htake]; exact w.avail_lt)
        dsimp only at hturns h ⊢
        rw [List.append_assoc] at h
        rw [List.length_append, hlen] at hturns
        obtain ⟨r', hread, hat, hnumber⟩ := h.fragment (by rw [htake, Writer.avail]; omega)
        have hblock : w.blockOffset + (w.headerSize + (left.take w.avail).length) = kBlockSize := by
          rw [htake, Writer.avail]
          omega
        rw [hblock] at hat
        obtain ⟨turns, rfl⟩ : ∃ n, turns = n + 1 := ⟨turns - 1, by omega⟩
        obtain ⟨r'', hrest, hat'', hnumber''⟩ :=
          ih (Follows.next (scratch ++ left.take w.avail) h.readable hnumber hat)
            w.headerSize_zero_room (by rw [if_pos rfl]; exact hless)
            (show (Writer.addRecordLoop fuel { w with blockOffset := 0 } false _).1.length ≤ turns by
              omega)
        refine ⟨r'', ?_, hat'', hnumber''⟩
        rw [readRecordLoop, hread]
        dsimp only
        rw [turn_fragment mode r' w inFragment false h.scratch]
        rw [List.append_assoc, List.take_append_drop] at hrest
        exact hrest

/-- One fragment of a record that the file has not as a whole. -/
theorem Follows.torn {r : Reader} {w : Writer} {inFragment : Bool} {scratch payload : Bytes}
    {ends : Bool} {k : ℕ}
    (h : r.Follows w inFragment scratch
      ((w.physicalRecord (w.recordType (!inFragment) ends) payload).take k))
    (hroom : w.blockOffset + w.headerSize + payload.length ≤ kBlockSize)
    (hk : k < w.headerSize + payload.length) :
    ∃ p r', r.readPhysical = some (p, r') ∧ Ends p r' (k = 0) := by
  have hlen : payload.length < 2 ^ 16 := by
    rw [kBlockSize] at hroom
    omega
  have hsize := Writer.length_physicalRecord h.readable (!inFragment) ends hlen
  have hfragment := w.isFragment h.readable (!inFragment) ends hlen
  rw [← h.number] at hfragment
  exact h.before.torn hfragment (by rw [hsize]; omega) (by rw [hsize]; exact hk)

/-- The reader does not get a record that the file has not as a whole. -/
theorem Follows.tornRecord (mode : WALRecoveryMode) {fuel turns k : ℕ} {r : Reader} {w : Writer}
    {inFragment : Bool} {scratch left : Bytes}
    (h : r.Follows w inFragment scratch ((w.addRecordLoop fuel (!inFragment) left).1.take k))
    (hroom : w.blockOffset + w.headerSize ≤ kBlockSize)
    (hfuel : left.length + (if w.blockOffset = 0 then 1 else 2) ≤ fuel)
    (hk : k < (w.addRecordLoop fuel (!inFragment) left).1.length) (hturns : k < turns) :
    ∃ tail r', readRecordLoop mode turns r inFragment scratch [] = some (none, tail, r') ∧
      (mode.strict = false → tail = []) ∧
      (mode.strict = true → (tail = [] ↔ k = 0 ∧ inFragment = false)) := by
  induction fuel generalizing turns k r w inFragment scratch left with
  | zero =>
      split at hfuel <;> omega
  | succ fuel ih =>
      have hbounds := w.headerSize_bounds
      obtain ⟨turns, rfl⟩ : ∃ n, turns = n + 1 := ⟨turns - 1, by omega⟩
      -- the file ends within the fragment at hand
      have hwithin : ∀ {payload : Bytes} {ends : Bool},
          r.Follows w inFragment scratch
            ((w.physicalRecord (w.recordType (!inFragment) ends) payload).take k) →
          w.blockOffset + w.headerSize + payload.length ≤ kBlockSize →
          k < w.headerSize + payload.length →
          ∃ tail r', readRecordLoop mode (turns + 1) r inFragment scratch [] = some (none, tail, r') ∧
            (mode.strict = false → tail = []) ∧
            (mode.strict = true → (tail = [] ↔ k = 0 ∧ inFragment = false)) := by
        intro payload ends hfollows hfits hshort
        obtain ⟨p, r', hread, hends⟩ := hfollows.torn hfits hshort
        obtain ⟨tail, hturn, htail⟩ := turn_ends hends mode inFragment scratch
        refine ⟨tail, r', ?_, htail⟩
        rw [readRecordLoop, hread]
        dsimp only
        rw [hturn, hends.reports]
        rfl
      rcases Writer.addRecordLoop_room (!inFragment) hroom hfuel with
        ⟨hfits, hstep⟩ | ⟨hlong, hless, hstep⟩
      · rw [hstep] at h hk
        have hlen := Writer.length_physicalRecord h.readable (!inFragment) true
          (Nat.lt_of_le_of_lt hfits w.avail_lt)
        exact hwithin h (by rw [Writer.avail] at hfits; omega) (hlen ▸ hk)
      · rw [hstep] at h hk
        have htake : (left.take w.avail).length = w.avail := by
          rw [List.length_take]
          omega
        have hlen := Writer.length_physicalRecord h.readable (!inFragment) false
          (show (left.take w.avail).length < 2 ^ 16 by rw [htake]; exact w.avail_lt)
        have hblock : w.blockOffset + (w.headerSize + (left.take w.avail).length) = kBlockSize := by
          rw [htake, Writer.avail]
          omega
        dsimp only at h hk
        rw [List.length_append, hlen] at hk
        rcases Nat.lt_or_ge k (w.headerSize + (left.take w.avail).length) with hshort | hpast
        · rw [List.take_append_of_le_length (by rw [hlen]; exact hshort.le)] at h
          exact hwithin h (by omega) hshort
        · rw [List.take_append, List.take_of_length_le (by rw [hlen]; exact hpast), hlen] at h
          obtain ⟨r', hread, hat, hnumber⟩ := h.fragment (by omega)
          rw [hblock] at hat
          obtain ⟨tail, r'', hrest, htail, hstrict⟩ :=
            ih (Follows.next (scratch ++ left.take w.avail) h.readable hnumber hat)
              w.headerSize_zero_room (by rw [if_pos rfl]; exact hless)
              (show _ < (Writer.addRecordLoop fuel { w with blockOffset := 0 } false _).1.length by
                omega) (show _ < turns by omega)
          refine ⟨tail, r'', ?_, htail, fun hyes => ?_⟩
          · rw [readRecordLoop, hread]
            dsimp only
            rw [turn_fragment mode r' w inFragment false h.scratch]
            exact hrest
          · rw [hstrict hyes]
            exact iff_of_false (fun hc => Bool.noConfusion hc.2) fun hc => by omega

/-! ## The trailer before a record -/

/-- The reader goes over the trailer of a block, if there is one. -/
theorem Before.trailer (mode : WALRecoveryMode) {r : Reader} {w : Writer} {u : Bytes}
    (h : r.Before w.blockOffset (w.trailer ++ u)) (hoffset : w.blockOffset ≤ kBlockSize) :
    ∃ r' turns, turns ≤ w.trailer.length ∧ r'.Before w.switchBlock.blockOffset u ∧
      r'.logNumber = r.logNumber ∧
      ∀ n, readRecordLoop mode (turns + n) r false [] [] = readRecordLoop mode n r' false [] [] := by
  have hbounds := w.headerSize_bounds
  by_cases hroom : w.blockOffset + w.headerSize ≤ kBlockSize
  · obtain ⟨hswitch, htrailer⟩ := Writer.switchBlock_of_room hroom
    rw [htrailer] at h
    rw [hswitch]
    exact ⟨r, 0, Nat.zero_le _, h, rfl, fun n => by rw [Nat.zero_add]⟩
  have hshort : kBlockSize - w.blockOffset < w.headerSize := by omega
  have htrailer : w.trailer = List.replicate (kBlockSize - w.blockOffset) 0 := if_pos hshort
  have hlen : w.trailer.length = kBlockSize - w.blockOffset := by
    rw [htrailer, List.length_replicate]
  have hswitch : w.switchBlock.blockOffset = 0 := by
    rw [Writer.switchBlock, if_pos hshort]
  have hat : r.At w.blockOffset (w.trailer ++ u) := by
    rcases h with h | ⟨hzero, -⟩
    · exact h
    · rw [hzero, kBlockSize] at hroom
      omega
  rw [hswitch]
  by_cases hseven : w.trailer.length < kHeaderSize
  · exact ⟨r, 0, Nat.zero_le _, Or.inr ⟨rfl, w.blockOffset, w.trailer, hat, by omega, hseven⟩, rfl,
      fun n => by rw [Nat.zero_add]⟩
  · have hblock : w.blockOffset + w.trailer.length = kBlockSize := by omega
    obtain ⟨buffer, hbuffer⟩ := hat.buffer hblock.le
    obtain rfl : buffer = [] := by
      have hcase := hat.block
      rw [hbuffer, List.length_append] at hcase
      exact List.eq_nil_of_length_eq_zero (by omega)
    rw [List.append_nil] at hbuffer
    obtain ⟨u', hu, hnext⟩ := hat.dropBuffer
    rw [hbuffer] at hu hnext
    obtain rfl := List.append_cancel_left hu
    rw [hblock] at hnext
    refine ⟨{ r with buffer := [] }, 1, by rw [kHeaderSize] at hseven; omega, hnext.before_next, rfl,
      fun n => ?_⟩
    have hread := readPhysical_of_three (readPhysicalRecord_zeros (hbuffer.trans htrailer)
      (by rw [← hlen]; omega) 2)
    rw [Nat.add_comm, readRecordLoop, hread]
    dsimp only
    rw [turn_badRecord]
    rfl

/-- A file that ends between two records. -/
theorem Before.stop {r : Reader} {o : ℕ} (h : r.Before o []) (ho : o ≤ kBlockSize) :
    ∃ p r', r.readPhysical = some (p, r') ∧ Ends p r' True := by
  have hstart : ∀ {r : Reader} {o trailer}, r.At o (trailer ++ []) → o + trailer.length = kBlockSize →
      trailer.length < kHeaderSize → ∃ p r', r.readPhysical = some (p, r') ∧ Ends p r' True := by
    intro r o trailer hat hblock hlen
    obtain ⟨r₀, hat₀, -, -, hskip⟩ := hat.skip hblock hlen
    obtain ⟨p, r', hread, hends⟩ := hat₀.stop (by decide) (by decide) 1
    refine ⟨p, r', readPhysical_of_three ((hskip 2).trans hread), hends.reports, ?_⟩
    simpa only [eq_self_iff_true] using hends.code
  rcases h with h | ⟨-, o', trailer, h, hblock, hlen⟩
  · rcases Nat.lt_or_ge o kBlockSize with hlt | hge
    · obtain ⟨p, r', hread, hends⟩ := h.stop (by rw [List.length_nil]; omega) (by decide) 2
      refine ⟨p, r', readPhysical_of_three hread, hends.reports, ?_⟩
      simpa only [eq_self_iff_true] using hends.code
    · exact hstart (show r.At o ([] ++ []) from h) (by rw [List.length_nil]; omega) (by decide)
  · exact hstart h hblock hlen

theorem Before.stopRecord (mode : WALRecoveryMode) {r : Reader} {o : ℕ} (h : r.Before o [])
    (ho : o ≤ kBlockSize) (turns : ℕ) :
    ∃ r', readRecordLoop mode (turns + 1) r false [] [] = some (none, [], r') := by
  obtain ⟨p, r', hread, hends⟩ := h.stop ho
  obtain ⟨tail, hturn, hlenient, hstrict⟩ := turn_ends hends mode false []
  obtain rfl : tail = [] := by
    cases hmode : mode.strict with
    | false => exact hlenient hmode
    | true => exact (hstrict hmode).mpr ⟨trivial, rfl⟩
  refine ⟨r', ?_⟩
  rw [readRecordLoop, hread]
  dsimp only
  rw [hturn, hends.reports]
  rfl

end Reader

/-- A file that ends after `k` bytes of a record shows no trace of the record. Seven zeros of a
trailer are taken for all of it. -/
def Writer.CleanCut (w : Writer) (k : ℕ) : Prop :=
  k = 0 ∨ k = w.trailer.length ∨ kHeaderSize ≤ k ∧ k < w.trailer.length

namespace Reader

/-- The file ends in the trailer. -/
theorem Before.tornTrailer (mode : WALRecoveryMode) {r : Reader} {w : Writer} {k turns : ℕ}
    (h : r.Before w.blockOffset (w.trailer.take k)) (hk : k < w.trailer.length) (hturns : k < turns) :
    ∃ tail r', readRecordLoop mode turns r false [] [] = some (none, tail, r') ∧
      (mode.strict = false → tail = []) ∧ (mode.strict = true → (tail = [] ↔ w.CleanCut k)) := by
  have hshort : kBlockSize - w.blockOffset < w.headerSize := by
    by_contra hno
    rw [Writer.trailer, if_neg hno] at hk
    exact Nat.not_lt_zero _ hk
  have htrailer : w.trailer = List.replicate (kBlockSize - w.blockOffset) 0 := if_pos hshort
  have hlen : w.trailer.length = kBlockSize - w.blockOffset := by
    rw [htrailer, List.length_replicate]
  have htake : w.trailer.take k = List.replicate k 0 := by
    rw [htrailer, List.take_replicate, Nat.min_eq_left (by omega)]
  have hbounds := w.headerSize_bounds
  have hat : r.At w.blockOffset (List.replicate k 0) := by
    rw [htake] at h
    rcases h with h | ⟨hzero, -⟩
    · exact h
    · rw [hzero, kBlockSize] at hshort
      omega
  have hend : w.blockOffset + (List.replicate k (0 : UInt8)).length < kBlockSize := by
    rw [List.length_replicate]
    omega
  obtain ⟨turns, rfl⟩ : ∃ n, turns = n + 1 := ⟨turns - 1, by omega⟩
  by_cases hseven : k < kHeaderSize
  · obtain ⟨p, r', hread, hends⟩ := hat.stop hend (by rw [List.length_replicate]; exact hseven) 2
    obtain ⟨tail, hturn, hlenient, hstrict⟩ := turn_ends hends mode false []
    refine ⟨tail, r', ?_, hlenient, fun hyes => ?_⟩
    · rw [readRecordLoop, readPhysical_of_three hread]
      dsimp only
      rw [hturn, hends.reports]
      rfl
    · rw [kHeaderSize] at hseven
      rw [hstrict hyes, List.replicate_eq_nil_iff, Writer.CleanCut, kHeaderSize]
      simp only [and_true]
      omega
  · obtain ⟨heof, hbuffer, hrest⟩ := hat.at_end hend
    have hread := readPhysical_of_three (readPhysicalRecord_zeros hbuffer (Nat.not_lt.mp hseven) 2)
    have hblock := hat.block
    obtain ⟨u', hu, hnext⟩ := hat.dropBuffer
    rw [hbuffer] at hu hnext
    obtain rfl : u' = [] := List.self_eq_append_right.mp hu
    rw [kHeaderSize] at hseven
    obtain ⟨turns, rfl⟩ : ∃ n, turns = n + 1 := ⟨turns - 1, by omega⟩
    obtain ⟨r', hstop⟩ := hnext.before.stopRecord mode hend.le turns
    refine ⟨[], r', ?_, fun _ => rfl, fun _ => ?_⟩
    · rw [readRecordLoop, hread]
      dsimp only
      rw [turn_badRecord]
      exact hstop
    · refine iff_of_true rfl (Or.inr (Or.inr ⟨?_, hk⟩))
      rw [kHeaderSize]
      omega

/-- A record of a log that the file has as a whole. -/
theorem Before.record (mode : WALRecoveryMode) {r : Reader} {w : Writer} {slice u : Bytes}
    (hreadable : w.Readable) (hnumber : r.logNumber = w.logNumber)
    (hoffset : w.blockOffset ≤ kBlockSize) (h : r.Before w.blockOffset ((w.addRecord slice).1 ++ u))
    {turns : ℕ} (hturns : (w.addRecord slice).1.length ≤ turns) :
    ∃ r', readRecordLoop mode turns r false [] [] = some (some slice, [], r') ∧
      r'.At (w.addRecord slice).2.blockOffset u ∧ r'.logNumber = w.logNumber := by
  rw [Writer.addRecord_switch] at h hturns ⊢
  dsimp only at h hturns ⊢
  rw [List.append_assoc] at h
  rw [List.length_append] at hturns
  obtain ⟨r₀, skipped, hskipped, hbefore, hnumber₀, hskip⟩ := h.trailer mode hoffset
  have hfollows : r₀.Follows w.switchBlock false []
      ((w.switchBlock.addRecordLoop (slice.length + 2) (!false) slice).1 ++ u) :=
    ⟨w.readable_switchBlock hreadable, by rw [hnumber₀, hnumber, Writer.logNumber_switchBlock], hbefore,
      fun _ => rfl⟩
  obtain ⟨r', hread, hat, hnumber'⟩ := hfollows.record mode (w.room_switchBlock hoffset)
    (by split <;> omega) (show _ ≤ turns - skipped by rw [Bool.not_false]; omega)
  refine ⟨r', ?_, hat, hnumber'.trans w.logNumber_switchBlock⟩
  have hturns' := hskip (turns - skipped)
  rw [Nat.add_sub_cancel' (by omega)] at hturns'
  rw [hturns', hread]
  rfl

/-- A record of a log that the file has not as a whole. -/
theorem Before.tornRecord (mode : WALRecoveryMode) {r : Reader} {w : Writer} {slice : Bytes} {k : ℕ}
    (hreadable : w.Readable) (hnumber : r.logNumber = w.logNumber)
    (hoffset : w.blockOffset ≤ kBlockSize)
    (h : r.Before w.blockOffset ((w.addRecord slice).1.take k)) (hk : k < (w.addRecord slice).1.length)
    {turns : ℕ} (hturns : k < turns) :
    ∃ tail r', readRecordLoop mode turns r false [] [] = some (none, tail, r') ∧
      (mode.strict = false → tail = []) ∧ (mode.strict = true → (tail = [] ↔ w.CleanCut k)) := by
  rw [Writer.addRecord_switch] at h hk
  dsimp only at h hk
  rw [List.length_append] at hk
  rcases Nat.lt_or_ge k w.trailer.length with hwithin | hpast
  · rw [List.take_append_of_le_length hwithin.le] at h
    exact h.tornTrailer mode hwithin hturns
  rw [List.take_append, List.take_of_length_le hpast] at h
  obtain ⟨r₀, skipped, hskipped, hbefore, hnumber₀, hskip⟩ := h.trailer mode hoffset
  have hfollows : r₀.Follows w.switchBlock false []
      ((w.switchBlock.addRecordLoop (slice.length + 2) (!false) slice).1.take
        (k - w.trailer.length)) :=
    ⟨w.readable_switchBlock hreadable, by rw [hnumber₀, hnumber, Writer.logNumber_switchBlock], hbefore,
      fun _ => rfl⟩
  obtain ⟨tail, r', hread, hlenient, hstrict⟩ := hfollows.tornRecord mode
    (w.room_switchBlock hoffset) (by split <;> omega) (by rw [Bool.not_false]; omega)
    (show _ < turns - skipped by omega)
  refine ⟨tail, r', ?_, hlenient, fun hyes => ?_⟩
  · have hturns' := hskip (turns - skipped)
    rw [Nat.add_sub_cancel' (by omega)] at hturns'
    rw [hturns', hread]
  · rw [hstrict hyes, Writer.CleanCut]
    simp only [and_true]
    omega

end Reader

/-! ## Whole logs -/

namespace Writer

theorem addRecordLoop_frame {fuel : ℕ} {w : Writer} (begins : Bool) {left : Bytes}
    (hroom : w.blockOffset + w.headerSize ≤ kBlockSize)
    (hfuel : left.length + (if w.blockOffset = 0 then 1 else 2) ≤ fuel) :
    (w.addRecordLoop fuel begins left).2.logNumber = w.logNumber ∧
      (w.addRecordLoop fuel begins left).2.recycleLogFiles = w.recycleLogFiles ∧
      (w.addRecordLoop fuel begins left).2.blockOffset ≤ kBlockSize := by
  induction fuel generalizing w begins left with
  | zero =>
      split at hfuel <;> omega
  | succ fuel ih =>
      rcases addRecordLoop_room begins hroom hfuel with
        ⟨hfits, hstep⟩ | ⟨-, hless, hstep⟩
      · rw [hstep]
        refine ⟨rfl, rfl, ?_⟩
        rw [avail] at hfits
        dsimp only
        omega
      · rw [hstep]
        exact ih (w := { w with blockOffset := 0 }) false w.headerSize_zero_room
          (by rw [if_pos rfl]; exact hless)

/-- What stays as it is while records are added. -/
theorem addRecord_frame {w : Writer} (hoffset : w.blockOffset ≤ kBlockSize) (slice : Bytes) :
    (w.addRecord slice).2.logNumber = w.logNumber ∧
      (w.addRecord slice).2.recycleLogFiles = w.recycleLogFiles ∧
      (w.addRecord slice).2.blockOffset ≤ kBlockSize := by
  obtain ⟨hnumber, hrecycle, hle⟩ := addRecordLoop_frame true (w.room_switchBlock hoffset)
    (show slice.length + (if w.switchBlock.blockOffset = 0 then 1 else 2) ≤ slice.length + 2 by
      split <;> omega)
  rw [addRecord_switch]
  exact ⟨hnumber.trans w.logNumber_switchBlock, hrecycle.trans w.recycleLogFiles_switchBlock, hle⟩

theorem addRecord_readable {w : Writer} (hreadable : w.Readable)
    (hoffset : w.blockOffset ≤ kBlockSize) (slice : Bytes) : (w.addRecord slice).2.Readable := by
  obtain ⟨hnumber, hrecycle, -⟩ := addRecord_frame hoffset slice
  intro hyes
  rw [hnumber]
  exact hreadable (hrecycle ▸ hyes)

theorem addRecord_length_pos {w : Writer} (hoffset : w.blockOffset ≤ kBlockSize) (slice : Bytes) :
    0 < (w.addRecord slice).1.length := by
  have hpos : ∀ (w : Writer) (t : ℕ) (payload : Bytes), 0 < (w.physicalRecord t payload).length := by
    intro w t payload
    rw [physicalRecord]
    dsimp only
    split <;> simp only [List.length_append, List.length_cons] <;> omega
  have hloop : 0 < (w.switchBlock.addRecordLoop (slice.length + 2) true slice).1.length := by
    rcases addRecordLoop_room true (w.room_switchBlock hoffset)
      (show slice.length + (if w.switchBlock.blockOffset = 0 then 1 else 2) ≤ slice.length + 1 + 1 by
        split <;> omega) with ⟨-, hstep⟩ | ⟨-, -, hstep⟩
    · rw [hstep]
      exact hpos _ _ _
    · rw [hstep, List.length_append]
      exact Nat.add_pos_left (hpos _ _ _) _
  rw [addRecord_switch, List.length_append]
  exact Nat.add_pos_right _ hloop

/-- The first `n` bytes of the records hold exactly `k` of them as a whole. -/
structure Holds (w : Writer) (rs : List Bytes) (n k : ℕ) : Prop where
  le : k ≤ rs.length
  whole : ∀ j ≤ rs.length, (w.addRecords (rs.take j)).1.length ≤ n ↔ j ≤ k

theorem addRecords_cons (w : Writer) (r : Bytes) (rs : List Bytes) :
    w.addRecords (r :: rs) = ((w.addRecord r).1 ++ ((w.addRecord r).2.addRecords rs).1,
      ((w.addRecord r).2.addRecords rs).2) := rfl

theorem addRecords_append (w : Writer) (rs rs' : List Bytes) :
    w.addRecords (rs ++ rs') = ((w.addRecords rs).1 ++ ((w.addRecords rs).2.addRecords rs').1,
      ((w.addRecords rs).2.addRecords rs').2) := by
  induction rs generalizing w with
  | nil => rfl
  | cons r rs ih => rw [List.cons_append, addRecords_cons, addRecords_cons, ih, List.append_assoc]

theorem Holds.nil (w : Writer) (n : ℕ) : w.Holds [] n 0 :=
  ⟨Nat.le_refl 0, fun j hj => iff_of_true (by rw [List.take_nil]; exact Nat.zero_le n) hj⟩

theorem Holds.none {w : Writer} {r : Bytes} {rs : List Bytes} {n : ℕ}
    (h : n < (w.addRecord r).1.length) : w.Holds (r :: rs) n 0 := by
  refine ⟨Nat.zero_le _, fun j _ => ?_⟩
  cases j with
  | zero => exact iff_of_true (Nat.zero_le n) (Nat.le_refl 0)
  | succ j =>
      rw [List.take_succ_cons, addRecords_cons, List.length_append]
      omega

theorem Holds.cons {w : Writer} {r : Bytes} {rs : List Bytes} {n k : ℕ}
    (hle : (w.addRecord r).1.length ≤ n)
    (h : (w.addRecord r).2.Holds rs (n - (w.addRecord r).1.length) k) :
    w.Holds (r :: rs) n (k + 1) := by
  refine ⟨Nat.succ_le_succ h.le, fun j hj => ?_⟩
  cases j with
  | zero => exact iff_of_true (Nat.zero_le n) (Nat.zero_le _)
  | succ j =>
      have hrest := h.whole j (Nat.le_of_succ_le_succ hj)
      rw [List.take_succ_cons, addRecords_cons, List.length_append]
      omega

end Writer

/-- The records of a log that ends after `n` bytes, and a report in the strict modes if the end shows
that more was being written. -/
theorem Reader.Before.log (mode : WALRecoveryMode) {r : Reader} {w : Writer} {rs : List Bytes} {n : ℕ}
    (hreadable : w.Readable) (hnumber : r.logNumber = w.logNumber)
    (hoffset : w.blockOffset ≤ kBlockSize)
    (h : r.Before w.blockOffset ((w.addRecords rs).1.take n))
    {calls : ℕ} (hcalls : ((w.addRecords rs).1.take n).length < calls) :
    ∃ k tail, w.Holds rs n k ∧
      readLoop mode calls r = some ((rs.take k).map .record ++ tail.map .corruption) ∧
      (mode.strict = false → tail = []) ∧
      (mode.strict = true → (tail = [] ↔ k = rs.length ∨
        (w.addRecords (rs.take k)).2.CleanCut (n - (w.addRecords (rs.take k)).1.length))) := by
  induction rs generalizing r w n calls with
  | nil =>
      obtain ⟨calls, rfl⟩ : ∃ c, calls = c + 1 := ⟨calls - 1, by omega⟩
      rw [Writer.addRecords, List.take_nil] at h
      obtain ⟨r', hread⟩ := h.stopRecord mode hoffset (r.unread.length + 1)
      refine ⟨0, [], .nil w n, ?_, fun _ => rfl, fun _ => iff_of_true rfl (Or.inl rfl)⟩
      rw [readLoop, readRecord, hread]
      rfl
  | cons slice rs ih =>
      obtain ⟨calls, rfl⟩ : ∃ c, calls = c + 1 := ⟨calls - 1, by omega⟩
      have hunread : ∀ {o u}, r.Before o u → u.length ≤ r.unread.length := by
        rintro o u (h | ⟨-, o', trailer, h, -⟩)
        · rw [h.unread]
        · rw [h.unread, List.length_append]
          omega
      have hlong := hunread h
      rw [Writer.addRecords_cons] at h hcalls hlong
      dsimp only at h hcalls hlong
      rcases Nat.lt_or_ge n (w.addRecord slice).1.length with hshort | hpast
      · rw [List.take_append_of_le_length hshort.le] at h hlong
        have hn : n < r.unread.length + 2 := by
          rw [List.length_take] at hlong
          omega
        obtain ⟨tail, r', hread, hlenient, hstrict⟩ :=
          h.tornRecord mode hreadable hnumber hoffset hshort hn
        refine ⟨0, tail, .none hshort, ?_, hlenient, fun hyes => ?_⟩
        · rw [readLoop, readRecord, hread]
          rfl
        · rw [hstrict hyes, List.length_cons]
          simp only [List.take_zero, Writer.addRecords, List.length_nil, Nat.sub_zero]
          exact (or_iff_right (by omega)).symm
      · have htake : ((w.addRecord slice).1 ++ ((w.addRecord slice).2.addRecords rs).1).take n =
            (w.addRecord slice).1 ++
              ((w.addRecord slice).2.addRecords rs).1.take (n - (w.addRecord slice).1.length) := by
          rw [List.take_append, List.take_of_length_le hpast]
        rw [htake] at h hcalls hlong
        rw [List.length_append] at hcalls hlong
        obtain ⟨hnumber₂, -, hoffset₂⟩ := Writer.addRecord_frame hoffset slice
        have hpos := Writer.addRecord_length_pos hoffset slice
        obtain ⟨r', hread, hat, hnumber'⟩ := h.record mode hreadable hnumber hoffset
          (show _ ≤ r.unread.length + 2 by omega)
        obtain ⟨k, tail, hholds, hloop, hlenient, hstrict⟩ :=
          ih (Writer.addRecord_readable hreadable hoffset slice) (hnumber'.trans hnumber₂.symm) hoffset₂
            hat.before (show _ < calls by omega)
        refine ⟨k + 1, tail, .cons hpast hholds, ?_, hlenient, fun hyes => ?_⟩
        · rw [readLoop, readRecord, hread]
          dsimp only
          rw [hloop]
          rfl
        · rw [hstrict hyes, List.length_cons, List.take_succ_cons, Writer.addRecords_cons,
            List.length_append, Nat.sub_add_eq]
          simp only [Nat.add_right_cancel_iff]

def Reader.start (logNumber : UInt64) (bytes : Bytes) : Reader :=
  { file := ⟨bytes, none⟩, logNumber := logNumber }

theorem Reader.before_start (logNumber : UInt64) (bytes : Bytes) :
    (Reader.start logNumber bytes).Before 0 bytes :=
  At.before_next ⟨rfl, rfl, rfl, Or.inl ⟨rfl, rfl⟩⟩

/-- What the reader gets back from the first `n` bytes of a log. -/
theorem readLog_take (mode : WALRecoveryMode) (w : Writer) (hstart : w.blockOffset = 0)
    (hreadable : w.Readable) (rs : List Bytes) (n : ℕ) :
    ∃ k tail, w.Holds rs n k ∧
      readLog mode (.start w.logNumber ((w.addRecords rs).1.take n)) =
        some ((rs.take k).map .record ++ tail.map .corruption) ∧
      (mode.strict = false → tail = []) ∧
      (mode.strict = true → (tail = [] ↔ k = rs.length ∨
        (w.addRecords (rs.take k)).2.CleanCut (n - (w.addRecords (rs.take k)).1.length))) := by
  have hbefore := Reader.before_start w.logNumber ((w.addRecords rs).1.take n)
  rw [← hstart] at hbefore
  exact hbefore.log mode hreadable rfl (by rw [hstart]; exact Nat.zero_le _) (Nat.lt_succ_self _)

/-- A recyclable log with the number 5 that ends within its second record. -/
theorem readLog_take_recyclable :
    ∃ k tail, Writer.Holds ⟨0, 5, true⟩ [[1, 2, 3], [4]] 20 k ∧
      readLog .kAbsoluteConsistency
          (.start 5 ((Writer.addRecords ⟨0, 5, true⟩ [[1, 2, 3], [4]]).1.take 20)) =
        some ((List.take k [[1, 2, 3], [4]]).map .record ++ tail.map .corruption) ∧
      (WALRecoveryMode.kAbsoluteConsistency.strict = false → tail = []) ∧
      (WALRecoveryMode.kAbsoluteConsistency.strict = true →
        (tail = [] ↔ k = List.length [[1, 2, 3], [4]] ∨
          (Writer.addRecords ⟨0, 5, true⟩ (List.take k [[1, 2, 3], [4]])).2.CleanCut
            (20 - (Writer.addRecords ⟨0, 5, true⟩ (List.take k [[1, 2, 3], [4]])).1.length))) :=
  readLog_take .kAbsoluteConsistency ⟨0, 5, true⟩ rfl (fun _ => by decide) [[1, 2, 3], [4]] 20

end AegonKV.Log
