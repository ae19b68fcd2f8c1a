import AegonKV.LogReading

/-!
# What the log reader takes from any file

The file need not come from a writer: any bytes may be in it and reads may fail. A record that the
reader returns is a run of fragments with good checksums that stand one after another in the file, and
the reader gets to an end except that skipping corruptions it stays at a fragment of an older log.
-/

namespace AegonKV.Log
open LittleEndian AegonKV Crc32c Reader

/-! ## Runs of fragments -/

/-- A stretch of the file with the first fragment of a record and perhaps some in the middle. Between
two fragments there is at most the trailer of a block. -/
inductive Begun (logNumber : UInt64) : Bytes → Bytes → Prop
  | first {bytes payload : Bytes} {t : ℕ} (h : IsFragment logNumber bytes t payload)
      (ht : t = kFirstType ∨ t = kRecyclableFirstType) : Begun logNumber bytes payload
  | middle {stretch scratch trailer bytes payload : Bytes} {t : ℕ} (begun : Begun logNumber stretch scratch)
      (hlen : trailer.length < kRecyclableHeaderSize) (h : IsFragment logNumber bytes t payload)
      (ht : t = kMiddleType ∨ t = kRecyclableMiddleType) :
      Begun logNumber (stretch ++ (trailer ++ bytes)) (scratch ++ payload)

/-- A stretch of the file with all fragments of a record. -/
inductive Spells (logNumber : UInt64) : Bytes → Bytes → Prop
  | full {bytes payload : Bytes} {t : ℕ} (h : IsFragment logNumber bytes t payload)
      (ht : t = kFullType ∨ t = kRecyclableFullType) : Spells logNumber bytes payload
  | last {stretch scratch trailer bytes payload : Bytes} {t : ℕ} (begun : Begun logNumber stretch scratch)
      (hlen : trailer.length < kRecyclableHeaderSize) (h : IsFragment logNumber bytes t payload)
      (ht : t = kLastType ∨ t = kRecyclableLastType) :
      Spells logNumber (stretch ++ (trailer ++ bytes)) (scratch ++ payload)

/-- The records stand in the file in this order, each in a stretch of its own. -/
inductive Scanned (logNumber : UInt64) : Bytes → List Bytes → Prop
  | nil (rest : Bytes) : Scanned logNumber rest []
  | cons {stretch record rest : Bytes} {records : List Bytes} (skipped : Bytes)
      (spells : Spells logNumber stretch record) (scanned : Scanned logNumber rest records) :
      Scanned logNumber (skipped ++ stretch ++ rest) (record :: records)

theorem length_isFragment {logNumber : UInt64} {bytes payload : Bytes} {t : ℕ}
    (h : IsFragment logNumber bytes t payload) : kHeaderSize ≤ bytes.length := by
  have hbounds := headerSizeOf_bounds t
  rw [h.size, kHeaderSize]
  omega

theorem length_spells {logNumber : UInt64} {stretch record : Bytes} (h : Spells logNumber stretch record) :
    0 < stretch.length := by
  cases h with
  | full h _ => exact Nat.lt_of_lt_of_le (by decide) (length_isFragment h)
  | last _ _ h _ =>
      have hlen := length_isFragment h
      rw [kHeaderSize] at hlen
      rw [List.length_append, List.length_append]
      omega

namespace Reader

/-! ## One call of `ReadPhysicalRecord` -/

/-- What `ReadPhysicalRecord` returns. Before a fragment it may have gone over a trailer. -/
inductive Outcome (r : Reader) (skipped : Bytes) (r' : Reader) : Physical → Prop
  | fragment {bytes payload : Bytes} {t : ℕ} (h : IsFragment r.logNumber bytes t payload)
      (hunread : r.unread = skipped ++ (bytes ++ r'.unread)) :
      Outcome r skipped r' { recordType := t, fragment := payload }
  | dropped {bytes : Bytes} {code : ℕ} (dropSize : ℕ)
      (hcode : code = kBadRecord ∨ code = kBadRecordLen ∨ code = kBadRecordChecksum)
      (hlen : kHeaderSize ≤ bytes.length) (hunread : r.unread = skipped ++ (bytes ++ r'.unread)) :
      Outcome r skipped r' { recordType := code, dropSize := dropSize }
  | old (hunread : r.unread = skipped ++ r'.unread) : Outcome r skipped r' { recordType := kOldRecord }
  | ended {code dropSize : ℕ} {reports : List Report} (hcode : code = kEof ∨ code = kBadHeader) :
      Outcome r skipped r' { recordType := code, dropSize := dropSize, reports := reports }

/-- The reader's settings, which reading leaves as they are. -/
structure Same (r r' : Reader) : Prop where
  number : r'.logNumber = r.logNumber
  checksum : r'.checksum = r.checksum

/-- The body of a record whose header is in the buffer. -/
theorem readBody_outcome {r : Reader} (hchecksum : r.checksum = true) {headerSize : ℕ}
    (hsize : headerSizeOf (headerType r.buffer) = headerSize) (hle : headerSize ≤ r.buffer.length)
    (hnumber : isRecyclable (headerType r.buffer) = true →
      decodeFixed32 (r.buffer.drop 7) = r.logNumber.toNat) :
    ∃ p r', r.readBody (headerType r.buffer) (headerLength r.buffer) headerSize = (p, r') ∧
      Outcome r [] r' p ∧ r.Same r' := by
  have hbounds := headerSizeOf_bounds (headerType r.buffer)
  rw [hsize] at hbounds
  have hdrop : ∀ {code dropSize}, code = kBadRecord ∨ code = kBadRecordLen ∨
      code = kBadRecordChecksum → Outcome r [] { r with buffer := [] }
        { recordType := code, dropSize := dropSize } :=
    fun hcode => .dropped _ hcode (show kHeaderSize ≤ r.buffer.length by rw [kHeaderSize]; omega) rfl
  rw [readBody]
  by_cases hlong : headerSize + headerLength r.buffer > r.buffer.length
  · rw [if_pos hlong]
    exact ⟨_, _, rfl, hdrop (Or.inr (Or.inl rfl)), rfl, rfl⟩
  rw [if_neg hlong]
  by_cases hzero : headerType r.buffer = kZeroType ∧ headerLength r.buffer = 0
  · rw [if_pos hzero]
    exact ⟨_, _, rfl, hdrop (Or.inl rfl), rfl, rfl⟩
  rw [if_neg hzero]
  by_cases hsum : (value ((r.buffer.drop 6).take (headerLength r.buffer + headerSize - 6)) !=
      unmask (BitVec.ofNat 32 (decodeFixed32 r.buffer))) = true
  · rw [if_pos (by rw [hchecksum]; exact hsum)]
    exact ⟨_, _, rfl, hdrop (Or.inr (Or.inr rfl)), rfl, rfl⟩
  rw [if_neg (by rw [hchecksum]; exact hsum)]
  rw [Bool.not_eq_true, bne_eq_false_iff_eq] at hsum
  have hlen : (r.buffer.take (headerSize + headerLength r.buffer)).length =
      headerSize + headerLength r.buffer := by
    rw [List.length_take]
    omega
  have hpayload : ((r.buffer.drop headerSize).take (headerLength r.buffer)).length =
      headerLength r.buffer := by
    rw [List.length_take, List.length_drop]
    omega
  have hwhole := List.take_append_drop (headerSize + headerLength r.buffer) r.buffer
  refine ⟨_, _, rfl, @Outcome.fragment r [] _ (r.buffer.take (headerSize + headerLength r.buffer)) _ _
    ⟨?_, ?_, ?_, ?_, fun hyes => ?_, ?_, ?_⟩ ?_, rfl, rfl⟩
  · rw [hsize, List.drop_take, Nat.add_sub_cancel_left]
  · rw [hlen, hsize, hpayload]
  · rw [← headerType_append (r.buffer.drop (headerSize + headerLength r.buffer)) (by omega), hwhole]
  · rw [← headerLength_append (r.buffer.drop (headerSize + headerLength r.buffer)) (by omega), hwhole,
      hpayload]
  · have heleven : headerSize = kRecyclableHeaderSize := by
      rw [← hsize, headerSizeOf, if_pos hyes]
    rw [kRecyclableHeaderSize] at heleven
    rw [← hnumber hyes, decodeFixed32, decodeFixed32, List.drop_take, List.take_take,
      Nat.min_eq_left (by omega)]
  · rw [List.drop_take, decodeFixed32, List.take_take, Nat.min_eq_left (by omega), ← decodeFixed32,
      ← hsum, Nat.add_comm headerSize]
  · rw [hpayload]
    exact hzero
  · rw [Reader.unread, Reader.unread, List.nil_append, ← List.append_assoc, hwhole]

/-- `ReadMore` has either another block or nothing more. -/
theorem readMore_cases (r : Reader) :
    (∃ code dropSize reports r', r.readMore =
        .error ({ recordType := code, dropSize := dropSize, reports := reports }, r') ∧
      (code = kEof ∨ code = kBadHeader) ∧ r.Same r') ∨
    (∃ r', r.readMore = .ok r' ∧ r.unread = r.buffer ++ r'.unread ∧ r.Same r' ∧
      r.eof = false ∧ r.readError = false ∧ (r'.eof = true ∨ kBlockSize ≤ r'.buffer.length)) := by
  rw [readMore]
  by_cases hgoOn : (!r.eof && !r.readError) = true
  · rw [if_pos hgoOn]
    rw [Bool.and_eq_true, Bool.not_eq_true', Bool.not_eq_true'] at hgoOn
    have hblock : ∀ failure, ∃ r', (Except.ok { r with
          file := ⟨r.file.rest.drop kBlockSize, failure⟩
          buffer := r.file.rest.take kBlockSize
          endOfBufferOffset := r.endOfBufferOffset + (r.file.rest.take kBlockSize).length
          eof := decide ((r.file.rest.take kBlockSize).length < kBlockSize) } :
            Except (Physical × Reader) Reader) = .ok r' ∧ r.unread = r.buffer ++ r'.unread ∧
        r.Same r' ∧ r.eof = false ∧ r.readError = false ∧
        (r'.eof = true ∨ kBlockSize ≤ r'.buffer.length) := by
      intro failure
      refine ⟨_, rfl, ?_, ⟨rfl, rfl⟩, hgoOn.1, hgoOn.2, ?_⟩
      · rw [Reader.unread, Reader.unread, List.take_append_drop]
      · rcases Nat.lt_or_ge (r.file.rest.take kBlockSize).length kBlockSize with hlt | hge
        · exact Or.inl (decide_eq_true hlt)
        · exact Or.inr hge
    rw [SequentialFile.read]
    rcases hfailure : r.file.failure with - | ⟨k, s⟩
    · exact Or.inr (hblock none)
    · cases k with
      | zero => exact Or.inl ⟨kEof, 0, _, _, rfl, Or.inl rfl, rfl, rfl⟩
      | succ k => exact Or.inr (hblock (some (k, s)))
  · rw [if_neg hgoOn]
    split
    · exact Or.inl ⟨kBadHeader, _, [], _, rfl, Or.inr rfl, rfl, rfl⟩
    · exact Or.inl ⟨kEof, 0, [], _, rfl, Or.inl rfl, rfl, rfl⟩

/-- One round of the loop of `ReadPhysicalRecord`: its result, or another block after a trailer. -/
theorem readPhysicalRecord_round {r : Reader} (hchecksum : r.checksum = true) (fuel : ℕ) :
    (∃ p r', readPhysicalRecord (fuel + 1) r = some (p, r') ∧ Outcome r [] r' p ∧ r.Same r') ∨
    (∃ r', readPhysicalRecord (fuel + 1) r = readPhysicalRecord fuel r' ∧
      r.unread = r.buffer ++ r'.unread ∧ r.Same r' ∧ r.buffer.length < kRecyclableHeaderSize ∧
      r.eof = false ∧ (r'.eof = true ∨ kBlockSize ≤ r'.buffer.length)) := by
  -- another block is needed
  have hmore : ∀ (r₀ : Reader) (x : Option (Physical × Reader)),
      (∀ result, r₀.readMore = .error result → x = some result) →
      (∀ r', r₀.readMore = .ok r' → x = readPhysicalRecord fuel r') →
      r.Same r₀ → r₀.buffer = r.buffer → r₀.unread = r.unread → r₀.eof = r.eof →
      r.buffer.length < kRecyclableHeaderSize →
      (∃ p r', x = some (p, r') ∧ Outcome r [] r' p ∧ r.Same r') ∨
      (∃ r', x = readPhysicalRecord fuel r' ∧ r.unread = r.buffer ++ r'.unread ∧ r.Same r' ∧
        r.buffer.length < kRecyclableHeaderSize ∧ r.eof = false ∧
        (r'.eof = true ∨ kBlockSize ≤ r'.buffer.length)) := by
    intro r₀ x herror hok hsame hbuffer hunread heof hlen
    rcases readMore_cases r₀ with
      ⟨code, dropSize, reports, r', hread, hcode, hsame'⟩ | ⟨r', hread, htaken, hsame', hopen, -, hnext⟩
    · refine Or.inl ⟨_, r', herror _ hread, .ended hcode, ?_⟩
      exact ⟨hsame'.number.trans hsame.number, hsame'.checksum.trans hsame.checksum⟩
    · refine Or.inr ⟨r', hok _ hread, ?_, ?_, hlen, heof ▸ hopen, hnext⟩
      · rw [← hunread, htaken, hbuffer]
      · exact ⟨hsame'.number.trans hsame.number, hsame'.checksum.trans hsame.checksum⟩
  rw [readPhysicalRecord]
  by_cases hshort : r.buffer.length < kHeaderSize
  · rw [if_pos hshort]
    exact hmore r _ (fun _ hread => by rw [hread]) (fun _ hread => by rw [hread]) ⟨rfl, rfl⟩ rfl rfl rfl
      (by rw [kHeaderSize] at hshort; rw [kRecyclableHeaderSize]; omega)
  rw [if_neg hshort]
  dsimp only
  by_cases hrec : isRecyclable (headerType r.buffer) = true
  · rw [if_pos hrec]
    have hsize : headerSizeOf (headerType r.buffer) = kRecyclableHeaderSize := if_pos hrec
    obtain ⟨recycled, hset⟩ : ∃ recycled,
        (if r.endOfBufferOffset - r.buffer.length = 0 then { r with recycled := true } else r) =
          { r with recycled := recycled } := by
      split
      · exact ⟨true, rfl⟩
      · exact ⟨r.recycled, rfl⟩
    rw [hset]
    by_cases hsecond : r.buffer.length < kRecyclableHeaderSize
    · rw [if_pos hsecond]
      exact hmore { r with recycled := recycled } _ (fun _ hread => by rw [hread])
        (fun _ hread => by rw [hread]) ⟨rfl, rfl⟩ rfl rfl rfl hsecond
    rw [if_neg hsecond]
    by_cases hnumber : decodeFixed32 (r.buffer.drop 7) = r.logNumber.toNat
    · rw [if_neg (not_not.mpr hnumber)]
      obtain ⟨p, r', hbody, houtcome, hsame⟩ := readBody_outcome
        (r := { r with recycled := recycled }) hchecksum hsize (Nat.not_lt.mp hsecond) fun _ => hnumber
      refine Or.inl ⟨p, r', by rw [← hbody], ?_, hsame.number, hsame.checksum⟩
      cases houtcome with
      | fragment h hunread => exact .fragment h hunread
      | dropped dropSize hcode hlen hunread => exact .dropped dropSize hcode hlen hunread
      | old hunread => exact .old hunread
      | ended hcode => exact .ended hcode
    · rw [if_pos hnumber]
      exact Or.inl ⟨_, _, rfl, .old rfl, rfl, rfl⟩
  · rw [if_neg hrec]
    have hsize : headerSizeOf (headerType r.buffer) = kHeaderSize := if_neg hrec
    obtain ⟨p, r', hbody, houtcome, hsame⟩ := readBody_outcome hchecksum hsize (Nat.not_lt.mp hshort)
      fun hyes => absurd hyes hrec
    exact Or.inl ⟨p, r', by rw [hbody], houtcome, hsame⟩

/-- A call takes one round, or two where a trailer comes first. -/
theorem readPhysical_outcome {r : Reader} (hchecksum : r.checksum = true) :
    ∃ p r' skipped, r.readPhysical = some (p, r') ∧ Outcome r skipped r' p ∧
      skipped.length < kRecyclableHeaderSize ∧ r.Same r' := by
  rw [readPhysical]
  rcases readPhysicalRecord_round hchecksum (r.file.rest.length + 2) with
    ⟨p, r', hread, houtcome, hsame⟩ | ⟨r₁, hround, hskip, hsame₁, hlen, -, hnext⟩
  · exact ⟨p, r', [], hread, houtcome, by decide, hsame⟩
  rw [hround]
  rcases readPhysicalRecord_round (hsame₁.checksum.trans hchecksum) (r.file.rest.length + 1) with
    ⟨p, r', hread, houtcome, hsame⟩ | ⟨-, -, -, -, hlen₁, hopen, -⟩
  · refine ⟨p, r', r.buffer, hread, ?_, hlen, hsame.number.trans hsame₁.number,
      hsame.checksum.trans hsame₁.checksum⟩
    cases houtcome with
    | fragment h hunread => exact .fragment (hsame₁.number ▸ h) (hskip.trans (by rw [hunread]; rfl))
    | dropped dropSize hcode hlen' hunread =>
        exact .dropped dropSize hcode hlen' (hskip.trans (by rw [hunread]; rfl))
    | old hunread => exact .old (hskip.trans (by rw [hunread]; rfl))
    | ended hcode => exact .ended hcode
  · rcases hnext with heof | hfull
    · rw [hopen] at heof
      cases heof
    · rw [kBlockSize] at hfull
      rw [kRecyclableHeaderSize] at hlen₁
      omega

/-! ## The loop of `ReadRecord` -/

/-- All that `ReadRecord` makes of a result. -/
theorem turn_cases (mode : WALRecoveryMode) (r : Reader) (p : Physical) {inFragment : Bool}
    {scratch : Bytes} (hscratch : inFragment = false → scratch = []) :
    ∃ reports,
      r.turn mode p inFragment scratch = .done none reports ∨
      r.turn mode p inFragment scratch = .again false [] reports ∨
      (p.recordType = kFullType ∨ p.recordType = kRecyclableFullType) ∧
        r.turn mode p inFragment scratch = .done (some p.fragment) reports ∨
      (p.recordType = kFirstType ∨ p.recordType = kRecyclableFirstType) ∧
        r.turn mode p inFragment scratch = .again true p.fragment reports ∨
      (p.recordType = kMiddleType ∨ p.recordType = kRecyclableMiddleType) ∧ inFragment = true ∧
        r.turn mode p inFragment scratch = .again true (scratch ++ p.fragment) reports ∨
      (p.recordType = kLastType ∨ p.recordType = kRecyclableLastType) ∧ inFragment = true ∧
        r.turn mode p inFragment scratch = .done (some (scratch ++ p.fragment)) reports := by
  have hbad : ∀ reports, badRecord inFragment scratch reports =
      .again false [] (reports ++ abandon inFragment scratch "error in middle of record") := by
    intro reports
    rw [badRecord]
    cases inFragment with
    | false => rw [hscratch rfl]; rfl
    | true => rfl
  have horphan : ∀ reports, inFragment = false →
      Turn.again false scratch reports = .again false [] reports := by
    intro reports hno
    rw [hscratch hno]
  rw [turn]
  dsimp only
  by_cases hfull : p.recordType = kFullType ∨ p.recordType = kRecyclableFullType
  · rw [if_pos hfull]
    exact ⟨_, Or.inr (Or.inr (Or.inl ⟨hfull, rfl⟩))⟩
  rw [if_neg hfull]
  by_cases hfirst : p.recordType = kFirstType ∨ p.recordType = kRecyclableFirstType
  · rw [if_pos hfirst]
    exact ⟨_, Or.inr (Or.inr (Or.inr (Or.inl ⟨hfirst, rfl⟩)))⟩
  rw [if_neg hfirst]
  by_cases hmiddle : p.recordType = kMiddleType ∨ p.recordType = kRecyclableMiddleType
  · rw [if_pos hmiddle]
    by_cases hin : inFragment = true
    · rw [if_pos hin]
      exact ⟨_, Or.inr (Or.inr (Or.inr (Or.inr (Or.inl ⟨hmiddle, hin, rfl⟩))))⟩
    · rw [if_neg hin, horphan _ (Bool.eq_false_iff.mpr hin)]
      exact ⟨_, Or.inr (Or.inl rfl)⟩
  rw [if_neg hmiddle]
  by_cases hlast : p.recordType = kLastType ∨ p.recordType = kRecyclableLastType
  · rw [if_pos hlast]
    by_cases hin : inFragment = true
    · rw [if_pos hin]
      exact ⟨_, Or.inr (Or.inr (Or.inr (Or.inr (Or.inr ⟨hlast, hin, rfl⟩))))⟩
    · rw [if_neg hin, horphan _ (Bool.eq_false_iff.mpr hin)]
      exact ⟨_, Or.inr (Or.inl rfl)⟩
  rw [if_neg hlast]
  -- what is left has no fragment of a record
  split
  · exact ⟨_, Or.inl rfl⟩
  split
  · exact ⟨_, Or.inl rfl⟩
  split
  · split
    · exact ⟨_, Or.inl rfl⟩
    · exact ⟨_, Or.inr (Or.inl (hbad _))⟩
  split
  · exact ⟨_, Or.inr (Or.inl (hbad _))⟩
  split
  · exact ⟨_, Or.inl rfl⟩
  split
  · split
    · exact ⟨_, Or.inl rfl⟩
    · exact ⟨_, Or.inr (Or.inl (hbad _))⟩
  · exact ⟨_, Or.inr (Or.inl rfl)⟩

theorem turn_ended {mode : WALRecoveryMode} {r : Reader} {p : Physical} {inFragment : Bool}
    {scratch : Bytes} (hcode : p.recordType = kEof ∨ p.recordType = kBadHeader ∨
      p.recordType = kOldRecord ∧ mode ≠ .kSkipAnyCorruptedRecords) :
    ∃ reports, r.turn mode p inFragment scratch = .done none reports := by
  rcases hcode with hcode | hcode | ⟨hcode, hmode⟩
  · rw [turn, hcode]
    exact ⟨_, rfl⟩
  · rw [turn, hcode]
    exact ⟨_, rfl⟩
  · rw [turn, hcode]
    dsimp only
    rw [if_pos hmode]
    exact ⟨_, rfl⟩

/-- While a record is read from the bytes `u`: what stands in `scratch` has been begun right before
the reader. -/
structure Scanning (logNumber : UInt64) (u : Bytes) (r : Reader) (inFragment : Bool) (scratch : Bytes) :
    Prop where
  number : r.logNumber = logNumber
  checksum : r.checksum = true
  outside : inFragment = false → scratch = []
  consumed : ∃ skipped stretch, u = skipped ++ (stretch ++ r.unread) ∧
    (inFragment = true → Begun logNumber stretch scratch)

theorem Scanning.start {r : Reader} (hchecksum : r.checksum = true) :
    Scanning r.logNumber r.unread r false [] :=
  ⟨rfl, hchecksum, fun _ => rfl, [], [], rfl, fun hc => Bool.noConfusion hc⟩

/-- Nothing is kept of what was begun. -/
theorem Scanning.drop {logNumber : UInt64} {u consumed : Bytes} {r r' : Reader} {inFragment : Bool}
    {scratch : Bytes} (h : Scanning logNumber u r inFragment scratch) (hsame : r.Same r')
    (hunread : r.unread = consumed ++ r'.unread) : Scanning logNumber u r' false [] := by
  obtain ⟨skipped, stretch, hu, -⟩ := h.consumed
  refine ⟨hsame.number.trans h.number, hsame.checksum.trans h.checksum, fun _ => rfl,
    skipped ++ (stretch ++ consumed), [], ?_, fun hc => Bool.noConfusion hc⟩
  rw [hu, hunread]
  simp only [List.append_assoc, List.nil_append]

/-- A fragment that begins a record or ends it by itself. -/
theorem Scanning.fresh {logNumber : UInt64} {u trailer bytes : Bytes} {r r' : Reader} {inFragment : Bool}
    {scratch : Bytes} (h : Scanning logNumber u r inFragment scratch)
    (hunread : r.unread = trailer ++ (bytes ++ r'.unread)) :
    ∃ skipped, u = skipped ++ (bytes ++ r'.unread) := by
  obtain ⟨skipped, stretch, hu, -⟩ := h.consumed
  refine ⟨skipped ++ (stretch ++ trailer), ?_⟩
  rw [hu, hunread]
  simp only [List.append_assoc]

/-- A fragment that goes on with a record. -/
theorem Scanning.further {logNumber : UInt64} {u trailer bytes : Bytes} {r r' : Reader}
    {scratch : Bytes} (h : Scanning logNumber u r true scratch)
    (hunread : r.unread = trailer ++ (bytes ++ r'.unread)) :
    ∃ skipped stretch, u = skipped ++ ((stretch ++ (trailer ++ bytes)) ++ r'.unread) ∧
      Begun logNumber stretch scratch := by
  obtain ⟨skipped, stretch, hu, hbegun⟩ := h.consumed
  refine ⟨skipped, stretch, ?_, hbegun rfl⟩
  rw [hu, hunread]
  simp only [List.append_assoc]

/-- One turn of the loop of `ReadRecord`. -/
theorem Scanning.step (mode : WALRecoveryMode) {logNumber : UInt64} {u : Bytes} {r : Reader}
    {inFragment : Bool} {scratch : Bytes} (h : Scanning logNumber u r inFragment scratch) :
    ∃ p r', r.readPhysical = some (p, r') ∧ r.Same r' ∧
      ((∃ reports, r'.turn mode p inFragment scratch = .done none reports) ∨
      (∃ record reports, r'.turn mode p inFragment scratch = .done (some record) reports ∧
        ∃ skipped stretch, u = skipped ++ (stretch ++ r'.unread) ∧ Spells logNumber stretch record) ∨
      (∃ inFragment' scratch' reports,
        r'.turn mode p inFragment scratch = .again inFragment' scratch' reports ∧
        Scanning logNumber u r' inFragment' scratch' ∧
        (mode ≠ .kSkipAnyCorruptedRecords → r'.unread.length < r.unread.length))) := by
  obtain ⟨p, r', skipped, hread, houtcome, hskipped, hsame⟩ := readPhysical_outcome h.checksum
  refine ⟨p, r', hread, hsame, ?_⟩
  obtain ⟨reports, hturn⟩ := turn_cases mode r' p h.outside
  cases houtcome with
  | @fragment bytes payload t hfragment hunread =>
      rw [h.number] at hfragment
      have hshorter : r'.unread.length < r.unread.length := by
        have hlen := length_isFragment hfragment
        rw [kHeaderSize] at hlen
        rw [hunread, List.length_append, List.length_append]
        omega
      rcases hturn with hturn | hturn | ⟨ht, hturn⟩ | ⟨ht, hturn⟩ | ⟨ht, rfl, hturn⟩ | ⟨ht, rfl, hturn⟩
      · exact Or.inl ⟨reports, hturn⟩
      · refine Or.inr (Or.inr ⟨false, [], reports, hturn, ?_, fun _ => hshorter⟩)
        exact h.drop hsame (show r.unread = skipped ++ bytes ++ r'.unread by rw [hunread, List.append_assoc])
      · obtain ⟨before, hu⟩ := h.fresh hunread
        exact Or.inr (Or.inl ⟨payload, reports, hturn, before, bytes, hu, .full hfragment ht⟩)
      · obtain ⟨before, hu⟩ := h.fresh hunread
        refine Or.inr (Or.inr ⟨true, payload, reports, hturn, ?_, fun _ => hshorter⟩)
        exact ⟨hsame.number.trans h.number, hsame.checksum.trans h.checksum, fun hc => Bool.noConfusion hc,
          before, bytes, hu, fun _ => .first hfragment ht⟩
      · obtain ⟨before, stretch, hu, hbegun⟩ := h.further hunread
        refine Or.inr (Or.inr ⟨true, scratch ++ payload, reports, hturn, ?_, fun _ => hshorter⟩)
        exact ⟨hsame.number.trans h.number, hsame.checksum.trans h.checksum, fun hc => Bool.noConfusion hc,
          before, _, hu, fun _ => .middle hbegun hskipped hfragment ht⟩
      · obtain ⟨before, stretch, hu, hbegun⟩ := h.further hunread
        exact Or.inr (Or.inl ⟨_, reports, hturn, before, _, hu, .last hbegun hskipped hfragment ht⟩)
  | @dropped bytes code dropSize hcode hlen hunread =>
      have hshorter : r'.unread.length < r.unread.length := by
        rw [kHeaderSize] at hlen
        rw [hunread, List.length_append, List.length_append]
        omega
      have hnone : ∀ t, t ≤ kRecyclableLastType → code ≠ t := by
        intro t ht
        rcases hcode with rfl | rfl | rfl
        all_goals
          rintro rfl
          exact absurd ht (by decide)
      dsimp only at hturn
      rcases hturn with hturn | hturn | ⟨ht, -⟩ | ⟨ht, -⟩ | ⟨ht, -⟩ | ⟨ht, -⟩
      · exact Or.inl ⟨reports, hturn⟩
      · refine Or.inr (Or.inr ⟨false, [], reports, hturn, ?_, fun _ => hshorter⟩)
        exact h.drop hsame (show r.unread = skipped ++ bytes ++ r'.unread by rw [hunread, List.append_assoc])
      all_goals exact absurd ht (not_or.mpr ⟨hnone _ (by decide), hnone _ (by decide)⟩)
  | old hunread =>
      by_cases hmode : mode = .kSkipAnyCorruptedRecords
      · rcases hturn with hturn | hturn | ⟨ht, -⟩ | ⟨ht, -⟩ | ⟨ht, -⟩ | ⟨ht, -⟩
        · exact Or.inl ⟨reports, hturn⟩
        · exact Or.inr (Or.inr ⟨false, [], reports, hturn, h.drop hsame hunread, fun hc => absurd hmode hc⟩)
        all_goals exact absurd ht (by decide)
      · exact Or.inl (turn_ended (Or.inr (Or.inr ⟨rfl, hmode⟩)))
  | ended hcode =>
      rcases hcode with rfl | rfl
      · exact Or.inl (turn_ended (Or.inl rfl))
      · exact Or.inl (turn_ended (Or.inr (Or.inl rfl)))

/-- What the loop of `ReadRecord` returns. -/
theorem Scanning.loop {mode : WALRecoveryMode} {logNumber : UInt64} {u : Bytes} {fuel : ℕ} {r r' : Reader}
    {inFragment : Bool} {scratch : Bytes} {reports reports' : List Report} {record : Option Bytes}
    (h : Scanning logNumber u r inFragment scratch)
    (hread : readRecordLoop mode fuel r inFragment scratch reports = some (record, reports', r')) :
    r.Same r' ∧ ∀ x, record = some x →
      ∃ skipped stretch, u = skipped ++ (stretch ++ r'.unread) ∧ Spells logNumber stretch x := by
  induction fuel generalizing r inFragment scratch reports with
  | zero => cases hread
  | succ fuel ih =>
      obtain ⟨p, r₁, hphysical, hsame, hstep⟩ := h.step mode
      rw [readRecordLoop, hphysical] at hread
      dsimp only at hread
      rcases hstep with ⟨more, hturn⟩ | ⟨x, more, hturn, hspells⟩ | ⟨inFragment', scratch', more, hturn, h', -⟩
      · rw [hturn] at hread
        cases hread
        exact ⟨hsame, fun x hx => nomatch hx⟩
      · rw [hturn] at hread
        cases hread
        exact ⟨hsame, fun y hy => Option.some.inj hy ▸ hspells⟩
      · rw [hturn] at hread
        obtain ⟨hsame', hrecord⟩ := ih h' hread
        exact ⟨⟨hsame'.number.trans hsame.number, hsame'.checksum.trans hsame.checksum⟩, hrecord⟩

theorem Scanning.ends {mode : WALRecoveryMode} (hmode : mode ≠ .kSkipAnyCorruptedRecords)
    {logNumber : UInt64} {u : Bytes} {fuel : ℕ} {r : Reader} {inFragment : Bool} {scratch : Bytes}
    {reports : List Report} (h : Scanning logNumber u r inFragment scratch)
    (hfuel : r.unread.length < fuel) :
    ∃ result, readRecordLoop mode fuel r inFragment scratch reports = some result := by
  induction fuel generalizing r inFragment scratch reports with
  | zero => exact absurd hfuel (Nat.not_lt_zero _)
  | succ fuel ih =>
      obtain ⟨p, r₁, hphysical, hsame, hstep⟩ := h.step mode
      rw [readRecordLoop, hphysical]
      dsimp only
      rcases hstep with ⟨more, hturn⟩ | ⟨x, more, hturn, -⟩ | ⟨inFragment', scratch', more, hturn, h', hless⟩
      · rw [hturn]
        exact ⟨_, rfl⟩
      · rw [hturn]
        exact ⟨_, rfl⟩
      · rw [hturn]
        exact ih h' (by have := hless hmode; omega)

end Reader

/-! ## A whole log -/

def Event.record? : Event → Option Bytes
  | .record r => some r
  | .corruption _ => none

def records (events : List Event) : List Bytes := events.filterMap Event.record?

theorem records_append (l m : List Event) : records (l ++ m) = records l ++ records m :=
  List.filterMap_append

theorem records_corruption (reports : List Report) : records (reports.map .corruption) = [] := by
  induction reports with
  | nil => rfl
  | cons report reports ih => exact ih

theorem readLoop_scanned {mode : WALRecoveryMode} {calls : ℕ} {r : Reader} {events : List Event}
    (hchecksum : r.checksum = true) (h : readLoop mode calls r = some events) :
    Scanned r.logNumber r.unread (records events) := by
  induction calls generalizing r events with
  | zero => cases h
  | succ calls ih =>
      rw [readLoop] at h
      rcases hread : r.readRecord mode with - | ⟨record, reports, r'⟩
      · rw [hread] at h
        cases h
      rw [hread] at h
      obtain ⟨hsame, hrecord⟩ := (Scanning.start hchecksum).loop hread
      cases record with
      | none =>
          cases h
          rw [records_corruption]
          exact .nil _
      | some record =>
          obtain ⟨later, hlater, rfl⟩ := Option.map_eq_some_iff.mp h
          obtain ⟨skipped, stretch, hu, hspells⟩ := hrecord record rfl
          have hrest := ih (hsame.checksum.trans hchecksum) hlater
          rw [hsame.number] at hrest
          rw [records_append, records_corruption, List.nil_append, hu, ← List.append_assoc]
          exact .cons skipped hspells hrest

theorem readLoop_ends {mode : WALRecoveryMode} (hmode : mode ≠ .kSkipAnyCorruptedRecords) {calls : ℕ}
    {r : Reader} (hchecksum : r.checksum = true) (hcalls : r.unread.length < calls) :
    ∃ events, readLoop mode calls r = some events := by
  induction calls generalizing r with
  | zero => exact absurd hcalls (Nat.not_lt_zero _)
  | succ calls ih =>
      have hends : ∃ result, readRecordLoop mode (r.unread.length + 2) r false [] [] = some result :=
        (Scanning.start hchecksum).ends hmode (Nat.lt_add_of_pos_right Nat.zero_lt_two)
      obtain ⟨⟨record, reports, r'⟩, hread⟩ := hends
      rw [readLoop, readRecord, hread]
      cases record with
      | none => exact ⟨_, rfl⟩
      | some record =>
          obtain ⟨hsame, hrecord⟩ := (Scanning.start hchecksum).loop hread
          obtain ⟨skipped, stretch, hu, hspells⟩ := hrecord record rfl
          have hlen := congrArg List.length hu
          rw [List.length_append, List.length_append] at hlen
          have hpos := length_spells hspells
          obtain ⟨later, hlater⟩ := ih (hsame.checksum.trans hchecksum)
            (show r'.unread.length < calls by omega)
          dsimp only
          rw [hlater]
          exact ⟨_, rfl⟩

/-- Whatever is in the file and whichever read fails: the reader gets to an end unless it skips
corruptions, and every record it returns stands in the file. -/
theorem readLog_sound (mode : WALRecoveryMode) (r : Reader) (hchecksum : r.checksum = true) :
    (mode ≠ .kSkipAnyCorruptedRecords → ∃ events, readLog mode r = some events) ∧
      ∀ events, readLog mode r = some events → Scanned r.logNumber r.unread (records events) :=
  ⟨fun hmode => readLoop_ends hmode hchecksum (Nat.lt_succ_self _),
    fun _ hevents => readLoop_scanned hchecksum hevents⟩

/-- A fragment without a beginning, and behind it a record. -/
def strayFragment : Bytes :=
  Writer.physicalRecord ⟨0, 0, false⟩ kMiddleType [9] ++ (Writer.addRecord ⟨0, 0, false⟩ [1, 2, 3]).1

def strayReader : Reader := { file := ⟨strayFragment, none⟩ }

theorem readLog_sound_stray : ∃ events, readLog .kPointInTimeRecovery strayReader = some events ∧
    records events = [[1, 2, 3]] ∧ Scanned 0 strayFragment (records events) := by
  obtain ⟨hends, hsound⟩ := readLog_sound .kPointInTimeRecovery strayReader rfl
  obtain ⟨events, hevents⟩ := hends (by decide)
  have hread : (readLog .kPointInTimeRecovery strayReader).map records = some [[1, 2, 3]] := by
    decide +kernel
  rw [hevents] at hread
  exact ⟨events, hevents, Option.some.inj hread, hsound events hevents⟩

end AegonKV.Log
