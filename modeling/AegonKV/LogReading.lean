import AegonKV.LogFormat

/-!
# What the log reader does at a position

A reader stands at an offset of a block with certain bytes before it; its buffer holds what is left of
the block. It takes a whole fragment, goes over a trailer, and stops where the file ends.
-/

namespace AegonKV.Log
open LittleEndian AegonKV Crc32c

namespace Reader

/-- The reader has consumed `o` bytes of a block and has the bytes `u` before it. -/
structure At (r : Reader) (o : ℕ) (u : Bytes) : Prop where
  good : r.readError = false
  intact : r.file.failure = none
  unread : r.unread = u
  block : r.eof = false ∧ o + r.buffer.length = kBlockSize ∨
    r.eof = true ∧ o + r.buffer.length < kBlockSize ∧ r.file.rest = []

/-- The buffer is dropped, or a part of it consumed. -/
theorem At.advance {r : Reader} {o : ℕ} {u consumed buffer : Bytes} (h : r.At o u)
    (hbuffer : r.buffer = consumed ++ buffer) :
    ∃ u', u = consumed ++ u' ∧ At { r with buffer := buffer } (o + consumed.length) u' := by
  refine ⟨buffer ++ r.file.rest, ?_, h.good, h.intact, rfl, ?_⟩
  · rw [← h.unread, Reader.unread, hbuffer, List.append_assoc]
  · have hblock := h.block
    rw [hbuffer, List.length_append] at hblock
    rcases hblock with ⟨heof, hlen⟩ | ⟨heof, hlen, hrest⟩
    · exact Or.inl ⟨heof, by dsimp only; omega⟩
    · exact Or.inr ⟨heof, by dsimp only; omega, hrest⟩

/-- What is before the reader and fits into the block is in the buffer. -/
theorem At.buffer {r : Reader} {o : ℕ} {u bytes : Bytes} (h : r.At o (bytes ++ u))
    (hfits : o + bytes.length ≤ kBlockSize) : ∃ buffer, r.buffer = bytes ++ buffer := by
  have hunread := h.unread
  rw [Reader.unread] at hunread
  have hle : bytes.length ≤ r.buffer.length := by
    rcases h.block with ⟨-, hlen⟩ | ⟨-, -, hrest⟩
    · omega
    · rw [hrest, List.append_nil] at hunread
      rw [hunread, List.length_append]
      omega
  refine ⟨r.buffer.drop bytes.length, ?_⟩
  have htake : r.buffer.take bytes.length = bytes := by
    have heq := congrArg (List.take bytes.length) hunread
    rwa [List.take_append_of_le_length hle, List.take_left] at heq
  rw [← htake, List.length_take, Nat.min_eq_left hle, List.take_append_drop]

/-- Where a block is not filled the file ends. -/
theorem At.at_end {r : Reader} {o : ℕ} {u : Bytes} (h : r.At o u)
    (hshort : o + u.length < kBlockSize) : r.eof = true ∧ r.buffer = u ∧ r.file.rest = [] := by
  have hunread := h.unread
  rw [Reader.unread] at hunread
  rcases h.block with ⟨-, hlen⟩ | ⟨heof, -, hrest⟩
  · have hle := congrArg List.length hunread
    rw [List.length_append] at hle
    omega
  · rw [hrest, List.append_nil] at hunread
    exact ⟨heof, hunread, hrest⟩

/-! ## The end of a block -/

theorem readMore_ok {r : Reader} {u : Bytes} (h : r.At (kBlockSize - r.buffer.length) u)
    (heof : r.eof = false) :
    ∃ r', r.readMore = .ok r' ∧ r'.At 0 r.file.rest ∧ r'.logNumber = r.logNumber := by
  have hread : r.file.read kBlockSize =
      (.ok (r.file.rest.take kBlockSize), ⟨r.file.rest.drop kBlockSize, none⟩) := by
    rw [SequentialFile.read, h.intact]
  refine ⟨{ r with
    file := ⟨r.file.rest.drop kBlockSize, none⟩
    buffer := r.file.rest.take kBlockSize
    endOfBufferOffset := r.endOfBufferOffset + (r.file.rest.take kBlockSize).length
    eof := decide ((r.file.rest.take kBlockSize).length < kBlockSize) }, ?_, ⟨h.good, rfl, ?_, ?_⟩, rfl⟩
  · rw [readMore, heof, h.good]
    simp only [Bool.not_false, Bool.and_self, if_true, hread]
  · exact List.take_append_drop _ _
  · dsimp only
    rw [Nat.zero_add, List.length_take]
    by_cases hlen : r.file.rest.length < kBlockSize
    · refine Or.inr ⟨decide_eq_true (by omega), by omega, ?_⟩
      exact List.drop_eq_nil_of_le (by omega)
    · exact Or.inl ⟨decide_eq_false (by omega), by omega⟩

/-- The reader goes over the rest of a block that has no room for a header. -/
theorem At.skip {r : Reader} {o : ℕ} {trailer u : Bytes} (h : r.At o (trailer ++ u))
    (hblock : o + trailer.length = kBlockSize) (hlen : trailer.length < kHeaderSize) :
    ∃ r', r'.At 0 u ∧ r'.logNumber = r.logNumber ∧ r.eof = false ∧
      ∀ fuel, readPhysicalRecord (fuel + 1) r = readPhysicalRecord fuel r' := by
  obtain ⟨buffer, hbuffer⟩ := h.buffer hblock.le
  have hnil : buffer = [] ∧ r.eof = false := by
    have hcase := h.block
    rw [hbuffer, List.length_append] at hcase
    rcases hcase with ⟨heof, hlen'⟩ | ⟨-, hlen', -⟩
    · exact ⟨List.eq_nil_of_length_eq_zero (by omega), heof⟩
    · omega
  obtain ⟨rfl, heof⟩ := hnil
  rw [List.append_nil] at hbuffer
  have hrest : r.file.rest = u := by
    have hunread := h.unread
    rw [Reader.unread, hbuffer] at hunread
    exact List.append_cancel_left hunread
  have ho : o = kBlockSize - r.buffer.length := by
    rw [hbuffer]
    omega
  obtain ⟨r', hmore, hat, hnumber⟩ := readMore_ok (ho ▸ h) heof
  refine ⟨r', hrest ▸ hat, hnumber, heof, fun fuel => ?_⟩
  rw [readPhysicalRecord, if_pos (by rw [hbuffer]; exact hlen), hmore]

/-- The file ends where a fragment would begin, or within one. -/
structure Ends (p : Physical) (r : Reader) (clean : Prop) : Prop where
  reports : p.reports = []
  code : p.recordType = kEof ∧ clean ∨
    (p.recordType = kBadHeader ∨ p.recordType = kBadRecordLen ∧ r.eof = true) ∧ ¬clean

theorem readMore_at_end {r : Reader} (heof : r.eof = true) (hne : r.buffer ≠ []) :
    r.readMore = .error ({ recordType := kBadHeader, dropSize := r.buffer.length },
      { r with buffer := [] }) := by
  have hlen : r.buffer.length ≠ 0 := fun hzero => hne (List.eq_nil_of_length_eq_zero hzero)
  rw [readMore, heof]
  simp only [Bool.not_true, Bool.false_and, Bool.false_eq_true, if_false, hlen, ne_eq,
    not_false_eq_true, if_true]

/-- At the end of the file no header is left. -/
theorem At.stop {r : Reader} {o : ℕ} {u : Bytes} (h : r.At o u)
    (hshort : o + u.length < kBlockSize) (hlen : u.length < kHeaderSize) (fuel : ℕ) :
    ∃ p r', readPhysicalRecord (fuel + 1) r = some (p, r') ∧ Ends p r' (u = []) := by
  obtain ⟨heof, rfl, -⟩ := h.at_end hshort
  rw [readPhysicalRecord, if_pos hlen]
  by_cases hnil : r.buffer = []
  · refine ⟨{ recordType := kEof }, r, ?_, rfl, Or.inl ⟨rfl, hnil⟩⟩
    rw [readMore, heof, hnil]
    rfl
  · rw [readMore_at_end heof hnil]
    exact ⟨_, _, rfl, rfl, Or.inr ⟨Or.inl rfl, hnil⟩⟩

/-! ## Fragments -/

def headerSizeOf (type : ℕ) : ℕ := if isRecyclable type then kRecyclableHeaderSize else kHeaderSize

/-- The bytes of a fragment with a good checksum, for a reader of that log number. -/
structure IsFragment (logNumber : UInt64) (bytes : Bytes) (type : ℕ) (payload : Bytes) : Prop where
  body : bytes.drop (headerSizeOf type) = payload
  size : bytes.length = headerSizeOf type + payload.length
  typed : headerType bytes = type
  sized : headerLength bytes = payload.length
  number : isRecyclable type = true → decodeFixed32 (bytes.drop 7) = logNumber.toNat
  checksum : value (bytes.drop 6) = unmask (BitVec.ofNat 32 (decodeFixed32 bytes))
  notZero : ¬(type = kZeroType ∧ payload.length = 0)

theorem headerSizeOf_bounds (type : ℕ) : 7 ≤ headerSizeOf type ∧ headerSizeOf type ≤ 11 := by
  rw [headerSizeOf]
  split <;> decide

theorem getD_append_left {bytes u : Bytes} {i : ℕ} (h : i < bytes.length) :
    (bytes ++ u).getD i 0 = bytes.getD i 0 := by
  rw [List.getD_eq_getElem?_getD, List.getD_eq_getElem?_getD, List.getElem?_append_left h]

theorem headerType_append {bytes : Bytes} (u : Bytes) (h : 7 ≤ bytes.length) :
    headerType (bytes ++ u) = headerType bytes := by
  rw [headerType, headerType, getD_append_left (by omega)]

theorem headerLength_append {bytes : Bytes} (u : Bytes) (h : 7 ≤ bytes.length) :
    headerLength (bytes ++ u) = headerLength bytes := by
  rw [headerLength, headerLength, getD_append_left (by omega), getD_append_left (by omega)]

theorem decodeFixed32_append {bytes : Bytes} (u : Bytes) (h : 4 ≤ bytes.length) :
    decodeFixed32 (bytes ++ u) = decodeFixed32 bytes := by
  rw [decodeFixed32, decodeFixed32, List.take_append_of_le_length h]

/-- The body of a fragment that is in the buffer. -/
theorem IsFragment.readBody {logNumber : UInt64} {bytes payload : Bytes} {type : ℕ}
    (h : IsFragment logNumber bytes type payload) {r : Reader} {buffer : Bytes}
    (hbuffer : r.buffer = bytes ++ buffer) :
    r.readBody type payload.length (headerSizeOf type) =
      ({ recordType := type, fragment := payload }, { r with buffer := buffer }) := by
  have hbounds := headerSizeOf_bounds type
  have hsize := h.size
  have hnot : ¬ headerSizeOf type + payload.length > r.buffer.length := by
    rw [hbuffer, List.length_append]
    omega
  have hsum : (value ((r.buffer.drop 6).take (payload.length + headerSizeOf type - 6)) !=
      unmask (BitVec.ofNat 32 (decodeFixed32 r.buffer))) = false := by
    have htake : (r.buffer.drop 6).take (payload.length + headerSizeOf type - 6) = bytes.drop 6 := by
      rw [hbuffer, List.drop_append_of_le_length (by omega)]
      exact List.take_left' (by rw [List.length_drop]; omega)
    rw [htake, hbuffer, decodeFixed32_append _ (by omega), h.checksum]
    exact bne_self_eq_false _
  have hfragment : (r.buffer.drop (headerSizeOf type)).take payload.length = payload := by
    rw [hbuffer, List.drop_append_of_le_length (by omega), h.body, List.take_left]
  have hrest : r.buffer.drop (headerSizeOf type + payload.length) = buffer := by
    rw [hbuffer, ← h.size, List.drop_left]
  rw [Reader.readBody, if_neg hnot, if_neg h.notZero, hsum, Bool.and_false, if_neg Bool.false_ne_true,
    hfragment, hrest]

/-- `ReadPhysicalRecord` where the header of a fragment is in the buffer. -/
theorem readPhysicalRecord_header {r : Reader} {bytes payload : Bytes} {type : ℕ}
    (h : IsFragment r.logNumber bytes type payload) (hle : headerSizeOf type ≤ r.buffer.length)
    (hheader : r.buffer.take (headerSizeOf type) = bytes.take (headerSizeOf type)) (fuel : ℕ) :
    ∃ recycled, readPhysicalRecord (fuel + 1) r =
      some (readBody { r with recycled := recycled } type payload.length (headerSizeOf type)) := by
  have hbounds := headerSizeOf_bounds type
  have hsize := h.size
  have hsame : r.buffer = bytes.take (headerSizeOf type) ++ r.buffer.drop (headerSizeOf type) := by
    rw [← hheader, List.take_append_drop]
  have hlen : (bytes.take (headerSizeOf type)).length = headerSizeOf type := by
    rw [List.length_take]
    omega
  have hwhole : bytes = bytes.take (headerSizeOf type) ++ bytes.drop (headerSizeOf type) :=
    (List.take_append_drop _ _).symm
  have htype : headerType r.buffer = type := by
    rw [hsame, headerType_append _ (by omega), ← headerType_append (bytes.drop (headerSizeOf type))
      (by omega), ← hwhole, h.typed]
  have hlength : headerLength r.buffer = payload.length := by
    rw [hsame, headerLength_append _ (by omega), ← headerLength_append (bytes.drop (headerSizeOf type))
      (by omega), ← hwhole, h.sized]
  have hfirst : ¬ r.buffer.length < kHeaderSize := by
    rw [kHeaderSize]
    omega
  rw [readPhysicalRecord, if_neg hfirst, htype, hlength]
  dsimp only
  cases hrec : isRecyclable type with
  | false =>
      refine ⟨r.recycled, ?_⟩
      rw [headerSizeOf, hrec]
      rfl
  | true =>
      have hsizeOf : headerSizeOf type = kRecyclableHeaderSize := by rw [headerSizeOf, hrec, if_pos rfl]
      have hnum : decodeFixed32 (r.buffer.drop 7) = r.logNumber.toNat := by
        have hdrop : 4 ≤ ((bytes.take (headerSizeOf type)).drop 7).length := by
          rw [List.length_drop, hlen, hsizeOf]
          decide
        have hb := h.number hrec
        rw [hwhole, List.drop_append_of_le_length (by omega), decodeFixed32_append _ hdrop] at hb
        rw [hsame, List.drop_append_of_le_length (by omega), decodeFixed32_append _ hdrop, hb]
      rw [if_pos rfl]
      by_cases hstart : r.endOfBufferOffset - r.buffer.length = 0
      · refine ⟨true, ?_⟩
        rw [if_pos hstart, if_neg (by rw [← hsizeOf]; exact Nat.not_lt.mpr hle),
          if_neg (not_not.mpr hnum), hsizeOf]
      · refine ⟨r.recycled, ?_⟩
        rw [if_neg hstart, if_neg (by rw [← hsizeOf]; exact Nat.not_lt.mpr hle),
          if_neg (not_not.mpr hnum), hsizeOf]

/-- The reader takes a fragment that is before it. -/
theorem At.fragment {r : Reader} {o : ℕ} {bytes payload u : Bytes} {type : ℕ}
    (h : r.At o (bytes ++ u)) (hf : IsFragment r.logNumber bytes type payload)
    (hfits : o + bytes.length ≤ kBlockSize) (fuel : ℕ) :
    ∃ r', readPhysicalRecord (fuel + 1) r = some ({ recordType := type, fragment := payload }, r') ∧
      r'.At (o + bytes.length) u ∧ r'.logNumber = r.logNumber := by
  obtain ⟨buffer, hbuffer⟩ := h.buffer hfits
  have hle : headerSizeOf type ≤ r.buffer.length := by
    rw [hbuffer, List.length_append, hf.size]
    omega
  have hheader : r.buffer.take (headerSizeOf type) = bytes.take (headerSizeOf type) := by
    rw [hbuffer, List.take_append_of_le_length (by rw [hf.size]; omega)]
  obtain ⟨recycled, hread⟩ := readPhysicalRecord_header hf hle hheader fuel
  refine ⟨{ r with recycled := recycled, buffer := buffer }, ?_, ?_, rfl⟩
  · rw [hread, hf.readBody (r := { r with recycled := recycled }) hbuffer]
  · obtain ⟨u', hu, hat⟩ := h.advance hbuffer
    obtain rfl := List.append_cancel_left hu
    exact ⟨hat.good, hat.intact, hat.unread, hat.block⟩

/-- The file ends within a fragment. -/
theorem At.torn {r : Reader} {o k : ℕ} {bytes payload : Bytes} {type : ℕ}
    (h : r.At o (bytes.take k)) (hf : IsFragment r.logNumber bytes type payload)
    (hfits : o + bytes.length ≤ kBlockSize) (hk : k < bytes.length) (fuel : ℕ) :
    ∃ p r', readPhysicalRecord (fuel + 1) r = some (p, r') ∧ Ends p r' (k = 0) := by
  have hlen : (bytes.take k).length = k := by
    rw [List.length_take]
    omega
  have hnil : bytes.take k = [] ↔ k = 0 := by
    rw [← List.length_eq_zero_iff, hlen]
  obtain ⟨heof, hbuffer, -⟩ := h.at_end (by omega)
  have hbounds := headerSizeOf_bounds type
  by_cases hshort : k < kHeaderSize
  · obtain ⟨p, r', hread, hends⟩ := h.stop (by omega) (by omega) fuel
    exact ⟨p, r', hread, hends.reports, by rw [← hnil]; exact hends.code⟩
  rw [kHeaderSize] at hshort
  have hne : k ≠ 0 := by omega
  by_cases hheader : headerSizeOf type ≤ k
  · -- the header is there and says how long the fragment is
    have hsame : r.buffer.take (headerSizeOf type) = bytes.take (headerSizeOf type) := by
      rw [hbuffer, List.take_take, Nat.min_eq_left hheader]
    obtain ⟨recycled, hread⟩ := readPhysicalRecord_header hf (by rw [hbuffer, hlen]; exact hheader)
      hsame fuel
    have hlong : headerSizeOf type + payload.length > r.buffer.length := by
      rw [hbuffer, hlen, ← hf.size]
      exact hk
    rw [hread, Reader.readBody, if_pos hlong]
    exact ⟨_, _, rfl, rfl, Or.inr ⟨Or.inr ⟨rfl, heof⟩, hne⟩⟩
  · -- there are seven bytes of the longer header
    have hrec : isRecyclable type = true := by
      by_contra hno
      rw [headerSizeOf, if_neg hno] at hheader
      exact hheader (Nat.not_lt.mp hshort)
    have htype : headerType r.buffer = type := by
      have hwhole := headerType_append (bytes.drop k) (show 7 ≤ (bytes.take k).length by omega)
      rw [List.take_append_drop, hf.typed] at hwhole
      rw [hbuffer, ← hwhole]
    have hfirst : ¬ r.buffer.length < kHeaderSize := by
      rw [hbuffer, hlen, kHeaderSize]
      exact hshort
    have hsecond : r.buffer.length < kRecyclableHeaderSize := by
      rw [headerSizeOf, if_pos hrec] at hheader
      rw [hbuffer, hlen]
      omega
    have hbne : r.buffer ≠ [] := by
      rw [hbuffer]
      exact fun hc => hne (hnil.mp hc)
    rw [readPhysicalRecord, if_neg hfirst, htype]
    dsimp only
    rw [if_pos hrec]
    by_cases hstart : r.endOfBufferOffset - r.buffer.length = 0
    · rw [if_pos hstart, if_pos hsecond,
        readMore_at_end (r := { r with recycled := true }) heof hbne]
      exact ⟨_, _, rfl, rfl, Or.inr ⟨Or.inl rfl, hne⟩⟩
    · rw [if_neg hstart, if_pos hsecond, readMore_at_end heof hbne]
      exact ⟨_, _, rfl, rfl, Or.inr ⟨Or.inl rfl, hne⟩⟩

/-! ## Trailers of a recyclable log -/

/-- Seven zeros look like a header. -/
theorem readPhysicalRecord_zeros {r : Reader} {n : ℕ} (hbuffer : r.buffer = List.replicate n 0)
    (hn : kHeaderSize ≤ n) (fuel : ℕ) :
    readPhysicalRecord (fuel + 1) r = some ({ recordType := kBadRecord }, { r with buffer := [] }) := by
  have hlen : r.buffer.length = n := by rw [hbuffer, List.length_replicate]
  have hzero : ∀ i, r.buffer.getD i 0 = 0 := by
    intro i
    rw [hbuffer, List.getD_eq_getElem?_getD, List.getElem?_replicate]
    split <;> rfl
  have htype : headerType r.buffer = kZeroType := by
    rw [headerType, hzero]
    rfl
  have hlength : headerLength r.buffer = 0 := by
    rw [headerLength, hzero, hzero]
    rfl
  have hnot : ¬ kHeaderSize + 0 > r.buffer.length := by
    rw [hlen]
    omega
  rw [readPhysicalRecord, if_neg (by rw [hlen]; omega), htype, hlength]
  dsimp only
  rw [if_neg (by decide), Reader.readBody, if_neg hnot, if_pos ⟨rfl, rfl⟩]

/-- What is dropped of a block that the file does not end in, or ends in. -/
theorem At.dropBuffer {r : Reader} {o : ℕ} {u : Bytes} (h : r.At o u) :
    ∃ u', u = r.buffer ++ u' ∧ At { r with buffer := [] } (o + r.buffer.length) u' :=
  h.advance (List.append_nil _).symm

end Reader

end AegonKV.Log
