import AegonKV.BlobFileRoundTrip
import AegonKV.TransitionSystem

/-!
# Where a blob file iterator stands

`BlobFileIterator` keeps the offset of the next record and its index in two counters. `Next` moves
both, `IterateForPrev` sets both, and `SeekToFirst` sets only the offset. The calls may come in any
order on a file whose records lie in a row between the header and the end of the records.
-/

namespace AegonKV.BlobFileIterator
open LittleEndian TransitionSystem

/-! ## `IterateForPrev` -/

/-- The loop over the record headers, with `total_length`; nothing for it where the function has
returned. Every turn reads a header that lies in the file. -/
def prevLoop (offset : UInt64) :
    ℕ → BlobFileIterator → UInt64 → BlobFileIterator × Option UInt64
  | 0, it, _ => (it, none)
  | fuel + 1, it, totalLength =>
    if it.iterateOffset < offset then
      match BlobDecoder.decodeHeader (readFile it.file it.iterateOffset.toNat kRecordHeaderSize) with
      | .error status => ({ it with status := status }, none)
      | .ok (decoder, _) =>
        let totalLength := UInt64.ofNat kRecordHeaderSize + decoder.recordSize.toUInt64
        prevLoop offset fuel
          { it with
            status := .ok
            iterateOffset := it.iterateOffset + totalLength
            iterateIndex := it.iterateIndex + 1 } totalLength
    else (it, some totalLength)

def settle (offset : UInt64) (it : BlobFileIterator) (totalLength : UInt64) : BlobFileIterator :=
  let it :=
    if it.iterateOffset > offset then
      { it with
        iterateOffset := it.iterateOffset - totalLength
        iterateIndex := it.iterateIndex - 1 }
    else it
  { it with valid := false }

def iterateForPrev (it : BlobFileIterator) (offset : UInt64) : BlobFileIterator :=
  let (it, ok) := if it.init then (it, true) else it.runInit
  if !ok then it
  else if offset ≥ it.endOfBlobRecord then
    { it with status := .invalidArgument "Out of bound", iterateOffset := offset }
  else
    match prevLoop offset (it.file.length + 1)
      { it with status := .ok, iterateOffset := it.headerSize, iterateIndex := 0 } 0 with
    | (it, none) => it
    | (it, some totalLength) => it.settle offset totalLength

variable {uncompress : Bytes → UInt8 → Bytes → Except Status Bytes}
  {compress : Bytes → Bytes × UInt8} {it it' : BlobFileIterator} {offset : ℕ}
  {records : List BlobRecord} {rest : Bytes}

/-- `IterateForPrev` after `Init`. -/
theorem iterateForPrev_of_init (hinit : it.init = true) (t : UInt64) :
    it.iterateForPrev t =
      if t ≥ it.endOfBlobRecord then
        { it with status := .invalidArgument "Out of bound", iterateOffset := t }
      else
        match prevLoop t (it.file.length + 1)
          { it with status := .ok, iterateOffset := it.headerSize, iterateIndex := 0 } 0 with
        | (it, none) => it
        | (it, some totalLength) => it.settle t totalLength := by
  unfold iterateForPrev
  rw [if_pos hinit]
  rfl

theorem seekToFirst_of_init (hinit : it.init = true) :
    it.seekToFirst uncompress =
      { it with status := .ok, iterateOffset := it.headerSize }.prefetchAndGet uncompress := by
  unfold seekToFirst
  rw [if_pos hinit]
  rfl

/-! ## What the calls leave as it is -/

/-- `Init` has made `it'`, and nothing has changed it since but the position. -/
structure Opened (it' it : BlobFileIterator) : Prop where
  file : it.file = it'.file
  fileNumber : it.fileNumber = it'.fileNumber
  fileEntries : it.fileEntries = it'.fileEntries
  endOfBlobRecord : it.endOfBlobRecord = it'.endOfBlobRecord
  uncompressionDict : it.uncompressionDict = it'.uncompressionDict
  headerSize : it.headerSize = it'.headerSize
  init : it.init = true

theorem Opened.stands (h : Opened it' it) {o i : ℕ} (hstatus : it.status = .ok)
    (hoffset : it.iterateOffset = UInt64.ofNat o) (hindex : it.iterateIndex = UInt64.ofNat i) :
    Stands it' it o i :=
  ⟨h.file, h.fileNumber, h.fileEntries, h.endOfBlobRecord, h.uncompressionDict, hstatus, hoffset,
    hindex⟩

theorem Opened.moved (h : Opened it' it) (status : Status) (valid : Bool) (o i : UInt64) :
    Opened it' { it with
      status := status, valid := valid, iterateOffset := o, iterateIndex := i } :=
  ⟨h.file, h.fileNumber, h.fileEntries, h.endOfBlobRecord, h.uncompressionDict, h.headerSize, h.init⟩

theorem Opened.getBlobRecord (h : Opened it' it) : Opened it' (it.getBlobRecord uncompress) := by
  obtain ⟨h1, h2, h3, h4, h5, h6, h7⟩ := h
  unfold BlobFileIterator.getBlobRecord
  split
  · exact ⟨h1, h2, h3, h4, h5, h6, h7⟩
  · dsimp only
    split <;> exact ⟨h1, h2, h3, h4, h5, h6, h7⟩

theorem Opened.prefetchAndGet (h : Opened it' it) : Opened it' (it.prefetchAndGet uncompress) := by
  unfold BlobFileIterator.prefetchAndGet
  split_ifs
  · exact h.moved _ _ _ _
  · exact h.getBlobRecord

theorem Opened.prevLoop (h : Opened it' it) (t : UInt64) (fuel : ℕ) (total : UInt64) :
    Opened it' (BlobFileIterator.prevLoop t fuel it total).1 := by
  induction fuel generalizing it total with
  | zero => exact h
  | succ fuel ih =>
      unfold BlobFileIterator.prevLoop
      split_ifs
      · split
        · exact h.moved _ _ _ _
        · exact ih (h.moved _ _ _ _) _
      · exact h

theorem Opened.settle (h : Opened it' it) (t total : UInt64) : Opened it' (it.settle t total) := by
  unfold BlobFileIterator.settle
  split_ifs
  · exact h.moved _ _ _ _
  · exact h.moved _ _ _ _

/-! ## Over a row of records -/

/-- The loop moves over a stored record by its length. -/
theorem prevLoop_stored {o i : ℕ} (h : Stands it' it o i) {r : BlobRecord} {rest : Bytes}
    (hs : r.Storable compress (uncompress it'.uncompressionDict))
    (hdrop : it'.file.drop o = BlobEncoder.encodeRecord compress r ++ rest)
    {t : UInt64} (hbound : o + (BlobEncoder.encodeRecord compress r).length < 2 ^ 64)
    (hlt : o < t.toNat) (fuel : ℕ) (total : UInt64) :
    ∃ next, Stands it' next (o + (BlobEncoder.encodeRecord compress r).length) (i + 1) ∧
      prevLoop t (fuel + 1) it total =
        prevLoop t fuel next (UInt64.ofNat (BlobEncoder.encodeRecord compress r).length) := by
  have hoffset : it.iterateOffset.toNat = o := by
    rw [h.offset, UInt64.toNat_ofNat', Nat.mod_eq_of_lt (by omega)]
  have hbefore : it.iterateOffset < t := by
    rw [UInt64.lt_iff_toNat_lt, hoffset]
    exact hlt
  have hheader : BlobDecoder.decodeHeader
      (readFile it.file it.iterateOffset.toNat kRecordHeaderSize) =
      .ok (BlobEncoder.decoder compress r.encodeTo, []) := by
    rw [h.file, hoffset]
    exact decodeHeader_stored hdrop
  refine ⟨{ it with
      status := .ok
      iterateOffset := it.iterateOffset +
        UInt64.ofNat (BlobEncoder.encodeRecord compress r).length
      iterateIndex := it.iterateIndex + 1 },
    ⟨h.file, h.fileNumber, h.fileEntries, h.endOfBlobRecord, h.uncompressionDict, rfl, ?_, ?_⟩, ?_⟩
  · rw [h.offset, UInt64.ofNat_add]
  · rw [h.index, UInt64.ofNat_add]
    rfl
  · rw [prevLoop, if_pos hbefore, hheader]
    simp only [ofNat_length_encodeRecord hs.payload]

theorem Stands.toNat_offset {o i : ℕ} (h : Stands it' it o i) (hbound : o < 2 ^ 64) :
    it.iterateOffset.toNat = o := by
  rw [h.offset, UInt64.toNat_ofNat', Nat.mod_eq_of_lt hbound]

/-- The loop stops at a record that starts at the offset or behind it. -/
theorem prevLoop_stops {o i : ℕ} (h : Stands it' it o i) (hbound : o < 2 ^ 64) {t : UInt64}
    (hle : t.toNat ≤ o) (fuel : ℕ) (total : UInt64) :
    prevLoop t (fuel + 1) it total = (it, some total) := by
  have hnot : ¬ it.iterateOffset < t := by
    rw [UInt64.lt_iff_toNat_lt, h.toNat_offset hbound]
    omega
  rw [prevLoop, if_neg hnot]

theorem Stands.settle_at {o i : ℕ} (h : Stands it' it o i) (hbound : o < 2 ^ 64) {t : UInt64}
    (heq : t.toNat = o) (total : UInt64) : Stands it' (it.settle t total) o i := by
  have hnot : ¬ it.iterateOffset > t := by
    rw [gt_iff_lt, UInt64.lt_iff_toNat_lt, h.toNat_offset hbound]
    omega
  rw [settle, if_neg hnot]
  exact ⟨h.file, h.fileNumber, h.fileEntries, h.endOfBlobRecord, h.uncompressionDict, h.status,
    h.offset, h.index⟩

/-- Behind the record that holds the offset, one record back. -/
theorem Stands.settle_back {o i length : ℕ} (h : Stands it' it (o + length) (i + 1))
    (hbound : o + length < 2 ^ 64) {t : UInt64} (hlt : t.toNat < o + length) :
    Stands it' (it.settle t (UInt64.ofNat length)) o i := by
  have hbehind : it.iterateOffset > t := by
    rw [gt_iff_lt, UInt64.lt_iff_toNat_lt, h.toNat_offset hbound]
    exact hlt
  rw [settle, if_pos hbehind]
  refine ⟨h.file, h.fileNumber, h.fileEntries, h.endOfBlobRecord, h.uncompressionDict, h.status,
    ?_, ?_⟩
  · change it.iterateOffset - UInt64.ofNat length = UInt64.ofNat o
    rw [h.offset, UInt64.ofNat_add, UInt64.add_sub_cancel]
  · change it.iterateIndex - 1 = UInt64.ofNat i
    rw [h.index, UInt64.ofNat_add]
    exact UInt64.add_sub_cancel _ _

/-- The loop ends before the row does where the offset lies in it, and `settle` goes to the record
that holds the offset. -/
theorem prevLoop_row {o i fuel : ℕ} (h : Stands it' it o i)
    (hs : ∀ r ∈ records, r.Storable compress (uncompress it'.uncompressionDict))
    (hdrop : it'.file.drop o = records.flatMap (BlobEncoder.encodeRecord compress) ++ rest)
    (hbound : o + storedLength compress records < 2 ^ 64) {t : UInt64} (hlo : o ≤ t.toNat)
    (hhi : t.toNat < o + storedLength compress records) (hfuel : records.length < fuel)
    (total : UInt64) :
    ∃ m last length, m < records.length ∧
      o + storedLength compress (records.take m) ≤ t.toNat ∧
      t.toNat < o + storedLength compress (records.take (m + 1)) ∧
      prevLoop t fuel it total = (last, some length) ∧
      Stands it' (last.settle t length) (o + storedLength compress (records.take m)) (i + m) := by
  induction records generalizing it o i fuel total with
  | nil =>
      rw [storedLength, List.flatMap_nil, List.length_nil] at hhi
      omega
  | cons r records ih =>
      obtain ⟨fuel, rfl⟩ : ∃ n, fuel = n + 2 := ⟨fuel - 2, by rw [List.length_cons] at hfuel; omega⟩
      rw [storedLength_cons] at hbound hhi
      rw [List.flatMap_cons, List.append_assoc] at hdrop
      have hr := hs r List.mem_cons_self
      obtain heq | hlt := hlo.eq_or_lt
      · refine ⟨0, it, total, Nat.succ_pos _, ?_, ?_, prevLoop_stops h (by omega) heq.ge _ _, ?_⟩
        · simp [storedLength, heq]
        · have hpos := BlobEncoder.encodeRecord_pos compress r
          simp [storedLength, ← heq, hpos]
        · exact h.settle_at (by omega) heq.symm total
      · obtain ⟨next, hnext, hloop⟩ := prevLoop_stored h hr hdrop (by omega) hlt (fuel + 1) total
        by_cases hin : t.toNat < o + (BlobEncoder.encodeRecord compress r).length
        · refine ⟨0, next, UInt64.ofNat (BlobEncoder.encodeRecord compress r).length,
            Nat.succ_pos _, ?_, ?_, ?_, ?_⟩
          · simp [storedLength, hlt.le]
          · simpa [storedLength] using hin
          · rw [hloop, prevLoop_stops hnext (by omega) hin.le]
          · exact hnext.settle_back (by omega) hin
        · have hrest : it'.file.drop (o + (BlobEncoder.encodeRecord compress r).length) =
              records.flatMap (BlobEncoder.encodeRecord compress) ++ rest := by
            rw [← List.drop_drop, hdrop, List.drop_left]
          have hfuel' : records.length < fuel + 1 := by
            rw [List.length_cons] at hfuel
            omega
          obtain ⟨m, last, length, hm, hle, hgt, hresult, hlast⟩ :=
            ih hnext (fun q hq => hs q (List.mem_cons_of_mem _ hq)) hrest (by omega) (by omega)
              (by omega) hfuel' _
          refine ⟨m + 1, last, length, Nat.succ_lt_succ hm, ?_, ?_, hloop.trans hresult, ?_⟩
          · rw [List.take_succ_cons, storedLength_cons]
            omega
          · rw [List.take_succ_cons, storedLength_cons]
            omega
          · rw [List.take_succ_cons, storedLength_cons, ← Nat.add_assoc, Nat.add_comm m,
              ← Nat.add_assoc]
            exact hlast

/-! ## Positions in a file -/

/-- Where record `k` starts, and for the number of records the end of the last one. -/
def position (compress : Bytes → Bytes × UInt8) (offset : ℕ) (records : List BlobRecord) (k : ℕ) : ℕ :=
  offset + storedLength compress (records.take k)

/-- `it'` is the iterator after `Init` on a file whose records lie in a row between the header and
the end of the records. -/
structure InRow (uncompress : Bytes → UInt8 → Bytes → Except Status Bytes)
    (compress : Bytes → Bytes × UInt8) (it' : BlobFileIterator) (offset : ℕ)
    (records : List BlobRecord) (rest : Bytes) : Prop where
  init : it'.init = true
  headerSize : it'.headerSize = UInt64.ofNat offset
  storable : ∀ r ∈ records, r.Storable compress (uncompress it'.uncompressionDict)
  row : it'.file.drop offset = records.flatMap (BlobEncoder.encodeRecord compress) ++ rest
  ends : it'.endOfBlobRecord = UInt64.ofNat (offset + storedLength compress records)
  fits : offset + storedLength compress records < 2 ^ 64
  entries : records.length ≤ it'.fileEntries.toNat

/-- The iterator is valid and shows record `i` with its place and its index. -/
def OnRecord (compress : Bytes → Bytes × UInt8) (offset : ℕ) (records : List BlobRecord) (i : ℕ)
    (it : BlobFileIterator) : Prop :=
  it.isValid = true ∧ ∃ r handle, (handles compress offset 0 records)[i]? = some (r, handle) ∧
    it.curBlobRecord = r ∧
    it.getBlobIndex = { fileNumber := it.fileNumber, blobHandle := handle }

/-- The iterator stands before record `k`, and shows the one before it if it shows any. -/
structure At (compress : Bytes → Bytes × UInt8) (it' : BlobFileIterator) (offset : ℕ)
    (records : List BlobRecord) (k : ℕ) (it : BlobFileIterator) : Prop where
  opened : Opened it' it
  stands : Stands it' it (position compress offset records k) k
  le : k ≤ records.length
  shows : it.valid = true → ∃ i, k = i + 1 ∧ OnRecord compress offset records i it

/-- `IterateForPrev` was called with an offset behind the records. -/
structure Outside (it' : BlobFileIterator) (records : List BlobRecord) (it : BlobFileIterator) :
    Prop where
  opened : Opened it' it
  status : it.status.isOk = false
  offset : it.iterateOffset ≥ it'.endOfBlobRecord
  index : ∃ k ≤ records.length, it.iterateIndex = UInt64.ofNat k

theorem handles_getElem? (offset index : ℕ) {records : List BlobRecord} {i : ℕ} {r : BlobRecord}
    (hi : records[i]? = some r) :
    (handles compress offset index records)[i]? =
      some (r, ⟨UInt64.ofNat (position compress offset records i),
        UInt64.ofNat (BlobEncoder.encodeRecord compress r).length, UInt64.ofNat (index + i)⟩) := by
  induction records generalizing offset index i with
  | nil => cases hi
  | cons q records ih =>
      cases i with
      | zero =>
          obtain rfl : q = r := Option.some.inj hi
          simp [handles, position, storedLength]
      | succ i =>
          rw [handles, List.getElem?_cons_succ, ih _ _ hi]
          simp only [position, List.take_succ_cons, storedLength_cons, Nat.add_assoc,
            Nat.add_comm 1 i]

theorem position_succ {k : ℕ} {r : BlobRecord} (hk : records[k]? = some r) :
    position compress offset records (k + 1) =
      position compress offset records k + (BlobEncoder.encodeRecord compress r).length := by
  rw [position, List.take_add_one, hk, storedLength_append, position, Nat.add_assoc]
  simp [storedLength]

theorem position_le (k : ℕ) :
    position compress offset records k ≤ offset + storedLength compress records := by
  conv_rhs => rw [← List.take_append_drop k records, storedLength_append]
  exact Nat.add_le_add_left (Nat.le_add_right _ _) _

namespace InRow

variable (h : InRow uncompress compress it' offset records rest)
include h

theorem drop_position (k : ℕ) : it'.file.drop (position compress offset records k) =
    (records.drop k).flatMap (BlobEncoder.encodeRecord compress) ++ rest := by
  have hrow := h.row
  conv_rhs at hrow => rw [← List.take_append_drop k records, List.flatMap_append, List.append_assoc]
  rw [position, ← List.drop_drop, hrow, storedLength, List.drop_left]

theorem toNat_end : it'.endOfBlobRecord.toNat = offset + storedLength compress records := by
  rw [h.ends, UInt64.toNat_ofNat', Nat.mod_eq_of_lt h.fits]

/-- From before record `k` the iterator goes onto it. -/
theorem next_on {k : ℕ} (ho : Opened it' it)
    (hst : Stands it' it (position compress offset records k) k) (hk : k < records.length) :
    At compress it' offset records (k + 1) (it.prefetchAndGet uncompress) ∧
      OnRecord compress offset records k (it.prefetchAndGet uncompress) := by
  have hget : records[k]? = some records[k] := List.getElem?_eq_getElem hk
  have hdrop := h.drop_position k
  rw [List.drop_eq_getElem_cons hk, List.flatMap_cons, List.append_assoc] at hdrop
  have hend : position compress offset records k +
      (BlobEncoder.encodeRecord compress records[k]).length ≤ it'.endOfBlobRecord.toNat := by
    rw [h.toNat_end, ← position_succ hget]
    exact position_le _
  obtain ⟨hstep, hvalid, hrecord, hindex⟩ := hst.step (h.storable _ (List.getElem_mem hk)) hdrop hend
    (hk.trans_le h.entries)
  have ho' : Opened it' (it.prefetchAndGet uncompress) := ho.prefetchAndGet
  have hon : OnRecord compress offset records k (it.prefetchAndGet uncompress) := by
    refine ⟨hvalid, records[k], _, handles_getElem? offset 0 hget, hrecord, ?_⟩
    rw [hindex, ho'.fileNumber, Nat.zero_add]
  rw [← position_succ hget] at hstep
  exact ⟨⟨ho', hstep, hk, fun _ => ⟨k, rfl, hon⟩⟩, hon⟩

/-- Behind the last record the iterator stays. -/
theorem next_end (ho : Opened it' it)
    (hst : Stands it' it (position compress offset records records.length) records.length) :
    At compress it' offset records records.length (it.prefetchAndGet uncompress) ∧
      (it.prefetchAndGet uncompress).valid = false := by
  have hguard : (it.iterateOffset ≥ it.endOfBlobRecord || it.iterateIndex ≥ it.fileEntries) = true := by
    rw [hst.offset, ho.endOfBlobRecord, h.ends, position, List.take_length]
    simp
  rw [prefetchAndGet, if_pos hguard]
  refine ⟨⟨ho.moved _ _ _ _, ?_, le_rfl, fun hv => (by cases hv)⟩, rfl⟩
  · exact ⟨hst.file, hst.fileNumber, hst.fileEntries, hst.endOfBlobRecord, hst.uncompressionDict,
      hst.status, hst.offset, hst.index⟩

/-- A turn of `Next` from any place between the records. -/
theorem next_at {k : ℕ} (ho : Opened it' it)
    (hst : Stands it' it (position compress offset records k) k) (hk : k ≤ records.length) :
    ∃ j, At compress it' offset records j (it.prefetchAndGet uncompress) := by
  obtain rfl | hlt := hk.eq_or_lt
  · exact ⟨_, (h.next_end ho hst).1⟩
  · exact ⟨_, (h.next_on ho hst hlt).1⟩

omit h in
theorem next_outside (ho : Outside it' records it) :
    Outside it' records (it.prefetchAndGet uncompress) := by
  have hguard : (it.iterateOffset ≥ it.endOfBlobRecord || it.iterateIndex ≥ it.fileEntries) = true := by
    rw [ho.opened.endOfBlobRecord]
    simp [ho.offset]
  rw [prefetchAndGet, if_pos hguard]
  exact ⟨ho.opened.moved _ _ _ _, ho.status, ho.offset, ho.index⟩

/-- The length of the file is enough turns for the loop. -/
theorem length_lt : records.length < it'.file.length + 1 := by
  have hlen := congrArg List.length h.row
  have hcount := length_le_storedLength compress records
  rw [List.length_drop, List.length_append] at hlen
  rw [storedLength] at hcount
  omega

/-- `IterateForPrev` stops before the record that holds the offset. -/
theorem iterateForPrev_inside (ho : Opened it' it) {t : UInt64} (hlo : offset ≤ t.toNat)
    (hhi : t.toNat < offset + storedLength compress records) :
    ∃ m < records.length, position compress offset records m ≤ t.toNat ∧
      t.toNat < position compress offset records (m + 1) ∧
      At compress it' offset records m (it.iterateForPrev t) ∧ (it.iterateForPrev t).valid = false := by
  let start : BlobFileIterator :=
    { it with status := .ok, iterateOffset := it.headerSize, iterateIndex := 0 }
  have hstart : Opened it' start := ho.moved _ _ _ _
  have hst : Stands it' start offset 0 := by
    refine hstart.stands rfl ?_ rfl
    exact ho.headerSize.trans h.headerSize
  obtain ⟨m, last, length, hm, hle, hgt, hloop, hlast⟩ := prevLoop_row hst h.storable h.row h.fits hlo
    hhi h.length_lt 0
  have hopened : Opened it' last := by
    have := hstart.prevLoop t (it'.file.length + 1) 0
    rwa [hloop] at this
  have hnot : ¬ t ≥ it.endOfBlobRecord := by
    rw [ge_iff_le, UInt64.le_iff_toNat_le, ho.endOfBlobRecord, h.toNat_end]
    omega
  have heq : it.iterateForPrev t = last.settle t length := by
    rw [← ho.file] at hloop
    rw [iterateForPrev_of_init ho.init, if_neg hnot]
    simp only [start] at hloop
    rw [hloop]
  rw [heq]
  refine ⟨m, hm, hle, hgt, ⟨hopened.settle t length, ?_, hm.le, fun hv => (by cases hv)⟩, rfl⟩
  rw [Nat.zero_add] at hlast
  exact hlast

theorem iterateForPrev_outside (ho : Opened it' it) {t : UInt64}
    (hhi : offset + storedLength compress records ≤ t.toNat)
    (hindex : ∃ k ≤ records.length, it.iterateIndex = UInt64.ofNat k) :
    Outside it' records (it.iterateForPrev t) := by
  have hbehind : t ≥ it.endOfBlobRecord := by
    rw [ge_iff_le, UInt64.le_iff_toNat_le, ho.endOfBlobRecord, h.toNat_end]
    exact hhi
  rw [iterateForPrev_of_init ho.init, if_pos hbehind]
  refine ⟨ho.moved _ _ _ _, rfl, ?_, hindex⟩
  rw [ho.endOfBlobRecord] at hbehind
  exact hbehind

end InRow

/-! ## Sequences of calls -/

inductive Call
  | seekToFirst
  | next
  | iterateForPrev (offset : UInt64)

namespace Call

def apply (uncompress : Bytes → UInt8 → Bytes → Except Status Bytes) (it : BlobFileIterator) :
    Call → BlobFileIterator
  | .seekToFirst => it.seekToFirst uncompress
  | .next => it.next uncompress
  | .iterateForPrev t => it.iterateForPrev t

def step (uncompress : Bytes → UInt8 → Bytes → Except Status Bytes) (it : BlobFileIterator)
    (c : Call) : Option BlobFileIterator := some (c.apply uncompress it)

/-- The index is where `SeekToFirst` needs it, or `IterateForPrev` does not go into the header. -/
def Allowed (headerSize : ℕ) (it : BlobFileIterator) : Call → Prop
  | .seekToFirst => it.iterateIndex = 0
  | .next => True
  | .iterateForPrev t => headerSize ≤ t.toNat

end Call

/-- What `Init` sets. -/
theorem runInit_frame {it it' : BlobFileIterator} (h : it.runInit = (it', true)) :
    it'.init = true ∧ it'.iterateIndex = it.iterateIndex ∧ it'.file = it.file ∧
      it'.fileNumber = it.fileNumber ∧ it'.fileEntries = it.fileEntries := by
  obtain ⟨header, slice, -, -, ⟨-, dict, -, rfl⟩ | ⟨-, rfl⟩⟩ := runInit_succeeds h
  · exact ⟨rfl, rfl, rfl, rfl, rfl⟩
  · exact ⟨rfl, rfl, rfl, rfl, rfl⟩

structure Usable (it' : BlobFileIterator) (records : List BlobRecord) (it : BlobFileIterator) :
    Prop where
  opened : Opened it' it
  index : ∃ k ≤ records.length, it.iterateIndex = UInt64.ofNat k

theorem At.usable {k : ℕ} (h : At compress it' offset records k it) : Usable it' records it :=
  ⟨h.opened, k, h.le, h.stands.index⟩

theorem Outside.usable (h : Outside it' records it) : Usable it' records it := ⟨h.opened, h.index⟩

/-- Between two records, or behind them with an error. -/
def Somewhere (compress : Bytes → Bytes × UInt8) (it' : BlobFileIterator) (offset : ℕ)
    (records : List BlobRecord) (it : BlobFileIterator) : Prop :=
  (∃ k, At compress it' offset records k it) ∨ Outside it' records it

theorem Somewhere.usable (h : Somewhere compress it' offset records it) : Usable it' records it := by
  obtain ⟨k, hat⟩ | hout := h
  · exact hat.usable
  · exact hout.usable

namespace InRow

variable (h : InRow uncompress compress it' offset records rest)
include h

/-- The iterator as `SeekToFirst` leaves it to `PrefetchAndGet`. -/
theorem stands_first (hu : Usable it' records it) (hindex : it.iterateIndex = 0) :
    Opened it' { it with status := .ok, iterateOffset := it.headerSize } ∧
      Stands it' { it with status := .ok, iterateOffset := it.headerSize }
        (position compress offset records 0) 0 := by
  have ho := hu.opened
  have hopened : Opened it' { it with status := .ok, iterateOffset := it.headerSize } :=
    ho.moved _ _ _ _
  exact ⟨hopened, hopened.stands rfl (ho.headerSize.trans h.headerSize) hindex⟩

theorem seekToFirst_on (hu : Usable it' records it) (hindex : it.iterateIndex = 0)
    (hne : records ≠ []) : OnRecord compress offset records 0 (it.seekToFirst uncompress) := by
  obtain ⟨hopened, hst⟩ := h.stands_first hu hindex
  rw [seekToFirst_of_init hu.opened.init]
  exact (h.next_on hopened hst (List.length_pos_iff.mpr hne)).2

theorem usable_step (hu : Usable it' records it) {c : Call} (hnext : c ≠ .next)
    (hc : c.Allowed offset it) : Somewhere compress it' offset records (c.apply uncompress it) := by
  cases c with
  | next => exact absurd rfl hnext
  | seekToFirst =>
      obtain ⟨hopened, hst⟩ := h.stands_first hu hc
      left
      rw [Call.apply, seekToFirst_of_init hu.opened.init]
      exact h.next_at hopened hst (Nat.zero_le _)
  | iterateForPrev t =>
      by_cases hin : t.toNat < offset + storedLength compress records
      · obtain ⟨m, -, -, -, hat, -⟩ := h.iterateForPrev_inside hu.opened hc hin
        exact .inl ⟨m, hat⟩
      · exact .inr (h.iterateForPrev_outside hu.opened (Nat.le_of_not_lt hin) hu.index)

theorem somewhere_step (hw : Somewhere compress it' offset records it) {c : Call}
    (hc : c.Allowed offset it) : Somewhere compress it' offset records (c.apply uncompress it) := by
  by_cases hnext : c = .next
  · subst hnext
    obtain ⟨k, hat⟩ | hout := hw
    · exact .inl (h.next_at hat.opened hat.stands hat.le)
    · exact .inr (next_outside hout)
  · exact h.usable_step hw.usable hnext hc

end InRow

/-- Before `Init`, or somewhere in the file. -/
def Reached (compress : Bytes → Bytes × UInt8) (fresh it' : BlobFileIterator) (offset : ℕ)
    (records : List BlobRecord) (it : BlobFileIterator) : Prop :=
  it = fresh ∨ Somewhere compress it' offset records it

section

variable {file : Bytes} {fileNumber fileEntries : UInt64}
  (h : InRow uncompress compress it' offset records rest)
  (hnew : (new file fileNumber fileEntries).runInit = (it', true))
include h hnew

/-- The first call other than `Next` does what it does after `Init`. -/
theorem apply_fresh {c : Call} (hnext : c ≠ .next) :
    c.apply uncompress (new file fileNumber fileEntries) = c.apply uncompress it' := by
  cases c with
  | next => exact absurd rfl hnext
  | seekToFirst =>
      rw [Call.apply, Call.apply, seekToFirst_of_init h.init, seekToFirst, hnew]
      rfl
  | iterateForPrev t =>
      rw [Call.apply, Call.apply, iterateForPrev_of_init h.init, iterateForPrev, hnew]
      rfl

omit h in
theorem usable_fresh (hinit : it'.init = true) : Usable it' records it' := by
  have hframe := runInit_frame hnew
  exact ⟨⟨rfl, rfl, rfl, rfl, rfl, rfl, hinit⟩, 0, Nat.zero_le _, hframe.2.1⟩

theorem reached_step (hw : Reached compress (new file fileNumber fileEntries) it' offset records it)
    {c : Call} (hc : c.Allowed offset it) :
    Reached compress (new file fileNumber fileEntries) it' offset records (c.apply uncompress it) := by
  obtain rfl | hw := hw
  · by_cases hnext : c = .next
    · -- `Next` finds nothing before `Init`
      subst hnext
      left
      rfl
    · right
      rw [apply_fresh h hnew hnext]
      refine h.usable_step (usable_fresh hnew h.init) hnext ?_
      cases c with
      | next => trivial
      | seekToFirst => exact (runInit_frame hnew).2.1
      | iterateForPrev t => exact hc
  · exact .inr (h.somewhere_step hw hc)

theorem reached_run {calls : List Call}
    (hr : run (Call.step uncompress) (new file fileNumber fileEntries) calls = some it)
    (hm : Meets (Call.step uncompress) (Call.Allowed offset) (new file fileNumber fileEntries) calls) :
    Reached compress (new file fileNumber fileEntries) it' offset records it := by
  refine run_invariant (fun s c s' hs hc hstep => ?_) (.inl rfl) hm hr
  obtain rfl := Option.some.inj hstep
  exact reached_step h hnew hs hc

/-- All calls but `Next` do before `Init` what they do after it. -/
theorem reached_usable (hw : Reached compress (new file fileNumber fileEntries) it' offset records it) :
    ∃ u, Usable it' records u ∧ u.iterateIndex = it.iterateIndex ∧
      u.seekToFirst uncompress = it.seekToFirst uncompress ∧
      ∀ t, u.iterateForPrev t = it.iterateForPrev t := by
  obtain rfl | hw := hw
  · refine ⟨it', usable_fresh hnew h.init, (runInit_frame hnew).2.1, ?_, fun t => ?_⟩
    · exact (apply_fresh h hnew (fun hc => (by cases hc) : Call.seekToFirst ≠ .next)).symm
    · exact (apply_fresh h hnew (fun hc => (by cases hc) : Call.iterateForPrev t ≠ .next)).symm
  · exact ⟨it, hw.usable, rfl, rfl, fun _ => rfl⟩

omit h hnew in
theorem reached_valid (hw : Reached compress (new file fileNumber fileEntries) it' offset records it)
    (hvalid : it.isValid = true) : ∃ i, OnRecord compress offset records i it := by
  obtain rfl | ⟨k, hat⟩ | hout := hw
  · cases hvalid
  · have hflag : it.valid = true := (Bool.and_eq_true_iff.mp hvalid).1
    obtain ⟨i, -, hon⟩ := hat.shows hflag
    exact ⟨i, hon⟩
  · rw [isValid, hout.status, Bool.and_false] at hvalid
    cases hvalid

end

theorem position_mono (compress : Bytes → Bytes × UInt8) (offset : ℕ) (records : List BlobRecord)
    {j k : ℕ} (hjk : j ≤ k) :
    position compress offset records j ≤ position compress offset records k := by
  have htake : records.take k = records.take j ++ (records.take k).drop j := by
    rw [List.drop_take, ← List.take_add, Nat.add_sub_cancel' hjk]
  rw [position, position, htake, storedLength_append]
  omega

namespace InRow

variable (h : InRow uncompress compress it' offset records rest)
include h

/-- With another index than 0 the first record is not shown as what it is. -/
theorem index_of_seekToFirst (hu : Usable it' records it)
    (hon : OnRecord compress offset records 0 (it.seekToFirst uncompress)) : it.iterateIndex = 0 := by
  obtain ⟨hvalid, r, handle, hitem, -, hindex⟩ := hon
  cases hrecords : records with
  | nil =>
      rw [hrecords] at hitem
      cases hitem
  | cons q qs =>
      have hzero : handle.index = 0 := by
        rw [hrecords, handles] at hitem
        obtain ⟨-, rfl⟩ := Prod.mk.inj (Option.some.inj hitem)
        rfl
      let start : BlobFileIterator := { it with status := .ok, iterateOffset := it.headerSize }
      have hfits := h.fits
      have hoffset : start.iterateOffset.toNat = offset := by
        change it.headerSize.toNat = offset
        rw [hu.opened.headerSize, h.headerSize, UInt64.toNat_ofNat', Nat.mod_eq_of_lt (by omega)]
      have hdrop : start.file.drop start.iterateOffset.toNat = BlobEncoder.encodeRecord compress q ++
          (qs.flatMap (BlobEncoder.encodeRecord compress) ++ rest) := by
        rw [hoffset, ← List.append_assoc, ← List.flatMap_cons, ← hrecords, ← h.row]
        exact congrArg (List.drop offset) hu.opened.file
      have hstorable : q.Storable compress (uncompress start.uncompressionDict) := by
        have hq := h.storable q (hrecords ▸ List.mem_cons_self)
        rwa [← hu.opened.uncompressionDict] at hq
      have hroom : start.iterateOffset.toNat + kRecordHeaderSize < 2 ^ 64 := by
        have hlen := BlobEncoder.length_encodeSlice compress q.encodeTo
        rw [hrecords, storedLength_cons, BlobEncoder.encodeRecord, hlen] at hfits
        omega
      rw [seekToFirst_of_init hu.opened.init] at hvalid hindex
      change (start.prefetchAndGet uncompress).isValid = true at hvalid
      change (start.prefetchAndGet uncompress).getBlobIndex = _ at hindex
      unfold prefetchAndGet at hvalid hindex
      split_ifs at hvalid hindex
      · cases hvalid
      · rw [getBlobRecord_stored hstorable hdrop hroom] at hindex
        have hequal : start.iterateIndex = handle.index := congrArg (fun b => b.blobHandle.index) hindex
        exact hequal.trans hzero

/-- An offset inside the header leaves an index that is behind all entries. -/
theorem iterateForPrev_header (hu : Usable it' records it) {t : UInt64} (hlt : t.toNat < offset) :
    ((it.iterateForPrev t).next uncompress).valid = false := by
  have ho := hu.opened
  have hfits := h.fits
  let start : BlobFileIterator :=
    { it with status := .ok, iterateOffset := it.headerSize, iterateIndex := 0 }
  have hstart : Opened it' start := ho.moved _ _ _ _
  have hst : Stands it' start offset 0 :=
    hstart.stands rfl (ho.headerSize.trans h.headerSize) rfl
  have hnot : ¬ t ≥ it.endOfBlobRecord := by
    rw [ge_iff_le, UInt64.le_iff_toNat_le, ho.endOfBlobRecord, h.toNat_end]
    omega
  have hloop : prevLoop t (it.file.length + 1) start 0 = (start, some 0) :=
    prevLoop_stops hst (by omega) hlt.le _ _
  have hbehind : start.iterateOffset > t := by
    rw [gt_iff_lt, UInt64.lt_iff_toNat_lt, hst.toNat_offset (by omega)]
    exact hlt
  have heq : it.iterateForPrev t = start.settle t 0 := by
    simp only [start] at hloop
    rw [iterateForPrev_of_init ho.init, if_neg hnot, hloop]
  have hmax : (start.settle t 0).iterateIndex = kNoFileEntries := by
    rw [settle, if_pos hbehind]
    rfl
  have hguard : ((start.settle t 0).iterateOffset ≥ (start.settle t 0).endOfBlobRecord ||
      (start.settle t 0).iterateIndex ≥ (start.settle t 0).fileEntries) = true := by
    rw [hmax, Bool.or_eq_true, decide_eq_true_eq, decide_eq_true_eq]
    right
    rw [ge_iff_le, UInt64.le_iff_toNat_le]
    have := (start.settle t 0).fileEntries.toNat_lt
    have hlast : kNoFileEntries.toNat = 2 ^ 64 - 1 := rfl
    omega
  rw [heq, next, prefetchAndGet, if_pos hguard]

/-- `IterateForPrev` and `Next` go to the record that holds the offset. -/
theorem iterateForPrev_next (hu : Usable it' records it) {t : UInt64} {i : ℕ} {r : BlobRecord}
    (hi : records[i]? = some r) (hlo : position compress offset records i ≤ t.toNat)
    (hhi : t.toNat < position compress offset records (i + 1)) :
    OnRecord compress offset records i ((it.iterateForPrev t).next uncompress) := by
  have hbegin : offset ≤ position compress offset records i := Nat.le_add_right _ _
  have hinside : t.toNat < offset + storedLength compress records := hhi.trans_le (position_le _)
  obtain ⟨m, hm, hle, hgt, hat, -⟩ := h.iterateForPrev_inside hu.opened (hbegin.trans hlo) hinside
  obtain rfl : m = i := by
    obtain hlt | rfl | hlt := Nat.lt_trichotomy m i
    · have hmono : position compress offset records (m + 1) ≤ position compress offset records i :=
        position_mono _ _ _ hlt
      omega
    · rfl
    · have hmono : position compress offset records (i + 1) ≤ position compress offset records m :=
        position_mono _ _ _ hlt
      omega
  exact (h.next_on hat.opened hat.stands hm).2

end InRow

/-! ## Well-formed files -/

/-- The bytes between the records and the footer, as the comment of `Init` lists them. -/
def blocksLength (header : BlobFileHeader) (dict : Bytes) (handle : BlockHandle) : ℕ :=
  (if handle.isNull then 0 else handle.size.toNat + kBlockTrailerSize) +
    if header.flags &&& BlobFileHeader.kHasUncompressionDictionary ≠ 0 then
      dict.length + kBlockTrailerSize
    else 0

/-- A header, the records, the blocks that header and footer announce, and the footer. -/
structure Holds (uncompress : Bytes → UInt8 → Bytes → Except Status Bytes)
    (compress : Bytes → Bytes × UInt8) (header : BlobFileHeader) (dict : Bytes)
    (records : List BlobRecord) (file : Bytes) : Prop where
  headerWellFormed : header.WellFormed
  storable : ∀ r ∈ records, r.Storable compress (uncompress dict)
  fits : file.length < 2 ^ 64
  layout : ∃ blocks handle pad,
    file = header.encodeTo ++ records.flatMap (BlobEncoder.encodeRecord compress) ++ blocks ++
      BlobFileFooter.sealArea (handle.encodeTo ++ pad) ∧
    (handle.encodeTo ++ pad).length = BlobFileFooter.kEncodedLength - 12 ∧
    blocks.length = blocksLength header dict handle ∧
    if header.flags &&& BlobFileHeader.kHasUncompressionDictionary ≠ 0 then
      initUncompressionDict ⟨handle⟩ file = .ok dict
    else dict = []

/-- The subtractions of `Init` take away what lies behind the records. -/
theorem ofNat_sub_blocks (header : BlobFileHeader) (dict : Bytes) (handle : BlockHandle) (n : ℕ) :
    UInt64.ofNat (n + blocksLength header dict handle) - trailing handle -
      (if header.flags &&& BlobFileHeader.kHasUncompressionDictionary ≠ 0 then
        UInt64.ofNat dict.length + UInt64.ofNat kBlockTrailerSize
      else 0) = UInt64.ofNat n := by
  have hhandle : UInt64.ofNat (if handle.isNull then 0 else handle.size.toNat + kBlockTrailerSize) =
      trailing handle := by
    rw [trailing]
    split_ifs
    · rfl
    · rw [UInt64.ofNat_add, UInt64.ofNat_toNat]
  rw [blocksLength, ← Nat.add_assoc, UInt64.ofNat_add, UInt64.ofNat_add, hhandle]
  split_ifs
  · rw [UInt64.ofNat_add, UInt64.add_assoc, UInt64.add_comm (trailing handle), ← UInt64.add_assoc,
      UInt64.add_sub_cancel, UInt64.add_sub_cancel]
  · rw [UInt64.sub_zero]
    exact (congrArg (· - _) (UInt64.add_zero _)).trans (UInt64.add_sub_cancel _ _)

section

variable {header : BlobFileHeader} {dict file : Bytes}

/-- `Init` succeeds on a well-formed file and finds the records. -/
theorem Holds.runInit (h : Holds uncompress compress header dict records file)
    (fileNumber : UInt64) {fileEntries : UInt64} (hentries : records.length ≤ fileEntries.toNat) :
    ∃ it' rest, (new file fileNumber fileEntries).runInit = (it', true) ∧
      InRow uncompress compress it' header.size records rest := by
  obtain ⟨blocks, handle, pad, hfile, hpad, hblocks, hdict⟩ := h.layout
  have hsize := BlobFileHeader.length_encodeTo h.headerWellFormed
  have hfits := h.fits
  have hheader : BlobFileReader.readHeader file = .ok header := by
    rw [hfile, List.append_assoc, List.append_assoc]
    exact BlobFileReader.readHeader_append h.headerWellFormed _
  have hend : endOfRecords file (UInt64.ofNat file.length) =
      (UInt64.ofNat (header.size + storedLength compress records + blocksLength header dict handle) -
        trailing handle, ⟨handle⟩) := by
    rw [hfile] at hfits ⊢
    rw [endOfRecords_append _ hpad hfits, List.length_append, List.length_append, hsize, hblocks]
    rfl
  have hrow : file.drop header.size = records.flatMap (BlobEncoder.encodeRecord compress) ++
      (blocks ++ BlobFileFooter.sealArea (handle.encodeTo ++ pad)) := by
    rw [hfile, List.append_assoc, List.append_assoc, List.drop_left' hsize]
  have hroom : header.size + storedLength compress records < 2 ^ 64 := by
    rw [hfile] at hfits
    simp only [List.length_append, hsize] at hfits
    rw [storedLength]
    omega
  have hread : preadFile file (UInt64.ofNat file.length - UInt64.ofNat BlobFileFooter.kEncodedLength)
      (UInt64.ofNat BlobFileFooter.kEncodedLength) =
      .ok (BlobFileFooter.sealArea (handle.encodeTo ++ pad)) := by
    rw [hfile] at hfits ⊢
    exact preadFile_footer _ (BlobFileFooter.length_sealArea hpad) hfits
  have hsub := ofNat_sub_blocks header dict handle (header.size + storedLength compress records)
  by_cases hflag : header.flags &&& BlobFileHeader.kHasUncompressionDictionary ≠ 0
  · rw [if_pos hflag] at hdict hsub
    refine ⟨{ new file fileNumber fileEntries with
      headerSize := UInt64.ofNat header.size
      init := true
      uncompressionDict := dict
      endOfBlobRecord := UInt64.ofNat (header.size + storedLength compress records) }, _, ?_,
      ⟨rfl, rfl, h.storable, hrow, rfl, hroom, hentries⟩⟩
    simp only [BlobFileIterator.runInit, new, hheader, hread, hend, hdict, if_pos hflag, hsub]
  · rw [if_neg hflag] at hdict hsub
    rw [UInt64.sub_zero] at hsub
    subst hdict
    refine ⟨{ new file fileNumber fileEntries with
      headerSize := UInt64.ofNat header.size
      init := true
      endOfBlobRecord := UInt64.ofNat (header.size + storedLength compress records) }, _, ?_,
      ⟨rfl, rfl, h.storable, hrow, rfl, hroom, hentries⟩⟩
    simp only [BlobFileIterator.runInit, new, hheader, hread, footerStatus_sealArea hpad, hend,
      if_neg hflag, hsub]

/-- Where the calls should go: `SeekToFirst` to the first record, and `IterateForPrev` with `Next`
to the record that holds the offset, or to the first one from inside the header. -/
def Call.Exact (uncompress : Bytes → UInt8 → Bytes → Except Status Bytes)
    (compress : Bytes → Bytes × UInt8) (headerSize : ℕ) (records : List BlobRecord)
    (it : BlobFileIterator) : Call → Prop
  | .seekToFirst =>
    records ≠ [] → OnRecord compress headerSize records 0 (it.seekToFirst uncompress)
  | .next => True
  | .iterateForPrev t =>
    (∀ i r handle, (handles compress headerSize 0 records)[i]? = some (r, handle) →
      handle.offset.toNat ≤ t.toNat → t.toNat < handle.offset.toNat + handle.size.toNat →
      OnRecord compress headerSize records i ((it.iterateForPrev t).next uncompress)) ∧
    (t.toNat < headerSize → records ≠ [] →
      OnRecord compress headerSize records 0 ((it.iterateForPrev t).next uncompress))

namespace InRow

variable (h : InRow uncompress compress it' offset records rest)
include h

/-- The record of a handle whose range holds an offset, in positions. -/
theorem handle_range {i : ℕ} {r : BlobRecord} {handle : BlobHandle}
    (hi : (handles compress offset 0 records)[i]? = some (r, handle)) :
    records[i]? = some r ∧ handle.offset.toNat = position compress offset records i ∧
      handle.offset.toNat + handle.size.toNat = position compress offset records (i + 1) := by
  have hlt : i < records.length := by
    rw [← length_handles compress offset 0]
    exact (List.getElem?_eq_some_iff.mp hi).1
  have hget : records[i]? = some records[i] := List.getElem?_eq_getElem hlt
  rw [handles_getElem? offset 0 hget] at hi
  obtain ⟨rfl, rfl⟩ := Prod.mk.inj (Option.some.inj hi)
  have hfits := h.fits
  have hnext : position compress offset records (i + 1) = position compress offset records i +
      (BlobEncoder.encodeRecord compress records[i]).length := position_succ hget
  have hle : position compress offset records (i + 1) ≤ offset + storedLength compress records :=
    position_le _
  have hoffset : (UInt64.ofNat (position compress offset records i)).toNat =
      position compress offset records i := by
    rw [UInt64.toNat_ofNat', Nat.mod_eq_of_lt (by omega)]
  refine ⟨hget, hoffset, ?_⟩
  rw [hnext, hoffset, UInt64.toNat_ofNat', Nat.mod_eq_of_lt (by omega)]

theorem exact_iff_allowed (hu : Usable it' records it) (hne : records ≠ []) (c : Call) :
    c.Exact uncompress compress offset records it ↔ c.Allowed offset it := by
  cases c with
  | next => exact Iff.rfl
  | seekToFirst =>
      constructor
      · intro hexact
        exact h.index_of_seekToFirst hu (hexact hne)
      · intro hindex _
        exact h.seekToFirst_on hu hindex hne
  | iterateForPrev t =>
      constructor
      · rintro ⟨-, hheader⟩
        by_contra hlt
        have hinside : t.toNat < offset := Nat.lt_of_not_le hlt
        have hvalid := (hheader hinside hne).1
        rw [isValid, h.iterateForPrev_header hu hinside] at hvalid
        cases hvalid
      · intro hle
        refine ⟨fun i r handle hi hlo hhi => ?_, fun hlt => absurd hle (Nat.not_le.mpr hlt)⟩
        obtain ⟨hget, hstart, hstop⟩ := h.handle_range hi
        rw [hstart] at hlo
        rw [hstop] at hhi
        exact h.iterateForPrev_next hu hget hlo hhi

end InRow

/-- On a well-formed file, as long as `SeekToFirst` finds the index at 0 and `IterateForPrev` is
not given an offset of the header, a valid iterator shows one of the records as what it is. From
such a state these calls are also the only ones that go where they should. -/
theorem positions_exact_of_allowed (h : Holds uncompress compress header dict records file)
    {fileNumber fileEntries : UInt64} (hentries : records.length ≤ fileEntries.toNat)
    {calls : List Call}
    (hr : run (Call.step uncompress) (new file fileNumber fileEntries) calls = some it)
    (hm : Meets (Call.step uncompress) (Call.Allowed header.size) (new file fileNumber fileEntries)
      calls) :
    it.fileNumber = fileNumber ∧
      (it.isValid = true → ∃ i, OnRecord compress header.size records i it) ∧
      (records ≠ [] → ∀ c : Call,
        c.Exact uncompress compress header.size records it ↔ c.Allowed header.size it) := by
  obtain ⟨it', rest, hnew, hrow⟩ := h.runInit fileNumber hentries
  have hreached := reached_run hrow hnew hr hm
  obtain ⟨u, hu, hindex, hseek, hprev⟩ := reached_usable hrow hnew hreached
  refine ⟨?_, reached_valid hreached, fun hne c => ?_⟩
  · obtain rfl | hw := hreached
    · rfl
    · exact hw.usable.opened.fileNumber.trans (runInit_frame hnew).2.2.2.1
  · have hiff := hrow.exact_iff_allowed hu hne c
    cases c with
    | next => exact hiff
    | seekToFirst => simpa only [Call.Exact, Call.Allowed, hseek, hindex] using hiff
    | iterateForPrev t => simpa only [Call.Exact, Call.Allowed, hprev] using hiff

end

/-! ## Files of the builder -/

/-- A finished file is well-formed. -/
theorem holds_finishedFile {o : BuilderOptions} {version : UInt32} {dict : Bytes}
    (hversion : o.Supports version) (hempty : o.maxDictBytes = 0 → dict = [])
    (hfit : (finishedFile o version dict records).length < 2 ^ 64)
    (hs : ∀ r ∈ records, r.Storable (o.codec.compress dict) (o.codec.uncompress dict)) :
    Holds o.codec.uncompress (o.codec.compress dict) (BlobFileBuilder.header o version) dict records
      (finishedFile o version dict records) := by
  obtain ⟨pad, hpad, hlen⟩ :=
    (ending o (recordArea o version dict records).length dict).2.exists_pad
  refine ⟨hversion.header, hs, hfit, (ending o (recordArea o version dict records).length dict).1,
    (ending o (recordArea o version dict records).length dict).2.metaIndexHandle, pad, ?_, hlen, ?_, ?_⟩
  · rw [finishedFile, hpad]
    rfl
  · by_cases hdict : o.maxDictBytes > 0
    · rw [blocksLength, if_pos ((header_flags o version).mpr hdict)]
      rw [ending, if_pos hdict]
      have hbound : (metaIndexBlock kCompressionDictBlockName
          (dictBlock (recordArea o version dict records).length dict)).length < 2 ^ 64 := by
        simp only [finishedFile, ending, if_pos hdict, metaBlocks_eq, List.length_append,
          length_rawBlock] at hfit
        omega
      dsimp only
      rw [isNull_metaBlocks _ dict hbound, metaBlocks_eq, List.length_append, length_rawBlock,
        length_rawBlock, UInt64.toNat_ofNat', Nat.mod_eq_of_lt hbound]
      exact Nat.add_comm _ _
    · rw [blocksLength, if_neg fun h => hdict ((header_flags o version).mp h), ending, if_neg hdict]
      rfl
  · by_cases hdict : o.maxDictBytes > 0
    · rw [if_pos ((header_flags o version).mpr hdict)]
      exact initUncompressionDict_finishedFile hdict hfit
    · rw [if_neg fun h => hdict ((header_flags o version).mp h)]
      exact hempty (Nat.eq_zero_of_not_pos hdict)

def shortRecords : List BlobRecord := [⟨[2], [20]⟩, ⟨[5], [50]⟩]

/-- Two records, the blocks of an empty dictionary, and the footer. -/
def shortFile : Bytes := finishedFile smallTrainOptions BlobFileHeader.kVersion2 [] shortRecords

theorem holds_shortFile :
    Holds smallTrainOptions.codec.uncompress (smallTrainOptions.codec.compress [])
      (BlobFileBuilder.header smallTrainOptions BlobFileHeader.kVersion2) [] shortRecords shortFile := by
  refine holds_finishedFile (.inl rfl) (fun _ => rfl) (by decide +kernel) ?_
  rw [shortRecords, List.forall_mem_cons, List.forall_mem_singleton]
  exact ⟨⟨.inl ⟨rfl, rfl⟩, by decide, by decide, by decide⟩,
    ⟨.inl ⟨rfl, rfl⟩, by decide, by decide, by decide⟩⟩

/-- `SeekToFirst`, and back to the second record from inside it. -/
def backCalls : List Call := [.seekToFirst, .next, .iterateForPrev 30, .next]

theorem backCalls_positions :
    (new shortFile 7 2).fileNumber = 7 ∧ ∃ it,
      run (Call.step smallTrainOptions.codec.uncompress) (new shortFile 7 2) backCalls = some it ∧
      it.fileNumber = 7 ∧
      (it.isValid = true → ∃ i, OnRecord (smallTrainOptions.codec.compress []) 12 shortRecords i it) ∧
      (shortRecords ≠ [] → ∀ c : Call,
        c.Exact smallTrainOptions.codec.uncompress (smallTrainOptions.codec.compress []) 12
          shortRecords it ↔ c.Allowed 12 it) := by
  have hmeets : Meets (Call.step smallTrainOptions.codec.uncompress) (Call.Allowed 12)
      (new shortFile 7 2) backCalls :=
    ⟨rfl, fun _ _ => ⟨trivial, fun _ _ =>
      ⟨(by decide : 12 ≤ (30 : UInt64).toNat), fun _ _ => ⟨trivial, fun _ _ => trivial⟩⟩⟩⟩
  exact ⟨rfl, _, rfl, positions_exact_of_allowed holds_shortFile (by decide) rfl hmeets⟩

/-- The second `SeekToFirst` shows the first record under the index of the second one, and from
inside the header `IterateForPrev` and `Next` show nothing. -/
theorem second_seekToFirst_drifts :
    Holds smallTrainOptions.codec.uncompress (smallTrainOptions.codec.compress [])
      (BlobFileBuilder.header smallTrainOptions BlobFileHeader.kVersion2) [] shortRecords shortFile ∧
    (∃ it, run (Call.step smallTrainOptions.codec.uncompress) (new shortFile 7 2)
        [.seekToFirst, .seekToFirst] = some it ∧
      it.isValid = true ∧
      ¬∃ i, OnRecord (smallTrainOptions.codec.compress []) 12 shortRecords i it) ∧
    ¬(Call.iterateForPrev 0).Exact smallTrainOptions.codec.uncompress
      (smallTrainOptions.codec.compress []) 12 shortRecords (new shortFile 7 2) := by
  refine ⟨holds_shortFile, ⟨_, rfl, by decide +kernel, ?_⟩, ?_⟩
  · rintro ⟨i, -, r, handle, hi, -, hindex⟩
    have hshown : (((new shortFile 7 2).seekToFirst smallTrainOptions.codec.uncompress).seekToFirst
        smallTrainOptions.codec.uncompress).getBlobIndex.blobHandle = ⟨12, 13, 1⟩ := by
      decide +kernel
    have hhandle : handle = ⟨12, 13, 1⟩ := (congrArg BlobIndex.blobHandle hindex).symm.trans hshown
    have hnone : ((handles (smallTrainOptions.codec.compress []) 12 0 shortRecords).map (·.2)).all
        (· ≠ ⟨12, 13, 1⟩) = true := by decide +kernel
    have hmem := List.mem_map_of_mem (f := (·.2)) (List.mem_of_getElem? hi)
    exact of_decide_eq_true (List.all_eq_true.mp hnone _ hmem) hhandle
  · rintro ⟨-, hheader⟩
    have hvalid := (hheader (by decide) (by decide)).1
    have hnot : (((new shortFile 7 2).iterateForPrev 0).next
        smallTrainOptions.codec.uncompress).isValid = false := by decide +kernel
    exact Bool.false_ne_true (hnot.symm.trans hvalid)

end AegonKV.BlobFileIterator
