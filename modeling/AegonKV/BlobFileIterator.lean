import AegonKV.UncompressionDict

/-!
# Iterating over the records of a blob file

`BlobFileIterator` over the bytes of a file. Reads are short at the end of the file, and they
succeed but for what `Init` reads. Read-ahead only prefetches and is left out. Where records as the
encoder stores them lie in a row, the iterator yields them one after the other, and what follows the
last one decides what it does next.
-/

namespace AegonKV
open LittleEndian

structure BlobFileIterator where
  file : Bytes
  fileNumber : UInt64
  fileSize : UInt64
  fileEntries : UInt64
  init : Bool := false
  endOfBlobRecord : UInt64 := 0
  status : Status := .ok
  valid : Bool := false
  /-- The dictionary of `decoder_`, at first the empty one. -/
  uncompressionDict : Bytes := []
  iterateOffset : UInt64 := 0
  iterateIndex : UInt64 := 0
  curBlobRecord : BlobRecord := ⟨[], []⟩
  curRecordOffset : UInt64 := 0
  curRecordSize : UInt64 := 0
  curRecordIndex : UInt64 := 0
  headerSize : UInt64 := 0

namespace BlobFileIterator

def kNoFileEntries : UInt64 := 0xffffffffffffffff

/-- What the reads of `Init` say about where the records end. No status is looked at, and a handle
that decodes is kept whatever follows it. -/
def endOfRecords (file : Bytes) (fileSize : UInt64) : UInt64 × BlobFileFooter :=
  let slice := readFile file (fileSize - UInt64.ofNat BlobFileFooter.kEncodedLength).toNat
    BlobFileFooter.kEncodedLength
  let handle : BlockHandle :=
    match BlockHandle.decodeFrom slice with
    | .ok (handle, _) => handle
    | .error _ => {}
  let trailing := if handle.isNull then 0 else handle.size + UInt64.ofNat kBlockTrailerSize
  (fileSize - UInt64.ofNat BlobFileFooter.kEncodedLength - trailing, ⟨handle⟩)

/-- What decoding the footer leaves in `status_`. -/
def footerStatus (slice : Bytes) : Status :=
  match BlobFileFooter.decodeFrom slice with
  | .ok _ => .ok
  | .error status => status

/-- `Init`. The status of the footer stays where no dictionary is loaded after it. -/
def runInit (it : BlobFileIterator) (scratch : ℕ → UInt8 := fun _ => 0) : BlobFileIterator × Bool :=
  match BlobFileReader.readHeader it.file with
  | .error status => ({ it with status := status }, false)
  | .ok header =>
    let it := { it with headerSize := UInt64.ofNat header.size }
    -- the offset wraps around in a file that is too short
    match preadFile it.file (it.fileSize - UInt64.ofNat BlobFileFooter.kEncodedLength)
        (UInt64.ofNat BlobFileFooter.kEncodedLength) with
    | .error status => ({ it with status := status }, false)
    | .ok slice =>
      let (endOfBlobRecord, footer) := endOfRecords it.file it.fileSize
      let it := { it with status := footerStatus slice, endOfBlobRecord := endOfBlobRecord }
      if header.flags &&& BlobFileHeader.kHasUncompressionDictionary ≠ 0 then
        match initUncompressionDict footer it.file scratch with
        | .error status => ({ it with status := status }, false)
        | .ok dict =>
          ({ it with
            status := .ok
            init := true
            uncompressionDict := dict
            endOfBlobRecord := endOfBlobRecord -
              (UInt64.ofNat dict.length + UInt64.ofNat kBlockTrailerSize) }, true)
      else ({ it with init := true }, true)

variable (uncompress : Bytes → UInt8 → Bytes → Except Status Bytes)

def getBlobRecord (it : BlobFileIterator) : BlobFileIterator :=
  match BlobDecoder.decodeHeader (readFile it.file it.iterateOffset.toNat kRecordHeaderSize) with
  | .error status => { it with status := status }
  | .ok (decoder, _) =>
    let recordSize := decoder.recordSize.toUInt64
    let recordSlice := readFile it.file (it.iterateOffset + UInt64.ofNat kRecordHeaderSize).toNat
      recordSize.toNat
    match decoder.decodeRecord (uncompress it.uncompressionDict) recordSlice with
    | .error status => { it with status := status }
    | .ok record =>
      let size := UInt64.ofNat kRecordHeaderSize + recordSize
      { it with
        status := .ok
        curBlobRecord := record
        curRecordOffset := it.iterateOffset
        curRecordSize := size
        curRecordIndex := it.iterateIndex
        iterateIndex := it.iterateIndex + 1
        iterateOffset := it.iterateOffset + size
        valid := true }

def prefetchAndGet (it : BlobFileIterator) : BlobFileIterator :=
  if it.iterateOffset ≥ it.endOfBlobRecord || it.iterateIndex ≥ it.fileEntries then
    { it with valid := false }
  else it.getBlobRecord uncompress

def seekToFirst (it : BlobFileIterator) : BlobFileIterator :=
  let (it, ok) := if it.init then (it, true) else it.runInit
  if ok then { it with status := .ok, iterateOffset := it.headerSize }.prefetchAndGet uncompress
  else it

def next (it : BlobFileIterator) : BlobFileIterator := it.prefetchAndGet uncompress

def isValid (it : BlobFileIterator) : Bool := it.valid && it.status.isOk

def getBlobIndex (it : BlobFileIterator) : BlobIndex :=
  { fileNumber := it.fileNumber
    blobHandle := ⟨it.curRecordOffset, it.curRecordSize, it.curRecordIndex⟩ }

def new (file : Bytes) (fileNumber : UInt64) (fileEntries : UInt64 := kNoFileEntries) :
    BlobFileIterator :=
  { file := file
    fileNumber := fileNumber
    fileSize := UInt64.ofNat file.length
    fileEntries := fileEntries }

/-- The iterator after `SeekToFirst` and `n` times `Next`. -/
def afterNext (it : BlobFileIterator) (n : ℕ) : BlobFileIterator :=
  (next uncompress)^[n] (it.seekToFirst uncompress)

/-- From `SeekToFirst` the iterator yields exactly these records with these handles, and then
becomes invalid with an OK status. -/
structure Yields (it : BlobFileIterator) (items : List (BlobRecord × BlobHandle)) : Prop where
  item : ∀ i r handle, items[i]? = some (r, handle) →
    (it.afterNext uncompress i).isValid = true ∧
    (it.afterNext uncompress i).curBlobRecord = r ∧
    (it.afterNext uncompress i).getBlobIndex = { fileNumber := it.fileNumber, blobHandle := handle }
  done : (it.afterNext uncompress items.length).isValid = false ∧
    (it.afterNext uncompress items.length).status.isOk = true

/-! ## Stored records in a row -/

variable {uncompress} {compress : Bytes → Bytes × UInt8} {it it' : BlobFileIterator}

/-- `getBlobRecord` where it finds a record. -/
def yielded (it : BlobFileIterator) (r : BlobRecord) (size : UInt64) : BlobFileIterator :=
  { it with
    status := .ok
    curBlobRecord := r
    curRecordOffset := it.iterateOffset
    curRecordSize := size
    curRecordIndex := it.iterateIndex
    iterateIndex := it.iterateIndex + 1
    iterateOffset := it.iterateOffset + size
    valid := true }

/-- The header that is read where a record is stored. -/
theorem decodeHeader_stored {file rest : Bytes} {r : BlobRecord} {o : ℕ}
    (hdrop : file.drop o = BlobEncoder.encodeRecord compress r ++ rest) :
    BlobDecoder.decodeHeader (readFile file o kRecordHeaderSize) =
      .ok (BlobEncoder.decoder compress r.encodeTo, []) := by
  rw [BlobEncoder.encodeRecord, BlobEncoder.encodeSlice_eq, List.append_assoc] at hdrop
  have hheader : readFile file o kRecordHeaderSize =
      BlobEncoder.header compress r.encodeTo ++ [] := by
    rw [readFile, hdrop, List.take_left' (BlobEncoder.length_header _ _), List.append_nil]
  rw [hheader, BlobEncoder.decodeHeader_header]

/-- The length of a stored record, as it is computed from its header. -/
theorem ofNat_length_encodeRecord {r : BlobRecord}
    (hpayload : (compress r.encodeTo).1.length < 2 ^ 32) :
    UInt64.ofNat kRecordHeaderSize + (BlobEncoder.decoder compress r.encodeTo).recordSize.toUInt64 =
      UInt64.ofNat (BlobEncoder.encodeRecord compress r).length := by
  apply UInt64.toNat_inj.mp
  have hlen : (UInt64.ofNat kRecordHeaderSize).toNat = kRecordHeaderSize := rfl
  rw [UInt64.toNat_add, hlen, UInt32.toNat_toUInt64, BlobEncoder.toNat_recordSize _ _ hpayload,
    UInt64.toNat_ofNat', BlobEncoder.encodeRecord, BlobEncoder.length_encodeSlice]

theorem getBlobRecord_stored {r : BlobRecord} {rest : Bytes}
    (hs : r.Storable compress (uncompress it.uncompressionDict))
    (hdrop : it.file.drop it.iterateOffset.toNat = BlobEncoder.encodeRecord compress r ++ rest)
    (hfit : it.iterateOffset.toNat + kRecordHeaderSize < 2 ^ 64) :
    it.getBlobRecord uncompress =
      it.yielded r (UInt64.ofNat (BlobEncoder.encodeRecord compress r).length) := by
  have hlen : (UInt64.ofNat kRecordHeaderSize).toNat = kRecordHeaderSize := rfl
  have hheader := decodeHeader_stored hdrop
  rw [BlobEncoder.encodeRecord, BlobEncoder.encodeSlice_eq, List.append_assoc] at hdrop
  have hoffset : (it.iterateOffset + UInt64.ofNat kRecordHeaderSize).toNat =
      it.iterateOffset.toNat + kRecordHeaderSize := by
    rw [UInt64.toNat_add, hlen, Nat.mod_eq_of_lt hfit]
  have hsize : (BlobEncoder.decoder compress r.encodeTo).recordSize.toUInt64.toNat =
      (compress r.encodeTo).1.length := by
    rw [UInt32.toNat_toUInt64]
    exact BlobEncoder.toNat_recordSize _ _ hs.payload
  have hslice : readFile it.file (it.iterateOffset + UInt64.ofNat kRecordHeaderSize).toNat
      (BlobEncoder.decoder compress r.encodeTo).recordSize.toUInt64.toNat =
      (compress r.encodeTo).1 := by
    rw [readFile, hoffset, hsize, ← List.drop_drop, hdrop,
      List.drop_left' (BlobEncoder.length_header _ _), List.take_left]
  rw [getBlobRecord, hheader]
  simp only [hslice, hs.decodeRecord, ofNat_length_encodeRecord hs.payload, yielded]

/-- Where the records lie, one after the other from `offset` on. -/
def handles (compress : Bytes → Bytes × UInt8) (offset index : ℕ) :
    List BlobRecord → List (BlobRecord × BlobHandle)
  | [] => []
  | r :: records =>
    let size := (BlobEncoder.encodeRecord compress r).length
    (r, ⟨UInt64.ofNat offset, UInt64.ofNat size, UInt64.ofNat index⟩) ::
      handles compress (offset + size) (index + 1) records

theorem length_handles (compress : Bytes → Bytes × UInt8) (offset index : ℕ)
    (records : List BlobRecord) : (handles compress offset index records).length = records.length := by
  induction records generalizing offset index with
  | nil => rfl
  | cons r records ih => rw [handles, List.length_cons, List.length_cons, ih]

/-- An iterator over the file of `it'` that stands at the given offset and index. -/
structure Stands (it' it : BlobFileIterator) (offset index : ℕ) : Prop where
  file : it.file = it'.file
  fileNumber : it.fileNumber = it'.fileNumber
  fileEntries : it.fileEntries = it'.fileEntries
  endOfBlobRecord : it.endOfBlobRecord = it'.endOfBlobRecord
  uncompressionDict : it.uncompressionDict = it'.uncompressionDict
  status : it.status = .ok
  offset : it.iterateOffset = UInt64.ofNat offset
  index : it.iterateIndex = UInt64.ofNat index

/-- One step over a record that lies before the end. -/
theorem Stands.step {offset index : ℕ} (h : Stands it' it offset index) {r : BlobRecord} {rest : Bytes}
    (hs : r.Storable compress (uncompress it'.uncompressionDict))
    (hdrop : it'.file.drop offset = BlobEncoder.encodeRecord compress r ++ rest)
    (hend : offset + (BlobEncoder.encodeRecord compress r).length ≤ it'.endOfBlobRecord.toNat)
    (hindex : index < it'.fileEntries.toNat) :
    Stands it' (it.prefetchAndGet uncompress) (offset + (BlobEncoder.encodeRecord compress r).length)
      (index + 1) ∧
    (it.prefetchAndGet uncompress).isValid = true ∧
    (it.prefetchAndGet uncompress).curBlobRecord = r ∧
    (it.prefetchAndGet uncompress).getBlobIndex =
      { fileNumber := it'.fileNumber
        blobHandle := ⟨UInt64.ofNat offset,
          UInt64.ofNat (BlobEncoder.encodeRecord compress r).length, UInt64.ofNat index⟩ } := by
  have hlen : (BlobEncoder.encodeRecord compress r).length =
      kRecordHeaderSize + (compress r.encodeTo).1.length := BlobEncoder.length_encodeSlice _ _
  have hbound := it'.endOfBlobRecord.toNat_lt
  have hheader : kRecordHeaderSize = 9 := rfl
  have hoffset : it.iterateOffset.toNat = offset := by
    rw [h.offset, UInt64.toNat_ofNat', Nat.mod_eq_of_lt (by omega)]
  have hinside : ¬it.iterateOffset ≥ it.endOfBlobRecord := by
    rw [ge_iff_le, UInt64.le_iff_toNat_le, hoffset, h.endOfBlobRecord]
    omega
  have hentry : ¬it.iterateIndex ≥ it.fileEntries := by
    have := it'.fileEntries.toNat_lt
    rw [ge_iff_le, UInt64.le_iff_toNat_le, h.index, h.fileEntries, UInt64.toNat_ofNat',
      Nat.mod_eq_of_lt (by omega)]
    omega
  have hget : it.prefetchAndGet uncompress =
      it.yielded r (UInt64.ofNat (BlobEncoder.encodeRecord compress r).length) := by
    have hdrop' : it.file.drop it.iterateOffset.toNat =
        BlobEncoder.encodeRecord compress r ++ rest := by
      rw [h.file, hoffset]
      exact hdrop
    rw [prefetchAndGet, if_neg (by simp [hinside, hentry])]
    exact getBlobRecord_stored (h.uncompressionDict ▸ hs) hdrop' (by omega)
  rw [hget]
  refine ⟨⟨h.file, h.fileNumber, h.fileEntries, h.endOfBlobRecord, h.uncompressionDict, rfl, ?_, ?_⟩,
    rfl, rfl, ?_⟩
  · rw [yielded, h.offset, UInt64.ofNat_add]
  · rw [yielded, h.index, UInt64.ofNat_add]
    rfl
  · rw [yielded, getBlobIndex, h.fileNumber, h.offset, h.index]

def storedLength (compress : Bytes → Bytes × UInt8) (records : List BlobRecord) : ℕ :=
  (records.flatMap (BlobEncoder.encodeRecord compress)).length

theorem length_le_storedLength (compress : Bytes → Bytes × UInt8) (records : List BlobRecord) :
    records.length ≤ storedLength compress records := by
  induction records with
  | nil => exact Nat.zero_le _
  | cons r records ih =>
      have hpos := BlobEncoder.encodeRecord_pos compress r
      rw [storedLength, List.flatMap_cons, List.length_append, List.length_cons]
      rw [storedLength] at ih
      omega

/-- All records of a row are yielded, and the iterator stands behind the last one. -/
theorem Stands.run {offset index : ℕ} {records : List BlobRecord} {rest : Bytes}
    (h : Stands it' it offset index)
    (hs : ∀ r ∈ records, r.Storable compress (uncompress it'.uncompressionDict))
    (hdrop : it'.file.drop offset = records.flatMap (BlobEncoder.encodeRecord compress) ++ rest)
    (hend : offset + storedLength compress records ≤ it'.endOfBlobRecord.toNat)
    (hindex : index + records.length ≤ it'.fileEntries.toNat) :
    Stands it' ((next uncompress)^[records.length] it) (offset + storedLength compress records)
      (index + records.length) ∧
    ∀ i r handle, (handles compress offset index records)[i]? = some (r, handle) →
      ((next uncompress)^[i + 1] it).isValid = true ∧
      ((next uncompress)^[i + 1] it).curBlobRecord = r ∧
      ((next uncompress)^[i + 1] it).getBlobIndex =
        { fileNumber := it'.fileNumber, blobHandle := handle } := by
  induction records generalizing it offset index with
  | nil =>
      refine ⟨h, fun i r handle hi => ?_⟩
      cases hi
  | cons r records ih =>
      have hsplit : storedLength compress (r :: records) =
          (BlobEncoder.encodeRecord compress r).length + storedLength compress records := by
        rw [storedLength, List.flatMap_cons, List.length_append, storedLength]
      rw [hsplit] at hend
      rw [List.length_cons] at hindex
      rw [List.flatMap_cons, List.append_assoc] at hdrop
      obtain ⟨hstep, hyield⟩ := h.step (hs r List.mem_cons_self) hdrop (by omega) (by omega)
      have hrest : it'.file.drop (offset + (BlobEncoder.encodeRecord compress r).length) =
          records.flatMap (BlobEncoder.encodeRecord compress) ++ rest := by
        rw [← List.drop_drop, hdrop, List.drop_left]
      obtain ⟨hlast, hitems⟩ := ih hstep (fun r' hr' => hs r' (List.mem_cons_of_mem _ hr')) hrest
        (by omega) (by omega)
      constructor
      · rw [List.length_cons, Function.iterate_succ_apply, hsplit, ← Nat.add_assoc,
          Nat.add_comm records.length, ← Nat.add_assoc]
        exact hlast
      · intro i r' handle hi
        rw [Function.iterate_succ_apply]
        cases i with
        | zero =>
            obtain ⟨rfl, rfl⟩ := Prod.mk.inj (Option.some.inj hi)
            exact hyield
        | succ i => exact hitems i r' handle hi

/-! ## The end of the row -/

/-- At the end of the records, or after as many as there are entries, the iterator stops. -/
theorem Stands.stops {offset index : ℕ} (h : Stands it' it offset index)
    (hend : it'.endOfBlobRecord = UInt64.ofNat offset ∨ it'.fileEntries = UInt64.ofNat index) :
    ((it.next uncompress).isValid = false) ∧ (it.next uncompress).status.isOk = true := by
  have hguard : (it.iterateOffset ≥ it.endOfBlobRecord || it.iterateIndex ≥ it.fileEntries) = true := by
    rw [h.offset, h.index, h.endOfBlobRecord, h.fileEntries]
    rcases hend with hend | hend
    · simp [hend]
    · simp [hend]
  rw [next, prefetchAndGet, hguard, if_pos rfl]
  refine ⟨rfl, ?_⟩
  change it.status.isOk = true
  rw [h.status]
  rfl

theorem getBlobRecord_cases
    (herror : ∀ type input s, uncompress it.uncompressionDict type input = .error s → s.isOk = false) :
    (it.getBlobRecord uncompress).isValid = true ∨
      (it.getBlobRecord uncompress).status.isOk = false := by
  unfold getBlobRecord
  split
  · rename_i s hs
    exact Or.inr (BlobDecoder.decodeHeader_error hs)
  · dsimp only
    split
    · rename_i s hs
      exact Or.inr (BlobDecoder.decodeRecord_error herror hs)
    · exact Or.inl rfl

/-- Anywhere before, it finds something it takes for a record, or it fails. -/
theorem Stands.goesOn {offset index : ℕ} (h : Stands it' it offset index)
    (herror : ∀ type input s, uncompress it'.uncompressionDict type input = .error s → s.isOk = false)
    (hend : offset < it'.endOfBlobRecord.toNat) (hindex : index < it'.fileEntries.toNat) :
    (it.next uncompress).isValid = true ∨ (it.next uncompress).status.isOk = false := by
  have hoffset := it'.endOfBlobRecord.toNat_lt
  have hentries := it'.fileEntries.toNat_lt
  have hguard : ¬(it.iterateOffset ≥ it.endOfBlobRecord || it.iterateIndex ≥ it.fileEntries) = true := by
    rw [h.offset, h.index, h.endOfBlobRecord, h.fileEntries, Bool.or_eq_true, decide_eq_true_eq,
      decide_eq_true_eq, ge_iff_le, ge_iff_le, UInt64.le_iff_toNat_le, UInt64.le_iff_toNat_le,
      UInt64.toNat_ofNat', UInt64.toNat_ofNat', Nat.mod_eq_of_lt (by omega),
      Nat.mod_eq_of_lt (by omega)]
    omega
  rw [next, prefetchAndGet, if_neg hguard]
  exact getBlobRecord_cases fun type input s hs => herror type input s (h.uncompressionDict ▸ hs)

/-! ## From `SeekToFirst` on -/

/-- `Init` has succeeded, and from the header on the file holds the records and then `rest`. -/
structure Ready (uncompress : Bytes → UInt8 → Bytes → Except Status Bytes)
    (compress : Bytes → Bytes × UInt8) (it it' : BlobFileIterator) (offset : ℕ)
    (records : List BlobRecord) (rest : Bytes) : Prop where
  fresh : it.init = false
  index : it'.iterateIndex = 0
  runInit : it.runInit = (it', true)
  fileNumber : it'.fileNumber = it.fileNumber
  headerSize : it'.headerSize = UInt64.ofNat offset
  storable : ∀ r ∈ records, r.Storable compress (uncompress it'.uncompressionDict)
  row : it'.file.drop offset = records.flatMap (BlobEncoder.encodeRecord compress) ++ rest
  inside : offset + storedLength compress records ≤ it'.endOfBlobRecord.toNat
  entries : records.length ≤ it'.fileEntries.toNat

variable {offset : ℕ} {records : List BlobRecord} {rest : Bytes}

def atFirst (it' : BlobFileIterator) : BlobFileIterator :=
  { it' with status := .ok, iterateOffset := it'.headerSize }

theorem Ready.afterNext (h : Ready uncompress compress it it' offset records rest) (n : ℕ) :
    it.afterNext uncompress n = (next uncompress)^[n + 1] it'.atFirst := by
  rw [BlobFileIterator.afterNext, seekToFirst, h.fresh, h.runInit]
  rfl

theorem Ready.run (h : Ready uncompress compress it it' offset records rest) :
    Stands it' ((next uncompress)^[records.length] it'.atFirst)
      (offset + storedLength compress records) (0 + records.length) ∧
    ∀ i r handle, (handles compress offset 0 records)[i]? = some (r, handle) →
      ((next uncompress)^[i + 1] it'.atFirst).isValid = true ∧
      ((next uncompress)^[i + 1] it'.atFirst).curBlobRecord = r ∧
      ((next uncompress)^[i + 1] it'.atFirst).getBlobIndex =
        { fileNumber := it'.fileNumber, blobHandle := handle } := by
  have hstands : Stands it' it'.atFirst offset 0 :=
    ⟨rfl, rfl, rfl, rfl, rfl, rfl, h.headerSize, h.index⟩
  refine hstands.run h.storable h.row h.inside ?_
  rw [Nat.zero_add]
  exact h.entries

theorem Ready.yields (h : Ready uncompress compress it it' offset records rest)
    (hend : it'.endOfBlobRecord = UInt64.ofNat (offset + storedLength compress records) ∨
      it'.fileEntries = UInt64.ofNat records.length) :
    it.Yields uncompress (handles compress offset 0 records) := by
  obtain ⟨hlast, hitems⟩ := h.run
  constructor
  · intro i r handle hi
    rw [h.afterNext, ← h.fileNumber]
    exact hitems i r handle hi
  · rw [length_handles, h.afterNext, Function.iterate_succ_apply']
    refine hlast.stops (hend.imp id fun hentries => ?_)
    rw [Nat.zero_add]
    exact hentries

/-- With anything between the last record and the end, the iterator does not stop behind it. -/
theorem Ready.not_yields (h : Ready uncompress compress it it' offset records rest)
    (herror : ∀ type input s, uncompress it'.uncompressionDict type input = .error s → s.isOk = false)
    (hend : offset + storedLength compress records < it'.endOfBlobRecord.toNat)
    (hentries : records.length < it'.fileEntries.toNat) :
    ¬it.Yields uncompress (handles compress offset 0 records) := by
  intro hyields
  obtain ⟨hinvalid, hok⟩ := hyields.done
  rw [length_handles, h.afterNext, Function.iterate_succ_apply'] at hinvalid hok
  rcases h.run.1.goesOn herror hend (by rwa [Nat.zero_add]) with hvalid | hbad
  · cases hinvalid.symm.trans hvalid
  · cases hok.symm.trans hbad

/-! ## What `Init` finds -/

/-- What `Init` sets where it succeeds. -/
theorem runInit_succeeds {scratch : ℕ → UInt8} (h : it.runInit scratch = (it', true)) :
    ∃ header slice, BlobFileReader.readHeader it.file = .ok header ∧
      preadFile it.file (it.fileSize - UInt64.ofNat BlobFileFooter.kEncodedLength)
        (UInt64.ofNat BlobFileFooter.kEncodedLength) = .ok slice ∧
      (header.flags &&& BlobFileHeader.kHasUncompressionDictionary ≠ 0 ∧
        (∃ dict, initUncompressionDict (endOfRecords it.file it.fileSize).2 it.file scratch = .ok dict ∧
          it' = { it with
            headerSize := UInt64.ofNat header.size
            status := .ok
            init := true
            uncompressionDict := dict
            endOfBlobRecord := (endOfRecords it.file it.fileSize).1 -
              (UInt64.ofNat dict.length + UInt64.ofNat kBlockTrailerSize) }) ∨
      ¬header.flags &&& BlobFileHeader.kHasUncompressionDictionary ≠ 0 ∧
        it' = { it with
          headerSize := UInt64.ofNat header.size
          status := footerStatus slice
          init := true
          endOfBlobRecord := (endOfRecords it.file it.fileSize).1 }) := by
  cases hheader : BlobFileReader.readHeader it.file with
  | error status => simp only [runInit, hheader, Prod.mk.injEq, Bool.false_eq_true, and_false] at h
  | ok header =>
      cases hread : preadFile it.file (it.fileSize - UInt64.ofNat BlobFileFooter.kEncodedLength)
          (UInt64.ofNat BlobFileFooter.kEncodedLength) with
      | error status =>
          simp only [runInit, hheader, hread, Prod.mk.injEq, Bool.false_eq_true, and_false] at h
      | ok slice =>
          refine ⟨header, slice, rfl, rfl, ?_⟩
          simp only [runInit, hheader, hread] at h
          split_ifs at h with hflag
          · cases hdict : initUncompressionDict (endOfRecords it.file it.fileSize).2 it.file scratch with
            | error status => simp only [hdict, Prod.mk.injEq, Bool.false_eq_true, and_false] at h
            | ok dict =>
                simp only [hdict, Prod.mk.injEq, and_true] at h
                exact .inl ⟨hflag, dict, rfl, h.symm⟩
          · simp only [Prod.mk.injEq, and_true] at h
            exact .inr ⟨hflag, h.symm⟩

/-- The part of the records' end that a block handle of the footer takes away. -/
def trailing (handle : BlockHandle) : UInt64 :=
  if handle.isNull then 0 else handle.size + UInt64.ofNat kBlockTrailerSize

/-- Where the footer starts. -/
theorem footerOffset_append (front : Bytes) {footer : Bytes}
    (hfooter : footer.length = BlobFileFooter.kEncodedLength) :
    UInt64.ofNat (front ++ footer).length - UInt64.ofNat BlobFileFooter.kEncodedLength =
      UInt64.ofNat front.length := by
  rw [List.length_append, hfooter, UInt64.ofNat_add, UInt64.add_sub_cancel]

theorem preadFile_footer (front : Bytes) {footer : Bytes}
    (hfooter : footer.length = BlobFileFooter.kEncodedLength)
    (hfit : (front ++ footer).length < 2 ^ 64) :
    preadFile (front ++ footer)
        (UInt64.ofNat (front ++ footer).length - UInt64.ofNat BlobFileFooter.kEncodedLength)
        (UInt64.ofNat BlobFileFooter.kEncodedLength) = .ok footer := by
  have hsize : (UInt64.ofNat BlobFileFooter.kEncodedLength).toNat = BlobFileFooter.kEncodedLength := rfl
  have hread := readFooter_append front hfooter
  have hoffset : (UInt64.ofNat front.length).toNat =
      (front ++ footer).length - BlobFileFooter.kEncodedLength := by
    rw [List.length_append] at hfit ⊢
    rw [hfooter, Nat.add_sub_cancel, UInt64.toNat_ofNat', Nat.mod_eq_of_lt (by omega)]
  rw [footerOffset_append front hfooter, preadFile_of_le (by omega), hoffset, hsize, hread]

theorem footerStatus_sealArea {handle : BlockHandle} {pad : Bytes}
    (hlen : (handle.encodeTo ++ pad).length = BlobFileFooter.kEncodedLength - 12) :
    footerStatus (BlobFileFooter.sealArea (handle.encodeTo ++ pad)) = .ok := by
  have hdecode := BlobFileFooter.decodeFrom_sealArea handle pad [] hlen
  rw [List.append_nil] at hdecode
  rw [footerStatus, hdecode]

theorem endOfRecords_append (front : Bytes) {handle : BlockHandle} {pad : Bytes}
    (hlen : (handle.encodeTo ++ pad).length = BlobFileFooter.kEncodedLength - 12)
    (hfit : (front ++ BlobFileFooter.sealArea (handle.encodeTo ++ pad)).length < 2 ^ 64) :
    endOfRecords (front ++ BlobFileFooter.sealArea (handle.encodeTo ++ pad))
        (UInt64.ofNat (front ++ BlobFileFooter.sealArea (handle.encodeTo ++ pad)).length) =
      (UInt64.ofNat front.length - trailing handle, ⟨handle⟩) := by
  have hfooter := BlobFileFooter.length_sealArea hlen
  have hfront := footerOffset_append front hfooter
  have hoffset : (UInt64.ofNat front.length).toNat =
      (front ++ BlobFileFooter.sealArea (handle.encodeTo ++ pad)).length -
        BlobFileFooter.kEncodedLength := by
    rw [List.length_append] at hfit ⊢
    rw [hfooter, Nat.add_sub_cancel, UInt64.toNat_ofNat', Nat.mod_eq_of_lt (by omega)]
  have hdecode : BlockHandle.decodeFrom (BlobFileFooter.sealArea (handle.encodeTo ++ pad)) =
      .ok (handle, pad ++ (putFixed64 BlobFileFooter.kFooterMagicNumber ++
        putFixed32 (UInt32.ofNat (Crc32c.value (handle.encodeTo ++ pad ++
          putFixed64 BlobFileFooter.kFooterMagicNumber)).toNat))) := by
    simp only [BlobFileFooter.sealArea, List.append_assoc]
    exact BlockHandle.decodeFrom_encodeTo _ _
  rw [endOfRecords, hfront, hoffset, readFooter_append front hfooter, hdecode]
  rfl

/-- `Init` on a file without a dictionary. -/
theorem runInit_plain {file : Bytes} {header : BlobFileHeader} (hw : header.WellFormed)
    (hflags : header.flags = 0) {body pad : Bytes}
    (hfile : file = header.encodeTo ++ body ++
      BlobFileFooter.sealArea (BlockHandle.encodeTo {} ++ pad))
    (hlen : (BlockHandle.encodeTo {} ++ pad).length = BlobFileFooter.kEncodedLength - 12)
    (hfit : file.length < 2 ^ 64) (fileNumber fileEntries : UInt64) :
    (new file fileNumber fileEntries).runInit =
      ({ new file fileNumber fileEntries with
        init := true
        headerSize := UInt64.ofNat header.size
        endOfBlobRecord := UInt64.ofNat (header.encodeTo ++ body).length }, true) := by
  subst hfile
  have hheader : BlobFileReader.readHeader (header.encodeTo ++ body ++
      BlobFileFooter.sealArea (BlockHandle.encodeTo {} ++ pad)) = .ok header := by
    rw [List.append_assoc]
    exact BlobFileReader.readHeader_append hw _
  have hend := endOfRecords_append (header.encodeTo ++ body) hlen hfit
  have hflag : ¬header.flags &&& BlobFileHeader.kHasUncompressionDictionary ≠ 0 := by
    rw [hflags]
    decide
  have hnull : trailing {} = 0 := rfl
  have hread := preadFile_footer (header.encodeTo ++ body) (BlobFileFooter.length_sealArea hlen) hfit
  rw [runInit, new, hheader]
  simp only [hread, footerStatus_sealArea hlen, hend, if_neg hflag, hnull, UInt64.sub_zero]

end BlobFileIterator
end AegonKV
