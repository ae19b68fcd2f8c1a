import AegonKV.IteratorPositions

/-!
# Which files `Init` and `Open` accept

Both read the header, the footer and the dictionary of a file. `Open` stops at a footer that it
cannot decode. `Init` goes on with the block handle at its front, and a dictionary that is loaded
through it sets the status anew. What the handle says is taken off the file's size unchecked.
-/

namespace AegonKV.BlobFileIterator
open LittleEndian

/-! ## The footer -/

def footerSlice (file : Bytes) : Bytes :=
  readFile file (file.length - BlobFileFooter.kEncodedLength) BlobFileFooter.kEncodedLength

/-- The handle that `DecodeFrom` leaves in a footer, also where it fails behind the handle. -/
def footerHandle (file : Bytes) : BlockHandle :=
  match BlockHandle.decodeFrom (footerSlice file) with
  | .ok (handle, _) => handle
  | .error _ => {}

def FooterDecodes (file : Bytes) : Prop :=
  (BlobFileFooter.decodeFrom (footerSlice file)).isOk = true

instance (file : Bytes) : Decidable (FooterDecodes file) :=
  inferInstanceAs (Decidable (_ = true))

theorem length_footerSlice {file : Bytes} (h : BlobFileFooter.kEncodedLength ≤ file.length) :
    (footerSlice file).length = BlobFileFooter.kEncodedLength := by
  rw [footerSlice, readFile, List.length_take, List.length_drop]
  omega

/-- What `DecodeFrom` leaves of a footer's bytes. -/
theorem decodeFrom_footer {src rest : Bytes} {footer : BlobFileFooter}
    (hlen : src.length = BlobFileFooter.kEncodedLength)
    (h : BlobFileFooter.decodeFrom src = .ok (footer, rest)) :
    rest = [] ∧ ∃ tail, BlockHandle.decodeFrom src = .ok (footer.metaIndexHandle, tail) := by
  have hfixed : (src.drop (BlobFileFooter.kEncodedLength - 12)).length = 12 := by
    rw [List.length_drop, hlen]
    rfl
  unfold BlobFileFooter.decodeFrom at h
  cases hhandle : BlockHandle.decodeFrom src with
  | error status =>
      rw [hhandle] at h
      cases h
  | ok decoded =>
      rw [hhandle, getFixed64, if_neg (by omega)] at h
      dsimp only at h
      split_ifs at h
      · rw [getFixed32, if_neg (by rw [List.length_drop]; omega)] at h
        dsimp only at h
        split_ifs at h
        · obtain ⟨rfl, rfl⟩ := Prod.mk.inj (Except.ok.inj h)
          refine ⟨?_, decoded.2, rfl⟩
          rw [List.drop_drop, List.drop_eq_nil_iff, List.length_drop]
          omega

theorem decodeFrom_footer_error {src : Bytes} {status : Status}
    (h : BlobFileFooter.decodeFrom src = .error status) : status.isOk = false := by
  unfold BlobFileFooter.decodeFrom at h
  split at h
  · obtain rfl := Except.error.inj h
    rfl
  split at h
  · obtain rfl := Except.error.inj h
    rfl
  split_ifs at h
  · obtain rfl := Except.error.inj h
    rfl
  · dsimp only at h
    split at h
    · obtain rfl := Except.error.inj h
      rfl
    split_ifs at h
    obtain rfl := Except.error.inj h
    rfl

theorem footerStatus_isOk (src : Bytes) :
    (footerStatus src).isOk = (BlobFileFooter.decodeFrom src).isOk := by
  unfold footerStatus
  cases h : BlobFileFooter.decodeFrom src with
  | ok decoded => rfl
  | error status =>
      dsimp only
      rw [decodeFrom_footer_error h]
      rfl

/-- `Open` decodes the footer to the handle that `Init` finds. -/
theorem decodeInto_footer {file : Bytes} (hlen : BlobFileFooter.kEncodedLength ≤ file.length)
    (h : FooterDecodes file) :
    decodeInto BlobFileFooter.decodeFrom (footerSlice file) = .ok ⟨footerHandle file⟩ := by
  rw [FooterDecodes] at h
  cases hdecode : BlobFileFooter.decodeFrom (footerSlice file) with
  | error status =>
      rw [hdecode] at h
      cases h
  | ok decoded =>
      obtain ⟨hrest, tail, hhandle⟩ := decodeFrom_footer (length_footerSlice hlen) hdecode
      have hsame : footerHandle file = decoded.1.metaIndexHandle := by
        unfold footerHandle
        simp only [hhandle]
      rw [hsame]
      simp only [decodeInto, hdecode, bind, Except.bind, hrest, List.isEmpty_nil]
      rfl

theorem decodeInto_footer_error {file : Bytes} (h : ¬FooterDecodes file) :
    ∃ status, decodeInto BlobFileFooter.decodeFrom (footerSlice file) = .error status := by
  cases hdecode : BlobFileFooter.decodeFrom (footerSlice file) with
  | error status =>
      rw [decodeInto, hdecode]
      exact ⟨status, rfl⟩
  | ok decoded =>
      rw [FooterDecodes, hdecode] at h
      exact absurd rfl h

/-! ## `Init` -/

/-- `Init` returns true and leaves an OK status. -/
def Initializes (scratch : ℕ → UInt8) (it : BlobFileIterator) : Prop :=
  (it.runInit scratch).2 = true ∧ (it.runInit scratch).1.status.isOk = true

/-- `InitUncompressionDict` succeeds on the handle at the front of the footer. -/
def DictLoads (scratch : ℕ → UInt8) (file : Bytes) : Prop :=
  (initUncompressionDict ⟨footerHandle file⟩ file scratch).isOk = true

instance (scratch : ℕ → UInt8) (file : Bytes) : Decidable (DictLoads scratch file) :=
  inferInstanceAs (Decidable (_ = true))

/-- What a dictionary takes off the end of the records. -/
def dictLength (scratch : ℕ → UInt8) (file : Bytes) : UInt64 :=
  match initUncompressionDict ⟨footerHandle file⟩ file scratch with
  | .ok dict => UInt64.ofNat dict.length + UInt64.ofNat kBlockTrailerSize
  | .error _ => 0

/-- The flag that both test before they load the dictionary. -/
def HasDict (header : BlobFileHeader) : Prop :=
  header.flags &&& BlobFileHeader.kHasUncompressionDictionary ≠ 0

instance (header : BlobFileHeader) : Decidable (HasDict header) := inferInstanceAs (Decidable (_ ≠ _))

/-- What `Init` takes off the end of the records in front of the footer. -/
def metaLength (scratch : ℕ → UInt8) (header : BlobFileHeader) (file : Bytes) : UInt64 :=
  trailing (footerHandle file) + if HasDict header then dictLength scratch file else 0

variable {file : Bytes} {fileNumber fileEntries : UInt64} {scratch : ℕ → UInt8}
  {header : BlobFileHeader}

section

variable (hfit : file.length < 2 ^ 64)
include hfit

theorem toNat_footerOffset (hlen : BlobFileFooter.kEncodedLength ≤ file.length) :
    (UInt64.ofNat file.length - UInt64.ofNat BlobFileFooter.kEncodedLength).toNat =
      file.length - BlobFileFooter.kEncodedLength := by
  have hsize : (UInt64.ofNat BlobFileFooter.kEncodedLength).toNat = BlobFileFooter.kEncodedLength := rfl
  have hlength : (UInt64.ofNat file.length).toNat = file.length := by
    rw [UInt64.toNat_ofNat', Nat.mod_eq_of_lt hfit]
  rw [UInt64.toNat_sub_of_le _ _ (by rw [UInt64.le_iff_toNat_le, hsize, hlength]; exact hlen), hsize,
    hlength]

/-- The footer is read from a file that is long enough. -/
theorem preadFile_footerSlice (hlen : BlobFileFooter.kEncodedLength ≤ file.length) :
    preadFile file (UInt64.ofNat file.length - UInt64.ofNat BlobFileFooter.kEncodedLength)
      (UInt64.ofNat BlobFileFooter.kEncodedLength) = .ok (footerSlice file) := by
  have hoffset := toNat_footerOffset hfit hlen
  rw [preadFile_of_le (by omega), hoffset]
  rfl

/-- In a shorter one the offset wraps around. -/
theorem preadFile_short (hlen : file.length < BlobFileFooter.kEncodedLength) :
    ∃ status, preadFile file (UInt64.ofNat file.length - UInt64.ofNat BlobFileFooter.kEncodedLength)
      (UInt64.ofNat BlobFileFooter.kEncodedLength) = .error status := by
  have hsize : (UInt64.ofNat BlobFileFooter.kEncodedLength).toNat = 32 := rfl
  have hlimit : BlobFileFooter.kEncodedLength = 32 := rfl
  have hoffset : (UInt64.ofNat file.length - UInt64.ofNat BlobFileFooter.kEncodedLength).toNat =
      2 ^ 64 + file.length - 32 := by
    rw [UInt64.toNat_sub, hsize, UInt64.toNat_ofNat', Nat.mod_eq_of_lt hfit, Nat.mod_eq_of_lt (by omega)]
    omega
  refine ⟨{ code := .ioError }, ?_⟩
  rw [preadFile, if_pos ⟨by omega, by omega, by decide⟩]

theorem endOfRecords_footerHandle (hlen : BlobFileFooter.kEncodedLength ≤ file.length) :
    endOfRecords file (UInt64.ofNat file.length) =
      (UInt64.ofNat file.length - UInt64.ofNat BlobFileFooter.kEncodedLength -
        trailing (footerHandle file), ⟨footerHandle file⟩) := by
  rw [endOfRecords, toNat_footerOffset hfit hlen]
  rfl

/-- `Init` on a file that is long enough. -/
theorem initializes_iff (hheader : BlobFileReader.readHeader file = .ok header)
    (hlen : BlobFileFooter.kEncodedLength ≤ file.length) :
    Initializes scratch (new file fileNumber fileEntries) ↔
      (HasDict header → DictLoads scratch file) ∧ (¬HasDict header → FooterDecodes file) := by
  have hread := preadFile_footerSlice hfit hlen
  have hend := endOfRecords_footerHandle hfit hlen
  by_cases hdict : HasDict header
  · have hflag : header.flags &&& BlobFileHeader.kHasUncompressionDictionary ≠ 0 := hdict
    have hiff : Initializes scratch (new file fileNumber fileEntries) ↔ DictLoads scratch file := by
      cases hload : initUncompressionDict ⟨footerHandle file⟩ file scratch with
      | error status =>
          simp [Initializes, runInit, new, hheader, hread, hend, hflag, DictLoads, hload, Except.isOk,
            Except.toBool]
      | ok dict =>
          simp [Initializes, runInit, new, hheader, hread, hend, hflag, DictLoads, hload, Except.isOk,
            Except.toBool, Status.isOk, Status.ok]
    rw [hiff]
    exact ⟨fun h => ⟨fun _ => h, fun hno => absurd hdict hno⟩, fun h => h.1 hdict⟩
  · have hflag : ¬header.flags &&& BlobFileHeader.kHasUncompressionDictionary ≠ 0 := hdict
    have hiff : Initializes scratch (new file fileNumber fileEntries) ↔ FooterDecodes file := by
      rw [Initializes, runInit, new, hheader]
      simp only [hread, hend, if_neg hflag, true_and, footerStatus_isOk, FooterDecodes]
    rw [hiff]
    exact ⟨fun h => ⟨fun hyes => absurd hyes hdict, fun _ => h⟩, fun h => h.2 hdict⟩

omit hfit in
/-- `Open` on a file that is long enough. -/
theorem opens_iff (blobCache : Bool) (hheader : BlobFileReader.readHeader file = .ok header)
    (hlen : BlobFileFooter.kEncodedLength ≤ file.length) :
    (CachedReader.openFile file blobCache scratch).isOk = true ↔
      FooterDecodes file ∧ (HasDict header → DictLoads scratch file) := by
  have hslice : readFile file (file.length - BlobFileFooter.kEncodedLength)
      BlobFileFooter.kEncodedLength = footerSlice file := rfl
  rw [CachedReader.openFile, if_neg (Nat.not_lt.mpr hlen), hheader, hslice]
  by_cases hfooter : FooterDecodes file
  · rw [decodeInto_footer hlen hfooter]
    by_cases hdict : HasDict header
    · have hflag : header.flags &&& BlobFileHeader.kHasUncompressionDictionary ≠ 0 := hdict
      cases hload : initUncompressionDict ⟨footerHandle file⟩ file scratch with
      | error status =>
          simp [hflag, hload, bind, Except.bind, hdict, DictLoads, Except.isOk, Except.toBool]
      | ok dict =>
          simp [hflag, hload, bind, Except.bind, pure, Except.pure, hfooter, DictLoads, Except.isOk,
            Except.toBool]
    · have hflag : ¬header.flags &&& BlobFileHeader.kHasUncompressionDictionary ≠ 0 := hdict
      simp only [bind, Except.bind, pure, Except.pure, if_neg hflag, hfooter, hdict, false_imp_iff,
        and_true, iff_true]
      rfl
  · obtain ⟨status, herror⟩ := decodeInto_footer_error hfooter
    rw [herror]
    exact iff_of_false (fun h => (by cases h)) (fun h => hfooter h.1)

/-- Where `Init` puts the end of the records. -/
theorem endOfBlobRecord_initialized (hheader : BlobFileReader.readHeader file = .ok header)
    (hlen : BlobFileFooter.kEncodedLength ≤ file.length)
    (h : Initializes scratch (new file fileNumber fileEntries)) :
    ((new file fileNumber fileEntries).runInit scratch).1.headerSize = UInt64.ofNat header.size ∧
      ((new file fileNumber fileEntries).runInit scratch).1.endOfBlobRecord =
        UInt64.ofNat (file.length - BlobFileFooter.kEncodedLength) - metaLength scratch header file := by
  have hoffset : UInt64.ofNat file.length - UInt64.ofNat BlobFileFooter.kEncodedLength =
      UInt64.ofNat (file.length - BlobFileFooter.kEncodedLength) := by
    apply UInt64.toNat_inj.mp
    rw [toNat_footerOffset hfit hlen, UInt64.toNat_ofNat', Nat.mod_eq_of_lt (by omega)]
  have hend := endOfRecords_footerHandle hfit hlen
  rw [hoffset] at hend
  obtain ⟨it', hinit⟩ : ∃ it', (new file fileNumber fileEntries).runInit scratch = (it', true) :=
    ⟨_, Prod.ext rfl h.1⟩
  rw [hinit]
  obtain ⟨found, slice, hfound, -, hcases⟩ := runInit_succeeds hinit
  obtain rfl : found = header := Except.ok.inj (hfound.symm.trans hheader)
  obtain ⟨hflag, dict, hload, heq⟩ | ⟨hflag, heq⟩ := hcases
  · have hdict : HasDict found := hflag
    rw [heq]
    refine ⟨rfl, ?_⟩
    simp only [new, hend] at hload ⊢
    unfold metaLength dictLength
    simp only [if_pos hdict, hload, UInt64.sub_eq_add_neg, UInt64.neg_add, UInt64.add_assoc]
  · have hdict : ¬HasDict found := hflag
    rw [heq]
    refine ⟨rfl, ?_⟩
    simp only [new, hend]
    rw [metaLength, if_neg hdict, UInt64.add_zero]

end

/-- The end of the records stays between the header and the footer if nothing wraps around. -/
theorem between_iff {size room : ℕ} {taken : UInt64} (hsize : size < 2 ^ 64) (hroom : room < 2 ^ 64) :
    (UInt64.ofNat size ≤ UInt64.ofNat room - taken ∧ (UInt64.ofNat room - taken).toNat ≤ room) ↔
      size + taken.toNat ≤ room := by
  have htaken := taken.toNat_lt
  rw [UInt64.le_iff_toNat_le, UInt64.toNat_sub, UInt64.toNat_ofNat', UInt64.toNat_ofNat',
    Nat.mod_eq_of_lt hsize, Nat.mod_eq_of_lt hroom]
  by_cases hle : taken.toNat ≤ room
  · have hmod : (2 ^ 64 - taken.toNat + room) % 2 ^ 64 = room - taken.toNat := by omega
    rw [hmod]
    omega
  · have hmod : (2 ^ 64 - taken.toNat + room) % 2 ^ 64 = 2 ^ 64 - taken.toNat + room :=
      Nat.mod_eq_of_lt (by omega)
    rw [hmod]
    omega

/-! ## The same files -/

/-- `Init` and `Open` on the same file, each with memory of its own. -/
structure SameVerdict (scratch scratch' : ℕ → UInt8) (blobCache : Bool) (it : BlobFileIterator) :
    Prop where
  accepts : Initializes scratch it ↔
    (CachedReader.openFile it.file blobCache scratch').isOk = true
  between : Initializes scratch it →
    (CachedReader.openFile it.file blobCache scratch').isOk = true →
    (it.runInit scratch).1.headerSize ≤ (it.runInit scratch).1.endOfBlobRecord ∧
      (it.runInit scratch).1.endOfBlobRecord.toNat ≤ it.file.length - BlobFileFooter.kEncodedLength

/-- No dictionary is loaded through a damaged footer, memory behind the end of the file does not
decide about one, and there is room in the file for what the footer announces. -/
structure Sound (scratch scratch' : ℕ → UInt8) (header : BlobFileHeader) (file : Bytes) : Prop where
  footer : HasDict header → ¬FooterDecodes file → ¬DictLoads scratch file
  memory : HasDict header → FooterDecodes file → (DictLoads scratch file ↔ DictLoads scratch' file)
  room : FooterDecodes file → (HasDict header → DictLoads scratch file) →
    header.size + (metaLength scratch header file).toNat ≤
      file.length - BlobFileFooter.kEncodedLength

theorem size_le_kMaxEncodedLength (header : BlobFileHeader) :
    header.size ≤ BlobFileHeader.kMaxEncodedLength := by
  rw [BlobFileHeader.size]
  split_ifs <;> decide

/-- Memory decides about a dictionary only where its index block is not inside the file. -/
theorem dictLoads_iff_of_le {scratch' : ℕ → UInt8}
    (h : (footerHandle file).offset.toNat + (footerHandle file).size.toNat ≤ file.length) :
    DictLoads scratch file ↔ DictLoads scratch' file := by
  have hsame : ∀ offset size, (readInto scratch file offset size).isOk =
      (readInto scratch' file offset size).isOk := by
    intro offset size
    rw [readInto, readInto]
    cases preadFile file offset size with
    | error status => rfl
    | ok slice => rfl
  rw [DictLoads, DictLoads, initUncompressionDict, initUncompressionDict]
  simp only [readInto_of_le _ h, bind, Except.bind]
  cases seekToMetaBlock (readFile file (footerHandle file).offset.toNat
      (footerHandle file).size.toNat) kCompressionDictBlockName with
  | error status => exact Iff.rfl
  | ok found =>
      cases found with
      | none => exact Iff.rfl
      | some block =>
          dsimp only
          rw [hsame]

theorem initializes_readable (hfit : file.length < 2 ^ 64)
    (h : Initializes scratch (new file fileNumber fileEntries)) :
    ∃ header, BlobFileReader.readHeader file = .ok header ∧
      BlobFileFooter.kEncodedLength ≤ file.length := by
  obtain ⟨it', hinit⟩ : ∃ it', (new file fileNumber fileEntries).runInit scratch = (it', true) :=
    ⟨_, Prod.ext rfl h.1⟩
  obtain ⟨header, slice, hheader, hread, -⟩ := runInit_succeeds hinit
  refine ⟨header, hheader, ?_⟩
  by_contra hshort
  obtain ⟨status, herror⟩ := preadFile_short hfit (Nat.lt_of_not_le hshort)
  cases herror.symm.trans hread

theorem opens_readable {blobCache : Bool}
    (h : (CachedReader.openFile file blobCache scratch).isOk = true) :
    ∃ header, BlobFileReader.readHeader file = .ok header ∧
      BlobFileFooter.kEncodedLength ≤ file.length := by
  by_cases hshort : file.length < BlobFileFooter.kEncodedLength
  · rw [CachedReader.openFile, if_pos hshort] at h
    cases h
  · cases hheader : BlobFileReader.readHeader file with
    | error status =>
        rw [CachedReader.openFile, if_neg hshort, hheader] at h
        cases h
    | ok header => exact ⟨header, rfl, Nat.le_of_not_lt hshort⟩

/-- With the end of the records inside the file there is room for what the footer announces. -/
theorem between_initialized (hfit : file.length < 2 ^ 64)
    (hheader : BlobFileReader.readHeader file = .ok header)
    (hlen : BlobFileFooter.kEncodedLength ≤ file.length)
    (h : Initializes scratch (new file fileNumber fileEntries)) :
    (((new file fileNumber fileEntries).runInit scratch).1.headerSize ≤
        ((new file fileNumber fileEntries).runInit scratch).1.endOfBlobRecord ∧
      ((new file fileNumber fileEntries).runInit scratch).1.endOfBlobRecord.toNat ≤
        file.length - BlobFileFooter.kEncodedLength) ↔
      header.size + (metaLength scratch header file).toNat ≤
        file.length - BlobFileFooter.kEncodedLength := by
  obtain ⟨hsize, hend⟩ := endOfBlobRecord_initialized hfit hheader hlen h
  have hsmall := size_le_kMaxEncodedLength header
  have hmax : BlobFileHeader.kMaxEncodedLength = 12 := rfl
  rw [hsize, hend]
  exact between_iff (by omega) (by omega)

section

variable {scratch' : ℕ → UInt8} {blobCache : Bool} (hfit : file.length < 2 ^ 64)
include hfit

theorem SameVerdict.sound
    (h : SameVerdict scratch scratch' blobCache (new file fileNumber fileEntries))
    (hheader : BlobFileReader.readHeader file = .ok header)
    (hlen : BlobFileFooter.kEncodedLength ≤ file.length) : Sound scratch scratch' header file := by
  have hinit : Initializes scratch (new file fileNumber fileEntries) ↔ _ :=
    initializes_iff hfit hheader hlen
  have hopen : (CachedReader.openFile file blobCache scratch').isOk = true ↔ _ :=
    opens_iff blobCache hheader hlen
  have haccepts : Initializes scratch (new file fileNumber fileEntries) ↔
    (CachedReader.openFile file blobCache scratch').isOk = true := h.accepts
  constructor
  · intro hdict hfooter hload
    have hi := hinit.mpr ⟨fun _ => hload, fun hno => absurd hdict hno⟩
    exact hfooter (hopen.mp (haccepts.mp hi)).1
  · intro hdict hfooter
    constructor
    · intro hload
      have hi := hinit.mpr ⟨fun _ => hload, fun hno => absurd hdict hno⟩
      exact (hopen.mp (haccepts.mp hi)).2 hdict
    · intro hload
      have ho := hopen.mpr ⟨hfooter, fun _ => hload⟩
      exact (hinit.mp (haccepts.mpr ho)).1 hdict
  · intro hfooter hload
    have hi := hinit.mpr ⟨hload, fun _ => hfooter⟩
    exact (between_initialized hfit hheader hlen hi).mp (h.between hi (haccepts.mp hi))

/-- A sound file is initialized if and only if it is opened. -/
theorem accepts_of_sound (h : ∀ header, BlobFileReader.readHeader file = .ok header →
    BlobFileFooter.kEncodedLength ≤ file.length → Sound scratch scratch' header file) :
    Initializes scratch (new file fileNumber fileEntries) ↔
      (CachedReader.openFile file blobCache scratch').isOk = true := by
  constructor
  · intro hi
    obtain ⟨header, hheader, hlen⟩ := initializes_readable hfit hi
    obtain ⟨hload, hplain⟩ := (initializes_iff hfit hheader hlen).mp hi
    obtain ⟨hfooter, hmemory, -⟩ := h header hheader hlen
    have hdecodes : FooterDecodes file := by
      by_cases hdict : HasDict header
      · by_contra hno
        exact hfooter hdict hno (hload hdict)
      · exact hplain hdict
    exact (opens_iff blobCache hheader hlen).mpr
      ⟨hdecodes, fun hdict => (hmemory hdict hdecodes).mp (hload hdict)⟩
  · intro ho
    obtain ⟨header, hheader, hlen⟩ := opens_readable ho
    obtain ⟨hdecodes, hload⟩ := (opens_iff blobCache hheader hlen).mp ho
    obtain ⟨-, hmemory, -⟩ := h header hheader hlen
    exact (initializes_iff hfit hheader hlen).mpr
      ⟨fun hdict => (hmemory hdict hdecodes).mpr (hload hdict), fun _ => hdecodes⟩

end

/-- For every file: `Init` and `Open` accept it together, and `Init` keeps the end of the records
inside it, exactly if it is too short, has no readable header, or is sound. -/
theorem sameVerdict_iff (hfit : file.length < 2 ^ 64) (fileNumber fileEntries : UInt64)
    (scratch scratch' : ℕ → UInt8) (blobCache : Bool) :
    SameVerdict scratch scratch' blobCache (new file fileNumber fileEntries) ↔
      ∀ header, BlobFileReader.readHeader file = .ok header →
        BlobFileFooter.kEncodedLength ≤ file.length → Sound scratch scratch' header file := by
  constructor
  · intro h header hheader hlen
    exact h.sound hfit hheader hlen
  · intro h
    refine ⟨accepts_of_sound hfit h, fun hi ho => ?_⟩
    obtain ⟨header, hheader, hlen⟩ := initializes_readable hfit hi
    have hdecodes := ((opens_iff blobCache hheader hlen).mp ho).1
    have hload := ((initializes_iff hfit hheader hlen).mp hi).1
    exact (between_initialized hfit hheader hlen hi).mpr
      ((h header hheader hlen).room hdecodes hload)

/-- A finished file that is opened by both. -/
theorem shortFile_sameVerdict :
    shortFile.length < 2 ^ 64 ∧
      SameVerdict (fun _ => 0) (fun _ => 0xff) true (new shortFile 7 2) := by
  have hheader : BlobFileReader.readHeader shortFile =
      .ok (BlobFileBuilder.header smallTrainOptions BlobFileHeader.kVersion2) := by decide +kernel
  have hfit : shortFile.length < 2 ^ 64 := by decide +kernel
  refine ⟨hfit, (sameVerdict_iff hfit 7 2 _ _ true).mpr fun header hfound _ => ?_⟩
  obtain rfl := Except.ok.inj (hheader.symm.trans hfound)
  have hdecodes : FooterDecodes shortFile := by decide +kernel
  exact ⟨fun _ hno => absurd hdecodes hno, fun _ _ => dictLoads_iff_of_le (by decide +kernel),
    fun _ _ => by decide +kernel⟩

/-- The file with another last byte: its checksum fails, and its dictionary is still found. -/
def damagedFile : Bytes := shortFile.dropLast ++ [shortFile.getLastD 0 + 1]

/-- Only a header and a footer, whose handle announces more than the file holds. -/
def hollowFile : Bytes :=
  BlobFileHeader.encodeTo {} ++ BlobFileFooter.encodeTo ⟨⟨0, 100⟩⟩

/-- `Init` takes the damaged file, which `Open` rejects. Both take the other one, and there `Init`
puts the end of the records behind the file. -/
theorem damagedFile_initializes :
    (Initializes (fun _ => 0) (new damagedFile 7 2) ∧
      (CachedReader.openFile damagedFile false).isOk = false) ∧
    ¬SameVerdict (fun _ => 0) (fun _ => 0) false (new damagedFile 7 2) ∧
    ¬SameVerdict (fun _ => 0) (fun _ => 0) false (new hollowFile 7 0) := by
  have hinit : Initializes (fun _ => 0) (new damagedFile 7 2) :=
    ⟨by decide +kernel, by decide +kernel⟩
  have hclosed : (CachedReader.openFile damagedFile false).isOk = false := by decide +kernel
  refine ⟨⟨hinit, hclosed⟩, fun h => ?_, fun h => ?_⟩
  · exact Bool.false_ne_true (hclosed.symm.trans (h.accepts.mp hinit))
  · have hhollow : Initializes (fun _ => 0) (new hollowFile 7 0) :=
      ⟨by decide +kernel, by decide +kernel⟩
    have hinside := (h.between hhollow (by decide +kernel)).2
    have houtside : ¬((new hollowFile 7 0).runInit fun _ => 0).1.endOfBlobRecord.toNat ≤
        (new hollowFile 7 0).file.length - BlobFileFooter.kEncodedLength := by decide +kernel
    exact houtside hinside

end AegonKV.BlobFileIterator
