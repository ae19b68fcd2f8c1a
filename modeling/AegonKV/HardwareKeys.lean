import AegonKV.HardwareBuffers

/-!
# The key list of a hardware job

For every copy the kernel lists the key with four 32-bit numbers, and `DoRunGCOnHardware` turns each
entry into a blob index. The list has 44 bytes an input entry, the numbers have 64 bits in the
kernel. What follows says which batches stay within both, and within the arrays for a key and a
value.
-/

namespace AegonKV.Kernel
open LittleEndian ByteMemory

/-! ## What `GetKV` stores -/

/-- The sizes `GetKV` copies to `key` and `value` for the entries left of a file. -/
def entryStores (inputs : Mem) (inputData : ℕ) (bitmaps : Mem) (inputBitmap : ℕ) :
    ℕ → ℕ → ℕ → KeyValue → List (ℕ × ℕ)
  | 0, _, _, _ => []
  | left + 1, j, curInput, kv =>
    let valid := checkValid j bitmaps inputBitmap
    let (kv, curInput) := getKV inputs inputData curInput valid (setZero kv)
    let rest := entryStores inputs inputData bitmaps inputBitmap left (j + 1) curInput kv
    if valid then (kv.keySize, kv.valueSize) :: rest else rest

def fileStores (inputs bitmaps : Mem) (dataLengths bitmapLengths entries : ℕ → ℕ) :
    ℕ → ℕ → ℕ → ℕ → List (ℕ × ℕ)
  | 0, _, _, _ => []
  | left + 1, i, inputData, inputBitmap =>
    let (_, curInput) := decodeHeader inputs inputData 0
    entryStores inputs inputData bitmaps inputBitmap (entries i) 0 curInput
        ⟨fun _ => 0, 0, fun _ => 0, 0⟩ ++
      fileStores inputs bitmaps dataLengths bitmapLengths entries left (i + 1)
        (inputData + dataLengths i) (inputBitmap + bitmapLengths i)

/-- The sizes are those of the copy loops; a skipped record leaves both arrays alone. -/
theorem getKV_copies (m : Mem) (data curOffset : ℕ) (valid : Bool) (kv : KeyValue) :
    let kv' := (getKV m data curOffset valid kv).1
    ∃ keySource valueSource,
      kv'.key = copy (if valid then kv'.keySize else 0) kv.key 0 m keySource ∧
      kv'.value = copy (if valid then kv'.valueSize else 0) kv.value 0 m valueSource := by
  cases valid with
  | true => exact ⟨_, _, rfl, rfl⟩
  | false => exact ⟨0, 0, rfl, rfl⟩

def Copied.sizes (c : Copied) : ℕ × ℕ := (c.record.key.length, c.record.value.length)

theorem entryStores_eq {inputs bitmaps : Mem} {inputData inputBitmap : ℕ} {bitmap : Bytes} (i : ℕ)
    (hb : Holds bitmaps inputBitmap bitmap) (rs : List BlobRecord) {j cur : ℕ} (kv : KeyValue)
    (hcover : j + rs.length ≤ 8 * bitmap.length) (henc : ∀ r ∈ rs, Encodable r)
    (hin : Holds inputs (inputData + cur) (rs.flatMap encodedRecord)) :
    entryStores inputs inputData bitmaps inputBitmap rs.length j cur kv =
      (copiedFrom i bitmap j cur rs).map Copied.sizes := by
  induction rs generalizing j cur kv with
  | nil => rfl
  | cons r rs ih =>
      have hr := henc r List.mem_cons_self
      have hrest : ∀ q ∈ rs, Encodable q := fun q hq => henc q (List.mem_cons_of_mem _ hq)
      rw [List.flatMap_cons] at hin
      obtain ⟨hrec, htail⟩ := holds_append.mp hin
      rw [Nat.add_assoc] at htail
      simp only [List.length_cons] at hcover
      rw [List.length_cons, entryStores, checkValid_eq hb (by omega)]
      by_cases hbit : bitmapBit bitmap j = true
      · simp only [hbit, Bool.not_true, Bool.false_eq_true, if_false,
          getKV_skip hr.key_lt hr.value_lt hrec, copiedFrom, if_true]
        exact ih _ (by omega) hrest htail
      · have hzero : bitmapBit bitmap j = false := by simpa using hbit
        have hget := getKV_valid hr.key_lt hr.value_lt hrec kv
        simp only [hzero, Bool.not_false, if_true, hget, copiedFrom, Bool.false_eq_true, if_false,
          List.map_cons]
        rw [ih _ (by omega) hrest htail]
        rfl

theorem fileStores_eq {inputs bitmaps : Mem} {dataLengths bitmapLengths entries : ℕ → ℕ}
    (files : List BatchFile) {i inputData inputBitmap : ℕ}
    (hplaced : Placed inputs bitmaps dataLengths bitmapLengths entries i inputData inputBitmap
      files) :
    fileStores inputs bitmaps dataLengths bitmapLengths entries files.length i inputData
      inputBitmap = (copiedInBatch i files).map Copied.sizes := by
  induction files generalizing i inputData inputBitmap with
  | nil => rfl
  | cons file files ih =>
      obtain ⟨hfile, hbitmap, hentries, hrest⟩ := hplaced
      obtain ⟨hheader, hrecords⟩ := holds_parts file.image hfile
      have hdec := decodeHeader_of_holds file.image.header_wf file.image.no_dictionary hheader
      have hstores := entryStores_eq i (j := 0) hbitmap file.image.records
        ⟨fun _ => 0, 0, fun _ => 0, 0⟩ (by simpa using file.covers) file.encodable hrecords
      rw [List.length_cons, fileStores, hdec, hentries, copiedInBatch, List.map_append, ← ih hrest]
      exact congrArg (· ++ _) hstores

/-! ## The room for keys -/

def OUTPUT_KEY_SIZE : ℕ := 4 * 5 + 24

/-- `output_key_size`, rounded as the file sizes are. -/
def outputKeySize (files : List BatchFile) : ℕ :=
  roundedSize ((files.map fun file => file.image.records.length).sum * OUTPUT_KEY_SIZE)

/-- No array and no buffer for keys is left: what `GetKV` stores, and the end of the key list. -/
def KeysStayInside (files : List BatchFile) (stores : List (ℕ × ℕ)) (result : Result) : Prop :=
  (∀ sizes ∈ stores, sizes.1 ≤ maxKeyLength ∧ sizes.2 ≤ maxValueLength) ∧
    result.outputMeta.getD 2 0 ≤ outputKeySize files

theorem length_keyBytes (newOffset : ℕ) {cs : List Copied}
    (hshort : ∀ c ∈ cs, c.record.key.length ≤ maxKeyLength) :
    (keyBytes newOffset cs).length = (cs.map fun c => c.record.key.length + 17).sum := by
  induction cs generalizing newOffset with
  | nil => rfl
  | cons c cs ih =>
      have hk := hshort c List.mem_cons_self
      rw [maxKeyLength] at hk
      have hslice : (putLengthPrefixedSlice c.record.key).length = c.record.key.length + 1 := by
        rw [putLengthPrefixedSlice_eq (by omega), List.length_append, AegonKV.encodeVarint32,
          if_pos (by omega)]
        exact Nat.add_comm 1 _
      rw [keyBytes, List.length_append, ih _ fun d hd => hshort d (List.mem_cons_of_mem _ hd),
        List.map_cons, List.sum_cons, keyEntry]
      simp only [List.length_append, length_leBytes, hslice]

theorem outputMeta_key {files : List BatchFile} {inputDatas inputBitmaps : Mem}
    {dataLengths bitmapLengths entries : ℕ → ℕ}
    (hplaced : Placed inputDatas inputBitmaps dataLengths bitmapLengths entries 0 0 0 files)
    (outputData outputKey : Mem) :
    (gcKernel inputDatas inputBitmaps outputData outputKey dataLengths bitmapLengths entries
      files.length).outputMeta.getD 2 0 =
      (keyBytes headerBytes.length (copiedInBatch 0 files)).length := by
  obtain ⟨padding, footerPadding, hpad, -, hmeta, -⟩ := gcKernel_batch hplaced outputData outputKey
  rw [hmeta]
  rfl

/-- The records with bit 0 fit the arrays, and their keys with 17 bytes each fit the list. -/
def KeysFit (files : List BatchFile) : Prop :=
  (∀ c ∈ copiedInBatch 0 files, Fits c.record) ∧
    ((copiedInBatch 0 files).map fun c => c.record.key.length + 17).sum ≤ outputKeySize files

/-- The kernel stays within its arrays and the key list exactly for batches whose keys fit. -/
theorem keysStayInside_iff {files : List BatchFile} {inputDatas inputBitmaps : Mem}
    {dataLengths bitmapLengths entries : ℕ → ℕ}
    (hplaced : Placed inputDatas inputBitmaps dataLengths bitmapLengths entries 0 0 0 files)
    (outputData outputKey : Mem) :
    KeysStayInside files
      (fileStores inputDatas inputBitmaps dataLengths bitmapLengths entries files.length 0 0 0)
      (gcKernel inputDatas inputBitmaps outputData outputKey dataLengths bitmapLengths entries
        files.length) ↔ KeysFit files := by
  have hstores : (∀ sizes ∈ (copiedInBatch 0 files).map Copied.sizes,
      sizes.1 ≤ maxKeyLength ∧ sizes.2 ≤ maxValueLength) ↔
      ∀ c ∈ copiedInBatch 0 files, Fits c.record := List.forall_mem_map
  rw [KeysStayInside, KeysFit, fileStores_eq files hplaced, hstores, outputMeta_key hplaced]
  refine and_congr_right fun hfits => ?_
  rw [length_keyBytes _ fun c hc => (hfits c hc).1]

theorem copied_halfInvalidFile :
    copiedInBatch 0 [halfInvalidFile.toBatchFile] = [⟨0, 21, ⟨[3], [4]⟩⟩] := by decide

theorem halfInvalidFile_keysStayInside :
    KeysStayInside [halfInvalidFile.toBatchFile] [(1, 1)]
      (gcKernelAlone halfInvalidFile.toBatchFile) := by
  have hplaced := placed_singleton halfInvalidFile.toBatchFile
  have hstores := fileStores_eq _ hplaced
  rw [copied_halfInvalidFile] at hstores
  have hinside := (keysStayInside_iff hplaced (fun _ => 0) fun _ => 0).mpr (by
    rw [KeysFit, copied_halfInvalidFile]
    exact ⟨List.forall_mem_singleton.mpr ⟨by decide, by decide⟩, by decide⟩)
  rwa [hstores] at hinside

def longKeyFile : BatchFile where
  image := .version2 [⟨List.replicate 65 1, [2]⟩]
  bitmap := [0]
  covers := Nat.one_le_ofNat
  encodable := by
    intro r hr
    rw [List.mem_singleton.mp hr]
    decide

theorem longKeyFile_overruns :
    ¬KeysStayInside [longKeyFile]
      (fileStores (writeBytes (fun _ => 0) 0 longKeyFile.image.bytes)
        (writeBytes (fun _ => 0) 0 longKeyFile.bitmap)
        (fun _ => roundedSize longKeyFile.image.bytes.length) (fun _ => longKeyFile.bitmap.length)
        (fun _ => longKeyFile.image.records.length) 1 0 0 0)
      (gcKernelAlone longKeyFile) := by
  rintro ⟨hstores, -⟩
  have hcopied : copiedInBatch 0 [longKeyFile] = [⟨0, 12, ⟨List.replicate 65 1, [2]⟩⟩] := by decide
  have hlong := hstores (65, 1) (by
    rw [show 1 = [longKeyFile].length from rfl,
      fileStores_eq [longKeyFile] (placed_singleton longKeyFile), hcopied]
    exact List.mem_cons_self)
  exact absurd hlong.1 (by decide)

/-! ## The numbers of an entry -/

/-- The blob index that `DoRunGCOnHardware` makes of entry `i`; `inputs` are the numbers of the input
files. -/
def newBlobIndex (outputNumber : UInt64) (inputs : List UInt64) (i : ℕ) (entry : Bytes × List ℕ) :
    BlobIndex :=
  let indexMeta := fun k => entry.2.getD k 0
  { fileNumber := outputNumber
    blobHandle := ⟨UInt64.ofNat (indexMeta 0), UInt64.ofNat (indexMeta 3), UInt64.ofNat i⟩
    oldFileNumber := inputs.getD (indexMeta 1) 0
    oldBlobHandle := ⟨UInt64.ofNat (indexMeta 2), UInt64.ofNat (indexMeta 3), 0⟩ }

def newBlobIndexes (outputNumber : UInt64) (inputs : List UInt64) (result : Result) :
    Option (List BlobIndex) :=
  (getOutputKeys result.outputKey (result.outputMeta.getD 0 0) 0).map fun keys =>
    keys.mapIdx (newBlobIndex outputNumber inputs)

def copyOffset (files : List BatchFile) (t : ℕ) : ℕ :=
  headerBytes.length + (((copiedInBatch 0 files).take t).flatMap Copied.bytes).length

/-- Every index has the offsets and the size that the kernel had for its record. -/
def OffsetsSurvive (files : List BatchFile) (indexes : Option (List BlobIndex)) : Prop :=
  ∃ list, indexes = some list ∧ ∀ t c, (copiedInBatch 0 files)[t]? = some c →
    ∃ index, list[t]? = some index ∧ index.blobHandle.offset.toNat = copyOffset files t ∧
      index.blobHandle.size.toNat = c.size ∧ index.oldBlobHandle.offset.toNat = c.oldOffset ∧
      index.oldBlobHandle.size.toNat = c.size

theorem getElem?_storedKeys (newOffset : ℕ) (cs : List Copied) (t : ℕ) :
    (storedKeys newOffset cs)[t]? = cs[t]?.map
      (storedKeyOf (newOffset + ((cs.take t).flatMap Copied.bytes).length)) := by
  induction cs generalizing newOffset t with
  | nil => rfl
  | cons c cs ih =>
      cases t with
      | zero => rfl
      | succ t =>
          rw [storedKeys, List.getElem?_cons_succ, List.getElem?_cons_succ, ih, List.take_succ_cons,
            List.flatMap_cons, List.length_append, Nat.add_assoc]
          rfl

theorem encodable_of_mem {i : ℕ} {files : List BatchFile} {c : Copied}
    (h : c ∈ copiedInBatch i files) : Encodable c.record := by
  induction files generalizing i with
  | nil => cases h
  | cons file files ih =>
      rcases List.mem_append.mp h with h | h
      · obtain ⟨-, t, ht, -⟩ := mem_copiedFrom h
        exact file.encodable _ (List.mem_of_getElem? ht)
      · exact ih h

/-- The host reads back what 32 bits keep of the list. -/
theorem getOutputKeys_result {files : List BatchFile} {inputDatas inputBitmaps : Mem}
    {dataLengths bitmapLengths entries : ℕ → ℕ}
    (hplaced : Placed inputDatas inputBitmaps dataLengths bitmapLengths entries 0 0 0 files)
    (outputData outputKey : Mem) :
    let result := gcKernel inputDatas inputBitmaps outputData outputKey dataLengths bitmapLengths
      entries files.length
    result.outputMeta.getD 0 0 = (copiedInBatch 0 files).length ∧
      getOutputKeys result.outputKey (result.outputMeta.getD 0 0) 0 =
        some (storedKeys headerBytes.length (copiedInBatch 0 files)) := by
  obtain ⟨padding, footerPadding, hpad, -, hmeta, -, hkeys⟩ :=
    gcKernel_batch hplaced outputData outputKey
  have hstored := getOutputKeys_stored (fun c hc => (encodable_of_mem hc).key_lt) hkeys
  dsimp only
  rw [hmeta]
  exact ⟨rfl, hstored⟩

theorem newBlobIndexes_eq {files : List BatchFile} {inputDatas inputBitmaps : Mem}
    {dataLengths bitmapLengths entries : ℕ → ℕ}
    (hplaced : Placed inputDatas inputBitmaps dataLengths bitmapLengths entries 0 0 0 files)
    (outputData outputKey : Mem) (outputNumber : UInt64) (inputs : List UInt64) :
    newBlobIndexes outputNumber inputs (gcKernel inputDatas inputBitmaps outputData outputKey
      dataLengths bitmapLengths entries files.length) =
      some ((storedKeys headerBytes.length (copiedInBatch 0 files)).mapIdx
        (newBlobIndex outputNumber inputs)) := by
  rw [newBlobIndexes, (getOutputKeys_result hplaced outputData outputKey).2, Option.map_some]

theorem toNat_ofNat_mod (x : ℕ) : (UInt64.ofNat (x % 2 ^ 32)).toNat = x % 2 ^ 32 :=
  toNat_ofNat_of_lt (Nat.mod_lt _ (by decide))

theorem mod_eq_self_iff {x : ℕ} : x % 2 ^ 32 = x ↔ x < 2 ^ 32 :=
  Nat.mod_eq_iff_lt (by decide)

/-- One index is right exactly when its three numbers have 32 bits. -/
theorem newBlobIndex_stored_iff (outputNumber : UInt64) (inputs : List UInt64) (t offset : ℕ)
    (c : Copied) :
    let index := newBlobIndex outputNumber inputs t (storedKeyOf offset c)
    (index.blobHandle.offset.toNat = offset ∧ index.blobHandle.size.toNat = c.size ∧
        index.oldBlobHandle.offset.toNat = c.oldOffset ∧ index.oldBlobHandle.size.toNat = c.size) ↔
      offset < 2 ^ 32 ∧ c.oldOffset < 2 ^ 32 ∧ c.size < 2 ^ 32 := by
  change ((UInt64.ofNat (offset % 2 ^ 32)).toNat = offset ∧
    (UInt64.ofNat (c.size % 2 ^ 32)).toNat = c.size ∧
    (UInt64.ofNat (c.oldOffset % 2 ^ 32)).toNat = c.oldOffset ∧
    (UInt64.ofNat (c.size % 2 ^ 32)).toNat = c.size) ↔ _
  simp only [toNat_ofNat_mod, mod_eq_self_iff]
  constructor
  · rintro ⟨hnew, hsize, hold, -⟩
    exact ⟨hnew, hold, hsize⟩
  · rintro ⟨hnew, hold, hsize⟩
    exact ⟨hnew, hsize, hold, hsize⟩

theorem offsetsSurvive_some_iff (files : List BatchFile) (outputNumber : UInt64)
    (inputs : List UInt64) :
    OffsetsSurvive files (some ((storedKeys headerBytes.length (copiedInBatch 0 files)).mapIdx
        (newBlobIndex outputNumber inputs))) ↔
      ∀ t c, (copiedInBatch 0 files)[t]? = some c →
        copyOffset files t < 2 ^ 32 ∧ c.oldOffset < 2 ^ 32 ∧ c.size < 2 ^ 32 := by
  have hindex : ∀ t c, (copiedInBatch 0 files)[t]? = some c →
      ((storedKeys headerBytes.length (copiedInBatch 0 files)).mapIdx
        (newBlobIndex outputNumber inputs))[t]? =
        some (newBlobIndex outputNumber inputs t (storedKeyOf (copyOffset files t) c)) := by
    intro t c hc
    rw [List.getElem?_mapIdx, getElem?_storedKeys, hc]
    rfl
  constructor
  · rintro ⟨list, hlist, h⟩ t c hc
    obtain rfl := Option.some.inj hlist
    obtain ⟨index, ht, hvalues⟩ := h t c hc
    obtain rfl := Option.some.inj (ht.symm.trans (hindex t c hc))
    exact (newBlobIndex_stored_iff outputNumber inputs t (copyOffset files t) c).mp hvalues
  · intro h
    refine ⟨_, rfl, fun t c hc => ⟨_, hindex t c hc, ?_⟩⟩
    exact (newBlobIndex_stored_iff outputNumber inputs t (copyOffset files t) c).mpr (h t c hc)

/-- The records with bit 0 are below 4 GiB long and start below 4 GiB in their files, and so do their
copies behind each other. -/
def OffsetsHave32Bits (files : List BatchFile) : Prop :=
  (∀ c ∈ copiedInBatch 0 files, c.oldOffset < 2 ^ 32 ∧ c.size < 2 ^ 32) ∧
    headerBytes.length + ((copiedInBatch 0 files).dropLast.flatMap Copied.bytes).length < 2 ^ 32

/-- The last copy has the largest offset. -/
theorem copyOffset_lt_iff (files : List BatchFile) :
    (∀ t c, (copiedInBatch 0 files)[t]? = some c → copyOffset files t < 2 ^ 32) ↔
      headerBytes.length + ((copiedInBatch 0 files).dropLast.flatMap Copied.bytes).length <
        2 ^ 32 := by
  rw [List.dropLast_eq_take]
  constructor
  · intro h
    cases hlast : (copiedInBatch 0 files)[(copiedInBatch 0 files).length - 1]? with
    | some c => exact h _ c hlast
    | none =>
        have hempty : copiedInBatch 0 files = [] := by
          rw [List.getElem?_eq_none_iff] at hlast
          exact List.eq_nil_of_length_eq_zero (by omega)
        rw [hempty]
        decide
  · intro h t c hc
    have ht := (List.getElem?_eq_some_iff.mp hc).1
    obtain ⟨k, hk⟩ := Nat.exists_eq_add_of_le (Nat.le_sub_one_of_lt ht)
    rw [hk, List.take_add, List.flatMap_append, List.length_append] at h
    rw [copyOffset]
    omega

/-- The new indices have the offsets and sizes of the kernel exactly when 32 bits hold them. -/
theorem offsetsSurvive_iff {files : List BatchFile} {inputDatas inputBitmaps : Mem}
    {dataLengths bitmapLengths entries : ℕ → ℕ}
    (hplaced : Placed inputDatas inputBitmaps dataLengths bitmapLengths entries 0 0 0 files)
    (outputData outputKey : Mem) (outputNumber : UInt64) (inputs : List UInt64) :
    OffsetsSurvive files (newBlobIndexes outputNumber inputs (gcKernel inputDatas inputBitmaps
        outputData outputKey dataLengths bitmapLengths entries files.length)) ↔
      OffsetsHave32Bits files := by
  rw [newBlobIndexes_eq hplaced, offsetsSurvive_some_iff, OffsetsHave32Bits, ← copyOffset_lt_iff]
  constructor
  · intro h
    refine ⟨fun c hc => ?_, fun t c hc => (h t c hc).1⟩
    obtain ⟨t, ht⟩ := List.mem_iff_getElem?.mp hc
    exact (h t c ht).2
  · rintro ⟨hrecords, hcopies⟩ t c hc
    exact ⟨hcopies t c hc, hrecords c (List.mem_of_getElem? hc)⟩

theorem halfInvalidFile_offsetsSurvive :
    OffsetsSurvive [halfInvalidFile.toBatchFile]
      (newBlobIndexes 9 [7] (gcKernelAlone halfInvalidFile.toBatchFile)) := by
  refine (offsetsSurvive_iff (placed_singleton halfInvalidFile.toBatchFile) (fun _ => 0) (fun _ => 0)
    9 [7]).mpr ?_
  rw [OffsetsHave32Bits, copied_halfInvalidFile]
  exact ⟨List.forall_mem_singleton.mpr ⟨by decide, by decide⟩, by decide⟩

def hugeRecords : List BlobRecord := List.replicate (2 ^ 20 + 1) ⟨[1], List.replicate 4096 0⟩

theorem length_hugeRecords : hugeRecords.length = 2 ^ 20 + 1 := List.length_replicate

theorem hugeRecords_encodable : ∀ r ∈ hugeRecords, r.encodeTo.length < 2 ^ 32 := by
  intro r hr
  have hlen := length_encodedRecord_zeros (n := 4096) (by omega) (by omega)
  rw [length_encodedRecord] at hlen
  rw [List.eq_of_mem_replicate hr]
  omega

/-- A file above 4 GiB, its records within the limits of the kernel and all valid. -/
def hugeFile : BatchFile where
  image := .version2 hugeRecords
  bitmap := List.replicate (2 ^ 17 + 1) 0
  covers := by
    change hugeRecords.length ≤ _
    rw [length_hugeRecords, List.length_replicate]
    omega
  encodable := hugeRecords_encodable

theorem records_hugeFile : (copiedInBatch 0 [hugeFile]).map (·.record) = hugeRecords := by
  rw [copiedInBatch, copiedInBatch, List.append_nil, BatchFile.copied, copiedFrom_records]
  have hall : ((hugeFile.image.records.zipIdx 0).filter fun x =>
      !bitmapBit hugeFile.bitmap x.2) = hugeFile.image.records.zipIdx 0 := by
    rw [List.filter_eq_self]
    intro x _
    rw [hugeFile, bitmapBit_zeros]
    rfl
  rw [hall, List.zipIdx_map_fst]
  rfl

/-- The last copy starts above 4 GiB, its index says something smaller. -/
theorem hugeFile_offset_wraps :
    ¬OffsetsSurvive [hugeFile] (newBlobIndexes 9 [7] (gcKernelAlone hugeFile)) := by
  have hindexes : newBlobIndexes 9 [7] (gcKernelAlone hugeFile) = _ :=
    newBlobIndexes_eq (placed_singleton hugeFile) (fun _ => 0) (fun _ => 0) 9 [7]
  rw [hindexes, offsetsSurvive_some_iff]
  intro h
  have hlast := (copyOffset_lt_iff [hugeFile]).mp fun t c hc => (h t c hc).1
  have hsum : ((copiedInBatch 0 [hugeFile]).dropLast.flatMap Copied.bytes).length =
      2 ^ 20 * 4109 := by
    rw [flatMap_bytes, List.map_dropLast, records_hugeFile, hugeRecords, List.dropLast_replicate,
      List.length_flatMap, List.map_replicate, List.sum_replicate_nat,
      length_encodedRecord_zeros (by omega) (by omega)]
    rfl
  rw [hsum, length_headerBytes] at hlast
  omega

end AegonKV.Kernel
