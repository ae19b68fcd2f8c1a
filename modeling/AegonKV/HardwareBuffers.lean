import AegonKV.GcKernelCorrect
import AegonKV.HardwareInput

/-!
# The sizes of the device buffers

`run_gc_kernel` allocates the output file, the key list and nothing else from sizes it knows before
the kernel runs; the kernel has local arrays for one key and one value. No code compares the records
with these sizes. Here the bytes the kernel stores are compared with the room it has.
-/

namespace AegonKV.Kernel
open LittleEndian ByteMemory

/-! ## The input buffers -/

theorem kBlobFooterSize_eq : kBlobFooterSize = 32 := rfl

theorem length_bytes (image : BlobImage) :
    image.bytes.length = image.header.size + (image.records.flatMap encodedRecord).length +
      image.padding.length + kBlobFooterSize :=
  image.length_bytes

/-- What the host gives the kernel of file `i`. -/
def hostLengths (files : List BatchFile) (f : BatchFile → ℕ) (i : ℕ) : ℕ := (files[i]?.map f).getD 0

/-- `run_gc_kernel` up to the end of the kernel: `device` is what the mapped input buffer holds
before, the bitmaps and the key list are in memory set to zero. -/
def runGcKernel (files : List BatchFile) (device outputData : Mem) : Option Result := do
  let inputDatas ← readInputs (files.map fun file => file.image.bytes) device 0
  return gcKernel inputDatas (writeBytes (fun _ => 0) 0 (files.flatMap BatchFile.bitmap)) outputData
    (fun _ => 0) (hostLengths files fun file => roundedSize file.image.bytes.length)
    (hostLengths files fun file => file.bitmap.length)
    (hostLengths files fun file => file.image.records.length) files.length

/-- Files one behind the other, given by the lengths before them. -/
theorem placed_of_getElem? {inputDatas inputBitmaps : Mem} {dataLengths bitmapLengths entries : ℕ → ℕ}
    {files : List BatchFile} {i inputData inputBitmap : ℕ}
    (hdatas : ∀ n file, files[n]? = some file → Holds inputDatas
      (inputData + ((files.take n).map fun file => roundedSize file.image.bytes.length).sum)
      file.image.bytes)
    (hbitmaps : Holds inputBitmaps inputBitmap (files.flatMap BatchFile.bitmap))
    (hlengths : ∀ n file, files[n]? = some file →
      dataLengths (i + n) = roundedSize file.image.bytes.length ∧
        bitmapLengths (i + n) = file.bitmap.length ∧
        entries (i + n) = file.image.records.length) :
    Placed inputDatas inputBitmaps dataLengths bitmapLengths entries i inputData inputBitmap
      files := by
  induction files generalizing i inputData inputBitmap with
  | nil => trivial
  | cons file files ih =>
      obtain ⟨hdata, hbitmap, hentries⟩ := hlengths 0 file rfl
      rw [List.flatMap_cons] at hbitmaps
      obtain ⟨hfirst, hrest⟩ := holds_append.mp hbitmaps
      rw [Nat.add_zero] at hdata hbitmap hentries
      refine ⟨hdatas 0 file rfl, hfirst, hentries, ih (fun n other hn => ?_) ?_ fun n other hn => ?_⟩
      · have hlater := hdatas (n + 1) other hn
        rwa [List.take_succ_cons, List.map_cons, List.sum_cons, ← Nat.add_assoc, ← hdata] at hlater
      · rwa [hbitmap]
      · have hlater := hlengths (n + 1) other hn
        rwa [← Nat.add_assoc, Nat.add_right_comm] at hlater

theorem runGcKernel_placed {files : List BatchFile}
    (hbands : ∀ file ∈ files, ¬RoundTooMany file.image.bytes.length) (device outputData : Mem) :
    ∃ inputDatas inputBitmaps dataLengths bitmapLengths entries,
      Placed inputDatas inputBitmaps dataLengths bitmapLengths entries 0 0 0 files ∧
      runGcKernel files device outputData = some (gcKernel inputDatas inputBitmaps outputData
        (fun _ => 0) dataLengths bitmapLengths entries files.length) := by
  have hfiles : ∀ bytes ∈ files.map fun file => file.image.bytes,
      1 ≤ bytes.length ∧ ¬RoundTooMany bytes.length := by
    intro bytes hbytes
    obtain ⟨file, hfile, rfl⟩ := List.mem_map.mp hbytes
    refine ⟨?_, hbands file hfile⟩
    rw [length_bytes, kBlobFooterSize_eq]
    omega
  obtain ⟨inputDatas, hread, -, hholds⟩ := readInputs_holds hfiles device 0
  have hrun : runGcKernel files device outputData = some (gcKernel inputDatas
      (writeBytes (fun _ => 0) 0 (files.flatMap BatchFile.bitmap)) outputData (fun _ => 0)
      (hostLengths files fun file => roundedSize file.image.bytes.length)
      (hostLengths files fun file => file.bitmap.length)
      (hostLengths files fun file => file.image.records.length) files.length) := by
    rw [runGcKernel, hread, Option.bind_eq_bind, Option.bind_some, Option.pure_def]
  refine ⟨_, _, _, _, _, placed_of_getElem? (fun n file hn => ?_) (holds_writeBytes _ _ _)
    (fun n file hn => ?_), hrun⟩
  · have hbytes := hholds n file.image.bytes (by rw [List.getElem?_map, hn]; rfl)
    rwa [← List.map_take, List.map_map] at hbytes
  · have hfile : ∀ f, hostLengths files f (0 + n) = f file := by
      intro f
      rw [Nat.zero_add, hostLengths, hn, Option.map_some, Option.getD_some]
    exact ⟨hfile _, hfile _, hfile _⟩

/-! ## The output file -/

/-- `output_file_size`: the regions of the input files. -/
def outputFileSize (files : List BatchFile) : ℕ :=
  (files.map fun file => roundedSize file.image.bytes.length).sum

def liveBytes (files : List BatchFile) : ℕ :=
  ((copiedInBatch 0 files).flatMap Copied.bytes).length

/-- A checksum, a size, a type and two length bytes. -/
theorem le_length_encodedRecord (r : BlobRecord) : 11 ≤ (encodedRecord r).length := by
  have hvarint : ∀ s : Bytes, 1 ≤ (putLengthPrefixedSlice s).length := by
    intro s
    rw [putLengthPrefixedSlice, List.length_append, putVarint32, AegonKV.encodeVarint32]
    split_ifs <;> simp only [List.length_cons] <;> omega
  have hk := hvarint r.key
  have hv := hvarint r.value
  rw [length_encodedRecord, BlobRecord.encodeTo, List.length_append, kRecordHeaderSize]
  omega

/-- Every record from entry `j` on has bit 0. -/
def AllLive (bitmap : Bytes) (j : ℕ) (rs : List BlobRecord) : Prop :=
  ∀ t < rs.length, bitmapBit bitmap (j + t) = false

theorem copiedFrom_length_le (i : ℕ) (bitmap : Bytes) (j offset : ℕ) (rs : List BlobRecord) :
    ((copiedFrom i bitmap j offset rs).flatMap Copied.bytes).length ≤
      (rs.flatMap encodedRecord).length := by
  induction rs generalizing j offset with
  | nil => exact Nat.zero_le _
  | cons r rs ih =>
      have hrest := ih (j + 1) (offset + (encodedRecord r).length)
      rw [copiedFrom]
      split_ifs
      · rw [List.flatMap_cons, List.length_append]
        omega
      · rw [List.flatMap_cons, List.flatMap_cons, List.length_append, List.length_append]
        exact Nat.add_le_add_left hrest _

/-- A file that keeps all its records copies all their bytes, any other at least a record less. -/
theorem copiedFrom_length (i : ℕ) (bitmap : Bytes) (j offset : ℕ) (rs : List BlobRecord) :
    (AllLive bitmap j rs ∧ ((copiedFrom i bitmap j offset rs).flatMap Copied.bytes).length =
      (rs.flatMap encodedRecord).length) ∨
    (¬AllLive bitmap j rs ∧ ((copiedFrom i bitmap j offset rs).flatMap Copied.bytes).length + 11 ≤
      (rs.flatMap encodedRecord).length) := by
  induction rs generalizing j offset with
  | nil => exact Or.inl ⟨fun t ht => absurd ht (Nat.not_lt_zero t), rfl⟩
  | cons r rs ih =>
      have hmin := le_length_encodedRecord r
      have hle := copiedFrom_length_le i bitmap (j + 1) (offset + (encodedRecord r).length) rs
      by_cases hbit : bitmapBit bitmap j = true
      · refine Or.inr ⟨fun hall => ?_, ?_⟩
        · have hfirst := hall 0 (Nat.zero_lt_succ _)
          rw [Nat.add_zero, hbit] at hfirst
          cases hfirst
        · rw [copiedFrom, if_pos hbit, List.flatMap_cons, List.length_append]
          omega
      · have hcons : ∀ t, j + (t + 1) = j + 1 + t := fun t => by omega
        have hlength : ((copiedFrom i bitmap j offset (r :: rs)).flatMap Copied.bytes).length =
            (encodedRecord r).length + ((copiedFrom i bitmap (j + 1)
              (offset + (encodedRecord r).length) rs).flatMap Copied.bytes).length := by
          rw [copiedFrom, if_neg hbit, List.flatMap_cons, List.length_append]
          rfl
        rw [hlength, List.flatMap_cons, List.length_append]
        rcases ih (j + 1) (offset + (encodedRecord r).length) with ⟨hall, heq⟩ | ⟨hsome, hless⟩
        · refine Or.inl ⟨fun t ht => ?_, by rw [heq]⟩
          cases t with
          | zero => simpa using hbit
          | succ t =>
              rw [hcons]
              exact hall t (Nat.lt_of_succ_lt_succ ht)
        · refine Or.inr ⟨fun hall => hsome fun t ht => ?_, by omega⟩
          have hlater := hall (t + 1) (Nat.succ_lt_succ ht)
          rwa [hcons] at hlater

theorem copiedInBatch_length_le (i : ℕ) (files : List BatchFile) :
    ((copiedInBatch i files).flatMap Copied.bytes).length + 40 * files.length ≤
      (files.map fun file => file.image.bytes.length).sum := by
  induction files generalizing i with
  | nil => exact Nat.zero_le _
  | cons file files ih =>
      have hrest := ih (i + 1)
      have hfile := copiedFrom_length_le i file.bitmap 0 file.image.header.size file.image.records
      have hlen := length_bytes file.image
      have hheader : 8 ≤ file.image.header.size := by
        rw [BlobFileHeader.size]
        split_ifs
        · decide
        · decide
      have hfooter : kBlobFooterSize = 32 := rfl
      rw [copiedInBatch, List.flatMap_append, List.length_append, List.map_cons, List.sum_cons,
        BatchFile.copied, List.length_cons]
      omega

theorem length_headerBytes : headerBytes.length = 12 := rfl

/-- Header, records and footer are padded to the next page. -/
theorem outputMeta_data {files : List BatchFile} {inputDatas inputBitmaps : Mem}
    {dataLengths bitmapLengths entries : ℕ → ℕ}
    (hplaced : Placed inputDatas inputBitmaps dataLengths bitmapLengths entries 0 0 0 files)
    (outputData outputKey : Mem) :
    (gcKernel inputDatas inputBitmaps outputData outputKey dataLengths bitmapLengths entries
      files.length).outputMeta.getD 1 0 =
      12 + liveBytes files + alignPadding (12 + liveBytes files) + 32 := by
  obtain ⟨padding, footerPadding, hpad, halign, hmeta, -⟩ :=
    gcKernel_batch hplaced outputData outputKey
  have hlen := length_bytes (outputImage (copiedInBatch 0 files) padding footerPadding hpad)
  have hrecords : ((outputImage (copiedInBatch 0 files) padding footerPadding
      hpad).records.flatMap encodedRecord).length = liveBytes files := by
    rw [liveBytes, flatMap_bytes]
    rfl
  have hpadding : (outputImage (copiedInBatch 0 files) padding footerPadding
      hpad).padding.length = alignPadding (12 + liveBytes files) := by
    rw [List.length_append, length_headerBytes] at halign
    exact halign
  rw [hmeta]
  change (outputImage (copiedInBatch 0 files) padding footerPadding hpad).bytes.length = _
  rw [hlen, hrecords, hpadding]
  rfl

theorem outputFileSize_mod (files : List BatchFile) : outputFileSize files % 4096 = 0 := by
  induction files with
  | nil => rfl
  | cons file files ih =>
      have hone := roundedSize_eq file.image.bytes.length
      rw [outputFileSize] at ih ⊢
      rw [List.map_cons, List.sum_cons, hone]
      omega

/-- The regions are whole pages, so the padding never leaves them alone. -/
theorem output_le_iff {files : List BatchFile} {inputDatas inputBitmaps : Mem}
    {dataLengths bitmapLengths entries : ℕ → ℕ}
    (hplaced : Placed inputDatas inputBitmaps dataLengths bitmapLengths entries 0 0 0 files)
    (outputData outputKey : Mem) :
    (gcKernel inputDatas inputBitmaps outputData outputKey dataLengths bitmapLengths entries
      files.length).outputMeta.getD 1 0 ≤ outputFileSize files ↔
      44 + liveBytes files ≤ outputFileSize files := by
  obtain ⟨hlt, hpage⟩ := alignPadding_spec (12 + liveBytes files)
  have hwhole := outputFileSize_mod files
  rw [kBlobFooterSize_eq] at hpage
  rw [outputMeta_data hplaced outputData outputKey]
  constructor
  · omega
  · omega

/-- A version 1 file that keeps every record and is so close below its region that the 4 bytes of
header which version 2 adds do not fit. -/
def Tight (file : BatchFile) : Prop :=
  file.image.header.version = BlobFileHeader.kVersion1 ∧
    AllLive file.bitmap 0 file.image.records ∧
    roundedSize file.image.bytes.length + file.image.padding.length < file.image.bytes.length + 4

theorem liveBytes_singleton (file : BatchFile) :
    liveBytes [file] = ((copiedFrom 0 file.bitmap 0 file.image.header.size
      file.image.records).flatMap Copied.bytes).length := by
  rw [liveBytes, copiedInBatch, copiedInBatch, List.append_nil, BatchFile.copied]

theorem output_singleton_iff (file : BatchFile) :
    44 + liveBytes [file] ≤ outputFileSize [file] ↔ ¬Tight file := by
  have hlen := length_bytes file.image
  have hregion := lt_roundedSize file.image.bytes.length
  rw [kBlobFooterSize_eq] at hlen
  rw [liveBytes_singleton, outputFileSize, List.map_singleton, List.sum_singleton]
  rcases copiedFrom_length 0 file.bitmap 0 file.image.header.size file.image.records with
    ⟨hall, heq⟩ | ⟨hsome, hless⟩
  · by_cases hversion : file.image.header.version = BlobFileHeader.kVersion1
    · have hheader : file.image.header.size = 8 := by
        rw [BlobFileHeader.size, if_pos hversion]
        rfl
      constructor
      · rintro hfit ⟨-, -, htight⟩
        omega
      · intro hloose
        by_contra hover
        exact hloose ⟨hversion, hall, by omega⟩
    · have hheader : file.image.header.size = 12 := by
        rw [BlobFileHeader.size, if_neg hversion]
        rfl
      refine iff_of_true ?_ fun htight => hversion htight.1
      omega
  · refine iff_of_true ?_ fun htight => hsome htight.2.1
    omega

theorem sum_le_outputFileSize (files : List BatchFile) :
    (files.map fun file => file.image.bytes.length).sum ≤ outputFileSize files := by
  induction files with
  | nil => exact Nat.zero_le _
  | cons file files ih =>
      have hregion := lt_roundedSize file.image.bytes.length
      rw [outputFileSize] at ih ⊢
      rw [List.map_cons, List.sum_cons, List.map_cons, List.sum_cons]
      omega

/-- The output file stays within its buffer except for one tight file alone. -/
theorem output_fits_iff {files : List InputFile} {inputDatas inputBitmaps : Mem}
    {dataLengths bitmapLengths entries : ℕ → ℕ}
    (hl : Laid files inputDatas inputBitmaps dataLengths bitmapLengths entries) (hne : files ≠ [])
    (outputData outputKey : Mem) :
    (gcKernel inputDatas inputBitmaps outputData outputKey dataLengths bitmapLengths entries
        files.length).outputMeta.getD 1 0 ≤ outputFileSize (files.map InputFile.toBatchFile) ↔
      ¬∃ file, files = [file] ∧ Tight file.toBatchFile := by
  have hiff := output_le_iff hl outputData outputKey
  rw [List.length_map] at hiff
  rw [hiff]
  cases files with
  | nil => exact absurd rfl hne
  | cons file rest =>
      cases rest with
      | nil =>
          rw [List.map_singleton, output_singleton_iff]
          constructor
          · rintro hloose ⟨other, hother, htight⟩
            obtain ⟨rfl, -⟩ := List.cons.inj hother
            exact hloose htight
          · exact fun hno htight => hno ⟨file, rfl, htight⟩
      | cons next rest =>
          refine iff_of_true ?_ ?_
          · have hlive := copiedInBatch_length_le 0
              ((file :: next :: rest).map InputFile.toBatchFile)
            have hsum := sum_le_outputFileSize ((file :: next :: rest).map InputFile.toBatchFile)
            rw [List.length_map, List.length_cons, List.length_cons] at hlive
            rw [liveBytes]
            omega
          · rintro ⟨other, hother, -⟩
            cases (List.cons.inj hother).2

/-- The buffers of one file as the host fills them. -/
theorem placed_singleton (file : BatchFile) :
    Placed (writeBytes (fun _ => 0) 0 file.image.bytes) (writeBytes (fun _ => 0) 0 file.bitmap)
      (fun _ => roundedSize file.image.bytes.length) (fun _ => file.bitmap.length)
      (fun _ => file.image.records.length) 0 0 0 [file] :=
  ⟨holds_writeBytes _ _ _, holds_writeBytes _ _ _, rfl, trivial⟩

/-- The kernel on one file, with output buffers full of zeros. -/
def gcKernelAlone (file : BatchFile) : Result :=
  gcKernel (writeBytes (fun _ => 0) 0 file.image.bytes) (writeBytes (fun _ => 0) 0 file.bitmap)
    (fun _ => 0) (fun _ => 0) (fun _ => roundedSize file.image.bytes.length)
    (fun _ => file.bitmap.length) (fun _ => file.image.records.length) 1

theorem halfInvalidFile_output_fits :
    (gcKernelAlone halfInvalidFile.toBatchFile).outputMeta.getD 1 0 ≤
      outputFileSize [halfInvalidFile.toBatchFile] := by
  have hl : Laid [halfInvalidFile] (writeBytes (fun _ => 0) 0 halfInvalidFile.image.bytes)
      (writeBytes (fun _ => 0) 0 halfInvalidFile.bitmap)
      (fun _ => roundedSize halfInvalidFile.image.bytes.length)
      (fun _ => halfInvalidFile.bitmap.length) (fun _ => halfInvalidFile.image.records.length) :=
    placed_singleton halfInvalidFile.toBatchFile
  refine (output_fits_iff hl (List.cons_ne_nil _ []) (fun _ => 0) fun _ => 0).mpr ?_
  rintro ⟨file, hfile, -, hlive, -⟩
  obtain ⟨rfl, -⟩ := List.cons.inj hfile
  cases hlive 0 (Nat.zero_lt_succ _)

theorem bitmapBit_zeros (n j : ℕ) : bitmapBit (List.replicate n 0) j = false := by
  have hbyte : (List.replicate n (0 : UInt8)).getD (j >>> 3) 0 = 0 := by
    rw [List.getD_eq_getElem?_getD, List.getElem?_replicate]
    split_ifs
    · rfl
    · rfl
  rw [bitmapBit, hbyte, UInt8.toNat_zero, Nat.zero_and]
  rfl

theorem length_encodedRecord_zeros {n : ℕ} (hlow : 128 ≤ n) (hhigh : n < 16384) :
    (encodedRecord ⟨[1], List.replicate n 0⟩).length = n + 13 := by
  have hvalue : (putLengthPrefixedSlice (List.replicate n 0)).length = n + 2 := by
    have hlen : (List.replicate n (0 : UInt8)).length = n := List.length_replicate
    have hsmall : (List.replicate n (0 : UInt8)).length < 2 ^ 32 := by omega
    rw [putLengthPrefixedSlice_eq hsmall, List.length_append, hlen, AegonKV.encodeVarint32,
      if_neg (by omega), if_pos (by omega)]
    exact Nat.add_comm 2 n
  rw [length_encodedRecord, BlobRecord.encodeTo, List.length_append, hvalue]
  change 9 + (2 + (n + 2)) = n + 13
  omega

def tightRecords : List BlobRecord :=
  List.replicate 127 ⟨[1], List.replicate 8179 0⟩ ++ [⟨[1], List.replicate 8138 0⟩]

theorem length_tightRecords : tightRecords.length = 128 := by
  rw [tightRecords, List.length_append, List.length_replicate, List.length_singleton]

theorem length_flatMap_tightRecords : (tightRecords.flatMap encodedRecord).length = 1048535 := by
  rw [tightRecords, List.flatMap_append, List.length_append, List.flatMap_singleton,
    List.length_flatMap, List.map_replicate, List.sum_replicate_nat,
    length_encodedRecord_zeros (by omega) (by omega), length_encodedRecord_zeros (by omega) (by omega)]

theorem tightRecords_fit : ∀ r ∈ tightRecords, Fits r := by
  intro r hr
  rcases List.mem_append.mp hr with hr | hr
  · rw [List.eq_of_mem_replicate hr, Fits, List.length_replicate]
    decide
  · rw [List.mem_singleton.mp hr, Fits, List.length_replicate]
    decide

/-- A version 1 file one byte below 1 MiB that keeps all its records. -/
def tightFile : InputFile where
  image := .version1 tightRecords
  bitmap := List.replicate 16 0
  covers := length_tightRecords.le
  fits := tightRecords_fit

theorem length_tightFile : tightFile.image.bytes.length = 1048575 := by
  have hrecords : tightFile.image.records = tightRecords := rfl
  rw [length_bytes, hrecords, length_flatMap_tightRecords]
  rfl

/-- The page of the footer lies behind the end of the buffer. -/
theorem tightFile_output_overruns :
    ¬(gcKernelAlone tightFile.toBatchFile).outputMeta.getD 1 0 ≤
      outputFileSize [tightFile.toBatchFile] := by
  intro hfit
  refine (output_singleton_iff tightFile.toBatchFile).mp ((output_le_iff
    (placed_singleton tightFile.toBatchFile) (fun _ => 0) fun _ => 0).mp hfit) ⟨rfl, ?_, ?_⟩
  · exact fun t _ => bitmapBit_zeros 16 _
  · have hlen : tightFile.toBatchFile.image.bytes.length = 1048575 := length_tightFile
    have hgap : tightFile.toBatchFile.image.padding.length = 0 := rfl
    rw [hlen, hgap, roundedSize_eq]
    omega

end AegonKV.Kernel
