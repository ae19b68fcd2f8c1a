import AegonKV.GcKernelOutput

/-!
# Correctness of the garbage collection kernel

`copiedRecords` walks the inputs as the kernel does. Here it is tied to the inputs themselves: its
records are those with bit 0, in order, and each sits at its old offset. With offsets below
`2 ^ 32` the whole contract of the kernel follows.
-/

namespace AegonKV.Kernel
open LittleEndian ByteMemory

/-- The records of a file whose bitmap bit is 0, in file order. -/
def InputFile.validRecords (file : InputFile) : List BlobRecord :=
  (file.image.records.zipIdx.filter fun x => !bitmapBit file.bitmap x.2).map Prod.fst

theorem copiedFrom_records (i : ℕ) (bitmap : Bytes) (j offset : ℕ) (rs : List BlobRecord) :
    (copiedFrom i bitmap j offset rs).map (·.record) =
      ((rs.zipIdx j).filter fun x => !bitmapBit bitmap x.2).map Prod.fst := by
  induction rs generalizing j offset with
  | nil => rfl
  | cons r rs ih =>
      rw [copiedFrom, List.zipIdx_cons, List.filter_cons]
      by_cases hbit : bitmapBit bitmap j = true
      · simp [hbit, ih]
      · simp [hbit, ih]

theorem copiedRecords_records (i : ℕ) (files : List InputFile) :
    (copiedRecords i files).map (·.record) = files.flatMap InputFile.validRecords := by
  induction files generalizing i with
  | nil => rfl
  | cons file files ih =>
      rw [copiedRecords, List.map_append, ih, copiedOf, copiedFrom_records, List.flatMap_cons]
      rfl

/-- A copied record sits at its old offset among the records from entry `j`. -/
theorem mem_copiedFrom {i : ℕ} {bitmap : Bytes} {j offset : ℕ} {rs : List BlobRecord} {c : Copied}
    (h : c ∈ copiedFrom i bitmap j offset rs) :
    c.fileIndex = i ∧ ∃ t, rs[t]? = some c.record ∧ bitmapBit bitmap (j + t) = false ∧
      c.oldOffset = offset + ((rs.take t).flatMap encodedRecord).length := by
  induction rs generalizing j offset with
  | nil => simp [copiedFrom] at h
  | cons r rs ih =>
      have hrest : c ∈ copiedFrom i bitmap (j + 1) (offset + (encodedRecord r).length) rs →
          c.fileIndex = i ∧ ∃ t, (r :: rs)[t]? = some c.record ∧
            bitmapBit bitmap (j + t) = false ∧
            c.oldOffset = offset + (((r :: rs).take t).flatMap encodedRecord).length := by
        intro hc
        obtain ⟨hi, t, ht, hbit, hoff⟩ := ih hc
        refine ⟨hi, t + 1, by simpa using ht, by rwa [Nat.add_assoc, Nat.add_comm 1] at hbit, ?_⟩
        rw [hoff, List.take_succ_cons, List.flatMap_cons, List.length_append, Nat.add_assoc]
      rw [copiedFrom] at h
      split_ifs at h with hbit
      · exact hrest h
      · rcases List.mem_cons.mp h with rfl | h
        · exact ⟨rfl, 0, rfl, by simpa using hbit, by simp⟩
        · exact hrest h

theorem mem_copiedRecords {i : ℕ} {files : List InputFile} {c : Copied}
    (h : c ∈ copiedRecords i files) :
    ∃ n file t, c.fileIndex = i + n ∧ files[n]? = some file ∧
      file.image.records[t]? = some c.record ∧ bitmapBit file.bitmap t = false ∧
      c.oldOffset = file.image.offset t := by
  induction files generalizing i with
  | nil => simp [copiedRecords] at h
  | cons file files ih =>
      rw [copiedRecords] at h
      rcases List.mem_append.mp h with h | h
      · obtain ⟨hi, t, ht, hbit, hoff⟩ := mem_copiedFrom h
        exact ⟨0, file, t, hi, rfl, ht, by rwa [Nat.zero_add] at hbit, hoff⟩
      · obtain ⟨n, file', t, hi, hn, hrest⟩ := ih h
        exact ⟨n + 1, file', t, by omega, by simpa using hn, hrest⟩

/-- Where the `t`-th copy starts in the output. -/
def newOffset (files : List InputFile) (t : ℕ) : ℕ :=
  kBlobMaxHeaderSize + (((copiedRecords 0 files).take t).flatMap Copied.bytes).length

def fileStart (files : List InputFile) (i : ℕ) : ℕ :=
  ((files.take i).flatMap fun file => file.image.bytes).length

/-- All offsets the kernel handles are below `2 ^ 32`: those of the copied records in the input
and in the output, and those of their files in the input buffer. -/
def OffsetsFit (files : List InputFile) : Prop :=
  ∀ t c, (copiedRecords 0 files)[t]? = some c → newOffset files t < 2 ^ 32 ∧
    c.oldOffset < 2 ^ 32 ∧ fileStart files c.fileIndex < 2 ^ 32

theorem le_fileStart {files : List InputFile} {i : ℕ} (hi : i ≤ files.length) :
    i ≤ fileStart files i := by
  induction files generalizing i with
  | nil => exact hi.trans (Nat.zero_le _)
  | cons file files ih =>
      cases i with
      | zero => exact Nat.zero_le _
      | succ i =>
          have hrest := ih (Nat.le_of_succ_le_succ hi)
          have hfooter := file.image.length_footer
          have hpos : 1 ≤ file.image.bytes.length := by
            rw [BlobImage.bytes, List.length_append, hfooter]
            exact Nat.le_add_left_of_le (by decide)
          rw [fileStart, List.take_succ_cons, List.flatMap_cons, List.length_append]
          rw [fileStart] at hrest
          omega

theorem entriesFit_of_forall {cs : List Copied} {offset : ℕ}
    (h : ∀ t c, cs[t]? = some c → offset + ((cs.take t).flatMap Copied.bytes).length < 2 ^ 32 ∧
      c.fileIndex < 2 ^ 32 ∧ c.oldOffset < 2 ^ 32) : EntriesFit offset cs := by
  induction cs generalizing offset with
  | nil => trivial
  | cons c cs ih =>
      obtain ⟨hn, hf, ho⟩ := h 0 c rfl
      refine ⟨by simpa using hn, hf, ho, ih fun t d hd => ?_⟩
      obtain ⟨hn', hrest⟩ := h (t + 1) d (by simpa using hd)
      refine ⟨?_, hrest⟩
      rw [List.take_succ_cons, List.flatMap_cons, List.length_append] at hn'
      rw [Copied.size, Nat.add_assoc]
      exact hn'

theorem OffsetsFit.entriesFit {files : List InputFile} (h : OffsetsFit files) :
    EntriesFit headerBytes.length (copiedRecords 0 files) := by
  apply entriesFit_of_forall
  intro t c hc
  obtain ⟨hn, ho, hstart⟩ := h t c hc
  obtain ⟨n, file, -, hi, hfile, -⟩ := mem_copiedRecords (List.mem_of_getElem? hc)
  have hlt := (List.getElem?_eq_some_iff.mp hfile).1
  have hle : c.fileIndex ≤ fileStart files c.fileIndex := le_fileStart (by omega)
  exact ⟨hn, by omega, ho⟩

theorem expectedKeys_eq (cs : List Copied) (offset : ℕ) :
    expectedKeys offset cs = cs.zipIdx.map fun x =>
      keyOf (offset + ((cs.take x.2).flatMap Copied.bytes).length) x.1 := by
  apply List.ext_getElem?
  intro t
  induction cs generalizing offset t with
  | nil => rfl
  | cons c cs ih =>
      cases t with
      | zero => simp [expectedKeys]
      | succ t =>
          rw [expectedKeys, List.getElem?_cons_succ, ih]
          simp only [List.getElem?_map, List.getElem?_zipIdx, List.getElem?_cons_succ,
            Option.map_map]
          congr 1
          funext d
          simp only [Function.comp, Nat.zero_add, List.take_succ_cons, List.flatMap_cons,
            List.length_append, Copied.size, Copied.bytes, Nat.add_assoc]

/-- What a relocated record is read from: its old or its new place. -/
def handleAt (offset : ℕ) (c : Copied) (index : ℕ) : BlobHandle :=
  ⟨UInt64.ofNat offset, UInt64.ofNat c.size, UInt64.ofNat index⟩

theorem toNat_ofNat_of_lt {n : ℕ} (h : n < 2 ^ 32) : (UInt64.ofNat n).toNat = n := by
  rw [UInt64.toNat_ofNat', Nat.mod_eq_of_lt (by omega)]

theorem readRecord_image (uncompress : UInt8 → Bytes → Except Status Bytes) {image : BlobImage}
    {c : Copied} {t offset : ℕ} (index : ℕ) (hfits : Fits c.record)
    (hrec : image.records[t]? = some c.record) (hoff : offset = image.offset t)
    (hlt : offset < 2 ^ 32) :
    BlobFileReader.readRecord uncompress ⟨image.bytes, {}⟩ (handleAt offset c index) =
      .ok c.record := by
  have hlen := hfits.encodeTo_lt
  have hsize : c.size < 2 ^ 32 := by
    rw [Copied.size, length_encodedRecord, kRecordHeaderSize]
    omega
  refine image.readRecord_bytes uncompress hrec ?_ (toNat_ofNat_of_lt hsize) (by omega)
    hfits.key_lt hfits.value_lt
  rw [← hoff]
  exact toNat_ofNat_of_lt hlt

/-- The kernel is a compactor of blob files that the CPU can read. -/
theorem gcKernel_correct {files : List InputFile} {inputDatas inputBitmaps : Mem}
    {dataLengths bitmapLengths entries : ℕ → ℕ}
    (hl : Laid files inputDatas inputBitmaps dataLengths bitmapLengths entries)
    (ho : OffsetsFit files) (outputData outputKey : Mem)
    (initUncompressionDict : BlobFileFooter → Bytes → Except Status Unit)
    (uncompress : UInt8 → Bytes → Except Status Bytes) :
    let result := gcKernel inputDatas inputBitmaps outputData outputKey dataLengths bitmapLengths
      entries files.length
    ∃ image : BlobImage,
      image.records = files.flatMap InputFile.validRecords ∧
      (∃ keySize, result.outputMeta = [image.records.length, image.bytes.length, keySize]) ∧
      readBytes result.outputData 0 image.bytes.length = image.bytes ∧
      BlobFileReader.openFile initUncompressionDict image.bytes image.bytes.length =
        .ok ⟨image.bytes, {}⟩ ∧
      getOutputKeys result.outputKey image.records.length 0 =
        some ((copiedRecords 0 files).zipIdx.map fun x => keyOf (image.offset x.2) x.1) ∧
      ∀ t c, (copiedRecords 0 files)[t]? = some c → image.records[t]? = some c.record ∧
        ∃ file j, files[c.fileIndex]? = some file ∧
          file.image.records[j]? = some c.record ∧ bitmapBit file.bitmap j = false ∧
          c.oldOffset = file.image.offset j ∧
          BlobFileReader.readRecord uncompress ⟨image.bytes, {}⟩
            (handleAt (image.offset t) c t) = .ok c.record ∧
          BlobFileReader.readRecord uncompress ⟨file.image.bytes, {}⟩
            (handleAt c.oldOffset c j) = .ok c.record := by
  obtain ⟨padding, footerPadding, hpad, -, hmeta, hread, hkeys⟩ :=
    gcKernel_output hl outputData outputKey
  set cs := copiedRecords 0 files with hcs
  set image := outputImage cs padding footerPadding hpad with himage
  have hrecords : image.records = cs.map (·.record) := rfl
  have hcount : image.records.length = cs.length := by rw [hrecords, List.length_map]
  have hoffset : ∀ t, image.offset t = newOffset files t := by
    intro t
    rw [newOffset, ← hcs, flatMap_bytes, List.map_take]
    rfl
  have hfits : ∀ c ∈ cs, Fits c.record := by
    intro c hc
    obtain ⟨n, file, t, -, -, ht, -, -⟩ := mem_copiedRecords hc
    exact file.fits _ (List.mem_of_getElem? ht)
  refine ⟨image, hrecords.trans (copiedRecords_records 0 files), ⟨_, by rw [hcount]; exact hmeta⟩,
    hread, image.openFile_bytes _, ?_, ?_⟩
  · rw [hcount, getOutputKeys_keyBytes hfits ho.entriesFit hkeys, expectedKeys_eq]
    simp only [hoffset]
    rfl
  · intro t c hc
    have hmem := List.mem_of_getElem? hc
    have hnew : image.records[t]? = some c.record := by
      rw [hrecords, List.getElem?_map, hc]
      rfl
    obtain ⟨n, file, j, hi, hfile, hj, hbit, hold⟩ := mem_copiedRecords hmem
    rw [Nat.zero_add] at hi
    obtain ⟨hn, hlt, -⟩ := ho t c hc
    refine ⟨hnew, file, j, hi ▸ hfile, hj, hbit, hold, ?_, ?_⟩
    · exact readRecord_image uncompress t (hfits c hmem) hnew rfl (hoffset t ▸ hn)
    · exact readRecord_image uncompress j (hfits c hmem) hj hold hlt

/-- The buffers for one file. -/
theorem laid_singleton (file : InputFile) :
    Laid [file] (writeBytes (fun _ => 0) 0 file.image.bytes)
      (writeBytes (fun _ => 0) 0 file.bitmap) (fun _ => file.image.bytes.length)
      (fun _ => file.bitmap.length) fun _ => file.image.records.length :=
  ⟨holds_writeBytes _ _ _, holds_writeBytes _ _ _, rfl, trivial⟩

/-- A version 1 file with two records, the first of which is invalid. -/
def halfInvalidFile : InputFile where
  image := .version1 [⟨[1], [2]⟩, ⟨[3], [4]⟩]
  bitmap := [0x80]
  covers := by decide
  fits := by decide

theorem halfInvalidFile_compacted :
    let result := gcKernel (writeBytes (fun _ => 0) 0 halfInvalidFile.image.bytes)
      (writeBytes (fun _ => 0) 0 halfInvalidFile.bitmap) (fun _ => 7) (fun _ => 7)
      (fun _ => halfInvalidFile.image.bytes.length) (fun _ => 1) (fun _ => 2) 1
    ∃ image : BlobImage, image.records = [⟨[3], [4]⟩] ∧
      readBytes result.outputData 0 image.bytes.length = image.bytes := by
  have hl : Laid [halfInvalidFile] (writeBytes (fun _ => 0) 0 halfInvalidFile.image.bytes)
      (writeBytes (fun _ => 0) 0 halfInvalidFile.bitmap)
      (fun _ => halfInvalidFile.image.bytes.length) (fun _ => 1) (fun _ => 2) :=
    laid_singleton halfInvalidFile
  have ho : OffsetsFit [halfInvalidFile] := by
    have hcopied : copiedRecords 0 [halfInvalidFile] = [⟨0, 21, ⟨[3], [4]⟩⟩] := by decide
    intro t c hc
    rw [hcopied] at hc
    have ht : t = 0 := by
      have := (List.getElem?_eq_some_iff.mp hc).1
      simpa using this
    subst ht
    obtain rfl : ⟨0, 21, ⟨[3], [4]⟩⟩ = c := Option.some.inj hc
    exact ⟨by rw [newOffset]; decide, by decide, by decide⟩
  obtain ⟨image, hrecords, -, hread, -⟩ := gcKernel_correct hl ho (fun _ => 7) (fun _ => 7)
    (fun _ _ => .ok ()) (fun _ bs => .ok bs)
  exact ⟨image, hrecords, hread⟩

end AegonKV.Kernel
