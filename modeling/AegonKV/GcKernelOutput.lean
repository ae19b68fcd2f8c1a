import AegonKV.GcKernelRecords

/-!
# The kernel's output, read by the host and the CPU

The three codecs meet here. The output file is again a `BlobImage`, so the CPU reader opens it; the
key list decodes with the host's `GetOutputKey` to the relocations; and both the old and the new
place of a copied record read back the record.
-/

namespace AegonKV.Kernel
open LittleEndian ByteMemory

/-- The input buffers from file `i` on: each file and its bitmap start where the lengths of the files
before them end. -/
def Placed (inputDatas inputBitmaps : Mem) (dataLengths bitmapLengths entries : ℕ → ℕ) :
    ℕ → ℕ → ℕ → List BatchFile → Prop
  | _, _, _, [] => True
  | i, inputData, inputBitmap, file :: files =>
    Holds inputDatas inputData file.image.bytes ∧ Holds inputBitmaps inputBitmap file.bitmap ∧
      entries i = file.image.records.length ∧
      Placed inputDatas inputBitmaps dataLengths bitmapLengths entries (i + 1)
        (inputData + dataLengths i) (inputBitmap + bitmapLengths i) files

def InputFile.toBatchFile (file : InputFile) : BatchFile where
  image := file.image
  bitmap := file.bitmap
  covers := file.covers
  encodable := fun r hr => Fits.encodable (file.fits r hr)

/-- Files within the limits of the kernel, placed from the start of the buffers. -/
def Laid (files : List InputFile) (inputDatas inputBitmaps : Mem)
    (dataLengths bitmapLengths entries : ℕ → ℕ) : Prop :=
  Placed inputDatas inputBitmaps dataLengths bitmapLengths entries 0 0 0
    (files.map InputFile.toBatchFile)

theorem copiedInBatch_toBatchFile (i : ℕ) (files : List InputFile) :
    copiedInBatch i (files.map InputFile.toBatchFile) = copiedRecords i files := by
  induction files generalizing i with
  | nil => rfl
  | cons file files ih =>
      rw [List.map_cons, copiedInBatch, copiedRecords, ih]
      rfl

theorem holds_parts (image : BlobImage) {m : Mem} {data : ℕ}
    (h : Holds m data image.bytes) : Holds m data image.header.encodeTo ∧
      Holds m (data + image.header.size) (image.records.flatMap encodedRecord) := by
  rw [BlobImage.bytes, List.append_assoc, List.append_assoc] at h
  obtain ⟨hheader, htail⟩ := holds_append.mp h
  obtain ⟨hrecords, -⟩ := holds_append.mp htail
  rw [BlobFileHeader.length_encodeTo image.header_wf] at hrecords
  exact ⟨hheader, hrecords⟩

/-- The file loop appends the copies of the files it has left. -/
theorem fileLoop_written {inputs bitmaps : Mem} {dataLengths bitmapLengths entries : ℕ → ℕ}
    (files : List BatchFile) {i inputData inputBitmap : ℕ} {out : Output} {cs : List Copied}
    (hplaced : Placed inputs bitmaps dataLengths bitmapLengths entries i inputData inputBitmap files)
    (hout : Written out cs) :
    Written (fileLoop inputs bitmaps dataLengths bitmapLengths entries files.length i inputData
      inputBitmap out) (cs ++ copiedInBatch i files) := by
  induction files generalizing i inputData inputBitmap out cs with
  | nil => simpa [fileLoop, copiedInBatch] using hout
  | cons file files ih =>
      obtain ⟨hfile, hbitmap, hentries, hrest⟩ := hplaced
      obtain ⟨hheader, hrecords⟩ := holds_parts file.image hfile
      have hdec := decodeHeader_of_holds file.image.header_wf file.image.no_dictionary hheader
      have hloop := entryLoop_written (i := i) (j := 0) hbitmap file.image.records
        ⟨fun _ => 0, 0, fun _ => 0, 0⟩ (by simpa using file.covers) file.encodable hrecords hout
      rw [List.length_cons, fileLoop, hdec, hentries, copiedInBatch, ← List.append_assoc]
      exact ih hrest hloop

def outputImage (cs : List Copied) (padding footerPadding : Bytes)
    (h : footerPadding.length = 18) : BlobImage where
  header := {}
  records := cs.map (·.record)
  padding := padding
  footerPadding := footerPadding
  header_wf := BlobFileHeader.wellFormed_default
  no_dictionary := BlobFileHeader.flags_default
  footerPadding_length := h

theorem flatMap_bytes (cs : List Copied) :
    cs.flatMap Copied.bytes = (cs.map (·.record)).flatMap encodedRecord := by
  rw [List.flatMap_map]
  rfl

/-- Closing the output with a footer makes it the image of the copied records. -/
theorem Written.footer {out : Output} {cs : List Copied} (h : Written out cs) :
    ∃ (padding footerPadding : Bytes) (hpad : footerPadding.length = 18),
      padding.length = alignPadding (headerBytes ++ cs.flatMap Copied.bytes).length ∧
      (encodeFooter out.data out.dataOffset).2 =
        (outputImage cs padding footerPadding hpad).bytes.length ∧
      Holds (encodeFooter out.data out.dataOffset).1 0
        (outputImage cs padding footerPadding hpad).bytes := by
  obtain ⟨hoff, pad, hpad, hfooter, hframe⟩ := encodeFooter_spec out.data out.dataOffset
  have hdataOffset := h.dataOffset
  have hbytes : ∀ gap : Bytes, (outputImage cs gap pad hpad).bytes =
      (headerBytes ++ cs.flatMap Copied.bytes) ++ gap ++
        BlobFileFooter.sealArea (BlockHandle.encodeTo {} ++ pad) := by
    intro gap
    rw [flatMap_bytes]
    rfl
  have hseal : (BlobFileFooter.sealArea (BlockHandle.encodeTo {} ++ pad)).length =
      kBlobFooterSize := BlobFileFooter.length_sealArea (by
        rw [List.length_append, hpad]
        rfl)
  have hfront : Holds (encodeFooter out.data out.dataOffset).1 0
      (headerBytes ++ cs.flatMap Copied.bytes) := by
    have hdata := h.data
    unfold Holds at hdata ⊢
    refine Eq.trans (readBytes_congr ?_) hdata
    intro i _ hi
    exact hframe i (by omega)
  refine ⟨readBytes (encodeFooter out.data out.dataOffset).1 out.dataOffset
    (alignPadding out.dataOffset), pad, hpad, ?_, ?_, ?_⟩
  · rw [length_readBytes, hdataOffset]
  · rw [hoff, hbytes, List.length_append, List.length_append, ← hdataOffset, length_readBytes, hseal]
  · rw [hbytes]
    refine holds_append.mpr ⟨holds_append.mpr ⟨hfront, ?_⟩, ?_⟩
    · rw [Nat.zero_add, ← hdataOffset]
      exact holds_readBytes _ _ _
    · rw [Nat.zero_add, List.length_append, ← hdataOffset, length_readBytes]
      exact hfooter

theorem gcKernel_batch {files : List BatchFile} {inputDatas inputBitmaps : Mem}
    {dataLengths bitmapLengths entries : ℕ → ℕ}
    (hplaced : Placed inputDatas inputBitmaps dataLengths bitmapLengths entries 0 0 0 files)
    (outputData outputKey : Mem) :
    ∃ (padding footerPadding : Bytes) (h : footerPadding.length = 18),
      padding.length =
        alignPadding (headerBytes ++ (copiedInBatch 0 files).flatMap Copied.bytes).length ∧
      let image := outputImage (copiedInBatch 0 files) padding footerPadding h
      let result := gcKernel inputDatas inputBitmaps outputData outputKey dataLengths bitmapLengths
        entries files.length
      result.outputMeta = [(copiedInBatch 0 files).length, image.bytes.length,
        (keyBytes headerBytes.length (copiedInBatch 0 files)).length] ∧
        readBytes result.outputData 0 image.bytes.length = image.bytes ∧
        Holds result.outputKey 0 (keyBytes headerBytes.length (copiedInBatch 0 files)) := by
  have hinit : Written ⟨(encodeHeader outputData 0).1, outputKey, (encodeHeader outputData 0).2, 0,
      0⟩ [] := by
    refine ⟨?_, ?_, rfl, rfl, rfl⟩
    · rw [List.flatMap_nil, List.append_nil]
      exact (encodeHeader_wrote outputData).1
    · rw [List.flatMap_nil, List.append_nil]
      exact encodeHeader_offset outputData
  have hloop := fileLoop_written files hplaced hinit
  rw [List.nil_append] at hloop
  obtain ⟨padding, footerPadding, hpad, halign, hlength, hholds⟩ := hloop.footer
  refine ⟨padding, footerPadding, hpad, halign, ?_, hholds, hloop.key⟩
  rw [← hlength, ← hloop.rewriteKeyNum, ← hloop.keyOffset]
  rfl

theorem gcKernel_output {files : List InputFile} {inputDatas inputBitmaps : Mem}
    {dataLengths bitmapLengths entries : ℕ → ℕ}
    (hl : Laid files inputDatas inputBitmaps dataLengths bitmapLengths entries)
    (outputData outputKey : Mem) :
    ∃ (padding footerPadding : Bytes) (h : footerPadding.length = 18),
      padding.length =
        alignPadding (headerBytes ++ (copiedRecords 0 files).flatMap Copied.bytes).length ∧
      let image := outputImage (copiedRecords 0 files) padding footerPadding h
      let result := gcKernel inputDatas inputBitmaps outputData outputKey dataLengths bitmapLengths
        entries files.length
      result.outputMeta = [(copiedRecords 0 files).length, image.bytes.length,
        (keyBytes headerBytes.length (copiedRecords 0 files)).length] ∧
        readBytes result.outputData 0 image.bytes.length = image.bytes ∧
        Holds result.outputKey 0 (keyBytes headerBytes.length (copiedRecords 0 files)) := by
  have h := gcKernel_batch hl outputData outputKey
  rwa [copiedInBatch_toBatchFile, List.length_map] at h

/-! ## The host's view of the key list -/

/-- `GetOutputKey` at `cur_offset`; `none` where `GetVarint32Ptr` returns a null pointer. -/
def getOutputKey (data : Mem) (curOffset : ℕ) : Option ((Bytes × List ℕ) × ℕ) := do
  let (keySize, rest) ← Varint.decode 32 5 0 0 (readBytes data curOffset 5)
  let offset := 5 - rest.length
  let decodeFixed32 := fun p => leNat (readBytes data p 4)
  let base := curOffset + offset + keySize
  return ((readBytes data (curOffset + offset) keySize,
    [decodeFixed32 base, decodeFixed32 (base + 4), decodeFixed32 (base + 8),
      decodeFixed32 (base + 12)]), curOffset + (offset + keySize + 16))

/-- The loop of `run_gc_kernel` over `output_meta[0]` entries. -/
def getOutputKeys (data : Mem) : ℕ → ℕ → Option (List (Bytes × List ℕ))
  | 0, _ => some []
  | n + 1, curOffset => do
    let (entry, curOffset) ← getOutputKey data curOffset
    let rest ← getOutputKeys data n curOffset
    return entry :: rest

def keyOf (newOffset : ℕ) (c : Copied) : Bytes × List ℕ :=
  (c.record.key, [newOffset, c.fileIndex, c.oldOffset, c.size])

def expectedKeys : ℕ → List Copied → List (Bytes × List ℕ)
  | _, [] => []
  | newOffset, c :: cs => keyOf newOffset c :: expectedKeys (newOffset + c.size) cs

theorem leNat_of_holds {m : Mem} {p x : ℕ} (h : Holds m p (leBytes 4 x)) :
    leNat (readBytes m p 4) = x % 2 ^ 32 := by
  have hread : readBytes m p 4 = leBytes 4 x := by simpa [Holds] using h
  rw [hread, leNat_leBytes, show 256 ^ 4 = 2 ^ 32 from rfl]

/-- What an entry of the list says: 32 bits of each number. -/
def storedKeyOf (newOffset : ℕ) (c : Copied) : Bytes × List ℕ :=
  (c.record.key, [newOffset % 2 ^ 32, c.fileIndex % 2 ^ 32, c.oldOffset % 2 ^ 32, c.size % 2 ^ 32])

def storedKeys : ℕ → List Copied → List (Bytes × List ℕ)
  | _, [] => []
  | newOffset, c :: cs => storedKeyOf newOffset c :: storedKeys (newOffset + c.size) cs

theorem getOutputKey_keyEntry {m : Mem} {cur newOffset : ℕ} {c : Copied}
    (hk : c.record.key.length < 2 ^ 32) (h : Holds m cur (keyEntry newOffset c)) :
    getOutputKey m cur = some (storedKeyOf newOffset c, cur + (keyEntry newOffset c).length) := by
  obtain ⟨h, hsize⟩ := holds_append.mp h
  obtain ⟨h, hold⟩ := holds_append.mp h
  obtain ⟨h, hfile⟩ := holds_append.mp h
  obtain ⟨hslice, hnew⟩ := holds_append.mp h
  rw [putLengthPrefixedSlice_eq hk] at hslice
  obtain ⟨hlen, hkey⟩ := holds_append.mp hslice
  simp only [List.length_append, length_leBytes, putLengthPrefixedSlice_eq hk,
    ← Nat.add_assoc] at hsize hold hfile hnew
  have hkey' : readBytes m (cur + (AegonKV.encodeVarint32 c.record.key.length).length)
      c.record.key.length = c.record.key := hkey
  have hvar := Varint.length_encode_le 4 c.record.key.length
  rw [← encodeVarint32_eq hk] at hvar
  set len := (AegonKV.encodeVarint32 c.record.key.length).length
  have hdec : Varint.decode 32 5 0 0 (readBytes m cur 5) =
      some (c.record.key.length, readBytes m (cur + len) (5 - len)) := by
    have hsplit := readBytes_add m cur len (5 - len)
    rw [Nat.add_sub_cancel' hvar] at hsplit
    have hfront : readBytes m cur len = Varint.encode 4 c.record.key.length := by
      rw [← encodeVarint32_eq hk]
      exact hlen
    rw [hsplit, hfront]
    exact Varint.decode_encode _ (by omega) hk
  have hoff : 5 - (5 - len) = len := by omega
  simp only [getOutputKey, hdec, Option.bind_eq_bind, Option.bind_some, length_readBytes, hoff,
    hkey', leNat_of_holds hnew, leNat_of_holds hfile, leNat_of_holds hold, leNat_of_holds hsize,
    storedKeyOf, keyEntry, List.length_append, length_leBytes, putLengthPrefixedSlice_eq hk,
    ← Nat.add_assoc]
  rfl

/-- The host reads back what 32 bits keep of the list. -/
theorem getOutputKeys_stored {m : Mem} {cur newOffset : ℕ} {cs : List Copied}
    (hkeys : ∀ c ∈ cs, c.record.key.length < 2 ^ 32) (h : Holds m cur (keyBytes newOffset cs)) :
    getOutputKeys m cs.length cur = some (storedKeys newOffset cs) := by
  induction cs generalizing cur newOffset with
  | nil => rfl
  | cons c cs ih =>
      obtain ⟨hentry, hrest⟩ := holds_append.mp h
      have hkey := getOutputKey_keyEntry (hkeys c List.mem_cons_self) hentry
      have htail := ih (fun d hd => hkeys d (List.mem_cons_of_mem _ hd)) hrest
      simp only [List.length_cons, getOutputKeys, hkey, Option.bind_eq_bind, Option.bind_some, htail]
      rfl

/-- Every number of a relocation list fits the 32 bits it is stored in. -/
def EntriesFit : ℕ → List Copied → Prop
  | _, [] => True
  | newOffset, c :: cs => newOffset < 2 ^ 32 ∧ c.fileIndex < 2 ^ 32 ∧ c.oldOffset < 2 ^ 32 ∧
      EntriesFit (newOffset + c.size) cs

theorem storedKeys_eq {newOffset : ℕ} {cs : List Copied} (hrec : ∀ c ∈ cs, Fits c.record)
    (hfit : EntriesFit newOffset cs) : storedKeys newOffset cs = expectedKeys newOffset cs := by
  induction cs generalizing newOffset with
  | nil => rfl
  | cons c cs ih =>
      obtain ⟨hn, hf, ho, hfit'⟩ := hfit
      have hsize : c.size < 2 ^ 32 := by
        have := (hrec c List.mem_cons_self).encodeTo_lt
        rw [Copied.size, length_encodedRecord, kRecordHeaderSize]
        omega
      rw [storedKeys, expectedKeys, ih (fun d hd => hrec d (List.mem_cons_of_mem _ hd)) hfit',
        storedKeyOf, Nat.mod_eq_of_lt hn, Nat.mod_eq_of_lt hf, Nat.mod_eq_of_lt ho,
        Nat.mod_eq_of_lt hsize, keyOf]

theorem getOutputKeys_keyBytes {m : Mem} {cur newOffset : ℕ} {cs : List Copied}
    (hrec : ∀ c ∈ cs, Fits c.record) (hfit : EntriesFit newOffset cs)
    (h : Holds m cur (keyBytes newOffset cs)) :
    getOutputKeys m cs.length cur = some (expectedKeys newOffset cs) := by
  rw [getOutputKeys_stored (fun c hc => (hrec c hc).key_lt) h, storedKeys_eq hrec hfit]

end AegonKV.Kernel
