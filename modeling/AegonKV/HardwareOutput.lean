import AegonKV.BlobFileIterator
import AegonKV.GcKernelCorrect

/-!
# Software jobs over hardware output

`BuildIterator` gives its iterators no number of entries, so they walk to the footer. A file the
kernel wrote has a gap before the footer unless its records end where the footer's page does, and
the iterator takes what happens to lie in the gap for the next record.
-/

namespace AegonKV.Kernel
open LittleEndian ByteMemory

/-- The file a job of the driver writes: the first `output_meta[1]` bytes of the output buffer. -/
def Result.outputFile (result : Result) : Bytes :=
  readBytes result.outputData 0 (result.outputMeta.getD 1 0)

/-- An iterator as `BuildIterator` makes it yields the records, as many as `output_meta[0]` says. -/
def ReadsBack (codec : Codec) (fileNumber : UInt64) (result : Result) (records : List BlobRecord) :
    Prop :=
  result.outputMeta.head? = some records.length ∧
    (BlobFileIterator.new result.outputFile fileNumber).Yields codec.uncompress
      (BlobFileIterator.handles noCompression kBlobMaxHeaderSize 0 records)

theorem le_storedLength (compress : Bytes → Bytes × UInt8) (records : List BlobRecord) :
    records.length ≤ BlobFileIterator.storedLength compress records := by
  induction records with
  | nil => exact Nat.zero_le _
  | cons r records ih =>
      have hlen : (BlobEncoder.encodeRecord compress r).length =
          kRecordHeaderSize + (compress r.encodeTo).1.length := BlobEncoder.length_encodeSlice _ _
      rw [BlobFileIterator.storedLength, List.flatMap_cons, List.length_append, hlen, List.length_cons]
      rw [BlobFileIterator.storedLength] at ih
      rw [kRecordHeaderSize]
      omega

/-- The iterator over an image without a dictionary, once it is initialised. -/
theorem ready_image (codec : Codec) (fileNumber : UInt64) {image : BlobImage}
    (hfits : ∀ r ∈ image.records, Fits r) (hfit : image.bytes.length < 2 ^ 64) :
    ∃ it', BlobFileIterator.Ready codec.uncompress noCompression
        (BlobFileIterator.new image.bytes fileNumber) it' image.header.size image.records
        (image.padding ++ image.footer) ∧
      it'.fileEntries = BlobFileIterator.kNoFileEntries ∧
      it'.endOfBlobRecord = UInt64.ofNat (image.header.size +
        BlobFileIterator.storedLength noCompression image.records + image.padding.length) := by
  have hbytes : image.bytes = image.header.encodeTo ++
      (image.records.flatMap encodedRecord ++ image.padding) ++ image.footer := by
    rw [BlobImage.bytes]
    simp only [List.append_assoc]
  have hheader := BlobFileHeader.length_encodeTo image.header_wf
  have hfront : (image.header.encodeTo ++
      (image.records.flatMap encodedRecord ++ image.padding)).length = image.header.size +
        BlobFileIterator.storedLength noCompression image.records + image.padding.length := by
    rw [List.length_append, List.length_append, hheader, Nat.add_assoc]
    rfl
  have hlong : image.bytes.length = image.header.size +
      BlobFileIterator.storedLength noCompression image.records + image.padding.length +
        BlobFileFooter.kEncodedLength := by
    rw [hbytes, List.length_append, hfront, image.length_footer]
  have hrun := BlobFileIterator.runInit_plain image.header_wf image.no_dictionary hbytes
    image.length_area hfit fileNumber BlobFileIterator.kNoFileEntries
  rw [hfront] at hrun
  have hcount := le_storedLength noCompression image.records
  refine ⟨{ BlobFileIterator.new image.bytes fileNumber with
      init := true
      headerSize := UInt64.ofNat image.header.size
      endOfBlobRecord := UInt64.ofNat (image.header.size +
        BlobFileIterator.storedLength noCompression image.records + image.padding.length) },
    ⟨rfl, rfl, hrun, rfl, rfl, ?_, ?_, ?_, ?_⟩, rfl, rfl⟩
  · intro r hr
    have hlen := (hfits r hr).encodeTo_lt
    exact storable_noCompression _ (by omega) (hfits r hr).key_lt (hfits r hr).value_lt
  · change image.bytes.drop image.header.size = _
    rw [hbytes, List.append_assoc, List.drop_left' hheader, List.append_assoc]
    rfl
  · change _ ≤ (UInt64.ofNat _).toNat
    rw [UInt64.toNat_ofNat', Nat.mod_eq_of_lt (by omega)]
    omega
  · change _ ≤ BlobFileIterator.kNoFileEntries.toNat
    have hmax : BlobFileIterator.kNoFileEntries.toNat = 2 ^ 64 - 1 := rfl
    omega

theorem alignPadding_eq_zero (n : ℕ) : alignPadding n = 0 ↔ (n + kBlobFooterSize) % 4096 = 0 := by
  obtain ⟨hlt, hpage⟩ := alignPadding_spec n
  omega

/-- The file is an image of the valid records, with the kernel's gap before the footer. -/
theorem outputFile_image {files : List InputFile} {inputDatas inputBitmaps : Mem}
    {dataLengths bitmapLengths entries : ℕ → ℕ}
    (hl : Laid files inputDatas inputBitmaps dataLengths bitmapLengths entries)
    (outputData outputKey : Mem) :
    let result := gcKernel inputDatas inputBitmaps outputData outputKey dataLengths bitmapLengths
      entries files.length
    ∃ image : BlobImage, image.header.size = kBlobMaxHeaderSize ∧
      image.records = files.flatMap InputFile.validRecords ∧ (∀ r ∈ image.records, Fits r) ∧
      image.padding.length = alignPadding (kBlobMaxHeaderSize +
        BlobFileIterator.storedLength noCompression image.records) ∧
      result.outputMeta.head? = some image.records.length ∧
      result.outputMeta.getD 1 0 = image.bytes.length ∧ result.outputFile = image.bytes := by
  obtain ⟨padding, footerPadding, hpad, halign, hmeta, hread, -⟩ :=
    gcKernel_output hl outputData outputKey
  refine ⟨outputImage (copiedRecords 0 files) padding footerPadding hpad, rfl,
    copiedRecords_records 0 files, ?_, ?_, ?_, ?_, ?_⟩
  · intro r hr
    obtain ⟨c, hc, rfl⟩ := List.mem_map.mp hr
    obtain ⟨n, file, t, -, -, ht, -, -⟩ := mem_copiedRecords hc
    exact file.fits _ (List.mem_of_getElem? ht)
  · change padding.length = _
    rw [halign, List.length_append, flatMap_bytes]
    rfl
  · rw [hmeta]
    exact congrArg some (List.length_map _).symm
  · rw [hmeta]
    rfl
  · rw [Result.outputFile, hmeta]
    exact hread

theorem length_image (image : BlobImage) :
    image.bytes.length = image.header.size +
      BlobFileIterator.storedLength noCompression image.records + image.padding.length +
        BlobFileFooter.kEncodedLength :=
  image.length_bytes

/-- An image reads back up to the footer only where it has no gap. -/
theorem yields_image_iff (codec : Codec) (fileNumber : UInt64) {image : BlobImage}
    (hfits : ∀ r ∈ image.records, Fits r) (hfit : image.bytes.length < 2 ^ 64) :
    (BlobFileIterator.new image.bytes fileNumber).Yields codec.uncompress
        (BlobFileIterator.handles noCompression image.header.size 0 image.records) ↔
      image.padding.length = 0 := by
  obtain ⟨it', hready, hentries, hend⟩ := ready_image codec fileNumber hfits hfit
  constructor
  · intro hyields
    by_contra hne
    have hlong := length_image image
    have hmax : BlobFileIterator.kNoFileEntries.toNat = 2 ^ 64 - 1 := rfl
    have hfooter : BlobFileFooter.kEncodedLength = 32 := rfl
    have hle := le_storedLength noCompression image.records
    refine hready.not_yields (fun type input s => Codec.uncompress_error) ?_ ?_ hyields
    · rw [hend, UInt64.toNat_ofNat', Nat.mod_eq_of_lt (by omega)]
      omega
    · rw [hentries]
      omega
  · intro hzero
    refine hready.yields (Or.inl ?_)
    rw [hend, hzero, Nat.add_zero]

/-- The iterator stops where the kernel did exactly when the records and the footer fill their
pages. -/
theorem hardwareOutput_readsBack_iff {files : List InputFile} {inputDatas inputBitmaps : Mem}
    {dataLengths bitmapLengths entries : ℕ → ℕ}
    (hl : Laid files inputDatas inputBitmaps dataLengths bitmapLengths entries)
    (outputData outputKey : Mem) (codec : Codec) (fileNumber : UInt64)
    (hfit : (gcKernel inputDatas inputBitmaps outputData outputKey dataLengths bitmapLengths
      entries files.length).outputMeta.getD 1 0 < 2 ^ 64) :
    ReadsBack codec fileNumber (gcKernel inputDatas inputBitmaps outputData outputKey dataLengths
        bitmapLengths entries files.length) (files.flatMap InputFile.validRecords) ↔
      (kBlobMaxHeaderSize + BlobFileIterator.storedLength noCompression
        (files.flatMap InputFile.validRecords) + kBlobFooterSize) % 4096 = 0 := by
  obtain ⟨image, hheader, hrecords, hfits, hgap, hcount, hlength, hfile⟩ :=
    outputFile_image hl outputData outputKey
  rw [hlength] at hfit
  have hyields := yields_image_iff codec fileNumber hfits hfit
  rw [hgap, alignPadding_eq_zero, hheader] at hyields
  rw [← hrecords, ReadsBack, hfile, hyields]
  exact and_iff_right hcount

theorem storedLength_singleton (compress : Bytes → Bytes × UInt8) (r : BlobRecord) :
    BlobFileIterator.storedLength compress [r] =
      kRecordHeaderSize + (compress r.encodeTo).1.length := by
  rw [BlobFileIterator.storedLength, List.flatMap_singleton]
  exact BlobEncoder.length_encodeSlice _ _

def uncompressed : Codec := ⟨kNoCompression, fun _ _ => none, fun _ _ _ => none⟩

/-- One record that fills the page up to the footer. -/
def fullPageFile : InputFile where
  image := .version2 [⟨[1], List.replicate 4039 0⟩]
  bitmap := [0]
  covers := Nat.le_add_left 1 7
  fits := by
    intro r hr
    obtain rfl := List.mem_singleton.mp hr
    exact ⟨by decide, by rw [List.length_replicate]; decide⟩

theorem fullPageFile_stored :
    BlobFileIterator.storedLength noCompression
      ([fullPageFile].flatMap InputFile.validRecords) = 4052 := by
  have hrecords : [fullPageFile].flatMap InputFile.validRecords =
      [⟨[1], List.replicate 4039 0⟩] := rfl
  have hlen : (BlobRecord.encodeTo ⟨[1], List.replicate 4039 0⟩).length = 4043 := by
    simp only [BlobRecord.encodeTo, putLengthPrefixedSlice, List.length_append, List.length_replicate]
    rfl
  rw [hrecords, storedLength_singleton, noCompression, hlen]
  rfl

theorem fullPageFile_readsBack :
    ReadsBack uncompressed 2 (gcKernel (writeBytes (fun _ => 0) 0 fullPageFile.image.bytes)
      (writeBytes (fun _ => 0) 0 fullPageFile.bitmap) (fun _ => 7) (fun _ => 7)
      (fun _ => fullPageFile.image.bytes.length) (fun _ => fullPageFile.bitmap.length)
      (fun _ => fullPageFile.image.records.length) 1)
      ([fullPageFile].flatMap InputFile.validRecords) := by
  have hl := laid_singleton fullPageFile
  obtain ⟨image, hheader, hrecords, -, hgap, -, hlength, -⟩ :=
    outputFile_image hl (fun _ => 7) (fun _ => 7)
  rw [hrecords, fullPageFile_stored] at hgap
  refine (hardwareOutput_readsBack_iff hl (fun _ => 7) (fun _ => 7) uncompressed 2 ?_).mpr ?_
  · rw [hlength, length_image, hheader, hgap, hrecords, fullPageFile_stored]
    decide
  · rw [fullPageFile_stored]
    decide

/-- Behind the only record of a short file the iterator goes on into the gap. -/
theorem halfInvalidFile_not_readsBack :
    ¬ReadsBack uncompressed 2 (gcKernel (writeBytes (fun _ => 0) 0 halfInvalidFile.image.bytes)
      (writeBytes (fun _ => 0) 0 halfInvalidFile.bitmap) (fun _ => 0) (fun _ => 0)
      (fun _ => halfInvalidFile.image.bytes.length) (fun _ => 1) (fun _ => 2) 1)
      [⟨[3], [4]⟩] := by
  obtain ⟨image, hheader, hrecords, hfits, hgap, -, hlength, hfile⟩ :=
    outputFile_image (laid_singleton halfInvalidFile) (fun _ => 0) (fun _ => 0)
  have hvalid : image.records = [⟨[3], [4]⟩] := hrecords
  have hstored : BlobFileIterator.storedLength noCompression [⟨[3], [4]⟩] = 13 := by
    rw [storedLength_singleton]
    rfl
  rw [hvalid, hstored] at hgap
  have hfit : image.bytes.length < 2 ^ 64 := by
    rw [length_image, hheader, hgap, hvalid, hstored]
    decide
  have hyields := yields_image_iff uncompressed 2 hfits hfit
  rw [hheader, hvalid] at hyields
  rintro ⟨-, hback⟩
  change (BlobFileIterator.new (Result.outputFile _) 2).Yields _ _ at hback
  have hzero : image.padding.length = 0 := by
    refine hyields.mp ?_
    rw [← hfile]
    exact hback
  rw [hgap] at hzero
  revert hzero
  decide

end AegonKV.Kernel
