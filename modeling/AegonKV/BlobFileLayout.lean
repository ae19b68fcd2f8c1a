import AegonKV.BlobCache
import AegonKV.BlobFileBuilder
import AegonKV.BlobFileIterator

/-!
# Finished blob files

A finished file is a header, its records one after the other, the blocks of a dictionary if the
options ask for one, and a footer. The reader and the iterator find the dictionary and the end of
the records from the footer, each in its own way.
-/

namespace AegonKV
open LittleEndian

/-- A dictionary is only written in version 2. -/
def BuilderOptions.Supports (o : BuilderOptions) (version : UInt32) : Prop :=
  version = BlobFileHeader.kVersion2 ∨ version = BlobFileHeader.kVersion1 ∧ o.maxDictBytes = 0

theorem BuilderOptions.Supports.header {o : BuilderOptions} {version : UInt32}
    (h : o.Supports version) : (BlobFileBuilder.header o version).WellFormed := by
  rcases h with rfl | ⟨rfl, hdict⟩
  · refine Or.inr ⟨rfl, ?_⟩
    rw [BlobFileBuilder.header]
    split_ifs
    · decide
    · decide
  · refine Or.inl ⟨rfl, ?_⟩
    rw [BlobFileBuilder.header, hdict]
    rfl

theorem BlockHandle.length_encodeTo_le (handle : BlockHandle) :
    handle.encodeTo.length ≤ kBlockHandleMaxEncodedLength := by
  have hoffset := Varint.length_encode_le 9 handle.offset.toNat
  have hsize := Varint.length_encode_le 9 handle.size.toNat
  rw [encodeTo, List.length_append, putVarint64, putVarint64, kBlockHandleMaxEncodedLength]
  omega

/-- The footer that the builder writes has its padding in place. -/
theorem BlobFileFooter.exists_pad (footer : BlobFileFooter) :
    ∃ pad, footer.encodeTo = sealArea (footer.metaIndexHandle.encodeTo ++ pad) ∧
      (footer.metaIndexHandle.encodeTo ++ pad).length = kEncodedLength - 12 := by
  refine ⟨_, rfl, ?_⟩
  have hle := footer.metaIndexHandle.length_encodeTo_le
  have hroom : kEncodedLength - 12 = kBlockHandleMaxEncodedLength := rfl
  rw [List.length_append, List.length_replicate]
  omega

theorem BlobFileFooter.length_encodeTo (footer : BlobFileFooter) :
    footer.encodeTo.length = kEncodedLength := by
  obtain ⟨pad, hpad, hlen⟩ := footer.exists_pad
  rw [hpad, length_sealArea hlen]

theorem BlobFileFooter.decodeInto_encodeTo (footer : BlobFileFooter) :
    decodeInto decodeFrom footer.encodeTo = .ok footer := by
  obtain ⟨pad, hpad, hlen⟩ := footer.exists_pad
  have hdecode := decodeFrom_sealArea footer.metaIndexHandle pad [] hlen
  rw [List.append_nil] at hdecode
  rw [hpad, decodeInto, hdecode]
  rfl

/-- A block is found at its place in the file. -/
theorem readFile_block {pre post block : Bytes} {offset size : UInt64}
    (hoffset : offset.toNat = pre.length) (hsize : size.toNat = block.length) :
    readFile (pre ++ (rawBlock block ++ post)) offset.toNat size.toNat = block := by
  rw [readFile, hoffset, List.drop_left, hsize, rawBlock, List.append_assoc, List.take_left]

theorem readInto_block (scratch : ℕ → UInt8) {pre post block : Bytes} {offset size : UInt64}
    (hoffset : offset.toNat = pre.length) (hsize : size.toNat = block.length) :
    readInto scratch (pre ++ (rawBlock block ++ post)) offset size = .ok block := by
  have hinside : offset.toNat + size.toNat ≤ (pre ++ (rawBlock block ++ post)).length := by
    rw [hoffset, hsize, List.length_append, List.length_append, length_rawBlock]
    omega
  rw [readInto_of_le scratch hinside, readFile_block hoffset hsize]

/-- The meta index block of a dictionary and the handle that finds it. -/
def dictBlock (offset : ℕ) (dict : Bytes) : BlockHandle :=
  ⟨UInt64.ofNat offset, UInt64.ofNat dict.length⟩

theorem metaBlocks_eq (offset : ℕ) (dict : Bytes) :
    BlobFileBuilder.metaBlocks offset dict =
      (rawBlock dict ++ rawBlock (metaIndexBlock kCompressionDictBlockName (dictBlock offset dict)),
        ⟨UInt64.ofNat (offset + (rawBlock dict).length),
          UInt64.ofNat (metaIndexBlock kCompressionDictBlockName (dictBlock offset dict)).length⟩) :=
  rfl

theorem isNull_metaBlocks (offset : ℕ) (dict : Bytes)
    (hfit : (metaIndexBlock kCompressionDictBlockName (dictBlock offset dict)).length < 2 ^ 64) :
    (BlobFileBuilder.metaBlocks offset dict).2.isNull = false := by
  have hindex : 0 < (metaIndexBlock kCompressionDictBlockName (dictBlock offset dict)).length := by
    simp [metaIndexBlock, oneEntryBlock, putFixed32]
  rw [metaBlocks_eq, BlockHandle.isNull, Bool.and_eq_false_iff]
  refine Or.inr (beq_eq_false_iff_ne.mpr fun hzero => ?_)
  have htoNat := congrArg UInt64.toNat hzero
  rw [UInt64.toNat_ofNat', Nat.mod_eq_of_lt hfit] at htoNat
  exact absurd htoNat hindex.ne'

/-- The dictionary behind `front` is loaded through the meta index block. -/
theorem initUncompressionDict_metaBlocks {front dict post : Bytes}
    (hfit : (front ++ ((BlobFileBuilder.metaBlocks front.length dict).1 ++ post)).length < 2 ^ 64) :
    initUncompressionDict ⟨(BlobFileBuilder.metaBlocks front.length dict).2⟩
      (front ++ ((BlobFileBuilder.metaBlocks front.length dict).1 ++ post)) = .ok dict := by
  rw [metaBlocks_eq] at hfit ⊢
  have hlen := length_rawBlock (metaIndexBlock kCompressionDictBlockName (dictBlock front.length dict))
  have hdict := length_rawBlock dict
  have htrailer : kBlockTrailerSize = 5 := rfl
  simp only [List.length_append] at hfit
  have hseek : seekToMetaBlock (metaIndexBlock kCompressionDictBlockName (dictBlock front.length dict))
      kCompressionDictBlockName = .ok (some (dictBlock front.length dict)) := by
    apply seekToMetaBlock_metaIndexBlock
    · decide
    · decide
    · have := (dictBlock front.length dict).length_encodeTo_le
      have hmax : kBlockHandleMaxEncodedLength = 20 := rfl
      omega
  have hindex : readInto (fun _ => 0) (front ++ (rawBlock dict ++
      rawBlock (metaIndexBlock kCompressionDictBlockName (dictBlock front.length dict)) ++ post))
      (UInt64.ofNat (front.length + (rawBlock dict).length))
      (UInt64.ofNat (metaIndexBlock kCompressionDictBlockName
        (dictBlock front.length dict)).length) =
      .ok (metaIndexBlock kCompressionDictBlockName (dictBlock front.length dict)) := by
    rw [List.append_assoc, ← List.append_assoc front]
    apply readInto_block
    · rw [UInt64.toNat_ofNat', Nat.mod_eq_of_lt (by omega), List.length_append]
    · rw [UInt64.toNat_ofNat', Nat.mod_eq_of_lt (by omega)]
  have hread : readInto (fun _ => 0) (front ++ (rawBlock dict ++
      rawBlock (metaIndexBlock kCompressionDictBlockName (dictBlock front.length dict)) ++ post))
      (dictBlock front.length dict).offset (dictBlock front.length dict).size = .ok dict := by
    rw [List.append_assoc]
    apply readInto_block
    · rw [dictBlock, UInt64.toNat_ofNat', Nat.mod_eq_of_lt (by omega)]
    · rw [dictBlock, UInt64.toNat_ofNat', Nat.mod_eq_of_lt (by omega)]
  rw [initUncompressionDict]
  simp only [bind, Except.bind, hindex, hseek, hread]

/-! ## The parts of a finished file -/

/-- The blocks behind the records, and the footer. -/
def ending (o : BuilderOptions) (offset : ℕ) (dict : Bytes) : Bytes × BlobFileFooter :=
  if o.maxDictBytes > 0 then
    ((BlobFileBuilder.metaBlocks offset dict).1, ⟨(BlobFileBuilder.metaBlocks offset dict).2⟩)
  else ([], {})

def recordArea (o : BuilderOptions) (version : UInt32) (dict : Bytes) (records : List BlobRecord) :
    Bytes :=
  (BlobFileBuilder.header o version).encodeTo ++
    records.flatMap (BlobEncoder.encodeRecord (o.codec.compress dict))

def finishedFile (o : BuilderOptions) (version : UInt32) (dict : Bytes)
    (records : List BlobRecord) : Bytes :=
  let area := recordArea o version dict records
  area ++ (ending o area.length dict).1 ++ (ending o area.length dict).2.encodeTo

variable {o : BuilderOptions} {version : UInt32} {dict : Bytes} {records : List BlobRecord}

theorem readHeader_finishedFile (hversion : o.Supports version) :
    BlobFileReader.readHeader (finishedFile o version dict records) =
      .ok (BlobFileBuilder.header o version) := by
  simp only [finishedFile, recordArea, List.append_assoc]
  exact BlobFileReader.readHeader_append hversion.header _

/-- The dictionary flag of the header says whether the options ask for a dictionary. -/
theorem header_flags (o : BuilderOptions) (version : UInt32) :
    (BlobFileBuilder.header o version).flags &&& BlobFileHeader.kHasUncompressionDictionary ≠ 0 ↔
      o.maxDictBytes > 0 := by
  have hset : BlobFileHeader.kHasUncompressionDictionary &&&
      BlobFileHeader.kHasUncompressionDictionary ≠ 0 := by decide
  have hclear : ¬(0 : UInt32) &&& BlobFileHeader.kHasUncompressionDictionary ≠ 0 := by decide
  rw [BlobFileBuilder.header]
  split_ifs with hdict
  · exact iff_of_true hset hdict
  · exact iff_of_false hclear hdict

theorem initUncompressionDict_finishedFile (hdict : o.maxDictBytes > 0)
    (hfit : (finishedFile o version dict records).length < 2 ^ 64) :
    initUncompressionDict (ending o (recordArea o version dict records).length dict).2
      (finishedFile o version dict records) = .ok dict := by
  simp only [finishedFile, ending, if_pos hdict, List.append_assoc] at hfit ⊢
  exact initUncompressionDict_metaBlocks hfit

/-- `Open` loads the dictionary of the builder, the empty one without the option. -/
theorem openFile_finishedFile (hversion : o.Supports version)
    (hempty : o.maxDictBytes = 0 → dict = [])
    (hfit : (finishedFile o version dict records).length < 2 ^ 64) (blobCache : Bool) :
    CachedReader.openFile (finishedFile o version dict records) blobCache =
      .ok ⟨⟨finishedFile o version dict records,
        (ending o (recordArea o version dict records).length dict).2⟩, dict,
        if blobCache then some fun _ => none else none⟩ := by
  have hfooter := (ending o (recordArea o version dict records).length dict).2.length_encodeTo
  have hlong : ¬(finishedFile o version dict records).length < BlobFileFooter.kEncodedLength := by
    simp only [finishedFile, List.length_append, hfooter]
    omega
  have hread : readFile (finishedFile o version dict records)
      ((finishedFile o version dict records).length - BlobFileFooter.kEncodedLength)
      BlobFileFooter.kEncodedLength =
      (ending o (recordArea o version dict records).length dict).2.encodeTo :=
    readFooter_append _ hfooter
  rw [CachedReader.openFile, if_neg hlong, readHeader_finishedFile hversion, hread,
    BlobFileFooter.decodeInto_encodeTo]
  simp only [bind, Except.bind, pure, Except.pure]
  by_cases hdict : o.maxDictBytes > 0
  · rw [if_pos ((header_flags o version).mpr hdict), initUncompressionDict_finishedFile hdict hfit]
  · rw [if_neg fun h => hdict ((header_flags o version).mp h), hempty (by omega)]

/-! ## The iterator's view -/

namespace BlobFileIterator

theorem trailing_ending (hdict : o.maxDictBytes > 0) {area : Bytes}
    (hfit : (area ++ (ending o area.length dict).1 ++ (ending o area.length dict).2.encodeTo).length
      < 2 ^ 64) :
    UInt64.ofNat (area ++ (ending o area.length dict).1).length -
        trailing (ending o area.length dict).2.metaIndexHandle -
        (UInt64.ofNat dict.length + UInt64.ofNat kBlockTrailerSize) = UInt64.ofNat area.length := by
  rw [ending, if_pos hdict, metaBlocks_eq] at hfit ⊢
  simp only [List.length_append, length_rawBlock] at hfit
  have hnull := isNull_metaBlocks area.length dict (by omega)
  rw [metaBlocks_eq] at hnull
  have htrailing : trailing ⟨UInt64.ofNat (area.length + (rawBlock dict).length),
      UInt64.ofNat (metaIndexBlock kCompressionDictBlockName (dictBlock area.length dict)).length⟩ =
      UInt64.ofNat (metaIndexBlock kCompressionDictBlockName (dictBlock area.length dict)).length +
        UInt64.ofNat kBlockTrailerSize := by
    rw [trailing, hnull]
    rfl
  rw [htrailing]
  simp only [List.length_append, length_rawBlock, UInt64.ofNat_add]
  rw [← UInt64.add_assoc, UInt64.add_sub_cancel, UInt64.add_sub_cancel]

/-- The iterator on a finished file after `Init`. -/
def initialized (o : BuilderOptions) (version : UInt32) (dict : Bytes) (records : List BlobRecord)
    (fileNumber fileEntries : UInt64) : BlobFileIterator :=
  { new (finishedFile o version dict records) fileNumber fileEntries with
    init := true
    uncompressionDict := dict
    headerSize := UInt64.ofNat (BlobFileBuilder.header o version).size
    endOfBlobRecord := UInt64.ofNat (recordArea o version dict records).length }

theorem runInit_finishedFile (hversion : o.Supports version)
    (hempty : o.maxDictBytes = 0 → dict = [])
    (hfit : (finishedFile o version dict records).length < 2 ^ 64) (fileNumber fileEntries : UInt64) :
    (new (finishedFile o version dict records) fileNumber fileEntries).runInit =
      (initialized o version dict records fileNumber fileEntries, true) := by
  obtain ⟨pad, hpad, hlen⟩ :=
    (ending o (recordArea o version dict records).length dict).2.exists_pad
  have hend : endOfRecords (finishedFile o version dict records)
      (UInt64.ofNat (finishedFile o version dict records).length) =
      (UInt64.ofNat (recordArea o version dict records ++
        (ending o (recordArea o version dict records).length dict).1).length -
        trailing (ending o (recordArea o version dict records).length dict).2.metaIndexHandle,
        (ending o (recordArea o version dict records).length dict).2) := by
    rw [finishedFile] at hfit ⊢
    simp only [hpad] at hfit ⊢
    exact endOfRecords_append _ hlen hfit
  have hread : preadFile (finishedFile o version dict records)
      (UInt64.ofNat (finishedFile o version dict records).length -
        UInt64.ofNat BlobFileFooter.kEncodedLength) (UInt64.ofNat BlobFileFooter.kEncodedLength) =
      .ok (ending o (recordArea o version dict records).length dict).2.encodeTo :=
    preadFile_footer _ (BlobFileFooter.length_encodeTo _) hfit
  have hstatus := footerStatus_sealArea hlen
  rw [← hpad] at hstatus
  rw [runInit, new, readHeader_finishedFile hversion, initialized, new]
  simp only [hread, hstatus, hend]
  by_cases hdict : o.maxDictBytes > 0
  · rw [if_pos ((header_flags o version).mpr hdict), initUncompressionDict_finishedFile hdict hfit]
    simp only [trailing_ending hdict hfit]
  · have hnull : trailing {} = 0 := rfl
    rw [if_neg fun h => hdict ((header_flags o version).mp h)]
    simp only [ending, if_neg hdict, hnull, hempty (by omega), UInt64.sub_zero, List.append_nil]

/-- The iterator yields the records of a finished file where they lie. -/
theorem yields_finishedFile (hversion : o.Supports version)
    (hempty : o.maxDictBytes = 0 → dict = [])
    (hfit : (finishedFile o version dict records).length < 2 ^ 64)
    (hs : ∀ r ∈ records, r.Storable (o.codec.compress dict) (o.codec.uncompress dict))
    {fileNumber fileEntries : UInt64} (hentries : records.length ≤ fileEntries.toNat) :
    (new (finishedFile o version dict records) fileNumber fileEntries).Yields o.codec.uncompress
      (handles (o.codec.compress dict) (BlobFileBuilder.header o version).size 0 records) := by
  have hheader := BlobFileHeader.length_encodeTo hversion.header
  have harea : (recordArea o version dict records).length =
      (BlobFileBuilder.header o version).size + storedLength (o.codec.compress dict) records := by
    rw [recordArea, List.length_append, hheader, storedLength]
  have hready : Ready o.codec.uncompress (o.codec.compress dict)
      (new (finishedFile o version dict records) fileNumber fileEntries)
      (initialized o version dict records fileNumber fileEntries)
      (BlobFileBuilder.header o version).size records
      ((ending o (recordArea o version dict records).length dict).1 ++
        (ending o (recordArea o version dict records).length dict).2.encodeTo) := by
    refine ⟨rfl, rfl, runInit_finishedFile hversion hempty hfit fileNumber fileEntries, rfl, rfl, hs,
      ?_, ?_, hentries⟩
    · rw [initialized, new, finishedFile, recordArea]
      simp only [List.append_assoc]
      rw [List.drop_left' hheader]
    · have hbound : (recordArea o version dict records).length < 2 ^ 64 := by
        simp only [finishedFile, List.length_append] at hfit
        omega
      rw [initialized, UInt64.toNat_ofNat', Nat.mod_eq_of_lt hbound, harea]
  refine hready.yields (Or.inl ?_)
  rw [initialized, harea]

end BlobFileIterator
end AegonKV
