import AegonKV.StoredRecord

/-!
# Reading blob files on the CPU

`BlobFileReader::Open` and `ReadRecord` over the bytes of a file, with file reads that succeed and
are short at the end of the file. `BlobImage` is the on-disk format without a dictionary: header,
uncompressed records, padding and footer, where the footer may be padded with anything. The reader
opens every image and finds every record at its offset.
-/

namespace AegonKV
open LittleEndian

def readFile (file : Bytes) (offset n : ℕ) : Bytes := (file.drop offset).take n

/-- A read from any offset. `pread` refuses one that is negative as a signed number, and no place
in a file is. -/
def preadFile (file : Bytes) (offset size : UInt64) : Except Status Bytes :=
  if 2 ^ 63 ≤ offset.toNat ∧ file.length < offset.toNat ∧ size ≠ 0 then .error { code := .ioError }
  else .ok (readFile file offset.toNat size.toNat)

theorem preadFile_of_le {file : Bytes} {offset : UInt64} (h : offset.toNat ≤ file.length)
    (size : UInt64) : preadFile file offset size = .ok (readFile file offset.toNat size.toNat) := by
  rw [preadFile, if_neg fun hrefused => absurd h (Nat.not_le.mpr hrefused.2.1)]

structure BlobFileReader where
  file : Bytes
  footer : BlobFileFooter
  deriving DecidableEq, Repr

namespace BlobFileReader

def readHeader (file : Bytes) : Except Status BlobFileHeader :=
  decodeInto BlobFileHeader.decodeFrom (readFile file 0 BlobFileHeader.kMaxEncodedLength) true

/-- `Open`; `initUncompressionDict` is entered only for a header with the dictionary flag. -/
def openFile (initUncompressionDict : BlobFileFooter → Bytes → Except Status Unit) (file : Bytes)
    (fileSize : ℕ) : Except Status BlobFileReader := do
  if fileSize < BlobFileFooter.kEncodedLength then
    throw (.corruption "file is too short to be a blob file")
  let header ← readHeader file
  let footer ← decodeInto BlobFileFooter.decodeFrom
    (readFile file (fileSize - BlobFileFooter.kEncodedLength) BlobFileFooter.kEncodedLength)
  if header.flags &&& BlobFileHeader.kHasUncompressionDictionary ≠ 0 then
    initUncompressionDict footer file
  return ⟨file, footer⟩

def readRecord (uncompress : UInt8 → Bytes → Except Status Bytes) (reader : BlobFileReader)
    (handle : BlobHandle) : Except Status BlobRecord := do
  let blob := readFile reader.file handle.offset.toNat handle.size.toNat
  if handle.size.toNat ≠ blob.length then
    throw (.corruption ("ReadRecord actual size: " ++ toString blob.length ++
      " not equal to blob size " ++ toString handle.size))
  let (decoder, blob) ← BlobDecoder.decodeHeader blob
  decoder.decodeRecord uncompress blob

/-- The header of a file, whatever follows it. -/
theorem readHeader_append {header : BlobFileHeader} (hw : header.WellFormed) (rest : Bytes) :
    readHeader (header.encodeTo ++ rest) = .ok header := by
  have hmin : header.encodeTo.length ≤ BlobFileHeader.kMaxEncodedLength := by
    rw [BlobFileHeader.length_encodeTo hw, BlobFileHeader.size]
    split_ifs <;> decide
  have htake : readFile (header.encodeTo ++ rest) 0 BlobFileHeader.kMaxEncodedLength =
      header.encodeTo ++ rest.take (BlobFileHeader.kMaxEncodedLength - header.encodeTo.length) := by
    rw [readFile, List.drop_zero, List.take_append, List.take_of_length_le hmin]
  rw [readHeader, htake, decodeInto, BlobFileHeader.decodeFrom_encodeTo hw]
  rfl

end BlobFileReader

/-- The last bytes of a file are its footer. -/
theorem readFooter_append (front : Bytes) {footer : Bytes}
    (h : footer.length = BlobFileFooter.kEncodedLength) :
    readFile (front ++ footer) ((front ++ footer).length - BlobFileFooter.kEncodedLength)
      BlobFileFooter.kEncodedLength = footer := by
  have hdrop : (front ++ footer).length - BlobFileFooter.kEncodedLength = front.length := by
    rw [List.length_append, h, Nat.add_sub_cancel]
  rw [readFile, hdrop, List.drop_left, ← h, List.take_length]

/-- `Compress` with `kNoCompression`. -/
def noCompression (record : Bytes) : Bytes × UInt8 := (record, kNoCompression)

/-- A record as the CPU stores it uncompressed. -/
def encodedRecord (r : BlobRecord) : Bytes := BlobEncoder.encodeRecord noCompression r

/-- The part of an encoded record that its checksum covers. -/
def checkedPart (r : BlobRecord) : Bytes :=
  putFixed32 (UInt32.ofNat r.encodeTo.length) ++ [kNoCompression] ++ r.encodeTo

theorem encodedRecord_eq (r : BlobRecord) :
    encodedRecord r =
      putFixed32 (UInt32.ofNat (Crc32c.value (checkedPart r)).toNat) ++ checkedPart r := by
  simp only [encodedRecord, BlobEncoder.encodeRecord, BlobEncoder.encodeSlice, noCompression,
    checkedPart, Crc32c.value, Crc32c.extend_append, List.append_assoc]

theorem length_encodedRecord (r : BlobRecord) :
    (encodedRecord r).length = kRecordHeaderSize + r.encodeTo.length := by
  simp [encodedRecord_eq, checkedPart, putFixed32, kRecordHeaderSize]
  omega

/-- A stored record is read back from its offset and encoded size. -/
theorem readRecord_stored {compress : Bytes → Bytes × UInt8}
    {uncompress : UInt8 → Bytes → Except Status Bytes} {footer : BlobFileFooter} {file rest : Bytes}
    {r : BlobRecord} {handle : BlobHandle} (hs : r.Storable compress uncompress)
    (hdrop : file.drop handle.offset.toNat = BlobEncoder.encodeRecord compress r ++ rest)
    (hsize : handle.size.toNat = (BlobEncoder.encodeRecord compress r).length) :
    BlobFileReader.readRecord uncompress ⟨file, footer⟩ handle = .ok r := by
  have hblob : readFile file handle.offset.toNat handle.size.toNat =
      BlobEncoder.header compress r.encodeTo ++ (compress r.encodeTo).1 := by
    rw [readFile, hdrop, hsize, List.take_left]
    rfl
  have hlen : handle.size.toNat =
      (BlobEncoder.header compress r.encodeTo ++ (compress r.encodeTo).1).length := hsize
  simp only [BlobFileReader.readRecord, hblob]
  rw [if_neg (not_not_intro hlen), BlobEncoder.decodeHeader_header]
  exact hs.decodeRecord

theorem storable_noCompression (uncompress : UInt8 → Bytes → Except Status Bytes) {r : BlobRecord}
    (hr : r.encodeTo.length < 2 ^ 32) (hk : r.key.length < 2 ^ 32) (hv : r.value.length < 2 ^ 32) :
    r.Storable noCompression uncompress :=
  ⟨Or.inl ⟨rfl, rfl⟩, hr, hk, hv⟩

theorem readRecord_encodedRecord (uncompress : UInt8 → Bytes → Except Status Bytes)
    {footer : BlobFileFooter} {pre post : Bytes} {r : BlobRecord} {handle : BlobHandle}
    (hoff : handle.offset.toNat = pre.length) (hsize : handle.size.toNat = (encodedRecord r).length)
    (hr : r.encodeTo.length < 2 ^ 32) (hk : r.key.length < 2 ^ 32) (hv : r.value.length < 2 ^ 32) :
    BlobFileReader.readRecord uncompress ⟨pre ++ encodedRecord r ++ post, footer⟩ handle = .ok r := by
  have hdrop : (pre ++ encodedRecord r ++ post).drop handle.offset.toNat =
      BlobEncoder.encodeRecord noCompression r ++ post := by
    rw [hoff, List.append_assoc, List.drop_left]
    rfl
  exact readRecord_stored (storable_noCompression uncompress hr hk hv) hdrop hsize

/-- A blob file without a dictionary whose records are stored uncompressed. -/
structure BlobImage where
  header : BlobFileHeader
  records : List BlobRecord
  padding : Bytes
  footerPadding : Bytes
  header_wf : header.WellFormed
  no_dictionary : header.flags = 0
  footerPadding_length : footerPadding.length = 18

theorem BlobFileHeader.wellFormed_default : ({} : BlobFileHeader).WellFormed := Or.inr ⟨rfl, rfl⟩

theorem BlobFileHeader.flags_default : ({} : BlobFileHeader).flags = 0 := rfl

theorem BlobFileHeader.wellFormed_kVersion1 : (⟨1, 0⟩ : BlobFileHeader).WellFormed :=
  Or.inl ⟨rfl, rfl⟩

theorem BlobFileHeader.flags_kVersion1 : (⟨1, 0⟩ : BlobFileHeader).flags = 0 := rfl

namespace BlobImage

theorem length_zeroPadding : (List.replicate 18 (0 : UInt8)).length = 18 := List.length_replicate

/-- A version 1 file with nothing between the records and the footer. -/
def version1 (records : List BlobRecord) : BlobImage where
  header := ⟨1, 0⟩
  records := records
  padding := []
  footerPadding := List.replicate 18 0
  header_wf := BlobFileHeader.wellFormed_kVersion1
  no_dictionary := BlobFileHeader.flags_kVersion1
  footerPadding_length := length_zeroPadding

def version2 (records : List BlobRecord) : BlobImage where
  header := {}
  records := records
  padding := []
  footerPadding := List.replicate 18 0
  header_wf := BlobFileHeader.wellFormed_default
  no_dictionary := BlobFileHeader.flags_default
  footerPadding_length := length_zeroPadding

def footer (image : BlobImage) : Bytes :=
  BlobFileFooter.sealArea (BlockHandle.encodeTo {} ++ image.footerPadding)

def bytes (image : BlobImage) : Bytes :=
  image.header.encodeTo ++ image.records.flatMap encodedRecord ++ image.padding ++ image.footer

def offset (image : BlobImage) (j : ℕ) : ℕ :=
  image.header.size + ((image.records.take j).flatMap encodedRecord).length

theorem length_area (image : BlobImage) :
    (BlockHandle.encodeTo {} ++ image.footerPadding).length =
      BlobFileFooter.kEncodedLength - 12 := by
  rw [List.length_append, image.footerPadding_length]
  rfl

theorem length_footer (image : BlobImage) :
    image.footer.length = BlobFileFooter.kEncodedLength :=
  BlobFileFooter.length_sealArea image.length_area

theorem length_bytes (image : BlobImage) :
    image.bytes.length = image.header.size + (image.records.flatMap encodedRecord).length +
      image.padding.length + BlobFileFooter.kEncodedLength := by
  rw [bytes, List.length_append, List.length_append, List.length_append,
    BlobFileHeader.length_encodeTo image.header_wf, image.length_footer]

theorem openFile_bytes (initUncompressionDict : BlobFileFooter → Bytes → Except Status Unit)
    (image : BlobImage) :
    BlobFileReader.openFile initUncompressionDict image.bytes image.bytes.length =
      .ok ⟨image.bytes, {}⟩ := by
  have hfooter : readFile image.bytes (image.bytes.length - BlobFileFooter.kEncodedLength)
      BlobFileFooter.kEncodedLength = image.footer := readFooter_append _ image.length_footer
  have hdec : BlobFileFooter.decodeFrom image.footer = .ok ({}, []) := by
    have h := BlobFileFooter.decodeFrom_sealArea {} image.footerPadding [] image.length_area
    rwa [List.append_nil] at h
  have hheader : BlobFileReader.readHeader image.bytes = .ok image.header := by
    rw [bytes, List.append_assoc, List.append_assoc]
    exact BlobFileReader.readHeader_append image.header_wf _
  have hlong : ¬image.bytes.length < BlobFileFooter.kEncodedLength := by
    rw [bytes, List.length_append, image.length_footer]
    omega
  have hflag : ¬(image.header.flags &&& BlobFileHeader.kHasUncompressionDictionary ≠ 0) := by
    rw [image.no_dictionary]
    decide
  rw [BlobFileReader.openFile, if_neg hlong, hheader, hfooter]
  simp only [decodeInto, hdec]
  exact if_neg hflag

/-- Every record of an image is read back from its offset and encoded size. -/
theorem readRecord_bytes (uncompress : UInt8 → Bytes → Except Status Bytes) (image : BlobImage)
    {footer : BlobFileFooter} {j : ℕ} {r : BlobRecord} (hj : image.records[j]? = some r)
    {handle : BlobHandle} (hoff : handle.offset.toNat = image.offset j)
    (hsize : handle.size.toNat = (encodedRecord r).length) (hr : r.encodeTo.length < 2 ^ 32)
    (hk : r.key.length < 2 ^ 32) (hv : r.value.length < 2 ^ 32) :
    BlobFileReader.readRecord uncompress ⟨image.bytes, footer⟩ handle = .ok r := by
  obtain ⟨hlt, rfl⟩ := List.getElem?_eq_some_iff.mp hj
  have hsplit : image.bytes =
      (image.header.encodeTo ++ (image.records.take j).flatMap encodedRecord) ++
        encodedRecord image.records[j] ++
        ((image.records.drop (j + 1)).flatMap encodedRecord ++ image.padding ++ image.footer) := by
    have hrec : image.records.flatMap encodedRecord =
        (image.records.take j).flatMap encodedRecord ++ (encodedRecord image.records[j] ++
          (image.records.drop (j + 1)).flatMap encodedRecord) := by
      rw [← List.flatMap_cons, ← List.drop_eq_getElem_cons hlt, ← List.flatMap_append,
        List.take_append_drop]
    rw [bytes, hrec]
    simp only [List.append_assoc]
  rw [hsplit]
  refine readRecord_encodedRecord uncompress ?_ hsize hr hk hv
  rw [hoff, offset, List.length_append, BlobFileHeader.length_encodeTo image.header_wf]

end BlobImage
end AegonKV
