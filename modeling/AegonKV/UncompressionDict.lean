import AegonKV.BlobFileReader
import AegonKV.BlockSeek
import AegonKV.StoredRecord

/-!
# The compression dictionary of a blob file

A file with a dictionary has two raw blocks between its records and its footer: the dictionary, and
a meta index block of the base DB whose only entry is the handle of the dictionary block.
-/

namespace AegonKV
open LittleEndian

def kBlockTrailerSize : ℕ := 5

def kCompressionDictBlockName : Bytes := "rocksdb.compression_dict".toList.map fun c => c.val.toUInt8

/-- `crc32c::Mask`. -/
def maskCrc (crc : BitVec 32) : BitVec 32 := crc.rotateRight 15 + 0xa282ead8#32

/-- `WriteRawBlock`. -/
def rawBlock (block : Bytes) : Bytes :=
  let crc := Crc32c.extend (Crc32c.value block) [kNoCompression]
  block ++ kNoCompression :: putFixed32 (UInt32.ofNat (maskCrc crc).toNat)

theorem length_rawBlock (block : Bytes) : (rawBlock block).length = block.length + kBlockTrailerSize := by
  simp [rawBlock, putFixed32, kBlockTrailerSize]

/-- `MetaIndexBuilder::Finish` after one `Add`. -/
def metaIndexBlock (key : Bytes) (handle : BlockHandle) : Bytes := oneEntryBlock key handle.encodeTo

/-- `SeekToMetaBlock`, `none` where `is_found` stays false. -/
def seekToMetaBlock (block name : Bytes) : Except Status (Option BlockHandle) := do
  match ← seekInBlock block name with
  | none => return none
  | some entry =>
    if entry.key = name then
      (BlockHandle.decodeFrom entry.value).map fun decoded => some decoded.1
    else return none

/-- What `new char[size]` holds after a read into it. Behind the end of the file the memory keeps
what was there. -/
def readInto (scratch : ℕ → UInt8) (file : Bytes) (offset size : UInt64) : Except Status Bytes := do
  let slice ← preadFile file offset size
  return slice ++ ((List.range size.toNat).drop slice.length).map scratch

/-- `InitUncompressionDict`; the result is the raw dictionary. -/
def initUncompressionDict (footer : BlobFileFooter) (file : Bytes)
    (scratch : ℕ → UInt8 := fun _ => 0) : Except Status Bytes := do
  let handle := footer.metaIndexHandle
  let block ← readInto scratch file handle.offset handle.size
  let found ← seekToMetaBlock block kCompressionDictBlockName
  match found with
  | none => throw (.notFound "uncompression dict")
  | some dictBlock => readInto scratch file dictBlock.offset dictBlock.size

/-- A block inside the file fills its memory. -/
theorem readInto_of_le (scratch : ℕ → UInt8) {file : Bytes} {offset size : UInt64}
    (h : offset.toNat + size.toNat ≤ file.length) :
    readInto scratch file offset size = .ok (readFile file offset.toNat size.toNat) := by
  have hlen : (readFile file offset.toNat size.toNat).length = size.toNat := by
    rw [readFile, List.length_take, List.length_drop]
    omega
  have hrest : (List.range size.toNat).drop (readFile file offset.toNat size.toNat).length = [] := by
    rw [List.drop_eq_nil_iff, List.length_range, hlen]
  rw [readInto, preadFile_of_le (by omega)]
  simp only [bind, Except.bind, hrest, List.map_nil, List.append_nil, pure, Except.pure]

theorem seekToMetaBlock_metaIndexBlock {key : Bytes} {handle : BlockHandle} (h8 : 8 ≤ key.length)
    (hk : key.length < 128) (hv : handle.encodeTo.length < 128) :
    seekToMetaBlock (metaIndexBlock key handle) key = .ok (some handle) := by
  have hdecode := BlockHandle.decodeFrom_encodeTo handle []
  rw [List.append_nil] at hdecode
  rw [seekToMetaBlock, metaIndexBlock, seekInBlock_oneEntryBlock h8 hk hv]
  simp only [bind, Except.bind, if_true, hdecode]
  rfl

end AegonKV
