import AegonKV.BlobFileRoundTrip
import AegonKV.CachedFetch

/-!
# One blob cache for many readers

`BlobFileReader::Get` behind a cache that any number of readers and files share. The keys are the
prefix that a reader draws when it is opened, followed by the offset as a varint; what is kept is the
buffer that `ReadRecord` leaves, the payload of a record or what it was uncompressed to. Nothing is
assumed of the codec: a payload that does not uncompress fails the same way every time.
-/

namespace AegonKV
open LittleEndian BlobFileIterator CachedFetch

open BuilderCall (records)

/-- A file that the builder has written, with what the callers of the builder and the file system
promise. -/
structure WrittenFile where
  options : BuilderOptions
  version : UInt32
  calls : List BuilderCall
  /-- What `GetUniqueId` returns for the file, nothing where it is not supported. -/
  uniqueId : Bytes
  supports : options.Supports version
  tagged : ∀ call ∈ calls, call.Tagged
  small : BlobFileBuilder.SmallWhileBuffered options version calls
  payload : ∀ r ∈ records calls,
    (options.codec.compress (buildFile options version calls).1.encoderDict r.encodeTo).1.length <
      2 ^ 32
  fits : (buildFile options version calls).1.file.length < 2 ^ 64

namespace WrittenFile

def bytes (f : WrittenFile) : Bytes := (buildFile f.options f.version f.calls).1.file

def dict (f : WrittenFile) : Bytes := (buildFile f.options f.version f.calls).1.encoderDict

/-- The records with the handles that the builder returned. -/
def items (f : WrittenFile) : List (BlobRecord × BlobHandle) :=
  blobItems f.calls (buildFile f.options f.version f.calls).2

theorem bytes_eq (f : WrittenFile) :
    f.bytes = finishedFile f.options f.version f.dict (records f.calls) :=
  (BlobFileBuilder.buildFile_held f.supports f.tagged f.small).2.1

theorem items_eq (f : WrittenFile) :
    f.items = handles (f.options.codec.compress f.dict)
      (BlobFileBuilder.header f.options f.version).size 0 (records f.calls) := by
  obtain ⟨-, -, hout, -⟩ := BlobFileBuilder.buildFile_held f.supports f.tagged f.small
  rw [items, hout, blobItems_placed]
  rfl

theorem length_finishedFile (f : WrittenFile) :
    (finishedFile f.options f.version f.dict (records f.calls)).length < 2 ^ 64 := by
  rw [← f.bytes_eq]
  exact f.fits

theorem stored (f : WrittenFile) {record : BlobRecord} {handle : BlobHandle}
    (hmem : (record, handle) ∈ f.items) :
    record ∈ records f.calls ∧ (∃ rest, f.bytes.drop handle.offset.toNat =
      BlobEncoder.encodeRecord (f.options.codec.compress f.dict) record ++ rest) ∧
    handle.size.toNat =
      (BlobEncoder.encodeRecord (f.options.codec.compress f.dict) record).length := by
  rw [items_eq] at hmem
  rw [bytes_eq]
  exact stored_finishedFile f.supports f.length_finishedFile hmem

/-- The offset of a handle determines its size. -/
theorem size_eq (f : WrittenFile) {record record' : BlobRecord} {handle handle' : BlobHandle}
    (hmem : (record, handle) ∈ f.items) (hmem' : (record', handle') ∈ f.items)
    (hsame : handle.offset = handle'.offset) : handle.size = handle'.size := by
  have hsize := (f.stored hmem).2.2
  have hsize' := (f.stored hmem').2.2
  rw [items_eq] at hmem hmem'
  rw [apart_finishedFile f.supports f.length_finishedFile hmem hmem' hsame, ← hsize'] at hsize
  exact UInt64.toNat_inj.mp hsize

end WrittenFile

/-! ## What a read leaves -/

/-- A record that is read has a header, and a payload that decodes. -/
theorem BlobFileReader.readRecord_ok {uncompress : UInt8 → Bytes → Except Status Bytes}
    {reader : BlobFileReader} {handle : BlobHandle} {record : BlobRecord}
    (h : reader.readRecord uncompress handle = .ok record) :
    ∃ decoder blob, BlobDecoder.decodeHeader
        (readFile reader.file handle.offset.toNat handle.size.toNat) = .ok (decoder, blob) ∧
      decoder.decodeRecord uncompress blob = .ok record := by
  simp only [BlobFileReader.readRecord] at h
  split_ifs at h with hsize
  · cases h
  · cases hheader : BlobDecoder.decodeHeader
        (readFile reader.file handle.offset.toNat handle.size.toNat) with
    | error e =>
        rw [hheader] at h
        cases h
    | ok p =>
        rw [hheader] at h
        exact ⟨p.1, p.2, rfl, h⟩

/-- The record is decoded from the payload or from what that uncompresses to. -/
theorem BlobDecoder.decodeRecord_ok {uncompress : UInt8 → Bytes → Except Status Bytes}
    {d : BlobDecoder} {src : Bytes} {record : BlobRecord}
    (h : d.decodeRecord uncompress src = .ok record) :
    d.compression = kNoCompression ∧
        decodeInto BlobRecord.decodeFrom (src.take d.recordSize.toNat) = .ok record ∨
      d.compression ≠ kNoCompression ∧ ∃ buffer,
        uncompress d.compression (src.take d.recordSize.toNat) = .ok buffer ∧
        decodeInto BlobRecord.decodeFrom buffer = .ok record := by
  simp only [BlobDecoder.decodeRecord] at h
  split_ifs at h with hcrc hnone
  · exact Or.inl ⟨hnone, h⟩
  · cases hbuffer : uncompress d.compression (src.take d.recordSize.toNat) with
    | error e =>
        rw [hbuffer] at h
        cases h
    | ok buffer =>
        rw [hbuffer] at h
        exact Or.inr ⟨hnone, buffer, rfl, h⟩

namespace CachedReader
variable {uncompress : Bytes → UInt8 → Bytes → Except Status Bytes} {r : CachedReader}

/-- The buffer after a read that succeeds. -/
theorem readBuffer_ok {handle : BlobHandle} {record : BlobRecord} {decoder : BlobDecoder}
    {blob : Bytes}
    (hread : r.reader.readRecord (uncompress r.uncompressionDict) handle = .ok record)
    (hheader : BlobDecoder.decodeHeader
      (readFile r.reader.file handle.offset.toNat handle.size.toNat) = .ok (decoder, blob)) :
    decoder.compression = kNoCompression ∧
        r.readBuffer uncompress handle = .ok (record, blob) ∨
      ∃ buffer, decodeInto BlobRecord.decodeFrom buffer = .ok record ∧
        r.readBuffer uncompress handle = .ok (record, buffer) := by
  obtain ⟨decoder', blob', hheader', hrecord⟩ := BlobFileReader.readRecord_ok hread
  obtain ⟨rfl, rfl⟩ := Prod.mk.inj (Except.ok.inj (hheader.symm.trans hheader'))
  rcases BlobDecoder.decodeRecord_ok hrecord with ⟨hnone, hdecode⟩ | ⟨hsome, buffer, hbuffer, hdecode⟩
  · refine Or.inl ⟨hnone, ?_⟩
    simp only [readBuffer, hread, hheader, bind, Except.bind, pure, Except.pure, if_pos hnone]
  · refine Or.inr ⟨buffer, hdecode, ?_⟩
    simp only [readBuffer, hread, hheader, bind, Except.bind, pure, Except.pure, if_neg hsome,
      hbuffer]

theorem readBuffer_error {handle : BlobHandle} {s : Status}
    (hread : r.reader.readRecord (uncompress r.uncompressionDict) handle = .error s) :
    r.readBuffer uncompress handle = .error s := by
  rw [readBuffer, hread]
  rfl

/-- The buffer is a by-product: the status and the record are those of `ReadRecord`. -/
theorem readBuffer_fst (handle : BlobHandle) :
    (r.readBuffer uncompress handle).map Prod.fst =
      r.reader.readRecord (uncompress r.uncompressionDict) handle := by
  cases hread : r.reader.readRecord (uncompress r.uncompressionDict) handle with
  | error s => rw [readBuffer_error hread]; rfl
  | ok record =>
      obtain ⟨decoder, blob, hheader, -⟩ := BlobFileReader.readRecord_ok hread
      rcases readBuffer_ok hread hheader with ⟨-, hbuffer⟩ | ⟨buffer, -, hbuffer⟩
      · rw [hbuffer]; rfl
      · rw [hbuffer]; rfl

/-- Where the builder put a record, the buffer decodes to the record that was read: the payload
fills the handle. -/
theorem decodeInto_readBuffer {compress : Bytes → Bytes × UInt8} {stored record : BlobRecord}
    {handle : BlobHandle} {rest buffer : Bytes}
    (hdrop : r.reader.file.drop handle.offset.toNat =
      BlobEncoder.encodeRecord compress stored ++ rest)
    (hsize : handle.size.toNat = (BlobEncoder.encodeRecord compress stored).length)
    (hpayload : (compress stored.encodeTo).1.length < 2 ^ 32)
    (hread : r.readBuffer uncompress handle = .ok (record, buffer)) :
    decodeInto BlobRecord.decodeFrom buffer = .ok record := by
  have hblob : readFile r.reader.file handle.offset.toNat handle.size.toNat =
      BlobEncoder.header compress stored.encodeTo ++ (compress stored.encodeTo).1 := by
    rw [readFile, hdrop, hsize, List.take_left]
    rfl
  have hheader := BlobEncoder.decodeHeader_header compress stored.encodeTo
    (compress stored.encodeTo).1
  rw [← hblob] at hheader
  have hrecord : r.reader.readRecord (uncompress r.uncompressionDict) handle = .ok record := by
    rw [← readBuffer_fst, hread]
    rfl
  obtain ⟨decoder, blob, hheader', hdecoded⟩ := BlobFileReader.readRecord_ok hrecord
  obtain ⟨rfl, rfl⟩ := Prod.mk.inj (Except.ok.inj (hheader.symm.trans hheader'))
  rcases readBuffer_ok hrecord hheader with ⟨hnone, hbuffer⟩ | ⟨buffer', hdecode, hbuffer⟩
  · obtain rfl := (Prod.mk.inj (Except.ok.inj (hread.symm.trans hbuffer))).2
    rcases BlobDecoder.decodeRecord_ok hdecoded with ⟨-, hdecode⟩ | ⟨hsome, -⟩
    · rwa [BlobEncoder.toNat_recordSize _ _ hpayload, List.take_length] at hdecode
    · exact absurd hnone hsome
  · obtain rfl := (Prod.mk.inj (Except.ok.inj (hread.symm.trans hbuffer))).2
    exact hdecode

end CachedReader

/-! ## The shared cache -/

def generateCachePrefix (uniqueId : Bytes) (newId : UInt64) : Bytes :=
  if uniqueId = [] then putVarint64 newId else uniqueId

def encodeBlobCache (cachePrefix : Bytes) (offset : UInt64) : Bytes :=
  cachePrefix ++ putVarint64 offset

structure SharedReader where
  codec : Codec
  reader : CachedReader
  cachePrefix : Bytes

/-- `Open`; `newId` is what the cache returns to this reader. -/
def SharedReader.openFile (f : WrittenFile) (newId : UInt64) : Except Status SharedReader := do
  let reader ← CachedReader.openFile f.bytes false
  return ⟨f.options.codec, reader, generateCachePrefix f.uniqueId newId⟩

/-- `Get` of the readers: the key, `ReadRecord` with its buffer, and the decoder of a hit. -/
def blobSource {ι : Type} (readers : ι → SharedReader) :
    Source (ι × BlobHandle) Bytes Bytes BlobRecord Status where
  key q := encodeBlobCache (readers q.1).cachePrefix q.2.offset
  fetch q := (readers q.1).reader.readBuffer (readers q.1).codec.uncompress q.2
  view _ blob := decodeInto BlobRecord.decodeFrom blob

def SharedReader.readRecord (r : SharedReader) (handle : BlobHandle) : Except Status BlobRecord :=
  r.reader.reader.readRecord (r.codec.uncompress r.reader.uncompressionDict) handle

def WrittenFile.reader (f : WrittenFile) : CachedReader where
  reader := ⟨f.bytes, (ending f.options (recordArea f.options f.version f.dict
    (records f.calls)).length f.dict).2⟩
  uncompressionDict := f.dict
  cache := none

theorem CachedReader.readBuffer_congr {uncompress : Bytes → UInt8 → Bytes → Except Status Bytes}
    (r : CachedReader) {handle handle' : BlobHandle} (hoffset : handle.offset = handle'.offset)
    (hsize : handle.size = handle'.size) :
    r.readBuffer uncompress handle = r.readBuffer uncompress handle' := by
  simp only [CachedReader.readBuffer, BlobFileReader.readRecord, hoffset, hsize]

theorem openFile_written (f : WrittenFile) (newId : UInt64) :
    SharedReader.openFile f newId =
      .ok ⟨f.options.codec, f.reader, generateCachePrefix f.uniqueId newId⟩ := by
  have hempty := (BlobFileBuilder.buildFile_held f.supports f.tagged f.small).1
  have hopen : CachedReader.openFile f.bytes false = .ok f.reader := by
    rw [WrittenFile.reader, f.bytes_eq]
    exact openFile_finishedFile f.supports hempty f.length_finishedFile false
  rw [SharedReader.openFile, hopen]
  rfl

theorem uncached_blobSource {ι : Type} (readers : ι → SharedReader) (q : ι × BlobHandle) :
    (blobSource readers).uncached q = (readers q.1).readRecord q.2 :=
  CachedReader.readBuffer_fst q.2

/-- Keys of one file differ where the offsets differ. -/
theorem offset_eq_of_encodeBlobCache {uniqueId : Bytes} {newId newId' offset offset' : UInt64}
    (h : encodeBlobCache (generateCachePrefix uniqueId newId) offset =
      encodeBlobCache (generateCachePrefix uniqueId newId') offset') : offset = offset' := by
  have hlast {o o' : UInt64} (heq : putVarint64 o = putVarint64 o') : o = o' := by
    have h₁ := getVarint64_putVarint64 o []
    have h₂ := getVarint64_putVarint64 o' []
    rw [heq, h₂] at h₁
    exact (Prod.mk.inj (Option.some.inj h₁)).1.symm
  unfold encodeBlobCache generateCachePrefix at h
  split_ifs at h with hid
  · have h₁ := getVarint64_putVarint64 newId (putVarint64 offset)
    rw [h, getVarint64_putVarint64] at h₁
    exact hlast (Prod.mk.inj (Option.some.inj h₁)).2.symm
  · exact hlast (List.append_cancel_left h)

section Readers
variable {ι : Type} {files : ι → WrittenFile} {newIds : ι → UInt64} {readers : ι → SharedReader}

/-- The handle is one that the builder of the reader's file returned. -/
def Returned (files : ι → WrittenFile) (q : ι × BlobHandle) : Prop :=
  ∃ record, (record, q.2) ∈ (files q.1).items

theorem coherent_blobSource
    (hopened : ∀ i, SharedReader.openFile (files i) (newIds i) = .ok (readers i))
    (hdistinct : ∀ i j, files i ≠ files j → ∀ offset offset',
      encodeBlobCache (readers i).cachePrefix offset ≠
        encodeBlobCache (readers j).cachePrefix offset') :
    (blobSource readers).Coherent (Returned files) := by
  rintro ⟨i, handle⟩ ⟨j, handle'⟩ record buffer ⟨stored, hmem⟩ ⟨stored', hmem'⟩ hkey hfetch
  have hfile : files i = files j := by
    by_contra hne
    exact hdistinct i j hne _ _ hkey
  have hi : readers i =
      ⟨(files j).options.codec, (files j).reader,
        generateCachePrefix (files j).uniqueId (newIds i)⟩ := by
    rw [← hfile]
    exact Except.ok.inj ((hopened i).symm.trans (openFile_written (files i) (newIds i)))
  have hj : readers j =
      ⟨(files j).options.codec, (files j).reader,
        generateCachePrefix (files j).uniqueId (newIds j)⟩ :=
    Except.ok.inj ((hopened j).symm.trans (openFile_written (files j) (newIds j)))
  simp only [blobSource, hi, hj] at hkey hfetch
  simp only [hfile] at hmem
  have hoffset : handle.offset = handle'.offset := offset_eq_of_encodeBlobCache hkey
  rw [CachedReader.readBuffer_congr _ hoffset ((files j).size_eq hmem hmem' hoffset)] at hfetch
  obtain ⟨hrecord, ⟨rest, hdrop⟩, hsize⟩ := (files j).stored hmem'
  have hview : decodeInto BlobRecord.decodeFrom buffer = .ok record :=
    CachedReader.decodeInto_readBuffer hdrop hsize ((files j).payload stored' hrecord) hfetch
  have huncached : (blobSource readers).uncached (j, handle') = .ok record := by
    simp only [Source.uncached, blobSource, hj, hfetch]
    rfl
  rw [huncached]
  exact hview

/-- Whatever other readers and users do with the cache, and whatever it loses, every read returns
what `ReadRecord` returns. -/
theorem sharedCache_reads_eq
    (hopened : ∀ i, SharedReader.openFile (files i) (newIds i) = .ok (readers i))
    (hdistinct : ∀ i j, files i ≠ files j → ∀ offset offset',
      encodeBlobCache (readers i).cachePrefix offset ≠
        encodeBlobCache (readers j).cachePrefix offset')
    {events : List (Source.Event (ι × BlobHandle) Bytes Bytes)}
    (hevents : ∀ e ∈ events, e.Allowed (blobSource readers) (Returned files)) :
    (blobSource readers).answers (fun _ => none) events =
      (events.filterMap Source.Event.query?).map fun q => (readers q.1).readRecord q.2 := by
  rw [(Source.sound_empty _ _).answers_eq (coherent_blobSource hopened hdistinct) hevents]
  exact List.map_congr_left fun q _ => uncached_blobSource readers q

end Readers

theorem mixedCalls_payload : ∀ r ∈ records mixedCalls,
    (smallTrainOptions.codec.compress (buildFile smallTrainOptions BlobFileHeader.kVersion2
      mixedCalls).1.encoderDict r.encodeTo).1.length < 2 ^ 32 :=
  fun r hr => (mixedCalls_buildable.sizes r hr).2.2

def mixedFile : WrittenFile where
  options := smallTrainOptions
  version := BlobFileHeader.kVersion2
  calls := mixedCalls
  uniqueId := [7]
  supports := mixedCalls_buildable.supports
  tagged := mixedCalls_buildable.packable.tagged
  small := mixedCalls_buildable.small
  payload := mixedCalls_payload
  fits := mixedCalls_buildable.fits

def mixedReaders (i : Bool) : SharedReader :=
  ⟨smallTrainOptions.codec, mixedFile.reader, generateCachePrefix [7] (if i then 1 else 2)⟩

def firstHandle : BlobHandle := ⟨12, 13, 0⟩

theorem firstHandle_mem : (⟨[2], [20]⟩, firstHandle) ∈ mixedFile.items := by decide +kernel

/-- The second reader hits what the first one has left; after the eviction it reads the file. -/
theorem mixedReaders_reads :
    (blobSource mixedReaders).answers (fun _ => none)
      [.get (true, firstHandle), .get (false, firstHandle), .evict (encodeBlobCache [7] 12),
        .insert [0] [1], .get (false, firstHandle)] =
      [(mixedReaders true).readRecord firstHandle, (mixedReaders false).readRecord firstHandle,
        (mixedReaders false).readRecord firstHandle] := by
  refine @sharedCache_reads_eq Bool (fun _ => mixedFile) (fun i => if i then 1 else 2) mixedReaders
    (fun i => openFile_written mixedFile _) (fun i j hne => absurd rfl hne) _ ?_
  intro e he
  simp only [List.mem_cons, List.not_mem_nil, or_false] at he
  rcases he with rfl | rfl | rfl | rfl | rfl
  · exact ⟨_, firstHandle_mem⟩
  · exact ⟨_, firstHandle_mem⟩
  · trivial
  · rintro ⟨i, handle⟩ - hkey
    cases hkey
  · exact ⟨_, firstHandle_mem⟩

end AegonKV
