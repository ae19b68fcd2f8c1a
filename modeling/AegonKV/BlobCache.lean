import AegonKV.UncompressionDict

/-!
# Opening blob files and the blob cache

`BlobFileReader::Open` with the dictionary it loads, and `Get` behind a blob cache. The cache keeps
the uncompressed bytes of a record under its offset alone, and it may lose any entry at any time.
As long as the handles that are read stand for one record an offset, a cached record is the one the
file holds.
-/

namespace AegonKV
open LittleEndian

/-- A reader with the dictionary that `Open` loaded and its part of the blob cache, if there is
one. -/
structure CachedReader where
  reader : BlobFileReader
  uncompressionDict : Bytes := []
  cache : Option (UInt64 → Option Bytes)

namespace CachedReader

def openFile (file : Bytes) (blobCache : Bool) (scratch : ℕ → UInt8 := fun _ => 0) :
    Except Status CachedReader := do
  if file.length < BlobFileFooter.kEncodedLength then
    throw (.corruption "file is too short to be a blob file")
  let header ← BlobFileReader.readHeader file
  let footer ← decodeInto BlobFileFooter.decodeFrom
    (readFile file (file.length - BlobFileFooter.kEncodedLength) BlobFileFooter.kEncodedLength)
  let dict ← if header.flags &&& BlobFileHeader.kHasUncompressionDictionary ≠ 0 then
      initUncompressionDict footer file scratch
    else pure []
  return ⟨⟨file, footer⟩, dict, if blobCache then some fun _ => none else none⟩

variable (uncompress : Bytes → UInt8 → Bytes → Except Status Bytes)

def readBuffer (r : CachedReader) (handle : BlobHandle) : Except Status (BlobRecord × Bytes) := do
  let record ← r.reader.readRecord (uncompress r.uncompressionDict) handle
  let (decoder, blob) ← BlobDecoder.decodeHeader
    (readFile r.reader.file handle.offset.toNat handle.size.toNat)
  if decoder.compression = kNoCompression then return (record, blob)
  let buffer ← uncompress r.uncompressionDict decoder.compression (blob.take decoder.recordSize.toNat)
  return (record, buffer)

def insert (r : CachedReader) (offset : UInt64) (blob : Option Bytes) : CachedReader :=
  { r with cache := r.cache.map fun cache => Function.update cache offset blob }

def get (r : CachedReader) (handle : BlobHandle) : Except Status BlobRecord × CachedReader :=
  match r.cache.bind (· handle.offset) with
  | some blob => (decodeInto BlobRecord.decodeFrom blob, r)
  | none =>
    match r.readBuffer uncompress handle with
    | .error s => (.error s, r)
    | .ok (record, blob) => (.ok record, r.insert handle.offset (some blob))

/-- What happens to a reader and its cache: a record is read, or an entry is evicted. -/
inductive Event
  | read (handle : BlobHandle)
  | evict (offset : UInt64)

def step (r : CachedReader) : Event → CachedReader
  | .read handle => (r.get uncompress handle).2
  | .evict offset => r.insert offset none

def run (r : CachedReader) (events : List Event) : CachedReader := events.foldl (step uncompress) r

variable {uncompress} {items : List (BlobRecord × BlobHandle)} {r : CachedReader}

/-- The file holds these records under these handles, and the cache holds nothing else under their
offsets. -/
structure Serves (uncompress : Bytes → UInt8 → Bytes → Except Status Bytes)
    (items : List (BlobRecord × BlobHandle)) (r : CachedReader) : Prop where
  fits : ∀ record handle, (record, handle) ∈ items → record.key.length < 2 ^ 32 ∧
    record.value.length < 2 ^ 32
  apart : ∀ record handle record' handle', (record, handle) ∈ items → (record', handle') ∈ items →
    handle.offset = handle'.offset → record = record'
  stored : ∀ record handle, (record, handle) ∈ items →
    r.readBuffer uncompress handle = .ok (record, record.encodeTo)
  cached : ∀ record handle blob, (record, handle) ∈ items →
    r.cache.bind (· handle.offset) = some blob → blob = record.encodeTo

theorem insert_lookup {offset offset' : UInt64} {blob : Option Bytes} {found : Bytes}
    (h : (r.insert offset blob).cache.bind (· offset') = some found) :
    offset' = offset ∧ blob = some found ∨ r.cache.bind (· offset') = some found := by
  rw [insert] at h
  cases hcache : r.cache with
  | none =>
      rw [hcache] at h
      cases h
  | some cache =>
      rw [hcache] at h
      by_cases hoffset : offset' = offset
      · subst hoffset
        rw [Option.map_some, Option.bind_some, Function.update_self] at h
        exact Or.inl ⟨rfl, h⟩
      · rw [Option.map_some, Option.bind_some, Function.update_of_ne hoffset] at h
        exact Or.inr h

theorem Serves.insert (h : Serves uncompress items r) (offset : UInt64) (blob : Option Bytes)
    (hblob : ∀ record handle found, (record, handle) ∈ items → handle.offset = offset →
      blob = some found → found = record.encodeTo) :
    Serves uncompress items (r.insert offset blob) := by
  refine ⟨h.fits, h.apart, h.stored, ?_⟩
  intro record handle found hmem hfound
  rcases insert_lookup hfound with ⟨hoffset, hnew⟩ | hold
  · exact hblob record handle found hmem hoffset hnew
  · exact h.cached record handle found hmem hold

/-- Reading one of the records returns it, cached or not, and keeps the cache right. -/
theorem Serves.get (h : Serves uncompress items r) {record : BlobRecord} {handle : BlobHandle}
    (hmem : (record, handle) ∈ items) :
    (r.get uncompress handle).1 = .ok record ∧ Serves uncompress items (r.get uncompress handle).2 := by
  obtain ⟨hk, hv⟩ := h.fits record handle hmem
  unfold CachedReader.get
  cases hcache : r.cache.bind (· handle.offset) with
  | some blob =>
      have hblob := h.cached record handle blob hmem hcache
      have hdecode := BlobRecord.decodeFrom_encodeTo record [] hk hv
      rw [List.append_nil] at hdecode
      refine ⟨?_, h⟩
      simp only [hblob, decodeInto, hdecode]
      rfl
  | none =>
      simp only [h.stored record handle hmem]
      refine ⟨trivial, h.insert _ _ ?_⟩
      intro record' handle' found hmem' hoffset hfound
      rw [h.apart record' handle' record handle hmem' hmem hoffset]
      exact (Option.some.inj hfound).symm

/-- The events only read handles of these records. -/
def Reads (items : List (BlobRecord × BlobHandle)) : Event → Prop
  | .read handle => ∃ record, (record, handle) ∈ items
  | .evict _ => True

theorem Serves.step (h : Serves uncompress items r) {event : Event} (hevent : Reads items event) :
    Serves uncompress items (r.step uncompress event) := by
  cases event with
  | read handle =>
      obtain ⟨record, hmem⟩ := hevent
      exact (h.get hmem).2
  | evict offset => exact h.insert offset none fun record handle found hmem hoffset hnone => (by cases hnone)

theorem Serves.run (h : Serves uncompress items r) {events : List Event}
    (hevents : ∀ event ∈ events, Reads items event) :
    Serves uncompress items (r.run uncompress events) := by
  induction events generalizing r with
  | nil => exact h
  | cons event events ih =>
      exact ih (h.step (hevents event List.mem_cons_self)) fun e he =>
        hevents e (List.mem_cons_of_mem _ he)

/-! ## Stored records -/

variable {compress : Bytes → Bytes × UInt8}

/-- The buffer holds the record uncompressed. -/
theorem readBuffer_stored {record : BlobRecord} {handle : BlobHandle} {rest : Bytes}
    (hs : record.Storable compress (uncompress r.uncompressionDict))
    (hdrop : r.reader.file.drop handle.offset.toNat =
      BlobEncoder.encodeRecord compress record ++ rest)
    (hsize : handle.size.toNat = (BlobEncoder.encodeRecord compress record).length) :
    r.readBuffer uncompress handle = .ok (record, record.encodeTo) := by
  have hread : r.reader.readRecord (uncompress r.uncompressionDict) handle = .ok record :=
    readRecord_stored hs hdrop hsize
  have hblob : readFile r.reader.file handle.offset.toNat handle.size.toNat =
      BlobEncoder.header compress record.encodeTo ++ (compress record.encodeTo).1 := by
    rw [readFile, hdrop, hsize, List.take_left]
    rfl
  have hrecordSize : (BlobEncoder.decoder compress record.encodeTo).recordSize.toNat =
      (compress record.encodeTo).1.length := BlobEncoder.toNat_recordSize _ _ hs.payload
  have htype : (BlobEncoder.decoder compress record.encodeTo).compression =
      (compress record.encodeTo).2 := rfl
  rw [readBuffer, hread, hblob, BlobEncoder.decodeHeader_header]
  simp only [bind, Except.bind, pure, Except.pure, htype, hrecordSize, List.take_length]
  rcases hs.restores with ⟨hnone, heq⟩ | ⟨hsome, heq⟩
  · rw [if_pos hnone, heq]
  · rw [if_neg hsome, heq]

end CachedReader
end AegonKV
