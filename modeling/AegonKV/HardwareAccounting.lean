import AegonKV.BlobFileRoundTrip
import AegonKV.HardwareKeys
import AegonKV.LsmCallbacks
import Mathlib.Algebra.BigOperators.Group.Multiset.Basic

/-!
# The metadata of a hardware output

`DoRunGCOnHardware` makes the metadata of its output from the counters of the kernel and from one
pass over the keys of the list. A software job takes it from a `BlobFileBuilder`. The two agree on
the number of records and on the key range, and never on the live data: the kernel's second counter
is the size of the whole file.
-/

namespace AegonKV
open LittleEndian

namespace BlobFileBuilder

variable {o : BuilderOptions} {version : UInt32} {calls : List BuilderCall} {b : BlobFileBuilder}
  {dict : Bytes} {out : List BlobRecordContext}

/-! ## The live data of a builder -/

/-- The file and the live data have grown by the same bytes. -/
def Grows (b b' : BlobFileBuilder) : Prop :=
  ∃ n, b'.file.length = b.file.length + n ∧ b'.liveDataSize = b.liveDataSize + n

theorem Grows.refl (b : BlobFileBuilder) : Grows b b := ⟨0, rfl, rfl⟩

theorem Grows.trans {a b c : BlobFileBuilder} (h : Grows a b) (h' : Grows b c) : Grows a c := by
  rcases h with ⟨n, hfile, hlive⟩
  rcases h' with ⟨m, hfile', hlive'⟩
  exact ⟨n + m, by omega, by omega⟩

theorem grows_writeEncoderData (b : BlobFileBuilder) (encoded : Bytes) :
    Grows b (b.writeEncoderData encoded).1 := ⟨encoded.length, List.length_append, rfl⟩

theorem grows_flushSamples (b : BlobFileBuilder) (samples : List Bytes)
    (contexts : List BlobRecordContext) : Grows b (b.flushSamples samples contexts).1 := by
  induction samples generalizing b contexts with
  | nil => exact .refl b
  | cons sample samples ih =>
      rw [flushSamples]
      split
      · exact .refl b
      · exact (grows_writeEncoderData b _).trans (ih _ _)

theorem grows_enterUnbuffered (b : BlobFileBuilder) : Grows b b.enterUnbuffered.1 :=
  grows_flushSamples { b with
    compressionDict := some (b.options.trainDictionary b.sampleRecords.flatten
      (b.sampleRecords.map (·.length)) b.options.maxDictBytes)
    encoderDict := b.options.trainDictionary b.sampleRecords.flatten
      (b.sampleRecords.map (·.length)) b.options.maxDictBytes } b.sampleRecords b.cachedContexts

theorem grows_add (b : BlobFileBuilder) (record : BlobRecord) (ctx : BlobRecordContext) :
    Grows b (b.add record ctx).1 := by
  rw [BlobFileBuilder.add]
  split_ifs
  · exact .refl b
  · split
    · dsimp only
      split_ifs
      · exact grows_enterUnbuffered (b.sampled record ctx)
      · exact .refl b
    · exact grows_writeEncoderData b _

theorem grows_afterCalls (o : BuilderOptions) (version : UInt32) (calls : List BuilderCall) :
    Grows (new o version) (afterCalls o version calls).1 := by
  rw [afterCalls]
  induction calls using List.reverseRecOn with
  | nil => exact .refl _
  | append_singleton calls call ih =>
      rw [List.foldl_append]
      refine ih.trans ?_
      cases call with
      | add record ctx => exact grows_add _ record ctx
      | addSmall ctx => exact .refl _

theorem liveDataSize_of_written (hversion : o.Supports version)
    (h : Written o version dict calls b out) (hgrows : Grows (new o version) b) :
    b.liveDataSize =
      BlobFileIterator.storedLength (o.codec.compress dict) (BuilderCall.records calls) := by
  rcases hgrows with ⟨n, hfile, hlive⟩
  have hstart : (new o version).file.length = (header o version).encodeTo.length := by
    rcases held_new hversion with hnew | ⟨dict', hnew⟩
    · rw [hnew.file]
    · rw [hnew.file]
      exact congrArg List.length (List.append_nil _)
  have hzero : (new o version).liveDataSize = 0 := by
    rw [new]
    split_ifs <;> rfl
  rw [h.file, recordArea, List.length_append, hstart] at hfile
  rw [hlive, hzero, BlobFileIterator.storedLength]
  omega

/-- What a finished builder reports are the bytes of its records. -/
theorem liveDataSize_buildFile (hversion : o.Supports version) (hcalls : ∀ call ∈ calls, call.Tagged)
    (hsmall : SmallWhileBuffered o version calls) :
    (buildFile o version calls).1.liveDataSize = BlobFileIterator.storedLength
      (o.codec.compress (buildFile o version calls).1.encoderDict) (BuilderCall.records calls) := by
  have hheld := held_afterCalls hversion hcalls hsmall
  have hgrows := grows_afterCalls o version calls
  rw [buildFile]
  change _ = BlobFileIterator.storedLength (o.codec.compress
    ((afterCalls o version calls).1.finish.1.encoderDict)) (BuilderCall.records calls)
  change (afterCalls o version calls).1.finish.1.liveDataSize = _
  generalize afterCalls o version calls = s at hheld hgrows
  rcases hheld with hwait | ⟨dict, hwritten⟩
  · obtain ⟨dict, hwritten⟩ := hwait.enterUnbuffered hversion hcalls
    simp only [hwait.finish hwritten, hwritten.encoderDict]
    exact liveDataSize_of_written hversion hwritten (hgrows.trans (grows_enterUnbuffered s.1))
  · simp only [hwritten.finish, hwritten.encoderDict]
    exact liveDataSize_of_written hversion hwritten hgrows

end BlobFileBuilder

namespace Kernel
open ByteMemory BlobFileBuilder

/-! ## The end of `DoRunGCOnHardware` -/

structure KeyRange where
  smallestKey : Bytes := []
  largestKey : Bytes := []

def KeyRange.extend (comparator : Bytes → Bytes → Ordering) (r : KeyRange) (key : Bytes) : KeyRange :=
  let r := if r.smallestKey.isEmpty then ⟨key, key⟩ else r
  let r := if comparator key r.smallestKey == .lt then { r with smallestKey := key } else r
  if comparator key r.largestKey == .gt then { r with largestKey := key } else r

def keyRange (comparator : Bytes → Bytes → Ordering) (keys : List Bytes) : KeyRange :=
  keys.foldl (KeyRange.extend comparator) {}

def toKey (key : Bytes) : Option Key := if h : key.length < 2 ^ 32 then some ⟨key, h⟩ else none

/-- What a hardware job leaves: the keys of `rewrite_batches_` with their new indices, and
`hardware_blob_file_`. -/
structure HardwareJob where
  rewrites : List (Bytes × BlobIndex)
  hardwareBlobFile : BlobFileMeta

/-- `DoRunGCOnHardware` from the return of `run_gc_kernel` on. -/
def finishHardware (comparator : Bytes → Bytes → Ordering) (outputNumber : UInt64)
    (inputs : List UInt64) (result : Result) : Option HardwareJob := do
  let keys ← getOutputKeys result.outputKey (result.outputMeta.getD 0 0) 0
  let range := keyRange comparator (keys.map (·.1))
  let smallestKey ← toKey range.smallestKey
  let largestKey ← toKey range.largestKey
  return {
    rewrites := keys.mapIdx fun i entry => (entry.1, newBlobIndex outputNumber inputs i entry)
    hardwareBlobFile := {
      fileSize := UInt64.ofNat (result.outputMeta.getD 1 0)
      fileEntries := UInt64.ofNat (result.outputMeta.getD 0 0)
      fileLevel := 0
      smallestKey := smallestKey
      largestKey := largestKey
      liveDataSize := UInt64.ofNat (result.outputMeta.getD 1 0)
      state := FileState.kInit.after .kGCOutput } }

/-- A job on input files with the given numbers; `none` where the process exits. -/
def doRunGCOnHardware (comparator : Bytes → Bytes → Ordering) (outputNumber : UInt64)
    (inputs : List UInt64) (files : List BatchFile) (device outputData : Mem) : Option HardwareJob := do
  let result ← runGcKernel files device outputData
  finishHardware comparator outputNumber inputs result

/-! ## The accounts -/

def keptRecords (files : List BatchFile) : List BlobRecord := (copiedInBatch 0 files).map (·.record)

def addCalls (records : List BlobRecord) : List BuilderCall :=
  records.map fun r => .add r { key := r.key }

/-- The metadata of a job has the live data, the entries and the key range of its rewrites, as a
builder that is given the same records. -/
structure MatchesSoftware (options : BuilderOptions) (files : List BatchFile) (job : HardwareJob) :
    Prop where
  liveDataSize : job.hardwareBlobFile.liveDataSize.toNat =
    (job.rewrites.map fun rewrite => rewrite.2.blobHandle.size.toNat).sum
  builder : job.hardwareBlobFile.liveDataSize.toNat =
    (buildFile options BlobFileHeader.kVersion2 (addCalls (keptRecords files))).1.liveDataSize
  fileEntries : job.hardwareBlobFile.fileEntries.toNat = job.rewrites.length
  smallestKey : job.rewrites ≠ [] → Least options.comparator (job.rewrites.map (·.1))
    job.hardwareBlobFile.smallestKey.val
  largestKey : job.rewrites ≠ [] → Least (fun key key' => options.comparator key' key)
    (job.rewrites.map (·.1)) job.hardwareBlobFile.largestKey.val

/-! ## The key range -/

variable {o : BuilderOptions} {keys : List Bytes}

/-- A builder that is given the keys, as far as its range goes. -/
def rangeBuilder (o : BuilderOptions) (keys : List Bytes) : BlobFileBuilder :=
  keys.foldl BlobFileBuilder.extendRange (.new o BlobFileHeader.kVersion2)

theorem options_rangeBuilder (o : BuilderOptions) (keys : List Bytes) :
    (rangeBuilder o keys).options = o := by
  induction keys using List.reverseRecOn with
  | nil =>
      rw [rangeBuilder, List.foldl_nil, BlobFileBuilder.new]
      split_ifs <;> rfl
  | append_singleton keys key ih =>
      rw [rangeBuilder, List.foldl_append]
      exact ih

theorem spans_rangeBuilder [Std.TransCmp o.comparator] (hkeys : [] ∉ keys) :
    Spans o.comparator keys (rangeBuilder o keys) := by
  induction keys using List.reverseRecOn with
  | nil =>
      rw [rangeBuilder, List.foldl_nil]
      exact spans_new
  | append_singleton keys key ih =>
      have hbefore : [] ∉ keys := fun h => hkeys (List.mem_append_left _ h)
      rw [rangeBuilder, List.foldl_append]
      exact (ih hbefore).extendRange (options_rangeBuilder o keys) hbefore key

/-- One round does to the range what the builder does, while both keys are set or neither is. -/
theorem extend_eq_extendRange {b : BlobFileBuilder} (hself : ∀ key, b.options.comparator key key = .eq)
    (hempty : b.smallestKey.isEmpty = b.largestKey.isEmpty) (key : Bytes) :
    KeyRange.extend b.options.comparator ⟨b.smallestKey, b.largestKey⟩ key =
      ⟨(b.extendRange key).smallestKey, (b.extendRange key).largestKey⟩ := by
  rw [KeyRange.extend, BlobFileBuilder.extendRange]
  cases hnone : b.smallestKey.isEmpty with
  | true => simp [← hempty, hnone, hself]
  | false =>
      simp only [← hempty, hnone, Bool.false_or, Bool.false_eq_true, if_false]
      split_ifs
      · rfl
      · rfl
      · rfl
      · rfl

/-- Keys that are not empty have the range that a builder would report. -/
theorem keyRange_eq [Std.TransCmp o.comparator] (hkeys : [] ∉ keys) :
    keyRange o.comparator keys =
      ⟨(rangeBuilder o keys).smallestKey, (rangeBuilder o keys).largestKey⟩ := by
  induction keys using List.reverseRecOn with
  | nil =>
      obtain ⟨hsmallest, hlargest⟩ := (spans_rangeBuilder (o := o) hkeys).empty rfl
      rw [hsmallest, hlargest]
      rfl
  | append_singleton keys key ih =>
      have hbefore : [] ∉ keys := fun h => hkeys (List.mem_append_left _ h)
      have hself : ∀ k, (rangeBuilder o keys).options.comparator k k = .eq := by
        rw [options_rangeBuilder]
        exact fun k => Std.ReflCmp.compare_self
      have hspans := spans_rangeBuilder (o := o) hbefore
      have hempty : (rangeBuilder o keys).smallestKey.isEmpty =
          (rangeBuilder o keys).largestKey.isEmpty := by
        by_cases hnone : keys = []
        · rw [(hspans.empty hnone).1, (hspans.empty hnone).2]
        · have hset : ∀ {key : Bytes}, key ∈ keys → key.isEmpty = false := by
            intro key hmem
            rw [List.isEmpty_eq_false_iff]
            rintro rfl
            exact hbefore hmem
          rw [hset (hspans.smallest hnone).1, hset (hspans.largest hnone).1]
      have hstep := extend_eq_extendRange hself hempty key
      rw [options_rangeBuilder] at hstep
      rw [keyRange, List.foldl_append, rangeBuilder, List.foldl_append]
      have hih := ih hbefore
      rw [keyRange] at hih
      rw [hih]
      exact hstep

/-! ## What a job leaves -/

/-- The keys of the rewrites, with 32 bits of the sizes. -/
theorem rewrites_storedKeys (outputNumber : UInt64) (inputs : List UInt64) (newOffset : ℕ)
    (cs : List Copied) :
    (((storedKeys newOffset cs).mapIdx fun i entry =>
        (entry.1, newBlobIndex outputNumber inputs i entry)).map (·.1) =
      cs.map fun c => c.record.key) ∧
    (((storedKeys newOffset cs).mapIdx fun i entry =>
        (entry.1, newBlobIndex outputNumber inputs i entry)).map fun rewrite =>
          rewrite.2.blobHandle.size.toNat) = cs.map fun c => c.size % 2 ^ 32 := by
  constructor
  · apply List.ext_getElem?
    intro t
    simp only [List.getElem?_map, List.getElem?_mapIdx, getElem?_storedKeys, Option.map_map]
    rfl
  · apply List.ext_getElem?
    intro t
    simp only [List.getElem?_map, List.getElem?_mapIdx, getElem?_storedKeys, Option.map_map]
    refine congrArg (Option.map · cs[t]?) (funext fun c => ?_)
    exact toNat_ofNat_mod c.size

theorem val_of_toKey {key : Bytes} {k : Key} (h : toKey key = some k) : k.val = key := by
  rw [toKey] at h
  split_ifs at h
  rw [← Option.some.inj h]

theorem finishHardware_some {comparator : Bytes → Bytes → Ordering} {outputNumber : UInt64}
    {inputs : List UInt64} {result : Result} {keys : List (Bytes × List ℕ)} {job : HardwareJob}
    (hkeys : getOutputKeys result.outputKey (result.outputMeta.getD 0 0) 0 = some keys)
    (h : finishHardware comparator outputNumber inputs result = some job) :
    job.rewrites = (keys.mapIdx fun i entry => (entry.1, newBlobIndex outputNumber inputs i entry)) ∧
      job.hardwareBlobFile.fileEntries = UInt64.ofNat (result.outputMeta.getD 0 0) ∧
      job.hardwareBlobFile.liveDataSize = UInt64.ofNat (result.outputMeta.getD 1 0) ∧
      ⟨job.hardwareBlobFile.smallestKey.val, job.hardwareBlobFile.largestKey.val⟩ =
        keyRange comparator (keys.map (·.1)) := by
  rw [finishHardware, hkeys, Option.bind_eq_bind, Option.bind_some] at h
  obtain ⟨smallestKey, hsmallest, h⟩ := Option.bind_eq_some_iff.mp h
  obtain ⟨largestKey, hlargest, h⟩ := Option.bind_eq_some_iff.mp h
  rw [← Option.some.inj h]
  refine ⟨rfl, rfl, rfl, ?_⟩
  dsimp only
  rw [val_of_toKey hsmallest, val_of_toKey hlargest]

/-- Everything that a job leaves, given by what the batch keeps. -/
theorem doRunGCOnHardware_cases {comparator : Bytes → Bytes → Ordering} {outputNumber : UInt64}
    {inputs : List UInt64} {files : List BatchFile} {device outputData : Mem} {job : HardwareJob}
    (h : doRunGCOnHardware comparator outputNumber inputs files device outputData = some job) :
    (job.rewrites.map (·.1) = (copiedInBatch 0 files).map fun c => c.record.key) ∧
      (job.rewrites.map fun rewrite => rewrite.2.blobHandle.size.toNat) =
        (copiedInBatch 0 files).map (fun c => c.size % 2 ^ 32) ∧
      job.hardwareBlobFile.fileEntries = UInt64.ofNat (copiedInBatch 0 files).length ∧
      job.hardwareBlobFile.liveDataSize =
        UInt64.ofNat (12 + liveBytes files + alignPadding (12 + liveBytes files) + 32) ∧
      ⟨job.hardwareBlobFile.smallestKey.val, job.hardwareBlobFile.largestKey.val⟩ =
        keyRange comparator ((copiedInBatch 0 files).map fun c => c.record.key) := by
  rw [doRunGCOnHardware] at h
  obtain ⟨result, hrun, hfinish⟩ := Option.bind_eq_some_iff.mp h
  have hbands : ∀ file ∈ files, ¬RoundTooMany file.image.bytes.length := by
    rw [runGcKernel] at hrun
    obtain ⟨inputDatas, hread, -⟩ := Option.bind_eq_some_iff.mp hrun
    have hpos : ∀ bytes ∈ files.map fun file => file.image.bytes, 1 ≤ bytes.length := by
      intro bytes hbytes
      obtain ⟨file, -, rfl⟩ := List.mem_map.mp hbytes
      rw [length_bytes, kBlobFooterSize_eq]
      omega
    exact fun file hfile => not_roundTooMany_of_readInputs hpos hread _ (List.mem_map_of_mem hfile)
  obtain ⟨inputDatas, inputBitmaps, dataLengths, bitmapLengths, entries, hplaced, hkernel⟩ :=
    runGcKernel_placed hbands device outputData
  obtain rfl := Option.some.inj (hkernel.symm.trans hrun)
  obtain ⟨hcount, hkeys⟩ := getOutputKeys_result hplaced outputData fun _ => 0
  have hsize := outputMeta_data hplaced outputData fun _ => 0
  obtain ⟨hrewrites, hentries, hlive, hrange⟩ := finishHardware_some hkeys hfinish
  obtain ⟨hnames, hsizes⟩ := rewrites_storedKeys outputNumber inputs headerBytes.length
    (copiedInBatch 0 files)
  refine ⟨hrewrites ▸ hnames, hrewrites ▸ hsizes, by rw [hentries, hcount], by rw [hlive, hsize], ?_⟩
  have hkeysOf : (storedKeys headerBytes.length (copiedInBatch 0 files)).map (·.1) =
      (copiedInBatch 0 files).map fun c => c.record.key := by
    apply List.ext_getElem?
    intro t
    simp only [List.getElem?_map, getElem?_storedKeys, Option.map_map]
    rfl
  rw [hrange, hkeysOf]

/-- The size of the file is never the size of its records. -/
theorem doRunGCOnHardware_not_matchesSoftware {options : BuilderOptions} {outputNumber : UInt64}
    {inputs : List UInt64} {files : List BatchFile} {device outputData : Mem} {job : HardwareJob}
    (h : doRunGCOnHardware options.comparator outputNumber inputs files device outputData = some job) :
    ¬MatchesSoftware options files job := by
  obtain ⟨-, hsizes, -, hlive, -⟩ := doRunGCOnHardware_cases h
  intro hmatches
  have hequal := hmatches.liveDataSize
  have hmod : ((copiedInBatch 0 files).map Copied.size).sum % 2 ^ 32 =
      (((copiedInBatch 0 files).map Copied.size).map (· % 2 ^ 32)).sum % 2 ^ 32 := by
    have hmultiset := Multiset.sum_nat_mod ((copiedInBatch 0 files).map Copied.size) (2 ^ 32)
    rwa [Multiset.map_coe, Multiset.sum_coe, Multiset.sum_coe] at hmultiset
  have hbytes : liveBytes files = ((copiedInBatch 0 files).map Copied.size).sum :=
    List.length_flatMap
  have hpad := (alignPadding_spec (12 + liveBytes files)).1
  rw [hsizes, hlive, UInt64.toNat_ofNat'] at hequal
  rw [← hbytes, List.map_map] at hmod
  -- the file is longer by the header, the padding and the footer, which are less than 2 ^ 32 bytes
  have hsum : ((copiedInBatch 0 files).map ((· % 2 ^ 32) ∘ Copied.size)).sum =
      ((copiedInBatch 0 files).map fun c => c.size % 2 ^ 32).sum := rfl
  omega

/-! ## What a job keeps right -/

theorem records_addCalls (records : List BlobRecord) :
    BuilderCall.records (addCalls records) = records := by
  induction records with
  | nil => rfl
  | cons r records ih =>
      rw [addCalls, List.map_cons, BuilderCall.records_add]
      exact congrArg (r :: ·) ih

theorem buildFile_keptRecords {options : BuilderOptions} (files : List BatchFile)
    (hplain : ∀ dict, options.codec.compress dict = noCompression) :
    (buildFile options BlobFileHeader.kVersion2 (addCalls (keptRecords files))).1.liveDataSize =
      liveBytes files := by
  have htagged : ∀ call ∈ addCalls (keptRecords files), call.Tagged := by
    intro call hmem
    obtain ⟨r, -, rfl⟩ := List.mem_map.mp hmem
    rfl
  have hsmall : SmallWhileBuffered options BlobFileHeader.kVersion2
      (addCalls (keptRecords files)) := by
    intro pre ctx post hsplit
    have hmem : BuilderCall.addSmall ctx ∈ addCalls (keptRecords files) := by
      rw [hsplit]
      exact List.mem_append_right _ List.mem_cons_self
    obtain ⟨r, -, hr⟩ := List.mem_map.mp hmem
    cases hr
  rw [liveDataSize_buildFile (Or.inl rfl) htagged hsmall, hplain, records_addCalls, liveBytes,
    flatMap_bytes]
  rfl

/-- The live data is what a builder without compression reports for the records, and the header, the
padding and the footer. -/
theorem liveDataSize_doRunGCOnHardware {options : BuilderOptions} {outputNumber : UInt64}
    {inputs : List UInt64} {files : List BatchFile} {device outputData : Mem} {job : HardwareJob}
    (h : doRunGCOnHardware options.comparator outputNumber inputs files device outputData = some job)
    (hplain : ∀ dict, options.codec.compress dict = noCompression)
    (hfits : 12 + liveBytes files + alignPadding (12 + liveBytes files) + 32 < 2 ^ 64) :
    job.hardwareBlobFile.liveDataSize.toNat =
      (buildFile options BlobFileHeader.kVersion2 (addCalls (keptRecords files))).1.liveDataSize +
        (44 + alignPadding (12 + liveBytes files)) := by
  obtain ⟨-, -, -, hlive, -⟩ := doRunGCOnHardware_cases h
  rw [buildFile_keptRecords files hplain, hlive, UInt64.toNat_ofNat_of_lt' hfits]
  omega

theorem fileEntries_doRunGCOnHardware {comparator : Bytes → Bytes → Ordering} {outputNumber : UInt64}
    {inputs : List UInt64} {files : List BatchFile} {device outputData : Mem} {job : HardwareJob}
    (h : doRunGCOnHardware comparator outputNumber inputs files device outputData = some job)
    (hfits : job.rewrites.length < 2 ^ 64) :
    job.hardwareBlobFile.fileEntries.toNat = job.rewrites.length := by
  obtain ⟨hkeys, -, hentries, -⟩ := doRunGCOnHardware_cases h
  have hlen := congrArg List.length hkeys
  rw [List.length_map, List.length_map] at hlen
  rw [hentries, ← hlen]
  exact UInt64.toNat_ofNat_of_lt' hfits

/-- The range of a job without an empty key. -/
theorem range_doRunGCOnHardware {options : BuilderOptions} [Std.TransCmp options.comparator]
    {outputNumber : UInt64} {inputs : List UInt64} {files : List BatchFile} {device outputData : Mem}
    {job : HardwareJob}
    (h : doRunGCOnHardware options.comparator outputNumber inputs files device outputData = some job)
    (hkeys : [] ∉ job.rewrites.map (·.1)) (hsome : job.rewrites ≠ []) :
    Least options.comparator (job.rewrites.map (·.1)) job.hardwareBlobFile.smallestKey.val ∧
      Least (fun key key' => options.comparator key' key) (job.rewrites.map (·.1))
        job.hardwareBlobFile.largestKey.val := by
  obtain ⟨hnames, -, -, -, hrange⟩ := doRunGCOnHardware_cases h
  rw [← hnames, keyRange_eq hkeys] at hrange
  have hspans := spans_rangeBuilder (o := options) hkeys
  have hne : job.rewrites.map (·.1) ≠ [] := by simpa using hsome
  have hsmallest : job.hardwareBlobFile.smallestKey.val =
      (rangeBuilder options (job.rewrites.map (·.1))).smallestKey := congrArg KeyRange.smallestKey hrange
  have hlargest : job.hardwareBlobFile.largestKey.val =
      (rangeBuilder options (job.rewrites.map (·.1))).largestKey := congrArg KeyRange.largestKey hrange
  rw [hsmallest, hlargest]
  exact ⟨hspans.smallest hne, hspans.largest hne⟩

/-! ## Every batch that loads has a job -/

theorem KeyRange.extend_cases (comparator : Bytes → Bytes → Ordering) (r : KeyRange) (key : Bytes) :
    ((r.extend comparator key).smallestKey = r.smallestKey ∨
      (r.extend comparator key).smallestKey = key) ∧
    ((r.extend comparator key).largestKey = r.largestKey ∨
      (r.extend comparator key).largestKey = key) := by
  rw [KeyRange.extend]
  split_ifs <;> simp

/-- The ends of the range are keys, or empty as at the start. -/
theorem keyRange_cases (comparator : Bytes → Bytes → Ordering) (keys : List Bytes) :
    ((keyRange comparator keys).smallestKey = [] ∨ (keyRange comparator keys).smallestKey ∈ keys) ∧
      ((keyRange comparator keys).largestKey = [] ∨ (keyRange comparator keys).largestKey ∈ keys) := by
  induction keys using List.reverseRecOn with
  | nil => exact ⟨Or.inl rfl, Or.inl rfl⟩
  | append_singleton keys key ih =>
      have hlast : keyRange comparator (keys ++ [key]) =
          (keyRange comparator keys).extend comparator key := by
        rw [keyRange, List.foldl_append]
        rfl
      have hmem : ∀ {k k' : Bytes}, (k = [] ∨ k ∈ keys) → (k' = k ∨ k' = key) →
          k' = [] ∨ k' ∈ keys ++ [key] := by
        rintro k k' hk (rfl | rfl)
        · exact hk.imp_right (List.mem_append_left _)
        · exact Or.inr (List.mem_append_right _ (List.mem_singleton.mpr rfl))
      obtain ⟨hsmallest, hlargest⟩ := (keyRange comparator keys).extend_cases comparator key
      rw [hlast]
      exact ⟨hmem ih.1 hsmallest, hmem ih.2 hlargest⟩

theorem exists_toKey {key : Bytes} {keys : List Bytes} (h : key = [] ∨ key ∈ keys)
    (hshort : ∀ k ∈ keys, k.length < 2 ^ 32) : ∃ k, toKey key = some k := by
  have hlen : key.length < 2 ^ 32 := by
    rcases h with rfl | h
    · exact Nat.two_pow_pos 32
    · exact hshort key h
  exact ⟨⟨key, hlen⟩, dif_pos hlen⟩

/-- A batch without a file in a band of the read loop is collected. -/
theorem exists_doRunGCOnHardware (comparator : Bytes → Bytes → Ordering) (outputNumber : UInt64)
    (inputs : List UInt64) {files : List BatchFile}
    (hbands : ∀ file ∈ files, ¬RoundTooMany file.image.bytes.length) (device outputData : Mem) :
    ∃ job, doRunGCOnHardware comparator outputNumber inputs files device outputData = some job := by
  obtain ⟨inputDatas, inputBitmaps, dataLengths, bitmapLengths, entries, hplaced, hkernel⟩ :=
    runGcKernel_placed hbands device outputData
  obtain ⟨-, hkeys⟩ := getOutputKeys_result hplaced outputData fun _ => 0
  have hshort : ∀ key ∈ (storedKeys headerBytes.length (copiedInBatch 0 files)).map (·.1),
      key.length < 2 ^ 32 := by
    intro key hmem
    obtain ⟨t, ht⟩ := List.mem_iff_getElem?.mp hmem
    rw [List.getElem?_map, getElem?_storedKeys, Option.map_map] at ht
    obtain ⟨c, hc, rfl⟩ := Option.map_eq_some_iff.mp ht
    exact (encodable_of_mem (List.mem_of_getElem? hc)).key_lt
  obtain ⟨hsmallest, hlargest⟩ := keyRange_cases comparator
    ((storedKeys headerBytes.length (copiedInBatch 0 files)).map (·.1))
  obtain ⟨smallestKey, hsmallestKey⟩ := exists_toKey hsmallest hshort
  obtain ⟨largestKey, hlargestKey⟩ := exists_toKey hlargest hshort
  rw [doRunGCOnHardware, hkernel, Option.bind_eq_bind, Option.bind_some, finishHardware, hkeys,
    Option.bind_eq_bind, Option.bind_some]
  dsimp only
  rw [hsmallestKey, Option.bind_eq_bind, Option.bind_some, hlargestKey]
  exact ⟨_, rfl⟩

theorem halfInvalidFile_loads :
    ∀ file ∈ [halfInvalidFile.toBatchFile], ¬RoundTooMany file.image.bytes.length := by
  intro file hfile
  rw [List.mem_singleton.mp hfile, roundTooMany_iff (by decide)]
  decide

/-- A file with one record left: 4096 bytes of live data, 13 of them of its record. -/
theorem halfInvalidFile_liveDataSize :
    ∃ job, doRunGCOnHardware smallTrainOptions.comparator 9 [7] [halfInvalidFile.toBatchFile]
      (fun _ => 0) (fun _ => 0) = some job ∧
      job.hardwareBlobFile.liveDataSize = 4096 ∧
      job.rewrites.map (fun rewrite => rewrite.2.blobHandle.size.toNat) = [13] ∧
      ¬MatchesSoftware smallTrainOptions [halfInvalidFile.toBatchFile] job := by
  obtain ⟨job, hrun⟩ := exists_doRunGCOnHardware smallTrainOptions.comparator 9 [7]
    halfInvalidFile_loads (fun _ => 0) fun _ => 0
  obtain ⟨-, hsizes, -, hlive, -⟩ := doRunGCOnHardware_cases hrun
  rw [copied_halfInvalidFile] at hsizes
  have hlive4096 : job.hardwareBlobFile.liveDataSize = 4096 := by
    rw [hlive]
    decide
  refine ⟨job, hrun, hlive4096, hsizes, fun hmatches => ?_⟩
  have hequal := hmatches.liveDataSize
  rw [hlive4096, hsizes] at hequal
  exact absurd hequal (by decide)

theorem halfInvalidFile_not_matchesSoftware :
    ∃ job, doRunGCOnHardware smallTrainOptions.comparator 9 [7] [halfInvalidFile.toBatchFile]
      (fun _ => 0) (fun _ => 0) = some job ∧
      ¬MatchesSoftware smallTrainOptions [halfInvalidFile.toBatchFile] job := by
  obtain ⟨job, hrun⟩ := exists_doRunGCOnHardware smallTrainOptions.comparator 9 [7]
    halfInvalidFile_loads (fun _ => 0) fun _ => 0
  exact ⟨job, hrun, doRunGCOnHardware_not_matchesSoftware hrun⟩

end Kernel
end AegonKV
