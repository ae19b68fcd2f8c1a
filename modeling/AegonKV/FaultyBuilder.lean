import AegonKV.BlobFileRoundTrip

/-!
# A builder whose writes fail

`BlobFileBuilder` on a file whose appends may fail. Every append assigns the one status of the
builder, so a failure is seen only if nothing is appended after it. That is so for the header and
for a record that is written at once; the samples that waited are written one after the other without
a look at the status, and so are the blocks of the dictionary and the footer.
-/

namespace AegonKV
open LittleEndian

/-- Where in the builder a call on its file comes from. The last sample is told apart from those that
are followed by another one. -/
inductive WriteSite
  | header | record | sample | lastSample | block | footer | flush
  deriving DecidableEq, Repr

/-- The calls that fail, by their site and their number, with the bytes that a failed append leaves
in the file. -/
abbrev WriteFaults := WriteSite → ℕ → Option Bytes

def writeError : Status := { code := .ioError }

structure FaultyBuilder where
  builder : BlobFileBuilder
  /-- `GetFileSize`, which does not count what a failed append leaves behind. -/
  fileSize : ℕ
  /-- The calls on the file so far. -/
  calls : ℕ

namespace FaultyBuilder

variable (faults : WriteFaults)

/-- `file_->Append`, with the assignment of its result to `status_`. -/
def append (site : WriteSite) (f : FaultyBuilder) (data : Bytes) : FaultyBuilder :=
  match faults site f.calls with
  | none =>
    { builder := { f.builder with file := f.builder.file ++ data, status := .ok }
      fileSize := f.fileSize + data.length
      calls := f.calls + 1 }
  | some torn =>
    { builder := { f.builder with file := f.builder.file ++ torn, status := writeError }
      fileSize := f.fileSize
      calls := f.calls + 1 }

def new (o : BuilderOptions) (version : UInt32) : FaultyBuilder :=
  let f : FaultyBuilder := ⟨{ BlobFileBuilder.new o version with file := [] }, 0, 0⟩
  if f.builder.status.isOk then f.append faults .header (BlobFileBuilder.header o version).encodeTo
  else f

def writeEncoderData (site : WriteSite) (f : FaultyBuilder) (encoded : Bytes) :
    FaultyBuilder × BlobHandle :=
  let handle : BlobHandle := ⟨UInt64.ofNat f.fileSize, UInt64.ofNat encoded.length,
    UInt64.ofNat f.builder.numEntries⟩
  let f := { f with builder := { f.builder with
    liveDataSize := f.builder.liveDataSize + encoded.length } }
  let f := f.append faults site (encoded.take kRecordHeaderSize)
  if f.builder.status.isOk then
    let f := f.append faults site (encoded.drop kRecordHeaderSize)
    ({ f with builder := { f.builder with numEntries := f.builder.numEntries + 1 } }, handle)
  else (f, handle)

/-- The loops of `FlushSampleRecords`. A context is handed out whether or not its record was
written. -/
def flushSamples (f : FaultyBuilder) :
    List Bytes → List BlobRecordContext → FaultyBuilder × List BlobRecordContext
  | [], contexts => (f, contexts)
  | sample :: samples, contexts =>
    let inline := contexts.takeWhile (·.hasValue)
    match contexts.dropWhile (·.hasValue) with
    | [] => (f, inline)
    | ctx :: contexts =>
      let site := if samples.isEmpty then WriteSite.lastSample else .sample
      let (f, handle) :=
        f.writeEncoderData faults site (BlobEncoder.encodeSlice f.builder.compress sample)
      let (f, out) := flushSamples f samples contexts
      (f, inline ++ ctx.setHandle handle :: out)

def enterUnbuffered (f : FaultyBuilder) : FaultyBuilder × List BlobRecordContext :=
  let b := f.builder
  let dict := b.options.trainDictionary b.sampleRecords.flatten (b.sampleRecords.map (·.length))
    b.options.maxDictBytes
  let (f, out) := flushSamples faults
    { f with builder := { b with compressionDict := some dict, encoderDict := dict } }
    b.sampleRecords b.cachedContexts
  ({ f with builder := { f.builder with
      sampleRecords := []
      sampleStrLen := 0
      cachedContexts := []
      builderState := .kUnbuffered } }, out)

def add (f : FaultyBuilder) (record : BlobRecord) (ctx : BlobRecordContext) :
    FaultyBuilder × List BlobRecordContext :=
  if !f.builder.status.isOk then (f, [])
  else
    match f.builder.builderState with
    | .kBuffered =>
      let recordStr := record.encodeTo
      let b := { f.builder with
        sampleRecords := f.builder.sampleRecords ++ [recordStr]
        sampleStrLen := f.builder.sampleStrLen + recordStr.length
        cachedContexts := f.builder.cachedContexts ++ [ctx] }
      let f := { f with builder := b }
      let (f, out) :=
        if b.options.zstdMaxTrainBytes > 0 ∧ b.sampleStrLen ≥ b.options.zstdMaxTrainBytes then
          f.enterUnbuffered faults
        else (f, [])
      ({ f with builder := f.builder.extendRange record.key }, out)
    | .kUnbuffered =>
      let (f, handle) :=
        f.writeEncoderData faults .record (BlobEncoder.encodeRecord f.builder.compress record)
      ({ f with builder := f.builder.extendRange record.key }, [ctx.setHandle handle])

def writeRawBlock (f : FaultyBuilder) (block : Bytes) : FaultyBuilder × BlockHandle :=
  let handle : BlockHandle := ⟨UInt64.ofNat f.fileSize, UInt64.ofNat block.length⟩
  let f := f.append faults .block block
  if f.builder.status.isOk then
    (f.append faults .block ((rawBlock block).drop block.length), handle)
  else (f, handle)

/-- `MetaIndexBuilder::Finish` without an entry. -/
def emptyMetaIndexBlock : Bytes := putFixed32 0 ++ putFixed32 1

/-- The blocks that `Finish` writes for a dictionary. The index names the dictionary only if its
block was written. -/
def writeMetaBlocks (f : FaultyBuilder) : FaultyBuilder × BlockHandle :=
  let (f, dictHandle) := f.writeRawBlock faults (f.builder.compressionDict.getD [])
  f.writeRawBlock faults
    (if f.builder.status.isOk then metaIndexBlock kCompressionDictBlockName dictHandle
      else emptyMetaIndexBlock)

/-- `file_->Flush`, with the assignment of its result to `status_`. -/
def flush (f : FaultyBuilder) : FaultyBuilder :=
  { f with
    builder := { f.builder with
      status := if (faults .flush f.calls).isSome then writeError else .ok }
    calls := f.calls + 1 }

def writeFooter (f : FaultyBuilder) (footer : BlobFileFooter) : FaultyBuilder :=
  let f := f.append faults .footer footer.encodeTo
  if f.builder.status.isOk then f.flush faults else f

def finish (f : FaultyBuilder) : FaultyBuilder × List BlobRecordContext × Status :=
  if !f.builder.status.isOk then (f, [], f.builder.status)
  else
    let (f, out) :=
      if f.builder.builderState = .kBuffered then f.enterUnbuffered faults else (f, [])
    let (f, handle) : FaultyBuilder × BlockHandle :=
      if f.builder.options.maxDictBytes > 0 then f.writeMetaBlocks faults else (f, {})
    let f := f.writeFooter faults ⟨handle⟩
    (f, out, f.builder.status)

/-! ## Without a failure -/

structure Tracks (f : FaultyBuilder) (b : BlobFileBuilder) : Prop where
  builder : f.builder = b
  fileSize : f.fileSize = b.file.length
  status : b.status = .ok

/-- A write has failed and the status says so. -/
def Failed (f : FaultyBuilder) : Prop := f.builder.status.isOk = false

variable {faults} {f : FaultyBuilder} {b : BlobFileBuilder}

theorem Tracks.ok (h : Tracks f b) : f.builder.status.isOk = true := by
  rw [h.builder, h.status]
  rfl

/-- A call that comes back fine keeps the builder on track. -/
theorem Tracks.append (h : Tracks f b) (faults : WriteFaults) (site : WriteSite) (data : Bytes) :
    Tracks (f.append faults site data) { b with file := b.file ++ data } ∨
      (faults site f.calls).isSome ∧ (f.append faults site data).Failed := by
  obtain ⟨rfl, hsize, hok⟩ := h
  unfold FaultyBuilder.append
  cases hfault : faults site f.calls with
  | none =>
      refine Or.inl ⟨?_, ?_, hok⟩
      · rw [← hok]
      · rw [hsize, List.length_append]
  | some torn => exact Or.inr ⟨rfl, rfl⟩

theorem Tracks.writeEncoderData (h : Tracks f b) (faults : WriteFaults) (site : WriteSite)
    (encoded : Bytes) :
    (Tracks (f.writeEncoderData faults site encoded).1 (b.writeEncoderData encoded).1 ∧
      (f.writeEncoderData faults site encoded).2 = (b.writeEncoderData encoded).2) ∨
    (∃ n, (faults site n).isSome) ∧ (f.writeEncoderData faults site encoded).1.Failed := by
  have hlive : Tracks
      { f with builder := { f.builder with liveDataSize := f.builder.liveDataSize + encoded.length } }
      { b with liveDataSize := b.liveDataSize + encoded.length } := by
    refine ⟨?_, h.fileSize, h.status⟩
    rw [h.builder]
  have hhandle : (⟨UInt64.ofNat f.fileSize, UInt64.ofNat encoded.length,
      UInt64.ofNat f.builder.numEntries⟩ : BlobHandle) = (b.writeEncoderData encoded).2 := by
    rw [h.fileSize, h.builder]
    rfl
  rcases hlive.append faults site (encoded.take kRecordHeaderSize) with
    hhead | ⟨hfault, hfailed⟩
  swap
  · refine Or.inr ⟨⟨_, hfault⟩, ?_⟩
    simp only [FaultyBuilder.writeEncoderData]
    rw [if_neg (by rw [hfailed]; exact nofun)]
    exact hfailed
  rcases hhead.append faults site (encoded.drop kRecordHeaderSize) with
    hbody | ⟨hfault, hfailed⟩
  · refine Or.inl ?_
    simp only [FaultyBuilder.writeEncoderData]
    rw [if_pos hhead.ok]
    refine ⟨⟨?_, ?_, h.status⟩, hhandle⟩
    · rw [hbody.builder, BlobFileBuilder.writeEncoderData]
      simp only [List.append_assoc, List.take_append_drop]
    · rw [hbody.fileSize, BlobFileBuilder.writeEncoderData]
      simp only [List.append_assoc, List.take_append_drop]
  · refine Or.inr ⟨⟨_, hfault⟩, ?_⟩
    simp only [FaultyBuilder.writeEncoderData]
    rw [if_pos hhead.ok]
    exact hfailed

/-- Samples of which only the last one may fail. -/
theorem Tracks.flushSamples (h : Tracks f b) (hnone : ∀ n, faults .sample n = none)
    (samples : List Bytes) (contexts : List BlobRecordContext) :
    (Tracks (f.flushSamples faults samples contexts).1 (b.flushSamples samples contexts).1 ∧
      (f.flushSamples faults samples contexts).2 = (b.flushSamples samples contexts).2) ∨
    (∃ n, (faults .lastSample n).isSome) ∧ (f.flushSamples faults samples contexts).1.Failed := by
  induction samples generalizing f b contexts with
  | nil => exact Or.inl ⟨h, rfl⟩
  | cons sample samples ih =>
      rw [FaultyBuilder.flushSamples, BlobFileBuilder.flushSamples]
      cases contexts.dropWhile (·.hasValue) with
      | nil => exact Or.inl ⟨h, rfl⟩
      | cons ctx rest =>
          obtain rfl := h.builder
          rcases h.writeEncoderData faults (if samples.isEmpty then WriteSite.lastSample else .sample)
            (BlobEncoder.encodeSlice f.builder.compress sample) with
            ⟨hwrite, hhandle⟩ | ⟨⟨n, hn⟩, hfailed⟩
          · refine (ih hwrite rest).imp ?_ id
            rintro ⟨hrest, hout⟩
            refine ⟨hrest, ?_⟩
            dsimp only
            rw [hout, hhandle]
          · cases samples with
            | nil => exact Or.inr ⟨⟨n, hn⟩, hfailed⟩
            | cons next samples =>
                have hno := hnone n
                rw [List.isEmpty_cons, if_neg Bool.false_ne_true, hno] at hn
                cases hn

theorem Tracks.enterUnbuffered (h : Tracks f b) (hnone : ∀ n, faults .sample n = none) :
    (Tracks (f.enterUnbuffered faults).1 b.enterUnbuffered.1 ∧
      (f.enterUnbuffered faults).2 = b.enterUnbuffered.2) ∨
    (∃ n, (faults .lastSample n).isSome) ∧ (f.enterUnbuffered faults).1.Failed := by
  obtain ⟨rfl, hsize, hok⟩ := h
  have hdict : Tracks
      { f with builder := { f.builder with
        compressionDict := some (f.builder.options.trainDictionary f.builder.sampleRecords.flatten
          (f.builder.sampleRecords.map (·.length)) f.builder.options.maxDictBytes)
        encoderDict := f.builder.options.trainDictionary f.builder.sampleRecords.flatten
          (f.builder.sampleRecords.map (·.length)) f.builder.options.maxDictBytes } }
      _ := ⟨rfl, hsize, hok⟩
  rcases hdict.flushSamples hnone f.builder.sampleRecords f.builder.cachedContexts with
    ⟨⟨hbuilder, hsize, hok⟩, hout⟩ | ⟨hfault, hfailed⟩
  · refine Or.inl ⟨⟨?_, hsize, hok⟩, hout⟩
    simp only [FaultyBuilder.enterUnbuffered, BlobFileBuilder.enterUnbuffered,
      BlobFileBuilder.flushSampleRecords, hbuilder]
  · exact Or.inr ⟨hfault, hfailed⟩

/-! ## Failures that the status keeps -/

/-- Nothing fails that the builder writes something after, without a look at the status: there is no
dictionary, or all blocks and all samples but the last are written. -/
def StatusKept (o : BuilderOptions) (faults : WriteFaults) : Prop :=
  o.maxDictBytes = 0 ∨ ∀ n, faults .sample n = none ∧ faults .block n = none

/-- Nothing fails at the end of what `Finish` writes. -/
def EndWritten (faults : WriteFaults) : Prop :=
  ∀ n, faults .lastSample n = none ∧ faults .footer n = none ∧ faults .flush n = none

/-- Records only wait for a dictionary. -/
def WaitsForDict (b : BlobFileBuilder) : Prop :=
  b.builderState = .kBuffered → b.options.maxDictBytes > 0

theorem Failed.add (h : f.Failed) (record : BlobRecord) (ctx : BlobRecordContext) :
    f.add faults record ctx = (f, []) := by
  rw [FaultyBuilder.add, if_pos (by rw [h]; rfl)]

theorem Failed.finish (h : f.Failed) : f.finish faults = (f, [], f.builder.status) := by
  rw [FaultyBuilder.finish, if_pos (by rw [h]; rfl)]

theorem tracks_new (faults : WriteFaults) {o : BuilderOptions} {version : UInt32}
    (hversion : o.Supports version) :
    Tracks (new faults o version) (BlobFileBuilder.new o version) ∨ (new faults o version).Failed := by
  have hvalid : ¬(version ≠ BlobFileHeader.kVersion1 ∧ version ≠ BlobFileHeader.kVersion2) := by
    rintro ⟨hone, htwo⟩
    rcases hversion with h | ⟨h, -⟩
    · exact htwo h
    · exact hone h
  have hempty : Tracks ⟨{ BlobFileBuilder.new o version with file := [] }, 0, 0⟩
      { BlobFileBuilder.new o version with file := [] } := by
    refine ⟨rfl, rfl, ?_⟩
    rw [BlobFileBuilder.new, if_neg hvalid]
  have hnew : { BlobFileBuilder.new o version with
      file := [] ++ (BlobFileBuilder.header o version).encodeTo } = BlobFileBuilder.new o version := by
    rw [BlobFileBuilder.new, if_neg hvalid]
    rfl
  simp only [new]
  rw [if_pos hempty.ok]
  rcases hempty.append faults .header (BlobFileBuilder.header o version).encodeTo with
    htracks | ⟨-, hfailed⟩
  · exact Or.inl (hnew ▸ htracks)
  · exact Or.inr hfailed

theorem Tracks.extendRange (h : Tracks f b) (key : Bytes) :
    Tracks { f with builder := f.builder.extendRange key } (b.extendRange key) :=
  ⟨congrArg (BlobFileBuilder.extendRange · key) h.builder, h.fileSize, h.status⟩

theorem add_kUnbuffered (hok : f.builder.status.isOk = true)
    (hstate : f.builder.builderState = .kUnbuffered) (record : BlobRecord) (ctx : BlobRecordContext) :
    f.add faults record ctx =
      let (f, handle) :=
        f.writeEncoderData faults .record (BlobEncoder.encodeRecord f.builder.compress record)
      ({ f with builder := f.builder.extendRange record.key }, [ctx.setHandle handle]) := by
  unfold FaultyBuilder.add
  rw [if_neg (by rw [hok]; exact nofun)]
  split
  · rename_i hbuffered
    cases hstate.symm.trans hbuffered
  · rfl

theorem add_kBuffered (hok : f.builder.status.isOk = true)
    (hstate : f.builder.builderState = .kBuffered) (record : BlobRecord) (ctx : BlobRecordContext) :
    f.add faults record ctx =
      let (f, out) :=
        if f.builder.options.zstdMaxTrainBytes > 0 ∧
            f.builder.sampleStrLen + record.encodeTo.length ≥ f.builder.options.zstdMaxTrainBytes then
          enterUnbuffered faults { f with builder := f.builder.sampled record ctx }
        else ({ f with builder := f.builder.sampled record ctx }, [])
      ({ f with builder := f.builder.extendRange record.key }, out) := by
  unfold FaultyBuilder.add
  rw [if_neg (by rw [hok]; exact nofun)]
  split
  · rfl
  · rename_i hunbuffered
    cases hstate.symm.trans hunbuffered

/-- A record either leaves the builder on track or leaves a failed status. -/
theorem Tracks.add (h : Tracks f b) (hkept : StatusKept b.options faults) (hdict : WaitsForDict b)
    (record : BlobRecord) (ctx : BlobRecordContext) :
    (Tracks (f.add faults record ctx).1 (b.add record ctx).1 ∧
      (f.add faults record ctx).2 = (b.add record ctx).2) ∨ (f.add faults record ctx).1.Failed := by
  obtain rfl := h.builder
  cases hstate : f.builder.builderState with
  | kBuffered =>
      have hnone : ∀ n, faults .sample n = none := by
        rcases hkept with hzero | hnone
        · have := hdict hstate
          omega
        · exact fun n => (hnone n).1
      have hsampled : Tracks { f with builder := f.builder.sampled record ctx }
          (f.builder.sampled record ctx) := ⟨rfl, h.fileSize, h.status⟩
      rw [BlobFileBuilder.add_kBuffered h.status hstate, add_kBuffered h.ok hstate]
      split_ifs with htrain
      · rcases hsampled.enterUnbuffered hnone with ⟨htracks, hout⟩ | ⟨-, hfailed⟩
        · exact Or.inl ⟨htracks.extendRange record.key, hout⟩
        · exact Or.inr hfailed
      · exact Or.inl ⟨hsampled.extendRange record.key, rfl⟩
  | kUnbuffered =>
      rw [BlobFileBuilder.add_kUnbuffered h.status hstate, add_kUnbuffered h.ok hstate]
      rcases h.writeEncoderData faults .record
        (BlobEncoder.encodeRecord f.builder.compress record) with ⟨htracks, hhandle⟩ | ⟨-, hfailed⟩
      · exact Or.inl ⟨htracks.extendRange record.key,
          congrArg (fun handle => [ctx.setHandle handle]) hhandle⟩
      · exact Or.inr hfailed

/-- A block is written in one piece. -/
theorem Tracks.writeRawBlock (h : Tracks f b) (hnone : ∀ n, faults .block n = none) (block : Bytes) :
    Tracks (f.writeRawBlock faults block).1 { b with file := b.file ++ rawBlock block } ∧
      (f.writeRawBlock faults block).2 = ⟨UInt64.ofNat b.file.length, UInt64.ofNat block.length⟩ := by
  have happend {f : FaultyBuilder} {b : BlobFileBuilder} (h : Tracks f b) (data : Bytes) :
      Tracks (f.append faults .block data) { b with file := b.file ++ data } := by
    rcases h.append faults .block data with h | ⟨hfault, -⟩
    · exact h
    · rw [hnone] at hfault
      cases hfault
  have hblock := happend h block
  have htrailer := happend hblock ((rawBlock block).drop block.length)
  have hsplit : block ++ (rawBlock block).drop block.length = rawBlock block := by
    rw [rawBlock, List.drop_left]
  simp only [FaultyBuilder.writeRawBlock]
  rw [if_pos hblock.ok, h.fileSize]
  simp only [List.append_assoc, hsplit] at htrailer
  exact ⟨htrailer, rfl⟩

theorem Tracks.writeMetaBlocks (h : Tracks f b) (hnone : ∀ n, faults .block n = none) :
    Tracks (f.writeMetaBlocks faults).1
        { b with file := b.file ++
          (BlobFileBuilder.metaBlocks b.file.length (b.compressionDict.getD [])).1 } ∧
      (f.writeMetaBlocks faults).2 =
        (BlobFileBuilder.metaBlocks b.file.length (b.compressionDict.getD [])).2 := by
  obtain rfl := h.builder
  obtain ⟨hdict, hhandle⟩ := h.writeRawBlock hnone (f.builder.compressionDict.getD [])
  obtain ⟨hindex, hhandle'⟩ := hdict.writeRawBlock hnone (metaIndexBlock kCompressionDictBlockName
    (f.writeRawBlock faults (f.builder.compressionDict.getD [])).2)
  simp only [FaultyBuilder.writeMetaBlocks]
  rw [if_pos hdict.ok]
  rw [hhandle] at hindex hhandle' ⊢
  simp only [List.append_assoc, List.length_append] at hindex hhandle'
  exact ⟨hindex, hhandle'⟩

/-- The footer and the flush either succeed or leave a failed status. -/
theorem Tracks.writeFooter (h : Tracks f b) (faults : WriteFaults) (footer : BlobFileFooter) :
    Tracks (f.writeFooter faults footer) { b with file := b.file ++ footer.encodeTo } ∨
      ((∃ n, (faults .footer n).isSome ∨ (faults .flush n).isSome) ∧
        (f.writeFooter faults footer).Failed) := by
  simp only [FaultyBuilder.writeFooter]
  rcases h.append faults .footer footer.encodeTo with htracks | ⟨hfault, hfailed⟩
  swap
  · rw [if_neg (by rw [hfailed]; exact nofun)]
    exact Or.inr ⟨⟨_, Or.inl hfault⟩, hfailed⟩
  rw [if_pos htracks.ok]
  cases hflush : (faults .flush (f.append faults .footer footer.encodeTo).calls).isSome with
  | false =>
      refine Or.inl ⟨?_, htracks.fileSize, h.status⟩
      simp only [FaultyBuilder.flush, hflush, htracks.builder, ← h.status]
      rfl
  | true =>
      refine Or.inr ⟨⟨_, Or.inr hflush⟩, ?_⟩
      simp only [Failed, FaultyBuilder.flush, hflush]
      rfl

/-- The blocks and the footer of an unbuffered builder. -/
theorem Tracks.writeEnd (h : Tracks f b) (hkept : StatusKept b.options faults) :
    let ending : FaultyBuilder × BlockHandle :=
      if f.builder.options.maxDictBytes > 0 then f.writeMetaBlocks faults else (f, {})
    let blocks : Bytes × BlockHandle :=
      if b.options.maxDictBytes > 0 then
        BlobFileBuilder.metaBlocks b.file.length (b.compressionDict.getD [])
      else ([], {})
    Tracks (ending.1.writeFooter faults ⟨ending.2⟩)
        { b with file := b.file ++ blocks.1 ++ BlobFileFooter.encodeTo ⟨blocks.2⟩ } ∨
      ((∃ n, (faults .footer n).isSome ∨ (faults .flush n).isSome) ∧
        (ending.1.writeFooter faults ⟨ending.2⟩).Failed) := by
  obtain rfl := h.builder
  intro ending blocks
  have hblocks : Tracks ending.1 { f.builder with file := f.builder.file ++ blocks.1 } ∧
      ending.2 = blocks.2 := by
    by_cases hsome : f.builder.options.maxDictBytes > 0
    · have hend : ending = f.writeMetaBlocks faults := if_pos hsome
      have hblocks : blocks = BlobFileBuilder.metaBlocks f.builder.file.length
          (f.builder.compressionDict.getD []) := if_pos hsome
      rw [hend, hblocks]
      exact h.writeMetaBlocks fun n => ((hkept.resolve_left (by omega)) n).2
    · have hend : ending = (f, {}) := if_neg hsome
      have hblocks : blocks = ([], {}) := if_neg hsome
      rw [hend, hblocks]
      exact ⟨⟨by simp, by simpa using h.fileSize, h.status⟩, rfl⟩
  rw [hblocks.2]
  exact hblocks.1.writeFooter faults ⟨blocks.2⟩

/-- `Finish` either writes the file that a builder without failures writes, or returns a failed
status and hands out nothing. -/
theorem Tracks.finish (h : Tracks f b) (hkept : StatusKept b.options faults) (hdict : WaitsForDict b)
    (hend : b.builderState = .kBuffered → EndWritten faults) :
    ((f.finish faults).2.2.isOk = true ∧ (f.finish faults).1.builder.file = b.finish.1.file ∧
      (f.finish faults).2.1 = b.finish.2.1) ∨
    ((f.finish faults).2.2.isOk = false ∧ (f.finish faults).2.1 = []) := by
  obtain rfl := h.builder
  have hgo : ¬(!f.builder.status.isOk) = true := by
    rw [h.ok]
    exact nofun
  rw [FaultyBuilder.finish, if_neg hgo, BlobFileBuilder.finish, if_neg hgo]
  by_cases hstate : f.builder.builderState = .kBuffered
  · have hsample : ∀ n, faults .sample n = none := by
      intro n
      have := hdict hstate
      exact ((hkept.resolve_left (by omega)) n).1
    simp only [if_pos hstate]
    rcases h.enterUnbuffered hsample with ⟨htracks, hout⟩ | ⟨⟨n, hn⟩, -⟩
    swap
    · rw [(hend hstate n).1] at hn
      cases hn
    have hoptions : f.builder.enterUnbuffered.1.options = f.builder.options :=
      (BlobFileBuilder.flushSamples_frame _ _ _).1
    rcases htracks.writeEnd (hoptions ▸ hkept) with hwritten | ⟨⟨n, hn | hn⟩, -⟩
    · exact Or.inl ⟨hwritten.ok, congrArg BlobFileBuilder.file hwritten.builder, hout⟩
    · rw [(hend hstate n).2.1] at hn
      cases hn
    · rw [(hend hstate n).2.2] at hn
      cases hn
  · simp only [if_neg hstate]
    rcases h.writeEnd hkept with hwritten | ⟨-, hfailed⟩
    · exact Or.inl ⟨hwritten.ok, congrArg BlobFileBuilder.file hwritten.builder, trivial⟩
    · exact Or.inr ⟨hfailed, trivial⟩

end FaultyBuilder

end AegonKV
