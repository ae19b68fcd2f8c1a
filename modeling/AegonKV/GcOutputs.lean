import AegonKV.GcRewriteCoverage
import AegonKV.LsmCallbacks

/-!
# The counters of a GC output file

`DoRunGC` adds records to a `BlobFileBuilder`, and `InstallOutputBlobFiles` finishes it, queues the
rewrites of the contexts that come back and makes the metadata of the file from the builder's
counters. The appends of the builder may fail at any place.
-/

namespace AegonKV
open LittleEndian

namespace FaultyBuilder

variable {f g h : FaultyBuilder} {faults : WriteFaults}

/-! ## Writes that do not count -/

def SameCounts (f g : FaultyBuilder) : Prop :=
  ∃ file status, g.builder = { f.builder with file := file, status := status }

theorem SameCounts.refl (f : FaultyBuilder) : f.SameCounts f := ⟨_, _, rfl⟩

theorem SameCounts.trans (hfg : f.SameCounts g) (hgh : g.SameCounts h) : f.SameCounts h := by
  rcases hfg with ⟨file, status, hg⟩
  rcases hgh with ⟨file', status', hh⟩
  exact ⟨file', status', by rw [hh, hg]⟩

theorem sameCounts_append (faults : WriteFaults) (site : WriteSite) (f : FaultyBuilder) (data : Bytes) :
    f.SameCounts (f.append faults site data) := by
  rw [append]
  split
  · exact ⟨_, _, rfl⟩
  · exact ⟨_, _, rfl⟩

theorem sameCounts_writeRawBlock (faults : WriteFaults) (f : FaultyBuilder) (block : Bytes) :
    f.SameCounts (f.writeRawBlock faults block).1 := by
  rw [writeRawBlock]
  have hblock := sameCounts_append faults .block f block
  split_ifs
  · exact hblock.trans (sameCounts_append faults .block _ _)
  · exact hblock

theorem sameCounts_writeMetaBlocks (faults : WriteFaults) (f : FaultyBuilder) :
    f.SameCounts (f.writeMetaBlocks faults).1 :=
  (sameCounts_writeRawBlock faults f _).trans (sameCounts_writeRawBlock faults _ _)

theorem sameCounts_writeFooter (faults : WriteFaults) (f : FaultyBuilder) (footer : BlobFileFooter) :
    f.SameCounts (f.writeFooter faults footer) := by
  rw [writeFooter]
  have hfooter := sameCounts_append faults .footer f footer.encodeTo
  split_ifs
  · exact hfooter.trans ⟨_, _, rfl⟩
  · exact hfooter

/-- `WriteEncoderData` adds the size of the record, and counts the record unless its header was not
written. -/
theorem counts_writeEncoderData (faults : WriteFaults) (site : WriteSite) (f : FaultyBuilder)
    (encoded : Bytes) :
    ∃ file status entries, (f.writeEncoderData faults site encoded).1.builder =
        { f.builder with
          file := file
          status := status
          numEntries := entries
          liveDataSize := f.builder.liveDataSize + encoded.length } ∧
      f.builder.numEntries ≤ entries ∧ entries ≤ f.builder.numEntries + 1 ∧
      (faults site f.calls = none → entries = f.builder.numEntries + 1) := by
  have hhead := sameCounts_append faults site { f with builder := { f.builder with
    liveDataSize := f.builder.liveDataSize + encoded.length } } (encoded.take kRecordHeaderSize)
  rw [writeEncoderData]
  dsimp only
  split_ifs with hok
  · rcases hhead.trans (sameCounts_append faults site _ (encoded.drop kRecordHeaderSize)) with
      ⟨file, status, hbody⟩
    refine ⟨file, status, f.builder.numEntries + 1, ?_, by omega, by omega, fun _ => rfl⟩
    rw [hbody]
  · rcases hhead with ⟨file, status, hbuilder⟩
    refine ⟨file, status, f.builder.numEntries, hbuilder, by omega, by omega, fun hnone => ?_⟩
    -- an append that does not fail leaves an OK status
    rw [append, hnone] at hok
    exact absurd rfl hok

/-! ## The counters -/

/-- What the counters of a builder say about the contexts that it has handed out, which all are as
`P` asks. -/
structure Counts (faults : WriteFaults) (P : BlobRecordContext → Prop) (f : FaultyBuilder)
    (out : List BlobRecordContext) : Prop where
  contexts : ∀ ctx ∈ out, P ctx
  liveDataSize : f.builder.liveDataSize < 2 ^ 64 →
    f.builder.liveDataSize = (out.map fun ctx => ctx.newBlobIndex.blobHandle.size.toNat).sum
  numEntries : f.builder.numEntries ≤ f.builder.liveDataSize
  index : ∀ ctx ∈ out, ctx.newBlobIndex.blobHandle.index.toNat ≤ f.builder.numEntries
  /-- Records are numbered in the order they come. -/
  numbered : (∀ site n, faults site n = none) → out.map (·.newBlobIndex.blobHandle.index) =
    (List.range f.builder.numEntries).map UInt64.ofNat
  waiting : f.builder.sampleRecords.length = f.builder.cachedContexts.length
  cached : ∀ ctx ∈ f.builder.cachedContexts, P ctx ∧ ctx.hasValue = false
  range : f.builder.smallestKey.length < 2 ^ 32 ∧ f.builder.largestKey.length < 2 ^ 32

variable {P : BlobRecordContext → Prop} {out : List BlobRecordContext}

theorem Counts.congr (hc : f.Counts faults P out) (hsame : f.SameCounts g) : g.Counts faults P out := by
  rcases hsame with ⟨file, status, hg⟩
  constructor
  case contexts => exact hc.contexts
  case liveDataSize => rw [hg]; exact hc.liveDataSize
  case numEntries => rw [hg]; exact hc.numEntries
  case index => rw [hg]; exact hc.index
  case numbered => rw [hg]; exact hc.numbered
  case waiting => rw [hg]; exact hc.waiting
  case cached => rw [hg]; exact hc.cached
  case range => rw [hg]; exact hc.range

/-- One more record, for a context that comes back with its handle. -/
theorem Counts.writeEncoderData (hc : f.Counts faults P out)
    (hset : ∀ ctx handle, P ctx → P (ctx.setHandle handle)) {ctx : BlobRecordContext} (hctx : P ctx)
    (site : WriteSite) {encoded : Bytes} (hlen : 0 < encoded.length) :
    (f.writeEncoderData faults site encoded).1.Counts faults P
      (out ++ [ctx.setHandle (f.writeEncoderData faults site encoded).2]) := by
  have hhandle : (f.writeEncoderData faults site encoded).2 =
      ⟨UInt64.ofNat f.fileSize, UInt64.ofNat encoded.length, UInt64.ofNat f.builder.numEntries⟩ := by
    rw [FaultyBuilder.writeEncoderData]
    split_ifs
    · rfl
    · rfl
  rcases counts_writeEncoderData faults site f encoded with
    ⟨file, status, entries, hbuilder, hge, hle, hnone⟩
  have hnumEntries := hc.numEntries
  constructor
  case contexts =>
    intro c hmem
    rcases List.mem_append.mp hmem with hmem | hmem
    · exact hc.contexts c hmem
    · rw [List.mem_singleton.mp hmem]
      exact hset ctx _ hctx
  case liveDataSize =>
    rw [hbuilder]
    intro hlt
    dsimp only at hlt ⊢
    have hsize : (UInt64.ofNat encoded.length).toNat = encoded.length :=
      UInt64.toNat_ofNat_of_lt' (show encoded.length < 2 ^ 64 by omega)
    rw [List.map_append, List.sum_append, ← hc.liveDataSize (by omega), hhandle, List.map_singleton,
      List.sum_singleton]
    exact congrArg (f.builder.liveDataSize + ·) hsize.symm
  case numEntries =>
    rw [hbuilder]
    dsimp only
    omega
  case index =>
    rw [hbuilder]
    intro c hmem
    dsimp only
    rcases List.mem_append.mp hmem with hmem | hmem
    · exact (hc.index c hmem).trans hge
    · rw [List.mem_singleton.mp hmem, hhandle]
      have hmod : (UInt64.ofNat f.builder.numEntries).toNat ≤ f.builder.numEntries := by
        rw [UInt64.toNat_ofNat']
        exact Nat.mod_le _ _
      exact hmod.trans hge
  case numbered =>
    intro hfault
    rw [hbuilder, hnone (hfault site f.calls), List.map_append, hc.numbered hfault, List.range_succ,
      List.map_append, hhandle]
    rfl
  case waiting => rw [hbuilder]; exact hc.waiting
  case cached => rw [hbuilder]; exact hc.cached
  case range => rw [hbuilder]; exact hc.range

/-- The samples that wait, one context for each. -/
theorem Counts.flushSamples (hc : f.Counts faults P out)
    (hset : ∀ ctx handle, P ctx → P (ctx.setHandle handle)) {samples : List Bytes}
    {contexts : List BlobRecordContext} (hlen : samples.length = contexts.length)
    (hcontexts : ∀ ctx ∈ contexts, P ctx ∧ ctx.hasValue = false) :
    (f.flushSamples faults samples contexts).1.Counts faults P
      (out ++ (f.flushSamples faults samples contexts).2) := by
  induction samples generalizing f out contexts with
  | nil =>
      rw [List.length_eq_zero_iff.mp hlen.symm, FaultyBuilder.flushSamples, List.append_nil]
      exact hc
  | cons sample samples ih =>
      cases contexts with
      | nil => cases hlen
      | cons ctx contexts =>
          have hctx := hcontexts ctx List.mem_cons_self
          rw [FaultyBuilder.flushSamples, List.takeWhile_cons_of_neg (by simp [hctx.2]),
            List.dropWhile_cons_of_neg (by simp [hctx.2])]
          dsimp only
          have hpos : 0 < (BlobEncoder.encodeSlice f.builder.compress sample).length := by
            rw [BlobEncoder.length_encodeSlice]
            exact Nat.add_pos_left (by decide) _
          have hwritten := hc.writeEncoderData hset hctx.1
            (if samples.isEmpty then WriteSite.lastSample else .sample) hpos
          have hrest := ih hwritten (Nat.succ.inj hlen)
            fun c hmem => hcontexts c (List.mem_cons_of_mem _ hmem)
          rw [List.append_assoc] at hrest
          exact hrest

theorem Counts.enterUnbuffered (hc : f.Counts faults P out)
    (hset : ∀ ctx handle, P ctx → P (ctx.setHandle handle)) :
    (f.enterUnbuffered faults).1.Counts faults P (out ++ (f.enterUnbuffered faults).2) := by
  have hdict : FaultyBuilder.Counts faults P { f with builder := { f.builder with
      compressionDict := some (f.builder.options.trainDictionary f.builder.sampleRecords.flatten
        (f.builder.sampleRecords.map (·.length)) f.builder.options.maxDictBytes)
      encoderDict := f.builder.options.trainDictionary f.builder.sampleRecords.flatten
        (f.builder.sampleRecords.map (·.length)) f.builder.options.maxDictBytes } } out :=
    ⟨hc.contexts, hc.liveDataSize, hc.numEntries, hc.index, hc.numbered, hc.waiting, hc.cached, hc.range⟩
  have hflushed := hdict.flushSamples hset hc.waiting hc.cached
  rw [FaultyBuilder.enterUnbuffered]
  exact ⟨hflushed.contexts, hflushed.liveDataSize, hflushed.numEntries, hflushed.index,
    hflushed.numbered, rfl, fun ctx hmem => absurd hmem List.not_mem_nil, hflushed.range⟩

theorem Counts.extendRange (hc : f.Counts faults P out) {key : Bytes} (hkey : key.length < 2 ^ 32) :
    FaultyBuilder.Counts faults P { f with builder := f.builder.extendRange key } out := by
  refine ⟨hc.contexts, hc.liveDataSize, hc.numEntries, hc.index, hc.numbered, hc.waiting, hc.cached,
    ?_, ?_⟩
  · rw [BlobFileBuilder.extendRange]
    dsimp only
    split_ifs
    · exact hkey
    · exact hc.range.1
  · rw [BlobFileBuilder.extendRange]
    dsimp only
    split_ifs
    · exact hkey
    · exact hc.range.2

/-- One call of `Add`. -/
theorem Counts.add (hc : f.Counts faults P out)
    (hset : ∀ ctx handle, P ctx → P (ctx.setHandle handle)) {record : BlobRecord}
    (hkey : record.key.length < 2 ^ 32) {ctx : BlobRecordContext} (hctx : P ctx)
    (hvalue : ctx.hasValue = false) :
    (f.add faults record ctx).1.Counts faults P (out ++ (f.add faults record ctx).2) := by
  rw [FaultyBuilder.add]
  split_ifs with hok
  · rw [List.append_nil]
    exact hc
  · split
    · have hwaits : FaultyBuilder.Counts faults P { f with builder := { f.builder with
          sampleRecords := f.builder.sampleRecords ++ [record.encodeTo]
          sampleStrLen := f.builder.sampleStrLen + record.encodeTo.length
          cachedContexts := f.builder.cachedContexts ++ [ctx] } } out := by
        refine ⟨hc.contexts, hc.liveDataSize, hc.numEntries, hc.index, hc.numbered, ?_, ?_, hc.range⟩
        · have hwaiting := hc.waiting
          simp only [List.length_append, List.length_singleton]
          omega
        · intro c hmem
          rcases List.mem_append.mp hmem with hmem | hmem
          · exact hc.cached c hmem
          · rw [List.mem_singleton.mp hmem]
            exact ⟨hctx, hvalue⟩
      dsimp only
      split_ifs
      · exact (hwaits.enterUnbuffered hset).extendRange hkey
      · have hrange := hwaits.extendRange hkey
        rw [← List.append_nil out] at hrange
        exact hrange
    · have hpos : 0 < (BlobEncoder.encodeRecord f.builder.compress record).length := by
        rw [BlobEncoder.encodeRecord, BlobEncoder.length_encodeSlice]
        exact Nat.add_pos_left (by decide) _
      exact (hc.writeEncoderData hset hctx .record hpos).extendRange hkey

/-- A builder that has not counted anything. -/
theorem counts_nil (faults : WriteFaults) (P : BlobRecordContext → Prop)
    (hentries : f.builder.numEntries = 0) (hlive : f.builder.liveDataSize = 0)
    (hsamples : f.builder.sampleRecords = []) (hcached : f.builder.cachedContexts = [])
    (hsmallest : f.builder.smallestKey = []) (hlargest : f.builder.largestKey = []) :
    f.Counts faults P [] := by
  constructor
  case contexts => exact fun ctx hmem => absurd hmem List.not_mem_nil
  case liveDataSize => exact fun _ => hlive
  case numEntries => omega
  case index => exact fun ctx hmem => absurd hmem List.not_mem_nil
  case numbered => exact fun _ => by rw [hentries]; rfl
  case waiting => rw [hsamples, hcached]; rfl
  case cached =>
    rw [hcached]
    exact fun ctx hmem => absurd hmem List.not_mem_nil
  case range =>
    rw [hsmallest, hlargest]
    exact ⟨by decide, by decide⟩

theorem counts_new (faults : WriteFaults) (P : BlobRecordContext → Prop) (options : BuilderOptions)
    (version : UInt32) : (new faults options version).Counts faults P [] := by
  have hempty : FaultyBuilder.Counts faults P
      ⟨{ BlobFileBuilder.new options version with file := [] }, 0, 0⟩ [] := by
    rw [BlobFileBuilder.new]
    split_ifs <;> exact counts_nil faults P rfl rfl rfl rfl rfl rfl
  rw [new]
  dsimp only
  split_ifs
  · exact hempty.congr (sameCounts_append faults .header _ _)
  · exact hempty

theorem Counts.finish (hc : f.Counts faults P out)
    (hset : ∀ ctx handle, P ctx → P (ctx.setHandle handle)) :
    (f.finish faults).1.Counts faults P (out ++ (f.finish faults).2.1) := by
  rw [FaultyBuilder.finish]
  by_cases hok : (!f.builder.status.isOk) = true
  · rw [if_pos hok, List.append_nil]
    exact hc
  · rw [if_neg hok]
    have hentered : FaultyBuilder.Counts faults P
        (if f.builder.builderState = .kBuffered then f.enterUnbuffered faults else (f, [])).1
        (out ++ (if f.builder.builderState = .kBuffered then f.enterUnbuffered faults else (f, [])).2) := by
      split_ifs
      · exact hc.enterUnbuffered hset
      · rw [List.append_nil]
        exact hc
    generalize (if f.builder.builderState = .kBuffered then f.enterUnbuffered faults else (f, [])) =
      entered at hentered ⊢
    have hmeta : entered.1.SameCounts (if entered.1.builder.options.maxDictBytes > 0 then
        entered.1.writeMetaBlocks faults else (entered.1, {})).1 := by
      split_ifs
      · exact sameCounts_writeMetaBlocks faults entered.1
      · exact .refl entered.1
    exact hentered.congr (hmeta.trans (sameCounts_writeFooter faults _ _))

end FaultyBuilder

/-! ## Output files -/

namespace GcRewrites
open InternalKey

structure GcOutput where
  fileNumber : UInt64
  options : BuilderOptions
  faults : WriteFaults
  records : List (UInt64 × BlobRec Bytes)
  keys : ∀ x ∈ records, x.2.key.length < 2 ^ 32

namespace GcOutput

/-- `Add` of one more record, behind the contexts handed out so far. -/
def addRecord (number : UInt64) (faults : WriteFaults) (s : FaultyBuilder × List BlobRecordContext)
    (x : UInt64 × BlobRec Bytes) : FaultyBuilder × List BlobRecordContext :=
  let (builder, contexts) := s.1.add faults ⟨x.2.key, x.2.value⟩ (Job.recordContext number x)
  (builder, s.2 ++ contexts)

variable (o : GcOutput)

/-- The builder when `DoRunGC` is done with it, with all contexts that it handed out. -/
def added : FaultyBuilder × List BlobRecordContext :=
  o.records.foldl (addRecord o.fileNumber o.faults)
    (.new o.faults o.options BlobFileHeader.kVersion2, [])

def finished : FaultyBuilder := (o.added.1.finish o.faults).1

def contexts : List BlobRecordContext := o.added.2 ++ (o.added.1.finish o.faults).2.1

/-- What `BatchWriteNewIndices` adds to `rewrite_batches_` for the file. -/
def rewrites : List Rewrite := (batchWriteNewIndices o.contexts .ok).1

theorem madeFor_setHandle {number : UInt64} {xs : List (UInt64 × BlobRec Bytes)}
    {ctx : BlobRecordContext} (h : MadeFor number xs ctx) (handle : BlobHandle) :
    MadeFor number xs (ctx.setHandle handle) := by
  rcases h with ⟨x, hx, first, rfl⟩
  exact ⟨x, hx, handle, rfl⟩

theorem counts_added : o.added.1.Counts o.faults (MadeFor o.fileNumber o.records) o.added.2 := by
  have hrun : ∀ (xs : List (UInt64 × BlobRec Bytes)) (s : FaultyBuilder × List BlobRecordContext),
      (∀ x ∈ xs, x ∈ o.records) → s.1.Counts o.faults (MadeFor o.fileNumber o.records) s.2 →
      (xs.foldl (addRecord o.fileNumber o.faults) s).1.Counts o.faults
        (MadeFor o.fileNumber o.records) (xs.foldl (addRecord o.fileNumber o.faults) s).2 := by
    intro xs
    induction xs with
    | nil => exact fun s _ hs => hs
    | cons x xs ih =>
        intro s hxs hs
        have hx := hxs x List.mem_cons_self
        refine ih _ (fun y hy => hxs y (List.mem_cons_of_mem _ hy)) ?_
        refine hs.add (fun _ handle hctx => madeFor_setHandle hctx handle) (o.keys x hx) ?_ rfl
        exact ⟨x, hx, _, rfl⟩
  have hnew := FaultyBuilder.counts_new o.faults (MadeFor o.fileNumber o.records) o.options
    BlobFileHeader.kVersion2
  exact hrun o.records (_, []) (fun x hx => hx) hnew

theorem counts_finished : o.finished.Counts o.faults (MadeFor o.fileNumber o.records) o.contexts :=
  o.counts_added.finish fun _ handle hctx => madeFor_setHandle hctx handle

/-- The metadata that `InstallOutputBlobFiles` makes, before the file's first transition. -/
def file : BlobFileMeta where
  fileSize := UInt64.ofNat o.finished.fileSize
  fileEntries := UInt64.ofNat o.finished.builder.numEntries
  fileLevel := 0
  smallestKey := ⟨o.finished.builder.smallestKey, o.counts_finished.range.1⟩
  largestKey := ⟨o.finished.builder.largestKey, o.counts_finished.range.2⟩
  liveDataSize := UInt64.ofNat o.finished.builder.liveDataSize

theorem rewrites_eq : o.rewrites = o.contexts.map rewriteOf := by
  rw [rewrites, batchWriteNewIndices_eq o.counts_finished.contexts]

/-- Every rewrite of the file names it. -/
theorem fileNumber_rewrites {rewrite : Rewrite} (h : rewrite ∈ o.rewrites) :
    rewrite.newBlobIndex.fileNumber = o.fileNumber := by
  rw [rewrites_eq] at h
  obtain ⟨ctx, hctx, rfl⟩ := List.mem_map.mp h
  rcases o.counts_finished.contexts ctx hctx with ⟨x, -, handle, rfl⟩
  rfl

/-- The file starts with the sizes of the records that are rewritten. -/
theorem liveDataSize_eq (hsize : o.finished.builder.liveDataSize < 2 ^ 63) :
    o.file.liveDataSize.toNat =
      (o.rewrites.map fun rewrite => rewrite.newBlobIndex.blobHandle.size.toNat).sum := by
  have hlive := o.counts_finished.liveDataSize (by omega)
  rw [rewrites_eq, List.map_map]
  exact (UInt64.toNat_ofNat_of_lt' (show _ < 2 ^ 64 by omega)).trans hlive

theorem index_le (hsize : o.finished.builder.liveDataSize < 2 ^ 63) {rewrite : Rewrite}
    (h : rewrite ∈ o.rewrites) :
    rewrite.newBlobIndex.blobHandle.index.toNat ≤ o.file.fileEntries.toNat := by
  rw [rewrites_eq] at h
  obtain ⟨ctx, hctx, rfl⟩ := List.mem_map.mp h
  have hentries := o.counts_finished.numEntries
  have hle := o.counts_finished.index ctx hctx
  have htoNat : o.file.fileEntries.toNat = o.finished.builder.numEntries :=
    UInt64.toNat_ofNat_of_lt' (show _ < 2 ^ 64 by omega)
  rw [htoNat]
  exact hle

end GcOutput
end GcRewrites
end AegonKV
