import AegonKV.BlobFileLayout
import Mathlib.Data.List.Induction

/-!
# The round trip of a blob file

What the builder holds after any calls: either everything still waits in its two queues, or all
records lie in the file one after the other and every context has been handed out. From there the
reader, the iterator and the builder's own counters agree on the records that were added.
-/

namespace AegonKV
open LittleEndian BlobFileIterator

namespace BuilderCall

/-- The callers' side: a blob has a key and its context no inline value, an inline entry has one. -/
def WellFormed : BuilderCall → Prop
  | .add record ctx => record.key ≠ [] ∧ ctx.hasValue = false
  | .addSmall ctx => ctx.hasValue = true

/-- The contexts tell blobs and inline entries apart. -/
def Tagged : BuilderCall → Prop
  | .add _ ctx => ctx.hasValue = false
  | .addSmall ctx => ctx.hasValue = true

theorem WellFormed.tagged {call : BuilderCall} (h : call.WellFormed) : call.Tagged := by
  cases call with
  | add record ctx => exact h.2
  | addSmall ctx => exact h

def records (calls : List BuilderCall) : List BlobRecord := calls.filterMap record?

@[simp]
theorem records_add (record : BlobRecord) (ctx : BlobRecordContext) (calls : List BuilderCall) :
    records (.add record ctx :: calls) = record :: records calls := rfl

@[simp]
theorem records_addSmall (ctx : BlobRecordContext) (calls : List BuilderCall) :
    records (.addSmall ctx :: calls) = records calls := rfl

theorem records_append (calls calls' : List BuilderCall) :
    records (calls ++ calls') = records calls ++ records calls' := List.filterMap_append

theorem records_append_addSmall (calls : List BuilderCall) (ctx : BlobRecordContext) :
    records (calls ++ [.addSmall ctx]) = records calls := by
  rw [records_append]
  exact List.append_nil _

/-- The contexts with the handles of records that lie in a row from `offset` on. -/
def placed (compress : Bytes → Bytes × UInt8) (offset index : ℕ) :
    List BuilderCall → List BlobRecordContext
  | [] => []
  | .add record ctx :: calls =>
    let size := (BlobEncoder.encodeRecord compress record).length
    ctx.setHandle ⟨UInt64.ofNat offset, UInt64.ofNat size, UInt64.ofNat index⟩ ::
      placed compress (offset + size) (index + 1) calls
  | .addSmall ctx :: calls => ctx :: placed compress offset index calls

end BuilderCall

open BuilderCall (records placed)

theorem BlobFileIterator.storedLength_cons (compress : Bytes → Bytes × UInt8) (r : BlobRecord)
    (rs : List BlobRecord) : storedLength compress (r :: rs) =
      (BlobEncoder.encodeRecord compress r).length + storedLength compress rs := by
  rw [storedLength, List.flatMap_cons, List.length_append, storedLength]

theorem BlobFileIterator.storedLength_append (compress : Bytes → Bytes × UInt8)
    (rs rs' : List BlobRecord) :
    storedLength compress (rs ++ rs') = storedLength compress rs + storedLength compress rs' := by
  rw [storedLength, List.flatMap_append, List.length_append, storedLength, storedLength]

theorem BuilderCall.placed_append (compress : Bytes → Bytes × UInt8) (offset index : ℕ)
    (calls calls' : List BuilderCall) :
    placed compress offset index (calls ++ calls') = placed compress offset index calls ++
      placed compress (offset + storedLength compress (records calls))
        (index + (records calls).length) calls' := by
  induction calls generalizing offset index with
  | nil => rfl
  | cons call calls ih =>
      cases call with
      | add record ctx =>
          rw [List.cons_append, placed, placed, List.cons_append, ih, records_add,
            storedLength_cons, List.length_cons, Nat.add_assoc offset, Nat.add_assoc index,
            Nat.add_comm 1]
      | addSmall ctx => rw [List.cons_append, placed, placed, List.cons_append, ih, records_addSmall]

/-! ## Writing the samples -/

namespace BlobFileBuilder

variable {o : BuilderOptions} {version : UInt32} {calls : List BuilderCall} {b : BlobFileBuilder}
  {out : List BlobRecordContext} {dict : Bytes}

def wrote (b : BlobFileBuilder) (rs : List BlobRecord) : BlobFileBuilder :=
  { b with
    file := b.file ++ rs.flatMap (BlobEncoder.encodeRecord b.compress)
    numEntries := b.numEntries + rs.length
    liveDataSize := b.liveDataSize + storedLength b.compress rs }

theorem wrote_nil (b : BlobFileBuilder) : b.wrote [] = b := by
  simp [wrote, storedLength]

theorem wrote_cons (b : BlobFileBuilder) (r : BlobRecord) (rs : List BlobRecord) :
    b.wrote (r :: rs) =
      ((b.writeEncoderData (BlobEncoder.encodeRecord b.compress r)).1).wrote rs := by
  simp only [wrote, writeEncoderData, compress, storedLength_cons, List.flatMap_cons,
    List.append_assoc, List.length_cons, Nat.add_assoc, Nat.add_comm 1]

theorem flushSamples_inline (b : BlobFileBuilder) (samples : List Bytes) {ctx : BlobRecordContext}
    (hctx : ctx.hasValue = true) (contexts : List BlobRecordContext) :
    b.flushSamples samples (ctx :: contexts) =
      ((b.flushSamples samples contexts).1, ctx :: (b.flushSamples samples contexts).2) := by
  cases samples with
  | nil => rfl
  | cons sample samples =>
      simp only [flushSamples, List.takeWhile_cons, List.dropWhile_cons, hctx, if_true]
      cases contexts.dropWhile (·.hasValue) with
      | nil => rfl
      | cons ctx' contexts => rfl

theorem flushSamples_blob (b : BlobFileBuilder) (record : BlobRecord) (samples : List Bytes)
    {ctx : BlobRecordContext} (hctx : ctx.hasValue = false) (contexts : List BlobRecordContext) :
    b.flushSamples (record.encodeTo :: samples) (ctx :: contexts) =
      (((b.writeEncoderData (BlobEncoder.encodeRecord b.compress record)).1.flushSamples samples
          contexts).1,
        ctx.setHandle (b.writeEncoderData (BlobEncoder.encodeRecord b.compress record)).2 ::
          ((b.writeEncoderData (BlobEncoder.encodeRecord b.compress record)).1.flushSamples samples
            contexts).2) := by
  simp only [flushSamples, List.takeWhile_cons, List.dropWhile_cons, hctx, Bool.false_eq_true, if_false]
  rfl

/-- The two queues of the builder give every record the context it came with. -/
theorem flushSamples_calls (hcalls : ∀ call ∈ calls, call.Tagged) :
    b.flushSamples ((records calls).map BlobRecord.encodeTo) (calls.map BuilderCall.context) =
      (b.wrote (records calls), placed b.compress b.file.length b.numEntries calls) := by
  induction calls generalizing b with
  | nil => exact congrArg (·, []) (wrote_nil b).symm
  | cons call calls ih =>
      have hrest : ∀ call ∈ calls, call.Tagged :=
        fun c hc => hcalls c (List.mem_cons_of_mem _ hc)
      cases call with
      | add record ctx =>
          have hctx : ctx.hasValue = false := hcalls _ List.mem_cons_self
          have hlen : ((b.writeEncoderData (BlobEncoder.encodeRecord b.compress record)).1).file.length =
              b.file.length + (BlobEncoder.encodeRecord b.compress record).length :=
            List.length_append
          rw [BuilderCall.records_add, List.map_cons, List.map_cons, BuilderCall.context,
            flushSamples_blob b record _ hctx, ih hrest, hlen, wrote_cons, placed]
          rfl
      | addSmall ctx =>
          have hctx : ctx.hasValue = true := hcalls _ List.mem_cons_self
          rw [BuilderCall.records_addSmall, List.map_cons, BuilderCall.context,
            flushSamples_inline b _ hctx, ih hrest, placed]

/-! ## The state after some calls -/

/-- Nothing is written but the header. -/
structure Waiting (o : BuilderOptions) (version : UInt32) (calls : List BuilderCall)
    (b : BlobFileBuilder) (out : List BlobRecordContext) : Prop where
  options : b.options = o
  status : b.status = .ok
  state : b.builderState = .kBuffered
  dictionary : o.maxDictBytes > 0
  file : b.file = (header o version).encodeTo
  numEntries : b.numEntries = 0
  samples : b.sampleRecords = (records calls).map BlobRecord.encodeTo
  contexts : b.cachedContexts = calls.map BuilderCall.context
  out : out = []

/-- All records are written with one dictionary, and every context is handed out. -/
structure Written (o : BuilderOptions) (version : UInt32) (dict : Bytes) (calls : List BuilderCall)
    (b : BlobFileBuilder) (out : List BlobRecordContext) : Prop where
  options : b.options = o
  status : b.status = .ok
  state : b.builderState = .kUnbuffered
  encoderDict : b.encoderDict = dict
  trained : o.maxDictBytes > 0 → b.compressionDict = some dict
  untrained : o.maxDictBytes = 0 → dict = []
  file : b.file = recordArea o version dict (records calls)
  numEntries : b.numEntries = (records calls).length
  out : out = placed (o.codec.compress dict) (header o version).size 0 calls

theorem Waiting.extendRange (h : Waiting o version calls b out) (key : Bytes) :
    Waiting o version calls (b.extendRange key) out :=
  ⟨h.options, h.status, h.state, h.dictionary, h.file, h.numEntries, h.samples, h.contexts, h.out⟩

theorem Written.extendRange (h : Written o version dict calls b out) (key : Bytes) :
    Written o version dict calls (b.extendRange key) out :=
  ⟨h.options, h.status, h.state, h.encoderDict, h.trained, h.untrained, h.file, h.numEntries, h.out⟩

theorem Waiting.enterUnbuffered (h : Waiting o version calls b out) (hversion : o.Supports version)
    (hcalls : ∀ call ∈ calls, call.Tagged) :
    ∃ dict, Written o version dict calls b.enterUnbuffered.1 (out ++ b.enterUnbuffered.2) := by
  have hheader := BlobFileHeader.length_encodeTo hversion.header
  refine ⟨b.options.trainDictionary b.sampleRecords.flatten (b.sampleRecords.map (·.length))
    b.options.maxDictBytes, ?_⟩
  simp only [BlobFileBuilder.enterUnbuffered, flushSampleRecords]
  generalize b.options.trainDictionary b.sampleRecords.flatten (b.sampleRecords.map (·.length))
    b.options.maxDictBytes = dict
  rw [h.samples, h.contexts, flushSamples_calls hcalls, h.out, List.nil_append]
  refine ⟨h.options, h.status, rfl, rfl, fun _ => rfl, ?_, ?_, ?_, ?_⟩
  · intro hzero
    exact absurd h.dictionary (by omega)
  · simp only [wrote, compress, h.options, h.file, recordArea]
  · simp only [wrote, h.numEntries, Nat.zero_add]
  · simp only [compress, h.options, h.file, h.numEntries, hheader]

/-- A record and its context are put into the queues. -/
def sampled (b : BlobFileBuilder) (record : BlobRecord) (ctx : BlobRecordContext) : BlobFileBuilder :=
  { b with
    sampleRecords := b.sampleRecords ++ [record.encodeTo]
    sampleStrLen := b.sampleStrLen + record.encodeTo.length
    cachedContexts := b.cachedContexts ++ [ctx] }

theorem add_kUnbuffered (hok : b.status = .ok) (hstate : b.builderState = .kUnbuffered)
    (record : BlobRecord) (ctx : BlobRecordContext) :
    b.add record ctx =
      ((b.writeEncoderData (BlobEncoder.encodeRecord b.compress record)).1.extendRange record.key,
        [ctx.setHandle (b.writeEncoderData (BlobEncoder.encodeRecord b.compress record)).2]) := by
  have hgo : ¬(!b.status.isOk) = true := by
    rw [hok]
    exact nofun
  unfold BlobFileBuilder.add
  rw [if_neg hgo]
  split
  · rename_i hbuffered
    cases hstate.symm.trans hbuffered
  · rfl

theorem add_kBuffered (hok : b.status = .ok) (hstate : b.builderState = .kBuffered)
    (record : BlobRecord) (ctx : BlobRecordContext) :
    b.add record ctx =
      if b.options.zstdMaxTrainBytes > 0 ∧
          b.sampleStrLen + record.encodeTo.length ≥ b.options.zstdMaxTrainBytes then
        ((b.sampled record ctx).enterUnbuffered.1.extendRange record.key,
          (b.sampled record ctx).enterUnbuffered.2)
      else ((b.sampled record ctx).extendRange record.key, []) := by
  have hgo : ¬(!b.status.isOk) = true := by
    rw [hok]
    exact nofun
  unfold BlobFileBuilder.add
  rw [if_neg hgo]
  split
  · dsimp only
    split_ifs
    · rfl
    · rfl
  · rename_i hunbuffered
    cases hstate.symm.trans hunbuffered

/-- One more record on an unbuffered builder. -/
theorem Written.add (h : Written o version dict calls b out) (hversion : o.Supports version)
    (record : BlobRecord) (ctx : BlobRecordContext) :
    Written o version dict (calls ++ [.add record ctx]) (b.add record ctx).1
      (out ++ (b.add record ctx).2) := by
  have hcompress : b.compress = o.codec.compress dict := by
    rw [compress, h.options, h.encoderDict]
  have hlen : b.file.length =
      (header o version).size + storedLength (o.codec.compress dict) (records calls) := by
    rw [h.file, recordArea, List.length_append, BlobFileHeader.length_encodeTo hversion.header,
      storedLength]
  rw [add_kUnbuffered h.status h.state, hcompress]
  have hwritten : Written o version dict (calls ++ [.add record ctx])
      (b.writeEncoderData (BlobEncoder.encodeRecord (o.codec.compress dict) record)).1
      (out ++ [ctx.setHandle
        (b.writeEncoderData (BlobEncoder.encodeRecord (o.codec.compress dict) record)).2]) := by
    refine ⟨h.options, h.status, h.state, h.encoderDict, h.trained, h.untrained, ?_, ?_, ?_⟩
    · rw [writeEncoderData, h.file, BuilderCall.records_append, recordArea, recordArea,
        List.flatMap_append, ← List.append_assoc]
      simp [records, BuilderCall.record?]
    · rw [writeEncoderData, h.numEntries, BuilderCall.records_append, List.length_append]
      rfl
    · rw [writeEncoderData, h.out, BuilderCall.placed_append, hlen, h.numEntries, Nat.zero_add]
      rfl
  exact hwritten.extendRange record.key

/-- One more record on a buffered builder, which may become unbuffered by it. -/
theorem Waiting.add (h : Waiting o version calls b out) (hversion : o.Supports version)
    (hcalls : ∀ call ∈ calls, call.Tagged) {record : BlobRecord} {ctx : BlobRecordContext}
    (hcall : (BuilderCall.add record ctx).Tagged) :
    Waiting o version (calls ++ [.add record ctx]) (b.add record ctx).1
        (out ++ (b.add record ctx).2) ∨
      ∃ dict, Written o version dict (calls ++ [.add record ctx]) (b.add record ctx).1
        (out ++ (b.add record ctx).2) := by
  have hcalls' : ∀ call ∈ calls ++ [.add record ctx], call.Tagged := by
    intro call hmem
    rcases List.mem_append.mp hmem with hmem | hmem
    · exact hcalls call hmem
    · rw [List.mem_singleton.mp hmem]
      exact hcall
  have hwaits : Waiting o version (calls ++ [.add record ctx]) (b.sampled record ctx) out := by
    refine ⟨h.options, h.status, h.state, h.dictionary, h.file, h.numEntries, ?_, ?_, h.out⟩
    · rw [sampled, h.samples, BuilderCall.records_append, List.map_append]
      rfl
    · rw [sampled, h.contexts, List.map_append]
      rfl
  rw [add_kBuffered h.status h.state]
  split_ifs
  · obtain ⟨dict, hwritten⟩ := hwaits.enterUnbuffered hversion hcalls'
    exact Or.inr ⟨dict, hwritten.extendRange record.key⟩
  · rw [List.append_nil]
    exact Or.inl (hwaits.extendRange record.key)

theorem Waiting.addSmall (h : Waiting o version calls b out) (ctx : BlobRecordContext) :
    Waiting o version (calls ++ [.addSmall ctx]) (b.addSmall ctx) out := by
  refine ⟨h.options, h.status, h.state, h.dictionary, h.file, h.numEntries, ?_, ?_, h.out⟩
  · rw [BuilderCall.records_append]
    exact h.samples.trans (congrArg _ (List.append_nil _).symm)
  · rw [List.map_append]
    exact congrArg (· ++ [ctx]) h.contexts

/-! ## The key range -/

def Least (cmp : Bytes → Bytes → Ordering) (keys : List Bytes) (least : Bytes) : Prop :=
  least ∈ keys ∧ ∀ key ∈ keys, (cmp least key).isLE

theorem Least.extend {cmp : Bytes → Bytes → Ordering} [Std.TransCmp cmp] {keys : List Bytes}
    {old key : Bytes} (hkeys : [] ∉ keys) (hempty : keys = [] → old = [])
    (h : keys ≠ [] → Least cmp keys old) :
    Least cmp (keys ++ [key]) (if old.isEmpty || cmp key old == .lt then key else old) := by
  have hself : (cmp key key).isLE := by
    have heq : cmp key key = .eq := Std.ReflCmp.compare_self
    rw [heq]
    rfl
  have hswap : cmp old key = (cmp key old).swap := Std.OrientedCmp.eq_swap
  by_cases hnone : keys = []
  · rw [hempty hnone, hnone]
    refine ⟨List.mem_singleton.mpr rfl, fun k hk => ?_⟩
    rw [List.mem_singleton.mp hk]
    exact hself
  · obtain ⟨hmem, hle⟩ := h hnone
    have hold : old.isEmpty = false := by
      rw [List.isEmpty_eq_false_iff]
      rintro rfl
      exact hkeys hmem
    rw [hold, Bool.false_or]
    by_cases hlt : cmp key old = .lt
    · rw [hlt, if_pos (beq_self_eq_true _)]
      refine ⟨List.mem_append_right _ (List.mem_singleton.mpr rfl), fun k hk => ?_⟩
      rcases List.mem_append.mp hk with hk | hk
      · refine Std.TransCmp.isLE_trans ?_ (hle k hk)
        rw [hlt]
        rfl
      · rw [List.mem_singleton.mp hk]
        exact hself
    · rw [if_neg (by rwa [beq_iff_eq])]
      refine ⟨List.mem_append_left _ hmem, fun k hk => ?_⟩
      rcases List.mem_append.mp hk with hk | hk
      · exact hle k hk
      · rw [List.mem_singleton.mp hk, hswap]
        cases hcmp : cmp key old with
        | lt => exact absurd hcmp hlt
        | eq => rfl
        | gt => rfl

/-- The builder's range are the extremes of the keys, once there are keys. -/
structure Spans (cmp : Bytes → Bytes → Ordering) (keys : List Bytes) (b : BlobFileBuilder) : Prop where
  empty : keys = [] → b.smallestKey = [] ∧ b.largestKey = []
  smallest : keys ≠ [] → Least cmp keys b.smallestKey
  largest : keys ≠ [] → Least (fun k k' => cmp k' k) keys b.largestKey

theorem Spans.extendRange [Std.TransCmp o.comparator] {keys : List Bytes}
    (h : Spans o.comparator keys b) (hoptions : b.options = o) (hkeys : [] ∉ keys) (key : Bytes) :
    Spans o.comparator (keys ++ [key]) (b.extendRange key) := by
  have hgt : (o.comparator key b.largestKey == .gt) = (o.comparator b.largestKey key == .lt) := by
    have hswap : o.comparator key b.largestKey = (o.comparator b.largestKey key).swap :=
      Std.OrientedCmp.eq_swap
    rw [hswap]
    cases o.comparator b.largestKey key with
    | lt => rfl
    | eq => rfl
    | gt => rfl
  refine ⟨fun hnil => (by simp at hnil), fun _ => ?_, fun _ => ?_⟩
  · rw [BlobFileBuilder.extendRange, hoptions]
    exact Least.extend hkeys (fun hnil => (h.empty hnil).1) h.smallest
  · rw [BlobFileBuilder.extendRange, hoptions]
    simp only [hgt]
    exact @Least.extend (fun k k' => o.comparator k' k) _ _ _ _ hkeys
      (fun hnil => (h.empty hnil).2) h.largest

theorem Spans.congr {cmp : Bytes → Bytes → Ordering} {keys : List Bytes} {b b' : BlobFileBuilder}
    (h : Spans cmp keys b) (hsmallest : b'.smallestKey = b.smallestKey)
    (hlargest : b'.largestKey = b.largestKey) : Spans cmp keys b' := by
  refine ⟨?_, ?_, ?_⟩
  · rw [hsmallest, hlargest]
    exact h.empty
  · rw [hsmallest]
    exact h.smallest
  · rw [hlargest]
    exact h.largest

theorem flushSamples_frame (b : BlobFileBuilder) (samples : List Bytes)
    (contexts : List BlobRecordContext) :
    (b.flushSamples samples contexts).1.options = b.options ∧
      (b.flushSamples samples contexts).1.smallestKey = b.smallestKey ∧
      (b.flushSamples samples contexts).1.largestKey = b.largestKey := by
  induction samples generalizing b contexts with
  | nil => exact ⟨rfl, rfl, rfl⟩
  | cons sample samples ih =>
      rw [flushSamples]
      split
      · exact ⟨rfl, rfl, rfl⟩
      · exact ih _ _

theorem Spans.enterUnbuffered {cmp : Bytes → Bytes → Ordering} {keys : List Bytes}
    (h : Spans cmp keys b) : Spans cmp keys b.enterUnbuffered.1 := by
  obtain ⟨-, hsmallest, hlargest⟩ := flushSamples_frame { b with
    compressionDict := some (b.options.trainDictionary b.sampleRecords.flatten
      (b.sampleRecords.map (·.length)) b.options.maxDictBytes)
    encoderDict := b.options.trainDictionary b.sampleRecords.flatten
      (b.sampleRecords.map (·.length)) b.options.maxDictBytes } b.sampleRecords b.cachedContexts
  exact h.congr hsmallest hlargest

theorem Spans.add [Std.TransCmp o.comparator] {keys : List Bytes}
    (h : Spans o.comparator keys b) (hoptions : b.options = o) (hok : b.status = .ok)
    (hkeys : [] ∉ keys) (record : BlobRecord) (ctx : BlobRecordContext) :
    Spans o.comparator (keys ++ [record.key]) (b.add record ctx).1 := by
  cases hstate : b.builderState with
  | kBuffered =>
      have hsampled : Spans o.comparator keys (b.sampled record ctx) := h.congr rfl rfl
      rw [add_kBuffered hok hstate]
      split_ifs
      · refine hsampled.enterUnbuffered.extendRange ?_ hkeys record.key
        exact (flushSamples_frame _ _ _).1.trans hoptions
      · exact hsampled.extendRange hoptions hkeys record.key
  | kUnbuffered =>
      have hwrote : Spans o.comparator keys
          (b.writeEncoderData (BlobEncoder.encodeRecord b.compress record)).1 := h.congr rfl rfl
      rw [add_kUnbuffered hok hstate]
      exact hwrote.extendRange hoptions hkeys record.key

/-! ## Whole runs -/

/-- The builder after these calls, with the contexts it has handed out. -/
def afterCalls (o : BuilderOptions) (version : UInt32) (calls : List BuilderCall) :
    BlobFileBuilder × List BlobRecordContext :=
  calls.foldl BuilderCall.apply (new o version, [])

/-- Everything waits, or everything is written. -/
def Held (o : BuilderOptions) (version : UInt32) (calls : List BuilderCall)
    (s : BlobFileBuilder × List BlobRecordContext) : Prop :=
  Waiting o version calls s.1 s.2 ∨ ∃ dict, Written o version dict calls s.1 s.2

theorem held_new (hversion : o.Supports version) : Held o version [] (new o version, []) := by
  have hvalid : ¬(version ≠ BlobFileHeader.kVersion1 ∧ version ≠ BlobFileHeader.kVersion2) := by
    rintro ⟨hone, htwo⟩
    rcases hversion with h | ⟨h, -⟩
    · exact htwo h
    · exact hone h
  rw [new, if_neg hvalid]
  by_cases hdict : o.maxDictBytes > 0
  · exact Or.inl ⟨rfl, rfl, if_pos hdict, hdict, rfl, rfl, rfl, rfl, rfl⟩
  · refine Or.inr ⟨[], rfl, rfl, if_neg hdict, rfl, fun h => absurd h hdict, fun _ => rfl, ?_, rfl, rfl⟩
    exact (List.append_nil _).symm

theorem Held.options {s : BlobFileBuilder × List BlobRecordContext}
    (h : Held o version calls s) : s.1.options = o ∧ s.1.status = .ok := by
  rcases h with h | ⟨_, h⟩
  · exact ⟨h.options, h.status⟩
  · exact ⟨h.options, h.status⟩

theorem Held.apply {s : BlobFileBuilder × List BlobRecordContext} (h : Held o version calls s)
    (hversion : o.Supports version) (hcalls : ∀ call ∈ calls, call.Tagged) {call : BuilderCall}
    (hcall : call.Tagged) (hsmall : call.record? = none → s.1.builderState = .kBuffered) :
    Held o version (calls ++ [call]) (BuilderCall.apply s call) := by
  cases call with
  | add record ctx =>
      rcases h with hwait | ⟨dict, hwritten⟩
      · exact hwait.add hversion hcalls hcall
      · exact Or.inr ⟨dict, hwritten.add hversion record ctx⟩
  | addSmall ctx =>
      rcases h with hwait | ⟨dict, hwritten⟩
      · exact Or.inl (hwait.addSmall ctx)
      · cases hwritten.state.symm.trans (hsmall rfl)

structure Progress (o : BuilderOptions) (version : UInt32) (calls : List BuilderCall)
    (s : BlobFileBuilder × List BlobRecordContext) : Prop where
  spans : Spans o.comparator ((records calls).map (·.key)) s.1
  state : Waiting o version calls s.1 s.2 ∨ ∃ dict, Written o version dict calls s.1 s.2

theorem spans_new : Spans o.comparator [] (new o version) := by
  have hkeys : (new o version).smallestKey = [] ∧ (new o version).largestKey = [] := by
    by_cases hvalid : version ≠ BlobFileHeader.kVersion1 ∧ version ≠ BlobFileHeader.kVersion2
    · rw [new, if_pos hvalid]
      exact ⟨rfl, rfl⟩
    · rw [new, if_neg hvalid]
      exact ⟨rfl, rfl⟩
  exact ⟨fun _ => hkeys, fun hne => absurd rfl hne, fun hne => absurd rfl hne⟩

theorem Progress.apply [Std.TransCmp o.comparator] {s : BlobFileBuilder × List BlobRecordContext}
    (h : Progress o version calls s) (hversion : o.Supports version)
    (hcalls : ∀ call ∈ calls, call.WellFormed) {call : BuilderCall} (hcall : call.WellFormed)
    (hsmall : call.record? = none → s.1.builderState = .kBuffered) :
    Progress o version (calls ++ [call]) (BuilderCall.apply s call) := by
  obtain ⟨hoptions, hok⟩ := Held.options h.state
  refine ⟨?_, Held.apply h.state hversion (fun c hc => (hcalls c hc).tagged) hcall.tagged hsmall⟩
  cases call with
  | add record ctx =>
      have hkeys : [] ∉ (records calls).map (·.key) := by
        intro hmem
        obtain ⟨r, hr, hkey⟩ := List.mem_map.mp hmem
        obtain ⟨call, hmem, hrecord⟩ := List.mem_filterMap.mp hr
        cases call with
        | add record' ctx' =>
            cases hrecord
            exact (hcalls _ hmem).1 hkey
        | addSmall ctx' => cases hrecord
      rw [BuilderCall.records_append, List.map_append]
      exact h.spans.add hoptions hok hkeys record ctx
  | addSmall ctx =>
      rw [BuilderCall.records_append_addSmall]
      exact h.spans.congr rfl rfl

/-- Inline entries are only added while the builder is buffered. -/
def SmallWhileBuffered (o : BuilderOptions) (version : UInt32) (calls : List BuilderCall) : Prop :=
  ∀ pre ctx post, calls = pre ++ .addSmall ctx :: post →
    (afterCalls o version pre).1.builderState = .kBuffered

/-- What holds of the constructor and is kept by every call holds after all calls. -/
theorem afterCalls_induction {P : List BuilderCall → BlobFileBuilder × List BlobRecordContext → Prop}
    (hsmall : SmallWhileBuffered o version calls) (hnew : P [] (new o version, []))
    (hstep : ∀ pre call, (∀ c ∈ pre ++ [call], c ∈ calls) → P pre (afterCalls o version pre) →
      (call.record? = none → (afterCalls o version pre).1.builderState = .kBuffered) →
      P (pre ++ [call]) (BuilderCall.apply (afterCalls o version pre) call)) :
    P calls (afterCalls o version calls) := by
  induction calls using List.reverseRecOn with
  | nil => exact hnew
  | append_singleton pre call ih =>
      have hbefore : P pre (afterCalls o version pre) := by
        refine ih ?_ fun pre' call' hmem => hstep pre' call' fun c hc =>
          List.mem_append_left _ (hmem c hc)
        intro pre' ctx post hsplit
        refine hsmall pre' ctx (post ++ [call]) ?_
        rw [hsplit, List.append_assoc, List.cons_append]
      rw [afterCalls, List.foldl_append]
      refine hstep pre call (fun _ hc => hc) hbefore fun hnone => ?_
      cases call with
      | add record ctx => cases hnone
      | addSmall ctx => exact hsmall pre ctx [] rfl

theorem held_afterCalls (hversion : o.Supports version) (hcalls : ∀ call ∈ calls, call.Tagged)
    (hsmall : SmallWhileBuffered o version calls) :
    Held o version calls (afterCalls o version calls) := by
  refine afterCalls_induction hsmall (held_new hversion) fun pre call hmem h hstate => ?_
  exact h.apply hversion (fun c hc => hcalls c (hmem c (List.mem_append_left _ hc)))
    (hcalls call (hmem call (List.mem_append_right _ (List.mem_singleton.mpr rfl)))) hstate

/-- The samples of a builder that is still buffered are not enough to train on. -/
theorem sampled_lt_of_kBuffered (hversion : o.Supports version)
    (hcalls : ∀ call ∈ calls, call.Tagged) (hsmall : SmallWhileBuffered o version calls)
    (hstate : (afterCalls o version calls).1.builderState = .kBuffered) :
    ¬(o.zstdMaxTrainBytes > 0 ∧
      ((records calls).map fun r => r.encodeTo.length).sum ≥ o.zstdMaxTrainBytes) := by
  have hlen : (afterCalls o version calls).1.builderState = .kBuffered →
      (afterCalls o version calls).1.sampleStrLen =
        ((records calls).map fun r => r.encodeTo.length).sum ∧
      ¬(o.zstdMaxTrainBytes > 0 ∧
        (afterCalls o version calls).1.sampleStrLen ≥ o.zstdMaxTrainBytes) := by
    refine (afterCalls_induction (P := fun calls s => Held o version calls s ∧
      (s.1.builderState = .kBuffered →
        s.1.sampleStrLen = ((records calls).map fun r => r.encodeTo.length).sum ∧
        ¬(o.zstdMaxTrainBytes > 0 ∧ s.1.sampleStrLen ≥ o.zstdMaxTrainBytes))) hsmall
      ⟨held_new hversion, fun _ => ?_⟩ fun pre call hmem h hbuffered => ?_).2
    · have hzero : (new o version).sampleStrLen = 0 := by
        unfold new
        dsimp only
        split
        · rfl
        · rfl
      rw [hzero]
      exact ⟨rfl, by omega⟩
    · obtain ⟨hheld, hlen⟩ := h
      obtain ⟨hoptions, hok⟩ := hheld.options
      refine ⟨hheld.apply hversion (fun c hc => hcalls c (hmem c (List.mem_append_left _ hc)))
        (hcalls call (hmem call (List.mem_append_right _ (List.mem_singleton.mpr rfl)))) hbuffered, ?_⟩
      cases call with
      | addSmall ctx =>
          rw [BuilderCall.records_append_addSmall]
          exact hlen
      | add record ctx =>
          dsimp only [BuilderCall.apply]
          cases hbefore : (afterCalls o version pre).1.builderState with
          | kUnbuffered =>
              rw [add_kUnbuffered hok hbefore]
              intro hstate
              cases hbefore.symm.trans hstate
          | kBuffered =>
              obtain ⟨hsum, -⟩ := hlen hbefore
              rw [add_kBuffered hok hbefore, hoptions]
              split_ifs with htrain
              · intro hstate
                cases hstate
              · intro _
                refine ⟨?_, htrain⟩
                rw [BuilderCall.records_append, List.map_append, List.sum_append, ← hsum]
                rfl
  obtain ⟨hsum, hshort⟩ := hlen hstate
  rwa [hsum] at hshort

theorem progress_afterCalls [Std.TransCmp o.comparator] (hversion : o.Supports version)
    (hcalls : ∀ call ∈ calls, call.WellFormed) (hsmall : SmallWhileBuffered o version calls) :
    Progress o version calls (afterCalls o version calls) := by
  refine afterCalls_induction hsmall ⟨spans_new, held_new hversion⟩ fun pre call hmem h hstate => ?_
  exact h.apply hversion (fun c hc => hcalls c (hmem c (List.mem_append_left _ hc)))
    (hcalls call (hmem call (List.mem_append_right _ (List.mem_singleton.mpr rfl)))) hstate

/-! ## Finish -/

/-- What `Finish` does to an unbuffered builder. -/
theorem Written.finish (h : Written o version dict calls b out) :
    b.finish = ({ b with file := finishedFile o version dict (records calls) }, [], .ok) := by
  have hgo : ¬(!b.status.isOk) = true := by
    rw [h.status]
    exact nofun
  have hstate : ¬b.builderState = .kBuffered := by
    rw [h.state]
    exact nofun
  rw [BlobFileBuilder.finish, if_neg hgo, if_neg hstate]
  simp only [h.options, finishedFile, ending]
  by_cases hdict : o.maxDictBytes > 0
  · simp only [if_pos hdict, h.trained hdict, Option.getD_some, h.file]
  · simp only [if_neg hdict, h.file]

/-- A buffered builder enters the unbuffered state first. -/
theorem Waiting.finish (h : Waiting o version calls b out)
    (hwritten : Written o version dict calls b.enterUnbuffered.1 (out ++ b.enterUnbuffered.2)) :
    b.finish = ({ b.enterUnbuffered.1 with file := finishedFile o version dict (records calls) },
      b.enterUnbuffered.2, .ok) := by
  have hgo : ¬(!b.status.isOk) = true := by
    rw [h.status]
    exact nofun
  rw [BlobFileBuilder.finish, if_neg hgo, if_pos h.state]
  simp only [hwritten.options, finishedFile, ending]
  by_cases hdict : o.maxDictBytes > 0
  · simp only [if_pos hdict, hwritten.trained hdict, Option.getD_some, hwritten.file]
  · simp only [if_neg hdict, hwritten.file]

/-- The finished file, the contexts and the counter. -/
theorem buildFile_held (hversion : o.Supports version) (hcalls : ∀ call ∈ calls, call.Tagged)
    (hsmall : SmallWhileBuffered o version calls) :
    (o.maxDictBytes = 0 → (buildFile o version calls).1.encoderDict = []) ∧
    (buildFile o version calls).1.file =
      finishedFile o version (buildFile o version calls).1.encoderDict (records calls) ∧
    (buildFile o version calls).2 =
      placed (o.codec.compress (buildFile o version calls).1.encoderDict) (header o version).size 0
        calls ∧
    (buildFile o version calls).1.numEntries = (records calls).length := by
  have h := held_afterCalls hversion hcalls hsmall
  change Held o version calls (calls.foldl BuilderCall.apply (new o version, [])) at h
  rw [buildFile]
  generalize calls.foldl BuilderCall.apply (new o version, []) = s at h
  rcases h with hwait | ⟨dict, hwritten⟩
  · obtain ⟨dict, hwritten⟩ := hwait.enterUnbuffered hversion hcalls
    simp only [hwait.finish hwritten, hwritten.encoderDict]
    exact ⟨hwritten.untrained, trivial, hwritten.out, hwritten.numEntries⟩
  · simp only [hwritten.finish, hwritten.encoderDict, List.append_nil]
    exact ⟨hwritten.untrained, trivial, hwritten.out, hwritten.numEntries⟩

/-- The range of the finished builder. -/
theorem spans_buildFile [Std.TransCmp o.comparator] (hversion : o.Supports version)
    (hcalls : ∀ call ∈ calls, call.WellFormed) (hsmall : SmallWhileBuffered o version calls) :
    Spans o.comparator ((records calls).map (·.key)) (buildFile o version calls).1 := by
  have h := progress_afterCalls hversion hcalls hsmall
  change Progress o version calls (calls.foldl BuilderCall.apply (new o version, [])) at h
  rw [buildFile]
  generalize calls.foldl BuilderCall.apply (new o version, []) = s at h
  rcases h.state with hwait | ⟨dict, hwritten⟩
  · obtain ⟨dict, hwritten⟩ := hwait.enterUnbuffered hversion fun c hc => (hcalls c hc).tagged
    simp only [hwait.finish hwritten]
    exact h.spans.enterUnbuffered.congr rfl rfl
  · simp only [hwritten.finish]
    exact h.spans.congr rfl rfl

end BlobFileBuilder

/-! ## Reading the records back -/

/-- The records of the calls with the handles of the contexts that came back for them. -/
def blobItems (calls : List BuilderCall) (contexts : List BlobRecordContext) :
    List (BlobRecord × BlobHandle) :=
  (calls.zip contexts).filterMap fun p =>
    p.1.record?.map fun record => (record, p.2.newBlobIndex.blobHandle)

theorem blobItems_placed (compress : Bytes → Bytes × UInt8) (offset index : ℕ)
    (calls : List BuilderCall) :
    blobItems calls (placed compress offset index calls) =
      handles compress offset index (records calls) := by
  induction calls generalizing offset index with
  | nil => rfl
  | cons call calls ih =>
      cases call with
      | add record ctx => exact congrArg (_ :: ·) (ih _ _)
      | addSmall ctx => exact ih _ _

theorem mem_handles {compress : Bytes → Bytes × UInt8} {offset index : ℕ} {rs : List BlobRecord}
    {record : BlobRecord} {handle : BlobHandle}
    (hmem : (record, handle) ∈ handles compress offset index rs) :
    ∃ pre post, rs = pre ++ record :: post ∧
      handle.offset = UInt64.ofNat (offset + storedLength compress pre) ∧
      handle.size = UInt64.ofNat (BlobEncoder.encodeRecord compress record).length := by
  induction rs generalizing offset index with
  | nil => cases hmem
  | cons r rs ih =>
      rcases List.mem_cons.mp hmem with heq | hmem
      · obtain ⟨rfl, rfl⟩ := Prod.mk.inj heq
        exact ⟨[], rs, rfl, rfl, rfl⟩
      · obtain ⟨pre, post, rfl, hoffset, hsize⟩ := ih hmem
        refine ⟨r :: pre, post, rfl, ?_, hsize⟩
        rw [hoffset, storedLength_cons, Nat.add_assoc]

/-- Different records start at different places. -/
theorem eq_of_storedLength_eq {compress : Bytes → Bytes × UInt8} {pre post pre' post' : List BlobRecord}
    {r r' : BlobRecord} (hsplit : pre ++ r :: post = pre' ++ r' :: post')
    (hlen : storedLength compress pre = storedLength compress pre') : r = r' := by
  rcases List.append_eq_append_iff.mp hsplit with ⟨mid, rfl, hrest⟩ | ⟨mid, rfl, hrest⟩
  · cases mid with
    | nil => exact (List.cons.inj hrest).1
    | cons s mid =>
        rw [storedLength_append, storedLength_cons] at hlen
        have := BlobEncoder.encodeRecord_pos compress s
        omega
  · cases mid with
    | nil => exact (List.cons.inj hrest).1.symm
    | cons s mid =>
        rw [storedLength_append, storedLength_cons] at hlen
        have := BlobEncoder.encodeRecord_pos compress s
        omega

variable {o : BuilderOptions} {version : UInt32} {dict : Bytes} {rs : List BlobRecord}

/-- The offsets of the records fit. -/
theorem place_lt (hversion : o.Supports version)
    (hfit : (finishedFile o version dict rs).length < 2 ^ 64) {pre post : List BlobRecord}
    {r : BlobRecord} (hsplit : rs = pre ++ r :: post) :
    (BlobFileBuilder.header o version).size + storedLength (o.codec.compress dict) pre +
      (BlobEncoder.encodeRecord (o.codec.compress dict) r).length < 2 ^ 64 := by
  have hheader := BlobFileHeader.length_encodeTo hversion.header
  have harea : (BlobFileBuilder.header o version).size + storedLength (o.codec.compress dict) rs
      < 2 ^ 64 := by
    simp only [finishedFile, recordArea, List.length_append, hheader] at hfit
    rw [storedLength]
    omega
  rw [hsplit, storedLength_append, storedLength_cons] at harea
  omega

/-- A handle of a finished file points at its record. -/
theorem stored_finishedFile (hversion : o.Supports version)
    (hfit : (finishedFile o version dict rs).length < 2 ^ 64) {record : BlobRecord}
    {handle : BlobHandle} (hmem : (record, handle) ∈
      handles (o.codec.compress dict) (BlobFileBuilder.header o version).size 0 rs) :
    record ∈ rs ∧ (∃ rest, (finishedFile o version dict rs).drop handle.offset.toNat =
      BlobEncoder.encodeRecord (o.codec.compress dict) record ++ rest) ∧
    handle.size.toNat = (BlobEncoder.encodeRecord (o.codec.compress dict) record).length := by
  obtain ⟨pre, post, hsplit, hoffset, hsize⟩ := mem_handles hmem
  have hbound := place_lt hversion hfit hsplit
  have hat : handle.offset.toNat =
      (BlobFileBuilder.header o version).size + storedLength (o.codec.compress dict) pre := by
    rw [hoffset, UInt64.toNat_ofNat', Nat.mod_eq_of_lt (by omega)]
  refine ⟨hsplit ▸ List.mem_append_right _ List.mem_cons_self,
    ⟨post.flatMap (BlobEncoder.encodeRecord (o.codec.compress dict)) ++
      ((ending o (recordArea o version dict rs).length dict).1 ++
        (ending o (recordArea o version dict rs).length dict).2.encodeTo), ?_⟩, ?_⟩
  · rw [hat, finishedFile, recordArea, hsplit]
    simp only [List.flatMap_append, List.flatMap_cons, List.append_assoc]
    rw [← List.append_assoc, List.drop_left']
    rw [List.length_append, BlobFileHeader.length_encodeTo hversion.header, storedLength]
  · rw [hsize, UInt64.toNat_ofNat', Nat.mod_eq_of_lt (by omega)]

/-- Handles at one offset are handles of one record. -/
theorem apart_finishedFile (hversion : o.Supports version)
    (hfit : (finishedFile o version dict rs).length < 2 ^ 64) {record record' : BlobRecord}
    {handle handle' : BlobHandle} (hmem : (record, handle) ∈
      handles (o.codec.compress dict) (BlobFileBuilder.header o version).size 0 rs)
    (hmem' : (record', handle') ∈
      handles (o.codec.compress dict) (BlobFileBuilder.header o version).size 0 rs)
    (hsame : handle.offset = handle'.offset) : record = record' := by
  obtain ⟨pre, post, hsplit, hoffset, -⟩ := mem_handles hmem
  obtain ⟨pre', post', hsplit', hoffset', -⟩ := mem_handles hmem'
  have hbound := place_lt hversion hfit hsplit
  have hbound' := place_lt hversion hfit hsplit'
  have hnat := congrArg UInt64.toNat ((hoffset.symm.trans hsame).trans hoffset')
  rw [UInt64.toNat_ofNat', UInt64.toNat_ofNat', Nat.mod_eq_of_lt (by omega),
    Nat.mod_eq_of_lt (by omega)] at hnat
  exact eq_of_storedLength_eq (hsplit.symm.trans hsplit') (Nat.add_left_cancel hnat)

/-- A freshly opened reader serves the records of a finished file. -/
theorem serves_finishedFile (hversion : o.Supports version)
    (hfit : (finishedFile o version dict rs).length < 2 ^ 64)
    (hs : ∀ r ∈ rs, r.Storable (o.codec.compress dict) (o.codec.uncompress dict)) (blobCache : Bool) :
    CachedReader.Serves o.codec.uncompress
      (handles (o.codec.compress dict) (BlobFileBuilder.header o version).size 0 rs)
      ⟨⟨finishedFile o version dict rs, (ending o (recordArea o version dict rs).length dict).2⟩, dict,
        if blobCache then some fun _ => none else none⟩ := by
  refine ⟨?_, ?_, ?_, ?_⟩
  · intro record handle hmem
    obtain ⟨hrecord, -, -⟩ := stored_finishedFile hversion hfit hmem
    exact ⟨(hs record hrecord).key, (hs record hrecord).value⟩
  · intro record handle record' handle' hmem hmem' hsame
    exact apart_finishedFile hversion hfit hmem hmem' hsame
  · intro record handle hmem
    obtain ⟨hrecord, ⟨rest, hdrop⟩, hsize⟩ := stored_finishedFile hversion hfit hmem
    exact CachedReader.readBuffer_stored (hs record hrecord) hdrop hsize
  · intro record handle blob hmem hcached
    cases blobCache with
    | true => cases hcached
    | false => cases hcached

/-! ## The round trip -/

/-- The context that comes back for a call: only the handle of a blob is filled in. -/
def BuilderCall.Returns : BuilderCall → BlobRecordContext → Prop
  | .add _ ctx, ctx' => ∃ handle, ctx' = ctx.setHandle handle
  | .addSmall ctx, ctx' => ctx' = ctx

theorem BuilderCall.forall₂_returns (compress : Bytes → Bytes × UInt8) (offset index : ℕ)
    (calls : List BuilderCall) :
    List.Forall₂ BuilderCall.Returns calls (placed compress offset index calls) := by
  induction calls generalizing offset index with
  | nil => exact .nil
  | cons call calls ih =>
      cases call with
      | add record ctx => exact .cons ⟨_, rfl⟩ (ih _ _)
      | addSmall ctx => exact .cons rfl (ih _ _)

/-- What the file of a builder needs to be read back, whatever the keys are: the format's size limits
hold under the dictionary that the builder ends up with. -/
structure Packable (o : BuilderOptions) (version : UInt32) (calls : List BuilderCall) : Prop where
  supports : o.Supports version
  inverts : o.codec.Inverts
  tagged : ∀ call ∈ calls, call.Tagged
  small : BlobFileBuilder.SmallWhileBuffered o version calls
  sizes : ∀ r ∈ records calls, r.key.length < 2 ^ 32 ∧ r.value.length < 2 ^ 32 ∧
    (o.codec.compress (buildFile o version calls).1.encoderDict r.encodeTo).1.length < 2 ^ 32
  fits : (buildFile o version calls).1.file.length < 2 ^ 64

namespace Packable

variable {calls : List BuilderCall}

theorem storable (h : Packable o version calls) {r : BlobRecord} (hr : r ∈ records calls) :
    r.Storable (o.codec.compress (buildFile o version calls).1.encoderDict)
      (o.codec.uncompress (buildFile o version calls).1.encoderDict) := by
  obtain ⟨hk, hv, hpayload⟩ := h.sizes r hr
  exact ⟨h.inverts.restores _ _, hpayload, hk, hv⟩

theorem blobItems_eq (h : Packable o version calls) :
    blobItems calls (buildFile o version calls).2 =
      handles (o.codec.compress (buildFile o version calls).1.encoderDict)
        (BlobFileBuilder.header o version).size 0 (records calls) := by
  obtain ⟨-, -, hout, -⟩ := BlobFileBuilder.buildFile_held h.supports h.tagged h.small
  rw [hout, blobItems_placed]

theorem returns (h : Packable o version calls) :
    List.Forall₂ BuilderCall.Returns calls (buildFile o version calls).2 := by
  obtain ⟨-, -, hout, -⟩ := BlobFileBuilder.buildFile_held h.supports h.tagged h.small
  rw [hout]
  exact BuilderCall.forall₂_returns _ _ _ _

/-- A reader of the file returns the records, in any order of reads. -/
theorem reads (h : Packable o version calls) (blobCache : Bool) :
    ∃ reader, CachedReader.openFile (buildFile o version calls).1.file blobCache = .ok reader ∧
      ∀ events, (∀ event ∈ events,
          CachedReader.Reads (blobItems calls (buildFile o version calls).2) event) →
        ∀ record handle, (record, handle) ∈ blobItems calls (buildFile o version calls).2 →
          ((reader.run o.codec.uncompress events).get o.codec.uncompress handle).1 = .ok record := by
  obtain ⟨hempty, hfile, -, -⟩ := BlobFileBuilder.buildFile_held h.supports h.tagged h.small
  have hfit := h.fits
  rw [hfile] at hfit
  rw [h.blobItems_eq, hfile]
  refine ⟨_, openFile_finishedFile h.supports hempty hfit blobCache, ?_⟩
  intro events hevents record handle hmem
  exact (((serves_finishedFile h.supports hfit (fun r => h.storable) blobCache).run hevents).get
    hmem).1

end Packable

/-- What the callers and the environment of a builder promise: the format's size limits hold under
the dictionary that the builder ends up with. -/
structure Buildable (o : BuilderOptions) (version : UInt32) (calls : List BuilderCall) : Prop where
  supports : o.Supports version
  inverts : o.codec.Inverts
  wellFormed : ∀ call ∈ calls, call.WellFormed
  small : BlobFileBuilder.SmallWhileBuffered o version calls
  some : records calls ≠ []
  sizes : ∀ r ∈ records calls, r.key.length < 2 ^ 32 ∧ r.value.length < 2 ^ 32 ∧
    (o.codec.compress (buildFile o version calls).1.encoderDict r.encodeTo).1.length < 2 ^ 32
  fits : (buildFile o version calls).1.file.length < 2 ^ 64

/-- The builder, its readers and its iterators agree on the records. -/
structure RoundTrip (o : BuilderOptions) (version : UInt32) (calls : List BuilderCall) : Prop where
  contexts : List.Forall₂ BuilderCall.Returns calls (buildFile o version calls).2
  reads : ∀ blobCache, ∃ reader,
    CachedReader.openFile (buildFile o version calls).1.file blobCache = .ok reader ∧
    ∀ events, (∀ event ∈ events,
        CachedReader.Reads (blobItems calls (buildFile o version calls).2) event) →
      ∀ record handle, (record, handle) ∈ blobItems calls (buildFile o version calls).2 →
        ((reader.run o.codec.uncompress events).get o.codec.uncompress handle).1 = .ok record
  yields : ∀ fileNumber fileEntries : UInt64,
    (buildFile o version calls).1.numEntries ≤ fileEntries.toNat →
    (BlobFileIterator.new (buildFile o version calls).1.file fileNumber fileEntries).Yields
      o.codec.uncompress (blobItems calls (buildFile o version calls).2)
  items : (blobItems calls (buildFile o version calls).2).map (·.1) = records calls
  numEntries : (buildFile o version calls).1.numEntries = (records calls).length
  smallest : BlobFileBuilder.Least o.comparator ((records calls).map (·.key))
    (buildFile o version calls).1.smallestKey
  largest : BlobFileBuilder.Least (fun k k' => o.comparator k' k) ((records calls).map (·.key))
    (buildFile o version calls).1.largestKey

theorem map_fst_handles (compress : Bytes → Bytes × UInt8) (offset index : ℕ)
    (rs : List BlobRecord) : (handles compress offset index rs).map (·.1) = rs := by
  induction rs generalizing offset index with
  | nil => rfl
  | cons r rs ih => rw [handles, List.map_cons, ih]

theorem Buildable.packable {calls : List BuilderCall} (h : Buildable o version calls) :
    Packable o version calls :=
  ⟨h.supports, h.inverts, fun call hmem => (h.wellFormed call hmem).tagged, h.small, h.sizes, h.fits⟩

theorem buildFile_roundTrip {calls : List BuilderCall} [Std.TransCmp o.comparator]
    (h : Buildable o version calls) : RoundTrip o version calls := by
  have hp := h.packable
  obtain ⟨hempty, hfile, -, hentries⟩ := BlobFileBuilder.buildFile_held hp.supports hp.tagged hp.small
  have hspans := BlobFileBuilder.spans_buildFile h.supports h.wellFormed h.small
  have hkeys : (records calls).map (·.key) ≠ [] := by
    rw [ne_eq, List.map_eq_nil_iff]
    exact h.some
  have hfit := h.fits
  rw [hfile] at hfit
  refine ⟨hp.returns, hp.reads, ?_, ?_, hentries, hspans.smallest hkeys, hspans.largest hkeys⟩
  · intro fileNumber fileEntries hle
    rw [hp.blobItems_eq, hfile]
    exact yields_finishedFile h.supports hempty hfit (fun r => hp.storable) (hentries ▸ hle)
  · rw [hp.blobItems_eq, map_fst_handles]

/-- Options with a dictionary but no compression. Two short records are too few to train on, and
`ZSTD_TrainDictionary` then returns nothing. -/
def smallTrainOptions : BuilderOptions where
  codec := ⟨kNoCompression, fun _ _ => none, fun _ _ _ => none⟩
  maxDictBytes := 16
  zstdMaxTrainBytes := 6
  trainDictionary := fun _ _ _ => []
  comparator := compare

/-- The second record fills the samples, the third one is written at once. -/
def mixedCalls : List BuilderCall :=
  [.add ⟨[2], [20]⟩ { key := [2] }, .addSmall { key := [4], hasValue := true, value := [7] },
    .add ⟨[5], [50]⟩ { key := [5] }, .add ⟨[9], [90]⟩ { key := [9] }]

instance : Std.TransCmp smallTrainOptions.comparator :=
  inferInstanceAs (Std.TransCmp (compare : Bytes → Bytes → Ordering))

theorem mixedCalls_buildable : Buildable smallTrainOptions BlobFileHeader.kVersion2 mixedCalls where
  supports := Or.inl rfl
  inverts := fun dict input output h => (by cases h)
  wellFormed := by
    intro call hmem
    simp only [mixedCalls, List.mem_cons, List.not_mem_nil, or_false] at hmem
    rcases hmem with rfl | rfl | rfl | rfl
    · exact ⟨by decide, rfl⟩
    · rfl
    · exact ⟨by decide, rfl⟩
    · exact ⟨by decide, rfl⟩
  small := by
    intro pre ctx post hsplit
    match pre, hsplit with
    | [c], hsplit =>
        rw [← (List.cons.inj hsplit).1]
        rfl
    | [c, c', c''], hsplit => cases hsplit
    | c :: c' :: c'' :: c''' :: pre, hsplit => simp [mixedCalls] at hsplit
  some := by decide
  sizes := by decide +kernel
  fits := by decide +kernel

theorem mixedCalls_roundTrip :
    Buildable smallTrainOptions BlobFileHeader.kVersion2 mixedCalls ∧
      RoundTrip smallTrainOptions BlobFileHeader.kVersion2 mixedCalls :=
  ⟨mixedCalls_buildable, buildFile_roundTrip mixedCalls_buildable⟩

end AegonKV
