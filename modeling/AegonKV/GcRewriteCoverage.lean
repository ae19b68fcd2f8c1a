import AegonKV.GcRewrites
import Mathlib.Data.List.Lex

/-!
# Every live record is rewritten once

Two records of the inputs never lie at the same place, so a key that has been rewritten has no other
live record, and the shortcut over equal keys skips nothing. A builder that holds records back hands
their contexts out later, at the latest in `InstallOutputBlobFiles`; there a failed `Finish` goes
unnoticed as soon as it comes with a context.
-/

namespace AegonKV.GcRewrites
open LittleEndian AegonKV InternalKey BlobFileBuilder

namespace Job

variable (job : Job)

def records : List (UInt64 × BlobRec Bytes) :=
  job.inputs.flatMap fun input => input.records.map fun x => (input.fileNumber, x.1)

/-- The latest entry of the key is a blob index that names the record. -/
def RefersTo (key : Bytes) (x : UInt64 × BlobRec Bytes) : Prop :=
  ∃ entry other rest, job.getImpl key = .found entry true ∧
    BlobIndex.decodeFrom entry = .ok (other, rest) ∧ sameBlob (blobIndexOf x) other = true

/-- The record's bit in the bit map of its file is 0. -/
def Unset (x : UInt64 × BlobRec Bytes) : Prop :=
  (job.bitmaps x.1).getBit x.2.handle.index.toNat = .ok 0

def ReadsBack (files : List (UInt64 × Bytes)) (x : UInt64 × BlobRec Bytes) (index : BlobIndex) : Prop :=
  ∃ file, (index.fileNumber, file) ∈ files ∧ ∀ blobCache, ∃ reader,
    CachedReader.openFile file blobCache = .ok reader ∧
      (reader.get job.options.codec.uncompress index.blobHandle).1 = .ok ⟨x.2.key, x.2.value⟩

structure Carries (files : List (UInt64 × Bytes)) (x : UInt64 × BlobRec Bytes) (rewrite : Rewrite) :
    Prop where
  key : rewrite.key = x.2.key
  blobIndex : rewrite.blobIndex = blobIndexOf x
  inline : job.fallback = true → rewrite.batch = .put x.2.value
  moved : job.fallback = false →
    rewrite.batch = .putBlobIndex rewrite.newBlobIndex.encodeTo ∧
      job.ReadsBack files x rewrite.newBlobIndex

/-- The rewrites are those of the live records, one for each. -/
structure Covers (res : Installed) : Prop where
  referred : job.useBitmap = false → ∀ key, (∃ x ∈ job.records, job.RefersTo key x) →
    res.rewriteBatches.countP (·.key = key) = 1
  unreferred : job.useBitmap = false → ∀ key, (¬∃ x ∈ job.records, job.RefersTo key x) →
    res.rewriteBatches.countP (·.key = key) = 0
  unset : job.useBitmap = true → ∀ x ∈ job.records, job.Unset x →
    res.rewriteBatches.countP (·.blobIndex = blobIndexOf x) = 1
  set : job.useBitmap = true → ∀ x ∈ job.records, ¬job.Unset x →
    res.rewriteBatches.countP (·.blobIndex = blobIndexOf x) = 0
  carries : ∀ rewrite ∈ res.rewriteBatches, ∃ x ∈ job.records, job.Carries res.files x rewrite

/-- What the rest of the database promises: the inputs are different files that are read without
error, records of a file start at different offsets, an index stands in the LSM under the key of its
record, and sizes stay below the limits of the format. -/
structure WellFormed : Prop where
  clean : job.reads.Clean
  numbers : (job.inputs.map (·.fileNumber)).Nodup
  offsets : ∀ input ∈ job.inputs, (input.records.map fun x => x.1.handle.offset).Nodup
  ownKeys : ∀ key, ∀ x ∈ job.records, job.RefersTo key x → x.2.key = key
  inverts : job.options.codec.Inverts
  sizes : ∀ x ∈ job.records, x.2.key.length < 2 ^ 32 ∧ x.2.value.length < 2 ^ 32 ∧
    ∀ dict, (job.options.codec.compress dict
      (BlobRecord.encodeTo ⟨x.2.key, x.2.value⟩)).1.length < 2 ^ 32

/-- A job whose two functions return OK has rewritten the live records. -/
def RewritesLive [LinearOrder Bytes] : Prop :=
  ∀ st res, job.doRunGC = .ok st → job.installOutputBlobFiles st = .ok res →
    (∀ file ∈ res.files, file.2.length < 2 ^ 64) → job.Covers res

/-! ## Which records are kept -/

def keeps (x : UInt64 × BlobRec Bytes) : Bool :=
  match job.discardable x with
  | .ok false => true
  | _ => false

/-- The records that are kept fill the samples of a dictionary, so that no record waits until
`Finish`. -/
def Trains (xs : List (UInt64 × BlobRec Bytes)) : Prop :=
  job.options.zstdMaxTrainBytes > 0 ∧
    (xs.map fun x => (BlobRecord.encodeTo ⟨x.2.key, x.2.value⟩).length).sum ≥
      job.options.zstdMaxTrainBytes

/-- No failure of a write to the output file is followed by something else that assigns the status.
That can only happen with a dictionary: after a sample that is followed by another one, after a block,
and, if records wait until `Finish`, after everything that it writes. -/
def FailuresSeen : Prop :=
  job.fallback = true ∨ job.options.maxDictBytes = 0 ∨
    (∀ n, job.faults 0 .sample n = none ∧ job.faults 0 .block n = none) ∧
      (job.Trains (job.records.filter job.keeps) ∨ FaultyBuilder.EndWritten (job.faults 0))

variable {job} {x y : UInt64 × BlobRec Bytes}

theorem keeps_iff : job.keeps x = true ↔ job.discardable x = .ok false := by
  unfold keeps
  split
  · rename_i h
    exact ⟨fun _ => h, fun _ => rfl⟩
  · rename_i h
    exact ⟨fun hc => (by cases hc), fun hd => absurd hd h⟩

theorem keeps_bitmap (hb : job.useBitmap = true) : job.keeps x = true ↔ job.Unset x := by
  rw [keeps_iff, discardable, if_pos hb, validateByBitMap, Unset]
  cases (job.bitmaps x.1).getBit x.2.handle.index.toNat with
  | error s => exact ⟨fun h => (by cases h), fun h => (by cases h)⟩
  | ok n =>
      cases n with
      | zero => exact ⟨fun _ => rfl, fun _ => rfl⟩
      | succ n => exact ⟨fun h => (by cases h), fun h => (by cases h)⟩

theorem keeps_lsm (hb : job.useBitmap = false) :
    job.keeps x = true ↔ job.RefersTo x.2.key x := by
  rw [keeps_iff, discardable, if_neg (by rw [hb]; exact nofun), discardEntry, RefersTo]
  constructor
  · intro h
    split at h
    · cases h
    · cases h
    · cases h
    · rename_i entry hget
      split at h
      · cases h
      · rename_i other rest hdecode
        refine ⟨entry, other, rest, hget, hdecode, ?_⟩
        simpa [Except.mapError] using h
  · rintro ⟨entry, other, rest, hget, hdecode, hsame⟩
    rw [hget]
    simp only [hdecode, hsame]
    rfl

def place (x : UInt64 × BlobRec Bytes) : UInt64 × UInt64 := (x.1, x.2.handle.offset)

/-- A key refers to one place only. -/
theorem RefersTo.place_eq {key : Bytes} (hx : job.RefersTo key x) (hy : job.RefersTo key y) :
    place x = place y := by
  obtain ⟨entry, other, rest, hget, hdecode, hsame⟩ := hx
  obtain ⟨entry', other', rest', hget', hdecode', hsame'⟩ := hy
  obtain ⟨rfl, -⟩ := LsmEntry.found.inj (hget.symm.trans hget')
  obtain ⟨rfl, -⟩ := Prod.mk.inj (Except.ok.inj (hdecode.symm.trans hdecode'))
  simp only [sameBlob, blobIndexOf, Bool.and_eq_true, beq_iff_eq] at hsame hsame'
  exact Prod.ext (hsame.1.1.trans hsame'.1.1.symm) (hsame.1.2.trans hsame'.1.2.symm)

theorem WellFormed.places_nodup (h : job.WellFormed) : (job.records.map place).Nodup := by
  have hnum := h.numbers
  have hoff := h.offsets
  unfold records
  generalize job.inputs = inputs at hnum hoff
  induction inputs with
  | nil => exact List.nodup_nil
  | cons input inputs ih =>
      rw [List.map_cons, List.nodup_cons] at hnum
      rw [List.flatMap_cons, List.map_append]
      refine List.Nodup.append ?_ (ih hnum.2 fun i hi => hoff i (List.mem_cons_of_mem _ hi)) ?_
      · have := (hoff input List.mem_cons_self).map
          (f := fun offset => (input.fileNumber, offset)) fun a b hab => (Prod.mk.inj hab).2
        simpa [Function.comp_def, place] using this
      · intro p hp hq
        obtain ⟨x, hx, rfl⟩ := List.mem_map.mp hp
        obtain ⟨y, hy, hxy⟩ := List.mem_map.mp hq
        obtain ⟨_, -, rfl⟩ := List.mem_map.mp hx
        obtain ⟨other, hother, hy⟩ := List.mem_flatMap.mp hy
        obtain ⟨_, -, rfl⟩ := List.mem_map.mp hy
        refine hnum.1 (List.mem_map.mpr ⟨other, hother, ?_⟩)
        exact (Prod.mk.inj hxy).1

end Job

/-! ## Rewrites from contexts -/

/-- The rewrite that `BatchWriteNewIndices` makes of a context. -/
def rewriteOf (ctx : BlobRecordContext) : Rewrite :=
  let blobIndex : BlobIndex :=
    { fileNumber := ctx.newBlobIndex.fileNumber, blobHandle := ctx.newBlobIndex.blobHandle }
  ⟨ctx.key.take (ctx.key.length - kNumInternalBytes), ctx.originalBlobIndex, blobIndex,
    .putBlobIndex blobIndex.encodeTo⟩

def MadeFor (number : UInt64) (xs : List (UInt64 × BlobRec Bytes)) (ctx : BlobRecordContext) : Prop :=
  ∃ x ∈ xs, ∃ handle, ctx = (Job.recordContext number x).setHandle handle

variable {number : UInt64} {xs : List (UInt64 × BlobRec Bytes)}

theorem batchWriteNewIndices_eq {contexts : List BlobRecordContext}
    (h : ∀ ctx ∈ contexts, MadeFor number xs ctx) (s : Status) :
    batchWriteNewIndices contexts s = (contexts.map rewriteOf, if contexts = [] then s else .ok) := by
  induction contexts generalizing s with
  | nil => rfl
  | cons ctx contexts ih =>
      obtain ⟨x, -, handle, hctx⟩ := h ctx List.mem_cons_self
      have hkey : ctx.key = appendInternalKey ⟨x.2.key, 1, .kTypeValue⟩ := by
        rw [hctx]
        rfl
      have hparse : parseInternalKey ctx.key = .ok ⟨x.2.key, 1, .kTypeValue⟩ := by
        rw [hkey]
        exact parseInternalKey_appendInternalKey (show 1 ≤ kMaxSequenceNumber by decide)
      have huser : ctx.key.take (ctx.key.length - kNumInternalBytes) = x.2.key := by
        rw [hkey, appendInternalKey, List.length_append, length_leBytes, Nat.add_sub_cancel,
          List.take_left]
      rw [batchWriteNewIndices, hparse]
      simp only [ih fun c hc => h c (List.mem_cons_of_mem _ hc), List.map_cons, rewriteOf, huser,
        reduceCtorEq, if_false]
      split_ifs
      · rfl
      · rfl

/-- The call that puts a record into output file `number`. -/
def addCall (number : UInt64) (x : UInt64 × BlobRec Bytes) : BuilderCall :=
  .add ⟨x.2.key, x.2.value⟩ (Job.recordContext number x)

/-- The builder without failures after these records. -/
def written (job : Job) (number : UInt64) (xs : List (UInt64 × BlobRec Bytes)) :
    BlobFileBuilder × List BlobRecordContext :=
  afterCalls job.options BlobFileHeader.kVersion2 (xs.map (addCall number))

theorem tagged_addCalls (number : UInt64) (xs : List (UInt64 × BlobRec Bytes)) :
    ∀ call ∈ xs.map (addCall number), call.Tagged := by
  intro call hmem
  obtain ⟨x, -, rfl⟩ := List.mem_map.mp hmem
  rfl

theorem smallWhileBuffered_addCalls (o : BuilderOptions) (version : UInt32) (number : UInt64)
    (xs : List (UInt64 × BlobRec Bytes)) :
    SmallWhileBuffered o version (xs.map (addCall number)) := by
  intro pre ctx post hsplit
  have hmem : BuilderCall.addSmall ctx ∈ xs.map (addCall number) := by
    rw [hsplit]
    exact List.mem_append_right _ List.mem_cons_self
  obtain ⟨x, -, hx⟩ := List.mem_map.mp hmem
  cases hx

theorem held_written (job : Job) (number : UInt64) (xs : List (UInt64 × BlobRec Bytes)) :
    Held job.options BlobFileHeader.kVersion2 (xs.map (addCall number)) (written job number xs) :=
  held_afterCalls (Or.inl rfl) (tagged_addCalls number xs)
    (smallWhileBuffered_addCalls _ _ number xs)

theorem waitsForDict_written (job : Job) (number : UInt64) (xs : List (UInt64 × BlobRec Bytes)) :
    FaultyBuilder.WaitsForDict (written job number xs).1 := by
  intro hstate
  rcases held_written job number xs with h | ⟨dict, h⟩
  · rw [h.options]
    exact h.dictionary
  · cases h.state.symm.trans hstate

theorem exists_of_mem_right {α β : Type} {R : α → β → Prop} {l : List α} {l' : List β}
    (h : List.Forall₂ R l l') {b : β} (hmem : b ∈ l') : ∃ a ∈ l, R a b := by
  induction h with
  | nil => cases hmem
  | cons hab _ ih =>
      rcases List.mem_cons.mp hmem with rfl | hmem
      · exact ⟨_, List.mem_cons_self, hab⟩
      · obtain ⟨a, ha, hr⟩ := ih hmem
        exact ⟨a, List.mem_cons_of_mem _ ha, hr⟩

theorem Job.FailuresSeen.statusKept {job : Job} (h : job.FailuresSeen) (hmode : job.fallback = false) :
    FaultyBuilder.StatusKept job.options (job.faults 0) := by
  rcases h with hfallback | hzero | ⟨hnone, -⟩
  · cases hmode.symm.trans hfallback
  · exact Or.inl hzero
  · exact Or.inr hnone

/-- Where records wait until `Finish`, it writes all of its end. -/
theorem Job.FailuresSeen.endWritten {job : Job} (h : job.FailuresSeen) (hmode : job.fallback = false)
    (hperm : xs.Perm (job.records.filter job.keeps))
    (hstate : (written job number xs).1.builderState = .kBuffered) :
    FaultyBuilder.EndWritten (job.faults 0) := by
  rcases h with hfallback | hzero | ⟨-, htrains | hend⟩
  · cases hmode.symm.trans hfallback
  · have hdict := waitsForDict_written job number xs hstate
    rw [(held_written job number xs).options.1] at hdict
    omega
  · have hshort := sampled_lt_of_kBuffered (Or.inl rfl) (tagged_addCalls number xs)
      (smallWhileBuffered_addCalls job.options BlobFileHeader.kVersion2 number xs) hstate
    have hrecords : BuilderCall.records (xs.map (addCall number)) =
        xs.map fun x => ⟨x.2.key, x.2.value⟩ := by
      rw [BuilderCall.records, List.filterMap_map]
      exact congrFun List.filterMap_eq_map xs
    rw [hrecords, List.map_map, (hperm.map _).sum_nat] at hshort
    exact absurd htrains hshort
  · exact hend

theorem madeFor_of_returns {contexts : List BlobRecordContext}
    (h : List.Forall₂ BuilderCall.Returns (xs.map (addCall number)) contexts) :
    ∀ ctx ∈ contexts, MadeFor number xs ctx := by
  intro ctx hmem
  rw [List.forall₂_map_left_iff] at h
  obtain ⟨x, hx, handle, rfl⟩ := exists_of_mem_right h hmem
  exact ⟨x, hx, handle, rfl⟩

/-- All contexts that the builder has handed out. -/
theorem madeFor_written (job : Job) (number : UInt64) (xs : List (UInt64 × BlobRec Bytes)) :
    ∀ ctx ∈ (written job number xs).2, MadeFor number xs ctx := by
  rcases held_written job number xs with h | ⟨dict, h⟩
  · rw [h.out]
    exact nofun
  · rw [h.out]
    exact madeFor_of_returns (BuilderCall.forall₂_returns _ _ _ _)

/-- One more record. -/
theorem written_append (job : Job) (number : UInt64) (xs : List (UInt64 × BlobRec Bytes))
    (x : UInt64 × BlobRec Bytes) :
    written job number (xs ++ [x]) =
      (((written job number xs).1.add ⟨x.2.key, x.2.value⟩ (Job.recordContext number x)).1,
        (written job number xs).2 ++
          ((written job number xs).1.add ⟨x.2.key, x.2.value⟩ (Job.recordContext number x)).2) := by
  rw [written, List.map_append, afterCalls, List.foldl_append]
  rfl

/-! ## The output file -/

def inlineRewrite (x : UInt64 × BlobRec Bytes) : Rewrite :=
  ⟨x.2.key, blobIndexOf x, ⟨0, default, 0, default⟩, .put x.2.value⟩

inductive Rewritten (job : Job) (xs : List (UInt64 × BlobRec Bytes)) (st : State) : Prop
  | inline (hmode : job.fallback = true) (hnone : st.output = none)
      (hbatches : st.rewriteBatches = xs.map inlineRewrite)
  | idle (hmode : job.fallback = false) (hnone : st.output = none) (hempty : xs = [])
      (hbatches : st.rewriteBatches = [])
  | failed (hmode : job.fallback = false) (output : Output) (hsome : st.output = some output)
      (htarget : 0 < job.blobFileTargetSize) (hfailed : output.builder.Failed)
  | tracks (hmode : job.fallback = false) (output : Output) (hsome : st.output = some output)
      (htarget : 0 < job.blobFileTargetSize) (hnth : output.nth = 0)
      (htracks : output.builder.Tracks (written job output.fileNumber xs).1)
      (hbatches : st.rewriteBatches = (written job output.fileNumber xs).2.map rewriteOf)

/-- The part of the state that a rewrite leaves alone. -/
structure Frame (st st' : State) : Prop where
  lastKey : st'.lastKey = st.lastKey
  lastKeyIsFresh : st'.lastKeyIsFresh = st.lastKeyIsFresh
  fileSize : st'.fileSize = st.fileSize
  blobFileBuilders : st'.blobFileBuilders = st.blobFileBuilders

variable {job : Job} {st st' : State} {x : UInt64 × BlobRec Bytes}

theorem Rewritten.congr (h : Rewritten job xs st) (houtput : st'.output = st.output)
    (hbatches : st'.rewriteBatches = st.rewriteBatches) : Rewritten job xs st' := by
  cases h with
  | inline hmode hnone h => exact .inline hmode (houtput.trans hnone) (hbatches.trans h)
  | idle hmode hnone hempty h => exact .idle hmode (houtput.trans hnone) hempty (hbatches.trans h)
  | failed hmode output hsome htarget hfailed =>
      exact .failed hmode output (houtput.trans hsome) htarget hfailed
  | tracks hmode output hsome htarget hnth htracks h =>
      exact .tracks hmode output (houtput.trans hsome) htarget hnth htracks (hbatches.trans h)

/-- A record for an open output file. -/
theorem addToOutput_spec (hkept : FaultyBuilder.StatusKept job.options (job.faults 0))
    (hmode : job.fallback = false) (htarget : 0 < job.blobFileTargetSize) {output : Output}
    (hstate : output.builder.Failed ∨ output.nth = 0 ∧
      output.builder.Tracks (written job output.fileNumber xs).1 ∧
      st.rewriteBatches = (written job output.fileNumber xs).2.map rewriteOf)
    (hok : job.addToOutput st output x = .ok st') :
    Rewritten job (xs ++ [x]) st' ∧ Frame st st' := by
  unfold Job.addToOutput at hok
  rcases hstate with hfailed | ⟨hnth, htracks, hbatches⟩
  · rw [hfailed.add] at hok
    obtain rfl := Except.ok.inj hok
    exact ⟨.failed hmode _ rfl htarget hfailed, rfl, rfl, rfl, rfl⟩
  have hoptions := (held_written job output.fileNumber xs).options.1
  rw [hnth] at hok
  dsimp only at hok
  split_ifs at hok with hs
  obtain rfl := Except.ok.inj hok
  refine ⟨?_, rfl, rfl, rfl, rfl⟩
  rcases htracks.add (hoptions ▸ hkept) (waitsForDict_written job output.fileNumber xs)
    ⟨x.2.key, x.2.value⟩ (Job.recordContext output.fileNumber x) with ⟨hadd, hout⟩ | hfailed
  · have happend := written_append job output.fileNumber xs x
    have hmade : ∀ ctx ∈ (output.builder.add (job.faults 0) ⟨x.2.key, x.2.value⟩
        (Job.recordContext output.fileNumber x)).2, MadeFor output.fileNumber (xs ++ [x]) ctx := by
      intro ctx hctx
      refine madeFor_written job output.fileNumber (xs ++ [x]) ctx ?_
      rw [happend, ← hout]
      exact List.mem_append_right _ hctx
    refine .tracks hmode _ rfl htarget rfl ?_ ?_
    · rw [happend]
      exact hadd
    · rw [happend, batchWriteNewIndices_eq hmade, List.map_append, ← hbatches, hout]
  · exact .failed hmode _ rfl htarget hfailed

/-- A new output file. -/
theorem openOutput_spec (hnone : st.output = none)
    (hbatches : st.rewriteBatches = []) (hsize : st.fileSize = 0)
    (hbuilders : st.blobFileBuilders = []) (hok : job.openOutput st = .ok st') :
    Frame st st' ∧ 0 < job.blobFileTargetSize ∧ ∃ output, st'.output = some output ∧
      (output.builder.Failed ∨ output.nth = 0 ∧
        output.builder.Tracks (written job output.fileNumber []).1 ∧
        st'.rewriteBatches = (written job output.fileNumber []).2.map rewriteOf) := by
  have htarget : 0 < job.blobFileTargetSize := by
    by_contra hzero
    have hge : st.fileSize ≥ job.blobFileTargetSize := by omega
    rw [Job.openOutput, if_pos hge, hnone] at hok
    cases hok
  have hlt : ¬st.fileSize ≥ job.blobFileTargetSize := by omega
  rw [Job.openOutput, if_neg hlt] at hok
  cases hnew : job.newFile 0 with
  | error s =>
      simp [hbuilders, hnew, Except.mapError, bind, Except.bind] at hok
  | ok number =>
      simp only [hbuilders, List.length_nil, hnew, Except.mapError, bind, Except.bind, pure,
        Except.pure, Except.ok.injEq] at hok
      subst hok
      refine ⟨⟨rfl, rfl, hsize.symm, hbuilders.symm⟩, htarget, _, rfl, ?_⟩
      rcases FaultyBuilder.tracks_new (job.faults 0)
        (show job.options.Supports BlobFileHeader.kVersion2 from Or.inl rfl) with htracks | hfailed
      · exact Or.inr ⟨rfl, htracks, hbatches⟩
      · exact Or.inl hfailed

theorem rewriteEntry_spec (hkept : FaultyBuilder.StatusKept job.options (job.faults 0))
    (hmode : job.fallback = false) (hsize : st.fileSize = 0) (hbuilders : st.blobFileBuilders = [])
    (h : Rewritten job xs st) (hok : job.rewriteEntry st x = .ok st') :
    Rewritten job (xs ++ [x]) st' ∧ Frame st st' := by
  have hopened (output : Output) (hsome : st.output = some output)
      (htarget : 0 < job.blobFileTargetSize) :
      job.rewriteEntry st x = job.addToOutput st output x := by
    have hno : ¬(st.output.isNone = true ∨ st.fileSize ≥ job.blobFileTargetSize) := by
      rintro (hnone | hge)
      · rw [hsome] at hnone
        cases hnone
      · omega
    rw [Job.rewriteEntry, if_neg hno]
    simp only [bind, Except.bind, hsome]
  cases h with
  | inline hfallback _ _ => cases hmode.symm.trans hfallback
  | idle _ hnone hempty hbatches =>
      rw [Job.rewriteEntry, if_pos (Or.inl (by rw [hnone]; rfl))] at hok
      cases hopen : job.openOutput st with
      | error e =>
          rw [hopen] at hok
          cases hok
      | ok opened =>
          obtain ⟨hframe, htarget, output, hsome, hstate⟩ :=
            openOutput_spec hnone hbatches hsize hbuilders hopen
          simp only [hopen, bind, Except.bind, hsome] at hok
          subst hempty
          obtain ⟨hres, hframe'⟩ := addToOutput_spec hkept hmode htarget hstate hok
          exact ⟨hres, hframe'.lastKey.trans hframe.lastKey,
            hframe'.lastKeyIsFresh.trans hframe.lastKeyIsFresh,
            hframe'.fileSize.trans hframe.fileSize,
            hframe'.blobFileBuilders.trans hframe.blobFileBuilders⟩
  | failed _ output hsome htarget hfailed =>
      rw [hopened output hsome htarget] at hok
      exact addToOutput_spec hkept hmode htarget (Or.inl hfailed) hok
  | tracks _ output hsome htarget hnth htracks hbatches =>
      rw [hopened output hsome htarget] at hok
      exact addToOutput_spec hkept hmode htarget (Or.inr ⟨hnth, htracks, hbatches⟩) hok

/-! ## The loop -/

/-- A record is passed over when a live record of its key has just been seen. -/
def Job.skips (lastKey : Bytes) (fresh : Bool) (x : UInt64 × BlobRec Bytes) : Bool :=
  !lastKey.isEmpty && x.2.key == lastKey && fresh

theorem iteration_skips (hskip : Job.skips st.lastKey st.lastKeyIsFresh x = true) :
    job.iteration st x = .ok st := by
  rw [Job.iteration]
  exact if_pos hskip

/-- An iteration on a record that is looked at. -/
theorem iteration_looks (hskip : Job.skips st.lastKey st.lastKeyIsFresh x = false) :
    job.iteration st x = (job.discardable x).bind fun discard =>
      if discard then .ok { st with lastKey := x.2.key, lastKeyIsFresh := false }
      else if job.fallback then
        .ok { st with
          lastKey := x.2.key
          lastKeyIsFresh := !job.useBitmap
          rewriteBatches := st.rewriteBatches ++ [inlineRewrite x] }
      else job.rewriteEntry { st with lastKey := x.2.key, lastKeyIsFresh := !job.useBitmap } x := by
  have hlook : ¬(!st.lastKey.isEmpty && x.2.key == st.lastKey && st.lastKeyIsFresh) = true := by
    rw [← Bool.not_eq_true] at hskip
    exact hskip
  -- a key that is seen again and looked at again is not fresh
  have hlast : (if (!st.lastKey.isEmpty && x.2.key == st.lastKey) = true then st
      else { st with lastKey := x.2.key, lastKeyIsFresh := false }) =
      { st with lastKey := x.2.key, lastKeyIsFresh := false } := by
    split_ifs with hsame
    · have hkey : x.2.key = st.lastKey := by
        simp only [Bool.and_eq_true, beq_iff_eq] at hsame
        exact hsame.2
      have hstale : st.lastKeyIsFresh = false := by
        simpa [hsame] using hlook
      rw [hkey, ← hstale]
    · rfl
  have hfresh : (if job.useBitmap = true then
      { st with lastKey := x.2.key, lastKeyIsFresh := false }
      else { st with lastKey := x.2.key, lastKeyIsFresh := true }) =
      { st with lastKey := x.2.key, lastKeyIsFresh := !job.useBitmap } := by
    cases job.useBitmap with
    | false => rfl
    | true => rfl
  rw [Job.iteration]
  dsimp only
  rw [if_neg hlook, hlast, hfresh]
  rfl

/-- What one iteration can do: skip a record of a fresh key, discard the record or rewrite it. -/
theorem iteration_cases (hok : job.iteration st x = .ok st') :
    (st.lastKeyIsFresh = true ∧ x.2.key = st.lastKey ∧ st' = st) ∨
    (job.keeps x = false ∧ st' = { st with lastKey := x.2.key, lastKeyIsFresh := false }) ∨
    (job.keeps x = true ∧ job.fallback = true ∧
      st' = { st with
        lastKey := x.2.key
        lastKeyIsFresh := !job.useBitmap
        rewriteBatches := st.rewriteBatches ++ [inlineRewrite x] }) ∨
    (job.keeps x = true ∧ job.fallback = false ∧
      job.rewriteEntry { st with lastKey := x.2.key, lastKeyIsFresh := !job.useBitmap } x = .ok st') := by
  cases hskip : Job.skips st.lastKey st.lastKeyIsFresh x with
  | true =>
      obtain rfl := Except.ok.inj ((iteration_skips hskip).symm.trans hok)
      simp only [Job.skips, Bool.and_eq_true, beq_iff_eq] at hskip
      exact Or.inl ⟨hskip.2, hskip.1.2, rfl⟩
  | false =>
      refine Or.inr ?_
      rw [iteration_looks hskip] at hok
      cases hdiscard : job.discardable x with
      | error e =>
          rw [hdiscard] at hok
          cases hok
      | ok discard =>
          simp only [hdiscard, Except.bind] at hok
          cases discard with
          | true =>
              have hkeeps : job.keeps x = false := by
                simp only [Job.keeps, hdiscard]
              rw [if_pos rfl] at hok
              exact Or.inl ⟨hkeeps, (Except.ok.inj hok).symm⟩
          | false =>
              have hkeeps : job.keeps x = true := Job.keeps_iff.mpr hdiscard
              rw [if_neg (by exact nofun)] at hok
              split_ifs at hok with hmode
              · exact Or.inr (Or.inl ⟨hkeeps, hmode, (Except.ok.inj hok).symm⟩)
              · exact Or.inr (Or.inr ⟨hkeeps, by simpa using hmode, hok⟩)

structure Inv (job : Job) (seen : List (UInt64 × BlobRec Bytes)) (st : State) : Prop where
  fresh : st.lastKeyIsFresh = true →
    job.useBitmap = false ∧ ∃ y ∈ seen, y.2.key = st.lastKey ∧ job.keeps y = true
  fileSize : st.fileSize = 0
  builders : st.blobFileBuilders = []
  rewritten : Rewritten job (seen.filter job.keeps) st

variable {seen : List (UInt64 × BlobRec Bytes)}

theorem inv_nil (job : Job) : Inv job [] {} := by
  refine ⟨nofun, rfl, rfl, ?_⟩
  cases hmode : job.fallback with
  | false => exact .idle hmode rfl rfl rfl
  | true => exact .inline hmode rfl rfl

/-- The inputs of a job as the loop sees them: no record lies where an earlier one does. -/
theorem Inv.iteration (h : Inv job seen st) (hseen : job.FailuresSeen)
    (hplace : Job.place x ∉ seen.map Job.place) (hok : job.iteration st x = .ok st') :
    Inv job (seen ++ [x]) st' := by
  have hfilter : (seen ++ [x]).filter job.keeps =
      seen.filter job.keeps ++ if job.keeps x = true then [x] else [] := by
    rw [List.filter_append, List.filter_singleton]
    cases job.keeps x with
    | false => rfl
    | true => rfl
  rcases iteration_cases hok with ⟨hfresh, hkey, rfl⟩ | ⟨hdrop, rfl⟩ | ⟨hkeep, hmode, rfl⟩ |
    ⟨hkeep, hmode, hrewrite⟩
  · -- the key has a live record already, and two live records of a key lie at the same place
    obtain ⟨hb, y, hy, hykey, hylive⟩ := h.fresh hfresh
    have hdrop : job.keeps x = false := by
      by_contra hlive
      have hx := (Job.keeps_lsm hb).mp (by simpa using hlive)
      have hy' := (Job.keeps_lsm hb).mp hylive
      rw [hkey, ← hykey] at hx
      exact hplace (List.mem_map.mpr ⟨y, hy, hy'.place_eq hx⟩)
    refine ⟨fun _ => ⟨hb, y, List.mem_append_left _ hy, hykey, hylive⟩, h.fileSize, h.builders, ?_⟩
    rw [hfilter, if_neg (by rw [hdrop]; exact nofun), List.append_nil]
    exact h.rewritten
  · refine ⟨nofun, h.fileSize, h.builders, ?_⟩
    rw [hfilter, if_neg (by rw [hdrop]; exact nofun), List.append_nil]
    exact h.rewritten.congr rfl rfl
  · refine ⟨?_, h.fileSize, h.builders, ?_⟩
    · intro hfresh
      exact ⟨by simpa using hfresh, x, List.mem_append_right _ (List.mem_singleton.mpr rfl), rfl, hkeep⟩
    · rw [hfilter, if_pos hkeep]
      cases h.rewritten with
      | inline _ hnone hbatches =>
          refine .inline hmode hnone ?_
          rw [hbatches, List.map_append]
          rfl
      | idle hno _ _ _ => cases hno.symm.trans hmode
      | failed hno _ _ _ _ => cases hno.symm.trans hmode
      | tracks hno _ _ _ _ _ _ => cases hno.symm.trans hmode
  · have hbefore : Rewritten job (seen.filter job.keeps)
        { st with lastKey := x.2.key, lastKeyIsFresh := !job.useBitmap } :=
      h.rewritten.congr rfl rfl
    obtain ⟨hres, hframe⟩ := rewriteEntry_spec (hseen.statusKept hmode) hmode (by exact h.fileSize)
      (by exact h.builders) hbefore hrewrite
    refine ⟨?_, hframe.fileSize.trans h.fileSize, hframe.blobFileBuilders.trans h.builders, ?_⟩
    · rw [hframe.lastKey, hframe.lastKeyIsFresh]
      intro hfresh
      exact ⟨by simpa using hfresh, x, List.mem_append_right _ (List.mem_singleton.mpr rfl), rfl, hkeep⟩
    · rw [hfilter, if_pos hkeep]
      exact hres

theorem Inv.foldlM {rest : List (UInt64 × BlobRec Bytes)} (h : Inv job seen st)
    (hseen : job.FailuresSeen) (hnodup : ((seen ++ rest).map Job.place).Nodup)
    (hok : rest.foldlM job.iteration st = .ok st') : Inv job (seen ++ rest) st' := by
  induction rest generalizing seen st with
  | nil =>
      obtain rfl := Except.ok.inj hok
      rwa [List.append_nil]
  | cons x rest ih =>
      have hsplit : seen ++ x :: rest = seen ++ [x] ++ rest := by simp
      have hplace : Job.place x ∉ seen.map Job.place := by
        rw [List.map_append, List.map_cons] at hnodup
        exact fun hmem => (List.nodup_append'.mp hnodup).2.2 hmem List.mem_cons_self
      rw [List.foldlM_cons] at hok
      cases hstep : job.iteration st x with
      | error e =>
          rw [hstep] at hok
          cases hok
      | ok next =>
          rw [hstep] at hok
          rw [hsplit] at hnodup ⊢
          exact ih (h.iteration hseen hplace hstep) hnodup hok

/-- The loop takes the records that the merge iterator yields, one by one. -/
theorem loop_visits [LinearOrder Bytes] {fuel : ℕ} {m m' : GcJob.BlobFileMergeIterator Bytes}
    (h : m.Merging) (hfuel : m.pending.length < fuel) (hok : job.loop fuel m st = .ok (m', st')) :
    ∃ visited : List (UInt64 × BlobRec Bytes), visited.Perm m.pending ∧ visited.foldlM job.iteration st = .ok st' := by
  induction fuel generalizing m st with
  | zero => omega
  | succ fuel ih =>
      cases hcur : m.current with
      | none =>
          have hnil : m.pending = [] := by
            simp [GcJob.BlobFileMergeIterator.pending, GcJob.BlobFileMergeIterator.pool, hcur,
              h.atEnd hcur]
          simp only [Job.loop, hcur] at hok
          obtain ⟨-, rfl⟩ := Prod.mk.inj (Except.ok.inj hok)
          exact ⟨[], by rw [hnil], rfl⟩
      | some it =>
          obtain ⟨hnext, r, hr, hperm⟩ := GcJob.next_spec h hcur
          have hlen : m.pending.length = m.next.pending.length + 1 := by
            simpa using hperm.length_eq
          simp only [Job.loop, hcur, GcJob.Job.isValid_merging h hcur, if_true, hr,
            Option.toList_some, List.map_cons, List.map_nil, List.foldlM_cons, List.foldlM_nil] at hok
          cases hstep : job.iteration st (it.fileNumber, r) with
          | error e =>
              rw [hstep] at hok
              cases hok
          | ok next =>
              rw [hstep] at hok
              obtain ⟨visited, hvisited, hfold⟩ := ih hnext (by omega) hok
              refine ⟨(it.fileNumber, r) :: visited, (hvisited.cons _).trans hperm.symm, ?_⟩
              rw [List.foldlM_cons, hstep]
              exact hfold

/-- A `DoRunGC` that returns OK has run the loop over all records. -/
theorem doRunGC_visits [LinearOrder Bytes] (hclean : job.reads.Clean) (hok : job.doRunGC = .ok st) :
    ∃ (visited : List (UInt64 × BlobRec Bytes)) (last : State), visited.Perm job.records ∧
      visited.foldlM job.iteration {} = .ok last ∧
      st = { last with
        output := none
        blobFileBuilders := last.blobFileBuilders ++ last.output.toList } := by
  unfold Job.doRunGC at hok
  rcases job.reads.buildIterator_spec with ⟨-, hbad⟩ | ⟨-, s, hs, hbuild⟩
  · simp only [hbad] at hok
    cases hok
  simp only [hbuild, hs] at hok
  rw [if_neg (by exact nofun)] at hok
  rcases job.reads.seekToFirst_spec with ⟨-, hcur, hstatus⟩ | ⟨-, hm, hperm⟩
  · have hloop : job.loop job.reads.fuel job.reads.iterator.seekToFirst {} =
        .ok (job.reads.iterator.seekToFirst, {}) := by
      simp only [GcJob.Job.fuel, Job.loop, hcur]
    have hget : job.reads.iterator.seekToFirst.getStatus.isOk = false := by
      simpa only [GcJob.BlobFileMergeIterator.getStatus, hcur] using hstatus
    simp only [hloop, hget] at hok
    cases hok
  · cases hloop : job.loop job.reads.fuel job.reads.iterator.seekToFirst {} with
    | error e =>
        simp only [hloop] at hok
        cases hok
    | ok res =>
        obtain ⟨m, last⟩ := res
        simp only [hloop] at hok
        split_ifs at hok
        obtain ⟨visited, hvisited, hfold⟩ := loop_visits hm
          (hperm.length_eq ▸ job.reads.yields_length_lt_fuel) hloop
        refine ⟨visited, last, ?_, hfold, (Except.ok.inj hok).symm⟩
        exact (hvisited.trans hperm).trans (List.Perm.of_eq hclean.yields)

/-! ## Installing the outputs -/

inductive InstalledFor (job : Job) (xs : List (UInt64 × BlobRec Bytes)) (res : Job.Installed) : Prop
  | inline (hmode : job.fallback = true) (hbatches : res.rewriteBatches = xs.map inlineRewrite)
  | idle (hmode : job.fallback = false) (hempty : xs = []) (hbatches : res.rewriteBatches = [])
  | moved (hmode : job.fallback = false) (number : UInt64)
      (hbatches : res.rewriteBatches =
        (buildFile job.options BlobFileHeader.kVersion2 (xs.map (addCall number))).2.map rewriteOf)
      (hfiles : res.files = [(number,
        (buildFile job.options BlobFileHeader.kVersion2 (xs.map (addCall number))).1.file)])

theorem installOutputBlobFiles_spec {last : State} {res : Job.Installed}
    (hseen : job.FailuresSeen) (hperm : xs.Perm (job.records.filter job.keeps))
    (h : Rewritten job xs last) (hbuilders : last.blobFileBuilders = [])
    (hok : job.installOutputBlobFiles { last with
      output := none
      blobFileBuilders := last.blobFileBuilders ++ last.output.toList } = .ok res) :
    InstalledFor job xs res := by
  unfold Job.installOutputBlobFiles at hok
  rw [hbuilders, List.nil_append] at hok
  cases h with
  | inline hmode hnone hbatches =>
      simp only [hnone, Option.toList_none, Job.finishOutputs, List.append_nil] at hok
      split_ifs at hok
      obtain rfl := Except.ok.inj hok
      exact .inline hmode hbatches
  | idle hmode hnone hempty hbatches =>
      simp only [hnone, Option.toList_none, Job.finishOutputs, List.append_nil] at hok
      split_ifs at hok
      obtain rfl := Except.ok.inj hok
      exact .idle hmode hempty hbatches
  | failed hmode output hsome htarget hfailed =>
      simp only [hsome, Option.toList_some, Job.finishOutputs, hfailed.finish,
        batchWriteNewIndices] at hok
      rw [if_neg (by rw [hfailed]; exact nofun)] at hok
      cases hok
  | tracks hmode output hsome htarget hnth htracks hbatches =>
      have hoptions := (held_written job output.fileNumber xs).options.1
      simp only [hsome, Option.toList_some, Job.finishOutputs, hnth] at hok
      rcases htracks.finish (hoptions ▸ hseen.statusKept hmode)
        (waitsForDict_written job output.fileNumber xs) (hseen.endWritten hmode hperm) with
        ⟨hs, hfile, hout⟩ | ⟨hs, hout⟩
      · have hreturns : List.Forall₂ BuilderCall.Returns (xs.map (addCall output.fileNumber))
            (buildFile job.options BlobFileHeader.kVersion2 (xs.map (addCall output.fileNumber))).2 := by
          obtain ⟨-, -, hplaced, -⟩ := buildFile_held (o := job.options) (Or.inl rfl)
            (tagged_addCalls output.fileNumber xs)
            (smallWhileBuffered_addCalls job.options BlobFileHeader.kVersion2 output.fileNumber xs)
          rw [hplaced]
          exact BuilderCall.forall₂_returns _ _ _ _
        have hmade : ∀ ctx ∈ (output.builder.finish (job.faults 0)).2.1,
            MadeFor output.fileNumber xs ctx := by
          intro ctx hctx
          refine madeFor_of_returns hreturns ctx (List.mem_append_right _ ?_)
          rw [hout] at hctx
          exact hctx
        rw [batchWriteNewIndices_eq hmade] at hok
        have hstatus : (if (output.builder.finish (job.faults 0)).2.1 = [] then
            (output.builder.finish (job.faults 0)).2.2 else Status.ok).isOk = true := by
          split_ifs
          · exact hs
          · rfl
        rw [if_pos hstatus] at hok
        dsimp only at hok
        split_ifs at hok
        obtain rfl := Except.ok.inj hok
        refine .moved hmode output.fileNumber ?_ ?_
        · rw [hbatches, hout, List.append_nil, ← List.map_append]
          rfl
        · rw [hfile]
          rfl
      · rw [hout, batchWriteNewIndices] at hok
        dsimp only at hok
        rw [if_neg (by rw [hs]; exact nofun)] at hok
        cases hok

/-- Every record comes back with a handle of the file. -/
theorem forall₂_blobItems {contexts : List BlobRecordContext}
    (h : List.Forall₂ BuilderCall.Returns (xs.map (addCall number)) contexts) :
    List.Forall₂ (fun x ctx => ∃ handle, ctx = (Job.recordContext number x).setHandle handle ∧
      (⟨x.2.key, x.2.value⟩, handle) ∈ blobItems (xs.map (addCall number)) contexts) xs contexts := by
  induction xs generalizing contexts with
  | nil =>
      cases h
      exact .nil
  | cons x xs ih =>
      obtain ⟨ctx, rest, ⟨handle, hctx⟩, hrest, rfl⟩ := List.forall₂_cons_left_iff.mp h
      have hitems : blobItems ((x :: xs).map (addCall number)) (ctx :: rest) =
          (⟨x.2.key, x.2.value⟩, handle) :: blobItems (xs.map (addCall number)) rest := by
        rw [hctx]
        rfl
      rw [hitems]
      refine .cons ⟨handle, hctx, List.mem_cons_self⟩ ?_
      refine (ih hrest).imp fun y c => ?_
      rintro ⟨handle', hc, hmem⟩
      exact ⟨handle', hc, List.mem_cons_of_mem _ hmem⟩

theorem packable_addCalls (hjob : job.WellFormed) (hxs : ∀ x ∈ xs, x ∈ job.records)
    (hfits : (buildFile job.options BlobFileHeader.kVersion2
      (xs.map (addCall number))).1.file.length < 2 ^ 64) :
    Packable job.options BlobFileHeader.kVersion2 (xs.map (addCall number)) := by
  refine ⟨Or.inl rfl, hjob.inverts, tagged_addCalls number xs,
    smallWhileBuffered_addCalls _ _ number xs, ?_, hfits⟩
  intro r hr
  obtain ⟨call, hcall, hrecord⟩ := List.mem_filterMap.mp hr
  obtain ⟨x, hx, rfl⟩ := List.mem_map.mp hcall
  obtain rfl := Option.some.inj hrecord
  obtain ⟨hkey, hvalue, hpayload⟩ := hjob.sizes x (hxs x hx)
  exact ⟨hkey, hvalue, hpayload _⟩

/-- The rewrites of a job are those of the records it keeps. -/
theorem forall₂_carries {res : Job.Installed} (hjob : job.WellFormed)
    (hxs : ∀ x ∈ xs, x ∈ job.records) (hfits : ∀ file ∈ res.files, file.2.length < 2 ^ 64)
    (h : InstalledFor job xs res) :
    List.Forall₂ (job.Carries res.files) xs res.rewriteBatches := by
  cases h with
  | inline hmode hbatches =>
      rw [hbatches, List.forall₂_map_right_iff, List.forall₂_same]
      intro x _
      exact ⟨rfl, rfl, fun _ => rfl, fun hno => (by cases hno.symm.trans hmode)⟩
  | idle hmode hempty hbatches =>
      rw [hempty, hbatches]
      exact .nil
  | moved hmode number hbatches hfiles =>
      have hfile : (number, (buildFile job.options BlobFileHeader.kVersion2
          (xs.map (addCall number))).1.file) ∈ res.files := by
        rw [hfiles]
        exact List.mem_singleton.mpr rfl
      have hpack := packable_addCalls hjob hxs (hfits _ hfile)
      rw [hbatches, List.forall₂_map_right_iff]
      refine (forall₂_blobItems hpack.returns).imp fun x ctx => ?_
      rintro ⟨handle, rfl, hmem⟩
      have hkey : (rewriteOf ((Job.recordContext number x).setHandle handle)).key = x.2.key := by
        change (appendInternalKey ⟨x.2.key, 1, .kTypeValue⟩).take
          ((appendInternalKey ⟨x.2.key, 1, .kTypeValue⟩).length - kNumInternalBytes) = x.2.key
        rw [appendInternalKey, List.length_append, length_leBytes, Nat.add_sub_cancel, List.take_left]
      have hback : job.ReadsBack res.files x
          (rewriteOf ((Job.recordContext number x).setHandle handle)).newBlobIndex := by
        refine ⟨_, hfile, fun blobCache => ?_⟩
        obtain ⟨reader, hopen, hread⟩ := hpack.reads blobCache
        exact ⟨reader, hopen, hread [] (fun _ hh => (by cases hh)) _ _ hmem⟩
      exact ⟨hkey, rfl, fun hno => (by cases hno.symm.trans hmode), fun _ => ⟨rfl, hback⟩⟩

/-! ## Counting -/

theorem countP_of_forall₂ {α β : Type} {R : α → β → Prop} {l : List α} {l' : List β}
    (h : List.Forall₂ R l l') {p : α → Bool} {q : β → Bool} (hpq : ∀ a b, R a b → p a = q b) :
    l'.countP q = l.countP p := by
  induction h with
  | nil => rfl
  | cons hab _ ih => rw [List.countP_cons, List.countP_cons, ih, hpq _ _ hab]

theorem countP_eq_one {α β : Type} {l : List α} {f : α → β} (hnodup : (l.map f).Nodup)
    {p : α → Bool} {a : α} (ha : a ∈ l) (hp : p a = true)
    (huniq : ∀ b ∈ l, p b = true → f b = f a) : l.countP p = 1 := by
  induction l with
  | nil => cases ha
  | cons c l ih =>
      rw [List.map_cons, List.nodup_cons] at hnodup
      rcases List.mem_cons.mp ha with rfl | ha
      · have hzero : l.countP p = 0 := by
          rw [List.countP_eq_zero]
          intro b hb hpb
          refine hnodup.1 ?_
          rw [← huniq b (List.mem_cons_of_mem _ hb) hpb]
          exact List.mem_map_of_mem hb
        rw [List.countP_cons, hzero, if_pos hp]
      · have hc : ¬p c = true := by
          intro hpc
          refine hnodup.1 ?_
          rw [huniq c List.mem_cons_self hpc]
          exact List.mem_map_of_mem ha
        rw [List.countP_cons, if_neg hc]
        exact ih hnodup.2 ha fun b hb => huniq b (List.mem_cons_of_mem _ hb)

/-- One rewrite for each record that is kept covers the live ones. -/
theorem covers_of_forall₂ {res : Job.Installed} (hjob : job.WellFormed)
    (hperm : xs.Perm (job.records.filter job.keeps))
    (h : List.Forall₂ (job.Carries res.files) xs res.rewriteBatches) : job.Covers res := by
  have hmem (x : UInt64 × BlobRec Bytes) : x ∈ xs ↔ x ∈ job.records ∧ job.keeps x = true := by
    rw [hperm.mem_iff, List.mem_filter]
  have hplaces : (xs.map Job.place).Nodup := by
    refine (hperm.map Job.place).nodup_iff.mpr ?_
    exact hjob.places_nodup.sublist (List.filter_sublist.map _)
  have hkeys (key : Bytes) : res.rewriteBatches.countP (·.key = key) =
      xs.countP (fun x => x.2.key = key) :=
    countP_of_forall₂ h fun x rewrite hr => by rw [hr.key]
  have hindexes (y : UInt64 × BlobRec Bytes) :
      res.rewriteBatches.countP (·.blobIndex = blobIndexOf y) =
        xs.countP (fun x => blobIndexOf x = blobIndexOf y) :=
    countP_of_forall₂ h fun x rewrite hr => by rw [hr.blobIndex]
  have hplace {x y : UInt64 × BlobRec Bytes} (heq : blobIndexOf x = blobIndexOf y) :
      Job.place x = Job.place y := by
    obtain ⟨hfile, hhandle, -, -⟩ := BlobIndex.mk.inj heq
    exact Prod.ext hfile (congrArg BlobHandle.offset hhandle)
  refine ⟨?_, ?_, ?_, ?_, ?_⟩
  · rintro hb key ⟨x, hx, hrefers⟩
    have hkey := hjob.ownKeys key x hx hrefers
    have hlive : job.keeps x = true := (Job.keeps_lsm hb).mpr (hkey ▸ hrefers)
    rw [hkeys]
    refine countP_eq_one hplaces ((hmem x).mpr ⟨hx, hlive⟩) (by simpa using hkey) ?_
    intro y hy hykey
    have hyrefers := (Job.keeps_lsm hb).mp ((hmem y).mp hy).2
    rw [of_decide_eq_true hykey] at hyrefers
    exact hyrefers.place_eq hrefers
  · intro hb key hnone
    rw [hkeys, List.countP_eq_zero]
    intro y hy hykey
    have hyrefers := (Job.keeps_lsm hb).mp ((hmem y).mp hy).2
    rw [of_decide_eq_true hykey] at hyrefers
    exact hnone ⟨y, ((hmem y).mp hy).1, hyrefers⟩
  · intro hb x hx hunset
    rw [hindexes]
    refine countP_eq_one hplaces ((hmem x).mpr ⟨hx, (Job.keeps_bitmap hb).mpr hunset⟩)
      (by simp) ?_
    intro y _ hy
    exact hplace (of_decide_eq_true hy)
  · intro hb x hx hset
    rw [hindexes, List.countP_eq_zero]
    intro y hy heq
    have hsame := List.inj_on_of_nodup_map hjob.places_nodup ((hmem y).mp hy).1 hx
      (hplace (of_decide_eq_true heq))
    refine hset ((Job.keeps_bitmap hb).mp ?_)
    rw [← hsame]
    exact ((hmem y).mp hy).2
  · intro rewrite hrewrite
    obtain ⟨x, hx, hcarries⟩ := exists_of_mem_right h hrewrite
    exact ⟨x, ((hmem x).mp hx).1, hcarries⟩

/-- A job whose write failures are all seen rewrites the live records. -/
theorem rewritesLive_of_failuresSeen [LinearOrder Bytes] (hjob : job.WellFormed)
    (hseen : job.FailuresSeen) : job.RewritesLive := by
  intro st res hrun hinstall hfits
  obtain ⟨visited, last, hperm, hfold, rfl⟩ := doRunGC_visits hjob.clean hrun
  have hnodup : (([] ++ visited).map Job.place).Nodup := by
    rw [List.nil_append]
    exact (hperm.map Job.place).nodup_iff.mpr hjob.places_nodup
  have hinv := (inv_nil job).foldlM hseen hnodup hfold
  rw [List.nil_append] at hinv
  have hfilter := hperm.filter job.keeps
  refine covers_of_forall₂ hjob hfilter (forall₂_carries hjob ?_ hfits
    (installOutputBlobFiles_spec hseen hfilter hinv.rewritten hinv.builders hinstall))
  intro x hx
  exact (List.mem_filter.mp (hfilter.mem_iff.mp hx)).1

/-- `BytewiseComparator`. -/
instance bytewise : LinearOrder Bytes :=
  LinearOrder.lift' (fun key => key.map UInt8.toNat)
    (List.map_injective_iff.mpr fun _ _ h => UInt8.toNat_inj.mp h)

/-- One input with one live record, and an output with a dictionary. The calls from one site fail and
leave nothing behind. -/
def oneLiveRecord (failing : Option WriteSite) : Job where
  inputs := [⟨1, .ok, .ok, [(⟨⟨12, 13, 0⟩, [7], [70]⟩, .ok)], true⟩]
  useBitmap := false
  storageFound := true
  bitmaps := fun _ => .new 1
  getImpl := fun key =>
    if key = [7] then .found (BlobIndex.encodeTo ⟨1, ⟨12, 13, 0⟩, 0, ⟨0, 0, 0⟩⟩) true else .notFound
  fallback := false
  blobFileTargetSize := 256
  options := { smallTrainOptions with zstdMaxTrainBytes := 0 }
  newFile := fun _ => .ok 2
  faults := fun _ site _ => if some site = failing then some [] else none
  batchFinishFiles := .ok

theorem oneLiveRecord_wellFormed (failing : Option WriteSite) : (oneLiveRecord failing).WellFormed where
  clean := by
    intro input hmem
    obtain rfl := List.mem_singleton.mp hmem
    refine ⟨rfl, rfl, fun x hx => ?_⟩
    obtain rfl := List.mem_singleton.mp hx
    rfl
  numbers := List.nodup_singleton _
  offsets := by
    intro input hmem
    obtain rfl := List.mem_singleton.mp hmem
    exact List.nodup_singleton _
  ownKeys := by
    rintro key x hx ⟨entry, other, rest, hget, -, -⟩
    obtain rfl := List.mem_singleton.mp hx
    by_cases hkey : key = [7]
    · exact hkey.symm
    · simp [oneLiveRecord, hkey] at hget
  inverts := fun dict input output h => (by cases h)
  sizes := by
    intro x hx
    obtain rfl := List.mem_singleton.mp hx
    have hpayload : (BlobRecord.encodeTo ⟨[7], [70]⟩).length < 2 ^ 32 := by decide
    exact ⟨by decide, by decide, fun dict => hpayload⟩

/-- What the two functions leave behind when the footer cannot be written. -/
def footerFailureState : State :=
  match (oneLiveRecord (some .footer)).doRunGC with
  | .ok st => st
  | .error _ => {}

def footerFailureInstalled : Job.Installed :=
  match (oneLiveRecord (some .footer)).installOutputBlobFiles footerFailureState with
  | .ok res => res
  | .error _ => ⟨[], []⟩

/-- The footer of the output cannot be written. `Finish` says so, but it also hands out the context of
the record that waited, and the rewrite of that record makes the status OK. The file is installed and
cannot be opened. -/
theorem footerFailure_installed : ¬(oneLiveRecord (some .footer)).RewritesLive := by
  intro h
  have hrun : (oneLiveRecord (some .footer)).doRunGC = .ok footerFailureState := rfl
  have hinstall : (oneLiveRecord (some .footer)).installOutputBlobFiles footerFailureState =
      .ok footerFailureInstalled := rfl
  have hcovers := h _ _ hrun hinstall (by decide +kernel)
  have hrewrite : ∃ rewrite, rewrite ∈ footerFailureInstalled.rewriteBatches :=
    ⟨_, List.mem_cons_self⟩
  obtain ⟨rewrite, hmem⟩ := hrewrite
  obtain ⟨x, -, hcarries⟩ := hcovers.carries rewrite hmem
  obtain ⟨file, hfile, hread⟩ := (hcarries.moved rfl).2
  obtain ⟨reader, hopen, -⟩ := hread false
  have hclosed : ∀ file ∈ footerFailureInstalled.files,
      (CachedReader.openFile file.2 false).isOk = false := by decide +kernel
  have := hclosed _ hfile
  rw [hopen] at this
  cases this

/-- The same job with writes that succeed. -/
theorem oneLiveRecord_rewritten :
    ((oneLiveRecord none).WellFormed ∧ (oneLiveRecord none).FailuresSeen) ∧
      (∃ st res, (oneLiveRecord none).doRunGC = .ok st ∧
        (oneLiveRecord none).installOutputBlobFiles st = .ok res ∧ res.rewriteBatches.length = 1) ∧
      (oneLiveRecord none).RewritesLive := by
  have hseen : (oneLiveRecord none).FailuresSeen :=
    Or.inr (Or.inr ⟨fun _ => ⟨rfl, rfl⟩, Or.inr fun _ => ⟨rfl, rfl, rfl⟩⟩)
  exact ⟨⟨oneLiveRecord_wellFormed none, hseen⟩, ⟨_, _, rfl, rfl, rfl⟩,
    rewritesLive_of_failuresSeen (oneLiveRecord_wellFormed none) hseen⟩

end AegonKV.GcRewrites
