import AegonKV.GcOutputs
import AegonKV.TransitionSystem

/-!
# The size of GC output files

Before `DoRunGC` rewrites a record it compares `file_size` with `blob_file_target_size`, and goes over
to another output file once the one at hand has grown that far. Nothing adds to `file_size` after the
0 it starts with, so that all records of a job go into one file. With a target size of 0 the first
record finds no builder to finish.
-/

namespace AegonKV.GcRewrites
open LittleEndian TransitionSystem

namespace Job

variable (job : Job)

/-- The bytes of a record in an output file without a dictionary. -/
def encodedSize (x : UInt64 × BlobRec Bytes) : ℕ :=
  (BlobEncoder.encodeRecord (job.options.codec.compress []) ⟨x.2.key, x.2.value⟩).length

/-- The records that go into output files, of those that the loop comes past. -/
def rewrittenFrom (lastKey : Bytes) (fresh : Bool) :
    List (UInt64 × BlobRec Bytes) → List (UInt64 × BlobRec Bytes)
  | [] => []
  | x :: xs =>
    if skips lastKey fresh x then rewrittenFrom lastKey fresh xs
    else
      match job.discardable x with
      | .error _ => []
      | .ok true => rewrittenFrom x.2.key false xs
      | .ok false => x :: rewrittenFrom x.2.key (!job.useBitmap) xs

def rewritten (xs : List (UInt64 × BlobRec Bytes)) : List (UInt64 × BlobRec Bytes) :=
  if job.fallback then [] else job.rewrittenFrom [] false xs

def step (st : State) (x : UInt64 × BlobRec Bytes) : Option State := (job.iteration st x).toOption

/-- The iteration does not add to an output file that has reached the target size, and it is
undefined only where the bitmap of the input is. -/
def RespectsTarget (st : State) (x : UInt64 × BlobRec Bytes) : Prop :=
  (∀ st', job.iteration st x = .ok st' → ∀ output ∈ st.output, ∀ output' ∈ st'.output,
    output'.nth = output.nth → job.blobFileTargetSize ≤ output.builder.builder.liveDataSize →
      output'.builder = output.builder) ∧
  (job.iteration st x = .error .undefined → job.discardable x = .error .undefined)

/-- The loop past the records `xs` respects the target size in every iteration, and it leaves every
output file but the last with that many bytes of records. -/
def RespectsTargetSize (xs : List (UInt64 × BlobRec Bytes)) : Prop :=
  Meets job.step job.RespectsTarget {} xs ∧
    ∀ st, run job.step {} xs = some st →
      ∀ output ∈ (st.blobFileBuilders ++ st.output.toList).dropLast,
        job.blobFileTargetSize ≤ output.builder.builder.liveDataSize

/-- The first output file is made, and `k` records are written to it. -/
def TakesRecords (k : ℕ) : Prop :=
  (∃ number, job.newFile 0 = .ok number) ∧ job.faults 0 .header 0 = none ∧
    ∀ n, 1 ≤ n → n ≤ 2 * k → job.faults 0 .record n = none

/-- Behind `rs`, the records `ts` do not find a file that has reached the target size. -/
def StaysBelow (rs ts : List (UInt64 × BlobRec Bytes)) : Prop :=
  ts = [] ∨ 0 < job.blobFileTargetSize ∧ ∀ k < ts.length, job.TakesRecords (rs.length + k) →
    ((rs ++ ts.take k).map job.encodedSize).sum < job.blobFileTargetSize

variable {job} {st st' : State} {x t : UInt64 × BlobRec Bytes} {rs ts : List (UInt64 × BlobRec Bytes)}

theorem TakesRecords.of_le {k n : ℕ} (h : job.TakesRecords n) (hle : k ≤ n) : job.TakesRecords k :=
  ⟨h.1, h.2.1, fun i hpos hi => h.2.2 i hpos (by omega)⟩

/-- The condition looks at the records one after the other. -/
theorem staysBelow_cons : job.StaysBelow rs (t :: ts) ↔
    (0 < job.blobFileTargetSize ∧
      (job.TakesRecords rs.length → (rs.map job.encodedSize).sum < job.blobFileTargetSize)) ∧
    job.StaysBelow (rs ++ [t]) ts := by
  have hlen : ∀ k, (rs ++ [t]).length + k = rs.length + (k + 1) := by
    intro k
    rw [List.length_append, List.length_singleton]
    omega
  have htake : ∀ k, rs ++ [t] ++ ts.take k = rs ++ (t :: ts).take (k + 1) := by
    intro k
    rw [List.take_succ_cons, List.append_assoc]
    rfl
  constructor
  · rintro (hnil | ⟨hpos, hall⟩)
    · cases hnil
    · refine ⟨⟨hpos, fun htakes => ?_⟩, Or.inr ⟨hpos, fun k hk htakes => ?_⟩⟩
      · simpa using hall 0 (by simp) htakes
      · rw [htake]
        exact hall (k + 1) (by simpa using hk) (hlen k ▸ htakes)
  · rintro ⟨⟨hpos, hfirst⟩, hrest⟩
    refine Or.inr ⟨hpos, fun k hk htakes => ?_⟩
    cases k with
    | zero => simpa using hfirst htakes
    | succ k =>
        rcases hrest with rfl | ⟨-, hall⟩
        · simp at hk
        · rw [← htake]
          exact hall k (by simpa using hk) (hlen k ▸ htakes)

/-! ## The builder -/

/-- The builder of the first output file after the records `rs`. -/
structure Filling (job : Job) (rs : List (UInt64 × BlobRec Bytes)) (f : FaultyBuilder) : Prop where
  options : f.builder.options = job.options
  unbuffered : f.builder.builderState = .kUnbuffered
  dict : f.builder.encoderDict = []
  ok : f.builder.status.isOk = true ↔ job.TakesRecords rs.length
  calls : f.builder.status.isOk = true → f.calls = 1 + 2 * rs.length
  liveDataSize : f.builder.status.isOk = true →
    f.builder.liveDataSize = (rs.map job.encodedSize).sum

theorem Filling.new {number : UInt64} (hdict : job.options.maxDictBytes = 0)
    (hnew : job.newFile 0 = .ok number) :
    Filling job [] (.new (job.faults 0) job.options BlobFileHeader.kVersion2) := by
  have hversion : ¬(BlobFileHeader.kVersion2 ≠ BlobFileHeader.kVersion1 ∧
      BlobFileHeader.kVersion2 ≠ BlobFileHeader.kVersion2) := fun h => h.2 rfl
  have hunbuffered : ¬job.options.maxDictBytes > 0 := by omega
  rw [FaultyBuilder.new, BlobFileBuilder.new, if_neg hversion, if_neg hunbuffered]
  dsimp only
  rw [if_pos (show Status.ok.isOk = true from rfl), FaultyBuilder.append]
  cases hfault : job.faults 0 .header 0 with
  | none =>
      refine ⟨rfl, rfl, rfl, ?_, fun _ => rfl, fun _ => rfl⟩
      refine iff_of_true rfl ⟨⟨number, hnew⟩, hfault, fun n hpos hle => ?_⟩
      simp only [List.length_nil] at hle
      omega
  | some torn =>
      refine ⟨rfl, rfl, rfl, ?_, (fun h => by cases h), (fun h => by cases h)⟩
      refine iff_of_false (fun h => by cases h) fun htakes => ?_
      have hnone := htakes.2.1
      rw [hfault] at hnone
      cases hnone

/-- What `Add` does to a builder that has not failed. -/
theorem Filling.add_eq {f : FaultyBuilder} (h : Filling job rs f)
    (hok : f.builder.status.isOk = true) (ctx : BlobRecordContext) :
    (f.add (job.faults 0) ⟨x.2.key, x.2.value⟩ ctx).1 =
      let g := (f.writeEncoderData (job.faults 0) .record
        (BlobEncoder.encodeRecord (job.options.codec.compress []) ⟨x.2.key, x.2.value⟩)).1
      { g with builder := g.builder.extendRange x.2.key } := by
  have hcompress : f.builder.compress = job.options.codec.compress [] := by
    rw [BlobFileBuilder.compress, h.options, h.dict]
  rw [FaultyBuilder.add_kUnbuffered hok h.unbuffered, hcompress]

theorem encodedSize_pos : 0 < job.encodedSize x := by
  rw [encodedSize, BlobEncoder.encodeRecord, BlobEncoder.length_encodeSlice]
  exact Nat.add_pos_left (by decide) _

theorem Filling.liveDataSize_add {f : FaultyBuilder} (h : Filling job rs f)
    (hok : f.builder.status.isOk = true) (ctx : BlobRecordContext) :
    (f.add (job.faults 0) ⟨x.2.key, x.2.value⟩ ctx).1.builder.liveDataSize =
      f.builder.liveDataSize + job.encodedSize x := by
  rw [h.add_eq hok]
  obtain ⟨file, status, entries, hbuilder, -⟩ := FaultyBuilder.counts_writeEncoderData (job.faults 0)
    .record f (BlobEncoder.encodeRecord (job.options.codec.compress []) ⟨x.2.key, x.2.value⟩)
  dsimp only
  rw [hbuilder, BlobFileBuilder.extendRange, encodedSize]

theorem Filling.add {f : FaultyBuilder} (h : Filling job rs f) (x : UInt64 × BlobRec Bytes)
    (ctx : BlobRecordContext) :
    Filling job (rs ++ [x]) (f.add (job.faults 0) ⟨x.2.key, x.2.value⟩ ctx).1 := by
  have hlen : (rs ++ [x]).length = rs.length + 1 := List.length_append
  cases hok : f.builder.status.isOk with
  | false =>
      have hfailed : f.Failed := hok
      have hno : ¬job.TakesRecords (rs ++ [x]).length := by
        intro htakes
        rw [h.ok.mpr (htakes.of_le (by omega))] at hok
        cases hok
      rw [hfailed.add]
      refine ⟨h.options, h.unbuffered, h.dict, iff_of_false (by rw [hok]; exact (fun h => by cases h)) hno, ?_, ?_⟩
      · exact fun hyes => absurd (hok.symm.trans hyes) (fun h => by cases h)
      · exact fun hyes => absurd (hok.symm.trans hyes) (fun h => by cases h)
  | true =>
      have htakes := h.ok.mp hok
      have hcalls := h.calls hok
      have hlive := h.liveDataSize_add (x := x) hok ctx
      -- the two appends of the record have the numbers after those before it
      have hiff : job.TakesRecords (rs ++ [x]).length ↔
          job.faults 0 .record f.calls = none ∧ job.faults 0 .record (f.calls + 1) = none := by
        rw [hlen, hcalls]
        constructor
        · intro hmore
          exact ⟨hmore.2.2 _ (by omega) (by omega), hmore.2.2 _ (by omega) (by omega)⟩
        · rintro ⟨hfirst, hsecond⟩
          refine ⟨htakes.1, htakes.2.1, fun n hpos hle => ?_⟩
          rcases (by omega : n ≤ 2 * rs.length ∨ n = 1 + 2 * rs.length ∨ n = 1 + 2 * rs.length + 1)
            with hn | rfl | rfl
          · exact htakes.2.2 n hpos hn
          · exact hfirst
          · exact hsecond
      have hsum : ((rs ++ [x]).map job.encodedSize).sum =
          f.builder.liveDataSize + job.encodedSize x := by
        rw [List.map_append, List.sum_append, ← h.liveDataSize hok, List.map_singleton,
          List.sum_singleton]
      rw [h.add_eq hok] at hlive ⊢
      rw [FaultyBuilder.writeEncoderData, FaultyBuilder.append] at hlive ⊢
      cases hfirst : job.faults 0 .record f.calls with
      | some torn =>
          simp only [hfirst] at hlive ⊢
          refine ⟨h.options, h.unbuffered, h.dict, iff_of_false (fun h => by cases h) fun hmore => ?_, (fun h => by cases h), (fun h => by cases h)⟩
          rw [hiff, hfirst] at hmore
          cases hmore.1
      | none =>
          simp only [hfirst, FaultyBuilder.append] at hlive ⊢
          cases hsecond : job.faults 0 .record (f.calls + 1) with
          | some torn =>
              simp only [hsecond] at hlive ⊢
              refine ⟨h.options, h.unbuffered, h.dict, iff_of_false (fun h => by cases h) fun hmore => ?_, (fun h => by cases h), (fun h => by cases h)⟩
              rw [hiff, hsecond] at hmore
              cases hmore.2
          | none =>
              simp only [hsecond] at hlive ⊢
              refine ⟨h.options, h.unbuffered, h.dict, ?_, fun _ => ?_, fun _ => ?_⟩
              · exact iff_of_true rfl (hiff.mpr ⟨hfirst, hsecond⟩)
              · rw [hlen]
                change f.calls + 1 + 1 = _
                omega
              · rw [hsum]
                exact hlive

/-! ## The loop -/

/-- The state when the records `rs` have gone into the first output file. -/
structure Holds (job : Job) (rs : List (UInt64 × BlobRec Bytes)) (st : State) : Prop where
  fileSize : st.fileSize = 0
  builders : st.blobFileBuilders = []
  output : rs = [] ∧ st.output = none ∨
    0 < job.blobFileTargetSize ∧ ∃ number builder, job.newFile 0 = .ok number ∧
      st.output = some ⟨number, 0, builder⟩ ∧ Filling job rs builder

theorem holds_nil (job : Job) : Holds job [] {} := ⟨rfl, rfl, Or.inl ⟨rfl, rfl⟩⟩

theorem Holds.congr (h : Holds job rs st) (hsize : st'.fileSize = st.fileSize)
    (hbuilders : st'.blobFileBuilders = st.blobFileBuilders) (houtput : st'.output = st.output) :
    Holds job rs st' :=
  ⟨hsize.trans h.fileSize, hbuilders.trans h.builders, houtput ▸ h.output⟩

theorem addToOutput_ok {number : UInt64} {builder : FaultyBuilder} (h : Filling job rs builder) :
    ∃ rewrites, job.addToOutput st ⟨number, 0, builder⟩ x = .ok { st with
      output := some ⟨number, 0, (builder.add (job.faults 0) ⟨x.2.key, x.2.value⟩
        (recordContext number x)).1⟩
      rewriteBatches := st.rewriteBatches ++ rewrites } := by
  have hmade : ∀ ctx ∈ (builder.add (job.faults 0) ⟨x.2.key, x.2.value⟩ (recordContext number x)).2,
      MadeFor number [x] ctx := by
    intro ctx hctx
    cases hok : builder.builder.status.isOk with
    | false =>
        rw [FaultyBuilder.Failed.add hok] at hctx
        cases hctx
    | true =>
        rw [FaultyBuilder.add_kUnbuffered hok h.unbuffered] at hctx
        rw [List.mem_singleton.mp hctx]
        exact ⟨x, List.mem_singleton.mpr rfl, _, rfl⟩
  have hrewrites := batchWriteNewIndices_eq hmade .ok
  rw [ite_self] at hrewrites
  refine ⟨(builder.add (job.faults 0) ⟨x.2.key, x.2.value⟩ (recordContext number x)).2.map rewriteOf, ?_⟩
  rw [addToOutput]
  dsimp only
  rw [hrewrites]
  rfl

/-- What a rewrite comes to. -/
theorem rewriteEntry_cases (hdict : job.options.maxDictBytes = 0) (h : Holds job rs st)
    (x : UInt64 × BlobRec Bytes) :
    (job.blobFileTargetSize = 0 ∧ rs = [] ∧ job.rewriteEntry st x = .error .undefined) ∨
    (0 < job.blobFileTargetSize ∧ rs = [] ∧ ∃ s, job.newFile 0 = .error s ∧
      job.rewriteEntry st x = .error (.failed s)) ∨
    (0 < job.blobFileTargetSize ∧ ∃ number builder rewrites, Filling job rs builder ∧
      job.newFile 0 = .ok number ∧ (rs = [] ∧ st.output = none ∨ st.output = some ⟨number, 0, builder⟩) ∧
      job.rewriteEntry st x = .ok { st with
        output := some ⟨number, 0, (builder.add (job.faults 0) ⟨x.2.key, x.2.value⟩
          (recordContext number x)).1⟩
        rewriteBatches := st.rewriteBatches ++ rewrites }) := by
  rcases h.output with ⟨hnil, hnone⟩ | ⟨hpos, number, builder, hnew, hsome, hfilling⟩
  · have hopen : st.output.isNone = true ∨ st.fileSize ≥ job.blobFileTargetSize :=
      Or.inl (by rw [hnone]; rfl)
    rw [rewriteEntry, if_pos hopen]
    rcases Nat.eq_zero_or_pos job.blobFileTargetSize with hzero | hpos
    · refine Or.inl ⟨hzero, hnil, ?_⟩
      rw [openOutput, if_pos (by omega), hnone]
      rfl
    have hlt : ¬st.fileSize ≥ job.blobFileTargetSize := by
      have hsize := h.fileSize
      omega
    rw [openOutput, if_neg hlt]
    simp only [h.builders, List.length_nil, bind, Except.bind, pure, Except.pure]
    cases hnew : job.newFile 0 with
    | error s => exact Or.inr (Or.inl ⟨hpos, hnil, s, rfl, rfl⟩)
    | ok number =>
        have hfilling := Filling.new hdict hnew
        obtain ⟨rewrites, hadd⟩ := @addToOutput_ok job { st with
          fileSize := 0
          output := some ⟨number, 0, .new (job.faults 0) job.options BlobFileHeader.kVersion2⟩
          blobFileBuilders := [] } x _ number _ hfilling
        refine Or.inr (Or.inr ⟨hpos, number, _, rewrites, hnil ▸ hfilling, rfl, Or.inl ⟨hnil, hnone⟩, ?_⟩)
        simp only [Except.mapError]
        rw [hadd, h.fileSize]
  · refine Or.inr (Or.inr ⟨hpos, number, builder, ?_⟩)
    obtain ⟨rewrites, hadd⟩ := @addToOutput_ok job st x _ number _ hfilling
    have hclosed : ¬(st.output.isNone = true ∨ st.fileSize ≥ job.blobFileTargetSize) := by
      have hsize := h.fileSize
      rintro (hnone | hge)
      · rw [hsome] at hnone
        cases hnone
      · omega
    refine ⟨rewrites, hfilling, hnew, Or.inr hsome, ?_⟩
    rw [rewriteEntry, if_neg hclosed]
    simp only [bind, Except.bind, hsome]
    exact hadd

section

variable {lastKey : Bytes} {fresh : Bool} {xs : List (UInt64 × BlobRec Bytes)}
  (hskip : ¬skips lastKey fresh x = true)

include hskip

theorem rewrittenFrom_error {e : Stop} (h : job.discardable x = .error e) :
    job.rewrittenFrom lastKey fresh (x :: xs) = [] := by
  rw [rewrittenFrom, if_neg hskip, h]

theorem rewrittenFrom_discard (h : job.discardable x = .ok true) :
    job.rewrittenFrom lastKey fresh (x :: xs) = job.rewrittenFrom x.2.key false xs := by
  rw [rewrittenFrom, if_neg hskip, h]

theorem rewrittenFrom_keep (h : job.discardable x = .ok false) :
    job.rewrittenFrom lastKey fresh (x :: xs) = x :: job.rewrittenFrom x.2.key (!job.useBitmap) xs := by
  rw [rewrittenFrom, if_neg hskip, h]

end

theorem respectsTarget_of_output (hok : job.iteration st x = .ok st') (houtput : st'.output = st.output) :
    job.RespectsTarget st x := by
  refine ⟨fun next hnext output hmem output' hmem' _ _ => ?_, fun herror => ?_⟩
  · obtain rfl := Except.ok.inj (hok.symm.trans hnext)
    rw [houtput] at hmem'
    rw [Option.mem_unique hmem' hmem]
  · cases hok.symm.trans herror

theorem meets_cons_ok {xs : List (UInt64 × BlobRec Bytes)} (hok : job.iteration st x = .ok st') :
    Meets job.step job.RespectsTarget st (x :: xs) ↔
      job.RespectsTarget st x ∧ Meets job.step job.RespectsTarget st' xs := by
  have hstep : job.step st x = some st' := by
    rw [step, hok]
    rfl
  simp only [Meets, hstep, Option.some.injEq, forall_eq']

theorem meets_cons_error {xs : List (UInt64 × BlobRec Bytes)} {e : Stop}
    (herror : job.iteration st x = .error e) :
    Meets job.step job.RespectsTarget st (x :: xs) ↔
      (e = .undefined → job.discardable x = .error .undefined) := by
  have hstep : job.step st x = none := by
    rw [step, herror]
    rfl
  simp only [Meets, hstep, RespectsTarget, herror]
  simp

/-- A record added to an open file respects the target size as long as the file stays below it. -/
theorem respectsTarget_add {number : UInt64} {builder : FaultyBuilder} (h : Filling job rs builder)
    (hsome : st.output = some ⟨number, 0, builder⟩) (hok : job.iteration st x = .ok st')
    (hsome' : st'.output = some ⟨number, 0, (builder.add (job.faults 0) ⟨x.2.key, x.2.value⟩
      (recordContext number x)).1⟩) :
    job.RespectsTarget st x ↔
      (job.TakesRecords rs.length → (rs.map job.encodedSize).sum < job.blobFileTargetSize) := by
  constructor
  · intro hrespects htakes
    by_contra hge
    have hbuilder := h.ok.mpr htakes
    have hlive := h.liveDataSize hbuilder
    have hsame := hrespects.1 st' hok _ hsome _ hsome' rfl (by dsimp only; omega)
    have hgrows := h.liveDataSize_add (x := x) hbuilder (recordContext number x)
    dsimp only at hsame
    rw [hsame] at hgrows
    have hpos : 0 < job.encodedSize x := encodedSize_pos
    omega
  · intro hbelow
    refine ⟨fun next hnext output hmem output' hmem' _ hfull => ?_, fun herror => ?_⟩
    · obtain rfl := Except.ok.inj (hok.symm.trans hnext)
      obtain rfl := Option.mem_unique hmem hsome
      obtain rfl := Option.mem_unique hmem' hsome'
      dsimp only at hfull ⊢
      cases hbuilder : builder.builder.status.isOk with
      | false => rw [FaultyBuilder.Failed.add hbuilder]
      | true =>
          have hlt := hbelow (h.ok.mp hbuilder)
          rw [h.liveDataSize hbuilder] at hfull
          omega
    · cases hok.symm.trans herror

theorem Holds.meets_iff (hdict : job.options.maxDictBytes = 0) (hmode : job.fallback = false)
    {xs : List (UInt64 × BlobRec Bytes)} (h : Holds job rs st) :
    Meets job.step job.RespectsTarget st xs ↔
      job.StaysBelow rs (job.rewrittenFrom st.lastKey st.lastKeyIsFresh xs) := by
  induction xs generalizing st rs with
  | nil => exact iff_of_true trivial (Or.inl rfl)
  | cons x xs ih =>
      cases hskip : skips st.lastKey st.lastKeyIsFresh x with
      | true =>
          have hok : job.iteration st x = .ok st := iteration_skips hskip
          rw [meets_cons_ok hok, rewrittenFrom, if_pos hskip, ih h]
          exact and_iff_right (respectsTarget_of_output hok rfl)
      | false =>
          have hlook : ¬skips st.lastKey st.lastKeyIsFresh x = true := by
            rw [hskip]
            exact (fun h => by cases h)
          have hlooks := @iteration_looks job _ _ hskip
          cases hdiscard : job.discardable x with
          | error e =>
              rw [hdiscard] at hlooks
              rw [meets_cons_error hlooks, hdiscard, rewrittenFrom_error hlook hdiscard]
              exact iff_of_true (fun he => by rw [he]) (Or.inl rfl)
          | ok discard =>
              rw [hdiscard] at hlooks
              cases discard with
              | true =>
                  have hok : job.iteration st x =
                      .ok { st with lastKey := x.2.key, lastKeyIsFresh := false } := hlooks
                  have hafter : Holds job rs { st with lastKey := x.2.key, lastKeyIsFresh := false } :=
                    h.congr rfl rfl rfl
                  rw [meets_cons_ok hok, ih hafter, rewrittenFrom_discard hlook hdiscard]
                  exact and_iff_right (respectsTarget_of_output hok rfl)
              | false =>
                  have hrewrite : job.iteration st x = job.rewriteEntry
                      { st with lastKey := x.2.key, lastKeyIsFresh := !job.useBitmap } x := by
                    rw [hlooks, hmode]
                    rfl
                  rw [rewrittenFrom_keep hlook hdiscard, staysBelow_cons]
                  have hbefore : Holds job rs
                      { st with lastKey := x.2.key, lastKeyIsFresh := !job.useBitmap } :=
                    h.congr rfl rfl rfl
                  rcases rewriteEntry_cases hdict hbefore x with ⟨hzero, -, herror⟩ |
                    ⟨hpos, hnil, s, hnew, herror⟩ |
                    ⟨hpos, number, builder, rewrites, hfilling, hnew, hopen, hok⟩
                  · rw [meets_cons_error (hrewrite.trans herror), hdiscard]
                    refine iff_of_false (fun himp => absurd (himp rfl) (fun h => by cases h)) fun hbelow => ?_
                    have hpos := hbelow.1.1
                    omega
                  · have hno : ∀ k, ¬job.TakesRecords k := by
                      rintro k ⟨⟨number, hok⟩, -⟩
                      cases hnew.symm.trans hok
                    rw [meets_cons_error (hrewrite.trans herror)]
                    refine iff_of_true (fun h => by cases h) ⟨⟨hpos, fun htakes => absurd htakes (hno _)⟩, ?_⟩
                    exact Or.inr ⟨hpos, fun k _ htakes => absurd htakes (hno _)⟩
                  · rw [hok] at hrewrite
                    have hafter : Holds job (rs ++ [x]) { st with
                        lastKey := x.2.key
                        lastKeyIsFresh := !job.useBitmap
                        output := some ⟨number, 0, (builder.add (job.faults 0) ⟨x.2.key, x.2.value⟩
                          (recordContext number x)).1⟩
                        rewriteBatches := st.rewriteBatches ++ rewrites } :=
                      ⟨h.fileSize, h.builders, Or.inr ⟨hpos, number, _, hnew, rfl, hfilling.add x _⟩⟩
                    rw [meets_cons_ok hrewrite, ih hafter, and_iff_right hpos]
                    refine and_congr_left fun _ => ?_
                    rcases hopen with ⟨hnil, hnone⟩ | hsome
                    · refine iff_of_true ⟨fun st' _ output hmem => ?_, fun herror => ?_⟩ fun _ => ?_
                      · cases hnone.symm.trans hmem
                      · cases hrewrite.symm.trans herror
                      · rw [hnil]
                        exact hpos
                    · exact respectsTarget_add hfilling hsome hrewrite rfl

/-- In fallback mode no output file is touched. -/
theorem respectsTarget_fallback (hmode : job.fallback = true) (st : State)
    (x : UInt64 × BlobRec Bytes) : job.RespectsTarget st x := by
  cases hskip : skips st.lastKey st.lastKeyIsFresh x with
  | true => exact respectsTarget_of_output (iteration_skips hskip) rfl
  | false =>
      have hlooks := @iteration_looks job _ _ hskip
      cases hdiscard : job.discardable x with
      | error e =>
          rw [hdiscard] at hlooks
          refine ⟨fun st' hok => ?_, fun herror => ?_⟩
          · cases hlooks.symm.trans hok
          · obtain rfl := Except.error.inj (hlooks.symm.trans herror)
            exact hdiscard
      | ok discard =>
          rw [hdiscard, hmode] at hlooks
          cases discard with
          | true => exact respectsTarget_of_output hlooks rfl
          | false => exact respectsTarget_of_output hlooks rfl

theorem Holds.iteration (hdict : job.options.maxDictBytes = 0) (h : Holds job rs st)
    (hok : job.iteration st x = .ok st') : ∃ rs', Holds job rs' st' := by
  rcases iteration_cases hok with ⟨-, -, rfl⟩ | ⟨-, rfl⟩ | ⟨-, -, rfl⟩ | ⟨-, -, hrewrite⟩
  · exact ⟨rs, h⟩
  · exact ⟨rs, h.congr rfl rfl rfl⟩
  · exact ⟨rs, h.congr rfl rfl rfl⟩
  · have hbefore : Holds job rs { st with lastKey := x.2.key, lastKeyIsFresh := !job.useBitmap } :=
      h.congr rfl rfl rfl
    rcases rewriteEntry_cases hdict hbefore x with ⟨-, -, herror⟩ | ⟨-, -, s, -, herror⟩ |
      ⟨hpos, number, builder, rewrites, hfilling, hnew, -, hnext⟩
    · cases herror.symm.trans hrewrite
    · cases herror.symm.trans hrewrite
    · obtain rfl := Except.ok.inj (hnext.symm.trans hrewrite)
      exact ⟨rs ++ [x], h.fileSize, h.builders,
        Or.inr ⟨hpos, number, _, hnew, rfl, hfilling.add x _⟩⟩

theorem step_eq_some : job.step st x = some st' ↔ job.iteration st x = .ok st' := by
  rw [step]
  cases job.iteration st x with
  | error e => exact iff_of_false (fun h => by cases h) (fun h => by cases h)
  | ok next => exact ⟨fun h => congrArg Except.ok (Option.some.inj h), fun h => congrArg _ h⟩

/-- All that the job has rewritten is in its first output file. -/
def OneFile (job : Job) (st : State) : Prop := ∃ rs, Holds job rs st

theorem run_oneFile (hdict : job.options.maxDictBytes = 0) {xs : List (UInt64 × BlobRec Bytes)}
    (hrun : run job.step {} xs = some st) : OneFile job st := by
  have hstep : ∀ s x s', OneFile job s → job.step s x = some s' → OneFile job s' := by
    rintro s x s' ⟨rs, h⟩ hstep
    exact h.iteration hdict (step_eq_some.mp hstep)
  exact run_invariant_always hstep ⟨[], holds_nil job⟩ hrun

/-- A job keeps to the target size exactly if its one output file reaches it with the last record, at
the earliest. -/
theorem respectsTargetSize_iff (hdict : job.options.maxDictBytes = 0)
    (xs : List (UInt64 × BlobRec Bytes)) :
    job.RespectsTargetSize xs ↔ job.StaysBelow [] (job.rewritten xs) := by
  have hlast : ∀ st, run job.step {} xs = some st →
      ∀ output ∈ (st.blobFileBuilders ++ st.output.toList).dropLast,
        job.blobFileTargetSize ≤ output.builder.builder.liveDataSize := by
    intro st hrun output hmem
    obtain ⟨rs, h⟩ := run_oneFile hdict hrun
    rw [h.builders, List.nil_append] at hmem
    cases hout : st.output with
    | none =>
        rw [hout] at hmem
        cases hmem
    | some o =>
        rw [hout] at hmem
        cases hmem
  rw [RespectsTargetSize, and_iff_left hlast, rewritten]
  cases hmode : job.fallback with
  | true =>
      exact iff_of_true (meets_of_forall (respectsTarget_fallback hmode) {} xs) (Or.inl rfl)
  | false => exact (holds_nil job).meets_iff hdict hmode

/-- The loop is a run past the records of the merge iterator. -/
theorem loop_run [LinearOrder Bytes] {fuel : ℕ} {m m' : GcJob.BlobFileMergeIterator Bytes}
    (hok : job.loop fuel m st = .ok (m', st')) : ∃ xs, run job.step st xs = some st' := by
  induction fuel generalizing m st with
  | zero =>
      obtain ⟨-, rfl⟩ := Prod.mk.inj (Except.ok.inj hok)
      exact ⟨[], rfl⟩
  | succ fuel ih =>
      have hstop : ∀ {m₁ : GcJob.BlobFileMergeIterator Bytes},
          (Except.ok (m₁, st) : Except Stop _) = .ok (m', st') → ∃ xs, run job.step st xs = some st' := by
        intro m₁ h
        obtain ⟨-, rfl⟩ := Prod.mk.inj (Except.ok.inj h)
        exact ⟨[], rfl⟩
      cases hcur : m.current with
      | none =>
          simp only [loop, hcur] at hok
          exact hstop hok
      | some it =>
          simp only [loop, hcur] at hok
          split_ifs at hok
          · cases hrec : it.curBlobRecord with
            | none =>
                simp only [hrec, Option.toList_none, List.map_nil, List.foldlM_nil] at hok
                exact ih hok
            | some r =>
                simp only [hrec, Option.toList_some, List.map_cons, List.map_nil, List.foldlM_cons,
                  List.foldlM_nil] at hok
                cases hstep : job.iteration st (it.fileNumber, r) with
                | error e =>
                    rw [hstep] at hok
                    cases hok
                | ok next =>
                    rw [hstep] at hok
                    obtain ⟨xs, hrun⟩ := ih hok
                    refine ⟨(it.fileNumber, r) :: xs, ?_⟩
                    rw [run, step_eq_some.mpr hstep]
                    exact hrun
          · exact hstop hok

/-- However large the inputs of a job, it has at most one output file. -/
theorem length_blobFileBuilders [LinearOrder Bytes] (hdict : job.options.maxDictBytes = 0)
    (hok : job.doRunGC = .ok st) : st.blobFileBuilders.length ≤ 1 := by
  unfold doRunGC at hok
  generalize job.reads.buildIterator = built at hok
  obtain ⟨s, iter⟩ := built
  dsimp only at hok
  split_ifs at hok
  cases iter with
  | none => cases hok
  | some iter =>
      dsimp only at hok
      cases hloop : job.loop job.reads.fuel iter.seekToFirst {} with
      | error e =>
          rw [hloop] at hok
          cases hok
      | ok res =>
          obtain ⟨m, last⟩ := res
          rw [hloop] at hok
          dsimp only at hok
          split_ifs at hok
          obtain rfl := Except.ok.inj hok
          obtain ⟨xs, hrun⟩ := loop_run hloop
          obtain ⟨rs, h⟩ := run_oneFile hdict hrun
          dsimp only
          rw [h.builders, List.nil_append]
          cases last.output with
          | none => exact Nat.zero_le 1
          | some output => exact le_refl 1

end Job

/-- A job whose output files should not have more than one byte. -/
def smallTarget : Job where
  inputs := []
  useBitmap := true
  storageFound := true
  bitmaps := fun _ => .new 8
  getImpl := fun _ => .notFound
  fallback := false
  blobFileTargetSize := 1
  options := { smallTrainOptions with maxDictBytes := 0 }
  newFile := fun n => .ok (UInt64.ofNat (n + 2))
  faults := fun _ _ _ => none
  batchFinishFiles := .ok

def twoRecords : List (UInt64 × BlobRec Bytes) :=
  [(1, ⟨⟨12, 13, 0⟩, [7], [70]⟩), (1, ⟨⟨25, 13, 1⟩, [8], [80]⟩)]

/-- The second record goes into the file of the first one, which has reached its size. -/
theorem smallTarget_overfilled : ¬smallTarget.RespectsTargetSize twoRecords := by
  intro h
  have hsecond := h.1.2 _ rfl
  have hsame := hsecond.1.1 _ rfl _ rfl _ rfl rfl (by decide +kernel)
  have hlive := congrArg (fun builder => builder.builder.liveDataSize) hsame
  revert hlive
  decide +kernel

def largeTarget : Job := { smallTarget with blobFileTargetSize := 4096 }

/-- Both records go into one file, which stays below its size. -/
theorem largeTarget_respected : largeTarget.RespectsTargetSize twoRecords := by
  refine (Job.respectsTargetSize_iff rfl _).mpr (Or.inr ⟨by decide, fun k hk _ => ?_⟩)
  have hlength : (largeTarget.rewritten twoRecords).length = 2 := by decide +kernel
  rw [hlength] at hk
  obtain rfl | rfl : k = 0 ∨ k = 1 := by omega
  · decide +kernel
  · decide +kernel

end AegonKV.GcRewrites
