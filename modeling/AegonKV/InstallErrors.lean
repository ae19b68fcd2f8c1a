import AegonKV.GcRewriteCoverage

/-!
# Errors of `Finish` on the way through `InstallOutputBlobFiles`

The status of `Finish` goes through `BatchWriteNewIndices`, which assigns it anew for every context
that `Finish` handed out. An output whose status is OK after that gives its file handle away, and the
branch that deletes the outputs reads the handle of every entry of `blob_file_builders_` again. The
outputs are given by what their `Finish` returns, in any pattern.
-/

namespace AegonKV.GcRewrites
open LittleEndian AegonKV InternalKey

/-- An entry of `blob_file_builders_` with what its `Finish` leaves and returns. -/
structure FinishedOutput where
  fileNumber : UInt64
  file : Bytes
  contexts : List BlobRecordContext
  finishStatus : Status

/-- What the loop of `InstallOutputBlobFiles` leaves: the rewrites, the handles still in
`blob_file_builders_`, the files it moved them to, and `s`. -/
structure InstallLoop where
  rewrites : List Rewrite
  handles : List (Option UInt64)
  files : List (UInt64 × Bytes)
  status : Status

def installLoop : List FinishedOutput → InstallLoop
  | [] => ⟨[], [], [], .ok⟩
  | output :: outputs =>
    let (rewrites, s) := batchWriteNewIndices output.contexts output.finishStatus
    if s.isOk then
      let rest := installLoop outputs
      ⟨rewrites ++ rest.rewrites, none :: rest.handles,
        (output.fileNumber, output.file) :: rest.files, rest.status⟩
    else ⟨rewrites, some output.fileNumber :: outputs.map fun o => some o.fileNumber, [], s⟩

structure InstallOutcome where
  status : Status
  /-- The files that are in the `BlobFileSet` after it. -/
  installed : List (UInt64 × Bytes)
  /-- The files it hands to `BatchDeleteFiles`. -/
  deleted : List UInt64
  deriving DecidableEq

/-- `InstallOutputBlobFiles`, with the status of `BatchFinishFiles`; nothing where it dereferences a
handle that was moved away. -/
def installOutputs (batchFinishFiles : Status) (outputs : List FinishedOutput) :
    Option InstallOutcome :=
  let loop := installLoop outputs
  if loop.status.isOk then
    some ⟨batchFinishFiles, if batchFinishFiles.isOk then loop.files else [], []⟩
  else (loop.handles.mapM id).map fun numbers => ⟨loop.status, [], numbers⟩

/-! ## The outputs of a job -/

namespace Job

def finishedOutput (job : Job) (output : Output) : FinishedOutput :=
  let (builder, contexts, s) := output.builder.finish (job.faults output.nth)
  ⟨output.fileNumber, builder.builder.file, contexts, s⟩

theorem finishOutputs_eq (job : Job) (outputs : List Output) :
    job.finishOutputs outputs =
      if (installLoop (outputs.map job.finishedOutput)).status.isOk then
        .ok ((installLoop (outputs.map job.finishedOutput)).rewrites,
          (installLoop (outputs.map job.finishedOutput)).files)
      else .error (.failed (installLoop (outputs.map job.finishedOutput)).status) := by
  induction outputs with
  | nil => rfl
  | cons output outputs ih =>
      simp only [finishOutputs, List.map_cons, installLoop, finishedOutput]
      cases hs : (batchWriteNewIndices (output.builder.finish (job.faults output.nth)).2.1
        (output.builder.finish (job.faults output.nth)).2.2).2.isOk with
      | false => simp [hs]
      | true =>
          simp only [if_true, ih]
          cases (installLoop (outputs.map job.finishedOutput)).status.isOk <;> simp

/-- The job's own `InstallOutputBlobFiles` ends well exactly where the outputs do, and installs the
same files. -/
theorem installOutputBlobFiles_ok_iff (job : Job) (st : State) (files : List (UInt64 × Bytes)) :
    (∃ res, job.installOutputBlobFiles st = .ok res ∧ res.files = files) ↔
      ∃ s, s.isOk = true ∧
        installOutputs job.batchFinishFiles (st.blobFileBuilders.map job.finishedOutput) =
          some ⟨s, files, []⟩ := by
  simp only [installOutputBlobFiles, installOutputs, finishOutputs_eq]
  cases hs : (installLoop (st.blobFileBuilders.map job.finishedOutput)).status.isOk with
  | false =>
      refine iff_of_false (fun ⟨res, hres, _⟩ => (by cases hres)) fun ⟨s, hok, hs'⟩ => ?_
      simp only [Bool.false_eq_true, if_false, Option.map_eq_some_iff] at hs'
      obtain ⟨numbers, -, heq⟩ := hs'
      obtain rfl : (installLoop (st.blobFileBuilders.map job.finishedOutput)).status = s :=
        congrArg InstallOutcome.status heq
      exact Bool.false_ne_true (hs.symm.trans hok)
  | true =>
      cases hb : job.batchFinishFiles.isOk with
      | false => simp [hb]
      | true => simp [hb]

end Job

/-! ## Which errors get through -/

namespace FinishedOutput

/-- `s` after `BatchWriteNewIndices`. -/
def status (output : FinishedOutput) : Status :=
  (batchWriteNewIndices output.contexts output.finishStatus).2

/-- The key of some context is no internal key. -/
def BadContext (output : FinishedOutput) : Prop :=
  ∃ ctx ∈ output.contexts, (parseInternalKey ctx.key).isOk = false

end FinishedOutput

theorem parseInternalKey_error {key : Bytes} {e : Status} (h : parseInternalKey key = .error e) :
    e.isOk = false := by
  simp only [parseInternalKey] at h
  split_ifs at h
  · obtain rfl := Except.error.inj h
    rfl
  · cases hcode : ValueType.ofCode
        (leNat (key.drop (key.length - kNumInternalBytes)) % 256) with
    | some type =>
        rw [hcode] at h
        cases h
    | none =>
        rw [hcode] at h
        obtain rfl := Except.error.inj h
        rfl

theorem batchWriteNewIndices_ok_iff (contexts : List BlobRecordContext) (s : Status) :
    (batchWriteNewIndices contexts s).2.isOk = true ↔
      (contexts = [] → s.isOk = true) ∧ ∀ ctx ∈ contexts, (parseInternalKey ctx.key).isOk = true := by
  induction contexts generalizing s with
  | nil => simp [batchWriteNewIndices]
  | cons ctx contexts ih =>
      cases hkey : parseInternalKey ctx.key with
      | error e =>
          have he : e.isOk = false := parseInternalKey_error hkey
          simp [batchWriteNewIndices, hkey, he, Except.isOk, Except.toBool]
      | ok ikey => simp [batchWriteNewIndices, hkey, ih, Except.isOk, Except.toBool]

/-- `s` is an error after `BatchWriteNewIndices` where a context has a bad key, or where `Finish`
failed and handed out no context. -/
theorem FinishedOutput.status_not_ok_iff (output : FinishedOutput) :
    output.status.isOk = false ↔
      (output.contexts = [] ∧ output.finishStatus.isOk = false) ∨ output.BadContext := by
  rw [Bool.eq_false_iff, ne_eq, FinishedOutput.status, batchWriteNewIndices_ok_iff, not_and_or]
  simp [FinishedOutput.BadContext]

def FirstStops (outputs : List FinishedOutput) : Prop :=
  ∃ output rest, outputs = output :: rest ∧
    ((output.contexts = [] ∧ output.finishStatus.isOk = false) ∨ output.BadContext)

/-- The outputs whose `Finish` is called: up to the one that stops the loop. -/
def finishCalled : List FinishedOutput → List FinishedOutput
  | [] => []
  | output :: outputs => output :: if output.status.isOk then finishCalled outputs else []

/-- A call returns an error, installs nothing and hands every output to `BatchDeleteFiles`. -/
def Rejects (batchFinishFiles : Status) (outputs : List FinishedOutput) : Prop :=
  ∃ s, s.isOk = false ∧
    installOutputs batchFinishFiles outputs = some ⟨s, [], outputs.map FinishedOutput.fileNumber⟩

theorem mapM_id_map_some (outputs : List FinishedOutput) :
    (outputs.map fun o => some o.fileNumber).mapM id =
      some (outputs.map FinishedOutput.fileNumber) := by
  induction outputs with
  | nil => rfl
  | cons output outputs ih => simp [ih]

/-- A call rejects the outputs exactly where the first of them stops the loop: later on the outputs
before have lost their handles. -/
theorem rejects_cons_iff (batchFinishFiles : Status) (output : FinishedOutput)
    (outputs : List FinishedOutput) :
    Rejects batchFinishFiles (output :: outputs) ↔ output.status.isOk = false := by
  cases hs : output.status.isOk with
  | false =>
      refine iff_of_true ⟨output.status, hs, ?_⟩ rfl
      rw [FinishedOutput.status] at hs
      have hmap := mapM_id_map_some (output :: outputs)
      rw [List.map_cons] at hmap
      simp only [installOutputs, installLoop, hs, Bool.false_eq_true, if_false, hmap,
        Option.map_some, FinishedOutput.status]
  | true =>
      refine iff_of_false (fun ⟨s, _, heq⟩ => ?_) Bool.true_eq_false.mp
      rw [FinishedOutput.status] at hs
      have hmoved : (none :: (installLoop outputs).handles).mapM id = none := rfl
      simp only [installOutputs, installLoop, hs, if_true, hmoved, Option.map_none] at heq
      cases hloop : (installLoop outputs).status.isOk with
      | false =>
          rw [hloop] at heq
          cases heq
      | true =>
          rw [hloop] at heq
          have hdeleted := congrArg InstallOutcome.deleted (Option.some.inj heq)
          cases hdeleted

theorem rejects_of_called_iff {batchFinishFiles : Status} {called outputs : List FinishedOutput}
    (hnil : outputs = [] → called = []) :
    ((∃ output ∈ called, output.finishStatus.isOk = false) → Rejects batchFinishFiles outputs) ↔
      (∀ output ∈ called, output.finishStatus.isOk = true) ∨ FirstStops outputs := by
  cases outputs with
  | nil =>
      obtain rfl := hnil rfl
      simp
  | cons output outputs =>
      have hfirst : FirstStops (output :: outputs) ↔ output.status.isOk = false := by
        rw [FinishedOutput.status_not_ok_iff]
        simp [FirstStops]
      have hall : (∀ o ∈ called, o.finishStatus.isOk = true) ↔
          ¬∃ o ∈ called, o.finishStatus.isOk = false := by
        simp
      rw [rejects_cons_iff, hfirst, hall, imp_iff_not_or]

/-- Errors of `Finish` get through exactly where every `Finish` is OK or the first output stops the
loop; so it is for all outputs, and for those whose `Finish` is called. -/
theorem rejects_failed_finish_iff (batchFinishFiles : Status) (outputs : List FinishedOutput) :
    (((∃ output ∈ outputs, output.finishStatus.isOk = false) → Rejects batchFinishFiles outputs) ↔
      (∀ output ∈ outputs, output.finishStatus.isOk = true) ∨ FirstStops outputs) ∧
    (((∃ output ∈ finishCalled outputs, output.finishStatus.isOk = false) →
        Rejects batchFinishFiles outputs) ↔
      (∀ output ∈ finishCalled outputs, output.finishStatus.isOk = true) ∨ FirstStops outputs) := by
  refine ⟨rejects_of_called_iff fun h => h, rejects_of_called_iff fun h => ?_⟩
  rw [h, finishCalled]

/-- The outputs of the job whose footer cannot be written. -/
def footerFailureOutputs : List FinishedOutput :=
  footerFailureState.blobFileBuilders.map (oneLiveRecord (some .footer)).finishedOutput

/-- An output that is finished, and one whose `Finish` fails without contexts. -/
def secondFails : List FinishedOutput := [⟨2, [], [], .ok⟩, ⟨3, [], [], writeError⟩]

/-- `Finish` fails at the footer after it has handed out a context, and the call returns OK with the
file installed. Where the failing output is the second one, the call reads a handle that is gone. -/
theorem failed_finish_installed :
    (∃ output ∈ footerFailureOutputs, output.finishStatus.isOk = false) ∧
      ¬ Rejects .ok footerFailureOutputs ∧
      (installOutputs .ok footerFailureOutputs).map (fun o => (o.status, o.installed.length)) =
        some (.ok, 1) ∧
      installOutputs .ok secondFails = none := by
  obtain ⟨output, houtput, hfailed, hmasked⟩ : ∃ output, footerFailureOutputs = [output] ∧
      output.finishStatus.isOk = false ∧ output.status.isOk = true := ⟨_, rfl, rfl, rfl⟩
  refine ⟨⟨output, ?_, hfailed⟩, ?_, rfl, rfl⟩
  · rw [houtput]
    exact List.mem_singleton_self output
  · rw [houtput, rejects_cons_iff, hmasked]
    exact Bool.true_eq_false.mp

end AegonKV.GcRewrites
