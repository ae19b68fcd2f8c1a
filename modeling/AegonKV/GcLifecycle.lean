import AegonKV.TransitionSystem
import AegonKV.WalkLemmas

/-!
# The life cycle of blob files

All that changes the state of a blob file, one critical section of `mutex_` at a time: table
builders and GC jobs that install files, the callbacks of the base database, range deletions, the
picker, the end of a GC job, dropped column families and a restart. The machine keeps every call of
`FileStateTransit` with the state it found.
-/

namespace AegonKV
open TransitionSystem

/-! ## The picker -/

structure GcPickOptions where
  minGcBatchSize : UInt64
  maxGcBatchSize : UInt64

structure Picking where
  blobFiles : List UInt64 := []
  batchSize : UInt64 := 0
  nextGcSize : UInt64 := 0
  stopPicking : Bool := false
  maybeContinueNextTime : Bool := false

/-- The loop of `PickBlobGC` over `gc_score_`. -/
def pickFiles (p : GcPickOptions) (st : BlobStorage) : List GCScore → Picking → Picking
  | [], acc => acc
  | g :: scores, acc =>
    if g.score < st.cfOptions.blobFileDiscardableRatio then acc
    else
      match st.files.lookup g.fileNumber with
      | none => pickFiles p st scores acc
      | some file =>
        if file.state ≠ .kNormal then pickFiles p st scores acc
        else if !acc.stopPicking then
          let batchSize := acc.batchSize + file.fileSize
          pickFiles p st scores
            { acc with
              blobFiles := acc.blobFiles ++ [g.fileNumber]
              batchSize := batchSize
              stopPicking := decide (p.maxGcBatchSize ≤ batchSize) }
        else
          let nextGcSize := acc.nextGcSize + file.fileSize
          if p.minGcBatchSize < nextGcSize then
            { acc with nextGcSize := nextGcSize, maybeContinueNextTime := true }
          else pickFiles p st scores { acc with nextGcSize := nextGcSize }

/-- A single small file without enough garbage is not worth a job. -/
def onlySmallFile (st : BlobStorage) (files : List UInt64) : Bool :=
  files.length = 1 && files.all fun f => (st.files.lookup f).any fun file =>
    file.fileSize ≤ st.cfOptions.mergeSmallFileThreshold &&
      decide (file.getDiscardableRatio < st.cfOptions.blobFileDiscardableRatio)

def pickBlobGC (p : GcPickOptions) (st : BlobStorage) : Option (List UInt64) :=
  let picked := pickFiles p st st.gcScore {}
  if picked.blobFiles.isEmpty || decide (picked.batchSize < p.minGcBatchSize) then none
  else if onlySmallFile st picked.blobFiles then none
  else some picked.blobFiles

/-! ## The machine -/

inductive GcStage
  | picked | installed | rewritten | inputsDeleted | failed
  deriving DecidableEq, Repr

/-- A `BlobGC`. A hardware output whose `LogAndApply` failed is an output, but in no storage. -/
structure GcJob where
  cf : UInt32
  inputs : List UInt64
  outputs : List UInt64 := []
  unlogged : List UInt64 := []
  stage : GcStage := .picked
  deriving DecidableEq, Repr

structure FileMachine where
  set : BlobFileSet := ⟨∅, [], 1, [], 1, []⟩
  jobs : List GcJob := []
  calls : List TransitCall := []

structure LifecycleConfig where
  merge : UInt32 → MergeOptions
  pick : UInt32 → GcPickOptions

/-- New blob files, with the state their only transition so far has left. -/
def newFiles (event : FileEvent) (files : List (UInt64 × BlobFileMeta)) :
    List (UInt64 × BlobFileMeta) :=
  files.map fun file => (file.1, { file.2 with state := FileState.kInit.after event })

def newCalls (event : FileEvent) (files : List (UInt64 × BlobFileMeta)) : List TransitCall :=
  files.map fun file => ⟨file.1, .kInit, event⟩

def addEditOf (cf : UInt32) (event : FileEvent) (files : List (UInt64 × BlobFileMeta)) :
    VersionEdit BlobFileMeta := ⟨cf, none, newFiles event files, []⟩

def initializeAllFiles (st : BlobStorage) : Walk :=
  let w := Walk.transitFiles .kDbRestart st st.files.keys
  { w with storage := w.storage.computeGCScore }

/-- What `BlobFileSet::Open` leaves: recovered files have never seen an event. -/
def NewlyRecovered (s : BlobFileSet) : Prop :=
  ∀ e ∈ s.columnFamilies.entries, (e.2.gcScore.map (·.fileNumber)).Nodup ∧
    ∀ f ∈ e.2.files.entries, f.2.state = .kInit

instance (s : BlobFileSet) : Decidable (NewlyRecovered s) :=
  inferInstanceAs (Decidable (∀ _ ∈ _, _))

namespace BlobFileSet

def dropCalls (s : BlobFileSet) (obsoleteSequence : ℕ) :
    List (UInt32 × ManifestIO) → List TransitCall
  | [] => []
  | (cf, io) :: cfs =>
    match s.columnFamilies.lookup cf with
    | none => []
    | some st =>
      s.logAndApplyCalls (dropEdit cf st obsoleteSequence) io ++
        match s.logAndApply (dropEdit cf st obsoleteSequence) io with
        | (status, s') =>
          if !status.isOk then []
          else
            dropCalls { s' with obsoleteColumns := cf :: s'.obsoleteColumns } obsoleteSequence cfs

def rangeDeletion (cf : UInt32) (st : BlobStorage) (ranges : List (Option Key × Option Key))
    (includeEnd : Bool) (obsoleteSequence : ℕ) : VersionEdit BlobFileMeta :=
  ⟨cf, none, [], (st.getBlobFilesInRanges ranges includeEnd).map fun f => (f, obsoleteSequence)⟩

/-- `InitializeGC` over the column families, up to the first one whose flush fails. -/
def initializeGC (s : BlobFileSet) : List UInt32 → BlobFileSet × List TransitCall
  | [] => (s, [])
  | cf :: cfs =>
    match s.columnFamilies.lookup cf with
    | none => s.initializeGC cfs
    | some st =>
      let w := initializeAllFiles st
      let rest := (s.setStorage cf w.storage).initializeGC cfs
      (rest.1, w.calls ++ rest.2)

/-- The loop of `RewriteValidKeyToLSM` over the keys it could not rewrite. -/
def rewriteDropped (st : BlobStorage) (dropped : List (UInt64 × UInt64)) : BlobStorage :=
  dropped.foldl (fun st d =>
    match st.files.lookup d.1 with
    | none => st
    | some file => (st.setFile d.1 (file.updateLiveDataSize (castInt64 (0 - d.2)))).computeGCScore)
    st

end BlobFileSet

namespace FileMachine

inductive Action
  /-- `BatchFinishFiles` of a table builder. -/
  | finishBlobFiles (cf : UInt32) (files : List (UInt64 × BlobFileMeta)) (io : ManifestIO)
  | flushCompleted (cf : UInt32) (diff : SizeDiff)
  | compactionCompleted (cf : UInt32) (outputLevel : ℤ) (diff : SizeDiff) (seq : ℕ)
      (io : ManifestIO)
  | deleteFilesInRanges (cf : UInt32) (diff : SizeDiff) (seq : ℕ) (io : ManifestIO)
  | deleteBlobFilesInRanges (cf : UInt32) (ranges : List (Option Key × Option Key))
      (includeEnd : Bool) (seq : ℕ) (io : ManifestIO)
  | pickBlobGC (cf : UInt32)
  /-- `InstallOutputBlobFiles` and `InstallHardwareOutputBlobFiles`. -/
  | installOutputs (j : ℕ) (offload : Bool) (files : List (UInt64 × BlobFileMeta))
      (io : ManifestIO)
  | rewriteValidKeys (j : ℕ) (dropped : List (UInt64 × UInt64))
  | deleteInputBlobFiles (j : ℕ) (seq : ℕ) (io : ManifestIO)
  | releaseGcFiles (j : ℕ)
  | dropColumnFamilies (seq : ℕ) (cfs : List (UInt32 × ManifestIO))
  | restart (recovered : BlobFileSet) (initialized : List UInt32)

def made (m : FileMachine) (result : BlobFileSet × List TransitCall) : FileMachine :=
  { m with set := result.1, calls := m.calls ++ result.2 }

def setJob (m : FileMachine) (j : ℕ) (job : GcJob) : FileMachine :=
  { m with jobs := m.jobs.set j job }

def logged (m : FileMachine) (edit : VersionEdit BlobFileMeta) (io : ManifestIO) : FileMachine :=
  m.made ((m.set.logAndApply edit io).2, m.set.logAndApplyCalls edit io)

/-- The edit of `DeleteInputBlobFiles`, without the inputs that are obsolete already. -/
def inputEdit (m : FileMachine) (job : GcJob) (seq : ℕ) : VersionEdit BlobFileMeta :=
  ⟨job.cf, none, [], (job.inputs.filter fun f =>
    ((m.set.columnFamilies.lookup job.cf).bind fun st => st.files.lookup f).any fun file =>
      !file.isObsolete).map fun f => (f, seq)⟩

def release (m : FileMachine) (job : GcJob) : FileMachine :=
  match m.set.columnFamilies.lookup job.cf with
  | none => m
  | some st =>
    let w := Walk.transitFiles .kGCCompleted st (job.inputs ++ job.outputs)
    m.made (m.set.setStorage job.cf w.storage,
      w.calls ++ job.unlogged.map fun f => ⟨f, .kPendingGC, .kGCCompleted⟩)

def step (c : LifecycleConfig) (m : FileMachine) : Action → Option FileMachine
  | .finishBlobFiles cf files io =>
    some ({ m with calls := m.calls ++ newCalls .kFlushOrCompactionOutput files }.logged
      (addEditOf cf .kFlushOrCompactionOutput files) io)
  | .flushCompleted cf diff => some (m.made (m.set.onFlushCompleted cf diff))
  | .compactionCompleted cf outputLevel diff seq io =>
    some (m.made (m.set.onCompactionCompleted (c.merge cf) cf outputLevel diff seq io))
  | .deleteFilesInRanges cf diff seq io =>
    some (m.made (m.set.deleteFilesInRanges (c.merge cf) cf diff seq io))
  | .deleteBlobFilesInRanges cf ranges includeEnd seq io =>
    match m.set.columnFamilies.lookup cf with
    | none => some m
    | some st => some (m.logged (BlobFileSet.rangeDeletion cf st ranges includeEnd seq) io)
  | .pickBlobGC cf =>
    match m.set.columnFamilies.lookup cf with
    | none => some m
    | some st =>
      match if cf ∈ m.set.obsoleteColumns then none else AegonKV.pickBlobGC (c.pick cf) st with
      | none => some m
      | some inputs =>
        let w := Walk.transitFiles .kGCBegin st inputs
        some { m.made (m.set.setStorage cf w.storage, w.calls) with
          jobs := m.jobs ++ [{ cf := cf, inputs := inputs }] }
  | .installOutputs j offload files io =>
    match m.jobs[j]? with
    | some job =>
      if job.stage = .picked then
        let edit := addEditOf job.cf .kGCOutput files
        let m' := { m with calls := m.calls ++ newCalls .kGCOutput files }.logged edit io
        if (m.set.logAndApply edit io).1.isOk then
          some (m'.setJob j { job with outputs := files.map (·.1), stage := .installed })
        else
          some (m'.setJob j
            { job with unlogged := if offload then files.map (·.1) else [], stage := .failed })
      else none
    | none => none
  | .rewriteValidKeys j dropped =>
    match m.jobs[j]? with
    | some job =>
      if job.stage = .installed then
        match m.set.columnFamilies.lookup job.cf with
        | none => some (m.setJob j { job with stage := .rewritten })
        | some st =>
          some ((m.made (m.set.setStorage job.cf (BlobFileSet.rewriteDropped st dropped), [])).setJob
            j { job with stage := .rewritten })
      else none
    | none => none
  | .deleteInputBlobFiles j seq io =>
    match m.jobs[j]? with
    | some job =>
      if job.stage = .rewritten then
        some ((m.logged (m.inputEdit job seq) io).setJob j { job with stage := .inputsDeleted })
      else none
    | none => none
  | .releaseGcFiles j =>
    match m.jobs[j]? with
    | some job => some { m.release job with jobs := m.jobs.eraseIdx j }
    | none => none
  | .dropColumnFamilies seq cfs =>
    some (m.made ((m.set.dropColumnFamilies seq cfs).2, m.set.dropCalls seq cfs))
  | .restart recovered initialized =>
    if NewlyRecovered recovered ∧ initialized.Nodup then
      some (FileMachine.made { m with jobs := [] } (recovered.initializeGC initialized))
    else none

end FileMachine

end AegonKV
