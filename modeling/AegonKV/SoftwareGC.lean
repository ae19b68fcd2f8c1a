import AegonKV.TransitionSystem
import AegonKV.VersionedLsm

/-!
# A column family with software garbage collection

Any number of jobs run next to user writes, flushes and snapshots. A job marks its inputs, walks
over their records with `DoRunGC`, installs its output file, writes every queued rewrite with a
callback that looks at the key again, flushes the WAL and deletes its inputs. It may stop at any
point and then only releases its files.
-/

namespace AegonKV.SoftwareGC
open LittleEndian AegonKV

variable {κ : Type} [DecidableEq κ]

/-- A write batch with its `GarbageCollectionWriteCallback`. -/
structure Rewrite (κ : Type) where
  key : κ
  blobIndex : BlobIndexType
  entry : LsmEntry
  deriving DecidableEq, Repr

abbrev Output (κ : Type) := UInt64 × List (BlobRec κ)

structure Job (κ : Type) where
  inputs : List UInt64
  useBitmap : Bool
  fallback : Bool
  /-- The invalid-entry bits `BuildIterator` copied. -/
  bits : UInt64 → UInt64 → Bool
  /-- What the merge iterator has not yielded yet. -/
  todo : List (UInt64 × BlobRec κ)
  lastKey : Option κ
  lastKeyIsFresh : Bool
  output : Option (Output κ)
  rewriteBatches : List (Rewrite κ)
  installed : Bool
  droppedIndex : List (UInt64 × UInt64)
  walFlushed : Bool
  /-- What `DeleteInputBlobFiles` read before it logged the deletions. -/
  obsoleteSequence : Option ℕ

structure State (κ : Type) where
  lsm : Lsm κ
  /-- The live snapshots, each with its sequence number. -/
  snapshots : List (ℕ × ℕ)
  files : BlobFiles κ
  /-- The numbers `NewFileNumber` has given out; counting starts at 1. -/
  numbers : List UInt64
  jobs : ℕ → Option (Job κ)
  /-- The last user write of each key, `none` for a Delete. -/
  lastWrite : κ → Option Bytes

omit [DecidableEq κ] in
def State.init : State κ :=
  { lsm := .empty, snapshots := [], files := fun _ => none, numbers := [0], jobs := fun _ => none,
    lastWrite := fun _ => none }

omit [DecidableEq κ] in
def resolveEntry (files : BlobFiles κ) : Option LsmEntry → Option Bytes
  | some (.value v) => some v
  | some (.blobIndex p) => (files.read p).map (·.value)
  | _ => none

omit [DecidableEq κ] in
theorem resolveEntry_some (files : BlobFiles κ) (e : LsmEntry) :
    resolveEntry files (some e) = e.valueIn files := by
  cases e <;> rfl

omit [DecidableEq κ] in
def State.get (s : State κ) (k : κ) : Option Bytes :=
  resolveEntry s.files (s.lsm.latest k)

/-! ## Flushes -/

omit [DecidableEq κ] in
/-- `BatchFinishFiles` of the table builder: no record, no blob file. -/
def State.finishTable (s : State κ) (f : UInt64) (records : List (BlobRec κ)) :
    Option (State κ) :=
  if h : (records.map fun r => r.handle.offset).Nodup then
    if records.isEmpty then some s
    else if f ∈ s.numbers then none
    else (fileStateTransit .kInit .kFlushOrCompactionOutput).map fun state =>
      { s with
        files := Function.update s.files f (some ⟨records, state, h⟩)
        numbers := f :: s.numbers }
  else none

/-- Tables replaced by rewritten ones, with the blob file the table builder filled. -/
def State.rewriteTables (s : State κ) (f : UInt64) (records : List (ℕ × BlobRec κ))
    (inlined dropped : List (κ × ℕ)) : Option (State κ) :=
  if s.lsm.Copies s.files records ∧ (records.map fun x => x.2.handle.index).Nodup then
    (s.finishTable f (records.map (·.2))).map fun s' =>
      { s' with lsm := s.lsm.rewriteTables s.files f records inlined dropped }
  else none

/-- Versions up to `upto` may go that neither a snapshot nor a read at `upto` or later sees. -/
def State.Droppable (s : State κ) (upto : ℕ) (dropped : List (κ × ℕ)) : Prop :=
  (∀ d ∈ dropped, d.2 ≤ upto) ∧ s.lsm.ShadowedAt dropped upto ∧
    ∀ x ∈ s.snapshots, s.lsm.ShadowedAt dropped x.2

instance (s : State κ) (upto : ℕ) (dropped : List (κ × ℕ)) :
    Decidable (s.Droppable upto dropped) :=
  inferInstanceAs (Decidable (_ ∧ _))

/-- A flush of the memtables that hold the versions up to `upto`; it separates Values. -/
def State.flushStep (s : State κ) (upto : ℕ) (f : UInt64) (records : List (ℕ × BlobRec κ))
    (dropped : List (κ × ℕ)) : Option (State κ) :=
  if upto ≤ s.lsm.lastSequence ∧ (∀ x ∈ records, x.1 ≤ upto) ∧ s.lsm.Separates records ∧
      s.Droppable upto dropped then
    s.rewriteTables f records [] dropped
  else none

/-- A flush in fallback mode: no blob file, and the values of the indices that can be read. -/
def State.fallbackFlushStep (s : State κ) (upto : ℕ) (inlined dropped : List (κ × ℕ)) :
    Option (State κ) :=
  if upto ≤ s.lsm.lastSequence ∧ (∀ x ∈ inlined, x.2 ≤ upto) ∧ s.Droppable upto dropped then
    s.rewriteTables 0 [] inlined dropped
  else none

/-! ## Garbage collection -/

omit [DecidableEq κ] in
def fileRecords (files : BlobFiles κ) (f : UInt64) : List (UInt64 × BlobRec κ) :=
  match files f with
  | none => []
  | some bf => bf.records.map fun r => (f, r)

omit [DecidableEq κ] in
def inputRecords (files : BlobFiles κ) (inputs : List UInt64) : List (UInt64 × BlobRec κ) :=
  inputs.flatMap (fileRecords files)

/-- `BlobIndex::operator==`, which leaves the index of the handle out. -/
def sameBlob (a b : BlobIndexType) : Bool :=
  a.fileNumber == b.fileNumber && a.offset == b.offset && a.size == b.size

/-- The test that `DiscardEntry` and `GarbageCollectionWriteCallback::Callback` share: the key is
still at the blob. -/
def isAt (blobIndex : BlobIndexType) : Option LsmEntry → Bool
  | some (.blobIndex other) => sameBlob blobIndex other
  | _ => false

omit [DecidableEq κ] in
def Job.start (inputs : List UInt64) (order : List (UInt64 × BlobRec κ)) (useBitmap fallback : Bool)
    (bits : UInt64 → UInt64 → Bool) : Job κ :=
  { inputs, useBitmap, fallback, bits, todo := order, lastKey := none, lastKeyIsFresh := false,
    output := none, rewriteBatches := [], installed := false, droppedIndex := [],
    walFlushed := false, obsoleteSequence := none }

/-- `PickBlobGC` and `BuildIterator`. The merge iterator yields the records in some order. -/
def State.gcBeginStep (s : State κ) (j : ℕ) (inputs : List UInt64)
    (order : List (UInt64 × BlobRec κ)) (useBitmap fallback : Bool)
    (bits : UInt64 → UInt64 → Bool) : Option (State κ) :=
  if (s.jobs j).isNone ∧ inputs.Nodup ∧ order.isPerm (inputRecords s.files inputs) then
    (s.files.transitAll .kGCBegin inputs).map fun files =>
      { s with
        files := files
        jobs := Function.update s.jobs j (some (.start inputs order useBitmap fallback bits)) }
  else none

/-- The iteration that writes the record to the output or, in fallback mode, queues its value. -/
def Job.keep (job : Job κ) (f : UInt64) (r : BlobRec κ) (g offset size : UInt64) : Job κ :=
  if job.fallback then
    { job with rewriteBatches := job.rewriteBatches ++ [⟨r.key, pointerTo f r, .value r.value⟩] }
  else
    -- `file_size` stays 0, so a job never moves on to a second builder
    let (number, records) := job.output.getD (g, [])
    let copy := { r with handle := ⟨offset, size, UInt64.ofNat records.length⟩ }
    { job with
      output := some (number, records ++ [copy])
      rewriteBatches := job.rewriteBatches ++
        [⟨r.key, pointerTo f r, .blobIndex (pointerTo number copy)⟩] }

omit [DecidableEq κ] in
/-- `ValidateByBitMap` or `DiscardEntry`. -/
def Job.discardable (job : Job κ) (latest : κ → Option LsmEntry) (f : UInt64) (r : BlobRec κ) :
    Bool :=
  if job.useBitmap then job.bits f r.handle.index else !isAt (pointerTo f r) (latest r.key)

/-- One iteration of the loop of `DoRunGC`; `g` is what `NewFile` returns should it be called, and
the builder puts the record at `offset` with `size` bytes. -/
def Job.record (job : Job κ) (latest : κ → Option LsmEntry) (g offset size : UInt64) :
    Option (Job κ) :=
  match job.todo with
  | [] => none
  | (f, r) :: todo =>
    if job.lastKey = some r.key ∧ job.lastKeyIsFresh then some { job with todo := todo }
    else if job.discardable latest f r then
      some { job with todo := todo, lastKey := some r.key, lastKeyIsFresh := false }
    else
      let job := { job with todo := todo, lastKey := some r.key, lastKeyIsFresh := !job.useBitmap }
      some (job.keep f r g offset size)

def State.gcRecordStep (s : State κ) (j : ℕ) (g offset size : UInt64) : Option (State κ) :=
  if g ∈ s.numbers then none
  else do
    let job ← s.jobs j
    let job' ← job.record s.lsm.latest g offset size
    return { s with
      numbers := if job.output.isNone ∧ job'.output.isSome then g :: s.numbers else s.numbers
      jobs := Function.update s.jobs j (some job') }

/-- `InstallOutputBlobFiles`, once the iterator is exhausted. -/
def State.gcInstallStep (s : State κ) (j : ℕ) : Option (State κ) :=
  match s.jobs j with
  | none => none
  | some job =>
    if job.todo.isEmpty ∧ !job.installed then
      let s' := { s with jobs := Function.update s.jobs j (some { job with installed := true }) }
      match job.output with
      | none => some s'
      | some (g, records) =>
        if h : (records.map fun r => r.handle.offset).Nodup then
          (fileStateTransit .kInit .kGCOutput).map fun state =>
            { s' with files := Function.update s.files g (some ⟨records, state, h⟩) }
        else none
    else none

/-- One `WriteWithCallback` of `RewriteValidKeyToLSM`: the callback and the write are atomic. -/
def State.gcRewriteStep (s : State κ) (j : ℕ) : Option (State κ) :=
  match s.jobs j with
  | none => none
  | some job =>
    match job.rewriteBatches with
    | [] => none
    | w :: rest =>
      if job.installed then
        let job' := { job with rewriteBatches := rest }
        if isAt w.blobIndex (s.lsm.latest w.key) then
          some { s with
            lsm := s.lsm.write w.key w.entry
            jobs := Function.update s.jobs j (some job') }
        else
          -- an inlined value has the default index, and no file has the number 0
          let dropped := if job.useBitmap then w.entry.ref?.toList else []
          some { s with
            jobs := Function.update s.jobs j (some
              { job' with droppedIndex := job.droppedIndex ++ dropped }) }
      else none

/-- The end of `RewriteValidKeyToLSM`. -/
def State.gcFlushWALStep (s : State κ) (j : ℕ) : Option (State κ) :=
  match s.jobs j with
  | none => none
  | some job =>
    if job.installed ∧ job.rewriteBatches.isEmpty ∧ !job.walFlushed then
      some { s with jobs := Function.update s.jobs j (some { job with walFlushed := true }) }
    else none

omit [DecidableEq κ] in
/-- `DeleteInputBlobFiles` up to the manifest write. -/
def State.gcDeleteInputsStep (s : State κ) (j : ℕ) : Option (State κ) :=
  match s.jobs j with
  | none => none
  | some job =>
    if job.walFlushed ∧ job.obsoleteSequence.isNone then
      some { s with jobs := Function.update s.jobs j (some
        { job with obsoleteSequence := some s.lsm.lastSequence }) }
    else none

omit [DecidableEq κ] in
/-- `BlobGC::outputs_`, which are the files that were installed. -/
def Job.outputs (job : Job κ) : List UInt64 :=
  if job.installed then (job.output.map (·.1)).toList else []

omit [DecidableEq κ] in
def releaseGcFiles (files : BlobFiles κ) (job : Job κ) : Option (BlobFiles κ) := do
  let files ← files.transitAll .kGCCompleted job.inputs
  files.transitAll .kGCCompleted job.outputs

omit [DecidableEq κ] in
def isObsolete (files : BlobFiles κ) (f : UInt64) : Bool :=
  (files f).any fun bf => bf.state = .kObsolete

omit [DecidableEq κ] in
/-- The deletions applied, and `ReleaseGcFiles` under the same mutex. -/
def State.gcFinishStep (s : State κ) (j : ℕ) : Option (State κ) :=
  match s.jobs j with
  | none => none
  | some job =>
    if job.obsoleteSequence.isSome then do
      let files ← s.files.transitAll .kDelete (job.inputs.filter fun f => !isObsolete s.files f)
      let files ← releaseGcFiles files job
      return { s with files := files, jobs := Function.update s.jobs j none }
    else none

omit [DecidableEq κ] in
/-- A job that stopped on a shutdown or on a failed write. -/
def State.gcAbortStep (s : State κ) (j : ℕ) : Option (State κ) := do
  let job ← s.jobs j
  let files ← releaseGcFiles s.files job
  return { s with files := files, jobs := Function.update s.jobs j none }

inductive Action (κ : Type)
  | put (k : κ) (v : Bytes)
  | delete (k : κ)
  | flush (upto : ℕ) (f : UInt64) (records : List (ℕ × BlobRec κ)) (dropped : List (κ × ℕ))
  | flushCompleted (f : UInt64)
  | getSnapshot (i : ℕ)
  | releaseSnapshot (i : ℕ)
  | gcBegin (j : ℕ) (inputs : List UInt64) (order : List (UInt64 × BlobRec κ))
      (useBitmap fallback : Bool) (bits : UInt64 → UInt64 → Bool)
  | gcRecord (j : ℕ) (g offset size : UInt64)
  | gcInstall (j : ℕ)
  | gcRewrite (j : ℕ)
  | gcFlushWAL (j : ℕ)
  | gcDeleteInputs (j : ℕ)
  | gcFinish (j : ℕ)
  | gcAbort (j : ℕ)

def State.userWrite (s : State κ) (k : κ) (v : Option Bytes) : State κ :=
  { s with
    lsm := s.lsm.write k (v.elim .deletion .value)
    lastWrite := Function.update s.lastWrite k v }

def step (s : State κ) : Action κ → Option (State κ)
  | .put k v => some (s.userWrite k (some v))
  | .delete k => some (s.userWrite k none)
  | .flush upto f records dropped => s.flushStep upto f records dropped
  | .flushCompleted f =>
    (s.files.transit .kFlushCompleted f).map fun files => { s with files := files }
  | .getSnapshot i =>
    if i ∈ s.snapshots.map (·.1) then none
    else some { s with snapshots := (i, s.lsm.lastSequence) :: s.snapshots }
  | .releaseSnapshot i => some { s with snapshots := s.snapshots.filter fun x => x.1 ≠ i }
  | .gcBegin j inputs order useBitmap fallback bits =>
    s.gcBeginStep j inputs order useBitmap fallback bits
  | .gcRecord j g offset size => s.gcRecordStep j g offset size
  | .gcInstall j => s.gcInstallStep j
  | .gcRewrite j => s.gcRewriteStep j
  | .gcFlushWAL j => s.gcFlushWALStep j
  | .gcDeleteInputs j => s.gcDeleteInputsStep j
  | .gcFinish j => s.gcFinishStep j
  | .gcAbort j => s.gcAbortStep j

/-- Steps in any run mode. `Action` has those of the normal and the read-only mode, and the jobs of
every mode; in fallback mode a flush inlines. -/
inductive RunAction (κ : Type)
  | gc (a : Action κ)
  | fallbackFlush (upto : ℕ) (inlined dropped : List (κ × ℕ))

def runStep (s : State κ) : RunAction κ → Option (State κ)
  | .gc a => step s a
  | .fallbackFlush upto inlined dropped => s.fallbackFlushStep upto inlined dropped

end AegonKV.SoftwareGC
