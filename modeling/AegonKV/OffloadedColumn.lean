import AegonKV.CheckpointComplete
import AegonKV.ExposedVersions
import AegonKV.InvalidEntriesSound
import AegonKV.OffloadedTables
import AegonKV.Ownership

/-!
# Column families with offloaded garbage collection, for checkpoints

A hardware job copies the records whose bit is 0 and writes every copy back without looking at what
the key has become. A job that finds no free compute unit runs in software: it writes with a
callback and may pass records over. Flushes and compactions resolve the versions of a key as
`Preprocess` does in a build without assertions, and their table builders separate, copy or inline
values. A compaction reports the records its tables no longer reference, later and in any order.
-/

namespace AegonKV.OffloadedColumn
open LittleEndian AegonKV SoftwareGC Checkpoint
open AegonKV.OffloadedGC (addBlobFile copies keptRecords)

variable {κ : Type}

abbrev Table (κ : Type) := κ → List StreamVersion

/-- A job with its `gc_offload_`; `started` once `Run` has chosen where it runs. -/
structure Job (κ : Type) extends SoftwareGC.Job κ where
  started : Bool
  gcOffload : Bool

structure State (κ : Type) where
  mem : Table κ
  imm : List (Table κ)
  ssts : List (Table κ)
  files : BlobFiles κ
  /-- The numbers of the files that were installed. -/
  numbers : List UInt64
  jobs : List (Job κ)
  /-- The records that compactions dropped, as far as `OnCompactionCompleted` has not run. -/
  callbacks : List (List (UInt64 × UInt64))
  /-- The records whose bit is set. -/
  invalid : List (UInt64 × UInt64)

def State.init : State κ :=
  { mem := fun _ => [], imm := [], ssts := [], files := fun _ => none, numbers := [], jobs := [],
    callbacks := [], invalid := [] }

def State.versions (s : State κ) (k : κ) : List StreamVersion :=
  s.mem k ++ s.imm.flatMap (· k) ++ s.ssts.flatMap (· k)

def State.bits (s : State κ) (f i : UInt64) : Bool := (f, i) ∈ s.invalid

/-! ## Lookups -/

/-- The fields of `Saver` that a lookup without merge operands uses; a Deletion stands for the
status `NotFound`. -/
structure Saver where
  value : Option StreamVersion := none
  pendingCheckInMem : Bool := false
  deriving DecidableEq, Repr

/-- `SaveValue` with a pending check, for a column family with Deletions; the flag says whether to
go on to the next older entry. -/
def saveValue (s : Saver) : StreamVersion → Saver × Bool
  | .deletion => ({ s with value := some .deletion }, false)
  | .version v =>
    let (found, more) := OffloadedGC.saveValue ⟨none, s.pendingCheckInMem⟩ v
    (⟨(found.value.map .version).or s.value, found.pendingCheckInMem⟩, more)

/-- `MemTable::GetFromTable` over the key's entries, newest first. -/
def getFromTable (s : Saver) : List StreamVersion → Saver
  | [] => s
  | v :: vs =>
    let (s', more) := saveValue s v
    if more then getFromTable s' vs else s'

/-- The version `DBImpl::GetImpl` stops at, as the reader sees it: the mutable memtable with the
pending check, then the newest entry of the others. -/
def State.lookup (s : State κ) (k : κ) : Option LsmEntry :=
  (((getFromTable {} (s.mem k)).value.or (s.imm.findSome? fun t => (t k).head?)).or
    (s.ssts.findSome? fun t => (t k).head?)).map (·.entry)

/-! ## Flushes and compactions -/

/-- What `BlobValidationCollector` gathers from a table, which leaves the old parts out. -/
def collect (table : Table κ) (keys : List κ) : List (UInt64 × UInt64) :=
  keys.flatMap fun k => (table k).filterMap fun v => v.newPart.map fun p => (p.fileNumber, p.index)

/-- An index whose record can be read becomes the value, any other version stays. -/
def inlineValue (files : BlobFiles κ) (v : StreamVersion) : StreamVersion :=
  match v.newPart.bind files.read with
  | none => v
  | some r => .version (.value r.value)

def distinctIndexes (records : List (BlobRec κ)) : Bool :=
  decide (records.map fun r => r.handle.index).Nodup

section Tables

variable [DecidableEq κ]

/-- `TitanTableBuilder::Add`: the version of a key with a record in the new blob file becomes the
index of that record, and in fallback mode an index may become the value. -/
def tableAdd (files : BlobFiles κ) (f : UInt64) (records : List (BlobRec κ)) (inlined : List κ)
    (k : κ) (v : StreamVersion) : StreamVersion :=
  match records.find? fun r => r.key = k with
  | some r => .version (.plain (pointerTo f r))
  | none => if k ∈ inlined then inlineValue files v else v

def buildTable (files : BlobFiles κ) (segment : Table κ) (f : UInt64) (records : List (BlobRec κ))
    (inlined : List κ) : Table κ := fun k =>
  ((resolveStream (segment k)).map (tableAdd files f records inlined k)).toList

omit [DecidableEq κ] in
/-- The records of the new file hold the values that the versions they replace lead to. -/
def Copies (files : BlobFiles κ) (segment : Table κ) (records : List (BlobRec κ)) : Prop :=
  ∀ r ∈ records, (resolveStream (segment r.key)).bind (fun v => v.entry.valueIn files) = some r.value

instance (files : BlobFiles κ) (segment : Table κ) (records : List (BlobRec κ)) :
    Decidable (Copies files segment records) :=
  inferInstanceAs (Decidable (∀ r ∈ records, _))

/-- The blob file of a flush or a compaction over `segment`, if it has records. -/
def State.finishTable (s : State κ) (segment : Table κ) (f : UInt64) (records : List (BlobRec κ)) :
    Option (State κ) :=
  if Copies s.files segment records ∧ distinctIndexes records then
    (addBlobFile s.files f records).map fun files =>
      { s with
        files := files
        numbers := if records.isEmpty then s.numbers else f :: s.numbers }
  else none

omit [DecidableEq κ] in
/-- The oldest `n` immutable memtables. -/
def State.flushSegment (s : State κ) (n : ℕ) : Table κ := fun k =>
  (s.imm.drop (s.imm.length - n)).flatMap (· k)

def State.flushStep (s : State κ) (n : ℕ) (f : UInt64) (records : List (BlobRec κ))
    (inlined : List κ) : Option (State κ) :=
  (s.finishTable (s.flushSegment n) f records).map fun s' =>
    { s' with
      imm := s.imm.take (s.imm.length - n)
      ssts := buildTable s.files (s.flushSegment n) f records inlined :: s.ssts }

omit [DecidableEq κ] in
/-- The runs `i`, …, `i + n - 1` restricted to the selected keys. -/
def State.segment (s : State κ) (i n : ℕ) (selected : κ → Bool) : Table κ := fun k =>
  if selected k then ((s.ssts.drop i).take n).flatMap (· k) else []

/-- A compaction over tables with the given user keys. -/
def State.compactStep (s : State κ) (i n : ℕ) (selected : κ → Bool) (keys : List κ) (f : UInt64)
    (records : List (BlobRec κ)) (inlined : List κ) : Option (State κ) :=
  let segment := s.segment i n selected
  let table := buildTable s.files segment f records inlined
  let dropped := (collect segment keys).filter fun ref => ref ∉ collect table keys
  (s.finishTable segment f records).map fun s' =>
    { s' with
      ssts := s.ssts.take i ++
        ((s.ssts.drop i).take n).map (fun t k => if selected k then [] else t k) ++
        table :: (s.ssts.drop i).drop n
      callbacks := s.callbacks ++ [dropped] }

end Tables

/-! ## Jobs -/

/-- `PickBlobGC`. -/
def State.gcBeginStep (s : State κ) (inputs : List UInt64) : Option (State κ) :=
  if inputs.Nodup then
    (s.files.transitAll .kGCBegin inputs).map fun files =>
      { s with
        files := files
        jobs := s.jobs ++
          [⟨.start inputs (inputRecords s.files inputs) false false fun _ _ => false, false, true⟩] }
  else none

/-- The batch `DoRunGCOnHardware` queues; the old handle's index is left at its default. -/
def rewriteOf (output : UInt64) (kept : UInt64 × BlobRec κ) (copy : BlobRec κ) : Rewrite κ :=
  ⟨kept.2.key, { pointerTo kept.1 kept.2 with index := 0 }, .blobIndex (pointerTo output copy)⟩

/-- `DoRunGCOnHardware` on a free compute unit. -/
def State.gcOnHardwareStep (s : State κ) (j : ℕ) (output : UInt64) (offsets : List UInt64) :
    Option (State κ) :=
  match s.jobs[j]? with
  | none => none
  | some job =>
    let kept := keptRecords s.files s.bits job.inputs
    let records := copies kept offsets
    if !job.started ∧ kept.length = offsets.length then
      let start := Job.start job.inputs [] true false s.bits
      some { s with
        jobs := s.jobs.set j
          ⟨{ start with
              output := some (output, records)
              rewriteBatches := List.zipWith (rewriteOf output) kept records }, true, true⟩ }
    else none

section Fallback

variable [DecidableEq κ]

/-- No compute unit is free: `gc_offload_ = false` and `BuildIterator` of `DoRunGC`. -/
def State.gcFallBackStep (s : State κ) (j : ℕ) (order : List (UInt64 × BlobRec κ))
    (useBitmap fallback : Bool) : Option (State κ) :=
  match s.jobs[j]? with
  | none => none
  | some job =>
    if !job.started ∧ order.isPerm (inputRecords s.files job.inputs) then
      some { s with
        jobs := s.jobs.set j ⟨.start job.inputs order useBitmap fallback s.bits, true, false⟩ }
    else none

def State.gcRecordStep (s : State κ) (j : ℕ) (g offset size : UInt64) : Option (State κ) :=
  match s.jobs[j]? with
  | none => none
  | some job =>
    if job.started then
      (job.toJob.record s.lookup g offset size).map fun job' =>
        { s with jobs := s.jobs.set j { job with toJob := job' } }
    else none

end Fallback

/-- `InstallOutputBlobFiles` or `InstallHardwareOutputBlobFiles`. -/
def State.gcInstallStep (s : State κ) (j : ℕ) : Option (State κ) :=
  match s.jobs[j]? with
  | none => none
  | some job =>
    if job.started ∧ job.todo.isEmpty ∧ !job.installed then
      let s' := { s with jobs := s.jobs.set j { job with installed := true } }
      match job.output with
      | none => some s'
      | some (g, records) =>
        if h : (records.map fun r => r.handle.offset).Nodup then
          if distinctIndexes records ∧ (s.files g).isNone then
            (fileStateTransit .kInit .kGCOutput).map fun state =>
              { s' with
                files := Function.update s.files g (some ⟨records, state, h⟩)
                numbers := g :: s.numbers }
          else none
        else none
    else none

/-- What a batch writes: a hardware job keeps the old index in the new one. -/
def written (gcOffload : Bool) (w : Rewrite κ) : StreamVersion :=
  match w.entry with
  | .deletion => .deletion
  | .value b => .version (.value b)
  | .blobIndex p => .version (if gcOffload then .writeBack p w.blobIndex else .plain p)

section Writes

variable [DecidableEq κ]

def State.pushMem (s : State κ) (k : κ) (v : StreamVersion) : State κ :=
  { s with mem := Function.update s.mem k (v :: s.mem k) }

/-- One write of `RewriteValidKeyToLSM`: `Write` for a hardware job, else `WriteWithCallback`. -/
def State.gcRewriteStep (s : State κ) (j : ℕ) : Option (State κ) :=
  match s.jobs[j]? with
  | none => none
  | some job =>
    match job.rewriteBatches with
    | [] => none
    | w :: rest =>
      if job.installed then
        if job.gcOffload || isAt w.blobIndex (s.lookup w.key) then
          some { s.pushMem w.key (written job.gcOffload w) with
            jobs := s.jobs.set j { job with rewriteBatches := rest } }
        else
          let dropped := if job.useBitmap then w.entry.ref?.toList else []
          some { s with
            jobs := s.jobs.set j
              { job with rewriteBatches := rest, droppedIndex := job.droppedIndex ++ dropped } }
      else none

end Writes

/-- The end of `RewriteValidKeyToLSM`. -/
def State.gcFlushWALStep (s : State κ) (j : ℕ) : Option (State κ) :=
  match s.jobs[j]? with
  | none => none
  | some job =>
    if job.installed ∧ job.rewriteBatches.isEmpty ∧ !job.walFlushed then
      some { s with
        invalid := s.invalid ++ job.droppedIndex
        jobs := s.jobs.set j { job with walFlushed := true } }
    else none

/-- `DeleteInputBlobFiles` and `ReleaseGcFiles`. -/
def State.gcFinishStep (s : State κ) (j : ℕ) : Option (State κ) :=
  match s.jobs[j]? with
  | none => none
  | some job =>
    if job.walFlushed then do
      let files ← s.files.transitAll .kDelete (job.inputs.filter fun f => !isObsolete s.files f)
      let files ← releaseGcFiles files job.toJob
      return { s with files := files, jobs := s.jobs.eraseIdx j }
    else none

def State.gcAbortStep (s : State κ) (j : ℕ) : Option (State κ) := do
  let job ← s.jobs[j]?
  let files ← releaseGcFiles s.files job.toJob
  return { s with files := files, jobs := s.jobs.eraseIdx j }

/-! ## Steps -/

inductive Action (κ : Type)
  | put (k : κ) (v : Bytes)
  | delete (k : κ)
  | switchMemtable
  | flush (n : ℕ) (f : UInt64) (records : List (BlobRec κ)) (inlined : List κ)
  | flushCompleted (f : UInt64)
  | compact (i n : ℕ) (selected : κ → Bool) (keys : List κ) (f : UInt64)
      (records : List (BlobRec κ)) (inlined : List κ)
  | compactionCompleted (i : ℕ)
  | compactionOutput (f : UInt64) (noLiveData : Bool)
  | levelMerged (f : UInt64) (noLiveData : Bool)
  | gcBegin (inputs : List UInt64)
  | gcOnHardware (j : ℕ) (output : UInt64) (offsets : List UInt64)
  | gcFallBack (j : ℕ) (order : List (UInt64 × BlobRec κ)) (useBitmap fallback : Bool)
  | gcRecord (j : ℕ) (g offset size : UInt64)
  | gcInstall (j : ℕ)
  | gcRewrite (j : ℕ)
  | gcFlushWAL (j : ℕ)
  | gcFinish (j : ℕ)
  | gcAbort (j : ℕ)

def step [DecidableEq κ] (s : State κ) : Action κ → Option (State κ)
  | .put k v => some (s.pushMem k (.version (.value v)))
  | .delete k => some (s.pushMem k .deletion)
  | .switchMemtable => some { s with mem := fun _ => [], imm := s.mem :: s.imm }
  | .flush n f records inlined => s.flushStep n f records inlined
  | .flushCompleted f =>
    (s.files.transit .kFlushCompleted f).map fun files => { s with files := files }
  | .compact i n selected keys f records inlined =>
    s.compactStep i n selected keys f records inlined
  | .compactionCompleted i =>
    s.callbacks[i]?.map fun dropped =>
      { s with callbacks := s.callbacks.eraseIdx i, invalid := s.invalid ++ dropped }
  | .compactionOutput f noLiveData =>
    (InvalidEntries.completeOutput s.files f noLiveData).map fun files => { s with files := files }
  | .levelMerged f noLiveData =>
    (InvalidEntries.levelMerge s.files f noLiveData).map fun files => { s with files := files }
  | .gcBegin inputs => s.gcBeginStep inputs
  | .gcOnHardware j output offsets => s.gcOnHardwareStep j output offsets
  | .gcFallBack j order useBitmap fallback => s.gcFallBackStep j order useBitmap fallback
  | .gcRecord j g offset size => s.gcRecordStep j g offset size
  | .gcInstall j => s.gcInstallStep j
  | .gcRewrite j => s.gcRewriteStep j
  | .gcFlushWAL j => s.gcFlushWALStep j
  | .gcFinish j => s.gcFinishStep j
  | .gcAbort j => s.gcAbortStep j

/-! ## When a step loses no record -/

/-- The job leaves the record behind without a bit that says so: it is an older record of a key
just kept, or the lookup finds the key elsewhere. -/
def passesOver (job : SoftwareGC.Job κ) [DecidableEq κ] (latest : κ → Option LsmEntry) (f : UInt64)
    (r : BlobRec κ) : Prop :=
  job.lastKey = some r.key ∧ job.lastKeyIsFresh = true ∨
    job.useBitmap = false ∧ isAt (pointerTo f r) (latest r.key) = false

/-- The state a step must be taken from: no flush or compaction meets a write-back directly above a
Deletion; a job that fell back to software passes over a record, or finds its rewrite Busy, when no
version leads to the record any more; no file to which a version leads is deleted for its live data
size. -/
def Harmless [DecidableEq κ] (s : State κ) : Action κ → Prop
  | .flush n _ _ _ => ∀ k, writeBackOverDeletion (s.flushSegment n k) = false
  | .compact i n selected _ _ _ _ => ∀ k, writeBackOverDeletion (s.segment i n selected k) = false
  | .gcRecord j _ _ _ => ∀ job f r todo, s.jobs[j]? = some job → job.todo = (f, r) :: todo →
      passesOver job.toJob s.lookup f r → exposed (pointerTo f r) (s.versions r.key) = false
  | .gcRewrite j => ∀ job w rest, s.jobs[j]? = some job → job.rewriteBatches = w :: rest →
      job.gcOffload = false → isAt w.blobIndex (s.lookup w.key) = false →
        ∀ p, w.blobIndex.sameRecord p = true → exposed p (s.versions w.key) = false
  | .compactionOutput f noLiveData | .levelMerged f noLiveData =>
    noLiveData = true → ∀ k p, exposed p (s.versions k) = true → p.fileNumber ≠ f
  | _ => True

/-! ## What a checkpoint sees -/

def files (s : State κ) : List (UInt64 × BlobFile κ) :=
  s.numbers.filterMap fun f => (s.files f).map fun bf => (f, bf)

/-- The inputs of a job that has deleted them, or the file that level merge deletes. -/
def obsoleted (s : State κ) : Action κ → List UInt64
  | .compactionOutput f true | .levelMerged f true => [f]
  | .gcFinish j =>
    match s.jobs[j]? with
    | none => []
    | some job => job.inputs.filter fun f => !isObsolete s.files f
  | _ => []

def model (κ : Type) [DecidableEq κ] : ColumnModel (State κ) (Action κ) (BlobFile κ) where
  init := fun _ => .init
  step := step
  files := files
  isObsolete := fun s f => isObsolete s.files f
  obsoleted := obsoleted
  newest := fun s f => ∃ k p, (s.versions k).head?.bind StreamVersion.newPart = some p ∧
    p.fileNumber = f

end AegonKV.OffloadedColumn
