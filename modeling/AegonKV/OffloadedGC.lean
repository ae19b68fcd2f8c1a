import AegonKV.BlobStorage
import AegonKV.FoldExactness
import AegonKV.TransitionSystem

/-!
# A column family with offloaded garbage collection

The LSM tree is one table per mutable memtable, immutable memtable and sorted run, each a map from
keys to versions, newest first. A flush merges the oldest immutable memtables, a compaction merges
neighbouring runs over a range of keys; both go through `resolve`, which `preprocess_spec`
identifies with `Preprocess`, and may separate the Values they keep into a new blob file. A
hardware job copies records, installs its output and writes every copy back without looking at
what the key has become.
-/

namespace AegonKV.OffloadedGC
open LittleEndian AegonKV

variable {κ : Type} [DecidableEq κ]

abbrev Table (κ : Type) := κ → List Version

structure Rewrite (κ : Type) where
  key : κ
  new : BlobIndexType
  old : BlobIndexType
  deriving DecidableEq, Repr

structure Job (κ : Type) where
  inputs : List UInt64
  outputNumber : UInt64
  output : BlobFile κ
  installed : Bool
  rewriteBatches : List (Rewrite κ)

structure State (κ : Type) where
  mem : Table κ
  imm : List (Table κ)
  ssts : List (Table κ)
  files : BlobFiles κ
  jobs : List (Job κ)
  /-- The value of the most recent user Put of each key. -/
  lastPut : κ → Option Bytes

def State.init : State κ :=
  { mem := fun _ => [], imm := [], ssts := [], files := fun _ => none, jobs := [],
    lastPut := fun _ => none }

/-! ## Lookups -/

/-- The fields of `Saver` that a lookup without merge operands uses. -/
structure Saver where
  value : Option Version := none
  pendingCheckInMem : Bool := false
  deriving DecidableEq, Repr

def isGCWriteBack : Version → Bool
  | .writeBack _ _ => true
  | _ => false

/-- `SaveValue` with a pending check; the flag says whether to go on to the next older entry. -/
def saveValue (s : Saver) (v : Version) : Saver × Bool :=
  match v.type with
  | .kTypeBlobIndex =>
    if !s.pendingCheckInMem then
      ({ value := some v, pendingCheckInMem := isGCWriteBack v }, isGCWriteBack v)
    else ({ s with pendingCheckInMem := false }, false)
  | _ => ({ value := some v, pendingCheckInMem := false }, false)

/-- `MemTable::GetFromTable` over the key's entries, newest first. -/
def getFromTable (s : Saver) : List Version → Saver
  | [] => s
  | v :: vs =>
    let (s', more) := saveValue s v
    if more then getFromTable s' vs else s'

/-- The version `DBImpl::GetImpl` stops at: the mutable memtable with the pending check, then the
immutable ones and the sorted runs, where the newest entry is taken as it is. -/
def State.lookup (s : State κ) (k : κ) : Option Version :=
  ((getFromTable {} (s.mem k)).value.or (s.imm.findSome? fun t => (t k).head?)).or
    (s.ssts.findSome? fun t => (t k).head?)

/-- `TitanDBImpl::GetImpl` without a snapshot. -/
def State.get (s : State κ) (k : κ) : Option Bytes := do
  match (← s.lookup k).target with
  | .value v => some v
  | .pointer p => (s.files.read p).map (·.value)

/-! ## Flushes and compactions -/

def State.versions (s : State κ) (k : κ) : List Version :=
  s.mem k ++ s.imm.flatMap (· k) ++ s.ssts.flatMap (· k)

/-- The table built from the resolved segment: a Value with a record in the new blob file becomes
its index. -/
def buildTable (segment : Table κ) (f : UInt64) (records : List (BlobRec κ)) : Table κ := fun k =>
  match resolve (segment k) with
  | none => []
  | some (.value v) =>
    match records.find? fun r => r.key = k with
    | some r => [.plain (pointerTo f r)]
    | none => [.value v]
  | some v => [v]

/-- The separated records hold the Values that `Preprocess` kept. -/
def Separates (segment : Table κ) (records : List (BlobRec κ)) : Prop :=
  ∀ r ∈ records, resolve (segment r.key) = some (.value r.value)

instance (segment : Table κ) (records : List (BlobRec κ)) : Decidable (Separates segment records) :=
  inferInstanceAs (Decidable (∀ r ∈ records, _))

/-- `BatchFinishFiles` of the table builder: no record, no blob file. -/
def addBlobFile (files : BlobFiles κ) (f : UInt64) (records : List (BlobRec κ)) :
    Option (BlobFiles κ) :=
  if h : (records.map fun r => r.handle.offset).Nodup then
    if records.isEmpty then some files
    else if (files f).isSome then none
    else (fileStateTransit .kInit .kFlushOrCompactionOutput).map fun state =>
      Function.update files f (some ⟨records, state, h⟩)
  else none

/-- The runs `i`, …, `i + n - 1` restricted to the selected keys. -/
def State.segment (s : State κ) (i n : ℕ) (selected : κ → Bool) : Table κ := fun k =>
  if selected k then ((s.ssts.drop i).take n).flatMap (· k) else []

def State.above (s : State κ) (i : ℕ) (k : κ) : List Version :=
  s.mem k ++ s.imm.flatMap (· k) ++ (s.ssts.take i).flatMap (· k)

/-! ## Hardware jobs -/

/-- The records of the inputs whose bit is 0, in input order. -/
def keptRecords (files : BlobFiles κ) (bits : UInt64 → UInt64 → Bool) (inputs : List UInt64) :
    List (UInt64 × BlobRec κ) :=
  inputs.flatMap fun f =>
    match files f with
    | none => []
    | some bf => (bf.records.filter fun r => !bits f r.handle.index).map fun r => (f, r)

def copyRecord (kept : UInt64 × BlobRec κ) (offset : UInt64) (i : ℕ) : BlobRec κ :=
  { kept.2 with handle := ⟨offset, kept.2.handle.size, UInt64.ofNat i⟩ }

/-- The batch `DoRunGCOnHardware` queues; the old handle's index is left at its default. -/
def rewriteOf (output : UInt64) (kept : UInt64 × BlobRec κ) (copy : BlobRec κ) : Rewrite κ :=
  ⟨kept.2.key, pointerTo output copy, { pointerTo kept.1 kept.2 with index := 0 }⟩

def copies (kept : List (UInt64 × BlobRec κ)) (offsets : List UInt64) : List (BlobRec κ) :=
  ((kept.zip offsets).zipIdx).map fun x => copyRecord x.1.1 x.1.2 x.2

inductive Action (κ : Type)
  | put (k : κ) (v : Bytes)
  | switchMemtable
  | flush (n : ℕ) (f : UInt64) (records : List (BlobRec κ))
  | compact (i n : ℕ) (selected : κ → Bool) (f : UInt64) (records : List (BlobRec κ))
  | completed (f : UInt64)
  | gcCopy (inputs : List UInt64) (bits : UInt64 → UInt64 → Bool) (output : UInt64)
      (offsets : List UInt64)
  | gcInstall (j : ℕ)
  | gcWriteBack (j : ℕ)
  | gcFinish (j : ℕ)

def State.pushMem (s : State κ) (k : κ) (v : Version) : State κ :=
  { s with mem := Function.update s.mem k (v :: s.mem k) }

def State.flushStep (s : State κ) (n : ℕ) (f : UInt64) (records : List (BlobRec κ)) :
    Option (State κ) :=
  let keep := s.imm.take (s.imm.length - n)
  let segment : Table κ := fun k => (s.imm.drop (s.imm.length - n)).flatMap (· k)
  if Separates segment records then
    (addBlobFile s.files f records).map fun files =>
      { s with imm := keep, ssts := buildTable segment f records :: s.ssts, files := files }
  else none

def State.compactStep (s : State κ) (i n : ℕ) (selected : κ → Bool) (f : UInt64)
    (records : List (BlobRec κ)) : Option (State κ) :=
  let segment := s.segment i n selected
  if Separates segment records then
    (addBlobFile s.files f records).map fun files =>
      { s with
        ssts := s.ssts.take i ++
          ((s.ssts.drop i).take n).map (fun t k => if selected k then [] else t k) ++
          buildTable segment f records :: (s.ssts.drop i).drop n
        files := files }
  else none

def State.gcCopyStep (s : State κ) (inputs : List UInt64) (bits : UInt64 → UInt64 → Bool)
    (output : UInt64) (offsets : List UInt64) : Option (State κ) := do
  let kept := keptRecords s.files bits inputs
  let records := copies kept offsets
  let files ← s.files.transitAll .kGCBegin inputs
  let state ← fileStateTransit .kInit .kGCOutput
  if h : (records.map fun r => r.handle.offset).Nodup then
    if kept.length = offsets.length then
      some { s with
        files := files
        jobs := s.jobs ++ [⟨inputs, output, ⟨records, state, h⟩, false,
          List.zipWith (rewriteOf output) kept records⟩] }
    else none
  else none

def State.gcInstallStep (s : State κ) (j : ℕ) : Option (State κ) :=
  match s.jobs[j]? with
  | none => none
  | some job =>
    if job.installed || (s.files job.outputNumber).isSome then none
    else some { s with
      files := Function.update s.files job.outputNumber (some job.output)
      jobs := s.jobs.set j { job with installed := true } }

def State.gcWriteBackStep (s : State κ) (j : ℕ) : Option (State κ) :=
  match s.jobs[j]? with
  | none => none
  | some job =>
    match job.rewriteBatches with
    | [] => none
    | w :: rest =>
      if job.installed then
        some { s.pushMem w.key (.writeBack w.new w.old) with
          jobs := s.jobs.set j { job with rewriteBatches := rest } }
      else none

/-- The tail of a job: outputs to normal, inputs obsolete. The files stay findable. -/
def State.gcFinishStep (s : State κ) (j : ℕ) : Option (State κ) :=
  match s.jobs[j]? with
  | none => none
  | some job =>
    if job.installed && job.rewriteBatches.isEmpty then do
      let files ← s.files.transitAll .kDelete job.inputs
      let files ← files.transit .kGCCompleted job.outputNumber
      some { s with files := files, jobs := s.jobs.eraseIdx j }
    else none

def step (s : State κ) : Action κ → Option (State κ)
  | .put k v => some { s.pushMem k (.value v) with
      lastPut := Function.update s.lastPut k (some v) }
  | .switchMemtable => some { s with mem := fun _ => [], imm := s.mem :: s.imm }
  | .flush n f records => s.flushStep n f records
  | .compact i n selected f records => s.compactStep i n selected f records
  | .completed f => (s.files.transit .kFlushCompleted f).map fun files => { s with files := files }
  | .gcCopy inputs bits output offsets => s.gcCopyStep inputs bits output offsets
  | .gcInstall j => s.gcInstallStep j
  | .gcWriteBack j => s.gcWriteBackStep j
  | .gcFinish j => s.gcFinishStep j

/-! ## When the blind write-backs are harmless -/

def staleOverValue : List Version → Bool
  | .writeBack _ _ :: .value _ :: _ => true
  | _ => false

/-- The state a step must be taken from: a write-back finds the key still at the record it copied,
or a Value on top of the mutable memtable; the memtable is not switched with a write-back on top
of a Value; a compaction does not resolve the key's newest user write, a plain BlobIndex, together
with an older Value. -/
def Harmless (s : State κ) : Action κ → Prop
  | .gcWriteBack j => ∀ job w rest, s.jobs[j]? = some job → job.rewriteBatches = w :: rest →
      (∃ c, (s.lookup w.key).map Version.target = some (.pointer c) ∧ w.old.sameRecord c) ∨
        ∃ v older, s.mem w.key = .value v :: older
  | .switchMemtable => ∀ k, staleOverValue (s.mem k) = false
  | .compact i n selected _ _ => ∀ k, (∀ v ∈ s.above i k, v.isUserWrite = false) →
      ¬PlainAboveValue (s.segment i n selected k)
  | _ => True

end AegonKV.OffloadedGC
