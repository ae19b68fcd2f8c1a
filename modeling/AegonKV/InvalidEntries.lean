import AegonKV.BitMap
import AegonKV.SoftwareGC
import Mathlib.Data.List.Dedup

/-!
# Invalid-entry bitmaps

Each blob file has a bitmap of records known to be unreferenced. A compaction replaces its input
tables in one step; the callback with the indices collected from its input and output tables comes
later, and callbacks come in any order. Bits are only ever OR-ed in, by the callbacks and for the
rewrites a job found Busy.
-/

namespace AegonKV.InvalidEntries
open LittleEndian AegonKV SoftwareGC

variable {κ : Type} [DecidableEq κ]

/-- The decoded table properties of a compaction: the indices `BlobValidationCollector` gathered
from its input tables and from its output tables. -/
structure CompactionJobInfo where
  inputIndexes : List (UInt64 × UInt64)
  outputIndexes : List (UInt64 × UInt64)
  deriving DecidableEq, Repr

structure State (κ : Type) where
  gc : SoftwareGC.State κ
  /-- `invalid_entry_indexes_` of the files it was updated for. -/
  bitmaps : UInt64 → Option BitMap
  /-- Compactions whose `OnCompactionCompleted` has not been called. -/
  callbacks : List CompactionJobInfo

omit [DecidableEq κ] in
def State.init : State κ := ⟨.init, fun _ => none, []⟩

omit [DecidableEq κ] in
/-- `invalid_entry_indexes_`; the constructor of the file's metadata makes it all zeros. -/
def invalidEntryIndexes (bitmaps : UInt64 → Option BitMap) (f : UInt64) (bf : BlobFile κ) :
    BitMap :=
  (bitmaps f).getD (.new bf.records.length)

/-! ## Updating bitmaps -/

/-- `SetBit` for a list of indices; an error is an assertion of the source. -/
def setBits (bm : BitMap) (indexes : List UInt64) (on : ℕ) : Option BitMap :=
  indexes.foldlM (fun bm i => (bm.setBit i.toNat on).toOption) bm

def indexesOf (refs : List (UInt64 × UInt64)) (f : UInt64) : List UInt64 :=
  (refs.filter fun ref => ref.1 = f).map (·.2)

omit [DecidableEq κ] in
/-- One file of an update: its bits for `invalid` are set, those for `valid` cleared, and the
result is OR-ed in. Files that are gone, or in a state to skip, are left alone. -/
def markInvalid (files : BlobFiles κ) (skip : FileState → Bool)
    (invalid valid : List (UInt64 × UInt64)) (bitmaps : UInt64 → Option BitMap) (f : UInt64) :
    Option (UInt64 → Option BitMap) :=
  match files f with
  | none => some bitmaps
  | some bf =>
    if skip bf.state then some bitmaps
    else do
      let bm ← setBits (.new bf.records.length) (indexesOf invalid f) 1
      let bm ← setBits bm (indexesOf valid f) 0
      let bm ← ((invalidEntryIndexes bitmaps f bf).bitOps .kBitOr bm).toOption
      return Function.update bitmaps f (some bm)

omit [DecidableEq κ] in
/-- The bitmap part of `OnCompactionCompleted`. -/
def onCompactionCompleted (files : BlobFiles κ) (bitmaps : UInt64 → Option BitMap)
    (info : CompactionJobInfo) : Option (UInt64 → Option BitMap) :=
  (info.inputIndexes.map (·.1)).dedup.foldlM
    (markInvalid files (· == .kObsolete) info.inputIndexes info.outputIndexes) bitmaps

omit [DecidableEq κ] in
/-- What `RewriteValidKeyToLSM` does for the copies whose rewrites were Busy. -/
def dropIndexes (files : BlobFiles κ) (bitmaps : UInt64 → Option BitMap)
    (dropped : List (UInt64 × UInt64)) : Option (UInt64 → Option BitMap) :=
  (dropped.map (·.1)).dedup.foldlM (markInvalid files (fun _ => false) dropped []) bitmaps

/-! ## Steps -/

omit [DecidableEq κ] in
/-- `BlobValidationCollector::AddUserKey` over the entries of some tables. -/
def collect (lsm : Lsm κ) (entries : List (κ × ℕ)) : List (UInt64 × UInt64) :=
  entries.filterMap fun x =>
    ((lsm.versions x.1).find? fun v => v.sequence = x.2).bind (·.entry.ref?)

inductive Action (κ : Type)
  | gc (a : SoftwareGC.Action κ)
  | fallbackFlush (upto : ℕ) (inlined dropped : List (κ × ℕ))
  /-- The input tables hold `inputs`. The output tables leave `dropped` out, have indices of the
  new records, some of them copies of a level merge, and in fallback mode values for `inlined`. -/
  | compact (inputs dropped : List (κ × ℕ)) (f : UInt64) (records : List (ℕ × BlobRec κ))
      (inlined : List (κ × ℕ))
  | compactionCompleted (i : ℕ)
  | compactionOutput (f : UInt64) (noLiveData : Bool)
  | levelMerged (f : UInt64) (noLiveData : Bool)

omit [DecidableEq κ] in
/-- The bits `CopyInvalidEntryIndexesTo` hands to a job, as `ValidateByBitMap` reads them. -/
def State.bits (s : State κ) (f i : UInt64) : Bool :=
  match s.gc.files f with
  | none => false
  | some bf =>
    match (invalidEntryIndexes s.bitmaps f bf).getBit i.toNat with
    | .ok result => result == 1
    | .error _ => false

omit [DecidableEq κ] in
def withBits (bits : UInt64 → UInt64 → Bool) : SoftwareGC.Action κ → SoftwareGC.Action κ
  | .gcBegin j inputs order useBitmap fallback _ =>
    .gcBegin j inputs order useBitmap fallback bits
  | a => a

omit [DecidableEq κ] in
def State.bitmapsAfter (s : State κ) : SoftwareGC.Action κ → Option (UInt64 → Option BitMap)
  | .gcFlushWAL j => do
    let job ← s.gc.jobs j
    dropIndexes s.gc.files s.bitmaps job.droppedIndex
  | _ => some s.bitmaps

def State.gcStep (s : State κ) (a : SoftwareGC.Action κ) : Option (State κ) := do
  let gc ← SoftwareGC.step s.gc (withBits s.bits a)
  let bitmaps ← s.bitmapsAfter a
  return { s with gc := gc, bitmaps := bitmaps }

def State.fallbackFlushStep (s : State κ) (upto : ℕ) (inlined dropped : List (κ × ℕ)) :
    Option (State κ) :=
  (s.gc.fallbackFlushStep upto inlined dropped).map fun gc => { s with gc := gc }

def State.compactStep (s : State κ) (inputs dropped : List (κ × ℕ)) (f : UInt64)
    (records : List (ℕ × BlobRec κ)) (inlined : List (κ × ℕ)) : Option (State κ) :=
  if dropped.all inputs.contains ∧ (records.all fun x => inputs.contains (x.2.key, x.1)) ∧
      inlined.all inputs.contains then
    (s.gc.rewriteTables f records inlined dropped).map fun gc =>
      { s with
        gc := gc
        callbacks := s.callbacks ++ [⟨collect s.gc.lsm inputs, collect gc.lsm inputs⟩] }
  else none

omit [DecidableEq κ] in
def State.compactionCompletedStep (s : State κ) (i : ℕ) : Option (State κ) := do
  let info ← s.callbacks[i]?
  let bitmaps ← onCompactionCompleted s.gc.files s.bitmaps info
  return { s with bitmaps := bitmaps, callbacks := s.callbacks.eraseIdx i }

omit [DecidableEq κ] in
/-- The life-cycle part of `OnCompactionCompleted` for a blob file the compaction wrote. -/
def completeOutput (files : BlobFiles κ) (f : UInt64) (noLiveData : Bool) :
    Option (BlobFiles κ) := do
  let files ← files.transit .kCompactionCompleted f
  files.transitAll .kDelete (if noLiveData then [f] else [])

omit [DecidableEq κ] in
/-- The same for a blob file it read from, with level merge. -/
def levelMerge (files : BlobFiles κ) (f : UInt64) (noLiveData : Bool) : Option (BlobFiles κ) := do
  let bf ← files f
  if bf.state = .kNormal ∨ bf.state = .kToMerge then
    files.transit (if noLiveData then .kDelete else .kNeedMerge) f
  else none

omit [DecidableEq κ] in
def State.compactionOutputStep (s : State κ) (f : UInt64) (noLiveData : Bool) :
    Option (State κ) :=
  (completeOutput s.gc.files f noLiveData).map fun files =>
    { s with gc := { s.gc with files := files } }

omit [DecidableEq κ] in
def State.levelMergedStep (s : State κ) (f : UInt64) (noLiveData : Bool) : Option (State κ) :=
  (levelMerge s.gc.files f noLiveData).map fun files =>
    { s with gc := { s.gc with files := files } }

def step (s : State κ) : Action κ → Option (State κ)
  | .gc a => s.gcStep a
  | .fallbackFlush upto inlined dropped => s.fallbackFlushStep upto inlined dropped
  | .compact inputs dropped f records inlined => s.compactStep inputs dropped f records inlined
  | .compactionCompleted i => s.compactionCompletedStep i
  | .compactionOutput f noLiveData => s.compactionOutputStep f noLiveData
  | .levelMerged f noLiveData => s.levelMergedStep f noLiveData

end AegonKV.InvalidEntries
