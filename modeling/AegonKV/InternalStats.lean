import AegonKV.ClassCounters
import AegonKV.GcJobFiles

/-!
# The counters of the discardable ratios

`TitanInternalStats` has five unsigned counters of a column family for its blob files, by the ratio
of their data that can be discarded. They are adjusted wherever the live size of a file changes: the
functions here list the calls of `AddStats` and `SubStats` that the callbacks, `LogAndApply` and the
GC jobs make, beside what these do to the files.
-/

namespace AegonKV
open ClassCounters

inductive StatsType
  | numDiscardableRatioLE0 | numDiscardableRatioLE20 | numDiscardableRatioLE50
  | numDiscardableRatioLE80 | numDiscardableRatioLE100
  deriving DecidableEq, Repr

def StatsType.discardableRatios : List StatsType :=
  [.numDiscardableRatioLE0, .numDiscardableRatioLE20, .numDiscardableRatioLE50,
    .numDiscardableRatioLE80, .numDiscardableRatioLE100]

theorem StatsType.mem_discardableRatios (type : StatsType) : type ∈ discardableRatios := by
  cases type <;> decide

instance : Fintype StatsType :=
  Fintype.ofList StatsType.discardableRatios StatsType.mem_discardableRatios

def doubleEpsilon : Float := Float.scaleB 1 (-52)

/-- The last branch of the source differs from the one before in a message only. -/
def BlobFileMeta.getDiscardableRatioLevel (file : BlobFileMeta) : StatsType :=
  let ratio := file.getDiscardableRatio
  if ratio < doubleEpsilon then .numDiscardableRatioLE0
  else if ratio ≤ 0.2 then .numDiscardableRatioLE20
  else if ratio ≤ 0.5 then .numDiscardableRatioLE50
  else if ratio ≤ 0.8 then .numDiscardableRatioLE80
  else .numDiscardableRatioLE100

/-! ## Calls -/

/-- What a call site does: it sets the live size of a file that had none, or it adds one to a
counter or subtracts one. -/
inductive StatCall
  | setLiveDataSize (fileNumber : UInt64)
  | addStats (type : StatsType)
  | subStats (type : StatsType)

/-- The counters of a column family, and the files whose live size has been set. -/
structure ColumnStats where
  counters : Counters StatsType := {}
  sized : List UInt64 := []

namespace ColumnStats

def call (stats : ColumnStats) : StatCall → ColumnStats
  | .setLiveDataSize fileNumber => { stats with sized := fileNumber :: stats.sized }
  | .addStats type => { stats with counters := stats.counters.add type }
  | .subStats type => { stats with counters := stats.counters.sub type }

def run (stats : ColumnStats) (calls : List StatCall) : ColumnStats := calls.foldl call stats

/-- Where a file should be counted: an obsolete file nowhere, and no file before its live size has
been set. -/
def levelOf (stats : ColumnStats) (f : UInt64) (file : BlobFileMeta) : Option StatsType :=
  if !file.isObsolete && decide (f ∈ stats.sized) then some file.getDiscardableRatioLevel else none

@[simp] theorem run_nil (stats : ColumnStats) : stats.run [] = stats := rfl

theorem run_append (stats : ColumnStats) (calls calls' : List StatCall) :
    stats.run (calls ++ calls') = (stats.run calls).run calls' := List.foldl_append

theorem sized_subset_run (stats : ColumnStats) (calls : List StatCall) :
    stats.sized ⊆ (stats.run calls).sized := by
  induction calls generalizing stats with
  | nil => exact fun f hf => hf
  | cons call calls ih =>
      refine fun f hf => ih (stats.call call) ?_
      cases call with
      | setLiveDataSize fileNumber => exact List.mem_cons_of_mem _ hf
      | addStats type => exact hf
      | subStats type => exact hf

end ColumnStats

/-! ## The rounds of the callbacks -/

namespace Walk

def flushCompletedStats (w : Walk) (number : UInt64) (delta : ℤ) : List StatCall :=
  match w.storage.files.lookup number with
  | none => []
  | some file =>
    if file.state ≠ .kPendingLSM then []
    else
      let file := file.settle (if delta < 0 then 0 else delta)
      [.setLiveDataSize number, .addStats file.getDiscardableRatioLevel]

/-- The end of a round of `OnCompactionCompleted`, which looks at the state that the round has left. -/
def addAfter (w : Walk) (number : UInt64) : List StatCall :=
  match w.storage.files.lookup number with
  | none => []
  | some file =>
    if file.state = .kNormal ∨ file.state = .kToMerge then
      [.addStats file.getDiscardableRatioLevel]
    else []

/-- The calls of one round of `OnCompactionCompleted`. An obsolete file and a `kPendingLSM` file with
a difference that is not positive do not get to the end of the round. -/
def compactionCompletedStats (o : MergeOptions) (countSortedRun : Bool) (w : Walk) (number : UInt64)
    (delta : ℤ) : List StatCall :=
  let after := addAfter (compactionCompleted o countSortedRun w number delta) number
  match w.storage.files.lookup number with
  | none => []
  | some file =>
    match file.state with
    | .kObsolete => []
    | .kPendingLSM =>
      if delta ≤ 0 then []
      else
        [.setLiveDataSize number, .addStats (file.settle delta).getDiscardableRatioLevel] ++ after
    | .kNormal | .kToMerge => .subStats file.getDiscardableRatioLevel :: after
    | _ => after

def tablesDeletedStats (w : Walk) (number : UInt64) (delta : ℤ) : List StatCall :=
  match w.storage.files.lookup number with
  | none => []
  | some file =>
    if file.isObsolete then []
    else
      let before := file.getDiscardableRatioLevel
      let after := (file.updateLiveDataSize delta).getDiscardableRatioLevel
      if before ≠ after then [.addStats after, .subStats before] else []

def statsOfRounds (round : Walk → UInt64 → ℤ → Walk) (stats : Walk → UInt64 → ℤ → List StatCall) :
    Walk → List ((_ : UInt64) × ℤ) → List StatCall
  | _, [] => []
  | w, e :: es => stats w e.1 e.2 ++ statsOfRounds round stats (round w e.1 e.2) es

end Walk

/-! ## The calls of `LogAndApply` -/

/-- The calls of `AddBlobFile`. A live size of zero is unknown. -/
def addBlobFileStats (number : UInt64) (file : BlobFileMeta) : List StatCall :=
  if file.liveDataSize ≠ 0 then
    [.setLiveDataSize number, .addStats file.getDiscardableRatioLevel]
  else []

/-- The calls of `MarkFileObsolete` in the loop `applyDeleted`. -/
def deletionStats : List (UInt64 × ℕ) → BlobStorage → List StatCall
  | [], _ => []
  | file :: files, st =>
    match st.files.lookup file.1, st.markFileObsolete file.1 file.2 with
    | some old, some st' => .subStats old.getDiscardableRatioLevel :: deletionStats files st'
    | _, _ => []

def CFEditCollector.applyStats (c : CFEditCollector BlobFileMeta) (st : BlobStorage) :
    List StatCall :=
  c.newFiles.flatMap (fun file => addBlobFileStats file.1 file.2) ++
    deletionStats c.goneFiles (c.newFiles.foldl (fun st file => st.addBlobFile file.1 file.2) st)

namespace BlobFileSet

def logAndApplyStats (s : BlobFileSet) (edit : VersionEdit BlobFileMeta) (io : ManifestIO) :
    List StatCall :=
  match EditCollector.empty.addEdit (s.withNext edit) with
  | .error _ => []
  | .ok collector =>
    match collector.sealIn [edit.columnFamilyId] s.columnFamilies with
    | .error _ => []
    | .ok () =>
      if !io.addRecord.isOk || !io.sync.isOk then []
      else
        match s.columnFamilies.lookup edit.columnFamilyId with
        | none => []
        | some st => (collector.columnFamilies edit.columnFamilyId).applyStats st

end BlobFileSet

/-! ## The calls of the callbacks -/

abbrev InternalStats := UInt32 → ColumnStats

namespace InternalStats

def call (stats : InternalStats) (c : UInt32 × StatCall) : InternalStats :=
  Function.update stats c.1 ((stats c.1).call c.2)

def run (stats : InternalStats) (calls : List (UInt32 × StatCall)) : InternalStats :=
  calls.foldl call stats

def forColumn (cf : UInt32) (calls : List StatCall) : List (UInt32 × StatCall) :=
  calls.map fun c => (cf, c)

theorem run_append (stats : InternalStats) (calls calls' : List (UInt32 × StatCall)) :
    stats.run (calls ++ calls') = (stats.run calls).run calls' := List.foldl_append

theorem run_forColumn (stats : InternalStats) (cf : UInt32) (calls : List StatCall) :
    stats.run (forColumn cf calls) = Function.update stats cf ((stats cf).run calls) := by
  induction calls generalizing stats with
  | nil => exact (Function.update_eq_self cf stats).symm
  | cons c calls ih =>
      have hrest := ih (stats.call (cf, c))
      rw [call, Function.update_self, Function.update_idem] at hrest
      exact hrest

theorem sized_subset_run (stats : InternalStats) (calls : List (UInt32 × StatCall)) (cf : UInt32) :
    (stats cf).sized ⊆ (stats.run calls cf).sized := by
  induction calls generalizing stats with
  | nil => exact fun f hf => hf
  | cons c calls ih =>
      refine fun f hf => ih (stats.call c) ?_
      by_cases hcf : cf = c.1
      · subst hcf
        rw [call, Function.update_self]
        exact (stats c.1).sized_subset_run [c.2] hf
      · rw [call, Function.update_of_ne hcf]
        exact hf

end InternalStats

namespace BlobFileSet
open InternalStats

def onFlushCompletedStats (s : BlobFileSet) (cf : UInt32) (diff : SizeDiff) :
    List (UInt32 × StatCall) :=
  match s.columnFamilies.lookup cf with
  | none => []
  | some st => forColumn cf
      (Walk.statsOfRounds Walk.flushCompleted Walk.flushCompletedStats { storage := st } diff.entries)

/-- The edit of a merge names column family 0. -/
def mergeStats (o : MergeOptions) (s : BlobFileSet) (cf : UInt32) (w : Walk) (seq : ℕ)
    (io : ManifestIO) : List (UInt32 × StatCall) :=
  if !o.levelMerge then []
  else forColumn (mergeEdit w seq).columnFamilyId
    ((s.setStorage cf w.storage).logAndApplyStats (mergeEdit w seq) io)

def onCompactionCompletedStats (o : MergeOptions) (s : BlobFileSet) (cf : UInt32)
    (outputLevel : ℤ) (diff : SizeDiff) (seq : ℕ) (io : ManifestIO) : List (UInt32 × StatCall) :=
  match s.columnFamilies.lookup cf with
  | none => []
  | some st =>
    let round := Walk.compactionCompleted o (countsSortedRun o st outputLevel)
    let stats := Walk.compactionCompletedStats o (countsSortedRun o st outputLevel)
    forColumn cf (Walk.statsOfRounds round stats { storage := st } diff.entries) ++
      mergeStats o s cf (Walk.applyDiff round st diff) seq io

def deleteFilesInRangesStats (o : MergeOptions) (s : BlobFileSet) (cf : UInt32) (diff : SizeDiff)
    (seq : ℕ) (io : ManifestIO) : List (UInt32 × StatCall) :=
  match s.columnFamilies.lookup cf with
  | none => []
  | some st =>
    let round := Walk.tablesDeleted o
    forColumn cf (Walk.statsOfRounds round Walk.tablesDeletedStats { storage := st } diff.entries) ++
      mergeStats o s cf (Walk.applyDiff round st diff) seq io

def dropStats (s : BlobFileSet) (obsoleteSequence : ℕ) :
    List (UInt32 × ManifestIO) → List (UInt32 × StatCall)
  | [] => []
  | (cf, io) :: cfs =>
    match s.columnFamilies.lookup cf with
    | none => []
    | some st =>
      forColumn cf (s.logAndApplyStats (dropEdit cf st obsoleteSequence) io) ++
        match s.logAndApply (dropEdit cf st obsoleteSequence) io with
        | (status, s') =>
          if !status.isOk then []
          else
            dropStats { s' with obsoleteColumns := cf :: s'.obsoleteColumns } obsoleteSequence cfs

/-- The calls of the loop of `RewriteValidKeyToLSM`, which takes obsolete files as well. -/
def rewriteDroppedStats (st : BlobStorage) : List (UInt64 × UInt64) → List StatCall
  | [] => []
  | d :: dropped =>
    match st.files.lookup d.1 with
    | none => rewriteDroppedStats st dropped
    | some file =>
      let file' := file.updateLiveDataSize (castInt64 (0 - d.2))
      .subStats file.getDiscardableRatioLevel :: .addStats file'.getDiscardableRatioLevel ::
        rewriteDroppedStats (st.setFile d.1 file').computeGCScore dropped

end BlobFileSet

end AegonKV
