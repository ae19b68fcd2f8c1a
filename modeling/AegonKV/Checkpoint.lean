import AegonKV.EditCollector
import AegonKV.TransitionSystem
import Mathlib.Data.List.Dedup

/-!
# Checkpoints and disabled deletions

`CreateCheckpoint` disables the deletion of blob files, takes the base checkpoint, lists all Titan
files and links them one by one, while column families, purges and other callers of
`DisableFileDeletions` go on. Each turn of a mutex is one step. A column family is any model that
says which files the newest versions of its keys name.
-/

namespace AegonKV.Checkpoint
open TransitionSystem

/-- What a checkpoint sees of a column family. -/
structure ColumnModel (σ α μ : Type) where
  init : UInt32 → σ
  step : σ → α → Option σ
  /-- `files_`, with the files that purges have removed from it. -/
  files : σ → List (UInt64 × μ)
  isObsolete : σ → UInt64 → Bool
  /-- The files that `MarkFileObsolete` is called for. -/
  obsoleted : σ → α → List UInt64
  /-- The newest version of some key is an index into the file. -/
  newest : σ → UInt64 → Prop

variable {σ α μ : Type} {c : ColumnModel σ α μ}

def ColumnModel.numbers (c : ColumnModel σ α μ) (col : σ) : List UInt64 := (c.files col).map (·.1)

/-- The numbers of the files that a map has, listed along numbers that cover it. -/
theorem mem_listed_iff {numbers : List UInt64} {files : UInt64 → Option μ} {f : UInt64}
    (h : ∀ bf, files f = some bf → f ∈ numbers) :
    f ∈ (numbers.filterMap fun f => (files f).map fun bf => (f, bf)).map (·.1) ↔
      ∃ bf, files f = some bf := by
  constructor
  · intro hf
    obtain ⟨⟨g, bf⟩, hmem, rfl⟩ := List.mem_map.mp hf
    obtain ⟨n, -, hn⟩ := List.mem_filterMap.mp hmem
    obtain ⟨bf', hbf', heq⟩ := Option.map_eq_some_iff.mp hn
    obtain ⟨rfl, rfl⟩ := Prod.mk.inj heq
    exact ⟨bf', hbf'⟩
  · rintro ⟨bf, hbf⟩
    refine List.mem_map.mpr ⟨(f, bf), List.mem_filterMap.mpr ⟨f, h bf hbf, ?_⟩, rfl⟩
    rw [hbf]
    rfl

/-- What a step of a column family may do. -/
structure ColumnModel.StepSound (c : ColumnModel σ α μ) (Inv : σ → Prop) (col : σ) (a : α)
    (col' : σ) : Prop where
  inv : Inv col'
  kept : ∀ f ∈ c.numbers col, f ∈ c.numbers col'
  obsolete_kept : ∀ f, c.isObsolete col f = true → c.isObsolete col' f = true
  obsoleted : ∀ f ∈ c.obsoleted col a, c.isObsolete col' f = true

/-- As long as the steps meet the condition, newest versions name live files. -/
structure ColumnModel.Sound (c : ColumnModel σ α μ) (condition : σ → α → Prop) (Inv : σ → Prop) :
    Prop where
  init : ∀ cf, Inv (c.init cf)
  live : ∀ col f, Inv col → c.newest col f → f ∈ c.numbers col ∧ c.isObsolete col f = false
  step : ∀ col a col', Inv col → condition col a → c.step col a = some col' →
    c.StepSound Inv col a col'

/-- A blob file by its column family. Numbers are given out once for all column families, so this
is also its path. -/
abbrev FileId := UInt32 × UInt64

/-- A purge holds `delete_titandb_file_mutex_` until it is idle again. -/
inductive PurgePhase
  | idle
  | reading (oldestSequence : ℕ)
  | deleting (candidates : List FileId)

inductive Stage
  | idle | disabled | copied | listing | listed | linking | finished | failed
  deriving DecidableEq, Repr

/-- How many calls of `DisableFileDeletions` the checkpoint has not undone yet. -/
def Stage.held : Stage → ℕ
  | .idle | .finished | .failed => 0
  | .disabled | .copied | .linking => 1
  | .listing | .listed => 2

/-- The results of `GetAllFiles`; the names of MANIFEST and CURRENT are left out. -/
structure Listing (μ : Type) where
  files : List FileId
  edits : List (VersionEdit μ)

def Adds (edits : List (VersionEdit μ)) (file : FileId) : Prop :=
  ∃ edit ∈ edits, edit.columnFamilyId = file.1 ∧ file.2 ∈ edit.addedFiles.map (·.1)

structure Progress (σ μ : Type) where
  stage : Stage := .idle
  /-- What the base checkpoint copied. -/
  base : Option (UInt32 → σ) := none
  listing : Option (Listing μ) := none
  todo : List FileId := []
  /-- The links made, each with whether its source existed. -/
  links : List (FileId × Bool) := []
  /-- The edits in the manifest of the checkpoint. -/
  manifest : Option (List (VersionEdit μ)) := none

structure State (σ μ : Type) where
  columns : UInt32 → σ
  /-- `obsolete_files_` of all column families, each with its obsolete sequence. -/
  obsoleteFiles : List (FileId × ℕ) := []
  /-- What `RemoveFile` has erased from `files_`. -/
  removed : List FileId := []
  /-- What `DeleteFile` has removed from the disk. -/
  deleted : List FileId := []
  disableTitandbFileDeletions : ℕ := 0
  /-- Other callers between `DisableFileDeletions` and their `EnableFileDeletions(false)`. -/
  others : ℕ := 0
  purge : PurgePhase := .idle
  checkpoint : Progress σ μ := {}

namespace State

def init (c : ColumnModel σ α μ) : State σ μ := { columns := c.init }

def onDisk (c : ColumnModel σ α μ) (s : State σ μ) (file : FileId) : Bool :=
  file.2 ∈ c.numbers (s.columns file.1) && !decide (file ∈ s.deleted)

/-- `files_` of a column family. -/
def columnFiles (c : ColumnModel σ α μ) (s : State σ μ) (cf : UInt32) : List (UInt64 × μ) :=
  (c.files (s.columns cf)).filter fun file => (cf, file.1) ∉ s.removed

def getAllFiles (c : ColumnModel σ α μ) (cfs : List UInt32) (s : State σ μ)
    (nextFileNumber : UInt64) : Listing μ where
  files := cfs.flatMap fun cf => (s.columnFiles c cf).map fun file => (cf, file.1)
  edits := ⟨0, some nextFileNumber, [], []⟩ ::
    cfs.map fun cf => ⟨cf, none, s.columnFiles c cf, []⟩

/-- `DisableFileDeletions`, which waits for a running purge. -/
def disableFileDeletions (s : State σ μ) : Option (State σ μ) :=
  match s.purge with
  | .idle => some { s with disableTitandbFileDeletions := s.disableTitandbFileDeletions + 1 }
  | _ => none

/-- `EnableFileDeletions(false)`. -/
def enableFileDeletions (s : State σ μ) : Option (State σ μ) :=
  match s.purge with
  | .idle =>
    if 0 < s.disableTitandbFileDeletions then
      some { s with disableTitandbFileDeletions := s.disableTitandbFileDeletions - 1 }
    else some s
  | _ => none

def setCheckpoint (s : State σ μ) (checkpoint : Progress σ μ) : State σ μ :=
  { s with checkpoint := checkpoint }

end State

inductive Action (α : Type)
  /-- A step of a column family; what becomes obsolete gets `obsoleteSequence`. -/
  | column (cf : UInt32) (a : α) (obsoleteSequence : ℕ)
  | disableFileDeletions
  | enableFileDeletions
  /-- `PurgeObsoleteFilesImpl` with what `GetOldestSnapshotSequence` returns. -/
  | purgeBegin (oldestSequence : ℕ)
  | getObsoleteFiles
  | deleteFile
  | purgeEnd
  | createCheckpoint
  | baseCheckpoint
  | getAllTitanFiles
  | getAllFiles (nextFileNumber : UInt64)
  | getAllTitanFilesReturn
  | linkFile
  | createTitanManifest
  | checkpointDone
  | checkpointFailed

def checkpointStep (c : ColumnModel σ α μ) (cfs : List UInt32) (s : State σ μ) (a : Action α) :
    Option (State σ μ) :=
  let ck := s.checkpoint
  match a, ck.stage with
  | .createCheckpoint, .idle =>
    s.disableFileDeletions.map (·.setCheckpoint { ck with stage := .disabled })
  | .baseCheckpoint, .disabled =>
    some (s.setCheckpoint { ck with stage := .copied, base := some s.columns })
  | .getAllTitanFiles, .copied =>
    s.disableFileDeletions.map (·.setCheckpoint { ck with stage := .listing })
  | .getAllFiles nextFileNumber, .listing =>
    some (s.setCheckpoint
      { ck with stage := .listed, listing := some (s.getAllFiles c cfs nextFileNumber) })
  | .getAllTitanFilesReturn, .listed =>
    s.enableFileDeletions.map (·.setCheckpoint
      { ck with stage := .linking, todo := (ck.listing.map (·.files)).getD [] })
  | .linkFile, .linking =>
    match ck.todo with
    | [] => none
    | file :: todo =>
      some (s.setCheckpoint
        { ck with todo := todo, links := ck.links ++ [(file, s.onDisk c file)] })
  | .createTitanManifest, .linking =>
    if ck.todo.isEmpty then
      some (s.setCheckpoint { ck with manifest := ck.listing.map (·.edits) })
    else none
  | .checkpointDone, .linking =>
    if ck.manifest.isSome then
      s.enableFileDeletions.map (·.setCheckpoint { ck with stage := .finished })
    else none
  | .checkpointFailed, .disabled =>
    s.enableFileDeletions.map (·.setCheckpoint { ck with stage := .failed })
  | .checkpointFailed, .copied =>
    s.enableFileDeletions.map (·.setCheckpoint { ck with stage := .failed })
  | .checkpointFailed, .linking =>
    s.enableFileDeletions.map (·.setCheckpoint { ck with stage := .failed })
  | _, _ => none

def step (c : ColumnModel σ α μ) (cfs : List UInt32) (s : State σ μ) :
    Action α → Option (State σ μ)
  | .column cf a obsoleteSequence =>
    (c.step (s.columns cf) a).map fun col =>
      { s with
        columns := Function.update s.columns cf col
        obsoleteFiles := s.obsoleteFiles ++
          (c.obsoleted (s.columns cf) a).map fun f => ((cf, f), obsoleteSequence) }
  | .disableFileDeletions =>
    s.disableFileDeletions.map fun s => { s with others := s.others + 1 }
  | .enableFileDeletions =>
    if 0 < s.others then s.enableFileDeletions.map fun s => { s with others := s.others - 1 }
    else none
  | .purgeBegin oldestSequence =>
    match s.purge with
    | .idle =>
      if 0 < s.disableTitandbFileDeletions then some s
      else some { s with purge := .reading oldestSequence }
    | _ => none
  | .getObsoleteFiles =>
    match s.purge with
    | .reading oldestSequence =>
      let candidates := (s.obsoleteFiles.filter fun x => x.2 < oldestSequence).map (·.1)
      some { s with
        obsoleteFiles := s.obsoleteFiles.filter fun x => ¬x.2 < oldestSequence
        removed := s.removed ++ candidates
        purge := .deleting candidates.dedup }
    | _ => none
  | .deleteFile =>
    match s.purge with
    | .deleting (file :: candidates) =>
      some { s with deleted := s.deleted ++ [file], purge := .deleting candidates }
    | _ => none
  | .purgeEnd =>
    match s.purge with
    | .deleting [] => some { s with purge := .idle }
    | _ => none
  | a => checkpointStep c cfs s a

end AegonKV.Checkpoint
