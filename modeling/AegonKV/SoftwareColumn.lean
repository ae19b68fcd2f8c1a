import AegonKV.InvalidEntriesSound
import AegonKV.CheckpointComplete

/-!
# Column families with software garbage collection, for checkpoints

The column family of `InvalidEntries` whose compactions drop what neither a snapshot nor a later
read sees. The newest version of a key names a file that is not obsolete, as long as level merge
deletes no file that a key still leads to.
-/

namespace AegonKV.SoftwareColumn
open LittleEndian AegonKV SoftwareGC Checkpoint

variable {κ : Type}

inductive Action (κ : Type)
  | gc (a : SoftwareGC.Action κ)
  | fallbackFlush (upto : ℕ) (inlined dropped : List (κ × ℕ))
  | compact (upto : ℕ) (inputs dropped : List (κ × ℕ)) (f : UInt64)
      (records : List (ℕ × BlobRec κ)) (inlined : List (κ × ℕ))
  | compactionCompleted (i : ℕ)
  | compactionOutput (f : UInt64) (noLiveData : Bool)
  | levelMerged (f : UInt64) (noLiveData : Bool)

def step [DecidableEq κ] (s : InvalidEntries.State κ) : Action κ → Option (InvalidEntries.State κ)
  | .gc a => s.gcStep a
  | .fallbackFlush upto inlined dropped => s.fallbackFlushStep upto inlined dropped
  | .compact upto inputs dropped f records inlined =>
    if upto ≤ s.gc.lsm.lastSequence ∧ s.gc.Droppable upto dropped then
      s.compactStep inputs dropped f records inlined
    else none
  | .compactionCompleted i => s.compactionCompletedStep i
  | .compactionOutput f noLiveData => s.compactionOutputStep f noLiveData
  | .levelMerged f noLiveData => s.levelMergedStep f noLiveData

/-- A file that `OnCompactionCompleted` deletes for its live data size is the file of no key. -/
def Harmless (s : InvalidEntries.State κ) : Action κ → Prop
  | .compactionOutput f noLiveData | .levelMerged f noLiveData =>
    noLiveData = true → ∀ k p, s.gc.lsm.latest k = some (.blobIndex p) → p.fileNumber ≠ f
  | _ => True

def files (s : InvalidEntries.State κ) : List (UInt64 × BlobFile κ) :=
  s.gc.numbers.filterMap fun f => (s.gc.files f).map fun bf => (f, bf)

/-- The inputs of a job that has deleted them, or the file that level merge deletes. -/
def obsoleted (s : InvalidEntries.State κ) : Action κ → List UInt64
  | .compactionOutput f true | .levelMerged f true => [f]
  | .gc (.gcFinish j) =>
    match s.gc.jobs j with
    | none => []
    | some job => job.inputs.filter fun f => !isObsolete s.gc.files f
  | _ => []

def model (κ : Type) [DecidableEq κ] : ColumnModel (InvalidEntries.State κ) (Action κ) (BlobFile κ)
    where
  init := fun _ => .init
  step := step
  files := files
  isObsolete := fun s f => isObsolete s.gc.files f
  obsoleted := obsoleted
  newest := fun s f => ∃ k p, s.gc.lsm.latest k = some (.blobIndex p) ∧ p.fileNumber = f

structure Inv (s : InvalidEntries.State κ) : Prop where
  entries : InvalidEntries.Inv s
  reads : Reads s.gc

variable {s s' : InvalidEntries.State κ}

theorem mem_numbers [DecidableEq κ] (h : Inv s) {f : UInt64} :
    f ∈ (model κ).numbers s ↔ ∃ bf, s.gc.files f = some bf := by
  refine mem_listed_iff fun bf hbf => h.entries.wf.numbered f ?_
  rw [hbf]
  exact Option.some_ne_none bf

/-- Files only age, whatever the step. -/
structure StepSpec (s s' : InvalidEntries.State κ) : Prop where
  inv : Inv s'
  ages : Ages s.gc.files s'.gc.files

/-- Life-cycle events after which no newest version names an obsolete file. -/
theorem files_spec (h : Inv s) {files : BlobFiles κ}
    (hentries : InvalidEntries.Inv { s with gc := { s.gc with files := files } })
    (hages : Ages s.gc.files files)
    (hlive : ∀ k p, s.gc.lsm.latest k = some (.blobIndex p) → isObsolete files p.fileNumber = false) :
    StepSpec s { s with gc := { s.gc with files := files } } := by
  refine ⟨⟨hentries, ?_⟩, hages⟩
  exact h.reads.of_frame h.entries.wf hentries.wf hages.keeps rfl rfl hlive fun j job hj => Or.inl hj

/-- The file of no key may be deleted. -/
theorem live_of_delete (h : Inv s) {mid files : BlobFiles κ} {f : UInt64} {noLiveData : Bool}
    (hmid : ∀ g, isObsolete mid g = isObsolete s.gc.files g)
    (hfiles : mid.transitAll .kDelete (if noLiveData then [f] else []) = some files)
    (hharmless : noLiveData = true → ∀ k p, s.gc.lsm.latest k = some (.blobIndex p) →
      p.fileNumber ≠ f) (k : κ) (p : BlobIndexType)
    (hp : s.gc.lsm.latest k = some (.blobIndex p)) : isObsolete files p.fileNumber = false := by
  rw [Bool.eq_false_iff, Ne, isObsolete_delete hfiles, hmid, h.reads.live k p hp]
  rintro (hmem | hobsolete)
  · cases noLiveData with
    | false => cases hmem
    | true => exact hharmless rfl k p hp (List.mem_singleton.mp hmem)
  · cases hobsolete

theorem compactionOutput_spec (h : Inv s) {f : UInt64} {noLiveData : Bool}
    (hharmless : noLiveData = true → ∀ k p, s.gc.lsm.latest k = some (.blobIndex p) →
      p.fileNumber ≠ f)
    (hstep : s.compactionOutputStep f noLiveData = some s') : StepSpec s s' := by
  have hentries := h.entries.compactionOutput hstep
  obtain ⟨mid, files, hmid, hfiles, rfl⟩ := InvalidEntries.compactionOutputStep_cases hstep
  refine files_spec h hentries ((Ages.transit hmid (by decide) (by decide)).trans
    (.transitAll hfiles (by decide) (by decide))) ?_
  exact live_of_delete h (isObsolete_transit hmid (by decide) (by decide)) hfiles hharmless

theorem levelMerged_spec (h : Inv s) {f : UInt64} {noLiveData : Bool}
    (hharmless : noLiveData = true → ∀ k p, s.gc.lsm.latest k = some (.blobIndex p) →
      p.fileNumber ≠ f)
    (hstep : s.levelMergedStep f noLiveData = some s') : StepSpec s s' := by
  have hentries := h.entries.levelMerged hstep
  obtain ⟨bf, files, -, -, hfiles, rfl⟩ := InvalidEntries.levelMergedStep_cases hstep
  cases noLiveData with
  | false =>
      refine files_spec h hentries (.transit hfiles (by decide) (by decide)) fun k p hp => ?_
      rw [isObsolete_transit hfiles (by decide) (by decide)]
      exact h.reads.live k p hp
  | true =>
      refine files_spec h hentries (.transit hfiles (by decide) (by decide)) ?_
      refine live_of_delete h (fun _ => rfl) ?_ hharmless
      rw [if_pos rfl] at hfiles ⊢
      rw [BlobFiles.transitAll_singleton, hfiles]

theorem compactionCompleted_spec (h : Inv s) {i : ℕ}
    (hstep : s.compactionCompletedStep i = some s') : StepSpec s s' := by
  have hentries := h.entries.compactionCompleted hstep
  obtain ⟨info, bitmaps, -, -, rfl⟩ := InvalidEntries.compactionCompletedStep_cases hstep
  exact ⟨⟨hentries, h.reads⟩, .refl _⟩

variable [DecidableEq κ]

theorem gc_spec (h : Inv s) {a : SoftwareGC.Action κ} (hstep : s.gcStep a = some s') :
    StepSpec s s' := by
  have hgc := InvalidEntries.gcStep_cases hstep
  exact ⟨⟨h.entries.gc hstep,
    h.reads.step h.entries.wf (h.entries.bitsUnreferenced a) hgc⟩, h.entries.wf.ages hgc⟩

theorem rewriteTables_spec (h : Inv s) {gc : SoftwareGC.State κ} {upto : ℕ} {f : UInt64}
    {records : List (ℕ × BlobRec κ)} {inlined dropped : List (κ × ℕ)}
    (hle : upto ≤ s.gc.lsm.lastSequence) (hdrop : s.gc.Droppable upto dropped)
    (hgc : s.gc.rewriteTables f records inlined dropped = some gc) :
    Reads gc ∧ Ages s.gc.files gc.files := by
  refine ⟨h.reads.rewriteTables h.entries.wf (hdrop.2.1.of_le hdrop.1 hle) hgc, ?_⟩
  exact h.entries.wf.ages_rewriteTables hgc

theorem fallbackFlush_spec (h : Inv s) {upto : ℕ} {inlined dropped : List (κ × ℕ)}
    (hstep : s.fallbackFlushStep upto inlined dropped = some s') : StepSpec s s' := by
  have hentries := h.entries.fallbackFlush hstep
  obtain ⟨gc, hgc, rfl⟩ := Option.map_eq_some_iff.mp hstep
  obtain ⟨hle, hdrop, hrw⟩ := fallbackFlushStep_cases hgc
  obtain ⟨hreads, hages⟩ := rewriteTables_spec h hle hdrop hrw
  exact ⟨⟨hentries, hreads⟩, hages⟩

theorem compact_spec (h : Inv s) {upto : ℕ} {inputs dropped : List (κ × ℕ)} {f : UInt64}
    {records : List (ℕ × BlobRec κ)} {inlined : List (κ × ℕ)}
    (hstep : step s (.compact upto inputs dropped f records inlined) = some s') :
    StepSpec s s' := by
  rw [step] at hstep
  split_ifs at hstep with hguard
  have hentries := h.entries.compact hstep
  obtain ⟨gc, hgc, rfl⟩ := InvalidEntries.compactStep_cases hstep
  obtain ⟨hreads, hages⟩ := rewriteTables_spec h hguard.1 hguard.2 hgc
  exact ⟨⟨hentries, hreads⟩, hages⟩

theorem step_spec (h : Inv s) {a : Action κ} (hharmless : Harmless s a)
    (hstep : step s a = some s') : StepSpec s s' := by
  cases a with
  | gc a => exact gc_spec h hstep
  | fallbackFlush upto inlined dropped => exact fallbackFlush_spec h hstep
  | compact upto inputs dropped f records inlined => exact compact_spec h hstep
  | compactionCompleted i => exact compactionCompleted_spec h hstep
  | compactionOutput f noLiveData => exact compactionOutput_spec h hharmless hstep
  | levelMerged f noLiveData => exact levelMerged_spec h hharmless hstep

theorem obsoleted_spec {a : Action κ} (hstep : step s a = some s') {f : UInt64}
    (hf : f ∈ obsoleted s a) : isObsolete s'.gc.files f = true := by
  unfold obsoleted at hf
  split at hf
  · rename_i g
    obtain ⟨mid, files, -, hfiles, rfl⟩ := InvalidEntries.compactionOutputStep_cases hstep
    exact (isObsolete_delete hfiles f).mpr (Or.inl hf)
  · rename_i g
    obtain ⟨bf, files, -, -, hfiles, rfl⟩ := InvalidEntries.levelMergedStep_cases hstep
    rw [if_pos rfl, ← BlobFiles.transitAll_singleton] at hfiles
    exact (isObsolete_delete hfiles f).mpr (Or.inl hf)
  · rename_i j
    split at hf
    · cases hf
    · rename_i job hjob
      have hfinish : s.gc.gcFinishStep j = some s'.gc := InvalidEntries.gcStep_cases hstep
      obtain ⟨job', files, hjob', -, -, -, hob, heq⟩ := gcFinishStep_cases hfinish
      obtain rfl : job = job' := Option.some.inj (hjob.symm.trans hjob')
      rw [heq]
      exact (hob f).mpr (Or.inl (List.mem_filter.mp hf).1)
  · cases hf

theorem stepSound (h : Inv s) {a : Action κ} (hharmless : Harmless s a)
    (hstep : step s a = some s') : (model κ).StepSound Inv s a s' := by
  obtain ⟨hinv, hages⟩ := step_spec h hharmless hstep
  refine ⟨hinv, fun f hf => ?_, fun f hf => hages.obsolete hf, fun f hf => obsoleted_spec hstep hf⟩
  obtain ⟨bf, hbf⟩ := (mem_numbers h).mp hf
  obtain ⟨bf', hbf', -⟩ := hages f bf hbf
  exact (mem_numbers hinv).mpr ⟨bf', hbf'⟩

theorem sound (κ : Type) [DecidableEq κ] : (model κ).Sound Harmless Inv where
  init _ := ⟨.init, .init⟩
  live s f h := by
    rintro ⟨k, p, hp, rfl⟩
    obtain ⟨bf, r, hbf, -⟩ := h.entries.wf.names_latest hp
    exact ⟨(mem_numbers h).mpr ⟨bf, hbf⟩, h.reads.live k p hp⟩
  step _ _ _ h hharmless hstep := stepSound h hharmless hstep

end AegonKV.SoftwareColumn
