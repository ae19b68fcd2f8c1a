import AegonKV.OffloadedColumnRuns
import AegonKV.SoftwareColumn

/-!
# Checkpoints of a database

A database whose column families are of two kinds is sound when both kinds are. The kinds here are
the two ways a garbage collection job rewrites keys: software jobs, and jobs offloaded to hardware.
-/

namespace AegonKV.Checkpoint
open TransitionSystem

variable {σ₁ α₁ σ₂ α₂ μ : Type}

def ColumnModel.sum (c₁ : ColumnModel σ₁ α₁ μ) (c₂ : ColumnModel σ₂ α₂ μ) (second : UInt32 → Bool) :
    ColumnModel (σ₁ ⊕ σ₂) (α₁ ⊕ α₂) μ where
  init cf := if second cf then .inr (c₂.init cf) else .inl (c₁.init cf)
  step
    | .inl col, .inl a => (c₁.step col a).map .inl
    | .inr col, .inr a => (c₂.step col a).map .inr
    | _, _ => none
  files := Sum.elim c₁.files c₂.files
  isObsolete := Sum.elim c₁.isObsolete c₂.isObsolete
  obsoleted
    | .inl col, .inl a => c₁.obsoleted col a
    | .inr col, .inr a => c₂.obsoleted col a
    | _, _ => []
  newest := Sum.elim c₁.newest c₂.newest

/-- Each kind has its own condition. -/
def SumCondition (P₁ : σ₁ → α₁ → Prop) (P₂ : σ₂ → α₂ → Prop) : σ₁ ⊕ σ₂ → α₁ ⊕ α₂ → Prop
  | .inl col, .inl a => P₁ col a
  | .inr col, .inr a => P₂ col a
  | _, _ => True

variable {c₁ : ColumnModel σ₁ α₁ μ} {c₂ : ColumnModel σ₂ α₂ μ} {P₁ : σ₁ → α₁ → Prop}
  {P₂ : σ₂ → α₂ → Prop} {I₁ : σ₁ → Prop} {I₂ : σ₂ → Prop}

theorem ColumnModel.Sound.sum_step (h₁ : c₁.Sound P₁ I₁) (h₂ : c₂.Sound P₂ I₂)
    (second : UInt32 → Bool) {col col' : σ₁ ⊕ σ₂} {a : α₁ ⊕ α₂} (h : Sum.elim I₁ I₂ col)
    (hcondition : SumCondition P₁ P₂ col a)
    (hstep : (c₁.sum c₂ second).step col a = some col') :
    (c₁.sum c₂ second).StepSound (Sum.elim I₁ I₂) col a col' := by
  cases col with
  | inl col =>
      cases a with
      | inl a =>
          obtain ⟨col', hcol', rfl⟩ := Option.map_eq_some_iff.mp hstep
          obtain ⟨hinv, hkept, hobsolete, hobsoleted⟩ := h₁.step col a col' h hcondition hcol'
          exact ⟨hinv, hkept, hobsolete, hobsoleted⟩
      | inr a => cases hstep
  | inr col =>
      cases a with
      | inl a => cases hstep
      | inr a =>
          obtain ⟨col', hcol', rfl⟩ := Option.map_eq_some_iff.mp hstep
          obtain ⟨hinv, hkept, hobsolete, hobsoleted⟩ := h₂.step col a col' h hcondition hcol'
          exact ⟨hinv, hkept, hobsolete, hobsoleted⟩

theorem ColumnModel.Sound.sum (h₁ : c₁.Sound P₁ I₁) (h₂ : c₂.Sound P₂ I₂)
    (second : UInt32 → Bool) :
    (c₁.sum c₂ second).Sound (SumCondition P₁ P₂) (Sum.elim I₁ I₂) where
  init cf := by
    cases hcf : second cf with
    | false => simpa [ColumnModel.sum, hcf] using h₁.init cf
    | true => simpa [ColumnModel.sum, hcf] using h₂.init cf
  live col f h hnewest := by
    cases col with
    | inl col => exact h₁.live col f h hnewest
    | inr col => exact h₂.live col f h hnewest
  step _ _ _ h hcondition hstep := h₁.sum_step h₂ second h hcondition hstep

variable {κ : Type} [DecidableEq κ]

/-- The column families of a database. A hardware driver, if there is one, serves all of them. -/
def database (κ : Type) [DecidableEq κ] (offload : Bool) :
    ColumnModel (InvalidEntries.State κ ⊕ OffloadedColumn.State κ)
      (SoftwareColumn.Action κ ⊕ OffloadedColumn.Action κ) (BlobFile κ) :=
  (SoftwareColumn.model κ).sum (OffloadedColumn.model κ) fun _ => offload

/-- The state each step of a column family must be taken from. -/
def Harmless : InvalidEntries.State κ ⊕ OffloadedColumn.State κ →
    SoftwareColumn.Action κ ⊕ OffloadedColumn.Action κ → Prop :=
  SumCondition SoftwareColumn.Harmless OffloadedColumn.Harmless

/-- A checkpoint is complete, whatever runs next to it, as long as all of it is harmless. -/
theorem checkpoint_complete (offload : Bool) (cfs : List UInt32)
    (actions : List (Action (SoftwareColumn.Action κ ⊕ OffloadedColumn.Action κ)))
    {s : State (InvalidEntries.State κ ⊕ OffloadedColumn.State κ) (BlobFile κ)}
    (hm : Meets (step (database κ offload) cfs) (Conditioned Harmless)
      (State.init (database κ offload)) actions)
    (hr : run (step (database κ offload) cfs) (State.init (database κ offload)) actions = some s)
    {file : FileId} (hfile : s.checkpoint.Names (database κ offload) cfs file) :
    Complete s.checkpoint file :=
  complete_of_sound ((SoftwareColumn.sound κ).sum (OffloadedColumn.sound κ) _) hm hr hfile

/-! ## A record that moves while a checkpoint runs -/

def column (a : OffloadedColumn.Action ℕ) :
    Action (SoftwareColumn.Action ℕ ⊕ OffloadedColumn.Action ℕ) :=
  .column 0 (Sum.inr a) 7

theorem conditioned_column {a : OffloadedColumn.Action ℕ}
    (s : State (InvalidEntries.State ℕ ⊕ OffloadedColumn.State ℕ) (BlobFile ℕ))
    (h : ∀ col, s.columns 0 = .inr col → OffloadedColumn.Harmless col a) :
    Conditioned Harmless s (column a) := by
  change SumCondition _ _ (s.columns 0) (.inr a)
  cases hcol : s.columns 0 with
  | inl col => trivial
  | inr col => exact h col hcol

/-- The only record goes to file 1. -/
def flushedRecord : List (Action (SoftwareColumn.Action ℕ ⊕ OffloadedColumn.Action ℕ)) :=
  [column (.put 0 [1]), column .switchMemtable, column (.flush 1 1 [⟨⟨12, 20, 0⟩, 0, [1]⟩] [])]

/-- It is copied to file 2, which is installed. -/
def copiedRecord : List (Action (SoftwareColumn.Action ℕ ⊕ OffloadedColumn.Action ℕ)) :=
  [column (.flushCompleted 1), column (.gcBegin [1]), column (.gcOnHardware 0 2 [12]),
    column (.gcInstall 0)]

def restOfCheckpoint : List (Action (SoftwareColumn.Action ℕ ⊕ OffloadedColumn.Action ℕ)) :=
  [.getAllTitanFiles, .getAllFiles 4, .getAllTitanFilesReturn, .linkFile, .linkFile,
    .createTitanManifest, .checkpointDone]

/-- The write-back comes after the base checkpoint, and a purge finds the deletions disabled. -/
def relocatedDuringCheckpoint : List (Action (SoftwareColumn.Action ℕ ⊕ OffloadedColumn.Action ℕ)) :=
  (flushedRecord ++ (copiedRecord ++ [.createCheckpoint, .baseCheckpoint])) ++
    (column (.gcRewrite 0) :: ([column (.gcFlushWAL 0), column (.gcFinish 0), .purgeBegin 9] ++
      restOfCheckpoint))

theorem flushedRecord_harmless :
    Meets (step (database ℕ true) [0]) (Conditioned Harmless) (State.init (database ℕ true))
      flushedRecord := by
  refine .cons rfl trivial (.cons rfl trivial (.cons rfl ?_ trivial))
  intro k
  cases k <;> rfl

theorem restOfCheckpoint_harmless
    (s : State (InvalidEntries.State ℕ ⊕ OffloadedColumn.State ℕ) (BlobFile ℕ)) :
    Meets (step (database ℕ true) [0]) (Conditioned Harmless) s restOfCheckpoint :=
  meets_of_mem fun s a ha => by
    simp only [restOfCheckpoint, List.mem_cons, List.not_mem_nil, or_false] at ha
    rcases ha with rfl | rfl | rfl | rfl | rfl | rfl | rfl <;> trivial

/-- Whether the first job of the column family runs on hardware. -/
def onHardware (s : State (InvalidEntries.State ℕ ⊕ OffloadedColumn.State ℕ) (BlobFile ℕ)) :
    Option Bool :=
  Sum.elim (fun _ => none) (fun col => col.jobs[0]?.map (·.gcOffload)) (s.columns 0)

theorem copiedRecord_onHardware :
    (run (step (database ℕ true) [0]) (State.init (database ℕ true))
      (flushedRecord ++ (copiedRecord ++ [.createCheckpoint, .baseCheckpoint]))).map onHardware =
        some (some true) := rfl

theorem relocatedDuringCheckpoint_complete :
    ∃ s, run (step (database ℕ true) [0]) (State.init (database ℕ true))
        relocatedDuringCheckpoint = some s ∧
      (database ℕ true).isObsolete (s.columns 0) 1 = true ∧ s.checkpoint.stage = .finished ∧
      Complete s.checkpoint (0, 1) := by
  refine ⟨_, rfl, rfl, rfl, ?_⟩
  refine checkpoint_complete true [0] relocatedDuringCheckpoint ?_ rfl ?_
  · refine .append (flushedRecord_harmless.append fun t ht => meets_of_mem ?_) fun t ht => ?_
    · intro s a ha
      simp only [copiedRecord, List.cons_append, List.nil_append, List.mem_cons,
        List.not_mem_nil, or_false] at ha
      rcases ha with rfl | rfl | rfl | rfl | rfl | rfl
      · exact conditioned_column s fun _ _ => trivial
      · exact conditioned_column s fun _ _ => trivial
      · exact conditioned_column s fun _ _ => trivial
      · exact conditioned_column s fun _ _ => trivial
      · trivial
      · trivial
    · refine ⟨conditioned_column t fun col hcol => ?_, fun u _ => .append (meets_of_mem ?_) ?_⟩
      · rintro job w rest hjob - hoffload
        have honHardware := copiedRecord_onHardware
        rw [ht, Option.map_some, onHardware, hcol, Sum.elim_inr, hjob, Option.map_some,
          hoffload] at honHardware
        cases honHardware
      · intro s a ha
        simp only [List.mem_cons, List.not_mem_nil, or_false] at ha
        rcases ha with rfl | rfl | rfl
        · exact conditioned_column s fun _ _ => trivial
        · exact conditioned_column s fun _ _ => trivial
        · trivial
      · exact fun v _ => restOfCheckpoint_harmless v
  · exact ⟨_, rfl, List.mem_cons_self, 0, ⟨1, 12, 20, 0⟩, rfl, rfl⟩

/-- The key is deleted before the write-back, and a flush meets the write-back over the Deletion. -/
def deletedWhileCopied : List (Action (SoftwareColumn.Action ℕ ⊕ OffloadedColumn.Action ℕ)) :=
  flushedRecord ++ copiedRecord ++ [column (.delete 0), column (.gcRewrite 0),
    column .switchMemtable, column (.flush 1 3 [] []), .createCheckpoint, .baseCheckpoint] ++
      restOfCheckpoint

/-- The base checkpoint names file 0, which no one has and the checkpoint does not list. -/
theorem deletedWhileCopied_not_complete :
    ∃ s, run (step (database ℕ true) [0]) (State.init (database ℕ true)) deletedWhileCopied =
        some s ∧ s.checkpoint.stage = .finished ∧
      s.checkpoint.Names (database ℕ true) [0] (0, 0) ∧ ¬Complete s.checkpoint (0, 0) := by
  refine ⟨_, rfl, rfl, ⟨_, rfl, List.mem_cons_self, 0, ⟨0, 0, 0, 0⟩, rfl, rfl⟩, fun hcomplete => ?_⟩
  have hlisted : ((0, 0) : FileId) ∈ [((0, 2) : FileId), (0, 1)] := hcomplete.listed _ rfl
  revert hlisted
  decide

end AegonKV.Checkpoint
