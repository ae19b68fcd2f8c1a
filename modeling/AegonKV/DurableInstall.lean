import AegonKV.TransitionSystem
import Mathlib.Data.List.Nodup
import Mathlib.Logic.Function.Basic
import Mathlib.Order.Nat

/-!
# Data before the manifest

How a blob file gets into the manifest. The table builder and software GC hand their files to
`BatchFinishFiles`, which syncs and closes each of them, syncs the directory and only then logs; it
gives up at the first failure. A hardware job logs the file its driver has written with `write`.
-/

namespace AegonKV.DurableInstall

/-- A blob file in the directory: what was written, what of it is synced, whether its directory entry
is, and whether its builder is done with it. -/
structure FileData where
  written : ℕ
  synced : ℕ
  entrySynced : Bool
  finished : Bool
  deriving DecidableEq, Repr

/-- A running `BatchFinishFiles`: its files with their sizes, those it has not synced yet, and
whether the directory is synced. -/
structure Batch where
  files : List (UInt64 × ℕ)
  toSync : List UInt64
  dirSynced : Bool
  deriving DecidableEq, Repr

structure State where
  files : UInt64 → Option FileData
  batches : ℕ → Option Batch
  /-- `hardware_blob_file_` of the hardware jobs: number and file size. -/
  hardwareBlobFiles : ℕ → Option (UInt64 × ℕ)
  /-- The AddBlobFile entries of each manifest record, with the file sizes. -/
  manifest : List (List (UInt64 × ℕ))
  syncedRecords : ℕ

def State.init : State := ⟨fun _ => none, fun _ => none, fun _ => none, [], 0⟩

def State.newFileStep (s : State) (f : UInt64) : Option State :=
  if (s.files f).isNone then
    some { s with files := Function.update s.files f (some ⟨0, 0, false, false⟩) }
  else none

/-- The builder appends to a file it has not finished. -/
def State.appendStep (s : State) (f : UInt64) (n : ℕ) : Option State :=
  match s.files f with
  | none => none
  | some fd =>
    if fd.finished then none
    else some { s with
      files := Function.update s.files f (some { fd with written := fd.written + n }) }

def State.finishFiles (s : State) (fs : List UInt64) (f : UInt64) : Option FileData :=
  if f ∈ fs then (s.files f).map fun fd => { fd with finished := true } else s.files f

def State.fileSize (s : State) (f : UInt64) : ℕ :=
  ((s.files f).map (·.written)).getD 0

/-- `TitanTableBuilder::Finish` or `InstallOutputBlobFiles`, up to the call of `BatchFinishFiles`. -/
def State.batchBeginStep (s : State) (b : ℕ) (fs : List UInt64) : Option State :=
  if (s.batches b).isNone ∧ fs.Nodup ∧ fs.all fun f => (s.files f).any fun fd => !fd.finished then
    some { s with
      files := s.finishFiles fs
      batches := Function.update s.batches b
        (some ⟨fs.map fun f => (f, s.fileSize f), fs, false⟩) }
  else none

def State.syncFileStep (s : State) (b : ℕ) (ok : Bool) : Option State :=
  match s.batches b with
  | none => none
  | some batch =>
    match batch.toSync with
    | [] => none
    | f :: rest =>
      if ok then
        some { s with
          files := Function.update s.files f
            ((s.files f).map fun fd => { fd with synced := fd.written })
          batches := Function.update s.batches b (some { batch with toSync := rest }) }
      else some { s with batches := Function.update s.batches b none }

/-- `directory_->Fsync()`. -/
def State.fsyncDirStep (s : State) (b : ℕ) (ok : Bool) : Option State :=
  match s.batches b with
  | none => none
  | some batch =>
    if batch.toSync.isEmpty then
      if ok then
        some { s with
          files := fun f => (s.files f).map fun fd => { fd with entrySynced := true }
          batches := Function.update s.batches b (some { batch with dirSynced := true }) }
      else some { s with batches := Function.update s.batches b none }
    else none

/-- `LogAndApply` of a batch up to `AddRecord`. -/
def State.logAndApplyStep (s : State) (b : ℕ) (ok : Bool) : Option State :=
  match s.batches b with
  | none => none
  | some batch =>
    if batch.dirSynced then
      some { s with
        manifest := if ok then s.manifest ++ [batch.files] else s.manifest
        batches := Function.update s.batches b none }
    else none

/-- `run_gc_kernel`: `size` bytes of output, of which `write` wrote `ret`. -/
def State.runGcKernelStep (s : State) (j : ℕ) (f : UInt64) (size ret : ℕ) : Option State :=
  if (s.hardwareBlobFiles j).isNone ∧ (s.files f).isNone ∧ 0 < ret ∧ ret ≤ size then
    some { s with
      files := Function.update s.files f (some ⟨ret, 0, false, true⟩)
      hardwareBlobFiles := Function.update s.hardwareBlobFiles j (some (f, size)) }
  else none

def State.installHardwareStep (s : State) (j : ℕ) : Option State :=
  (s.hardwareBlobFiles j).map fun file =>
    { s with
      manifest := s.manifest ++ [[file]]
      hardwareBlobFiles := Function.update s.hardwareBlobFiles j none }

inductive Action
  | newFile (f : UInt64)
  | append (f : UInt64) (n : ℕ)
  | batchBegin (b : ℕ) (fs : List UInt64)
  | syncFile (b : ℕ) (ok : Bool)
  | fsyncDir (b : ℕ) (ok : Bool)
  | logAndApply (b : ℕ) (ok : Bool)
  | runGcKernel (j : ℕ) (f : UInt64) (size ret : ℕ)
  | installHardware (j : ℕ)
  | syncManifest
  deriving DecidableEq, Repr

def step (s : State) : Action → Option State
  | .newFile f => s.newFileStep f
  | .append f n => s.appendStep f n
  | .batchBegin b fs => s.batchBeginStep b fs
  | .syncFile b ok => s.syncFileStep b ok
  | .fsyncDir b ok => s.fsyncDirStep b ok
  | .logAndApply b ok => s.logAndApplyStep b ok
  | .runGcKernel j f size ret => s.runGcKernelStep j f size ret
  | .installHardware j => s.installHardwareStep j
  | .syncManifest => some { s with syncedRecords := s.manifest.length }

/-- All `size` bytes of the file and its directory entry are synced. -/
def Durable (files : UInt64 → Option FileData) (x : UInt64 × ℕ) : Prop :=
  ∃ fd, files x.1 = some fd ∧ x.2 ≤ fd.synced ∧ fd.entrySynced = true

/-- After a crash that leaves the first `m` records, every file of the manifest is there. -/
def DataBeforeManifest (s : State) (m : ℕ) : Prop :=
  ∀ record ∈ s.manifest.take m, ∀ x ∈ record, Durable s.files x

/-! ## The invariant -/

structure BatchFile (files : UInt64 → Option FileData) (batch : Batch) (x : UInt64 × ℕ)
    (fd : FileData) : Prop where
  file : files x.1 = some fd
  finished : fd.finished = true
  size : fd.written = x.2
  synced : x.1 ∉ batch.toSync → x.2 ≤ fd.synced
  entry : batch.dirSynced = true → fd.entrySynced = true

structure Inv (s : State) : Prop where
  synced_le : ∀ f fd, s.files f = some fd → fd.synced ≤ fd.written
  batches : ∀ b batch, s.batches b = some batch → ∀ x ∈ batch.files, ∃ fd, BatchFile s.files batch x fd
  dirSynced : ∀ b batch, s.batches b = some batch → batch.dirSynced = true → batch.toSync = []
  manifest : ∀ record ∈ s.manifest, ∀ x ∈ record, Durable s.files x

theorem Inv.init : Inv .init :=
  ⟨fun _ _ h => (by cases h), fun _ _ h => (by cases h), fun _ _ h => (by cases h), by simp [State.init]⟩

/-- How a step may change the files: nothing that is finished or synced gets lost. -/
structure Grows (files files' : UInt64 → Option FileData) : Prop where
  kept : ∀ f fd, files f = some fd → ∃ fd', files' f = some fd' ∧ fd.synced ≤ fd'.synced ∧
    (fd.entrySynced = true → fd'.entrySynced = true) ∧
    (fd.finished = true → fd'.finished = true ∧ fd'.written = fd.written)
  synced_le : ∀ f fd', files' f = some fd' → fd'.synced ≤ fd'.written

theorem Grows.durable {files files' : UInt64 → Option FileData} (h : Grows files files')
    {x : UInt64 × ℕ} (hx : Durable files x) : Durable files' x := by
  obtain ⟨fd, hf, hle, he⟩ := hx
  obtain ⟨fd', hf', hsync, hentry, -⟩ := h.kept _ fd hf
  exact ⟨fd', hf', hle.trans hsync, hentry he⟩

theorem Grows.batchFile {files files' : UInt64 → Option FileData} (h : Grows files files')
    {batch : Batch} {x : UInt64 × ℕ} {fd : FileData} (hx : BatchFile files batch x fd) :
    ∃ fd', BatchFile files' batch x fd' := by
  obtain ⟨fd', hf', hsync, hentry, hfin⟩ := h.kept _ fd hx.file
  obtain ⟨hfin', hw⟩ := hfin hx.finished
  exact ⟨fd', hf', hfin', hw.trans hx.size, fun hn => (hx.synced hn).trans hsync,
    fun hd => hentry (hx.entry hd)⟩

variable {s s' : State}

/-- The files grow, and of the batches at most one changes. -/
theorem Inv.of_step (h : Inv s) (hg : Grows s.files s'.files)
    (hbatches : ∀ b batch, s'.batches b = some batch → s.batches b = some batch ∨
      ((∀ x ∈ batch.files, ∃ fd, BatchFile s'.files batch x fd) ∧
        (batch.dirSynced = true → batch.toSync = [])))
    (hmanifest : ∀ record ∈ s'.manifest, record ∈ s.manifest ∨ ∀ x ∈ record, Durable s'.files x) :
    Inv s' := by
  refine ⟨hg.synced_le, fun b batch hb x hx => ?_, fun b batch hb hd => ?_, fun record hr x hx => ?_⟩
  · rcases hbatches b batch hb with hold | ⟨hnew, -⟩
    · obtain ⟨fd, hfd⟩ := h.batches b batch hold x hx
      exact hg.batchFile hfd
    · exact hnew x hx
  · rcases hbatches b batch hb with hold | ⟨-, hnew⟩
    · exact h.dirSynced b batch hold hd
    · exact hnew hd
  · rcases hmanifest record hr with hold | hnew
    · exact hg.durable (h.manifest record hold x hx)
    · exact hnew x hx

theorem Grows.refl (h : Inv s) : Grows s.files s.files :=
  ⟨fun _ fd hf => ⟨fd, hf, le_rfl, id, fun hfin => ⟨hfin, rfl⟩⟩, h.synced_le⟩

/-- One file changes. -/
theorem Grows.update (h : Inv s) {f : UInt64} {fd' : FileData} (hle : fd'.synced ≤ fd'.written)
    (hold : ∀ fd, s.files f = some fd → fd.synced ≤ fd'.synced ∧
      (fd.entrySynced = true → fd'.entrySynced = true) ∧
      (fd.finished = true → fd'.finished = true ∧ fd'.written = fd.written)) :
    Grows s.files (Function.update s.files f (some fd')) := by
  refine ⟨fun g fd hg => ?_, fun g gd hg => ?_⟩
  · by_cases hgf : g = f
    · subst hgf
      exact ⟨fd', Function.update_self _ _ _, hold fd hg⟩
    · exact ⟨fd, by rw [Function.update_of_ne hgf, hg], le_rfl, id, fun hfin => ⟨hfin, rfl⟩⟩
  · by_cases hgf : g = f
    · subst hgf
      rw [Function.update_self] at hg
      obtain rfl := Option.some.inj hg
      exact hle
    · rw [Function.update_of_ne hgf] at hg
      exact h.synced_le g gd hg

theorem update_batches_some {batches : ℕ → Option Batch} {b b' : ℕ} {x : Option Batch}
    {batch : Batch} (h : Function.update batches b x b' = some batch) :
    x = some batch ∨ batches b' = some batch := by
  by_cases hb : b' = b
  · subst hb
    exact Or.inl (by simpa using h)
  · exact Or.inr (by simpa [hb] using h)

theorem Inv.newFile (h : Inv s) {f : UInt64} (hstep : s.newFileStep f = some s') : Inv s' := by
  unfold State.newFileStep at hstep
  split_ifs at hstep with hnone
  obtain rfl := Option.some.inj hstep
  refine h.of_step (.update h le_rfl fun fd hf => ?_) (fun _ _ hb => Or.inl hb) fun _ hr => Or.inl hr
  simp [hf] at hnone

theorem Inv.append (h : Inv s) {f : UInt64} {n : ℕ} (hstep : s.appendStep f n = some s') :
    Inv s' := by
  unfold State.appendStep at hstep
  split at hstep
  · cases hstep
  rename_i fd hf
  split_ifs at hstep with hfin
  obtain rfl := Option.some.inj hstep
  have hle := h.synced_le f fd hf
  refine h.of_step (.update h (Nat.le_add_right_of_le hle) fun gd hg => ?_)
    (fun _ _ hb => Or.inl hb) fun _ hr => Or.inl hr
  obtain rfl := Option.some.inj (hf.symm.trans hg)
  exact ⟨le_rfl, id, fun hc => absurd hc hfin⟩

theorem Inv.batchBegin (h : Inv s) {b : ℕ} {fs : List UInt64}
    (hstep : s.batchBeginStep b fs = some s') : Inv s' := by
  unfold State.batchBeginStep at hstep
  split_ifs at hstep with hc
  obtain rfl := Option.some.inj hstep
  have hfile : ∀ f fd, s.files f = some fd → ∃ fd', s.finishFiles fs f = some fd' ∧
      fd'.written = fd.written ∧ fd'.synced = fd.synced ∧ fd'.entrySynced = fd.entrySynced ∧
      (f ∈ fs ∨ fd.finished = true → fd'.finished = true) := by
    intro f fd hf
    unfold State.finishFiles
    split_ifs with hmem
    · exact ⟨{ fd with finished := true }, by rw [hf]; rfl, rfl, rfl, rfl, fun _ => rfl⟩
    · exact ⟨fd, hf, rfl, rfl, rfl, fun hor => hor.resolve_left hmem⟩
  refine h.of_step ⟨fun f fd hf => ?_, fun f fd' hf' => ?_⟩ (fun b' batch hb => ?_)
    fun _ hr => Or.inl hr
  · obtain ⟨fd', hf', hw, hs, he, hfin⟩ := hfile f fd hf
    exact ⟨fd', hf', hs.ge, fun hc => he ▸ hc, fun hc => ⟨hfin (Or.inr hc), hw⟩⟩
  · cases hf : s.files f with
    | none =>
        simp only [State.finishFiles, hf, Option.map_none, ite_self] at hf'
        cases hf'
    | some fd =>
        obtain ⟨fd'', hf'', hw, hs, -⟩ := hfile f fd hf
        obtain rfl := Option.some.inj (hf'.symm.trans hf'')
        rw [hs, hw]
        exact h.synced_le f fd hf
  · rcases update_batches_some hb with hx | hold
    · obtain rfl := Option.some.inj hx
      refine Or.inr ⟨fun x hx => ?_, fun hd => (by cases hd)⟩
      obtain ⟨f, hf, rfl⟩ := List.mem_map.mp hx
      cases hfd : s.files f with
      | none =>
          have hopen := List.all_eq_true.mp hc.2.2 f hf
          simp [hfd] at hopen
      | some fd =>
          obtain ⟨fd', hf', hw, -, -, hfin⟩ := hfile f fd hfd
          refine ⟨fd', hf', hfin (Or.inl hf), ?_, fun hn => absurd hf hn, fun hd => (by cases hd)⟩
          simp [State.fileSize, hfd, hw]
    · exact Or.inl hold

/-- A batch that returns an error. -/
theorem Inv.batchEnd (h : Inv s) (b : ℕ) :
    Inv { s with batches := Function.update s.batches b none } := by
  refine h.of_step (.refl h) (fun b' batch hb => ?_) fun _ hr => Or.inl hr
  rcases update_batches_some hb with hx | hold
  · cases hx
  · exact Or.inl hold

theorem Inv.syncFile (h : Inv s) {b : ℕ} {ok : Bool} (hstep : s.syncFileStep b ok = some s') :
    Inv s' := by
  unfold State.syncFileStep at hstep
  split at hstep
  · cases hstep
  rename_i batch hb
  split at hstep
  · cases hstep
  rename_i f rest hsync
  split_ifs at hstep
  swap
  · obtain rfl := Option.some.inj hstep
    exact h.batchEnd b
  obtain rfl := Option.some.inj hstep
  have hg : Grows s.files (Function.update s.files f
      ((s.files f).map fun fd => { fd with synced := fd.written })) := by
    cases hf : s.files f with
    | none =>
        rw [Option.map_none, ← hf, Function.update_eq_self]
        exact .refl h
    | some fd =>
        refine .update h le_rfl fun gd hg => ?_
        obtain rfl := Option.some.inj (hf.symm.trans hg)
        exact ⟨h.synced_le f fd hf, id, fun hc => ⟨hc, rfl⟩⟩
  refine h.of_step hg (fun b' other hb' => ?_) fun _ hr => Or.inl hr
  rcases update_batches_some hb' with hx | hold
  · obtain rfl := Option.some.inj hx
    have hnot : batch.dirSynced = true → False := by
      intro hd
      simp [h.dirSynced b batch hb hd] at hsync
    refine Or.inr ⟨fun x hx => ?_, fun hd => (hnot hd).elim⟩
    obtain ⟨fd, hfd⟩ := h.batches b batch hb x hx
    by_cases hxf : x.1 = f
    · refine ⟨{ fd with synced := fd.written }, ?_, hfd.finished, hfd.size,
        fun _ => hfd.size.ge, fun hd => (hnot hd).elim⟩
      change Function.update _ _ _ _ = _
      rw [hxf, Function.update_self, ← hxf, hfd.file]
      rfl
    · refine ⟨fd, ?_, hfd.finished, hfd.size, fun hn => hfd.synced ?_, fun hd => (hnot hd).elim⟩
      · change Function.update _ _ _ _ = _
        rw [Function.update_of_ne hxf, hfd.file]
      · rw [hsync]
        exact List.not_mem_cons_of_ne_of_not_mem hxf hn
  · exact Or.inl hold

theorem Inv.fsyncDir (h : Inv s) {b : ℕ} {ok : Bool} (hstep : s.fsyncDirStep b ok = some s') :
    Inv s' := by
  unfold State.fsyncDirStep at hstep
  split at hstep
  · cases hstep
  rename_i batch hb
  split_ifs at hstep with hempty
  swap
  · obtain rfl := Option.some.inj hstep
    exact h.batchEnd b
  obtain rfl := Option.some.inj hstep
  have hempty : batch.toSync = [] := by simpa using hempty
  refine h.of_step ⟨fun f fd hf => ?_, fun f fd' hf' => ?_⟩ (fun b' other hb' => ?_)
    fun _ hr => Or.inl hr
  · exact ⟨{ fd with entrySynced := true }, by simp [hf], le_rfl, fun _ => rfl,
      fun hc => ⟨hc, rfl⟩⟩
  · obtain ⟨fd, hf, rfl⟩ := Option.map_eq_some_iff.mp hf'
    exact h.synced_le f fd hf
  · rcases update_batches_some hb' with hx | hold
    · obtain rfl := Option.some.inj hx
      refine Or.inr ⟨fun x hx => ?_, fun _ => hempty⟩
      obtain ⟨fd, hfd⟩ := h.batches b batch hb x hx
      exact ⟨{ fd with entrySynced := true }, by simp [hfd.file], hfd.finished, hfd.size,
        hfd.synced, fun _ => rfl⟩
    · exact Or.inl hold

theorem Inv.logAndApply (h : Inv s) {b : ℕ} {ok : Bool}
    (hstep : s.logAndApplyStep b ok = some s') : Inv s' := by
  unfold State.logAndApplyStep at hstep
  split at hstep
  · cases hstep
  rename_i batch hb
  split_ifs at hstep with hd hok
  swap
  · obtain rfl := Option.some.inj hstep
    exact h.batchEnd b
  obtain rfl := Option.some.inj hstep
  have hend := h.batchEnd b
  refine ⟨hend.synced_le, hend.batches, hend.dirSynced, fun record hr => ?_⟩
  rcases List.mem_append.mp hr with hr | hr
  · exact h.manifest record hr
  · obtain rfl := List.mem_singleton.mp hr
    intro x hx
    obtain ⟨fd, hfd⟩ := h.batches b batch hb x hx
    refine ⟨fd, hfd.file, hfd.synced ?_, hfd.entry hd⟩
    rw [h.dirSynced b batch hb hd]
    exact List.not_mem_nil

theorem Inv.runGcKernel (h : Inv s) {j : ℕ} {f : UInt64} {size ret : ℕ}
    (hstep : s.runGcKernelStep j f size ret = some s') : Inv s' := by
  unfold State.runGcKernelStep at hstep
  split_ifs at hstep with hc
  obtain rfl := Option.some.inj hstep
  refine h.of_step (.update h (Nat.zero_le _) fun fd hf => ?_) (fun _ _ hb => Or.inl hb)
    fun _ hr => Or.inl hr
  simp [hf] at hc

def NoHardwareInstall (_ : State) (a : Action) : Prop :=
  ∀ j, a ≠ .installHardware j

theorem Inv.step (h : Inv s) {a : Action} (hc : NoHardwareInstall s a)
    (hstep : DurableInstall.step s a = some s') : Inv s' := by
  cases a with
  | newFile f => exact h.newFile hstep
  | append f n => exact h.append hstep
  | batchBegin b fs => exact h.batchBegin hstep
  | syncFile b ok => exact h.syncFile hstep
  | fsyncDir b ok => exact h.fsyncDir hstep
  | logAndApply b ok => exact h.logAndApply hstep
  | runGcKernel j f size ret => exact h.runGcKernel hstep
  | installHardware j => exact absurd rfl (hc j)
  | syncManifest =>
      obtain rfl := Option.some.inj hstep
      exact ⟨h.synced_le, h.batches, h.dirSynced, h.manifest⟩

/-- Data before the manifest: at every crash point of a run without a hardware install, each file in
what is left of the manifest has all its bytes and its directory entry synced. -/
theorem dataBeforeManifest_of_noHardwareInstall {actions : List Action}
    (hm : TransitionSystem.Meets DurableInstall.step NoHardwareInstall .init actions)
    (hr : TransitionSystem.run DurableInstall.step .init actions = some s) (m : ℕ) :
    DataBeforeManifest s m := by
  have hinv : Inv s := TransitionSystem.run_invariant
    (fun _ _ _ hi hc hstep => hi.step hc hstep) .init hm hr
  exact fun record hrecord => hinv.manifest record (List.mem_of_mem_take hrecord)

/-- A batch of two files, and a second batch whose second file fails to sync. -/
def halfFailedBatch : List Action :=
  [.newFile 1, .newFile 2, .append 1 40, .append 2 50, .batchBegin 0 [1, 2], .syncFile 0 true,
    .syncFile 0 true, .fsyncDir 0 true, .logAndApply 0 true, .syncManifest, .newFile 3, .newFile 4,
    .append 3 10, .batchBegin 1 [3, 4], .syncFile 1 true, .syncFile 1 false]

theorem halfFailedBatch_durable : ∃ s,
    TransitionSystem.run DurableInstall.step .init halfFailedBatch = some s ∧
      s.manifest.take s.syncedRecords = [[(1, 40), (2, 50)]] ∧
      DataBeforeManifest s s.syncedRecords := by
  have hactions : ∀ a ∈ halfFailedBatch, ∀ j, a ≠ .installHardware j := by simp [halfFailedBatch]
  have hm : TransitionSystem.Meets DurableInstall.step NoHardwareInstall .init halfFailedBatch :=
    TransitionSystem.meets_of_mem fun _ a ha => hactions a ha
  have hmanifest : (TransitionSystem.run DurableInstall.step .init halfFailedBatch).map
      (fun s => s.manifest.take s.syncedRecords) = some [[(1, 40), (2, 50)]] := by
    decide +kernel
  obtain ⟨s, hrun, hs⟩ := Option.map_eq_some_iff.mp hmanifest
  exact ⟨s, hrun, hs, dataBeforeManifest_of_noHardwareInstall hm hrun _⟩

/-- A hardware job writes 32 bytes to file 1, installs it, and the manifest is synced. -/
def hardwareInstall : List Action :=
  [.runGcKernel 0 1 32 32, .installHardware 0, .syncManifest]

theorem hardwareInstall_not_durable : ∃ s,
    TransitionSystem.run DurableInstall.step .init hardwareInstall = some s ∧
      s.manifest.take s.syncedRecords = [[(1, 32)]] ∧ ¬DataBeforeManifest s s.syncedRecords := by
  refine ⟨_, rfl, rfl, fun h => ?_⟩
  obtain ⟨fd, hfd, hle, -⟩ := h [(1, 32)] List.mem_cons_self (1, 32) List.mem_cons_self
  obtain rfl := Option.some.inj hfd
  exact absurd hle (by decide)

end AegonKV.DurableInstall
