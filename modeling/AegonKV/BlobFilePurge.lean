import AegonKV.InvalidEntriesSound
import AegonKV.SoftwareGCViews

/-!
# Readers and the purge of obsolete files

A reader takes a snapshot, reads the LSM tree at it and only then looks its blob file up. A purge
reads the oldest snapshot first and later, under another mutex, removes the obsolete files older
than that. Between the two it does not see new snapshots, which matters when there were none.
-/

namespace AegonKV.BlobFilePurge
open LittleEndian AegonKV SoftwareGC

variable {κ : Type}

def kMaxSequenceNumber : ℕ := 2 ^ 56 - 1

/-- A Get that has its index and not yet its file. -/
structure Reader (κ : Type) where
  snapshot : ℕ
  key : κ
  blobIndex : BlobIndexType
  deriving DecidableEq, Repr

structure State (κ : Type) where
  db : InvalidEntries.State κ
  /-- `obsolete_files_`, each with its obsolete sequence. -/
  obsoleteFiles : List (UInt64 × ℕ)
  /-- What `RemoveFile` has erased from `files_`. -/
  purged : List UInt64
  /-- What the running purge has read; `delete_titandb_file_mutex_` lets one run at a time. -/
  oldestSequence : Option ℕ
  readers : List (Reader κ)

def State.init : State κ := ⟨.init, [], [], none, []⟩

abbrev State.lsm (s : State κ) : Lsm κ := s.db.gc.lsm

abbrev State.snapshots (s : State κ) : List (ℕ × ℕ) := s.db.gc.snapshots

def State.findFile (s : State κ) (f : UInt64) : Option (BlobFile κ) :=
  if f ∈ s.purged then none else s.db.gc.files f

/-- The oldest snapshot is the last of the list. -/
def getOldestSnapshotSequence (snapshots : List (ℕ × ℕ)) : ℕ :=
  match snapshots.getLast? with
  | none => kMaxSequenceNumber
  | some x => x.2

/-- What `MarkFileObsolete` appends when the deletions of a job are applied. -/
def State.markedObsolete (s : State κ) : SoftwareGC.Action κ → List (UInt64 × ℕ)
  | .gcFinish j =>
    match s.db.gc.jobs j with
    | none => []
    | some job => (job.inputs.filter fun f => !isObsolete s.db.gc.files f).flatMap fun f =>
        job.obsoleteSequence.toList.map fun sequence => (f, sequence)
  | _ => []

def State.inUse (s : State κ) : SoftwareGC.Action κ → Bool
  | .releaseSnapshot i => s.readers.any fun r => r.snapshot = i
  | _ => false

def State.dbStep [DecidableEq κ] (s : State κ) (a : SoftwareGC.Action κ) : Option (State κ) :=
  if s.inUse a then none
  else (s.db.gcStep a).map fun db =>
    { s with db := db, obsoleteFiles := s.obsoleteFiles ++ s.markedObsolete a }

/-- The LSM part of a Get. -/
def State.readStep (s : State κ) (i : ℕ) (k : κ) : Option (State κ) :=
  (s.snapshots.find? fun x => x.1 = i).map fun x =>
    match s.lsm.view x.2 k with
    | some (.blobIndex p) => { s with readers := ⟨i, k, p⟩ :: s.readers }
    | _ => s

def State.purgeBeginStep (s : State κ) : Option (State κ) :=
  if s.oldestSequence.isSome then none
  else some { s with oldestSequence := some (getOldestSnapshotSequence s.snapshots) }

def State.getObsoleteFilesStep (s : State κ) : Option (State κ) :=
  s.oldestSequence.map fun oldest =>
    { s with
      obsoleteFiles := s.obsoleteFiles.filter fun x => ¬x.2 < oldest
      purged := s.purged ++ (s.obsoleteFiles.filter fun x => x.2 < oldest).map (·.1)
      oldestSequence := none }

inductive Action (κ : Type)
  | db (a : SoftwareGC.Action κ)
  | read (i : ℕ) (k : κ)
  | findFile (n : ℕ)
  | purgeBegin
  | getObsoleteFiles

def step [DecidableEq κ] (s : State κ) : Action κ → Option (State κ)
  | .db a => s.dbStep a
  | .read i k => s.readStep i k
  | .findFile n =>
    if n < s.readers.length then some { s with readers := s.readers.eraseIdx n } else none
  | .purgeBegin => s.purgeBeginStep
  | .getObsoleteFiles => s.getObsoleteFilesStep

/-! ## The invariant -/

/-- What a live snapshot leads to is there, and outlives the snapshot. -/
def Visible (s : State κ) (n : ℕ) (f : UInt64) : Prop :=
  f ∉ s.purged ∧ ∀ m, (f, m) ∈ s.obsoleteFiles → n < m

structure Inv (s : State κ) : Prop where
  entries : InvalidEntries.Inv s.db
  reads : Reads s.db.gc
  ordered : s.snapshots.Pairwise fun a b => b.2 ≤ a.2
  bounded : ∀ x ∈ s.snapshots, x.2 ≤ s.lsm.lastSequence
  visible : ∀ x ∈ s.snapshots, ∀ k p, s.lsm.view x.2 k = some (.blobIndex p) →
    Visible s x.2 p.fileNumber
  deleting : ∀ j job m, s.db.gc.jobs j = some job → job.obsoleteSequence = some m →
    ∀ x ∈ s.snapshots, m ≤ x.2 → ∀ k p, s.lsm.view x.2 k = some (.blobIndex p) →
      p.fileNumber ∉ job.inputs
  oldest : ∀ m, s.oldestSequence = some m → m = kMaxSequenceNumber ∨
    (m ≤ s.lsm.lastSequence ∧ ∀ x ∈ s.snapshots, m ≤ x.2)
  readers : ∀ r ∈ s.readers, ∃ n, (r.snapshot, n) ∈ s.snapshots ∧
    s.lsm.view n r.key = some (.blobIndex r.blobIndex)
  obsolete : ∀ x ∈ s.obsoleteFiles, isObsolete s.db.gc.files x.1 = true
  purged : ∀ f ∈ s.purged, isObsolete s.db.gc.files f = true

variable {s s' : State κ}

theorem Inv.init : Inv (State.init : State κ) where
  entries := .init
  reads := .init
  ordered := .nil
  bounded _ hx := by cases hx
  visible _ hx := by cases hx
  deleting _ _ _ hj := by cases hj
  oldest _ hm := by cases hm
  readers _ hr := by cases hr
  obsolete _ hx := by cases hx
  purged _ hf := by cases hf

/-- Files that no obsolete list mentions are visible at any sequence number. -/
theorem Inv.visible_of_not_obsolete (h : Inv s) {f : UInt64}
    (hf : isObsolete s.db.gc.files f = false) (n : ℕ) : Visible s n f := by
  refine ⟨fun hp => ?_, fun m hm => ?_⟩
  · simp [h.purged f hp] at hf
  · simp [h.obsolete _ hm] at hf

theorem mem_markedObsolete {a : SoftwareGC.Action κ} {f : UInt64} {m : ℕ}
    (h : (f, m) ∈ s.markedObsolete a) :
    ∃ j job, a = .gcFinish j ∧ s.db.gc.jobs j = some job ∧ job.obsoleteSequence = some m ∧
      f ∈ job.inputs := by
  unfold State.markedObsolete at h
  split at h
  · rename_i j
    split at h
    · cases h
    · rename_i job hjob
      obtain ⟨g, hg, hmem⟩ := List.mem_flatMap.mp h
      obtain ⟨m', hm', heq⟩ := List.mem_map.mp hmem
      obtain ⟨rfl, rfl⟩ := Prod.mk.inj heq
      exact ⟨j, job, rfl, hjob, Option.mem_toList.mp hm', (List.mem_filter.mp hg).1⟩
  · cases h

/-- The file is not obsolete, and no job that flushed the WAL has it as an input. -/
structure Current (gc : SoftwareGC.State κ) (f : UInt64) : Prop where
  live : isObsolete gc.files f = false
  not_input : ∀ j job, gc.jobs j = some job → job.walFlushed = true → f ∉ job.inputs

theorem Inv.current_latest (h : Inv s) {k : κ} {p : BlobIndexType}
    (hp : s.lsm.latest k = some (.blobIndex p)) : Current s.db.gc p.fileNumber := by
  refine ⟨h.reads.live k p hp, fun j job hjob hwal => ?_⟩
  have hj := h.reads.jobs j job hjob
  exact hj.not_input (h.entries.wf.jobs j job hjob) (hj.drained hwal) hp
    (h.entries.wf.names_latest hp)

theorem Inv.current_newIndex (h : Inv s) {e : Option LsmEntry} (he : NewIndex s.db.gc e)
    {p : BlobIndexType} (hp : e = some (.blobIndex p)) : Current s.db.gc p.fileNumber :=
  ⟨he.not_obsolete h.entries.wf hp, fun _ _ hjob _ => he.not_input h.entries.wf hp hjob⟩

/-! ## Steps of the column family -/

variable [DecidableEq κ]

/-- What a live snapshot sees after a step, it saw before, or it leads to a current file. -/
theorem Inv.view_live (h : Inv s) {gc : SoftwareGC.State κ} {a : SoftwareGC.Action κ}
    (hstep : SoftwareGC.step s.db.gc a = some gc) {x : ℕ × ℕ} (hx : x ∈ gc.snapshots) {k : κ}
    {p : BlobIndexType} (hp : gc.lsm.view x.2 k = some (.blobIndex p)) :
    (x ∈ s.snapshots ∧ s.lsm.view x.2 k = some (.blobIndex p)) ∨
      Current s.db.gc p.fileNumber := by
  have hold : x ∈ s.snapshots → (x ∈ s.snapshots ∧ s.lsm.view x.2 k = some (.blobIndex p)) ∨
      Current s.db.gc p.fileNumber := by
    intro hx
    rcases h.entries.wf.view_step hstep (keepsView_of_live hstep hx) k with heq | hchange
    · exact Or.inl ⟨hx, heq ▸ hp⟩
    · exact Or.inr (h.current_newIndex hchange.newIndex hp)
  rcases (h.entries.wf.snapshotStep hstep).live with hsub | ⟨i, rfl⟩
  · exact hold (hsub.subset hx)
  · rcases List.mem_cons.mp hx with rfl | hx
    · exact Or.inr (h.current_latest hp)
    · exact hold hx

theorem Inv.deleting_step (h : Inv s) {gc : SoftwareGC.State κ} {a : SoftwareGC.Action κ}
    (hstep : SoftwareGC.step s.db.gc a = some gc) {j m : ℕ} {job : Job κ}
    (hjob : gc.jobs j = some job) (hm : job.obsoleteSequence = some m) {x : ℕ × ℕ}
    (hx : x ∈ gc.snapshots) (hle : m ≤ x.2) {k : κ} {p : BlobIndexType}
    (hp : gc.lsm.view x.2 k = some (.blobIndex p)) : p.fileNumber ∉ job.inputs := by
  have hjs := (h.entries.wf.jobsStep hstep).jobStep hjob
  obtain ⟨old, hold, hseq⟩ := hjs.obsoleteSequence m hm
  have hwal : old.walFlushed = true := by
    rcases hseq with hseq | hseq
    · exact (h.reads.jobs j old hold).deleting (by simp [hseq])
    · exact hseq.1
  rw [hjs.inputs old hold]
  rcases h.view_live hstep hx hp with ⟨hx, hp⟩ | hcurrent
  · rcases hseq with hseq | ⟨-, rfl⟩
    · exact h.deleting j old m hold hseq x hx hle k p hp
    · rw [Lsm.view_eq_latest hle] at hp
      exact (h.current_latest hp).not_input j old hold hwal
  · exact hcurrent.not_input j old hold hwal

theorem Inv.visible_step (h : Inv s) {db : InvalidEntries.State κ} {a : SoftwareGC.Action κ}
    (hstep : s.db.gcStep a = some db) {x : ℕ × ℕ} (hx : x ∈ db.gc.snapshots) {k : κ}
    {p : BlobIndexType} (hp : db.gc.lsm.view x.2 k = some (.blobIndex p)) :
    Visible { s with db := db, obsoleteFiles := s.obsoleteFiles ++ s.markedObsolete a } x.2
      p.fileNumber := by
  have hview := h.view_live (InvalidEntries.gcStep_cases hstep) hx hp
  have hold : Visible s x.2 p.fileNumber := by
    rcases hview with ⟨hx, hp⟩ | hcurrent
    · exact h.visible x hx k p hp
    · exact h.visible_of_not_obsolete hcurrent.live x.2
  refine ⟨hold.1, fun m hm => ?_⟩
  rcases List.mem_append.mp hm with hm | hm
  · exact hold.2 m hm
  · obtain ⟨j, job, -, hjob, hseq, hin⟩ := mem_markedObsolete hm
    by_contra hlt
    rcases hview with ⟨hx, hp⟩ | hcurrent
    · exact h.deleting j job m hjob hseq x hx (by omega) k p hp hin
    · have hwal := (h.reads.jobs j job hjob).deleting (by simp [hseq])
      exact hcurrent.not_input j job hjob hwal hin

theorem Inv.marked_obsolete (h : Inv s) {db : InvalidEntries.State κ} {a : SoftwareGC.Action κ}
    (hstep : s.db.gcStep a = some db) {x : UInt64 × ℕ}
    (hx : x ∈ s.obsoleteFiles ++ s.markedObsolete a) : isObsolete db.gc.files x.1 = true := by
  rcases List.mem_append.mp hx with hx | hx
  · exact (h.entries.wf.ages (InvalidEntries.gcStep_cases hstep)).obsolete (h.obsolete x hx)
  · obtain ⟨j, job, rfl, hjob, -, hin⟩ := mem_markedObsolete hx
    have hfinish : s.db.gc.gcFinishStep j = some db.gc := InvalidEntries.gcStep_cases hstep
    obtain ⟨job', files, hjob', -, -, -, hob, heq⟩ := gcFinishStep_cases hfinish
    obtain rfl : job = job' := Option.some.inj (hjob.symm.trans hjob')
    rw [heq]
    exact (hob x.1).mpr (Or.inl hin)

/-- A reader keeps its snapshot, and the snapshot its index. -/
theorem Inv.reader_step (h : Inv s) {db : InvalidEntries.State κ} {a : SoftwareGC.Action κ}
    (huse : s.inUse a = false) (hstep : s.db.gcStep a = some db) {r : Reader κ}
    (hr : r ∈ s.readers) : ∃ n, (r.snapshot, n) ∈ db.gc.snapshots ∧
      db.gc.lsm.view n r.key = some (.blobIndex r.blobIndex) := by
  have hgc := InvalidEntries.gcStep_cases hstep
  obtain ⟨n, hn, hp⟩ := h.readers r hr
  refine ⟨n, ?_, h.entries.wf.view_blobIndex_step hgc (keepsView_of_live hgc hn)
    (h.bounded _ hn) hp⟩
  rcases (h.entries.wf.snapshotStep hgc).kept _ hn with hkept | hrel
  · exact hkept
  · obtain rfl : a = .releaseSnapshot r.snapshot :=
      InvalidEntries.eq_of_withBits hrel fun _ _ _ _ _ _ => nofun
    simp only [State.inUse, List.any_eq_false] at huse
    exact absurd (decide_eq_true rfl) (huse r hr)

theorem Inv.db (h : Inv s) {a : SoftwareGC.Action κ} (hstep : s.dbStep a = some s') : Inv s' := by
  unfold State.dbStep at hstep
  split_ifs at hstep with huse
  obtain ⟨db, hdb, rfl⟩ := Option.map_eq_some_iff.mp hstep
  have hgc := InvalidEntries.gcStep_cases hdb
  have hsnap := h.entries.wf.snapshotStep hgc
  have hseq : ∀ x ∈ db.gc.snapshots, x ∈ s.snapshots ∨ x.2 = s.lsm.lastSequence := by
    intro x hx
    rcases hsnap.live with hsub | ⟨i, heq⟩
    · exact Or.inl (hsub.subset hx)
    · rw [heq] at hx
      exact (List.mem_cons.mp hx).symm.imp id fun hx => by rw [hx]
  refine
    { entries := h.entries.gc hdb
      reads := h.reads.step h.entries.wf (h.entries.bitsUnreferenced a) hgc
      ordered := ?_
      bounded := fun x hx => ?_
      visible := fun x hx k p hp => h.visible_step hdb hx hp
      deleting := fun j job m hj hm x hx hle k p hp => h.deleting_step hgc hj hm hx hle hp
      oldest := fun m hm => (h.oldest m hm).imp id fun ⟨hle, hall⟩ =>
        ⟨hle.trans hsnap.sequence, fun x hx => ?_⟩
      readers := fun r hr => h.reader_step (by simpa using huse) hdb hr
      obsolete := fun x hx => h.marked_obsolete hdb hx
      purged := fun f hf => (h.entries.wf.ages hgc).obsolete (h.purged f hf) }
  · rcases hsnap.live with hsub | ⟨i, heq⟩
    · exact h.ordered.sublist hsub
    · change db.gc.snapshots.Pairwise _
      rw [heq]
      exact List.pairwise_cons.mpr ⟨h.bounded, h.ordered⟩
  · rcases hseq x hx with hx | hx
    · exact (h.bounded x hx).trans hsnap.sequence
    · exact hx ▸ hsnap.sequence
  · rcases hseq x hx with hx | hx
    · exact hall x hx
    · exact hx ▸ hle

/-! ## Reads and purges -/

omit [DecidableEq κ] in
theorem Inv.read (h : Inv s) {i : ℕ} {k : κ} (hstep : s.readStep i k = some s') : Inv s' := by
  obtain ⟨x, hx, rfl⟩ := Option.map_eq_some_iff.mp hstep
  have hi : x.1 = i := by simpa using List.find?_some hx
  split
  · rename_i p hp
    refine { h with readers := fun r hr => ?_ }
    rcases List.mem_cons.mp hr with rfl | hr
    · exact ⟨x.2, hi ▸ List.mem_of_find?_eq_some hx, hp⟩
    · exact h.readers r hr
  · exact h

/-- The oldest snapshot is at most as new as any other. -/
theorem getOldestSnapshotSequence_cases {snapshots : List (ℕ × ℕ)}
    (h : snapshots.Pairwise fun a b => b.2 ≤ a.2) :
    getOldestSnapshotSequence snapshots = kMaxSequenceNumber ∨
      ((∃ x ∈ snapshots, x.2 = getOldestSnapshotSequence snapshots) ∧
        ∀ x ∈ snapshots, getOldestSnapshotSequence snapshots ≤ x.2) := by
  unfold getOldestSnapshotSequence
  split
  · exact Or.inl rfl
  · rename_i y hy
    obtain ⟨newer, rfl⟩ := List.getLast?_eq_some_iff.mp hy
    refine Or.inr ⟨⟨y, by simp, rfl⟩, fun x hx => ?_⟩
    rcases List.mem_append.mp hx with hx | hx
    · exact (List.pairwise_append.mp h).2.2 x hx y (by simp)
    · rw [List.mem_singleton.mp hx]

omit [DecidableEq κ] in
theorem Inv.purgeBegin (h : Inv s) (hstep : s.purgeBeginStep = some s') : Inv s' := by
  unfold State.purgeBeginStep at hstep
  split_ifs at hstep
  obtain rfl := Option.some.inj hstep
  refine { h with oldest := fun m hm => ?_ }
  obtain rfl := Option.some.inj hm
  refine (getOldestSnapshotSequence_cases h.ordered).imp id fun ⟨⟨x, hx, heq⟩, hle⟩ => ⟨?_, hle⟩
  exact heq ▸ h.bounded x hx

/-- A purge that found no snapshot removes no file that became obsolete after a snapshot which is
live by then. -/
def NoNewerSnapshot (s : State κ) : Action κ → Prop
  | .getObsoleteFiles => s.oldestSequence = some kMaxSequenceNumber →
      ∀ x ∈ s.obsoleteFiles, x.2 < kMaxSequenceNumber → ∀ y ∈ s.snapshots, x.2 ≤ y.2
  | _ => True

omit [DecidableEq κ] in
theorem Inv.getObsoleteFiles (h : Inv s) (hc : NoNewerSnapshot s .getObsoleteFiles)
    (hstep : s.getObsoleteFilesStep = some s') : Inv s' := by
  obtain ⟨oldest, hold, rfl⟩ := Option.map_eq_some_iff.mp hstep
  -- what is removed became obsolete no later than any live snapshot was taken
  have hremoved : ∀ x ∈ s.obsoleteFiles, x.2 < oldest → ∀ y ∈ s.snapshots, x.2 ≤ y.2 := by
    intro x hx hlt y hy
    rcases h.oldest oldest hold with rfl | ⟨-, hall⟩
    · exact hc hold x hx hlt y hy
    · exact hlt.le.trans (hall y hy)
  refine { h with visible := fun x hx k p hp => ?_, oldest := fun m hm => (by cases hm),
                  obsolete := fun x hx => h.obsolete x (List.mem_filter.mp hx).1,
                  purged := fun f hf => ?_ }
  · obtain ⟨hnot, hobs⟩ := h.visible x hx k p hp
    refine ⟨fun hmem => ?_, fun m hm => hobs m (List.mem_filter.mp hm).1⟩
    rcases List.mem_append.mp hmem with hmem | hmem
    · exact hnot hmem
    · obtain ⟨y, hy, heq⟩ := List.mem_map.mp hmem
      obtain ⟨hy, hlt⟩ := List.mem_filter.mp hy
      have hle := hremoved y hy (by simpa using hlt) x hx
      have := hobs y.2 (heq ▸ hy)
      omega
  · rcases List.mem_append.mp hf with hf | hf
    · exact h.purged f hf
    · obtain ⟨y, hy, rfl⟩ := List.mem_map.mp hf
      exact h.obsolete y (List.mem_filter.mp hy).1

theorem Inv.step (h : Inv s) {a : Action κ} (hc : NoNewerSnapshot s a)
    (hstep : BlobFilePurge.step s a = some s') : Inv s' := by
  cases a with
  | db a => exact h.db hstep
  | read i k => exact h.read hstep
  | findFile n =>
      simp only [BlobFilePurge.step] at hstep
      split_ifs at hstep
      obtain rfl := Option.some.inj hstep
      exact { h with readers := fun r hr => h.readers r (List.mem_of_mem_eraseIdx hr) }
  | purgeBegin => exact h.purgeBegin hstep
  | getObsoleteFiles => exact h.getObsoleteFiles hc hstep

/-- No reader misses its file: whenever a reader has an index and not yet its file, `FindFile`
finds it, in every run in which no purge is overtaken by a snapshot it did not see. -/
theorem findFile_of_reader {actions : List (Action κ)}
    (hm : TransitionSystem.Meets BlobFilePurge.step NoNewerSnapshot State.init actions)
    (hr : TransitionSystem.run BlobFilePurge.step State.init actions = some s) {r : Reader κ}
    (hreader : r ∈ s.readers) : (s.findFile r.blobIndex.fileNumber).isSome = true := by
  have hinv : Inv s := TransitionSystem.run_invariant
    (fun _ _ _ hi hc hstep => hi.step hc hstep) .init hm hr
  obtain ⟨n, hn, hp⟩ := hinv.readers r hreader
  obtain ⟨bf, q, hbf, -⟩ := hinv.entries.wf.names r.key r.blobIndex (Lsm.holds_of_view hp)
  rw [State.findFile, if_neg (hinv.visible _ hn r.key r.blobIndex hp).1, hbf]
  rfl

/-- One record is flushed into file 1 and read at a snapshot while a job moves it to file 2. The
purge reads the oldest snapshot before or after the snapshot is taken. -/
def relocatedWhileRead (before after : List (Action ℕ)) : List (Action ℕ) :=
  let r : BlobRec ℕ := ⟨⟨12, 20, 0⟩, 0, [1]⟩
  [.db (.put 0 [1]), .db (.flush 1 1 [(1, r)] []), .db (.flushCompleted 1)] ++ before ++
    [.db (.getSnapshot 0)] ++ after ++
    [.read 0 0, .db (.gcBegin 0 [1] [(1, r)] false false fun _ _ => false),
      .db (.gcRecord 0 2 12 20), .db (.gcInstall 0), .db (.gcRewrite 0), .db (.gcFlushWAL 0),
      .db (.gcDeleteInputs 0), .db (.gcFinish 0), .getObsoleteFiles]

theorem relocatedWhileRead_findFile :
    ∃ s, TransitionSystem.run BlobFilePurge.step State.init
        (relocatedWhileRead [] [.purgeBegin]) = some s ∧
      ⟨0, 0, ⟨1, 12, 20, 0⟩⟩ ∈ s.readers ∧ (s.findFile 1).isSome = true := by
  have hm : TransitionSystem.Meets BlobFilePurge.step NoNewerSnapshot State.init
      (relocatedWhileRead [] [.purgeBegin]) := by
    refine .cons rfl trivial (.cons rfl trivial (.cons rfl trivial (.cons rfl trivial
      (.cons rfl trivial (.cons rfl trivial (.cons rfl trivial (.cons rfl trivial
      (.cons rfl trivial (.cons rfl trivial (.cons rfl trivial (.cons rfl trivial
      (.cons rfl trivial (.cons rfl ?_ trivial)))))))))))))
    intro hmax
    cases hmax
  refine ⟨_, rfl, List.mem_cons_self, ?_⟩
  exact findFile_of_reader (r := ⟨0, 0, ⟨1, 12, 20, 0⟩⟩) hm rfl List.mem_cons_self

/-- With the oldest snapshot read before the reader took its own, the file is gone when the reader
looks it up. -/
theorem overtakenPurge_findFile :
    ∃ s, TransitionSystem.run BlobFilePurge.step State.init
        (relocatedWhileRead [.purgeBegin] []) = some s ∧
      ⟨0, 0, ⟨1, 12, 20, 0⟩⟩ ∈ s.readers ∧ s.findFile 1 = none :=
  ⟨_, rfl, List.mem_cons_self, rfl⟩

end AegonKV.BlobFilePurge
