import AegonKV.EditCollector
import AegonKV.InvalidEntriesSound
import AegonKV.SoftwareGCViews

/-!
# Crashes under software garbage collection

Two logs are synced on their own: the WAL with the tables, and the Titan manifest. A crash loses any
part of either that is not synced. The state keeps, next to the column family, how far both are
durable and which blob files are; `BatchFinishFiles`, `FlushWAL` and `LogAndApply` are taken apart at
their sync points.
-/

namespace AegonKV.CrashSafety
open LittleEndian AegonKV SoftwareGC

variable {κ : Type}

structure State (κ : Type) where
  db : InvalidEntries.State κ
  /-- Writes up to here are in the synced part of the WAL or in tables. -/
  durableSequence : ℕ
  /-- Blob files whose contents and directory entry are synced. -/
  syncedFiles : UInt64 → Option (List (BlobRec κ))
  /-- The records of the manifest; a blob file is recorded with its number of entries. -/
  manifest : List (VersionEdit ℕ)
  syncedRecords : ℕ
  nextFileNumber : UInt64
  /-- The manifest record with the deletions of a job, until they are applied. -/
  deletions : ℕ → Option ℕ

/-- `OpenManifest` has written a snapshot of the empty set. -/
def State.init : State κ :=
  { db := .init, durableSequence := 0, syncedFiles := fun _ => none,
    manifest := [⟨0, some 1, [], []⟩, ⟨0, none, [], []⟩], syncedRecords := 2, nextFileNumber := 1,
    deletions := fun _ => none }

abbrev State.lsm (s : State κ) : Lsm κ := s.db.gc.lsm

/-- The record of a `LogAndApply`, not synced yet. -/
def State.addRecord (s : State κ) (added : List (UInt64 × ℕ)) (deleted : List UInt64) : State κ :=
  { s with
    manifest := s.manifest ++ [⟨0, some s.nextFileNumber, added, deleted.map fun f => (f, 0)⟩] }

/-- `BatchFinishFiles` logs files it has synced; a handle is finished once. -/
def State.logAddStep (s : State κ) (fs : List UInt64) : Option (State κ) :=
  if fs.Nodup ∧ fs.all fun f => (s.syncedFiles f).isSome ∧ ¬Added s.manifest f then
    some (s.addRecord (fs.map fun f => (f, ((s.syncedFiles f).getD []).length)) [])
  else none

/-- `DeleteInputBlobFiles` logs the inputs that are not obsolete already. -/
def State.logDeleteStep (s : State κ) (j : ℕ) : Option (State κ) :=
  match s.db.gc.jobs j with
  | none => none
  | some job =>
    if job.obsoleteSequence.isSome ∧ (s.deletions j).isNone then
      some { s.addRecord [] (job.inputs.filter fun f => !isObsolete s.db.gc.files f) with
        deletions := Function.update s.deletions j (some s.manifest.length) }
    else none

section

variable [DecidableEq κ]

/-- The file is synced with these records, and its AddBlobFile record as well. -/
def State.batchFinished (s : State κ) (f : UInt64) (records : List (BlobRec κ)) : Bool :=
  s.syncedFiles f = some records ∧ Added (s.manifest.take s.syncedRecords) f

/-- What must be synced before a step of the column family. -/
def State.ready (s : State κ) : SoftwareGC.Action κ → Bool
  | .flush _ f records _ => records.isEmpty || s.batchFinished f (records.map (·.2))
  | .gcInstall j => ((s.db.gc.jobs j).bind (·.output)).all fun x => s.batchFinished x.1 x.2
  | .gcFinish j => (s.deletions j).any fun i => i < s.syncedRecords
  -- only a failed manifest write could stop a job that has logged its deletions
  | .gcAbort j => (s.deletions j).isNone
  | _ => true

omit [DecidableEq κ] in
/-- A flush makes what it wrote to the tables durable, `FlushWAL` everything. -/
def State.durableAfter (s : State κ) : SoftwareGC.Action κ → ℕ
  | .flush upto _ _ _ => max s.durableSequence upto
  | .gcFlushWAL _ => max s.durableSequence s.lsm.lastSequence
  | _ => s.durableSequence

omit [DecidableEq κ] in
def State.deletionsAfter (s : State κ) : SoftwareGC.Action κ → ℕ → Option ℕ
  | .gcFinish j => Function.update s.deletions j none
  | _ => s.deletions

def State.dbStep (s : State κ) (a : SoftwareGC.Action κ) : Option (State κ) :=
  if s.ready a then
    (s.db.gcStep a).map fun db =>
      { s with db := db, durableSequence := s.durableAfter a, deletions := s.deletionsAfter a }
  else none

end

inductive Action (κ : Type)
  | db (a : SoftwareGC.Action κ)
  | newFileNumber (next : UInt64)
  | syncWAL (upto : ℕ)
  | syncFile (f : UInt64) (records : List (BlobRec κ))
  | logAdd (fs : List UInt64)
  | logDelete (j : ℕ)
  | syncManifest

def step [DecidableEq κ] (s : State κ) : Action κ → Option (State κ)
  | .db a => s.dbStep a
  | .newFileNumber next =>
    if s.nextFileNumber ≤ next then some { s with nextFileNumber := next } else none
  | .syncWAL upto =>
    if upto ≤ s.lsm.lastSequence then
      some { s with durableSequence := max s.durableSequence upto }
    else none
  | .syncFile f records =>
    if (s.syncedFiles f).isNone then
      some { s with syncedFiles := Function.update s.syncedFiles f (some records) }
    else none
  | .logAdd fs => s.logAddStep fs
  | .logDelete j => s.logDeleteStep j
  | .syncManifest => some { s with syncedRecords := s.manifest.length }

/-- The LSM tree recovered from the tables and the WAL up to `n`. -/
def recoveredLsm (lsm : Lsm κ) (n : ℕ) : Lsm κ where
  versions k := (lsm.versions k).filter fun v => v.sequence ≤ n
  lastSequence := n
  decreasing k := (lsm.decreasing k).filter _
  bounded k v hv := by simpa using (List.mem_filter.mp hv).2

theorem latest_recoveredLsm (lsm : Lsm κ) (n : ℕ) (k : κ) :
    (recoveredLsm lsm n).latest k = lsm.view n k := by
  have hfind : ((lsm.versions k).filter fun v => v.sequence ≤ n).find? (fun v => v.sequence ≤ n) =
      (lsm.versions k).find? fun v => v.sequence ≤ n := by
    rw [List.find?_filter]
    congr 1
    funext v
    simp
  exact congrArg (Option.map (·.entry)) hfind

theorem map_fst_pair {β : Type} (g : UInt64 → β) (fs : List UInt64) :
    (fs.map fun f => (f, g f)).map (·.1) = fs := by
  rw [List.map_map]
  exact List.map_id fs

/-! ## The invariant -/

/-- No state a crash can lead to has an index into the file. -/
def Gone (s : State κ) (f : UInt64) : Prop :=
  ∀ n, s.durableSequence ≤ n → ∀ k p, s.lsm.view n k = some (.blobIndex p) → p.fileNumber ≠ f

/-- The file is there and will not get new indices. -/
def Closed (gc : SoftwareGC.State κ) (f : UInt64) : Prop :=
  ∃ bf, gc.files f = some bf ∧ bf.state ≠ .kPendingGC

structure Inv (s : State κ) : Prop where
  entries : InvalidEntries.Inv s.db
  reads : Reads s.db.gc
  flushed : ∀ j job, s.db.gc.jobs j = some job → job.walFlushed = true → ∀ f ∈ job.inputs, Gone s f
  deleted : ∀ f, Deleted s.manifest f → Closed s.db.gc f ∧ Gone s f
  logged : ∀ f, Deleted s.manifest f → isObsolete s.db.gc.files f = true ∨
    ∃ j job, s.deletions j ≠ none ∧ s.db.gc.jobs j = some job ∧ f ∈ job.inputs
  stored : ∀ f bf, s.db.gc.files f = some bf →
    s.syncedFiles f = some bf.records ∧ Added (s.manifest.take s.syncedRecords) f
  log : ManifestLog 0 s.manifest
  numbered : ∀ e ∈ s.manifest, ∀ n, e.nextFileNumber = some n → n ≤ s.nextFileNumber
  snapshot : 0 < s.syncedRecords ∧
    ∃ e rest, s.manifest = e :: rest ∧ e.nextFileNumber ≠ none

theorem Inv.init : Inv (State.init : State κ) where
  entries := .init
  reads := .init
  flushed _ _ hj := by cases hj
  deleted _ hf := by cases hf
  logged _ hf := by cases hf
  stored _ _ hf := by cases hf
  log := by
    have hfirst : ManifestLog (μ := ℕ) 0 [⟨0, some 1, [], []⟩] := .snoc .nil
      ⟨rfl, by simp, by simp, by simp, by simp, by simp⟩
    exact hfirst.snoc ⟨rfl, by simp, by simp, by simp, by simp, by simp⟩
  numbered e he n hn := by
    simp only [State.init, List.mem_cons, List.not_mem_nil, or_false] at he
    rcases he with rfl | rfl <;> simp_all [State.init]
  snapshot := ⟨Nat.succ_pos 1, _, _, rfl, by simp⟩

variable {s s' : State κ}

theorem NewIndex.ne_of_closed {gc : SoftwareGC.State κ} (hwf : Wf gc) {e : Option LsmEntry}
    (h : NewIndex gc e) {p : BlobIndexType} (he : e = some (.blobIndex p)) {f : UInt64}
    (hf : Closed gc f) : p.fileNumber ≠ f := by
  rintro rfl
  obtain ⟨bf, hbf, hstate⟩ := hf
  rcases h p he with hfresh | ⟨bf', hbf', hstate'⟩
  · exact hfresh (hwf.numbered _ (by simp [hbf]))
  · obtain rfl : bf = bf' := Option.some.inj (hbf.symm.trans hbf')
    exact hstate hstate'

theorem Closed.ages {gc gc' : SoftwareGC.State κ} (h : Ages gc.files gc'.files) {f : UInt64}
    (hf : Closed gc f) : Closed gc' f := by
  obtain ⟨bf, hbf, hstate⟩ := hf
  obtain ⟨bf', hbf', -, -, hgc⟩ := h f bf hbf
  exact ⟨bf', hbf', fun hc => hstate (hgc hc)⟩

theorem Wf.closed_input {gc : SoftwareGC.State κ} (hwf : Wf gc) {j : ℕ} {job : Job κ}
    (hjob : gc.jobs j = some job) {f : UInt64} (hf : f ∈ job.inputs) : Closed gc f := by
  obtain ⟨bf, hbf, hstate⟩ := (hwf.jobs j job hjob).inputs f hf
  exact ⟨bf, hbf, by simp [hstate]⟩

/-! ## Steps of the column family -/

section

variable [DecidableEq κ]

omit [DecidableEq κ] in
theorem le_durableAfter (s : State κ) (a : SoftwareGC.Action κ) :
    s.durableSequence ≤ s.durableAfter a := by
  unfold State.durableAfter
  split
  · exact le_max_left _ _
  · exact le_max_left _ _
  · exact le_rfl

theorem dbStep_cases {a : SoftwareGC.Action κ} (h : s.dbStep a = some s') :
    s.ready a = true ∧ ∃ db, s.db.gcStep a = some db ∧
      SoftwareGC.step s.db.gc (InvalidEntries.withBits s.db.bits a) = some db.gc ∧
      s' = { s with
        db := db, durableSequence := s.durableAfter a, deletions := s.deletionsAfter a } := by
  unfold State.dbStep at h
  split_ifs at h with hready
  obtain ⟨db, hdb, rfl⟩ := Option.map_eq_some_iff.mp h
  exact ⟨hready, db, hdb, InvalidEntries.gcStep_cases hdb, rfl⟩

/-- A crash right after the step keeps the versions the flush kept. -/
theorem keepsView_of_durable {a : SoftwareGC.Action κ} {gc : SoftwareGC.State κ}
    {bits : UInt64 → UInt64 → Bool}
    (hstep : SoftwareGC.step s.db.gc (InvalidEntries.withBits bits a) = some gc) {n : ℕ}
    (hn : s.durableAfter a ≤ n) : KeepsView s.db.gc n (InvalidEntries.withBits bits a) := by
  cases a with
  | flush upto f records dropped =>
      obtain ⟨-, -, hdrop, -⟩ := flushStep_cases hstep
      exact hdrop.2.1.of_le hdrop.1 ((le_max_right _ _).trans hn)
  | _ => trivial

theorem Gone.step (h : Inv s) {a : SoftwareGC.Action κ} (hstep : s.dbStep a = some s') {f : UInt64}
    (hf : Closed s.db.gc f) (hgone : Gone s f) : Gone s' f := by
  obtain ⟨-, db, -, hgc, rfl⟩ := dbStep_cases hstep
  intro n hn k p hp
  rcases h.entries.wf.view_step hgc (keepsView_of_durable hgc hn) k with heq | hchange
  · exact hgone n ((le_durableAfter s a).trans hn) k p (heq ▸ hp)
  · exact NewIndex.ne_of_closed h.entries.wf hchange.newIndex hp hf

/-- Once the WAL is flushed, everything a crash can lead to is the present. -/
theorem Inv.gone_flushed (h : Inv s) {j : ℕ} (hstep : s.dbStep (.gcFlushWAL j) = some s')
    {job : Job κ} (hjob : s.db.gc.jobs j = some job) {f : UInt64} (hf : f ∈ job.inputs) :
    Gone s' f := by
  obtain ⟨-, db, -, hgc, rfl⟩ := dbStep_cases hstep
  obtain ⟨job', hjob', hinst, hbatches, -, heq⟩ := gcFlushWALStep_cases hgc
  obtain rfl : job = job' := Option.some.inj (hjob.symm.trans hjob')
  intro n hn k p hp hpf
  have hlsm : db.gc.lsm = s.lsm := by rw [heq]
  have hlatest : s.lsm.latest k = some (.blobIndex p) := by
    rw [← Lsm.view_eq_latest ((le_max_right _ _).trans hn), ← hlsm]
    exact hp
  have hin := (h.reads.jobs j job hjob).not_input (h.entries.wf.jobs j job hjob)
    ⟨hinst, hbatches⟩ hlatest (h.entries.wf.names_latest hlatest)
  exact hin (hpf ▸ hf)

theorem Inv.flushed_step (h : Inv s) {a : SoftwareGC.Action κ} (hstep : s.dbStep a = some s')
    {j : ℕ} {job : Job κ} (hjob : s'.db.gc.jobs j = some job) (hwal : job.walFlushed = true)
    {f : UInt64} (hf : f ∈ job.inputs) : Gone s' f := by
  obtain ⟨-, db, -, hgc, rfl⟩ := dbStep_cases hstep
  have hjs := (h.entries.wf.jobsStep hgc).jobStep hjob
  obtain ⟨old, hold, hflush⟩ := hjs.walFlushed hwal
  rw [hjs.inputs old hold] at hf
  rcases hflush with hflush | ha
  · exact (h.flushed j old hold hflush f hf).step h hstep (Wf.closed_input h.entries.wf hold hf)
  · obtain rfl : a = .gcFlushWAL j :=
      InvalidEntries.eq_of_withBits ha fun _ _ _ _ _ _ => nofun
    exact h.gone_flushed hstep hold hf

theorem Inv.logged_step (h : Inv s) {a : SoftwareGC.Action κ} (hstep : s.dbStep a = some s')
    {f : UInt64} (hf : Deleted s.manifest f) : isObsolete s'.db.gc.files f = true ∨
      ∃ j job, s'.deletions j ≠ none ∧ s'.db.gc.jobs j = some job ∧ f ∈ job.inputs := by
  obtain ⟨hready, db, -, hgc, rfl⟩ := dbStep_cases hstep
  rcases h.logged f hf with hob | ⟨j, job, hdel, hjob, hin⟩
  · exact Or.inl ((h.entries.wf.ages hgc).obsolete hob)
  · by_cases hfin : a = .gcFinish j
    · subst hfin
      obtain ⟨job', files, hjob', -, -, -, hob, heq⟩ := gcFinishStep_cases hgc
      obtain rfl : job = job' := Option.some.inj (hjob.symm.trans hjob')
      refine Or.inl ?_
      change isObsolete db.gc.files f = true
      rw [heq]
      exact (hob f).mpr (Or.inl hin)
    · have hab : a ≠ .gcAbort j := by
        rintro rfl
        exact hdel (Option.isNone_iff_eq_none.mp hready)
      have hkept : s.deletionsAfter a j = s.deletions j := by
        cases a with
        | gcFinish i => exact Function.update_of_ne (fun hij => hfin (by rw [hij])) _ _
        | _ => rfl
      rcases (h.entries.wf.jobsStep hgc).kept hjob with ⟨job', hjob', hin'⟩ | ha | ha
      · exact Or.inr ⟨j, job', fun hc => hdel (hkept ▸ hc), hjob', hin' ▸ hin⟩
      · exact absurd (InvalidEntries.eq_of_withBits ha fun _ _ _ _ _ _ => nofun) hfin
      · exact absurd (InvalidEntries.eq_of_withBits ha fun _ _ _ _ _ _ => nofun) hab

/-- Only synced and logged files enter the column family. -/
theorem Inv.stored_step (h : Inv s) {a : SoftwareGC.Action κ} (hstep : s.dbStep a = some s')
    {f : UInt64} {bf : BlobFile κ} (hf : s'.db.gc.files f = some bf) :
    s.syncedFiles f = some bf.records ∧ Added (s.manifest.take s.syncedRecords) f := by
  obtain ⟨hready, db, -, hgc, rfl⟩ := dbStep_cases hstep
  cases hold : s.db.gc.files f with
  | some old =>
      obtain ⟨bf', hbf', hrec⟩ := h.entries.wf.keeps hgc f old hold
      obtain rfl : bf' = bf := Option.some.inj (hbf'.symm.trans hf)
      rw [hrec]
      exact h.stored f old hold
  | none =>
      rcases h.entries.wf.new_file hgc hold hf with
        ⟨upto, records, dropped, ha, hne, hrec⟩ | ⟨j, job, ha, hjob, hout⟩
      · obtain rfl : a = .flush upto f records dropped :=
          InvalidEntries.eq_of_withBits ha fun _ _ _ _ _ _ => nofun
        simpa [State.ready, State.batchFinished, hne, hrec] using hready
      · obtain rfl : a = .gcInstall j :=
          InvalidEntries.eq_of_withBits ha fun _ _ _ _ _ _ => nofun
        simpa [State.ready, State.batchFinished, hjob, hout] using hready

theorem Inv.db (h : Inv s) {a : SoftwareGC.Action κ} (hstep : s.dbStep a = some s') : Inv s' := by
  have hflushed : ∀ j job, s'.db.gc.jobs j = some job → job.walFlushed = true →
      ∀ f ∈ job.inputs, Gone s' f := fun _ _ hj hw _ hf => h.flushed_step hstep hj hw hf
  have hlogged := fun f hf => h.logged_step hstep (f := f) hf
  have hstored : ∀ f bf, s'.db.gc.files f = some bf → s.syncedFiles f = some bf.records ∧
      Added (s.manifest.take s.syncedRecords) f := fun _ _ hf => h.stored_step hstep hf
  have hgone := fun f hc hg => Gone.step h hstep (f := f) hc hg
  obtain ⟨-, db, hdb, hgc, rfl⟩ := dbStep_cases hstep
  exact
    { entries := h.entries.gc hdb
      reads := h.reads.step h.entries.wf (h.entries.bitsUnreferenced a) hgc
      flushed := hflushed
      deleted := fun f hf => ⟨(h.deleted f hf).1.ages (h.entries.wf.ages hgc),
        hgone f (h.deleted f hf).1 (h.deleted f hf).2⟩
      logged := hlogged
      stored := hstored
      log := h.log
      numbered := h.numbered
      snapshot := h.snapshot }

/-! ## Syncs and manifest records -/

omit [DecidableEq κ] in
/-- One more record at the end of the manifest. -/
theorem Inv.addRecord (h : Inv s) {added : List (UInt64 × ℕ)} {deleted : List UInt64}
    {deletions : ℕ → Option ℕ}
    (hnodup : (added.map (·.1)).Nodup) (hadded : ∀ f ∈ added.map (·.1), ¬Added s.manifest f)
    (hdnodup : deleted.Nodup)
    (hdeleted : ∀ f ∈ deleted, ¬Deleted s.manifest f ∧ Closed s.db.gc f ∧ Gone s f ∧
      ∃ j job, deletions j ≠ none ∧ s.db.gc.jobs j = some job ∧ f ∈ job.inputs)
    (hdeletions : ∀ j, s.deletions j ≠ none → deletions j ≠ none) :
    Inv { s.addRecord added deleted with deletions := deletions } := by
  have hmap : (deleted.map fun f => (f, 0)).map (·.1) = deleted := map_fst_pair _ _
  have hsnoc : ∀ f, Deleted (s.addRecord added deleted).manifest f →
      Deleted s.manifest f ∨ f ∈ deleted := by
    intro f hf
    rwa [State.addRecord, deleted_snoc, hmap] at hf
  refine
    { entries := h.entries
      reads := h.reads
      flushed := h.flushed
      deleted := fun f hf => ?_
      logged := fun f hf => ?_
      stored := fun f bf hf => ⟨(h.stored f bf hf).1, ?_⟩
      log := h.log.snoc ⟨rfl, fun n hn e he m hm => ?_, hnodup, hadded, by rwa [hmap],
        fun f hf => ?_⟩
      numbered := fun e he n hn => ?_
      snapshot := ⟨h.snapshot.1, ?_⟩ }
  · rcases hsnoc f hf with hf | hf
    · exact h.deleted f hf
    · exact ⟨(hdeleted f hf).2.1, (hdeleted f hf).2.2.1⟩
  · rcases hsnoc f hf with hf | hf
    · refine (h.logged f hf).imp id fun ⟨j, job, hj, hrest⟩ => ⟨j, job, hdeletions j hj, hrest⟩
    · exact Or.inr (hdeleted f hf).2.2.2
  · have hadd := (h.stored f bf hf).2
    change Added ((s.manifest ++ [_]).take s.syncedRecords) f
    rw [List.take_append]
    obtain ⟨file, hfile, rfl⟩ := List.mem_map.mp hadd
    obtain ⟨e, he, hmem⟩ := List.mem_flatMap.mp hfile
    exact List.mem_map_of_mem (List.mem_flatMap.mpr ⟨e, List.mem_append_left _ he, hmem⟩)
  · obtain rfl := Option.some.inj hn
    exact h.numbered e he m hm
  · rw [hmap] at hf
    obtain ⟨bf, hbf, -⟩ := (hdeleted f hf).2.1
    exact ⟨(h.stored f bf hbf).2.of_take, (hdeleted f hf).1⟩
  · rcases List.mem_append.mp he with he | he
    · exact h.numbered e he n hn
    · obtain rfl := List.mem_singleton.mp he
      obtain rfl := Option.some.inj hn
      exact UInt64.le_refl _
  · obtain ⟨e, rest, heq, hne⟩ := h.snapshot.2
    exact ⟨e, rest ++ _, by rw [State.addRecord, heq, List.cons_append], hne⟩

omit [DecidableEq κ] in
theorem Inv.logAdd (h : Inv s) {fs : List UInt64} (hstep : s.logAddStep fs = some s') : Inv s' := by
  unfold State.logAddStep at hstep
  split_ifs at hstep with hc
  obtain rfl := Option.some.inj hstep
  refine h.addRecord (by rw [map_fst_pair]; exact hc.1) (fun f hf => ?_) .nil
    (fun f hf => (by cases hf)) fun _ hj => hj
  rw [map_fst_pair] at hf
  have hnew := List.all_eq_true.mp hc.2 f hf
  exact (of_decide_eq_true hnew).2

omit [DecidableEq κ] in
theorem Inv.logDelete (h : Inv s) {j : ℕ} (hstep : s.logDeleteStep j = some s') : Inv s' := by
  unfold State.logDeleteStep at hstep
  split at hstep
  · cases hstep
  rename_i job hjob
  split_ifs at hstep with hc
  obtain rfl := Option.some.inj hstep
  have hwf := h.entries.wf.jobs j job hjob
  have hwal := (h.reads.jobs j job hjob).deleting (Option.isSome_iff_ne_none.mp hc.1)
  refine h.addRecord .nil (fun f hf => (by cases hf)) (hwf.inputs_nodup.filter _)
    (fun f hf => ?_) fun i hi => ?_
  · obtain ⟨hin, hob⟩ := List.mem_filter.mp hf
    refine ⟨fun hdel => ?_, Wf.closed_input h.entries.wf hjob hin, h.flushed j job hjob hwal f hin,
      j, job, by simp, hjob, hin⟩
    -- the inputs of a job are its own, and this job has not logged yet
    rcases h.logged f hdel with hob' | ⟨i, other, hi, hother, hin'⟩
    · simp [hob'] at hob
    · by_cases hij : i = j
      · subst hij
        exact hi (Option.isNone_iff_eq_none.mp hc.2)
      · exact h.entries.wf.disjoint i j other job hother hjob hij f
          (mem_owns.mpr (Or.inl hin')) (mem_owns.mpr (Or.inl hin))
  · by_cases hij : i = j
    · simp [hij]
    · rwa [Function.update_of_ne hij]

theorem Inv.step (h : Inv s) {a : Action κ} (hstep : CrashSafety.step s a = some s') : Inv s' := by
  cases a with
  | db a => exact h.db hstep
  | newFileNumber next =>
      simp only [CrashSafety.step] at hstep
      split_ifs at hstep with hle
      obtain rfl := Option.some.inj hstep
      exact { h with numbered := fun e he n hn => UInt64.le_trans (h.numbered e he n hn) hle }
  | syncWAL upto =>
      simp only [CrashSafety.step] at hstep
      split_ifs at hstep
      obtain rfl := Option.some.inj hstep
      have hgone : ∀ f, Gone s f →
          Gone { s with durableSequence := max s.durableSequence upto } f :=
        fun f hf n hn => hf n ((le_max_left _ _).trans hn)
      exact { h with
        flushed := fun j job hj hw f hf => hgone f (h.flushed j job hj hw f hf)
        deleted := fun f hf => ⟨(h.deleted f hf).1, hgone f (h.deleted f hf).2⟩ }
  | syncFile f records =>
      simp only [CrashSafety.step] at hstep
      split_ifs at hstep with hnone
      obtain rfl := Option.some.inj hstep
      refine { h with stored := fun g bg hg => ⟨?_, (h.stored g bg hg).2⟩ }
      have hold := (h.stored g bg hg).1
      have hne : g ≠ f := by
        rintro rfl
        simp [hold] at hnone
      change Function.update s.syncedFiles f (some records) g = _
      rw [Function.update_of_ne hne, hold]
  | logAdd fs => exact h.logAdd hstep
  | logDelete j => exact h.logDelete hstep
  | syncManifest =>
      obtain rfl := Option.some.inj hstep
      refine { h with stored := fun f bf hf => ⟨(h.stored f bf hf).1, ?_⟩, snapshot := ⟨?_, h.snapshot.2⟩ }
      · change Added (s.manifest.take s.manifest.length) f
        rw [List.take_length]
        exact (h.stored f bf hf).2.of_take
      · obtain ⟨e, rest, heq, -⟩ := h.snapshot.2
        simp [heq]

/-- Crash safety: whatever is lost of the two logs beyond their synced parts, the manifest replays,
and every key whose newest recovered entry is an index finds its blob file live and with the
record. -/
theorem recovered_index_live {actions : List (Action κ)}
    (hr : TransitionSystem.run CrashSafety.step State.init actions = some s) {n m : ℕ}
    (hn : s.durableSequence ≤ n) (hm : s.syncedRecords ≤ m) :
    ∃ files, recover 0 (s.manifest.take m) = .ok files ∧
      ∀ k p, (recoveredLsm s.lsm n).latest k = some (.blobIndex p) →
        p.fileNumber ∈ files.map (·.1) ∧ ∃ records r, s.syncedFiles p.fileNumber = some records ∧
          r ∈ records ∧ r.key = k ∧ p = pointerTo p.fileNumber r := by
  have hinv : Inv s := TransitionSystem.run_invariant_always
    (fun _ _ _ hi hstep => hi.step hstep) .init hr
  have hsnap : ∃ e ∈ s.manifest.take m, e.nextFileNumber ≠ none := by
    obtain ⟨hpos, e, rest, heq, hne⟩ := hinv.snapshot
    refine ⟨e, ?_, hne⟩
    obtain ⟨m, rfl⟩ : ∃ m', m = m' + 1 := ⟨m - 1, by omega⟩
    rw [heq, List.take_succ_cons]
    exact List.mem_cons_self
  obtain ⟨files, hfiles, hlive⟩ := (hinv.log.take m).recover hsnap
  refine ⟨files, hfiles, fun k p hp => ?_⟩
  rw [latest_recoveredLsm] at hp
  obtain ⟨bf, r, hbf, hmem, hkey, hpr⟩ := hinv.entries.wf.names k p (Lsm.holds_of_view hp)
  obtain ⟨hsync, hadd⟩ := hinv.stored _ bf hbf
  refine ⟨(hlive _).mpr ⟨hadd.take_mono hm, fun hdel => ?_⟩, bf.records, r, hsync, hmem, hkey, hpr⟩
  exact (hinv.deleted _ hdel.of_take).2 n hn k p hp rfl

end

/-- A job has moved the record of file 1 to file 2 and logged the deletion of file 1. -/
def deletionLogged : List (Action ℕ) :=
  let r : BlobRec ℕ := ⟨⟨12, 20, 0⟩, 0, [1]⟩
  [.db (.put 0 [1]), .syncFile 1 [r], .logAdd [1], .syncManifest, .db (.flush 1 1 [(1, r)] []),
    .db (.flushCompleted 1), .db (.gcBegin 0 [1] [(1, r)] false false fun _ _ => false),
    .db (.gcRecord 0 2 12 20), .syncFile 2 [r], .logAdd [2], .syncManifest, .db (.gcInstall 0),
    .db (.gcRewrite 0), .db (.put 1 [7]), .db (.gcFlushWAL 0), .db (.gcDeleteInputs 0),
    .logDelete 0]

theorem deletionLogged_recovered :
    ∃ s, TransitionSystem.run CrashSafety.step State.init deletionLogged = some s ∧
      (recoveredLsm s.lsm 3).latest 0 = some (.blobIndex ⟨2, 12, 20, 0⟩) ∧
      ∃ files, recover 0 (s.manifest.take 5) = .ok files ∧ 2 ∈ files.map (·.1) := by
  obtain ⟨s, hs, hn, hm, hl⟩ : ∃ s,
      TransitionSystem.run CrashSafety.step State.init deletionLogged = some s ∧
      s.durableSequence ≤ 3 ∧ s.syncedRecords ≤ 5 ∧
      (recoveredLsm s.lsm 3).latest 0 = some (.blobIndex ⟨2, 12, 20, 0⟩) :=
    ⟨_, rfl, by decide, by decide, rfl⟩
  obtain ⟨files, hfiles, hlive⟩ := recovered_index_live hs hn hm
  exact ⟨s, hs, hl, files, hfiles, (hlive 0 _ hl).1⟩

end AegonKV.CrashSafety
