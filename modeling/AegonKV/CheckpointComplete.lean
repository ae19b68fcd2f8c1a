import AegonKV.Checkpoint

/-!
# Checkpoints are complete

While a checkpoint has the deletions disabled no purge runs, so what the newest versions named when
the base checkpoint was taken stays in `files_` and on disk, obsolete or not, until the last link.
-/

namespace AegonKV.Checkpoint
open TransitionSystem

variable {σ α μ : Type} {c : ColumnModel σ α μ} {condition : σ → α → Prop} {I : σ → Prop}
  {cfs : List UInt32} {s s' : State σ μ}

/-- The newest version of some key of the base checkpoint names the file. -/
def Progress.Names (c : ColumnModel σ α μ) (cfs : List UInt32) (ck : Progress σ μ)
    (file : FileId) : Prop :=
  ∃ base, ck.base = some base ∧ file.1 ∈ cfs ∧ c.newest (base file.1) file.2

def Obsolete (c : ColumnModel σ α μ) (columns : UInt32 → σ) (file : FileId) : Prop :=
  c.isObsolete (columns file.1) file.2 = true

/-- The file is in `files_` and on disk. -/
structure Present (c : ColumnModel σ α μ) (s : State σ μ) (file : FileId) : Prop where
  known : file.2 ∈ c.numbers (s.columns file.1)
  not_removed : file ∉ s.removed
  not_deleted : file ∉ s.deleted

/-- Purges only remove obsolete files. -/
structure FilesInv (c : ColumnModel σ α μ) (I : σ → Prop) (s : State σ μ) : Prop where
  columns : ∀ cf, I (s.columns cf)
  obsolete : ∀ x ∈ s.obsoleteFiles, Obsolete c s.columns x.1
  removed : ∀ file ∈ s.removed, Obsolete c s.columns file
  purging : ∀ candidates, s.purge = .deleting candidates → ∀ file ∈ candidates, Obsolete c s.columns file
  deleted : ∀ file ∈ s.deleted, Obsolete c s.columns file

/-- Before the base checkpoint. -/
def Stage.uncopied : Stage → Bool
  | .idle | .disabled => true
  | _ => false

/-- Before `GetAllFiles`. -/
def Stage.unlisted : Stage → Bool
  | .idle | .disabled | .copied | .listing => true
  | _ => false

/-- Before the first link. -/
def Stage.unlinked : Stage → Bool
  | .idle | .disabled | .copied | .listing | .listed => true
  | _ => false

/-- The files are being linked, or have been. -/
def Stage.links : Stage → Bool
  | .linking | .finished => true
  | _ => false

/-- What a checkpoint has done so far is complete. -/
structure ProgressInv (c : ColumnModel σ α μ) (cfs : List UInt32) (s : State σ μ) : Prop where
  uncopied : s.checkpoint.stage.uncopied → s.checkpoint.base = none
  unlisted : s.checkpoint.stage.unlisted → s.checkpoint.listing = none
  unlinked : s.checkpoint.stage.unlinked → s.checkpoint.links = [] ∧ s.checkpoint.manifest = none
  present : 0 < s.checkpoint.stage.held → ∀ file, s.checkpoint.Names c cfs file → Present c s file
  listed : ∀ listing, s.checkpoint.listing = some listing →
    ∀ file, s.checkpoint.Names c cfs file → file ∈ listing.files ∧ Adds listing.edits file
  listing : s.checkpoint.stage = .listed ∨ s.checkpoint.stage.links → s.checkpoint.listing.isSome
  links : ∀ link ∈ s.checkpoint.links, s.checkpoint.Names c cfs link.1 → link.2 = true
  linked : s.checkpoint.stage.links → ∀ file, s.checkpoint.Names c cfs file →
    file ∈ s.checkpoint.todo ∨ (file, true) ∈ s.checkpoint.links
  manifest : ∀ edits, s.checkpoint.manifest = some edits →
    s.checkpoint.todo = [] ∧ s.checkpoint.listing.map (·.edits) = some edits
  finished : s.checkpoint.stage = .finished → s.checkpoint.manifest.isSome

structure Inv (c : ColumnModel σ α μ) (I : σ → Prop) (cfs : List UInt32) (s : State σ μ) :
    Prop where
  files : FilesInv c I s
  count : s.disableTitandbFileDeletions = s.others + s.checkpoint.stage.held
  exclusive : s.purge = .idle ∨ s.disableTitandbFileDeletions = 0
  progress : ProgressInv c cfs s

/-! ## Columns and purges -/

theorem ProgressInv.of_present (h : ProgressInv c cfs s) (hck : s'.checkpoint = s.checkpoint)
    (hpresent : 0 < s.checkpoint.stage.held → ∀ file, Present c s file → Present c s' file) :
    ProgressInv c cfs s' := by
  obtain ⟨huncopied, hunlisted, hunlinked, hold, hlisted, hlisting, hlinks, hlinked, hmanifest,
    hfinished⟩ := h
  rw [← hck] at huncopied hunlisted hunlinked hold hlisted hlisting hlinks
  rw [← hck] at hlinked hmanifest hfinished hpresent
  exact ⟨huncopied, hunlisted, hunlinked,
    fun hheld file hfile => hpresent hheld file (hold hheld file hfile), hlisted, hlisting, hlinks,
    hlinked, hmanifest, hfinished⟩

theorem Obsolete.column {columns : UInt32 → σ} {cf : UInt32} {a : α} {col : σ}
    (hcol : c.StepSound I (columns cf) a col) {file : FileId} (h : Obsolete c columns file) :
    Obsolete c (Function.update columns cf col) file := by
  rw [Obsolete] at h ⊢
  by_cases hcf : file.1 = cf
  · rw [hcf] at h ⊢
    rw [Function.update_self]
    exact hcol.obsolete_kept file.2 h
  · rwa [Function.update_of_ne hcf]

theorem Inv.column (hc : c.Sound condition I) (h : Inv c I cfs s) {cf : UInt32} {a : α} {seq : ℕ}
    (hmeets : condition (s.columns cf) a)
    (hstep : step c cfs s (.column cf a seq) = some s') : Inv c I cfs s' := by
  obtain ⟨col, hcol, rfl⟩ := Option.map_eq_some_iff.mp hstep
  have hI := h.files.columns
  have hsound := hc.step _ a col (hI cf) hmeets hcol
  have hkept : ∀ file, Obsolete c s.columns file →
      Obsolete c (Function.update s.columns cf col) file := fun _ hfile => hfile.column hsound
  refine ⟨⟨fun g => ?_, fun x hx => ?_, fun file hfile => hkept file (h.files.removed file hfile),
    fun candidates hpurge file hfile => hkept file (h.files.purging candidates hpurge file hfile),
    fun file hfile => hkept file (h.files.deleted file hfile)⟩, h.count, h.exclusive, ?_⟩
  · change I (Function.update s.columns cf col g)
    by_cases hg : g = cf
    · subst hg
      rw [Function.update_self]
      exact hsound.inv
    · rw [Function.update_of_ne hg]
      exact hI g
  · rcases List.mem_append.mp hx with hx | hx
    · exact hkept x.1 (h.files.obsolete x hx)
    · obtain ⟨f, hf, rfl⟩ := List.mem_map.mp hx
      change c.isObsolete (Function.update s.columns cf col cf) f = true
      rw [Function.update_self]
      exact hsound.obsoleted f hf
  · refine h.progress.of_present rfl fun _ file hfile => ⟨?_, hfile.not_removed, hfile.not_deleted⟩
    by_cases hcf : file.1 = cf
    · change file.2 ∈ c.numbers (Function.update s.columns cf col file.1)
      have hknown := hfile.known
      rw [hcf] at hknown ⊢
      rw [Function.update_self]
      exact hsound.kept file.2 hknown
    · change file.2 ∈ c.numbers (Function.update s.columns cf col file.1)
      rw [Function.update_of_ne hcf]
      exact hfile.known

/-- While a purge runs, the checkpoint holds nothing. -/
theorem Inv.held_eq_zero (h : Inv c I cfs s) (hpurge : s.purge ≠ .idle) :
    s.checkpoint.stage.held = 0 := by
  have hzero := h.exclusive.resolve_left hpurge
  have hcount := h.count
  omega

theorem Inv.purgeBegin (h : Inv c I cfs s) {oldest : ℕ}
    (hstep : step c cfs s (.purgeBegin oldest) = some s') : Inv c I cfs s' := by
  rw [step] at hstep
  split at hstep
  · rename_i hidle
    split_ifs at hstep with hcount
    · obtain rfl := Option.some.inj hstep
      exact h
    · obtain rfl := Option.some.inj hstep
      have hfiles := h.files
      exact ⟨⟨hfiles.columns, hfiles.obsolete, hfiles.removed, fun candidates hpurge => (by cases hpurge),
        hfiles.deleted⟩, h.count, Or.inr (by change s.disableTitandbFileDeletions = 0; omega),
        h.progress.of_present rfl fun _ _ hfile => ⟨hfile.known, hfile.not_removed, hfile.not_deleted⟩⟩
  · cases hstep

theorem Inv.getObsoleteFiles (h : Inv c I cfs s)
    (hstep : step c cfs s .getObsoleteFiles = some s') : Inv c I cfs s' := by
  rw [step] at hstep
  split at hstep
  · rename_i oldest hreading
    obtain rfl := Option.some.inj hstep
    have hbusy : s.purge ≠ .idle := by
      rw [hreading]
      exact nofun
    have hcandidate : ∀ file ∈ (s.obsoleteFiles.filter fun x => x.2 < oldest).map (·.1),
        Obsolete c s.columns file := by
      intro file hfile
      obtain ⟨x, hx, rfl⟩ := List.mem_map.mp hfile
      exact h.files.obsolete x (List.mem_filter.mp hx).1
    refine ⟨⟨h.files.columns, fun x hx => h.files.obsolete x (List.mem_filter.mp hx).1,
      fun file hfile => ?_, fun candidates hpurge file hfile => ?_, h.files.deleted⟩, h.count,
      Or.inr (h.exclusive.resolve_left hbusy), h.progress.of_present rfl fun hheld => ?_⟩
    · rcases List.mem_append.mp hfile with hfile | hfile
      · exact h.files.removed file hfile
      · exact hcandidate file hfile
    · obtain rfl := PurgePhase.deleting.inj hpurge
      exact hcandidate file (List.mem_dedup.mp hfile)
    · have hzero := h.held_eq_zero hbusy
      omega
  · cases hstep

theorem Inv.deleteFile (h : Inv c I cfs s) (hstep : step c cfs s .deleteFile = some s') :
    Inv c I cfs s' := by
  rw [step] at hstep
  split at hstep
  · rename_i file candidates hdeleting
    obtain rfl := Option.some.inj hstep
    have hbusy : s.purge ≠ .idle := by
      rw [hdeleting]
      exact nofun
    have hobsolete := h.files.purging _ hdeleting
    refine ⟨⟨h.files.columns, h.files.obsolete, h.files.removed, fun rest hpurge g hg => ?_,
      fun g hg => ?_⟩, h.count, Or.inr (h.exclusive.resolve_left hbusy),
      h.progress.of_present rfl fun hheld => ?_⟩
    · obtain rfl := PurgePhase.deleting.inj hpurge
      exact hobsolete g (List.mem_cons_of_mem _ hg)
    · rcases List.mem_append.mp hg with hg | hg
      · exact h.files.deleted g hg
      · rw [List.mem_singleton.mp hg]
        exact hobsolete file List.mem_cons_self
    · have hzero := h.held_eq_zero hbusy
      omega
  · cases hstep

theorem Inv.purgeEnd (h : Inv c I cfs s) (hstep : step c cfs s .purgeEnd = some s') :
    Inv c I cfs s' := by
  rw [step] at hstep
  split at hstep
  · obtain rfl := Option.some.inj hstep
    have hfiles := h.files
    exact ⟨⟨hfiles.columns, hfiles.obsolete, hfiles.removed, fun candidates hpurge => (by cases hpurge),
      hfiles.deleted⟩, h.count, Or.inl rfl,
      h.progress.of_present rfl fun _ _ hfile => ⟨hfile.known, hfile.not_removed, hfile.not_deleted⟩⟩
  · cases hstep

/-! ## Disabled deletions -/

theorem disableFileDeletions_cases (h : s.disableFileDeletions = some s') :
    s.purge = .idle ∧
      s' = { s with disableTitandbFileDeletions := s.disableTitandbFileDeletions + 1 } := by
  rw [State.disableFileDeletions] at h
  split at h
  · rename_i hidle
    exact ⟨hidle, (Option.some.inj h).symm⟩
  · cases h

theorem enableFileDeletions_cases (h : s.enableFileDeletions = some s') :
    s.purge = .idle ∧
      s' = { s with disableTitandbFileDeletions := s.disableTitandbFileDeletions - 1 } := by
  rw [State.enableFileDeletions] at h
  split at h
  · rename_i hidle
    split_ifs at h with hcount
    · exact ⟨hidle, (Option.some.inj h).symm⟩
    · have hzero : s.disableTitandbFileDeletions - 1 = s.disableTitandbFileDeletions := by omega
      rw [hzero]
      exact ⟨hidle, (Option.some.inj h).symm⟩
  · cases h

/-- A step that changes the counter and the checkpoint alone, with no purge running. -/
theorem Inv.counted (h : Inv c I cfs s) (hidle : s.purge = .idle) {count others : ℕ}
    {ck : Progress σ μ} (hcount : count = others + ck.stage.held)
    (hprogress : ProgressInv c cfs { s with
      disableTitandbFileDeletions := count, others := others, checkpoint := ck }) :
    Inv c I cfs
      { s with disableTitandbFileDeletions := count, others := others, checkpoint := ck } :=
  ⟨⟨h.files.columns, h.files.obsolete, h.files.removed, h.files.purging, h.files.deleted⟩, hcount,
    Or.inl hidle, hprogress⟩

theorem ProgressInv.same_files (h : ProgressInv c cfs s) (count others : ℕ) :
    ProgressInv c cfs { s with disableTitandbFileDeletions := count, others := others } :=
  h.of_present rfl fun _ _ hfile => ⟨hfile.known, hfile.not_removed, hfile.not_deleted⟩

theorem Inv.disableFileDeletions (h : Inv c I cfs s)
    (hstep : step c cfs s .disableFileDeletions = some s') : Inv c I cfs s' := by
  obtain ⟨t, ht, rfl⟩ := Option.map_eq_some_iff.mp hstep
  obtain ⟨hidle, rfl⟩ := disableFileDeletions_cases ht
  have hcount := h.count
  refine h.counted hidle ?_ (h.progress.same_files _ _)
  dsimp only
  omega

theorem Inv.enableFileDeletions (h : Inv c I cfs s)
    (hstep : step c cfs s .enableFileDeletions = some s') : Inv c I cfs s' := by
  rw [step] at hstep
  split_ifs at hstep with hothers
  obtain ⟨t, ht, rfl⟩ := Option.map_eq_some_iff.mp hstep
  obtain ⟨hidle, rfl⟩ := enableFileDeletions_cases ht
  have hcount := h.count
  refine h.counted hidle ?_ (h.progress.same_files _ _)
  dsimp only
  omega

/-! ## The checkpoint -/

/-- What is present is listed and added. -/
theorem Present.listed {file : FileId} (h : Present c s file) (hcf : file.1 ∈ cfs)
    (nextFileNumber : UInt64) :
    file ∈ (s.getAllFiles c cfs nextFileNumber).files ∧
      Adds (s.getAllFiles c cfs nextFileNumber).edits file := by
  obtain ⟨entry, hentry, hnumber⟩ := List.mem_map.mp h.known
  have hfile : file = (file.1, entry.1) := by rw [hnumber]
  have hmem : entry ∈ s.columnFiles c file.1 := by
    refine List.mem_filter.mpr ⟨hentry, ?_⟩
    rw [← hfile]
    simpa using h.not_removed
  refine ⟨List.mem_flatMap.mpr ⟨file.1, hcf, List.mem_map.mpr ⟨entry, hmem, hfile.symm⟩⟩, ?_⟩
  refine ⟨⟨file.1, none, s.columnFiles c file.1, []⟩, ?_, rfl, ?_⟩
  · exact List.mem_cons_of_mem _ (List.mem_map.mpr ⟨file.1, hcf, rfl⟩)
  · exact List.mem_map.mpr ⟨entry, hmem, hnumber⟩

theorem Present.onDisk {file : FileId} (h : Present c s file) : s.onDisk c file = true := by
  have hdeleted := h.not_deleted
  rw [State.onDisk]
  simp [h.known, hdeleted]

/-- What the newest versions name is present. -/
theorem Inv.present_of_newest (hc : c.Sound condition I) (h : Inv c I cfs s) {file : FileId}
    (hnewest : c.newest (s.columns file.1) file.2) : Present c s file := by
  obtain ⟨hknown, hlive⟩ := hc.live _ _ (h.files.columns file.1) hnewest
  have hnot : ∀ files : List FileId, (∀ g ∈ files, Obsolete c s.columns g) → file ∉ files := by
    intro files hfiles hmem
    cases hlive.symm.trans (hfiles file hmem)
  exact ⟨hknown, hnot _ h.files.removed, hnot _ h.files.deleted⟩

/-- `checkpointStep` by its branches. -/
inductive Advances (c : ColumnModel σ α μ) (cfs : List UInt32) (s : State σ μ) :
    Progress σ μ → Prop
  | disabled (h : s.checkpoint.stage = .idle) :
      Advances c cfs s { s.checkpoint with stage := .disabled }
  | copied (h : s.checkpoint.stage = .disabled) :
      Advances c cfs s { s.checkpoint with stage := .copied, base := some s.columns }
  | listing (h : s.checkpoint.stage = .copied) :
      Advances c cfs s { s.checkpoint with stage := .listing }
  | listed (h : s.checkpoint.stage = .listing) (nextFileNumber : UInt64) :
      Advances c cfs s { s.checkpoint with
        stage := .listed, listing := some (s.getAllFiles c cfs nextFileNumber) }
  | linking (h : s.checkpoint.stage = .listed) :
      Advances c cfs s { s.checkpoint with
        stage := .linking, todo := (s.checkpoint.listing.map (·.files)).getD [] }
  | linked (h : s.checkpoint.stage = .linking) {file : FileId} {todo : List FileId}
      (htodo : s.checkpoint.todo = file :: todo) :
      Advances c cfs s { s.checkpoint with
        todo := todo, links := s.checkpoint.links ++ [(file, s.onDisk c file)] }
  | written (h : s.checkpoint.stage = .linking) (htodo : s.checkpoint.todo = []) :
      Advances c cfs s { s.checkpoint with manifest := s.checkpoint.listing.map (·.edits) }
  | finished (h : s.checkpoint.stage = .linking) (hmanifest : s.checkpoint.manifest.isSome) :
      Advances c cfs s { s.checkpoint with stage := .finished }
  | failed (h : s.checkpoint.stage.held = 1) :
      Advances c cfs s { s.checkpoint with stage := .failed }

theorem disable_setCheckpoint {ck : Progress σ μ}
    (h : s.disableFileDeletions.map (·.setCheckpoint ck) = some s') :
    s.purge = .idle ∧ s' = { s with
      disableTitandbFileDeletions := s.disableTitandbFileDeletions + 1, checkpoint := ck } := by
  obtain ⟨t, ht, rfl⟩ := Option.map_eq_some_iff.mp h
  obtain ⟨hidle, rfl⟩ := disableFileDeletions_cases ht
  exact ⟨hidle, rfl⟩

theorem enable_setCheckpoint {ck : Progress σ μ}
    (h : s.enableFileDeletions.map (·.setCheckpoint ck) = some s') :
    s.purge = .idle ∧ s' = { s with
      disableTitandbFileDeletions := s.disableTitandbFileDeletions - 1, checkpoint := ck } := by
  obtain ⟨t, ht, rfl⟩ := Option.map_eq_some_iff.mp h
  obtain ⟨hidle, rfl⟩ := enableFileDeletions_cases ht
  exact ⟨hidle, rfl⟩

/-- Each branch moves the counter with what the stage holds. -/
theorem checkpointStep_cases (h : Inv c I cfs s) {a : Action α}
    (hstep : checkpointStep c cfs s a = some s') :
    ∃ count ck, s' = { s with disableTitandbFileDeletions := count, checkpoint := ck } ∧
      Advances c cfs s ck ∧ count = s.others + ck.stage.held ∧
      (s.purge = .idle ∨ count = s.disableTitandbFileDeletions) := by
  have hcount := h.count
  have hfail : s.checkpoint.stage.held = 1 →
      s.enableFileDeletions.map (·.setCheckpoint { s.checkpoint with stage := .failed }) = some s' →
      ∃ count ck, s' = { s with disableTitandbFileDeletions := count, checkpoint := ck } ∧
        Advances c cfs s ck ∧ count = s.others + ck.stage.held ∧
        (s.purge = .idle ∨ count = s.disableTitandbFileDeletions) := by
    intro hheld henable
    obtain ⟨hidle, rfl⟩ := enable_setCheckpoint henable
    exact ⟨_, _, rfl, .failed hheld, by rw [hcount, hheld]; rfl, Or.inl hidle⟩
  unfold checkpointStep at hstep
  dsimp only at hstep
  split at hstep
  · rename_i hstage
    obtain ⟨hidle, rfl⟩ := disable_setCheckpoint hstep
    exact ⟨_, _, rfl, .disabled hstage, by rw [hcount, hstage]; rfl, Or.inl hidle⟩
  · rename_i hstage
    obtain rfl := Option.some.inj hstep
    exact ⟨_, _, rfl, .copied hstage, by rw [hcount, hstage]; rfl, Or.inr rfl⟩
  · rename_i hstage
    obtain ⟨hidle, rfl⟩ := disable_setCheckpoint hstep
    exact ⟨_, _, rfl, .listing hstage, by rw [hcount, hstage]; rfl, Or.inl hidle⟩
  · rename_i next hstage
    obtain rfl := Option.some.inj hstep
    exact ⟨_, _, rfl, .listed hstage next, by rw [hcount, hstage]; rfl, Or.inr rfl⟩
  · rename_i hstage
    obtain ⟨hidle, rfl⟩ := enable_setCheckpoint hstep
    exact ⟨_, _, rfl, .linking hstage, by rw [hcount, hstage]; rfl, Or.inl hidle⟩
  · rename_i hstage
    split at hstep
    · cases hstep
    · rename_i file todo htodo
      obtain rfl := Option.some.inj hstep
      exact ⟨_, _, rfl, .linked hstage htodo, hcount, Or.inr rfl⟩
  · rename_i hstage
    split_ifs at hstep with htodo
    obtain rfl := Option.some.inj hstep
    exact ⟨_, _, rfl, .written hstage (List.isEmpty_iff.mp htodo), hcount, Or.inr rfl⟩
  · rename_i hstage
    split_ifs at hstep with hmanifest
    obtain ⟨hidle, rfl⟩ := enable_setCheckpoint hstep
    exact ⟨_, _, rfl, .finished hstage hmanifest, by rw [hcount, hstage]; rfl, Or.inl hidle⟩
  · rename_i hstage
    exact hfail (by rw [hstage]; rfl) hstep
  · rename_i hstage
    exact hfail (by rw [hstage]; rfl) hstep
  · rename_i hstage
    exact hfail (by rw [hstage]; rfl) hstep
  · cases hstep

/-- A step of the checkpoint that moves on to another stage and nothing else. -/
theorem ProgressInv.setStage (h : ProgressInv c cfs s) (stage : Stage) (count : ℕ)
    (huncopied : stage.uncopied → s.checkpoint.stage.uncopied)
    (hunlisted : stage.unlisted → s.checkpoint.stage.unlisted)
    (hunlinked : stage.unlinked → s.checkpoint.stage.unlinked)
    (hheld : 0 < stage.held → 0 < s.checkpoint.stage.held ∨ s.checkpoint.stage.uncopied)
    (hlisting : stage = .listed ∨ stage.links → s.checkpoint.stage = .listed ∨ s.checkpoint.stage.links)
    (hlinks : stage.links → s.checkpoint.stage.links)
    (hfinished : stage = .finished → s.checkpoint.manifest.isSome) :
    ProgressInv c cfs { s with
      disableTitandbFileDeletions := count, checkpoint := { s.checkpoint with stage := stage } } where
  uncopied hstage := h.uncopied (huncopied hstage)
  unlisted hstage := h.unlisted (hunlisted hstage)
  unlinked hstage := h.unlinked (hunlinked hstage)
  present hstage file hfile := by
    rcases hheld hstage with hold | hold
    · have hpresent := h.present hold file hfile
      exact ⟨hpresent.known, hpresent.not_removed, hpresent.not_deleted⟩
    · obtain ⟨base, hbase, -⟩ := hfile
      cases (h.uncopied hold).symm.trans hbase
  listed := h.listed
  listing hstage := h.listing (hlisting hstage)
  links := h.links
  linked hstage := h.linked (hlinks hstage)
  manifest := h.manifest
  finished := hfinished

theorem Present.setCheckpoint {file : FileId} (h : Present c s file) (count : ℕ)
    (ck : Progress σ μ) :
    Present c { s with disableTitandbFileDeletions := count, checkpoint := ck } file :=
  ⟨h.known, h.not_removed, h.not_deleted⟩

/-! ### What the stages add -/

/-- The base's checkpoint fixes the newest versions. -/
theorem Inv.progress_copied (hc : c.Sound condition I) (h : Inv c I cfs s) (count : ℕ)
    (hstage : s.checkpoint.stage = .disabled) :
    ProgressInv c cfs { s with
      disableTitandbFileDeletions := count
      checkpoint := { s.checkpoint with stage := .copied, base := some s.columns } } := by
  have hp := h.progress
  have hlisting := hp.unlisted (by rw [hstage]; rfl)
  obtain ⟨hlinks, hmanifest⟩ := hp.unlinked (by rw [hstage]; rfl)
  constructor
  case uncopied => exact nofun
  case unlisted => exact fun _ => hlisting
  case unlinked => exact fun _ => ⟨hlinks, hmanifest⟩
  case present =>
    rintro - file ⟨base, hbase, -, hnewest⟩
    obtain rfl := Option.some.inj hbase
    exact (h.present_of_newest hc hnewest).setCheckpoint count _
  case listed => exact fun listing hl => (by cases hlisting.symm.trans hl)
  case listing => rintro (h | h) <;> cases h
  case links =>
    intro link hlink
    rw [hlinks] at hlink
    cases hlink
  case linked => exact nofun
  case manifest => exact hp.manifest
  case finished => exact nofun

/-- The listing has every file that the base names. -/
theorem ProgressInv.listing_of_copied (hp : ProgressInv c cfs s) (count : ℕ)
    (hstage : s.checkpoint.stage = .listing) (next : UInt64) :
    ProgressInv c cfs { s with
      disableTitandbFileDeletions := count
      checkpoint := { s.checkpoint with
        stage := .listed, listing := some (s.getAllFiles c cfs next) } } := by
  have hheld : ∀ file, s.checkpoint.Names c cfs file → Present c s file :=
    hp.present (by rw [hstage]; decide)
  obtain ⟨hlinks, hmanifest⟩ := hp.unlinked (by rw [hstage]; rfl)
  constructor
  case uncopied => exact nofun
  case unlisted => exact nofun
  case unlinked => exact fun _ => ⟨hlinks, hmanifest⟩
  case present => exact fun _ file hfile => (hheld file hfile).setCheckpoint count _
  case listed =>
    rintro listing hl file ⟨base, hbase, hcf, hnewest⟩
    obtain rfl := Option.some.inj hl
    exact (hheld file ⟨base, hbase, hcf, hnewest⟩).listed hcf next
  case listing => exact fun _ => rfl
  case links => exact hp.links
  case linked => exact nofun
  case manifest => exact fun edits he => (by cases hmanifest.symm.trans he)
  case finished => exact nofun

/-- The files to link are the listed ones. -/
theorem ProgressInv.todo_of_listed (hp : ProgressInv c cfs s) (count : ℕ)
    (hstage : s.checkpoint.stage = .listed) :
    ProgressInv c cfs { s with
      disableTitandbFileDeletions := count
      checkpoint := { s.checkpoint with
        stage := .linking, todo := (s.checkpoint.listing.map (·.files)).getD [] } } := by
  obtain ⟨listing, hlisting⟩ := Option.isSome_iff_exists.mp (hp.listing (Or.inl hstage))
  have hheld := hp.present (by rw [hstage]; decide)
  obtain ⟨-, hmanifest⟩ := hp.unlinked (by rw [hstage]; rfl)
  constructor
  case uncopied => exact nofun
  case unlisted => exact nofun
  case unlinked => exact nofun
  case present => exact fun _ file hfile => (hheld file hfile).setCheckpoint count _
  case listed => exact hp.listed
  case listing => exact fun _ => hp.listing (Or.inl hstage)
  case links => exact hp.links
  case linked =>
    intro _ file hfile
    refine Or.inl ?_
    change file ∈ (s.checkpoint.listing.map (·.files)).getD []
    rw [hlisting]
    exact (hp.listed listing hlisting file hfile).1
  case manifest => exact fun edits he => (by cases hmanifest.symm.trans he)
  case finished => exact nofun

/-- A file that the base names is still there when its turn comes. -/
theorem ProgressInv.link (hp : ProgressInv c cfs s) (count : ℕ)
    (hstage : s.checkpoint.stage = .linking) {file : FileId} {todo : List FileId}
    (htodo : s.checkpoint.todo = file :: todo) :
    ProgressInv c cfs { s with
      disableTitandbFileDeletions := count
      checkpoint := { s.checkpoint with
        todo := todo, links := s.checkpoint.links ++ [(file, s.onDisk c file)] } } := by
  have hheld := hp.present (by rw [hstage]; decide)
  have hlinks : s.checkpoint.stage.links := by rw [hstage]; rfl
  have hnew : ∀ g, s.checkpoint.Names c cfs g → s.onDisk c g = true := fun g hg =>
    (hheld g hg).onDisk
  constructor
  case uncopied => exact hp.uncopied
  case unlisted => exact hp.unlisted
  case unlinked =>
    change s.checkpoint.stage.unlinked → _
    rw [hstage]
    exact nofun
  case present => exact fun _ g hg => (hheld g hg).setCheckpoint count _
  case listed => exact hp.listed
  case listing => exact hp.listing
  case links =>
    intro link hlink hnames
    rcases List.mem_append.mp hlink with hlink | hlink
    · exact hp.links link hlink hnames
    · rw [List.mem_singleton.mp hlink] at hnames ⊢
      exact hnew file hnames
  case linked =>
    intro _ g hg
    rcases hp.linked hlinks g hg with hmem | hmem
    · rw [htodo] at hmem
      rcases List.mem_cons.mp hmem with rfl | hmem
      · refine Or.inr (List.mem_append_right _ ?_)
        rw [hnew g hg]
        exact List.mem_cons_self
      · exact Or.inl hmem
    · exact Or.inr (List.mem_append_left _ hmem)
  case manifest =>
    intro edits he
    have hnil := (hp.manifest edits he).1
    rw [htodo] at hnil
    cases hnil
  case finished =>
    change s.checkpoint.stage = .finished → _
    rw [hstage]
    exact nofun

theorem ProgressInv.writeManifest (hp : ProgressInv c cfs s) (count : ℕ)
    (hstage : s.checkpoint.stage = .linking) (htodo : s.checkpoint.todo = []) :
    ProgressInv c cfs { s with
      disableTitandbFileDeletions := count
      checkpoint := { s.checkpoint with manifest := s.checkpoint.listing.map (·.edits) } } := by
  constructor
  case uncopied => exact hp.uncopied
  case unlisted => exact hp.unlisted
  case unlinked =>
    change s.checkpoint.stage.unlinked → _
    rw [hstage]
    exact nofun
  case present => exact fun hheld file hfile => (hp.present hheld file hfile).setCheckpoint count _
  case listed => exact hp.listed
  case listing => exact hp.listing
  case links => exact hp.links
  case linked => exact hp.linked
  case manifest => exact fun edits he => ⟨htodo, he⟩
  case finished =>
    change s.checkpoint.stage = .finished → _
    rw [hstage]
    exact nofun

/-- What a stage of the checkpoint adds to what is complete. -/
theorem Inv.advances (hc : c.Sound condition I) (h : Inv c I cfs s) {ck : Progress σ μ} (count : ℕ)
    (hck : Advances c cfs s ck) :
    ProgressInv c cfs { s with disableTitandbFileDeletions := count, checkpoint := ck } := by
  have hp := h.progress
  cases hck with
  | disabled hstage =>
      refine hp.setStage .disabled count ?_ ?_ ?_ ?_ ?_ ?_ nofun
      all_goals
        rw [hstage]
        decide
  | listing hstage =>
      refine hp.setStage .listing count ?_ ?_ ?_ ?_ ?_ ?_ nofun
      all_goals
        rw [hstage]
        decide
  | finished hstage hmanifest =>
      refine hp.setStage .finished count ?_ ?_ ?_ ?_ ?_ ?_ fun _ => hmanifest
      all_goals
        rw [hstage]
        decide
  | failed hheld =>
      refine hp.setStage .failed count nofun nofun nofun nofun ?_ nofun nofun
      rintro (h | h) <;> cases h
  | copied hstage => exact h.progress_copied hc count hstage
  | listed hstage next => exact hp.listing_of_copied count hstage next
  | linking hstage => exact hp.todo_of_listed count hstage
  | linked hstage htodo => exact hp.link count hstage htodo
  | written hstage htodo => exact hp.writeManifest count hstage htodo

theorem Inv.checkpoint (hc : c.Sound condition I) (h : Inv c I cfs s) {a : Action α}
    (hstep : checkpointStep c cfs s a = some s') : Inv c I cfs s' := by
  obtain ⟨count, ck, rfl, hck, hcount, hidle⟩ := checkpointStep_cases h hstep
  refine ⟨⟨h.files.columns, h.files.obsolete, h.files.removed, h.files.purging, h.files.deleted⟩,
    hcount, ?_, h.advances hc count hck⟩
  rcases hidle with hidle | hsame
  · exact Or.inl hidle
  · exact h.exclusive.imp id fun hzero => hsame.trans hzero

/-! ## Runs -/

theorem Inv.init (hc : c.Sound condition I) (cfs : List UInt32) : Inv c I cfs (State.init c) where
  files := ⟨hc.init, fun x hx => (by cases hx), fun file hfile => (by cases hfile),
    fun candidates hpurge => (by cases hpurge), fun file hfile => (by cases hfile)⟩
  count := rfl
  exclusive := Or.inl rfl
  progress :=
    { uncopied := fun _ => rfl
      unlisted := fun _ => rfl
      unlinked := fun _ => ⟨rfl, rfl⟩
      present := fun hheld => (by cases hheld)
      listed := fun listing hlisting => (by cases hlisting)
      listing := fun hstage => (by rcases hstage with h | h <;> cases h)
      links := fun link hlink => (by cases hlink)
      linked := fun hstage => (by cases hstage)
      manifest := fun edits he => (by cases he)
      finished := fun hstage => (by cases hstage) }

/-- The steps of column families meet the condition; the others need none. -/
def Conditioned (condition : σ → α → Prop) (s : State σ μ) : Action α → Prop
  | .column cf a _ => condition (s.columns cf) a
  | _ => True

theorem Inv.step (hc : c.Sound condition I) (h : Inv c I cfs s) {a : Action α}
    (hmeets : Conditioned condition s a) (hstep : step c cfs s a = some s') : Inv c I cfs s' := by
  cases a with
  | column cf a seq => exact h.column hc hmeets hstep
  | disableFileDeletions => exact h.disableFileDeletions hstep
  | enableFileDeletions => exact h.enableFileDeletions hstep
  | purgeBegin oldest => exact h.purgeBegin hstep
  | getObsoleteFiles => exact h.getObsoleteFiles hstep
  | deleteFile => exact h.deleteFile hstep
  | purgeEnd => exact h.purgeEnd hstep
  | _ => exact h.checkpoint hc hstep

/-- The promise of a checkpoint about a file of its base checkpoint: it is in the list, it existed
when it was linked, and the manifest adds it. -/
structure Complete (ck : Progress σ μ) (file : FileId) : Prop where
  listed : ∀ listing, ck.listing = some listing → file ∈ listing.files
  linked : ∀ link ∈ ck.links, link.1 = file → link.2 = true
  added : ∀ edits, ck.manifest = some edits → Adds edits file
  finished : ck.stage = .finished → (file, true) ∈ ck.links ∧ ck.listing.isSome ∧ ck.manifest.isSome

theorem Inv.complete (h : Inv c I cfs s) {file : FileId} (hfile : s.checkpoint.Names c cfs file) :
    Complete s.checkpoint file := by
  have hp := h.progress
  refine ⟨fun listing hlisting => (hp.listed listing hlisting file hfile).1, ?_, ?_, ?_⟩
  · rintro link hlink rfl
    exact hp.links link hlink hfile
  · intro edits hmanifest
    obtain ⟨-, hedits⟩ := hp.manifest edits hmanifest
    obtain ⟨listing, hlisting, rfl⟩ := Option.map_eq_some_iff.mp hedits
    exact (hp.listed listing hlisting file hfile).2
  · intro hfinished
    have hlinks : s.checkpoint.stage.links := by rw [hfinished]; rfl
    obtain ⟨edits, hmanifest⟩ := Option.isSome_iff_exists.mp (hp.finished hfinished)
    obtain ⟨htodo, -⟩ := hp.manifest edits hmanifest
    refine ⟨?_, hp.listing (Or.inr hlinks), hp.finished hfinished⟩
    rcases hp.linked hlinks file hfile with hmem | hmem
    · rw [htodo] at hmem
      cases hmem
    · exact hmem

/-- Every run of any sound column families. -/
theorem complete_of_sound (hc : c.Sound condition I) {actions : List (Action α)}
    (hm : Meets (step c cfs) (Conditioned condition) (State.init c) actions)
    (hr : run (step c cfs) (State.init c) actions = some s) {file : FileId}
    (hfile : s.checkpoint.Names c cfs file) : Complete s.checkpoint file := by
  have hinv : Inv c I cfs s :=
    run_invariant (fun _ _ _ h hmeets hstep => h.step hc hmeets hstep) (Inv.init hc cfs) hm hr
  exact hinv.complete hfile

end AegonKV.Checkpoint
