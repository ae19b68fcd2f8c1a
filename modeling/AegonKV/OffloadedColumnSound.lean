import AegonKV.OffloadedColumnSteps

/-!
# Newest versions under offloaded garbage collection name live files

No record of an obsolete file is exposed, and no record that a running job has dealt with. A set bit
stands for a record that no version names, since every record is named at most once.
-/

namespace AegonKV.OffloadedColumn
open LittleEndian AegonKV SoftwareGC Checkpoint
open AegonKV.OffloadedGC (copies copyRecord keptRecords)

variable {κ : Type}

def owned (job : Job κ) : List UInt64 := job.inputs ++ job.outputs

/-- The records whose bit is set, will be set, or is to be set by a job. -/
def State.reported (s : State κ) : List (UInt64 × UInt64) :=
  s.invalid ++ s.callbacks.flatten ++ s.jobs.flatMap (·.droppedIndex)

/-- Some version names the record. -/
def Named (s : State κ) (ref : UInt64 × UInt64) : Prop :=
  ∃ k, ∃ v ∈ s.versions k, ∃ p, v.newPart = some p ∧ (p.fileNumber, p.index) = ref

/-- No version leads to the record any more. -/
def Settled (s : State κ) (f : UInt64) (r : BlobRec κ) : Prop :=
  exposed (pointerTo f r) (s.versions r.key) = false

def outputRefs (job : SoftwareGC.Job κ) : List (UInt64 × UInt64) :=
  match job.output with
  | none => []
  | some (g, records) => records.map fun r => (g, r.handle.index)

/-- A queued batch deals with the record. -/
def Queues (job : SoftwareGC.Job κ) (f : UInt64) (r : BlobRec κ) : Prop :=
  ∃ w ∈ job.rewriteBatches, w.key = r.key ∧ w.blobIndex.sameRecord (pointerTo f r) = true

structure JobInv (s : State κ) (job : Job κ) : Prop where
  inputs : ∀ f ∈ job.inputs, ∃ bf, s.files f = some bf ∧ bf.state = .kBeingGC
  done : job.installed = true → job.todo = []
  flushed : job.walFlushed = true → job.installed = true ∧ job.rewriteBatches = []
  output : job.installed = true → ∀ g records, job.output = some (g, records) →
    (records.map fun r => r.handle.index).Nodup ∧
      ∃ bf, s.files g = some bf ∧ bf.state = .kPendingGC ∧ bf.records = records
  rewrites : ∀ w ∈ job.rewriteBatches, ∀ p, w.entry = .blobIndex p → ∃ g records r,
    job.output = some (g, records) ∧ r ∈ records ∧ r.key = w.key ∧ p = pointerTo g r
  queued : (job.rewriteBatches.filterMap (·.entry.ref?)).Sublist (outputRefs job.toJob)
  fresh : job.installed = true → ∀ w ∈ job.rewriteBatches, ∀ ref, w.entry.ref? = some ref →
    ¬Named s ref ∧ ref ∉ s.reported
  bits : ∀ f i, job.bits f i = true → (f, i) ∈ s.invalid
  covers : ∀ f ∈ job.inputs, ∀ bf, s.files f = some bf → ∀ r ∈ bf.records,
    (f, r) ∈ job.todo ∨ Queues job.toJob f r ∨ Settled s f r

structure Inv (s : State κ) : Prop where
  names : ∀ k, ∀ v ∈ s.versions k, ∀ p, v.newPart = some p → ∃ bf r,
    s.files p.fileNumber = some bf ∧ r ∈ bf.records ∧ r.key = k ∧ p = pointerTo p.fileNumber r
  unique : ∀ k, ((s.versions k).filterMap StreamVersion.newPart).Nodup
  indexes : ∀ f bf, s.files f = some bf → (bf.records.map fun r => r.handle.index).Nodup
  numbered : ∀ f bf, s.files f = some bf → f ∈ s.numbers
  jobs : ∀ job ∈ s.jobs, JobInv s job
  disjoint : (s.jobs.flatMap owned).Nodup
  dead : ∀ f bf, s.files f = some bf → bf.state = .kObsolete → ∀ r ∈ bf.records, Settled s f r
  reported : ∀ ref ∈ s.reported, s.files ref.1 ≠ none ∧ ¬Named s ref

variable {s s' : State κ}

theorem mem_reported {ref : UInt64 × UInt64} :
    ref ∈ s.reported ↔ ref ∈ s.invalid ∨ (∃ dropped ∈ s.callbacks, ref ∈ dropped) ∨
      ∃ job ∈ s.jobs, ref ∈ job.droppedIndex := by
  simp only [State.reported, List.mem_append, List.mem_flatten, List.mem_flatMap, or_assoc]

theorem dropped_reported {job : Job κ} (h : job ∈ s.jobs) : job.droppedIndex ⊆ s.reported :=
  fun _ href => mem_reported.mpr (Or.inr (Or.inr ⟨job, h, href⟩))

/-- One job gives way to another. -/
theorem reported_set {j : ℕ} {job job' : Job κ} (hj : s.jobs[j]? = some job)
    {ref : UInt64 × UInt64} (href : ref ∈ s'.reported) (hinvalid : s'.invalid = s.invalid)
    (hcallbacks : s'.callbacks = s.callbacks) (hjobs : s'.jobs = s.jobs.set j job') :
    ref ∈ s.reported ∨ ref ∈ job'.droppedIndex := by
  rw [mem_reported, hinvalid, hcallbacks, hjobs] at href
  rw [mem_reported]
  rcases href with href | href | ⟨other, hother, href⟩
  · exact Or.inl (Or.inl href)
  · exact Or.inl (Or.inr (Or.inl href))
  · rcases Ownership.mem_set hj hother with rfl | hother
    · exact Or.inr href
    · exact Or.inl (Or.inr (Or.inr ⟨other, List.mem_of_mem_eraseIdx hother, href⟩))

theorem named_congr (h : s'.versions = s.versions) {ref : UInt64 × UInt64} :
    Named s' ref ↔ Named s ref := by
  rw [Named, h]
  rfl

theorem settled_congr (h : s'.versions = s.versions) {f : UInt64} {r : BlobRec κ} :
    Settled s' f r ↔ Settled s f r := by
  rw [Settled, h]
  rfl

theorem settled_of_not_named {f : UInt64} {r : BlobRec κ} (h : ¬Named s (f, r.handle.index)) :
    Settled s f r := by
  rw [Settled, Bool.eq_false_iff]
  intro hexposed
  obtain ⟨v, hv, hp⟩ := exists_of_exposed hexposed
  exact h ⟨r.key, v, hv, _, hp, rfl⟩

theorem Inv.named_file (h : Inv s) {ref : UInt64 × UInt64} (href : Named s ref) :
    s.files ref.1 ≠ none := by
  obtain ⟨k, v, hv, p, hp, rfl⟩ := href
  obtain ⟨bf, r, hbf, -⟩ := h.names k v hv p hp
  rw [hbf]
  exact Option.some_ne_none bf

/-- A set bit stands for a record that is settled. -/
theorem Inv.settled_of_invalid (h : Inv s) {f : UInt64} {r : BlobRec κ}
    (hbit : (f, r.handle.index) ∈ s.invalid) : Settled s f r :=
  settled_of_not_named (h.reported _ (mem_reported.mpr (Or.inl hbit))).2

/-! ## Jobs that a step leaves alone -/

theorem mem_outputs {job : SoftwareGC.Job κ} {g : UInt64} :
    g ∈ job.outputs ↔ job.installed = true ∧ ∃ records, job.output = some (g, records) := by
  rw [SoftwareGC.Job.outputs]
  split_ifs with hinst
  · simp [hinst]
  · simp [hinst]

theorem owned_of_not_installed {job : Job κ} (h : job.installed = false) :
    owned job = job.inputs := by
  rw [owned, SoftwareGC.Job.outputs, if_neg (by rw [h]; exact Bool.false_ne_true), List.append_nil]

theorem JobInv.owned_some {job : Job κ} (h : JobInv s job) {f : UInt64} (hf : f ∈ owned job) :
    ∃ bf, s.files f = some bf ∧ (bf.state = .kBeingGC ∨ bf.state = .kPendingGC) := by
  rcases List.mem_append.mp hf with hf | hf
  · obtain ⟨bf, hbf, hstate⟩ := h.inputs f hf
    exact ⟨bf, hbf, Or.inl hstate⟩
  · obtain ⟨hinst, records, hout⟩ := mem_outputs.mp hf
    obtain ⟨-, bf, hbf, hstate, -⟩ := h.output hinst f records hout
    exact ⟨bf, hbf, Or.inr hstate⟩

/-- What a batch writes is in the output. -/
theorem JobInv.ref_output {job : Job κ} (h : JobInv s job) {w : Rewrite κ}
    (hw : w ∈ job.rewriteBatches) {ref : UInt64 × UInt64} (href : w.entry.ref? = some ref) :
    ∃ records, job.output = some (ref.1, records) := by
  obtain ⟨p, hp, hfile, -⟩ := LsmEntry.ref?_eq_some href
  obtain ⟨g, records, r, hout, -, -, rfl⟩ := h.rewrites w hw p hp
  rw [← hfile]
  exact ⟨records, hout⟩

/-- A job whose files are not touched keeps its account. -/
theorem JobInv.mono {job : Job κ} (h : JobInv s job)
    (hfiles : ∀ f ∈ owned job, s'.files f = s.files f)
    (hsettled : ∀ f ∈ job.inputs, ∀ r : BlobRec κ, Settled s f r → Settled s' f r)
    (hfresh : job.installed = true → ∀ w ∈ job.rewriteBatches, ∀ ref, w.entry.ref? = some ref →
      ¬Named s ref → ref ∉ s.reported → ¬Named s' ref ∧ ref ∉ s'.reported)
    (hinvalid : s.invalid ⊆ s'.invalid) : JobInv s' job := by
  have hin : ∀ f ∈ job.inputs, s'.files f = s.files f := fun f hf =>
    hfiles f (List.mem_append_left _ hf)
  constructor
  case inputs =>
    intro f hf
    rw [hin f hf]
    exact h.inputs f hf
  case done => exact h.done
  case flushed => exact h.flushed
  case output =>
    intro hinst g records hout
    obtain ⟨hn, bf, hbf, hstate⟩ := h.output hinst g records hout
    have hg : g ∈ owned job := List.mem_append_right _ (mem_outputs.mpr ⟨hinst, records, hout⟩)
    exact ⟨hn, bf, (hfiles g hg).trans hbf, hstate⟩
  case rewrites => exact h.rewrites
  case queued => exact h.queued
  case fresh =>
    intro hinst w hw ref href
    obtain ⟨hnamed, hreported⟩ := h.fresh hinst w hw ref href
    exact hfresh hinst w hw ref href hnamed hreported
  case bits => exact fun f i hbit => hinvalid (h.bits f i hbit)
  case covers =>
    intro f hf bf hbf r hr
    rw [hin f hf] at hbf
    exact (h.covers f hf bf hbf r hr).imp id (Or.imp id (hsettled f hf r))

/-- The versions and the bits stay. -/
theorem JobInv.same_versions {job : Job κ} (h : JobInv s job)
    (hfiles : ∀ f ∈ owned job, s'.files f = s.files f) (hversions : s'.versions = s.versions)
    (hreported : s'.reported ⊆ s.reported) (hinvalid : s.invalid ⊆ s'.invalid) : JobInv s' job := by
  refine h.mono hfiles (fun f _ r => (settled_congr hversions).mpr) ?_ hinvalid
  exact fun _ w _ ref _ hnamed href =>
    ⟨fun hnamed' => hnamed ((named_congr hversions).mp hnamed'), fun href' => href (hreported href')⟩

/-! ## Steps that leave the versions alone -/

/-- A step that changes the states of files and the jobs. -/
theorem Inv.of_files (h : Inv s)
    (hrecords : ∀ f bf', s'.files f = some bf' → ∃ bf, s.files f = some bf ∧
      bf'.records = bf.records ∧
      (bf'.state = .kObsolete → bf.state = .kObsolete ∨ ∀ r ∈ bf.records, Settled s f r))
    (hkeeps : s.files.Keeps s'.files) (hversions : s'.versions = s.versions)
    (hnumbers : s'.numbers = s.numbers)
    (hreported : ∀ ref ∈ s'.reported, ref ∈ s.reported ∨ s.files ref.1 ≠ none ∧ ¬Named s ref)
    (hjobs : ∀ job ∈ s'.jobs, JobInv s' job) (hdisjoint : (s'.jobs.flatMap owned).Nodup) :
    Inv s' := by
  constructor
  case names =>
    intro k v hv p hp
    rw [hversions] at hv
    obtain ⟨bf, r, hbf, hr, hkey, heq⟩ := h.names k v hv p hp
    obtain ⟨bf', hbf', hrec⟩ := hkeeps _ bf hbf
    exact ⟨bf', r, hbf', hrec ▸ hr, hkey, heq⟩
  case unique => exact fun k => hversions ▸ h.unique k
  case indexes =>
    intro f bf' hbf'
    obtain ⟨bf, hbf, hrec, -⟩ := hrecords f bf' hbf'
    exact hrec ▸ h.indexes f bf hbf
  case numbered =>
    intro f bf' hbf'
    obtain ⟨bf, hbf, -⟩ := hrecords f bf' hbf'
    exact hnumbers ▸ h.numbered f bf hbf
  case jobs => exact hjobs
  case disjoint => exact hdisjoint
  case dead =>
    intro f bf' hbf' hstate r hr
    obtain ⟨bf, hbf, hrec, hob⟩ := hrecords f bf' hbf'
    rw [hrec] at hr
    rw [settled_congr hversions]
    rcases hob hstate with hob | hsettled
    · exact h.dead f bf hbf hob r hr
    · exact hsettled r hr
  case reported =>
    intro ref href
    rw [named_congr hversions]
    obtain ⟨hsome, hnot⟩ := (hreported ref href).elim (h.reported ref) id
    refine ⟨?_, hnot⟩
    obtain ⟨bf, hbf⟩ := Option.ne_none_iff_exists'.mp hsome
    obtain ⟨bf', hbf', -⟩ := hkeeps _ bf hbf
    rw [hbf']
    exact Option.some_ne_none bf'

/-- A step that changes neither files nor versions. -/
theorem Inv.of_jobs (h : Inv s) (hfiles : s'.files = s.files) (hversions : s'.versions = s.versions)
    (hnumbers : s'.numbers = s.numbers)
    (hreported : ∀ ref ∈ s'.reported, ref ∈ s.reported ∨ s.files ref.1 ≠ none ∧ ¬Named s ref)
    (hjobs : ∀ job ∈ s'.jobs, JobInv s' job) (hdisjoint : (s'.jobs.flatMap owned).Nodup) :
    Inv s' := by
  apply h.of_files
  · exact fun f bf hbf => ⟨bf, hfiles ▸ hbf, rfl, Or.inl⟩
  · exact hfiles ▸ .refl _
  · exact hversions
  · exact hnumbers
  · exact hreported
  · exact hjobs
  · exact hdisjoint

/-- One job gives way to another that owns the same files. -/
theorem Inv.set_job (h : Inv s) {j : ℕ} {job job' : Job κ} (hj : s.jobs[j]? = some job)
    (howned : owned job' = owned job) (hdropped : job'.droppedIndex ⊆ job.droppedIndex)
    (hjob : JobInv { s with jobs := s.jobs.set j job' } job →
      JobInv { s with jobs := s.jobs.set j job' } job') :
    Inv { s with jobs := s.jobs.set j job' } := by
  have hreported : State.reported { s with jobs := s.jobs.set j job' } ⊆ s.reported := by
    intro ref href
    rcases reported_set hj href rfl rfl rfl with href | href
    · exact href
    · exact dropped_reported (List.mem_of_getElem? hj) (hdropped href)
  refine h.of_jobs rfl rfl rfl (fun ref href => Or.inl (hreported href)) (fun other hother => ?_) ?_
  · rcases Ownership.mem_set hj hother with rfl | hother
    · exact hjob ((h.jobs job (List.mem_of_getElem? hj)).same_versions (fun _ _ => rfl) rfl
        hreported (List.Subset.refl _))
    · exact (h.jobs other (List.mem_of_mem_eraseIdx hother)).same_versions (fun _ _ => rfl) rfl
        hreported (List.Subset.refl _)
  · obtain ⟨hn, -, hdisjoint⟩ := Ownership.nodup_of_getElem? h.disjoint hj
    exact Ownership.nodup_set h.disjoint hj (howned ▸ hn) (howned ▸ hdisjoint)

/-- Where a file comes from that has had an event. -/
theorem transitAll_inv {files files' : BlobFiles κ} {event : FileEvent} {fs : List UInt64}
    (h : files.transitAll event fs = some files') (hn : fs.Nodup) {f : UInt64} {bf' : BlobFile κ}
    (hbf' : files' f = some bf') :
    ∃ bf, files f = some bf ∧ bf'.records = bf.records ∧
      (bf'.state = bf.state ∧ f ∉ fs ∨ f ∈ fs ∧ fileStateTransit bf.state event = some bf'.state) := by
  by_cases hf : f ∈ fs
  · obtain ⟨bf, state, hbf, hstate, heq⟩ := BlobFiles.transitAll_of_mem h hn hf
    obtain rfl := Option.some.inj (heq.symm.trans hbf')
    exact ⟨bf, hbf, rfl, Or.inr ⟨hf, hstate⟩⟩
  · rw [BlobFiles.transitAll_of_not_mem h hf] at hbf'
    exact ⟨bf', hbf', rfl, Or.inl ⟨rfl, hf⟩⟩

/-- A life-cycle event of a file that no job owns, or that leaves the file as it is. -/
theorem Inv.files_step (h : Inv s) {event : FileEvent} {f : UInt64} {files : BlobFiles κ}
    (hfiles : s.files.transit event f = some files)
    (howned : ∀ job ∈ s.jobs, f ∈ owned job → files f = s.files f)
    (hobsolete : event = .kDelete → ∀ bf, s.files f = some bf → ∀ r ∈ bf.records, Settled s f r)
    (hreset : event ≠ .kReset) : Inv { s with files := files } := by
  obtain ⟨hother, bf, state, hbf, hstate, hbf'⟩ := BlobFiles.transit_apply hfiles
  apply h.of_files
  case hrecords =>
    intro g bg hg
    by_cases hgf : g = f
    · subst hgf
      obtain rfl := Option.some.inj (hbf'.symm.trans hg)
      refine ⟨bf, hbf, rfl, fun hob => ?_⟩
      by_cases hdelete : event = .kDelete
      · exact Or.inr (hobsolete hdelete bf hbf)
      · exact Or.inl ((fileStateTransit_obsolete hstate hdelete hreset).mp hob)
    · exact ⟨bg, (hother g hgf).symm.trans hg, rfl, Or.inl⟩
  case hkeeps => exact .transit hfiles
  case hversions => rfl
  case hnumbers => rfl
  case hreported => exact fun ref href => Or.inl href
  case hjobs =>
    intro job hjob
    refine (h.jobs job hjob).same_versions (fun g hg => ?_) rfl (List.Subset.refl _)
      (List.Subset.refl _)
    by_cases hgf : g = f
    · subst hgf
      exact howned job hjob hg
    · exact hother g hgf
  case hdisjoint => exact h.disjoint

theorem Inv.not_owned (h : Inv s) {f : UInt64} {bf : BlobFile κ} (hbf : s.files f = some bf)
    (hgc : bf.state ≠ .kBeingGC) (hpending : bf.state ≠ .kPendingGC) {job : Job κ}
    (hjob : job ∈ s.jobs) : f ∉ owned job := by
  intro hf
  obtain ⟨bf', hbf', hstate⟩ := (h.jobs job hjob).owned_some hf
  obtain rfl := Option.some.inj (hbf.symm.trans hbf')
  exact hstate.elim hgc hpending

theorem Inv.flushCompleted (h : Inv s) {f : UInt64} {files : BlobFiles κ}
    (hfiles : s.files.transit .kFlushCompleted f = some files) : Inv { s with files := files } := by
  obtain ⟨-, bf, state, hbf, hstate, hbf'⟩ := BlobFiles.transit_apply hfiles
  refine h.files_step hfiles (fun job hjob hf => ?_) (fun hevent => by cases hevent) (by decide)
  obtain ⟨bf', hb, howned⟩ := (h.jobs job hjob).owned_some hf
  obtain rfl := Option.some.inj (hbf.symm.trans hb)
  have hsame : state = bf.state := by
    rcases howned with howned | howned <;> rw [howned] at hstate ⊢ <;>
      exact (Option.some.inj hstate).symm
  rw [hbf', hsame, hbf]

/-- No version leads to a record of the file. -/
def Unused (s : State κ) (f : UInt64) : Prop :=
  ∀ k p, exposed p (s.versions k) = true → p.fileNumber ≠ f

theorem Unused.settled {f : UInt64} (h : Unused s f) (r : BlobRec κ) : Settled s f r := by
  rw [Settled, Bool.eq_false_iff]
  exact fun hexposed => h r.key _ hexposed rfl

theorem Inv.compactionOutput (h : Inv s) {f : UInt64} {noLiveData : Bool} {files : BlobFiles κ}
    (hunused : noLiveData = true → Unused s f)
    (hfiles : InvalidEntries.completeOutput s.files f noLiveData = some files) :
    Inv { s with files := files } := by
  obtain ⟨mid, hmid, hdelete⟩ := InvalidEntries.completeOutput_cases hfiles
  obtain ⟨-, bf, state, hbf, hstate, hbf'⟩ := BlobFiles.transit_apply hmid
  have hpending : bf.state = .kPendingLSM := by
    by_contra hne
    rw [fileStateTransit, if_neg hne] at hstate
    cases hstate
  have hinv : Inv { s with files := mid } := by
    refine h.files_step hmid (fun job hjob hf => absurd hf (h.not_owned hbf ?_ ?_ hjob))
      (fun hevent => by cases hevent) (by decide)
    · rw [hpending]
      decide
    · rw [hpending]
      decide
  cases noLiveData with
  | false =>
      obtain rfl := Option.some.inj hdelete
      exact hinv
  | true =>
      obtain ⟨mid', hmid', hrest⟩ := BlobFiles.transitAll_cons hdelete
      obtain rfl := Option.some.inj hrest
      have hnormal : state = .kNormal := by
        rw [fileStateTransit, if_pos hpending] at hstate
        exact (Option.some.inj hstate).symm
      refine hinv.files_step hmid' (fun job hjob hf => ?_) (fun _ _ _ r _ => (hunused rfl).settled r)
        (by decide)
      exact absurd hf (hinv.not_owned hbf' (by simp [hnormal]) (by simp [hnormal]) hjob)

theorem Inv.levelMerged (h : Inv s) {f : UInt64} {noLiveData : Bool} {files : BlobFiles κ}
    (hunused : noLiveData = true → Unused s f)
    (hfiles : InvalidEntries.levelMerge s.files f noLiveData = some files) :
    Inv { s with files := files } := by
  obtain ⟨bf, hbf, hstate, htransit⟩ := InvalidEntries.levelMerge_cases hfiles
  refine h.files_step htransit (fun job hjob hf => ?_) (fun hevent _ _ r _ => ?_) ?_
  · refine absurd hf (h.not_owned hbf ?_ ?_ hjob)
    · rcases hstate with hstate | hstate <;> simp [hstate]
    · rcases hstate with hstate | hstate <;> simp [hstate]
  · cases noLiveData with
    | false => cases hevent
    | true => exact (hunused rfl).settled r
  · cases noLiveData <;> decide

theorem Inv.compactionCompleted (h : Inv s) {i : ℕ} {dropped : List (UInt64 × UInt64)}
    (hi : s.callbacks[i]? = some dropped) :
    Inv { s with callbacks := s.callbacks.eraseIdx i, invalid := s.invalid ++ dropped } := by
  have hreported : State.reported { s with
      callbacks := s.callbacks.eraseIdx i, invalid := s.invalid ++ dropped } ⊆ s.reported := by
    intro ref href
    rw [mem_reported] at href ⊢
    rcases href with href | ⟨other, hother, href⟩ | hjob
    · rcases List.mem_append.mp href with href | href
      · exact Or.inl href
      · exact Or.inr (Or.inl ⟨dropped, List.mem_of_getElem? hi, href⟩)
    · exact Or.inr (Or.inl ⟨other, List.mem_of_mem_eraseIdx hother, href⟩)
    · exact Or.inr (Or.inr hjob)
  refine h.of_jobs rfl rfl rfl (fun ref href => Or.inl (hreported href)) (fun job hjob => ?_)
    h.disjoint
  exact (h.jobs job hjob).same_versions (fun _ _ => rfl) rfl hreported
    (List.subset_append_left _ _)

/-! ## The end of a job -/

/-- The state a file had before two rounds of events on the files of a job. -/
theorem transitAll_inv_two {files mid files' : BlobFiles κ} {event event' : FileEvent}
    {fs gs : List UInt64} (h : files.transitAll event fs = some mid)
    (h' : mid.transitAll event' gs = some files') (hn : (fs ++ gs).Nodup) {f : UInt64}
    {bf' : BlobFile κ} (hbf' : files' f = some bf') :
    ∃ bf, files f = some bf ∧ bf'.records = bf.records ∧
      (bf'.state = bf.state ∨ f ∈ fs ∧ fileStateTransit bf.state event = some bf'.state ∨
        f ∈ gs ∧ fileStateTransit bf.state event' = some bf'.state) := by
  obtain ⟨hfs, hgs, hdisjoint⟩ := List.nodup_append'.mp hn
  obtain ⟨bm, hbm, hrec, hcase⟩ := transitAll_inv h' hgs hbf'
  obtain ⟨bf, hbf, hrec', hcase'⟩ := transitAll_inv h hfs hbm
  refine ⟨bf, hbf, hrec.trans hrec', ?_⟩
  rcases hcase with ⟨hstate, -⟩ | ⟨hg, hstate⟩
  · rcases hcase' with ⟨hstate', -⟩ | ⟨hf, hstate'⟩
    · exact Or.inl (hstate.trans hstate')
    · exact Or.inr (Or.inl ⟨hf, hstate ▸ hstate'⟩)
  · rcases hcase' with ⟨hstate', -⟩ | ⟨hf, -⟩
    · exact Or.inr (Or.inr ⟨hg, hstate' ▸ hstate⟩)
    · exact absurd hg (hdisjoint hf)

theorem fileStateTransit_gcCompleted {state : FileState}
    (h : fileStateTransit state .kGCCompleted = some .kObsolete) : state = .kObsolete := by
  cases state <;> cases h
  rfl

/-- A job that ends: its inputs may have been deleted, its files are released and the others are as
they were. -/
theorem Inv.endJob (h : Inv s) {j : ℕ} {job : Job κ} (hj : s.jobs[j]? = some job)
    {deleted files : BlobFiles κ}
    (hdeleted : ∀ f bd, deleted f = some bd → ∃ bf, s.files f = some bf ∧ bd.records = bf.records ∧
      (bd.state = .kObsolete → bf.state = .kObsolete ∨ ∀ r ∈ bf.records, Settled s f r))
    (hkeeps : s.files.Keeps deleted) (hsame : ∀ f, f ∉ job.inputs → deleted f = s.files f)
    (hrelease : releaseGcFiles deleted job.toJob = some files) :
    Inv { s with files := files, jobs := s.jobs.eraseIdx j } := by
  obtain ⟨hn, hothers, hdisjoint⟩ := Ownership.nodup_of_getElem? h.disjoint hj
  obtain ⟨mid, hmid, hfiles⟩ := releaseGcFiles_cases hrelease
  have hreported : State.reported { s with files := files, jobs := s.jobs.eraseIdx j } ⊆
      s.reported := by
    intro ref href
    rw [mem_reported] at href ⊢
    refine href.imp id (Or.imp id ?_)
    rintro ⟨other, hother, hmem⟩
    exact ⟨other, List.mem_of_mem_eraseIdx hother, hmem⟩
  have hkept : ∀ f, f ∉ owned job → files f = s.files f := by
    intro f hf
    rw [BlobFiles.transitAll_of_not_mem hfiles fun hout => hf (List.mem_append_right _ hout),
      BlobFiles.transitAll_of_not_mem hmid fun hin => hf (List.mem_append_left _ hin),
      hsame f fun hin => hf (List.mem_append_left _ hin)]
  apply h.of_files
  case hrecords =>
    intro f bf' hbf'
    obtain ⟨bd, hbd, hrec, hcase⟩ := transitAll_inv_two hmid hfiles hn hbf'
    obtain ⟨bf, hbf, hrec', hob'⟩ := hdeleted f bd hbd
    refine ⟨bf, hbf, hrec.trans hrec', fun hob => hob' ?_⟩
    rw [hob] at hcase
    rcases hcase with hstate | ⟨-, hstate⟩ | ⟨-, hstate⟩
    · exact hstate.symm
    · exact fileStateTransit_gcCompleted hstate
    · exact fileStateTransit_gcCompleted hstate
  case hkeeps =>
    exact hkeeps.trans ((BlobFiles.Keeps.transitAll hmid).trans (.transitAll hfiles))
  case hversions => rfl
  case hnumbers => rfl
  case hreported => exact fun ref href => Or.inl (hreported href)
  case hjobs =>
    intro other hother
    refine (h.jobs other (List.mem_of_mem_eraseIdx hother)).same_versions (fun f hf => ?_) rfl
      hreported (List.Subset.refl _)
    refine hkept f fun hin => hdisjoint f hin ?_
    exact List.mem_flatMap.mpr ⟨other, hother, hf⟩
  case hdisjoint => exact hothers

theorem Inv.gcAbort (h : Inv s) {j : ℕ} (hstep : s.gcAbortStep j = some s') : Inv s' := by
  obtain ⟨job, files, hj, hrelease, rfl⟩ := gcAbortStep_cases hstep
  exact h.endJob hj (fun f bf hbf => ⟨bf, hbf, rfl, Or.inl⟩) (.refl _) (fun _ _ => rfl) hrelease

theorem Inv.gcFinish (h : Inv s) {j : ℕ} (hstep : s.gcFinishStep j = some s') : Inv s' := by
  obtain ⟨job, deleted, files, hj, hflushed, hdeleted, hrelease, rfl⟩ := gcFinishStep_cases hstep
  have hjob := h.jobs job (List.mem_of_getElem? hj)
  obtain ⟨hinst, hbatches⟩ := hjob.flushed hflushed
  obtain ⟨hn, -, -⟩ := Ownership.nodup_of_getElem? h.disjoint hj
  have hinputs : (job.inputs.filter fun f => !isObsolete s.files f).Nodup :=
    (List.nodup_append'.mp hn).1.filter _
  refine h.endJob hj (fun f bd hbd => ?_) (.transitAll hdeleted) (fun f hf => ?_) hrelease
  · obtain ⟨bf, hbf, hrec, ⟨hstate, -⟩ | ⟨hmem, -⟩⟩ := transitAll_inv hdeleted hinputs hbd
    · exact ⟨bf, hbf, hrec, fun hob => Or.inl (hstate.symm.trans hob)⟩
    · refine ⟨bf, hbf, hrec, fun _ => Or.inr fun r hr => ?_⟩
      -- nothing is left to do, so every record of the inputs is settled
      rcases hjob.covers f (List.mem_filter.mp hmem).1 bf hbf r hr with htodo | ⟨w, hw, -⟩ | hsettled
      · rw [hjob.done hinst] at htodo
        cases htodo
      · rw [hbatches] at hw
        cases hw
      · exact hsettled
  · exact BlobFiles.transitAll_of_not_mem hdeleted fun hmem => hf (List.mem_filter.mp hmem).1

theorem Inv.gcFlushWAL (h : Inv s) {j : ℕ} (hstep : s.gcFlushWALStep j = some s') : Inv s' := by
  obtain ⟨job, hj, hinst, hbatches, rfl⟩ := gcFlushWALStep_cases hstep
  have hmem := List.mem_of_getElem? hj
  have hreported : State.reported { s with
      invalid := s.invalid ++ job.droppedIndex
      jobs := s.jobs.set j { job with walFlushed := true } } ⊆ s.reported := by
    intro ref href
    rw [mem_reported] at href ⊢
    rcases href with href | href | ⟨other, hother, href⟩
    · rcases List.mem_append.mp href with href | href
      · exact Or.inl href
      · exact Or.inr (Or.inr ⟨job, hmem, href⟩)
    · exact Or.inr (Or.inl href)
    · rcases Ownership.mem_set hj hother with rfl | hother
      · exact Or.inr (Or.inr ⟨job, hmem, href⟩)
      · exact Or.inr (Or.inr ⟨other, List.mem_of_mem_eraseIdx hother, href⟩)
  have hinvalid : s.invalid ⊆ s.invalid ++ job.droppedIndex := List.subset_append_left _ _
  obtain ⟨hn, -, hdisjoint⟩ := Ownership.nodup_of_getElem? h.disjoint hj
  refine h.of_jobs rfl rfl rfl (fun ref href => Or.inl (hreported href)) (fun other hother => ?_)
    (Ownership.nodup_set h.disjoint hj hn hdisjoint)
  rcases Ownership.mem_set hj hother with rfl | hother
  · have hjob : JobInv { s with
        invalid := s.invalid ++ job.droppedIndex
        jobs := s.jobs.set j { job with walFlushed := true } } job :=
      (h.jobs job hmem).same_versions (fun _ _ => rfl) rfl hreported hinvalid
    exact { hjob with flushed := fun _ => ⟨hinst, hbatches⟩ }
  · exact (h.jobs other (List.mem_of_mem_eraseIdx hother)).same_versions (fun _ _ => rfl) rfl
      hreported hinvalid

/-! ## The beginning of a job -/

theorem mem_inputRecords {files : BlobFiles κ} {inputs : List UInt64} {f : UInt64} {bf : BlobFile κ}
    {r : BlobRec κ} (hf : f ∈ inputs) (hbf : files f = some bf) (hr : r ∈ bf.records) :
    (f, r) ∈ inputRecords files inputs := by
  refine List.mem_flatMap.mpr ⟨f, hf, ?_⟩
  rw [fileRecords, hbf]
  exact List.mem_map.mpr ⟨r, hr, rfl⟩

/-- A job with all its records before it. -/
theorem jobInv_start {inputs : List UInt64} {order : List (UInt64 × BlobRec κ)}
    {useBitmap fallback started gcOffload : Bool} {bits : UInt64 → UInt64 → Bool}
    (hinputs : ∀ f ∈ inputs, ∃ bf, s.files f = some bf ∧ bf.state = .kBeingGC)
    (hbits : ∀ f i, bits f i = true → (f, i) ∈ s.invalid)
    (horder : ∀ f ∈ inputs, ∀ bf, s.files f = some bf → ∀ r ∈ bf.records, (f, r) ∈ order) :
    JobInv s ⟨.start inputs order useBitmap fallback bits, started, gcOffload⟩ where
  inputs := hinputs
  done := nofun
  flushed := nofun
  output := nofun
  rewrites := nofun
  queued := .slnil
  fresh := nofun
  bits := hbits
  covers f hf bf hbf r hr := Or.inl (horder f hf bf hbf r hr)

theorem Inv.gcBegin (h : Inv s) {inputs : List UInt64} (hstep : s.gcBeginStep inputs = some s') :
    Inv s' := by
  obtain ⟨hn, files, hfiles, rfl⟩ := gcBeginStep_cases hstep
  -- the inputs were normal, so no running job has them
  have hnormal : ∀ f ∈ inputs, ∃ bf, s.files f = some bf ∧ bf.state = .kNormal ∧
      files f = some { bf with state := .kBeingGC } := by
    intro f hf
    obtain ⟨bf, state, hbf, hstate, hbf'⟩ := BlobFiles.transitAll_of_mem hfiles hn hf
    rw [fileStateTransit] at hstate
    split_ifs at hstate with hold
    obtain rfl := Option.some.inj hstate
    exact ⟨bf, hbf, hold, hbf'⟩
  have hfree : ∀ job ∈ s.jobs, ∀ f ∈ owned job, f ∉ inputs := by
    intro job hjob f hf hin
    obtain ⟨bf, hbf, hold, -⟩ := hnormal f hin
    exact h.not_owned hbf (by simp [hold]) (by simp [hold]) hjob hf
  have hreported : ∀ ref, ref ∈ State.reported { s with
      files := files
      jobs := s.jobs ++
        [⟨.start inputs (inputRecords s.files inputs) false false fun _ _ => false, false, true⟩] } →
      ref ∈ s.reported := by
    intro ref href
    rw [mem_reported] at href ⊢
    refine href.imp id (Or.imp id ?_)
    rintro ⟨job, hjob, hmem⟩
    rcases List.mem_append.mp hjob with hjob | hjob
    · exact ⟨job, hjob, hmem⟩
    · obtain rfl := List.mem_singleton.mp hjob
      cases hmem
  apply h.of_files
  case hrecords =>
    intro f bf' hbf'
    obtain ⟨bf, hbf, hrec, hcase⟩ := transitAll_inv hfiles hn hbf'
    refine ⟨bf, hbf, hrec, fun hob => ?_⟩
    rw [hob] at hcase
    rcases hcase with ⟨hsame, -⟩ | ⟨-, hstate⟩
    · exact Or.inl hsame.symm
    · rw [fileStateTransit] at hstate
      split_ifs at hstate
      cases hstate
  case hkeeps => exact .transitAll hfiles
  case hversions => rfl
  case hnumbers => rfl
  case hreported => exact fun ref href => Or.inl (hreported ref href)
  case hjobs =>
    intro job hjob
    rcases List.mem_append.mp hjob with hjob | hjob
    · exact (h.jobs job hjob).same_versions
        (fun f hf => BlobFiles.transitAll_of_not_mem hfiles (hfree job hjob f hf)) rfl
        (fun ref href => hreported ref href) (List.Subset.refl _)
    · obtain rfl := List.mem_singleton.mp hjob
      refine jobInv_start (fun f hf => ?_) (fun f i hbit => by cases hbit)
        fun f hf bf hbf r hr => ?_
      · obtain ⟨bf, -, -, hbf'⟩ := hnormal f hf
        exact ⟨_, hbf', rfl⟩
      · obtain ⟨bf', hbf', hrec, -⟩ := transitAll_inv hfiles hn hbf
        exact mem_inputRecords hf hbf' (hrec ▸ hr)
  case hdisjoint =>
    rw [List.flatMap_append, List.flatMap_singleton]
    have howned : owned (⟨.start inputs (inputRecords s.files inputs) false false fun _ _ => false,
        false, true⟩ : Job κ) = inputs := List.append_nil _
    rw [howned]
    refine List.nodup_append'.mpr ⟨h.disjoint, hn, fun f hf hin => ?_⟩
    obtain ⟨job, hjob, hf⟩ := List.mem_flatMap.mp hf
    exact hfree job hjob f hf hin

end AegonKV.OffloadedColumn
