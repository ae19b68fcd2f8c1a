import AegonKV.SoftwareGCWellFormed

/-!
# Reads under software garbage collection

A record is dead once its key does not lead to it. New indices point into new files or into the
output of a job, never into a file under collection, so a dead record of an input stays dead. A
job deletes its inputs when every record was found dead, or queued and then rewritten or dead.
-/

namespace AegonKV.SoftwareGC
open LittleEndian AegonKV

variable {κ : Type} {s s' : State κ}

def Dead (lsm : Lsm κ) (f : UInt64) (r : BlobRec κ) : Prop :=
  lsm.latest r.key ≠ some (.blobIndex (pointerTo f r))

structure JobReads (lsm : Lsm κ) (files : BlobFiles κ) (job : Job κ) : Prop where
  covered : ∀ f ∈ job.inputs, ∀ bf, files f = some bf → ∀ r ∈ bf.records, (f, r) ∈ job.todo ∨
    (∃ w ∈ job.rewriteBatches, w.key = r.key ∧ w.blobIndex = pointerTo f r) ∨ Dead lsm f r
  fresh : job.lastKeyIsFresh = true → ∀ x ∈ job.todo, job.lastKey = some x.2.key →
    Dead lsm x.1 x.2
  bits : job.useBitmap = true → ∀ x ∈ job.todo, job.bits x.1 x.2.handle.index = true →
    Dead lsm x.1 x.2
  drained : job.walFlushed = true → job.installed = true ∧ job.rewriteBatches = []
  deleting : job.obsoleteSequence ≠ none → job.walFlushed = true

structure Reads (s : State κ) : Prop where
  get : ∀ k, s.get k = s.lastWrite k
  live : ∀ k p, s.lsm.latest k = some (.blobIndex p) → isObsolete s.files p.fileNumber = false
  jobs : ∀ j job, s.jobs j = some job → JobReads s.lsm s.files job

theorem Reads.init : Reads (State.init : State κ) :=
  ⟨fun k => rfl, fun k p hp => (by cases hp), by simp [State.init]⟩

/-- Files under collection get no new references. -/
def Settled (files : BlobFiles κ) (lsm lsm' : Lsm κ) : Prop :=
  ∀ k p bf, files p.fileNumber = some bf → bf.state = .kBeingGC →
    lsm'.latest k = some (.blobIndex p) → lsm.latest k = some (.blobIndex p)

theorem Settled.refl (files : BlobFiles κ) (lsm : Lsm κ) : Settled files lsm lsm :=
  fun _ _ _ _ _ h => h

theorem Dead.mono {files : BlobFiles κ} {lsm lsm' : Lsm κ} (hs : Settled files lsm lsm')
    {f : UInt64} {bf : BlobFile κ} (hf : files f = some bf) (hstate : bf.state = .kBeingGC)
    {r : BlobRec κ} (h : Dead lsm f r) : Dead lsm' f r :=
  fun hl => h (hs r.key (pointerTo f r) bf hf hstate hl)

/-- A job whose turn it is not keeps its account of its inputs. -/
theorem JobReads.mono {files files' : BlobFiles κ} {numbers numbers' : List UInt64}
    {lsm lsm' : Lsm κ} {job : Job κ} (h : JobReads lsm files job) (hwf : JobWf files numbers job)
    (hwf' : JobWf files' numbers' job) (hk : files.Keeps files') (hs : Settled files lsm lsm') :
    JobReads lsm' files' job := by
  have heq := hwf.inputs_eq hwf' hk
  have hdead : ∀ f ∈ job.inputs, ∀ r, Dead lsm f r → Dead lsm' f r := by
    intro f hf r hr
    obtain ⟨bf, hbf, hstate⟩ := hwf.inputs f hf
    exact hr.mono hs hbf hstate
  refine ⟨fun f hf bf hbf r hr => ?_, fun hl x hx hkey => ?_, fun hb x hx hbit => ?_, h.drained,
    h.deleting⟩
  · rw [heq f hf] at hbf
    exact (h.covered f hf bf hbf r hr).imp id (Or.imp id (hdead f hf r))
  · exact hdead x.1 (hwf.todo x hx).1 x.2 (h.fresh hl x hx hkey)
  · exact hdead x.1 (hwf.todo x hx).1 x.2 (h.bits hb x hx hbit)

theorem resolveEntry_keeps {files files' : BlobFiles κ} (hk : files.Keeps files')
    {e : Option LsmEntry} {k : κ} (hn : ∀ p, e = some (.blobIndex p) → Names files k p) :
    resolveEntry files' e = resolveEntry files e := by
  match e with
  | none => rfl
  | some .deletion => rfl
  | some (.value v) => rfl
  | some (.blobIndex p) =>
      obtain ⟨r, hr, -⟩ := (hn p rfl).read
      simp only [resolveEntry, hk.read hr, hr]

theorem Wf.names_latest (h : Wf s) {k : κ} {p : BlobIndexType}
    (hp : s.lsm.latest k = some (.blobIndex p)) : Names s.files k p :=
  h.names k p (Lsm.holds_of_view hp)

/-- Steps that leave the LSM tree alone. -/
theorem Reads.of_frame (h : Reads s) (hwf : Wf s) (hwf' : Wf s') (hk : s.files.Keeps s'.files)
    (hlsm : s'.lsm = s.lsm) (hlast : s'.lastWrite = s.lastWrite)
    (hlive : ∀ k p, s.lsm.latest k = some (.blobIndex p) →
      isObsolete s'.files p.fileNumber = false)
    (hjobs : ∀ j job, s'.jobs j = some job →
      s.jobs j = some job ∨ JobReads s.lsm s'.files job) : Reads s' := by
  refine ⟨fun k => ?_, fun k p hp => hlive k p (hlsm ▸ hp), fun j job hj => ?_⟩
  · rw [State.get, hlsm, hlast, resolveEntry_keeps hk fun p hp => hwf.names_latest hp]
    exact h.get k
  · rw [hlsm]
    rcases hjobs j job hj with hold | hnew
    · exact (h.jobs j job hold).mono (hwf.jobs j job hold) (hwf'.jobs j job hj) hk (.refl _ _)
    · exact hnew

/-! ## The steps of a job -/

theorem Reads.gcFlushWAL (h : Reads s) (hwf : Wf s) (hwf' : Wf s') {j : ℕ}
    (hstep : s.gcFlushWALStep j = some s') : Reads s' := by
  obtain ⟨job, hjob, hinst, hw, -, rfl⟩ := gcFlushWALStep_cases hstep
  refine h.of_frame hwf hwf' (.refl _) rfl rfl h.live fun i other hi => ?_
  rcases update_jobs_some hi with ⟨rfl, hx⟩ | ⟨-, hold⟩
  · obtain rfl := Option.some.inj hx
    have hj := h.jobs i job hjob
    exact Or.inr ⟨hj.covered, hj.fresh, hj.bits, fun _ => ⟨hinst, hw⟩, fun _ => rfl⟩
  · exact Or.inl hold

theorem Reads.gcDeleteInputs (h : Reads s) (hwf : Wf s) (hwf' : Wf s') {j : ℕ}
    (hstep : s.gcDeleteInputsStep j = some s') : Reads s' := by
  obtain ⟨job, hjob, hwal, rfl⟩ := gcDeleteInputsStep_cases hstep
  refine h.of_frame hwf hwf' (.refl _) rfl rfl h.live fun i other hi => ?_
  rcases update_jobs_some hi with ⟨rfl, hx⟩ | ⟨-, hold⟩
  · obtain rfl := Option.some.inj hx
    have hj := h.jobs i job hjob
    exact Or.inr ⟨hj.covered, hj.fresh, hj.bits, hj.drained, fun _ => hwal⟩
  · exact Or.inl hold

theorem Reads.gcInstall (h : Reads s) (hwf : Wf s) (hwf' : Wf s') {j : ℕ}
    (hstep : s.gcInstallStep j = some s') : Reads s' := by
  obtain ⟨job, hjob, htodo, hinst, hcases⟩ := gcInstallStep_cases hstep
  have hj := h.jobs j job hjob
  have hnew : ∀ files : BlobFiles κ, (∀ f ∈ job.inputs, files f = s.files f) →
      JobReads s.lsm files { job with installed := true } := by
    intro files heq
    refine ⟨fun f hf bf hbf r hr => hj.covered f hf bf (heq f hf ▸ hbf) r hr, hj.fresh, hj.bits,
      fun hwal => ⟨rfl, (hj.drained hwal).2⟩, hj.deleting⟩
  rcases hcases with ⟨-, rfl⟩ | ⟨g, bf, hout, hstate, rfl⟩
  · refine h.of_frame hwf hwf' (.refl _) rfl rfl h.live fun i other hi => ?_
    rcases update_jobs_some hi with ⟨rfl, hx⟩ | ⟨-, hold⟩
    · obtain rfl := Option.some.inj hx
      exact Or.inr (hnew _ fun _ _ => rfl)
    · exact Or.inl hold
  · have hnone := ((hwf.jobs j job hjob).output g _ hout).2
    simp only [OutputAt, hinst, Bool.false_eq_true, if_false] at hnone
    have hne : ∀ f, s.files f ≠ none → Function.update s.files g (some bf) f = s.files f := by
      intro f hf
      refine Function.update_of_ne ?_ _ _
      rintro rfl
      exact hf hnone
    refine h.of_frame hwf hwf' (.update_fresh hnone bf) rfl rfl ?_ fun i other hi => ?_
    · intro k p hp
      obtain ⟨bp, r, hbp, -⟩ := hwf.names_latest hp
      have := h.live k p hp
      simp only [isObsolete] at this ⊢
      rwa [hne p.fileNumber (by simp [hbp])]
    · rcases update_jobs_some hi with ⟨rfl, hx⟩ | ⟨-, hold⟩
      · obtain rfl := Option.some.inj hx
        refine Or.inr (hnew _ fun f hf => hne f ?_)
        obtain ⟨bi, hbi, -⟩ := (hwf.jobs i job hjob).inputs f hf
        simp [hbi]
      · exact Or.inl hold

theorem Reads.gcAbort (h : Reads s) (hwf : Wf s) (hwf' : Wf s') {j : ℕ}
    (hstep : s.gcAbortStep j = some s') : Reads s' := by
  obtain ⟨job, files, hjob, hrel, rfl⟩ := gcAbortStep_cases hstep
  refine h.of_frame hwf hwf' hrel.ages.keeps rfl rfl ?_ fun i other hi => ?_
  · intro k p hp
    rw [hrel.obsolete]
    exact h.live k p hp
  · rcases update_jobs_some hi with ⟨-, hx⟩ | ⟨-, hold⟩
    · cases hx
    · exact Or.inl hold

/-- A job that flushed the WAL has no live record left in its inputs. -/
theorem JobReads.not_input {files : BlobFiles κ} {numbers : List UInt64} {lsm : Lsm κ}
    {job : Job κ} (h : JobReads lsm files job) (hwf : JobWf files numbers job)
    (hdone : job.installed = true ∧ job.rewriteBatches = []) {k : κ} {p : BlobIndexType}
    (hp : lsm.latest k = some (.blobIndex p)) (hn : Names files k p) : p.fileNumber ∉ job.inputs := by
  intro hin
  obtain ⟨bf, r, hbf, hr, rfl, heq⟩ := hn
  rcases h.covered p.fileNumber hin bf hbf r hr with htodo | ⟨w, hw, -⟩ | hdead
  · simp [hwf.todo_installed hdone.1] at htodo
  · simp [hdone.2] at hw
  · exact hdead (heq ▸ hp)

theorem Reads.gcFinish (h : Reads s) (hwf : Wf s) (hwf' : Wf s') {j : ℕ}
    (hstep : s.gcFinishStep j = some s') : Reads s' := by
  obtain ⟨job, files, hjob, hseq, hk, -, hob, rfl⟩ := gcFinishStep_cases hstep
  refine h.of_frame hwf hwf' hk.keeps rfl rfl ?_ fun i other hi => ?_
  · intro k p hp
    have hj := h.jobs j job hjob
    have hin := hj.not_input (hwf.jobs j job hjob) (hj.drained (hj.deleting hseq)) hp
      (hwf.names_latest hp)
    have hlive := h.live k p hp
    by_contra hc
    rcases (hob p.fileNumber).mp (by simpa using hc) with hc | hc
    · exact hin hc
    · simp [hlive] at hc
  · rcases update_jobs_some hi with ⟨-, hx⟩ | ⟨-, hold⟩
    · cases hx
    · exact Or.inl hold

end AegonKV.SoftwareGC
