import AegonKV.SoftwareGCSteps

/-!
# Files, indices and jobs of software garbage collection

What every reachable state satisfies, whatever the keys read: an index in the LSM tree names a
record of its key, the files of a job are its own, and a queued rewrite carries the value of the
record it replaces.
-/

namespace AegonKV.SoftwareGC
open LittleEndian AegonKV

variable {κ : Type}

def Names (files : BlobFiles κ) (k : κ) (p : BlobIndexType) : Prop :=
  ∃ bf r, files p.fileNumber = some bf ∧ r ∈ bf.records ∧ r.key = k ∧ p = pointerTo p.fileNumber r

def Job.owns (job : Job κ) : List UInt64 :=
  job.inputs ++ (job.output.map (·.1)).toList

/-- The rewrite replaces an input record by its value or by its copy in the output. -/
def Copied (files : BlobFiles κ) (job : Job κ) (w : Rewrite κ) : Prop :=
  ∃ f ∈ job.inputs, ∃ bf r, files f = some bf ∧ r ∈ bf.records ∧ w.key = r.key ∧
    w.blobIndex = pointerTo f r ∧
    (w.entry = .value r.value ∨ ∃ number records copy, job.output = some (number, records) ∧
      copy ∈ records ∧ copy.key = r.key ∧ copy.value = r.value ∧
      w.entry = .blobIndex (pointerTo number copy))

def OutputAt (files : BlobFiles κ) (installed : Bool) (g : UInt64) (records : List (BlobRec κ)) :
    Prop :=
  if installed then ∃ bf, files g = some bf ∧ bf.records = records ∧ bf.state = .kPendingGC
  else files g = none

structure JobWf (files : BlobFiles κ) (numbers : List UInt64) (job : Job κ) : Prop where
  inputs_nodup : job.inputs.Nodup
  inputs : ∀ f ∈ job.inputs, ∃ bf, files f = some bf ∧ bf.state = .kBeingGC
  todo_nodup : job.todo.Nodup
  todo : ∀ x ∈ job.todo, x.1 ∈ job.inputs ∧ ∃ bf, files x.1 = some bf ∧ x.2 ∈ bf.records
  todo_installed : job.installed → job.todo = []
  output : ∀ g records, job.output = some (g, records) →
    g ∈ numbers ∧ OutputAt files job.installed g records
  rewrites : ∀ w ∈ job.rewriteBatches, Copied files job w

structure Wf (s : State κ) : Prop where
  names : ∀ k p, s.lsm.Holds k (.blobIndex p) → Names s.files k p
  numbered : ∀ f, s.files f ≠ none → f ∈ s.numbers
  jobs : ∀ j job, s.jobs j = some job → JobWf s.files s.numbers job
  disjoint : ∀ i j a b, s.jobs i = some a → s.jobs j = some b → i ≠ j → ∀ f ∈ a.owns, f ∉ b.owns

variable {s s' : State κ}

theorem Wf.init : Wf (State.init : State κ) :=
  ⟨by simp [State.init, Lsm.Holds, Lsm.empty], by simp [State.init], by simp [State.init],
    by simp [State.init]⟩

theorem Names.mono {files files' : BlobFiles κ} (hk : files.Keeps files') {k : κ}
    {p : BlobIndexType} (h : Names files k p) : Names files' k p := by
  obtain ⟨bf, r, hf, hr, hkey, hp⟩ := h
  obtain ⟨bf', hf', hrec⟩ := hk _ bf hf
  exact ⟨bf', r, hf', hrec ▸ hr, hkey, hp⟩

theorem Names.read {files : BlobFiles κ} {k : κ} {p : BlobIndexType} (h : Names files k p) :
    ∃ r, files.read p = some r ∧ r.key = k := by
  obtain ⟨bf, r, hf, hr, hkey, hp⟩ := h
  rw [hp]
  exact ⟨r, BlobFiles.read_pointerTo hf hr, hkey⟩

/-- Within one file the offset alone tells the indices apart. -/
theorem Names.eq_of_offset {files : BlobFiles κ} {k k' : κ} {p q : BlobIndexType}
    (hp : Names files k p) (hq : Names files k' q) (hfile : p.fileNumber = q.fileNumber)
    (hoff : p.offset = q.offset) : p = q ∧ k = k' := by
  obtain ⟨bf, r, hf, hr, rfl, hp⟩ := hp
  obtain ⟨bf', r', hf', hr', rfl, hq⟩ := hq
  obtain rfl : bf = bf' := by
    rw [hfile, hf'] at hf
    exact (Option.some.inj hf).symm
  have hoffset : r.handle.offset = r'.handle.offset := by
    rw [hp, hq] at hoff
    exact hoff
  obtain rfl : r = r' := by
    have h1 := BlobFiles.find?_offset bf.offsets_nodup hr
    rw [hoffset, BlobFiles.find?_offset bf.offsets_nodup hr'] at h1
    exact (Option.some.inj h1).symm
  exact ⟨by rw [hp, hq, hfile], rfl⟩

theorem isAt_iff {files : BlobFiles κ} {k k' : κ} {p : BlobIndexType} {e : Option LsmEntry}
    (hp : Names files k p) (he : ∀ q, e = some (.blobIndex q) → Names files k' q) :
    isAt p e = true ↔ e = some (.blobIndex p) := by
  constructor
  · intro h
    unfold isAt at h
    split at h
    · rename_i q
      simp only [sameBlob, Bool.and_eq_true, beq_iff_eq] at h
      rw [(hp.eq_of_offset (he q rfl) h.1.1 h.1.2).1]
    · cases h
  · rintro rfl
    simp [isAt, sameBlob]

theorem mem_owns {job : Job κ} {f : UInt64} :
    f ∈ job.owns ↔ f ∈ job.inputs ∨ ∃ records, job.output = some (f, records) := by
  simp only [Job.owns, List.mem_append, Option.mem_toList, Option.map_eq_some_iff]
  constructor
  · rintro (h | ⟨x, hx, rfl⟩)
    · exact Or.inl h
    · exact Or.inr ⟨x.2, hx⟩
  · rintro (h | ⟨records, h⟩)
    · exact Or.inl h
    · exact Or.inr ⟨_, h, rfl⟩

/-- The files of a job are in one of three states. -/
theorem JobWf.owns_state {files : BlobFiles κ} {numbers : List UInt64} {job : Job κ}
    (h : JobWf files numbers job) {f : UInt64} (hf : f ∈ job.owns) :
    files f = none ∨ ∃ bf, files f = some bf ∧ (bf.state = .kBeingGC ∨ bf.state = .kPendingGC) := by
  rcases mem_owns.mp hf with hf | ⟨records, hf⟩
  · obtain ⟨bf, hbf, hstate⟩ := h.inputs f hf
    exact Or.inr ⟨bf, hbf, Or.inl hstate⟩
  · have hout := (h.output f records hf).2
    unfold OutputAt at hout
    split_ifs at hout
    · obtain ⟨bf, hbf, -, hstate⟩ := hout
      exact Or.inr ⟨bf, hbf, Or.inr hstate⟩
    · exact Or.inl hout

/-- A file in another state belongs to no job. -/
theorem Wf.not_owned (h : Wf s) {f : UInt64} {bf : BlobFile κ} (hbf : s.files f = some bf)
    (hinput : bf.state ≠ .kBeingGC) (houtput : bf.state ≠ .kPendingGC) {j : ℕ} {job : Job κ}
    (hj : s.jobs j = some job) : f ∉ job.owns := by
  intro hf
  rcases (h.jobs j job hj).owns_state hf with hnone | ⟨bf', hbf', hstate⟩
  · simp [hnone] at hbf
  · obtain rfl : bf = bf' := Option.some.inj (hbf.symm.trans hbf')
    exact hstate.elim hinput houtput

theorem JobWf.owns_numbered {files : BlobFiles κ} {numbers : List UInt64} {job : Job κ}
    (h : JobWf files numbers job) (hn : ∀ f, files f ≠ none → f ∈ numbers) {f : UInt64}
    (hf : f ∈ job.owns) : f ∈ numbers := by
  rcases mem_owns.mp hf with hf | ⟨records, hf⟩
  · obtain ⟨bf, hbf, -⟩ := h.inputs f hf
    exact hn f (by simp [hbf])
  · exact (h.output f records hf).1

theorem Copied.congr {files files' : BlobFiles κ} {job : Job κ}
    (heq : ∀ f ∈ job.inputs, files' f = files f) {w : Rewrite κ} (h : Copied files job w) :
    Copied files' job w := by
  obtain ⟨f, hf, bf, r, hbf, hrest⟩ := h
  exact ⟨f, hf, bf, r, by rw [heq f hf, hbf], hrest⟩

/-- Only its own files matter to a job. -/
theorem JobWf.congr {files files' : BlobFiles κ} {numbers numbers' : List UInt64} {job : Job κ}
    (h : JobWf files numbers job) (heq : ∀ f ∈ job.owns, files' f = files f)
    (hsub : numbers ⊆ numbers') : JobWf files' numbers' job := by
  have hin : ∀ f ∈ job.inputs, files' f = files f := fun f hf => heq f (mem_owns.mpr (Or.inl hf))
  refine ⟨h.inputs_nodup, fun f hf => ?_, h.todo_nodup, fun x hx => ?_, h.todo_installed,
    fun g records hg => ?_, fun w hw => (h.rewrites w hw).congr hin⟩
  · rw [hin f hf]
    exact h.inputs f hf
  · rw [hin x.1 (h.todo x hx).1]
    exact h.todo x hx
  · have hg' := heq g (mem_owns.mpr (Or.inr ⟨records, hg⟩))
    obtain ⟨hnum, hout⟩ := h.output g records hg
    refine ⟨hsub hnum, ?_⟩
    unfold OutputAt at hout ⊢
    rwa [hg']

/-- The inputs of a job stay as they are while it lasts. -/
theorem JobWf.inputs_eq {files files' : BlobFiles κ} {numbers numbers' : List UInt64} {job : Job κ}
    (h : JobWf files numbers job) (h' : JobWf files' numbers' job) (hk : files.Keeps files') :
    ∀ f ∈ job.inputs, files' f = files f := by
  intro f hf
  obtain ⟨bf, hbf, hstate⟩ := h.inputs f hf
  obtain ⟨bf', hbf', hstate'⟩ := h'.inputs f hf
  obtain ⟨bg, hbg, hrec⟩ := hk f bf hbf
  obtain rfl : bg = bf' := Option.some.inj (hbg.symm.trans hbf')
  rw [hbf, hbg]
  cases bf
  cases bg
  simp_all

/-- A step may change one job, and of the files only those that no other job owns. -/
theorem Wf.of_step (h : Wf s) (hnames : ∀ k p, s'.lsm.Holds k (.blobIndex p) → Names s'.files k p)
    (hnum : ∀ f, s'.files f ≠ none → f ∈ s'.numbers) (hsub : s.numbers ⊆ s'.numbers)
    (hjobs : ∀ j job, s'.jobs j = some job →
      (s.jobs j = some job ∧ ∀ f ∈ job.owns, s'.files f = s.files f) ∨
      (JobWf s'.files s'.numbers job ∧
        ∀ i other, i ≠ j → s'.jobs i = some other → ∀ f ∈ job.owns, f ∉ other.owns)) : Wf s' := by
  refine ⟨hnames, hnum, fun j job hj => ?_, fun i j a b hi hj hne f hf hf' => ?_⟩
  · rcases hjobs j job hj with ⟨hold, heq⟩ | ⟨hnew, -⟩
    · exact (h.jobs j job hold).congr heq hsub
    · exact hnew
  · rcases hjobs i a hi with ⟨hai, -⟩ | ⟨-, hdis⟩
    · rcases hjobs j b hj with ⟨hbj, -⟩ | ⟨-, hdis⟩
      · exact h.disjoint i j a b hai hbj hne f hf hf'
      · exact hdis i a hne hi f hf' hf
    · exact hdis j b hne.symm hj f hf hf'

theorem update_jobs_some {jobs : ℕ → Option (Job κ)} {i j : ℕ} {x : Option (Job κ)} {job : Job κ}
    (h : Function.update jobs j x i = some job) :
    (i = j ∧ x = some job) ∨ (i ≠ j ∧ jobs i = some job) := by
  by_cases hi : i = j
  · subst hi
    exact Or.inl ⟨rfl, by simpa using h⟩
  · exact Or.inr ⟨hi, by simpa [hi] using h⟩

/-- A job that goes on with its own files and new ones. -/
theorem Wf.job_step (h : Wf s) {j : ℕ} {job job' : Job κ} (hjob : s.jobs j = some job)
    (hs' : s'.jobs = Function.update s.jobs j (some job'))
    (hnames : ∀ k p, s'.lsm.Holds k (.blobIndex p) → Names s'.files k p)
    (hnum : ∀ f, s'.files f ≠ none → f ∈ s'.numbers) (hsub : s.numbers ⊆ s'.numbers)
    (hwf : JobWf s'.files s'.numbers job')
    (howns : ∀ f ∈ job'.owns, f ∈ job.owns ∨ f ∉ s.numbers)
    (hother : ∀ f, s'.files f ≠ s.files f → f ∈ job.owns) : Wf s' := by
  refine h.of_step hnames hnum hsub fun i other hi => ?_
  rw [hs'] at hi
  rcases update_jobs_some hi with ⟨rfl, hx⟩ | ⟨hne, hold⟩
  · obtain rfl := Option.some.inj hx
    refine Or.inr ⟨hwf, fun i' other' hne hi' f hf hf' => ?_⟩
    rw [hs'] at hi'
    rcases update_jobs_some hi' with ⟨rfl, -⟩ | ⟨-, hold⟩
    · exact hne rfl
    · rcases howns f hf with hf | hf
      · exact h.disjoint _ _ job other' hjob hold hne.symm f hf hf'
      · exact hf ((h.jobs i' other' hold).owns_numbered h.numbered hf')
  · refine Or.inl ⟨hold, fun f hf => ?_⟩
    by_contra hc
    exact h.disjoint i j other job hold hjob hne f hf (hother f hc)

theorem outputs_subset_owns {job : Job κ} {f : UInt64} (h : f ∈ job.outputs) : f ∈ job.owns := by
  unfold Job.outputs at h
  split_ifs at h
  · exact List.mem_append_right _ h
  · cases h

/-- A job that ends touches its own files only. -/
theorem Wf.job_end (h : Wf s) {j : ℕ} {job : Job κ} {files : BlobFiles κ}
    (hjob : s.jobs j = some job) (hk : s.files.Keeps files)
    (hout : ∀ f, f ∉ job.inputs → f ∉ job.outputs → files f = s.files f) :
    Wf { s with files := files, jobs := Function.update s.jobs j none } := by
  have hother : ∀ f, f ∉ job.owns → files f = s.files f := fun f hf =>
    hout f (fun hin => hf (mem_owns.mpr (Or.inl hin))) fun hin => hf (outputs_subset_owns hin)
  refine h.of_step (fun k p hp => (h.names k p hp).mono hk) ?_ (List.Subset.refl _) ?_
  · intro f hf
    by_cases hown : f ∈ job.owns
    · exact (h.jobs j job hjob).owns_numbered h.numbered hown
    · exact h.numbered f (by rwa [← hother f hown])
  · intro i other hi
    rcases update_jobs_some hi with ⟨rfl, hx⟩ | ⟨hne, hold⟩
    · cases hx
    · exact Or.inl ⟨hold, fun f hf => hother f (h.disjoint i j other job hold hjob hne f hf)⟩

end AegonKV.SoftwareGC
