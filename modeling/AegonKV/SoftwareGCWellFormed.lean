import AegonKV.SoftwareGCFiles
import Mathlib.Data.List.Nodup

/-!
# Every step of software garbage collection keeps the files in order
-/

namespace AegonKV.SoftwareGC
open LittleEndian AegonKV

variable {κ : Type} {s s' : State κ}

/-! ## Jobs -/

theorem Wf.gcAbort (h : Wf s) {j : ℕ} (hstep : s.gcAbortStep j = some s') : Wf s' := by
  obtain ⟨job, files, hjob, hrel, rfl⟩ := gcAbortStep_cases hstep
  exact h.job_end hjob hrel.ages.keeps hrel.outside

theorem Wf.gcFinish (h : Wf s) {j : ℕ} (hstep : s.gcFinishStep j = some s') : Wf s' := by
  obtain ⟨job, files, hjob, -, hk, hout, -, rfl⟩ := gcFinishStep_cases hstep
  exact h.job_end hjob hk.keeps hout

theorem Wf.gcFlushWAL (h : Wf s) {j : ℕ} (hstep : s.gcFlushWALStep j = some s') : Wf s' := by
  obtain ⟨job, hjob, -, -, -, rfl⟩ := gcFlushWALStep_cases hstep
  have hwf := h.jobs j job hjob
  exact h.job_step hjob rfl h.names h.numbered (List.Subset.refl _)
    ⟨hwf.inputs_nodup, hwf.inputs, hwf.todo_nodup, hwf.todo, hwf.todo_installed, hwf.output,
      hwf.rewrites⟩ (fun f hf => Or.inl hf) fun f hf => absurd rfl hf

theorem Wf.gcDeleteInputs (h : Wf s) {j : ℕ} (hstep : s.gcDeleteInputsStep j = some s') :
    Wf s' := by
  obtain ⟨job, hjob, -, rfl⟩ := gcDeleteInputsStep_cases hstep
  have hwf := h.jobs j job hjob
  exact h.job_step hjob rfl h.names h.numbered (List.Subset.refl _)
    ⟨hwf.inputs_nodup, hwf.inputs, hwf.todo_nodup, hwf.todo, hwf.todo_installed, hwf.output,
      hwf.rewrites⟩ (fun f hf => Or.inl hf) fun f hf => absurd rfl hf

theorem Wf.gcInstall (h : Wf s) {j : ℕ} (hstep : s.gcInstallStep j = some s') : Wf s' := by
  obtain ⟨job, hjob, htodo, hinst, ⟨hout, rfl⟩ | ⟨g, bf, hout, hstate, rfl⟩⟩ :=
    gcInstallStep_cases hstep
  · have hwf := h.jobs j job hjob
    exact h.job_step hjob rfl h.names h.numbered (List.Subset.refl _)
      ⟨hwf.inputs_nodup, hwf.inputs, hwf.todo_nodup, hwf.todo, fun _ => htodo,
        fun g records hg => by simp [hout] at hg, hwf.rewrites⟩
      (fun f hf => Or.inl hf) fun f hf => absurd rfl hf
  · have hwf := h.jobs j job hjob
    obtain ⟨hg, hnone⟩ := hwf.output g _ hout
    simp only [OutputAt, hinst, Bool.false_eq_true, if_false] at hnone
    have hk : s.files.Keeps (Function.update s.files g (some bf)) := .update_fresh hnone bf
    have hin : ∀ f ∈ job.inputs, Function.update s.files g (some bf) f = s.files f := by
      intro f hf
      obtain ⟨bf', hbf', -⟩ := hwf.inputs f hf
      refine Function.update_of_ne ?_ _ _
      rintro rfl
      simp [hnone] at hbf'
    refine h.job_step hjob rfl (fun k p hp => (h.names k p hp).mono hk) ?_ (List.Subset.refl _)
      ⟨hwf.inputs_nodup, ?_, hwf.todo_nodup, ?_, fun _ => htodo, ?_, ?_⟩
      (fun f hf => Or.inl hf) ?_
    · intro f hf
      by_cases hfg : f = g
      · exact hfg ▸ hg
      · exact h.numbered f (by simpa [hfg] using hf)
    · intro f hf
      simpa only [hin f hf] using hwf.inputs f hf
    · intro x hx
      simp [htodo] at hx
    · intro g' records hg'
      obtain ⟨rfl, rfl⟩ : g = g' ∧ bf.records = records := by simpa [hout] using hg'
      exact ⟨hg, by simp [OutputAt, hstate]⟩
    · exact fun w hw => (hwf.rewrites w hw).congr hin
    · intro f hf
      by_cases hfg : f = g
      · exact hfg ▸ mem_owns.mpr (Or.inr ⟨_, hout⟩)
      · exact absurd (Function.update_of_ne hfg _ _) hf

/-- The output only grows. -/
theorem Copied.extend {files : BlobFiles κ} {job job' : Job κ} {w : Rewrite κ}
    (h : Copied files job w) (hin : job'.inputs = job.inputs)
    (hout : ∀ number records, job.output = some (number, records) →
      ∃ records', job'.output = some (number, records') ∧ records ⊆ records') :
    Copied files job' w := by
  obtain ⟨f, hf, bf, r, hbf, hr, hkey, hidx, hentry⟩ := h
  refine ⟨f, hin ▸ hf, bf, r, hbf, hr, hkey, hidx, hentry.imp id ?_⟩
  rintro ⟨number, records, copy, ho, hcopy, hrest⟩
  obtain ⟨records', ho', hsub⟩ := hout number records ho
  exact ⟨number, records', copy, ho', hsub hcopy, hrest⟩

/-- The entry of a rewrite names a record of its key once the output is installed. -/
theorem Copied.names {files : BlobFiles κ} {numbers : List UInt64} {job : Job κ} {w : Rewrite κ}
    (h : Copied files job w) (hwf : JobWf files numbers job) (hi : job.installed = true)
    {p : BlobIndexType} (hp : w.entry = .blobIndex p) :
    Names files w.key p ∧ ∃ records, job.output = some (p.fileNumber, records) := by
  obtain ⟨f, -, bf, r, -, -, hkey, -, hval | ⟨number, records, copy, ho, hcopy, hck, -, hentry⟩⟩ := h
  · rw [hval] at hp
    cases hp
  · rw [hentry] at hp
    obtain rfl := LsmEntry.blobIndex.inj hp
    have hout := (hwf.output number records ho).2
    simp only [OutputAt, hi, if_true] at hout
    obtain ⟨bg, hbg, rfl, -⟩ := hout
    exact ⟨⟨bg, copy, hbg, hcopy, hck.trans hkey.symm, rfl⟩, _, ho⟩

theorem JobWf.output_state {files : BlobFiles κ} {numbers : List UInt64} {job : Job κ}
    (h : JobWf files numbers job) (hi : job.installed = true) {w : Rewrite κ}
    (hw : w ∈ job.rewriteBatches) {p : BlobIndexType} (hp : w.entry = .blobIndex p) :
    ∃ bf, files p.fileNumber = some bf ∧ bf.state = .kPendingGC := by
  obtain ⟨-, records, ho⟩ := (h.rewrites w hw).names h hi hp
  have hout := (h.output _ _ ho).2
  simp only [OutputAt, hi, if_true] at hout
  obtain ⟨bg, hbg, -, hstate⟩ := hout
  exact ⟨bg, hbg, hstate⟩

theorem mem_fileRecords {files : BlobFiles κ} {f : UInt64} {x : UInt64 × BlobRec κ} :
    x ∈ fileRecords files f ↔ x.1 = f ∧ ∃ bf, files x.1 = some bf ∧ x.2 ∈ bf.records := by
  constructor
  · intro hx
    cases hbf : files f with
    | none => simp [fileRecords, hbf] at hx
    | some bf =>
        simp only [fileRecords, hbf, List.mem_map] at hx
        obtain ⟨r, hr, rfl⟩ := hx
        exact ⟨rfl, bf, hbf, hr⟩
  · rintro ⟨rfl, bf, hbf, hr⟩
    simp only [fileRecords, hbf, List.mem_map]
    exact ⟨x.2, hr, rfl⟩

theorem mem_inputRecords {files : BlobFiles κ} {inputs : List UInt64} {x : UInt64 × BlobRec κ} :
    x ∈ inputRecords files inputs ↔
      x.1 ∈ inputs ∧ ∃ bf, files x.1 = some bf ∧ x.2 ∈ bf.records := by
  simp only [inputRecords, List.mem_flatMap, mem_fileRecords]
  constructor
  · rintro ⟨f, hf, rfl, hx⟩
    exact ⟨hf, hx⟩
  · rintro ⟨hf, hx⟩
    exact ⟨x.1, hf, rfl, hx⟩

theorem nodup_inputRecords {files : BlobFiles κ} {inputs : List UInt64} (h : inputs.Nodup) :
    (inputRecords files inputs).Nodup := by
  rw [inputRecords, List.nodup_flatMap]
  constructor
  · intro f _
    unfold fileRecords
    split
    · exact List.nodup_nil
    · rename_i bf _
      have hn : bf.records.Nodup := bf.offsets_nodup.of_map _
      exact hn.map fun a b hab => (Prod.mk.inj hab).2
  · refine h.imp fun {f g} hne x hx hx' => ?_
    exact hne ((mem_fileRecords.mp hx).1.symm.trans (mem_fileRecords.mp hx').1)

section

variable [DecidableEq κ]

theorem Wf.userWrite (h : Wf s) (k : κ) (v : Option Bytes) : Wf (s.userWrite k v) := by
  refine h.of_step (fun k' p hp => ?_) h.numbered (List.Subset.refl _)
    fun j job hj => Or.inl ⟨hj, fun _ _ => rfl⟩
  obtain ⟨u, hu, hentry⟩ := hp
  rcases Lsm.mem_versions_write hu with ⟨-, rfl⟩ | hu
  · cases v <;> cases hentry
  · exact h.names k' p ⟨u, hu, hentry⟩

theorem Wf.gcRewrite (h : Wf s) {j : ℕ} (hstep : s.gcRewriteStep j = some s') : Wf s' := by
  obtain ⟨job, w, rest, hjob, hw, hinst, ⟨-, rfl⟩ | ⟨-, rfl⟩⟩ := gcRewriteStep_cases hstep
  all_goals
    have hwf := h.jobs j job hjob
    have hrest : ∀ u ∈ rest, Copied s.files job u := fun u hu =>
      hwf.rewrites u (hw ▸ List.mem_cons_of_mem _ hu)
    refine h.job_step hjob rfl ?_ h.numbered (List.Subset.refl _)
      ⟨hwf.inputs_nodup, hwf.inputs, hwf.todo_nodup, hwf.todo, hwf.todo_installed, hwf.output,
        hrest⟩ (fun f hf => Or.inl hf) fun f hf => absurd rfl hf
  · rintro k p ⟨v, hv, hentry⟩
    rcases Lsm.mem_versions_write hv with ⟨rfl, rfl⟩ | hv
    · exact ((hwf.rewrites w (hw ▸ List.mem_cons_self)).names hwf hinst hentry).1
    · exact h.names k p ⟨v, hv, hentry⟩
  · exact h.names

theorem Wf.gcBegin (h : Wf s) {j : ℕ} {inputs : List UInt64} {order : List (UInt64 × BlobRec κ)}
    {useBitmap fallback : Bool} {bits : UInt64 → UInt64 → Bool}
    (hstep : s.gcBeginStep j inputs order useBitmap fallback bits = some s') : Wf s' := by
  obtain ⟨-, hnodup, hperm, files, hfiles, rfl⟩ := gcBeginStep_cases hstep
  have hk : s.files.Keeps files := .transitAll hfiles
  have hin : ∀ f ∈ inputs, ∃ bf, s.files f = some bf ∧ bf.state = .kNormal ∧
      files f = some { bf with state := .kBeingGC } := by
    intro f hf
    obtain ⟨bf, state, hbf, hstate, hf'⟩ := BlobFiles.transitAll_of_mem hfiles hnodup hf
    simp only [fileStateTransit] at hstate
    split_ifs at hstate with hnormal
    exact ⟨bf, hbf, hnormal, by rw [hf', ← Option.some.inj hstate]⟩
  have hother : ∀ i other, s.jobs i = some other → ∀ f ∈ other.owns, f ∉ inputs := by
    intro i other hi f hf hf'
    obtain ⟨bf, hbf, hnormal, -⟩ := hin f hf'
    rcases (h.jobs i other hi).owns_state hf with hnone | ⟨bf', hbf', hstate⟩
    · simp [hnone] at hbf
    · obtain rfl : bf = bf' := Option.some.inj (hbf.symm.trans hbf')
      rcases hstate with hstate | hstate <;> simp [hnormal] at hstate
  have howns : ∀ f, f ∈ (Job.start inputs order useBitmap fallback bits).owns ↔ f ∈ inputs := by
    intro f
    simp [mem_owns, Job.start]
  refine h.of_step (fun k p hp => (h.names k p hp).mono hk) ?_ (List.Subset.refl _) ?_
  · intro f hf
    by_cases hfi : f ∈ inputs
    · obtain ⟨bf, hbf, -⟩ := hin f hfi
      exact h.numbered f (by simp [hbf])
    · exact h.numbered f (by rwa [← BlobFiles.transitAll_of_not_mem hfiles hfi])
  · intro i job hi
    rcases update_jobs_some hi with ⟨rfl, hx⟩ | ⟨-, hold⟩
    · obtain rfl := Option.some.inj hx
      refine Or.inr ⟨⟨hnodup, ?_, ?_, ?_, ?_, ?_, ?_⟩, ?_⟩
      · intro f hf
        obtain ⟨bf, -, -, hf'⟩ := hin f hf
        exact ⟨_, hf', rfl⟩
      · exact hperm.nodup_iff.mpr (nodup_inputRecords hnodup)
      · intro x hx
        obtain ⟨hx1, bf, hbf, hx2⟩ := mem_inputRecords.mp (hperm.mem_iff.mp hx)
        obtain ⟨bf', hbf', hrec⟩ := hk _ bf hbf
        exact ⟨hx1, bf', hbf', hrec ▸ hx2⟩
      · simp [Job.start]
      · simp [Job.start]
      · simp [Job.start]
      · intro i' other hne hi' f hf
        rcases update_jobs_some hi' with ⟨rfl, -⟩ | ⟨-, hold⟩
        · exact absurd rfl hne
        · exact fun hf' => hother i' other hold f hf' ((howns f).mp hf)
    · exact Or.inl ⟨hold, fun f hf =>
        BlobFiles.transitAll_of_not_mem hfiles (hother i job hold f hf)⟩

omit [DecidableEq κ] in
/-- What a job carries on with after one more record. -/
theorem JobWf.keep {files : BlobFiles κ} {numbers numbers' : List UInt64} {job : Job κ}
    {f : UInt64} {r : BlobRec κ} {g offset size : UInt64} (h : JobWf files numbers job)
    (hinst : job.installed = false) (hf : f ∈ job.inputs) {bf : BlobFile κ}
    (hbf : files f = some bf) (hr : r ∈ bf.records) (hg : files g = none)
    (hsub : numbers ⊆ numbers')
    (hnum : job.output = none → (job.keep f r g offset size).output.isSome → g ∈ numbers') :
    JobWf files numbers' (job.keep f r g offset size) := by
  rcases job.keep_cases f r g offset size with hk | ⟨number, records, copy, ho, hck, hcv, -, hk⟩
  · rw [hk]
    refine ⟨h.inputs_nodup, h.inputs, h.todo_nodup, h.todo, h.todo_installed,
      fun g' records hg' => (h.output g' records hg').imp (fun hn => hsub hn) id, ?_⟩
    intro w hw
    rcases List.mem_append.mp hw with hw | hw
    · exact h.rewrites w hw
    · obtain rfl := List.mem_singleton.mp hw
      exact ⟨f, hf, bf, r, hbf, hr, rfl, rfl, Or.inl rfl⟩
  · have hold : ∀ number' records', job.output = some (number', records') →
        number' = number ∧ records' = records := by
      intro number' records' ho'
      rw [ho', Option.getD_some] at ho
      exact Prod.mk.inj ho
    rw [hk] at hnum ⊢
    refine ⟨h.inputs_nodup, h.inputs, h.todo_nodup, h.todo, h.todo_installed, ?_, ?_⟩
    · intro g' records' hg'
      obtain ⟨rfl, -⟩ : number = g' ∧ _ := by simpa using hg'
      simp only [OutputAt, hinst, Bool.false_eq_true, if_false]
      cases hout : job.output with
      | none =>
          obtain ⟨rfl, -⟩ : g = number ∧ _ := by simpa [hout] using ho
          exact ⟨hnum hout rfl, hg⟩
      | some x =>
          obtain ⟨rfl, -⟩ := hold x.1 x.2 hout
          have := h.output x.1 x.2 hout
          simp only [OutputAt, hinst, Bool.false_eq_true, if_false] at this
          exact ⟨hsub this.1, this.2⟩
    · intro w hw
      rcases List.mem_append.mp hw with hw | hw
      · refine (h.rewrites w hw).extend rfl fun number' records' ho' => ?_
        obtain ⟨rfl, rfl⟩ := hold number' records' ho'
        exact ⟨_, rfl, List.subset_append_left _ _⟩
      · obtain rfl := List.mem_singleton.mp hw
        exact ⟨f, hf, bf, r, hbf, hr, rfl, rfl, Or.inr ⟨number, _, copy, rfl, by simp, hck, hcv, rfl⟩⟩

theorem Wf.gcRecord (h : Wf s) {j : ℕ} {g offset size : UInt64}
    (hstep : s.gcRecordStep j g offset size = some s') : Wf s' := by
  obtain ⟨hg, job, job', hjob, hrec, rfl⟩ := gcRecordStep_cases hstep
  have hwf := h.jobs j job hjob
  have hnone : s.files g = none := by
    by_contra hc
    exact hg (h.numbered g hc)
  have hsub : s.numbers ⊆
      if job.output.isNone ∧ job'.output.isSome then g :: s.numbers else s.numbers := by
    split_ifs
    · exact List.subset_cons_self _ _
    · exact List.Subset.refl _
  obtain ⟨f, r, todo, htodo, hcases⟩ := Job.record_cases hrec
  have hx := hwf.todo (f, r) (htodo ▸ List.mem_cons_self)
  obtain ⟨hf, bf, hbf, hr⟩ := hx
  have hinst : job.installed = false := by
    by_contra hc
    simp [hwf.todo_installed (by simpa using hc)] at htodo
  have hskip : ∀ lastKey lastKeyIsFresh, JobWf s.files s.numbers
      { job with todo := todo, lastKey := lastKey, lastKeyIsFresh := lastKeyIsFresh } := by
    intro lastKey lastKeyIsFresh
    have hn := hwf.todo_nodup
    rw [htodo] at hn
    exact ⟨hwf.inputs_nodup, hwf.inputs, hn.of_cons,
      fun x hx => hwf.todo x (htodo ▸ List.mem_cons_of_mem _ hx), by simp [hinst], hwf.output,
      hwf.rewrites⟩
  have hjob' : JobWf s.files
      (if job.output.isNone ∧ job'.output.isSome then g :: s.numbers else s.numbers) job' := by
    rcases hcases with ⟨-, -, rfl⟩ | ⟨-, rfl⟩ | ⟨-, rfl⟩
    · exact (hskip _ _).congr (fun _ _ => rfl) hsub
    · exact (hskip _ _).congr (fun _ _ => rfl) hsub
    · refine (hskip _ _).keep hinst hf hbf hr hnone hsub fun hout hsome => ?_
      simp only [Option.isNone_iff_eq_none]
      rw [if_pos ⟨hout, hsome⟩]
      exact List.mem_cons_self
  have hin : job'.inputs = job.inputs ∧ ∀ f' records, job'.output = some (f', records) →
      f' = g ∨ ∃ records', job.output = some (f', records') := by
    rcases hcases with ⟨-, -, rfl⟩ | ⟨-, rfl⟩ | ⟨-, rfl⟩
    · exact ⟨rfl, fun f' records ho => Or.inr ⟨records, ho⟩⟩
    · exact ⟨rfl, fun f' records ho => Or.inr ⟨records, ho⟩⟩
    · refine ⟨Job.keep_inputs _ _ _ _ _ _, fun f' records ho => ?_⟩
      have := Job.keep_output _ _ _ _ _ _ ho
      exact this
  refine h.job_step hjob rfl h.names (fun f hf => hsub (h.numbered f hf)) hsub hjob' ?_
    fun f hf => absurd rfl hf
  intro f' hf'
  rcases mem_owns.mp hf' with hf' | ⟨records, hf'⟩
  · exact Or.inl (mem_owns.mpr (Or.inl (hin.1 ▸ hf')))
  · rcases hin.2 f' records hf' with rfl | hold
    · exact Or.inr hg
    · exact Or.inl (mem_owns.mpr (Or.inr hold))

/-! ## Flushes -/

/-- What a table builder's blob file adds to a well-formed state. -/
structure Finished (s t : State κ) (f : UInt64) (records : List (BlobRec κ)) : Prop where
  keeps : s.files.Keeps t.files
  stored : ∀ r ∈ records, f ∉ s.numbers ∧
    ∃ bf, t.files f = some bf ∧ bf.state = .kPendingLSM ∧ r ∈ bf.records
  files : ∀ g ∈ s.numbers, t.files g = s.files g
  numbers : s.numbers ⊆ t.numbers
  numbered : ∀ g, t.files g ≠ none → g ∈ t.numbers
  lsm : t.lsm = s.lsm
  jobs : t.jobs = s.jobs
  snapshots : t.snapshots = s.snapshots
  lastWrite : t.lastWrite = s.lastWrite

omit [DecidableEq κ] in
theorem Wf.finishTable (h : Wf s) {t : State κ} {f : UInt64} {records : List (BlobRec κ)}
    (hstep : s.finishTable f records = some t) : Finished s t f records := by
  rcases finishTable_cases hstep with ⟨rfl, rfl⟩ | ⟨hf, bf, rfl, hstate, rfl⟩
  · exact ⟨.refl _, by simp, fun _ _ => rfl, List.Subset.refl _, h.numbered,
      rfl, rfl, rfl, rfl⟩
  · have hnone : s.files f = none := by
      by_contra hc
      exact hf (h.numbered f hc)
    refine ⟨.update_fresh hnone bf, fun r hr => ⟨hf, bf, Function.update_self _ _ _, hstate, hr⟩,
      fun g hg => ?_, List.subset_cons_self _ _, fun g hg => ?_, rfl, rfl, rfl, rfl⟩
    · have hne : g ≠ f := fun heq => hf (heq ▸ hg)
      exact Function.update_of_ne hne _ _
    · by_cases hgf : g = f
      · exact hgf ▸ List.mem_cons_self
      · exact List.mem_cons_of_mem _ (h.numbered g (by simpa [hgf] using hg))

theorem Wf.rewriteTables (h : Wf s) {f : UInt64} {records : List (ℕ × BlobRec κ)}
    {inlined dropped : List (κ × ℕ)}
    (hstep : s.rewriteTables f records inlined dropped = some s') : Wf s' := by
  obtain ⟨hcopies, -, t, ht, rfl⟩ := rewriteTables_cases hstep
  have hfin := h.finishTable ht
  refine h.of_step ?_ hfin.numbered hfin.numbers fun j job hj => ?_
  · rintro k p ⟨v, hv, hentry⟩
    obtain ⟨u, hu, -, rfl⟩ := Lsm.mem_versions_rewriteTables hv
    have hadded := Lsm.added_tableAdd f inlined hcopies hu
    rw [hentry] at hadded
    generalize hold : u.entry = e at hadded
    cases hadded with
    | same => exact (h.names k p ⟨u, hu, hold⟩).mono hfin.keeps
    | copied x hx hkey hvalue =>
        obtain ⟨-, bf, hbf, -, hr⟩ := hfin.stored x.2 (List.mem_map_of_mem hx)
        exact ⟨bf, x.2, hbf, hr, hkey, rfl⟩
  · have hj : s.jobs j = some job := hfin.jobs ▸ hj
    exact Or.inl ⟨hj, fun g hg => hfin.files g ((h.jobs j job hj).owns_numbered h.numbered hg)⟩

/-- What a read sees after a rewrite of the tables that keeps its versions: the same entry, the
index of a record in the new file, or the value that its index led to. -/
inductive ViewRewritten (s s' : State κ) (f : UInt64) (n : ℕ) (k : κ) : Prop
  | same (h : s'.lsm.view n k = s.lsm.view n k)
  | copied (r : BlobRec κ) (bf : BlobFile κ) (hkey : r.key = k)
      (hold : resolveEntry s.files (s.lsm.view n k) = some r.value)
      (hnew : s'.lsm.view n k = some (.blobIndex (pointerTo f r))) (hfresh : f ∉ s.numbers)
      (hbf : s'.files f = some bf) (hstate : bf.state = .kPendingLSM) (hr : r ∈ bf.records)
  | inlined (p : BlobIndexType) (r : BlobRec κ) (hold : s.lsm.view n k = some (.blobIndex p))
      (hr : s.files.read p = some r) (hnew : s'.lsm.view n k = some (.value r.value))

theorem Wf.view_rewriteTables (h : Wf s) {f : UInt64} {records : List (ℕ × BlobRec κ)}
    {inlined dropped : List (κ × ℕ)}
    (hstep : s.rewriteTables f records inlined dropped = some s') {n : ℕ}
    (hd : s.lsm.ShadowedAt dropped n) (k : κ) : ViewRewritten s s' f n k := by
  obtain ⟨hcopies, -, t, ht, rfl⟩ := rewriteTables_cases hstep
  have hfin := h.finishTable ht
  rcases Lsm.view_rewriteTables f inlined hcopies hd k with
    ⟨hnone, hnone'⟩ | ⟨e, e', he, he', hadded⟩
  · exact .same (hnone'.trans hnone.symm)
  cases hadded with
  | same => exact .same (he'.trans he.symm)
  | copied x hx hkey hvalue =>
      obtain ⟨hfresh, bf, hbf, hstate, hr⟩ := hfin.stored x.2 (List.mem_map_of_mem hx)
      refine .copied x.2 bf hkey ?_ he' hfresh hbf hstate hr
      rw [he, resolveEntry_some, hvalue]
  | inlined p r hp hr => exact .inlined p r (hp ▸ he) hr he'

omit [DecidableEq κ] in
/-- Life-cycle events of files that no job owns. -/
theorem Wf.files_step (h : Wf s) {files : BlobFiles κ} {event : FileEvent} {f : UInt64}
    (hfiles : s.files.transit event f = some files)
    (hown : ∀ j job, s.jobs j = some job → f ∈ job.owns → files f = s.files f) :
    Wf { s with files := files } := by
  obtain ⟨hother, bf, state, hbf, -⟩ := BlobFiles.transit_apply hfiles
  refine h.of_step (fun k p hp => (h.names k p hp).mono (.transit hfiles)) ?_ (List.Subset.refl _) ?_
  · intro g hg
    by_cases hgf : g = f
    · exact h.numbered g (by simp [hgf, hbf])
    · exact h.numbered g (by rwa [← hother g hgf])
  · intro j job hj
    refine Or.inl ⟨hj, fun g hg => ?_⟩
    by_cases hgf : g = f
    · subst hgf
      exact hown j job hj hg
    · exact hother g hgf

omit [DecidableEq κ] in
/-- A file that a job owns is not waiting for its flush. -/
theorem Wf.flushCompleted (h : Wf s) {f : UInt64} {files : BlobFiles κ}
    (hfiles : s.files.transit .kFlushCompleted f = some files) : Wf { s with files := files } := by
  obtain ⟨-, bf, state, hbf, hstate, hf'⟩ := BlobFiles.transit_apply hfiles
  refine h.files_step hfiles fun j job hj hf => ?_
  rcases (h.jobs j job hj).owns_state hf with hnone | ⟨bf', hbf', hs⟩
  · simp [hnone] at hbf
  · obtain rfl : bf = bf' := Option.some.inj (hbf.symm.trans hbf')
    have : state = bf.state := by
      rcases hs with hs | hs <;> simpa [hs, fileStateTransit] using hstate.symm
    rw [hf', hbf, this]

/-- Well-formedness is kept by every step. -/
theorem Wf.step (h : Wf s) {a : Action κ} (hstep : step s a = some s') : Wf s' := by
  cases a with
  | put k v =>
      obtain rfl := Option.some.inj hstep
      exact h.userWrite k (some v)
  | delete k =>
      obtain rfl := Option.some.inj hstep
      exact h.userWrite k none
  | flush upto f records dropped => exact h.rewriteTables (flushStep_cases hstep).2.2.2
  | flushCompleted f =>
      obtain ⟨files, hfiles, rfl⟩ := Option.map_eq_some_iff.mp hstep
      exact h.flushCompleted hfiles
  | getSnapshot i =>
      obtain ⟨-, rfl⟩ := getSnapshot_cases hstep
      exact ⟨h.names, h.numbered, h.jobs, h.disjoint⟩
  | releaseSnapshot i =>
      obtain rfl := Option.some.inj hstep
      exact ⟨h.names, h.numbered, h.jobs, h.disjoint⟩
  | gcBegin j inputs order useBitmap fallback bits => exact h.gcBegin hstep
  | gcRecord j g offset size => exact h.gcRecord hstep
  | gcInstall j => exact h.gcInstall hstep
  | gcRewrite j => exact h.gcRewrite hstep
  | gcFlushWAL j => exact h.gcFlushWAL hstep
  | gcDeleteInputs j => exact h.gcDeleteInputs hstep
  | gcFinish j => exact h.gcFinish hstep
  | gcAbort j => exact h.gcAbort hstep

theorem Wf.ages_rewriteTables (h : Wf s) {f : UInt64} {records : List (ℕ × BlobRec κ)}
    {inlined dropped : List (κ × ℕ)}
    (hstep : s.rewriteTables f records inlined dropped = some s') : Ages s.files s'.files := by
  obtain ⟨-, -, t, ht, rfl⟩ := rewriteTables_cases hstep
  exact .of_eq fun g hg => (h.finishTable ht).files g (h.numbered g hg)

/-- No step loses a file or a record. -/
theorem Wf.ages (h : Wf s) {a : Action κ} (hstep : SoftwareGC.step s a = some s') :
    Ages s.files s'.files := by
  cases a with
  | put k v =>
      obtain rfl := Option.some.inj hstep
      exact .refl _
  | delete k =>
      obtain rfl := Option.some.inj hstep
      exact .refl _
  | flush upto f records dropped => exact h.ages_rewriteTables (flushStep_cases hstep).2.2.2
  | flushCompleted f =>
      obtain ⟨files, hfiles, rfl⟩ := Option.map_eq_some_iff.mp hstep
      exact .transit hfiles (by decide) (by decide)
  | getSnapshot i =>
      obtain ⟨-, rfl⟩ := getSnapshot_cases hstep
      exact .refl _
  | releaseSnapshot i =>
      obtain rfl := Option.some.inj hstep
      exact .refl _
  | gcBegin j inputs order useBitmap fallback bits =>
      obtain ⟨-, -, -, files, hfiles, rfl⟩ := gcBeginStep_cases hstep
      exact .transitAll hfiles (by decide) (by decide)
  | gcRecord j g offset size =>
      obtain ⟨-, job, job', -, -, rfl⟩ := gcRecordStep_cases hstep
      exact .refl _
  | gcInstall j =>
      obtain ⟨job, hjob, -, hinst, ⟨-, rfl⟩ | ⟨g, bf, hout, -, rfl⟩⟩ := gcInstallStep_cases hstep
      · exact .refl _
      · have hnone := ((h.jobs j job hjob).output g _ hout).2
        simp only [OutputAt, hinst, Bool.false_eq_true, if_false] at hnone
        refine .of_eq fun f hf => Function.update_of_ne ?_ _ _
        rintro rfl
        exact hf hnone
  | gcRewrite j =>
      obtain ⟨job, w, rest, -, -, -, ⟨-, rfl⟩ | ⟨-, rfl⟩⟩ := gcRewriteStep_cases hstep
      · exact .refl _
      · exact .refl _
  | gcFlushWAL j =>
      obtain ⟨job, -, -, -, -, rfl⟩ := gcFlushWALStep_cases hstep
      exact .refl _
  | gcDeleteInputs j =>
      obtain ⟨job, -, -, rfl⟩ := gcDeleteInputsStep_cases hstep
      exact .refl _
  | gcFinish j =>
      obtain ⟨job, files, -, -, hages, -, -, rfl⟩ := gcFinishStep_cases hstep
      exact hages
  | gcAbort j =>
      obtain ⟨job, files, -, hrel, rfl⟩ := gcAbortStep_cases hstep
      exact hrel.ages

theorem Wf.keeps (h : Wf s) {a : Action κ} (hstep : SoftwareGC.step s a = some s') :
    s.files.Keeps s'.files :=
  (h.ages hstep).keeps

end

end AegonKV.SoftwareGC
