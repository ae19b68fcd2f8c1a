import AegonKV.SoftwareGCWellFormed

/-!
# What a snapshot sees across a step

A read at a sequence number whose versions are kept sees the same entry as before, unless the step
put in an index of a new file or of an output that a job has installed.
-/

namespace AegonKV.SoftwareGC
open LittleEndian AegonKV

variable {κ : Type} {s s' : State κ}

/-- An index, if it is one, that leads to a file no job reads from. -/
def NewIndex (s : State κ) (e : Option LsmEntry) : Prop :=
  ∀ p, e = some (.blobIndex p) → p.fileNumber ∉ s.numbers ∨
    ∃ bf, s.files p.fileNumber = some bf ∧ bf.state = .kPendingGC

theorem NewIndex.not_input (hwf : Wf s) {e : Option LsmEntry} (h : NewIndex s e)
    {p : BlobIndexType} (he : e = some (.blobIndex p)) {j : ℕ} {job : Job κ}
    (hj : s.jobs j = some job) : p.fileNumber ∉ job.inputs := by
  intro hin
  obtain ⟨bf, hbf, hstate⟩ := (hwf.jobs j job hj).inputs _ hin
  rcases h p he with hfresh | ⟨bf', hbf', hstate'⟩
  · exact hfresh (hwf.numbered _ (by simp [hbf]))
  · obtain rfl : bf = bf' := Option.some.inj (hbf.symm.trans hbf')
    simp [hstate] at hstate'

theorem NewIndex.not_obsolete (hwf : Wf s) {e : Option LsmEntry} (h : NewIndex s e)
    {p : BlobIndexType} (he : e = some (.blobIndex p)) : isObsolete s.files p.fileNumber = false := by
  by_contra hc
  obtain ⟨bf, hbf, hstate⟩ := isObsolete_iff.mp (by simpa using hc)
  rcases h p he with hfresh | ⟨bf', hbf', hstate'⟩
  · exact hfresh (hwf.numbered _ (by simp [hbf]))
  · obtain rfl : bf = bf' := Option.some.inj (hbf.symm.trans hbf')
    simp [hstate] at hstate'

section

variable [DecidableEq κ]

omit [DecidableEq κ] in
theorem newIndex_of_not_blob {e : Option LsmEntry} (h : ∀ p, e ≠ some (.blobIndex p)) :
    NewIndex s e := fun p he => absurd he (h p)

theorem view_write (lsm : Lsm κ) (k : κ) (e : LsmEntry) (n : ℕ) (k' : κ) :
    (lsm.write k e).view n k' = lsm.view n k' ∨
      (lsm.lastSequence < n ∧ (lsm.write k e).view n k' = some e) := by
  by_cases hn : n ≤ lsm.lastSequence
  · exact Or.inl (lsm.view_write_of_le hn k k' e)
  · by_cases hk : k' = k
    · subst hk
      exact Or.inr ⟨by omega, lsm.view_write_self (by omega) k' e⟩
    · exact Or.inl (lsm.view_write_other n hk e)

/-- A read at `n` keeps its versions unless a flush drops them. -/
def KeepsView (s : State κ) (n : ℕ) : Action κ → Prop
  | .flush _ _ _ dropped => s.lsm.ShadowedAt dropped n
  | _ => True

theorem keepsView_of_live {a : Action κ} (hstep : SoftwareGC.step s a = some s') {x : ℕ × ℕ}
    (hx : x ∈ s.snapshots) : KeepsView s x.2 a := by
  cases a with
  | flush upto f records dropped => exact (flushStep_cases hstep).2.2.1.2.2 x hx
  | _ => trivial

/-- How the entry a read at `n` sees can change: a new write, or a Value moved to a new file, but
no index that was there. -/
structure ViewChange (s : State κ) (n : ℕ) (k : κ) (e : Option LsmEntry) : Prop where
  newIndex : NewIndex s e
  separated : n ≤ s.lsm.lastSequence → ∀ p, s.lsm.view n k ≠ some (.blobIndex p)

theorem Wf.view_step (h : Wf s) {a : Action κ} (hstep : SoftwareGC.step s a = some s') {n : ℕ}
    (hn : KeepsView s n a) (k : κ) :
    s'.lsm.view n k = s.lsm.view n k ∨ ViewChange s n k (s'.lsm.view n k) := by
  have huser : ∀ k' v, s' = s.userWrite k' v →
      s'.lsm.view n k = s.lsm.view n k ∨ ViewChange s n k (s'.lsm.view n k) := by
    rintro k' v rfl
    refine (view_write s.lsm k' _ n k).imp id fun ⟨hlt, hv⟩ =>
      ⟨newIndex_of_not_blob fun p hp => ?_, fun hle => absurd hlt (by omega)⟩
    cases v <;> cases hv.symm.trans hp
  cases a with
  | put k' v => exact huser k' (some v) (Option.some.inj hstep).symm
  | delete k' => exact huser k' none (Option.some.inj hstep).symm
  | flush upto f records dropped =>
      obtain ⟨-, hsep, -, hrw⟩ := flushStep_cases hstep
      by_cases hindex : ∃ p, s.lsm.view n k = some (.blobIndex p)
      · obtain ⟨p, hp⟩ := hindex
        obtain ⟨-, -, t, -, rfl⟩ := rewriteTables_cases hrw
        exact Or.inl ((Lsm.view_blobIndex_of_separates hsep hn hp).trans hp.symm)
      have hvalue : ∀ p, s.lsm.view n k ≠ some (.blobIndex p) := fun p hp => hindex ⟨p, hp⟩
      rcases h.view_rewriteTables hrw hn k with
        heq | ⟨r, bf, -, -, hnew, hfresh, -⟩ | ⟨p, r, hold, -⟩
      · exact Or.inl heq
      · refine Or.inr ⟨fun p hp => Or.inl ?_, fun _ => hvalue⟩
        rw [hnew] at hp
        obtain rfl := LsmEntry.blobIndex.inj (Option.some.inj hp)
        exact hfresh
      · exact absurd hold (hvalue p)
  | flushCompleted f =>
      obtain ⟨files, -, rfl⟩ := Option.map_eq_some_iff.mp hstep
      exact Or.inl rfl
  | getSnapshot i =>
      obtain ⟨-, rfl⟩ := getSnapshot_cases hstep
      exact Or.inl rfl
  | releaseSnapshot i =>
      obtain rfl := Option.some.inj hstep
      exact Or.inl rfl
  | gcBegin j inputs order useBitmap fallback bits =>
      obtain ⟨-, -, -, files, -, rfl⟩ := gcBeginStep_cases hstep
      exact Or.inl rfl
  | gcRecord j g offset size =>
      obtain ⟨-, job, job', -, -, rfl⟩ := gcRecordStep_cases hstep
      exact Or.inl rfl
  | gcInstall j =>
      obtain ⟨job, -, -, -, ⟨-, rfl⟩ | ⟨g, bf, -, -, rfl⟩⟩ := gcInstallStep_cases hstep
      · exact Or.inl rfl
      · exact Or.inl rfl
  | gcRewrite j =>
      obtain ⟨job, w, rest, hjob, hw, hinst, ⟨-, rfl⟩ | ⟨-, rfl⟩⟩ := gcRewriteStep_cases hstep
      · refine (view_write s.lsm w.key w.entry n k).imp id fun ⟨hlt, hv⟩ =>
          ⟨fun p hp => Or.inr ?_, fun hle => absurd hlt (by omega)⟩
        exact (h.jobs j job hjob).output_state hinst (hw ▸ List.mem_cons_self)
          (Option.some.inj (hv.symm.trans hp))
      · exact Or.inl rfl
  | gcFlushWAL j =>
      obtain ⟨job, -, -, -, -, rfl⟩ := gcFlushWALStep_cases hstep
      exact Or.inl rfl
  | gcDeleteInputs j =>
      obtain ⟨job, -, -, rfl⟩ := gcDeleteInputsStep_cases hstep
      exact Or.inl rfl
  | gcFinish j =>
      obtain ⟨job, files, -, -, -, -, -, rfl⟩ := gcFinishStep_cases hstep
      exact Or.inl rfl
  | gcAbort j =>
      obtain ⟨job, files, -, -, rfl⟩ := gcAbortStep_cases hstep
      exact Or.inl rfl

/-- An index that a read at an assigned sequence number sees stays where it is. -/
theorem Wf.view_blobIndex_step (h : Wf s) {a : Action κ}
    (hstep : SoftwareGC.step s a = some s') {n : ℕ} (hn : KeepsView s n a)
    (hle : n ≤ s.lsm.lastSequence) {k : κ} {p : BlobIndexType}
    (hp : s.lsm.view n k = some (.blobIndex p)) : s'.lsm.view n k = some (.blobIndex p) := by
  rcases h.view_step hstep hn k with heq | hchange
  · rw [heq, hp]
  · exact absurd hp (hchange.separated hle p)

/-! ## Jobs, files and snapshots -/

inductive JobsStep (s s' : State κ) (a : Action κ) : Prop
  | same (h : s'.jobs = s.jobs)
  | starts (i : ℕ) (job' : Job κ) (hnone : s.jobs i = none)
      (h : s'.jobs = Function.update s.jobs i (some job')) (hwal : job'.walFlushed = false)
      (hseq : job'.obsoleteSequence = none)
  | goes (i : ℕ) (job job' : Job κ) (hjob : s.jobs i = some job)
      (h : s'.jobs = Function.update s.jobs i (some job')) (hin : job'.inputs = job.inputs)
      (hwal : job'.walFlushed = job.walFlushed ∨ a = .gcFlushWAL i)
      (hseq : job'.obsoleteSequence = job.obsoleteSequence ∨
        job.walFlushed = true ∧ job'.obsoleteSequence = some s.lsm.lastSequence)
  | ends (i : ℕ) (h : s'.jobs = Function.update s.jobs i none)
      (ha : a = .gcFinish i ∨ a = .gcAbort i)

theorem Wf.jobsStep (h : Wf s) {a : Action κ} (hstep : SoftwareGC.step s a = some s') :
    JobsStep s s' a := by
  cases a with
  | put k v =>
      obtain rfl := Option.some.inj hstep
      exact .same rfl
  | delete k =>
      obtain rfl := Option.some.inj hstep
      exact .same rfl
  | flush upto f records dropped =>
      obtain ⟨-, -, t, ht, rfl⟩ := rewriteTables_cases (flushStep_cases hstep).2.2.2
      exact .same (h.finishTable ht).jobs
  | flushCompleted f =>
      obtain ⟨files, -, rfl⟩ := Option.map_eq_some_iff.mp hstep
      exact .same rfl
  | getSnapshot i =>
      obtain ⟨-, rfl⟩ := getSnapshot_cases hstep
      exact .same rfl
  | releaseSnapshot i =>
      obtain rfl := Option.some.inj hstep
      exact .same rfl
  | gcBegin i inputs order useBitmap fallback bits =>
      obtain ⟨hnone, -, -, files, -, rfl⟩ := gcBeginStep_cases hstep
      exact .starts i _ hnone rfl rfl rfl
  | gcRecord i g offset size =>
      obtain ⟨-, job, job', hjob, hrec, rfl⟩ := gcRecordStep_cases hstep
      obtain ⟨f, r, todo, -, ⟨-, -, rfl⟩ | ⟨-, rfl⟩ | ⟨-, rfl⟩⟩ := Job.record_cases hrec
      · exact .goes i job _ hjob rfl rfl (Or.inl rfl) (Or.inl rfl)
      · exact .goes i job _ hjob rfl rfl (Or.inl rfl) (Or.inl rfl)
      · exact .goes i job _ hjob rfl (by simp) (Or.inl (by simp)) (Or.inl (by simp))
  | gcInstall i =>
      obtain ⟨job, hjob, -, -, ⟨-, rfl⟩ | ⟨g, bf, -, -, rfl⟩⟩ := gcInstallStep_cases hstep
      · exact .goes i job _ hjob rfl rfl (Or.inl rfl) (Or.inl rfl)
      · exact .goes i job _ hjob rfl rfl (Or.inl rfl) (Or.inl rfl)
  | gcRewrite i =>
      obtain ⟨job, w, rest, hjob, -, -, ⟨-, rfl⟩ | ⟨-, rfl⟩⟩ := gcRewriteStep_cases hstep
      · exact .goes i job _ hjob rfl rfl (Or.inl rfl) (Or.inl rfl)
      · exact .goes i job _ hjob rfl rfl (Or.inl rfl) (Or.inl rfl)
  | gcFlushWAL i =>
      obtain ⟨job, hjob, -, -, -, rfl⟩ := gcFlushWALStep_cases hstep
      exact .goes i job _ hjob rfl rfl (Or.inr rfl) (Or.inl rfl)
  | gcDeleteInputs i =>
      obtain ⟨job, hjob, hwal, rfl⟩ := gcDeleteInputsStep_cases hstep
      exact .goes i job _ hjob rfl rfl (Or.inl rfl) (Or.inr ⟨hwal, rfl⟩)
  | gcFinish i =>
      obtain ⟨job, files, -, -, -, -, -, rfl⟩ := gcFinishStep_cases hstep
      exact .ends i rfl (Or.inl rfl)
  | gcAbort i =>
      obtain ⟨job, files, -, -, rfl⟩ := gcAbortStep_cases hstep
      exact .ends i rfl (Or.inr rfl)

/-- Where a job comes from that has flushed the WAL or is about to delete its inputs. -/
structure JobStep (s : State κ) (a : Action κ) (j : ℕ) (job' : Job κ) : Prop where
  inputs : ∀ job, s.jobs j = some job → job'.inputs = job.inputs
  walFlushed : job'.walFlushed = true → ∃ job, s.jobs j = some job ∧
    (job.walFlushed = true ∨ a = .gcFlushWAL j)
  obsoleteSequence : ∀ m, job'.obsoleteSequence = some m → ∃ job, s.jobs j = some job ∧
    (job.obsoleteSequence = some m ∨ job.walFlushed = true ∧ m = s.lsm.lastSequence)

omit [DecidableEq κ] in
theorem JobsStep.jobStep {a : Action κ} (h : JobsStep s s' a) {j : ℕ} {job' : Job κ}
    (hj : s'.jobs j = some job') : JobStep s a j job' := by
  have hsame : s.jobs j = some job' → JobStep s a j job' := by
    intro hold
    refine ⟨fun job hjob => ?_, fun hwal => ⟨job', hold, Or.inl hwal⟩,
      fun m hm => ⟨job', hold, Or.inl hm⟩⟩
    rw [Option.some.inj (hold.symm.trans hjob)]
  cases h with
  | same h => exact hsame (h ▸ hj)
  | starts i new hnone h hwal hseq =>
      rw [h] at hj
      rcases update_jobs_some hj with ⟨rfl, hx⟩ | ⟨-, hold⟩
      · obtain rfl := Option.some.inj hx
        exact ⟨fun job hjob => (by simp [hnone] at hjob), fun hc => (by simp [hwal] at hc),
          fun m hc => (by simp [hseq] at hc)⟩
      · exact hsame hold
  | goes i job new hjob h hin hwal hseq =>
      rw [h] at hj
      rcases update_jobs_some hj with ⟨rfl, hx⟩ | ⟨-, hold⟩
      · obtain rfl := Option.some.inj hx
        refine ⟨fun other hother => ?_, fun hc => ⟨job, hjob, ?_⟩, fun m hm => ⟨job, hjob, ?_⟩⟩
        · rw [hin, Option.some.inj (hjob.symm.trans hother)]
        · rcases hwal with hwal | hwal
          · exact Or.inl (hwal ▸ hc)
          · exact Or.inr hwal
        · rcases hseq with hseq | ⟨hold, hseq⟩
          · exact Or.inl (hseq ▸ hm)
          · exact Or.inr ⟨hold, Option.some.inj (hm.symm.trans hseq)⟩
      · exact hsame hold
  | ends i h ha =>
      rw [h] at hj
      rcases update_jobs_some hj with ⟨-, hx⟩ | ⟨-, hold⟩
      · cases hx
      · exact hsame hold

omit [DecidableEq κ] in
/-- A job goes on with its inputs until it finishes or aborts. -/
theorem JobsStep.kept {a : Action κ} (h : JobsStep s s' a) {j : ℕ} {job : Job κ}
    (hj : s.jobs j = some job) :
    (∃ job', s'.jobs j = some job' ∧ job'.inputs = job.inputs) ∨ a = .gcFinish j ∨
      a = .gcAbort j := by
  cases h with
  | same h => exact Or.inl ⟨job, h ▸ hj, rfl⟩
  | starts i new hnone h hwal hseq =>
      have hne : j ≠ i := by
        rintro rfl
        simp [hnone] at hj
      exact Or.inl ⟨job, by rw [h, Function.update_of_ne hne, hj], rfl⟩
  | goes i old new hjob h hin hwal hseq =>
      by_cases hij : j = i
      · subst hij
        obtain rfl := Option.some.inj (hj.symm.trans hjob)
        exact Or.inl ⟨new, by rw [h, Function.update_self], hin⟩
      · exact Or.inl ⟨job, by rw [h, Function.update_of_ne hij, hj], rfl⟩
  | ends i h ha =>
      by_cases hij : j = i
      · subst hij
        exact Or.inr ha
      · exact Or.inl ⟨job, by rw [h, Function.update_of_ne hij, hj], rfl⟩

omit [DecidableEq κ] in
/-- A number without a file is no number of a job. -/
theorem Wf.not_mem_files (h : Wf s) {j : ℕ} {job : Job κ} (hj : s.jobs j = some job) {f : UInt64}
    (hnone : s.files f = none) : f ∉ job.inputs ∧ f ∉ job.outputs := by
  have hjw := h.jobs j job hj
  constructor
  · intro hin
    obtain ⟨bf, hbf, -⟩ := hjw.inputs f hin
    rw [hnone] at hbf
    cases hbf
  · intro hout
    unfold Job.outputs at hout
    split_ifs at hout with hinst
    · obtain ⟨⟨g, records⟩, hg, rfl⟩ := Option.map_eq_some_iff.mp (Option.mem_toList.mp hout)
      have hat := (hjw.output _ _ hg).2
      simp only [OutputAt, hinst, if_true] at hat
      obtain ⟨bf, hbf, -⟩ := hat
      rw [hnone] at hbf
      cases hbf
    · cases hout

/-- A file appears with the flush that filled it or with the job whose output it is. -/
theorem Wf.new_file (h : Wf s) {a : Action κ} (hstep : SoftwareGC.step s a = some s') {f : UInt64}
    {bf : BlobFile κ} (hnone : s.files f = none) (hf : s'.files f = some bf) :
    (∃ upto records dropped, a = .flush upto f records dropped ∧ records ≠ [] ∧
      bf.records = records.map (·.2)) ∨
    ∃ j job, a = .gcInstall j ∧ s.jobs j = some job ∧ job.output = some (f, bf.records) := by
  have hsame : s'.files f = s.files f → False := by
    intro heq
    rw [heq, hnone] at hf
    cases hf
  have hend : ∀ j job, s.jobs j = some job → (∀ f, f ∉ job.inputs → f ∉ job.outputs →
      s'.files f = s.files f) → False := by
    intro j job hj hother
    obtain ⟨hin, hout⟩ := h.not_mem_files hj hnone
    exact hsame (hother f hin hout)
  cases a with
  | flush upto g records dropped =>
      obtain ⟨-, -, t, ht, rfl⟩ := rewriteTables_cases (flushStep_cases hstep).2.2.2
      rcases finishTable_cases ht with ⟨-, rfl⟩ | ⟨-, bg, hrec, -, rfl⟩
      · exact (hsame rfl).elim
      · by_cases hfg : f = g
        · subst hfg
          obtain rfl : bg = bf := by simpa using hf
          refine Or.inl ⟨upto, records, dropped, rfl, ?_, hrec⟩
          rintro rfl
          simp [State.finishTable] at ht
          have := congrArg (fun u : State κ => u.files f) ht
          simp [hnone] at this
        · exact (hsame (Function.update_of_ne hfg _ _)).elim
  | flushCompleted g =>
      obtain ⟨files, hfiles, rfl⟩ := Option.map_eq_some_iff.mp hstep
      obtain ⟨hother, bg, -, hbg, -⟩ := BlobFiles.transit_apply hfiles
      by_cases hfg : f = g
      · subst hfg
        simp [hnone] at hbg
      · exact (hsame (hother f hfg)).elim
  | gcBegin i inputs order useBitmap fallback bits =>
      obtain ⟨-, hnodup, -, files, hfiles, rfl⟩ := gcBeginStep_cases hstep
      by_cases hin : f ∈ inputs
      · obtain ⟨bg, -, hbg, -⟩ := BlobFiles.transitAll_of_mem hfiles hnodup hin
        simp [hnone] at hbg
      · exact (hsame (BlobFiles.transitAll_of_not_mem hfiles hin)).elim
  | gcInstall j =>
      obtain ⟨job, hjob, -, -, ⟨-, rfl⟩ | ⟨g, bg, hout, -, rfl⟩⟩ := gcInstallStep_cases hstep
      · exact (hsame rfl).elim
      · by_cases hfg : f = g
        · subst hfg
          obtain rfl : bg = bf := by simpa using hf
          exact Or.inr ⟨j, job, rfl, hjob, hout⟩
        · exact (hsame (Function.update_of_ne hfg _ _)).elim
  | gcFinish j =>
      obtain ⟨job, files, hjob, -, -, hother, -, rfl⟩ := gcFinishStep_cases hstep
      exact (hend j job hjob hother).elim
  | gcAbort j =>
      obtain ⟨job, files, hjob, hrel, rfl⟩ := gcAbortStep_cases hstep
      exact (hend j job hjob hrel.outside).elim
  | put k v =>
      obtain rfl := Option.some.inj hstep
      exact (hsame rfl).elim
  | delete k =>
      obtain rfl := Option.some.inj hstep
      exact (hsame rfl).elim
  | getSnapshot i =>
      obtain ⟨-, rfl⟩ := getSnapshot_cases hstep
      exact (hsame rfl).elim
  | releaseSnapshot i =>
      obtain rfl := Option.some.inj hstep
      exact (hsame rfl).elim
  | gcRecord j g offset size =>
      obtain ⟨-, job, job', -, -, rfl⟩ := gcRecordStep_cases hstep
      exact (hsame rfl).elim
  | gcRewrite j =>
      obtain ⟨job, w, rest, -, -, -, ⟨-, rfl⟩ | ⟨-, rfl⟩⟩ := gcRewriteStep_cases hstep
      · exact (hsame rfl).elim
      · exact (hsame rfl).elim
  | gcFlushWAL j =>
      obtain ⟨job, -, -, -, -, rfl⟩ := gcFlushWALStep_cases hstep
      exact (hsame rfl).elim
  | gcDeleteInputs j =>
      obtain ⟨job, -, -, rfl⟩ := gcDeleteInputsStep_cases hstep
      exact (hsame rfl).elim

/-- Which snapshots are live after a step, and how far the sequence numbers got. -/
structure SnapshotStep (s s' : State κ) (a : Action κ) : Prop where
  sequence : s.lsm.lastSequence ≤ s'.lsm.lastSequence
  live : s'.snapshots.Sublist s.snapshots ∨
    ∃ i, s' = { s with snapshots := (i, s.lsm.lastSequence) :: s.snapshots }
  kept : ∀ x ∈ s.snapshots, x ∈ s'.snapshots ∨ a = .releaseSnapshot x.1

omit [DecidableEq κ] in
theorem SnapshotStep.of_eq {a : Action κ} (hseq : s.lsm.lastSequence ≤ s'.lsm.lastSequence)
    (h : s'.snapshots = s.snapshots) : SnapshotStep s s' a :=
  ⟨hseq, Or.inl (h ▸ List.Sublist.refl _), fun _ hx => Or.inl (h ▸ hx)⟩

theorem Wf.snapshotStep (h : Wf s) {a : Action κ} (hstep : SoftwareGC.step s a = some s') :
    SnapshotStep s s' a := by
  cases a with
  | put k v =>
      obtain rfl := Option.some.inj hstep
      exact .of_eq (Nat.le_succ _) rfl
  | delete k =>
      obtain rfl := Option.some.inj hstep
      exact .of_eq (Nat.le_succ _) rfl
  | flush upto f records dropped =>
      obtain ⟨-, -, t, ht, rfl⟩ := rewriteTables_cases (flushStep_cases hstep).2.2.2
      exact .of_eq le_rfl (h.finishTable ht).snapshots
  | flushCompleted f =>
      obtain ⟨files, -, rfl⟩ := Option.map_eq_some_iff.mp hstep
      exact .of_eq le_rfl rfl
  | getSnapshot i =>
      obtain ⟨-, rfl⟩ := getSnapshot_cases hstep
      exact ⟨le_rfl, Or.inr ⟨i, rfl⟩, fun x hx => Or.inl (List.mem_cons_of_mem _ hx)⟩
  | releaseSnapshot i =>
      obtain rfl := Option.some.inj hstep
      refine ⟨le_rfl, Or.inl List.filter_sublist, fun x hx => ?_⟩
      by_cases hi : x.1 = i
      · exact Or.inr (by rw [hi])
      · exact Or.inl (List.mem_filter.mpr ⟨hx, by simpa using hi⟩)
  | gcBegin j inputs order useBitmap fallback bits =>
      obtain ⟨-, -, -, files, -, rfl⟩ := gcBeginStep_cases hstep
      exact .of_eq le_rfl rfl
  | gcRecord j g offset size =>
      obtain ⟨-, job, job', -, -, rfl⟩ := gcRecordStep_cases hstep
      exact .of_eq le_rfl rfl
  | gcInstall j =>
      obtain ⟨job, -, -, -, ⟨-, rfl⟩ | ⟨g, bf, -, -, rfl⟩⟩ := gcInstallStep_cases hstep
      · exact .of_eq le_rfl rfl
      · exact .of_eq le_rfl rfl
  | gcRewrite j =>
      obtain ⟨job, w, rest, -, -, -, ⟨-, rfl⟩ | ⟨-, rfl⟩⟩ := gcRewriteStep_cases hstep
      · exact .of_eq (Nat.le_succ _) rfl
      · exact .of_eq le_rfl rfl
  | gcFlushWAL j =>
      obtain ⟨job, -, -, -, -, rfl⟩ := gcFlushWALStep_cases hstep
      exact .of_eq le_rfl rfl
  | gcDeleteInputs j =>
      obtain ⟨job, -, -, rfl⟩ := gcDeleteInputsStep_cases hstep
      exact .of_eq le_rfl rfl
  | gcFinish j =>
      obtain ⟨job, files, -, -, -, -, -, rfl⟩ := gcFinishStep_cases hstep
      exact .of_eq le_rfl rfl
  | gcAbort j =>
      obtain ⟨job, files, -, -, rfl⟩ := gcAbortStep_cases hstep
      exact .of_eq le_rfl rfl

end

end AegonKV.SoftwareGC
