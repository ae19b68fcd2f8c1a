import AegonKV.SoftwareGC

/-!
# What one step of software garbage collection can do

One lemma for each action, guards included.
-/

namespace AegonKV.SoftwareGC
open LittleEndian AegonKV

variable {κ : Type} {s s' : State κ} {j : ℕ}

/-! ## Life-cycle events -/

theorem fileStateTransit_obsolete {state state' : FileState} {event : FileEvent}
    (h : fileStateTransit state event = some state') (hd : event ≠ .kDelete)
    (hr : event ≠ .kReset) : state' = .kObsolete ↔ state = .kObsolete := by
  cases event <;> cases state <;> simp_all [fileStateTransit] <;> simp [← h]

theorem isObsolete_iff {files : BlobFiles κ} {f : UInt64} :
    isObsolete files f = true ↔ ∃ bf, files f = some bf ∧ bf.state = .kObsolete := by
  cases hf : files f <;> simp [isObsolete, hf]

theorem isObsolete_of_state {files : BlobFiles κ} {f : UInt64} {bf : BlobFile κ}
    (hf : files f = some bf) (hstate : bf.state ≠ .kObsolete) : isObsolete files f = false := by
  simp [isObsolete, hf, hstate]

theorem isObsolete_transit {files files' : BlobFiles κ} {event : FileEvent} {f : UInt64}
    (h : files.transit event f = some files') (hd : event ≠ .kDelete) (hr : event ≠ .kReset)
    (g : UInt64) : isObsolete files' g = isObsolete files g := by
  obtain ⟨hother, bf, state, hf, hstate, hf'⟩ := BlobFiles.transit_apply h
  by_cases hg : g = f
  · subst hg
    simp [isObsolete, hf, hf', fileStateTransit_obsolete hstate hd hr]
  · simp only [isObsolete, hother g hg]

theorem isObsolete_transitAll {event : FileEvent} {fs : List UInt64} {files files' : BlobFiles κ}
    (h : files.transitAll event fs = some files') (hd : event ≠ .kDelete) (hr : event ≠ .kReset)
    (g : UInt64) : isObsolete files' g = isObsolete files g := by
  induction fs generalizing files with
  | nil =>
      obtain rfl := Option.some.inj h
      rfl
  | cons f fs ih =>
      obtain ⟨mid, hmid, hrest⟩ := BlobFiles.transitAll_cons h
      rw [ih hrest, isObsolete_transit hmid hd hr]

theorem isObsolete_delete {fs : List UInt64} {files files' : BlobFiles κ}
    (h : files.transitAll .kDelete fs = some files') (g : UInt64) :
    isObsolete files' g = true ↔ g ∈ fs ∨ isObsolete files g = true := by
  induction fs generalizing files with
  | nil =>
      obtain rfl := Option.some.inj h
      simp
  | cons f fs ih =>
      obtain ⟨mid, hmid, hrest⟩ := BlobFiles.transitAll_cons h
      obtain ⟨hother, bf, state, hf, hstate, hf'⟩ := BlobFiles.transit_apply hmid
      have hmidg : isObsolete mid g = true ↔ g = f ∨ isObsolete files g = true := by
        by_cases hg : g = f
        · subst hg
          have : state = .kObsolete := by
            simp only [fileStateTransit] at hstate
            split_ifs at hstate
            exact (Option.some.inj hstate).symm
          simp [isObsolete, hf', this]
        · simp [isObsolete, hother g hg, hg]
      rw [ih hrest, hmidg, List.mem_cons]
      tauto

/-- Files stay, with their records; obsolete files stay obsolete, and none becomes the output of a
job once it exists. -/
def Ages (files files' : BlobFiles κ) : Prop :=
  ∀ f bf, files f = some bf → ∃ bf', files' f = some bf' ∧ bf'.records = bf.records ∧
    (bf.state = .kObsolete → bf'.state = .kObsolete) ∧
    (bf'.state = .kPendingGC → bf.state = .kPendingGC)

theorem Ages.refl (files : BlobFiles κ) : Ages files files :=
  fun _ bf hf => ⟨bf, hf, rfl, id, id⟩

theorem Ages.keeps {files files' : BlobFiles κ} (h : Ages files files') : files.Keeps files' := by
  intro f bf hf
  obtain ⟨bf', hf', hrec, -⟩ := h f bf hf
  exact ⟨bf', hf', hrec⟩

theorem Ages.trans {files mid files' : BlobFiles κ} (h : Ages files mid) (h' : Ages mid files') :
    Ages files files' := by
  intro f bf hf
  obtain ⟨bf', hf', hrec, hob, hgc⟩ := h f bf hf
  obtain ⟨bf'', hf'', hrec', hob', hgc'⟩ := h' f bf' hf'
  exact ⟨bf'', hf'', hrec'.trans hrec, hob' ∘ hob, hgc ∘ hgc'⟩

theorem Ages.of_eq {files files' : BlobFiles κ}
    (h : ∀ f, files f ≠ none → files' f = files f) : Ages files files' :=
  fun f bf hf => ⟨bf, by rw [h f (by simp [hf]), hf], rfl, id, id⟩

theorem fileStateTransit_pendingGC {state state' : FileState} {event : FileEvent}
    (h : fileStateTransit state event = some state') (he : event ≠ .kGCOutput)
    (hs : state' = .kPendingGC) : state = .kPendingGC := by
  cases event <;> cases state <;> simp_all [fileStateTransit]

theorem fileStateTransit_of_obsolete {state' : FileState} {event : FileEvent}
    (h : fileStateTransit .kObsolete event = some state') (hr : event ≠ .kReset) :
    state' = .kObsolete := by
  cases event <;> simp_all [fileStateTransit]

theorem Ages.transit {files files' : BlobFiles κ} {event : FileEvent} {f : UInt64}
    (h : files.transit event f = some files') (he : event ≠ .kGCOutput) (hr : event ≠ .kReset) :
    Ages files files' := by
  intro g bg hg
  obtain ⟨hother, bf, state, hf, hstate, hf'⟩ := BlobFiles.transit_apply h
  by_cases hne : g = f
  · subst hne
    obtain rfl : bf = bg := Option.some.inj (hf.symm.trans hg)
    refine ⟨_, hf', rfl, fun hob => ?_, fileStateTransit_pendingGC hstate he⟩
    exact fileStateTransit_of_obsolete (hob ▸ hstate) hr
  · exact ⟨bg, by rw [hother g hne, hg], rfl, id, id⟩

theorem Ages.transitAll {event : FileEvent} {fs : List UInt64} {files files' : BlobFiles κ}
    (h : files.transitAll event fs = some files') (he : event ≠ .kGCOutput)
    (hr : event ≠ .kReset) : Ages files files' := by
  induction fs generalizing files with
  | nil =>
      obtain rfl := Option.some.inj h
      exact .refl files
  | cons f fs ih =>
      obtain ⟨mid, hmid, hrest⟩ := BlobFiles.transitAll_cons h
      exact (Ages.transit hmid he hr).trans (ih hrest)

theorem Ages.obsolete {files files' : BlobFiles κ} (h : Ages files files') {f : UInt64}
    (hf : isObsolete files f = true) : isObsolete files' f = true := by
  obtain ⟨bf, hbf, hstate⟩ := isObsolete_iff.mp hf
  obtain ⟨bf', hbf', -, hob, -⟩ := h f bf hbf
  exact isObsolete_iff.mpr ⟨bf', hbf', hob hstate⟩

/-! ## Flushes -/

theorem finishTable_cases {f : UInt64} {records : List (BlobRec κ)}
    (h : s.finishTable f records = some s') :
    (records = [] ∧ s' = s) ∨ (f ∉ s.numbers ∧ ∃ bf, bf.records = records ∧
      bf.state = .kPendingLSM ∧
      s' = { s with files := Function.update s.files f (some bf), numbers := f :: s.numbers }) := by
  unfold State.finishTable at h
  split_ifs at h with hn hempty hmem
  · exact Or.inl ⟨List.isEmpty_iff.mp hempty, (Option.some.inj h).symm⟩
  · simp only [fileStateTransit, if_true, Option.map_some, Option.some.injEq] at h
    exact Or.inr ⟨hmem, ⟨records, .kPendingLSM, hn⟩, rfl, rfl, h.symm⟩

section

variable [DecidableEq κ]

theorem rewriteTables_cases {f : UInt64} {records : List (ℕ × BlobRec κ)}
    {inlined dropped : List (κ × ℕ)} (h : s.rewriteTables f records inlined dropped = some s') :
    s.lsm.Copies s.files records ∧ (records.map fun x => x.2.handle.index).Nodup ∧
      ∃ t, s.finishTable f (records.map (·.2)) = some t ∧
        s' = { t with lsm := s.lsm.rewriteTables s.files f records inlined dropped } := by
  unfold State.rewriteTables at h
  split_ifs at h with hc
  obtain ⟨t, ht, rfl⟩ := Option.map_eq_some_iff.mp h
  exact ⟨hc.1, hc.2, t, ht, rfl⟩

theorem flushStep_cases {upto : ℕ} {f : UInt64} {records : List (ℕ × BlobRec κ)}
    {dropped : List (κ × ℕ)} (h : s.flushStep upto f records dropped = some s') :
    upto ≤ s.lsm.lastSequence ∧ s.lsm.Separates records ∧ s.Droppable upto dropped ∧
      s.rewriteTables f records [] dropped = some s' := by
  unfold State.flushStep at h
  split_ifs at h with hc
  exact ⟨hc.1, hc.2.2.1, hc.2.2.2, h⟩

theorem fallbackFlushStep_cases {upto : ℕ} {inlined dropped : List (κ × ℕ)}
    (h : s.fallbackFlushStep upto inlined dropped = some s') :
    upto ≤ s.lsm.lastSequence ∧ s.Droppable upto dropped ∧
      s.rewriteTables 0 [] inlined dropped = some s' := by
  unfold State.fallbackFlushStep at h
  split_ifs at h with hc
  exact ⟨hc.1, hc.2.2, h⟩

/-! ## Jobs -/

theorem gcBeginStep_cases {inputs : List UInt64} {order : List (UInt64 × BlobRec κ)}
    {useBitmap fallback : Bool} {bits : UInt64 → UInt64 → Bool}
    (h : s.gcBeginStep j inputs order useBitmap fallback bits = some s') :
    s.jobs j = none ∧ inputs.Nodup ∧ order.Perm (inputRecords s.files inputs) ∧
      ∃ files, s.files.transitAll .kGCBegin inputs = some files ∧ s' = { s with
        files := files
        jobs := Function.update s.jobs j (some (.start inputs order useBitmap fallback bits)) } := by
  unfold State.gcBeginStep at h
  split_ifs at h with hc
  obtain ⟨files, hfiles, rfl⟩ := Option.map_eq_some_iff.mp h
  exact ⟨Option.isNone_iff_eq_none.mp hc.1, hc.2.1, List.isPerm_iff.mp hc.2.2, files, hfiles, rfl⟩

/-- A record is skipped, discarded or kept. -/
theorem Job.record_cases {job job' : Job κ} {latest : κ → Option LsmEntry}
    {g offset size : UInt64} (h : job.record latest g offset size = some job') :
    ∃ f r todo, job.todo = (f, r) :: todo ∧
      ((job.lastKey = some r.key ∧ job.lastKeyIsFresh = true ∧ job' = { job with todo := todo }) ∨
      (job.discardable latest f r = true ∧
        job' = { job with todo := todo, lastKey := some r.key, lastKeyIsFresh := false }) ∨
      (job.discardable latest f r = false ∧ job' = Job.keep { job with
        todo := todo, lastKey := some r.key, lastKeyIsFresh := !job.useBitmap }
        f r g offset size)) := by
  unfold Job.record at h
  split at h
  · cases h
  rename_i f r todo htodo
  refine ⟨f, r, todo, htodo, ?_⟩
  split_ifs at h with hskip hd
  · exact Or.inl ⟨hskip.1, hskip.2, (Option.some.inj h).symm⟩
  · exact Or.inr (Or.inl ⟨hd, (Option.some.inj h).symm⟩)
  · exact Or.inr (Or.inr ⟨by simpa using hd, (Option.some.inj h).symm⟩)

omit [DecidableEq κ] in
/-- A kept record is queued with its value or with its copy at the end of the output. -/
theorem Job.keep_cases (job : Job κ) (f : UInt64) (r : BlobRec κ) (g offset size : UInt64) :
    (job.keep f r g offset size = { job with rewriteBatches := job.rewriteBatches ++
      [⟨r.key, pointerTo f r, .value r.value⟩] }) ∨
    ∃ number records copy, job.output.getD (g, []) = (number, records) ∧ copy.key = r.key ∧
      copy.value = r.value ∧ copy.handle.index = UInt64.ofNat records.length ∧
      job.keep f r g offset size = { job with
        output := some (number, records ++ [copy])
        rewriteBatches := job.rewriteBatches ++
          [⟨r.key, pointerTo f r, .blobIndex (pointerTo number copy)⟩] } := by
  by_cases hf : job.fallback = true
  · exact Or.inl (if_pos hf)
  · exact Or.inr ⟨(job.output.getD (g, [])).1, (job.output.getD (g, [])).2,
      { r with handle := ⟨offset, size, UInt64.ofNat (job.output.getD (g, [])).2.length⟩ },
      rfl, rfl, rfl, rfl, if_neg hf⟩

section

omit [DecidableEq κ]

variable (job : Job κ) (f : UInt64) (r : BlobRec κ) (g offset size : UInt64)

@[simp] theorem Job.keep_inputs : (job.keep f r g offset size).inputs = job.inputs := by
  unfold Job.keep
  split <;> rfl

@[simp] theorem Job.keep_todo : (job.keep f r g offset size).todo = job.todo := by
  unfold Job.keep
  split <;> rfl

@[simp] theorem Job.keep_lastKey : (job.keep f r g offset size).lastKey = job.lastKey := by
  unfold Job.keep
  split <;> rfl

@[simp] theorem Job.keep_lastKeyIsFresh :
    (job.keep f r g offset size).lastKeyIsFresh = job.lastKeyIsFresh := by
  unfold Job.keep
  split <;> rfl

@[simp] theorem Job.keep_useBitmap : (job.keep f r g offset size).useBitmap = job.useBitmap := by
  unfold Job.keep
  split <;> rfl

@[simp] theorem Job.keep_bits : (job.keep f r g offset size).bits = job.bits := by
  unfold Job.keep
  split <;> rfl

@[simp] theorem Job.keep_installed : (job.keep f r g offset size).installed = job.installed := by
  unfold Job.keep
  split <;> rfl

@[simp] theorem Job.keep_walFlushed : (job.keep f r g offset size).walFlushed = job.walFlushed := by
  unfold Job.keep
  split <;> rfl

@[simp] theorem Job.keep_obsoleteSequence :
    (job.keep f r g offset size).obsoleteSequence = job.obsoleteSequence := by
  unfold Job.keep
  split <;> rfl

@[simp] theorem Job.keep_droppedIndex :
    (job.keep f r g offset size).droppedIndex = job.droppedIndex := by
  unfold Job.keep
  split <;> rfl

theorem Job.keep_rewriteBatches : ∃ w : Rewrite κ, w.key = r.key ∧ w.blobIndex = pointerTo f r ∧
    (job.keep f r g offset size).rewriteBatches = job.rewriteBatches ++ [w] := by
  rcases job.keep_cases f r g offset size with hk | ⟨number, records, copy, -, -, -, -, hk⟩
  · exact ⟨_, rfl, rfl, by rw [hk]⟩
  · exact ⟨_, rfl, rfl, by rw [hk]⟩

/-- The output keeps its number, which comes from `NewFile` if it is the first record. -/
theorem Job.keep_output {number : UInt64} {records : List (BlobRec κ)}
    (h : (job.keep f r g offset size).output = some (number, records)) :
    number = g ∨ ∃ records', job.output = some (number, records') := by
  rcases job.keep_cases f r g offset size with hk | ⟨number', records', copy, ho, -, -, -, hk⟩
  · rw [hk] at h
    exact Or.inr ⟨records, h⟩
  · rw [hk] at h
    obtain ⟨rfl, -⟩ : number' = number ∧ _ := by simpa using h
    cases hout : job.output with
    | none =>
        rw [hout] at ho
        exact Or.inl (Prod.mk.inj ho).1.symm
    | some x =>
        rw [hout] at ho
        exact Or.inr ⟨x.2, by rw [← (Prod.mk.inj ho).1]⟩

end

theorem gcRecordStep_cases {g offset size : UInt64}
    (h : s.gcRecordStep j g offset size = some s') :
    g ∉ s.numbers ∧ ∃ job job', s.jobs j = some job ∧
      job.record s.lsm.latest g offset size = some job' ∧ s' = { s with
        numbers := if job.output.isNone ∧ job'.output.isSome then g :: s.numbers else s.numbers
        jobs := Function.update s.jobs j (some job') } := by
  unfold State.gcRecordStep at h
  split_ifs at h with hg
  simp only [Option.bind_eq_bind, Option.bind_eq_some_iff] at h
  obtain ⟨job, hjob, job', hjob', heq⟩ := h
  exact ⟨hg, job, job', hjob, hjob', (Option.some.inj heq).symm⟩

theorem gcRewriteStep_cases (h : s.gcRewriteStep j = some s') :
    ∃ job w rest, s.jobs j = some job ∧ job.rewriteBatches = w :: rest ∧ job.installed = true ∧
      ((isAt w.blobIndex (s.lsm.latest w.key) = true ∧ s' = { s with
        lsm := s.lsm.write w.key w.entry
        jobs := Function.update s.jobs j (some { job with rewriteBatches := rest }) }) ∨
      (isAt w.blobIndex (s.lsm.latest w.key) = false ∧ s' = { s with
        jobs := Function.update s.jobs j (some { job with
          rewriteBatches := rest
          droppedIndex := job.droppedIndex ++
            if job.useBitmap then w.entry.ref?.toList else [] }) })) := by
  unfold State.gcRewriteStep at h
  split at h
  · cases h
  rename_i job hjob
  split at h
  · cases h
  rename_i w rest hw
  by_cases hi : job.installed = true
  · rw [if_pos hi] at h
    refine ⟨job, w, rest, hjob, hw, hi, ?_⟩
    by_cases hat : isAt w.blobIndex (s.lsm.latest w.key) = true
    · rw [if_pos hat] at h
      exact Or.inl ⟨hat, (Option.some.inj h).symm⟩
    · rw [if_neg hat] at h
      exact Or.inr ⟨by simpa using hat, (Option.some.inj h).symm⟩
  · rw [if_neg hi] at h
    cases h

end

theorem gcInstallStep_cases (h : s.gcInstallStep j = some s') :
    ∃ job, s.jobs j = some job ∧ job.todo = [] ∧ job.installed = false ∧
      ((job.output = none ∧ s' = { s with
        jobs := Function.update s.jobs j (some { job with installed := true }) }) ∨
      ∃ g bf, job.output = some (g, bf.records) ∧ bf.state = .kPendingGC ∧ s' = { s with
        files := Function.update s.files g (some bf)
        jobs := Function.update s.jobs j (some { job with installed := true }) }) := by
  unfold State.gcInstallStep at h
  split at h
  · cases h
  rename_i job hjob
  split_ifs at h with hc
  simp only [List.isEmpty_iff, Bool.not_eq_true'] at hc
  refine ⟨job, hjob, hc.1, hc.2, ?_⟩
  split at h
  · rename_i hout
    exact Or.inl ⟨hout, (Option.some.inj h).symm⟩
  · rename_i g records hout
    split_ifs at h with hn
    simp only [fileStateTransit, if_true, Option.map_some, Option.some.injEq] at h
    exact Or.inr ⟨g, ⟨records, .kPendingGC, hn⟩, hout, rfl, h.symm⟩

theorem gcFlushWALStep_cases (h : s.gcFlushWALStep j = some s') :
    ∃ job, s.jobs j = some job ∧ job.installed = true ∧ job.rewriteBatches = [] ∧
      job.walFlushed = false ∧ s' = { s with
        jobs := Function.update s.jobs j (some { job with walFlushed := true }) } := by
  unfold State.gcFlushWALStep at h
  split at h
  · cases h
  rename_i job hjob
  split_ifs at h with hc
  simp only [List.isEmpty_iff, Bool.not_eq_true'] at hc
  exact ⟨job, hjob, hc.1, hc.2.1, hc.2.2, (Option.some.inj h).symm⟩

theorem gcDeleteInputsStep_cases (h : s.gcDeleteInputsStep j = some s') :
    ∃ job, s.jobs j = some job ∧ job.walFlushed = true ∧ s' = { s with
      jobs := Function.update s.jobs j (some
        { job with obsoleteSequence := some s.lsm.lastSequence }) } := by
  unfold State.gcDeleteInputsStep at h
  split at h
  · cases h
  rename_i job hjob
  split_ifs at h with hc
  exact ⟨job, hjob, hc.1, (Option.some.inj h).symm⟩

theorem getSnapshot_cases [DecidableEq κ] {i : ℕ} (h : step s (.getSnapshot i) = some s') :
    i ∉ s.snapshots.map (·.1) ∧
      s' = { s with snapshots := (i, s.lsm.lastSequence) :: s.snapshots } := by
  simp only [step] at h
  split_ifs at h with hc
  exact ⟨hc, (Option.some.inj h).symm⟩

/-- What releasing its files does to a job's surroundings. -/
structure Released (files files' : BlobFiles κ) (job : Job κ) : Prop where
  ages : Ages files files'
  outside : ∀ f, f ∉ job.inputs → f ∉ job.outputs → files' f = files f
  obsolete : ∀ f, isObsolete files' f = isObsolete files f

theorem releaseGcFiles_spec {files files' : BlobFiles κ} {job : Job κ}
    (h : releaseGcFiles files job = some files') : Released files files' job := by
  simp only [releaseGcFiles, Option.bind_eq_bind, Option.bind_eq_some_iff] at h
  obtain ⟨mid, hmid, hfiles⟩ := h
  refine ⟨(Ages.transitAll hmid (by decide) (by decide)).trans
    (.transitAll hfiles (by decide) (by decide)), fun f hin hout => ?_, fun f => ?_⟩
  · rw [BlobFiles.transitAll_of_not_mem hfiles hout, BlobFiles.transitAll_of_not_mem hmid hin]
  · rw [isObsolete_transitAll hfiles (by decide) (by decide),
      isObsolete_transitAll hmid (by decide) (by decide)]

theorem gcAbortStep_cases (h : s.gcAbortStep j = some s') :
    ∃ job files, s.jobs j = some job ∧ Released s.files files job ∧
      s' = { s with files := files, jobs := Function.update s.jobs j none } := by
  simp only [State.gcAbortStep, Option.bind_eq_bind, Option.bind_eq_some_iff] at h
  obtain ⟨job, hjob, files, hfiles, heq⟩ := h
  exact ⟨job, files, hjob, releaseGcFiles_spec hfiles, (Option.some.inj heq).symm⟩

/-- Exactly the inputs become obsolete. -/
theorem gcFinishStep_cases (h : s.gcFinishStep j = some s') :
    ∃ job files, s.jobs j = some job ∧ job.obsoleteSequence ≠ none ∧ Ages s.files files ∧
      (∀ f, f ∉ job.inputs → f ∉ job.outputs → files f = s.files f) ∧
      (∀ f, isObsolete files f = true ↔ f ∈ job.inputs ∨ isObsolete s.files f = true) ∧
      s' = { s with files := files, jobs := Function.update s.jobs j none } := by
  unfold State.gcFinishStep at h
  split at h
  · cases h
  rename_i job hjob
  split_ifs at h with hseq
  simp only [Option.bind_eq_bind, Option.bind_eq_some_iff] at h
  obtain ⟨mid, hmid, files, hfiles, heq⟩ := h
  have hrel := releaseGcFiles_spec hfiles
  refine ⟨job, files, hjob, Option.isSome_iff_ne_none.mp hseq,
    (Ages.transitAll hmid (by decide) (by decide)).trans hrel.ages, fun f hin hout => ?_,
    fun f => ?_, (Option.some.inj heq).symm⟩
  · rw [hrel.outside f hin hout]
    exact BlobFiles.transitAll_of_not_mem hmid fun hf => hin (List.mem_filter.mp hf).1
  · rw [hrel.obsolete f, isObsolete_delete hmid, List.mem_filter, Bool.not_eq_true']
    by_cases hob : isObsolete s.files f = true <;> simp [hob]

end AegonKV.SoftwareGC
