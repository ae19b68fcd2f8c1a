import AegonKV.OffloadedColumn

/-!
# What one step of a column family with offloaded garbage collection can do

One lemma for each action of a job, guards included, and what flushes and compactions do to the
versions of a key.
-/

namespace AegonKV.OffloadedColumn
open LittleEndian AegonKV SoftwareGC Checkpoint
open AegonKV.OffloadedGC (addBlobFile copies keptRecords)

variable {κ : Type} {s s' : State κ} {j : ℕ}

/-! ## Jobs -/

theorem gcBeginStep_cases {inputs : List UInt64} (h : s.gcBeginStep inputs = some s') :
    inputs.Nodup ∧ ∃ files, s.files.transitAll .kGCBegin inputs = some files ∧
      s' = { s with
        files := files
        jobs := s.jobs ++
          [⟨.start inputs (inputRecords s.files inputs) false false fun _ _ => false, false, true⟩] } := by
  unfold State.gcBeginStep at h
  split_ifs at h with hn
  obtain ⟨files, hfiles, rfl⟩ := Option.map_eq_some_iff.mp h
  exact ⟨hn, files, hfiles, rfl⟩

theorem gcOnHardwareStep_cases {output : UInt64} {offsets : List UInt64}
    (h : s.gcOnHardwareStep j output offsets = some s') :
    ∃ job kept, s.jobs[j]? = some job ∧ kept = keptRecords s.files s.bits job.inputs ∧
      kept.length = offsets.length ∧ s' = { s with
        jobs := s.jobs.set j
          ⟨{ Job.start job.inputs [] true false s.bits with
              output := some (output, copies kept offsets)
              rewriteBatches := List.zipWith (rewriteOf output) kept (copies kept offsets) },
            true, true⟩ } := by
  unfold State.gcOnHardwareStep at h
  split at h
  · cases h
  rename_i job hj
  dsimp only at h
  split_ifs at h with hguard
  exact ⟨job, _, hj, rfl, hguard.2, (Option.some.inj h).symm⟩

theorem gcInstallStep_cases (h : s.gcInstallStep j = some s') :
    ∃ job, s.jobs[j]? = some job ∧ job.todo = [] ∧ job.installed = false ∧
      ((job.output = none ∧
          s' = { s with jobs := s.jobs.set j { job with installed := true } }) ∨
        ∃ g records hn, job.output = some (g, records) ∧ distinctIndexes records = true ∧
          s.files g = none ∧ s' = { s with
            files := Function.update s.files g (some ⟨records, .kPendingGC, hn⟩)
            numbers := g :: s.numbers
            jobs := s.jobs.set j { job with installed := true } }) := by
  unfold State.gcInstallStep at h
  split at h
  · cases h
  rename_i job hj
  split_ifs at h with hguard
  dsimp only at h
  obtain ⟨-, htodo, hinst⟩ := hguard
  refine ⟨job, hj, List.isEmpty_iff.mp htodo, by simpa using hinst, ?_⟩
  split at h
  · rename_i hout
    exact Or.inl ⟨hout, (Option.some.inj h).symm⟩
  · rename_i g records hout
    split_ifs at h with hn hfile
    refine Or.inr ⟨g, records, hn, hout, hfile.1, Option.isNone_iff_eq_none.mp hfile.2, ?_⟩
    exact (Option.some.inj h).symm

theorem gcFlushWALStep_cases (h : s.gcFlushWALStep j = some s') :
    ∃ job, s.jobs[j]? = some job ∧ job.installed = true ∧ job.rewriteBatches = [] ∧ s' = { s with
      invalid := s.invalid ++ job.droppedIndex
      jobs := s.jobs.set j { job with walFlushed := true } } := by
  unfold State.gcFlushWALStep at h
  split at h
  · cases h
  rename_i job hj
  split_ifs at h with hguard
  exact ⟨job, hj, hguard.1, List.isEmpty_iff.mp hguard.2.1, (Option.some.inj h).symm⟩

theorem releaseGcFiles_cases {files files' : BlobFiles κ} {job : SoftwareGC.Job κ}
    (h : releaseGcFiles files job = some files') :
    ∃ mid, files.transitAll .kGCCompleted job.inputs = some mid ∧
      mid.transitAll .kGCCompleted job.outputs = some files' := by
  simp only [releaseGcFiles, Option.bind_eq_bind, Option.bind_eq_some_iff] at h
  exact h

theorem ages_releaseGcFiles {files files' : BlobFiles κ} {job : SoftwareGC.Job κ}
    (h : releaseGcFiles files job = some files') : Ages files files' := by
  obtain ⟨mid, hmid, hfiles⟩ := releaseGcFiles_cases h
  exact (Ages.transitAll hmid (by decide) (by decide)).trans
    (.transitAll hfiles (by decide) (by decide))

theorem gcFinishStep_cases (h : s.gcFinishStep j = some s') :
    ∃ job deleted files, s.jobs[j]? = some job ∧ job.walFlushed = true ∧
      s.files.transitAll .kDelete (job.inputs.filter fun f => !isObsolete s.files f) =
        some deleted ∧ releaseGcFiles deleted job.toJob = some files ∧
      s' = { s with files := files, jobs := s.jobs.eraseIdx j } := by
  unfold State.gcFinishStep at h
  split at h
  · cases h
  rename_i job hj
  split_ifs at h with hflushed
  simp only [Option.bind_eq_bind, Option.bind_eq_some_iff] at h
  obtain ⟨deleted, hdeleted, files, hfiles, heq⟩ := h
  exact ⟨job, deleted, files, hj, hflushed, hdeleted, hfiles, (Option.some.inj heq).symm⟩

theorem gcAbortStep_cases (h : s.gcAbortStep j = some s') :
    ∃ job files, s.jobs[j]? = some job ∧ releaseGcFiles s.files job.toJob = some files ∧
      s' = { s with files := files, jobs := s.jobs.eraseIdx j } := by
  simp only [State.gcAbortStep, Option.bind_eq_bind, Option.bind_eq_some_iff] at h
  obtain ⟨job, hj, files, hfiles, heq⟩ := h
  exact ⟨job, files, hj, hfiles, (Option.some.inj heq).symm⟩

section

variable [DecidableEq κ]

theorem gcFallBackStep_cases {order : List (UInt64 × BlobRec κ)} {useBitmap fallback : Bool}
    (h : s.gcFallBackStep j order useBitmap fallback = some s') :
    ∃ job, s.jobs[j]? = some job ∧ order.Perm (inputRecords s.files job.inputs) ∧
      s' = { s with
        jobs := s.jobs.set j ⟨.start job.inputs order useBitmap fallback s.bits, true, false⟩ } := by
  unfold State.gcFallBackStep at h
  split at h
  · cases h
  rename_i job hj
  split_ifs at h with hguard
  exact ⟨job, hj, List.isPerm_iff.mp hguard.2, (Option.some.inj h).symm⟩

theorem gcRecordStep_cases {g offset size : UInt64}
    (h : s.gcRecordStep j g offset size = some s') :
    ∃ job job', s.jobs[j]? = some job ∧ job.toJob.record s.lookup g offset size = some job' ∧
      s' = { s with jobs := s.jobs.set j { job with toJob := job' } } := by
  unfold State.gcRecordStep at h
  split at h
  · cases h
  rename_i job hj
  split_ifs at h with hstarted
  obtain ⟨job', hjob', rfl⟩ := Option.map_eq_some_iff.mp h
  exact ⟨job, job', hj, hjob', rfl⟩

theorem gcRewriteStep_cases (h : s.gcRewriteStep j = some s') :
    ∃ job w rest, s.jobs[j]? = some job ∧ job.rewriteBatches = w :: rest ∧ job.installed = true ∧
      (s' = { s.pushMem w.key (written job.gcOffload w) with
          jobs := s.jobs.set j { job with rewriteBatches := rest } } ∨
        job.gcOffload = false ∧ isAt w.blobIndex (s.lookup w.key) = false ∧ s' = { s with
          jobs := s.jobs.set j { job with
            rewriteBatches := rest
            droppedIndex := job.droppedIndex ++
              if job.useBitmap then w.entry.ref?.toList else [] } }) := by
  unfold State.gcRewriteStep at h
  split at h
  · cases h
  rename_i job hj
  split at h
  · cases h
  rename_i w rest hbatches
  by_cases hinst : job.installed = true
  · rw [if_pos hinst] at h
    refine ⟨job, w, rest, hj, hbatches, hinst, ?_⟩
    by_cases hat : (job.gcOffload || isAt w.blobIndex (s.lookup w.key)) = true
    · rw [if_pos hat] at h
      exact Or.inl (Option.some.inj h).symm
    · rw [if_neg hat] at h
      rw [Bool.not_eq_true, Bool.or_eq_false_iff] at hat
      exact Or.inr ⟨hat.1, hat.2, (Option.some.inj h).symm⟩
  · rw [if_neg hinst] at h
    cases h

/-! ## Versions -/

theorem versions_pushMem_self (s : State κ) (k : κ) (v : StreamVersion) :
    (s.pushMem k v).versions k = v :: s.versions k := by
  simp only [State.versions, State.pushMem, Function.update_self, List.cons_append]

theorem versions_pushMem_other (s : State κ) {g k : κ} (hg : g ≠ k) (v : StreamVersion) :
    (s.pushMem k v).versions g = s.versions g := by
  simp only [State.versions, State.pushMem, Function.update_of_ne hg]

omit [DecidableEq κ] in
theorem versions_switchMemtable (s : State κ) :
    State.versions { s with mem := fun _ => [], imm := s.mem :: s.imm } = s.versions := by
  funext k
  simp only [State.versions, List.flatMap_cons, List.nil_append]

variable {segment : Table κ} {f : UInt64} {records : List (BlobRec κ)} {inlined : List κ}

/-- The segment of each key gives way to the table built from it. -/
structure Rebuilds (s s' : State κ) (segment : Table κ) (f : UInt64) (records : List (BlobRec κ))
    (inlined : List κ) : Prop where
  added : addBlobFile s.files f records = some s'.files
  indexes : (records.map fun r => r.handle.index).Nodup
  jobs : s'.jobs = s.jobs
  invalid : s'.invalid = s.invalid
  numbers : s'.numbers = if records.isEmpty then s.numbers else f :: s.numbers
  versions : ∀ k, ∃ newer older, s.versions k = newer ++ (segment k ++ older) ∧
    s'.versions k = newer ++ (buildTable s.files segment f records inlined k ++ older)

omit [DecidableEq κ] in
theorem finishTable_cases (h : s.finishTable segment f records = some s') :
    Copies s.files segment records ∧ (records.map fun r => r.handle.index).Nodup ∧
      ∃ files, addBlobFile s.files f records = some files ∧ s' = { s with
        files := files
        numbers := if records.isEmpty then s.numbers else f :: s.numbers } := by
  unfold State.finishTable at h
  by_cases hguard : Copies s.files segment records ∧ distinctIndexes records = true
  · rw [if_pos hguard] at h
    obtain ⟨files, hfiles, rfl⟩ := Option.map_eq_some_iff.mp h
    exact ⟨hguard.1, of_decide_eq_true hguard.2, files, hfiles, rfl⟩
  · rw [if_neg hguard] at h
    cases h

theorem rebuilds_flush {n : ℕ} (h : s.flushStep n f records inlined = some s') :
    Rebuilds s s' (s.flushSegment n) f records inlined ∧ s'.callbacks = s.callbacks := by
  obtain ⟨t, ht, rfl⟩ := Option.map_eq_some_iff.mp h
  obtain ⟨-, hindexes, files, hfiles, rfl⟩ := finishTable_cases ht
  refine ⟨⟨hfiles, hindexes, rfl, rfl, rfl, fun k => ?_⟩, rfl⟩
  have himm : s.imm.flatMap (· k) =
      (s.imm.take (s.imm.length - n)).flatMap (· k) ++ s.flushSegment n k := by
    rw [State.flushSegment, ← List.flatMap_append, List.take_append_drop]
  refine ⟨s.mem k ++ (s.imm.take (s.imm.length - n)).flatMap (· k), s.ssts.flatMap (· k), ?_, ?_⟩
  · simp only [State.versions, himm, List.append_assoc]
  · simp only [State.versions, List.flatMap_cons, List.append_assoc]

omit [DecidableEq κ] in
/-- The runs above the compacted ones, these, and the runs below. -/
theorem flatMap_ssts (s : State κ) (i n : ℕ) (k : κ) :
    s.ssts.flatMap (· k) = (s.ssts.take i).flatMap (· k) ++
      (((s.ssts.drop i).take n).flatMap (· k) ++ ((s.ssts.drop i).drop n).flatMap (· k)) := by
  rw [← List.flatMap_append, List.take_append_drop, ← List.flatMap_append, List.take_append_drop]

omit [DecidableEq κ] in
theorem flatMap_unselected (ts : List (Table κ)) (selected : κ → Bool) (k : κ) :
    (ts.map fun t k => if selected k then [] else t k).flatMap (· k) =
      if selected k then [] else ts.flatMap (· k) := by
  rw [List.flatMap_map]
  by_cases hk : selected k = true
  · simp [hk]
  · simp [hk]

theorem rebuilds_compact {i n : ℕ} {selected : κ → Bool} {keys : List κ}
    (h : s.compactStep i n selected keys f records inlined = some s') :
    Rebuilds s s' (s.segment i n selected) f records inlined ∧
      s'.callbacks = s.callbacks ++ [(collect (s.segment i n selected) keys).filter fun ref =>
        ref ∉ collect (buildTable s.files (s.segment i n selected) f records inlined) keys] := by
  obtain ⟨t, ht, rfl⟩ := Option.map_eq_some_iff.mp h
  obtain ⟨-, hindexes, files, hfiles, rfl⟩ := finishTable_cases ht
  refine ⟨⟨hfiles, hindexes, rfl, rfl, rfl, fun k => ?_⟩, rfl⟩
  have hruns := flatMap_ssts s i n k
  refine ⟨s.mem k ++ s.imm.flatMap (· k) ++ (s.ssts.take i).flatMap (· k) ++
      if selected k then [] else ((s.ssts.drop i).take n).flatMap (· k),
    ((s.ssts.drop i).drop n).flatMap (· k), ?_, ?_⟩
  · by_cases hk : selected k = true
    · simp only [State.versions, State.segment, hk, if_true, hruns, List.append_assoc,
        List.nil_append]
    · simp only [State.versions, State.segment, hk, Bool.false_eq_true, if_false, hruns,
        List.append_assoc, List.nil_append]
  · simp only [State.versions, List.flatMap_append, List.flatMap_cons, flatMap_unselected,
      List.append_assoc]

end

end AegonKV.OffloadedColumn
