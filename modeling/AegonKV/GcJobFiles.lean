import AegonKV.CallbackAging
import AegonKV.Ownership

/-!
# The files of the GC jobs

The files of the running GC jobs are in the states a job expects at its end, and no two jobs hold
the same file. What ages the files keeps this, and so do the steps of a job.
-/

namespace AegonKV
open TransitionSystem

/-! ## The files of the jobs -/

/-- The states in which `ReleaseGcFiles` may find a file. -/
def FileState.InGC (state : FileState) : Prop :=
  state = .kBeingGC ∨ state = .kPendingGC ∨ state = .kObsolete

theorem FileState.Ages.inGC {state state' : FileState} (h : state.Ages state')
    (hgc : state.InGC) : state'.InGC := by
  cases h with
  | refl => exact hgc
  | obsolete => exact Or.inr (Or.inr rfl)
  | complete => rcases hgc with h | h | h <;> cases h
  | completeMark => rcases hgc with h | h | h <;> cases h
  | mark => rcases hgc with h | h | h <;> cases h

theorem FileState.Ages.of_obsolete {state state' : FileState} (h : state.Ages state')
    (hstate : state = .kObsolete) : state' = .kObsolete := by
  cases h with
  | refl => exact hstate
  | obsolete => rfl
  | complete => cases hstate
  | completeMark => cases hstate
  | mark => cases hstate

def BlobFileSet.HasState (s : BlobFileSet) (P : FileState → Prop) (file : UInt32 × UInt64) : Prop :=
  ∃ m, s.fileOf file.1 file.2 = some m ∧ P m.state

def GcJob.files (job : GcJob) : List UInt64 := job.inputs ++ job.outputs

def GcJob.held (job : GcJob) : List (UInt32 × UInt64) := job.files.map fun f => (job.cf, f)

structure Lifecycle (m : FileMachine) : Prop where
  scores : ∀ cf st, m.set.columnFamilies.lookup cf = some st → st.ScoresDistinct
  open_column : ∀ job ∈ m.jobs, ∃ st, m.set.columnFamilies.lookup job.cf = some st
  held : ∀ job ∈ m.jobs, ∀ file ∈ job.held, m.set.HasState FileState.InGC file
  distinct : (m.jobs.flatMap GcJob.held).Nodup
  safe : ∀ c ∈ m.calls, c.Safe

def KeepsObsolete (s s' : BlobFileSet) : Prop :=
  ∀ file, s.HasState (· = .kObsolete) file → s'.HasState (· = .kObsolete) file

namespace BlobFileSet

variable {s s' : BlobFileSet} {calls : List TransitCall} {file : UInt32 × UInt64}

theorem Aging.fileOf {m : BlobFileMeta} (h : Aging s s' calls) {cf : UInt32} {f : UInt64}
    (hm : s.fileOf cf f = some m) : ∃ m', s'.fileOf cf f = some m' ∧ m.Ages m' := by
  obtain ⟨st, hst, hlookup⟩ := Option.bind_eq_some_iff.mp hm
  obtain ⟨st', hst', hages⟩ := h.ages cf st hst
  obtain ⟨m', hm', hm''⟩ := hages f m hlookup
  refine ⟨m', ?_, hm''⟩
  rw [BlobFileSet.fileOf, hst', Option.bind_some]
  exact hm'

theorem Aging.inGC (h : Aging s s' calls) (hfile : s.HasState FileState.InGC file) :
    s'.HasState FileState.InGC file := by
  obtain ⟨m, hm, hstate⟩ := hfile
  obtain ⟨m', hm', hages⟩ := h.fileOf hm
  exact ⟨m', hm', hages.state.inGC hstate⟩

theorem Aging.keepsObsolete (h : Aging s s' calls) : KeepsObsolete s s' := by
  rintro file ⟨m, hm, hstate⟩
  obtain ⟨m', hm', hages⟩ := h.fileOf hm
  exact ⟨m', hm', hages.state.of_obsolete hstate⟩

end BlobFileSet

namespace Lifecycle

variable {m : FileMachine} {s' : BlobFileSet} {calls : List TransitCall}

/-- What only ages the files keeps the invariant. -/
theorem aged (h : Lifecycle m) (ha : BlobFileSet.Aging m.set s' calls) :
    Lifecycle (m.made (s', calls)) where
  scores := ha.scores h.scores
  open_column job hjob := by
    obtain ⟨st, hst⟩ := h.open_column job hjob
    obtain ⟨st', hst', -⟩ := ha.ages job.cf st hst
    exact ⟨st', hst'⟩
  held job hjob file hfile := ha.inGC (h.held job hjob file hfile)
  distinct := h.distinct
  safe c hc := (List.mem_append.mp hc).elim (h.safe c) (ha.safe c)

theorem addCalls (h : Lifecycle m) (hcalls : ∀ c ∈ calls, c.Safe) :
    Lifecycle { m with calls := m.calls ++ calls } where
  scores := h.scores
  open_column := h.open_column
  held := h.held
  distinct := h.distinct
  safe c hc := (List.mem_append.mp hc).elim (h.safe c) (hcalls c)

theorem logged (h : Lifecycle m) (edit : VersionEdit BlobFileMeta) (io : ManifestIO) :
    Lifecycle (m.logged edit io) := h.aged (m.set.aging_logAndApply edit io)

/-- The files of a job are distinct, and no other job has them. -/
theorem job_distinct {j : ℕ} {job : GcJob} (h : Lifecycle m) (hj : m.jobs[j]? = some job) :
    job.held.Nodup ∧ ((m.jobs.eraseIdx j).flatMap GcJob.held).Nodup ∧
      ∀ file ∈ job.held, file ∉ (m.jobs.eraseIdx j).flatMap GcJob.held :=
  Ownership.nodup_of_getElem? h.distinct hj

/-- Another job in the place of one. -/
theorem setJob {j : ℕ} {job job' : GcJob} (h : Lifecycle m) (hj : m.jobs[j]? = some job)
    (hcf : job'.cf = job.cf) (hheld : ∀ file ∈ job'.held, m.set.HasState FileState.InGC file)
    (hn : job'.held.Nodup)
    (hdisjoint : ∀ file ∈ job'.held, file ∉ (m.jobs.eraseIdx j).flatMap GcJob.held) :
    Lifecycle (m.setJob j job') := by
  have hmem : ∀ g ∈ m.jobs.set j job', g = job' ∨ g ∈ m.jobs := fun g hg =>
    (Ownership.mem_set hj hg).imp id List.mem_of_mem_eraseIdx
  constructor
  case scores => exact h.scores
  case open_column =>
    intro g hg
    rcases hmem g hg with rfl | hg
    · rw [hcf]
      exact h.open_column job (List.mem_of_getElem? hj)
    · exact h.open_column g hg
  case held =>
    intro g hg
    rcases hmem g hg with rfl | hg
    · exact hheld
    · exact h.held g hg
  case distinct => exact Ownership.nodup_set h.distinct hj hn hdisjoint
  case safe => exact h.safe

/-- A job whose files stay the same. -/
theorem setStage {j : ℕ} {job job' : GcJob} (h : Lifecycle m) (hj : m.jobs[j]? = some job)
    (hcf : job'.cf = job.cf) (hfiles : job'.files = job.files) : Lifecycle (m.setJob j job') := by
  have hheld : job'.held = job.held := by rw [GcJob.held, GcJob.held, hcf, hfiles]
  obtain ⟨hn, -, hdisjoint⟩ := h.job_distinct hj
  refine h.setJob hj hcf (fun file hfile => ?_) (hheld ▸ hn) (hheld ▸ hdisjoint)
  exact h.held job (List.mem_of_getElem? hj) file (hheld ▸ hfile)

end Lifecycle

/-! ## The picker -/

/-- The picker takes normal files, each from its own score. -/
theorem pickFiles_spec (p : GcPickOptions) (st : BlobStorage) (scores : List GCScore)
    (acc : Picking) :
    ∃ picked, (pickFiles p st scores acc).blobFiles = acc.blobFiles ++ picked ∧
      picked.Sublist (scores.map (·.fileNumber)) ∧
      ∀ f ∈ picked, ∃ file, st.files.lookup f = some file ∧ file.state = .kNormal := by
  induction scores generalizing acc with
  | nil => exact ⟨[], (List.append_nil _).symm, List.Sublist.refl _, fun f hf => (by cases hf)⟩
  | cons g scores ih =>
      have hskip : ∀ acc' : Picking, acc'.blobFiles = acc.blobFiles → ∃ picked,
          (pickFiles p st scores acc').blobFiles = acc.blobFiles ++ picked ∧
          picked.Sublist ((g :: scores).map (·.fileNumber)) ∧
          ∀ f ∈ picked, ∃ file, st.files.lookup f = some file ∧ file.state = .kNormal := by
        intro acc' hacc
        obtain ⟨picked, hpicked, hsub, hnormal⟩ := ih acc'
        exact ⟨picked, hacc ▸ hpicked, hsub.trans (List.sublist_cons_self _ _), hnormal⟩
      have hstop : ∀ acc' : Picking, acc'.blobFiles = acc.blobFiles → ∃ picked,
          acc'.blobFiles = acc.blobFiles ++ picked ∧
          picked.Sublist ((g :: scores).map (·.fileNumber)) ∧
          ∀ f ∈ picked, ∃ file, st.files.lookup f = some file ∧ file.state = .kNormal := by
        intro acc' hacc
        exact ⟨[], hacc.trans (List.append_nil _).symm, List.nil_sublist _, fun f hf => (by cases hf)⟩
      rw [pickFiles]
      split
      · exact hstop acc rfl
      · cases hfile : st.files.lookup g.fileNumber with
        | none => exact hskip acc rfl
        | some file =>
            dsimp only
            split_ifs with hstate hpicking hnext
            · exact hskip acc rfl
            · obtain ⟨picked, hpicked, hsub, hnormal⟩ := ih
                { acc with
                  blobFiles := acc.blobFiles ++ [g.fileNumber]
                  batchSize := acc.batchSize + file.fileSize
                  stopPicking := decide (p.maxGcBatchSize ≤ acc.batchSize + file.fileSize) }
              refine ⟨g.fileNumber :: picked, ?_, hsub.cons_cons _, fun f hf => ?_⟩
              · rw [hpicked, List.append_assoc, List.singleton_append]
              · rcases List.mem_cons.mp hf with rfl | hf
                · exact ⟨file, hfile, by simpa using hstate⟩
                · exact hnormal f hf
            · exact hstop _ rfl
            · exact hskip _ rfl

theorem pickBlobGC_normal {p : GcPickOptions} {st : BlobStorage} {inputs : List UInt64}
    (h : pickBlobGC p st = some inputs) : inputs.Sublist (st.gcScore.map (·.fileNumber)) ∧
      ∀ f ∈ inputs, ∃ file, st.files.lookup f = some file ∧ file.state = .kNormal := by
  obtain ⟨picked, hpicked, hsub, hnormal⟩ := pickFiles_spec p st st.gcScore {}
  have hinputs : inputs = picked := by
    rw [pickBlobGC] at h
    split_ifs at h
    rw [hpicked] at h
    simpa using h.symm
  rw [hinputs]
  exact ⟨hsub, hnormal⟩

theorem pickBlobGC_spec {p : GcPickOptions} {st : BlobStorage} {inputs : List UInt64}
    (h : pickBlobGC p st = some inputs) (hscores : st.ScoresDistinct) :
    inputs.Nodup ∧ ∀ f ∈ inputs, ∃ file, st.files.lookup f = some file ∧ file.state = .kNormal := by
  obtain ⟨hsub, hnormal⟩ := pickBlobGC_normal h
  exact ⟨hscores.sublist hsub, hnormal⟩

/-! ## The steps of a GC job -/

namespace Lifecycle

variable {m m' : FileMachine}

/-- One event on distinct files of one column family leaves all others as they are. -/
theorem hasState_transitFiles {s : BlobFileSet} {cf : UInt32} {st : BlobStorage}
    {event : FileEvent} {numbers : List UInt64} {P : FileState → Prop} {file : UInt32 × UInt64}
    (hst : s.columnFamilies.lookup cf = some st) (hn : numbers.Nodup)
    (hnot : file ∉ numbers.map fun f => (cf, f)) (hfile : s.HasState P file) :
    (s.setStorage cf (Walk.transitFiles event st numbers).storage).HasState P file := by
  obtain ⟨info, hinfo, hstate⟩ := hfile
  obtain ⟨g, f⟩ := file
  refine ⟨info, ?_, hstate⟩
  by_cases hg : g = cf
  · subst hg
    have hf : f ∉ numbers := fun hf => hnot (List.mem_map_of_mem hf)
    rw [BlobFileSet.fileOf_setStorage,
      (Walk.transited_transitFiles event hn st).lookup_other f hf]
    rwa [BlobFileSet.fileOf, hst, Option.bind_some] at hinfo
  · rwa [BlobFileSet.fileOf_setStorage_ne _ f hg]

theorem hasState_of_lookup {s : BlobFileSet} {cf : UInt32} {st : BlobStorage}
    {P : FileState → Prop} {f : UInt64} (hst : s.columnFamilies.lookup cf = some st) :
    s.HasState P (cf, f) ↔ ∃ file, st.files.lookup f = some file ∧ P file.state := by
  rw [BlobFileSet.HasState, BlobFileSet.fileOf, hst, Option.bind_some]

/-- The state of the files that got the event. -/
theorem hasState_transited {s : BlobFileSet} {cf : UInt32} {st : BlobStorage}
    {event : FileEvent} {numbers : List UInt64} {P Q : FileState → Prop} {f : UInt64}
    (hst : s.columnFamilies.lookup cf = some st) (hn : numbers.Nodup) (hf : f ∈ numbers)
    (hfile : s.HasState P (cf, f)) (hafter : ∀ state, P state → Q (state.after event)) :
    (s.setStorage cf (Walk.transitFiles event st numbers).storage).HasState Q (cf, f) := by
  obtain ⟨file, hlookup, hstate⟩ := (hasState_of_lookup hst).mp hfile
  refine (hasState_of_lookup (s.lookup_setStorage_self cf _)).mpr
    ⟨{ file with state := file.state.after event }, ?_, hafter _ hstate⟩
  rw [(Walk.transited_transitFiles event hn st).lookup_mem f hf, hlookup]
  rfl

/-- The calls of an event on distinct files are about the states the files have. -/
theorem safe_transitFiles {st : BlobStorage} {event : FileEvent} {numbers : List UInt64}
    (hn : numbers.Nodup)
    (hsafe : ∀ f ∈ numbers, ∀ file, st.files.lookup f = some file →
      TransitCall.Safe ⟨f, file.state, event⟩) :
    ∀ c ∈ (Walk.transitFiles event st numbers).calls, c.Safe := by
  intro c hc
  rcases (Walk.transited_transitFiles event hn st).calls c hc with hnone |
    ⟨hevent, hmem, file, hfile, hstate⟩
  · cases hnone
  · obtain ⟨number, state, event'⟩ := c
    obtain rfl : event' = event := hevent
    obtain rfl : state = file.state := hstate
    exact hsafe number hmem file hfile

theorem scores_transitFiles {cf : UInt32} {st : BlobStorage} {numbers : List UInt64}
    (h : Lifecycle m) (hst : m.set.columnFamilies.lookup cf = some st) (event : FileEvent)
    (hn : numbers.Nodup) (g : UInt32) (st' : BlobStorage)
    (hst' : (m.set.setStorage cf (Walk.transitFiles event st numbers).storage).columnFamilies.lookup
      g = some st') : st'.ScoresDistinct := by
  by_cases hg : g = cf
  · subst hg
    obtain rfl := Option.some.inj ((m.set.lookup_setStorage_self g _).symm.trans hst')
    rw [BlobStorage.ScoresDistinct, (Walk.transited_transitFiles event hn st).scores]
    exact h.scores g st hst
  · exact h.scores g st' ((m.set.lookup_setStorage_ne _ hg).symm.trans hst')

theorem open_setStorage {s : BlobFileSet} {cf g : UInt32} (st : BlobStorage)
    (hg : g = cf ∨ ∃ st', s.columnFamilies.lookup g = some st') :
    ∃ st', (s.setStorage cf st).columnFamilies.lookup g = some st' := by
  by_cases hcf : g = cf
  · rw [hcf]
    exact ⟨st, s.lookup_setStorage_self cf st⟩
  · obtain ⟨st', hst'⟩ := hg.resolve_left hcf
    exact ⟨st', (s.lookup_setStorage_ne st hcf).trans hst'⟩

/-- `BlobGC::BlobGC` of picked files. -/
theorem picked {cf : UInt32} {st : BlobStorage} {p : GcPickOptions} {inputs : List UInt64}
    (h : Lifecycle m) (hst : m.set.columnFamilies.lookup cf = some st)
    (hpick : pickBlobGC p st = some inputs) :
    Lifecycle
        { m.made (m.set.setStorage cf (Walk.transitFiles .kGCBegin st inputs).storage,
            (Walk.transitFiles .kGCBegin st inputs).calls) with
          jobs := m.jobs ++ [{ cf := cf, inputs := inputs }] } ∧
      KeepsObsolete m.set (m.set.setStorage cf (Walk.transitFiles .kGCBegin st inputs).storage) := by
  obtain ⟨hn, hnormal⟩ := pickBlobGC_spec hpick (h.scores cf st hst)
  have hnot : ∀ file P, m.set.HasState P file → (¬ P .kNormal) →
      file ∉ inputs.map fun f => (cf, f) := by
    rintro file P hfile hP hmem
    obtain ⟨f, hf, rfl⟩ := List.mem_map.mp hmem
    obtain ⟨info, hinfo, hstate⟩ := (hasState_of_lookup hst).mp hfile
    obtain ⟨info', hinfo', hstate'⟩ := hnormal f hf
    obtain rfl := Option.some.inj (hinfo.symm.trans hinfo')
    exact hP (hstate' ▸ hstate)
  have hnotGC : ¬ FileState.InGC .kNormal := by rintro (h | h | h) <;> cases h
  have hold : ∀ job ∈ m.jobs, ∀ file ∈ job.held, file ∉ inputs.map fun f => (cf, f) :=
    fun job hjob file hfile => hnot file _ (h.held job hjob file hfile) hnotGC
  have hnew : GcJob.held { cf := cf, inputs := inputs } = inputs.map fun f => (cf, f) := by
    simp [GcJob.held, GcJob.files]
  refine ⟨⟨?_, ?_, ?_, ?_, ?_⟩, ?_⟩
  · exact h.scores_transitFiles hst .kGCBegin hn
  · intro job hjob
    refine open_setStorage _ ?_
    rcases List.mem_append.mp hjob with hjob | hjob
    · exact Or.inr (h.open_column job hjob)
    · rw [List.mem_singleton.mp hjob]
      exact Or.inl rfl
  · intro job hjob file hfile
    rcases List.mem_append.mp hjob with hjob | hjob
    · exact hasState_transitFiles hst hn (hold job hjob file hfile) (h.held job hjob file hfile)
    · rw [List.mem_singleton.mp hjob, hnew] at hfile
      obtain ⟨f, hf, rfl⟩ := List.mem_map.mp hfile
      have hfile : m.set.HasState (· = .kNormal) (cf, f) :=
        (hasState_of_lookup hst).mpr (hnormal f hf)
      exact hasState_transited hst hn hf hfile fun _ _ => Or.inl rfl
  · change ((m.jobs ++ [({ cf := cf, inputs := inputs } : GcJob)]).flatMap GcJob.held).Nodup
    rw [List.flatMap_append, List.flatMap_singleton, hnew]
    refine List.nodup_append'.mpr ⟨h.distinct, hn.map fun a b hab => (Prod.mk.inj hab).2, ?_⟩
    intro file hfile hmem
    obtain ⟨job, hjob, hheld⟩ := List.mem_flatMap.mp hfile
    exact hold job hjob file hheld hmem
  · intro c hc
    rcases List.mem_append.mp hc with hc | hc
    · exact h.safe c hc
    · refine safe_transitFiles hn (fun f hf file hfile => ?_) c hc
      obtain ⟨file', hfile', hstate⟩ := hnormal f hf
      obtain rfl := Option.some.inj (hfile.symm.trans hfile')
      rw [hstate]
      exact ⟨rfl, fun h => (by cases h)⟩
  · intro file hfile
    exact hasState_transitFiles hst hn (hnot file _ hfile (fun h => (by cases h))) hfile

/-- `ReleaseGcFiles`. -/
theorem released {j : ℕ} {job : GcJob} (h : Lifecycle m) (hj : m.jobs[j]? = some job) :
    Lifecycle { m.release job with jobs := m.jobs.eraseIdx j } ∧
      KeepsObsolete m.set (m.release job).set := by
  obtain ⟨st, hst⟩ := h.open_column job (List.mem_of_getElem? hj)
  obtain ⟨hheld, hothers, hdisjoint⟩ := h.job_distinct hj
  have hn : job.files.Nodup := List.Nodup.of_map _ hheld
  have hjob : ∀ f ∈ job.files, m.set.HasState FileState.InGC (job.cf, f) := fun f hf =>
    h.held job (List.mem_of_getElem? hj) (job.cf, f) (List.mem_map_of_mem hf)
  have hmem : ∀ g ∈ m.jobs.eraseIdx j, g ∈ m.jobs := fun g hg => List.mem_of_mem_eraseIdx hg
  rw [FileMachine.release, hst]
  refine ⟨⟨?_, ?_, ?_, hothers, ?_⟩, ?_⟩
  · exact h.scores_transitFiles hst .kGCCompleted hn
  · exact fun g hg => open_setStorage _ (Or.inr (h.open_column g (hmem g hg)))
  · intro g hg file hfile
    have hnot : file ∉ job.held := fun hin =>
      hdisjoint file hin (List.mem_flatMap.mpr ⟨g, hg, hfile⟩)
    exact hasState_transitFiles hst hn hnot (h.held g (hmem g hg) file hfile)
  · intro c hc
    rcases List.mem_append.mp hc with hc | hc
    · exact h.safe c hc
    · rcases List.mem_append.mp hc with hc | hc
      · refine safe_transitFiles hn (fun f hf file hfile => ?_) c hc
        obtain ⟨file', hfile', hstate⟩ := (hasState_of_lookup hst).mp (hjob f hf)
        obtain rfl := Option.some.inj (hfile.symm.trans hfile')
        rcases hstate with hstate | hstate | hstate
        · rw [hstate]
          exact ⟨rfl, fun h => (by cases h)⟩
        · rw [hstate]
          exact ⟨rfl, fun h => (by cases h)⟩
        · rw [hstate]
          exact ⟨rfl, fun _ => rfl⟩
      · obtain ⟨f, -, rfl⟩ := List.mem_map.mp hc
        exact ⟨rfl, fun h => (by cases h)⟩
  · intro file hfile
    by_cases hin : file ∈ job.held
    · obtain ⟨f, hf, rfl⟩ := List.mem_map.mp hin
      refine hasState_transited hst hn hf hfile fun state hstate => ?_
      rw [hstate]
      rfl
    · exact hasState_transitFiles hst hn hin hfile

/-- New files are in the storage as they were added, and it had none of their numbers. -/
theorem lookup_new_outputs {s : BlobFileSet} {cf : UInt32} {st : BlobStorage} {event : FileEvent}
    {files : List (UInt64 × BlobFileMeta)} {io : ManifestIO}
    (hst : s.columnFamilies.lookup cf = some st)
    (hok : (s.logAndApply (addEditOf cf event files) io).1.isOk) :
    (files.map (·.1)).Nodup ∧
    ∃ st', (s.logAndApply (addEditOf cf event files) io).2.columnFamilies.lookup cf = some st' ∧
      ∀ file ∈ files, st.files.lookup file.1 = none ∧
        st'.files.lookup file.1 = some { file.2 with state := FileState.kInit.after event } := by
  have hnumbers : (newFiles event files).map (·.1) = files.map (·.1) := by
    rw [newFiles, List.map_map]
    rfl
  rcases s.logAndApply_cases (addEditOf cf event files) io with ⟨hno, -, -⟩ |
    ⟨-, -, -, hno, -⟩ | ⟨⟨collector, hadd, -⟩, -, -, -, storages, happlies, hset⟩
  · rw [hok] at hno
    cases hno
  · rw [hok] at hno
    cases hno
  · obtain ⟨-, hn, -⟩ := addEdit_empty hadd
    refine ⟨hnumbers ▸ hn, ?_⟩
    cases happlies with
    | unknown hnone => cases hst.symm.trans hnone
    | @known old st' hold hexact =>
        obtain rfl := Option.some.inj (hst.symm.trans hold)
        refine ⟨st', ?_, fun file hfile => ?_⟩
        · rw [hset]
          exact AList.lookup_insert _
        · have hadded : (file.1, { file.2 with state := FileState.kInit.after event }) ∈
              newFiles event files := List.mem_map_of_mem (f := fun file : UInt64 × BlobFileMeta =>
                (file.1, { file.2 with state := FileState.kInit.after event })) hfile
          exact hexact.added _ hadded (fun h => (by cases h))

theorem new_outputs {cf : UInt32} {st : BlobStorage} {files : List (UInt64 × BlobFileMeta)}
    {io : ManifestIO} (hst : m.set.columnFamilies.lookup cf = some st)
    (hok : (m.set.logAndApply (addEditOf cf .kGCOutput files) io).1.isOk) :
    (files.map (·.1)).Nodup ∧ ∀ f ∈ files.map (·.1), m.set.fileOf cf f = none ∧
      (m.set.logAndApply (addEditOf cf .kGCOutput files) io).2.HasState FileState.InGC (cf, f) := by
  obtain ⟨hn, st', hst', hfiles⟩ := lookup_new_outputs hst hok
  refine ⟨hn, fun f hf => ?_⟩
  obtain ⟨file, hfile, rfl⟩ := List.mem_map.mp hf
  obtain ⟨hnone, hsome⟩ := hfiles file hfile
  refine ⟨?_, (hasState_of_lookup hst').mpr ⟨_, hsome, Or.inr (Or.inl rfl)⟩⟩
  rw [BlobFileSet.fileOf, hst, Option.bind_some]
  exact hnone

/-- A GC job that installs its outputs. -/
theorem installed {j : ℕ} {job job' : GcJob} {files : List (UInt64 × BlobFileMeta)}
    {io : ManifestIO} (h : Lifecycle m) (hj : m.jobs[j]? = some job)
    (hok : (m.set.logAndApply (addEditOf job.cf .kGCOutput files) io).1.isOk)
    (hcf : job'.cf = job.cf) (hinputs : job'.inputs = job.inputs)
    (houtputs : job'.outputs = files.map (·.1)) :
    Lifecycle ((m.logged (addEditOf job.cf .kGCOutput files) io).setJob j job') := by
  obtain ⟨st, hst⟩ := h.open_column job (List.mem_of_getElem? hj)
  obtain ⟨hn, hnew⟩ := new_outputs hst hok
  obtain ⟨hheld, -, hdisjoint⟩ := h.job_distinct hj
  have hfiles : job'.files = job.inputs ++ files.map (·.1) := by
    rw [GcJob.files, hinputs, houtputs]
  have hinput : ∀ f ∈ job.inputs, (job.cf, f) ∈ job.held := fun f hf =>
    List.mem_map_of_mem (List.mem_append_left _ hf)
  have hnone : ∀ g ∈ m.jobs, ∀ f ∈ files.map (·.1), (job.cf, f) ∉ g.held := by
    intro g hg f hf hin
    obtain ⟨info, hinfo, -⟩ := h.held g hg _ hin
    cases (hnew f hf).1.symm.trans hinfo
  have hlogged := h.logged (addEditOf job.cf .kGCOutput files) io
  refine hlogged.setJob hj hcf ?_ ?_ ?_
  · intro file hfile
    rw [GcJob.held, hfiles, hcf] at hfile
    obtain ⟨f, hf, rfl⟩ := List.mem_map.mp hfile
    rcases List.mem_append.mp hf with hf | hf
    · exact hlogged.held job (List.mem_of_getElem? hj) _ (hinput f hf)
    · exact (hnew f hf).2
  · rw [GcJob.held, hfiles]
    refine List.Nodup.map (fun a b hab => (Prod.mk.inj hab).2) (List.nodup_append'.mpr ⟨?_, hn, ?_⟩)
    · exact (List.Nodup.of_map _ hheld).sublist (List.sublist_append_left _ _)
    · exact fun f hf hout => hnone job (List.mem_of_getElem? hj) f hout (hinput f hf)
  · intro file hfile hother
    rw [GcJob.held, hfiles, hcf] at hfile
    obtain ⟨f, hf, rfl⟩ := List.mem_map.mp hfile
    rcases List.mem_append.mp hf with hf | hf
    · exact hdisjoint _ (hinput f hf) hother
    · obtain ⟨g, hg, hin⟩ := List.mem_flatMap.mp hother
      exact hnone g (List.mem_of_mem_eraseIdx hg) f hf hin

end Lifecycle

end AegonKV
