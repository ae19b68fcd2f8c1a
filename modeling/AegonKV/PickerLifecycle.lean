import AegonKV.GcLifecycleSafe
import AegonKV.GcPicking
import AegonKV.ManifestRecovery

/-!
# The picker among running jobs

The machine of the blob files with what the picker has to live with: purges, column families that
are opened and destroyed, and a reopening of the database, whose files come from the manifest. A
file number is given out once. With level merge off the picker always finds the files of the
scores, whenever these were computed, and no two jobs hold the same file; a job that ends leaves its
files normal or obsolete, whatever became of it. A file that is purged while a job holds it is in no
storage any more.
-/

namespace AegonKV
open LittleEndian TransitionSystem

/-- The machine, with the file numbers that are in use or have been. -/
structure GcMachine where
  files : FileMachine := {}
  used : List UInt64 := []

/-- The files of a job, those of a failed installation among them. -/
def GcJob.numbers (job : GcJob) : List UInt64 := job.inputs ++ job.outputs ++ job.unlogged

def GcJob.owned (job : GcJob) : List (UInt32 × UInt64) := job.numbers.map fun f => (job.cf, f)

namespace GcMachine

inductive Action
  | file (a : FileMachine.Action)
  | addColumnFamily (cf : UInt32) (options : TitanCFOptions)
  | maybeDestroyColumnFamily (cf : UInt32)
  | getObsoleteFiles (oldestSequence : ℕ)
  | reopen (cfs : List (UInt32 × TitanCFOptions)) (env : RecoverEnv) (initialized : List UInt32)

def newNumbers : FileMachine.Action → List UInt64
  | .finishBlobFiles _ files _ => files.map (·.1)
  | .installOutputs _ _ files _ => files.map (·.1)
  | _ => []

def withSet (m : GcMachine) (set : BlobFileSet) : GcMachine :=
  { m with files := { m.files with set := set } }

def step (c : LifecycleConfig) (m : GcMachine) : Action → Option GcMachine
  | .file a =>
    -- `NewFileNumber` gives every number once.
    if a.isRestart = false ∧ (newNumbers a).Nodup ∧ (newNumbers a).all (fun f => f ∉ m.used) then
      (FileMachine.step c m.files a).map fun files => ⟨files, newNumbers a ++ m.used⟩
    else none
  | .addColumnFamily cf options => some (m.withSet (m.files.set.addColumnFamilies [(cf, options)]))
  | .maybeDestroyColumnFamily cf => some (m.withSet (m.files.set.maybeDestroyColumnFamily cf).2)
  | .getObsoleteFiles oldestSequence =>
    some (m.withSet (m.files.set.getObsoleteFiles oldestSequence).2)
  | .reopen cfs env initialized =>
    let recovered := recoverSet (openedSet cfs) env
    if recovered.status.isOk then
      (FileMachine.step c m.files (.restart recovered.set initialized)).map fun files =>
        ⟨files, aliveFiles recovered.set.columnFamilies⟩
    else none

/-- The files of one column family that jobs hold. -/
def heldIn (m : GcMachine) (cf : UInt32) : List UInt64 :=
  (m.files.jobs.filter fun job => job.cf = cf).flatMap GcJob.numbers

/-- The storages are tidy, and the files in the hands of the jobs are theirs alone. -/
structure Orderly (m : GcMachine) : Prop where
  tidy : ∀ cf st, m.files.set.columnFamilies.lookup cf = some st → st.Tidy
  held : ∀ job ∈ m.files.jobs, ∀ f ∈ job.numbers, ∀ file,
    m.files.set.fileOf job.cf f = some file → file.state.InGC
  distinct : (m.files.jobs.flatMap GcJob.owned).Nodup
  used_file : ∀ cf f file, m.files.set.fileOf cf f = some file → f ∈ m.used
  used_job : ∀ job ∈ m.files.jobs, ∀ f ∈ job.numbers, f ∈ m.used

end GcMachine

/-! ## What comes from the manifest -/

theorem tidy_replay {opened storages : BlobStorages} {records : List Bytes} {n : UInt64}
    (hopen : FreshlyOpened opened) (h : replay opened records = .ok (storages, n)) {cf : UInt32}
    {st : BlobStorage} (hst : storages.lookup cf = some st) : st.Tidy := by
  have hwf : st.WellFormed := by
    refine ⟨?_, fun p hp => ?_⟩
    · rw [(replay_init hopen h hst).1]
      exact List.nodup_nil
    · rw [(replay_init hopen h hst).1] at hp
      cases hp
  rcases replay_column h hst with hold | ⟨c, -, -, st0, -, happly, -⟩
  · rw [hopen cf st hold]
    exact BlobStorage.tidy_empty st.cfOptions
  · have hscored := CFEditCollector.scored_apply (c.collector.columnFamilies cf) st0
    rw [happly] at hscored
    obtain ⟨hlive, hdistinct⟩ := hscored rfl
    exact ⟨hdistinct, hlive, hwf⟩

/-- What `Open` makes of the manifest: tidy storages with files that have never seen an event. -/
theorem recovered_columns {cfs : List (UInt32 × TitanCFOptions)} {env : RecoverEnv}
    (h : (recoverSet (openedSet cfs) env).status.isOk) {cf : UInt32} {st : BlobStorage}
    (hst : (recoverSet (openedSet cfs) env).set.columnFamilies.lookup cf = some st) :
    st.Tidy ∧ ∀ f file, st.files.lookup f = some file → file.state = .kInit := by
  have hopen := openedSet_fresh cfs
  obtain ⟨storages, number, hreplay, hset, -⟩ := recoverSet_ok h
  rw [hset, lookup_purgeAll fun g st hg => (replay_init hopen hreplay hg).1] at hst
  exact ⟨tidy_replay hopen hreplay hst, (replay_init hopen hreplay hst).2⟩

theorem newlyRecovered_recoverSet {cfs : List (UInt32 × TitanCFOptions)} {env : RecoverEnv}
    (h : (recoverSet (openedSet cfs) env).status.isOk) :
    NewlyRecovered (recoverSet (openedSet cfs) env).set := by
  intro e he
  obtain ⟨htidy, hinit⟩ := recovered_columns h (AList.mem_lookup_iff.mpr he)
  exact ⟨htidy.distinct, fun f hf => hinit f.1 f.2 (AList.mem_lookup_iff.mpr hf)⟩

theorem evolves_initializeAllFiles {st : BlobStorage}
    (hinit : ∀ f file, st.files.lookup f = some file → file.state = .kInit) :
    st.Evolves [] (initializeAllFiles st).storage := by
  have hsame : st.SameFiles (Walk.transitFiles .kDbRestart st st.files.keys).storage := by
    refine Walk.sameFiles_transitFiles st.files.keys_nodup fun f _ file hfile => ?_
    rw [hinit f file hfile]
    exact ⟨fun h => (by cases h), fun h => (by cases h)⟩
  refine ⟨fun ht => BlobStorage.tidy_computeGCScore (hsame.wellFormed ht.wellFormed), ?_⟩
  intro f file' hfile'
  obtain ⟨file, hfile, -⟩ := hsame.symm.lookup hfile'
  refine Or.inr ⟨file, hfile, fun hgc => ?_⟩
  rw [hinit f file hfile] at hgc
  rcases hgc with hgc | hgc | hgc <;> cases hgc

theorem BlobFileSet.evolves_initializeGC {s : BlobFileSet} {cfs : List UInt32}
    (h : s.Initializable cfs) (hn : cfs.Nodup) : s.Evolves [] (s.initializeGC cfs).1 := by
  induction cfs generalizing s with
  | nil => exact .refl [] s
  | cons cf cfs ih =>
      obtain ⟨hnot, hn⟩ := List.nodup_cons.mp hn
      rw [initializeGC]
      cases hst : s.columnFamilies.lookup cf with
      | none => exact ih ⟨h.scores, fun g hg => h.init g (List.mem_cons_of_mem _ hg)⟩ hn
      | some st =>
          have hone := evolves_setStorage hst
            (evolves_initializeAllFiles (h.init cf List.mem_cons_self st hst))
          exact hone.trans (ih (h.setStorage hnot st) hn)

/-! ## The files of a set -/

namespace BlobFileSet

variable {s s' : BlobFileSet} {new : List UInt64} {cf : UInt32} {st : BlobStorage}

theorem Evolves.fileOf (h : s.Evolves new s') {f : UInt64} {file' : BlobFileMeta}
    (hfile' : s'.fileOf cf f = some file') : f ∈ new ∨
      ∃ file, s.fileOf cf f = some file ∧ (file.state.InGC → file'.state.InGC) := by
  obtain ⟨st', hst', hlookup⟩ := Option.bind_eq_some_iff.mp hfile'
  obtain ⟨st, hst, hevolves⟩ := h cf st' hst'
  rcases hevolves.files f file' hlookup with hnew | ⟨file, hfile, hgc⟩
  · exact Or.inl hnew
  · rcases hst with hst | ⟨options, rfl⟩
    · refine Or.inr ⟨file, ?_, hgc⟩
      rw [BlobFileSet.fileOf, hst, Option.bind_some]
      exact hfile
    · cases hfile

theorem Evolves.tidy (h : s.Evolves new s')
    (ht : ∀ cf st, s.columnFamilies.lookup cf = some st → st.Tidy) (cf : UInt32) (st' : BlobStorage)
    (hst' : s'.columnFamilies.lookup cf = some st') : st'.Tidy := by
  obtain ⟨st, hst, hevolves⟩ := h cf st' hst'
  refine hevolves.tidy ?_
  rcases hst with hst | ⟨options, rfl⟩
  · exact ht cf st hst
  · exact BlobStorage.tidy_empty options

/-- The files of a set after one event on some files of a column family. -/
theorem fileOf_transitFiles (hst : s.columnFamilies.lookup cf = some st) (event : FileEvent)
    {numbers : List UInt64} (hn : numbers.Nodup) (g : UInt32) (f : UInt64) :
    (s.setStorage cf (Walk.transitFiles event st numbers).storage).fileOf g f =
      if g = cf ∧ f ∈ numbers then
        (s.fileOf g f).map fun file => { file with state := file.state.after event }
      else s.fileOf g f := by
  have htransited := Walk.transited_transitFiles event hn st
  by_cases hg : g = cf
  · rw [hg, fileOf_setStorage, fileOf, hst, Option.bind_some]
    by_cases hf : f ∈ numbers
    · rw [if_pos ⟨rfl, hf⟩]
      exact htransited.lookup_mem f hf
    · rw [if_neg fun h => hf h.2]
      exact htransited.lookup_other f hf
  · rw [if_neg fun h => hg h.1]
    exact fileOf_setStorage_ne _ f hg

end BlobFileSet

/-! ## The steps -/

namespace GcMachine

variable {c : LifecycleConfig} {m m' : GcMachine} {new : List UInt64} {s' : BlobFileSet}

/-- What is no event of a GC job. -/
theorem Orderly.evolved (h : m.Orderly) (hset : m.files.set.Evolves new m'.files.set)
    (hnew : ∀ f ∈ new, f ∉ m.used) (hjobs : m'.files.jobs = m.files.jobs)
    (hused : m'.used = new ++ m.used) : m'.Orderly where
  tidy := hset.tidy h.tidy
  held job hjob f hf file' hfile' := by
    rw [hjobs] at hjob
    rcases hset.fileOf hfile' with hmem | ⟨file, hfile, hgc⟩
    · exact absurd (h.used_job job hjob f hf) (hnew f hmem)
    · exact hgc (h.held job hjob f hf file hfile)
  distinct := by
    rw [hjobs]
    exact h.distinct
  used_file cf f file' hfile' := by
    rw [hused, List.mem_append]
    rcases hset.fileOf hfile' with hmem | ⟨file, hfile, -⟩
    · exact Or.inl hmem
    · exact Or.inr (h.used_file cf f file hfile)
  used_job job hjob f hf := by
    rw [hjobs] at hjob
    rw [hused]
    exact List.mem_append_right _ (h.used_job job hjob f hf)

/-- No other job has the files of a job. -/
theorem Orderly.job_distinct {j : ℕ} {job : GcJob} (h : m.Orderly) (hj : m.files.jobs[j]? = some job) :
    job.numbers.Nodup ∧ ((m.files.jobs.eraseIdx j).flatMap GcJob.owned).Nodup ∧
      ∀ g ∈ m.files.jobs.eraseIdx j, g.cf = job.cf → ∀ f ∈ g.numbers, f ∉ job.numbers := by
  obtain ⟨hn, hothers, hdisjoint⟩ := Ownership.nodup_of_getElem? h.distinct hj
  refine ⟨List.Nodup.of_map _ hn, hothers, fun g hg hcf f hf hmem => ?_⟩
  refine hdisjoint (job.cf, f) (List.mem_map_of_mem hmem) (List.mem_flatMap.mpr ⟨g, hg, ?_⟩)
  rw [← hcf]
  exact List.mem_map_of_mem hf

/-- A job with files of its own, old or new, in the place of one. -/
theorem Orderly.setJob {j : ℕ} {job job' : GcJob} (h : m.Orderly)
    (hj : m.files.jobs[j]? = some job) (hcf : job'.cf = job.cf) (hn : job'.numbers.Nodup)
    (hnumbers : ∀ f ∈ job'.numbers, f ∈ job.numbers ∨
      f ∈ m.used ∧ ∀ g ∈ m.files.jobs, f ∉ g.numbers)
    (hheld : ∀ f ∈ job'.numbers, f ∉ job.numbers → ∀ file,
      m.files.set.fileOf job.cf f = some file → file.state.InGC) :
    Orderly { m with files := m.files.setJob j job' } := by
  have hmem : job ∈ m.files.jobs := List.mem_of_getElem? hj
  have hcases : ∀ g ∈ m.files.jobs.set j job', g = job' ∨ g ∈ m.files.jobs := fun g hg =>
    (Ownership.mem_set hj hg).imp id List.mem_of_mem_eraseIdx
  constructor
  case tidy => exact h.tidy
  case held =>
    intro g hg f hf file hfile
    rcases hcases g hg with rfl | hg
    · by_cases hold : f ∈ job.numbers
      · exact h.held job hmem f hold file (hcf ▸ hfile)
      · exact hheld f hf hold file (hcf ▸ hfile)
    · exact h.held g hg f hf file hfile
  case distinct =>
    refine Ownership.nodup_set h.distinct hj (hn.map fun a b hab => (Prod.mk.inj hab).2) ?_
    intro x hx hother
    obtain ⟨f, hf, rfl⟩ := List.mem_map.mp hx
    obtain ⟨g, hg, hgx⟩ := List.mem_flatMap.mp hother
    obtain ⟨f', hf', heq⟩ := List.mem_map.mp hgx
    obtain ⟨hgcf, rfl⟩ := Prod.mk.inj heq
    rcases hnumbers f' hf with hold | ⟨-, hfree⟩
    · exact (h.job_distinct hj).2.2 g hg (hgcf.trans hcf) f' hf' hold
    · exact hfree g (List.mem_of_mem_eraseIdx hg) hf'
  case used_file => exact h.used_file
  case used_job =>
    intro g hg f hf
    rcases hcases g hg with rfl | hg
    · rcases hnumbers f hf with hold | ⟨hused, -⟩
      · exact h.used_job job hmem f hold
      · exact hused
    · exact h.used_job g hg f hf

/-- One event on files of a column family that takes none out of the obsolete ones. -/
theorem Orderly.tidy_transitFiles (h : m.Orderly) {cf : UInt32} {st : BlobStorage}
    (hst : m.files.set.columnFamilies.lookup cf = some st) {event : FileEvent}
    {numbers : List UInt64} (hn : numbers.Nodup)
    (hkeeps : ∀ f ∈ numbers, ∀ file, st.files.lookup f = some file →
      (file.state.after event = .kObsolete ↔ file.state = .kObsolete))
    (g : UInt32) (st' : BlobStorage)
    (hst' : (m.files.set.setStorage cf
      (Walk.transitFiles event st numbers).storage).columnFamilies.lookup g = some st') :
    st'.Tidy := by
  by_cases hg : g = cf
  · rw [hg, BlobFileSet.lookup_setStorage_self] at hst'
    obtain rfl := Option.some.inj hst'
    exact (Walk.sameFiles_transitFiles hn hkeeps).tidy
      (Walk.transited_transitFiles event hn st).scores (h.tidy cf st hst)
  · rw [BlobFileSet.lookup_setStorage_ne _ _ hg] at hst'
    exact h.tidy g st' hst'

theorem used_transitFiles (h : m.Orderly) {cf : UInt32} {st : BlobStorage}
    (hst : m.files.set.columnFamilies.lookup cf = some st) (event : FileEvent)
    {numbers : List UInt64} (hn : numbers.Nodup) (g : UInt32) (f : UInt64) (file : BlobFileMeta)
    (hfile : (m.files.set.setStorage cf (Walk.transitFiles event st numbers).storage).fileOf g f =
      some file) : f ∈ m.used := by
  rw [BlobFileSet.fileOf_transitFiles hst event hn] at hfile
  split_ifs at hfile
  · obtain ⟨old, hold, -⟩ := Option.map_eq_some_iff.mp hfile
    exact h.used_file g f old hold
  · exact h.used_file g f file hfile

theorem mem_heldIn {cf : UInt32} {f : UInt64} :
    f ∈ m.heldIn cf ↔ ∃ job ∈ m.files.jobs, job.cf = cf ∧ f ∈ job.numbers := by
  simp only [heldIn, List.mem_flatMap, List.mem_filter, decide_eq_true_eq, and_assoc]

theorem Orderly.picksWell (h : m.Orderly) (p : GcPickOptions) {cf : UInt32} {st : BlobStorage}
    (hst : m.files.set.columnFamilies.lookup cf = some st) : PicksWell p st (m.heldIn cf) := by
  refine (h.tidy cf st hst).picksWell p fun f hf file hfile => ?_
  obtain ⟨job, hjob, hcf, hmem⟩ := mem_heldIn.mp hf
  refine h.held job hjob f hmem file ?_
  rw [hcf, BlobFileSet.fileOf, hst, Option.bind_some]
  exact hfile

/-- `BlobGC::BlobGC` of picked files. -/
theorem Orderly.picked {cf : UInt32} {st : BlobStorage} {p : GcPickOptions} {inputs : List UInt64}
    (h : m.Orderly) (hst : m.files.set.columnFamilies.lookup cf = some st)
    (hpick : pickBlobGC p st = some inputs)
    (hset : m'.files.set = m.files.set.setStorage cf (Walk.transitFiles .kGCBegin st inputs).storage)
    (hjobs : m'.files.jobs = m.files.jobs ++ [{ cf := cf, inputs := inputs }])
    (hused : m'.used = m.used) : m'.Orderly := by
  have hpicks := h.picksWell p hst
  obtain ⟨hn, hnormal⟩ := hpicks.normal inputs hpick
  have hnew : GcJob.numbers { cf := cf, inputs := inputs } = inputs := by
    rw [GcJob.numbers, List.append_nil, List.append_nil]
  have hfree : ∀ job ∈ m.files.jobs, job.cf = cf → ∀ f ∈ job.numbers, f ∉ inputs :=
    fun job hjob hcf f hf hmem =>
      hpicks.free inputs hpick f hmem (mem_heldIn.mpr ⟨job, hjob, hcf, hf⟩)
  constructor
  case tidy =>
    rw [hset]
    refine h.tidy_transitFiles hst hn fun f hf file hfile => ?_
    obtain ⟨file', hfile', hstate⟩ := hnormal f hf
    obtain rfl := Option.some.inj (hfile.symm.trans hfile')
    rw [hstate]
    exact ⟨fun h => (by cases h), fun h => (by cases h)⟩
  case held =>
    intro job hjob f hf file hfile
    rw [hset, BlobFileSet.fileOf_transitFiles hst .kGCBegin hn] at hfile
    rw [hjobs] at hjob
    rcases List.mem_append.mp hjob with hjob | hjob
    · rw [if_neg fun hmem => hfree job hjob hmem.1 f hf hmem.2] at hfile
      exact h.held job hjob f hf file hfile
    · obtain rfl := List.mem_singleton.mp hjob
      rw [hnew] at hf
      rw [if_pos ⟨rfl, hf⟩] at hfile
      obtain ⟨old, -, rfl⟩ := Option.map_eq_some_iff.mp hfile
      exact Or.inl rfl
  case distinct =>
    rw [hjobs, List.flatMap_append, List.flatMap_singleton]
    refine List.nodup_append'.mpr ⟨h.distinct, ?_, fun x hx hmem => ?_⟩
    · rw [GcJob.owned, hnew]
      exact hn.map fun a b hab => (Prod.mk.inj hab).2
    · obtain ⟨job, hjob, hjobx⟩ := List.mem_flatMap.mp hx
      obtain ⟨f, hf, rfl⟩ := List.mem_map.mp hjobx
      rw [GcJob.owned, hnew] at hmem
      obtain ⟨f', hf', heq⟩ := List.mem_map.mp hmem
      obtain ⟨hcf, rfl⟩ := Prod.mk.inj heq
      exact hfree job hjob hcf.symm f' hf hf'
  case used_file =>
    rw [hset, hused]
    exact used_transitFiles h hst .kGCBegin hn
  case used_job =>
    intro job hjob f hf
    rw [hused]
    rw [hjobs] at hjob
    rcases List.mem_append.mp hjob with hjob | hjob
    · exact h.used_job job hjob f hf
    · obtain rfl := List.mem_singleton.mp hjob
      rw [hnew] at hf
      obtain ⟨file, hfile, -⟩ := hnormal f hf
      refine h.used_file cf f file ?_
      rw [BlobFileSet.fileOf, hst, Option.bind_some]
      exact hfile

theorem set_release {job : GcJob} {st : BlobStorage} (files : FileMachine)
    (hst : files.set.columnFamilies.lookup job.cf = some st) :
    (files.release job).set =
      files.set.setStorage job.cf (Walk.transitFiles .kGCCompleted st job.files).storage := by
  rw [FileMachine.release, hst]
  rfl

theorem numbers_of_files {job : GcJob} {f : UInt64} (h : f ∈ job.files) : f ∈ job.numbers :=
  List.mem_append_left _ h

/-- `ReleaseGcFiles`. -/
theorem Orderly.released {j : ℕ} {job : GcJob} (h : m.Orderly)
    (hj : m.files.jobs[j]? = some job) (hset : m'.files.set = (m.files.release job).set)
    (hjobs : m'.files.jobs = m.files.jobs.eraseIdx j) (hused : m'.used = m.used) : m'.Orderly := by
  have hmem : ∀ g ∈ m.files.jobs.eraseIdx j, g ∈ m.files.jobs := fun g hg =>
    List.mem_of_mem_eraseIdx hg
  obtain ⟨hn, hothers, hfree⟩ := h.job_distinct hj
  have hfiles : job.files.Nodup := hn.of_append_left
  have hdistinct : (m'.files.jobs.flatMap GcJob.owned).Nodup := by
    rw [hjobs]
    exact hothers
  have husedJob : ∀ g ∈ m'.files.jobs, ∀ f ∈ g.numbers, f ∈ m'.used := by
    rw [hused, hjobs]
    exact fun g hg => h.used_job g (hmem g hg)
  cases hst : m.files.set.columnFamilies.lookup job.cf with
  | none =>
      have hsame : m'.files.set = m.files.set := by rw [hset, FileMachine.release, hst]
      refine ⟨?_, ?_, hdistinct, ?_, husedJob⟩
      · rw [hsame]
        exact h.tidy
      · rw [hsame, hjobs]
        exact fun g hg => h.held g (hmem g hg)
      · rw [hsame, hused]
        exact h.used_file
  | some st =>
      rw [set_release m.files hst] at hset
      refine ⟨?_, ?_, hdistinct, ?_, husedJob⟩
      · rw [hset]
        refine h.tidy_transitFiles hst hfiles fun f _ file _ => ?_
        cases file.state <;> simp [FileState.after]
      · rw [hset, hjobs]
        intro g hg f hf file hfile
        rw [BlobFileSet.fileOf_transitFiles hst .kGCCompleted hfiles, if_neg fun hin =>
          hfree g hg hin.1 f hf (numbers_of_files hin.2)] at hfile
        exact h.held g (hmem g hg) f hf file hfile
      · rw [hset, hused]
        exact used_transitFiles h hst .kGCCompleted hfiles

/-- The files of a job after `ReleaseGcFiles`. -/
theorem Orderly.states_release {j : ℕ} {job : GcJob} (h : m.Orderly)
    (hj : m.files.jobs[j]? = some job) : ∀ f ∈ job.files, ∀ file,
      (m.files.release job).set.fileOf job.cf f = some file →
        file.state = .kNormal ∨ file.state = .kObsolete := by
  intro f hf file hfile
  have hfiles : job.files.Nodup := (h.job_distinct hj).1.of_append_left
  cases hst : m.files.set.columnFamilies.lookup job.cf with
  | none =>
      rw [FileMachine.release, hst, BlobFileSet.fileOf, hst] at hfile
      cases hfile
  | some st =>
      rw [set_release m.files hst, BlobFileSet.fileOf_transitFiles hst .kGCCompleted hfiles,
        if_pos ⟨rfl, hf⟩] at hfile
      obtain ⟨old, hold, rfl⟩ := Option.map_eq_some_iff.mp hfile
      have hgc := h.held job (List.mem_of_getElem? hj) f (numbers_of_files hf) old hold
      rcases hgc with hstate | hstate | hstate
      · exact Or.inl (by rw [hstate]; rfl)
      · exact Or.inl (by rw [hstate]; rfl)
      · exact Or.inr (by rw [hstate]; rfl)

/-- The files that an installation adds are pending, or in no storage. -/
theorem inGC_installed {s : BlobFileSet} {cf : UInt32} {files : List (UInt64 × BlobFileMeta)}
    {io : ManifestIO} (hnew : ∀ f ∈ files.map (·.1), s.fileOf cf f = none) {f : UInt64}
    (hf : f ∈ files.map (·.1)) {file : BlobFileMeta}
    (hfile : (s.logAndApply (addEditOf cf .kGCOutput files) io).2.fileOf cf f = some file) :
    file.state.InGC := by
  have hchanged : (s.logAndApply (addEditOf cf .kGCOutput files) io).2.columnFamilies ≠
      s.columnFamilies := by
    intro hsame
    rw [BlobFileSet.fileOf, hsame] at hfile
    cases (hnew f hf).symm.trans hfile
  rcases s.logAndApply_cases (addEditOf cf .kGCOutput files) io with ⟨-, hset, -⟩ |
    ⟨-, -, -, -, hset⟩ | ⟨-, -, -, hok, storages, happlies, hset⟩
  · exact absurd (congrArg (·.columnFamilies) hset) hchanged
  · exact absurd (congrArg (·.columnFamilies) hset) hchanged
  · cases happlies with
    | unknown hnone => exact absurd (congrArg (·.columnFamilies) hset) hchanged
    | known hst hexact =>
        obtain ⟨file', hfile', hgc⟩ :=
          ((Lifecycle.new_outputs (m := { set := s }) hst hok).2 f hf).2
        obtain rfl := Option.some.inj (hfile'.symm.trans hfile)
        exact hgc

theorem numbers_addEditOf (cf : UInt32) (event : FileEvent)
    (files : List (UInt64 × BlobFileMeta)) :
    (addEditOf cf event files).addedFiles.map (·.1) = files.map (·.1) := by
  rw [addEditOf, newFiles, List.map_map]
  rfl

/-- `InstallOutputBlobFiles`: the job gets the new files, as outputs or after a failure. -/
theorem Orderly.installed {j : ℕ} {job job' : GcJob} {files : List (UInt64 × BlobFileMeta)}
    {io : ManifestIO} (h : m.Orderly) (hj : m.files.jobs[j]? = some job) 
    (hnew : ∀ f ∈ files.map (·.1), f ∉ m.used) (hcf : job'.cf = job.cf) (hnodup : job'.numbers.Nodup)
    (hnumbers : ∀ f ∈ job'.numbers, f ∈ job.numbers ∨ f ∈ files.map (·.1))
    (hset : m'.files.set = (m.files.set.logAndApply (addEditOf job.cf .kGCOutput files) io).2)
    (hjobs : m'.files.jobs = m.files.jobs.set j job')
    (hused : m'.used = files.map (·.1) ++ m.used) : m'.Orderly := by
  set mid : GcMachine := ⟨{ m.files with
    set := (m.files.set.logAndApply (addEditOf job.cf .kGCOutput files) io).2 },
    files.map (·.1) ++ m.used⟩ with hmid
  have hevolves := m.files.set.evolves_logAndApply (addEditOf job.cf .kGCOutput files) io
  rw [numbers_addEditOf] at hevolves
  have horderly : mid.Orderly := h.evolved hevolves hnew rfl rfl
  have hmidJob : mid.files.jobs[j]? = some job := hj
  have hjob : Orderly { mid with files := mid.files.setJob j job' } := by
    refine horderly.setJob hmidJob hcf hnodup (fun f hf => ?_) fun f hf hold file hfile => ?_
    · refine (hnumbers f hf).imp id fun hmem => ⟨List.mem_append_left _ hmem, fun g hg hgf => ?_⟩
      exact hnew f hmem (h.used_job g hg f hgf)
    · refine inGC_installed (fun g hg => ?_) ((hnumbers f hf).resolve_left hold) hfile
      cases hnone : m.files.set.fileOf job.cf g with
      | none => rfl
      | some old => exact absurd (h.used_file job.cf g old hnone) (hnew g hg)
  exact hjob.evolved (.of_eq (by rw [hset]; rfl) []) (fun f hf => (by cases hf)) hjobs hused

/-! ## Runs -/

theorem installOutputs_orderly {j : ℕ} {offload : Bool} {files : List (UInt64 × BlobFileMeta)}
    {io : ManifestIO} {files' : FileMachine} (h : m.Orderly) (hn : (files.map (·.1)).Nodup)
    (hnew : ∀ f ∈ files.map (·.1), f ∉ m.used)
    (hs : FileMachine.step c m.files (.installOutputs j offload files io) = some files') :
    Orderly ⟨files', files.map (·.1) ++ m.used⟩ := by
  cases hj : m.files.jobs[j]? with
  | none => simp only [FileMachine.step, hj, reduceCtorEq] at hs
  | some job =>
      simp only [FileMachine.step, hj] at hs
      obtain ⟨hnumbers, -, -⟩ := h.job_distinct hj
      have hdisjoint : ∀ f ∈ files.map (·.1), f ∉ job.numbers := fun f hf hmem =>
        hnew f hf (h.used_job job (List.mem_of_getElem? hj) f hmem)
      rw [GcJob.numbers] at hnumbers hdisjoint
      split_ifs at hs with hstage hok hoffload
      · obtain rfl := Option.some.inj hs
        refine h.installed hj hnew ?_ ?_ ?_ rfl rfl rfl
        · rfl
        · simp only [GcJob.numbers]
          grind
        · simp only [GcJob.numbers]
          grind
      · obtain rfl := Option.some.inj hs
        refine h.installed hj hnew ?_ ?_ ?_ rfl rfl rfl
        · rfl
        · simp only [GcJob.numbers]
          grind
        · simp only [GcJob.numbers]
          grind
      · obtain rfl := Option.some.inj hs
        refine h.installed hj hnew ?_ ?_ ?_ rfl rfl rfl
        · rfl
        · simp only [GcJob.numbers]
          grind
        · simp only [GcJob.numbers]
          grind

theorem Orderly.set_evolved (h : m.Orderly) {set : BlobFileSet}
    (hset : m.files.set.Evolves [] set) : (m.withSet set).Orderly :=
  h.evolved hset (fun f hf => (by cases hf)) rfl rfl

/-- A later stage of a job. -/
theorem Orderly.setStage {j : ℕ} {job job' : GcJob} (h : m.Orderly)
    (hj : m.files.jobs[j]? = some job) (hcf : job'.cf = job.cf)
    (hnumbers : job'.numbers = job.numbers) :
    Orderly { m with files := m.files.setJob j job' } := by
  refine h.setJob hj hcf ?_ (fun f hf => Or.inl (hnumbers ▸ hf)) fun f hf hnot => ?_
  · rw [hnumbers]
    exact (h.job_distinct hj).1
  · exact absurd (hnumbers ▸ hf) hnot

/-- A step of a job that adds no files. -/
theorem Orderly.staged {j : ℕ} {job job' : GcJob} (h : m.Orderly)
    (hset : m.files.set.Evolves [] m'.files.set) (hj : m.files.jobs[j]? = some job)
    (hcf : job'.cf = job.cf) (hnumbers : job'.numbers = job.numbers)
    (hjobs : m'.files.jobs = m.files.jobs.set j job') (hused : m'.used = m.used) : m'.Orderly := by
  have hmid : (m.withSet m'.files.set).files.jobs[j]? = some job := hj
  have hstage := (h.set_evolved hset).setStage hmid hcf hnumbers
  exact hstage.evolved (.refl [] m'.files.set) (fun f hf => (by cases hf)) hjobs hused

theorem rewriteValidKeys_orderly {j : ℕ} {dropped : List (UInt64 × UInt64)} {files' : FileMachine}
    (h : m.Orderly)
    (hs : FileMachine.step c m.files (.rewriteValidKeys j dropped) = some files') :
    Orderly ⟨files', m.used⟩ := by
  cases hj : m.files.jobs[j]? with
  | none => simp only [FileMachine.step, hj, reduceCtorEq] at hs
  | some job =>
      simp only [FileMachine.step, hj] at hs
      split_ifs at hs with hstage
      cases hst : m.files.set.columnFamilies.lookup job.cf with
      | none =>
          simp only [hst] at hs
          obtain rfl := Option.some.inj hs
          refine h.staged (.refl [] m.files.set) hj ?_ ?_ rfl rfl
          · rfl
          · rfl
      | some st =>
          simp only [hst] at hs
          obtain rfl := Option.some.inj hs
          have hset := BlobFileSet.evolves_setStorage hst (BlobFileSet.evolves_rewriteDropped st dropped)
          refine h.staged hset hj ?_ ?_ rfl rfl
          · rfl
          · rfl

theorem deleteInputBlobFiles_orderly {j seq : ℕ} {io : ManifestIO} {files' : FileMachine}
    (h : m.Orderly)
    (hs : FileMachine.step c m.files (.deleteInputBlobFiles j seq io) = some files') :
    Orderly ⟨files', m.used⟩ := by
  cases hj : m.files.jobs[j]? with
  | none => simp only [FileMachine.step, hj, reduceCtorEq] at hs
  | some job =>
      simp only [FileMachine.step, hj] at hs
      split_ifs at hs with hstage
      obtain rfl := Option.some.inj hs
      have hset := m.files.set.evolves_logAndApply (m.files.inputEdit job seq) io
      refine h.staged hset hj ?_ ?_ rfl rfl
      · rfl
      · rfl

theorem fileStep_orderly (hlevel : ∀ cf, (c.merge cf).levelMerge = false)
    {a : FileMachine.Action} {files' : FileMachine} (h : m.Orderly) (hrestart : a.isRestart = false)
    (hn : (newNumbers a).Nodup) (hnew : ∀ f ∈ newNumbers a, f ∉ m.used)
    (hs : FileMachine.step c m.files a = some files') :
    Orderly ⟨files', newNumbers a ++ m.used⟩ := by
  -- The steps that are no event of a job evolve the set, without new files or with their own.
  have hevolved : m.files.set.Evolves (newNumbers a) files'.set → files'.jobs = m.files.jobs →
      Orderly ⟨files', newNumbers a ++ m.used⟩ := fun hset hjobs => h.evolved hset hnew hjobs rfl
  cases a with
  | finishBlobFiles cf files io =>
      obtain rfl := Option.some.inj hs
      have hset := m.files.set.evolves_logAndApply
        (addEditOf cf .kFlushOrCompactionOutput files) io
      rw [numbers_addEditOf] at hset
      exact hevolved hset rfl
  | flushCompleted cf diff =>
      obtain rfl := Option.some.inj hs
      exact hevolved (m.files.set.evolves_onFlushCompleted cf diff) rfl
  | compactionCompleted cf outputLevel diff seq io =>
      obtain rfl := Option.some.inj hs
      exact hevolved (m.files.set.evolves_onCompactionCompleted (hlevel cf) cf outputLevel diff seq io)
        rfl
  | deleteFilesInRanges cf diff seq io =>
      obtain rfl := Option.some.inj hs
      exact hevolved (m.files.set.evolves_deleteFilesInRanges (hlevel cf) cf diff seq io) rfl
  | deleteBlobFilesInRanges cf ranges includeEnd seq io =>
      rw [FileMachine.step] at hs
      split at hs
      · obtain rfl := Option.some.inj hs
        exact h
      · rename_i st _
        obtain rfl := Option.some.inj hs
        exact hevolved (m.files.set.evolves_logAndApply
          (BlobFileSet.rangeDeletion cf st ranges includeEnd seq) io) rfl
  | pickBlobGC cf =>
      simp only [FileMachine.step] at hs
      split at hs
      · obtain rfl := Option.some.inj hs
        exact h
      · rename_i st hst
        split at hs
        · obtain rfl := Option.some.inj hs
          exact h
        · rename_i inputs hinputs
          obtain rfl := Option.some.inj hs
          split_ifs at hinputs
          exact h.picked hst hinputs rfl rfl rfl
  | installOutputs j offload files io => exact installOutputs_orderly h hn hnew hs
  | rewriteValidKeys j dropped => exact rewriteValidKeys_orderly h hs
  | deleteInputBlobFiles j seq io => exact deleteInputBlobFiles_orderly h hs
  | releaseGcFiles j =>
      cases hj : m.files.jobs[j]? with
      | none => simp only [FileMachine.step, hj, reduceCtorEq] at hs
      | some job =>
          simp only [FileMachine.step, hj] at hs
          obtain rfl := Option.some.inj hs
          exact h.released hj rfl rfl rfl
  | dropColumnFamilies seq cfs =>
      obtain rfl := Option.some.inj hs
      exact hevolved (m.files.set.evolves_dropColumnFamilies seq cfs) rfl
  | restart recovered initialized => cases hrestart

/-- What `Open` and `InitializeGC` leave. -/
theorem reopened_orderly {cfs : List (UInt32 × TitanCFOptions)} {env : RecoverEnv}
    {initialized : List UInt32} {files' : FileMachine}
    (hok : (recoverSet (openedSet cfs) env).status.isOk)
    (hs : FileMachine.step c m.files (.restart (recoverSet (openedSet cfs) env).set initialized) =
      some files') :
    Orderly ⟨files', aliveFiles (recoverSet (openedSet cfs) env).set.columnFamilies⟩ := by
  rw [FileMachine.step] at hs
  split_ifs at hs with hrestart
  obtain rfl := Option.some.inj hs
  set recovered := (recoverSet (openedSet cfs) env).set with hrecovered
  have hevolves : recovered.Evolves [] (recovered.initializeGC initialized).1 :=
    BlobFileSet.evolves_initializeGC
      (BlobFileSet.initializable_of_newlyRecovered hrestart.1 initialized) hrestart.2
  constructor
  case tidy => exact hevolves.tidy fun cf st hst => (recovered_columns hok hst).1
  case held => exact fun job hjob => (by cases hjob)
  case distinct => exact List.nodup_nil
  case used_file =>
    intro cf f file' hfile'
    rcases hevolves.fileOf hfile' with hnew | ⟨file, hfile, -⟩
    · cases hnew
    · obtain ⟨st, hst, hlookup⟩ := Option.bind_eq_some_iff.mp hfile
      refine mem_aliveFiles.mpr ⟨cf, st, hst, ?_⟩
      rw [hlookup]
      rfl
  case used_job => exact fun job hjob => (by cases hjob)

theorem step_orderly (hlevel : ∀ cf, (c.merge cf).levelMerge = false) {a : Action}
    (h : m.Orderly) (hs : step c m a = some m') : m'.Orderly := by
  cases a with
  | file a =>
      rw [step] at hs
      split_ifs at hs with hnew
      obtain ⟨files', hfiles, rfl⟩ := Option.map_eq_some_iff.mp hs
      exact fileStep_orderly hlevel h hnew.1 hnew.2.1
        (fun f hf => by simpa using List.all_eq_true.mp hnew.2.2 f hf) hfiles
  | addColumnFamily cf options =>
      obtain rfl := Option.some.inj hs
      exact h.set_evolved (m.files.set.evolves_addColumnFamilies cf options)
  | maybeDestroyColumnFamily cf =>
      obtain rfl := Option.some.inj hs
      exact h.set_evolved (m.files.set.evolves_maybeDestroyColumnFamily cf)
  | getObsoleteFiles oldestSequence =>
      obtain rfl := Option.some.inj hs
      exact h.set_evolved (m.files.set.evolves_getObsoleteFiles oldestSequence)
  | reopen cfs env initialized =>
      simp only [step] at hs
      split_ifs at hs with hok
      obtain ⟨files', hfiles, rfl⟩ := Option.map_eq_some_iff.mp hs
      exact reopened_orderly hok hfiles

theorem orderly_empty : Orderly {} where
  tidy _ _ hst := by cases hst
  held _ hjob := by cases hjob
  distinct := List.nodup_nil
  used_file _ _ _ hfile := by cases hfile
  used_job _ hjob := by cases hjob

/-- After `ReleaseGcFiles` no file of the job is in the hands of a job. -/
def Releases (c : LifecycleConfig) (m : GcMachine) (j : ℕ) (job : GcJob) : Prop :=
  ∃ m', step c m (.file (.releaseGcFiles j)) = some m' ∧
    ∀ f ∈ job.files, ∀ file, m'.files.set.fileOf job.cf f = some file →
      file.state = .kNormal ∨ file.state = .kObsolete

theorem Orderly.releases {j : ℕ} {job : GcJob} (h : m.Orderly)
    (hj : m.files.jobs[j]? = some job) : Releases c m j job := by
  set files' : FileMachine := { m.files.release job with jobs := m.files.jobs.eraseIdx j }
    with hfiles'
  have hfiles : FileMachine.step c m.files (.releaseGcFiles j) = some files' := by
    simp only [FileMachine.step, hj, ← hfiles']
  refine ⟨⟨files', m.used⟩, ?_, h.states_release hj⟩
  rw [step, hfiles]
  rfl

/-- With level merge off, in every state that a run reaches the picker finds a file for every score,
takes only normal files that no running job holds, and keeps to the sizes of a batch; and every
running job may end there and then leaves its files normal or obsolete. -/
theorem picks_and_releases (hlevel : ∀ cf, (c.merge cf).levelMerge = false)
    {actions : List Action} (hrun : run (step c) {} actions = some m) :
    (∀ cf st, m.files.set.columnFamilies.lookup cf = some st →
      PicksWell (c.pick cf) st (m.heldIn cf)) ∧
    ∀ j job, m.files.jobs[j]? = some job → Releases c m j job := by
  have horderly : m.Orderly :=
    run_invariant_always (fun _ _ _ h hs => step_orderly hlevel h hs) orderly_empty hrun
  exact ⟨fun cf st hst => horderly.picksWell (c.pick cf) hst, fun j job hj => horderly.releases hj⟩

/-- The picker hands out a job. -/
theorem step_pickBlobGC {c : LifecycleConfig} {m : GcMachine} {cf : UInt32} {st : BlobStorage}
    {inputs : List UInt64} (hst : m.files.set.columnFamilies.lookup cf = some st)
    (hopen : cf ∉ m.files.set.obsoleteColumns) (hpick : pickBlobGC (c.pick cf) st = some inputs) :
    step c m (.file (.pickBlobGC cf)) =
      some ⟨{ m.files.made (m.files.set.setStorage cf (Walk.transitFiles .kGCBegin st inputs).storage,
          (Walk.transitFiles .kGCBegin st inputs).calls) with
        jobs := m.files.jobs ++ [{ cf := cf, inputs := inputs }] }, m.used⟩ := by
  rw [step, FileMachine.step, hst]
  dsimp only
  rw [if_neg hopen, hpick]
  rfl

/-- The database opens whenever `Recover` succeeds. -/
theorem reopen_enabled (c : LifecycleConfig) (m : GcMachine)
    {cfs : List (UInt32 × TitanCFOptions)} {env : RecoverEnv} {initialized : List UInt32}
    (hok : (recoverSet (openedSet cfs) env).status.isOk) (hn : initialized.Nodup) :
    step c m (.reopen cfs env initialized) =
      some ⟨FileMachine.made { m.files with jobs := [] }
          ((recoverSet (openedSet cfs) env).set.initializeGC initialized),
        aliveFiles (recoverSet (openedSet cfs) env).set.columnFamilies⟩ := by
  simp only [step, hok, if_true, FileMachine.step]
  rw [if_pos ⟨newlyRecovered_recoverSet hok, hn⟩]
  rfl

def noMergeConfig : LifecycleConfig := ⟨fun _ => ⟨false, false, 1⟩, fun _ => ⟨0, 200⟩⟩

def emptyManifest : RecoverEnv where
  current := .ok [10]
  openFile := none
  events := [.record (VersionEdit.encodeTo ⟨0, some 5, [], []⟩)]
  newFile := none
  writeSnapshot := none
  sync := none
  setCurrent := none
  children := []

def reopenEmpty : Action := .reopen [(0, ⟨bytewise, 7, 8388608, 0.5⟩)] emptyManifest [0]

/-- Two files with little live data are flushed. -/
def flushTwo : List Action :=
  [.file (.finishBlobFiles 0 [(7, smallFile), (8, smallFile)] ioOk),
    .file (.flushCompleted 0 ((AList.singleton 7 10).insert 8 10))]

/-- A job takes both of them and installs file 9. -/
def collectTwo : List Action :=
  [.file (.pickBlobGC 0), .file (.installOutputs 0 false [(9, smallFile)] ioOk)]

/-- The job ends, and its inputs are purged. -/
def purgeTwo : List Action :=
  [.file (.rewriteValidKeys 0 []), .file (.deleteInputBlobFiles 0 3 ioOk), .file (.releaseGcFiles 0),
    .getObsoleteFiles 4]

theorem pickBlobGC_two {st : BlobStorage} {f : BlobFileMeta}
    (hscore : st.gcScore = [⟨8, 0.5⟩, ⟨7, 0.5⟩].mergeSort fun a b => !decide (a.score < b.score))
    (hratio : st.cfOptions.blobFileDiscardableRatio = 0.5) (h8 : st.files.lookup 8 = some f)
    (h7 : st.files.lookup 7 = some f) (hstate : f.state = .kNormal) (hsize : f.fileSize = 100) :
    pickBlobGC (noMergeConfig.pick 0) st = some [8, 7] := by
  have hhalf : ¬(0.5 : Float) < 0.5 := by decide +kernel
  rw [List.mergeSort_of_pairwise (List.pairwise_pair.mpr (by decide +kernel))] at hscore
  have hmax : ¬(200 : UInt64) ≤ 100 := by decide
  have hpicked : (pickFiles (noMergeConfig.pick 0) st st.gcScore {}).blobFiles = [8, 7] ∧
      ¬(pickFiles (noMergeConfig.pick 0) st st.gcScore {}).batchSize < 0 := by
    simp [hscore, pickFiles, hratio, hhalf, h8, h7, hstate, hsize, noMergeConfig, hmax]
  obtain ⟨hfiles, hsmall⟩ := hpicked
  have hmin : (noMergeConfig.pick 0).minGcBatchSize = 0 := rfl
  simp [pickBlobGC, hfiles, hmin, onlySmallFile]

theorem flushAndPurge_run : ∃ m st,
    run (step noMergeConfig) {} (reopenEmpty :: flushTwo) = some m ∧
      m.files.set.columnFamilies.lookup 0 = some st ∧
      pickBlobGC (noMergeConfig.pick 0) st = some [8, 7] ∧
    ∃ m', run (step noMergeConfig) m collectTwo = some m' ∧
      m'.files.jobs = [{ cf := 0, inputs := [8, 7], outputs := [9], stage := .installed }] ∧
    ∃ m'' st', run (step noMergeConfig) m' purgeTwo = some m'' ∧ m''.files.jobs = [] ∧
      m''.files.set.columnFamilies.lookup 0 = some st' ∧ st'.files.keys = [9] := by
  have hok : (recoverSet (openedSet [(0, ⟨bytewise, 7, 8388608, 0.5⟩)]) emptyManifest).status.isOk :=
    by decide +kernel
  rw [run, reopenEmpty, reopen_enabled noMergeConfig {} hok (List.nodup_singleton 0)]
  refine ⟨_, _, rfl, rfl, pickBlobGC_two (by congr 1) rfl rfl rfl rfl rfl, ?_⟩
  rw [collectTwo, run, step_pickBlobGC rfl List.not_mem_nil
    (pickBlobGC_two (by congr 1) rfl rfl rfl rfl rfl)]
  exact ⟨_, rfl, rfl, _, _, rfl, rfl, rfl, rfl⟩

/-- The picker takes both files, their job may end with its output installed, and after the purge
the scores are those of the output alone. -/
theorem flushAndPurge_picks : ∃ m st,
    run (step noMergeConfig) {} (reopenEmpty :: flushTwo) = some m ∧
      m.files.set.columnFamilies.lookup 0 = some st ∧
      pickBlobGC (noMergeConfig.pick 0) st = some [8, 7] ∧
      PicksWell (noMergeConfig.pick 0) st (m.heldIn 0) ∧
    ∃ m', run (step noMergeConfig) m collectTwo = some m' ∧
      m'.files.jobs = [{ cf := 0, inputs := [8, 7], outputs := [9], stage := .installed }] ∧
      (∀ j job, m'.files.jobs[j]? = some job → Releases noMergeConfig m' j job) ∧
    ∃ m'' st', run (step noMergeConfig) m' purgeTwo = some m'' ∧ m''.files.jobs = [] ∧
      m''.files.set.columnFamilies.lookup 0 = some st' ∧ st'.files.keys = [9] ∧
      PicksWell (noMergeConfig.pick 0) st' (m''.heldIn 0) := by
  obtain ⟨m, st, hrun, hst, hpick, m', hcollect, hjobs, m'', st', hpurge, hdone, hst', hkeys⟩ :=
    flushAndPurge_run
  have hrun' : run (step noMergeConfig) {} (reopenEmpty :: flushTwo ++ collectTwo) = some m' := by
    rw [run_append, hrun, Option.bind_some, hcollect]
  have hrun'' : run (step noMergeConfig) {} (reopenEmpty :: flushTwo ++ collectTwo ++ purgeTwo) =
      some m'' := by
    rw [run_append, hrun', Option.bind_some, hpurge]
  exact ⟨m, st, hrun, hst, hpick, (picks_and_releases (fun _ => rfl) hrun).1 0 st hst, m', hcollect,
    hjobs, (picks_and_releases (fun _ => rfl) hrun').2, m'', st', hpurge, hdone, hst', hkeys,
    (picks_and_releases (fun _ => rfl) hrun'').1 0 st' hst'⟩

end GcMachine

end AegonKV
