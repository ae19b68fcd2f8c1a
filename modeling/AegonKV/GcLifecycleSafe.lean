import AegonKV.GcJobFiles
import AegonKV.ManifestRuns

/-!
# The state machine of blob files is safe

With the files of the jobs as they should be, every call of `FileStateTransit` meets its assertion
and obsolete files stay obsolete, in every run that avoids the two marks of `CallbackAging`.
-/

namespace AegonKV
open TransitionSystem

/-! ## Restart -/

namespace BlobFileSet

/-- What `InitializeGC` needs of the column families it has yet to reach. -/
structure Initializable (s : BlobFileSet) (cfs : List UInt32) : Prop where
  scores : ∀ cf st, s.columnFamilies.lookup cf = some st → st.ScoresDistinct
  init : ∀ cf ∈ cfs, ∀ st, s.columnFamilies.lookup cf = some st →
    ∀ f file, st.files.lookup f = some file → file.state = .kInit

theorem initializable_of_newlyRecovered {s : BlobFileSet} (h : NewlyRecovered s) (cfs : List UInt32) :
    s.Initializable cfs where
  scores _ _ hst := (h _ (AList.mem_lookup_iff.mp hst)).1
  init _ _ _ hst _ _ hfile := (h _ (AList.mem_lookup_iff.mp hst)).2 _ (AList.mem_lookup_iff.mp hfile)

theorem safe_initializeAllFiles {st : BlobStorage}
    (h : ∀ f file, st.files.lookup f = some file → file.state = .kInit) :
    ∀ c ∈ (initializeAllFiles st).calls, c.Safe := by
  refine Lifecycle.safe_transitFiles st.files.keys_nodup fun f _ file hfile => ?_
  rw [h f file hfile]
  exact ⟨rfl, fun h => (by cases h)⟩

/-- After one column family the others are as `InitializeGC` needs them. -/
theorem Initializable.setStorage {s : BlobFileSet} {cf : UInt32} {cfs : List UInt32}
    (h : s.Initializable (cf :: cfs)) (hnot : cf ∉ cfs) (st : BlobStorage) :
    (s.setStorage cf (initializeAllFiles st).storage).Initializable cfs := by
  constructor
  case scores =>
    intro g st' hst'
    by_cases hg : g = cf
    · subst hg
      obtain rfl := Option.some.inj ((s.lookup_setStorage_self g _).symm.trans hst')
      exact BlobStorage.scoresDistinct_computeGCScore _
    · exact h.scores g st' ((s.lookup_setStorage_ne _ hg).symm.trans hst')
  case init =>
    intro g hg st' hst'
    have hne : g ≠ cf := fun heq => hnot (heq ▸ hg)
    exact h.init g (List.mem_cons_of_mem _ hg) st'
      ((s.lookup_setStorage_ne _ hne).symm.trans hst')

/-- Every file of a restarted column family is sent `kDbRestart` once, in state `kInit`. -/
theorem initializeGC_spec {s : BlobFileSet} {cfs : List UInt32} (h : s.Initializable cfs)
    (hn : cfs.Nodup) :
    (∀ c ∈ (s.initializeGC cfs).2, c.Safe) ∧
      ∀ cf st, (s.initializeGC cfs).1.columnFamilies.lookup cf = some st → st.ScoresDistinct := by
  induction cfs generalizing s with
  | nil => exact ⟨fun c hc => (by cases hc), h.scores⟩
  | cons cf cfs ih =>
      obtain ⟨hnot, hn⟩ := List.nodup_cons.mp hn
      rw [initializeGC]
      cases hst : s.columnFamilies.lookup cf with
      | none => exact ih ⟨h.scores, fun g hg => h.init g (List.mem_cons_of_mem _ hg)⟩ hn
      | some st =>
          obtain ⟨hcalls, hscores⟩ := ih (h.setStorage hnot st) hn
          refine ⟨fun c hc => ?_, hscores⟩
          rcases List.mem_append.mp hc with hc | hc
          · exact safe_initializeAllFiles (h.init cf List.mem_cons_self st hst) c hc
          · exact hcalls c hc

end BlobFileSet

/-! ## Runs -/

namespace FileMachine

/-- The step sends no file `kNeedMerge` that has just been deleted or cannot be merged. -/
def Avoids (c : LifecycleConfig) (m : FileMachine) : Action → Prop
  | .compactionCompleted cf outputLevel diff _ io =>
    ¬ m.set.MarksDeleted (c.merge cf) cf outputLevel diff io
  | .deleteFilesInRanges cf diff _ _ => ¬ m.set.MarksUnmergeable (c.merge cf) cf diff
  | _ => True

def Action.isRestart : Action → Bool
  | .restart _ _ => true
  | _ => false

variable {c : LifecycleConfig} {m m' : FileMachine}

theorem newCalls_safe (event : FileEvent) (h : (fileStateTransit .kInit event).isSome)
    (files : List (UInt64 × BlobFileMeta)) : ∀ call ∈ newCalls event files, call.Safe := by
  intro call hcall
  obtain ⟨file, -, rfl⟩ := List.mem_map.mp hcall
  exact ⟨h, fun hinit => (by cases hinit)⟩

/-- A step that only ages the files. -/
theorem aged_step {s' : BlobFileSet} {calls : List TransitCall} (h : Lifecycle m)
    (ha : BlobFileSet.Aging m.set s' calls) :
    Lifecycle (m.made (s', calls)) ∧ KeepsObsolete m.set s' := ⟨h.aged ha, ha.keepsObsolete⟩

theorem installOutputs_step {j : ℕ} {offload : Bool} {files : List (UInt64 × BlobFileMeta)}
    {io : ManifestIO} (h : Lifecycle m)
    (hs : step c m (.installOutputs j offload files io) = some m') :
    Lifecycle m' ∧ KeepsObsolete m.set m'.set := by
  cases hj : m.jobs[j]? with
  | none => simp only [step, hj, reduceCtorEq] at hs
  | some job =>
      simp only [step, hj] at hs
      have hcalls := h.addCalls (newCalls_safe .kGCOutput rfl files)
      have hages := m.set.aging_logAndApply (addEditOf job.cf .kGCOutput files) io
      by_cases hstage : job.stage = .picked
      · rw [if_pos hstage] at hs
        by_cases hok : (m.set.logAndApply (addEditOf job.cf .kGCOutput files) io).1.isOk
        · rw [if_pos hok] at hs
          obtain rfl := Option.some.inj hs
          exact ⟨hcalls.installed hj hok rfl rfl rfl, hages.keepsObsolete⟩
        · rw [if_neg hok] at hs
          obtain rfl := Option.some.inj hs
          exact ⟨(hcalls.logged _ io).setStage hj rfl rfl, hages.keepsObsolete⟩
      · rw [if_neg hstage] at hs
        cases hs

theorem rewriteValidKeys_step {j : ℕ} {dropped : List (UInt64 × UInt64)} (h : Lifecycle m)
    (hs : step c m (.rewriteValidKeys j dropped) = some m') :
    Lifecycle m' ∧ KeepsObsolete m.set m'.set := by
  cases hj : m.jobs[j]? with
  | none => simp only [step, hj, reduceCtorEq] at hs
  | some job =>
      obtain ⟨st, hst⟩ := h.open_column job (List.mem_of_getElem? hj)
      simp only [step, hj, hst] at hs
      split_ifs at hs with hstage
      obtain rfl := Option.some.inj hs
      obtain ⟨hages, hscores⟩ := BlobFileSet.aging_rewriteDropped st dropped
      have haging : BlobFileSet.Aging m.set
          (m.set.setStorage job.cf (BlobFileSet.rewriteDropped st dropped)) [] :=
        .setStorage hst hages hscores fun call hcall => (by cases hcall)
      exact ⟨(h.aged haging).setStage hj rfl rfl, haging.keepsObsolete⟩

theorem deleteInputBlobFiles_step {j seq : ℕ} {io : ManifestIO} (h : Lifecycle m)
    (hs : step c m (.deleteInputBlobFiles j seq io) = some m') :
    Lifecycle m' ∧ KeepsObsolete m.set m'.set := by
  cases hj : m.jobs[j]? with
  | none => simp only [step, hj, reduceCtorEq] at hs
  | some job =>
      simp only [step, hj] at hs
      split_ifs at hs with hstage
      obtain rfl := Option.some.inj hs
      have hages := m.set.aging_logAndApply (m.inputEdit job seq) io
      exact ⟨(h.logged _ io).setStage hj rfl rfl, hages.keepsObsolete⟩

theorem pickBlobGC_step {cf : UInt32} (h : Lifecycle m)
    (hs : step c m (.pickBlobGC cf) = some m') : Lifecycle m' ∧ KeepsObsolete m.set m'.set := by
  have hsame : Lifecycle m ∧ KeepsObsolete m.set m.set := ⟨h, fun _ hfile => hfile⟩
  cases hst : m.set.columnFamilies.lookup cf with
  | none =>
      simp only [step, hst] at hs
      obtain rfl := Option.some.inj hs
      exact hsame
  | some st =>
      simp only [step, hst] at hs
      split at hs
      · obtain rfl := Option.some.inj hs
        exact hsame
      · rename_i inputs hinputs
        obtain rfl := Option.some.inj hs
        split_ifs at hinputs with hopen
        exact h.picked hst hinputs

theorem restart_step {recovered : BlobFileSet} {initialized : List UInt32} (h : Lifecycle m)
    (hs : step c m (.restart recovered initialized) = some m') : Lifecycle m' := by
  rw [step] at hs
  split_ifs at hs with hrestart
  obtain rfl := Option.some.inj hs
  obtain ⟨hcalls, hscores⟩ :=
    BlobFileSet.initializeGC_spec (BlobFileSet.initializable_of_newlyRecovered hrestart.1 initialized)
      hrestart.2
  exact {
    scores := hscores
    open_column := fun job hjob => (by cases hjob)
    held := fun job hjob => (by cases hjob)
    distinct := List.nodup_nil
    safe := fun call hcall => (List.mem_append.mp hcall).elim (h.safe call) (hcalls call) }

/-- One critical section. -/
theorem step_lifecycle {a : Action} (h : Lifecycle m) (ha : Avoids c m a)
    (hs : step c m a = some m') :
    Lifecycle m' ∧ (a.isRestart = false → KeepsObsolete m.set m'.set) := by
  suffices hsuff : a.isRestart = false → Lifecycle m' ∧ KeepsObsolete m.set m'.set by
    cases a with
    | restart recovered initialized => exact ⟨restart_step h hs, fun hno => (by cases hno)⟩
    | _ => exact ⟨(hsuff rfl).1, fun _ => (hsuff rfl).2⟩
  intro hrestart
  cases a with
  | finishBlobFiles cf files io =>
      obtain rfl := Option.some.inj hs
      have hcalls := h.addCalls (newCalls_safe .kFlushOrCompactionOutput rfl files)
      exact aged_step hcalls (m.set.aging_logAndApply _ io)
  | flushCompleted cf diff =>
      obtain rfl := Option.some.inj hs
      exact aged_step h (m.set.aging_onFlushCompleted cf diff)
  | compactionCompleted cf outputLevel diff seq io =>
      obtain rfl := Option.some.inj hs
      exact aged_step h (BlobFileSet.aging_onCompactionCompleted seq ha)
  | deleteFilesInRanges cf diff seq io =>
      obtain rfl := Option.some.inj hs
      exact aged_step h (BlobFileSet.aging_deleteFilesInRanges seq io ha)
  | deleteBlobFilesInRanges cf ranges includeEnd seq io =>
      rw [step] at hs
      split at hs
      · obtain rfl := Option.some.inj hs
        exact ⟨h, fun _ hfile => hfile⟩
      · obtain rfl := Option.some.inj hs
        exact aged_step h (m.set.aging_logAndApply _ io)
  | pickBlobGC cf => exact pickBlobGC_step h hs
  | installOutputs j offload files io => exact installOutputs_step h hs
  | rewriteValidKeys j dropped => exact rewriteValidKeys_step h hs
  | deleteInputBlobFiles j seq io => exact deleteInputBlobFiles_step h hs
  | releaseGcFiles j =>
      cases hj : m.jobs[j]? with
      | none => simp only [step, hj, reduceCtorEq] at hs
      | some job =>
          simp only [step, hj] at hs
          obtain rfl := Option.some.inj hs
          exact h.released hj
  | dropColumnFamilies seq cfs =>
      obtain rfl := Option.some.inj hs
      exact aged_step h (m.set.aging_dropColumnFamilies seq cfs)
  | restart recovered initialized => cases hrestart

theorem lifecycle_empty : Lifecycle {} where
  scores _ _ hst := by cases hst
  open_column _ hjob := by cases hjob
  held _ hjob := by cases hjob
  distinct := List.nodup_nil
  safe _ hcall := by cases hcall

/-- In every run that sends no `kNeedMerge` to a file just deleted or in a state that forbids it,
every call of `FileStateTransit` meets its assertion, and obsolete files stay obsolete until the
process restarts. -/
theorem fileStates_safe {before after : List Action}
    (hbefore : Meets (step c) (Avoids c) {} before) (hm : run (step c) {} before = some m)
    (hafter : Meets (step c) (Avoids c) m after) (hm' : run (step c) m after = some m') :
    (∀ call ∈ m'.calls, call.Safe) ∧
      ((∀ a ∈ after, a.isRestart = false) → KeepsObsolete m.set m'.set) := by
  have hlife : Lifecycle m :=
    run_invariant (fun _ _ _ h ha hs => (step_lifecycle h ha hs).1) lifecycle_empty hbefore hm
  clear hbefore hm
  induction after generalizing m with
  | nil =>
      obtain rfl : m = m' := Option.some.inj hm'
      exact ⟨hlife.safe, fun _ _ hfile => hfile⟩
  | cons a after ih =>
      obtain ⟨t, ht, hrest⟩ := run_cons_some hm'
      obtain ⟨hnext, hkeeps⟩ := step_lifecycle hlife hafter.1 ht
      obtain ⟨hsafe, hkeeps'⟩ := ih (hafter.2 t ht) hrest hnext
      refine ⟨hsafe, fun hno file hfile => ?_⟩
      exact hkeeps' (fun b hb => hno b (List.mem_cons_of_mem _ hb)) file
        (hkeeps (hno a List.mem_cons_self) file hfile)

def mergeConfig : LifecycleConfig := ⟨fun _ => ⟨true, true, 1⟩, fun _ => ⟨0, 0⟩⟩

/-- A flushed file 8, and a new file 7 whose compaction has not been reported. -/
def newFileRun : List Action :=
  [.restart freshSet [0], .finishBlobFiles 0 [(8, smallFile)] ioOk,
    .flushCompleted 0 (AList.singleton 8 100), .finishBlobFiles 0 [(7, smallFile)] ioOk]

/-- The column family is dropped before the compaction is reported. -/
def droppedRun : List Action := newFileRun ++ [.dropColumnFamilies 3 [(0, ioOk)]]

def droppedMachine : FileMachine := (run (step mergeConfig) {} droppedRun).getD {}

theorem droppedColumn_safe : ∃ m', run (step mergeConfig) {} droppedRun = some droppedMachine ∧
    run (step mergeConfig) droppedMachine
      [.compactionCompleted 0 6 (AList.singleton 7 100) 4 ioOk] = some m' ∧
    (∀ call ∈ m'.calls, call.Safe) ∧ droppedMachine.set.HasState (· = .kObsolete) (0, 7) ∧
    m'.set.HasState (· = .kObsolete) (0, 7) := by
  have hbefore : Meets (step mergeConfig) (Avoids mergeConfig) {} droppedRun :=
    .cons rfl trivial (.cons rfl trivial (.cons rfl trivial (.cons rfl trivial
      (.cons rfl trivial trivial))))
  have hafter : Meets (step mergeConfig) (Avoids mergeConfig) droppedMachine
      [.compactionCompleted 0 6 (AList.singleton 7 100) 4 ioOk] := by
    refine .cons rfl ?_ trivial
    rintro ⟨-, -, -, -, st, hst, e, he, hempty, -⟩
    obtain rfl := List.mem_singleton.mp he
    obtain rfl := Option.some.inj hst
    cases hempty
  have hobsolete : droppedMachine.set.HasState (· = .kObsolete) (0, 7) := ⟨_, rfl, rfl⟩
  refine ⟨_, rfl, rfl, ?_⟩
  obtain ⟨hsafe, hkeeps⟩ := fileStates_safe hbefore rfl hafter rfl
  refine ⟨hsafe, hobsolete, hkeeps (fun a ha => ?_) _ hobsolete⟩
  rw [List.mem_singleton.mp ha]
  rfl

/-! ## A file marked after its deletion -/

theorem mergeMarks_nil (maxSortedRuns : ℤ) : mergeMarks [] maxSortedRuns = [] := by
  simp only [mergeMarks, List.flatMap_nil, List.mergeSort_nil, List.foldl_nil]

theorem mergeMarks_pair {a b : UInt64} {k l : Key} (hab : a ≠ b) (hlt : k.val < l.val)
    (hnot : ¬ l.val < k.val) : mergeMarks [⟨a, k, l⟩, ⟨b, k, l⟩] 1 = [a, b] := by
  have hne : k.val ≠ l.val := fun heq => hnot (heq ▸ hlt)
  have hone : (castUInt64 1).toNat = 1 := rfl
  simp [mergeMarks, List.mergeSort, List.MergeSort.Internal.splitInTwo, blobEndsCmp, sweepEnd,
    hab.symm, hlt, hne, hne.symm, hnot, hone]

/-- The callback, with the marks of its sweep at hand. -/
theorem onCompactionCompleted_of_marks (o : MergeOptions) (s : BlobFileSet) (cf : UInt32)
    (outputLevel : ℤ) (diff : SizeDiff) (seq : ℕ) (io : ManifestIO) {st st' : BlobStorage} {w : Walk}
    {marks : List UInt64} (hlevel : o.levelMerge = true)
    (hst : s.columnFamilies.lookup cf = some st)
    (hw : Walk.applyDiff (Walk.compactionCompleted o (BlobFileSet.countsSortedRun o st outputLevel)) st
      diff = w)
    (hst' : ((s.setStorage cf w.storage).logAndApply (BlobFileSet.mergeEdit w seq)
      io).2.columnFamilies.lookup cf = some st')
    (hmarks : mergeMarks (Walk.ranges st' w.candidates) o.maxSortedRuns = marks) :
    s.onCompactionCompleted o cf outputLevel diff seq io =
      (((s.setStorage cf w.storage).logAndApply (BlobFileSet.mergeEdit w seq) io).2.setStorage cf
          (Walk.transitFiles .kNeedMerge st' marks).storage,
        w.calls ++ (s.setStorage cf w.storage).logAndApplyCalls (BlobFileSet.mergeEdit w seq) io ++
          (Walk.transitFiles .kNeedMerge st' marks).calls) := by
  subst hw
  rw [BlobFileSet.onCompactionCompleted]
  simp only [hst, hlevel, hst', Bool.not_true, Bool.false_eq_true, if_false,
    Walk.markFileIfNeedMerge, hmarks]

def newFileSet : BlobFileSet := ((run (step mergeConfig) {} newFileRun).getD {}).set

/-- A later compaction that drops all of file 7 is reported before the one that wrote it. The second
callback completes the file without live data, deletes it and marks it: the assertion of
`kNeedMerge` fails on an obsolete file, which becomes `kToMerge`. -/
theorem deletedFile_marked : ∃ m, run (step mergeConfig) {} (newFileRun ++
      [.compactionCompleted 0 6 (AList.singleton 7 (-100)) 3 ioOk,
        .compactionCompleted 0 6 ((AList.singleton 8 (-30)).insert 7 100) 4 ioOk]) = some m ∧
    ⟨7, .kObsolete, .kNeedMerge⟩ ∈ m.calls ∧ ¬ TransitCall.Safe ⟨7, .kObsolete, .kNeedMerge⟩ ∧
    FileState.kObsolete.after .kNeedMerge = .kToMerge := by
  refine ⟨_, rfl, List.mem_append_right _ ?_, by decide, rfl⟩
  change _ ∈ ((newFileSet.onCompactionCompleted ⟨true, true, 1⟩ 0 6 (AList.singleton 7 (-100)) 3
    ioOk).1.onCompactionCompleted ⟨true, true, 1⟩ 0 6 ((AList.singleton 8 (-30)).insert 7 100) 4
      ioOk).2
  have hpair : mergeMarks [⟨7, smallFile.smallestKey, smallFile.largestKey⟩,
      ⟨8, smallFile.smallestKey, smallFile.largestKey⟩] 1 = [7, 8] :=
    mergeMarks_pair (by decide) (by decide) (by decide)
  rw [onCompactionCompleted_of_marks _ newFileSet _ _ _ _ _ rfl rfl rfl rfl
      (by exact mergeMarks_nil 1),
    onCompactionCompleted_of_marks _ (BlobFileSet.setStorage _ _ _) _ _ _ _ _ rfl rfl rfl rfl
      (by exact hpair)]
  refine List.mem_append_right _ ?_
  decide +kernel

end FileMachine

end AegonKV
