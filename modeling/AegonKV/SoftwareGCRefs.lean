import AegonKV.SoftwareGCWellFormed
import Mathlib.Data.Fintype.Card

/-!
# References to blob records

A record gets its one reference when it is written: from the version a flush separates, or from
the rewrite queued for its copy. The reference may move from the queue to the LSM tree or
disappear; it is never made again. So a record that nothing references stays unreferenced.
-/

namespace AegonKV.SoftwareGC
open LittleEndian AegonKV

variable {κ : Type} {s s' : State κ}

/-- The copies whose indices wait to be written. -/
def Job.queuedRefs (job : Job κ) : List (UInt64 × UInt64) :=
  job.rewriteBatches.filterMap (·.entry.ref?)

/-- The queue references each copy once. -/
structure JobRefs (job : Job κ) : Prop where
  building : job.installed = false → job.queuedRefs =
    match job.output with
    | none => []
    | some (g, records) => (List.range records.length).map fun i => (g, UInt64.ofNat i)
  nodup : job.installed = true → job.queuedRefs.Nodup

structure Refs (s : State κ) : Prop where
  unique : ∀ k k', ∀ v ∈ s.lsm.versions k, ∀ v' ∈ s.lsm.versions k', ∀ ref,
    v.entry.ref? = some ref → v'.entry.ref? = some ref → k = k' ∧ v.sequence = v'.sequence
  queued : ∀ j job, s.jobs j = some job → ∀ ref ∈ job.queuedRefs, ¬s.lsm.Referenced ref
  jobs : ∀ j job, s.jobs j = some job → JobRefs job

structure RefsStep (s s' : State κ) : Prop where
  lsm : ∀ ref, s'.lsm.Referenced ref → s.lsm.Referenced ref ∨ ref.1 ∉ s.numbers ∨
    ∃ j job, s.jobs j = some job ∧ ref ∈ job.queuedRefs
  queue : ∀ j job, s'.jobs j = some job → ∀ ref ∈ job.queuedRefs, s.files ref.1 = none ∨
    ∃ old, s.jobs j = some old ∧ ref ∈ old.queuedRefs

/-- Nothing references the record, and nothing is about to. -/
def Retired (s : State κ) (ref : UInt64 × UInt64) : Prop :=
  s.files ref.1 ≠ none ∧ ¬s.lsm.Referenced ref ∧
    ∀ j job, s.jobs j = some job → ref ∉ job.queuedRefs

theorem Refs.init : Refs (State.init : State κ) :=
  ⟨by simp [State.init, Lsm.empty], by simp [State.init], by simp [State.init]⟩

/-- A retired record stays retired. -/
theorem Retired.step (hwf : Wf s) (hk : s.files.Keeps s'.files) (hrs : RefsStep s s')
    {ref : UInt64 × UInt64} (h : Retired s ref) : Retired s' ref := by
  obtain ⟨hfile, href, hqueue⟩ := h
  refine ⟨?_, fun hr => ?_, fun j job hj hq => ?_⟩
  · obtain ⟨bf, hbf⟩ := Option.ne_none_iff_exists'.mp hfile
    obtain ⟨bf', hbf', -⟩ := hk ref.1 bf hbf
    simp [hbf']
  · rcases hrs.lsm ref hr with hold | hfresh | ⟨j, job, hj, hq⟩
    · exact href hold
    · exact hfresh (hwf.numbered ref.1 hfile)
    · exact hqueue j job hj hq
  · rcases hrs.queue j job hj ref hq with hnone | ⟨old, hold, hq⟩
    · exact hfile hnone
    · exact hqueue j old hold hq

theorem Wf.referenced_file (h : Wf s) {ref : UInt64 × UInt64} (hr : s.lsm.Referenced ref) :
    s.files ref.1 ≠ none := by
  obtain ⟨k, v, hv, href⟩ := hr
  obtain ⟨p, hp, hfile, -⟩ := LsmEntry.ref?_eq_some href
  obtain ⟨bf, r, hbf, -⟩ := h.names k p ⟨v, hv, hp⟩
  rw [← hfile, hbf]
  exact Option.some_ne_none bf

theorem JobWf.queued_output {files : BlobFiles κ} {numbers : List UInt64} {job : Job κ}
    (h : JobWf files numbers job) {ref : UInt64 × UInt64} (hq : ref ∈ job.queuedRefs) :
    ∃ records, job.output = some (ref.1, records) := by
  obtain ⟨w, hw, href⟩ := List.mem_filterMap.mp hq
  obtain ⟨f, -, bf, r, -, -, -, -, hval | ⟨number, records, copy, ho, -, -, -, hentry⟩⟩ :=
    h.rewrites w hw
  · rw [hval] at href
    cases href
  · rw [hentry] at href
    obtain rfl := Option.some.inj href
    exact ⟨records, ho⟩

theorem JobWf.queued_owns {files : BlobFiles κ} {numbers : List UInt64} {job : Job κ}
    (h : JobWf files numbers job) {ref : UInt64 × UInt64} (hq : ref ∈ job.queuedRefs) :
    ref.1 ∈ job.owns :=
  mem_owns.mpr (Or.inr (h.queued_output hq))

/-- Steps that neither write to the LSM tree nor queue anything. -/
theorem Refs.of_frame (h : Refs s) (hlsm : s'.lsm = s.lsm)
    (hjobs : ∀ j job, s'.jobs j = some job → JobRefs job ∧ (job.queuedRefs = [] ∨
      ∃ old, s.jobs j = some old ∧ job.queuedRefs = old.queuedRefs)) :
    Refs s' ∧ RefsStep s s' := by
  refine ⟨⟨hlsm ▸ h.unique, fun j job hj ref hq => ?_, fun j job hj => (hjobs j job hj).1⟩,
    fun ref hr => Or.inl (hlsm ▸ hr), fun j job hj ref hq => ?_⟩
  · rcases (hjobs j job hj).2 with hnil | ⟨old, hold, heq⟩
    · simp [hnil] at hq
    · rw [hlsm]
      exact h.queued j old hold ref (heq ▸ hq)
  · rcases (hjobs j job hj).2 with hnil | ⟨old, hold, heq⟩
    · simp [hnil] at hq
    · exact Or.inr ⟨old, hold, heq ▸ hq⟩

theorem Refs.same_jobs (h : Refs s) (hlsm : s'.lsm = s.lsm) (hjobs : s'.jobs = s.jobs) :
    Refs s' ∧ RefsStep s s' :=
  h.of_frame hlsm fun j job hj => by
    rw [hjobs] at hj
    exact ⟨h.jobs j job hj, Or.inr ⟨job, hj, rfl⟩⟩

theorem Refs.job_end (h : Refs s) {j : ℕ} (files : BlobFiles κ) :
    Refs { s with files := files, jobs := Function.update s.jobs j none } ∧
      RefsStep s { s with files := files, jobs := Function.update s.jobs j none } := by
  refine h.of_frame rfl fun i job hi => ?_
  rcases update_jobs_some hi with ⟨-, hx⟩ | ⟨-, hold⟩
  · cases hx
  · exact ⟨h.jobs i job hold, Or.inr ⟨job, hold, rfl⟩⟩

/-- A job that goes on with its queue as it is. -/
theorem Refs.job_same_queue (h : Refs s) {j : ℕ} {job job' : Job κ} (hjob : s.jobs j = some job)
    (hlsm : s'.lsm = s.lsm) (hs' : s'.jobs = Function.update s.jobs j (some job'))
    (hq : job'.queuedRefs = job.queuedRefs) (hr : JobRefs job') : Refs s' ∧ RefsStep s s' := by
  refine h.of_frame hlsm fun i other hi => ?_
  rw [hs'] at hi
  rcases update_jobs_some hi with ⟨rfl, hx⟩ | ⟨-, hold⟩
  · obtain rfl := Option.some.inj hx
    exact ⟨hr, Or.inr ⟨job, hjob, hq⟩⟩
  · exact ⟨h.jobs i other hold, Or.inr ⟨other, hold, rfl⟩⟩

/-- Distinct 64-bit offsets bound the number of copies, so their indices do not wrap around. -/
theorem nodup_copies {records : List (BlobRec κ)} (g : UInt64)
    (h : (records.map fun r => r.handle.offset).Nodup) :
    ((List.range records.length).map fun i => (g, UInt64.ofNat i)).Nodup := by
  have hlen : records.length ≤ 2 ^ 64 := by
    have hfin : ((records.map fun r => r.handle.offset).map UInt64.toFin).Nodup :=
      h.map fun a b hab => UInt64.toFin_inj.mp hab
    simpa using List.Nodup.length_le_card hfin
  refine List.Nodup.map_on (fun a ha b hb hab => ?_) List.nodup_range
  have hlt := List.mem_range.mp ha
  have hlt' := List.mem_range.mp hb
  have := congrArg UInt64.toNat (Prod.mk.inj hab).2
  rwa [UInt64.toNat_ofNat', UInt64.toNat_ofNat', Nat.mod_eq_of_lt (by omega),
    Nat.mod_eq_of_lt (by omega)] at this

theorem Refs.gcInstall (h : Refs s) {j : ℕ} (hstep : s.gcInstallStep j = some s') :
    Refs s' ∧ RefsStep s s' := by
  obtain ⟨job, hjob, -, hinst, hcases⟩ := gcInstallStep_cases hstep
  have hb := (h.jobs j job hjob).building hinst
  have hinstalled : job.queuedRefs.Nodup → JobRefs { job with installed := true } :=
    fun hn => ⟨fun hc => (by cases hc), fun _ => hn⟩
  rcases hcases with ⟨hout, rfl⟩ | ⟨g, bf, hout, -, rfl⟩
  · simp only [hout] at hb
    refine h.job_same_queue hjob rfl rfl rfl (hinstalled ?_)
    rw [hb]
    exact List.nodup_nil
  · simp only [hout] at hb
    refine h.job_same_queue hjob rfl rfl rfl (hinstalled ?_)
    rw [hb]
    exact nodup_copies g bf.offsets_nodup

section

variable [DecidableEq κ]

theorem referenced_write {lsm : Lsm κ} {k : κ} {e : LsmEntry} {ref : UInt64 × UInt64}
    (h : (lsm.write k e).Referenced ref) : e.ref? = some ref ∨ lsm.Referenced ref := by
  obtain ⟨k', v, hv, href⟩ := h
  rcases Lsm.mem_versions_write hv with ⟨-, rfl⟩ | hv
  · exact Or.inl href
  · exact Or.inr ⟨k', v, hv, href⟩

theorem Refs.userWrite (h : Refs s) (k : κ) (v : Option Bytes) :
    Refs (s.userWrite k v) ∧ RefsStep s (s.userWrite k v) := by
  have hnone : (v.elim LsmEntry.deletion LsmEntry.value).ref? = none := by cases v <;> rfl
  have hlsm : ∀ ref, (s.userWrite k v).lsm.Referenced ref → s.lsm.Referenced ref := by
    intro ref hr
    rcases referenced_write hr with he | hr
    · rw [hnone] at he
      cases he
    · exact hr
  refine ⟨⟨?_, fun j job hj ref hq hr => h.queued j job hj ref hq (hlsm ref hr), h.jobs⟩,
    fun ref hr => Or.inl (hlsm ref hr), fun j job hj ref hq => Or.inr ⟨job, hj, hq⟩⟩
  intro k₁ k₂ u hu u' hu' ref href href'
  rcases Lsm.mem_versions_write hu with ⟨-, rfl⟩ | hu
  · rw [hnone] at href
    cases href
  rcases Lsm.mem_versions_write hu' with ⟨-, rfl⟩ | hu'
  · rw [hnone] at href'
    cases href'
  exact h.unique k₁ k₂ u hu u' hu' ref href href'

/-- A rewritten table references what it referenced, and the records of the new file. -/
theorem Wf.ref_rewriteTables (h : Wf s) {f : UInt64} {records : List (ℕ × BlobRec κ)}
    {inlined dropped : List (κ × ℕ)}
    (hstep : s.rewriteTables f records inlined dropped = some s') {k : κ} {v : LsmVersion}
    (hv : v ∈ s'.lsm.versions k) {ref : UInt64 × UInt64}
    (href : v.entry.ref? = some ref) :
    (∃ u ∈ s.lsm.versions k, u.sequence = v.sequence ∧ u.entry.ref? = some ref) ∨
      f ∉ s.numbers ∧ ∃ x ∈ records, x.2.key = k ∧ x.1 = v.sequence ∧
        ref = (f, x.2.handle.index) := by
  obtain ⟨-, -, t, ht, rfl⟩ := rewriteTables_cases hstep
  obtain ⟨u, hu, -, rfl⟩ := Lsm.mem_versions_rewriteTables hv
  rw [Lsm.sequence_tableAdd]
  unfold Lsm.tableAdd at href
  split at href
  · rename_i x hx
    have hmem := List.mem_of_find?_eq_some hx
    obtain ⟨hkey, hseq⟩ : x.2.key = k ∧ x.1 = u.sequence := by simpa using List.find?_some hx
    obtain rfl := Option.some.inj href
    exact Or.inr ⟨((h.finishTable ht).stored x.2 (List.mem_map_of_mem hmem)).1, x, hmem, hkey,
      hseq, rfl⟩
  split_ifs at href
  · exact Or.inl ⟨u, hu, rfl, LsmEntry.ref?_inlineValue href⟩
  · exact Or.inl ⟨u, hu, rfl, href⟩

/-- Flushes and compactions, whatever they drop. -/
theorem Refs.rewriteTables (h : Refs s) (hwf : Wf s) {f : UInt64}
    {records : List (ℕ × BlobRec κ)} {inlined dropped : List (κ × ℕ)}
    (hstep : s.rewriteTables f records inlined dropped = some s') : Refs s' ∧ RefsStep s s' := by
  have hsep := fun {k : κ} {v : LsmVersion} (hv : v ∈ s'.lsm.versions k) {ref : UInt64 × UInt64}
      (href : v.entry.ref? = some ref) => hwf.ref_rewriteTables hstep hv href
  have hlsm : ∀ ref, s'.lsm.Referenced ref → s.lsm.Referenced ref ∨ ref.1 ∉ s.numbers := by
    rintro ref ⟨k, v, hv, href⟩
    rcases hsep hv href with ⟨u, hu, -, href⟩ | ⟨hf, x, -, -, -, rfl⟩
    · exact Or.inl ⟨k, u, hu, href⟩
    · exact Or.inr hf
  have hold : ∀ k, ∀ u ∈ s.lsm.versions k, ∀ ref, u.entry.ref? = some ref → ref.1 ∈ s.numbers :=
    fun k u hu ref href => hwf.numbered _ (hwf.referenced_file ⟨k, u, hu, href⟩)
  obtain ⟨-, hnodup, t, ht, rfl⟩ := rewriteTables_cases hstep
  have hjobs := (hwf.finishTable ht).jobs
  refine ⟨⟨?_, fun j job hj ref hq hr => ?_, fun j job hj => h.jobs j job (hjobs ▸ hj)⟩,
    fun ref hr => (hlsm ref hr).imp id Or.inl, fun j job hj ref hq => Or.inr ⟨job, hjobs ▸ hj, hq⟩⟩
  · intro k₁ k₂ v hv v' hv' ref href href'
    rcases hsep hv href with ⟨u, hu, hseq, hur⟩ | ⟨hf, x, hx, hkey, hseq, rfl⟩
    · rcases hsep hv' href' with ⟨u', hu', hseq', hur'⟩ | ⟨hf, x, -, -, -, rfl⟩
      · rw [← hseq, ← hseq']
        exact h.unique k₁ k₂ u hu u' hu' ref hur hur'
      · exact absurd (hold k₁ u hu _ hur) hf
    · rcases hsep hv' href' with ⟨u', hu', -, hur'⟩ | ⟨-, x', hx', hkey', hseq', heq⟩
      · exact absurd (hold k₂ u' hu' _ hur') hf
      · obtain rfl : x = x' := List.inj_on_of_nodup_map hnodup hx hx' (Prod.mk.inj heq).2
        exact ⟨hkey.symm.trans hkey', hseq.symm.trans hseq'⟩
  · have hj : s.jobs j = some job := hjobs ▸ hj
    rcases hlsm ref hr with hr | hfresh
    · exact h.queued j job hj ref hq hr
    · have hjw := hwf.jobs j job hj
      exact hfresh (hjw.owns_numbered hwf.numbered (hjw.queued_owns hq))

omit [DecidableEq κ] in
/-- The copy of a kept record is referenced by the rewrite queued with it. -/
theorem JobRefs.keep {job : Job κ} (h : JobRefs job) (hinst : job.installed = false) (f : UInt64)
    (r : BlobRec κ) (g offset size : UInt64) : JobRefs (job.keep f r g offset size) := by
  have hb := h.building hinst
  refine ⟨fun _ => ?_, fun hi => by simp [hinst] at hi⟩
  rcases job.keep_cases f r g offset size with hk | ⟨number, records, copy, ho, -, -, hidx, hk⟩
  · rw [hk]
    simpa [Job.queuedRefs, LsmEntry.ref?] using hb
  · have hqueue : job.queuedRefs =
        (List.range records.length).map fun i => (number, UInt64.ofNat i) := by
      rw [hb]
      cases hout : job.output with
      | none =>
          obtain ⟨rfl, rfl⟩ : g = number ∧ [] = records := by simpa [hout] using ho
          rfl
      | some x =>
          obtain rfl : x = (number, records) := by simpa [hout] using ho
          rfl
    rw [hk]
    simp only [Job.queuedRefs, List.filterMap_append, List.length_append, List.length_singleton,
      List.range_succ, List.map_append] at hqueue ⊢
    rw [hqueue]
    simp [LsmEntry.ref?, pointerTo, hidx]

theorem Refs.gcRecord (h : Refs s) (hwf : Wf s) (hwf' : Wf s') {j : ℕ} {g offset size : UInt64}
    (hstep : s.gcRecordStep j g offset size = some s') : Refs s' ∧ RefsStep s s' := by
  obtain ⟨hg, job, job', hjob, hrec, rfl⟩ := gcRecordStep_cases hstep
  obtain ⟨f, r, todo, htodo, hcases⟩ := Job.record_cases hrec
  have hjr := h.jobs j job hjob
  have hinst : job.installed = false := by
    by_contra hc
    simp [(hwf.jobs j job hjob).todo_installed (by simpa using hc)] at htodo
  rcases hcases with ⟨-, -, rfl⟩ | ⟨-, rfl⟩ | ⟨-, rfl⟩
  · exact h.job_same_queue hjob rfl rfl rfl ⟨hjr.building, hjr.nodup⟩
  · exact h.job_same_queue hjob rfl rfl rfl ⟨hjr.building, hjr.nodup⟩
  -- everything the job has queued points into its output, which is not installed yet
  have hnone : ∀ i job', Function.update s.jobs j (some (Job.keep { job with
      todo := todo, lastKey := some r.key, lastKeyIsFresh := !job.useBitmap } f r g offset size))
      i = some job' → ∀ ref ∈ job'.queuedRefs, s.files ref.1 = none ∨
        ∃ old, s.jobs i = some old ∧ ref ∈ old.queuedRefs := by
    intro i job' hi ref hq
    rcases update_jobs_some hi with ⟨rfl, hx⟩ | ⟨-, hold⟩
    · obtain rfl := Option.some.inj hx
      have hjw := hwf'.jobs i _ hi
      obtain ⟨records, hout⟩ := hjw.queued_output hq
      have hat := (hjw.output _ _ hout).2
      simp only [OutputAt, Job.keep_installed, hinst, Bool.false_eq_true, if_false] at hat
      exact Or.inl hat
    · exact Or.inr ⟨job', hold, hq⟩
  refine ⟨⟨h.unique, fun i job' hi ref hq hr => ?_, fun i job' hi => ?_⟩,
    fun ref hr => Or.inl hr, hnone⟩
  · rcases hnone i job' hi ref hq with hnone | ⟨old, hold, hq⟩
    · exact hwf.referenced_file hr hnone
    · exact h.queued i old hold ref hq hr
  · rcases update_jobs_some hi with ⟨rfl, hx⟩ | ⟨-, hold⟩
    · obtain rfl := Option.some.inj hx
      have hmid : JobRefs { job with
          todo := todo, lastKey := some r.key, lastKeyIsFresh := !job.useBitmap } :=
        ⟨hjr.building, hjr.nodup⟩
      exact hmid.keep hinst f r g offset size
    · exact h.jobs i job' hold

theorem Refs.gcRewrite (h : Refs s) (hwf : Wf s) {j : ℕ} (hstep : s.gcRewriteStep j = some s') :
    Refs s' ∧ RefsStep s s' := by
  obtain ⟨job, w, rest, hjob, hw, hinst, hcases⟩ := gcRewriteStep_cases hstep
  have hjr := h.jobs j job hjob
  have hqueue : job.queuedRefs = w.entry.ref?.toList ++ rest.filterMap (·.entry.ref?) := by
    rw [Job.queuedRefs, hw]
    cases hr : w.entry.ref? <;> simp [hr]
  have hrest : ∀ ref ∈ rest.filterMap (·.entry.ref?), ref ∈ job.queuedRefs := by
    intro ref hr
    rw [hqueue]
    exact List.mem_append_right _ hr
  have hnodup := hjr.nodup hinst
  rw [hqueue] at hnodup
  have hjobs : ∀ dropped i job', Function.update s.jobs j (some { job with
      rewriteBatches := rest, droppedIndex := dropped }) i = some job' → JobRefs job' ∧
      ∃ old, s.jobs i = some old ∧ ∀ ref ∈ job'.queuedRefs, ref ∈ old.queuedRefs := by
    intro dropped i job' hi
    rcases update_jobs_some hi with ⟨rfl, hx⟩ | ⟨-, hold⟩
    · obtain rfl := Option.some.inj hx
      refine ⟨⟨fun hc => ?_, fun _ => (List.nodup_append.mp hnodup).2.1⟩, job, hjob, hrest⟩
      rw [hinst] at hc
      cases hc
    · exact ⟨h.jobs i job' hold, job', hold, fun ref hq => hq⟩
  rcases hcases with ⟨-, rfl⟩ | ⟨-, rfl⟩
  · have hlsm : ∀ ref, (s.lsm.write w.key w.entry).Referenced ref →
        w.entry.ref? = some ref ∨ s.lsm.Referenced ref := fun ref hr => referenced_write hr
    have hwq : ∀ ref, w.entry.ref? = some ref → ref ∈ job.queuedRefs := by
      intro ref hr
      rw [hqueue, hr]
      exact List.mem_append_left _ (by simp)
    refine ⟨⟨?_, ?_, fun i job' hi => (hjobs _ i job' hi).1⟩, fun ref hr => ?_,
      fun i job' hi ref hq => ?_⟩
    · intro k₁ k₂ v hv v' hv' ref href href'
      rcases Lsm.mem_versions_write hv with ⟨rfl, rfl⟩ | hv
      · rcases Lsm.mem_versions_write hv' with ⟨rfl, rfl⟩ | hv'
        · exact ⟨rfl, rfl⟩
        · exact absurd ⟨k₂, v', hv', href'⟩ (h.queued j job hjob ref (hwq ref href))
      · rcases Lsm.mem_versions_write hv' with ⟨rfl, rfl⟩ | hv'
        · exact absurd ⟨k₁, v, hv, href⟩ (h.queued j job hjob ref (hwq ref href'))
        · exact h.unique k₁ k₂ v hv v' hv' ref href href'
    · intro i job' hi ref hq hr
      obtain ⟨-, old, hold, hsub⟩ := hjobs _ i job' hi
      rcases hlsm ref hr with hwr | hr
      · rcases update_jobs_some hi with ⟨rfl, hx⟩ | ⟨hne, hold⟩
        · obtain rfl := Option.some.inj hx
          rw [hwr, Option.toList_some] at hnodup
          exact (List.nodup_cons.mp hnodup).1 hq
        · -- another job's queue points into that job's own output
          exact hwf.disjoint i j job' job hold hjob hne ref.1
            ((hwf.jobs i job' hold).queued_owns hq) ((hwf.jobs j job hjob).queued_owns (hwq ref hwr))
      · exact h.queued i old hold ref (hsub ref hq) hr
    · rcases hlsm ref hr with hr | hr
      · exact Or.inr (Or.inr ⟨j, job, hjob, hwq ref hr⟩)
      · exact Or.inl hr
    · obtain ⟨-, old, hold, hsub⟩ := hjobs _ i job' hi
      exact Or.inr ⟨old, hold, hsub ref hq⟩
  · refine ⟨⟨h.unique, ?_, fun i job' hi => (hjobs _ i job' hi).1⟩, fun ref hr => Or.inl hr, ?_⟩
    · intro i job' hi ref hq
      obtain ⟨-, old, hold, hsub⟩ := hjobs _ i job' hi
      exact h.queued i old hold ref (hsub ref hq)
    · intro i job' hi ref hq
      obtain ⟨-, old, hold, hsub⟩ := hjobs _ i job' hi
      exact Or.inr ⟨old, hold, hsub ref hq⟩

/-- References are moved or lost by every step, never made for an old record. -/
theorem Refs.step (h : Refs s) (hwf : Wf s) {a : Action κ}
    (hstep : SoftwareGC.step s a = some s') : Refs s' ∧ RefsStep s s' := by
  have hwf' := hwf.step hstep
  cases a with
  | put k v =>
      obtain rfl := Option.some.inj hstep
      exact h.userWrite k (some v)
  | delete k =>
      obtain rfl := Option.some.inj hstep
      exact h.userWrite k none
  | flush upto f records dropped => exact h.rewriteTables hwf (flushStep_cases hstep).2.2.2
  | flushCompleted f =>
      obtain ⟨files, -, rfl⟩ := Option.map_eq_some_iff.mp hstep
      exact h.same_jobs rfl rfl
  | getSnapshot i =>
      obtain ⟨-, rfl⟩ := getSnapshot_cases hstep
      exact h.same_jobs rfl rfl
  | releaseSnapshot i =>
      obtain rfl := Option.some.inj hstep
      exact h.same_jobs rfl rfl
  | gcBegin j inputs order useBitmap fallback bits =>
      obtain ⟨-, -, -, files, -, rfl⟩ := gcBeginStep_cases hstep
      refine h.of_frame rfl fun i job hi => ?_
      rcases update_jobs_some hi with ⟨-, hx⟩ | ⟨-, hold⟩
      · obtain rfl := Option.some.inj hx
        exact ⟨⟨fun _ => rfl, fun _ => List.nodup_nil⟩, Or.inl rfl⟩
      · exact ⟨h.jobs i job hold, Or.inr ⟨job, hold, rfl⟩⟩
  | gcRecord j g offset size => exact h.gcRecord hwf hwf' hstep
  | gcInstall j => exact h.gcInstall hstep
  | gcRewrite j => exact h.gcRewrite hwf hstep
  | gcFlushWAL j =>
      obtain ⟨job, hjob, -, -, -, rfl⟩ := gcFlushWALStep_cases hstep
      have hjr := h.jobs j job hjob
      exact h.job_same_queue hjob rfl rfl rfl ⟨hjr.building, hjr.nodup⟩
  | gcDeleteInputs j =>
      obtain ⟨job, hjob, -, rfl⟩ := gcDeleteInputsStep_cases hstep
      have hjr := h.jobs j job hjob
      exact h.job_same_queue hjob rfl rfl rfl ⟨hjr.building, hjr.nodup⟩
  | gcFinish j =>
      obtain ⟨job, files, -, -, -, -, -, rfl⟩ := gcFinishStep_cases hstep
      exact h.job_end files
  | gcAbort j =>
      obtain ⟨job, files, -, -, rfl⟩ := gcAbortStep_cases hstep
      exact h.job_end files

end

end AegonKV.SoftwareGC
