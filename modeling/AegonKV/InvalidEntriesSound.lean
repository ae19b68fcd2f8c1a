import AegonKV.InvalidEntries
import AegonKV.SoftwareGCRefs
import AegonKV.SoftwareGCRuns

/-!
# Set bits mark unreferenced records

Bits, callbacks on their way and the dropped copies of a job speak of retired records only: records
that nothing references and nothing is about to. A retired record stays retired, so it does not
matter when a callback arrives.
-/

namespace AegonKV.InvalidEntries
open LittleEndian AegonKV SoftwareGC

variable {κ : Type}

/-! ## What an update sets -/

theorem setBits_spec {on : ℕ} {indexes : List UInt64} {bm bm' : BitMap}
    (h : setBits bm indexes on = some bm') (j : ℕ) :
    bm'.bit j = if ∃ i ∈ indexes, i.toNat = j then on == 1 else bm.bit j := by
  induction indexes generalizing bm with
  | nil =>
      obtain rfl := Option.some.inj h
      simp
  | cons i indexes ih =>
      simp only [setBits, List.foldlM_cons, Option.bind_eq_bind, Option.bind_eq_some_iff] at h
      obtain ⟨mid, hmid, hrest⟩ := h
      have hset : bm.setBit i.toNat on = .ok mid := by
        cases hb : bm.setBit i.toNat on <;> simp_all [Except.toOption]
      rw [ih hrest, (BitMap.setBit_spec hset).2 j]
      by_cases hj : i.toNat = j
      · simp [hj]
      · simp [hj, Ne.symm hj]

theorem mem_indexesOf {refs : List (UInt64 × UInt64)} {f i : UInt64} :
    i ∈ indexesOf refs f ↔ (f, i) ∈ refs := by
  simp [indexesOf]

/-- Every bit that is set afterwards was set before or stands for an invalid record. -/
def SetFrom (invalid valid : List (UInt64 × UInt64)) (bitmaps bitmaps' : UInt64 → Option BitMap) :
    Prop :=
  ∀ f bm j, bitmaps' f = some bm → bm.bit j = true →
    (∃ old, bitmaps f = some old ∧ old.bit j = true) ∨
      ∃ i : UInt64, i.toNat = j ∧ (f, i) ∈ invalid ∧ (f, i) ∉ valid

theorem setFrom_markInvalid {files : BlobFiles κ} {skip : FileState → Bool}
    {invalid valid : List (UInt64 × UInt64)} {bitmaps bitmaps' : UInt64 → Option BitMap}
    {f : UInt64} (h : markInvalid files skip invalid valid bitmaps f = some bitmaps') :
    SetFrom invalid valid bitmaps bitmaps' := by
  have hrefl : SetFrom invalid valid bitmaps bitmaps := fun f bm j hf hj => Or.inl ⟨bm, hf, hj⟩
  unfold markInvalid at h
  split at h
  · obtain rfl := Option.some.inj h
    exact hrefl
  rename_i bf hbf
  split_ifs at h
  · obtain rfl := Option.some.inj h
    exact hrefl
  simp only [Option.bind_eq_bind, Option.bind_eq_some_iff] at h
  obtain ⟨ones, hones, bm, hzeros, res, hres, heq⟩ := h
  obtain rfl := Option.some.inj heq
  have hor : (invalidEntryIndexes bitmaps f bf).bitOps .kBitOr bm = .ok res := by
    cases hb : (invalidEntryIndexes bitmaps f bf).bitOps .kBitOr bm <;>
      simp_all [Except.toOption]
  intro g bm' j hg hj
  by_cases hgf : g = f
  · subst hgf
    rw [Function.update_self] at hg
    obtain rfl := Option.some.inj hg
    rw [(BitMap.bitOps_or_spec hor).2 j, Bool.or_eq_true] at hj
    rcases hj with hj | hj
    · cases hold : bitmaps g with
      | none =>
          rw [invalidEntryIndexes, hold, Option.getD_none, BitMap.bit_new] at hj
          cases hj
      | some old =>
          rw [invalidEntryIndexes, hold, Option.getD_some] at hj
          exact Or.inl ⟨old, rfl, hj⟩
    · rw [setBits_spec hzeros, setBits_spec hones, BitMap.bit_new] at hj
      split_ifs at hj with hzero hone
      · cases hj
      · obtain ⟨i, hi, rfl⟩ := hone
        exact Or.inr ⟨i, rfl, mem_indexesOf.mp hi, fun hv => hzero ⟨i, mem_indexesOf.mpr hv, rfl⟩⟩
  · rw [Function.update_of_ne hgf] at hg
    exact hrefl g bm' j hg hj

theorem setFrom_foldlM {files : BlobFiles κ} {skip : FileState → Bool}
    {invalid valid : List (UInt64 × UInt64)} {fs : List UInt64}
    {bitmaps bitmaps' : UInt64 → Option BitMap}
    (h : fs.foldlM (markInvalid files skip invalid valid) bitmaps = some bitmaps') :
    SetFrom invalid valid bitmaps bitmaps' := by
  induction fs generalizing bitmaps with
  | nil =>
      obtain rfl := Option.some.inj h
      exact fun f bm j hf hj => Or.inl ⟨bm, hf, hj⟩
  | cons f fs ih =>
      simp only [List.foldlM_cons, Option.bind_eq_bind, Option.bind_eq_some_iff] at h
      obtain ⟨mid, hmid, hrest⟩ := h
      intro g bm j hg hj
      rcases ih hrest g bm j hg hj with ⟨old, hold, hj⟩ | hnew
      · exact setFrom_markInvalid hmid g old j hold hj
      · exact Or.inr hnew

/-! ## The invariant -/

/-- Everything that is or will be marked invalid is retired. -/
structure Marks (s : State κ) : Prop where
  bits : ∀ f bm j, s.bitmaps f = some bm → bm.bit j = true →
    ∃ i : UInt64, i.toNat = j ∧ Retired s.gc (f, i)
  callbacks : ∀ info ∈ s.callbacks, ∀ ref ∈ info.inputIndexes, ref ∉ info.outputIndexes →
    Retired s.gc ref
  dropped : ∀ j job, s.gc.jobs j = some job → ∀ ref ∈ job.droppedIndex, Retired s.gc ref

structure Inv (s : State κ) : Prop where
  wf : Wf s.gc
  refs : Refs s.gc
  marks : Marks s

theorem Inv.init : Inv (State.init : State κ) :=
  ⟨.init, .init, by simp [State.init], by simp [State.init],
    by simp [State.init, SoftwareGC.State.init]⟩

variable {s s' : State κ}

/-- Updated bitmaps, for records that are retired. -/
theorem SetFrom.retired {gc : SoftwareGC.State κ} {invalid valid : List (UInt64 × UInt64)}
    {bitmaps bitmaps' : UInt64 → Option BitMap} (h : SetFrom invalid valid bitmaps bitmaps')
    (hold : ∀ f bm j, bitmaps f = some bm → bm.bit j = true →
      ∃ i : UInt64, i.toNat = j ∧ Retired gc (f, i))
    (hnew : ∀ ref ∈ invalid, ref ∉ valid → Retired gc ref) :
    ∀ f bm j, bitmaps' f = some bm → bm.bit j = true →
      ∃ i : UInt64, i.toNat = j ∧ Retired gc (f, i) := by
  intro f bm j hf hj
  rcases h f bm j hf hj with ⟨old, hf, hj⟩ | ⟨i, hi, hin, hout⟩
  · exact hold f old j hf hj
  · exact ⟨i, hi, hnew _ hin hout⟩

theorem compactionCompletedStep_cases {i : ℕ} (h : s.compactionCompletedStep i = some s') :
    ∃ info bitmaps, s.callbacks[i]? = some info ∧
      onCompactionCompleted s.gc.files s.bitmaps info = some bitmaps ∧
      s' = { s with bitmaps := bitmaps, callbacks := s.callbacks.eraseIdx i } := by
  simp only [State.compactionCompletedStep, Option.bind_eq_bind, Option.bind_eq_some_iff] at h
  obtain ⟨info, hinfo, bitmaps, hbitmaps, heq⟩ := h
  exact ⟨info, bitmaps, hinfo, hbitmaps, (Option.some.inj heq).symm⟩

theorem Inv.compactionCompleted (h : Inv s) {i : ℕ}
    (hstep : s.compactionCompletedStep i = some s') : Inv s' := by
  obtain ⟨info, bitmaps, hinfo, hbitmaps, rfl⟩ := compactionCompletedStep_cases hstep
  have hmem := List.mem_of_getElem? hinfo
  refine ⟨h.wf, h.refs, ?_, ?_, h.marks.dropped⟩
  · exact (setFrom_foldlM hbitmaps).retired h.marks.bits (h.marks.callbacks info hmem)
  · exact fun other hother => h.marks.callbacks other (List.mem_of_mem_eraseIdx hother)

/-- Marks survive a step of the column family that drops nothing from a queue. -/
theorem Marks.gc_step (h : Marks s) (hwf : Wf s.gc) {gc : SoftwareGC.State κ}
    (hk : s.gc.files.Keeps gc.files) (hrs : RefsStep s.gc gc)
    (hdropped : ∀ j job, gc.jobs j = some job → ∀ ref ∈ job.droppedIndex, Retired gc ref) :
    Marks { s with gc := gc } := by
  refine ⟨fun f bm j hf hj => ?_, fun info hinfo ref hin hout => ?_, hdropped⟩
  · obtain ⟨i, hi, hret⟩ := h.bits f bm j hf hj
    exact ⟨i, hi, hret.step hwf hk hrs⟩
  · exact (h.callbacks info hinfo ref hin hout).step hwf hk hrs

theorem completeOutput_cases {files files' : BlobFiles κ} {f : UInt64} {noLiveData : Bool}
    (h : completeOutput files f noLiveData = some files') :
    ∃ mid, files.transit .kCompactionCompleted f = some mid ∧
      mid.transitAll .kDelete (if noLiveData then [f] else []) = some files' := by
  simp only [completeOutput, Option.bind_eq_bind, Option.bind_eq_some_iff] at h
  exact h

theorem compactionOutputStep_cases {f : UInt64} {noLiveData : Bool}
    (h : s.compactionOutputStep f noLiveData = some s') :
    ∃ mid files, s.gc.files.transit .kCompactionCompleted f = some mid ∧
      mid.transitAll .kDelete (if noLiveData then [f] else []) = some files ∧
      s' = { s with gc := { s.gc with files := files } } := by
  obtain ⟨files, hfiles, rfl⟩ := Option.map_eq_some_iff.mp h
  obtain ⟨mid, hmid, hdelete⟩ := completeOutput_cases hfiles
  exact ⟨mid, files, hmid, hdelete, rfl⟩

/-- Life-cycle events leave references alone. -/
theorem Inv.files_step (h : Inv s) {files : BlobFiles κ} (hwf : Wf { s.gc with files := files })
    (hk : s.gc.files.Keeps files) : Inv { s with gc := { s.gc with files := files } } := by
  obtain ⟨hrefs, hrs⟩ : Refs { s.gc with files := files } ∧
    RefsStep s.gc { s.gc with files := files } := h.refs.same_jobs rfl rfl
  exact ⟨hwf, hrefs, h.marks.gc_step h.wf hk hrs fun j job hj ref hr =>
    (h.marks.dropped j job hj ref hr).step h.wf hk hrs⟩

theorem Inv.compactionOutput (h : Inv s) {f : UInt64} {noLiveData : Bool}
    (hstep : s.compactionOutputStep f noLiveData = some s') : Inv s' := by
  obtain ⟨mid, files, hmid, hfiles, rfl⟩ := compactionOutputStep_cases hstep
  obtain ⟨-, bf, state, hbf, hstate, -⟩ := BlobFiles.transit_apply hmid
  have hpending : bf.state = .kPendingLSM := by
    by_contra hc
    simp [fileStateTransit, hc] at hstate
  have hunowned : ∀ j job, s.gc.jobs j = some job → f ∉ job.owns := fun j job hj =>
    h.wf.not_owned hbf (by simp [hpending]) (by simp [hpending]) hj
  have hwf : Wf { s.gc with files := mid } := h.wf.files_step hmid fun j job hj hf =>
    absurd hf (hunowned j job hj)
  have hwf' : Wf { s.gc with files := files } := by
    cases noLiveData with
    | false =>
        obtain rfl : mid = files := Option.some.inj hfiles
        exact hwf
    | true =>
        obtain ⟨mid', hmid', hrest⟩ := BlobFiles.transitAll_cons hfiles
        obtain rfl : mid' = files := Option.some.inj hrest
        exact hwf.files_step hmid' fun j job hj hf => absurd hf (hunowned j job hj)
  exact h.files_step hwf' ((BlobFiles.Keeps.transit hmid).trans (.transitAll hfiles))

theorem levelMerge_cases {files files' : BlobFiles κ} {f : UInt64} {noLiveData : Bool}
    (h : levelMerge files f noLiveData = some files') :
    ∃ bf, files f = some bf ∧ (bf.state = .kNormal ∨ bf.state = .kToMerge) ∧
      files.transit (if noLiveData then .kDelete else .kNeedMerge) f = some files' := by
  simp only [levelMerge, Option.bind_eq_bind, Option.bind_eq_some_iff] at h
  obtain ⟨bf, hbf, h⟩ := h
  by_cases hstate : bf.state = .kNormal ∨ bf.state = .kToMerge
  · rw [if_pos hstate] at h
    exact ⟨bf, hbf, hstate, h⟩
  · rw [if_neg hstate] at h
    cases h

theorem levelMergedStep_cases {f : UInt64} {noLiveData : Bool}
    (h : s.levelMergedStep f noLiveData = some s') :
    ∃ bf files, s.gc.files f = some bf ∧ (bf.state = .kNormal ∨ bf.state = .kToMerge) ∧
      s.gc.files.transit (if noLiveData then .kDelete else .kNeedMerge) f = some files ∧
      s' = { s with gc := { s.gc with files := files } } := by
  obtain ⟨files, hfiles, rfl⟩ := Option.map_eq_some_iff.mp h
  obtain ⟨bf, hbf, hstate, htransit⟩ := levelMerge_cases hfiles
  exact ⟨bf, files, hbf, hstate, htransit, rfl⟩

theorem Inv.levelMerged (h : Inv s) {f : UInt64} {noLiveData : Bool}
    (hstep : s.levelMergedStep f noLiveData = some s') : Inv s' := by
  obtain ⟨bf, files, hbf, hstate, hfiles, rfl⟩ := levelMergedStep_cases hstep
  refine h.files_step (h.wf.files_step hfiles fun j job hj hf => ?_) (.transit hfiles)
  refine absurd hf (h.wf.not_owned hbf ?_ ?_ hj)
  · rcases hstate with hstate | hstate <;> simp [hstate]
  · rcases hstate with hstate | hstate <;> simp [hstate]

/-! ## Compactions -/

section

variable [DecidableEq κ]

omit [DecidableEq κ] in
theorem mem_collect {lsm : Lsm κ} {entries : List (κ × ℕ)} {ref : UInt64 × UInt64} :
    ref ∈ collect lsm entries ↔ ∃ x ∈ entries, ∃ v ∈ lsm.versions x.1, v.sequence = x.2 ∧
      v.entry.ref? = some ref := by
  simp only [collect, List.mem_filterMap, Option.bind_eq_some_iff]
  constructor
  · rintro ⟨x, hx, v, hv, href⟩
    exact ⟨x, hx, v, List.mem_of_find?_eq_some hv, by simpa using List.find?_some hv, href⟩
  · rintro ⟨x, hx, v, hv, hseq, href⟩
    exact ⟨x, hx, v, by rw [← hseq]; exact Lsm.find?_sequence hv, href⟩

/-- What the input tables referenced and the output tables do not is referenced nowhere. -/
theorem retired_of_compaction {gc gc' : SoftwareGC.State κ} (hwf : Wf gc) (hrefs : Refs gc)
    {f : UInt64} {records : List (ℕ × BlobRec κ)} {inlined dropped inputs : List (κ × ℕ)}
    (hstep : gc.rewriteTables f records inlined dropped = some gc') {ref : UInt64 × UInt64}
    (hin : ref ∈ collect gc.lsm inputs) (hout : ref ∉ collect gc'.lsm inputs) : Retired gc' ref := by
  obtain ⟨⟨k, q⟩, hx, v, hv, hseq, href⟩ := mem_collect.mp hin
  have hold : gc.lsm.Referenced ref := ⟨k, v, hv, href⟩
  have hfile := hwf.referenced_file hold
  refine ⟨?_, ?_, ?_⟩
  · obtain ⟨-, -, t, ht, rfl⟩ := rewriteTables_cases hstep
    obtain ⟨bf, hbf⟩ := Option.ne_none_iff_exists'.mp hfile
    obtain ⟨bf', hbf', -⟩ := (hwf.finishTable ht).keeps _ bf hbf
    simp [hbf']
  · rintro ⟨k', v', hv', href'⟩
    rcases hwf.ref_rewriteTables hstep hv' href' with ⟨u, hu, huseq, hur⟩ | ⟨hfresh, x, -, -, -, rfl⟩
    · -- the record has one reference, so this version came from the input tables
      obtain ⟨rfl, hvu⟩ := hrefs.unique k k' v hv u hu ref href hur
      exact hout (mem_collect.mpr ⟨(k, q), hx, v', hv', by rw [← huseq, ← hvu, hseq], href'⟩)
    · exact hfresh (hwf.numbered _ hfile)
  · intro j job hj hq
    obtain ⟨-, -, t, ht, rfl⟩ := rewriteTables_cases hstep
    exact hrefs.queued j job ((hwf.finishTable ht).jobs ▸ hj) ref hq hold

/-- The invariant once some tables are rewritten, with the callbacks of before. -/
theorem Inv.rewriteTables (h : Inv s) {gc : SoftwareGC.State κ} {f : UInt64}
    {records : List (ℕ × BlobRec κ)} {inlined dropped : List (κ × ℕ)}
    (hgc : s.gc.rewriteTables f records inlined dropped = some gc) : Inv { s with gc := gc } := by
  obtain ⟨hrefs, hrs⟩ := h.refs.rewriteTables h.wf hgc
  have hfin : s.gc.files.Keeps gc.files ∧ gc.jobs = s.gc.jobs := by
    obtain ⟨-, -, t, ht, rfl⟩ := rewriteTables_cases hgc
    exact ⟨(h.wf.finishTable ht).keeps, (h.wf.finishTable ht).jobs⟩
  exact ⟨h.wf.rewriteTables hgc, hrefs, h.marks.gc_step h.wf hfin.1 hrs fun j job hj ref hr =>
    (h.marks.dropped j job (hfin.2 ▸ hj) ref hr).step h.wf hfin.1 hrs⟩

theorem Inv.fallbackFlush (h : Inv s) {upto : ℕ} {inlined dropped : List (κ × ℕ)}
    (hstep : s.fallbackFlushStep upto inlined dropped = some s') : Inv s' := by
  obtain ⟨gc, hgc, rfl⟩ := Option.map_eq_some_iff.mp hstep
  exact h.rewriteTables (fallbackFlushStep_cases hgc).2.2

theorem compactStep_cases {inputs dropped : List (κ × ℕ)} {f : UInt64}
    {records : List (ℕ × BlobRec κ)} {inlined : List (κ × ℕ)}
    (h : s.compactStep inputs dropped f records inlined = some s') :
    ∃ gc, s.gc.rewriteTables f records inlined dropped = some gc ∧ s' = { s with
      gc := gc
      callbacks := s.callbacks ++ [⟨collect s.gc.lsm inputs, collect gc.lsm inputs⟩] } := by
  unfold State.compactStep at h
  split_ifs at h
  obtain ⟨gc, hgc, rfl⟩ := Option.map_eq_some_iff.mp h
  exact ⟨gc, hgc, rfl⟩

theorem Inv.compact (h : Inv s) {inputs dropped : List (κ × ℕ)} {f : UInt64}
    {records : List (ℕ × BlobRec κ)} {inlined : List (κ × ℕ)}
    (hstep : s.compactStep inputs dropped f records inlined = some s') : Inv s' := by
  obtain ⟨gc, hgc, rfl⟩ := compactStep_cases hstep
  obtain ⟨hwf, hrefs, hmarks⟩ := h.rewriteTables hgc
  refine ⟨hwf, hrefs, hmarks.bits, fun info hinfo ref hin hout => ?_, hmarks.dropped⟩
  rcases List.mem_append.mp hinfo with hinfo | hinfo
  · exact hmarks.callbacks info hinfo ref hin hout
  · obtain rfl := List.mem_singleton.mp hinfo
    exact retired_of_compaction h.wf h.refs hgc hin hout

/-! ## Steps of the column family -/

/-- Jobs drop what they have dropped before, and besides it only copies that are retired. -/
def KeepsDropped (gc gc' : SoftwareGC.State κ) : Prop :=
  ∀ j job, gc'.jobs j = some job → ∀ ref ∈ job.droppedIndex, Retired gc' ref ∨
    ∃ old, gc.jobs j = some old ∧ ref ∈ old.droppedIndex

omit [DecidableEq κ] in
/-- Jobs whose dropped copies are those of before. -/
theorem dropped_of_frame {gc gc' : SoftwareGC.State κ} (hwf : Wf gc)
    (hk : gc.files.Keeps gc'.files) (hrs : RefsStep gc gc')
    (h : ∀ j job, gc.jobs j = some job → ∀ ref ∈ job.droppedIndex, Retired gc ref)
    (hjobs : KeepsDropped gc gc') :
    ∀ j job, gc'.jobs j = some job → ∀ ref ∈ job.droppedIndex, Retired gc' ref := by
  intro j job hj ref hr
  rcases hjobs j job hj ref hr with hret | ⟨old, hold, hr⟩
  · exact hret
  · exact (h j old hold ref hr).step hwf hk hrs

section

omit [DecidableEq κ]

variable {gc gc' : SoftwareGC.State κ}

theorem keepsDropped_of_jobs (h : gc'.jobs = gc.jobs) : KeepsDropped gc gc' :=
  fun _ job hj _ hr => Or.inr ⟨job, h ▸ hj, hr⟩

/-- A job ends. -/
theorem keepsDropped_of_none {i : ℕ} (h : gc'.jobs = Function.update gc.jobs i none) :
    KeepsDropped gc gc' := by
  intro j job hj ref hr
  rw [h] at hj
  rcases update_jobs_some hj with ⟨-, hx⟩ | ⟨-, hold⟩
  · cases hx
  · exact Or.inr ⟨job, hold, hr⟩

/-- A job goes on without dropping a copy. -/
theorem keepsDropped_of_some {i : ℕ} {old new : Job κ} (hi : gc.jobs i = some old)
    (h : gc'.jobs = Function.update gc.jobs i (some new))
    (hdropped : new.droppedIndex = old.droppedIndex) : KeepsDropped gc gc' := by
  intro j job hj ref hr
  rw [h] at hj
  rcases update_jobs_some hj with ⟨rfl, hx⟩ | ⟨-, hold⟩
  · obtain rfl := Option.some.inj hx
    exact Or.inr ⟨old, hi, hdropped ▸ hr⟩
  · exact Or.inr ⟨job, hold, hr⟩

end

omit [DecidableEq κ] in
/-- A copy whose rewrite was Busy is retired. -/
theorem retired_of_busy {gc : SoftwareGC.State κ} (hwf : Wf gc) (hrefs : Refs gc) {j : ℕ}
    {job job' : Job κ} {w : Rewrite κ} {rest : List (Rewrite κ)} (hjob : gc.jobs j = some job)
    (hw : job.rewriteBatches = w :: rest) (hinst : job.installed = true)
    (hjob' : job'.rewriteBatches = rest) {ref : UInt64 × UInt64} (hr : w.entry.ref? = some ref) :
    Retired { gc with jobs := Function.update gc.jobs j (some job') } ref := by
  have hqueue : job.queuedRefs = ref :: job'.queuedRefs := by
    rw [Job.queuedRefs, hw, Job.queuedRefs, hjob']
    simp [hr]
  have hmem : ref ∈ job.queuedRefs := hqueue ▸ List.mem_cons_self
  have hjw := hwf.jobs j job hjob
  refine ⟨?_, hrefs.queued j job hjob ref hmem, fun i other hi hq => ?_⟩
  · obtain ⟨records, hout⟩ := hjw.queued_output hmem
    have hat := (hjw.output _ _ hout).2
    simp only [OutputAt, hinst, if_true] at hat
    obtain ⟨bf, hbf, -⟩ := hat
    simp [hbf]
  · rcases update_jobs_some hi with ⟨rfl, hx⟩ | ⟨hne, hold⟩
    · obtain rfl := Option.some.inj hx
      have hnodup := (hrefs.jobs _ job hjob).nodup hinst
      rw [hqueue, List.nodup_cons] at hnodup
      exact hnodup.1 hq
    · exact hwf.disjoint i j other job hold hjob hne ref.1 ((hwf.jobs i other hold).queued_owns hq)
        (hjw.queued_owns hmem)

theorem dropped_step {gc gc' : SoftwareGC.State κ} (hwf : Wf gc) (hrefs : Refs gc)
    {a : SoftwareGC.Action κ} (hstep : SoftwareGC.step gc a = some gc') : KeepsDropped gc gc' := by
  cases a with
  | put k v =>
      obtain rfl := Option.some.inj hstep
      exact keepsDropped_of_jobs rfl
  | delete k =>
      obtain rfl := Option.some.inj hstep
      exact keepsDropped_of_jobs rfl
  | flush upto f records dropped =>
      obtain ⟨-, -, t, ht, rfl⟩ := rewriteTables_cases (flushStep_cases hstep).2.2.2
      exact keepsDropped_of_jobs (hwf.finishTable ht).jobs
  | flushCompleted f =>
      obtain ⟨files, -, rfl⟩ := Option.map_eq_some_iff.mp hstep
      exact keepsDropped_of_jobs rfl
  | getSnapshot i =>
      obtain ⟨-, rfl⟩ := getSnapshot_cases hstep
      exact keepsDropped_of_jobs rfl
  | releaseSnapshot i =>
      obtain rfl := Option.some.inj hstep
      exact keepsDropped_of_jobs rfl
  | gcBegin j inputs order useBitmap fallback bits =>
      obtain ⟨-, -, -, files, -, rfl⟩ := gcBeginStep_cases hstep
      intro i job hi ref hr
      rcases update_jobs_some hi with ⟨-, hx⟩ | ⟨-, hold⟩
      · obtain rfl := Option.some.inj hx
        cases hr
      · exact Or.inr ⟨job, hold, hr⟩
  | gcRecord j g offset size =>
      obtain ⟨-, job, job', hjob, hrec, rfl⟩ := gcRecordStep_cases hstep
      refine keepsDropped_of_some hjob rfl ?_
      obtain ⟨f, r, todo, -, ⟨-, -, rfl⟩ | ⟨-, rfl⟩ | ⟨-, rfl⟩⟩ := Job.record_cases hrec
      · rfl
      · rfl
      · exact Job.keep_droppedIndex _ _ _ _ _ _
  | gcInstall j =>
      obtain ⟨job, hjob, -, -, ⟨-, rfl⟩ | ⟨g, bf, -, -, rfl⟩⟩ := gcInstallStep_cases hstep
      · exact keepsDropped_of_some hjob rfl rfl
      · exact keepsDropped_of_some hjob rfl rfl
  | gcRewrite j =>
      obtain ⟨job, w, rest, hjob, hw, hinst, ⟨-, rfl⟩ | ⟨-, rfl⟩⟩ := gcRewriteStep_cases hstep
      · exact keepsDropped_of_some hjob rfl rfl
      · intro i other hi ref hr
        rcases update_jobs_some hi with ⟨rfl, hx⟩ | ⟨-, hold⟩
        · obtain rfl := Option.some.inj hx
          rcases List.mem_append.mp hr with hr | hr
          · exact Or.inr ⟨job, hjob, hr⟩
          · split_ifs at hr
            · exact Or.inl (retired_of_busy hwf hrefs hjob hw hinst rfl (by simpa using hr))
            · cases hr
        · exact Or.inr ⟨other, hold, hr⟩
  | gcFlushWAL j =>
      obtain ⟨job, hjob, -, -, -, rfl⟩ := gcFlushWALStep_cases hstep
      exact keepsDropped_of_some hjob rfl rfl
  | gcDeleteInputs j =>
      obtain ⟨job, hjob, -, rfl⟩ := gcDeleteInputsStep_cases hstep
      exact keepsDropped_of_some hjob rfl rfl
  | gcFinish j =>
      obtain ⟨job, files, -, -, -, -, -, rfl⟩ := gcFinishStep_cases hstep
      exact keepsDropped_of_none rfl
  | gcAbort j =>
      obtain ⟨job, files, -, -, rfl⟩ := gcAbortStep_cases hstep
      exact keepsDropped_of_none rfl

theorem gcStep_cases {a : SoftwareGC.Action κ} (h : s.gcStep a = some s') :
    SoftwareGC.step s.gc (withBits s.bits a) = some s'.gc := by
  simp only [State.gcStep, Option.bind_eq_bind, Option.bind_eq_some_iff] at h
  obtain ⟨gc, hgc, bitmaps, -, heq⟩ := h
  obtain rfl := Option.some.inj heq
  exact hgc

omit [DecidableEq κ] in
/-- Only the start of a job takes bits. -/
theorem eq_of_withBits {bits : UInt64 → UInt64 → Bool} {a b : SoftwareGC.Action κ}
    (h : withBits bits a = b)
    (hb : ∀ j inputs order useBitmap fallback bits,
      b ≠ .gcBegin j inputs order useBitmap fallback bits) : a = b := by
  cases a with
  | gcBegin j inputs order useBitmap fallback bits' => exact absurd h.symm (hb _ _ _ _ _ _)
  | _ => exact h

theorem Inv.gc (h : Inv s) {a : SoftwareGC.Action κ} (hstep : s.gcStep a = some s') : Inv s' := by
  simp only [State.gcStep, Option.bind_eq_bind, Option.bind_eq_some_iff] at hstep
  obtain ⟨gc, hgc, bitmaps, hbitmaps, heq⟩ := hstep
  obtain rfl := Option.some.inj heq
  obtain ⟨hrefs, hrs⟩ := h.refs.step h.wf hgc
  have hk := h.wf.keeps hgc
  have hmarks := h.marks.gc_step h.wf hk hrs
    (dropped_of_frame h.wf hk hrs h.marks.dropped (dropped_step h.wf h.refs hgc))
  refine ⟨h.wf.step hgc, hrefs, ?_, hmarks.callbacks, hmarks.dropped⟩
  unfold State.bitmapsAfter at hbitmaps
  split at hbitmaps
  · -- the dropped copies of the job that ends its rewrites
    rename_i j
    simp only [Option.bind_eq_bind, Option.bind_eq_some_iff] at hbitmaps
    obtain ⟨job, hjob, hdrop⟩ := hbitmaps
    exact (setFrom_foldlM hdrop).retired hmarks.bits fun ref hr _ =>
      (h.marks.dropped j job hjob ref hr).step h.wf hk hrs
  · obtain rfl := Option.some.inj hbitmaps
    exact hmarks.bits

theorem Inv.step (h : Inv s) {a : Action κ} (hstep : InvalidEntries.step s a = some s') :
    Inv s' := by
  cases a with
  | gc a => exact h.gc hstep
  | fallbackFlush upto inlined dropped => exact h.fallbackFlush hstep
  | compact inputs dropped f records inlined => exact h.compact hstep
  | compactionCompleted i => exact h.compactionCompleted hstep
  | compactionOutput f noLiveData => exact h.compactionOutput hstep
  | levelMerged f noLiveData => exact h.levelMerged hstep

omit [DecidableEq κ] in
theorem Inv.unreferenced (h : Inv s) {f i : UInt64} (hbit : s.bits f i = true) :
    ¬s.gc.lsm.Referenced (f, i) := by
  unfold State.bits at hbit
  split at hbit
  · cases hbit
  rename_i bf _
  split at hbit
  swap
  · cases hbit
  rename_i result hget
  obtain rfl : result = 1 := by simpa using hbit
  have hset := BitMap.getBit_eq_one hget
  cases hbm : s.bitmaps f with
  | none =>
      rw [invalidEntryIndexes, hbm, Option.getD_none, BitMap.bit_new] at hset
      cases hset
  | some bm =>
      rw [invalidEntryIndexes, hbm, Option.getD_some] at hset
      obtain ⟨i', hi', hret⟩ := h.marks.bits f bm _ hbm hset
      obtain rfl := UInt64.toNat_inj.mp hi'
      exact hret.2.1

omit [DecidableEq κ] in
/-- The bits handed to a job are what its reads rely on. -/
theorem Inv.bitsUnreferenced (h : Inv s) (a : SoftwareGC.Action κ) :
    BitsUnreferenced s.gc (withBits s.bits a) := by
  cases a with
  | gcBegin j inputs order useBitmap fallback bits => exact fun _ f _ i hbit => h.unreferenced hbit
  | _ => trivial

/-- Bitmap soundness: a set bit stands for a record that no entry of the LSM tree references,
whatever the order of the callbacks, and in obsolete files as well. -/
theorem invalid_bit_unreferenced {actions : List (Action κ)}
    (hr : TransitionSystem.run InvalidEntries.step State.init actions = some s) {f i : UInt64}
    (hbit : s.bits f i = true) : ¬s.gc.lsm.Referenced (f, i) := by
  have hinv : Inv s := TransitionSystem.run_invariant_always
    (fun _ _ _ hi hstep => hi.step hstep) .init hr
  exact hinv.unreferenced hbit

end

/-- The first record of file 1 is overwritten and dropped, the second copied to file 2 by a level
merge, the third inlined in fallback mode; the callbacks come in the reverse order. -/
def reorderedCallbacks : List (Action ℕ) :=
  let r : BlobRec ℕ := ⟨⟨32, 20, 1⟩, 1, [5]⟩
  [.gc (.put 0 [1]), .gc (.put 1 [5]), .gc (.put 2 [6]),
    .gc (.flush 3 1 [(1, ⟨⟨12, 20, 0⟩, 0, [1]⟩), (2, r), (3, ⟨⟨52, 20, 2⟩, 2, [6]⟩)] []),
    .gc (.flushCompleted 1), .gc (.put 0 [2]), .fallbackFlush 4 [] [],
    .compact [(0, 4), (0, 1)] [(0, 1)] 2 [] [],
    .compact [(1, 2)] [] 2 [(2, { r with handle := ⟨12, 20, 0⟩ })] [],
    .compact [(2, 3)] [] 3 [] [(2, 3)],
    .compactionCompleted 2, .compactionCompleted 1, .compactionCompleted 0, .levelMerged 1 true]

theorem reorderedCallbacks_unreferenced :
    ∃ s, TransitionSystem.run InvalidEntries.step State.init reorderedCallbacks = some s ∧
      (∀ i ∈ [0, 1, 2], s.bits 1 i = true ∧ ¬s.gc.lsm.Referenced (1, i)) ∧
      s.gc.lsm.Referenced (2, 0) := by
  obtain ⟨s, hs, hbits, hnew⟩ : ∃ s, TransitionSystem.run InvalidEntries.step State.init
      reorderedCallbacks = some s ∧ (∀ i ∈ [0, 1, 2], s.bits 1 i = true) ∧
      s.gc.lsm.Referenced (2, 0) := by
    refine ⟨_, rfl, fun i hi => ?_, 1, ⟨2, .blobIndex ⟨2, 12, 20, 0⟩⟩, List.mem_cons_self, rfl⟩
    simp only [List.mem_cons, List.not_mem_nil, or_false] at hi
    rcases hi with rfl | rfl | rfl <;> rfl
  exact ⟨s, hs, fun i hi => ⟨hbits i hi, invalid_bit_unreferenced hs (hbits i hi)⟩, hnew⟩

end AegonKV.InvalidEntries
