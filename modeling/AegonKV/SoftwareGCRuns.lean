import AegonKV.SoftwareGCReads

/-!
# Runs under software garbage collection

Every action keeps what the keys read, provided a job is only ever given bits of records that
nothing references.
-/

namespace AegonKV.SoftwareGC
open LittleEndian AegonKV

variable {κ : Type} {s s' : State κ}

/-- The bits a job starts with are set for unreferenced records only. -/
def BitsUnreferenced (s : State κ) : Action κ → Prop
  | .gcBegin _ inputs _ useBitmap _ bits =>
      useBitmap = true → ∀ f ∈ inputs, ∀ i, bits f i = true → ¬s.lsm.Referenced (f, i)
  | _ => True

theorem Reads.flushCompleted (h : Reads s) (hwf : Wf s) {f : UInt64} {files : BlobFiles κ}
    (hwf' : Wf { s with files := files })
    (hfiles : s.files.transit .kFlushCompleted f = some files) : Reads { s with files := files } := by
  refine h.of_frame hwf hwf' (.transit hfiles) rfl rfl ?_ fun j job hj => Or.inl hj
  intro k p hp
  rw [isObsolete_transit hfiles (by decide) (by decide)]
  exact h.live k p hp

variable [DecidableEq κ]

theorem Reads.gcBegin (h : Reads s) (hwf : Wf s) (hwf' : Wf s') {j : ℕ} {inputs : List UInt64}
    {order : List (UInt64 × BlobRec κ)} {useBitmap fallback : Bool}
    {bits : UInt64 → UInt64 → Bool}
    (hb : BitsUnreferenced s (.gcBegin j inputs order useBitmap fallback bits))
    (hstep : s.gcBeginStep j inputs order useBitmap fallback bits = some s') : Reads s' := by
  obtain ⟨-, -, hperm, files, hfiles, rfl⟩ := gcBeginStep_cases hstep
  have hk : s.files.Keeps files := .transitAll hfiles
  refine h.of_frame hwf hwf' hk rfl rfl ?_ fun i job hi => ?_
  · intro k p hp
    rw [isObsolete_transitAll hfiles (by decide) (by decide)]
    exact h.live k p hp
  · rcases update_jobs_some hi with ⟨rfl, hx⟩ | ⟨-, hold⟩
    · obtain rfl := Option.some.inj hx
      refine Or.inr ⟨fun f hf bf hbf r hr => Or.inl ?_, by simp [Job.start], ?_,
        by simp [Job.start], by simp [Job.start]⟩
      · -- the records of an input are those it had before it was marked
        have hx : (f, r) ∈ inputRecords files inputs := mem_inputRecords.mpr ⟨hf, bf, hbf, hr⟩
        refine hperm.mem_iff.mpr (mem_inputRecords.mpr ⟨hf, ?_⟩)
        cases hold : s.files f with
        | none =>
            have hstart := (hwf'.jobs _ _ hi).inputs f hf
            obtain ⟨bf', state, hbf', -⟩ := BlobFiles.transitAll_of_mem hfiles
              (hwf'.jobs _ _ hi).inputs_nodup hf
            simp [hold] at hbf'
        | some bf' =>
            obtain ⟨bg, hbg, hrec⟩ := hk f bf' hold
            obtain rfl : bf = bg := Option.some.inj (hbf.symm.trans hbg)
            exact ⟨bf', rfl, hrec ▸ hr⟩
      · intro hu x hx hbit hl
        have hxi := (mem_inputRecords.mp (hperm.mem_iff.mp hx)).1
        obtain ⟨v, hv, hentry⟩ := Lsm.holds_of_view hl
        exact hb hu x.1 hxi _ hbit ⟨x.2.key, v, hv, by rw [hentry]; rfl⟩
    · exact Or.inl hold

omit [DecidableEq κ] in
/-- Two records of the inputs are told apart by their indices. -/
theorem JobWf.todo_pointerTo {files : BlobFiles κ} {numbers : List UInt64} {job : Job κ}
    (h : JobWf files numbers job) {x y : UInt64 × BlobRec κ} (hx : x ∈ job.todo)
    (hy : y ∈ job.todo) (heq : pointerTo x.1 x.2 = pointerTo y.1 y.2) : x = y := by
  obtain ⟨-, bx, hbx, hrx⟩ := h.todo x hx
  obtain ⟨-, bf, hby, hry⟩ := h.todo y hy
  have hread := BlobFiles.read_pointerTo hbx hrx
  rw [heq, BlobFiles.read_pointerTo hby hry] at hread
  exact Prod.ext (congrArg BlobIndexType.fileNumber heq) (Option.some.inj hread).symm

omit [DecidableEq κ] in
/-- A record that is no longer to be visited is the one just visited. -/
theorem JobReads.visited {lsm : Lsm κ} {files : BlobFiles κ} {job : Job κ}
    (h : JobReads lsm files job) {f : UInt64} {r : BlobRec κ} {todo : List (UInt64 × BlobRec κ)}
    (htodo : job.todo = (f, r) :: todo) {f' : UInt64} (hf' : f' ∈ job.inputs) {bf : BlobFile κ}
    (hbf : files f' = some bf) {r' : BlobRec κ} (hr' : r' ∈ bf.records) :
    (f' = f ∧ r' = r) ∨ (f', r') ∈ todo ∨
      (∃ w ∈ job.rewriteBatches, w.key = r'.key ∧ w.blobIndex = pointerTo f' r') ∨
      Dead lsm f' r' := by
  rcases h.covered f' hf' bf hbf r' hr' with hin | hrest
  · rw [htodo] at hin
    rcases List.mem_cons.mp hin with heq | hin
    · exact Or.inl (Prod.mk.inj heq)
    · exact Or.inr (Or.inl hin)
  · exact Or.inr (Or.inr hrest)

theorem Reads.gcRecord (h : Reads s) (hwf : Wf s) (hwf' : Wf s') {j : ℕ} {g offset size : UInt64}
    (hstep : s.gcRecordStep j g offset size = some s') : Reads s' := by
  obtain ⟨-, job, job', hjob, hrec, rfl⟩ := gcRecordStep_cases hstep
  refine h.of_frame hwf hwf' (.refl _) rfl rfl h.live fun i other hi => ?_
  rcases update_jobs_some hi with ⟨rfl, hx⟩ | ⟨-, hold⟩
  swap
  · exact Or.inl hold
  obtain rfl := Option.some.inj hx
  refine Or.inr ?_
  have hj := h.jobs i job hjob
  have hjw := hwf.jobs i job hjob
  obtain ⟨f, r, todo, htodo, hcases⟩ := Job.record_cases hrec
  have hmem : (f, r) ∈ job.todo := htodo ▸ List.mem_cons_self
  have hsub : ∀ x ∈ todo, x ∈ job.todo := fun x hx => htodo ▸ List.mem_cons_of_mem _ hx
  obtain ⟨hfin, bf, hbf, hr⟩ := hjw.todo _ hmem
  have hat : isAt (pointerTo f r) (s.lsm.latest r.key) = true ↔
      s.lsm.latest r.key = some (.blobIndex (pointerTo f r)) :=
    isAt_iff ⟨bf, r, hbf, hr, rfl, rfl⟩ fun q hq => hwf.names_latest hq
  have hcov : Dead s.lsm f r → ∀ f' ∈ job.inputs, ∀ bf', s.files f' = some bf' →
      ∀ r' ∈ bf'.records, (f', r') ∈ todo ∨
        (∃ w ∈ job.rewriteBatches, w.key = r'.key ∧ w.blobIndex = pointerTo f' r') ∨
        Dead s.lsm f' r' := by
    intro hdead f' hf' bf' hbf' r' hr'
    rcases hj.visited htodo hf' hbf' hr' with ⟨rfl, rfl⟩ | hrest
    · exact Or.inr (Or.inr hdead)
    · exact hrest
  rcases hcases with ⟨hkey, hfresh, rfl⟩ | ⟨hdisc, rfl⟩ | ⟨hdisc, rfl⟩
  · exact ⟨hcov (hj.fresh hfresh (f, r) hmem hkey), fun hl x hx => hj.fresh hl x (hsub x hx),
      fun hb x hx => hj.bits hb x (hsub x hx), hj.drained, hj.deleting⟩
  · have hdead : Dead s.lsm f r := by
      unfold Job.discardable at hdisc
      split_ifs at hdisc with hb
      · exact hj.bits hb (f, r) hmem hdisc
      · intro hl
        simp [hat.mpr hl] at hdisc
    exact ⟨hcov hdead, by simp, fun hb x hx => hj.bits hb x (hsub x hx), hj.drained, hj.deleting⟩
  · obtain ⟨w, hwkey, hwidx, hw⟩ := Job.keep_rewriteBatches
      { job with todo := todo, lastKey := some r.key, lastKeyIsFresh := !job.useBitmap }
      f r g offset size
    refine ⟨?_, ?_, ?_, ?_, by simpa using hj.deleting⟩
    · intro f' hf' bf' hbf' r' hr'
      rw [Job.keep_inputs] at hf'
      rw [Job.keep_todo]
      rcases hj.visited htodo hf' hbf' hr' with ⟨rfl, rfl⟩ | hin | ⟨u, hu, hrest⟩ | hdead
      · exact Or.inr (Or.inl ⟨w, by simp [hw], hwkey, hwidx⟩)
      · exact Or.inl hin
      · exact Or.inr (Or.inl ⟨u, by simp [hw, hu], hrest⟩)
      · exact Or.inr (Or.inr hdead)
    · -- the key is at the visited record, so its other records are dead
      simp only [Job.keep_lastKeyIsFresh, Job.keep_todo, Job.keep_lastKey, Bool.not_eq_true',
        Option.some.injEq]
      intro hb x hx hkey hl
      have hfr : s.lsm.latest r.key = some (.blobIndex (pointerTo f r)) := by
        simpa [Job.discardable, hb, hat] using hdisc
      rw [← hkey, hfr] at hl
      have hxe := hjw.todo_pointerTo hmem (hsub x hx) (LsmEntry.blobIndex.inj (Option.some.inj hl))
      have hn := hjw.todo_nodup
      rw [htodo, List.nodup_cons] at hn
      exact hn.1 (hxe ▸ hx)
    · simp only [Job.keep_useBitmap, Job.keep_todo, Job.keep_bits]
      exact fun hb x hx => hj.bits hb x (hsub x hx)
    · -- a job that still has records has not flushed the WAL
      rw [Job.keep_walFlushed]
      intro hwal
      simp [hjw.todo_installed (hj.drained hwal).1] at htodo

/-! ## Steps that write to the LSM tree -/

theorem settled_write {files : BlobFiles κ} {lsm : Lsm κ} {k : κ} {e : LsmEntry}
    (he : ∀ p bf, e = .blobIndex p → files p.fileNumber = some bf → bf.state ≠ .kBeingGC) :
    Settled files lsm (lsm.write k e) := by
  intro k' p bf hbf hstate hl
  by_cases hk : k' = k
  · subst hk
    rw [Lsm.latest_write_self] at hl
    exact absurd hstate (he p bf (Option.some.inj hl) hbf)
  · rwa [Lsm.latest_write_other lsm hk] at hl

omit [DecidableEq κ] in
/-- Jobs other than the one at work, across a change of the LSM tree. -/
theorem Reads.other_job (h : Reads s) (hwf : Wf s) (hwf' : Wf s') (hk : s.files.Keeps s'.files)
    (hs : Settled s.files s.lsm s'.lsm) {j : ℕ} {job : Job κ} (hold : s.jobs j = some job)
    (hnew : s'.jobs j = some job) : JobReads s'.lsm s'.files job :=
  (h.jobs j job hold).mono (hwf.jobs j job hold) (hwf'.jobs j job hnew) hk hs

theorem Reads.userWrite (h : Reads s) (hwf : Wf s) (k : κ) (v : Option Bytes) :
    Reads (s.userWrite k v) := by
  have hwf' := hwf.userWrite k v
  have hs : Settled s.files s.lsm (s.userWrite k v).lsm :=
    settled_write fun p bf he => by cases v <;> cases he
  refine ⟨fun k' => ?_, fun k' p hp => ?_, fun j job hj =>
    h.other_job hwf hwf' (.refl _) hs hj hj⟩
  · by_cases hk : k' = k
    · subst hk
      cases v <;> simp [State.get, State.userWrite, Lsm.latest_write_self, resolveEntry]
    · have := h.get k'
      simpa [State.get, State.userWrite, Lsm.latest_write_other _ hk, hk] using this
  · by_cases hk : k' = k
    · subst hk
      cases v <;> simp [State.userWrite, Lsm.latest_write_self] at hp
    · exact h.live k' p (by simpa [State.userWrite, Lsm.latest_write_other _ hk] using hp)

omit [DecidableEq κ] in
/-- The entry a rewrite writes leads to the value it replaces and into the job's own output. -/
theorem Copied.resolveEntry {files : BlobFiles κ} {numbers : List UInt64} {job : Job κ}
    {w : Rewrite κ} (h : Copied files job w) (hwf : JobWf files numbers job)
    (hi : job.installed = true) :
    SoftwareGC.resolveEntry files (some w.entry) =
      SoftwareGC.resolveEntry files (some (.blobIndex w.blobIndex)) := by
  obtain ⟨f, -, bf, r, hbf, hr, -, hidx, hentry⟩ := h
  have hold := BlobFiles.read_pointerTo hbf hr
  rcases hentry with hval | ⟨number, records, copy, ho, hcopy, -, hval, hentry⟩
  · simp [SoftwareGC.resolveEntry, hval, hidx, hold]
  · have hout := (hwf.output number records ho).2
    simp only [OutputAt, hi, if_true] at hout
    obtain ⟨bg, hbg, rfl, -⟩ := hout
    simp [SoftwareGC.resolveEntry, hentry, hidx, hold, BlobFiles.read_pointerTo hbg hcopy, hval]

omit [DecidableEq κ] in
/-- The callback of a rewrite compares with the index of its record. -/
theorem Wf.isAt_rewrite_iff (hwf : Wf s) {j : ℕ} {job : Job κ} (hjob : s.jobs j = some job)
    {w : Rewrite κ} (hw : w ∈ job.rewriteBatches) :
    isAt w.blobIndex (s.lsm.latest w.key) = true ↔
      s.lsm.latest w.key = some (.blobIndex w.blobIndex) := by
  obtain ⟨f, -, bf, r, hbf, hr, hkey, hidx, -⟩ := (hwf.jobs j job hjob).rewrites w hw
  have hn : Names s.files r.key w.blobIndex := ⟨bf, r, by simpa [hidx, pointerTo] using hbf, hr, rfl,
    by simp [hidx, pointerTo]⟩
  exact isAt_iff hn fun q hq => hwf.names_latest hq

omit [DecidableEq κ] in
/-- The popped rewrite leaves its record dead, whatever the callback said. -/
theorem JobReads.popped {lsm lsm' : Lsm κ} {files : BlobFiles κ} {numbers : List UInt64} {job : Job κ}
    (h : JobReads lsm files job) (hwf : JobWf files numbers job) (hs : Settled files lsm lsm')
    {w : Rewrite κ} {rest : List (Rewrite κ)} (hw : job.rewriteBatches = w :: rest)
    (hne : lsm'.latest w.key ≠ some (.blobIndex w.blobIndex)) :
    ∀ f ∈ job.inputs, ∀ bf, files f = some bf → ∀ r ∈ bf.records, (f, r) ∈ job.todo ∨
      (∃ u ∈ rest, u.key = r.key ∧ u.blobIndex = pointerTo f r) ∨ Dead lsm' f r := by
  intro f hf bf hbf r hr
  obtain ⟨bi, hbi, hstate⟩ := hwf.inputs f hf
  rcases h.covered f hf bf hbf r hr with hin | ⟨u, hu, hkey, hidx⟩ | hdead
  · exact Or.inl hin
  · rw [hw] at hu
    rcases List.mem_cons.mp hu with rfl | hu
    · refine Or.inr (Or.inr fun hl => hne ?_)
      rw [hkey, hidx, hl]
    · exact Or.inr (Or.inl ⟨u, hu, hkey, hidx⟩)
  · exact Or.inr (Or.inr (hdead.mono hs hbi hstate))

theorem Reads.gcRewrite (h : Reads s) (hwf : Wf s) (hwf' : Wf s') {j : ℕ}
    (hstep : s.gcRewriteStep j = some s') : Reads s' := by
  obtain ⟨job, w, rest, hjob, hw, hinst, hcases⟩ := gcRewriteStep_cases hstep
  have hj := h.jobs j job hjob
  have hjw := hwf.jobs j job hjob
  have hwmem : w ∈ job.rewriteBatches := hw ▸ List.mem_cons_self
  have hcopied := hjw.rewrites w hwmem
  have hdrained : job.walFlushed = true → False := by
    intro hwal
    simp [(hj.drained hwal).2] at hw
  have hat := hwf.isAt_rewrite_iff hjob hwmem
  have htodo := hjw.todo_installed hinst
  rcases hcases with ⟨hok, rfl⟩ | ⟨hbusy, rfl⟩
  · have hlatest := hat.mp hok
    have hs : Settled s.files s.lsm (s.lsm.write w.key w.entry) := by
      refine settled_write fun p bf hp hbf hstate => ?_
      obtain ⟨bg, hbg, hstate'⟩ := hjw.output_state hinst hwmem hp
      obtain rfl : bf = bg := Option.some.inj (hbf.symm.trans hbg)
      simp [hstate] at hstate'
    refine ⟨fun k => ?_, fun k p hp => ?_, fun i other hi => ?_⟩
    · by_cases hk : k = w.key
      · subst hk
        rw [State.get, Lsm.latest_write_self, hcopied.resolveEntry hjw hinst, ← hlatest]
        exact h.get w.key
      · rw [State.get, Lsm.latest_write_other _ hk]
        exact h.get k
    · by_cases hk : k = w.key
      · subst hk
        rw [Lsm.latest_write_self] at hp
        obtain ⟨bg, hbg, hstate⟩ := hjw.output_state hinst hwmem (Option.some.inj hp)
        exact isObsolete_of_state hbg (by simp [hstate])
      · rw [Lsm.latest_write_other _ hk] at hp
        exact h.live k p hp
    · rcases update_jobs_some hi with ⟨rfl, hx⟩ | ⟨-, hold⟩
      · obtain rfl := Option.some.inj hx
        refine ⟨hj.popped hjw hs hw ?_, by simp [htodo], by simp [htodo],
          fun hwal => (hdrained hwal).elim, hj.deleting⟩
        rw [Lsm.latest_write_self]
        intro heq
        obtain ⟨bg, hbg, hstate⟩ := hjw.output_state hinst hwmem (Option.some.inj heq)
        obtain ⟨f, hf, bf, r, hbf, -, -, hidx, -⟩ := hcopied
        obtain ⟨bi, hbi, hstate'⟩ := hjw.inputs f hf
        rw [hidx, show (pointerTo f r).fileNumber = f from rfl, hbi] at hbg
        obtain rfl := Option.some.inj hbg
        simp [hstate] at hstate'
      · exact h.other_job hwf hwf' (.refl _) hs hold hi
  · refine h.of_frame hwf hwf' (.refl _) rfl rfl h.live fun i other hi => ?_
    rcases update_jobs_some hi with ⟨rfl, hx⟩ | ⟨-, hold⟩
    · obtain rfl := Option.some.inj hx
      refine Or.inr ⟨hj.popped hjw (.refl _ _) hw ?_, by simp [htodo], by simp [htodo],
        fun hwal => (hdrained hwal).elim, hj.deleting⟩
      intro hl
      rw [hat.mpr hl] at hbusy
      cases hbusy
    · exact Or.inl hold

/-- A rewrite of the tables that keeps the newest versions. -/
theorem Reads.rewriteTables (h : Reads s) (hwf : Wf s) {f : UInt64}
    {records : List (ℕ × BlobRec κ)} {inlined dropped : List (κ × ℕ)}
    (hd : s.lsm.ShadowedAt dropped s.lsm.lastSequence)
    (hstep : s.rewriteTables f records inlined dropped = some s') : Reads s' := by
  have hwf' := hwf.rewriteTables hstep
  have hseq : s'.lsm.lastSequence = s.lsm.lastSequence := by
    obtain ⟨-, -, t, -, rfl⟩ := rewriteTables_cases hstep
    rfl
  have hview : ∀ k, ViewRewritten s s' f s.lsm.lastSequence k :=
    fun k => hwf.view_rewriteTables hstep hd k
  have hlatest : ∀ k, s'.lsm.latest k = s'.lsm.view s.lsm.lastSequence k :=
    fun k => by rw [Lsm.latest, hseq]
  have hs : Settled s.files s.lsm s'.lsm := by
    intro k p bf hbf _ hl
    rw [hlatest] at hl
    rcases hview k with heq | ⟨r, bg, -, -, hnew, hfresh, -⟩ | ⟨q, r, -, -, hnew⟩
    · rwa [heq] at hl
    · rw [hnew] at hl
      obtain rfl := LsmEntry.blobIndex.inj (Option.some.inj hl)
      exact absurd (hwf.numbered f (by simp [show s.files f = some bf from hbf])) hfresh
    · rw [hnew] at hl
      cases hl
  obtain ⟨-, -, t, ht, rfl⟩ := rewriteTables_cases hstep
  have hfin := hwf.finishTable ht
  refine ⟨fun k => ?_, fun k p hp => ?_, fun j job hj =>
    h.other_job hwf hwf' hfin.keeps hs (hfin.jobs ▸ hj) hj⟩
  · change resolveEntry t.files (Lsm.latest _ k) = t.lastWrite k
    rw [hlatest, hfin.lastWrite, ← h.get k]
    rcases hview k with heq | ⟨r, bf, -, hold, hnew, -, hbf, -, hr⟩ | ⟨p, r, hold, hr, hnew⟩
    · rw [heq]
      exact resolveEntry_keeps hfin.keeps fun p hp => hwf.names_latest hp
    · rw [hnew, State.get, Lsm.latest, hold, resolveEntry_some, LsmEntry.valueIn,
        BlobFiles.read_pointerTo hbf hr]
      rfl
    · rw [hnew, State.get, Lsm.latest, hold, resolveEntry_some, resolveEntry_some,
        LsmEntry.valueIn, LsmEntry.valueIn, hr]
      rfl
  · rw [hlatest] at hp
    rcases hview k with heq | ⟨r, bf, -, -, hnew, -, hbf, hstate, -⟩ | ⟨q, r, -, -, hnew⟩
    · rw [heq] at hp
      obtain ⟨bf, r, hbf, -⟩ := hwf.names_latest hp
      have hlive := h.live k p hp
      rw [isObsolete] at hlive ⊢
      rwa [hfin.files _ (hwf.numbered _ (by simp [hbf]))]
    · rw [hnew] at hp
      obtain rfl := LsmEntry.blobIndex.inj (Option.some.inj hp)
      exact isObsolete_of_state hbf (by simp [hstate])
    · rw [hnew] at hp
      cases hp

theorem Reads.step (h : Reads s) (hwf : Wf s) {a : Action κ} (hb : BitsUnreferenced s a)
    (hstep : SoftwareGC.step s a = some s') : Reads s' := by
  have hwf' := hwf.step hstep
  cases a with
  | put k v =>
      obtain rfl := Option.some.inj hstep
      exact h.userWrite hwf k (some v)
  | delete k =>
      obtain rfl := Option.some.inj hstep
      exact h.userWrite hwf k none
  | flush upto f records dropped =>
      obtain ⟨hle, -, hdrop, hrw⟩ := flushStep_cases hstep
      exact h.rewriteTables hwf (hdrop.2.1.of_le hdrop.1 hle) hrw
  | flushCompleted f =>
      obtain ⟨files, hfiles, rfl⟩ := Option.map_eq_some_iff.mp hstep
      exact h.flushCompleted hwf hwf' hfiles
  | getSnapshot i =>
      obtain ⟨-, rfl⟩ := getSnapshot_cases hstep
      exact ⟨h.get, h.live, h.jobs⟩
  | releaseSnapshot i =>
      obtain rfl := Option.some.inj hstep
      exact ⟨h.get, h.live, h.jobs⟩
  | gcBegin j inputs order useBitmap fallback bits => exact h.gcBegin hwf hwf' hb hstep
  | gcRecord j g offset size => exact h.gcRecord hwf hwf' hstep
  | gcInstall j => exact h.gcInstall hwf hwf' hstep
  | gcRewrite j => exact h.gcRewrite hwf hwf' hstep
  | gcFlushWAL j => exact h.gcFlushWAL hwf hwf' hstep
  | gcDeleteInputs j => exact h.gcDeleteInputs hwf hwf' hstep
  | gcFinish j => exact h.gcFinish hwf hwf' hstep
  | gcAbort j => exact h.gcAbort hwf hwf' hstep

structure Inv (s : State κ) : Prop where
  wf : Wf s
  reads : Reads s

omit [DecidableEq κ] in
theorem Inv.init : Inv (State.init : State κ) := ⟨.init, .init⟩

theorem Inv.step (h : Inv s) {a : Action κ} (hb : BitsUnreferenced s a)
    (hstep : SoftwareGC.step s a = some s') : Inv s' :=
  ⟨h.wf.step hstep, h.reads.step h.wf hb hstep⟩

theorem Inv.fallbackFlush (h : Inv s) {upto : ℕ} {inlined dropped : List (κ × ℕ)}
    (hstep : s.fallbackFlushStep upto inlined dropped = some s') : Inv s' := by
  obtain ⟨hle, hdrop, hrw⟩ := fallbackFlushStep_cases hstep
  exact ⟨h.wf.rewriteTables hrw, h.reads.rewriteTables h.wf (hdrop.2.1.of_le hdrop.1 hle) hrw⟩

omit [DecidableEq κ] in
def RunAction.BitsUnreferenced (s : State κ) : RunAction κ → Prop
  | .gc a => SoftwareGC.BitsUnreferenced s a
  | .fallbackFlush _ _ _ => True

theorem Inv.runStep (h : Inv s) {a : RunAction κ} (hb : a.BitsUnreferenced s)
    (hstep : SoftwareGC.runStep s a = some s') : Inv s' := by
  cases a with
  | gc a => exact h.step hb hstep
  | fallbackFlush upto inlined dropped => exact h.fallbackFlush hstep

/-- Read transparency: whatever the jobs do and in whatever mode tables are written, every key
leads to its last user write, and the file on the way is not obsolete. -/
theorem get_eq_lastWrite {actions : List (RunAction κ)}
    (hm : TransitionSystem.Meets runStep (fun s a => a.BitsUnreferenced s) State.init actions)
    (hr : TransitionSystem.run runStep State.init actions = some s) (k : κ) :
    s.get k = s.lastWrite k ∧ ∀ p, s.lsm.latest k = some (.blobIndex p) →
      ∃ bf, s.files p.fileNumber = some bf ∧ bf.state ≠ .kObsolete := by
  have hinv : Inv s := TransitionSystem.run_invariant
    (fun _ _ _ hi hb hstep => hi.runStep hb hstep) .init hm hr
  refine ⟨hinv.reads.get k, fun p hp => ?_⟩
  obtain ⟨bf, r, hbf, -⟩ := hinv.wf.names_latest hp
  refine ⟨bf, hbf, fun hstate => ?_⟩
  have hlive := hinv.reads.live k p hp
  rw [isObsolete_iff.mpr ⟨bf, hbf, hstate⟩] at hlive
  cases hlive

/-- Two keys flushed into file 1, one of them overwritten while a job relocates both. Then the
column family falls back, and a flush inlines the write-back of the other. -/
def overwrittenWhileCollected : List (RunAction ℕ) :=
  let r₀ : BlobRec ℕ := ⟨⟨12, 20, 0⟩, 0, [1]⟩
  let r₁ : BlobRec ℕ := ⟨⟨32, 20, 1⟩, 1, [5]⟩
  [.gc (.put 0 [1]), .gc (.put 1 [5]), .gc (.flush 2 1 [(1, r₀), (2, r₁)] []),
    .gc (.flushCompleted 1), .gc (.gcBegin 0 [1] [(1, r₀), (1, r₁)] true false fun _ _ => false),
    .gc (.gcRecord 0 2 12 20), .gc (.gcRecord 0 3 32 20), .gc (.put 0 [2]), .gc (.gcInstall 0),
    .gc (.gcRewrite 0), .gc (.gcRewrite 0), .gc (.gcFlushWAL 0), .gc (.gcDeleteInputs 0),
    .gc (.gcFinish 0), .fallbackFlush 4 [(1, 4)] []]

theorem overwrittenWhileCollected_get :
    ∃ s, TransitionSystem.run runStep State.init overwrittenWhileCollected = some s ∧
      s.lsm.latest 1 = some (.value [5]) ∧ s.get 0 = some [2] ∧ s.get 1 = some [5] := by
  have hm : TransitionSystem.Meets runStep (fun s a => a.BitsUnreferenced s) State.init
      overwrittenWhileCollected := by
    refine .cons rfl trivial (.cons rfl trivial (.cons rfl trivial (.cons rfl trivial
      (.cons rfl ?_ (.cons rfl trivial (.cons rfl trivial (.cons rfl trivial (.cons rfl trivial
      (.cons rfl trivial (.cons rfl trivial (.cons rfl trivial (.cons rfl trivial (.cons rfl trivial
      (.cons rfl trivial trivial))))))))))))))
    intro _ f _ i hbit
    cases hbit
  exact ⟨_, rfl, rfl, (get_eq_lastWrite hm rfl 0).1, (get_eq_lastWrite hm rfl 1).1⟩

end AegonKV.SoftwareGC
