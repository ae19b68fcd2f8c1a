import AegonKV.OffloadedColumnSound

/-!
# Jobs under offloaded garbage collection

A job starts on hardware or in software, keeps or passes over its records, installs its output and
writes its batches. At any time each record of its inputs is still to be looked at, queued, or
settled.
-/

namespace AegonKV.OffloadedColumn
open LittleEndian AegonKV SoftwareGC Checkpoint
open AegonKV.OffloadedGC (copies copyRecord keptRecords)

variable {κ : Type} {s s' : State κ}

/-! ## Hardware -/

theorem length_copies {kept : List (UInt64 × BlobRec κ)} {offsets : List UInt64}
    (h : kept.length = offsets.length) : (copies kept offsets).length = kept.length := by
  simp [copies, h]

theorem key_copies {kept : List (UInt64 × BlobRec κ)} {offsets : List UInt64} {i : ℕ}
    {r : BlobRec κ} (h : (copies kept offsets)[i]? = some r) {x : UInt64 × BlobRec κ}
    (hx : kept[i]? = some x) : r.key = x.2.key := by
  simp only [copies, List.getElem?_map, List.getElem?_zipIdx, Option.map_map,
    Option.map_eq_some_iff] at h
  obtain ⟨⟨y, o⟩, hy, rfl⟩ := h
  obtain ⟨hy', -⟩ := List.getElem?_zip_eq_some.mp hy
  obtain rfl : x = y := Option.some.inj (hx.symm.trans hy')
  rfl

/-- The batches of a hardware job write the output in order. -/
theorem refs_rewrites {kept : List (UInt64 × BlobRec κ)} {records : List (BlobRec κ)}
    (output : UInt64) (h : records.length = kept.length) :
    (List.zipWith (rewriteOf output) kept records).filterMap (·.entry.ref?) =
      records.map fun r => (output, r.handle.index) := by
  induction kept generalizing records with
  | nil =>
      rw [List.length_eq_zero_iff.mp h]
      rfl
  | cons x kept ih =>
      cases records with
      | nil => cases h
      | cons r records =>
          rw [List.zipWith_cons_cons, List.map_cons, ← ih (Nat.succ.inj h)]
          rfl

/-- Every record with bit 0 is queued with its key and its place. -/
theorem rewrite_of_kept {kept : List (UInt64 × BlobRec κ)} {records : List (BlobRec κ)}
    (output : UInt64) (h : records.length = kept.length) {x : UInt64 × BlobRec κ} (hx : x ∈ kept) :
    ∃ w ∈ List.zipWith (rewriteOf output) kept records, w.key = x.2.key ∧
      w.blobIndex.sameRecord (pointerTo x.1 x.2) = true := by
  obtain ⟨i, hget⟩ := List.mem_iff_getElem?.mp hx
  obtain ⟨hi, -⟩ := List.getElem?_eq_some_iff.mp hget
  have hr : records[i]? = some records[i] := List.getElem?_eq_getElem (by omega)
  refine ⟨rewriteOf output x records[i], ?_, rfl, by simp [rewriteOf, BlobIndexType.sameRecord]⟩
  exact List.mem_of_getElem? (List.getElem?_zipWith_eq_some.mpr ⟨x, records[i], hget, hr, rfl⟩)

theorem mem_keptRecords_of {files : BlobFiles κ} {bits : UInt64 → UInt64 → Bool}
    {inputs : List UInt64} {f : UInt64} {bf : BlobFile κ} {r : BlobRec κ} (hf : f ∈ inputs)
    (hbf : files f = some bf) (hr : r ∈ bf.records) (hbit : bits f r.handle.index = false) :
    (f, r) ∈ keptRecords files bits inputs := by
  refine List.mem_flatMap.mpr ⟨f, hf, ?_⟩
  rw [hbf]
  exact List.mem_map.mpr ⟨r, List.mem_filter.mpr ⟨hr, by rw [hbit]; rfl⟩, rfl⟩

/-- A job that has not started owns its inputs alone, and so does one that just has. -/
theorem Inv.restart (h : Inv s) {j : ℕ} {job job' : Job κ} (hj : s.jobs[j]? = some job)
    (hinputs : job'.inputs = job.inputs) (hinst : job'.installed = false)
    (hdropped : job'.droppedIndex = [])
    (hjob : JobInv s job → JobInv { s with jobs := s.jobs.set j job' } job') :
    Inv { s with jobs := s.jobs.set j job' } := by
  have hsub : ∀ f ∈ owned job', f ∈ owned job := by
    intro f hf
    rcases List.mem_append.mp hf with hf | hf
    · exact List.mem_append_left _ (hinputs ▸ hf)
    · obtain ⟨hi, -⟩ := mem_outputs.mp hf
      cases hinst.symm.trans hi
  have hreported : State.reported { s with jobs := s.jobs.set j job' } ⊆ s.reported := by
    intro ref href
    rcases reported_set hj href rfl rfl rfl with href | href
    · exact href
    · rw [hdropped] at href
      cases href
  obtain ⟨hn, -, hdisjoint⟩ := Ownership.nodup_of_getElem? h.disjoint hj
  refine h.of_jobs rfl rfl rfl (fun ref href => Or.inl (hreported href)) (fun other hother => ?_) ?_
  · rcases Ownership.mem_set hj hother with rfl | hother
    · exact hjob (h.jobs job (List.mem_of_getElem? hj))
    · exact (h.jobs other (List.mem_of_mem_eraseIdx hother)).same_versions (fun _ _ => rfl) rfl
        hreported (List.Subset.refl _)
  · refine Ownership.nodup_set h.disjoint hj ?_ fun f hf => hdisjoint f (hsub f hf)
    rw [owned_of_not_installed hinst, hinputs]
    exact (List.nodup_append'.mp hn).1

/-- The job that copies its inputs: every record of theirs is queued or settled. -/
theorem Inv.gcOnHardware (h : Inv s) {j : ℕ} {output : UInt64} {offsets : List UInt64}
    (hstep : s.gcOnHardwareStep j output offsets = some s') : Inv s' := by
  obtain ⟨job, kept, hj, hkept, hlength, rfl⟩ := gcOnHardwareStep_cases hstep
  have hrecords := length_copies hlength
  refine h.restart hj rfl rfl rfl fun hjob => ?_
  constructor
  case inputs => exact hjob.inputs
  case done => exact nofun
  case flushed => exact nofun
  case output => exact nofun
  case rewrites =>
    intro w hw p hp
    obtain ⟨i, hi⟩ := List.mem_iff_getElem?.mp hw
    obtain ⟨x, r, hx, hr, rfl⟩ := List.getElem?_zipWith_eq_some.mp hi
    exact ⟨output, _, r, rfl, List.mem_of_getElem? hr, key_copies hr hx,
      (LsmEntry.blobIndex.inj hp).symm⟩
  case queued => exact (refs_rewrites output hrecords).symm ▸ List.Sublist.refl _
  case fresh => exact nofun
  case bits => exact fun f i hbit => of_decide_eq_true hbit
  case covers =>
    intro f hf bf hbf r hr
    cases hbit : s.bits f r.handle.index with
    | false =>
        have hmem : (f, r) ∈ kept := hkept ▸ mem_keptRecords_of hf hbf hr hbit
        exact Or.inr (Or.inl (rewrite_of_kept output hrecords hmem))
    | true => exact Or.inr (Or.inr (h.settled_of_invalid (of_decide_eq_true hbit)))

section

variable [DecidableEq κ]

/-! ## Software -/

theorem Inv.gcFallBack (h : Inv s) {j : ℕ} {order : List (UInt64 × BlobRec κ)}
    {useBitmap fallback : Bool}
    (hstep : s.gcFallBackStep j order useBitmap fallback = some s') : Inv s' := by
  obtain ⟨job, hj, hperm, rfl⟩ := gcFallBackStep_cases hstep
  refine h.restart hj rfl rfl rfl fun hjob => ?_
  refine jobInv_start hjob.inputs (fun f i hbit => of_decide_eq_true hbit) fun f hf bf hbf r hr => ?_
  exact hperm.mem_iff.mpr (mem_inputRecords hf hbf hr)

omit [DecidableEq κ] in
/-- What is left of `Job.covers` when a record is not kept. -/
theorem JobInv.pass {t : State κ} {job : Job κ} (h : JobInv t job) {f : UInt64} {r : BlobRec κ}
    {todo : List (UInt64 × BlobRec κ)} (htodo : job.todo = (f, r) :: todo) (hr : Settled t f r)
    (lastKey : Option κ) (lastKeyIsFresh : Bool) :
    JobInv t { job with todo := todo, lastKey := lastKey, lastKeyIsFresh := lastKeyIsFresh } := by
  refine { h with done := fun hinst => ?_, covers := fun g hg bf hbf r' hr' => ?_ }
  · cases htodo.symm.trans (h.done hinst)
  · rcases h.covers g hg bf hbf r' hr' with hmem | hrest
    · rw [htodo] at hmem
      rcases List.mem_cons.mp hmem with heq | hmem
      · obtain ⟨rfl, rfl⟩ := Prod.mk.inj heq
        exact Or.inr (Or.inr hr)
      · exact Or.inl hmem
    · exact Or.inr hrest

omit [DecidableEq κ] in
/-- A kept record is queued, with its copy at the end of the output if there is one. -/
theorem JobInv.keep {t : State κ} {job : Job κ} (h : JobInv t job) {f : UInt64} {r : BlobRec κ}
    {todo : List (UInt64 × BlobRec κ)} (htodo : job.todo = (f, r) :: todo) {e : LsmEntry}
    {output : Option (Output κ)} {lastKey : Option κ} {lastKeyIsFresh : Bool}
    (hgrows : ∀ g records, job.output = some (g, records) → ∃ records', output = some (g, records') ∧
      records ⊆ records')
    (hentry : ∀ p, e = .blobIndex p → ∃ g records c, output = some (g, records) ∧ c ∈ records ∧
      c.key = r.key ∧ p = pointerTo g c)
    (hqueued : ∀ refs, refs.Sublist (outputRefs job.toJob) →
      (refs ++ e.ref?.toList).Sublist (outputRefs { job.toJob with output := output })) :
    JobInv t { job with
      todo := todo
      lastKey := lastKey
      lastKeyIsFresh := lastKeyIsFresh
      output := output
      rewriteBatches := job.rewriteBatches ++ [⟨r.key, pointerTo f r, e⟩] } := by
  -- a job that looks at records is not installed
  have hinst : job.installed = true → False := fun hi => by
    cases htodo.symm.trans (h.done hi)
  constructor
  case inputs => exact h.inputs
  case done => exact fun hi => (hinst hi).elim
  case flushed => exact fun hi => (hinst (h.flushed hi).1).elim
  case output => exact fun hi => (hinst hi).elim
  case rewrites =>
    intro w hw p hp
    rcases List.mem_append.mp hw with hw | hw
    · obtain ⟨g, records, c, hout, hc, hkey, heq⟩ := h.rewrites w hw p hp
      obtain ⟨records', hout', hsub⟩ := hgrows g records hout
      exact ⟨g, records', c, hout', hsub hc, hkey, heq⟩
    · obtain rfl := List.mem_singleton.mp hw
      exact hentry p hp
  case queued =>
    have hlast : [(⟨r.key, pointerTo f r, e⟩ : Rewrite κ)].filterMap (·.entry.ref?) =
        e.ref?.toList := by
      cases e <;> rfl
    rw [List.filterMap_append, hlast]
    exact hqueued _ h.queued
  case fresh => exact fun hi => (hinst hi).elim
  case bits => exact h.bits
  case covers =>
    intro g hg bf hbf r' hr'
    rcases h.covers g hg bf hbf r' hr' with hmem | ⟨w, hw, hrest⟩ | hsettled
    · rw [htodo] at hmem
      rcases List.mem_cons.mp hmem with heq | hmem
      · obtain ⟨rfl, rfl⟩ := Prod.mk.inj heq
        refine Or.inr (Or.inl ⟨_, List.mem_append_right _ List.mem_cons_self, rfl, ?_⟩)
        simp [BlobIndexType.sameRecord]
      · exact Or.inl hmem
    · exact Or.inr (Or.inl ⟨w, List.mem_append_left _ hw, hrest⟩)
    · exact Or.inr (Or.inr hsettled)

theorem Inv.gcRecord (h : Inv s) {j : ℕ} {g offset size : UInt64}
    (hharmless : Harmless s (.gcRecord j g offset size))
    (hstep : s.gcRecordStep j g offset size = some s') : Inv s' := by
  obtain ⟨job, job', hj, hrecord, rfl⟩ := gcRecordStep_cases hstep
  obtain ⟨f, r, todo, htodo, hcases⟩ := SoftwareGC.Job.record_cases hrecord
  have hjob := h.jobs job (List.mem_of_getElem? hj)
  have hinst : job.installed = false := by
    rw [Bool.eq_false_iff]
    intro hi
    cases htodo.symm.trans (hjob.done hi)
  have howned : ∀ job' : Job κ, job'.inputs = job.inputs → job'.installed = job.installed →
      owned job' = owned job := by
    intro job' hinputs hinst'
    rw [owned_of_not_installed (hinst'.trans hinst), owned_of_not_installed hinst, hinputs]
  rcases hcases with ⟨hlast, hfresh, rfl⟩ | ⟨hdiscard, rfl⟩ | ⟨-, rfl⟩
  · have hsettled := hharmless job f r todo hj htodo (Or.inl ⟨hlast, hfresh⟩)
    exact h.set_job hj (howned _ rfl rfl) (List.Subset.refl _) fun hjob =>
      hjob.pass htodo hsettled job.lastKey job.lastKeyIsFresh
  · have hsettled : Settled s f r := by
      rw [SoftwareGC.Job.discardable] at hdiscard
      cases hbitmap : job.useBitmap with
      | true =>
          rw [hbitmap, if_pos rfl] at hdiscard
          exact h.settled_of_invalid (hjob.bits f _ hdiscard)
      | false =>
          rw [hbitmap, if_neg Bool.false_ne_true, Bool.not_eq_true'] at hdiscard
          exact hharmless job f r todo hj htodo (Or.inr ⟨hbitmap, hdiscard⟩)
    exact h.set_job hj (howned _ rfl rfl) (List.Subset.refl _) fun hjob =>
      hjob.pass htodo hsettled (some r.key) false
  · set job₁ : SoftwareGC.Job κ := { job.toJob with
      todo := todo, lastKey := some r.key, lastKeyIsFresh := !job.useBitmap } with hjob₁
    rcases SoftwareGC.Job.keep_cases job₁ f r g offset size with
      heq | ⟨number, records, copy, hout, hkey, -, -, heq⟩
    · rw [heq]
      refine h.set_job hj (howned _ rfl rfl) (List.Subset.refl _) fun hjob => ?_
      refine hjob.keep htodo (fun g records hout => ⟨records, hout, List.Subset.refl _⟩)
        (fun p hp => by cases hp) fun refs hrefs => ?_
      change (refs ++ []).Sublist (outputRefs job.toJob)
      rwa [List.append_nil]
    · rw [heq]
      refine h.set_job hj (howned _ rfl rfl) (List.Subset.refl _) fun hjob => ?_
      -- the records so far, if there is an output yet
      have hold : job.output = some (number, records) ∨ job.output = none ∧ records = [] := by
        change job.output.getD (g, []) = (number, records) at hout
        cases hjobout : job.output with
        | none =>
            rw [hjobout] at hout
            exact Or.inr ⟨rfl, (Prod.mk.inj hout).2.symm⟩
        | some output =>
            rw [hjobout] at hout
            exact Or.inl (congrArg some hout)
      refine hjob.keep htodo (fun g' records' hout' => ?_) (fun p hp => ?_) fun refs hrefs => ?_
      · rcases hold with hold | ⟨hold, -⟩
        · obtain ⟨rfl, rfl⟩ := Prod.mk.inj (Option.some.inj (hold.symm.trans hout'))
          exact ⟨_, rfl, List.subset_append_left _ _⟩
        · cases hold.symm.trans hout'
      · exact ⟨number, _, copy, rfl, List.mem_append_right _ List.mem_cons_self, hkey,
          (LsmEntry.blobIndex.inj hp).symm⟩
      · change (refs ++ [(number, copy.handle.index)]).Sublist
          ((records ++ [copy]).map fun r => (number, r.handle.index))
        rw [List.map_append]
        refine List.Sublist.append ?_ (List.Sublist.refl _)
        rcases hold with hold | ⟨hold, rfl⟩
        · rwa [outputRefs, hold] at hrefs
        · rwa [outputRefs, hold] at hrefs

end

/-! ## Installing the output -/

theorem update_of_some {files : BlobFiles κ} {f g : UInt64} {b : Option (BlobFile κ)}
    (hnone : files g = none) (hsome : files f ≠ none) : Function.update files g b f = files f := by
  refine Function.update_of_ne ?_ _ _
  rintro rfl
  exact hsome hnone

theorem update_cases {files : BlobFiles κ} {f g : UInt64} {b bf : BlobFile κ}
    (h : Function.update files g (some b) f = some bf) : f = g ∧ bf = b ∨ files f = some bf := by
  by_cases hf : f = g
  · subst hf
    rw [Function.update_self] at h
    exact Or.inl ⟨rfl, (Option.some.inj h).symm⟩
  · rw [Function.update_of_ne hf] at h
    exact Or.inr h

/-- A job without an output queues no index. -/
theorem JobInv.ref_none {job : Job κ} (h : JobInv s job) (hout : job.output = none) {w : Rewrite κ}
    (hw : w ∈ job.rewriteBatches) {ref : UInt64 × UInt64} (href : w.entry.ref? = some ref) :
    False := by
  obtain ⟨records, hsome⟩ := h.ref_output hw href
  cases hout.symm.trans hsome

/-- Nothing names or reports a record of a file that is not there. -/
theorem Inv.fresh_of_none (h : Inv s) {ref : UInt64 × UInt64} (hnone : s.files ref.1 = none) :
    ¬Named s ref ∧ ref ∉ s.reported :=
  ⟨fun hnamed => h.named_file hnamed hnone, fun href => (h.reported ref href).1 hnone⟩

/-- A new output file, named by nothing yet. -/
theorem Inv.installOutput (h : Inv s) {j : ℕ} {job : Job κ} (hj : s.jobs[j]? = some job)
    (htodo : job.todo = []) (hinst : job.installed = false) {g : UInt64}
    {records : List (BlobRec κ)} (hn : (records.map fun r => r.handle.offset).Nodup)
    (hout : job.output = some (g, records)) (hindexes : distinctIndexes records = true)
    (hnone : s.files g = none) :
    Inv { s with
      files := Function.update s.files g (some ⟨records, .kPendingGC, hn⟩)
      numbers := g :: s.numbers
      jobs := s.jobs.set j { job with installed := true } } := by
  have hmem := List.mem_of_getElem? hj
  have hjob := h.jobs job hmem
  have hindexes' : (records.map fun r => r.handle.index).Nodup := of_decide_eq_true hindexes
  have hnot : ∀ other ∈ s.jobs, g ∉ owned other := by
    intro other hother hin
    obtain ⟨bf, hbf, -⟩ := (h.jobs other hother).owned_some hin
    cases hnone.symm.trans hbf
  have hold : ∀ other ∈ s.jobs, ∀ f ∈ owned other,
      Function.update s.files g (some ⟨records, .kPendingGC, hn⟩) f = s.files f := by
    intro other hother f hf
    refine Function.update_of_ne ?_ _ _
    rintro rfl
    exact hnot other hother hf
  have hreported : State.reported { s with
      files := Function.update s.files g (some ⟨records, .kPendingGC, hn⟩)
      numbers := g :: s.numbers
      jobs := s.jobs.set j { job with installed := true } } ⊆ s.reported := fun ref href =>
    (reported_set hj href rfl rfl rfl).elim id fun href => dropped_reported hmem href
  constructor
  case names =>
    intro k v hv p hp
    obtain ⟨bf, r, hbf, hr⟩ := h.names k v hv p hp
    exact ⟨bf, r, (update_of_some hnone (by rw [hbf]; exact nofun)).trans hbf, hr⟩
  case unique => exact h.unique
  case indexes =>
    intro f bf' hbf'
    rcases update_cases hbf' with ⟨-, rfl⟩ | hbf
    · exact hindexes'
    · exact h.indexes f bf' hbf
  case numbered =>
    intro f bf' hbf'
    rcases update_cases hbf' with ⟨rfl, -⟩ | hbf
    · exact List.mem_cons_self
    · exact List.mem_cons_of_mem _ (h.numbered f bf' hbf)
  case jobs =>
    intro other hother
    rcases Ownership.mem_set hj hother with rfl | hother
    · have hsame : JobInv { s with
          files := Function.update s.files g (some ⟨records, .kPendingGC, hn⟩)
          numbers := g :: s.numbers
          jobs := s.jobs.set j { job with installed := true } } job :=
        hjob.same_versions (hold job hmem) rfl hreported (List.Subset.refl _)
      refine { hsame with
        done := fun _ => htodo
        flushed := fun hf => ?_
        output := fun _ g' records' hout' => ?_
        fresh := fun _ w hw ref href => ?_ }
      · obtain ⟨-, hbatches⟩ := hjob.flushed hf
        exact ⟨rfl, hbatches⟩
      · obtain ⟨rfl, rfl⟩ := Prod.mk.inj (Option.some.inj (hout.symm.trans hout'))
        exact ⟨hindexes', _, Function.update_self _ _ _, rfl, rfl⟩
      · obtain ⟨records', hout'⟩ := hjob.ref_output hw href
        obtain ⟨rfl, -⟩ := Prod.mk.inj (Option.some.inj (hout.symm.trans hout'))
        obtain ⟨hnamed, href⟩ := h.fresh_of_none hnone
        exact ⟨hnamed, fun hmem => href (hreported hmem)⟩
    · have hother' := List.mem_of_mem_eraseIdx hother
      exact (h.jobs other hother').same_versions (hold other hother') rfl hreported
        (List.Subset.refl _)
  case disjoint =>
    obtain ⟨hown, -, hdisjoint⟩ := Ownership.nodup_of_getElem? h.disjoint hj
    rw [owned_of_not_installed hinst] at hown hdisjoint
    have howned : owned { job with installed := true } = job.inputs ++ [g] := by
      simp [owned, SoftwareGC.Job.outputs, hout]
    refine Ownership.nodup_set h.disjoint hj ?_ ?_
    · rw [howned]
      refine List.nodup_append'.mpr ⟨hown, List.nodup_singleton _, fun f hf hg => ?_⟩
      rw [List.mem_singleton.mp hg] at hf
      exact hnot job hmem (List.mem_append_left _ hf)
    · rw [howned]
      intro f hf hother
      rcases List.mem_append.mp hf with hf | hf
      · exact hdisjoint f hf hother
      · rw [List.mem_singleton.mp hf] at hother
        obtain ⟨other, hother, hin⟩ := List.mem_flatMap.mp hother
        exact hnot other (List.mem_of_mem_eraseIdx hother) hin
  case dead =>
    intro f bf' hbf' hstate r hr
    rcases update_cases hbf' with ⟨-, rfl⟩ | hbf
    · cases hstate
    · exact h.dead f bf' hbf hstate r hr
  case reported =>
    intro ref href
    obtain ⟨hsome, hnot⟩ := h.reported ref (hreported href)
    exact ⟨fun hno => hsome ((update_of_some hnone hsome).symm.trans hno), hnot⟩

theorem Inv.gcInstall (h : Inv s) {j : ℕ} (hstep : s.gcInstallStep j = some s') : Inv s' := by
  obtain ⟨job, hj, htodo, hinst, ⟨hout, rfl⟩ | ⟨g, records, hn, hout, hindexes, hnone, rfl⟩⟩ :=
    gcInstallStep_cases hstep
  · refine h.set_job hj ?_ (List.Subset.refl _) fun hjob => ?_
    · rw [owned_of_not_installed hinst]
      simp [owned, SoftwareGC.Job.outputs, hout]
    · refine { hjob with
        done := fun _ => htodo
        flushed := fun hf => ⟨rfl, (hjob.flushed hf).2⟩
        output := fun _ g records hsome => ?_
        fresh := fun _ w hw ref href => (hjob.ref_none hout hw href).elim }
      cases hout.symm.trans hsome
  · exact h.installOutput hj htodo hinst hn hout hindexes hnone

/-! ## Writes -/

/-- A new version on top of a key. If it names a record, then one of a running job's output that
nothing has named before. -/
structure Pushes (s s' : State κ) (k : κ) (v : StreamVersion) : Prop where
  files : s'.files = s.files
  self : s'.versions k = v :: s.versions k
  other : ∀ g, g ≠ k → s'.versions g = s.versions g
  invalid : s'.invalid = s.invalid
  reported : s'.reported ⊆ s.reported
  numbers : s'.numbers = s.numbers
  named : ∀ p, v.newPart = some p →
    (∃ bf r, s.files p.fileNumber = some bf ∧ bf.state = .kPendingGC ∧ r ∈ bf.records ∧
      r.key = k ∧ p = pointerTo p.fileNumber r) ∧
    ¬Named s (p.fileNumber, p.index) ∧ (p.fileNumber, p.index) ∉ s.reported

variable {k : κ} {v : StreamVersion}

theorem Pushes.named_iff (h : Pushes s s' k v) {ref : UInt64 × UInt64} (href : Named s' ref) :
    Named s ref ∨ ∃ p, v.newPart = some p ∧ (p.fileNumber, p.index) = ref := by
  obtain ⟨g, u, hu, p, hp, heq⟩ := href
  by_cases hg : g = k
  · subst hg
    rw [h.self] at hu
    rcases List.mem_cons.mp hu with rfl | hu
    · exact Or.inr ⟨p, hp, heq⟩
    · exact Or.inl ⟨g, u, hu, p, hp, heq⟩
  · rw [h.other g hg] at hu
    exact Or.inl ⟨g, u, hu, p, hp, heq⟩

theorem Pushes.settled (h : Pushes s s' k v) {f : UInt64} {r : BlobRec κ}
    (hf : ∀ bf, s.files f = some bf → bf.state ≠ .kPendingGC) (hr : Settled s f r) :
    Settled s' f r := by
  rw [Settled] at hr ⊢
  by_cases hk : r.key = k
  · rw [hk] at hr ⊢
    rw [h.self]
    refine exposed_cons_of_ne (fun hp => ?_) hr
    obtain ⟨⟨bf, r', hbf, hstate, -⟩, -⟩ := h.named _ hp
    exact hf bf hbf hstate
  · rwa [h.other _ hk]

theorem Pushes.input_settled (h : Pushes s s' k v) {job : Job κ} (hjob : JobInv s job) {f : UInt64}
    (hf : f ∈ job.inputs) {r : BlobRec κ} (hr : Settled s f r) : Settled s' f r := by
  obtain ⟨bf, hbf, hstate⟩ := hjob.inputs f hf
  refine h.settled (fun bf' hbf' => ?_) hr
  obtain rfl := Option.some.inj (hbf.symm.trans hbf')
  rw [hstate]
  exact nofun

/-- A job that queues nothing of what is pushed keeps its account. -/
theorem Pushes.job (h : Pushes s s' k v) {job : Job κ} (hjob : JobInv s job)
    (hnew : job.installed = true → ∀ w ∈ job.rewriteBatches, ∀ ref, w.entry.ref? = some ref →
      ∀ p, v.newPart = some p → (p.fileNumber, p.index) ≠ ref) : JobInv s' job := by
  refine hjob.mono (fun f _ => congrFun h.files f) (fun f hf r => h.input_settled hjob hf) ?_
    (fun ref href => h.invalid ▸ href)
  intro hinst w hw ref href hnamed hreported
  refine ⟨fun hnamed' => ?_, fun hreported' => hreported (h.reported hreported')⟩
  rcases h.named_iff hnamed' with hold | ⟨p, hp, heq⟩
  · exact hnamed hold
  · exact hnew hinst w hw ref href p hp heq

theorem Inv.push (h : Inv s) (hpush : Pushes s s' k v) (hjobs : ∀ job ∈ s'.jobs, JobInv s' job)
    (hdisjoint : (s'.jobs.flatMap owned).Nodup) : Inv s' := by
  constructor
  case names =>
    intro g u hu p hp
    rw [hpush.files]
    by_cases hg : g = k
    · subst hg
      rw [hpush.self] at hu
      rcases List.mem_cons.mp hu with rfl | hu
      · obtain ⟨⟨bf, r, hbf, -, hr⟩, -⟩ := hpush.named p hp
        exact ⟨bf, r, hbf, hr⟩
      · exact h.names g u hu p hp
    · rw [hpush.other g hg] at hu
      exact h.names g u hu p hp
  case unique =>
    intro g
    by_cases hg : g = k
    · subst hg
      rw [hpush.self]
      cases hv : v.newPart with
      | none =>
          rw [List.filterMap_cons_none hv]
          exact h.unique g
      | some p =>
          rw [List.filterMap_cons_some hv]
          refine List.nodup_cons.mpr ⟨fun hmem => ?_, h.unique g⟩
          obtain ⟨u, hu, hup⟩ := List.mem_filterMap.mp hmem
          exact (hpush.named p hv).2.1 ⟨g, u, hu, p, hup, rfl⟩
    · rw [hpush.other g hg]
      exact h.unique g
  case indexes => exact hpush.files ▸ h.indexes
  case numbered => exact hpush.files ▸ hpush.numbers ▸ h.numbered
  case jobs => exact hjobs
  case disjoint => exact hdisjoint
  case dead =>
    intro f bf hbf hstate r hr
    rw [hpush.files] at hbf
    refine hpush.settled (fun bf' hbf' => ?_) (h.dead f bf hbf hstate r hr)
    obtain rfl := Option.some.inj (hbf.symm.trans hbf')
    rw [hstate]
    exact nofun
  case reported =>
    intro ref href
    have hold := hpush.reported href
    obtain ⟨hsome, hnot⟩ := h.reported ref hold
    refine ⟨hpush.files ▸ hsome, fun hnamed => ?_⟩
    rcases hpush.named_iff hnamed with hnamed | ⟨p, hp, rfl⟩
    · exact hnot hnamed
    · exact (hpush.named p hp).2.2 hold

theorem newPart_written {gcOffload : Bool} {w : Rewrite κ} {p : BlobIndexType} :
    (written gcOffload w).newPart = some p ↔ w.entry = .blobIndex p := by
  unfold written
  cases w.entry with
  | deletion => exact ⟨nofun, nofun⟩
  | value b => exact ⟨nofun, nofun⟩
  | blobIndex q =>
      cases gcOffload with
      | false => exact ⟨fun h => congrArg _ (Option.some.inj h),
          fun h => congrArg some (LsmEntry.blobIndex.inj h)⟩
      | true => exact ⟨fun h => congrArg _ (Option.some.inj h),
          fun h => congrArg some (LsmEntry.blobIndex.inj h)⟩

/-- What a batch writes covers the record it is about. -/
theorem exposed_written {gcOffload : Bool} {w : Rewrite κ} {q : BlobIndexType}
    (hsame : w.blobIndex.sameRecord q = true) (hne : w.entry ≠ .blobIndex q)
    (vs : List StreamVersion) : exposed q (written gcOffload w :: vs) = false := by
  unfold written
  cases hw : w.entry with
  | deletion => rfl
  | value b => rfl
  | blobIndex p =>
      have hpq : p ≠ q := fun heq => hne (by rw [hw, heq])
      cases gcOffload with
      | false => exact decide_eq_false hpq
      | true =>
          change exposed q (.version (.writeBack p w.blobIndex) :: vs) = false
          rw [exposed, hsame, Bool.not_true, Bool.false_and, Bool.or_false]
          exact decide_eq_false hpq

theorem ref?_eq_some_iff {w : Rewrite κ} {ref : UInt64 × UInt64} :
    w.entry.ref? = some ref ↔ ∃ p, w.entry = .blobIndex p ∧ (p.fileNumber, p.index) = ref := by
  cases w.entry with
  | deletion => exact ⟨nofun, nofun⟩
  | value b => exact ⟨nofun, nofun⟩
  | blobIndex q =>
      refine ⟨fun h => ⟨q, rfl, Option.some.inj h⟩, ?_⟩
      rintro ⟨p, hp, rfl⟩
      obtain rfl := LsmEntry.blobIndex.inj hp
      rfl

/-- The batches of an installed job write different records. -/
theorem JobInv.refs_nodup {job : Job κ} (h : JobInv s job) (hinst : job.installed = true) :
    (job.rewriteBatches.filterMap (·.entry.ref?)).Nodup := by
  refine h.queued.nodup ?_
  rw [outputRefs]
  split
  · exact List.nodup_nil
  · rename_i g records hout
    obtain ⟨hn, -⟩ := h.output hinst g records hout
    refine List.Nodup.of_map Prod.snd ?_
    rw [List.map_map]
    exact hn

/-- Two installed jobs write to different files. -/
theorem Inv.refs_disjoint (h : Inv s) {j : ℕ} {job other : Job κ} (hj : s.jobs[j]? = some job)
    (hother : other ∈ s.jobs.eraseIdx j) (hinst : job.installed = true)
    (hinst' : other.installed = true) {w w' : Rewrite κ} (hw : w ∈ job.rewriteBatches)
    (hw' : w' ∈ other.rewriteBatches) {ref : UInt64 × UInt64} (href : w.entry.ref? = some ref) :
    w'.entry.ref? ≠ some ref := by
  intro href'
  obtain ⟨-, -, hdisjoint⟩ := Ownership.nodup_of_getElem? h.disjoint hj
  obtain ⟨records, hout⟩ := (h.jobs job (List.mem_of_getElem? hj)).ref_output hw href
  obtain ⟨records', hout'⟩ :=
    (h.jobs other (List.mem_of_mem_eraseIdx hother)).ref_output hw' href'
  refine hdisjoint ref.1 (List.mem_append_right _ (mem_outputs.mpr ⟨hinst, records, hout⟩)) ?_
  exact List.mem_flatMap.mpr
    ⟨other, hother, List.mem_append_right _ (mem_outputs.mpr ⟨hinst', records', hout'⟩)⟩

/-- What a batch is about is in an input, what it writes is in the output. -/
theorem JobInv.input_ne {job : Job κ} (h : JobInv s job) (hinst : job.installed = true)
    {w : Rewrite κ} (hw : w ∈ job.rewriteBatches) {f : UInt64} (hf : f ∈ job.inputs)
    (r : BlobRec κ) : w.entry ≠ .blobIndex (pointerTo f r) := by
  intro hentry
  obtain ⟨g, records, r', hout, -, -, heq⟩ := h.rewrites w hw _ hentry
  obtain rfl : f = g := congrArg (·.fileNumber) heq
  obtain ⟨-, bf, hbf, hpending, -⟩ := h.output hinst f records hout
  obtain ⟨bf', hbf', hstate⟩ := h.inputs f hf
  obtain rfl := Option.some.inj (hbf.symm.trans hbf')
  cases hpending.symm.trans hstate

/-- One batch less. What it writes or reports is not what a later batch writes. -/
theorem JobInv.dequeue {job : Job κ} (h : JobInv s job) (hinst : job.installed = true)
    {w : Rewrite κ} {rest : List (Rewrite κ)} (hbatches : job.rewriteBatches = w :: rest)
    (hsettled : ∀ f ∈ job.inputs, ∀ r : BlobRec κ, Settled s f r → Settled s' f r)
    (hcovered : ∀ f ∈ job.inputs, ∀ r : BlobRec κ, w.key = r.key →
      w.blobIndex.sameRecord (pointerTo f r) = true → Settled s' f r)
    (hfresh : ∀ ref, w.entry.ref? ≠ some ref → ¬Named s ref → ref ∉ s.reported →
      ¬Named s' ref ∧ ref ∉ s'.reported)
    (hfiles : s'.files = s.files) (hinvalid : s'.invalid = s.invalid)
    (dropped : List (UInt64 × UInt64)) :
    JobInv s' { job with rewriteBatches := rest, droppedIndex := dropped } := by
  have hrest : ∀ w' ∈ rest, w' ∈ job.rewriteBatches := fun w' hw' =>
    hbatches ▸ List.mem_cons_of_mem _ hw'
  have hsub : (rest.filterMap (·.entry.ref?)).Sublist
      (job.rewriteBatches.filterMap (·.entry.ref?)) := by
    rw [hbatches]
    exact (List.sublist_cons_self w rest).filterMap _
  constructor
  case inputs => exact hfiles ▸ h.inputs
  case done => exact h.done
  case flushed =>
    intro hf
    cases hbatches.symm.trans (h.flushed hf).2
  case output => exact hfiles ▸ h.output
  case rewrites => exact fun w' hw' => h.rewrites w' (hrest w' hw')
  case queued => exact hsub.trans h.queued
  case fresh =>
    intro _ w' hw' ref href
    obtain ⟨hnamed, hreported⟩ := h.fresh hinst w' (hrest w' hw') ref href
    refine hfresh ref (fun hw => ?_) hnamed hreported
    have hn := h.refs_nodup hinst
    have hcons : (w :: rest).filterMap (·.entry.ref?) = ref :: rest.filterMap (·.entry.ref?) :=
      List.filterMap_cons_some hw
    rw [hbatches, hcons, List.nodup_cons] at hn
    exact hn.1 (List.mem_filterMap.mpr ⟨w', hw', href⟩)
  case bits => exact hinvalid ▸ h.bits
  case covers =>
    intro f hf bf hbf r hr
    rw [hfiles] at hbf
    rcases h.covers f hf bf hbf r hr with htodo | ⟨w', hw', hkey, hsame⟩ | hr'
    · exact Or.inl htodo
    · rw [hbatches] at hw'
      rcases List.mem_cons.mp hw' with rfl | hw'
      · exact Or.inr (Or.inr (hcovered f hf r hkey hsame))
      · exact Or.inr (Or.inl ⟨w', hw', hkey, hsame⟩)
    · exact Or.inr (Or.inr (hsettled f hf r hr'))

section

variable [DecidableEq κ]

/-- A user write. -/
theorem Inv.userWrite (h : Inv s) (k : κ) (hv : v.newPart = none) : Inv (s.pushMem k v) := by
  have hpush : Pushes s (s.pushMem k v) k v := by
    refine ⟨rfl, versions_pushMem_self s k v, fun g hg => versions_pushMem_other s hg v, rfl,
      List.Subset.refl _, rfl, fun p hp => ?_⟩
    cases hv.symm.trans hp
  refine h.push hpush (fun job hjob => ?_) h.disjoint
  refine hpush.job (h.jobs job hjob) fun _ w _ ref _ p hp => ?_
  cases hv.symm.trans hp

/-- A batch is written. -/
theorem Inv.gcWrite (h : Inv s) {j : ℕ} {job : Job κ} (hj : s.jobs[j]? = some job)
    (hinst : job.installed = true) {w : Rewrite κ} {rest : List (Rewrite κ)}
    (hbatches : job.rewriteBatches = w :: rest) :
    Inv { s.pushMem w.key (written job.gcOffload w) with
      jobs := s.jobs.set j { job with rewriteBatches := rest } } := by
  have hmem := List.mem_of_getElem? hj
  have hjob := h.jobs job hmem
  have hw : w ∈ job.rewriteBatches := hbatches ▸ List.mem_cons_self
  have hpush : Pushes s { s.pushMem w.key (written job.gcOffload w) with
      jobs := s.jobs.set j { job with rewriteBatches := rest } } w.key
      (written job.gcOffload w) := by
    refine ⟨rfl, versions_pushMem_self s w.key _, fun g hg => versions_pushMem_other s hg _, rfl,
      fun ref href => ?_, rfl, fun p hp => ?_⟩
    · exact (reported_set hj href rfl rfl rfl).elim id fun href => dropped_reported hmem href
    · rw [newPart_written] at hp
      obtain ⟨g, records, r, hout, hr, hkey, rfl⟩ := hjob.rewrites w hw p hp
      obtain ⟨-, bf, hbf, hstate, hrecords⟩ := hjob.output hinst g records hout
      exact ⟨⟨bf, r, hbf, hstate, hrecords ▸ hr, hkey, rfl⟩,
        hjob.fresh hinst w hw _ (ref?_eq_some_iff.mpr ⟨_, hp, rfl⟩)⟩
  obtain ⟨hn, -, hdisjoint⟩ := Ownership.nodup_of_getElem? h.disjoint hj
  refine h.push hpush (fun other hother => ?_) (Ownership.nodup_set h.disjoint hj hn hdisjoint)
  rcases Ownership.mem_set hj hother with rfl | hother
  · refine hjob.dequeue hinst hbatches (fun f hf r => hpush.input_settled hjob hf)
      (fun f hf r hkey hsame => ?_) (fun ref href hnamed hreported => ?_) rfl rfl job.droppedIndex
    · rw [Settled, ← hkey, hpush.self]
      exact exposed_written hsame (hjob.input_ne hinst hw hf r) _
    · refine ⟨fun hnamed' => ?_, fun hreported' => hreported (hpush.reported hreported')⟩
      rcases hpush.named_iff hnamed' with hold | ⟨p, hp, heq⟩
      · exact hnamed hold
      · exact href (ref?_eq_some_iff.mpr ⟨p, newPart_written.mp hp, heq⟩)
  · refine hpush.job (h.jobs other (List.mem_of_mem_eraseIdx hother)) ?_
    rintro hinst' w' hw' ref href p hp rfl
    exact h.refs_disjoint hj hother hinst hinst' hw hw'
      (ref?_eq_some_iff.mpr ⟨p, newPart_written.mp hp, rfl⟩) href

omit [DecidableEq κ] in
/-- A batch that is Busy: the record in the output is reported, and nothing leads to the input's. -/
theorem Inv.gcBusy (h : Inv s) {j : ℕ} {job : Job κ} (hj : s.jobs[j]? = some job)
    (hinst : job.installed = true) {w : Rewrite κ} {rest : List (Rewrite κ)}
    (hbatches : job.rewriteBatches = w :: rest)
    (hsettled : ∀ p, w.blobIndex.sameRecord p = true → exposed p (s.versions w.key) = false) :
    Inv { s with jobs := s.jobs.set j { job with
      rewriteBatches := rest
      droppedIndex := job.droppedIndex ++ if job.useBitmap then w.entry.ref?.toList else [] } } := by
  have hmem := List.mem_of_getElem? hj
  have hjob := h.jobs job hmem
  have hw : w ∈ job.rewriteBatches := hbatches ▸ List.mem_cons_self
  have hreported : ∀ ref ∈ State.reported { s with jobs := s.jobs.set j { job with
      rewriteBatches := rest
      droppedIndex := job.droppedIndex ++ if job.useBitmap then w.entry.ref?.toList else [] } },
      ref ∈ s.reported ∨ w.entry.ref? = some ref := by
    intro ref href
    rcases reported_set hj href rfl rfl rfl with href | href
    · exact Or.inl href
    rcases List.mem_append.mp href with href | href
    · exact Or.inl (dropped_reported hmem href)
    · split_ifs at href
      · exact Or.inr (Option.mem_toList.mp href)
      · cases href
  obtain ⟨hn, -, hdisjoint⟩ := Ownership.nodup_of_getElem? h.disjoint hj
  refine h.of_jobs rfl rfl rfl (fun ref href => ?_) (fun other hother => ?_)
    (Ownership.nodup_set h.disjoint hj hn hdisjoint)
  · refine (hreported ref href).imp id fun href => ?_
    obtain ⟨records, hout⟩ := hjob.ref_output hw href
    obtain ⟨-, bf, hbf, -⟩ := hjob.output hinst _ records hout
    exact ⟨by rw [hbf]; exact nofun, (hjob.fresh hinst w hw ref href).1⟩
  rcases Ownership.mem_set hj hother with rfl | hother
  · apply hjob.dequeue hinst hbatches
    case hsettled => exact fun f hf r hr => hr
    case hcovered =>
      intro f hf r hkey hsame
      have hnot := hsettled _ hsame
      rw [hkey] at hnot
      exact hnot
    case hfresh =>
      exact fun ref href hnamed hnot =>
        ⟨hnamed, fun hmem => (hreported ref hmem).elim hnot href⟩
    case hfiles => rfl
    case hinvalid => rfl
  · refine (h.jobs other (List.mem_of_mem_eraseIdx hother)).mono (fun _ _ => rfl)
      (fun f hf r hr => hr) (fun hinst' w' hw' ref href hnamed hnot => ?_) (List.Subset.refl _)
    refine ⟨hnamed, fun hmem => (hreported ref hmem).elim hnot fun href' => ?_⟩
    exact h.refs_disjoint hj hother hinst hinst' hw hw' href' href

theorem Inv.gcRewrite (h : Inv s) {j : ℕ} (hharmless : Harmless s (.gcRewrite j))
    (hstep : s.gcRewriteStep j = some s') : Inv s' := by
  obtain ⟨job, w, rest, hj, hbatches, hinst, rfl | ⟨hoffload, hat, rfl⟩⟩ :=
    gcRewriteStep_cases hstep
  · exact h.gcWrite hj hinst hbatches
  · exact h.gcBusy hj hinst hbatches (hharmless job w rest hj hbatches hoffload hat)

end

end AegonKV.OffloadedColumn
