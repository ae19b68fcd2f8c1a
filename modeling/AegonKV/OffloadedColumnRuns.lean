import AegonKV.OffloadedColumnJobs

/-!
# Runs of a column family with offloaded garbage collection

A flush and a compaction put the table built from a piece of the versions in its place. What the
table names is what the piece named or a record of the new blob file, and what a compaction reports
is named nowhere else. With that every step keeps the invariant, as long as it is harmless.
-/

namespace AegonKV.OffloadedColumn
open LittleEndian AegonKV SoftwareGC Checkpoint
open AegonKV.OffloadedGC (addBlobFile addBlobFile_inv addBlobFile_old addBlobFile_new)

variable {κ : Type} [DecidableEq κ] {s s' : State κ}

/-! ## The new table -/

variable {files : BlobFiles κ} {segment : Table κ} {f : UInt64} {records : List (BlobRec κ)}
  {inlined : List κ} {k : κ}

omit [DecidableEq κ] in
theorem inlineValue_cases (files : BlobFiles κ) (v : StreamVersion) :
    inlineValue files v = v ∨ ∃ b, inlineValue files v = .version (.value b) := by
  unfold inlineValue
  split
  · exact Or.inl rfl
  · exact Or.inr ⟨_, rfl⟩

/-- A version gives way to the index of a new record or to a value, or it stays. -/
theorem tableAdd_cases (files : BlobFiles κ) (f : UInt64) (records : List (BlobRec κ))
    (inlined : List κ) (k : κ) (v : StreamVersion) :
    (∃ r ∈ records, r.key = k ∧
        tableAdd files f records inlined k v = .version (.plain (pointerTo f r))) ∨
      tableAdd files f records inlined k v = v ∨
        ∃ b, tableAdd files f records inlined k v = .version (.value b) := by
  unfold tableAdd
  split
  · rename_i r hr
    exact Or.inl ⟨r, List.mem_of_find?_eq_some hr, by simpa using List.find?_some hr, rfl⟩
  · split_ifs
    · exact Or.inr (inlineValue_cases files v)
    · exact Or.inr (Or.inl rfl)

theorem mem_buildTable {v : StreamVersion} :
    v ∈ buildTable files segment f records inlined k ↔
      ∃ r, resolveStream (segment k) = some r ∧ tableAdd files f records inlined k r = v := by
  rw [buildTable, Option.mem_toList, Option.map_eq_some_iff]

theorem newPart_buildTable (hne : writeBackOverDeletion (segment k) = false) {v : StreamVersion}
    (hv : v ∈ buildTable files segment f records inlined k) {p : BlobIndexType}
    (hp : v.newPart = some p) :
    (∃ u ∈ segment k, u.newPart = some p) ∨ ∃ r ∈ records, r.key = k ∧ p = pointerTo f r := by
  obtain ⟨v, hresolved, rfl⟩ := mem_buildTable.mp hv
  rcases tableAdd_cases files f records inlined k v with ⟨r, hr, hkey, heq⟩ | heq | ⟨b, heq⟩
  · rw [heq] at hp
    exact Or.inr ⟨r, hr, hkey, (Option.some.inj hp).symm⟩
  · rw [heq] at hp
    exact Or.inl (newPart_resolveStream hne hresolved hp)
  · rw [heq] at hp
    cases hp

/-- The new table exposes nothing but what the segment exposed and the records of the new file. -/
theorem exposed_buildTable (hne : writeBackOverDeletion (segment k) = false) {p : BlobIndexType}
    (hf : records = [] ∨ p.fileNumber ≠ f) (older : List StreamVersion)
    (h : exposed p (buildTable files segment f records inlined k ++ older) = true) :
    exposed p (segment k ++ older) = true := by
  rw [buildTable] at h
  cases hresolved : resolveStream (segment k) with
  | none =>
      rw [hresolved] at h
      cases hk : segment k with
      | nil => exact h
      | cons v vs =>
          rw [hk] at hresolved
          cases hresolved
  | some v =>
      rw [hresolved] at h
      change exposed p (tableAdd files f records inlined k v :: older) = true at h
      rcases tableAdd_cases files f records inlined k v with ⟨r, hr, hkey, heq⟩ | heq | ⟨b, heq⟩
      · rw [heq] at h
        have hp : pointerTo f r = p := of_decide_eq_true h
        rcases hf with rfl | hf
        · cases hr
        · exact absurd (congrArg (·.fileNumber) hp).symm hf
      · rw [heq] at h
        exact exposed_resolveStream hne hresolved older h
      · rw [heq] at h
        cases h

/-! ## The versions around it -/

theorem Rebuilds.files_inv (h : Rebuilds s s' segment f records inlined) {g : UInt64}
    {bf : BlobFile κ} (hbf : s'.files g = some bf) :
    s.files g = some bf ∨
      g = f ∧ records ≠ [] ∧ bf.records = records ∧ bf.state = .kPendingLSM := by
  rcases addBlobFile_inv h.added with ⟨heq, -⟩ | ⟨hrecords, -, hn, heq⟩
  · exact Or.inl (heq ▸ hbf)
  · by_cases hg : g = f
    · subst hg
      rw [heq, Function.update_self] at hbf
      obtain rfl := Option.some.inj hbf
      exact Or.inr ⟨rfl, hrecords, rfl, rfl⟩
    · rw [heq, Function.update_of_ne hg] at hbf
      exact Or.inl hbf

theorem Rebuilds.named (h : Rebuilds s s' segment f records inlined)
    (hne : writeBackOverDeletion (segment k) = false) {v : StreamVersion}
    (hv : v ∈ s'.versions k) {p : BlobIndexType} (hp : v.newPart = some p) :
    (∃ u ∈ s.versions k, u.newPart = some p) ∨ ∃ r ∈ records, r.key = k ∧ p = pointerTo f r := by
  obtain ⟨newer, older, hold, hnew⟩ := h.versions k
  rw [hnew] at hv
  rw [hold]
  rcases List.mem_append.mp hv with hv | hv
  · exact Or.inl ⟨v, List.mem_append_left _ hv, hp⟩
  rcases List.mem_append.mp hv with hv | hv
  · rcases newPart_buildTable hne hv hp with ⟨u, hu, hup⟩ | hr
    · exact Or.inl ⟨u, List.mem_append_right _ (List.mem_append_left _ hu), hup⟩
    · exact Or.inr hr
  · exact Or.inl ⟨v, List.mem_append_right _ (List.mem_append_right _ hv), hp⟩

theorem Rebuilds.mem_segment (h : Rebuilds s s' segment f records inlined) {v : StreamVersion}
    (hv : v ∈ segment k) : v ∈ s.versions k := by
  obtain ⟨newer, older, hold, -⟩ := h.versions k
  rw [hold]
  exact List.mem_append_right _ (List.mem_append_left _ hv)

theorem Rebuilds.settled (h : Rebuilds s s' segment f records inlined)
    (hne : ∀ k, writeBackOverDeletion (segment k) = false) {g : UInt64} {r : BlobRec κ}
    (hg : s.files g ≠ none) (hr : Settled s g r) : Settled s' g r := by
  have hf : records = [] ∨ (pointerTo g r).fileNumber ≠ f := by
    rcases addBlobFile_inv h.added with ⟨-, hrecords⟩ | ⟨-, hnone, -⟩
    · exact Or.inl hrecords
    · refine Or.inr ?_
      rintro rfl
      exact hg hnone
  obtain ⟨newer, older, hold, hnew⟩ := h.versions r.key
  rw [Settled, Bool.eq_false_iff] at hr ⊢
  rw [hold] at hr
  rw [hnew]
  exact fun hexposed =>
    hr (exposed_append_mono (exposed_buildTable (hne r.key) hf older) newer hexposed)

/-! ## What a compaction reports -/

omit [DecidableEq κ] in
theorem mem_collect {table : Table κ} {keys : List κ} {ref : UInt64 × UInt64} :
    ref ∈ collect table keys ↔
      ∃ k ∈ keys, ∃ v ∈ table k, ∃ p, v.newPart = some p ∧ (p.fileNumber, p.index) = ref := by
  simp only [collect, List.mem_flatMap, List.mem_filterMap, Option.map_eq_some_iff]

/-- The records of the segment that the new table does not reference. -/
def Drops (files : BlobFiles κ) (segment : Table κ) (f : UInt64) (records : List (BlobRec κ))
    (inlined keys : List κ) (ref : UInt64 × UInt64) : Prop :=
  ref ∈ collect segment keys ∧ ref ∉ collect (buildTable files segment f records inlined) keys

omit [DecidableEq κ] in
/-- Two names of one record are the same, and under the same key. -/
theorem Inv.name_inj (h : Inv s) {k k' : κ} {u v : StreamVersion} {p q : BlobIndexType}
    (hu : u ∈ s.versions k) (hup : u.newPart = some p) (hv : v ∈ s.versions k')
    (hvq : v.newPart = some q) (href : (p.fileNumber, p.index) = (q.fileNumber, q.index)) :
    k = k' ∧ p = q := by
  obtain ⟨bf, r, hbf, hr, hkey, hp⟩ := h.names k u hu p hup
  obtain ⟨bf', r', hbf', hr', hkey', hq⟩ := h.names k' v hv q hvq
  obtain ⟨hfile, hindex⟩ := Prod.mk.inj href
  rw [← hfile, hbf] at hbf'
  obtain rfl := Option.some.inj hbf'
  rw [hp, hq] at hindex
  obtain rfl : r = r' := List.inj_on_of_nodup_map (h.indexes _ bf hbf) hr hr' hindex
  refine ⟨hkey.symm.trans hkey', ?_⟩
  rw [hp, hq, hfile]

theorem Rebuilds.unique (hb : Rebuilds s s' segment f records inlined)
    (hne : ∀ k, writeBackOverDeletion (segment k) = false) (h : Inv s) (k : κ) :
    ((s'.versions k).filterMap StreamVersion.newPart).Nodup := by
  obtain ⟨newer, older, hold, hnew⟩ := hb.versions k
  have hn := h.unique k
  rw [hold, List.filterMap_append, List.filterMap_append] at hn
  rw [hnew, List.filterMap_append, List.filterMap_append]
  -- the table has at most one version, and what it names is in the segment or new
  have hrest : (newer.filterMap StreamVersion.newPart ++
      older.filterMap StreamVersion.newPart).Nodup :=
    hn.sublist ((List.Sublist.refl _).append (List.sublist_append_right _ _))
  cases hbuilt : (buildTable s.files segment f records inlined k).filterMap
      StreamVersion.newPart with
  | nil => exact hrest
  | cons p rest =>
      have hlength : (buildTable s.files segment f records inlined k).length ≤ 1 := by
        rw [buildTable]
        exact Option.length_toList_le
      have hle := List.length_filterMap_le StreamVersion.newPart
        (buildTable s.files segment f records inlined k)
      rw [hbuilt, List.length_cons] at hle
      obtain rfl : rest = [] := List.length_eq_zero_iff.mp (by omega)
      obtain ⟨v, hv, hp⟩ := List.mem_filterMap.mp (hbuilt ▸ List.mem_cons_self)
      rcases newPart_buildTable (hne k) hv hp with ⟨u, hu, hup⟩ | ⟨r, hr, -, rfl⟩
      · have hmem : p ∈ (segment k).filterMap StreamVersion.newPart :=
          List.mem_filterMap.mpr ⟨u, hu, hup⟩
        refine hn.sublist ((List.Sublist.refl _).append ?_)
        exact (List.singleton_sublist.mpr hmem).append (List.Sublist.refl _)
      · rw [List.singleton_append]
        refine List.nodup_middle.mpr (List.nodup_cons.mpr ⟨fun hmem => ?_, hrest⟩)
        have hmem' : pointerTo f r ∈ (s.versions k).filterMap StreamVersion.newPart := by
          rw [hold, List.filterMap_append, List.filterMap_append]
          rcases List.mem_append.mp hmem with hmem | hmem
          · exact List.mem_append_left _ hmem
          · exact List.mem_append_right _ (List.mem_append_right _ hmem)
        obtain ⟨u, hu, hup⟩ := List.mem_filterMap.mp hmem'
        obtain ⟨bf, r', hbf, -⟩ := h.names k u hu _ hup
        cases (addBlobFile_new hb.added hr).1.symm.trans hbf

/-- What is named afterwards was named before, or is a record of the new file. -/
theorem Rebuilds.named_iff (hb : Rebuilds s s' segment f records inlined)
    (hne : ∀ k, writeBackOverDeletion (segment k) = false) {ref : UInt64 × UInt64}
    (href : Named s' ref) : Named s ref ∨ s.files ref.1 = none := by
  obtain ⟨k, v, hv, p, hp, rfl⟩ := href
  rcases hb.named (hne k) hv hp with ⟨u, hu, hup⟩ | ⟨r, hr, -, rfl⟩
  · exact Or.inl ⟨k, u, hu, p, hup, rfl⟩
  · exact Or.inr (addBlobFile_new hb.added hr).1

theorem Rebuilds.named_of_drops (hb : Rebuilds s s' segment f records inlined) {keys : List κ}
    {ref : UInt64 × UInt64} (hdrop : Drops s.files segment f records inlined keys ref) :
    Named s ref := by
  obtain ⟨k, -, u, hu, q, huq, heq⟩ := mem_collect.mp hdrop.1
  exact ⟨k, u, hb.mem_segment hu, q, huq, heq⟩

/-- After the compaction no version names what it reports. -/
theorem Rebuilds.dropped (hb : Rebuilds s s' segment f records inlined)
    (hne : ∀ k, writeBackOverDeletion (segment k) = false) (h : Inv s) {keys : List κ}
    {ref : UInt64 × UInt64} (hdrop : Drops s.files segment f records inlined keys ref) :
    ¬Named s' ref := by
  have hsome := h.named_file (hb.named_of_drops hdrop)
  obtain ⟨k, hk, u, hu, q, huq, rfl⟩ := mem_collect.mp hdrop.1
  obtain ⟨newer, older, hold, hnew⟩ := hb.versions k
  rintro ⟨k', v, hv, p, hp, href⟩
  rcases hb.named (hne k') hv hp with ⟨u', hu', hup'⟩ | ⟨r', hr', -, rfl⟩
  · obtain ⟨rfl, rfl⟩ := h.name_inj hu' hup' (hb.mem_segment hu) huq href
    -- in the new table it would not be dropped, outside of it the record would have two names
    have hn := h.unique k'
    rw [hold, List.filterMap_append, List.filterMap_append, List.nodup_append'] at hn
    obtain ⟨-, hn, hnewer⟩ := hn
    have hpu : p ∈ (segment k').filterMap StreamVersion.newPart :=
      List.mem_filterMap.mpr ⟨u, hu, huq⟩
    rw [hnew] at hv
    rcases List.mem_append.mp hv with hv | hv
    · exact hnewer (List.mem_filterMap.mpr ⟨v, hv, hp⟩) (List.mem_append_left _ hpu)
    rcases List.mem_append.mp hv with hv | hv
    · exact hdrop.2 (mem_collect.mpr ⟨k', hk, v, hv, p, hp, rfl⟩)
    · exact (List.nodup_append'.mp hn).2.2 hpu (List.mem_filterMap.mpr ⟨v, hv, hp⟩)
  · have hfile : f = q.fileNumber := (Prod.mk.inj href).1
    exact hsome (hfile ▸ (addBlobFile_new hb.added hr').1)

/-! ## The invariant -/

theorem Rebuilds.job (hb : Rebuilds s s' segment f records inlined)
    (hne : ∀ k, writeBackOverDeletion (segment k) = false) {keys : List κ}
    (hreported : ∀ ref ∈ s'.reported, ref ∈ s.reported ∨
      Drops s.files segment f records inlined keys ref)
    {job : Job κ} (hjob : JobInv s job) : JobInv s' job := by
  have hsome : ∀ g ∈ owned job, s.files g ≠ none := by
    intro g hg
    obtain ⟨bf, hbf, -⟩ := hjob.owned_some hg
    rw [hbf]
    exact nofun
  apply hjob.mono
  case hfiles => exact fun g hg => addBlobFile_old hb.added (hsome g hg)
  case hsettled =>
    exact fun g hg r hr => hb.settled hne (hsome g (List.mem_append_left _ hg)) hr
  case hfresh =>
    intro hinst w hw ref href hnamed hnot
    obtain ⟨output, hout⟩ := hjob.ref_output hw href
    refine ⟨fun hnamed' => ?_, fun hmem => ?_⟩
    · rcases hb.named_iff hne hnamed' with hold | hnone
      · exact hnamed hold
      · exact hsome ref.1 (List.mem_append_right _ (mem_outputs.mpr ⟨hinst, output, hout⟩)) hnone
    · rcases hreported ref hmem with hmem | hdrop
      · exact hnot hmem
      · exact hnamed (hb.named_of_drops hdrop)
  case hinvalid => exact hb.invalid ▸ List.Subset.refl _

theorem Inv.rebuild (h : Inv s) (hb : Rebuilds s s' segment f records inlined)
    (hne : ∀ k, writeBackOverDeletion (segment k) = false) (keys : List κ)
    (hreported : ∀ ref ∈ s'.reported, ref ∈ s.reported ∨
      Drops s.files segment f records inlined keys ref) : Inv s' := by
  constructor
  case names =>
    intro k v hv p hp
    rcases hb.named (hne k) hv hp with ⟨u, hu, hup⟩ | ⟨r, hr, hkey, rfl⟩
    · obtain ⟨bf, r, hbf, hr⟩ := h.names k u hu p hup
      exact ⟨bf, r, (addBlobFile_old hb.added (by rw [hbf]; exact nofun)).trans hbf, hr⟩
    · obtain ⟨-, bf, hbf, hrecords⟩ := addBlobFile_new hb.added hr
      exact ⟨bf, r, hbf, hrecords ▸ hr, hkey, rfl⟩
  case unique => exact hb.unique hne h
  case indexes =>
    intro g bf hbf
    rcases hb.files_inv hbf with hbf | ⟨-, -, hrec, -⟩
    · exact h.indexes g bf hbf
    · exact hrec ▸ hb.indexes
  case numbered =>
    intro g bf hbf
    rw [hb.numbers]
    rcases hb.files_inv hbf with hbf | ⟨rfl, hrecords, -⟩
    · have hmem := h.numbered g bf hbf
      split_ifs
      · exact hmem
      · exact List.mem_cons_of_mem _ hmem
    · rw [if_neg (by rwa [List.isEmpty_iff])]
      exact List.mem_cons_self
  case jobs =>
    intro job hjob
    rw [hb.jobs] at hjob
    exact hb.job hne hreported (h.jobs job hjob)
  case disjoint => exact hb.jobs ▸ h.disjoint
  case dead =>
    intro g bf hbf hstate r hr
    rcases hb.files_inv hbf with hbf | ⟨-, -, -, hpending⟩
    · exact hb.settled hne (by rw [hbf]; exact nofun) (h.dead g bf hbf hstate r hr)
    · cases hstate.symm.trans hpending
  case reported =>
    intro ref href
    have hfile : s.files ref.1 ≠ none → s'.files ref.1 ≠ none := fun hsome =>
      (addBlobFile_old hb.added hsome).symm ▸ hsome
    rcases hreported ref href with href | hdrop
    · obtain ⟨hsome, hnot⟩ := h.reported ref href
      exact ⟨hfile hsome, fun hnamed => (hb.named_iff hne hnamed).elim hnot hsome⟩
    · exact ⟨hfile (h.named_file (hb.named_of_drops hdrop)), hb.dropped hne h hdrop⟩

/-- Files only age, whatever the step. -/
structure StepSpec (s s' : State κ) : Prop where
  inv : Inv s'
  ages : Ages s.files s'.files

theorem Rebuilds.ages (h : Rebuilds s s' segment f records inlined) : Ages s.files s'.files :=
  .of_eq fun _ hg => addBlobFile_old h.added hg

theorem flush_spec (h : Inv s) {n : ℕ}
    (hne : ∀ k, writeBackOverDeletion (s.flushSegment n k) = false)
    (hstep : s.flushStep n f records inlined = some s') : StepSpec s s' := by
  obtain ⟨hb, hcallbacks⟩ := rebuilds_flush hstep
  refine ⟨h.rebuild hb hne [] fun ref href => Or.inl ?_, hb.ages⟩
  rw [mem_reported, hb.invalid, hb.jobs, hcallbacks] at href
  exact mem_reported.mpr href

theorem compact_spec (h : Inv s) {i n : ℕ} {selected : κ → Bool} {keys : List κ}
    (hne : ∀ k, writeBackOverDeletion (s.segment i n selected k) = false)
    (hstep : s.compactStep i n selected keys f records inlined = some s') : StepSpec s s' := by
  obtain ⟨hb, hcallbacks⟩ := rebuilds_compact hstep
  refine ⟨h.rebuild hb hne keys fun ref href => ?_, hb.ages⟩
  rw [mem_reported, hb.invalid, hb.jobs, hcallbacks] at href
  rw [mem_reported]
  rcases href with href | ⟨dropped, hdropped, href⟩ | href
  · exact Or.inl (Or.inl href)
  · rcases List.mem_append.mp hdropped with hold | hnew
    · exact Or.inl (Or.inr (Or.inl ⟨dropped, hold, href⟩))
    · rw [List.mem_singleton.mp hnew, List.mem_filter, decide_eq_true_eq] at href
      exact Or.inr href
  · exact Or.inl (Or.inr (Or.inr href))

omit [DecidableEq κ] in
theorem Inv.switchMemtable (h : Inv s) :
    Inv { s with mem := fun _ => [], imm := s.mem :: s.imm } := by
  have hversions := versions_switchMemtable s
  refine h.of_jobs rfl hversions rfl (fun _ href => Or.inl href) (fun job hjob => ?_) h.disjoint
  exact (h.jobs job hjob).same_versions (fun _ _ => rfl) hversions (List.Subset.refl _)
    (List.Subset.refl _)

/-! ## Every step -/

omit [DecidableEq κ] in
theorem ages_compactionOutput {files' : BlobFiles κ} {noLiveData : Bool}
    (h : InvalidEntries.completeOutput files f noLiveData = some files') : Ages files files' := by
  obtain ⟨mid, hmid, hdelete⟩ := InvalidEntries.completeOutput_cases h
  exact (Ages.transit hmid (by decide) (by decide)).trans
    (.transitAll hdelete (by decide) (by decide))

omit [DecidableEq κ] in
theorem ages_levelMerged {files' : BlobFiles κ} {noLiveData : Bool}
    (h : InvalidEntries.levelMerge files f noLiveData = some files') : Ages files files' := by
  obtain ⟨bf, -, -, htransit⟩ := InvalidEntries.levelMerge_cases h
  cases noLiveData with
  | false => exact .transit htransit (by decide) (by decide)
  | true => exact .transit htransit (by decide) (by decide)

theorem step_spec (h : Inv s) {a : Action κ} (hharmless : Harmless s a)
    (hstep : step s a = some s') : StepSpec s s' := by
  cases a with
  | put k v =>
      obtain rfl := Option.some.inj hstep
      exact ⟨h.userWrite k rfl, .refl _⟩
  | delete k =>
      obtain rfl := Option.some.inj hstep
      exact ⟨h.userWrite k rfl, .refl _⟩
  | switchMemtable =>
      obtain rfl := Option.some.inj hstep
      exact ⟨h.switchMemtable, .refl _⟩
  | flush n f records inlined => exact flush_spec h hharmless hstep
  | flushCompleted f =>
      obtain ⟨files, hfiles, rfl⟩ := Option.map_eq_some_iff.mp hstep
      exact ⟨h.flushCompleted hfiles, .transit hfiles (by decide) (by decide)⟩
  | compact i n selected keys f records inlined => exact compact_spec h hharmless hstep
  | compactionCompleted i =>
      obtain ⟨dropped, hdropped, rfl⟩ := Option.map_eq_some_iff.mp hstep
      exact ⟨h.compactionCompleted hdropped, .refl _⟩
  | compactionOutput f noLiveData =>
      obtain ⟨files, hfiles, rfl⟩ := Option.map_eq_some_iff.mp hstep
      exact ⟨h.compactionOutput hharmless hfiles, ages_compactionOutput hfiles⟩
  | levelMerged f noLiveData =>
      obtain ⟨files, hfiles, rfl⟩ := Option.map_eq_some_iff.mp hstep
      exact ⟨h.levelMerged hharmless hfiles, ages_levelMerged hfiles⟩
  | gcBegin inputs =>
      refine ⟨h.gcBegin hstep, ?_⟩
      obtain ⟨-, files, hfiles, rfl⟩ := gcBeginStep_cases hstep
      exact .transitAll hfiles (by decide) (by decide)
  | gcOnHardware j output offsets =>
      refine ⟨h.gcOnHardware hstep, ?_⟩
      obtain ⟨job, kept, -, -, -, rfl⟩ := gcOnHardwareStep_cases hstep
      exact .refl _
  | gcFallBack j order useBitmap fallback =>
      refine ⟨h.gcFallBack hstep, ?_⟩
      obtain ⟨job, -, -, rfl⟩ := gcFallBackStep_cases hstep
      exact .refl _
  | gcRecord j g offset size =>
      refine ⟨h.gcRecord hharmless hstep, ?_⟩
      obtain ⟨job, job', -, -, rfl⟩ := gcRecordStep_cases hstep
      exact .refl _
  | gcInstall j =>
      refine ⟨h.gcInstall hstep, ?_⟩
      obtain ⟨job, -, -, -, ⟨-, rfl⟩ | ⟨g, records, hn, -, -, hnone, rfl⟩⟩ :=
        gcInstallStep_cases hstep
      · exact .refl _
      · exact .of_eq fun f hf => update_of_some hnone hf
  | gcRewrite j =>
      refine ⟨h.gcRewrite hharmless hstep, ?_⟩
      obtain ⟨job, w, rest, -, -, -, rfl | ⟨-, -, rfl⟩⟩ := gcRewriteStep_cases hstep
      · exact .refl _
      · exact .refl _
  | gcFlushWAL j =>
      refine ⟨h.gcFlushWAL hstep, ?_⟩
      obtain ⟨job, -, -, -, rfl⟩ := gcFlushWALStep_cases hstep
      exact .refl _
  | gcFinish j =>
      refine ⟨h.gcFinish hstep, ?_⟩
      obtain ⟨job, deleted, files, -, -, hdeleted, hrelease, rfl⟩ := gcFinishStep_cases hstep
      exact (Ages.transitAll hdeleted (by decide) (by decide)).trans (ages_releaseGcFiles hrelease)
  | gcAbort j =>
      refine ⟨h.gcAbort hstep, ?_⟩
      obtain ⟨job, files, -, hrelease, rfl⟩ := gcAbortStep_cases hstep
      exact ages_releaseGcFiles hrelease

/-! ## What a checkpoint sees -/

theorem mem_numbers (h : Inv s) {f : UInt64} :
    f ∈ (model κ).numbers s ↔ ∃ bf, s.files f = some bf :=
  mem_listed_iff fun bf hbf => h.numbered f bf hbf

omit [DecidableEq κ] in
/-- The newest version of a key is exposed. -/
theorem Inv.live (h : Inv s) {k : κ} {p : BlobIndexType}
    (hp : (s.versions k).head?.bind StreamVersion.newPart = some p) :
    ∃ bf, s.files p.fileNumber = some bf ∧ bf.state ≠ .kObsolete := by
  obtain ⟨v, hhead, hv⟩ := Option.bind_eq_some_iff.mp hp
  obtain ⟨rest, hversions⟩ := List.head?_eq_some_iff.mp hhead
  have hmem : v ∈ s.versions k := hversions ▸ List.mem_cons_self
  obtain ⟨bf, r, hbf, hr, hkey, heq⟩ := h.names k v hmem p hv
  refine ⟨bf, hbf, fun hstate => ?_⟩
  have hsettled := h.dead _ bf hbf hstate r hr
  rw [Settled, ← heq, hkey, hversions, exposed_of_newPart hv rest] at hsettled
  cases hsettled

theorem obsoleted_spec {a : Action κ} (hstep : step s a = some s') (hf : f ∈ obsoleted s a) :
    isObsolete s'.files f = true := by
  unfold obsoleted at hf
  split at hf
  · rename_i g
    obtain ⟨files, hfiles, rfl⟩ := Option.map_eq_some_iff.mp hstep
    obtain ⟨mid, -, hdelete⟩ := InvalidEntries.completeOutput_cases hfiles
    exact (isObsolete_delete hdelete f).mpr (Or.inl hf)
  · rename_i g
    obtain ⟨files, hfiles, rfl⟩ := Option.map_eq_some_iff.mp hstep
    obtain ⟨bf, -, -, htransit⟩ := InvalidEntries.levelMerge_cases hfiles
    rw [if_pos rfl, ← BlobFiles.transitAll_singleton] at htransit
    exact (isObsolete_delete htransit f).mpr (Or.inl hf)
  · rename_i j
    obtain ⟨job, deleted, files, hj, -, hdeleted, hrelease, rfl⟩ := gcFinishStep_cases hstep
    rw [hj] at hf
    exact (ages_releaseGcFiles hrelease).obsolete ((isObsolete_delete hdeleted f).mpr (Or.inl hf))
  · cases hf

omit [DecidableEq κ] in
theorem Inv.init : Inv (State.init : State κ) where
  names := nofun
  unique _ := List.nodup_nil
  indexes := nofun
  numbered := nofun
  jobs := nofun
  disjoint := List.nodup_nil
  dead := nofun
  reported := nofun

theorem stepSound (h : Inv s) {a : Action κ} (hharmless : Harmless s a)
    (hstep : step s a = some s') : (model κ).StepSound Inv s a s' := by
  obtain ⟨hinv, hages⟩ := step_spec h hharmless hstep
  refine ⟨hinv, fun f hf => ?_, fun f hf => hages.obsolete hf, fun f hf => obsoleted_spec hstep hf⟩
  obtain ⟨bf, hbf⟩ := (mem_numbers h).mp hf
  obtain ⟨bf', hbf', -⟩ := hages f bf hbf
  exact (mem_numbers hinv).mpr ⟨bf', hbf'⟩

theorem sound (κ : Type) [DecidableEq κ] : (model κ).Sound Harmless Inv where
  init _ := .init
  live s f h := by
    rintro ⟨k, p, hp, rfl⟩
    obtain ⟨bf, hbf, hstate⟩ := h.live hp
    exact ⟨(mem_numbers h).mpr ⟨bf, hbf⟩, isObsolete_of_state hbf hstate⟩
  step _ _ _ h hharmless hstep := stepSound h hharmless hstep

end AegonKV.OffloadedColumn
