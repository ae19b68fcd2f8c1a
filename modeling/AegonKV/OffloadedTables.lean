import AegonKV.OffloadedGCRuns
import AegonKV.SoftwareGCSteps

/-!
# Tables of a column family with offloaded garbage collection

A flush or a compaction puts the table built from a piece of the versions in its place. What the
table names is what the piece named or a record of the new blob file, and files only age.
-/

namespace AegonKV.OffloadedGC
open LittleEndian AegonKV

variable {κ : Type}

/-- What `BlobValidationCollector` gathers from a table, which leaves the old parts out. -/
def collect (table : Table κ) (keys : List κ) : List (UInt64 × UInt64) :=
  keys.flatMap fun k => (table k).filterMap fun v => v.newPart.map fun p => (p.fileNumber, p.index)

theorem mem_collect {table : Table κ} {keys : List κ} {ref : UInt64 × UInt64} :
    ref ∈ collect table keys ↔
      ∃ k ∈ keys, ∃ v ∈ table k, ∃ p, v.newPart = some p ∧ (p.fileNumber, p.index) = ref := by
  simp only [collect, List.mem_flatMap, List.mem_filterMap, Option.map_eq_some_iff]

def releaseGcFiles (files : BlobFiles κ) (job : Job κ) : Option (BlobFiles κ) := do
  let files ← files.transitAll .kGCCompleted job.inputs
  files.transitAll .kGCCompleted (if job.installed then [job.outputNumber] else [])

/-! ## What a table names -/

theorem newPart_combine {a v : Version} {p : BlobIndexType} (h : (a.combine v).newPart = some p) :
    a.newPart = some p ∨ v.newPart = some p := by
  cases a with
  | value b => exact Or.inl h
  | plain q =>
      cases v with
      | value b => exact Or.inr h
      | plain c => exact Or.inl h
      | writeBack c d => exact Or.inl h
  | writeBack n o =>
      cases v with
      | value b => exact Or.inr h
      | plain c =>
          rw [Version.combine] at h
          split_ifs at h
          · exact Or.inl h
          · exact Or.inr h
      | writeBack c d =>
          rw [Version.combine] at h
          split_ifs at h
          · exact Or.inl h
          · exact Or.inr h

/-- What is kept of the versions names what one of them names. -/
theorem newPart_resolve {segment : List Version} {r : Version} (hr : resolve segment = some r)
    {p : BlobIndexType} (hp : r.newPart = some p) : ∃ v ∈ segment, v.newPart = some p := by
  cases segment with
  | nil => cases hr
  | cons a segment =>
      obtain rfl := Option.some.inj hr
      clear hr
      induction segment generalizing a with
      | nil => exact ⟨a, List.mem_cons_self, hp⟩
      | cons v segment ih =>
          obtain ⟨u, hu, hup⟩ := ih (a.combine v) hp
          rcases List.mem_cons.mp hu with rfl | hu
          · rcases newPart_combine hup with h | h
            · exact ⟨a, List.mem_cons_self, h⟩
            · exact ⟨v, List.mem_cons_of_mem _ List.mem_cons_self, h⟩
          · exact ⟨u, List.mem_cons_of_mem _ (List.mem_cons_of_mem _ hu), hup⟩

variable {files files' : BlobFiles κ} {f : UInt64} {records : List (BlobRec κ)}

theorem addBlobFile_inv (h : addBlobFile files f records = some files') :
    files' = files ∧ records = [] ∨ records ≠ [] ∧ files f = none ∧
      ∃ hn, files' = Function.update files f (some ⟨records, .kPendingLSM, hn⟩) := by
  unfold addBlobFile at h
  split_ifs at h with hn hempty hsome
  · exact Or.inl ⟨(Option.some.inj h).symm, List.isEmpty_iff.mp hempty⟩
  · refine Or.inr ⟨fun hnil => hempty (List.isEmpty_iff.mpr hnil), by simpa using hsome, hn, ?_⟩
    exact (Option.some.inj h).symm

/-- A file that was there is as it was. -/
theorem addBlobFile_old (h : addBlobFile files f records = some files') {g : UInt64}
    (hg : files g ≠ none) : files' g = files g := by
  rcases addBlobFile_inv h with ⟨heq, -⟩ | ⟨-, hnone, _, heq⟩
  · rw [heq]
  · rw [heq, Function.update_of_ne]
    rintro rfl
    exact hg hnone

/-- A record of the new file is in a file that was not there. -/
theorem addBlobFile_new (h : addBlobFile files f records = some files') {r : BlobRec κ}
    (hr : r ∈ records) :
    files f = none ∧ ∃ bf, files' f = some bf ∧ bf.records = records := by
  rcases addBlobFile_inv h with ⟨-, rfl⟩ | ⟨-, hnone, hn, heq⟩
  · cases hr
  · refine ⟨hnone, ⟨records, .kPendingLSM, hn⟩, ?_, rfl⟩
    rw [heq, Function.update_self]

section Tables

variable [DecidableEq κ] {segment : Table κ} {k : κ} {gc gc' : State κ}

theorem newPart_buildTable {v : Version} (hv : v ∈ buildTable segment f records k)
    {p : BlobIndexType} (hp : v.newPart = some p) :
    (∃ u ∈ segment k, u.newPart = some p) ∨ ∃ r ∈ records, r.key = k ∧ p = pointerTo f r := by
  unfold buildTable at hv
  split at hv
  · cases hv
  · rename_i b hb
    split at hv
    · rename_i r hr
      obtain rfl := List.mem_singleton.mp hv
      refine Or.inr ⟨r, List.mem_of_find?_eq_some hr, ?_, (Option.some.inj hp).symm⟩
      exact of_decide_eq_true (List.find?_some (p := fun r : BlobRec κ => decide (r.key = k)) hr)
    · obtain rfl := List.mem_singleton.mp hv
      cases hp
  · rename_i u hu
    obtain rfl := List.mem_singleton.mp hv
    exact Or.inl (newPart_resolve hu hp)

/-- The segment of each key gives way to the table built from it. -/
structure Rebuilds (gc gc' : State κ) (segment : Table κ) (f : UInt64)
    (records : List (BlobRec κ)) : Prop where
  added : addBlobFile gc.files f records = some gc'.files
  jobs : gc'.jobs = gc.jobs
  versions : ∀ k, ∃ newer older, gc.versions k = newer ++ (segment k ++ older) ∧
    gc'.versions k = newer ++ (buildTable segment f records k ++ older)

theorem Rebuilds.file (h : Rebuilds gc gc' segment f records) {r : BlobRec κ} (hr : r ∈ records) :
    gc.files f = none ∧ ∃ bf, gc'.files f = some bf ∧ bf.records = records :=
  addBlobFile_new h.added hr

theorem Rebuilds.named (h : Rebuilds gc gc' segment f records) {v : Version}
    (hv : v ∈ gc'.versions k) {p : BlobIndexType} (hp : v.newPart = some p) :
    (∃ u ∈ gc.versions k, u.newPart = some p) ∨ ∃ r ∈ records, r.key = k ∧ p = pointerTo f r := by
  obtain ⟨newer, older, hold, hnew⟩ := h.versions k
  rw [hnew] at hv
  rw [hold]
  rcases List.mem_append.mp hv with hv | hv
  · exact Or.inl ⟨v, List.mem_append_left _ hv, hp⟩
  rcases List.mem_append.mp hv with hv | hv
  · rcases newPart_buildTable hv hp with ⟨u, hu, hup⟩ | hr
    · exact Or.inl ⟨u, List.mem_append_right _ (List.mem_append_left _ hu), hup⟩
    · exact Or.inr hr
  · exact Or.inl ⟨v, List.mem_append_right _ (List.mem_append_right _ hv), hp⟩

theorem Rebuilds.ages (h : Rebuilds gc gc' segment f records) :
    SoftwareGC.Ages gc.files gc'.files :=
  .of_eq fun _ hg => addBlobFile_old h.added hg

theorem rebuilds_flush {n : ℕ} (h : gc.flushStep n f records = some gc') :
    Rebuilds gc gc' (fun k => (gc.imm.drop (gc.imm.length - n)).flatMap (· k)) f records := by
  simp only [State.flushStep] at h
  split_ifs at h with hsep
  obtain ⟨files, hadd, rfl⟩ := Option.map_eq_some_iff.mp h
  refine ⟨hadd, rfl, fun k => ?_⟩
  exact ⟨_, _, versions_flush gc _ k, versions_flushed gc _ _ files k⟩

theorem rebuilds_compact {i n : ℕ} {selected : κ → Bool}
    (h : gc.compactStep i n selected f records = some gc') :
    Rebuilds gc gc' (gc.segment i n selected) f records := by
  simp only [State.compactStep] at h
  split_ifs at h with hsep
  obtain ⟨files, hadd, rfl⟩ := Option.map_eq_some_iff.mp h
  refine ⟨hadd, rfl, fun k => ?_⟩
  by_cases hk : selected k = true
  · exact ⟨_, _, versions_compact gc i n hk, versions_compacted gc i n hk _ files⟩
  · have htable := buildTable_of_not_selected gc i n hk f records
    refine ⟨gc.versions k, [], ?_, ?_⟩
    · simp [State.segment, hk]
    · rw [htable, List.append_nil, List.append_nil]
      exact versions_compacted_of_not_selected gc i n hk htable files

end Tables

/-! ## Files only age -/

section Ages

variable {gc gc' : State κ}

theorem ages_gcCopy {inputs offsets : List UInt64} {bits : UInt64 → UInt64 → Bool}
    {output : UInt64} (h : gc.gcCopyStep inputs bits output offsets = some gc') :
    SoftwareGC.Ages gc.files gc'.files := by
  obtain ⟨-, files, hfiles, hoffsets, rfl⟩ := gcCopyStep_cases h
  exact .transitAll hfiles (by decide) (by decide)

theorem ages_gcInstall {j : ℕ} (h : gc.gcInstallStep j = some gc') :
    SoftwareGC.Ages gc.files gc'.files := by
  obtain ⟨job, -, -, hnone, rfl⟩ := gcInstallStep_cases h
  refine .of_eq fun g hg => Function.update_of_ne ?_ _ _
  rintro rfl
  exact hg hnone

theorem ages_gcFinish {j : ℕ} (h : gc.gcFinishStep j = some gc') :
    SoftwareGC.Ages gc.files gc'.files := by
  obtain ⟨job, mid, files, -, -, -, hmid, hfiles, rfl⟩ := gcFinishStep_cases h
  exact (SoftwareGC.Ages.transitAll hmid (by decide) (by decide)).trans
    (.transit hfiles (by decide) (by decide))

theorem ages_releaseGcFiles {job : Job κ} (h : releaseGcFiles files job = some files') :
    SoftwareGC.Ages files files' := by
  simp only [releaseGcFiles, Option.bind_eq_bind, Option.bind_eq_some_iff] at h
  obtain ⟨mid, hmid, hfiles⟩ := h
  exact (SoftwareGC.Ages.transitAll hmid (by decide) (by decide)).trans
    (.transitAll hfiles (by decide) (by decide))

end Ages

end AegonKV.OffloadedGC
