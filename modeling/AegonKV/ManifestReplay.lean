import AegonKV.LogAndApply
import AegonKV.TransitionSystem
import Mathlib.Data.List.Induction

/-!
# Replaying the manifest

Recovery feeds all records of the manifest to one collector and applies them together to freshly
opened storages. A log collects when no column family adds or deletes a number twice and the next
file numbers do not decrease. It replays to the files that it adds and does not delete.
-/

namespace AegonKV
open LittleEndian

structure Collecting where
  collector : EditCollector BlobFileMeta
  columns : List UInt32

namespace Collecting

def empty : Collecting := ⟨.empty, []⟩

def addEdit (c : Collecting) (edit : VersionEdit BlobFileMeta) : Except Status Collecting := do
  let collector ← c.collector.addEdit edit
  return ⟨collector, if edit.columnFamilyId ∈ c.columns then c.columns
    else c.columns ++ [edit.columnFamilyId]⟩

/-- One round of the loop of `Recover`. -/
def addRecord (c : Collecting) (record : Bytes) : Except Status Collecting := do
  let edit ← VersionEdit.decodeFrom record
  c.addEdit edit

def finish (c : Collecting) (storages : BlobStorages) : Except Status (BlobStorages × UInt64) := do
  c.collector.sealIn c.columns storages
  match c.collector.applyTo c.columns storages with
  | (s, storages) =>
    if s.isOk then
      match c.collector.nextFileNumber with
      | none => .error (.corruption "No next file number in manifest file")
      | some n => .ok (storages, n)
    else .error s

end Collecting

/-- The storages and the next file number that `Recover` gets from the records. -/
def replay (storages : BlobStorages) (records : List Bytes) :
    Except Status (BlobStorages × UInt64) := do
  let c ← records.foldlM Collecting.addRecord .empty
  c.finish storages

/-! ## Logs that collect -/

section

variable {cf : UInt32} {log : List (VersionEdit BlobFileMeta)} {edit : VersionEdit BlobFileMeta}
  {f : UInt64}

def ofColumn (cf : UInt32) (log : List (VersionEdit BlobFileMeta)) : List (VersionEdit BlobFileMeta) :=
  log.filter fun edit => edit.columnFamilyId = cf

theorem ofColumn_snoc_self (h : edit.columnFamilyId = cf) :
    ofColumn cf (log ++ [edit]) = ofColumn cf log ++ [edit] := by
  simp [ofColumn, h]

theorem ofColumn_snoc_ne (h : edit.columnFamilyId ≠ cf) :
    ofColumn cf (log ++ [edit]) = ofColumn cf log := by
  simp [ofColumn, h]

theorem addedFiles_snoc (log : List (VersionEdit BlobFileMeta)) (edit : VersionEdit BlobFileMeta) :
    addedFiles (log ++ [edit]) = addedFiles log ++ edit.addedFiles := by
  simp [addedFiles]

theorem deletedFiles_snoc (log : List (VersionEdit BlobFileMeta)) (edit : VersionEdit BlobFileMeta) :
    deletedFiles (log ++ [edit]) = deletedFiles log ++ edit.deletedFiles := by
  simp [deletedFiles]

structure Collectable (log : List (VersionEdit BlobFileMeta)) : Prop where
  added : ∀ cf, ((addedFiles (ofColumn cf log)).map (·.1)).Nodup
  deleted : ∀ cf, ((deletedFiles (ofColumn cf log)).map (·.1)).Nodup
  next : (log.filterMap (·.nextFileNumber)).Pairwise (· ≤ ·)

theorem Collectable.prev (h : Collectable (log ++ [edit])) : Collectable log := by
  refine ⟨fun cf => ?_, fun cf => ?_, ?_⟩
  · have hn := h.added cf
    by_cases hcf : edit.columnFamilyId = cf
    · rw [ofColumn_snoc_self hcf, addedFiles_snoc, List.map_append] at hn
      exact hn.of_append_left
    · rwa [ofColumn_snoc_ne hcf] at hn
  · have hn := h.deleted cf
    by_cases hcf : edit.columnFamilyId = cf
    · rw [ofColumn_snoc_self hcf, deletedFiles_snoc, List.map_append] at hn
      exact hn.of_append_left
    · rwa [ofColumn_snoc_ne hcf] at hn
  · have hn := h.next
    rw [List.filterMap_append] at hn
    exact (List.pairwise_append.mp hn).1

structure Collects (log : List (VersionEdit BlobFileMeta)) (c : Collecting) : Prop where
  columnFamilies : ∀ cf, c.collector.columnFamilies cf =
    ⟨addedFiles (ofColumn cf log), deletedFiles (ofColumn cf log)⟩
  next : c.collector.nextFileNumber = (log.filterMap (·.nextFileNumber)).getLast?
  columns : c.columns.Nodup
  mem_columns : ∀ cf, cf ∈ c.columns ↔ ∃ e ∈ log, e.columnFamilyId = cf

theorem getLast?_filterMap_snoc (log : List (VersionEdit BlobFileMeta))
    (edit : VersionEdit BlobFileMeta) :
    ((log ++ [edit]).filterMap (·.nextFileNumber)).getLast? =
      edit.nextFileNumber.or (log.filterMap (·.nextFileNumber)).getLast? := by
  rw [List.filterMap_append]
  cases hn : edit.nextFileNumber with
  | none => simp [hn]
  | some n => simp [hn]

theorem Collects.addEdit {c : Collecting} (h : Collects log c) (hlog : Collectable (log ++ [edit])) :
    ∃ c', c.addEdit edit = .ok c' ∧ Collects (log ++ [edit]) c' := by
  have hna := hlog.added edit.columnFamilyId
  have hnd := hlog.deleted edit.columnFamilyId
  rw [ofColumn_snoc_self rfl, addedFiles_snoc, List.map_append] at hna
  rw [ofColumn_snoc_self rfl, deletedFiles_snoc, List.map_append] at hnd
  obtain ⟨-, hna, hda⟩ := List.nodup_append'.mp hna
  obtain ⟨-, hnd, hdd⟩ := List.nodup_append'.mp hnd
  have hadd := addEdit_of_fresh (c := c.collector) hna hnd
    (fun f hf hmem => by
      rw [h.columnFamilies] at hmem
      exact hda hmem hf)
    (fun f hf hmem => by
      rw [h.columnFamilies] at hmem
      exact hdd hmem hf)
    (fun n hn m hm => by
      have hp := hlog.next
      rw [List.filterMap_append] at hp
      rw [h.next] at hm
      exact (List.pairwise_append.mp hp).2.2 m (List.mem_of_getLast? hm) n (by simp [hn]))
  refine ⟨⟨_, _⟩, by rw [Collecting.addEdit, hadd]; rfl, ⟨fun cf => ?_, ?_, ?_, fun cf => ?_⟩⟩
  · dsimp only
    by_cases hcf : cf = edit.columnFamilyId
    · subst hcf
      rw [Function.update_self, h.columnFamilies, ofColumn_snoc_self rfl, addedFiles_snoc,
        deletedFiles_snoc]
    · rw [Function.update_of_ne hcf, h.columnFamilies, ofColumn_snoc_ne (Ne.symm hcf)]
  · rw [getLast?_filterMap_snoc, h.next]
  · dsimp only
    split_ifs with hmem
    · exact h.columns
    · exact List.nodup_append'.mpr ⟨h.columns, List.nodup_singleton _, by simpa using hmem⟩
  · dsimp only
    have hlog : (∃ e ∈ log ++ [edit], e.columnFamilyId = cf) ↔
        (∃ e ∈ log, e.columnFamilyId = cf) ∨ edit.columnFamilyId = cf := by
      simp [or_and_right, exists_or]
    rw [hlog, ← h.mem_columns]
    split_ifs with hmem
    · refine ⟨Or.inl, fun hcf => hcf.elim id fun hcf => hcf ▸ hmem⟩
    · simp [eq_comm]

/-- A log that meets the checks of `AddEdit` is collected. -/
theorem Collectable.collects (h : Collectable log) :
    ∃ c, log.foldlM Collecting.addEdit .empty = .ok c ∧ Collects log c := by
  induction log using List.reverseRecOn with
  | nil => exact ⟨.empty, rfl, fun cf => rfl, rfl, List.nodup_nil, fun cf => (by simp [Collecting.empty])⟩
  | append_singleton log edit ih =>
      obtain ⟨c, hc, hcol⟩ := ih h.prev
      obtain ⟨c', hc', hcol'⟩ := hcol.addEdit h
      refine ⟨c', ?_, hcol'⟩
      rw [List.foldlM_append, hc]
      simp only [bind, Except.bind, List.foldlM_cons, List.foldlM_nil, hc', pure, Except.pure]

abbrev Decodes (records : List Bytes) (log : List (VersionEdit BlobFileMeta)) : Prop :=
  List.Forall₂ (fun record edit => VersionEdit.decodeFrom record = .ok edit) records log

theorem Decodes.foldlM {records : List Bytes} (h : Decodes records log) (c : Collecting) :
    records.foldlM Collecting.addRecord c = log.foldlM Collecting.addEdit c := by
  induction h generalizing c with
  | nil => rfl
  | @cons record edit records log hdec hrest ih =>
      rw [List.foldlM_cons, List.foldlM_cons]
      have hstep : c.addRecord record = c.addEdit edit := by
        rw [Collecting.addRecord, hdec]
        rfl
      rw [hstep]
      exact congrArg (c.addEdit edit >>= ·) (funext ih)

/-! ## Replay on freshly opened storages -/

theorem applyTo_spec {c : EditCollector BlobFileMeta} {cfs : List UInt32} {storages : BlobStorages}
    (hn : cfs.Nodup)
    (h : ∀ cf ∈ cfs, ∀ st, storages.lookup cf = some st →
      ((c.columnFamilies cf).apply st).1 = .ok) :
    ∃ storages', c.applyTo cfs storages = (.ok, storages') ∧ ∀ cf, storages'.lookup cf =
      if cf ∈ cfs then (storages.lookup cf).map fun st => ((c.columnFamilies cf).apply st).2
      else storages.lookup cf := by
  induction cfs generalizing storages with
  | nil => exact ⟨storages, rfl, fun cf => (by simp)⟩
  | cons cf cfs ih =>
      obtain ⟨hcf, hn⟩ := List.nodup_cons.mp hn
      cases hlook : storages.lookup cf with
      | none =>
          obtain ⟨storages', happly, hspec⟩ := ih hn fun g hg => h g (List.mem_cons_of_mem _ hg)
          refine ⟨storages', by rw [EditCollector.applyTo, hlook]; exact happly, fun g => ?_⟩
          by_cases hg : g = cf
          · subst hg
            rw [hspec, if_neg hcf, if_pos List.mem_cons_self, hlook]
            rfl
          · rw [hspec]
            simp only [List.mem_cons, hg, false_or]
      | some st =>
          have hok := h cf List.mem_cons_self st hlook
          have hrest : ∀ g ∈ cfs, ∀ st', (storages.insert cf
              ((c.columnFamilies cf).apply st).2).lookup g = some st' →
              ((c.columnFamilies g).apply st').1 = .ok := by
            intro g hg st' hst'
            have hne : g ≠ cf := fun heq => hcf (heq ▸ hg)
            rw [AList.lookup_insert_ne hne] at hst'
            exact h g (List.mem_cons_of_mem _ hg) st' hst'
          obtain ⟨storages', happly, hspec⟩ := ih hn hrest
          refine ⟨storages', ?_, fun g => ?_⟩
          · rw [EditCollector.applyTo, hlook]
            simp only [hok, Status.isOk_ok, if_true]
            exact happly
          · by_cases hg : g = cf
            · subst hg
              rw [hspec, if_neg hcf, if_pos List.mem_cons_self, AList.lookup_insert, hlook]
              rfl
            · rw [hspec, AList.lookup_insert_ne hg]
              simp only [List.mem_cons, hg, false_or]

/-- An edit applied to an empty storage leaves the files it adds and does not delete. -/
theorem AppliedExactly.lookup_empty {st st' : BlobStorage} (h : AppliedExactly edit st st')
    (hst : st.files = ∅) (hsub : ∀ f ∈ edit.deletedFiles.map (·.1), f ∈ edit.addedFiles.map (·.1))
    {file : BlobFileMeta} : st'.files.lookup f = some file ↔
      (f, file) ∈ edit.addedFiles ∧ f ∉ edit.deletedFiles.map (·.1) := by
  constructor
  · intro hf
    by_cases hdel : f ∈ edit.deletedFiles.map (·.1)
    · rw [h.other f ⟨fun _ => hdel, fun _ => hsub f hdel⟩, hst] at hf
      cases hf
    · by_cases hadd : f ∈ edit.addedFiles.map (·.1)
      · obtain ⟨g, hg, rfl⟩ := List.mem_map.mp hadd
        obtain rfl := Option.some.inj ((h.added g hg hdel).2.symm.trans hf)
        exact ⟨hg, hdel⟩
      · rw [h.other f ⟨fun hc => absurd hc hadd, fun hc => absurd hc hdel⟩, hst] at hf
        cases hf
  · rintro ⟨hadd, hdel⟩
    exact (h.added (f, file) hadd hdel).2

def FreshlyOpened (opened : BlobStorages) : Prop :=
  ∀ cf st, opened.lookup cf = some st → st = .empty st.cfOptions

theorem FreshlyOpened.files {opened : BlobStorages} (h : FreshlyOpened opened) {st : BlobStorage}
    (hst : opened.lookup cf = some st) : st.files = ∅ := by
  rw [h cf st hst]
  rfl

theorem sealed_of_empty {st : BlobStorage} (hst : st.files = ∅)
    {added : List (UInt64 × BlobFileMeta)} {deleted : List (UInt64 × ℕ)}
    (hsub : ∀ f ∈ deleted.map (·.1), f ∈ added.map (·.1)) :
    (CFEditCollector.mk added deleted).sealed st.fileStatus = .ok () := by
  have hnone : st.fileStatus = fun _ => none := by
    funext n
    rw [BlobStorage.fileStatus, hst]
    rfl
  rw [hnone, CFEditCollector.sealed, forM_ok (l := added) fun _ _ => rfl]
  exact forM_ok fun file hfile => if_pos (hsub _ (List.mem_map_of_mem hfile))

/-- The files of the log that are there after its replay. -/
def LiveIn (cf : UInt32) (log : List (VersionEdit BlobFileMeta)) (f : UInt64) (file : BlobFileMeta) :
    Prop :=
  (f, file) ∈ addedFiles (ofColumn cf log) ∧ ¬Deleted (ofColumn cf log) f

/-- A replay that succeeds with these files and this next file number. -/
structure Replays (opened : BlobStorages) (records : List Bytes)
    (log : List (VersionEdit BlobFileMeta)) (storages : BlobStorages) (n : UInt64) : Prop where
  ok : replay opened records = .ok (storages, n)
  next : (log.filterMap (·.nextFileNumber)).getLast? = some n
  isSome : ∀ cf, (storages.lookup cf).isSome = (opened.lookup cf).isSome
  files : ∀ cf st, storages.lookup cf = some st →
    ∀ f file, st.files.lookup f = some file ↔ LiveIn cf log f file

theorem Collectable.replays {records : List Bytes} {opened : BlobStorages} (h : Collectable log)
    (hdec : Decodes records log) (hopen : FreshlyOpened opened)
    (hpair : ∀ cf, (opened.lookup cf).isSome → ∀ f, Deleted (ofColumn cf log) f →
      Added (ofColumn cf log) f)
    (hnext : ∃ e ∈ log, e.nextFileNumber ≠ none) :
    ∃ storages n, Replays opened records log storages n := by
  obtain ⟨c, hc, hcol⟩ := h.collects
  have hcf : ∀ cf st, opened.lookup cf = some st → ∃ st',
      (c.collector.columnFamilies cf).apply st = (.ok, st') ∧
        ∀ f file, st'.files.lookup f = some file ↔ LiveIn cf log f file := by
    intro cf st hst
    have hempty := hopen.files hst
    have hsub := hpair cf (by rw [hst]; rfl)
    obtain ⟨st', happly, hst', -⟩ := @apply_of_sealed
      ⟨cf, none, addedFiles (ofColumn cf log), deletedFiles (ofColumn cf log)⟩ st
      (h.added cf) (sealed_of_empty hempty hsub)
    refine ⟨st', by rw [hcol.columnFamilies]; exact happly, fun f file => ?_⟩
    exact hst'.lookup_empty hempty hsub
  have hseal : c.collector.sealIn c.columns opened = .ok () := by
    refine forM_ok fun cf _ => ?_
    cases hst : opened.lookup cf with
    | none => rfl
    | some st =>
        rw [hcol.columnFamilies]
        exact sealed_of_empty (hopen.files hst) (hpair cf (by rw [hst]; rfl))
  obtain ⟨storages, happly, hspec⟩ := applyTo_spec hcol.columns fun cf _ st hst => by
    obtain ⟨st', hst', -⟩ := hcf cf st hst
    rw [hst']
  have hlast : (log.filterMap (·.nextFileNumber)).getLast? ≠ none := by
    intro hnone
    obtain ⟨e, he, hne⟩ := hnext
    obtain ⟨n, hn⟩ := Option.ne_none_iff_exists'.mp hne
    have := List.mem_filterMap.mpr ⟨e, he, hn⟩
    rw [List.getLast?_eq_none_iff.mp hnone] at this
    cases this
  obtain ⟨n, hn⟩ := Option.ne_none_iff_exists'.mp hlast
  refine ⟨storages, n, ?_, hn, fun cf => ?_, fun cf st hst => ?_⟩
  · rw [replay, hdec.foldlM, hc]
    simp only [bind, Except.bind, Collecting.finish, hseal, happly, Status.isOk_ok, if_true,
      hcol.next, hn]
  · rw [hspec]
    split_ifs
    · rw [Option.isSome_map]
    · rfl
  · rw [hspec] at hst
    split_ifs at hst with hmem
    · obtain ⟨st0, hst0, rfl⟩ := Option.map_eq_some_iff.mp hst
      obtain ⟨st', hst', hfiles⟩ := hcf cf st0 hst0
      rw [hst']
      exact hfiles
    · intro f file
      have hnil : ofColumn cf log = [] := by
        refine List.filter_eq_nil_iff.mpr fun e he hcf => ?_
        exact hmem ((hcol.mem_columns cf).mpr ⟨e, he, by simpa using hcf⟩)
      rw [hopen.files hst, LiveIn, hnil]
      simp [addedFiles]

end
end AegonKV
