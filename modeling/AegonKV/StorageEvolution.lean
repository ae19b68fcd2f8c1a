import AegonKV.DroppedColumns
import AegonKV.GcJobFiles
import AegonKV.ManifestExact

/-!
# Storages whose scores name live files

Every edit that deletes files ends with `ComputeGCScore`, and a purge removes obsolete files only.
With level merge off nothing else makes a file obsolete, so that the scores of every storage name
distinct live files, at whatever time they were computed. A file that an event of no GC job leaves
in a storage was there before, and still in the hands of a job if it was, or it is new.
-/

namespace AegonKV

/-! ## One storage -/

namespace BlobStorage

/-- The scores name distinct live files, and the list of obsolete files is right. -/
structure Tidy (st : BlobStorage) : Prop where
  distinct : st.ScoresDistinct
  scored : st.Scored
  wellFormed : st.WellFormed

structure SameFiles (st st' : BlobStorage) : Prop where
  status : ∀ f, st'.fileStatus f = st.fileStatus f
  obsoleteFiles : st'.obsoleteFiles = st.obsoleteFiles

variable {st mid st' : BlobStorage} {number : UInt64} {old file : BlobFileMeta}

theorem SameFiles.refl (st : BlobStorage) : st.SameFiles st := ⟨fun _ => rfl, rfl⟩

theorem SameFiles.trans (h : st.SameFiles mid) (h' : mid.SameFiles st') : st.SameFiles st' :=
  ⟨fun f => (h'.status f).trans (h.status f), h'.obsoleteFiles.trans h.obsoleteFiles⟩

theorem sameFiles_setFile (hold : st.files.lookup number = some old)
    (hobsolete : file.isObsolete = old.isObsolete) : st.SameFiles (st.setFile number file) := by
  refine ⟨fun f => ?_, rfl⟩
  by_cases hf : f = number
  · rw [fileStatus, fileStatus, hf, lookup_setFile_self, hold, Option.map_some, Option.map_some,
      hobsolete]
  · rw [fileStatus, fileStatus, lookup_setFile_ne st file hf]

theorem SameFiles.lookup (h : st.SameFiles st') {f : UInt64} {file : BlobFileMeta}
    (hfile : st.files.lookup f = some file) :
    ∃ file', st'.files.lookup f = some file' ∧ file'.isObsolete = file.isObsolete := by
  have hstatus : st'.fileStatus f = some file.isObsolete := by
    rw [h.status, fileStatus, hfile, Option.map_some]
  exact lookup_of_fileStatus_some hstatus

theorem SameFiles.symm (h : st.SameFiles st') : st'.SameFiles st :=
  ⟨fun f => (h.status f).symm, h.obsoleteFiles.symm⟩

theorem SameFiles.wellFormed (h : st.SameFiles st') (hwf : st.WellFormed) : st'.WellFormed := by
  refine ⟨?_, fun p hp => ?_⟩
  · rw [h.obsoleteFiles]
    exact hwf.nodup
  · rw [h.obsoleteFiles] at hp
    obtain ⟨file, hfile, hobsolete⟩ := hwf.obsolete p hp
    obtain ⟨file', hfile', hsame⟩ := h.lookup hfile
    exact ⟨file', hfile', hsame.trans hobsolete⟩

theorem SameFiles.tidy (h : st.SameFiles st') (hscores : st'.gcScore = st.gcScore)
    (ht : st.Tidy) : st'.Tidy := by
  refine ⟨?_, fun g hg => ?_, h.wellFormed ht.wellFormed⟩
  · rw [ScoresDistinct, hscores]
    exact ht.distinct
  · rw [hscores] at hg
    obtain ⟨file, hfile, hlive⟩ := ht.scored g hg
    obtain ⟨file', hfile', hsame⟩ := h.lookup hfile
    exact ⟨file', hfile', hsame.trans hlive⟩

theorem tidy_computeGCScore (h : st.WellFormed) : st.computeGCScore.Tidy :=
  ⟨scoresDistinct_computeGCScore st, scored_computeGCScore st, ⟨h.nodup, h.obsolete⟩⟩

theorem tidy_empty (options : TitanCFOptions) : (empty options).Tidy :=
  ⟨List.nodup_nil, fun g hg => (by cases hg), ⟨List.nodup_nil, fun p hp => (by cases hp)⟩⟩

/-- What all but the start and the end of a GC job do to a storage, with the numbers of the files
that are new. -/
structure Evolves (new : List UInt64) (st st' : BlobStorage) : Prop where
  tidy : st.Tidy → st'.Tidy
  files : ∀ f file', st'.files.lookup f = some file' → f ∈ new ∨
    ∃ file, st.files.lookup f = some file ∧ (file.state.InGC → file'.state.InGC)

variable {new : List UInt64}

theorem Evolves.refl (new : List UInt64) (st : BlobStorage) : st.Evolves new st :=
  ⟨fun h => h, fun _ file h => Or.inr ⟨file, h, fun hgc => hgc⟩⟩

theorem Evolves.trans (h : st.Evolves new mid) (h' : mid.Evolves new st') : st.Evolves new st' where
  tidy ht := h'.tidy (h.tidy ht)
  files f file' hfile' := by
    rcases h'.files f file' hfile' with hnew | ⟨file, hfile, hgc'⟩
    · exact Or.inl hnew
    · rcases h.files f file hfile with hnew | ⟨old, hold, hgc⟩
      · exact Or.inl hnew
      · exact Or.inr ⟨old, hold, fun h => hgc' (hgc h)⟩

/-- Nothing but ages of files. -/
theorem SameFiles.evolves (h : st.SameFiles st') (hages : st.Ages st')
    (ht : st.Tidy → st'.Tidy) (new : List UInt64) : st.Evolves new st' := by
  refine ⟨ht, fun f file' hfile' => Or.inr ?_⟩
  obtain ⟨file, hfile, -⟩ := h.symm.lookup hfile'
  obtain ⟨aged, haged, hfileAges⟩ := hages f file hfile
  obtain rfl := Option.some.inj (haged.symm.trans hfile')
  exact ⟨file, hfile, hfileAges.state.inGC⟩

/-- The same with `ComputeGCScore` at the end. -/
theorem SameFiles.evolves_computeGCScore (h : st.SameFiles st') (hages : st.Ages st')
    (new : List UInt64) : st.Evolves new st'.computeGCScore := by
  have hscored : st.SameFiles st'.computeGCScore := ⟨h.status, h.obsoleteFiles⟩
  exact hscored.evolves hages (fun ht => tidy_computeGCScore (h.wellFormed ht.wellFormed)) new

end BlobStorage

/-! ## Walks without level merge -/

namespace Walk

variable {st : BlobStorage} {w : Walk} {number : UInt64} {file : BlobFileMeta} {o : MergeOptions}

theorem sameFiles_transitPending {event : FileEvent} (delta : ℤ)
    (hfile : w.storage.files.lookup number = some file) (hstate : file.state = .kPendingLSM)
    (hnormal : FileState.kPendingLSM.after event = .kNormal) :
    w.storage.SameFiles (w.transit number (file.settle delta) event).storage := by
  refine BlobStorage.sameFiles_setFile hfile ?_
  have hafter : (file.settle delta).state.after event = .kNormal := by
    rw [← hnormal, ← hstate]
    rfl
  rw [BlobFileMeta.isObsolete, BlobFileMeta.isObsolete, hafter, hstate]
  rfl

theorem sameFiles_flushCompleted (w : Walk) (number : UInt64) (delta : ℤ) :
    w.storage.SameFiles (w.flushCompleted number delta).storage := by
  rw [flushCompleted]
  split
  · exact .refl _
  · rename_i file hfile
    split
    · exact .refl _
    · rename_i hstate
      exact sameFiles_transitPending _ hfile (by simpa using hstate) rfl

theorem sameFiles_liveCompacted (hlevel : o.levelMerge = false) (countSortedRun : Bool)
    (hfile : w.storage.files.lookup number = some file) (delta : ℤ) :
    w.storage.SameFiles (liveCompacted o countSortedRun w number file delta).storage := by
  rw [liveCompacted, hlevel]
  exact BlobStorage.sameFiles_setFile hfile rfl

theorem sameFiles_compactionCompleted (hlevel : o.levelMerge = false) (countSortedRun : Bool)
    (w : Walk) (number : UInt64) (delta : ℤ) :
    w.storage.SameFiles (compactionCompleted o countSortedRun w number delta).storage := by
  rw [compactionCompleted]
  split
  · exact .refl _
  · rename_i file hfile
    split
    · rename_i hstate
      rw [pendingCompacted]
      split_ifs
      · exact BlobStorage.sameFiles_setFile hfile rfl
      · have htransit : w.storage.SameFiles
            (w.transit number (file.settle delta) .kCompactionCompleted).storage :=
          sameFiles_transitPending delta hfile hstate rfl
        dsimp only
        split_ifs
        · exact htransit
        · exact htransit
    · exact sameFiles_liveCompacted hlevel countSortedRun hfile delta
    · exact sameFiles_liveCompacted hlevel countSortedRun hfile delta
    · exact .refl _

theorem sameFiles_tablesDeleted (hlevel : o.levelMerge = false) (w : Walk) (number : UInt64)
    (delta : ℤ) : w.storage.SameFiles (tablesDeleted o w number delta).storage := by
  rw [tablesDeleted]
  split
  · exact .refl _
  · rename_i file hfile
    split
    · exact .refl _
    · rw [hlevel]
      exact BlobStorage.sameFiles_setFile hfile rfl

theorem sameFiles_applyDiff {round : Walk → UInt64 → ℤ → Walk}
    (hround : ∀ (w : Walk) number delta, w.storage.SameFiles (round w number delta).storage)
    (st : BlobStorage) (diff : SizeDiff) : st.SameFiles (applyDiff round st diff).storage := by
  have hfold : ∀ (es : List ((_ : UInt64) × ℤ)) (w : Walk),
      w.storage.SameFiles (es.foldl (fun w e => round w e.1 e.2) w).storage := by
    intro es
    induction es with
    | nil => exact fun w => .refl w.storage
    | cons e es ih => exact fun w => (hround w e.1 e.2).trans (ih _)
  exact hfold diff.entries { storage := st }

/-- Only the start of a GC job takes a file out of the obsolete ones or puts one there. -/
theorem sameFiles_transitFiles {event : FileEvent} {numbers : List UInt64} (hn : numbers.Nodup)
    (hkeeps : ∀ f ∈ numbers, ∀ file, st.files.lookup f = some file →
      (file.state.after event = .kObsolete ↔ file.state = .kObsolete)) :
    st.SameFiles (transitFiles event st numbers).storage := by
  have htransited := transited_transitFiles event hn st
  refine ⟨fun f => ?_, ?_⟩
  · rw [BlobStorage.fileStatus, BlobStorage.fileStatus]
    by_cases hf : f ∈ numbers
    · rw [htransited.lookup_mem f hf, Option.map_map]
      cases hfile : st.files.lookup f with
      | none => rfl
      | some file => simpa [BlobFileMeta.isObsolete] using hkeeps f hf file hfile
    · rw [htransited.lookup_other f hf]
  · have hfold : ∀ (numbers : List UInt64) (w : Walk),
        (numbers.foldl (transitFile event) w).storage.obsoleteFiles = w.storage.obsoleteFiles := by
      intro numbers
      induction numbers with
      | nil => exact fun w => rfl
      | cons number numbers ih =>
          intro w
          rw [List.foldl_cons, ih, transitFile]
          split
          · rfl
          · rfl
    exact hfold numbers { storage := st }

end Walk

/-! ## Sets -/

namespace BlobFileSet

/-- Every column family was there before, or is opened with an empty storage. -/
def Evolves (new : List UInt64) (s s' : BlobFileSet) : Prop :=
  ∀ cf st', s'.columnFamilies.lookup cf = some st' →
    ∃ st, (s.columnFamilies.lookup cf = some st ∨ ∃ options, st = .empty options) ∧
      st.Evolves new st'

variable {s mid s' : BlobFileSet} {new : List UInt64} {cf : UInt32} {st st' : BlobStorage}
  {o : MergeOptions}

theorem Evolves.refl (new : List UInt64) (s : BlobFileSet) : s.Evolves new s :=
  fun _ st h => ⟨st, Or.inl h, .refl new st⟩

theorem Evolves.trans (h : s.Evolves new mid) (h' : mid.Evolves new s') : s.Evolves new s' := by
  intro cf st' hst'
  obtain ⟨between, hbetween, hafter⟩ := h' cf st' hst'
  rcases hbetween with hbetween | hempty
  · obtain ⟨st, hst, hbefore⟩ := h cf between hbetween
    exact ⟨st, hst, hbefore.trans hafter⟩
  · exact ⟨between, Or.inr hempty, hafter⟩

theorem Evolves.of_eq (h : s'.columnFamilies = s.columnFamilies) (new : List UInt64) :
    s.Evolves new s' :=
  fun _ st hst => ⟨st, Or.inl (h ▸ hst), .refl new st⟩

theorem evolves_setStorage (hst : s.columnFamilies.lookup cf = some st) (h : st.Evolves new st') :
    s.Evolves new (s.setStorage cf st') := by
  intro g st'' hst''
  by_cases hg : g = cf
  · rw [hg, lookup_setStorage_self] at hst''
    obtain rfl := Option.some.inj hst''
    exact ⟨st, Or.inl (hg ▸ hst), h⟩
  · rw [lookup_setStorage_ne s st' hg] at hst''
    exact ⟨st'', Or.inl hst'', .refl new st''⟩

theorem evolves_onFlushCompleted (s : BlobFileSet) (cf : UInt32) (diff : SizeDiff) :
    s.Evolves [] (s.onFlushCompleted cf diff).1 := by
  rw [onFlushCompleted]
  split
  · exact .refl [] s
  · rename_i st hst
    have hwalk := Walk.aging_applyDiff_flushCompleted st diff
    have hsame := Walk.sameFiles_applyDiff Walk.sameFiles_flushCompleted st diff
    exact evolves_setStorage hst (hsame.evolves hwalk.ages (hsame.tidy hwalk.scores) [])

theorem evolves_onCompactionCompleted (hlevel : o.levelMerge = false) (s : BlobFileSet)
    (cf : UInt32) (outputLevel : ℤ) (diff : SizeDiff) (seq : ℕ) (io : ManifestIO) :
    s.Evolves [] (s.onCompactionCompleted o cf outputLevel diff seq io).1 := by
  rw [onCompactionCompleted]
  split
  · exact .refl [] s
  · rename_i st hst
    have hwalk :=
      Walk.aging_applyDiff_compactionCompleted o (countsSortedRun o st outputLevel) st diff
    rw [hlevel]
    have hsame := Walk.sameFiles_applyDiff
      (Walk.sameFiles_compactionCompleted hlevel (countsSortedRun o st outputLevel)) st diff
    exact evolves_setStorage hst (hsame.evolves_computeGCScore hwalk.ages [])

theorem evolves_deleteFilesInRanges (hlevel : o.levelMerge = false) (s : BlobFileSet) (cf : UInt32)
    (diff : SizeDiff) (seq : ℕ) (io : ManifestIO) :
    s.Evolves [] (s.deleteFilesInRanges o cf diff seq io).1 := by
  rw [deleteFilesInRanges]
  split
  · exact .refl [] s
  · rename_i st hst
    have hwalk : (Walk.applyDiff (Walk.tablesDeleted o) st diff).Aging st :=
      Walk.applyDiff_induction (P := fun _ w => w.Aging st) (Walk.local_tablesDeleted o) (.start st)
        fun _ w e _ _ h => h.tablesDeleted o e.1 e.2 fun file _ hmark => by
          rw [Walk.marksLive, hlevel] at hmark
          cases hmark
    rw [hlevel]
    have hsame := Walk.sameFiles_applyDiff (Walk.sameFiles_tablesDeleted hlevel) st diff
    exact evolves_setStorage hst (hsame.evolves_computeGCScore hwalk.ages [])

theorem evolves_rewriteDropped (st : BlobStorage) (dropped : List (UInt64 × UInt64)) :
    st.Evolves [] (rewriteDropped st dropped) := by
  induction dropped generalizing st with
  | nil => exact .refl [] st
  | cons d dropped ih =>
      rw [rewriteDropped, List.foldl_cons]
      split
      · exact ih st
      · rename_i file hfile
        have hset : st.SameFiles
            (st.setFile d.1 (file.updateLiveDataSize (castInt64 (0 - d.2)))) :=
          BlobStorage.sameFiles_setFile hfile rfl
        have hages := BlobStorage.ages_setFile hfile
          (file.ages_updateLiveDataSize (castInt64 (0 - d.2)))
        exact (hset.evolves_computeGCScore hages []).trans (ih _)

end BlobFileSet

/-! ## Edits -/

theorem CFEditCollector.scored_apply (c : CFEditCollector BlobFileMeta) (st : BlobStorage)
    (hok : (c.apply st).1.isOk) : (c.apply st).2.Scored ∧ (c.apply st).2.ScoresDistinct := by
  rw [CFEditCollector.apply] at hok ⊢
  generalize applyDeleted _ _ = result at hok ⊢
  obtain ⟨status, st'⟩ := result
  dsimp only at hok ⊢
  split_ifs at hok ⊢ with hstatus
  · exact ⟨BlobStorage.scored_computeGCScore st', st'.scoresDistinct_computeGCScore⟩
  · exact absurd hok hstatus

/-- The storages of an edit that has been applied. -/
theorem EditCollector.scored_applyTo {c : EditCollector BlobFileMeta} {cf : UInt32}
    {storages : BlobStorages} {st st' : BlobStorage} (hst : storages.lookup cf = some st)
    (hok : (c.applyTo [cf] storages).1.isOk)
    (hst' : (c.applyTo [cf] storages).2.lookup cf = some st') :
    st'.Scored ∧ st'.ScoresDistinct := by
  simp only [applyTo, hst] at hok hst'
  have hscored := CFEditCollector.scored_apply (c.columnFamilies cf) st
  generalize (c.columnFamilies cf).apply st = result at hok hst' hscored
  obtain ⟨status, applied⟩ := result
  dsimp only at hok hst' hscored
  split_ifs at hok hst' with hstatus
  · rw [AList.lookup_insert] at hst'
    rw [← Option.some.inj hst']
    exact hscored hstatus
  · exact absurd hok hstatus

/-- The storage that an edit has been applied to. -/
theorem AppliedExactly.evolves {edit : VersionEdit BlobFileMeta} {st st' : BlobStorage}
    (h : AppliedExactly edit st st') (hdeleted : (edit.deletedFiles.map (·.1)).Nodup)
    (hscored : st'.Scored) (hdistinct : st'.ScoresDistinct) :
    st.Evolves (edit.addedFiles.map (·.1)) st' := by
  refine ⟨fun ht => ⟨hdistinct, hscored, h.wellFormed hdeleted ht.wellFormed⟩, ?_⟩
  intro f file' hfile'
  by_cases hadded : f ∈ edit.addedFiles.map (·.1)
  · exact Or.inl hadded
  · have hfile : ∃ file, st.files.lookup f = some file := by
      by_cases hdel : f ∈ edit.deletedFiles.map (·.1)
      · obtain ⟨gone, hgone, rfl⟩ := List.mem_map.mp hdel
        obtain ⟨old, hold, -⟩ := h.deleted gone hgone hadded
        exact ⟨old, hold⟩
      · exact ⟨file', (h.other f (iff_of_false hadded hdel)).symm.trans hfile'⟩
    obtain ⟨file, hfile⟩ := hfile
    obtain ⟨aged, haged, hages⟩ := h.ages f file hfile
    obtain rfl := Option.some.inj (haged.symm.trans hfile')
    exact Or.inr ⟨file, hfile, hages.state.inGC⟩

namespace BlobFileSet

variable {s : BlobFileSet}

theorem scored_logAndApply {edit : VersionEdit BlobFileMeta} {io : ManifestIO} {st st' : BlobStorage}
    (hst : s.columnFamilies.lookup edit.columnFamilyId = some st) (hsync : io.sync.isOk)
    (hrecord : io.addRecord.isOk) (hok : (s.logAndApply edit io).1.isOk)
    (hst' : (s.logAndApply edit io).2.columnFamilies.lookup edit.columnFamilyId = some st') :
    st'.Scored ∧ st'.ScoresDistinct := by
  rw [logAndApply] at hok hst'
  cases hadd : EditCollector.empty.addEdit (s.withNext edit) with
  | error e =>
      rw [hadd] at hok
      cases (addEdit_errorsOnly _ _ e hadd).symm.trans hok
  | ok c =>
      simp only [hadd] at hok hst'
      cases hseal : c.sealIn [edit.columnFamilyId] s.columnFamilies with
      | error e =>
          rw [hseal] at hok
          cases (sealIn_errorsOnly _ _ _ e hseal).symm.trans hok
      | ok u =>
          simp only [hseal, hrecord, hsync, Bool.not_true, Bool.false_eq_true, if_false] at hok hst'
          exact EditCollector.scored_applyTo hst hok hst'

theorem evolves_logAndApply (s : BlobFileSet) (edit : VersionEdit BlobFileMeta) (io : ManifestIO) :
    s.Evolves (edit.addedFiles.map (·.1)) (s.logAndApply edit io).2 := by
  rcases s.logAndApply_cases edit io with ⟨-, hset, -⟩ | ⟨-, -, -, -, hset⟩ |
    ⟨haccepts, hrecord, hsync, hok, storages, happlies, hset⟩
  · exact .of_eq (by rw [hset]) _
  · exact .of_eq (by rw [hset]; rfl) _
  · obtain ⟨-, hdeleted, -⟩ := accepts_inv haccepts
    cases happlies with
    | unknown hnone => exact .of_eq (by rw [hset]) _
    | @known st st' hst hexact =>
        have hst' : (s.logAndApply edit io).2.columnFamilies.lookup edit.columnFamilyId =
            some st' := by
          rw [hset]
          exact AList.lookup_insert _
        obtain ⟨hscored, hdistinct⟩ := scored_logAndApply hst hsync hrecord hok hst'
        have hevolves := evolves_setStorage hst (hexact.evolves hdeleted hscored hdistinct)
        refine hevolves.trans (.of_eq ?_ _)
        rw [hset]
        rfl

theorem evolves_dropColumnFamilies (s : BlobFileSet) (seq : ℕ) (cfs : List (UInt32 × ManifestIO)) :
    s.Evolves [] (s.dropColumnFamilies seq cfs).2 := by
  induction cfs generalizing s with
  | nil => exact .refl [] s
  | cons e cfs ih =>
      obtain ⟨cf, io⟩ := e
      rw [dropColumnFamilies]
      split
      · exact .refl [] s
      · rename_i st hst
        have hone := evolves_logAndApply s (dropEdit cf st seq) io
        dsimp only
        generalize s.logAndApply (dropEdit cf st seq) io = result at hone ⊢
        split_ifs
        · exact hone
        · exact (hone.trans (.of_eq rfl [])).trans (ih _)

/-- A purge and the end of a column family. -/
theorem evolves_getObsoleteFiles (s : BlobFileSet) (oldestSequence : ℕ) :
    s.Evolves [] (s.getObsoleteFiles oldestSequence).2 := by
  intro cf st' hst'
  rw [(s.getObsoleteFiles_spec oldestSequence).2 cf, leftOf] at hst'
  split_ifs at hst' with hblocked
  · exact ⟨st', Or.inl hst', .refl [] st'⟩
  · obtain ⟨st, hst, hleft⟩ := Option.bind_eq_some_iff.mp hst'
    split_ifs at hleft
    obtain rfl := Option.some.inj hleft
    have hshrinks := st.shrinks_getObsoleteFiles oldestSequence
    have hscores : (st.getObsoleteFiles oldestSequence).2.gcScore = st.gcScore :=
      (BlobStorage.foldl_removeFile_frame _ st).1
    refine ⟨st, Or.inl hst, fun ht => ⟨?_, fun g hg => ?_, hshrinks.wf ht.wellFormed⟩, ?_⟩
    · rw [BlobStorage.ScoresDistinct, hscores]
      exact ht.distinct
    · rw [hscores] at hg
      obtain ⟨file, hfile, hlive⟩ := ht.scored g hg
      exact ⟨file, hshrinks.live ht.wellFormed g.fileNumber file hfile hlive, hlive⟩
    · exact fun f file hfile => Or.inr ⟨file, hshrinks.sub f file hfile, fun hgc => hgc⟩

theorem evolves_maybeDestroyColumnFamily (s : BlobFileSet) (cf : UInt32) :
    s.Evolves [] (s.maybeDestroyColumnFamily cf).2 := by
  intro c st' hst'
  rw [Journal.lookup_maybeDestroy] at hst'
  split_ifs at hst' with hc
  · obtain ⟨st, hst, hleft⟩ := Option.bind_eq_some_iff.mp hst'
    split_ifs at hleft
    obtain rfl := Option.some.inj hleft
    exact ⟨st, Or.inl (hc ▸ hst), fun ht => ⟨ht.distinct, ht.scored, ht.wellFormed.nodup,
      ht.wellFormed.obsolete⟩, fun f file hfile => Or.inr ⟨file, hfile, fun hgc => hgc⟩⟩
  · exact ⟨st', Or.inl hst', .refl [] st'⟩

theorem evolves_addColumnFamilies (s : BlobFileSet) (cf : UInt32) (options : TitanCFOptions) :
    s.Evolves [] (s.addColumnFamilies [(cf, options)]) := by
  intro g st' hst'
  rw [lookup_addColumnFamilies] at hst'
  rcases Option.or_eq_some_iff.mp hst' with hold | ⟨-, hnew⟩
  · exact ⟨st', Or.inl hold, .refl [] st'⟩
  · split_ifs at hnew
    exact ⟨st', Or.inr ⟨options, (Option.some.inj hnew).symm⟩, .refl [] st'⟩

end BlobFileSet

end AegonKV
