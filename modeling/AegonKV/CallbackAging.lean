import AegonKV.FileAging

/-!
# When the callbacks age the files

`OnCompactionCompleted` puts a file that it completes into `to_merge_candidates` even where the file
has no live data and is deleted by the same callback. `DeleteFilesInRanges` marks a file without a
look at its state. Apart from these two, the callbacks only age the files.
-/

namespace AegonKV

namespace Walk

/-- The callback completes a new file that has no live data. -/
def completesEmpty (st : BlobStorage) (e : (_ : UInt64) × ℤ) : Bool :=
  (st.files.lookup e.1).any fun file =>
    file.state = .kPendingLSM && decide (0 < e.2) && (file.settle e.2).noLiveData

/-- The callback puts the file into `to_merge_candidates`. -/
def becomesCandidate (o : MergeOptions) (countSortedRun : Bool) (st : BlobStorage)
    (e : (_ : UInt64) × ℤ) : Bool :=
  (st.files.lookup e.1).any fun file =>
    match file.state with
    | .kPendingLSM => decide (0 < e.2)
    | .kNormal | .kToMerge =>
      o.levelMerge && !(file.updateLiveDataSize e.2).noLiveData &&
        !needsMerge st.cfOptions (file.updateLiveDataSize e.2) && countSortedRun
    | _ => false

def candidatesOf (o : MergeOptions) (countSortedRun : Bool) (st : BlobStorage) (diff : SizeDiff) :
    List UInt64 :=
  (diff.entries.filter (becomesCandidate o countSortedRun st)).map (·.1)

variable {o : MergeOptions} {countSortedRun : Bool} {st : BlobStorage} {w : Walk}
  {f number : UInt64} {file : BlobFileMeta} {delta : ℤ}

/-! ## Candidates -/

theorem candidates_pendingCompacted (w : Walk) (number : UInt64) (file : BlobFileMeta)
    (delta : ℤ) : (w.pendingCompacted number file delta).candidates =
      w.candidates ++ if 0 < delta then [number] else [] := by
  rw [pendingCompacted]
  by_cases hdelta : delta ≤ 0
  · rw [if_pos hdelta, if_neg (by omega), List.append_nil]
    rfl
  · rw [if_neg hdelta, if_pos (by omega)]
    dsimp only
    split
    · rfl
    · rfl

theorem candidates_liveCompacted (o : MergeOptions) (countSortedRun : Bool) (w : Walk)
    (number : UInt64) (file : BlobFileMeta) (delta : ℤ) :
    (liveCompacted o countSortedRun w number file delta).candidates = w.candidates ++
      if o.levelMerge && !(file.updateLiveDataSize delta).noLiveData &&
        !needsMerge w.storage.cfOptions (file.updateLiveDataSize delta) && countSortedRun
      then [number] else [] := by
  have hoptions : (w.setFile number (file.updateLiveDataSize delta)).storage.cfOptions =
      w.storage.cfOptions := rfl
  rw [liveCompacted, hoptions]
  cases o.levelMerge with
  | false => exact (List.append_nil _).symm
  | true =>
      cases (file.updateLiveDataSize delta).noLiveData with
      | true => exact (List.append_nil _).symm
      | false =>
          cases needsMerge w.storage.cfOptions (file.updateLiveDataSize delta) with
          | true => exact (List.append_nil _).symm
          | false =>
              cases countSortedRun with
              | false => exact (List.append_nil _).symm
              | true => rfl

theorem candidates_compactionCompleted (o : MergeOptions) (countSortedRun : Bool) (w : Walk)
    (number : UInt64) (delta : ℤ) :
    (compactionCompleted o countSortedRun w number delta).candidates = w.candidates ++
      if becomesCandidate o countSortedRun w.storage ⟨number, delta⟩ then [number] else [] := by
  rw [compactionCompleted, becomesCandidate]
  cases hfile : w.storage.files.lookup number with
  | none => exact (List.append_nil _).symm
  | some file =>
      dsimp only
      rw [Option.any_some]
      cases hstate : file.state with
      | kPendingLSM =>
          dsimp only
          rw [candidates_pendingCompacted]
          simp only [decide_eq_true_eq]
      | kNormal => exact candidates_liveCompacted o countSortedRun w number file delta
      | kToMerge => exact candidates_liveCompacted o countSortedRun w number file delta
      | kInit => exact (List.append_nil _).symm
      | kBeingGC => exact (List.append_nil _).symm
      | kPendingGC => exact (List.append_nil _).symm
      | kObsolete => exact (List.append_nil _).symm

theorem cfOptions_compactionCompleted (o : MergeOptions) (countSortedRun : Bool) (w : Walk)
    (number : UInt64) (delta : ℤ) :
    (compactionCompleted o countSortedRun w number delta).storage.cfOptions =
      w.storage.cfOptions := by
  rw [compactionCompleted]
  split
  · rfl
  · split
    · rw [pendingCompacted]
      dsimp only
      split_ifs <;> rfl
    · rw [liveCompacted]
      split_ifs <;> rfl
    · rw [liveCompacted]
      split_ifs <;> rfl
    · rfl

theorem cfOptions_tablesDeleted (o : MergeOptions) (w : Walk) (number : UInt64) (delta : ℤ) :
    (tablesDeleted o w number delta).storage.cfOptions = w.storage.cfOptions := by
  rw [tablesDeleted]
  split
  · rfl
  · dsimp only
    split_ifs <;> rfl

theorem candidates_applyDiff (o : MergeOptions) (countSortedRun : Bool) (st : BlobStorage)
    (diff : SizeDiff) : (applyDiff (compactionCompleted o countSortedRun) st diff).candidates =
      candidatesOf o countSortedRun st diff := by
  have hboth : (applyDiff (compactionCompleted o countSortedRun) st diff).candidates =
        candidatesOf o countSortedRun st diff ∧
      (applyDiff (compactionCompleted o countSortedRun) st diff).storage.cfOptions = st.cfOptions := by
    refine applyDiff_induction
      (P := fun done w => w.candidates =
          (done.filter (becomesCandidate o countSortedRun st)).map (·.1) ∧
        w.storage.cfOptions = st.cfOptions)
      (local_compactionCompleted o countSortedRun) ⟨rfl, rfl⟩ ?_
    rintro done w e - hsame ⟨hcandidates, hoptions⟩
    have hbecomes : becomesCandidate o countSortedRun w.storage e =
        becomesCandidate o countSortedRun st e := by
      rw [becomesCandidate, becomesCandidate, hsame, hoptions]
    refine ⟨?_, (cfOptions_compactionCompleted _ _ _ _ _).trans hoptions⟩
    rw [candidates_compactionCompleted, hcandidates, List.filter_append, List.map_append]
    have he : (⟨e.1, e.2⟩ : (_ : UInt64) × ℤ) = e := rfl
    rw [he, hbecomes]
    cases hb : becomesCandidate o countSortedRun st e with
    | false => simp [hb]
    | true => simp [hb]
  exact hboth.1

/-- The file can be marked after the walk, unless its deletion gets applied before. -/
structure LeavesCandidate (st : BlobStorage) (f : UInt64) (delta : ℤ) (w : Walk) : Prop where
  markable : ∃ file, w.storage.files.lookup f = some file ∧
    (file.state = .kNormal ∨ file.state = .kToMerge)
  deleted : f ∈ w.deleted → completesEmpty st ⟨f, delta⟩ = true

theorem LeavesCandidate.pendingCompacted (hd : f ∉ w.deleted)
    (hfile : w.storage.files.lookup f = some file) (hstate : file.state = .kPendingLSM)
    (hdelta : 0 < delta) : LeavesCandidate w.storage f delta (w.pendingCompacted f file delta) := by
  have hself := w.storage.lookup_setFile_self f
    { file.settle delta with state := (file.settle delta).state.after .kCompactionCompleted }
  rw [Walk.pendingCompacted, if_neg (by omega)]
  dsimp only
  split_ifs with hnone
  · refine ⟨⟨_, hself, Or.inl rfl⟩, fun _ => ?_⟩
    rw [completesEmpty, hfile, Option.any_some, hstate, hnone]
    simpa using hdelta
  · exact ⟨⟨_, hself, Or.inl rfl⟩, fun h => absurd h hd⟩

theorem LeavesCandidate.liveCompacted (hd : f ∉ w.deleted) (hc : f ∉ w.candidates)
    (hstate : file.state = .kNormal ∨ file.state = .kToMerge)
    (h : f ∈ (liveCompacted o countSortedRun w f file delta).candidates) :
    LeavesCandidate w.storage f delta (liveCompacted o countSortedRun w f file delta) := by
  rw [Walk.liveCompacted] at h ⊢
  split_ifs at h ⊢
  · exact absurd h hc
  · exact absurd h hc
  · exact absurd h hc
  · exact ⟨⟨_, w.storage.lookup_setFile_self f _, hstate⟩, fun h => absurd h hd⟩
  · exact absurd h hc

theorem LeavesCandidate.compactionCompleted (hd : f ∉ w.deleted) (hc : f ∉ w.candidates)
    (h : f ∈ (compactionCompleted o countSortedRun w f delta).candidates) :
    LeavesCandidate w.storage f delta (compactionCompleted o countSortedRun w f delta) := by
  rw [Walk.compactionCompleted] at h ⊢
  cases hfile : w.storage.files.lookup f with
  | none =>
      simp only [hfile] at h
      exact absurd h hc
  | some file =>
      simp only [hfile] at h ⊢
      split at h
      · rename_i hstate
        rw [candidates_pendingCompacted] at h
        have hdelta : 0 < delta := by
          by_contra hneg
          rw [if_neg hneg, List.append_nil] at h
          exact hc h
        exact .pendingCompacted hd hfile hstate hdelta
      · exact .liveCompacted hd hc (Or.inl ‹_›) h
      · exact .liveCompacted hd hc (Or.inr ‹_›) h
      · exact absurd h hc

/-- The candidates of a whole walk. -/
theorem leavesCandidate_applyDiff {diff : SizeDiff}
    (h : f ∈ (applyDiff (compactionCompleted o countSortedRun) st diff).candidates) :
    ∃ delta, diff.lookup f = some delta ∧
      LeavesCandidate st f delta (applyDiff (compactionCompleted o countSortedRun) st diff) := by
  have hlocal := local_compactionCompleted o countSortedRun
  cases hlookup : diff.lookup f with
  | none => exact absurd ((applyDiff_of_lookup_none hlocal st hlookup).candidates.mp h) List.not_mem_nil
  | some delta =>
      obtain ⟨w, hbefore, hafter⟩ := applyDiff_of_lookup_some hlocal st hlookup
      have hd : f ∉ w.deleted := fun hf => (by cases hbefore.deleted.mp hf)
      have hc : f ∉ w.candidates := fun hf => (by cases hbefore.candidates.mp hf)
      have hone := LeavesCandidate.compactionCompleted hd hc (hafter.candidates.mp h)
      refine ⟨delta, rfl, ?_, fun hf => ?_⟩
      · rw [hafter.lookup]
        exact hone.markable
      · have hempty := hone.deleted (hafter.deleted.mp hf)
        rwa [completesEmpty, hbefore.lookup] at hempty

theorem exists_of_mem_candidatesOf {diff : SizeDiff}
    (h : f ∈ candidatesOf o countSortedRun st diff) : ∃ file, st.files.lookup f = some file := by
  obtain ⟨e, he, rfl⟩ := List.mem_map.mp h
  have hcandidate := (List.mem_filter.mp he).2
  cases hfile : st.files.lookup e.1 with
  | none =>
      rw [becomesCandidate, hfile] at hcandidate
      cases hcandidate
  | some file => exact ⟨file, rfl⟩

/-- The sweep reads of its candidates what never changes. -/
theorem ranges_ages {st' : BlobStorage} (diff : SizeDiff) (h : st.Ages st') :
    ranges st' (candidatesOf o countSortedRun st diff) =
      ranges st (candidatesOf o countSortedRun st diff) := by
  refine List.filterMap_congr fun f hf => ?_
  obtain ⟨file, hfile⟩ := exists_of_mem_candidatesOf hf
  obtain ⟨file', hfile', hages⟩ := h f file hfile
  rw [hfile, hfile', Option.map_some, Option.map_some, hages.smallestKey, hages.largestKey]

/-! ## Whole loops -/

theorem aging_applyDiff_flushCompleted (st : BlobStorage) (diff : SizeDiff) :
    (applyDiff flushCompleted st diff).Aging st :=
  applyDiff_induction (P := fun _ w => w.Aging st) local_flushCompleted (.start st)
    fun _ _ e _ _ h => h.flushCompleted e.1 e.2

theorem aging_applyDiff_compactionCompleted (o : MergeOptions) (countSortedRun : Bool)
    (st : BlobStorage) (diff : SizeDiff) :
    (applyDiff (compactionCompleted o countSortedRun) st diff).Aging st :=
  applyDiff_induction (P := fun _ w => w.Aging st) (local_compactionCompleted o countSortedRun)
    (.start st) fun _ _ e _ _ h => h.compactionCompleted o countSortedRun e.1 e.2

end Walk

/-! ## The callbacks -/

namespace BlobFileSet

variable {s : BlobFileSet} {cf : UInt32} {st : BlobStorage} {diff : SizeDiff}

theorem aging_onFlushCompleted (s : BlobFileSet) (cf : UInt32) (diff : SizeDiff) :
    Aging s (s.onFlushCompleted cf diff).1 (s.onFlushCompleted cf diff).2 := by
  rw [onFlushCompleted]
  split
  · exact .refl s
  · rename_i st hst
    exact .setWalk hst (Walk.aging_applyDiff_flushCompleted st diff)

theorem Aging.setWalkScored {w : Walk} (hst : s.columnFamilies.lookup cf = some st)
    (h : w.Aging st) : Aging s (s.setStorage cf w.storage.computeGCScore) w.calls :=
  .setStorage hst h.ages (fun _ => w.storage.scoresDistinct_computeGCScore) h.safe

/-- The callback completes a file without live data, deletes it, and finds it among the files to
merge. -/
def MarksDeleted (o : MergeOptions) (s : BlobFileSet) (cf : UInt32) (outputLevel : ℤ)
    (diff : SizeDiff) (io : ManifestIO) : Prop :=
  o.levelMerge = true ∧ cf = 0 ∧ io.addRecord.isOk = true ∧ io.sync.isOk = true ∧
    ∃ st, s.columnFamilies.lookup cf = some st ∧ ∃ e ∈ diff.entries,
      Walk.completesEmpty st e = true ∧ e.1 ∈ mergeMarks (Walk.ranges st
        (Walk.candidatesOf o (countsSortedRun o st outputLevel) st diff)) o.maxSortedRuns

theorem aging_onCompactionCompleted {o : MergeOptions} {outputLevel : ℤ} {io : ManifestIO}
    (seq : ℕ) (h : ¬ MarksDeleted o s cf outputLevel diff io) :
    Aging s (s.onCompactionCompleted o cf outputLevel diff seq io).1
      (s.onCompactionCompleted o cf outputLevel diff seq io).2 := by
  rw [onCompactionCompleted]
  split
  · exact .refl s
  · rename_i st hst
    set w := Walk.applyDiff (Walk.compactionCompleted o (countsSortedRun o st outputLevel)) st diff
      with hw
    have hwalk : w.Aging st :=
      Walk.aging_applyDiff_compactionCompleted o (countsSortedRun o st outputLevel) st diff
    dsimp only
    split_ifs with hlevel
    · exact .setWalkScored hst hwalk
    · have hset : Aging s (s.setStorage cf w.storage) w.calls := .setWalk hst hwalk
      have happlied := hset.trans (aging_logAndApply (s.setStorage cf w.storage) (mergeEdit w seq) io)
      split
      · exact happlied
      · rename_i st' hst'
        refine happlied.trans (.setWalk hst' ?_)
        refine Walk.aging_foldl_needMerge (.start st') fun f hf file' hfile' => ?_
        have hcandidate : f ∈ w.candidates :=
          Walk.ranges_subset st' w.candidates (mergeMarks_subset _ _ hf)
        obtain ⟨delta, hdelta, hleaves⟩ := Walk.leavesCandidate_applyDiff hcandidate
        obtain ⟨file, hfile, hstate⟩ := hleaves.markable
        obtain ⟨new, hnew, heq⟩ := fileOf_logAndApply (mergeEdit w seq) io
          ((s.fileOf_setStorage cf w.storage f).trans hfile)
        rw [fileOf, hst', Option.bind_some, hfile'] at hnew
        obtain rfl := Option.some.inj hnew
        rcases heq with rfl | ⟨hmem, hcf, hrecord, hsync, -⟩
        · exact hstate
        · -- The file is deleted and marked, so the callback completed it without live data.
          have hdeleted : f ∈ w.deleted := by simpa [mergeEdit] using hmem
          obtain ⟨st'', hst'', hages⟩ := happlied.ages cf st hst
          obtain rfl := Option.some.inj (hst'.symm.trans hst'')
          rw [hw, Walk.candidates_applyDiff, Walk.ranges_ages diff hages] at hf
          refine absurd ⟨by simpa using hlevel, hcf, hrecord, hsync, st, hst, ⟨f, delta⟩,
            AList.mem_lookup_iff.mp hdelta, hleaves.deleted hdeleted, hf⟩ h

/-- The call marks a file for merge that is neither normal nor marked. -/
def MarksUnmergeable (o : MergeOptions) (s : BlobFileSet) (cf : UInt32) (diff : SizeDiff) : Prop :=
  ∃ st, s.columnFamilies.lookup cf = some st ∧ ∃ e ∈ diff.entries, ∃ file,
    st.files.lookup e.1 = some file ∧ Walk.marksLive o st.cfOptions file e.2 = true ∧
      ¬ (file.state = .kNormal ∨ file.state = .kToMerge)

theorem aging_deleteFilesInRanges {o : MergeOptions} (seq : ℕ) (io : ManifestIO)
    (h : ¬ MarksUnmergeable o s cf diff) :
    Aging s (s.deleteFilesInRanges o cf diff seq io).1
      (s.deleteFilesInRanges o cf diff seq io).2 := by
  rw [deleteFilesInRanges]
  split
  · exact .refl s
  · rename_i st hst
    set w := Walk.applyDiff (Walk.tablesDeleted o) st diff with hw
    have hboth : w.Aging st ∧ w.storage.cfOptions = st.cfOptions := by
      refine Walk.applyDiff_induction
        (P := fun _ w => w.Aging st ∧ w.storage.cfOptions = st.cfOptions)
        (Walk.local_tablesDeleted o) ⟨.start st, rfl⟩ ?_
      rintro done w e he hsame ⟨hwalk, hoptions⟩
      refine ⟨?_, (Walk.cfOptions_tablesDeleted o w e.1 e.2).trans hoptions⟩
      refine hwalk.tablesDeleted o e.1 e.2 fun file hfile hmark => ?_
      by_contra hstate
      rw [hsame] at hfile
      rw [hoptions] at hmark
      exact h ⟨st, hst, e, he, file, hfile, hmark, hstate⟩
    dsimp only
    split_ifs with hlevel
    · exact .setWalkScored hst hboth.1
    · exact (Aging.setWalk hst hboth.1).trans (aging_logAndApply _ (mergeEdit w seq) io)

theorem aging_obsoleteColumns (s : BlobFileSet) (columns : List UInt32) :
    Aging s { s with obsoleteColumns := columns } [] :=
  ⟨fun _ st h => ⟨st, h, .refl st⟩, fun h => h, fun c hc => (by cases hc)⟩

theorem aging_dropColumnFamilies (s : BlobFileSet) (seq : ℕ) (cfs : List (UInt32 × ManifestIO)) :
    Aging s (s.dropColumnFamilies seq cfs).2 (s.dropCalls seq cfs) := by
  induction cfs generalizing s with
  | nil => exact .refl s
  | cons e cfs ih =>
      obtain ⟨cf, io⟩ := e
      rw [dropColumnFamilies, dropCalls]
      cases hst : s.columnFamilies.lookup cf with
      | none => exact .refl s
      | some st =>
          have hone := aging_logAndApply s (dropEdit cf st seq) io
          dsimp only
          generalize s.logAndApply (dropEdit cf st seq) io = result at hone ⊢
          obtain ⟨status, s'⟩ := result
          dsimp only at hone ⊢
          split_ifs
          · rw [List.append_nil]
            exact hone
          · have hcolumns := hone.trans (aging_obsoleteColumns s' (cf :: s'.obsoleteColumns))
            rw [List.append_nil] at hcolumns
            exact hcolumns.trans (ih _)

theorem aging_rewriteDropped (st : BlobStorage) (dropped : List (UInt64 × UInt64)) :
    st.Ages (rewriteDropped st dropped) ∧
      (st.ScoresDistinct → (rewriteDropped st dropped).ScoresDistinct) := by
  induction dropped generalizing st with
  | nil => exact ⟨.refl st, fun h => h⟩
  | cons d dropped ih =>
      rw [rewriteDropped, List.foldl_cons]
      split
      · exact ih st
      · rename_i file hfile
        obtain ⟨hages, hscores⟩ := ih
          (st.setFile d.1 (file.updateLiveDataSize (castInt64 (0 - d.2)))).computeGCScore
        have hone : st.Ages
            (st.setFile d.1 (file.updateLiveDataSize (castInt64 (0 - d.2)))).computeGCScore :=
          BlobStorage.ages_setFile hfile (file.ages_updateLiveDataSize _)
        exact ⟨hone.trans hages,
          fun _ => hscores (BlobStorage.scoresDistinct_computeGCScore _)⟩

end BlobFileSet

end AegonKV
