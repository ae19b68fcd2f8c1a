import AegonKV.GcLifecycle

/-!
# How files age

Between the events of a GC job a file only ages: it leaves `kPendingLSM`, is marked for merge or
becomes obsolete, and keeps its keys. Everything but the start and the end of a GC job ages the
files of a set and makes calls whose assertions hold.
-/

namespace AegonKV

/-! ## Ages -/

inductive FileState.Ages : FileState → FileState → Prop
  | refl (state : FileState) : Ages state state
  | obsolete (state : FileState) : Ages state .kObsolete
  | complete : Ages .kPendingLSM .kNormal
  | completeMark : Ages .kPendingLSM .kToMerge
  | mark : Ages .kNormal .kToMerge

theorem FileState.Ages.trans {a b c : FileState} (h : a.Ages b) (h' : b.Ages c) : a.Ages c := by
  cases h with
  | refl => exact h'
  | obsolete =>
      cases h' with
      | refl => exact .obsolete a
      | obsolete => exact .obsolete a
  | complete =>
      cases h' with
      | refl => exact .complete
      | obsolete => exact .obsolete _
      | mark => exact .completeMark
  | completeMark =>
      cases h' with
      | refl => exact .completeMark
      | obsolete => exact .obsolete _
  | mark =>
      cases h' with
      | refl => exact .mark
      | obsolete => exact .obsolete _

structure BlobFileMeta.Ages (file file' : BlobFileMeta) : Prop where
  state : file.state.Ages file'.state
  smallestKey : file'.smallestKey = file.smallestKey
  largestKey : file'.largestKey = file.largestKey

theorem BlobFileMeta.Ages.refl (file : BlobFileMeta) : file.Ages file := ⟨.refl _, rfl, rfl⟩

theorem BlobFileMeta.Ages.trans {a b c : BlobFileMeta} (h : a.Ages b) (h' : b.Ages c) : a.Ages c :=
  ⟨h.state.trans h'.state, h'.smallestKey.trans h.smallestKey, h'.largestKey.trans h.largestKey⟩

theorem BlobFileMeta.ages_updateLiveDataSize (file : BlobFileMeta) (delta : ℤ) :
    file.Ages (file.updateLiveDataSize delta) := ⟨.refl _, rfl, rfl⟩

/-- Every file is still there, and older. -/
def BlobStorage.Ages (st st' : BlobStorage) : Prop :=
  ∀ f file, st.files.lookup f = some file → ∃ file', st'.files.lookup f = some file' ∧
    file.Ages file'

theorem BlobStorage.Ages.refl (st : BlobStorage) : st.Ages st :=
  fun _ file h => ⟨file, h, .refl file⟩

theorem BlobStorage.Ages.trans {a b c : BlobStorage} (h : a.Ages b) (h' : b.Ages c) : a.Ages c := by
  intro f file hfile
  obtain ⟨file', hfile', hages⟩ := h f file hfile
  obtain ⟨file'', hfile'', hages'⟩ := h' f file' hfile'
  exact ⟨file'', hfile'', hages.trans hages'⟩

theorem BlobStorage.ages_setFile {st : BlobStorage} {number : UInt64} {old file : BlobFileMeta}
    (h : st.files.lookup number = some old) (hages : old.Ages file) :
    st.Ages (st.setFile number file) := by
  intro f file' hfile'
  by_cases hf : f = number
  · subst hf
    obtain rfl := Option.some.inj (h.symm.trans hfile')
    exact ⟨file, st.lookup_setFile_self f file, hages⟩
  · exact ⟨file', (st.lookup_setFile_ne file hf).trans hfile', .refl file'⟩

/-- The entries of `gc_score_` name distinct files. -/
def BlobStorage.ScoresDistinct (st : BlobStorage) : Prop := (st.gcScore.map (·.fileNumber)).Nodup

theorem BlobStorage.scoresDistinct_computeGCScore (st : BlobStorage) :
    st.computeGCScore.ScoresDistinct := by
  have hperm : (st.computeGCScore.gcScore.map (·.fileNumber)).Perm
      ((st.files.entries.filter fun e => !e.2.isObsolete).map (·.1)) := by
    have hsort := (List.mergeSort_perm
      ((st.files.entries.filter fun e => !e.2.isObsolete).map fun e =>
        (⟨e.1, st.score e.2⟩ : GCScore)) fun a b => !decide (a.score < b.score)).map
      (·.fileNumber)
    rwa [List.map_map] at hsort
  rw [ScoresDistinct, hperm.nodup_iff]
  exact List.NodupKeys.sublist List.filter_sublist st.files.nodupKeys

/-! ## Walks -/

/-- A walk that has aged the files of a storage with safe calls. -/
structure Walk.Aging (st : BlobStorage) (w : Walk) : Prop where
  ages : st.Ages w.storage
  scores : w.storage.gcScore = st.gcScore
  safe : ∀ c ∈ w.calls, c.Safe

namespace Walk

variable {st : BlobStorage} {w : Walk} {number : UInt64} {old file : BlobFileMeta}

theorem Aging.start (st : BlobStorage) : Aging st { storage := st } :=
  ⟨.refl st, rfl, fun c hc => (by cases hc)⟩

theorem Aging.setFile (h : Aging st w) (hold : w.storage.files.lookup number = some old)
    (hages : old.Ages file) : Aging st (w.setFile number file) :=
  ⟨h.ages.trans (BlobStorage.ages_setFile hold hages), h.scores, h.safe⟩

theorem Aging.transit {event : FileEvent} (h : Aging st w)
    (hold : w.storage.files.lookup number = some old)
    (hages : old.Ages { file with state := file.state.after event })
    (hsafe : TransitCall.Safe ⟨number, file.state, event⟩) :
    Aging st (w.transit number file event) where
  ages := h.ages.trans (BlobStorage.ages_setFile hold hages)
  scores := h.scores
  safe c hc := by
    rcases List.mem_append.mp hc with hc | hc
    · exact h.safe c hc
    · rw [List.mem_singleton.mp hc]
      exact hsafe

theorem Aging.deleteBlobFile (h : Aging st w) (number : UInt64) :
    Aging st (w.deleteBlobFile number) := ⟨h.ages, h.scores, h.safe⟩

theorem Aging.addCandidate (h : Aging st w) (number : UInt64) :
    Aging st (w.addCandidate number) := ⟨h.ages, h.scores, h.safe⟩

theorem Aging.needMerge (h : Aging st w) (hold : w.storage.files.lookup number = some old)
    (hages : old.Ages file) (hstate : file.state = .kNormal ∨ file.state = .kToMerge) :
    Aging st (w.transit number file .kNeedMerge) := by
  rcases hstate with hstate | hstate
  · refine h.transit hold (hages.trans ⟨?_, rfl, rfl⟩) ?_
    · rw [hstate]
      exact .mark
    · rw [hstate]
      exact ⟨rfl, fun h => (by cases h)⟩
  · refine h.transit hold (hages.trans ⟨?_, rfl, rfl⟩) ?_
    · rw [hstate]
      exact .refl _
    · rw [hstate]
      exact ⟨rfl, fun h => (by cases h)⟩

theorem Aging.flushCompleted (h : Aging st w) (number : UInt64) (delta : ℤ) :
    Aging st (w.flushCompleted number delta) := by
  rw [Walk.flushCompleted]
  split
  · exact h
  · rename_i file hfile
    split
    · exact h
    · rename_i hstate
      have hpending : file.state = .kPendingLSM := by simpa using hstate
      refine h.transit hfile ⟨?_, rfl, rfl⟩ ?_
      · change file.state.Ages (file.state.after .kFlushCompleted)
        rw [hpending]
        exact .complete
      · change TransitCall.Safe ⟨number, file.state, .kFlushCompleted⟩
        rw [hpending]
        exact ⟨rfl, fun h => (by cases h)⟩

theorem Aging.pendingCompacted (h : Aging st w) (hfile : w.storage.files.lookup number = some file)
    (hpending : file.state = .kPendingLSM) (delta : ℤ) :
    Aging st (w.pendingCompacted number file delta) := by
  rw [Walk.pendingCompacted]
  split
  · exact h.setFile hfile (file.ages_updateLiveDataSize _)
  · have htransit : Aging st (w.transit number (file.settle delta) .kCompactionCompleted) := by
      refine h.transit hfile ⟨?_, rfl, rfl⟩ ?_
      · change file.state.Ages (file.state.after .kCompactionCompleted)
        rw [hpending]
        exact .complete
      · change TransitCall.Safe ⟨number, file.state, .kCompactionCompleted⟩
        rw [hpending]
        exact ⟨rfl, fun h => (by cases h)⟩
    dsimp only
    split
    · exact (htransit.deleteBlobFile number).addCandidate number
    · exact htransit.addCandidate number

theorem Aging.liveCompacted (o : MergeOptions) (countSortedRun : Bool) (h : Aging st w)
    (hfile : w.storage.files.lookup number = some file)
    (hstate : file.state = .kNormal ∨ file.state = .kToMerge) (delta : ℤ) :
    Aging st (liveCompacted o countSortedRun w number file delta) := by
  have hset := h.setFile hfile (file.ages_updateLiveDataSize delta)
  have hself := w.storage.lookup_setFile_self number (file.updateLiveDataSize delta)
  rw [Walk.liveCompacted]
  split_ifs
  · exact hset
  · exact hset.deleteBlobFile number
  · exact hset.needMerge hself (.refl _) hstate
  · exact hset.addCandidate number
  · exact hset

theorem Aging.compactionCompleted (o : MergeOptions) (countSortedRun : Bool) (h : Aging st w)
    (number : UInt64) (delta : ℤ) :
    Aging st (compactionCompleted o countSortedRun w number delta) := by
  rw [Walk.compactionCompleted]
  split
  · exact h
  · rename_i file hfile
    split
    · exact h.pendingCompacted hfile ‹_› delta
    · exact h.liveCompacted o countSortedRun hfile (Or.inl ‹_›) delta
    · exact h.liveCompacted o countSortedRun hfile (Or.inr ‹_›) delta
    · exact h

/-- A round of `DeleteFilesInRanges` marks the file for merge. -/
def marksLive (o : MergeOptions) (options : TitanCFOptions) (file : BlobFileMeta) (delta : ℤ) :
    Bool :=
  o.levelMerge && !file.isObsolete && !(file.updateLiveDataSize delta).noLiveData &&
    decide ((file.updateLiveDataSize delta).getDiscardableRatio > options.blobFileDiscardableRatio)

theorem Aging.tablesDeleted (o : MergeOptions) (h : Aging st w) (number : UInt64) (delta : ℤ)
    (hmark : ∀ file, w.storage.files.lookup number = some file →
      marksLive o w.storage.cfOptions file delta = true →
      file.state = .kNormal ∨ file.state = .kToMerge) :
    Aging st (tablesDeleted o w number delta) := by
  rw [Walk.tablesDeleted]
  split
  · exact h
  · rename_i file hfile
    have hset := h.setFile hfile (file.ages_updateLiveDataSize delta)
    have hself := w.storage.lookup_setFile_self number (file.updateLiveDataSize delta)
    dsimp only
    split_ifs with hobsolete hlevel hlive hratio
    · exact h
    · exact hset
    · exact hset.deleteBlobFile number
    · refine hset.needMerge hself (.refl _) (hmark file hfile ?_)
      have hratio' : (file.updateLiveDataSize delta).getDiscardableRatio >
          w.storage.cfOptions.blobFileDiscardableRatio := hratio
      simp [marksLive, hobsolete, hlive, hratio', Bool.eq_true_of_not_eq_false,
        (by simpa using hlevel : o.levelMerge = true)]
    · exact hset

/-- The rounds of a walk see each file as the storage had it. -/
theorem applyDiff_induction {round : Walk → UInt64 → ℤ → Walk}
    {P : List ((_ : UInt64) × ℤ) → Walk → Prop} (hlocal : Local round) {diff : SizeDiff}
    (h0 : P [] { storage := st })
    (hround : ∀ done w e, e ∈ diff.entries → w.storage.files.lookup e.1 = st.files.lookup e.1 →
      P done w → P (done ++ [e]) (round w e.1 e.2)) : P diff.entries (applyDiff round st diff) := by
  have hfold : ∀ (es done : List ((_ : UInt64) × ℤ)) (w : Walk), (es.map (·.1)).Nodup →
      (∀ e ∈ es, e ∈ diff.entries) →
      (∀ e ∈ es, w.storage.files.lookup e.1 = st.files.lookup e.1) → P done w →
      P (done ++ es) (es.foldl (fun w e => round w e.1 e.2) w) := by
    intro es
    induction es with
    | nil =>
        intro done w _ _ _ h
        rwa [List.append_nil]
    | cons e es ih =>
        intro done w hn hmem hsame h
        rw [List.map_cons] at hn
        obtain ⟨hnot, hn⟩ := List.nodup_cons.mp hn
        have hnext := ih (done ++ [e]) (round w e.1 e.2) hn
          (fun e he => hmem e (List.mem_cons_of_mem _ he)) (fun e' he' => ?_)
          (hround done w e (hmem e List.mem_cons_self) (hsame e List.mem_cons_self) h)
        · rwa [List.append_assoc, List.singleton_append] at hnext
        · have hne : e'.1 ≠ e.1 := fun heq => hnot (heq ▸ List.mem_map_of_mem he')
          rw [(hlocal w e.1 e.2 e'.1 hne).lookup]
          exact hsame e' (List.mem_cons_of_mem _ he')
  exact hfold diff.entries [] _ diff.nodupKeys (fun _ h => h) (fun _ _ => rfl) h0

end Walk

/-! ## Sets -/

namespace BlobFileSet

variable {s s' s'' : BlobFileSet} {calls calls' : List TransitCall}

/-- What all but the events of a GC job do to the storages. -/
structure Aging (s s' : BlobFileSet) (calls : List TransitCall) : Prop where
  ages : ∀ cf st, s.columnFamilies.lookup cf = some st →
    ∃ st', s'.columnFamilies.lookup cf = some st' ∧ st.Ages st'
  scores : (∀ cf st, s.columnFamilies.lookup cf = some st → st.ScoresDistinct) →
    ∀ cf st, s'.columnFamilies.lookup cf = some st → st.ScoresDistinct
  safe : ∀ c ∈ calls, c.Safe

theorem Aging.refl (s : BlobFileSet) : Aging s s [] :=
  ⟨fun _ st h => ⟨st, h, .refl st⟩, fun h => h, fun c hc => (by cases hc)⟩

theorem Aging.trans (h : Aging s s' calls) (h' : Aging s' s'' calls') :
    Aging s s'' (calls ++ calls') where
  ages cf st hst := by
    obtain ⟨st', hst', hages⟩ := h.ages cf st hst
    obtain ⟨st'', hst'', hages'⟩ := h'.ages cf st' hst'
    exact ⟨st'', hst'', hages.trans hages'⟩
  scores hs := h'.scores (h.scores hs)
  safe c hc := (List.mem_append.mp hc).elim (h.safe c) (h'.safe c)

theorem lookup_setStorage_self (s : BlobFileSet) (cf : UInt32) (st : BlobStorage) :
    (s.setStorage cf st).columnFamilies.lookup cf = some st := AList.lookup_insert _

theorem lookup_setStorage_ne (s : BlobFileSet) {cf g : UInt32} (st : BlobStorage) (h : g ≠ cf) :
    (s.setStorage cf st).columnFamilies.lookup g = s.columnFamilies.lookup g :=
  AList.lookup_insert_ne h

theorem Aging.setStorage {cf : UInt32} {st st' : BlobStorage}
    (hst : s.columnFamilies.lookup cf = some st) (hages : st.Ages st')
    (hscores : st.ScoresDistinct → st'.ScoresDistinct) (hsafe : ∀ c ∈ calls, c.Safe) :
    Aging s (s.setStorage cf st') calls where
  ages g old hold := by
    by_cases hg : g = cf
    · subst hg
      obtain rfl := Option.some.inj (hst.symm.trans hold)
      exact ⟨st', s.lookup_setStorage_self g st', hages⟩
    · exact ⟨old, (s.lookup_setStorage_ne st' hg).trans hold, .refl old⟩
  scores hs g new hnew := by
    by_cases hg : g = cf
    · subst hg
      obtain rfl := Option.some.inj ((s.lookup_setStorage_self g st').symm.trans hnew)
      exact hscores (hs g st hst)
    · exact hs g new ((s.lookup_setStorage_ne st' hg).symm.trans hnew)
  safe := hsafe

theorem Aging.setWalk {cf : UInt32} {st : BlobStorage} {w : Walk}
    (hst : s.columnFamilies.lookup cf = some st) (h : w.Aging st) :
    Aging s (s.setStorage cf w.storage) w.calls := by
  refine .setStorage hst h.ages (fun hs => ?_) h.safe
  rw [BlobStorage.ScoresDistinct, h.scores]
  exact hs

end BlobFileSet

/-! ## `LogAndApply` -/

theorem scores_applyDeleted (files : List (UInt64 × ℕ)) (st : BlobStorage) :
    (CFEditCollector.applyDeleted files st).2.gcScore = st.gcScore := by
  induction files generalizing st with
  | nil => rfl
  | cons file files ih =>
      rw [CFEditCollector.applyDeleted]
      split
      · rfl
      · rename_i st' hst'
        rw [ih]
        rw [BlobStorage.markFileObsolete] at hst'
        split at hst'
        · cases hst'
        · obtain rfl := Option.some.inj hst'
          rfl

theorem scores_foldl_addBlobFile (files : List (UInt64 × BlobFileMeta)) (st : BlobStorage) :
    (files.foldl (fun st file => st.addBlobFile file.1 file.2) st).gcScore = st.gcScore := by
  induction files generalizing st with
  | nil => rfl
  | cons file files ih => exact ih _

theorem scoresDistinct_apply (c : CFEditCollector BlobFileMeta) {st : BlobStorage}
    (h : st.ScoresDistinct) : (c.apply st).2.ScoresDistinct := by
  have hdeleted := scores_applyDeleted c.goneFiles
    (c.newFiles.foldl (fun st file => st.addBlobFile file.1 file.2) st)
  rw [scores_foldl_addBlobFile] at hdeleted
  rw [CFEditCollector.apply]
  split
  rename_i status st' happly
  rw [happly] at hdeleted
  split
  · exact st'.scoresDistinct_computeGCScore
  · rw [BlobStorage.ScoresDistinct, hdeleted]
    exact h

theorem scoresDistinct_applyTo (c : EditCollector BlobFileMeta) (cf : UInt32)
    {storages : BlobStorages}
    (h : ∀ g st, storages.lookup g = some st → st.ScoresDistinct) (g : UInt32) (st : BlobStorage)
    (hst : (c.applyTo [cf] storages).2.lookup g = some st) : st.ScoresDistinct := by
  rw [EditCollector.applyTo] at hst
  split at hst
  · exact h g st hst
  · rename_i old hold
    have hnew := scoresDistinct_apply (c.columnFamilies cf) (h cf old hold)
    have hinsert : ∀ new : BlobStorage, new.ScoresDistinct →
        (storages.insert cf new).lookup g = some st → st.ScoresDistinct := by
      intro new hdistinct hlookup
      by_cases hg : g = cf
      · subst hg
        rw [AList.lookup_insert] at hlookup
        rwa [← Option.some.inj hlookup]
      · rw [AList.lookup_insert_ne hg] at hlookup
        exact h g st hlookup
    split at hst
    rename_i status new happly
    rw [happly] at hnew
    split at hst
    · exact hinsert new hnew hst
    · exact hinsert new hnew hst

theorem deletionCalls_safe {files : List (UInt64 × ℕ)} {st : BlobStorage}
    (hn : (files.map (·.1)).Nodup) (hlive : ∀ file ∈ files, st.fileStatus file.1 = some false) :
    ∀ c ∈ deletionCalls files st, c.Safe := by
  induction files generalizing st with
  | nil => exact fun c hc => (by cases hc)
  | cons file files ih =>
      rw [List.map_cons] at hn
      obtain ⟨hnot, hn⟩ := List.nodup_cons.mp hn
      obtain ⟨old, hold, hobsolete⟩ :=
        lookup_of_fileStatus_some (hlive file List.mem_cons_self)
      have hsome : (st.files.lookup file.1).isSome := by
        rw [hold]
        rfl
      obtain ⟨st', hmark, hmarked⟩ := markFileObsolete_spec hsome
      have hrest : ∀ g ∈ files, st'.fileStatus g.1 = some false := by
        intro g hg
        have hne : g.1 ≠ file.1 := fun heq => hnot (heq ▸ List.mem_map_of_mem hg)
        rw [BlobStorage.fileStatus, hmarked.lookup_other g.1 (by simpa using hne)]
        exact hlive g (List.mem_cons_of_mem _ hg)
      have hsafe : TransitCall.Safe ⟨file.1, old.state, .kDelete⟩ := by
        have hne : old.state ≠ .kObsolete := by simpa [BlobFileMeta.isObsolete] using hobsolete
        refine ⟨?_, fun h => absurd h hne⟩
        simp [fileStateTransit, hne]
      intro c hc
      rw [deletionCalls, hold, hmark] at hc
      rcases List.mem_cons.mp hc with rfl | hc
      · exact hsafe
      · exact ih hn hrest c hc

theorem AppliedExactly.ages {edit : VersionEdit BlobFileMeta} {st st' : BlobStorage}
    (h : AppliedExactly edit st st') : st.Ages st' := by
  intro f file hfile
  by_cases hadd : f ∈ edit.addedFiles.map (·.1)
  · by_cases hdel : f ∈ edit.deletedFiles.map (·.1)
    · exact ⟨file, (h.other f ⟨fun _ => hdel, fun _ => hadd⟩).trans hfile, .refl file⟩
    · obtain ⟨new, hnew, rfl⟩ := List.mem_map.mp hadd
      have hnone := (h.added new hnew hdel).1
      cases hfile.symm.trans hnone
  · by_cases hdel : f ∈ edit.deletedFiles.map (·.1)
    · obtain ⟨gone, hgone, rfl⟩ := List.mem_map.mp hdel
      obtain ⟨old, hold, -, hnew⟩ := h.deleted gone hgone hadd
      obtain rfl := Option.some.inj (hfile.symm.trans hold)
      exact ⟨_, hnew, .obsolete _, rfl, rfl⟩
    · have hiff : f ∈ edit.addedFiles.map (·.1) ↔ f ∈ edit.deletedFiles.map (·.1) :=
        ⟨fun hf => absurd hf hadd, fun hf => absurd hf hdel⟩
      exact ⟨file, (h.other f hiff).trans hfile, .refl file⟩

namespace BlobFileSet

theorem logAndApplyCalls_safe (s : BlobFileSet) (edit : VersionEdit BlobFileMeta)
    (io : ManifestIO) : ∀ c ∈ s.logAndApplyCalls edit io, c.Safe := by
  intro call hcall
  rw [logAndApplyCalls] at hcall
  split at hcall
  · cases hcall
  · rename_i collector hadd
    split at hcall
    · cases hcall
    · rename_i hseal
      split at hcall
      · cases hcall
      · split at hcall
        · cases hcall
        · rename_i st hst
          obtain ⟨hc, -, hnd⟩ := addEdit_empty hadd
          have hcf := forM_eq_ok.mp hseal edit.columnFamilyId List.mem_cons_self
          simp only [hst] at hcf
          obtain ⟨-, hgone⟩ := sealed_inv hcf
          have hc' : collector.columnFamilies edit.columnFamilyId =
              ⟨edit.addedFiles, edit.deletedFiles⟩ := hc
          have hn : ((collector.columnFamilies edit.columnFamilyId).goneFiles.map (·.1)).Nodup := by
            rw [hc']
            exact List.Nodup.sublist (List.filter_sublist.map _) hnd
          refine deletionCalls_safe hn (fun file hfile => ?_) call hcall
          obtain ⟨old, hold, hlive⟩ := lookup_of_fileStatus_some (hgone file hfile)
          rw [BlobStorage.fileStatus, BlobStorage.lookup_foldl_addBlobFile, hold, Option.some_or,
            Option.map_some, hlive]

/-- Every `LogAndApply`. -/
theorem aging_logAndApply (s : BlobFileSet) (edit : VersionEdit BlobFileMeta) (io : ManifestIO) :
    Aging s (s.logAndApply edit io).2 (s.logAndApplyCalls edit io) where
  ages cf st hst := by
    rcases logAndApply_cases s edit io with ⟨-, hs, -⟩ | ⟨-, -, -, -, hs⟩ |
      ⟨-, -, -, -, storages, happlies, hs⟩
    · rw [hs]
      exact ⟨st, hst, .refl st⟩
    · rw [hs]
      exact ⟨st, hst, .refl st⟩
    · rw [hs]
      cases happlies with
      | unknown hnone => exact ⟨st, hst, .refl st⟩
      | @known old new hold hexact =>
          by_cases hcf : cf = edit.columnFamilyId
          · subst hcf
            obtain rfl := Option.some.inj (hst.symm.trans hold)
            exact ⟨new, AList.lookup_insert _, hexact.ages⟩
          · exact ⟨st, (AList.lookup_insert_ne hcf).trans hst, .refl st⟩
  scores hs cf st hst := by
    rw [logAndApply] at hst
    split at hst
    · exact hs cf st hst
    · rename_i collector _
      split at hst
      · exact hs cf st hst
      · split at hst
        · exact hs cf st hst
        · dsimp only at hst
          split at hst
          · exact hs cf st hst
          · exact scoresDistinct_applyTo collector edit.columnFamilyId hs cf st hst
  safe := logAndApplyCalls_safe s edit io

end BlobFileSet

/-! ## One event on several files -/

namespace Walk

variable {st : BlobStorage} {f : UInt64} {event : FileEvent}

/-- An event on distinct files: each gets its one call in the state it has. -/
structure Transited (event : FileEvent) (numbers : List UInt64) (w w' : Walk) : Prop where
  lookup_mem : ∀ f ∈ numbers, w'.storage.files.lookup f =
    (w.storage.files.lookup f).map fun file => { file with state := file.state.after event }
  lookup_other : ∀ f, f ∉ numbers → w'.storage.files.lookup f = w.storage.files.lookup f
  scores : w'.storage.gcScore = w.storage.gcScore
  calls : ∀ c ∈ w'.calls, c ∈ w.calls ∨ c.event = event ∧ c.fileNumber ∈ numbers ∧
    ∃ file, w.storage.files.lookup c.fileNumber = some file ∧ c.state = file.state

theorem transited_transitFile (event : FileEvent) (w : Walk) (number : UInt64) :
    Transited event [number] w (transitFile event w number) := by
  rw [transitFile]
  split
  · rename_i hnone
    refine ⟨fun f hf => ?_, fun _ _ => rfl, rfl, fun c hc => Or.inl hc⟩
    rw [List.mem_singleton.mp hf, hnone]
    rfl
  · rename_i file hfile
    refine ⟨fun f hf => ?_, fun f hf => ?_, rfl, fun c hc => ?_⟩
    · rw [List.mem_singleton.mp hf, hfile]
      exact w.storage.lookup_setFile_self number _
    · exact w.storage.lookup_setFile_ne _ (by simpa using hf)
    · rcases List.mem_append.mp hc with hc | hc
      · exact Or.inl hc
      · rw [List.mem_singleton.mp hc]
        exact Or.inr ⟨rfl, List.mem_cons_self, file, hfile, rfl⟩

theorem Transited.cons {number : UInt64} {numbers : List UInt64} {w mid w' : Walk}
    (h : Transited event [number] w mid) (h' : Transited event numbers mid w')
    (hnot : number ∉ numbers) : Transited event (number :: numbers) w w' where
  lookup_mem f hf := by
    rcases List.mem_cons.mp hf with rfl | hf
    · rw [h'.lookup_other f hnot, h.lookup_mem f List.mem_cons_self]
    · have hne : f ≠ number := fun heq => hnot (heq ▸ hf)
      rw [h'.lookup_mem f hf, h.lookup_other f (by simpa using hne)]
  lookup_other f hf := by
    obtain ⟨hne, hnot⟩ := List.ne_and_not_mem_of_not_mem_cons hf
    rw [h'.lookup_other f hnot, h.lookup_other f (by simpa using hne)]
  scores := h'.scores.trans h.scores
  calls c hc := by
    rcases h'.calls c hc with hc | ⟨hevent, hmem, file, hfile, hstate⟩
    · rcases h.calls c hc with hc | ⟨hevent, hmem, hfile⟩
      · exact Or.inl hc
      · rw [List.mem_singleton] at hmem
        exact Or.inr ⟨hevent, hmem ▸ List.mem_cons_self, hfile⟩
    · have hne : c.fileNumber ≠ number := fun heq => hnot (heq ▸ hmem)
      rw [h.lookup_other _ (by simpa using hne)] at hfile
      exact Or.inr ⟨hevent, List.mem_cons_of_mem _ hmem, file, hfile, hstate⟩

theorem transited_foldl (event : FileEvent) {numbers : List UInt64} (hn : numbers.Nodup)
    (w : Walk) : Transited event numbers w (numbers.foldl (transitFile event) w) := by
  induction numbers generalizing w with
  | nil => exact ⟨fun f hf => (by cases hf), fun _ _ => rfl, rfl, fun c hc => Or.inl hc⟩
  | cons number numbers ih =>
      obtain ⟨hnot, hn⟩ := List.nodup_cons.mp hn
      exact (transited_transitFile event w number).cons (ih hn _) hnot

theorem transited_transitFiles (event : FileEvent) {numbers : List UInt64} (hn : numbers.Nodup)
    (st : BlobStorage) : Transited event numbers { storage := st } (transitFiles event st numbers) :=
  transited_foldl event hn _

/-- Marks on files that may be marked, repeated or not. -/
theorem aging_foldl_needMerge {marks : List UInt64} {w : Walk} (h : w.Aging st)
    (hmarks : ∀ f ∈ marks, ∀ file, w.storage.files.lookup f = some file →
      file.state = .kNormal ∨ file.state = .kToMerge) :
    (marks.foldl (transitFile .kNeedMerge) w).Aging st := by
  induction marks generalizing w with
  | nil => exact h
  | cons number marks ih =>
      have hone := transited_transitFile .kNeedMerge w number
      refine ih ?_ fun f hf file hfile => ?_
      · rw [transitFile]
        split
        · exact h
        · rename_i file hfile
          exact h.needMerge hfile (.refl file) (hmarks number List.mem_cons_self file hfile)
      · by_cases hne : f = number
        · subst hne
          rw [hone.lookup_mem f List.mem_cons_self] at hfile
          obtain ⟨old, -, rfl⟩ := Option.map_eq_some_iff.mp hfile
          exact Or.inr rfl
        · rw [hone.lookup_other f (by simpa using hne)] at hfile
          exact hmarks f (List.mem_cons_of_mem _ hf) file hfile

end Walk

end AegonKV
