import AegonKV.LsmCallbacks

/-!
# What a walk does to one file

A round of a walk touches only the file whose number it is given, and the numbers of a
`blob_file_size_diff` are distinct. What a walk leaves of a file is therefore what its one round, if
any, leaves of it.
-/

namespace AegonKV

theorem BlobStorage.lookup_setFile_self (st : BlobStorage) (number : UInt64) (file : BlobFileMeta) :
    (st.setFile number file).files.lookup number = some file := AList.lookup_insert _

theorem BlobStorage.lookup_setFile_ne (st : BlobStorage) {number f : UInt64} (file : BlobFileMeta)
    (h : f ≠ number) : (st.setFile number file).files.lookup f = st.files.lookup f :=
  AList.lookup_insert_ne h

namespace Walk

structure SameAt (f : UInt64) (w w' : Walk) : Prop where
  lookup : w'.storage.files.lookup f = w.storage.files.lookup f
  deleted : f ∈ w'.deleted ↔ f ∈ w.deleted
  candidates : f ∈ w'.candidates ↔ f ∈ w.candidates

variable {f number : UInt64} {w w' w'' : Walk}

theorem SameAt.refl (f : UInt64) (w : Walk) : SameAt f w w := ⟨rfl, Iff.rfl, Iff.rfl⟩

theorem SameAt.trans (h : SameAt f w w') (h' : SameAt f w' w'') : SameAt f w w'' :=
  ⟨h'.lookup.trans h.lookup, h'.deleted.trans h.deleted, h'.candidates.trans h.candidates⟩

theorem sameAt_setFile (w : Walk) (file : BlobFileMeta) (h : f ≠ number) :
    SameAt f w (w.setFile number file) :=
  ⟨w.storage.lookup_setFile_ne file h, Iff.rfl, Iff.rfl⟩

theorem sameAt_transit (w : Walk) (file : BlobFileMeta) (event : FileEvent) (h : f ≠ number) :
    SameAt f w (w.transit number file event) :=
  ⟨w.storage.lookup_setFile_ne _ h, Iff.rfl, Iff.rfl⟩

theorem sameAt_deleteBlobFile (w : Walk) (h : f ≠ number) :
    SameAt f w (w.deleteBlobFile number) := by
  refine ⟨rfl, ?_, Iff.rfl⟩
  simp [deleteBlobFile, h]

theorem sameAt_addCandidate (w : Walk) (h : f ≠ number) : SameAt f w (w.addCandidate number) := by
  refine ⟨rfl, Iff.rfl, ?_⟩
  simp [addCandidate, h]

/-- A round that leaves the other files alone. -/
def Local (round : Walk → UInt64 → ℤ → Walk) : Prop :=
  ∀ w number delta f, f ≠ number → SameAt f w (round w number delta)

theorem local_flushCompleted : Local flushCompleted := by
  intro w number delta f h
  rw [flushCompleted]
  split
  · exact .refl f w
  · split
    · exact .refl f w
    · exact sameAt_transit w _ _ h

theorem sameAt_pendingCompacted (w : Walk) (file : BlobFileMeta) (delta : ℤ) (h : f ≠ number) :
    SameAt f w (w.pendingCompacted number file delta) := by
  rw [pendingCompacted]
  split
  · exact sameAt_setFile w _ h
  · have htransit := sameAt_transit w (file.settle delta) .kCompactionCompleted h
    refine SameAt.trans ?_ (sameAt_addCandidate _ h)
    split
    · exact htransit.trans (sameAt_deleteBlobFile _ h)
    · exact htransit

theorem sameAt_liveCompacted (o : MergeOptions) (countSortedRun : Bool) (w : Walk)
    (file : BlobFileMeta) (delta : ℤ) (h : f ≠ number) :
    SameAt f w (liveCompacted o countSortedRun w number file delta) := by
  have hset := sameAt_setFile w (file.updateLiveDataSize delta) h
  rw [liveCompacted]
  split_ifs
  · exact hset
  · exact hset.trans (sameAt_deleteBlobFile _ h)
  · exact hset.trans (sameAt_transit _ _ _ h)
  · exact hset.trans (sameAt_addCandidate _ h)
  · exact hset

theorem local_compactionCompleted (o : MergeOptions) (countSortedRun : Bool) :
    Local (compactionCompleted o countSortedRun) := by
  intro w number delta f h
  rw [compactionCompleted]
  split
  · exact .refl f w
  · split
    · exact sameAt_pendingCompacted w _ delta h
    · exact sameAt_liveCompacted o countSortedRun w _ delta h
    · exact sameAt_liveCompacted o countSortedRun w _ delta h
    · exact .refl f w

theorem local_tablesDeleted (o : MergeOptions) : Local (tablesDeleted o) := by
  intro w number delta f h
  rw [tablesDeleted]
  split
  · exact .refl f w
  · rename_i file hfile
    have hset := sameAt_setFile w (file.updateLiveDataSize delta) h
    dsimp only
    split_ifs
    · exact .refl f w
    · exact hset
    · exact hset.trans (sameAt_deleteBlobFile _ h)
    · exact hset.trans (sameAt_transit _ _ _ h)
    · exact hset

theorem sameAt_foldl {round : Walk → UInt64 → ℤ → Walk} (hlocal : Local round)
    (es : List ((_ : UInt64) × ℤ)) (w : Walk) (h : f ∉ es.map (·.1)) :
    SameAt f w (es.foldl (fun w e => round w e.1 e.2) w) := by
  induction es generalizing w with
  | nil => exact .refl f w
  | cons e es ih =>
      rw [List.map_cons] at h
      obtain ⟨hne, hnot⟩ := List.ne_and_not_mem_of_not_mem_cons h
      exact (hlocal w e.1 e.2 f hne).trans (ih _ hnot)

theorem applyDiff_of_lookup_none {round : Walk → UInt64 → ℤ → Walk} (hlocal : Local round)
    (st : BlobStorage) {diff : SizeDiff} (h : diff.lookup f = none) :
    SameAt f { storage := st } (applyDiff round st diff) := by
  have hnot : f ∉ diff.entries.map (·.1) := AList.lookup_eq_none.mp h
  exact sameAt_foldl hlocal _ _ hnot

/-- The one round of a walk that touches the file. -/
theorem applyDiff_of_lookup_some {round : Walk → UInt64 → ℤ → Walk} (hlocal : Local round)
    (st : BlobStorage) {diff : SizeDiff} {delta : ℤ} (h : diff.lookup f = some delta) :
    ∃ w, SameAt f { storage := st } w ∧ SameAt f (round w f delta) (applyDiff round st diff) := by
  obtain ⟨before, rest, hes⟩ := List.append_of_mem (AList.mem_lookup_iff.mp h)
  have hnodup := diff.nodupKeys
  rw [hes, List.NodupKeys, List.keys, List.map_append, List.map_cons] at hnodup
  obtain ⟨-, hrest, hdisj⟩ := List.nodup_append'.mp hnodup
  have hbefore : f ∉ before.map (·.1) := fun hf => hdisj hf List.mem_cons_self
  refine ⟨_, sameAt_foldl hlocal before { storage := st } hbefore, ?_⟩
  rw [applyDiff, hes, List.foldl_append, List.foldl_cons]
  exact sameAt_foldl hlocal rest _ (List.nodup_cons.mp hrest).1

end Walk

/-! ## The marks of a merge -/

theorem sweepEnd_subset {numbers : List UInt64} {maxSortedRuns : ℤ}
    {acc : List UInt64 × List UInt64} {e : BlobRange × Bool}
    (he : e.1.fileNumber ∈ numbers) (h1 : acc.1 ⊆ numbers) (h2 : acc.2 ⊆ numbers) :
    (sweepEnd maxSortedRuns acc e).1 ⊆ numbers ∧ (sweepEnd maxSortedRuns acc e).2 ⊆ numbers := by
  have hopened : (if e.1.fileNumber ∈ acc.1 then acc.1 else acc.1 ++ [e.1.fileNumber]) ⊆ numbers := by
    split_ifs
    · exact h1
    · exact List.append_subset.mpr ⟨h1, by simpa using he⟩
  rw [sweepEnd]
  generalize (if e.1.fileNumber ∈ acc.1 then acc.1 else acc.1 ++ [e.1.fileNumber]) = opened at hopened ⊢
  split
  · refine ⟨hopened, ?_⟩
    dsimp only
    split
    · exact List.append_subset.mpr ⟨h2, hopened⟩
    · exact h2
  · exact ⟨fun x hx => h1 (List.mem_of_mem_erase hx), h2⟩

theorem foldl_sweepEnd_subset {numbers : List UInt64} {maxSortedRuns : ℤ}
    {ends : List (BlobRange × Bool)} (hends : ∀ e ∈ ends, e.1.fileNumber ∈ numbers)
    {acc : List UInt64 × List UInt64} (h1 : acc.1 ⊆ numbers) (h2 : acc.2 ⊆ numbers) :
    (ends.foldl (sweepEnd maxSortedRuns) acc).2 ⊆ numbers := by
  induction ends generalizing acc with
  | nil => exact h2
  | cons e ends ih =>
      obtain ⟨h1', h2'⟩ := sweepEnd_subset (hends e List.mem_cons_self) h1 h2
      exact ih (fun e he => hends e (List.mem_cons_of_mem _ he)) h1' h2'

theorem mergeMarks_subset (files : List BlobRange) (maxSortedRuns : ℤ) :
    mergeMarks files maxSortedRuns ⊆ files.map (·.fileNumber) := by
  refine foldl_sweepEnd_subset (fun e he => ?_) (List.nil_subset _) (List.nil_subset _)
  obtain ⟨file, hfile, he⟩ := List.mem_flatMap.mp (List.mem_mergeSort.mp he)
  have heq : e.1 = file := by
    rcases List.mem_cons.mp he with rfl | he
    · rfl
    · rw [List.mem_singleton.mp he]
  rw [heq]
  exact List.mem_map_of_mem hfile

theorem Walk.ranges_subset (st : BlobStorage) (candidates : List UInt64) :
    (ranges st candidates).map (·.fileNumber) ⊆ candidates := by
  intro number hnumber
  obtain ⟨range, hrange, rfl⟩ := List.mem_map.mp hnumber
  obtain ⟨number, hmem, hsome⟩ := List.mem_filterMap.mp hrange
  obtain ⟨file, -, rfl⟩ := Option.map_eq_some_iff.mp hsome
  exact hmem

/-! ## One file through `LogAndApply` -/

theorem BlobFileSet.fileOf_setStorage (s : BlobFileSet) (cf : UInt32) (st : BlobStorage)
    (f : UInt64) : (s.setStorage cf st).fileOf cf f = st.files.lookup f := by
  rw [fileOf, setStorage, AList.lookup_insert, Option.bind_some]

theorem BlobFileSet.fileOf_setStorage_ne {s : BlobFileSet} {cf g : UInt32} (st : BlobStorage)
    (f : UInt64) (h : g ≠ cf) : (s.setStorage cf st).fileOf g f = s.fileOf g f := by
  rw [fileOf, setStorage, AList.lookup_insert_ne h]
  rfl

/-- An edit leaves a file that is there as it is or makes it obsolete. -/
theorem BlobFileSet.fileOf_logAndApply {s : BlobFileSet} {cf : UInt32} {f : UInt64}
    {file : BlobFileMeta} (edit : VersionEdit BlobFileMeta) (io : ManifestIO)
    (h : s.fileOf cf f = some file) :
    ∃ file', (s.logAndApply edit io).2.fileOf cf f = some file' ∧
      (file' = file ∨ f ∈ edit.deletedFiles.map (·.1) ∧ cf = edit.columnFamilyId ∧
        io.addRecord.isOk ∧ io.sync.isOk ∧ file' = { file with state := .kObsolete }) := by
  rcases logAndApply_cases s edit io with ⟨-, hs, -⟩ | ⟨-, -, -, -, hs⟩ |
    ⟨-, hrecord, hsync, -, storages, hst, hs⟩
  · rw [hs]
    exact ⟨file, h, Or.inl rfl⟩
  · rw [hs]
    exact ⟨file, h, Or.inl rfl⟩
  · rw [hs]
    cases hst with
    | unknown hnone => exact ⟨file, h, Or.inl rfl⟩
    | @known st st' hcf hexact =>
        by_cases hne : cf = edit.columnFamilyId
        · subst hne
          have hfile : st.files.lookup f = some file := by
            rwa [fileOf, hcf, Option.bind_some] at h
          have hlookup : ({ s.logged edit with
              columnFamilies := s.columnFamilies.insert edit.columnFamilyId st' } :
                BlobFileSet).fileOf edit.columnFamilyId f = st'.files.lookup f := by
            rw [fileOf, AList.lookup_insert, Option.bind_some]
          rw [hlookup]
          by_cases hboth : f ∈ edit.addedFiles.map (·.1) ↔ f ∈ edit.deletedFiles.map (·.1)
          · exact ⟨file, (hexact.other f hboth).trans hfile, Or.inl rfl⟩
          · by_cases hmem : f ∈ edit.deletedFiles.map (·.1)
            · have hnot : f ∉ edit.addedFiles.map (·.1) := fun hf => hboth (iff_of_true hf hmem)
              obtain ⟨d, hd, rfl⟩ := List.mem_map.mp hmem
              obtain ⟨old, hold, -, hnew⟩ := hexact.deleted d hd hnot
              obtain rfl := Option.some.inj (hfile.symm.trans hold)
              exact ⟨_, hnew, Or.inr ⟨hmem, rfl, hrecord, hsync, rfl⟩⟩
            · -- an added file is not there yet
              have hf : f ∈ edit.addedFiles.map (·.1) := by
                by_contra hf
                exact hboth (iff_of_false hf hmem)
              obtain ⟨d, hd, rfl⟩ := List.mem_map.mp hf
              cases (hexact.added d hd hmem).1.symm.trans hfile
        · refine ⟨file, ?_, Or.inl rfl⟩
          rwa [fileOf, AList.lookup_insert_ne hne]

end AegonKV
