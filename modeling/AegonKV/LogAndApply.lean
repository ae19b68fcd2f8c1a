import AegonKV.BlobFileSet

/-!
# One `LogAndApply`

`AddEdit` and `Seal` establish what `Apply` relies on: distinct numbers, added files that are not
there and deleted files that are there and live. `Apply` then returns OK, and its effect on the
file map can be read off the edit. Neither looks at the level of a file, by which `Apply` indexes
the counters.
-/

namespace AegonKV

variable {μ : Type}

/-! ## What a successful validation says -/

theorem forM_eq_ok {α : Type} {l : List α} {g : α → Except Status Unit} :
    l.forM g = .ok () ↔ ∀ x ∈ l, g x = .ok () := by
  refine ⟨fun h => ?_, forM_ok⟩
  induction l with
  | nil => exact fun x hx => (by cases hx)
  | cons x l ih =>
      change (g x >>= fun _ => l.forM g) = .ok () at h
      cases hx : g x with
      | error e =>
          rw [hx] at h
          cases h
      | ok u =>
          rw [hx] at h
          intro y hy
          rcases List.mem_cons.mp hy with rfl | hy
          · exact hx
          · exact ih h y hy

/-- Folding over files an operation that appends a file to a list unless its number is there. -/
theorem foldlM_append_inv {σ α : Type} {add : σ → UInt64 × α → Except Status σ}
    {list : σ → List (UInt64 × α)} {put : σ → List (UInt64 × α) → σ}
    (hadd : ∀ c file c', add c file = .ok c' →
      file.1 ∉ (list c).map (·.1) ∧ c' = put c (list c ++ [file]))
    (hlist : ∀ c l, list (put c l) = l) (hput : ∀ c l l', put (put c l) l' = put c l')
    (hself : ∀ c, put c (list c) = c) {files : List (UInt64 × α)} {c c' : σ}
    (h : files.foldlM add c = .ok c') (hc : ((list c).map (·.1)).Nodup) :
    c' = put c (list c ++ files) ∧ ((list c ++ files).map (·.1)).Nodup := by
  induction files generalizing c with
  | nil =>
      obtain rfl : c = c' := Except.ok.inj h
      rw [List.append_nil]
      exact ⟨(hself c).symm, hc⟩
  | cons file files ih =>
      rw [List.foldlM_cons] at h
      cases hfile : add c file with
      | error status =>
          rw [hfile] at h
          cases h
      | ok next =>
          rw [hfile] at h
          obtain ⟨hmem, rfl⟩ := hadd c file next hfile
          have hnext : ((list (put c (list c ++ [file]))).map (·.1)).Nodup := by
            rw [hlist, List.map_append, List.map_singleton]
            exact List.nodup_append'.mpr ⟨hc, List.nodup_singleton _, by simpa using hmem⟩
          have hrest := ih h hnext
          rwa [hlist, hput, List.append_assoc, List.singleton_append] at hrest

theorem foldlM_addFile_inv {files : List (UInt64 × μ)} {c c' : CFEditCollector μ}
    (h : files.foldlM CFEditCollector.addFile c = .ok c')
    (hc : (c.addedFiles.map (·.1)).Nodup) :
    c' = { c with addedFiles := c.addedFiles ++ files } ∧
      ((c.addedFiles ++ files).map (·.1)).Nodup := by
  refine @foldlM_append_inv _ _ CFEditCollector.addFile CFEditCollector.addedFiles
    (fun c l => { c with addedFiles := l }) ?_ ?_ ?_ ?_ _ _ _ h hc
  · intro c file c' hfile
    rw [CFEditCollector.addFile] at hfile
    split_ifs at hfile with hmem
    exact ⟨hmem, (Except.ok.inj hfile).symm⟩
  all_goals
    intros
    rfl

theorem foldlM_deleteFile_inv {files : List (UInt64 × ℕ)} {c c' : CFEditCollector μ}
    (h : files.foldlM CFEditCollector.deleteFile c = .ok c')
    (hc : (c.deletedFiles.map (·.1)).Nodup) :
    c' = { c with deletedFiles := c.deletedFiles ++ files } ∧
      ((c.deletedFiles ++ files).map (·.1)).Nodup := by
  refine @foldlM_append_inv _ _ CFEditCollector.deleteFile CFEditCollector.deletedFiles
    (fun c l => { c with deletedFiles := l }) ?_ ?_ ?_ ?_ _ _ _ h hc
  · intro c file c' hfile
    rw [CFEditCollector.deleteFile] at hfile
    split_ifs at hfile with hmem
    exact ⟨hmem, (Except.ok.inj hfile).symm⟩
  all_goals
    intros
    rfl

/-- What a collector that takes an edit becomes. -/
theorem addEdit_inv {c c' : EditCollector μ} {edit : VersionEdit μ} (h : c.addEdit edit = .ok c')
    (hna : ((c.columnFamilies edit.columnFamilyId).addedFiles.map (·.1)).Nodup)
    (hnd : ((c.columnFamilies edit.columnFamilyId).deletedFiles.map (·.1)).Nodup) :
    c'.columnFamilies = Function.update c.columnFamilies edit.columnFamilyId
        ⟨(c.columnFamilies edit.columnFamilyId).addedFiles ++ edit.addedFiles,
          (c.columnFamilies edit.columnFamilyId).deletedFiles ++ edit.deletedFiles⟩ ∧
      (((c.columnFamilies edit.columnFamilyId).addedFiles ++ edit.addedFiles).map (·.1)).Nodup ∧
      (((c.columnFamilies edit.columnFamilyId).deletedFiles ++ edit.deletedFiles).map (·.1)).Nodup := by
  simp only [EditCollector.addEdit, bind, Except.bind] at h
  split at h
  · cases h
  · next added hadd =>
      obtain ⟨rfl, hna⟩ := foldlM_addFile_inv hadd hna
      split at h
      · cases h
      · next deleted hdel =>
          obtain ⟨rfl, hnd⟩ := foldlM_deleteFile_inv hdel hnd
          split at h
          · cases h
          · obtain rfl := Except.ok.inj h
            exact ⟨rfl, hna, hnd⟩

/-- The collector of a single edit. -/
theorem addEdit_empty {edit : VersionEdit μ} {c : EditCollector μ}
    (h : EditCollector.empty.addEdit edit = .ok c) :
    c.columnFamilies edit.columnFamilyId = ⟨edit.addedFiles, edit.deletedFiles⟩ ∧
      (edit.addedFiles.map (·.1)).Nodup ∧ (edit.deletedFiles.map (·.1)).Nodup := by
  obtain ⟨hc, hna, hnd⟩ := addEdit_inv h List.nodup_nil List.nodup_nil
  exact ⟨by rw [hc, Function.update_self]; rfl, hna, hnd⟩

theorem sealed_inv {c : CFEditCollector μ} {storage : UInt64 → Option Bool}
    (h : c.sealed storage = .ok ()) :
    (∀ file ∈ c.addedFiles, storage file.1 = none) ∧
      ∀ file ∈ c.goneFiles, storage file.1 = some false := by
  simp only [CFEditCollector.sealed, bind, Except.bind] at h
  split at h
  · cases h
  · next hadd =>
      have hadd := forM_eq_ok.mp hadd
      have hdel := forM_eq_ok.mp h
      refine ⟨fun file hfile => ?_, fun file hfile => ?_⟩
      · have hf := hadd file hfile
        split at hf
        · assumption
        · cases hf
        · cases hf
      · obtain ⟨hmem, hnot⟩ := List.mem_filter.mp hfile
        have hf := hdel file hmem
        rw [if_neg (by simpa using hnot)] at hf
        split at hf
        · cases hf
        · cases hf
        · assumption

/-! ## Refusals are errors -/

/-- The function never hands back OK as an error. -/
def ErrorsOnly {α : Type} (x : Except Status α) : Prop := ∀ e, x = .error e → e.isOk = false

theorem ErrorsOnly.ok {α : Type} (a : α) : ErrorsOnly (.ok a) := fun e h => (by cases h)

theorem ErrorsOnly.corruption {α : Type} (m m2 : String) :
    ErrorsOnly (.error (.corruption m m2) : Except Status α) := by
  intro e h
  obtain rfl := Except.error.inj h
  rfl

theorem ErrorsOnly.bind {α β : Type} {x : Except Status α} {g : α → Except Status β}
    (h : ErrorsOnly x) (hg : ∀ a, ErrorsOnly (g a)) : ErrorsOnly (x >>= g) := by
  cases x with
  | error e' =>
      intro e he
      obtain rfl := Except.error.inj he
      exact h e' rfl
  | ok a => exact hg a

theorem ErrorsOnly.foldlM {α β : Type} {g : β → α → Except Status β}
    (hg : ∀ b a, ErrorsOnly (g b a)) (l : List α) (b : β) : ErrorsOnly (l.foldlM g b) := by
  induction l generalizing b with
  | nil => exact ErrorsOnly.ok b
  | cons a l ih =>
      rw [List.foldlM_cons]
      exact (hg b a).bind ih

theorem ErrorsOnly.forM {α : Type} {g : α → Except Status Unit} (hg : ∀ a, ErrorsOnly (g a))
    (l : List α) : ErrorsOnly (l.forM g) := by
  induction l with
  | nil => exact ErrorsOnly.ok ()
  | cons a l ih => exact (hg a).bind fun _ => ih

theorem addEdit_errorsOnly (c : EditCollector μ) (edit : VersionEdit μ) :
    ErrorsOnly (c.addEdit edit) := by
  refine ErrorsOnly.bind (ErrorsOnly.foldlM (fun c file => ?_) _ _) fun _ =>
    ErrorsOnly.bind (ErrorsOnly.foldlM (fun c file => ?_) _ _) fun _ =>
    ErrorsOnly.bind ?_ fun _ => ErrorsOnly.ok _
  · rw [CFEditCollector.addFile]
    split_ifs
    · exact ErrorsOnly.corruption _ _
    · exact ErrorsOnly.ok _
  · rw [CFEditCollector.deleteFile]
    split_ifs
    · exact ErrorsOnly.corruption _ _
    · exact ErrorsOnly.ok _
  · unfold EditCollector.nextAfter
    split
    · exact ErrorsOnly.ok _
    · split_ifs
      · exact ErrorsOnly.corruption _ _
      · exact ErrorsOnly.ok _

theorem sealed_errorsOnly (c : CFEditCollector μ) (storage : UInt64 → Option Bool) :
    ErrorsOnly (c.sealed storage) := by
  refine ErrorsOnly.bind (ErrorsOnly.forM (fun file => ?_) _) fun _ =>
    ErrorsOnly.forM (fun file => ?_) _
  · split
    · exact ErrorsOnly.ok _
    · exact ErrorsOnly.corruption _ _
    · exact ErrorsOnly.corruption _ _
  · split_ifs
    · exact ErrorsOnly.ok _
    · split
      · exact ErrorsOnly.corruption _ _
      · exact ErrorsOnly.corruption _ _
      · exact ErrorsOnly.ok _

theorem sealIn_errorsOnly (c : EditCollector BlobFileMeta) (cfs : List UInt32)
    (storages : BlobStorages) : ErrorsOnly (c.sealIn cfs storages) := by
  refine ErrorsOnly.forM (fun cf => ?_) cfs
  split
  · exact ErrorsOnly.ok _
  · exact sealed_errorsOnly _ _

/-! ## The effect of `Apply` -/

namespace BlobStorage

theorem lookup_addBlobFile (st : BlobStorage) (number n : UInt64) (file : BlobFileMeta) :
    (st.addBlobFile number file).files.lookup n =
      (st.files.lookup n).or (if n = number then some file else none) := by
  simp only [addBlobFile]
  split_ifs with hmem hn hn
  · subst hn
    obtain ⟨old, hold⟩ := Option.isSome_iff_exists.mp (AList.lookup_isSome.mpr hmem)
    rw [hold]
    rfl
  · rw [Option.or_none]
  · subst hn
    rw [AList.lookup_insert, AList.lookup_eq_none.mpr hmem]
    rfl
  · rw [AList.lookup_insert_ne hn, Option.or_none]

theorem lookup_foldl_addBlobFile (files : List (UInt64 × BlobFileMeta)) (st : BlobStorage)
    (n : UInt64) :
    (files.foldl (fun st file => st.addBlobFile file.1 file.2) st).files.lookup n =
      (st.files.lookup n).or (List.lookup n files) := by
  induction files generalizing st with
  | nil => simp
  | cons file files ih =>
      rw [List.foldl_cons, ih, lookup_addBlobFile, Option.or_assoc, List.lookup_cons]
      by_cases hn : n = file.1
      · simp [hn]
      · have hbeq : (n == file.1) = false := by simpa using hn
        rw [if_neg hn, Option.none_or, hbeq]

theorem length_foldl_addBlobFile (files : List (UInt64 × BlobFileMeta)) (st : BlobStorage) :
    (files.foldl (fun st file => st.addBlobFile file.1 file.2) st).levelsFileCount.length =
      st.levelsFileCount.length := by
  induction files generalizing st with
  | nil => rfl
  | cons file files ih => exact (ih _).trans (List.length_modify _ _ _)

theorem faultsAt_congr {st st' : BlobStorage}
    (h : st'.levelsFileCount.length = st.levelsFileCount.length) (level : UInt32) :
    st'.faultsAt level = st.faultsAt level := by
  rw [faultsAt, faultsAt, h]

theorem levelFault_foldl_addBlobFile (files : List (UInt64 × BlobFileMeta)) (st : BlobStorage) :
    (files.foldl (fun st file => st.addBlobFile file.1 file.2) st).levelFault =
      (st.levelFault || files.any fun file => st.faultsAt file.2.fileLevel) := by
  induction files generalizing st with
  | nil => rw [List.foldl_nil, List.any_nil, Bool.or_false]
  | cons file files ih =>
      have hlength := List.length_modify (· + 1) st.levelsFileCount file.2.fileLevel.toNat
      have hcongr : ∀ level, (st.addBlobFile file.1 file.2).faultsAt level = st.faultsAt level :=
        faultsAt_congr hlength
      simp only [List.foldl_cons, ih, hcongr, List.any_cons]
      rw [← Bool.or_assoc]
      rfl

theorem obsoleteFiles_foldl_addBlobFile (files : List (UInt64 × BlobFileMeta)) (st : BlobStorage) :
    (files.foldl (fun st file => st.addBlobFile file.1 file.2) st).obsoleteFiles =
      st.obsoleteFiles := by
  induction files generalizing st with
  | nil => rfl
  | cons file files ih => exact ih _

end BlobStorage

/-- What marking the files of a list does to a storage that has them. -/
structure Marked (files : List (UInt64 × ℕ)) (st st' : BlobStorage) : Prop where
  lookup_mem : ∀ n ∈ files.map (·.1),
    st'.files.lookup n = (st.files.lookup n).map fun f => { f with state := .kObsolete }
  lookup_other : ∀ n, n ∉ files.map (·.1) → st'.files.lookup n = st.files.lookup n
  obsolete : st'.obsoleteFiles = st.obsoleteFiles ++ files
  length : st'.levelsFileCount.length = st.levelsFileCount.length
  fault : st'.levelFault = (st.levelFault || files.any fun file =>
    (st.files.lookup file.1).any fun f => st.faultsAt f.fileLevel)

theorem markFileObsolete_spec {st : BlobStorage} {file : UInt64 × ℕ}
    (h : (st.files.lookup file.1).isSome) :
    ∃ st', st.markFileObsolete file.1 file.2 = some st' ∧ Marked [file] st st' := by
  obtain ⟨old, hold⟩ := Option.isSome_iff_exists.mp h
  refine ⟨_, by rw [BlobStorage.markFileObsolete, hold], ?_, ?_, rfl, List.length_modify _ _ _, ?_⟩
  · intro n hn
    obtain rfl : n = file.1 := by simpa using hn
    rw [AList.lookup_insert, hold]
    rfl
  · intro n hn
    exact AList.lookup_insert_ne (by simpa using hn)
  · rw [List.any_cons, List.any_nil, Bool.or_false, hold]
    rfl

/-- Marking changes no level. -/
theorem Marked.any_fileLevel {files : List (UInt64 × ℕ)} {st st' : BlobStorage}
    (h : Marked files st st') (p : UInt32 → Bool) (n : UInt64) :
    (st'.files.lookup n).any (fun f => p f.fileLevel) =
      (st.files.lookup n).any fun f => p f.fileLevel := by
  by_cases hn : n ∈ files.map (·.1)
  · rw [h.lookup_mem n hn, Option.any_map]
  · rw [h.lookup_other n hn]

theorem Marked.cons {file : UInt64 × ℕ} {files : List (UInt64 × ℕ)} {st mid st' : BlobStorage}
    (h : Marked [file] st mid) (h' : Marked files mid st') : Marked (file :: files) st st' := by
  have hfile : ∀ n, n = file.1 ↔ n ∈ [file].map (·.1) := by simp
  refine ⟨fun n hn => ?_, fun n hn => ?_, ?_, h'.length.trans h.length, ?_⟩
  · by_cases hin : n ∈ files.map (·.1)
    · rw [h'.lookup_mem n hin]
      by_cases heq : n = file.1
      · rw [h.lookup_mem n ((hfile n).mp heq), Option.map_map]
        rfl
      · rw [h.lookup_other n (fun hc => heq ((hfile n).mpr hc))]
    · have heq : n = file.1 := by
        rw [List.map_cons] at hn
        exact (List.mem_cons.mp hn).resolve_right hin
      rw [h'.lookup_other n hin, h.lookup_mem n ((hfile n).mp heq)]
  · rw [List.map_cons] at hn
    obtain ⟨hne, hnot⟩ := List.ne_and_not_mem_of_not_mem_cons hn
    rw [h'.lookup_other n hnot, h.lookup_other n (fun hc => hne ((hfile n).mpr hc))]
  · rw [h'.obsolete, h.obsolete, List.append_assoc]
    rfl
  · simp only [h'.fault, h.fault, BlobStorage.faultsAt_congr h.length, h.any_fileLevel,
      List.any_cons, List.any_nil, Bool.or_false, Bool.or_assoc]

theorem Marked.isSome {files : List (UInt64 × ℕ)} {st st' : BlobStorage} (h : Marked files st st')
    (n : UInt64) : (st'.files.lookup n).isSome = (st.files.lookup n).isSome := by
  by_cases hn : n ∈ files.map (·.1)
  · rw [h.lookup_mem n hn, Option.isSome_map]
  · rw [h.lookup_other n hn]

theorem applyDeleted_spec {files : List (UInt64 × ℕ)} {st : BlobStorage}
    (h : ∀ file ∈ files, (st.files.lookup file.1).isSome) :
    ∃ st', CFEditCollector.applyDeleted files st = (.ok, st') ∧ Marked files st st' := by
  induction files generalizing st with
  | nil => exact ⟨st, rfl, fun n hn => (by cases hn), fun _ _ => rfl, by simp, rfl, by simp⟩
  | cons file files ih =>
      obtain ⟨mid, hmark, hmid⟩ := markFileObsolete_spec (h file List.mem_cons_self)
      have hsome : ∀ g ∈ files, (mid.files.lookup g.1).isSome := by
        intro g hg
        rw [hmid.isSome]
        exact h g (List.mem_cons_of_mem _ hg)
      obtain ⟨st', hrest, hst'⟩ := ih hsome
      refine ⟨st', ?_, hmid.cons hst'⟩
      rw [CFEditCollector.applyDeleted, hmark]
      exact hrest

/-- The effect of an edit on the storage of its column family: the added and not deleted files are
new, the deleted and not added files were live and are obsolete now, all others are as before. -/
structure AppliedExactly (edit : VersionEdit BlobFileMeta) (st st' : BlobStorage) : Prop where
  added : ∀ file ∈ edit.addedFiles, file.1 ∉ edit.deletedFiles.map (·.1) →
    st.files.lookup file.1 = none ∧ st'.files.lookup file.1 = some file.2
  deleted : ∀ file ∈ edit.deletedFiles, file.1 ∉ edit.addedFiles.map (·.1) →
    ∃ old, st.files.lookup file.1 = some old ∧ old.isObsolete = false ∧
      st'.files.lookup file.1 = some { old with state := .kObsolete }
  other : ∀ n, (n ∈ edit.addedFiles.map (·.1) ↔ n ∈ edit.deletedFiles.map (·.1)) →
    st'.files.lookup n = st.files.lookup n
  obsolete : st'.obsoleteFiles = st.obsoleteFiles ++
    edit.deletedFiles.filter fun file => file.1 ∉ edit.addedFiles.map (·.1)

/-- A file of the storage after the edit was there before, or the edit adds it. -/
theorem AppliedExactly.origin {edit : VersionEdit BlobFileMeta} {st st' : BlobStorage}
    (h : AppliedExactly edit st st') {f : UInt64} {file : BlobFileMeta}
    (hf : st'.files.lookup f = some file) : (f, file) ∈ edit.addedFiles ∨
      ∃ old, st.files.lookup f = some old ∧ (file = old ∨ file = { old with state := .kObsolete }) := by
  by_cases hadded : f ∈ edit.addedFiles.map (·.1)
  · by_cases hdeleted : f ∈ edit.deletedFiles.map (·.1)
    · rw [h.other f ⟨fun _ => hdeleted, fun _ => hadded⟩] at hf
      exact Or.inr ⟨file, hf, Or.inl rfl⟩
    · obtain ⟨g, hg, rfl⟩ := List.mem_map.mp hadded
      obtain rfl := Option.some.inj ((h.added g hg hdeleted).2.symm.trans hf)
      exact Or.inl hg
  · by_cases hdeleted : f ∈ edit.deletedFiles.map (·.1)
    · obtain ⟨g, hg, rfl⟩ := List.mem_map.mp hdeleted
      obtain ⟨old, hold, -, hnew⟩ := h.deleted g hg hadded
      exact Or.inr ⟨old, hold, Or.inr (Option.some.inj (hf.symm.trans hnew))⟩
    · rw [h.other f ⟨fun hyes => absurd hyes hadded, fun hyes => absurd hyes hdeleted⟩] at hf
      exact Or.inr ⟨file, hf, Or.inl rfl⟩

theorem lookup_of_mem_nodup {files : List (UInt64 × μ)} (hn : (files.map (·.1)).Nodup)
    {file : UInt64 × μ} (h : file ∈ files) : List.lookup file.1 files = some file.2 := by
  induction files with
  | nil => cases h
  | cons g files ih =>
      rw [List.map_cons] at hn
      obtain ⟨hg, hn⟩ := List.nodup_cons.mp hn
      rcases List.mem_cons.mp h with rfl | h
      · rw [List.lookup_cons, beq_self_eq_true]
      · have hne : file.1 ≠ g.1 := fun heq => hg (heq ▸ List.mem_map_of_mem h)
        have hbeq : (file.1 == g.1) = false := by simpa using hne
        rw [List.lookup_cons, hbeq]
        exact ih hn h

theorem lookup_of_not_mem {files : List (UInt64 × μ)} {n : UInt64} (h : n ∉ files.map (·.1)) :
    List.lookup n files = none := by
  rw [List.lookup_eq_none_iff]
  intro file hfile
  have hne : n ≠ file.1 := fun heq => h (heq ▸ List.mem_map_of_mem hfile)
  simpa using hne

theorem mem_newFiles {c : CFEditCollector μ} {file : UInt64 × μ} :
    file ∈ c.newFiles ↔ file ∈ c.addedFiles ∧ file.1 ∉ c.deletedFiles.map (·.1) := by
  simp only [CFEditCollector.newFiles, List.mem_filter, decide_eq_true_eq]

theorem mem_goneFiles {c : CFEditCollector μ} {file : UInt64 × ℕ} :
    file ∈ c.goneFiles ↔ file ∈ c.deletedFiles ∧ file.1 ∉ c.addedFiles.map (·.1) := by
  simp only [CFEditCollector.goneFiles, List.mem_filter, decide_eq_true_eq]

theorem newFiles_nodup {c : CFEditCollector μ} (h : (c.addedFiles.map (·.1)).Nodup) :
    (c.newFiles.map (·.1)).Nodup := h.sublist (List.filter_sublist.map _)

theorem lookup_of_fileStatus_none {st : BlobStorage} {n : UInt64} (h : st.fileStatus n = none) :
    st.files.lookup n = none := Option.map_eq_none_iff.mp h

theorem lookup_of_fileStatus_some {st : BlobStorage} {n : UInt64} {b : Bool}
    (h : st.fileStatus n = some b) : ∃ file, st.files.lookup n = some file ∧ file.isObsolete = b :=
  Option.map_eq_some_iff.mp h

/-- There is a counter for the level of every file that comes or goes. -/
structure LevelsInside (edit : VersionEdit BlobFileMeta) (st : BlobStorage) : Prop where
  added : ∀ file ∈ edit.addedFiles, file.1 ∉ edit.deletedFiles.map (·.1) →
    file.2.fileLevel.toNat < st.levelsFileCount.length
  deleted : ∀ file ∈ edit.deletedFiles, file.1 ∉ edit.addedFiles.map (·.1) →
    ∀ old, st.files.lookup file.1 = some old → old.fileLevel.toNat < st.levelsFileCount.length

theorem levelsInside_iff {edit : VersionEdit BlobFileMeta} {st : BlobStorage} :
    LevelsInside edit st ↔
      ((CFEditCollector.mk edit.addedFiles edit.deletedFiles).newFiles.any fun file =>
          st.faultsAt file.2.fileLevel) = false ∧
        ((CFEditCollector.mk edit.addedFiles edit.deletedFiles).goneFiles.any fun file =>
          (st.files.lookup file.1).any fun f => st.faultsAt f.fileLevel) = false := by
  simp only [List.any_eq_false, mem_newFiles, mem_goneFiles, BlobStorage.faultsAt, decide_eq_true_eq,
    not_le, Option.any_eq_true, not_exists, not_and, and_imp]
  exact ⟨fun h => ⟨h.added, fun file hfile hnot old hold => h.deleted file hfile hnot old hold⟩,
    fun h => ⟨h.1, fun file hfile hnot old hold => h.2 file hfile hnot old hold⟩⟩

/-- A sealed collector applies, and exactly, with an access behind the counters where a level is
too large. -/
theorem apply_of_sealed {edit : VersionEdit BlobFileMeta} {st : BlobStorage}
    (hadd : (edit.addedFiles.map (·.1)).Nodup)
    (hseal : (CFEditCollector.mk edit.addedFiles edit.deletedFiles).sealed st.fileStatus = .ok ()) :
    ∃ st', (CFEditCollector.mk edit.addedFiles edit.deletedFiles).apply st = (.ok, st') ∧
      AppliedExactly edit st st' ∧
      (st'.levelFault = false ↔ st.levelFault = false ∧ LevelsInside edit st) := by
  set c := CFEditCollector.mk edit.addedFiles edit.deletedFiles with hc
  obtain ⟨hnew, hgone⟩ := sealed_inv hseal
  set mid := c.newFiles.foldl (fun st file => st.addBlobFile file.1 file.2) st with hmid
  have hlook : ∀ n, mid.files.lookup n = (st.files.lookup n).or (List.lookup n c.newFiles) :=
    BlobStorage.lookup_foldl_addBlobFile c.newFiles st
  have holdgone : ∀ file ∈ c.goneFiles, ∃ old, st.files.lookup file.1 = some old ∧
      old.isObsolete = false ∧ mid.files.lookup file.1 = some old := by
    intro file hfile
    obtain ⟨old, hold, hlive⟩ := lookup_of_fileStatus_some (hgone file hfile)
    exact ⟨old, hold, hlive, by rw [hlook, hold, Option.some_or]⟩
  have hsome : ∀ file ∈ c.goneFiles, (mid.files.lookup file.1).isSome := by
    intro file hfile
    obtain ⟨old, -, -, hold⟩ := holdgone file hfile
    rw [hold]
    rfl
  obtain ⟨st', happly, hmark⟩ := applyDeleted_spec hsome
  refine ⟨st'.computeGCScore, ?_, ⟨?_, ?_, ?_, ?_⟩, ?_⟩
  · simp only [CFEditCollector.apply, ← hmid, happly, Status.isOk_ok, if_true]
  · intro file hfile hnot
    have hnone := lookup_of_fileStatus_none (hnew file hfile)
    have hng : file.1 ∉ c.goneFiles.map (·.1) := by
      intro hmem
      obtain ⟨g, hg, heq⟩ := List.mem_map.mp hmem
      exact hnot (heq ▸ List.mem_map_of_mem (mem_goneFiles.mp hg).1)
    refine ⟨hnone, ?_⟩
    change st'.files.lookup file.1 = some file.2
    rw [hmark.lookup_other _ hng, hlook, hnone, Option.none_or]
    exact lookup_of_mem_nodup (newFiles_nodup hadd) (mem_newFiles.mpr ⟨hfile, hnot⟩)
  · intro file hfile hnot
    have hg : file ∈ c.goneFiles := mem_goneFiles.mpr ⟨hfile, hnot⟩
    obtain ⟨old, hold, hlive, hmidold⟩ := holdgone file hg
    refine ⟨old, hold, hlive, ?_⟩
    change st'.files.lookup file.1 = _
    rw [hmark.lookup_mem _ (List.mem_map_of_mem hg), hmidold]
    rfl
  · intro n hiff
    have hng : n ∉ c.goneFiles.map (·.1) := by
      intro hmem
      obtain ⟨g, hg, rfl⟩ := List.mem_map.mp hmem
      obtain ⟨hdel, hnot⟩ := mem_goneFiles.mp hg
      exact hnot (hiff.mpr (List.mem_map_of_mem hdel))
    have hnn : n ∉ c.newFiles.map (·.1) := by
      intro hmem
      obtain ⟨g, hg, rfl⟩ := List.mem_map.mp hmem
      obtain ⟨hin, hnot⟩ := mem_newFiles.mp hg
      exact hnot (hiff.mp (List.mem_map_of_mem hin))
    change st'.files.lookup n = _
    rw [hmark.lookup_other _ hng, hlook, lookup_of_not_mem hnn, Option.or_none]
  · change st'.obsoleteFiles = _
    rw [hmark.obsolete, hmid, BlobStorage.obsoleteFiles_foldl_addBlobFile]
    rfl
  · have hlevels : ∀ level, mid.faultsAt level = st.faultsAt level :=
      BlobStorage.faultsAt_congr (BlobStorage.length_foldl_addBlobFile _ _)
    have hgonefault : (c.goneFiles.any fun file =>
          (mid.files.lookup file.1).any fun f => st.faultsAt f.fileLevel) =
        c.goneFiles.any fun file => (st.files.lookup file.1).any fun f => st.faultsAt f.fileLevel := by
      refine Bool.eq_iff_iff.mpr ?_
      simp only [List.any_eq_true]
      refine exists_congr fun file => and_congr_right fun hfile => ?_
      obtain ⟨old, hold, -, hmidold⟩ := holdgone file hfile
      rw [hmidold, hold]
    change st'.levelFault = false ↔ _
    simp only [hmark.fault, hlevels, hgonefault]
    rw [hmid, BlobStorage.levelFault_foldl_addBlobFile, levelsInside_iff, Bool.or_eq_false_iff,
      Bool.or_eq_false_iff, and_assoc]

/-! ## The call -/

namespace BlobFileSet

variable {s s' : BlobFileSet} {edit : VersionEdit BlobFileMeta} {io : ManifestIO}

def accepts (s : BlobFileSet) (edit : VersionEdit BlobFileMeta) : Prop :=
  ∃ c, EditCollector.empty.addEdit (s.withNext edit) = .ok c ∧
    c.sealIn [edit.columnFamilyId] s.columnFamilies = .ok ()

structure Acceptable (edit : VersionEdit BlobFileMeta) (st : BlobStorage) : Prop where
  added : (edit.addedFiles.map (·.1)).Nodup
  deleted : (edit.deletedFiles.map (·.1)).Nodup
  fresh : ∀ file ∈ edit.addedFiles, st.files.lookup file.1 = none
  live : ∀ file ∈ edit.deletedFiles, file.1 ∉ edit.addedFiles.map (·.1) →
    ∃ old, st.files.lookup file.1 = some old ∧ old.isObsolete = false

theorem fileStatus_eq_some {st : BlobStorage} {n : UInt64} {b : Bool} :
    st.fileStatus n = some b ↔ ∃ old, st.files.lookup n = some old ∧ old.isObsolete = b :=
  Option.map_eq_some_iff

theorem Acceptable.sealed {st : BlobStorage} (h : Acceptable edit st) :
    (CFEditCollector.mk edit.addedFiles edit.deletedFiles).sealed st.fileStatus = .ok () := by
  have hfresh : ∀ file ∈ edit.addedFiles, st.fileStatus file.1 = none :=
    fun file hfile => Option.map_eq_none_iff.mpr (h.fresh file hfile)
  rw [CFEditCollector.sealed]
  rw [forM_ok fun file hfile => by rw [hfresh file hfile]]
  refine forM_ok fun file hfile => ?_
  split_ifs with hmem
  · rfl
  · rw [fileStatus_eq_some.mpr (h.live file hfile hmem)]

theorem accepts_iff {st : BlobStorage} (hst : s.columnFamilies.lookup edit.columnFamilyId = some st) :
    s.accepts edit ↔ Acceptable edit st := by
  constructor
  · rintro ⟨c, hadd, hseal⟩
    obtain ⟨hc, hna, hnd⟩ := addEdit_empty hadd
    have hc' : c.columnFamilies edit.columnFamilyId = ⟨edit.addedFiles, edit.deletedFiles⟩ := hc
    have hseal := forM_eq_ok.mp hseal edit.columnFamilyId List.mem_cons_self
    simp only [hst, hc'] at hseal
    obtain ⟨hnew, hgone⟩ := sealed_inv hseal
    exact ⟨hna, hnd, fun file hfile => lookup_of_fileStatus_none (hnew file hfile),
      fun file hfile hnot => fileStatus_eq_some.mp (hgone file (mem_goneFiles.mpr ⟨hfile, hnot⟩))⟩
  · intro h
    refine ⟨_, addEdit_of_fresh h.added h.deleted (fun f _ hf => by cases hf)
      (fun f _ hf => by cases hf) (fun n _ m hm => by cases hm), forM_eq_ok.mpr fun cf hcf => ?_⟩
    obtain rfl := List.mem_singleton.mp hcf
    have hcolumn : (s.withNext edit).columnFamilyId = edit.columnFamilyId := rfl
    simp only [hst, hcolumn, Function.update_self]
    exact h.sealed

/-- An edit that only deletes live files, each once, is accepted. -/
theorem accepts_of_deletions {st : BlobStorage}
    (hst : s.columnFamilies.lookup edit.columnFamilyId = some st) (hadded : edit.addedFiles = [])
    (hn : (edit.deletedFiles.map (·.1)).Nodup)
    (hlive : ∀ file ∈ edit.deletedFiles, ∃ old, st.files.lookup file.1 = some old ∧
      old.isObsolete = false) : s.accepts edit := by
  refine (accepts_iff hst).mpr ⟨?_, hn, ?_, fun file hfile _ => hlive file hfile⟩
  · rw [hadded]
    exact List.nodup_nil
  · rw [hadded]
    intro file hfile
    cases hfile

/-- The set with the record of the edit at the end of its manifest. -/
def logged (s : BlobFileSet) (edit : VersionEdit BlobFileMeta) : BlobFileSet :=
  { s with manifest := s.manifest ++ [(s.withNext edit).encodeTo] }

inductive Applies (edit : VersionEdit BlobFileMeta) (storages : BlobStorages) : BlobStorages → Prop
  | unknown (h : storages.lookup edit.columnFamilyId = none) : Applies edit storages storages
  | known {st st' : BlobStorage} (h : storages.lookup edit.columnFamilyId = some st)
      (hst : AppliedExactly edit st st') :
      Applies edit storages (storages.insert edit.columnFamilyId st')

/-- No access behind the counters of a storage so far. -/
def FaultFree (storages : BlobStorages) : Prop :=
  ∀ cf st, storages.lookup cf = some st → st.levelFault = false

/-- `Apply` after `Seal`. -/
theorem applyTo_of_sealIn {c : EditCollector BlobFileMeta}
    (hadd : EditCollector.empty.addEdit (s.withNext edit) = .ok c)
    (hseal : c.sealIn [edit.columnFamilyId] s.columnFamilies = .ok ()) :
    ∃ storages, c.applyTo [edit.columnFamilyId] s.columnFamilies = (.ok, storages) ∧
      Applies edit s.columnFamilies storages ∧
      (FaultFree s.columnFamilies → (FaultFree storages ↔
        ∀ st, s.columnFamilies.lookup edit.columnFamilyId = some st → LevelsInside edit st)) := by
  obtain ⟨hc, hna, -⟩ := addEdit_empty hadd
  change (edit.addedFiles.map (·.1)).Nodup at hna
  have hseal := forM_eq_ok.mp hseal edit.columnFamilyId List.mem_cons_self
  cases hcf : s.columnFamilies.lookup edit.columnFamilyId with
  | none =>
      refine ⟨s.columnFamilies, by simp only [EditCollector.applyTo, hcf], .unknown hcf, fun hfree => ?_⟩
      exact iff_of_true hfree fun st hst => by cases hst
  | some st =>
      simp only [hcf] at hseal
      have hc' : c.columnFamilies edit.columnFamilyId = ⟨edit.addedFiles, edit.deletedFiles⟩ := hc
      rw [hc'] at hseal
      obtain ⟨st', happly, hst', hfault⟩ := apply_of_sealed hna hseal
      refine ⟨s.columnFamilies.insert edit.columnFamilyId st', ?_, .known hcf hst', fun hfree => ?_⟩
      · simp only [EditCollector.applyTo, hcf, hc', happly, Status.isOk_ok, if_true]
      constructor
      · intro hafter st₀ hst₀
        obtain rfl := Option.some.inj hst₀
        exact (hfault.mp (hafter _ _ (AList.lookup_insert _))).2
      · intro hlevels cf st₀ hst₀
        by_cases h : cf = edit.columnFamilyId
        · subst h
          rw [AList.lookup_insert] at hst₀
          obtain rfl := Option.some.inj hst₀
          exact hfault.mpr ⟨hfree _ _ hcf, hlevels st rfl⟩
        · exact hfree cf st₀ ((AList.lookup_insert_ne h).symm.trans hst₀)

/-- All that a call can do. -/
theorem logAndApply_cases (s : BlobFileSet) (edit : VersionEdit BlobFileMeta) (io : ManifestIO) :
    ((s.logAndApply edit io).1.isOk = false ∧ (s.logAndApply edit io).2 = s ∧
        ¬(s.accepts edit ∧ io.addRecord.isOk)) ∨
      (s.accepts edit ∧ io.addRecord.isOk ∧ io.sync.isOk = false ∧
        (s.logAndApply edit io).1.isOk = false ∧ (s.logAndApply edit io).2 = s.logged edit) ∨
      (s.accepts edit ∧ io.addRecord.isOk ∧ io.sync.isOk ∧ (s.logAndApply edit io).1.isOk ∧
        ∃ storages, Applies edit s.columnFamilies storages ∧
          (s.logAndApply edit io).2 = { s.logged edit with columnFamilies := storages }) := by
  rw [logAndApply]
  cases hadd : EditCollector.empty.addEdit (s.withNext edit) with
  | error e =>
      refine Or.inl ⟨addEdit_errorsOnly _ _ e hadd, rfl, ?_⟩
      rintro ⟨⟨c, hc, -⟩, -⟩
      cases hadd.symm.trans hc
  | ok c =>
      dsimp only
      cases hseal : c.sealIn [edit.columnFamilyId] s.columnFamilies with
      | error e =>
          refine Or.inl ⟨sealIn_errorsOnly _ _ _ e hseal, rfl, ?_⟩
          rintro ⟨⟨c', hc', hseal'⟩, -⟩
          obtain rfl := Except.ok.inj (hadd.symm.trans hc')
          cases hseal.symm.trans hseal'
      | ok u =>
          have hacc : s.accepts edit := ⟨c, hadd, hseal⟩
          dsimp only
          cases hrec : io.addRecord.isOk with
          | false => exact Or.inl ⟨by simp [hrec], by simp, by simp⟩
          | true =>
              cases hsync : io.sync.isOk with
              | false => exact Or.inr (Or.inl ⟨hacc, rfl, rfl, by simp [hsync], by simp [logged]⟩)
              | true =>
                  obtain ⟨storages, happly, hst, -⟩ := applyTo_of_sealIn hadd hseal
                  refine Or.inr (Or.inr ⟨hacc, rfl, rfl, ?_, storages, hst, ?_⟩)
                  · simp [happly]
                  · simp [happly, logged]

/-- A call with an accepted edit whose record gets written. -/
theorem logAndApply_of_accepts {st : BlobStorage}
    (hst : s.columnFamilies.lookup edit.columnFamilyId = some st) (haccepts : s.accepts edit)
    (hrecord : io.addRecord.isOk) (hsync : io.sync.isOk) :
    (s.logAndApply edit io).1.isOk ∧ ∃ st', AppliedExactly edit st st' ∧
      (s.logAndApply edit io).2 = { s.logged edit with
        columnFamilies := s.columnFamilies.insert edit.columnFamilyId st' } := by
  rcases logAndApply_cases s edit io with ⟨-, -, hno⟩ | ⟨-, -, hno, -⟩ |
    ⟨-, -, -, hok, storages, happlies, hs⟩
  · exact absurd ⟨haccepts, hrecord⟩ hno
  · rw [hsync] at hno
    cases hno
  · refine ⟨hok, ?_⟩
    cases happlies with
    | unknown hnone => cases hnone.symm.trans hst
    | known hst₀ happlied =>
        obtain rfl := Option.some.inj (hst₀.symm.trans hst)
        exact ⟨_, happlied, hs⟩

theorem lookup_logAndApply_ne {g : UInt32} (hg : g ≠ edit.columnFamilyId) :
    (s.logAndApply edit io).2.columnFamilies.lookup g = s.columnFamilies.lookup g := by
  rcases logAndApply_cases s edit io with ⟨-, hs, -⟩ | ⟨-, -, -, -, hs⟩ |
    ⟨-, -, -, -, storages, hst, hs⟩
  · rw [hs]
  · rw [hs]
    rfl
  · rw [hs]
    cases hst with
    | unknown => rfl
    | known => exact AList.lookup_insert_ne hg

/-- Every file after a call was there before or is new, and changes in its state at most. -/
theorem origin_logAndApply {g : UInt32} {st' : BlobStorage} {f : UInt64} {file : BlobFileMeta}
    (hst' : (s.logAndApply edit io).2.columnFamilies.lookup g = some st')
    (hf : st'.files.lookup f = some file) :
    (g = edit.columnFamilyId ∧ (f, file) ∈ edit.addedFiles) ∨
      ∃ st old, s.columnFamilies.lookup g = some st ∧ st.files.lookup f = some old ∧
        (file = old ∨ file = { old with state := .kObsolete }) := by
  rcases logAndApply_cases s edit io with ⟨-, hs, -⟩ | ⟨-, -, -, -, hs⟩ |
    ⟨-, -, -, -, storages, happlies, hs⟩
  · rw [hs] at hst'
    exact Or.inr ⟨st', file, hst', hf, Or.inl rfl⟩
  · rw [hs] at hst'
    exact Or.inr ⟨st', file, hst', hf, Or.inl rfl⟩
  · rw [hs] at hst'
    cases happlies with
    | unknown _ => exact Or.inr ⟨st', file, hst', hf, Or.inl rfl⟩
    | @known st st'' hst happlied =>
        by_cases hg : g = edit.columnFamilyId
        · subst hg
          obtain rfl := Option.some.inj ((AList.lookup_insert _).symm.trans hst')
          rcases happlied.origin hf with hnew | ⟨old, hold, hsame⟩
          · exact Or.inl ⟨rfl, hnew⟩
          · exact Or.inr ⟨st, old, hst, hold, hsame⟩
        · exact Or.inr ⟨st', file, (AList.lookup_insert_ne hg).symm.trans hst', hf, Or.inl rfl⟩

/-- What is asked of a call: when it fails, the storages of all column families stay as they are; a
sealed collector applies, with all its accesses inside the counters; when it succeeds, exactly the
edit is applied. -/
structure AtomicAndExact (s : BlobFileSet) (edit : VersionEdit BlobFileMeta) (io : ManifestIO) :
    Prop where
  unchanged : (s.logAndApply edit io).1.isOk = false →
    (s.logAndApply edit io).2.columnFamilies = s.columnFamilies
  applies : ∀ c, EditCollector.empty.addEdit (s.withNext edit) = .ok c →
    c.sealIn [edit.columnFamilyId] s.columnFamilies = .ok () →
      (c.applyTo [edit.columnFamilyId] s.columnFamilies).1.isOk = true ∧
        FaultFree (c.applyTo [edit.columnFamilyId] s.columnFamilies).2
  exact : (s.logAndApply edit io).1.isOk = true →
    Applies edit s.columnFamilies (s.logAndApply edit io).2.columnFamilies

theorem logAndApply_unchanged (hfail : (s.logAndApply edit io).1.isOk = false) :
    (s.logAndApply edit io).2.columnFamilies = s.columnFamilies := by
  rcases logAndApply_cases s edit io with ⟨-, hs, -⟩ | ⟨-, -, -, -, hs⟩ | ⟨-, -, -, hok, -⟩
  · rw [hs]
  · rw [hs]
    rfl
  · rw [hfail] at hok
    cases hok

theorem applies_of_ok (hok : (s.logAndApply edit io).1.isOk = true) :
    Applies edit s.columnFamilies (s.logAndApply edit io).2.columnFamilies := by
  rcases logAndApply_cases s edit io with ⟨hno, -, -⟩ | ⟨-, -, -, hno, -⟩ |
    ⟨-, -, -, -, storages, hst, hs⟩
  · rw [hok] at hno
    cases hno
  · rw [hok] at hno
    cases hno
  · rw [hs]
    exact hst

theorem AtomicAndExact.levelsInside (hatomic : s.AtomicAndExact edit io)
    (h : FaultFree s.columnFamilies) {st : BlobStorage}
    (hst : s.columnFamilies.lookup edit.columnFamilyId = some st) (hacceptable : Acceptable edit st) :
    LevelsInside edit st := by
  obtain ⟨c, hadd, hseal⟩ := (accepts_iff hst).mpr hacceptable
  obtain ⟨storages, happly, -, hfault⟩ := applyTo_of_sealIn hadd hseal
  have hfree := (hatomic.applies c hadd hseal).2
  rw [happly] at hfree
  exact (hfault h).mp hfree st hst

/-- The one thing that `Seal` does not look at is the level of the files. -/
theorem atomicAndExact_iff (h : FaultFree s.columnFamilies) :
    s.AtomicAndExact edit io ↔ ∀ st, s.columnFamilies.lookup edit.columnFamilyId = some st →
      Acceptable edit st → LevelsInside edit st := by
  constructor
  · intro hatomic st hst hacceptable
    exact hatomic.levelsInside h hst hacceptable
  · intro hlevels
    refine ⟨logAndApply_unchanged, fun c hadd hseal => ?_, applies_of_ok⟩
    obtain ⟨storages, happly, -, hfault⟩ := applyTo_of_sealIn hadd hseal
    rw [happly]
    exact ⟨rfl, (hfault h).mpr fun st hst =>
      hlevels st hst ((accepts_iff hst).mp ⟨c, hadd, hseal⟩)⟩

/-! ## Runs -/

/-- One column family with `num_levels` 7 and without files. -/
def oneColumn : BlobFileSet where
  columnFamilies := AList.singleton 0 (.empty ⟨compare, 7, 8388608, 0.5⟩)
  obsoleteColumns := []
  nextFileNumber := 8
  manifest := []
  manifestFileNumber := 1
  obsoleteManifests := []

def addsAtLevel (level : UInt32) : VersionEdit BlobFileMeta :=
  ⟨0, none, [(7, ⟨100, 2, level, .ofByte 98, .ofByte 99, 0, .kInit⟩)], []⟩

theorem faultFree_oneColumn : FaultFree oneColumn.columnFamilies := by
  intro cf st hst
  by_cases hcf : cf = 0
  · subst hcf
    obtain rfl := Option.some.inj hst
    rfl
  · have hnone : oneColumn.columnFamilies.lookup cf = none :=
      AList.lookup_eq_none.mpr fun hmem => hcf (List.mem_singleton.mp hmem)
    rw [hnone] at hst
    cases hst

theorem acceptable_addsAtLevel (level : UInt32) :
    Acceptable (addsAtLevel level) (.empty ⟨compare, 7, 8388608, 0.5⟩) where
  added := List.nodup_singleton _
  deleted := List.nodup_nil
  fresh file _ := rfl
  live file hfile := by cases hfile

theorem addsAtLevel_six_atomic : oneColumn.AtomicAndExact (addsAtLevel 6) ⟨.ok, .ok⟩ := by
  refine (atomicAndExact_iff faultFree_oneColumn).mpr fun st hst _ => ?_
  obtain rfl := Option.some.inj hst
  refine ⟨fun file hfile _ => ?_, fun file hfile => by cases hfile⟩
  obtain rfl := List.mem_singleton.mp hfile
  decide

/-- `Seal` accepts a file at level 9 of 7, and `Apply` counts it behind the counters. -/
theorem not_atomicAndExact_nine : ¬oneColumn.AtomicAndExact (addsAtLevel 9) ⟨.ok, .ok⟩ := by
  intro hatomic
  have hlevels := hatomic.levelsInside faultFree_oneColumn rfl (acceptable_addsAtLevel 9)
  exact absurd (hlevels.added _ List.mem_cons_self List.not_mem_nil) (by decide)

end BlobFileSet
end AegonKV
