import AegonKV.ClassCounters
import AegonKV.GcLifecycle
import AegonKV.TransitionSystem

/-!
# The redundant structures of a blob storage

A `BlobStorage` keeps its files in `files_` and, besides, a multimap by smallest key, a list of the
obsolete ones, a counter for each level and a list of scores. They agree after any run of the
operations that change them. An operation that would trip an assertion has no next state.
-/

namespace AegonKV
namespace BlobStorage
open ClassCounters (entries_perm_of_lookup ne_of_mem_erase)

abbrev FileEntry := (_ : UInt64) × BlobFileMeta

def countsAt (l : ℕ) (e : FileEntry) : Bool := !e.2.isObsolete && e.2.fileLevel.toNat == l

/-- The number of files of a level that are not obsolete. -/
def liveAt (st : BlobStorage) (l : ℕ) : ℕ := st.files.entries.countP (countsAt l)

/-- What the source trusts about the structures beside `files_`. Numbers are distinct in `files_`,
so that a permutation of its entries lists each file once. -/
structure Represents (st : BlobStorage) : Prop where
  ranges : st.blobRanges.Perm (st.files.entries.map fun e => (e.2.smallestKey, e.1))
  obsolete : (st.obsoleteFiles.map (·.1)).Perm
    ((st.files.entries.filter fun e => e.2.isObsolete).map (·.1))
  levels : ∀ l < st.cfOptions.numLevels, st.levelsFileCount[l]? = some (st.liveAt l : ℤ)
  scores : ∀ g ∈ st.gcScore, g.fileNumber ∈ st.files

/-! ## One file more, less or changed -/

theorem entries_insert (files : AList fun _ : UInt64 => BlobFileMeta) (n : UInt64)
    (file : BlobFileMeta) : (files.insert n file).entries = ⟨n, file⟩ :: (files.erase n).entries := rfl

theorem insertRange_perm (st : BlobStorage) (key : Key) (n : UInt64) :
    (st.insertRange key n).Perm ((key, n) :: st.blobRanges) := by
  rw [insertRange]
  refine List.perm_middle.trans ?_
  rw [List.takeWhile_append_dropWhile]

theorem eraseP_perm {α : Type} {p : α → Bool} {l rest : List α} {a : α} (hl : l.Perm (a :: rest))
    (ha : p a = true) (hrest : ∀ b ∈ rest, p b = false) : (l.eraseP p).Perm rest := by
  have hmem : a ∈ l := hl.symm.subset List.mem_cons_self
  obtain ⟨b, l₁, l₂, -, hb, hsplit, herase⟩ := List.exists_of_eraseP hmem ha
  have hba : b = a := by
    have hin : b ∈ a :: rest := hl.subset (hsplit ▸ List.mem_append_right _ List.mem_cons_self)
    rcases List.mem_cons.mp hin with h | h
    · exact h
    · cases hb.symm.trans (hrest b h)
  rw [herase]
  rw [hsplit, hba] at hl
  exact List.Perm.cons_inv (List.perm_middle.symm.trans hl)

/-! ## The invariant -/

/-- The structures agree, with `obsolete` in the place of the list of obsolete files, and the scored
files are live. -/
structure Consistent (obsolete : List UInt64) (st : BlobStorage) : Prop where
  ranges : st.blobRanges.Perm (st.files.entries.map fun e => (e.2.smallestKey, e.1))
  obsolete : obsolete.Perm ((st.files.entries.filter fun e => e.2.isObsolete).map (·.1))
  length : st.levelsFileCount.length = st.cfOptions.numLevels
  levels : ∀ l < st.cfOptions.numLevels, st.levelsFileCount[l]? = some (st.liveAt l : ℤ)
  below : ∀ e ∈ st.files.entries, e.2.fileLevel.toNat < st.cfOptions.numLevels

/-- Scored files are there and not obsolete. -/
def Scored (st : BlobStorage) : Prop :=
  ∀ g ∈ st.gcScore, ∃ file, st.files.lookup g.fileNumber = some file ∧ file.isObsolete = false

variable {st : BlobStorage} {obsolete : List UInt64}

theorem Consistent.perm {obsolete' : List UInt64} (h : Consistent obsolete st)
    (hp : obsolete.Perm obsolete') : Consistent obsolete' st :=
  ⟨h.ranges, hp.symm.trans h.obsolete, h.length, h.levels, h.below⟩

theorem consistent_empty (options : TitanCFOptions) : Consistent [] (empty options) where
  ranges := List.Perm.nil
  obsolete := List.Perm.nil
  length := List.length_replicate
  levels l hl := by
    rw [empty, List.getElem?_replicate]
    exact if_pos hl
  below e he := by cases he

theorem Consistent.addBlobFile (h : Consistent obsolete st) {n : UInt64} {file : BlobFileMeta}
    (hnew : st.files.lookup n = none) (hlive : file.isObsolete = false)
    (hlevel : file.fileLevel.toNat < st.cfOptions.numLevels) :
    Consistent obsolete (st.addBlobFile n file) := by
  have hnot : n ∉ st.files := AList.lookup_eq_none.mp hnew
  have hentries : (st.addBlobFile n file).files.entries = ⟨n, file⟩ :: st.files.entries := by
    rw [BlobStorage.addBlobFile]
    simp only [if_neg hnot]
    exact AList.entries_insert_of_notMem hnot
  refine ⟨?_, ?_, ?_, ?_, ?_⟩
  · rw [hentries, List.map_cons]
    exact (insertRange_perm st _ _).trans (h.ranges.cons _)
  · rw [hentries, List.filter_cons_of_neg (by simp [hlive])]
    exact h.obsolete
  · exact (List.length_modify _ _ _).trans h.length
  · intro l hl
    have hcount : (st.addBlobFile n file).liveAt l =
        st.liveAt l + if file.fileLevel.toNat = l then 1 else 0 := by
      rw [liveAt, hentries, List.countP_cons, liveAt]
      simp [countsAt, hlive]
    rw [hcount]
    change (st.levelsFileCount.modify file.fileLevel.toNat (· + 1))[l]? = _
    rw [List.getElem?_modify, h.levels l hl]
    split_ifs
    · simp
    · simp
  · intro e he
    rw [hentries] at he
    rcases List.mem_cons.mp he with rfl | he
    · exact hlevel
    · exact h.below e he

theorem Consistent.markFileObsolete (h : Consistent obsolete st) {n : UInt64} {file : BlobFileMeta}
    {seq : ℕ} {st' : BlobStorage} (hfile : st.files.lookup n = some file)
    (hlive : file.isObsolete = false) (hmark : st.markFileObsolete n seq = some st') :
    Consistent (obsolete ++ [n]) st' := by
  rw [BlobStorage.markFileObsolete, hfile] at hmark
  obtain rfl := Option.some.inj hmark
  have hperm := entries_perm_of_lookup hfile
  have hgone : BlobFileMeta.isObsolete { file with state := .kObsolete } = true := rfl
  refine ⟨?_, ?_, ?_, ?_, ?_⟩
  · exact h.ranges.trans (hperm.map _)
  · rw [entries_insert, List.filter_cons, if_pos hgone, List.map_cons]
    refine (List.perm_append_comm).trans (List.Perm.cons n ?_)
    refine h.obsolete.trans ?_
    have hfilter := (hperm.filter fun e => e.2.isObsolete).map (·.1)
    rwa [List.filter_cons_of_neg (by simp [hlive])] at hfilter
  · exact (List.length_modify _ _ _).trans h.length
  · intro l hl
    have hbefore : st.liveAt l = (st.files.erase n).entries.countP (countsAt l) +
        if file.fileLevel.toNat = l then 1 else 0 := by
      rw [liveAt, hperm.countP_eq, List.countP_cons]
      simp [countsAt, hlive]
    have hafter : List.countP (countsAt l)
        (st.files.insert n { file with state := .kObsolete }).entries =
        (st.files.erase n).entries.countP (countsAt l) := by
      rw [entries_insert, List.countP_cons]
      simp [countsAt, hgone]
    change (st.levelsFileCount.modify file.fileLevel.toNat (· - 1))[l]? = some ((_ : ℕ) : ℤ)
    rw [List.getElem?_modify, h.levels l hl, hbefore, liveAt, hafter]
    split_ifs
    · simp
    · simp
  · intro e he
    rw [entries_insert] at he
    rcases List.mem_cons.mp he with rfl | he
    · exact h.below ⟨n, file⟩ (hperm.symm.subset List.mem_cons_self)
    · exact h.below e (hperm.symm.subset (List.mem_cons_of_mem _ he))

theorem Consistent.mem_files (h : Consistent obsolete st) {n : UInt64} (hn : n ∈ obsolete) :
    ∃ file, st.files.lookup n = some file ∧ file.isObsolete = true := by
  obtain ⟨e, he, rfl⟩ := List.mem_map.mp (h.obsolete.subset hn)
  obtain ⟨he, hobsolete⟩ := List.mem_filter.mp he
  exact ⟨e.2, AList.mem_lookup_iff.mpr he, hobsolete⟩

theorem removeFile_cfOptions (st : BlobStorage) (n : UInt64) :
    (st.removeFile n).cfOptions = st.cfOptions := by
  rw [removeFile]
  split <;> rfl

theorem removeFile_gcScore (st : BlobStorage) (n : UInt64) :
    (st.removeFile n).gcScore = st.gcScore := by
  rw [removeFile]
  split <;> rfl

/-- The file goes out of all structures but the list of obsolete files, which follows. -/
theorem Consistent.removeFile {n : UInt64} (h : Consistent (n :: obsolete) st)
    (hcmp : ∀ k, st.cfOptions.comparator k k = .eq) : Consistent obsolete (st.removeFile n) := by
  obtain ⟨file, hfile, hgone⟩ := h.mem_files List.mem_cons_self
  have hperm := entries_perm_of_lookup hfile
  rw [BlobStorage.removeFile, hfile]
  refine ⟨?_, ?_, h.length, ?_, ?_⟩
  · refine eraseP_perm (h.ranges.trans (hperm.map _)) ?_ fun p hp => ?_
    · simp [hcmp]
    · obtain ⟨e, he, rfl⟩ := List.mem_map.mp hp
      simp [ne_of_mem_erase he]
  · have hfilter := (hperm.filter fun e => e.2.isObsolete).map (·.1)
    rw [List.filter_cons, if_pos hgone, List.map_cons] at hfilter
    exact List.Perm.cons_inv (h.obsolete.trans hfilter)
  · intro l hl
    have hsame : st.liveAt l = (st.files.erase n).entries.countP (countsAt l) := by
      rw [liveAt, hperm.countP_eq, List.countP_cons]
      simp [countsAt, hgone]
    rw [liveAt, ← hsame]
    exact h.levels l hl
  · intro e he
    exact h.below e (hperm.symm.subset (List.mem_cons_of_mem _ he))

theorem Consistent.foldl_removeFile {removed : List UInt64}
    (h : Consistent (removed ++ obsolete) st)
    (hcmp : ∀ k, st.cfOptions.comparator k k = .eq) :
    Consistent obsolete (removed.foldl BlobStorage.removeFile st) := by
  induction removed generalizing st with
  | nil => exact h
  | cons n removed ih =>
      refine ih (h.removeFile hcmp) fun k => ?_
      rw [removeFile_cfOptions]
      exact hcmp k

theorem removeFile_lookup_ne (st : BlobStorage) {n m : UInt64} (hne : m ≠ n) :
    (st.removeFile n).files.lookup m = st.files.lookup m := by
  rw [removeFile]
  split
  · rfl
  · exact AList.lookup_erase_ne hne

theorem foldl_removeFile_frame (removed : List UInt64) (st : BlobStorage) :
    (removed.foldl removeFile st).gcScore = st.gcScore ∧
      (removed.foldl removeFile st).cfOptions = st.cfOptions ∧
      ∀ m ∉ removed, (removed.foldl removeFile st).files.lookup m = st.files.lookup m := by
  induction removed generalizing st with
  | nil => exact ⟨rfl, rfl, fun _ _ => rfl⟩
  | cons n removed ih =>
      obtain ⟨hscore, hoptions, hlookup⟩ := ih (st.removeFile n)
      refine ⟨hscore.trans (removeFile_gcScore st n), hoptions.trans (removeFile_cfOptions st n), ?_⟩
      intro m hm
      obtain ⟨hne, hnot⟩ := List.ne_and_not_mem_of_not_mem_cons hm
      exact (hlookup m hnot).trans (removeFile_lookup_ne st hne)

/-! ## The operations -/

structure Sound (options : TitanCFOptions) (st : BlobStorage) : Prop where
  options : st.cfOptions = options
  consistent : Consistent (st.obsoleteFiles.map (·.1)) st
  scored : st.Scored

theorem Sound.represents {options : TitanCFOptions} (h : Sound options st) : Represents st where
  ranges := h.consistent.ranges
  obsolete := h.consistent.obsolete
  levels := h.consistent.levels
  scores g hg := by
    obtain ⟨file, hfile, -⟩ := h.scored g hg
    exact AList.lookup_isSome.mp (by rw [hfile]; rfl)

theorem scored_computeGCScore (st : BlobStorage) : st.computeGCScore.Scored := by
  intro g hg
  have hg := List.mem_mergeSort.mp hg
  obtain ⟨e, he, rfl⟩ := List.mem_map.mp hg
  obtain ⟨he, hlive⟩ := List.mem_filter.mp he
  exact ⟨e.2, AList.mem_lookup_iff.mpr he, by simpa using hlive⟩

theorem Sound.getObsoleteFiles {options : TitanCFOptions} (h : Sound options st)
    (hcmp : ∀ k, options.comparator k k = .eq) (oldestSequence : ℕ) :
    Sound options (st.getObsoleteFiles oldestSequence).2 := by
  have hparts : ((st.obsoleteFiles.filter fun p => p.2 < oldestSequence).map (·.1) ++
      (st.obsoleteFiles.filter fun p => !decide (p.2 < oldestSequence)).map (·.1)).Perm
      (st.obsoleteFiles.map (·.1)) := by
    rw [← List.map_append]
    exact (List.filter_append_perm _ _).map _
  obtain ⟨hscore, hoptions, hlookup⟩ := foldl_removeFile_frame
    ((st.obsoleteFiles.filter fun p => p.2 < oldestSequence).map (·.1)) st
  have hkept := (h.consistent.perm hparts.symm).foldl_removeFile fun k => by
    rw [h.options]
    exact hcmp k
  refine ⟨hoptions.trans h.options, ⟨hkept.ranges, hkept.obsolete, hkept.length, hkept.levels,
    hkept.below⟩, ?_⟩
  intro g hg
  obtain ⟨file, hfile, hlive⟩ := h.scored g (hscore ▸ hg)
  have hnot : g.fileNumber ∉ (st.obsoleteFiles.filter fun p => p.2 < oldestSequence).map (·.1) := by
    intro hmem
    obtain ⟨file', hfile', hgone⟩ := h.consistent.mem_files
      (hparts.subset (List.mem_append_left _ hmem))
    obtain rfl := Option.some.inj (hfile.symm.trans hfile')
    cases hlive.symm.trans hgone
  exact ⟨file, (hlookup _ hnot).trans hfile, hlive⟩

/-- A file that an edit may add: a new one, of a level that the column family has. -/
def Fresh (options : TitanCFOptions) (file : BlobFileMeta) : Prop :=
  file.isObsolete = false ∧ file.fileLevel.toNat < options.numLevels

theorem Consistent.foldl_addBlobFile {files : List (UInt64 × BlobFileMeta)}
    (h : Consistent obsolete st) (hn : (files.map (·.1)).Nodup)
    (hnew : ∀ file ∈ files, st.files.lookup file.1 = none)
    (hfresh : ∀ file ∈ files, Fresh st.cfOptions file.2) :
    Consistent obsolete (files.foldl (fun st file => st.addBlobFile file.1 file.2) st) := by
  induction files generalizing st with
  | nil => exact h
  | cons file files ih =>
      rw [List.map_cons] at hn
      obtain ⟨hnot, hn⟩ := List.nodup_cons.mp hn
      obtain ⟨hlive, hlevel⟩ := hfresh file List.mem_cons_self
      refine ih (h.addBlobFile (hnew file List.mem_cons_self) hlive hlevel) hn ?_ ?_
      · intro g hg
        have hne : g.1 ≠ file.1 := fun heq => hnot (heq ▸ List.mem_map_of_mem hg)
        have hsame : (st.addBlobFile file.1 file.2).files.lookup g.1 = st.files.lookup g.1 := by
          rw [BlobStorage.addBlobFile]
          split_ifs
          · rfl
          · exact AList.lookup_insert_ne hne
        rw [hsame]
        exact hnew g (List.mem_cons_of_mem _ hg)
      · exact fun g hg => hfresh g (List.mem_cons_of_mem _ hg)

/-- Marking live files, each once. -/
theorem Consistent.applyDeleted {files : List (UInt64 × ℕ)} (h : Consistent obsolete st)
    (hn : (files.map (·.1)).Nodup)
    (hlive : ∀ file ∈ files, ∃ old, st.files.lookup file.1 = some old ∧ old.isObsolete = false) :
    ∃ st', CFEditCollector.applyDeleted files st = (.ok, st') ∧
      Consistent (obsolete ++ files.map (·.1)) st' ∧ st'.cfOptions = st.cfOptions ∧
      st'.obsoleteFiles = st.obsoleteFiles ++ files := by
  induction files generalizing st obsolete with
  | nil => exact ⟨st, rfl, by rwa [List.map_nil, List.append_nil], rfl, (List.append_nil _).symm⟩
  | cons file files ih =>
      rw [List.map_cons] at hn
      obtain ⟨hnot, hn⟩ := List.nodup_cons.mp hn
      obtain ⟨old, hold, hlv⟩ := hlive file List.mem_cons_self
      obtain ⟨mid, hmark, hmid⟩ := markFileObsolete_spec (by rw [hold]; rfl)
      have hoptions : mid.cfOptions = st.cfOptions := by
        rw [BlobStorage.markFileObsolete, hold] at hmark
        obtain rfl := Option.some.inj hmark
        rfl
      have hrest : ∀ g ∈ files, ∃ old, mid.files.lookup g.1 = some old ∧ old.isObsolete = false := by
        intro g hg
        have hne : g.1 ∉ [file].map (·.1) := by
          rw [List.map_singleton, List.mem_singleton]
          exact fun heq => hnot (heq ▸ List.mem_map_of_mem hg)
        rw [hmid.lookup_other _ hne]
        exact hlive g (List.mem_cons_of_mem _ hg)
      obtain ⟨st', happly, hst', hopt', hobs'⟩ := ih (h.markFileObsolete hold hlv hmark) hn hrest
      refine ⟨st', ?_, ?_, hopt'.trans hoptions, ?_⟩
      · rw [CFEditCollector.applyDeleted, hmark]
        exact happly
      · rwa [List.append_assoc] at hst'
      · rw [hobs', hmid.obsolete, List.append_assoc]
        rfl

theorem foldl_addBlobFile_frame (files : List (UInt64 × BlobFileMeta)) (st : BlobStorage) :
    (files.foldl (fun st file => st.addBlobFile file.1 file.2) st).cfOptions = st.cfOptions := by
  induction files generalizing st with
  | nil => rfl
  | cons file files ih => exact ih _

/-- A sealed collector of fresh files applies. -/
theorem Sound.apply {options : TitanCFOptions} (h : Sound options st)
    {c : CFEditCollector BlobFileMeta} (hadd : (c.addedFiles.map (·.1)).Nodup)
    (hdel : (c.deletedFiles.map (·.1)).Nodup)
    (hfresh : ∀ file ∈ c.addedFiles, Fresh options file.2)
    (hseal : c.sealed st.fileStatus = .ok ()) : Sound options (c.apply st).2 := by
  obtain ⟨hnew, hgone⟩ := sealed_inv hseal
  set mid := c.newFiles.foldl (fun st file => st.addBlobFile file.1 file.2) st with hmid
  have hmidOptions : mid.cfOptions = st.cfOptions := foldl_addBlobFile_frame c.newFiles st
  have hcons : Consistent (st.obsoleteFiles.map (·.1)) mid := by
    refine h.consistent.foldl_addBlobFile (newFiles_nodup hadd) ?_ ?_
    · exact fun file hfile => lookup_of_fileStatus_none (hnew file (mem_newFiles.mp hfile).1)
    · intro file hfile
      rw [h.options]
      exact hfresh file (mem_newFiles.mp hfile).1
  have hlive : ∀ file ∈ c.goneFiles, ∃ old, mid.files.lookup file.1 = some old ∧
      old.isObsolete = false := by
    intro file hfile
    obtain ⟨old, hold, hlv⟩ := lookup_of_fileStatus_some (hgone file hfile)
    refine ⟨old, ?_, hlv⟩
    rw [hmid, BlobStorage.lookup_foldl_addBlobFile, hold, Option.some_or]
  have hgoneNodup : (c.goneFiles.map (·.1)).Nodup := hdel.sublist (List.filter_sublist.map _)
  obtain ⟨st', happly, hst', hoptions, hobsolete⟩ := hcons.applyDeleted hgoneNodup hlive
  have hresult : (c.apply st).2 = st'.computeGCScore := by
    simp only [CFEditCollector.apply, ← hmid, happly, Status.isOk_ok, if_true]
  rw [hresult]
  refine ⟨(hoptions.trans hmidOptions).trans h.options, ?_, scored_computeGCScore st'⟩
  have hlist : st'.computeGCScore.obsoleteFiles.map (·.1) =
      st.obsoleteFiles.map (·.1) ++ c.goneFiles.map (·.1) := by
    change st'.obsoleteFiles.map (·.1) = _
    rw [hobsolete, hmid, BlobStorage.obsoleteFiles_foldl_addBlobFile, List.map_append]
  rw [hlist]
  exact ⟨hst'.ranges, hst'.obsolete, hst'.length, hst'.levels, hst'.below⟩

/-- Changing a file in no respect that the structures depend on. -/
theorem Consistent.setFile (h : Consistent obsolete st) {n : UInt64} {file file' : BlobFileMeta}
    (hfile : st.files.lookup n = some file) (hkey : file'.smallestKey = file.smallestKey)
    (hlevel : file'.fileLevel = file.fileLevel) (hstate : file'.isObsolete = file.isObsolete) :
    Consistent obsolete (st.setFile n file') := by
  have hperm := entries_perm_of_lookup hfile
  have hentries : (st.setFile n file').files.entries = ⟨n, file'⟩ :: (st.files.erase n).entries := rfl
  refine ⟨?_, ?_, h.length, ?_, ?_⟩
  · rw [hentries, List.map_cons, hkey]
    exact h.ranges.trans (hperm.map _)
  · refine h.obsolete.trans (((hperm.filter fun e => e.2.isObsolete).map (·.1)).trans ?_)
    rw [hentries, List.filter_cons, List.filter_cons, hstate]
    split_ifs
    · exact List.Perm.refl _
    · exact List.Perm.refl _
  · intro l hl
    have hsame : (st.setFile n file').liveAt l = st.liveAt l := by
      rw [liveAt, hentries, liveAt, hperm.countP_eq, List.countP_cons, List.countP_cons, countsAt,
        countsAt, hlevel, hstate]
    rw [hsame]
    exact h.levels l hl
  · intro e he
    rw [hentries] at he
    rcases List.mem_cons.mp he with rfl | he
    · rw [hlevel]
      exact h.below ⟨n, file⟩ (hperm.symm.subset List.mem_cons_self)
    · exact h.below e (hperm.symm.subset (List.mem_cons_of_mem _ he))

/-- The assertion of `InitializeAllFiles` on every file. -/
def RestartsAll (st : BlobStorage) : Prop := ∀ e ∈ st.files.entries, e.2.state = .kInit

instance (st : BlobStorage) : Decidable st.RestartsAll :=
  inferInstanceAs (Decidable (∀ e ∈ st.files.entries, e.2.state = .kInit))

theorem Consistent.transitFile_restart {w : Walk} (h : Consistent obsolete w.storage) (n : UInt64)
    (hinit : ∀ m file, w.storage.files.lookup m = some file → file.isObsolete = false) :
    Consistent obsolete (Walk.transitFile .kDbRestart w n).storage ∧
      (Walk.transitFile .kDbRestart w n).storage.cfOptions = w.storage.cfOptions ∧
      (Walk.transitFile .kDbRestart w n).storage.obsoleteFiles = w.storage.obsoleteFiles ∧
      ∀ m file, (Walk.transitFile .kDbRestart w n).storage.files.lookup m = some file →
        file.isObsolete = false := by
  rw [Walk.transitFile]
  split
  · exact ⟨h, rfl, rfl, hinit⟩
  · rename_i file hfile
    have hnormal : BlobFileMeta.isObsolete
        { file with state := file.state.after .kDbRestart } = false := rfl
    refine ⟨h.setFile hfile rfl rfl (hnormal.trans (hinit n file hfile).symm), rfl, rfl, ?_⟩
    intro m file' hfile'
    change AList.lookup m (w.storage.files.insert n _) = some file' at hfile'
    by_cases hm : m = n
    · rw [hm, AList.lookup_insert] at hfile'
      rw [← Option.some.inj hfile']
      exact hnormal
    · rw [AList.lookup_insert_ne hm] at hfile'
      exact hinit m file' hfile'

theorem Consistent.restartAll {w : Walk} (h : Consistent obsolete w.storage) (ns : List UInt64)
    (hinit : ∀ m file, w.storage.files.lookup m = some file → file.isObsolete = false) :
    Consistent obsolete (ns.foldl (Walk.transitFile .kDbRestart) w).storage ∧
      (ns.foldl (Walk.transitFile .kDbRestart) w).storage.cfOptions = w.storage.cfOptions ∧
      (ns.foldl (Walk.transitFile .kDbRestart) w).storage.obsoleteFiles =
        w.storage.obsoleteFiles := by
  induction ns generalizing w with
  | nil => exact ⟨h, rfl, rfl⟩
  | cons n ns ih =>
      obtain ⟨hstep, hoptions, hobsolete, hinit'⟩ := h.transitFile_restart n hinit
      obtain ⟨hrest, hoptions', hobsolete'⟩ := ih hstep hinit'
      exact ⟨hrest, hoptions'.trans hoptions, hobsolete'.trans hobsolete⟩

theorem Sound.initializeAllFiles {options : TitanCFOptions} (h : Sound options st)
    (hinit : st.RestartsAll) : Sound options (initializeAllFiles st).storage := by
  have hlive : ∀ m file, st.files.lookup m = some file → file.isObsolete = false := by
    intro m file hfile
    have hstate := hinit ⟨m, file⟩ (AList.mem_lookup_iff.mp hfile)
    rw [BlobFileMeta.isObsolete, hstate]
    rfl
  obtain ⟨hcons, hoptions, hobsolete⟩ :=
    h.consistent.restartAll (w := { storage := st }) st.files.keys hlive
  refine ⟨hoptions.trans h.options, ?_, scored_computeGCScore _⟩
  change Consistent (List.map (·.1) (st.files.keys.foldl (Walk.transitFile .kDbRestart)
    { storage := st }).storage.obsoleteFiles) _
  rw [hobsolete]
  exact ⟨hcons.ranges, hcons.obsolete, hcons.length, hcons.levels, hcons.below⟩

/-! ## Runs -/

/-- The calls that change the structures of the storage of one column family. -/
inductive Op
  | apply (edits : List (VersionEdit BlobFileMeta))
  | getObsoleteFiles (oldestSequence : ℕ)
  | initializeAllFiles

/-- `AddEdit` for every edit, `Seal` and `Apply`; an error leaves the storage as it is. -/
def collectAndApply (cf : UInt32) (st : BlobStorage) (edits : List (VersionEdit BlobFileMeta)) :
    BlobStorage :=
  match edits.foldlM EditCollector.addEdit .empty with
  | .error _ => st
  | .ok c =>
    match (c.columnFamilies cf).sealed st.fileStatus with
    | .error _ => st
    | .ok () => ((c.columnFamilies cf).apply st).2

def step (cf : UInt32) (st : BlobStorage) : Op → Option BlobStorage
  | .apply edits => some (st.collectAndApply cf edits)
  | .getObsoleteFiles oldestSequence => some (st.getObsoleteFiles oldestSequence).2
  | .initializeAllFiles => if st.RestartsAll then some (AegonKV.initializeAllFiles st).storage else none

/-- The edits of a call add fresh files only. -/
def Op.Adds (options : TitanCFOptions) : Op → Prop
  | .apply edits => ∀ edit ∈ edits, ∀ file ∈ edit.addedFiles, Fresh options file.2
  | _ => True

/-- What a collector holds: every number of a column family once, and only what the edits add. -/
structure Gathered (edits : List (VersionEdit BlobFileMeta)) (c : EditCollector BlobFileMeta) : Prop where
  added_nodup : ∀ cf, ((c.columnFamilies cf).addedFiles.map (·.1)).Nodup
  deleted_nodup : ∀ cf, ((c.columnFamilies cf).deletedFiles.map (·.1)).Nodup
  added : ∀ cf, ∀ file ∈ (c.columnFamilies cf).addedFiles, ∃ edit ∈ edits, file ∈ edit.addedFiles

theorem Gathered.addEdit {edits : List (VersionEdit BlobFileMeta)} {edit : VersionEdit BlobFileMeta}
    {c c' : EditCollector BlobFileMeta} (h : Gathered edits c) (hadd : c.addEdit edit = .ok c')
    (hedit : edit ∈ edits) : Gathered edits c' := by
  obtain ⟨hc', hna, hnd⟩ := addEdit_inv hadd (h.added_nodup _) (h.deleted_nodup _)
  refine ⟨fun cf => ?_, fun cf => ?_, fun cf => ?_⟩
  · rw [hc']
    by_cases hcf : cf = edit.columnFamilyId
    · rw [hcf, Function.update_self]
      exact hna
    · rw [Function.update_of_ne hcf]
      exact h.added_nodup cf
  · rw [hc']
    by_cases hcf : cf = edit.columnFamilyId
    · rw [hcf, Function.update_self]
      exact hnd
    · rw [Function.update_of_ne hcf]
      exact h.deleted_nodup cf
  · rw [hc']
    by_cases hcf : cf = edit.columnFamilyId
    · rw [hcf, Function.update_self]
      intro file hfile
      rcases List.mem_append.mp hfile with hfile | hfile
      · exact h.added _ file hfile
      · exact ⟨edit, hedit, hfile⟩
    · rw [Function.update_of_ne hcf]
      exact h.added cf

theorem gathered_foldlM {edits todo : List (VersionEdit BlobFileMeta)}
    {c c' : EditCollector BlobFileMeta} (h : Gathered edits c)
    (hfold : todo.foldlM EditCollector.addEdit c = .ok c') (htodo : ∀ edit ∈ todo, edit ∈ edits) :
    Gathered edits c' := by
  induction todo generalizing c with
  | nil =>
      obtain rfl : c = c' := Except.ok.inj hfold
      exact h
  | cons edit todo ih =>
      rw [List.foldlM_cons] at hfold
      cases hadd : c.addEdit edit with
      | error e =>
          rw [hadd] at hfold
          cases hfold
      | ok mid =>
          rw [hadd] at hfold
          exact ih (h.addEdit hadd (htodo edit List.mem_cons_self)) hfold fun e he =>
            htodo e (List.mem_cons_of_mem _ he)

theorem Sound.collectAndApply {options : TitanCFOptions} (h : Sound options st) (cf : UInt32)
    {edits : List (VersionEdit BlobFileMeta)}
    (hfresh : ∀ edit ∈ edits, ∀ file ∈ edit.addedFiles, Fresh options file.2) :
    Sound options (st.collectAndApply cf edits) := by
  unfold BlobStorage.collectAndApply
  split
  · exact h
  · rename_i c hc
    have hempty : Gathered edits .empty :=
      ⟨fun _ => List.nodup_nil, fun _ => List.nodup_nil, fun _ _ hfile => (by cases hfile)⟩
    have hgathered : Gathered edits c := gathered_foldlM hempty hc fun _ he => he
    split
    · exact h
    · rename_i hseal
      refine h.apply (hgathered.added_nodup cf) (hgathered.deleted_nodup cf) ?_ hseal
      intro file hfile
      obtain ⟨edit, hedit, hmem⟩ := hgathered.added cf file hfile
      exact hfresh edit hedit file hmem

theorem Sound.step {options : TitanCFOptions} (h : Sound options st)
    (hcmp : ∀ k, options.comparator k k = .eq) {cf : UInt32} {op : Op} (hop : op.Adds options)
    {st' : BlobStorage} (hstep : st.step cf op = some st') : Sound options st' := by
  cases op with
  | apply edits =>
      obtain rfl := Option.some.inj hstep
      exact h.collectAndApply cf hop
  | getObsoleteFiles oldestSequence =>
      obtain rfl := Option.some.inj hstep
      exact h.getObsoleteFiles hcmp oldestSequence
  | initializeAllFiles =>
      rw [BlobStorage.step] at hstep
      split_ifs at hstep with hinit
      obtain rfl := Option.some.inj hstep
      exact h.initializeAllFiles hinit

theorem sound_empty (options : TitanCFOptions) : Sound options (empty options) :=
  ⟨rfl, consistent_empty options, fun g hg => (by cases hg)⟩

/-- The structures agree in every state that a run of the operations reaches. -/
theorem represents_of_run {options : TitanCFOptions} (hcmp : ∀ k, options.comparator k k = .eq)
    {cf : UInt32} {ops : List Op} (hops : ∀ op ∈ ops, op.Adds options)
    (hrun : TransitionSystem.run (step cf) (empty options) ops = some st) : Represents st := by
  have hmeets : TransitionSystem.Meets (step cf) (fun _ op => op.Adds options) (empty options) ops :=
    TransitionSystem.meets_of_mem fun _ op hop => hops op hop
  exact (TransitionSystem.run_invariant (fun _ _ _ hs hop hstep => hs.step hcmp hop hstep)
    (sound_empty options) hmeets hrun).represents

def bytewiseOptions : TitanCFOptions where
  comparator := compare
  numLevels := 2
  mergeSmallFileThreshold := 8
  blobFileDiscardableRatio := 0

/-- Two files with one smallest key are recovered, the first is deleted and purged. -/
def purgeFirst : List Op :=
  [.apply [⟨0, some 9, [(7, ⟨100, 2, 0, ⟨[1], by decide⟩, ⟨[5], by decide⟩, 0, .kInit⟩),
      (8, ⟨100, 2, 1, ⟨[1], by decide⟩, ⟨[6], by decide⟩, 0, .kInit⟩)], []⟩],
    .initializeAllFiles, .apply [⟨0, some 9, [], [(7, 5)]⟩], .getObsoleteFiles 6]

theorem purgeFirst_represents :
    ∃ st, TransitionSystem.run (step 0) (empty bytewiseOptions) purgeFirst = some st ∧
      Represents st := by
  have hrun : TransitionSystem.run (step 0) (empty bytewiseOptions) purgeFirst = some _ := rfl
  refine ⟨_, hrun, represents_of_run (fun k => Std.ReflOrd.compare_self) ?_ hrun⟩
  intro op hop
  simp only [purgeFirst, List.mem_cons, List.not_mem_nil, or_false] at hop
  rcases hop with rfl | rfl | rfl | rfl
  · intro edit hedit file hfile
    rw [List.mem_singleton.mp hedit] at hfile
    simp only [List.mem_cons, List.not_mem_nil, or_false] at hfile
    rcases hfile with rfl | rfl
    · exact ⟨rfl, by decide⟩
    · exact ⟨rfl, by decide⟩
  · trivial
  · intro edit hedit file hfile
    rw [List.mem_singleton.mp hedit] at hfile
    cases hfile
  · trivial

end BlobStorage
end AegonKV
