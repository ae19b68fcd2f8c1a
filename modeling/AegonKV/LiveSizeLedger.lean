import AegonKV.CallbackOrder
import AegonKV.GcJobFiles

/-!
# The live data size of a file that a GC job has taken

`OnCompactionCompleted` has a branch for `kPendingLSM` files and one for `kNormal` and `kToMerge`
files. The difference it brings for a file that is `kBeingGC` or `kPendingGC` reaches neither. The
sum of all that is reported about a file is compared here with what its `live_data_size_` becomes.
-/

namespace AegonKV
open TransitionSystem

/-- A GC job has the file as an input or as an output. -/
def FileState.HeldByGC (state : FileState) : Prop := state = .kBeingGC ∨ state = .kPendingGC

instance (state : FileState) : Decidable state.HeldByGC := inferInstanceAs (Decidable (_ ∨ _))

/-! ## Sizes -/

/-- A size beside the sum it should be: never below it, and equal to it as long as nothing was
lost. -/
structure InBooks (total : ℤ) (kept : Prop) (size : ℕ) : Prop where
  bounded : size < 2 ^ 63
  covers : total ≤ size
  equal : (size : ℤ) = total ↔ kept

section Sizes

variable {total delta : ℤ} {kept kept' : Prop} {size : ℕ}

theorem InBooks.congr (h : InBooks total kept size) (hk : kept ↔ kept') : InBooks total kept' size :=
  ⟨h.bounded, h.covers, h.equal.trans hk⟩

/-- The size goes down by the difference, or to zero. -/
theorem InBooks.update (h : InBooks total kept size) (hdelta : delta ≤ 0) :
    InBooks (total + delta) (kept ∧ 0 ≤ size + delta) (size + delta).toNat := by
  have hbounded := h.bounded
  have hcovers := h.covers
  refine ⟨by omega, by omega, ?_⟩
  rw [← h.equal]
  omega

/-- The difference is not applied. -/
theorem InBooks.skip (h : InBooks total kept size) (hdelta : delta ≤ 0) :
    InBooks (total + delta) (kept ∧ delta = 0) size := by
  have hcovers := h.covers
  refine ⟨h.bounded, by omega, ?_⟩
  rw [← h.equal]
  omega

theorem castInt64_eq_toNat {size : UInt64} (h : size.toNat < 2 ^ 63) : castInt64 size = size.toNat := by
  have hsize : UInt64.ofNat size.toNat = size := UInt64.ofNat_toNat
  have hcast := castInt64_ofNat h
  rwa [hsize] at hcast

theorem toNat_updateLiveDataSize {file : BlobFileMeta} (h : file.liveDataSize.toNat < 2 ^ 63)
    (hdelta : delta ≤ 0) :
    (file.updateLiveDataSize delta).liveDataSize.toNat = (file.liveDataSize.toNat + delta).toNat := by
  have hsize := castInt64_eq_toNat h
  by_cases hneg : (file.liveDataSize.toNat : ℤ) + delta < 0
  · have hzero : (file.updateLiveDataSize delta).liveDataSize = 0 := by
      rw [BlobFileMeta.updateLiveDataSize]
      dsimp only
      rw [if_pos (by rw [hsize]; exact hneg)]
    rw [hzero, Int.toNat_of_nonpos hneg.le]
    rfl
  · refine toNat_of_castInt64 ?_
    rw [updateLiveDataSize_live (by omega) (by omega), hsize]
    omega

end Sizes

/-! ## One file -/

/-- The file has the live data that it loses. -/
def BlobFileMeta.Covers (file : BlobFileMeta) (delta : ℤ) : Prop :=
  0 ≤ (file.liveDataSize.toNat : ℤ) + delta

instance (file : BlobFileMeta) (delta : ℤ) : Decidable (file.Covers delta) :=
  inferInstanceAs (Decidable (0 ≤ (file.liveDataSize.toNat : ℤ) + delta))

/-- The books of a file that was `kPendingLSM` for the last time. Nothing is said about a file that
has become obsolete. -/
structure BlobFileMeta.Books (total : ℤ) (kept : Prop) (file : BlobFileMeta) : Prop where
  settled : file.state ≠ .kPendingLSM ∧ file.state ≠ .kInit
  live : file.state ≠ .kObsolete → InBooks total kept file.liveDataSize.toNat

namespace BlobFileMeta

variable {total delta : ℤ} {kept kept' : Prop} {file : BlobFileMeta}

theorem Books.setState (h : file.Books total kept) {state : FileState}
    (hsettled : state ≠ .kPendingLSM ∧ state ≠ .kInit)
    (hobsolete : state ≠ .kObsolete → file.state ≠ .kObsolete) :
    ({ file with state := state } : BlobFileMeta).Books total kept :=
  ⟨hsettled, fun hstate => h.live (hobsolete hstate)⟩

theorem Books.obsolete (h : file.Books total kept) :
    ({ file with state := .kObsolete } : BlobFileMeta).Books total kept :=
  h.setState ⟨fun hstate => (by cases hstate), fun hstate => (by cases hstate)⟩
    fun hstate => absurd rfl hstate

theorem Books.congr (h : file.Books total kept) (hk : file.state ≠ .kObsolete → (kept ↔ kept')) :
    file.Books total kept' :=
  ⟨h.settled, fun hstate => (h.live hstate).congr (hk hstate)⟩

theorem Books.update (h : file.Books total kept) (hdelta : delta ≤ 0) :
    (file.updateLiveDataSize delta).Books (total + delta)
      (kept ∧ file.Covers delta) := by
  refine ⟨h.settled, fun hstate => ?_⟩
  have hlive := h.live hstate
  rw [toNat_updateLiveDataSize hlive.bounded hdelta]
  exact hlive.update hdelta

theorem Books.skip (h : file.Books total kept) (hdelta : delta ≤ 0) :
    file.Books (total + delta) (kept ∧ delta = 0) :=
  ⟨h.settled, fun hstate => (h.live hstate).skip hdelta⟩

/-- The difference of a compaction gets into the size. -/
def Takes (file : BlobFileMeta) (delta : ℤ) : Prop :=
  (file.state.HeldByGC → delta = 0) ∧ file.Covers delta

end BlobFileMeta

/-! ## One file through one callback -/

/-- What a walk leaves of the file; a merge candidate is not deleted by the same callback. -/
structure Walk.Booked (f : UInt64) (total : ℤ) (kept : Prop) (w : Walk) : Prop where
  file : ∃ file, w.storage.files.lookup f = some file ∧ file.Books total kept ∧
    (f ∈ w.candidates → file.state ≠ .kObsolete)
  candidate : f ∈ w.candidates → f ∉ w.deleted

namespace Walk

variable {f : UInt64} {total delta : ℤ} {kept kept' : Prop} {w w' : Walk} {file : BlobFileMeta}

theorem Booked.congr (h : w.Booked f total kept) (hsame : SameAt f w w') : w'.Booked f total kept where
  file := by
    obtain ⟨file, hfile, hbooks, hcandidate⟩ := h.file
    refine ⟨file, hsame.lookup.trans hfile, hbooks, fun hf => ?_⟩
    exact hcandidate (hsame.candidates.mp hf)
  candidate hf hdeleted := h.candidate (hsame.candidates.mp hf) (hsame.deleted.mp hdeleted)

theorem Booked.of_lookup (hfile : w.storage.files.lookup f = some file)
    (hbooks : file.Books total kept) (hc : f ∉ w.candidates) : w.Booked f total kept :=
  ⟨⟨file, hfile, hbooks, fun hf => absurd hf hc⟩, fun hf => absurd hf hc⟩

theorem Booked.liveCompacted (o : MergeOptions) (countSortedRun : Bool) (hd : f ∉ w.deleted)
    (hc : f ∉ w.candidates) (hstate : file.state = .kNormal ∨ file.state = .kToMerge)
    (hbooks : (file.updateLiveDataSize delta).Books total kept) :
    (Walk.liveCompacted o countSortedRun w f file delta).Booked f total kept := by
  have hself := w.storage.lookup_setFile_self f (file.updateLiveDataSize delta)
  have hopen : file.state ≠ .kObsolete := by
    rintro hobsolete
    rw [hobsolete] at hstate
    rcases hstate with h | h
    · cases h
    · cases h
  rw [Walk.liveCompacted]
  split_ifs
  · exact .of_lookup hself hbooks hc
  · exact .of_lookup hself hbooks hc
  · refine .of_lookup ((w.setFile f _).storage.lookup_setFile_self f _) ?_ hc
    exact hbooks.setState ⟨fun h => (by cases h), fun h => (by cases h)⟩ fun _ => hopen
  · exact ⟨⟨_, hself, hbooks, fun _ => hopen⟩, fun _ => hd⟩
  · exact .of_lookup hself hbooks hc

/-- A round of `OnCompactionCompleted`. -/
theorem Booked.compactionCompleted (o : MergeOptions) (countSortedRun : Bool) (hd : f ∉ w.deleted)
    (hc : f ∉ w.candidates) (hfile : w.storage.files.lookup f = some file)
    (hbooks : file.Books total kept) (hdelta : delta ≤ 0) :
    (Walk.compactionCompleted o countSortedRun w f delta).Booked f (total + delta)
      (kept ∧ file.Takes delta) := by
  have hlive : file.state = .kNormal ∨ file.state = .kToMerge →
      (Walk.liveCompacted o countSortedRun w f file delta).Booked f (total + delta)
        (kept ∧ file.Takes delta) := by
    intro hstate
    refine .liveCompacted o countSortedRun hd hc hstate ?_
    refine (hbooks.update hdelta).congr fun _ => and_congr_right fun _ => ?_
    have hfree : ¬file.state.HeldByGC := by
      rcases hstate with h | h
      · rw [h]
        decide
      · rw [h]
        decide
    exact ⟨fun hlow => ⟨fun h => absurd h hfree, hlow⟩, fun h => h.2⟩
  rw [Walk.compactionCompleted, hfile]
  dsimp only
  split
  · exact absurd ‹_› hbooks.settled.1
  · exact hlive (Or.inl ‹_›)
  · exact hlive (Or.inr ‹_›)
  · -- what is left is held by a job or obsolete
    refine .of_lookup hfile ((hbooks.skip hdelta).congr fun hopen => ?_) hc
    refine and_congr_right fun _ => ?_
    have hheld : file.state.HeldByGC := by
      cases hstate : file.state with
      | kBeingGC => exact Or.inl rfl
      | kPendingGC => exact Or.inr rfl
      | kInit => exact absurd hstate hbooks.settled.2
      | kPendingLSM => exact absurd hstate hbooks.settled.1
      | kObsolete => exact absurd hstate hopen
      | kNormal => contradiction
      | kToMerge => contradiction
    constructor
    · rintro rfl
      exact ⟨fun _ => rfl, by rw [BlobFileMeta.Covers]; omega⟩
    · exact fun h => h.1 hheld

/-- A round of `DeleteFilesInRanges`. -/
theorem Booked.tablesDeleted (o : MergeOptions) (hc : f ∉ w.candidates)
    (hfile : w.storage.files.lookup f = some file) (hbooks : file.Books total kept) (hdelta : delta ≤ 0) :
    (Walk.tablesDeleted o w f delta).Booked f (total + delta)
      (kept ∧ file.Covers delta) := by
  have hself := w.storage.lookup_setFile_self f (file.updateLiveDataSize delta)
  have hupdate := hbooks.update hdelta
  rw [Walk.tablesDeleted, hfile]
  dsimp only
  split_ifs with hobsolete
  · have hstate : file.state = .kObsolete := of_decide_eq_true hobsolete
    exact .of_lookup hfile ⟨hbooks.settled, fun h => absurd hstate h⟩ hc
  · exact .of_lookup hself hupdate hc
  · exact .of_lookup hself hupdate hc
  · have hopen : file.state ≠ .kObsolete := fun h => hobsolete (decide_eq_true h)
    refine .of_lookup ((w.setFile f _).storage.lookup_setFile_self f _) ?_ hc
    exact hupdate.setState ⟨fun h => (by cases h), fun h => (by cases h)⟩ fun _ => hopen
  · exact .of_lookup hself hupdate hc

/-- A whole walk: the file sees its own difference only. -/
theorem Booked.applyDiff {round : Walk → UInt64 → ℤ → Walk} {takes : BlobFileMeta → ℤ → Prop}
    (hlocal : Local round)
    (hround : ∀ w d, d ≤ 0 → f ∉ w.deleted → f ∉ w.candidates →
      w.storage.files.lookup f = some file → (round w f d).Booked f (total + d) (kept ∧ takes file d))
    {st : BlobStorage} (hfile : st.files.lookup f = some file) (hbooks : file.Books total kept)
    {diff : SizeDiff} (hdiff : ∀ d, diff.lookup f = some d → d ≤ 0) :
    (Walk.applyDiff round st diff).Booked f (total + (diff.lookup f).getD 0)
      (kept ∧ ∀ d, diff.lookup f = some d → takes file d) := by
  cases hlookup : diff.lookup f with
  | none =>
      rw [Option.getD_none, add_zero]
      refine Booked.congr (w := { storage := st }) (.of_lookup hfile ?_ (by simp))
        (applyDiff_of_lookup_none hlocal st hlookup)
      exact hbooks.congr fun _ => ⟨fun h => ⟨h, fun d hd => (by cases hd)⟩, fun h => h.1⟩
  | some d =>
      obtain ⟨w, hbefore, hafter⟩ := applyDiff_of_lookup_some hlocal st hlookup
      have hrun := hround w d (hdiff d hlookup) (fun hf => (by cases hbefore.deleted.mp hf))
        (fun hf => (by cases hbefore.candidates.mp hf)) (hbefore.lookup.trans hfile)
      have hone : takes file d ↔ ∀ d', some d = some d' → takes file d' :=
        ⟨fun h d' hd' => Option.some.inj hd' ▸ h, fun h => h d rfl⟩
      rw [← hone]
      exact hrun.congr hafter

end Walk

/-! ## One file through one critical section -/

namespace BlobFileSet

def Books (s : BlobFileSet) (cf : UInt32) (f : UInt64) (total : ℤ) (kept : Prop) : Prop :=
  ∃ file, s.fileOf cf f = some file ∧ file.Books total kept

variable {s : BlobFileSet} {cf : UInt32} {f : UInt64} {total : ℤ} {kept kept' : Prop}

theorem Books.exists_storage (h : s.Books cf f total kept) :
    ∃ st file, s.columnFamilies.lookup cf = some st ∧ st.files.lookup f = some file ∧
      s.fileOf cf f = some file ∧ file.Books total kept := by
  obtain ⟨file, hfile, hbooks⟩ := h
  obtain ⟨st, hst, hlookup⟩ := Option.bind_eq_some_iff.mp hfile
  exact ⟨st, file, hst, hlookup, hfile, hbooks⟩

/-- Nothing is reported about the file. -/
theorem Books.unreported (h : s.Books cf f total kept) {reported : Prop} (hr : reported) :
    s.Books cf f (total + 0) (kept ∧ reported) := by
  obtain ⟨file, hfile, hbooks⟩ := h
  rw [add_zero]
  exact ⟨file, hfile, hbooks.congr fun _ => ⟨fun hk => ⟨hk, hr⟩, fun hk => hk.1⟩⟩

theorem Books.logAndApply (h : s.Books cf f total kept) (edit : VersionEdit BlobFileMeta)
    (io : ManifestIO) : (s.logAndApply edit io).2.Books cf f total kept := by
  obtain ⟨file, hfile, hbooks⟩ := h
  obtain ⟨file', hfile', heq⟩ := fileOf_logAndApply edit io hfile
  refine ⟨file', hfile', ?_⟩
  rcases heq with rfl | ⟨-, -, -, -, rfl⟩
  · exact hbooks
  · exact hbooks.obsolete

theorem Books.setStorage_ne (h : s.Books cf f total kept) {g : UInt32} (st : BlobStorage)
    (hg : cf ≠ g) : (s.setStorage g st).Books cf f total kept := by
  obtain ⟨file, hfile, hbooks⟩ := h
  exact ⟨file, (fileOf_setStorage_ne st f hg).trans hfile, hbooks⟩

theorem Books.of_storage {st : BlobStorage} {file : BlobFileMeta}
    (hfile : st.files.lookup f = some file) (hbooks : file.Books total kept) :
    (s.setStorage cf st).Books cf f total kept :=
  ⟨file, (s.fileOf_setStorage cf st f).trans hfile, hbooks⟩

theorem Books.onFlushCompleted (h : s.Books cf f total kept) (g : UInt32) (diff : SizeDiff) :
    (s.onFlushCompleted g diff).1.Books cf f total kept := by
  rw [BlobFileSet.onFlushCompleted]
  by_cases hg : cf = g
  · subst hg
    obtain ⟨st, file, hst, hfile, -, hbooks⟩ := h.exists_storage
    rw [hst]
    refine .of_storage ?_ hbooks
    cases hlookup : diff.lookup f with
    | none => exact (Walk.applyDiff_of_lookup_none Walk.local_flushCompleted st hlookup).lookup.trans hfile
    | some d =>
        obtain ⟨w, hbefore, hafter⟩ := Walk.applyDiff_of_lookup_some Walk.local_flushCompleted st hlookup
        have hw := hbefore.lookup.trans hfile
        rw [hafter.lookup, Walk.flushCompleted, hw]
        dsimp only
        rw [if_pos hbooks.settled.1]
        exact hw
  · split
    · exact h
    · exact h.setStorage_ne _ hg

/-- The rest of `OnCompactionCompleted`, after its walk. -/
theorem Books.onCompactionCompleted (o : MergeOptions) (outputLevel : ℤ) (seq : ℕ) (io : ManifestIO)
    (h : s.Books cf f total kept) {diff : SizeDiff} (hdiff : ∀ d, diff.lookup f = some d → d ≤ 0) :
    (s.onCompactionCompleted o cf outputLevel diff seq io).1.Books cf f
      (total + (diff.lookup f).getD 0)
      (kept ∧ ∀ file, s.fileOf cf f = some file → ∀ d, diff.lookup f = some d → file.Takes d) := by
  obtain ⟨st, file, hst, hfile, hfileOf, hbooks⟩ := h.exists_storage
  have hone : (∀ d, diff.lookup f = some d → file.Takes d) ↔
      ∀ file, s.fileOf cf f = some file → ∀ d, diff.lookup f = some d → file.Takes d :=
    ⟨fun h file' hfile' => Option.some.inj (hfileOf.symm.trans hfile') ▸ h, fun h => h file hfileOf⟩
  rw [← hone, BlobFileSet.onCompactionCompleted, hst]
  dsimp only
  have hwalk : (Walk.applyDiff (Walk.compactionCompleted o (countsSortedRun o st outputLevel)) st
      diff).Booked f (total + (diff.lookup f).getD 0)
        (kept ∧ ∀ d, diff.lookup f = some d → file.Takes d) :=
    .applyDiff (Walk.local_compactionCompleted o _)
      (fun w d hd hdeleted hc hw => .compactionCompleted o _ hdeleted hc hw hbooks hd) hfile hbooks hdiff
  generalize Walk.applyDiff (Walk.compactionCompleted o (countsSortedRun o st outputLevel)) st diff = w at hwalk ⊢
  obtain ⟨new, hnew, hnewBooks, hnewOpen⟩ := hwalk.file
  split_ifs with hlevel
  · exact .of_storage hnew hnewBooks
  · have hset : (s.setStorage cf w.storage).fileOf cf f = some new :=
      (s.fileOf_setStorage cf _ f).trans hnew
    obtain ⟨logged, hlogged, heq⟩ := fileOf_logAndApply (mergeEdit w seq) io hset
    have hloggedBooks : logged.Books (total + (diff.lookup f).getD 0)
        (kept ∧ ∀ d, diff.lookup f = some d → file.Takes d) ∧
        (f ∈ w.candidates → logged.state ≠ .kObsolete) := by
      rcases heq with rfl | ⟨hmem, -, -, -, rfl⟩
      · exact ⟨hnewBooks, hnewOpen⟩
      · have hdeleted : f ∈ w.deleted := by simpa [mergeEdit] using hmem
        exact ⟨hnewBooks.obsolete, fun hf => absurd hdeleted (hwalk.candidate hf)⟩
    obtain ⟨st', hst', hlookup'⟩ := Option.bind_eq_some_iff.mp hlogged
    rw [hst']
    obtain ⟨marked, hmarked, heq'⟩ :=
      Walk.lookup_markFileIfNeedMerge w.candidates o.maxSortedRuns hlookup'
    refine .of_storage hmarked ?_
    rcases heq' with rfl | ⟨hmem, rfl⟩
    · exact hloggedBooks.1
    · exact hloggedBooks.1.setState ⟨fun h => (by cases h), fun h => (by cases h)⟩
        fun _ => hloggedBooks.2 hmem

theorem Books.onCompactionCompleted_ne (o : MergeOptions) (outputLevel : ℤ) (seq : ℕ) (io : ManifestIO)
    (h : s.Books cf f total kept) {g : UInt32} (hg : cf ≠ g) (diff : SizeDiff) :
    (s.onCompactionCompleted o g outputLevel diff seq io).1.Books cf f total kept := by
  rw [BlobFileSet.onCompactionCompleted]
  split
  · exact h
  · dsimp only
    split_ifs
    · exact h.setStorage_ne _ hg
    · have hlogged (w : Walk) := (h.setStorage_ne w.storage hg).logAndApply (mergeEdit w seq) io
      split
      · exact hlogged _
      · exact (hlogged _).setStorage_ne _ hg

theorem Books.deleteFilesInRanges_ne (o : MergeOptions) (seq : ℕ) (io : ManifestIO)
    (h : s.Books cf f total kept) {g : UInt32} (hg : cf ≠ g) (diff : SizeDiff) :
    (s.deleteFilesInRanges o g diff seq io).1.Books cf f total kept := by
  rw [BlobFileSet.deleteFilesInRanges]
  split
  · exact h
  · dsimp only
    split_ifs
    · exact h.setStorage_ne _ hg
    · exact (h.setStorage_ne _ hg).logAndApply _ io

theorem Books.deleteFilesInRanges (o : MergeOptions) (seq : ℕ) (io : ManifestIO)
    (h : s.Books cf f total kept) {diff : SizeDiff} (hdiff : ∀ d, diff.lookup f = some d → d ≤ 0) :
    (s.deleteFilesInRanges o cf diff seq io).1.Books cf f (total + (diff.lookup f).getD 0)
      (kept ∧ ∀ file, s.fileOf cf f = some file → ∀ d, diff.lookup f = some d → file.Covers d) := by
  obtain ⟨st, file, hst, hfile, hfileOf, hbooks⟩ := h.exists_storage
  have hone : (∀ d, diff.lookup f = some d → file.Covers d) ↔
      ∀ file, s.fileOf cf f = some file → ∀ d, diff.lookup f = some d → file.Covers d :=
    ⟨fun h file' hfile' => Option.some.inj (hfileOf.symm.trans hfile') ▸ h, fun h => h file hfileOf⟩
  rw [← hone, BlobFileSet.deleteFilesInRanges, hst]
  dsimp only
  have hwalk : (Walk.applyDiff (Walk.tablesDeleted o) st diff).Booked f (total + (diff.lookup f).getD 0)
        (kept ∧ ∀ d, diff.lookup f = some d → file.Covers d) :=
    .applyDiff (Walk.local_tablesDeleted o)
      (fun w d hd _ hc hw => .tablesDeleted o hc hw hbooks hd) hfile hbooks hdiff
  obtain ⟨new, hnew, hnewBooks, -⟩ := hwalk.file
  split_ifs
  · exact .of_storage hnew hnewBooks
  · exact Books.logAndApply (.of_storage hnew hnewBooks) _ io

theorem Books.dropColumnFamilies (h : s.Books cf f total kept) (seq : ℕ)
    (cfs : List (UInt32 × ManifestIO)) : (s.dropColumnFamilies seq cfs).2.Books cf f total kept := by
  induction cfs generalizing s with
  | nil => exact h
  | cons e cfs ih =>
      obtain ⟨g, io⟩ := e
      rw [BlobFileSet.dropColumnFamilies]
      split
      · exact h
      · rename_i st hst
        have hone := h.logAndApply (dropEdit g st seq) io
        dsimp only
        generalize s.logAndApply (dropEdit g st seq) io = result at hone ⊢
        obtain ⟨status, s'⟩ := result
        dsimp only at hone ⊢
        split_ifs
        · exact hone
        · obtain ⟨file, hfile, hbooks⟩ := hone
          exact ih ⟨file, hfile, hbooks⟩

/-- One event of a GC job on the files of a column family. -/
theorem Books.transitFiles (h : s.Books cf f total kept) {g : UInt32} {st : BlobStorage}
    (hst : s.columnFamilies.lookup g = some st) {event : FileEvent} {numbers : List UInt64}
    (htwice : ∀ state : FileState, (state.after event).after event = state.after event)
    (hsettled : ∀ state : FileState, state.after event ≠ .kPendingLSM ∧ state.after event ≠ .kInit)
    (hopen : ∀ file, f ∈ numbers → st.files.lookup f = some file →
      file.state.after event ≠ .kObsolete → file.state ≠ .kObsolete) :
    (s.setStorage g (Walk.transitFiles event st numbers).storage).Books cf f total kept := by
  by_cases hg : cf = g
  · subst hg
    obtain ⟨st', file, hst', hfile, -, hbooks⟩ := h.exists_storage
    obtain rfl := Option.some.inj (hst.symm.trans hst')
    obtain ⟨new, hnew, heq⟩ :=
      Walk.lookup_foldl_transitFile htwice numbers { storage := st } hfile
    refine .of_storage hnew ?_
    rcases heq with rfl | ⟨hmem, rfl⟩
    · exact hbooks
    · exact hbooks.setState (hsettled _) (hopen file hmem hfile)
  · exact h.setStorage_ne _ hg

/-- What the write-back of a job takes off a file. -/
def droppedDelta (f : UInt64) (dropped : List (UInt64 × UInt64)) : ℤ :=
  ((dropped.filter fun d => d.1 = f).map fun d => castInt64 (0 - d.2)).sum

theorem droppedDelta_cons_self (d : UInt64 × UInt64) (dropped : List (UInt64 × UInt64))
    (h : d.1 = f) : droppedDelta f (d :: dropped) = castInt64 (0 - d.2) + droppedDelta f dropped := by
  rw [droppedDelta, List.filter_cons_of_pos (by simpa using h), List.map_cons, List.sum_cons]
  rfl

theorem droppedDelta_cons_ne (d : UInt64 × UInt64) (dropped : List (UInt64 × UInt64))
    (h : d.1 ≠ f) : droppedDelta f (d :: dropped) = droppedDelta f dropped := by
  rw [droppedDelta, List.filter_cons_of_neg (by simpa using h)]
  rfl

theorem droppedDelta_nonpos {dropped : List (UInt64 × UInt64)}
    (h : ∀ d ∈ dropped, d.1 = f → castInt64 (0 - d.2) ≤ 0) : droppedDelta f dropped ≤ 0 := by
  induction dropped with
  | nil => exact le_refl _
  | cons d dropped ih =>
      have hrest := ih fun e he => h e (List.mem_cons_of_mem _ he)
      by_cases hd : d.1 = f
      · rw [droppedDelta_cons_self _ _ hd]
        exact add_nonpos (h d List.mem_cons_self hd) hrest
      · rwa [droppedDelta_cons_ne _ _ hd]

theorem books_rewriteDropped {st : BlobStorage} {file : BlobFileMeta}
    (hfile : st.files.lookup f = some file) (hbooks : file.Books total kept)
    {dropped : List (UInt64 × UInt64)} (hdropped : ∀ d ∈ dropped, d.1 = f → castInt64 (0 - d.2) ≤ 0) :
    ∃ file', (rewriteDropped st dropped).files.lookup f = some file' ∧ file'.state = file.state ∧
      file'.Books (total + droppedDelta f dropped) (kept ∧ file.Covers (droppedDelta f dropped)) := by
  induction dropped generalizing st file total kept with
  | nil =>
      refine ⟨file, hfile, rfl, ?_⟩
      rw [droppedDelta, List.filter_nil, List.map_nil, List.sum_nil, add_zero]
      refine hbooks.congr fun _ => ⟨fun hk => ⟨hk, ?_⟩, fun hk => hk.1⟩
      rw [BlobFileMeta.Covers]
      omega
  | cons d dropped ih =>
      have hrest : ∀ d ∈ dropped, d.1 = f → castInt64 (0 - d.2) ≤ 0 :=
        fun e he => hdropped e (List.mem_cons_of_mem _ he)
      rw [rewriteDropped, List.foldl_cons]
      by_cases hd : d.1 = f
      · have hdelta := hdropped d List.mem_cons_self hd
        have hnonpos := droppedDelta_nonpos hrest
        rw [hd, hfile, droppedDelta_cons_self _ _ hd, ← add_assoc]
        dsimp only
        have hself : ((st.setFile f (file.updateLiveDataSize
            (castInt64 (0 - d.2)))).computeGCScore).files.lookup f =
              some (file.updateLiveDataSize (castInt64 (0 - d.2))) := st.lookup_setFile_self f _
        obtain ⟨file', hfile', hstate', hbooks'⟩ := ih hself (hbooks.update hdelta) hrest
        refine ⟨file', hfile', hstate', hbooks'.settled, fun hopen => ?_⟩
        have hbounded : file.liveDataSize.toNat < 2 ^ 63 := by
          rw [hstate'] at hopen
          exact (hbooks.live hopen).bounded
        refine (hbooks'.live hopen).congr ?_
        rw [and_assoc]
        refine and_congr_right fun _ => ?_
        simp only [BlobFileMeta.Covers, toNat_updateLiveDataSize hbounded hdelta]
        omega
      · rw [droppedDelta_cons_ne _ _ hd]
        split
        · exact ih hfile hbooks hrest
        · refine ih ?_ hbooks hrest
          exact (st.lookup_setFile_ne _ (Ne.symm hd)).trans hfile

end BlobFileSet

/-! ## Runs -/

namespace FileMachine

variable {c : LifecycleConfig} {m m' : FileMachine} {cf : UInt32} {f : UInt64} {total : ℤ} {kept : Prop}

/-- What an action reports about the live data of a file: the differences of compactions and of
deleted tables, and the records that the write-back of a job could not use. -/
def charge (cf : UInt32) (f : UInt64) (m : FileMachine) : Action → ℤ
  | .compactionCompleted g _ diff _ _ => if g = cf then (diff.lookup f).getD 0 else 0
  | .deleteFilesInRanges g diff _ _ => if g = cf then (diff.lookup f).getD 0 else 0
  | .rewriteValidKeys j dropped =>
    if m.jobs[j]?.any fun job => job.cf = cf then BlobFileSet.droppedDelta f dropped else 0
  | _ => 0

/-- The sum of what a run reports about a file. -/
def charges (c : LifecycleConfig) (cf : UInt32) (f : UInt64) : FileMachine → List Action → ℤ
  | _, [] => 0
  | m, a :: as => m.charge cf f a + ((step c m a).map fun m' => charges c cf f m' as).getD 0

/-- No report about the file is positive, and the process goes on. -/
def Reported (cf : UInt32) (f : UInt64) (m : FileMachine) : Action → Prop
  | .compactionCompleted g _ diff _ _ => g = cf → ∀ d, diff.lookup f = some d → d ≤ 0
  | .deleteFilesInRanges g diff _ _ => g = cf → ∀ d, diff.lookup f = some d → d ≤ 0
  | .rewriteValidKeys j dropped =>
    (m.jobs[j]?.any fun job => job.cf = cf) → ∀ d ∈ dropped, d.1 = f → castInt64 (0 - d.2) ≤ 0
  | .restart _ _ => False
  | _ => True

/-- No compaction reports a loss of a file that a GC job holds, and no action takes more off the
file than it has. -/
def Counted (cf : UInt32) (f : UInt64) (m : FileMachine) : Action → Prop
  | .compactionCompleted g _ diff _ _ => g = cf → ∀ file, m.set.fileOf cf f = some file →
    ∀ d, diff.lookup f = some d → file.Takes d
  | .deleteFilesInRanges g diff _ _ => g = cf → ∀ file, m.set.fileOf cf f = some file →
    ∀ d, diff.lookup f = some d → file.Covers d
  | .rewriteValidKeys j dropped => (m.jobs[j]?.any fun job => job.cf = cf) →
    ∀ file, m.set.fileOf cf f = some file → file.Covers (BlobFileSet.droppedDelta f dropped)
  | _ => True

theorem books_pickBlobGC {g : UInt32} (h : m.set.Books cf f total kept)
    (hs : step c m (.pickBlobGC g) = some m') : m'.set.Books cf f total kept := by
  rw [step] at hs
  split at hs
  · obtain rfl := Option.some.inj hs
    exact h
  · rename_i st hst
    split at hs
    · obtain rfl := Option.some.inj hs
      exact h
    · rename_i inputs hpick
      obtain rfl := Option.some.inj hs
      split_ifs at hpick
      refine h.transitFiles hst (fun _ => rfl)
        (fun _ => ⟨fun hstate => (by cases hstate), fun hstate => (by cases hstate)⟩) ?_
      intro file hf hfile _ hobsolete
      obtain ⟨picked, hpicked, hnormal⟩ := (pickBlobGC_normal hpick).2 f hf
      obtain rfl := Option.some.inj (hfile.symm.trans hpicked)
      cases hnormal.symm.trans hobsolete

theorem books_installOutputs {j : ℕ} {offload : Bool} {files : List (UInt64 × BlobFileMeta)}
    {io : ManifestIO} (h : m.set.Books cf f total kept)
    (hs : step c m (.installOutputs j offload files io) = some m') :
    m'.set.Books cf f total kept := by
  rw [step] at hs
  split at hs
  · rename_i job hjob
    have hlogged := h.logAndApply (addEditOf job.cf .kGCOutput files) io
    by_cases hstage : job.stage = .picked
    · rw [if_pos hstage] at hs
      dsimp only at hs
      by_cases hok : (m.set.logAndApply (addEditOf job.cf .kGCOutput files) io).1.isOk
      · rw [if_pos hok] at hs
        obtain rfl := Option.some.inj hs
        exact hlogged
      · rw [if_neg hok] at hs
        obtain rfl := Option.some.inj hs
        exact hlogged
    · rw [if_neg hstage] at hs
      cases hs
  · cases hs

theorem books_rewriteValidKeys {j : ℕ} {dropped : List (UInt64 × UInt64)}
    (h : m.set.Books cf f total kept) (ha : Reported cf f m (.rewriteValidKeys j dropped))
    (hs : step c m (.rewriteValidKeys j dropped) = some m') :
    m'.set.Books cf f (total + m.charge cf f (.rewriteValidKeys j dropped))
      (kept ∧ Counted cf f m (.rewriteValidKeys j dropped)) := by
  rw [step] at hs
  split at hs
  · rename_i job hjob
    rw [charge, Counted, hjob]
    rw [Reported, hjob] at ha
    split_ifs at hs
    by_cases hcf : job.cf = cf
    · obtain ⟨st, file, hst, hfile, hfileOf, hbooks⟩ := h.exists_storage
      rw [hcf, hst] at hs
      obtain rfl := Option.some.inj hs
      rw [if_pos (by simpa using hcf)]
      obtain ⟨file', hfile', -, hbooks'⟩ :=
        BlobFileSet.books_rewriteDropped hfile hbooks (ha (by simpa using hcf))
      refine BlobFileSet.Books.of_storage hfile' (hbooks'.congr fun _ => and_congr_right fun _ => ?_)
      constructor
      · intro hcovers _ other hother
        obtain rfl := Option.some.inj (hfileOf.symm.trans hother)
        exact hcovers
      · exact fun hcovers => hcovers (by simpa using hcf) file hfileOf
    · have hany : (some job).any (fun job => decide (job.cf = cf)) = false := by simpa using hcf
      rw [hany]
      refine BlobFileSet.Books.unreported ?_ fun hfalse => (by cases hfalse)
      split at hs
      · obtain rfl := Option.some.inj hs
        exact h
      · obtain rfl := Option.some.inj hs
        exact h.setStorage_ne _ (Ne.symm hcf)
  · cases hs

theorem books_deleteInputBlobFiles {j seq : ℕ} {io : ManifestIO} (h : m.set.Books cf f total kept)
    (hs : step c m (.deleteInputBlobFiles j seq io) = some m') : m'.set.Books cf f total kept := by
  rw [step] at hs
  split at hs
  · split_ifs at hs
    obtain rfl := Option.some.inj hs
    exact h.logAndApply _ io
  · cases hs

theorem books_releaseGcFiles {j : ℕ} (h : m.set.Books cf f total kept)
    (hs : step c m (.releaseGcFiles j) = some m') : m'.set.Books cf f total kept := by
  rw [step] at hs
  split at hs
  · obtain rfl := Option.some.inj hs
    change (FileMachine.release m _).set.Books cf f total kept
    rw [release]
    split
    · exact h
    · rename_i st hst
      refine h.transitFiles hst ?_ ?_ ?_
      · intro state
        cases state <;> rfl
      · intro state
        cases state <;> exact ⟨fun hstate => (by cases hstate), fun hstate => (by cases hstate)⟩
      · intro file _ _ hopen hobsolete
        rw [hobsolete] at hopen
        exact hopen rfl
  · cases hs

/-- The books of a file are kept by every step. -/
theorem books_step {a : Action} (h : m.set.Books cf f total kept) (ha : Reported cf f m a)
    (hs : step c m a = some m') :
    m'.set.Books cf f (total + m.charge cf f a) (kept ∧ Counted cf f m a) := by
  cases a with
  | finishBlobFiles g files io =>
      obtain rfl := Option.some.inj hs
      exact (h.logAndApply _ io).unreported trivial
  | flushCompleted g diff =>
      obtain rfl := Option.some.inj hs
      exact (h.onFlushCompleted g diff).unreported trivial
  | compactionCompleted g outputLevel diff seq io =>
      obtain rfl := Option.some.inj hs
      rw [charge, Counted]
      by_cases hg : g = cf
      · subst hg
        rw [if_pos rfl]
        obtain ⟨file, hfile, hbooks⟩ :=
          h.onCompactionCompleted (c.merge g) outputLevel seq io (ha rfl)
        exact ⟨file, hfile, hbooks.congr fun _ => and_congr_right fun _ => ⟨fun hk _ => hk, fun hk => hk rfl⟩⟩
      · rw [if_neg hg]
        exact (h.onCompactionCompleted_ne (c.merge g) outputLevel seq io (Ne.symm hg) diff).unreported
          fun heq => absurd heq hg
  | deleteFilesInRanges g diff seq io =>
      obtain rfl := Option.some.inj hs
      rw [charge, Counted]
      by_cases hg : g = cf
      · subst hg
        rw [if_pos rfl]
        obtain ⟨file, hfile, hbooks⟩ := h.deleteFilesInRanges (c.merge g) seq io (ha rfl)
        exact ⟨file, hfile, hbooks.congr fun _ => and_congr_right fun _ => ⟨fun hk _ => hk, fun hk => hk rfl⟩⟩
      · rw [if_neg hg]
        exact (h.deleteFilesInRanges_ne (c.merge g) seq io (Ne.symm hg) diff).unreported
          fun heq => absurd heq hg
  | deleteBlobFilesInRanges g ranges includeEnd seq io =>
      refine BlobFileSet.Books.unreported ?_ trivial
      rw [step] at hs
      split at hs
      · obtain rfl := Option.some.inj hs
        exact h
      · obtain rfl := Option.some.inj hs
        exact h.logAndApply _ io
  | pickBlobGC g => exact (books_pickBlobGC h hs).unreported trivial
  | installOutputs j offload files io => exact (books_installOutputs h hs).unreported trivial
  | rewriteValidKeys j dropped => exact books_rewriteValidKeys h ha hs
  | deleteInputBlobFiles j seq io => exact (books_deleteInputBlobFiles h hs).unreported trivial
  | releaseGcFiles j => exact (books_releaseGcFiles h hs).unreported trivial
  | dropColumnFamilies seq cfs =>
      obtain rfl := Option.some.inj hs
      exact (h.dropColumnFamilies seq cfs).unreported trivial
  | restart recovered initialized => exact ha.elim

theorem books_run {as : List Action} (h : m.set.Books cf f total kept)
    (has : Meets (step c) (Reported cf f) m as) (hr : run (step c) m as = some m') :
    m'.set.Books cf f (total + charges c cf f m as) (kept ∧ Meets (step c) (Counted cf f) m as) := by
  induction as generalizing m total kept with
  | nil =>
      obtain rfl : m = m' := Option.some.inj hr
      exact h.unreported trivial
  | cons a as ih =>
      obtain ⟨t, ht, hrest⟩ := run_cons_some hr
      obtain ⟨file, hfile, hbooks⟩ := ih (books_step h has.1 ht) (has.2 t ht) hrest
      refine ⟨file, hfile, ?_⟩
      rw [charges, ht, Option.map_some, Option.getD_some, ← add_assoc]
      refine hbooks.congr fun _ => ?_
      rw [and_assoc]
      refine and_congr_right fun _ => and_congr_right fun _ => ⟨fun hmeets t' ht' => ?_, fun h => h t ht⟩
      obtain rfl := Option.some.inj (ht.symm.trans ht')
      exact hmeets

/-- From the moment a GC job has picked or installed a file, through every run that leaves the file
in use, the size of the file is the size it had plus all that was reported about it, exactly when
no compaction reported a loss while the job held the file and nothing took off more than there
was. -/
theorem liveDataSize_eq_iff {file file' : BlobFileMeta} {as : List Action}
    (hfile : m.set.fileOf cf f = some file) (hheld : file.state.HeldByGC)
    (hsize : file.liveDataSize.toNat < 2 ^ 63) (has : Meets (step c) (Reported cf f) m as)
    (hr : run (step c) m as = some m') (hfile' : m'.set.fileOf cf f = some file')
    (hopen : file'.state ≠ .kObsolete) :
    (file'.liveDataSize.toNat : ℤ) = file.liveDataSize.toNat + charges c cf f m as ↔
      Meets (step c) (Counted cf f) m as := by
  have hbooks : m.set.Books cf f file.liveDataSize.toNat True := by
    refine ⟨file, hfile, ⟨?_, ?_⟩, fun _ => ⟨hsize, le_refl _, iff_of_true rfl trivial⟩⟩
    · intro hstate
      rw [hstate] at hheld
      revert hheld
      decide
    · intro hstate
      rw [hstate] at hheld
      revert hheld
      decide
  obtain ⟨last, hlast, hlastBooks⟩ := books_run hbooks has hr
  obtain rfl := Option.some.inj (hlast.symm.trans hfile')
  rw [(hlastBooks.live hopen).equal, true_and]

def noMerge : LifecycleConfig := ⟨fun _ => ⟨false, false, 1⟩, fun _ => ⟨0, 0⟩⟩

def inputFile : BlobFileMeta :=
  ⟨100, 1, 0, Key.ofByte 97, Key.ofByte 98, 40, .kBeingGC⟩

/-- A GC job has just picked file 8, of which 40 bytes are live. -/
def pickedMachine : FileMachine where
  set := freshSet.setStorage 0
    ((BlobStorage.empty ⟨bytewise, 7, 8388608, 0.5⟩).setFile 8 inputFile)
  jobs := [{ cf := 0, inputs := [8] }]

def lossOfEight : SizeDiff := AList.singleton 8 (-20)

/-- The job fails, and a compaction reports a loss after it has let go of the file. -/
def lossAfterRelease : List Action :=
  [.releaseGcFiles 0, .compactionCompleted 0 6 lossOfEight 4 ioOk]

theorem lossAfterRelease_counted :
    ∃ m' file', run (step noMerge) pickedMachine lossAfterRelease = some m' ∧
      m'.set.fileOf 0 8 = some file' ∧ file'.state = .kNormal ∧
      (file'.liveDataSize.toNat : ℤ) =
        inputFile.liveDataSize.toNat + charges noMerge 0 8 pickedMachine lossAfterRelease := by
  have hloss : ∀ d, lossOfEight.lookup 8 = some d → d = -20 := by
    intro d hd
    exact (Option.some.inj hd).symm
  have hreported : Meets (step noMerge) (Reported 0 8) pickedMachine lossAfterRelease := by
    refine .cons rfl trivial (.cons rfl (fun _ d hd => ?_) trivial)
    rw [hloss d hd]
    decide
  have hfile : pickedMachine.set.fileOf 0 8 = some inputFile := rfl
  refine ⟨_, _, rfl, rfl, rfl, ?_⟩
  refine (liveDataSize_eq_iff hfile (by decide) (by decide) hreported rfl rfl
    (fun h => (by cases h))).mpr ?_
  refine .cons rfl trivial (.cons rfl (fun _ file hfile d hd => ?_) trivial)
  obtain rfl := Option.some.inj hfile
  rw [hloss d hd]
  exact ⟨by decide, by decide⟩

/-- The same loss is reported before the job lets go of the file. -/
def lossWhileHeld : List Action :=
  [.compactionCompleted 0 6 lossOfEight 4 ioOk, .releaseGcFiles 0]

theorem lossWhileHeld_lost :
    ∃ m' file', run (step noMerge) pickedMachine lossWhileHeld = some m' ∧
      m'.set.fileOf 0 8 = some file' ∧ file'.state = .kNormal ∧ file'.liveDataSize = 40 ∧
      charges noMerge 0 8 pickedMachine lossWhileHeld = -20 ∧
      (file'.liveDataSize.toNat : ℤ) ≠
        inputFile.liveDataSize.toNat + charges noMerge 0 8 pickedMachine lossWhileHeld :=
  ⟨_, _, rfl, rfl, rfl, rfl, rfl, by decide⟩

end FileMachine
end AegonKV
