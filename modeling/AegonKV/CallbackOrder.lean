import AegonKV.ManifestRuns
import AegonKV.TableReferences
import AegonKV.WalkLemmas

/-!
# Live data sizes under every order of the callbacks

A table is installed before the callback that reports it, so the callback of a later compaction can
arrive while a new blob file is still `kPendingLSM`. Until the callback of the event that created
the file arrives, `live_data_size_` holds the sum of the later differences as a positive number.
-/

namespace AegonKV

/-! ## Deliveries -/

/-- The callback of a change, with the latest sequence number and what the manifest answers when it
is delivered. -/
structure Delivery where
  change : TableChange
  seq : ℕ
  io : ManifestIO

def deliver (o : MergeOptions) (cf : UInt32) (s : BlobFileSet) (d : Delivery) : BlobFileSet :=
  match d.change with
  | .flush _ => (s.onFlushCompleted cf d.change.sizeDiff).1
  | .compaction outputLevel _ _ =>
    (s.onCompactionCompleted o cf outputLevel d.change.sizeDiff d.seq d.io).1

/-! ## One file through one callback -/

/-- The file after the callbacks of later compactions with differences of sum `sum` have arrived,
before and after the callback of the event that created it with `size`. -/
inductive Tracks (size sum : ℤ) : Bool → BlobFileMeta → Prop
  | pending {file : BlobFileMeta} (hstate : file.state = .kPendingLSM)
      (hlive : castInt64 file.liveDataSize = -sum) : Tracks size sum false file
  | settled {file : BlobFileMeta} (hstate : file.state ≠ .kPendingLSM)
      (hother : file.state = .kNormal ∨ file.state = .kToMerge ∨ size + sum = 0)
      (hlive : castInt64 file.liveDataSize = size + sum) : Tracks size sum true file

section Rounds

variable {size sum delta : ℤ} {created : Bool} {file : BlobFileMeta}

theorem updateLiveDataSize_live (hlow : 0 ≤ castInt64 file.liveDataSize + delta)
    (hhigh : castInt64 file.liveDataSize + delta < 2 ^ 63) :
    castInt64 (file.updateLiveDataSize delta).liveDataSize =
      castInt64 file.liveDataSize + delta := by
  rw [BlobFileMeta.updateLiveDataSize]
  dsimp only
  rw [if_neg (by omega)]
  exact castInt64_castUInt64 (by omega) hhigh

theorem castInt64_sub {a b : UInt64} (hlow : -2 ^ 63 ≤ castInt64 a - castInt64 b)
    (hhigh : castInt64 a - castInt64 b < 2 ^ 63) :
    castInt64 (a - b) = castInt64 a - castInt64 b := by
  have hsub : castInt64 (a - b) = (castInt64 a - castInt64 b).bmod (2 ^ 64) :=
    BitVec.toInt_sub
  rw [hsub]
  exact Int.bmod_eq_of_le (by omega) (by omega)

/-- The size of a file whose recorded debt is below the size it was created with. -/
theorem settle_live {debt : ℤ} (hdebt : castInt64 file.liveDataSize = debt) (h0 : 0 ≤ debt)
    (hle : debt ≤ size) (hhigh : size < 2 ^ 63) :
    castInt64 (file.settle size).liveDataSize = size - debt := by
  rw [BlobFileMeta.settle]
  dsimp only
  have hsize : castInt64 (castUInt64 size) = size := castInt64_castUInt64 (by omega) hhigh
  split_ifs with hzero
  · have hsub : castInt64 (castUInt64 size - file.liveDataSize) = size - debt := by
      rw [castInt64_sub (by omega) (by omega), hsize, hdebt]
    rw [hsub]
    exact castInt64_castUInt64 (by omega) (by omega)
  · have hlive : file.liveDataSize = 0 := by simpa using hzero
    have hdebt0 : debt = 0 := by
      rw [← hdebt, hlive]
      rfl
    rw [hsize, hdebt0]
    omega

theorem castInt64_eq_zero_of_noLiveData (h : file.noLiveData) :
    castInt64 file.liveDataSize = 0 := by
  have hlive : file.liveDataSize = 0 := by simpa [BlobFileMeta.noLiveData] using h
  rw [hlive]
  rfl

theorem Tracks.setState {state : FileState} (h : Tracks size sum true file)
    (hstate : state = .kNormal ∨ state = .kToMerge ∨ state = .kObsolete ∧ size + sum = 0) :
    Tracks size sum true { file with state := state } := by
  cases h with
  | settled hpending hother hlive =>
      rcases hstate with rfl | rfl | ⟨rfl, hzero⟩
      · exact .settled (fun h => (by cases h)) (Or.inl rfl) hlive
      · exact .settled (fun h => (by cases h)) (Or.inr (Or.inl rfl)) hlive
      · exact .settled (fun h => (by cases h)) (Or.inr (Or.inr hzero)) hlive

/-- What a walk leaves of the file, in its storage, its edit and its merge candidates. -/
structure Walk.Leaves (f : UInt64) (size sum : ℤ) (created : Bool) (w : Walk) : Prop where
  file : ∃ file, w.storage.files.lookup f = some file ∧ Tracks size sum created file
  deleted : f ∈ w.deleted → created = true ∧ size + sum = 0
  candidate : f ∈ w.candidates → created = true

variable {f : UInt64} {w w' : Walk}

theorem Walk.Leaves.congr (h : w.Leaves f size sum created) (hsame : SameAt f w w') :
    w'.Leaves f size sum created where
  file := by
    rw [hsame.lookup]
    exact h.file
  deleted hf := h.deleted (hsame.deleted.mp hf)
  candidate hf := h.candidate (hsame.candidates.mp hf)

theorem Walk.Leaves.setFile (hd : f ∉ w.deleted) (hc : f ∉ w.candidates)
    (ht : Tracks size sum created file) : (w.setFile f file).Leaves f size sum created where
  file := ⟨file, w.storage.lookup_setFile_self f file, ht⟩
  deleted hf := absurd hf hd
  candidate hf := absurd hf hc

theorem Walk.Leaves.transit {event : FileEvent} (hd : f ∉ w.deleted) (hc : f ∉ w.candidates)
    (ht : Tracks size sum created { file with state := file.state.after event }) :
    (w.transit f file event).Leaves f size sum created where
  file := ⟨_, w.storage.lookup_setFile_self f _, ht⟩
  deleted hf := absurd hf hd
  candidate hf := absurd hf hc

theorem Walk.Leaves.deleteBlobFile (h : w.Leaves f size sum true) (hzero : size + sum = 0) :
    (w.deleteBlobFile f).Leaves f size sum true where
  file := h.file
  deleted _ := ⟨rfl, hzero⟩
  candidate := h.candidate

theorem Walk.Leaves.addCandidate (h : w.Leaves f size sum true) :
    (w.addCandidate f).Leaves f size sum true where
  file := h.file
  deleted := h.deleted
  candidate _ := rfl

/-- A later compaction that finds the file settled. -/
theorem Walk.Leaves.liveCompacted (o : MergeOptions) (countSortedRun : Bool)
    (hd : f ∉ w.deleted) (hc : f ∉ w.candidates) (hstate : file.state = .kNormal ∨ file.state = .kToMerge)
    (hlive : castInt64 file.liveDataSize = size + sum) (hlow : 0 ≤ size + sum + delta)
    (hhigh : size + sum + delta < 2 ^ 63) :
    (Walk.liveCompacted o countSortedRun w f file delta).Leaves f size (sum + delta) true := by
  have hsize : castInt64 (file.updateLiveDataSize delta).liveDataSize = size + (sum + delta) := by
    rw [updateLiveDataSize_live (by omega) (by omega), hlive]
    omega
  have htracks : Tracks size (sum + delta) true (file.updateLiveDataSize delta) := by
    rcases hstate with hstate | hstate
    · refine .settled ?_ (Or.inl hstate) hsize
      exact fun h => (by cases hstate.symm.trans h)
    · refine .settled ?_ (Or.inr (Or.inl hstate)) hsize
      exact fun h => (by cases hstate.symm.trans h)
  have hset := Walk.Leaves.setFile hd hc htracks
  rw [Walk.liveCompacted]
  split_ifs with hlevel hnone hmerge hcount
  · exact hset
  · refine hset.deleteBlobFile ?_
    rw [← hsize]
    exact castInt64_eq_zero_of_noLiveData hnone
  · exact Walk.Leaves.transit hd hc (htracks.setState (Or.inr (Or.inl rfl)))
  · exact hset.addCandidate
  · exact hset

/-- The callback of a later compaction. -/
theorem Walk.Leaves.dropped (o : MergeOptions) (countSortedRun : Bool) (hd : f ∉ w.deleted)
    (hc : f ∉ w.candidates) (hfile : w.storage.files.lookup f = some file)
    (ht : Tracks size sum created file) (hdelta : delta ≤ 0) (hsum : sum ≤ 0)
    (hlow : 0 ≤ size + sum + delta) (hhigh : size < 2 ^ 63) :
    (Walk.compactionCompleted o countSortedRun w f delta).Leaves f size (sum + delta) created := by
  rw [Walk.compactionCompleted, hfile]
  dsimp only
  cases ht with
  | pending hstate hlive =>
      rw [hstate]
      dsimp only
      rw [Walk.pendingCompacted, if_pos hdelta]
      have hcast : castInt64 (castUInt64 (-delta)) = -delta :=
        castInt64_castUInt64 (by omega) (by omega)
      refine Walk.Leaves.setFile hd hc (.pending hstate ?_)
      rw [hcast, updateLiveDataSize_live (by omega) (by omega), hlive]
      omega
  | settled hstate hother hlive =>
      have hkeep : w.storage.files.lookup f = some file → delta = 0 →
          w.Leaves f size (sum + delta) true := by
        rintro hfile rfl
        rw [add_zero]
        exact ⟨⟨file, hfile, .settled hstate hother hlive⟩, fun h => absurd h hd,
          fun h => absurd h hc⟩
      split
      · contradiction
      · exact Walk.Leaves.liveCompacted o countSortedRun hd hc (Or.inl ‹_›) hlive hlow (by omega)
      · exact Walk.Leaves.liveCompacted o countSortedRun hd hc (Or.inr ‹_›) hlive hlow (by omega)
      · rename_i hnormal hmerge
        rcases hother with h | h | hzero
        · exact absurd h hnormal
        · exact absurd h hmerge
        · exact hkeep hfile (by omega)

/-- The callback of the compaction that created the file. -/
theorem Walk.Leaves.compactionCreated (o : MergeOptions) (countSortedRun : Bool)
    (hd : f ∉ w.deleted) (hc : f ∉ w.candidates) (hfile : w.storage.files.lookup f = some file)
    (ht : Tracks size sum false file) (hpos : 0 < size) (hsum : sum ≤ 0)
    (hlow : 0 ≤ size + sum) (hhigh : size < 2 ^ 63) :
    (Walk.compactionCompleted o countSortedRun w f size).Leaves f size sum true := by
  cases ht with
  | pending hstate hlive =>
      have hsize : castInt64 (file.settle size).liveDataSize = size + sum := by
        rw [settle_live hlive (by omega) (by omega) hhigh]
        omega
      have htransit : (w.transit f (file.settle size) .kCompactionCompleted).Leaves f size sum
          true :=
        Walk.Leaves.transit hd hc (.settled (fun h => (by cases h)) (Or.inl rfl) hsize)
      rw [Walk.compactionCompleted, hfile]
      dsimp only
      rw [hstate]
      dsimp only
      rw [Walk.pendingCompacted, if_neg (by omega)]
      dsimp only
      split_ifs with hnone
      · refine (htransit.deleteBlobFile ?_).addCandidate
        rw [← hsize]
        exact castInt64_eq_zero_of_noLiveData hnone
      · exact htransit.addCandidate

/-- The callback of the flush that created the file. -/
theorem Walk.Leaves.flushCreated (hd : f ∉ w.deleted) (hc : f ∉ w.candidates)
    (hfile : w.storage.files.lookup f = some file) (ht : Tracks size sum false file)
    (hpos : 0 < size) (hsum : sum ≤ 0) (hlow : 0 ≤ size + sum) (hhigh : size < 2 ^ 63) :
    (Walk.flushCompleted w f size).Leaves f size sum true := by
  cases ht with
  | pending hstate hlive =>
      have hsize : castInt64 (file.settle size).liveDataSize = size + sum := by
        rw [settle_live hlive (by omega) (by omega) hhigh]
        omega
      have hafter : (file.settle size).state.after .kFlushCompleted = .kNormal := by
        have hsettle : (file.settle size).state = .kPendingLSM := hstate
        rw [hsettle]
        rfl
      rw [Walk.flushCompleted, hfile]
      dsimp only
      rw [if_neg (by simpa using hstate), if_neg (by omega)]
      refine Walk.Leaves.transit hd hc ?_
      rw [hafter]
      exact .settled (fun h => (by cases h)) (Or.inl rfl) hsize

end Rounds

/-! ## One file through the marks -/

/-- An event that changes nothing the second time, on a file that may be listed several times. -/
theorem Walk.lookup_foldl_transitFile {event : FileEvent}
    (hevent : ∀ state : FileState, (state.after event).after event = state.after event)
    {f : UInt64} {file : BlobFileMeta} (numbers : List UInt64) (w : Walk)
    (h : w.storage.files.lookup f = some file) :
    ∃ file', (numbers.foldl (transitFile event) w).storage.files.lookup f = some file' ∧
      (file' = file ∨ f ∈ numbers ∧ file' = { file with state := file.state.after event }) := by
  induction numbers generalizing w file with
  | nil => exact ⟨file, h, Or.inl rfl⟩
  | cons number numbers ih =>
      rw [List.foldl_cons]
      by_cases hf : f = number
      · subst hf
        have hmarked : (transitFile event w f).storage.files.lookup f =
            some { file with state := file.state.after event } := by
          rw [transitFile, h]
          exact w.storage.lookup_setFile_self f _
        obtain ⟨file', hfile', heq⟩ := ih _ hmarked
        refine ⟨file', hfile', Or.inr ⟨List.mem_cons_self, ?_⟩⟩
        rcases heq with rfl | ⟨-, rfl⟩
        · rfl
        · simp only [hevent]
      · have hsame : (transitFile event w number).storage.files.lookup f = some file := by
          rw [transitFile]
          split
          · exact h
          · exact (w.storage.lookup_setFile_ne _ hf).trans h
        obtain ⟨file', hfile', heq⟩ := ih _ hsame
        refine ⟨file', hfile', heq.imp id fun hmark => ⟨List.mem_cons_of_mem _ hmark.1, hmark.2⟩⟩

theorem Walk.lookup_markFileIfNeedMerge {st : BlobStorage} {f : UInt64} {file : BlobFileMeta}
    (candidates : List UInt64) (maxSortedRuns : ℤ) (h : st.files.lookup f = some file) :
    ∃ file', (markFileIfNeedMerge st candidates maxSortedRuns).storage.files.lookup f = some file' ∧
      (file' = file ∨ f ∈ candidates ∧ file' = { file with state := .kToMerge }) := by
  have hevent : ∀ state : FileState, (state.after .kNeedMerge).after .kNeedMerge =
      state.after .kNeedMerge := fun _ => rfl
  obtain ⟨file', hfile', heq⟩ := lookup_foldl_transitFile hevent
    (mergeMarks (ranges st candidates) maxSortedRuns) { storage := st } h
  refine ⟨file', hfile', heq.imp id fun hmark => ⟨?_, hmark.2⟩⟩
  exact ranges_subset st candidates (mergeMarks_subset _ _ hmark.1)

/-! ## One callback -/

section Callbacks

variable {s : BlobFileSet} {cf : UInt32} {f : UInt64} {size sum : ℤ} {created : Bool}

def Tracked (s : BlobFileSet) (cf : UInt32) (f : UInt64) (size sum : ℤ) (created : Bool) : Prop :=
  ∃ file, s.fileOf cf f = some file ∧ Tracks size sum created file

theorem Tracked.exists_storage (h : Tracked s cf f size sum created) :
    ∃ st file, s.columnFamilies.lookup cf = some st ∧ st.files.lookup f = some file ∧
      Tracks size sum created file := by
  obtain ⟨file, hfile, ht⟩ := h
  obtain ⟨st, hst, hlookup⟩ := Option.bind_eq_some_iff.mp hfile
  exact ⟨st, file, hst, hlookup, ht⟩

/-- The rest of `OnCompactionCompleted`, after a walk that tracks the file. -/
theorem Tracked.afterWalk {st : BlobStorage} {o : MergeOptions} {outputLevel : ℤ} {diff : SizeDiff}
    {seq : ℕ} {io : ManifestIO} (hst : s.columnFamilies.lookup cf = some st)
    (hwalk : ∀ countSortedRun,
      (Walk.applyDiff (Walk.compactionCompleted o countSortedRun) st diff).Leaves f size sum created) :
    Tracked (s.onCompactionCompleted o cf outputLevel diff seq io).1 cf f size sum created := by
  rw [BlobFileSet.onCompactionCompleted, hst]
  dsimp only
  set w := Walk.applyDiff (Walk.compactionCompleted o _) st diff with hw
  have hleaves : w.Leaves f size sum created := hwalk _
  obtain ⟨file, hfile, ht⟩ := hleaves.file
  split_ifs with hlevel
  · exact ⟨file, (s.fileOf_setStorage cf _ f).trans hfile, ht⟩
  · have hset : (s.setStorage cf w.storage).fileOf cf f = some file :=
      (s.fileOf_setStorage cf _ f).trans hfile
    obtain ⟨file', hfile', heq⟩ :=
      BlobFileSet.fileOf_logAndApply (BlobFileSet.mergeEdit w seq) io hset
    have ht' : Tracks size sum created file' := by
      rcases heq with rfl | ⟨hmem, -, -, -, rfl⟩
      · exact ht
      · have hdeleted : f ∈ w.deleted := by simpa [BlobFileSet.mergeEdit] using hmem
        obtain ⟨rfl, hzero⟩ := hleaves.deleted hdeleted
        exact ht.setState (Or.inr (Or.inr ⟨rfl, hzero⟩))
    obtain ⟨st', hst', hlookup'⟩ := Option.bind_eq_some_iff.mp hfile'
    rw [hst']
    obtain ⟨file'', hfile'', heq'⟩ :=
      Walk.lookup_markFileIfNeedMerge w.candidates o.maxSortedRuns hlookup'
    refine ⟨file'', (BlobFileSet.fileOf_setStorage _ cf _ f).trans hfile'', ?_⟩
    rcases heq' with rfl | ⟨hmem, rfl⟩
    · exact ht'
    · obtain rfl := hleaves.candidate hmem
      exact ht'.setState (Or.inr (Or.inl rfl))

theorem Tracked.dropped {delta : ℤ} {diff : SizeDiff} (o : MergeOptions) (outputLevel : ℤ)
    (seq : ℕ) (io : ManifestIO) (h : Tracked s cf f size sum created)
    (hdiff : (diff.lookup f).getD 0 = delta) (hdelta : delta ≤ 0) (hsum : sum ≤ 0)
    (hlow : 0 ≤ size + sum + delta) (hhigh : size < 2 ^ 63) :
    Tracked (s.onCompactionCompleted o cf outputLevel diff seq io).1 cf f size (sum + delta)
      created := by
  obtain ⟨st, file, hst, hfile, ht⟩ := h.exists_storage
  refine Tracked.afterWalk hst fun countSortedRun => ?_
  have hlocal := Walk.local_compactionCompleted o countSortedRun
  cases hlookup : diff.lookup f with
  | none =>
      have hzero : delta = 0 := by rw [← hdiff, hlookup, Option.getD_none]
      rw [hzero, add_zero]
      have hstart : Walk.Leaves f size sum created { storage := st } :=
        ⟨⟨file, hfile, ht⟩, fun h => (by cases h), fun h => (by cases h)⟩
      exact hstart.congr (Walk.applyDiff_of_lookup_none hlocal st hlookup)
  | some d =>
      obtain rfl : d = delta := by rw [← hdiff, hlookup, Option.getD_some]
      obtain ⟨w, hbefore, hafter⟩ := Walk.applyDiff_of_lookup_some hlocal st hlookup
      refine Walk.Leaves.congr (Walk.Leaves.dropped o countSortedRun ?_ ?_
        (hbefore.lookup.trans hfile) ht hdelta hsum hlow hhigh) hafter
      · exact fun hf => (by cases hbefore.deleted.mp hf)
      · exact fun hf => (by cases hbefore.candidates.mp hf)

theorem Tracked.compactionCreated {diff : SizeDiff} (o : MergeOptions) (outputLevel : ℤ)
    (seq : ℕ) (io : ManifestIO) (h : Tracked s cf f size sum false) (hdiff : diff.lookup f = some size)
    (hpos : 0 < size) (hsum : sum ≤ 0) (hlow : 0 ≤ size + sum) (hhigh : size < 2 ^ 63) :
    Tracked (s.onCompactionCompleted o cf outputLevel diff seq io).1 cf f size sum true := by
  obtain ⟨st, file, hst, hfile, ht⟩ := h.exists_storage
  refine Tracked.afterWalk hst fun countSortedRun => ?_
  obtain ⟨w, hbefore, hafter⟩ :=
    Walk.applyDiff_of_lookup_some (Walk.local_compactionCompleted o countSortedRun) st hdiff
  refine Walk.Leaves.congr (Walk.Leaves.compactionCreated o countSortedRun ?_ ?_
    (hbefore.lookup.trans hfile) ht hpos hsum hlow hhigh) hafter
  · exact fun hf => (by cases hbefore.deleted.mp hf)
  · exact fun hf => (by cases hbefore.candidates.mp hf)

theorem Tracked.flushCreated {diff : SizeDiff} (h : Tracked s cf f size sum false)
    (hdiff : diff.lookup f = some size) (hpos : 0 < size) (hsum : sum ≤ 0) (hlow : 0 ≤ size + sum)
    (hhigh : size < 2 ^ 63) : Tracked (s.onFlushCompleted cf diff).1 cf f size sum true := by
  obtain ⟨st, file, hst, hfile, ht⟩ := h.exists_storage
  obtain ⟨w, hbefore, hafter⟩ := Walk.applyDiff_of_lookup_some Walk.local_flushCompleted st hdiff
  have hleaves := Walk.Leaves.congr (Walk.Leaves.flushCreated
    (fun hf => (by cases hbefore.deleted.mp hf)) (fun hf => (by cases hbefore.candidates.mp hf))
    (hbefore.lookup.trans hfile) ht hpos hsum hlow hhigh) hafter
  obtain ⟨file', hfile', ht'⟩ := hleaves.file
  rw [BlobFileSet.onFlushCompleted, hst]
  exact ⟨file', (s.fileOf_setStorage cf _ f).trans hfile', ht'⟩

end Callbacks

/-! ## All orders -/

section Orders

variable {o : MergeOptions} {cf : UInt32} {f : UInt64} {size sum : ℤ}

theorem deltas_nonpos {later : List TableChange} (h : ∀ c ∈ later, Drops f c) :
    (later.map (TableChange.delta f)).sum ≤ 0 := by
  induction later with
  | nil => exact le_refl 0
  | cons c later ih =>
      have hc := (h c List.mem_cons_self).delta_nonpos
      have hrest := ih fun c hc => h c (List.mem_cons_of_mem _ hc)
      rw [List.map_cons, List.sum_cons]
      omega

theorem Drops.deliver {s : BlobFileSet} {created : Bool} {d : Delivery} (o : MergeOptions)
    (h : Drops f d.change) (ht : Tracked s cf f size sum created) (hsum : sum ≤ 0)
    (hlow : 0 ≤ size + sum + d.change.delta f) (hhigh : size < 2 ^ 63) :
    Tracked (deliver o cf s d) cf f size (sum + d.change.delta f) created := by
  obtain ⟨outputLevel, inputs, outputs, hchange⟩ := h.compaction
  rw [AegonKV.deliver]
  split
  · rename_i hflush
    cases hchange.symm.trans hflush
  · exact ht.dropped o _ d.seq d.io h.lookup h.delta_nonpos hsum hlow hhigh

/-- The callbacks that arrive after the one of the creating event. -/
theorem Tracked.deliverAll {s : BlobFileSet} {created : Bool} {ds : List Delivery}
    (o : MergeOptions) (ht : Tracked s cf f size sum created)
    (h : ∀ c ∈ ds.map (·.change), Drops f c) (hsum : sum ≤ 0)
    (hlow : 0 ≤ size + sum + ((ds.map (·.change)).map (TableChange.delta f)).sum)
    (hhigh : size < 2 ^ 63) :
    Tracked (ds.foldl (deliver o cf) s) cf f size
      (sum + ((ds.map (·.change)).map (TableChange.delta f)).sum) created := by
  induction ds generalizing s sum with
  | nil => simpa using ht
  | cons d ds ih =>
      rw [List.map_cons, List.map_cons, List.sum_cons] at hlow ⊢
      have hrest : ∀ c ∈ ds.map (·.change), Drops f c := fun c hc => h c (List.mem_cons_of_mem _ hc)
      have hd := h d.change List.mem_cons_self
      have hdelta := hd.delta_nonpos
      have hle := deltas_nonpos hrest
      have hnext := ih (hd.deliver o ht hsum (by omega) hhigh) hrest (by omega) (by omega)
      rwa [add_assoc] at hnext

theorem Tracked.deliverCreating {s : BlobFileSet} {d : Delivery} (o : MergeOptions)
    (ht : Tracked s cf f size sum false) (hlookup : d.change.sizeDiff.lookup f = some size)
    (hpos : 0 < size) (hsum : sum ≤ 0) (hlow : 0 ≤ size + sum) (hhigh : size < 2 ^ 63) :
    Tracked (deliver o cf s d) cf f size sum true := by
  rw [AegonKV.deliver]
  split
  · exact ht.flushCreated hlookup hpos hsum hlow hhigh
  · exact ht.compactionCreated o _ d.seq d.io hlookup hpos hsum hlow hhigh

/-- The callback of the creating event anywhere among those of the later compactions. -/
theorem Tracked.deliverPerm {s : BlobFileSet} {creating : TableChange} {rest : List TableChange}
    {ds : List Delivery} (o : MergeOptions) (ht : Tracked s cf f size sum false)
    (hlookup : creating.sizeDiff.lookup f = some size) (hrest : ∀ c ∈ rest, Drops f c)
    (hperm : (ds.map (·.change)).Perm (creating :: rest)) (hpos : 0 < size) (hsum : sum ≤ 0)
    (hlow : 0 ≤ size + sum + (rest.map (TableChange.delta f)).sum) (hhigh : size < 2 ^ 63) :
    Tracked (ds.foldl (deliver o cf) s) cf f size
      (sum + (rest.map (TableChange.delta f)).sum) true := by
  induction ds generalizing s sum rest with
  | nil => exact absurd hperm.symm (List.not_perm_cons_nil)
  | cons d ds ih =>
      rw [List.map_cons] at hperm
      have hle := deltas_nonpos hrest
      rcases List.mem_cons.mp (hperm.subset List.mem_cons_self) with hcreating | hlater
      · rw [hcreating] at hperm
        have hperm' := hperm.cons_inv
        have hsums := (hperm'.map (TableChange.delta f)).sum_eq
        have hstart := ht.deliverCreating (d := d) o (by rw [hcreating]; exact hlookup) hpos hsum
          (by omega) hhigh
        have hall := hstart.deliverAll o (fun c hc => hrest c (hperm'.subset hc)) hsum
          (by omega) hhigh
        rwa [hsums] at hall
      · obtain ⟨before, behind, rfl⟩ := List.append_of_mem hlater
        have hmiddle : (before ++ d.change :: behind).Perm (d.change :: (before ++ behind)) :=
          List.perm_middle
        have hsums := (hmiddle.map (TableChange.delta f)).sum_eq
        rw [List.map_cons, List.sum_cons] at hsums
        have hswap : (d.change :: ds.map (·.change)).Perm
            (d.change :: creating :: (before ++ behind)) :=
          hperm.trans ((hmiddle.cons creating).trans (List.Perm.swap _ _ _))
        have hothers : ∀ c ∈ before ++ behind, Drops f c := fun c hc =>
          hrest c (hmiddle.symm.subset (List.mem_cons_of_mem _ hc))
        have hd := hrest d.change hlater
        have hdelta := hd.delta_nonpos
        have hle' := deltas_nonpos hothers
        have hnext := ih (hd.deliver o ht hsum (by omega) hhigh) hothers hswap.cons_inv (by omega)
          (by omega)
        rwa [add_assoc, ← hsums] at hnext

end Orders

/-- In whichever order the callbacks of the creating event and of the later compactions arrive, the
file ends with the size of its records that the tables still reference. -/
theorem liveDataSize_settles {o : MergeOptions} {s : BlobFileSet} {cf : UInt32} {f : UInt64}
    {file : BlobFileMeta} {tables : List SsTable} {creating : TableChange}
    {later : List TableChange} {deliveries : List Delivery} (hfile : s.fileOf cf f = some file)
    (hstate : file.state = .kPendingLSM) (hlive : file.liveDataSize = 0)
    (hcreates : Creates f tables creating) (hfollow : Follow f (creating.apply tables) later)
    (hperm : (deliveries.map (·.change)).Perm (creating :: later)) :
    ∃ file', (deliveries.foldl (deliver o cf) s).fileOf cf f = some file' ∧
      file'.state ≠ .kPendingLSM ∧
      file'.liveDataSize.toNat =
        referencedSize f (later.foldl TableChange.apply (creating.apply tables)) ∧
      (file'.liveDataSize.toNat : ℤ) =
        creating.delta f + (later.map (TableChange.delta f)).sum := by
  have hnone : referencedSize f tables = 0 := by rw [referencedSize, hcreates.fresh]; rfl
  have hinputs := referencedSize_inputs_le (f := f) hcreates.inputs
  have hbounded := hcreates.bounded
  have hreferenced := hcreates.referenced
  have hdelta : creating.delta f = referencedSize f creating.outputs := by
    rw [TableChange.delta]
    omega
  have happly := referencedSize_apply (f := f) hcreates.inputs
  have hfinal := hfollow.referencedSize_eq
  have hlookup : creating.sizeDiff.lookup f = some (creating.delta f) := by
    have hget := getD_lookup_sizeDiff (f := f) (c := creating) (by omega) hbounded
    cases hsome : creating.sizeDiff.lookup f with
    | none =>
        rw [hsome, Option.getD_none] at hget
        omega
    | some d =>
        rw [hsome, Option.getD_some] at hget
        rw [hget]
  have hstart : Tracked s cf f (creating.delta f) 0 false :=
    ⟨file, hfile, .pending hstate (by rw [hlive]; rfl)⟩
  obtain ⟨file', hfile', ht⟩ := hstart.deliverPerm o hlookup (hfollow.drops (by omega)) hperm
    (by omega) (le_refl 0) (by omega) (by omega)
  rw [zero_add] at ht
  cases ht with
  | settled hsettled _ hsize =>
      have hnat : file'.liveDataSize.toNat =
          referencedSize f (later.foldl TableChange.apply (creating.apply tables)) :=
        toNat_of_castInt64 (by omega)
      exact ⟨file', hfile', hsettled, hnat, by omega⟩

/-- A new blob file with two records, one of which a compaction drops before the flush that wrote
the file is reported. -/
def flushedRecords : SsTable := [⟨7, ⟨0, 30, 0⟩, 0, ⟨0, 0, 0⟩⟩, ⟨7, ⟨30, 40, 1⟩, 0, ⟨0, 0, 0⟩⟩]

def droppedRecord : TableChange :=
  .compaction 1 [flushedRecords] [[⟨7, ⟨30, 40, 1⟩, 0, ⟨0, 0, 0⟩⟩]]

def pendingSet : BlobFileSet :=
  freshSet.setStorage 0 ((BlobStorage.empty ⟨bytewise, 7, 8388608, 0.5⟩).setFile 7 smallFile)

theorem lateFlush_settles :
    ∃ file', ([⟨droppedRecord, 5, ioOk⟩, ⟨.flush flushedRecords, 6, ioOk⟩].foldl
        (deliver ⟨true, true, 20⟩ 0) pendingSet).fileOf 0 7 = some file' ∧
      file'.state ≠ .kPendingLSM ∧ file'.liveDataSize.toNat = 40 ∧
      (file'.liveDataSize.toNat : ℤ) = 70 + (-30) := by
  have hfile : pendingSet.fileOf 0 7 = some smallFile := rfl
  have hcreates : Creates 7 [] (.flush flushedRecords) :=
    ⟨rfl, List.Subperm.refl _, by decide, by decide⟩
  have hfollow : Follow 7 (TableChange.apply [] (.flush flushedRecords)) [droppedRecord] := by
    refine ⟨⟨⟨1, _, _, rfl⟩, List.Subperm.refl _, ?_⟩, trivial⟩
    exact (List.sublist_cons_self _ _).subperm
  exact liveDataSize_settles hfile rfl rfl hcreates hfollow (List.Perm.swap _ _ _)

end AegonKV
