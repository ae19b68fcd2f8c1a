import AegonKV.InternalStats

/-!
# Counters that match the files

The counters of a column family are right when each shows the number of files of its level that are
live and whose live size has been set. A live file has a live size from the moment on that it is not
`kPendingLSM` any more. Every change of a file keeps this whose calls take the file out of its old
level and into its new one.
-/

namespace AegonKV
open ClassCounters

abbrev BlobFileMap := AList fun _ : UInt64 => BlobFileMeta

/-- The counters match the files. `mine` are the numbers given out for the column family. -/
structure Counted (mine : UInt64 → Prop) (stats : ColumnStats) (files : BlobFileMap) : Prop where
  shows : stats.counters.Shows (count files stats.levelOf)
  sized_iff : ∀ f file, files.lookup f = some file → file.isObsolete = false →
    (f ∈ stats.sized ↔ file.state ≠ .kPendingLSM)
  named : ∀ f file, files.lookup f = some file → mine f
  sized : ∀ f ∈ stats.sized, mine f
  zero : ¬mine 0

/-- A file that has its live size for good. -/
def Settled (file : BlobFileMeta) : Prop := file.isObsolete = false ∧ file.state ≠ .kPendingLSM

variable {mine mine' : UInt64 → Prop} {stats stats' : ColumnStats} {files : BlobFileMap} {f : UInt64}
  {file old : BlobFileMeta}

theorem settled_iff : Settled file ↔ file.state ≠ .kObsolete ∧ file.state ≠ .kPendingLSM := by
  simp only [Settled, BlobFileMeta.isObsolete, beq_eq_false_iff_ne]

/-- No file has the number zero, so that there are fewer files than a counter can hold. -/
theorem length_lt (h : files.lookup 0 = none) : files.entries.length < 2 ^ 64 := by
  have hzero : (0 : UInt64) ∉ files.keys := AList.lookup_eq_none.mp h
  have hnodup : (((0 : UInt64) :: files.keys).map UInt64.toNat).Nodup :=
    (List.nodup_cons.mpr ⟨hzero, files.keys_nodup⟩).map fun a b hab => UInt64.toNat_inj.mp hab
  have hsub : (((0 : UInt64) :: files.keys).map UInt64.toNat).toFinset ⊆ Finset.range (2 ^ 64) := by
    intro n hn
    obtain ⟨k, -, rfl⟩ := List.mem_map.mp (List.mem_toFinset.mp hn)
    exact Finset.mem_range.mpr k.toNat_lt
  have hcard := Finset.card_le_card hsub
  rw [List.toFinset_card_of_nodup hnodup, Finset.card_range, List.length_map, List.length_cons]
    at hcard
  have hlength : files.keys.length = files.entries.length := List.length_map _
  omega

theorem ColumnStats.levelOf_of_mem (hlive : file.isObsolete = false) (hf : f ∈ stats.sized) :
    stats.levelOf f file = some file.getDiscardableRatioLevel := by
  rw [levelOf, hlive, Bool.not_false, Bool.true_and, if_pos (decide_eq_true hf)]

theorem ColumnStats.levelOf_of_notMem (hf : f ∉ stats.sized) : stats.levelOf f file = none := by
  rw [levelOf, decide_eq_false hf, Bool.and_false]
  rfl

theorem ColumnStats.levelOf_of_obsolete (h : file.isObsolete = true) :
    stats.levelOf f file = none := by
  rw [levelOf, h, Bool.not_true, Bool.false_and]
  rfl

theorem ColumnStats.levelOf_congr {g : UInt64} (h : g ∈ stats'.sized ↔ g ∈ stats.sized)
    (file : BlobFileMeta) : stats'.levelOf g file = stats.levelOf g file := by
  simp only [levelOf, h]

namespace Counted

theorem mono (h : Counted mine stats files) (hmine : ∀ f, mine f → mine' f) (hzero : ¬mine' 0) :
    Counted mine' stats files :=
  ⟨h.shows, h.sized_iff, fun f file hfile => hmine f (h.named f file hfile),
    fun f hf => hmine f (h.sized f hf), hzero⟩

theorem lookup_zero (h : Counted mine stats files) : files.lookup 0 = none := by
  cases hfile : files.lookup 0 with
  | none => rfl
  | some file => exact absurd (h.named 0 file hfile) h.zero

/-- One file changes, and the calls take it from its old level to its new one. -/
theorem replace (h : Counted mine stats files) (hmine : mine f)
    (hsized : ∀ g, g ≠ f → (g ∈ stats'.sized ↔ g ∈ stats.sized))
    (hstate : file.isObsolete = false → (f ∈ stats'.sized ↔ file.state ≠ .kPendingLSM))
    (hcalls : ∀ others : StatsType → ℕ,
      (∀ k, (others + one (stats'.levelOf f file)) k < 2 ^ 64) →
      stats.counters.Shows (others + one ((files.lookup f).bind (stats.levelOf f))) →
      stats'.counters.Shows (others + one (stats'.levelOf f file))) :
    Counted mine stats' (files.insert f file) := by
  have hzero : (files.insert f file).lookup 0 = none := by
    have hne : (0 : UInt64) ≠ f := fun heq => h.zero (heq ▸ hmine)
    rw [AList.lookup_insert_ne hne, h.lookup_zero]
  have hothers : ∀ g (old : BlobFileMeta), g ≠ f → stats'.levelOf g old = stats.levelOf g old :=
    fun g old hg => ColumnStats.levelOf_congr (hsized g hg) old
  obtain ⟨others, hbefore, hafter⟩ := count_replace files f file hothers
  constructor
  case shows =>
    rw [hafter]
    refine hcalls others (fun k => ?_) ?_
    · rw [← hafter]
      exact (count_le_length _ _ k).trans_lt (length_lt hzero)
    · rw [← hbefore]
      exact h.shows
  case sized_iff =>
    intro g new hnew hlive
    by_cases hg : g = f
    · subst hg
      rw [AList.lookup_insert] at hnew
      obtain rfl := Option.some.inj hnew
      exact hstate hlive
    · rw [AList.lookup_insert_ne hg] at hnew
      rw [hsized g hg]
      exact h.sized_iff g new hnew hlive
  case named =>
    intro g new hnew
    by_cases hg : g = f
    · rw [hg]
      exact hmine
    · rw [AList.lookup_insert_ne hg] at hnew
      exact h.named g new hnew
  case sized =>
    intro g hg
    by_cases hne : g = f
    · rw [hne]
      exact hmine
    · exact h.sized g ((hsized g hne).mp hg)
  case zero => exact h.zero

theorem levelOf_settled (h : Counted mine stats files) (hold : files.lookup f = some old)
    (hsettled : Settled old) : stats.levelOf f old = some old.getDiscardableRatioLevel :=
  stats.levelOf_of_mem hsettled.1 ((h.sized_iff f old hold hsettled.1).mpr hsettled.2)

theorem levelOf_pending (h : Counted mine stats files) (hold : files.lookup f = some old)
    (hpending : old.state = .kPendingLSM) : stats.levelOf f old = none := by
  have hlive : old.isObsolete = false := by
    rw [BlobFileMeta.isObsolete, hpending]
    rfl
  exact stats.levelOf_of_notMem fun hf => (h.sized_iff f old hold hlive).mp hf hpending

theorem not_pending_of_sized (h : Counted mine stats files) (hold : files.lookup f = some old)
    (hf : f ∈ stats.sized) : old.state ≠ .kPendingLSM := by
  by_cases hlive : old.isObsolete = true
  · intro hstate
    rw [BlobFileMeta.isObsolete, hstate] at hlive
    cases hlive
  · exact (h.sized_iff f old hold (Bool.eq_false_of_not_eq_true hlive)).mp hf

/-- A change without calls, of a file that stays in its level. -/
theorem keep (h : Counted mine stats files) (hold : files.lookup f = some old)
    (hobsolete : file.isObsolete = old.isObsolete)
    (hpending : file.state = .kPendingLSM ↔ old.state = .kPendingLSM)
    (hlevel : Settled old → file.getDiscardableRatioLevel = old.getDiscardableRatioLevel) :
    Counted mine stats (files.insert f file) := by
  refine h.replace (h.named f old hold) (fun g _ => Iff.rfl) (fun hlive => ?_)
    fun others _ hshows => ?_
  · rw [h.sized_iff f old hold (hobsolete.symm.trans hlive), not_iff_not]
    exact hpending.symm
  · have hsame : stats.levelOf f file = stats.levelOf f old := by
      by_cases hlive : old.isObsolete = true
      · rw [stats.levelOf_of_obsolete hlive, stats.levelOf_of_obsolete (hobsolete.trans hlive)]
      · rw [Bool.not_eq_true] at hlive
        by_cases hf : f ∈ stats.sized
        · rw [stats.levelOf_of_mem hlive hf, stats.levelOf_of_mem (hobsolete.trans hlive) hf,
            hlevel ⟨hlive, (h.sized_iff f old hold hlive).mp hf⟩]
        · rw [stats.levelOf_of_notMem hf, stats.levelOf_of_notMem hf]
    rw [hsame]
    rwa [hold, Option.bind_some] at hshows

/-- The live size of a file is set: the first call for a file that was not counted. -/
theorem enter (h : Counted mine stats files) (hmine : mine f)
    (hold : (files.lookup f).bind (stats.levelOf f) = none) (hsettled : Settled file) :
    Counted mine
      (stats.run [.setLiveDataSize f, .addStats file.getDiscardableRatioLevel])
      (files.insert f file) := by
  refine h.replace hmine (fun g hg => ?_) (fun _ => ?_) fun others hbound hshows => ?_
  · change g ∈ f :: stats.sized ↔ _
    rw [List.mem_cons, or_iff_right hg]
  · exact iff_of_true List.mem_cons_self hsettled.2
  · have hlevel : (stats.run [.setLiveDataSize f,
        .addStats file.getDiscardableRatioLevel]).levelOf f file =
          some file.getDiscardableRatioLevel :=
      ColumnStats.levelOf_of_mem hsettled.1 List.mem_cons_self
    rw [hlevel] at hbound ⊢
    rw [hold, add_one_none] at hshows
    refine hshows.add ?_
    have hone := hbound file.getDiscardableRatioLevel
    rwa [Pi.add_apply, one_some_self] at hone

/-- The live size of a counted file changes: out of the old level, then into the new one. -/
theorem move (h : Counted mine stats files) (hold : files.lookup f = some old)
    (hsettled : Settled old) (hsettled' : Settled file) :
    Counted mine
      (stats.run [.subStats old.getDiscardableRatioLevel, .addStats file.getDiscardableRatioLevel])
      (files.insert f file) := by
  have hf := (h.sized_iff f old hold hsettled.1).mpr hsettled.2
  refine h.replace (h.named f old hold) (fun g _ => Iff.rfl) (fun _ => iff_of_true hf hsettled'.2)
    fun others hbound hshows => ?_
  have hlevel : (stats.run [.subStats old.getDiscardableRatioLevel,
      .addStats file.getDiscardableRatioLevel]).levelOf f file =
        some file.getDiscardableRatioLevel := ColumnStats.levelOf_of_mem hsettled'.1 hf
  rw [hlevel] at hbound ⊢
  rw [hold, Option.bind_some, h.levelOf_settled hold hsettled] at hshows
  refine hshows.sub.add ?_
  have hone := hbound file.getDiscardableRatioLevel
  rwa [Pi.add_apply, one_some_self] at hone

/-- The same in the order of `DeleteFilesInRanges`, for two different levels. -/
theorem moveInto (h : Counted mine stats files) (hold : files.lookup f = some old)
    (hsettled : Settled old) (hsettled' : Settled file)
    (hne : old.getDiscardableRatioLevel ≠ file.getDiscardableRatioLevel) :
    Counted mine
      (stats.run [.addStats file.getDiscardableRatioLevel, .subStats old.getDiscardableRatioLevel])
      (files.insert f file) := by
  have hf := (h.sized_iff f old hold hsettled.1).mpr hsettled.2
  refine h.replace (h.named f old hold) (fun g _ => Iff.rfl) (fun _ => iff_of_true hf hsettled'.2)
    fun others hbound hshows => ?_
  have hlevel : (stats.run [.addStats file.getDiscardableRatioLevel,
      .subStats old.getDiscardableRatioLevel]).levelOf f file =
        some file.getDiscardableRatioLevel := ColumnStats.levelOf_of_mem hsettled'.1 hf
  rw [hlevel] at hbound ⊢
  rw [hold, Option.bind_some, h.levelOf_settled hold hsettled] at hshows
  refine Counters.Shows.sub ?_
  have hadd := hshows.add (k := file.getDiscardableRatioLevel) ?_
  · rwa [add_right_comm] at hadd
  · have hone := hbound file.getDiscardableRatioLevel
    rw [Pi.add_apply, one_some_self] at hone
    rwa [Pi.add_apply, one_some_ne hne, add_zero]

/-- A counted file becomes obsolete. -/
theorem leave (h : Counted mine stats files) (hold : files.lookup f = some old)
    (hsettled : Settled old) (hobsolete : file.isObsolete = true) :
    Counted mine (stats.run [.subStats old.getDiscardableRatioLevel]) (files.insert f file) := by
  refine h.replace (h.named f old hold) (fun g _ => Iff.rfl)
    (fun hlive => absurd hobsolete (by simp [hlive])) fun others _ hshows => ?_
  rw [ColumnStats.levelOf_of_obsolete hobsolete, add_one_none]
  rw [hold, Option.bind_some, h.levelOf_settled hold hsettled] at hshows
  exact hshows.sub

end Counted

/-! ## Rounds of the callbacks -/

def BlobFileMeta.Live (file : BlobFileMeta) : Prop := file.state = .kNormal ∨ file.state = .kToMerge

theorem BlobFileMeta.Live.settled (h : file.Live) : Settled file := by
  rw [settled_iff]
  rcases h with h | h <;> rw [h] <;> decide

def HasSettled (files : BlobFileMap) (f : UInt64) : Prop :=
  ∃ file, files.lookup f = some file ∧ Settled file

namespace Walk

variable {w w' : Walk} {options : TitanCFOptions} {number : UInt64} {delta : ℤ}

/-- The counters match what a walk has left so far. It deletes only files that are counted, and no
merge candidate. -/
structure Matches (mine : UInt64 → Prop) (options : TitanCFOptions) (stats : ColumnStats) (w : Walk) :
    Prop where
  counted : Counted mine stats w.storage.files
  options_eq : w.storage.cfOptions = options
  deleted : ∀ f ∈ w.deleted, HasSettled w.storage.files f
  candidates : ∀ f ∈ w.candidates, HasSettled w.storage.files f ∧ f ∉ w.deleted

/-- A round that changes the file of its number, which no round before has touched. -/
theorem Matches.change (h : w.Matches mine options stats) (hd : number ∉ w.deleted)
    (hc : number ∉ w.candidates) (hfiles : w'.storage.files = w.storage.files.insert number file)
    (hoptions : w'.storage.cfOptions = w.storage.cfOptions)
    (hcounted : Counted mine stats' (w.storage.files.insert number file))
    (hdeleted : ∀ f ∈ w'.deleted, f ∈ w.deleted ∨ f = number ∧ Settled file)
    (hcandidates : ∀ f ∈ w'.candidates, f ∈ w.candidates ∨
      f = number ∧ Settled file ∧ w'.deleted = w.deleted) : w'.Matches mine options stats' := by
  have hself : Settled file → HasSettled w'.storage.files number := fun hsettled =>
    ⟨file, by rw [hfiles, AList.lookup_insert], hsettled⟩
  have hother : ∀ f, f ≠ number → HasSettled w.storage.files f → HasSettled w'.storage.files f := by
    rintro f hf ⟨old, hold, hsettled⟩
    exact ⟨old, by rw [hfiles, AList.lookup_insert_ne hf, hold], hsettled⟩
  refine ⟨hfiles ▸ hcounted, hoptions.trans h.options_eq, fun f hf => ?_, fun f hf => ?_⟩
  · rcases hdeleted f hf with hf | ⟨rfl, hsettled⟩
    · exact hother f (fun heq => hd (heq ▸ hf)) (h.deleted f hf)
    · exact hself hsettled
  · rcases hcandidates f hf with hf | ⟨rfl, hsettled, hsame⟩
    · have hne : f ≠ number := fun heq => hc (heq ▸ hf)
      obtain ⟨hold, hnot⟩ := h.candidates f hf
      refine ⟨hother f hne hold, fun hmem => ?_⟩
      rcases hdeleted f hmem with hmem | ⟨heq, -⟩
      · exact hnot hmem
      · exact hne heq
    · exact ⟨hself hsettled, hsame ▸ hd⟩

theorem Matches.setFile (h : w.Matches mine options stats) (hd : number ∉ w.deleted)
    (hc : number ∉ w.candidates)
    (hcounted : Counted mine stats' (w.storage.files.insert number file)) :
    (w.setFile number file).Matches mine options stats' :=
  h.change hd hc rfl rfl hcounted (fun _ hf => Or.inl hf) fun _ hf => Or.inl hf

theorem Matches.setDeleted (h : w.Matches mine options stats) (hd : number ∉ w.deleted)
    (hc : number ∉ w.candidates) (hsettled : Settled file)
    (hcounted : Counted mine stats' (w.storage.files.insert number file)) :
    ((w.setFile number file).deleteBlobFile number).Matches mine options stats' := by
  have hdelete : ∀ f ∈ w.deleted ++ [number], f ∈ w.deleted ∨ f = number ∧ Settled file := by
    intro f hf
    rcases List.mem_append.mp hf with hf | hf
    · exact Or.inl hf
    · exact Or.inr ⟨List.mem_singleton.mp hf, hsettled⟩
  exact h.change hd hc rfl rfl hcounted hdelete fun _ hf => Or.inl hf

theorem Matches.setCandidate (h : w.Matches mine options stats) (hd : number ∉ w.deleted)
    (hc : number ∉ w.candidates) (hsettled : Settled file)
    (hcounted : Counted mine stats' (w.storage.files.insert number file)) :
    ((w.setFile number file).addCandidate number).Matches mine options stats' := by
  have hcandidate : ∀ f ∈ w.candidates ++ [number], f ∈ w.candidates ∨
      f = number ∧ Settled file ∧ w.deleted = w.deleted := by
    intro f hf
    rcases List.mem_append.mp hf with hf | hf
    · exact Or.inl hf
    · exact Or.inr ⟨List.mem_singleton.mp hf, hsettled, rfl⟩
  exact h.change hd hc rfl rfl hcounted (fun _ hf => Or.inl hf) hcandidate

theorem files_setFile_transit (w : Walk) (number : UInt64) (file : BlobFileMeta) (event : FileEvent) :
    ((w.setFile number file).transit number file event).storage.files =
      w.storage.files.insert number { file with state := file.state.after event } :=
  AList.insert_insert w.storage.files

theorem Matches.setTransited (h : w.Matches mine options stats) (hd : number ∉ w.deleted)
    (hc : number ∉ w.candidates) {event : FileEvent}
    (hcounted : Counted mine stats' (w.storage.files.insert number
      { file with state := file.state.after event })) :
    ((w.setFile number file).transit number file event).Matches mine options stats' :=
  h.change hd hc (w.files_setFile_transit number file event) rfl hcounted (fun _ hf => Or.inl hf)
    fun _ hf => Or.inl hf

theorem Matches.flushCompleted (h : w.Matches mine options stats) (hd : number ∉ w.deleted)
    (hc : number ∉ w.candidates) : (w.flushCompleted number delta).Matches mine options
      (stats.run (w.flushCompletedStats number delta)) := by
  rw [Walk.flushCompleted, flushCompletedStats]
  cases hfile : w.storage.files.lookup number with
  | none => exact h
  | some file =>
      dsimp only
      by_cases hstate : file.state = .kPendingLSM
      · rw [if_neg (not_not.mpr hstate), if_neg (not_not.mpr hstate)]
        generalize (if delta < 0 then 0 else delta) = size
        have hold : (w.storage.files.lookup number).bind (stats.levelOf number) = none := by
          rw [hfile, Option.bind_some, h.counted.levelOf_pending hfile hstate]
        have hlive : BlobFileMeta.Live { file.settle size with
            state := (file.settle size).state.after .kFlushCompleted } := by
          left
          change file.state.after .kFlushCompleted = .kNormal
          rw [hstate]
          rfl
        exact h.change hd hc rfl rfl
          (h.counted.enter (h.counted.named number file hfile) hold hlive.settled)
          (fun _ hf => Or.inl hf) fun _ hf => Or.inl hf
      · rw [if_pos hstate, if_pos hstate]
        exact h

theorem addAfter_eq (hfiles : w'.storage.files = w.storage.files.insert number file)
    (hlive : file.Live) : w'.addAfter number = [.addStats file.getDiscardableRatioLevel] := by
  rw [addAfter, hfiles, AList.lookup_insert]
  exact if_pos hlive

theorem Matches.liveCompacted (o : MergeOptions) (countSortedRun : Bool)
    (h : w.Matches mine options stats) (hd : number ∉ w.deleted) (hc : number ∉ w.candidates)
    (hfile : w.storage.files.lookup number = some file) (hlive : file.Live) :
    (liveCompacted o countSortedRun w number file delta).Matches mine options
      (stats.run (.subStats file.getDiscardableRatioLevel ::
        addAfter (liveCompacted o countSortedRun w number file delta) number)) := by
  have hlive' : (file.updateLiveDataSize delta).Live := hlive
  have hmarked : ({ file.updateLiveDataSize delta with
      state := (file.updateLiveDataSize delta).state.after .kNeedMerge } : BlobFileMeta).Live :=
    Or.inr rfl
  have hcounted := fun file' (hlive' : BlobFileMeta.Live file') =>
    h.counted.move hfile hlive.settled hlive'.settled
  rw [Walk.liveCompacted]
  split_ifs
  · rw [addAfter_eq rfl hlive']
    exact h.setFile hd hc (hcounted _ hlive')
  · rw [addAfter_eq rfl hlive']
    exact h.setDeleted hd hc hlive'.settled (hcounted _ hlive')
  · rw [addAfter_eq (w.files_setFile_transit number _ .kNeedMerge) hmarked]
    exact h.setTransited hd hc (hcounted _ hmarked)
  · rw [addAfter_eq rfl hlive']
    exact h.setCandidate hd hc hlive'.settled (hcounted _ hlive')
  · rw [addAfter_eq rfl hlive']
    exact h.setFile hd hc (hcounted _ hlive')

/-- A round of `OnCompactionCompleted` that does not create a file. -/
theorem Matches.compactionCompleted (o : MergeOptions) (countSortedRun : Bool)
    (h : w.Matches mine options stats) (hd : number ∉ w.deleted) (hc : number ∉ w.candidates)
    (hpending : ∀ file, w.storage.files.lookup number = some file → file.state = .kPendingLSM →
      delta ≤ 0) :
    (compactionCompleted o countSortedRun w number delta).Matches mine options
      (stats.run (compactionCompletedStats o countSortedRun w number delta)) := by
  rw [compactionCompletedStats]
  cases hfile : w.storage.files.lookup number with
  | none =>
      rw [Walk.compactionCompleted, hfile]
      exact h
  | some file =>
      have hidle : file.state ≠ .kNormal → file.state ≠ .kToMerge → w.addAfter number = [] := by
        intro hnormal hmerge
        rw [addAfter, hfile]
        exact if_neg (by simp [hnormal, hmerge])
      cases hstate : file.state with
      | kObsolete =>
          simp only [Walk.compactionCompleted, hfile, hstate]
          exact h
      | kPendingLSM =>
          have hdelta := hpending file hfile hstate
          have hcounted : Counted mine stats (w.storage.files.insert number
              (file.updateLiveDataSize (castInt64 (castUInt64 (-delta))))) :=
            h.counted.keep hfile rfl Iff.rfl fun hsettled => absurd hstate hsettled.2
          simp only [Walk.compactionCompleted, hfile, hstate, pendingCompacted, if_pos hdelta]
          exact h.setFile hd hc hcounted
      | kNormal =>
          simp only [Walk.compactionCompleted, hfile, hstate]
          exact h.liveCompacted o countSortedRun hd hc hfile (Or.inl hstate)
      | kToMerge =>
          simp only [Walk.compactionCompleted, hfile, hstate]
          exact h.liveCompacted o countSortedRun hd hc hfile (Or.inr hstate)
      | kInit =>
          simp only [Walk.compactionCompleted, hfile, hstate]
          rw [hidle (by rw [hstate]; decide) (by rw [hstate]; decide)]
          exact h
      | kBeingGC =>
          simp only [Walk.compactionCompleted, hfile, hstate]
          rw [hidle (by rw [hstate]; decide) (by rw [hstate]; decide)]
          exact h
      | kPendingGC =>
          simp only [Walk.compactionCompleted, hfile, hstate]
          rw [hidle (by rw [hstate]; decide) (by rw [hstate]; decide)]
          exact h

/-- `DeleteFilesInRanges` makes no calls for the file, and leaves it alone otherwise. -/
def Unnoticed (o : MergeOptions) (options : TitanCFOptions) (file : BlobFileMeta) (delta : ℤ) : Prop :=
  (file.updateLiveDataSize delta).getDiscardableRatioLevel = file.getDiscardableRatioLevel ∧
    (o.levelMerge = true → (file.updateLiveDataSize delta).noLiveData = false ∧
      ¬(file.updateLiveDataSize delta).getDiscardableRatio > options.blobFileDiscardableRatio)

/-- A round of `DeleteFilesInRanges`, unless it takes a `kPendingLSM` file for one with a live size. -/
theorem Matches.tablesDeleted (o : MergeOptions) (h : w.Matches mine options stats)
    (hd : number ∉ w.deleted) (hc : number ∉ w.candidates)
    (hpending : ∀ file, w.storage.files.lookup number = some file → file.state = .kPendingLSM →
      Unnoticed o options file delta) :
    (tablesDeleted o w number delta).Matches mine options
      (stats.run (tablesDeletedStats w number delta)) := by
  rw [tablesDeletedStats, Walk.tablesDeleted]
  cases hfile : w.storage.files.lookup number with
  | none => exact h
  | some file =>
      dsimp only
      by_cases hobsolete : file.isObsolete = true
      · rw [if_pos hobsolete, if_pos hobsolete]
        exact h
      rw [if_neg hobsolete, if_neg hobsolete]
      rw [Bool.not_eq_true] at hobsolete
      by_cases hstate : file.state = .kPendingLSM
      · -- nothing is counted, and the file stays as unknown as it is
        obtain ⟨hlevel, hmerge⟩ := hpending file hfile hstate
        have hcounted : Counted mine stats (w.storage.files.insert number
            (file.updateLiveDataSize delta)) :=
          h.counted.keep hfile rfl Iff.rfl fun hsettled => absurd hstate hsettled.2
        have hset := h.setFile hd hc hcounted
        rw [if_neg (not_not.mpr hlevel.symm)]
        cases hmode : o.levelMerge with
        | false => exact hset
        | true =>
            obtain ⟨hlive, hratio⟩ := hmerge hmode
            have hunmarked : ¬(file.updateLiveDataSize delta).getDiscardableRatio >
                (w.setFile number
                  (file.updateLiveDataSize delta)).storage.cfOptions.blobFileDiscardableRatio := by
              rw [← h.options_eq] at hratio
              exact hratio
            simp only [hlive, Bool.not_true, Bool.false_eq_true, if_false]
            rw [if_neg hunmarked]
            exact hset
      · have hsettled : Settled (file.updateLiveDataSize delta) := ⟨hobsolete, hstate⟩
        have hmarked : Settled { file.updateLiveDataSize delta with
            state := (file.updateLiveDataSize delta).state.after .kNeedMerge } :=
          BlobFileMeta.Live.settled (Or.inr rfl)
        set calls := if file.getDiscardableRatioLevel ≠
            (file.updateLiveDataSize delta).getDiscardableRatioLevel then
          [StatCall.addStats (file.updateLiveDataSize delta).getDiscardableRatioLevel,
            StatCall.subStats file.getDiscardableRatioLevel] else [] with hcalls
        have hcounted : ∀ file' : BlobFileMeta, Settled file' → file'.getDiscardableRatioLevel =
            (file.updateLiveDataSize delta).getDiscardableRatioLevel →
            Counted mine (stats.run calls) (w.storage.files.insert number file') := by
          intro file' hsettled' hlevel
          rw [hcalls, ← hlevel]
          split_ifs with hne
          · exact h.counted.moveInto hfile ⟨hobsolete, hstate⟩ hsettled' hne
          · refine h.counted.keep hfile (hsettled'.1.trans hobsolete.symm)
              (iff_of_false hsettled'.2 hstate) fun _ => ?_
            exact (not_not.mp hne).symm
        split_ifs
        · exact h.setFile hd hc (hcounted _ hsettled rfl)
        · exact h.setDeleted hd hc hsettled (hcounted _ hsettled rfl)
        · exact h.setTransited hd hc (hcounted _ hmarked rfl)
        · exact h.setFile hd hc (hcounted _ hsettled rfl)

/-! ## Whole walks -/

/-- Rounds that keep the counters right, on numbers that no round has touched yet. -/
theorem matches_rounds {round : Walk → UInt64 → ℤ → Walk} {calls : Walk → UInt64 → ℤ → List StatCall}
    {fits : BlobFileMeta → ℤ → Prop} (hlocal : Local round)
    (hround : ∀ (stats : ColumnStats) (w : Walk) (number : UInt64) (delta : ℤ),
      w.Matches mine options stats → number ∉ w.deleted → number ∉ w.candidates →
      (∀ file, w.storage.files.lookup number = some file → fits file delta) →
      (round w number delta).Matches mine options (stats.run (calls w number delta)))
    (es : List ((_ : UInt64) × ℤ)) (hn : (es.map (·.1)).Nodup) (h : w.Matches mine options stats)
    (hes : ∀ e ∈ es, e.1 ∉ w.deleted ∧ e.1 ∉ w.candidates ∧
      ∀ file, w.storage.files.lookup e.1 = some file → fits file e.2) :
    (es.foldl (fun w e => round w e.1 e.2) w).Matches mine options
      (stats.run (statsOfRounds round calls w es)) := by
  induction es generalizing w stats with
  | nil => exact h
  | cons e es ih =>
      rw [List.map_cons] at hn
      obtain ⟨hnot, hn⟩ := List.nodup_cons.mp hn
      obtain ⟨hd, hc, hfits⟩ := hes e List.mem_cons_self
      rw [statsOfRounds, ColumnStats.run_append]
      refine ih hn (hround stats w e.1 e.2 h hd hc hfits) fun e' he' => ?_
      have hne : e'.1 ≠ e.1 := fun heq => hnot (heq ▸ List.mem_map_of_mem he')
      have hsame := hlocal w e.1 e.2 e'.1 hne
      rw [hsame.deleted, hsame.candidates, hsame.lookup]
      exact hes e' (List.mem_cons_of_mem _ he')

theorem matches_applyDiff {round : Walk → UInt64 → ℤ → Walk}
    {calls : Walk → UInt64 → ℤ → List StatCall} {fits : BlobFileMeta → ℤ → Prop}
    (hlocal : Local round) {st : BlobStorage} {diff : SizeDiff}
    (hround : ∀ (stats : ColumnStats) (w : Walk) (number : UInt64) (delta : ℤ),
      w.Matches mine st.cfOptions stats → number ∉ w.deleted → number ∉ w.candidates →
      (∀ file, w.storage.files.lookup number = some file → fits file delta) →
      (round w number delta).Matches mine st.cfOptions (stats.run (calls w number delta)))
    (h : Counted mine stats st.files)
    (hfits : ∀ e ∈ diff.entries, ∀ file, st.files.lookup e.1 = some file → fits file e.2) :
    (applyDiff round st diff).Matches mine st.cfOptions
      (stats.run (statsOfRounds round calls { storage := st } diff.entries)) := by
  have hstart : Matches mine st.cfOptions stats { storage := st } :=
    ⟨h, rfl, fun f hf => (by cases hf), fun f hf => (by cases hf)⟩
  exact matches_rounds hlocal hround diff.entries diff.nodupKeys hstart fun e he =>
    ⟨List.not_mem_nil, List.not_mem_nil, hfits e he⟩

end Walk

/-! ## Events without calls -/

/-- The event is for files in these states. It makes no file obsolete or live again, and none
`kPendingLSM`. -/
structure FileEvent.Calm (event : FileEvent) (P : FileState → Prop) : Prop where
  after : ∀ state, P state → P (state.after event)
  pending : ∀ state, P state → state ≠ .kPendingLSM
  obsolete : ∀ state, P state → (state.after event = .kObsolete ↔ state = .kObsolete)

theorem calm_kGCBegin : FileEvent.kGCBegin.Calm fun state => state = .kNormal ∨ state = .kBeingGC := by
  constructor <;> intro state hstate <;> rcases hstate with rfl | rfl <;> decide

theorem calm_kNeedMerge :
    FileEvent.kNeedMerge.Calm fun state => state ≠ .kObsolete ∧ state ≠ .kPendingLSM := by
  constructor <;> rintro state ⟨hlive, hpending⟩ <;> cases state <;> simp_all [FileState.after]

theorem calm_kGCCompleted : FileEvent.kGCCompleted.Calm fun state => state ≠ .kPendingLSM := by
  constructor <;> intro state hpending <;> cases state <;> simp_all [FileState.after]

theorem Counted.transitFile {event : FileEvent} {P : FileState → Prop} (hcalm : event.Calm P)
    {w : Walk} (h : Counted mine stats w.storage.files) {number : UInt64}
    (hP : ∀ file, w.storage.files.lookup number = some file → P file.state) :
    Counted mine stats (w.transitFile event number).storage.files := by
  rw [Walk.transitFile]
  split
  · exact h
  · rename_i file hfile
    have hstate := hP file hfile
    refine h.keep hfile ?_ ?_ fun _ => rfl
    · rw [BlobFileMeta.isObsolete, BlobFileMeta.isObsolete, Bool.eq_iff_iff, beq_iff_eq, beq_iff_eq]
      exact hcalm.obsolete _ hstate
    · exact iff_of_false (hcalm.pending _ (hcalm.after _ hstate)) (hcalm.pending _ hstate)

theorem Counted.transitFiles {event : FileEvent} {P : FileState → Prop} (hcalm : event.Calm P)
    {numbers : List UInt64} {w : Walk} (h : Counted mine stats w.storage.files)
    (hP : ∀ f ∈ numbers, ∀ file, w.storage.files.lookup f = some file → P file.state) :
    Counted mine stats (numbers.foldl (Walk.transitFile event) w).storage.files := by
  induction numbers generalizing w with
  | nil => exact h
  | cons number numbers ih =>
      have hone := Walk.transited_transitFile event w number
      refine ih (h.transitFile hcalm (hP number List.mem_cons_self)) fun f hf file hfile => ?_
      by_cases hne : f = number
      · subst hne
        rw [hone.lookup_mem f List.mem_cons_self] at hfile
        obtain ⟨old, hold, rfl⟩ := Option.map_eq_some_iff.mp hfile
        exact hcalm.after _ (hP f List.mem_cons_self old hold)
      · rw [hone.lookup_other f (by simpa using hne)] at hfile
        exact hP f (List.mem_cons_of_mem _ hf) file hfile

/-! ## Edits -/

/-- A file is handed to `AddBlobFile` with its live size, or is `kPendingLSM`. -/
def Enters (file : BlobFileMeta) : Prop :=
  file.isObsolete = false ∧ (file.liveDataSize ≠ 0 ↔ file.state ≠ .kPendingLSM)

theorem Counted.addBlobFile {st : BlobStorage} (h : Counted mine stats st.files) (hmine : mine f)
    (hnone : st.files.lookup f = none) (hf : f ∉ stats.sized) (hfile : Enters file) :
    Counted mine (stats.run (addBlobFileStats f file)) (st.addBlobFile f file).files := by
  have hfiles : (st.addBlobFile f file).files = st.files.insert f file :=
    if_neg (AList.lookup_eq_none.mp hnone)
  have hold : (st.files.lookup f).bind (stats.levelOf f) = none := by rw [hnone, Option.bind_none]
  rw [hfiles, addBlobFileStats]
  split_ifs with hsize
  · exact h.enter hmine hold ⟨hfile.1, hfile.2.mp hsize⟩
  · refine h.replace hmine (fun g _ => Iff.rfl) (fun _ => iff_of_false hf (mt hfile.2.mpr hsize))
      fun others _ hshows => ?_
    rw [ColumnStats.run_nil, stats.levelOf_of_notMem hf]
    rwa [hold] at hshows

theorem sized_addBlobFileStats {g : UInt64}
    (hg : g ∈ (stats.run (addBlobFileStats f file)).sized) : g ∈ stats.sized ∨ g = f := by
  rw [addBlobFileStats] at hg
  split_ifs at hg
  · rcases List.mem_cons.mp hg with rfl | hg
    · exact Or.inr rfl
    · exact Or.inl hg
  · exact Or.inl hg

theorem Counted.foldl_addBlobFile {newFiles : List (UInt64 × BlobFileMeta)} {st : BlobStorage}
    (h : Counted mine stats st.files) (hn : (newFiles.map (·.1)).Nodup)
    (hnew : ∀ file ∈ newFiles, mine file.1 ∧ st.files.lookup file.1 = none ∧
      file.1 ∉ stats.sized ∧ Enters file.2) :
    Counted mine (stats.run (newFiles.flatMap fun file => addBlobFileStats file.1 file.2))
      (newFiles.foldl (fun st file => st.addBlobFile file.1 file.2) st).files := by
  induction newFiles generalizing st stats with
  | nil => exact h
  | cons file newFiles ih =>
      rw [List.map_cons] at hn
      obtain ⟨hnot, hn⟩ := List.nodup_cons.mp hn
      obtain ⟨hmine, hnone, hf, hfile⟩ := hnew file List.mem_cons_self
      rw [List.flatMap_cons, ColumnStats.run_append]
      refine ih (h.addBlobFile hmine hnone hf hfile) hn fun g hg => ?_
      have hne : g.1 ≠ file.1 := fun heq => hnot (heq ▸ List.mem_map_of_mem hg)
      obtain ⟨hgmine, hgnone, hgf, hgfile⟩ := hnew g (List.mem_cons_of_mem _ hg)
      refine ⟨hgmine, ?_, fun hmem => (sized_addBlobFileStats hmem).elim hgf hne, hgfile⟩
      rw [BlobStorage.lookup_addBlobFile, hgnone, if_neg hne]
      rfl

theorem Counted.applyDeleted {gone : List (UInt64 × ℕ)} {st : BlobStorage}
    (h : Counted mine stats st.files) (hn : (gone.map (·.1)).Nodup)
    (hgone : ∀ file ∈ gone, HasSettled st.files file.1) :
    Counted mine (stats.run (deletionStats gone st)) (CFEditCollector.applyDeleted gone st).2.files := by
  induction gone generalizing st stats with
  | nil => exact h
  | cons file gone ih =>
      rw [List.map_cons] at hn
      obtain ⟨hnot, hn⟩ := List.nodup_cons.mp hn
      obtain ⟨old, hold, hsettled⟩ := hgone file List.mem_cons_self
      obtain ⟨st', hmark⟩ : ∃ st', st.markFileObsolete file.1 file.2 = some st' := by
        rw [BlobStorage.markFileObsolete, hold]
        exact ⟨_, rfl⟩
      have hfiles : st'.files = st.files.insert file.1 { old with state := .kObsolete } := by
        rw [BlobStorage.markFileObsolete, hold] at hmark
        rw [← Option.some.inj hmark]
      have hleft : Counted mine (stats.run [.subStats old.getDiscardableRatioLevel]) st'.files := by
        rw [hfiles]
        exact h.leave hold hsettled rfl
      rw [deletionStats, hold, hmark, CFEditCollector.applyDeleted, hmark]
      refine ih hleft hn fun g hg => ?_
      have hne : g.1 ≠ file.1 := fun heq => hnot (heq ▸ List.mem_map_of_mem hg)
      obtain ⟨other, hother, hgsettled⟩ := hgone g (List.mem_cons_of_mem _ hg)
      exact ⟨other, by rw [hfiles, AList.lookup_insert_ne hne, hother], hgsettled⟩

/-- A sealed edit of new files and of files with a live size. -/
theorem Counted.apply {c : CFEditCollector BlobFileMeta} {st : BlobStorage}
    (h : Counted mine stats st.files) (hseal : c.sealed st.fileStatus = .ok ())
    (hadded : (c.addedFiles.map (·.1)).Nodup) (hdeleted : (c.deletedFiles.map (·.1)).Nodup)
    (hnew : ∀ file ∈ c.addedFiles, mine file.1 ∧ file.1 ∉ stats.sized ∧ Enters file.2)
    (hgone : ∀ file ∈ c.deletedFiles, ∀ old, st.files.lookup file.1 = some old →
      old.state ≠ .kPendingLSM) : Counted mine (stats.run (c.applyStats st)) (c.apply st).2.files := by
  obtain ⟨hfresh, hlive⟩ := sealed_inv hseal
  have hfold := h.foldl_addBlobFile (newFiles_nodup hadded) fun file hfile => by
    obtain ⟨hmem, -⟩ := mem_newFiles.mp hfile
    obtain ⟨hmine, hf, henters⟩ := hnew file hmem
    exact ⟨hmine, lookup_of_fileStatus_none (hfresh file hmem), hf, henters⟩
  have hnodup : (c.goneFiles.map (·.1)).Nodup := hdeleted.sublist (List.filter_sublist.map _)
  have hmarked := hfold.applyDeleted hnodup fun file hfile => by
    obtain ⟨old, hold, hobsolete⟩ := lookup_of_fileStatus_some (hlive file hfile)
    refine ⟨old, ?_, hobsolete, hgone file (mem_goneFiles.mp hfile).1 old hold⟩
    rw [BlobStorage.lookup_foldl_addBlobFile, hold, Option.some_or]
  rw [CFEditCollector.applyStats, ColumnStats.run_append, CFEditCollector.apply]
  split
  rename_i status st' hresult
  rw [hresult] at hmarked
  split_ifs
  · exact hmarked
  · exact hmarked

/-! ## Keys that a GC job could not rewrite -/

theorem Counted.rewriteDropped {dropped : List (UInt64 × UInt64)} {st : BlobStorage}
    (h : Counted mine stats st.files)
    (hdropped : ∀ d ∈ dropped, ∀ file, st.files.lookup d.1 = some file → Settled file) :
    Counted mine (stats.run (BlobFileSet.rewriteDroppedStats st dropped))
      (BlobFileSet.rewriteDropped st dropped).files := by
  induction dropped generalizing st stats with
  | nil => exact h
  | cons d dropped ih =>
      have hrest := fun d' hd' => hdropped d' (List.mem_cons_of_mem d hd')
      rw [BlobFileSet.rewriteDroppedStats, BlobFileSet.rewriteDropped, List.foldl_cons]
      cases hfile : st.files.lookup d.1 with
      | none => exact ih h hrest
      | some file =>
          have hsettled := hdropped d List.mem_cons_self file hfile
          have hsame : ∀ f, (st.setFile d.1 (file.updateLiveDataSize
              (castInt64 (0 - d.2)))).computeGCScore.files.lookup f =
                (st.setFile d.1 (file.updateLiveDataSize (castInt64 (0 - d.2)))).files.lookup f :=
            fun _ => rfl
          refine ih (h.move hfile hsettled hsettled) fun d' hd' file' hfile' => ?_
          rw [hsame] at hfile'
          by_cases hne : d'.1 = d.1
          · rw [hne, st.lookup_setFile_self] at hfile'
            obtain rfl := Option.some.inj hfile'
            exact hsettled
          · rw [st.lookup_setFile_ne _ hne] at hfile'
            exact hrest d' hd' file' hfile'

end AegonKV
