import AegonKV.BeyondOutputLevel

/-!
# The bottommost level

`IsBottommostLevel` asks whether files of older sorted runs overlap the range of keys of a compaction.
With `KeyNotExistsBeyondOutputLevel` it tells the compaction iterator which keys have no older versions.

The binary search for a file goes by user keys: the key it looks for comes before every internal key of
its user key.
-/

namespace AegonKV.BottommostLevel
open BeyondOutputLevel (FileMetaData LevelFiles contains_iff)

variable {κ : Type} [LinearOrder κ]

structure CompactionInputFiles (κ : Type) [LinearOrder κ] where
  level : ℕ
  files : List (FileMetaData κ)
  sorted : level ≠ 0 → files.Pairwise fun f g => f.largest ≤ g.smallest

/-- The variables of `GetBoundaryKeys`. -/
structure BoundaryKeys (κ : Type) where
  smallest : κ
  largest : κ
  initialized : Bool

def BoundaryKeys.extend (keys : BoundaryKeys κ) (start stop : κ) : BoundaryKeys κ where
  smallest := if !keys.initialized || decide (start < keys.smallest) then start else keys.smallest
  largest := if !keys.initialized || decide (keys.largest < stop) then stop else keys.largest
  initialized := true

def BoundaryKeys.addInput (keys : BoundaryKeys κ) (input : CompactionInputFiles κ) : BoundaryKeys κ :=
  match input.files with
  | [] => keys
  | first :: rest =>
    if input.level = 0 then
      (first :: rest).foldl (fun keys f => keys.extend f.smallest f.largest) keys
    else keys.extend first.smallest ((first :: rest).getLastD first).largest

def getBoundaryKeys (inputs : List (CompactionInputFiles κ)) (emptySlice : κ) : BoundaryKeys κ :=
  inputs.foldl BoundaryKeys.addInput ⟨emptySlice, emptySlice, false⟩

/-- `SomeFileOverlapsRange` of a level whose files are disjoint and sorted. -/
def someFileOverlapsRange (level : LevelFiles κ) (smallest largest : κ) : Bool :=
  match level.files.dropWhile fun f => decide (f.largest < smallest) with
  | [] => false
  | f :: _ => !decide (largest < f.smallest)

/-- `LevelFiles` of all levels, the first of which is not sorted. -/
structure VersionStorageInfo (κ : Type) [LinearOrder κ] where
  levelZero : List (FileMetaData κ)
  /-- From level 1 on. -/
  levels : List (LevelFiles κ)

/-- `lastL0Idx` is used for the first level only, which has the newest file first. -/
def VersionStorageInfo.rangeMightExistAfterSortedRun (v : VersionStorageInfo κ) (smallest largest : κ)
    (lastLevel lastL0Idx : ℕ) : Bool :=
  if lastLevel = 0 ∧ lastL0Idx + 1 ≠ v.levelZero.length then true
  else (v.levels.drop lastLevel).any fun level =>
    !level.files.isEmpty && (decide (lastLevel = 0) || someFileOverlapsRange level smallest largest)

def VersionStorageInfo.isBottommostLevel (v : VersionStorageInfo κ)
    (inputs : List (CompactionInputFiles κ)) (emptySlice : κ) (outputLevel outputL0Idx : ℕ) : Bool :=
  let keys := getBoundaryKeys inputs emptySlice
  !v.rangeMightExistAfterSortedRun keys.smallest keys.largest outputLevel outputL0Idx

/-! ## The boundary keys -/

variable {keys : BoundaryKeys κ} {f : FileMetaData κ} {level : LevelFiles κ} {smallest largest k : κ}

def BoundaryKeys.Encloses (keys : BoundaryKeys κ) (start stop : κ) : Prop :=
  keys.initialized = true ∧ keys.smallest ≤ start ∧ stop ≤ keys.largest

theorem encloses_extend (keys : BoundaryKeys κ) (start stop : κ) :
    (keys.extend start stop).Encloses start stop := by
  refine ⟨rfl, ?_, ?_⟩
  · dsimp only [BoundaryKeys.extend]
    split_ifs with h
    · exact le_rfl
    · rw [Bool.or_eq_true, decide_eq_true_eq, not_or] at h
      exact not_lt.mp h.2
  · dsimp only [BoundaryKeys.extend]
    split_ifs with h
    · exact le_rfl
    · rw [Bool.or_eq_true, decide_eq_true_eq, not_or] at h
      exact not_lt.mp h.2

/-- An extension keeps what is enclosed. -/
theorem BoundaryKeys.Encloses.extend {start stop : κ} (h : keys.Encloses start stop) (start' stop' : κ) :
    (keys.extend start' stop').Encloses start stop := by
  obtain ⟨hinitialized, hsmallest, hlargest⟩ := h
  refine ⟨rfl, ?_, ?_⟩
  · dsimp only [BoundaryKeys.extend]
    rw [hinitialized, Bool.not_true, Bool.false_or]
    split_ifs with hlt
    · exact (of_decide_eq_true hlt).le.trans hsmallest
    · exact hsmallest
  · dsimp only [BoundaryKeys.extend]
    rw [hinitialized, Bool.not_true, Bool.false_or]
    split_ifs with hlt
    · exact hlargest.trans (of_decide_eq_true hlt).le
    · exact hlargest

theorem BoundaryKeys.Encloses.foldl {start stop : κ} (h : keys.Encloses start stop)
    (files : List (FileMetaData κ)) :
    (files.foldl (fun keys f => keys.extend f.smallest f.largest) keys).Encloses start stop := by
  induction files generalizing keys with
  | nil => exact h
  | cons f files ih => exact ih (h.extend f.smallest f.largest)

theorem encloses_foldl {files : List (FileMetaData κ)} (hf : f ∈ files) :
    (files.foldl (fun keys f => keys.extend f.smallest f.largest) keys).Encloses f.smallest f.largest := by
  induction files generalizing keys with
  | nil => cases hf
  | cons g files ih =>
      rcases List.mem_cons.mp hf with rfl | hf
      · exact (encloses_extend keys f.smallest f.largest).foldl files
      · exact ih hf

theorem BoundaryKeys.Encloses.addInput {start stop : κ} (h : keys.Encloses start stop)
    (input : CompactionInputFiles κ) : (keys.addInput input).Encloses start stop := by
  rw [BoundaryKeys.addInput]
  cases input.files with
  | nil => exact h
  | cons first rest =>
      dsimp only
      split_ifs
      · exact h.foldl _
      · exact h.extend _ _

/-- In a sorted level the first and the last file enclose every file. -/
theorem sorted_bounds {first : FileMetaData κ} {rest : List (FileMetaData κ)}
    (hsorted : (first :: rest).Pairwise fun f g => f.largest ≤ g.smallest) (hf : f ∈ first :: rest) :
    first.smallest ≤ f.smallest ∧ f.largest ≤ ((first :: rest).getLastD first).largest := by
  induction rest generalizing first f with
  | nil =>
      obtain rfl := List.mem_singleton.mp hf
      exact ⟨le_rfl, le_rfl⟩
  | cons second rest ih =>
      obtain ⟨hfirst, hrest⟩ := List.pairwise_cons.mp hsorted
      have hlast : (first :: second :: rest).getLastD first = (second :: rest).getLastD second := by
        rw [List.getLastD_cons, List.getLastD_cons, List.getLastD_cons]
      rw [hlast]
      rcases List.mem_cons.mp hf with rfl | hf
      · refine ⟨le_rfl, ?_⟩
        have hsecond := ih hrest List.mem_cons_self
        exact (hfirst second List.mem_cons_self).trans (second.ordered.trans hsecond.2)
      · refine ⟨first.ordered.trans (hfirst f hf), (ih hrest hf).2⟩

theorem encloses_addInput (keys : BoundaryKeys κ) {input : CompactionInputFiles κ} (hf : f ∈ input.files) :
    (keys.addInput input).Encloses f.smallest f.largest := by
  have hsorted := input.sorted
  rw [BoundaryKeys.addInput]
  cases hfiles : input.files with
  | nil =>
      rw [hfiles] at hf
      cases hf
  | cons first rest =>
      rw [hfiles] at hf hsorted
      dsimp only
      split_ifs with hlevel
      · exact encloses_foldl hf
      · obtain ⟨hstart, hstop⟩ := sorted_bounds (hsorted hlevel) hf
        obtain ⟨hinitialized, hsmallest, hlargest⟩ :=
          encloses_extend keys first.smallest ((first :: rest).getLastD first).largest
        exact ⟨hinitialized, hsmallest.trans hstart, hstop.trans hlargest⟩

theorem BoundaryKeys.Encloses.addInputs {start stop : κ} (h : keys.Encloses start stop)
    (inputs : List (CompactionInputFiles κ)) :
    (inputs.foldl BoundaryKeys.addInput keys).Encloses start stop := by
  induction inputs generalizing keys with
  | nil => exact h
  | cons input inputs ih => exact ih (h.addInput input)

/-- `GetBoundaryKeys` encloses every input file. -/
theorem encloses_getBoundaryKeys {inputs : List (CompactionInputFiles κ)} {input : CompactionInputFiles κ}
    (hinput : input ∈ inputs) (hf : f ∈ input.files) (emptySlice : κ) :
    (getBoundaryKeys inputs emptySlice).Encloses f.smallest f.largest := by
  rw [getBoundaryKeys]
  generalize (⟨emptySlice, emptySlice, false⟩ : BoundaryKeys κ) = keys
  induction inputs generalizing keys with
  | nil => cases hinput
  | cons i inputs ih =>
      rw [List.foldl_cons]
      rcases List.mem_cons.mp hinput with rfl | hinput
      · exact (encloses_addInput keys hf).addInputs inputs
      · exact ih hinput _

/-! ## The older levels -/

/-- The first file that ends in the range or behind it tells whether one overlaps. -/
theorem someFileOverlapsRange_iff (level : LevelFiles κ) (smallest largest : κ) :
    someFileOverlapsRange level smallest largest = true ↔
      ∃ f ∈ level.files, smallest ≤ f.largest ∧ f.smallest ≤ largest := by
  have hsplit := List.takeWhile_append_dropWhile (p := fun f => decide (f.largest < smallest)) (l := level.files)
  have hpassed : ∀ f ∈ level.files.takeWhile fun f => decide (f.largest < smallest),
      f.largest < smallest := by
    intro f hf
    have hp := List.mem_takeWhile_imp hf
    exact of_decide_eq_true hp
  have hsorted := level.sorted
  have hhead := List.head?_dropWhile_not (fun f => decide (f.largest < smallest)) level.files
  rw [someFileOverlapsRange]
  cases hdrop : level.files.dropWhile fun f => decide (f.largest < smallest) with
  | nil =>
      rw [hdrop, List.append_nil] at hsplit
      refine iff_of_false Bool.false_ne_true ?_
      rintro ⟨f, hf, hle, -⟩
      rw [← hsplit] at hf
      exact (hpassed f hf).not_ge hle
  | cons g rest =>
      rw [hdrop] at hsplit hhead
      have hg : smallest ≤ g.largest := not_lt.mp (of_decide_eq_false hhead)
      dsimp only
      rw [Bool.not_eq_true', decide_eq_false_iff_not, not_lt]
      constructor
      · refine fun hle => ⟨g, ?_, hg, hle⟩
        rw [← hsplit]
        exact List.mem_append_right _ List.mem_cons_self
      · rintro ⟨f, hf, hle, hstart⟩
        rw [← hsplit] at hf hsorted
        rcases List.mem_append.mp hf with hf | hf
        · exact absurd hle (hpassed f hf).not_ge
        rcases List.mem_cons.mp hf with rfl | hf
        · exact hstart
        · have hbehind := List.rel_of_pairwise_cons (List.pairwise_append.mp hsorted).2.1 hf
          exact g.ordered.trans (hbehind.trans hstart)

/-- The files of the sorted runs that are older than the output. -/
def VersionStorageInfo.older (v : VersionStorageInfo κ) (outputLevel outputL0Idx : ℕ) :
    List (FileMetaData κ) :=
  (if outputLevel = 0 then v.levelZero.drop (outputL0Idx + 1) else []) ++
    (v.levels.drop outputLevel).flatMap (·.files)

variable {v : VersionStorageInfo κ} {inputs : List (CompactionInputFiles κ)} {emptySlice : κ}
  {outputLevel outputL0Idx : ℕ}

/-- Below a bottommost compaction no older file overlaps its range. -/
theorem apart_of_isBottommostLevel
    (h : v.isBottommostLevel inputs emptySlice outputLevel outputL0Idx = true) :
    ∀ f ∈ v.older outputLevel outputL0Idx,
      ¬((getBoundaryKeys inputs emptySlice).smallest ≤ f.largest ∧
        f.smallest ≤ (getBoundaryKeys inputs emptySlice).largest) := by
  rw [VersionStorageInfo.isBottommostLevel] at h
  generalize getBoundaryKeys inputs emptySlice = keys at h ⊢
  rw [VersionStorageInfo.rangeMightExistAfterSortedRun, Bool.not_eq_true'] at h
  split_ifs at h with hzero
  intro f hf hoverlap
  rw [VersionStorageInfo.older, List.mem_append] at hf
  rcases hf with hf | hf
  · split_ifs at hf with hlevel
    · rw [not_and, not_not] at hzero
      rw [hzero hlevel, List.drop_length] at hf
      cases hf
    · cases hf
  · obtain ⟨level, hlevel, hf⟩ := List.mem_flatMap.mp hf
    have hnone := List.any_eq_false.mp h level hlevel
    have hfiles : level.files.isEmpty = false := List.isEmpty_eq_false_iff_exists_mem.mpr ⟨f, hf⟩
    rw [hfiles, Bool.not_false, Bool.true_and, Bool.or_eq_true, not_or,
      someFileOverlapsRange_iff] at hnone
    exact hnone.2 ⟨f, hf, hoverlap⟩

/-! ## What the compaction iterator is told -/

/-- The compaction that looks for keys beyond its output. -/
def VersionStorageInfo.compaction (v : VersionStorageInfo κ) (inputs : List (CompactionInputFiles κ))
    (emptySlice : κ) (outputLevel outputL0Idx : ℕ) (styleLevel : Bool) : BeyondOutputLevel.Compaction κ where
  bottommostLevel := v.isBottommostLevel inputs emptySlice outputLevel outputL0Idx
  outputLevel := outputLevel
  styleLevel := styleLevel
  levels := v.levels.drop outputLevel

def proxy (c : BeyondOutputLevel.Compaction κ) (allowIngestBehind preserveDeletes : Bool) :
    CompactionIterator.Compaction κ where
  bottommostLevel := c.bottommostLevel
  allowIngestBehind := allowIngestBehind
  preserveDeletes := preserveDeletes
  keyNotExistsBeyondOutputLevel := c.keyAbsent

/-- A key of the input that is said not to exist is in the range of no older file. -/
theorem older_of_keyAbsent {styleLevel : Bool} {input : CompactionInputFiles κ} (hinput : input ∈ inputs)
    (hf : f ∈ input.files) (hk : f.contains k = true)
    (habsent : (v.compaction inputs emptySlice outputLevel outputL0Idx styleLevel).keyAbsent k = true) :
    ∀ g ∈ v.older outputLevel outputL0Idx, g.contains k = false := by
  intro g hg
  rw [← Bool.not_eq_true]
  intro hc
  obtain ⟨hstart, hstop⟩ := contains_iff.mp hk
  obtain ⟨hstart', hstop'⟩ := contains_iff.mp hc
  rw [BeyondOutputLevel.Compaction.keyAbsent, Bool.or_eq_true, Bool.and_eq_true, List.all_eq_true,
    decide_eq_true_eq] at habsent
  rcases habsent with hbottom | ⟨⟨houtput, -⟩, hlevels⟩
  · obtain ⟨-, hsmallest, hlargest⟩ := encloses_getBoundaryKeys hinput hf emptySlice
    exact apart_of_isBottommostLevel hbottom g hg
      ⟨hsmallest.trans (hstart.trans hstop'), hstart'.trans (hstop.trans hlargest)⟩
  · have hout : ¬outputLevel = 0 := houtput
    rw [VersionStorageInfo.older, if_neg hout, List.nil_append] at hg
    obtain ⟨level, hlevel, hg⟩ := List.mem_flatMap.mp hg
    have hnone := hlevels level hlevel
    rw [Bool.not_eq_true', BeyondOutputLevel.LevelFiles.hasKey] at hnone
    exact List.any_eq_false.mp hnone g hg hc

/-- What the compaction iterator assumes about its keys: where it is told that a key does not exist, the
older data has no version of it, and at the bottommost level it is told so of every key. -/
theorem told_soundly {styleLevel allowIngestBehind preserveDeletes : Bool} {env : CompactionIterator.Env κ}
    {input low : List (Kv κ)}
    (henv : env.compaction = some (proxy (v.compaction inputs emptySlice outputLevel outputL0Idx styleLevel)
      allowIngestBehind preserveDeletes))
    (hinput : ∀ kv ∈ input, ∃ i ∈ inputs, ∃ f ∈ i.files, f.contains kv.userKey = true)
    (hlow : ∀ u ∈ low, ∃ f ∈ v.older outputLevel outputL0Idx, f.contains u.userKey = true) :
    (∀ kv ∈ input, env.keyNotExists kv.userKey = true → ∀ u ∈ low, u.userKey ≠ kv.userKey) ∧
      (env.bottommostLevel = true → ∀ kv ∈ input, env.keyNotExists kv.userKey = true) := by
  constructor
  · intro kv hkv hnot u hu hkey
    rw [CompactionIterator.Env.keyNotExists, henv, Option.any_some] at hnot
    obtain ⟨i, hi, f, hf, hk⟩ := hinput kv hkv
    obtain ⟨g, hg, hc⟩ := hlow u hu
    rw [hkey] at hc
    exact Bool.false_ne_true ((older_of_keyAbsent hi hf hk hnot g hg).symm.trans hc)
  · intro hbottom kv hkv
    rw [CompactionIterator.Env.bottommostLevel, henv, Option.any_some, Bool.and_eq_true] at hbottom
    rw [CompactionIterator.Env.keyNotExists, henv, Option.any_some]
    change (_ || _) = true
    rw [Bool.or_eq_true]
    exact Or.inl hbottom.1

section

/-- A compaction of level 1 into level 2, above a file of level 3 that it does not reach. -/
def lowestLevels : VersionStorageInfo ℕ where
  levelZero := []
  levels := [⟨[⟨2, 4, Nat.le_add_right 2 2⟩], List.pairwise_singleton _ _⟩,
    ⟨[⟨3, 5, Nat.le_add_right 3 2⟩], List.pairwise_singleton _ _⟩,
    ⟨[⟨7, 9, Nat.le_add_right 7 2⟩], List.pairwise_singleton _ _⟩]

def twoInputs : List (CompactionInputFiles ℕ) :=
  [⟨1, [⟨2, 4, Nat.le_add_right 2 2⟩], fun _ => List.pairwise_singleton _ _⟩,
    ⟨2, [⟨3, 5, Nat.le_add_right 3 2⟩], fun _ => List.pairwise_singleton _ _⟩]

def lowestEnv : CompactionIterator.Env ℕ where
  snapshots := []
  earliestWriteConflictSnapshot := CompactionIterator.kMaxSequenceNumber
  compaction := some (proxy (lowestLevels.compaction twoInputs 0 2 0 true) false false)
  preserveDeletesSeqnum := 0

/-- Key 4 is not in the file of level 3, and the iterator is told so. -/
theorem told_soundly_lowest : lowestEnv.keyNotExists 4 = true ∧ (8 : ℕ) ≠ 4 := by
  have hinput : ∀ kv ∈ [(⟨4, 1, .kTypeValue, []⟩ : Kv ℕ)],
      ∃ i ∈ twoInputs, ∃ f ∈ i.files, f.contains kv.userKey = true := by
    intro kv hkv
    obtain rfl := List.mem_singleton.mp hkv
    exact ⟨_, List.mem_cons_self, _, List.mem_cons_self, rfl⟩
  have hlow : ∀ u ∈ [(⟨8, 1, .kTypeValue, []⟩ : Kv ℕ)],
      ∃ f ∈ lowestLevels.older 2 0, f.contains u.userKey = true := by
    intro u hu
    obtain rfl := List.mem_singleton.mp hu
    exact ⟨_, List.mem_flatMap.mpr ⟨_, List.mem_cons_self, List.mem_cons_self⟩, rfl⟩
  have henv : lowestEnv.compaction = some (proxy (lowestLevels.compaction twoInputs 0 2 0 true) false false) :=
    rfl
  obtain ⟨habsent, hbottom⟩ := told_soundly henv hinput hlow
  have hnot := hbottom rfl _ List.mem_cons_self
  exact ⟨hnot, habsent _ List.mem_cons_self hnot _ List.mem_cons_self⟩

end

end AegonKV.BottommostLevel
