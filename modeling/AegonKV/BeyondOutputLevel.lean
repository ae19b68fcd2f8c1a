import AegonKV.CompactionRounds
import Mathlib.Data.List.TakeDrop

/-!
# Keys beyond the output level

`KeyNotExistsBeyondOutputLevel` looks for a key in the files of the levels beyond the output of a
compaction. It remembers for each level the file that it has come to, so that it never goes back. A
compaction asks for its keys in their order, and each answer is the one of a search through all files.
-/

namespace AegonKV.BeyondOutputLevel

structure FileMetaData (κ : Type) [LinearOrder κ] where
  smallest : κ
  largest : κ
  ordered : smallest ≤ largest

/-- `LevelFiles` of a level that is not the first. Neighbours may share a user key. -/
structure LevelFiles (κ : Type) [LinearOrder κ] where
  files : List (FileMetaData κ)
  sorted : files.Pairwise fun f g => f.largest ≤ g.smallest

structure Level (κ : Type) [LinearOrder κ] extends LevelFiles κ where
  ptr : ℕ

structure Compaction (κ : Type) [LinearOrder κ] where
  bottommostLevel : Bool
  outputLevel : ℕ
  /-- `kCompactionStyleLevel`. -/
  styleLevel : Bool
  /-- From the level after the output level on. -/
  levels : List (LevelFiles κ)

variable {κ : Type} [LinearOrder κ]

/-- The loop over the files from the pointer on: the new pointer, and whether the key falls in the range
of the file there. -/
def scanFiles (userKey : κ) : List (FileMetaData κ) → ℕ → ℕ × Bool
  | [], ptr => (ptr, false)
  | f :: rest, ptr =>
    if userKey ≤ f.largest then (ptr, decide (f.smallest ≤ userKey))
    else scanFiles userKey rest (ptr + 1)

def Level.scan (level : Level κ) (userKey : κ) : Level κ × Bool :=
  let (ptr, found) := scanFiles userKey (level.files.drop level.ptr) level.ptr
  ({ level with ptr := ptr }, found)

/-- The loop over the levels, which a key that is found ends. -/
def scanLevels (userKey : κ) : List (Level κ) → List (Level κ) × Bool
  | [] => ([], true)
  | level :: rest =>
    let (level, found) := level.scan userKey
    if found then (level :: rest, false)
    else
      let (rest, notExists) := scanLevels userKey rest
      (level :: rest, notExists)

namespace Compaction

def keyNotExistsBeyondOutputLevel (c : Compaction κ) (userKey : κ) (levels : List (Level κ)) :
    List (Level κ) × Bool :=
  if c.bottommostLevel then (levels, true)
  else if c.outputLevel ≠ 0 ∧ c.styleLevel = true then scanLevels userKey levels
  else (levels, false)

def answersFrom (c : Compaction κ) : List (Level κ) → List κ → List Bool
  | _, [] => []
  | levels, k :: keys =>
    let (levels, answer) := c.keyNotExistsBeyondOutputLevel k levels
    answer :: c.answersFrom levels keys

/-- The answers to a sequence of calls with new pointers. -/
def answers (c : Compaction κ) (keys : List κ) : List Bool :=
  c.answersFrom (c.levels.map fun files => ⟨files, 0⟩) keys

end Compaction

/-! ## A search through all files -/

def FileMetaData.contains (f : FileMetaData κ) (userKey : κ) : Bool :=
  decide (f.smallest ≤ userKey) && decide (userKey ≤ f.largest)

def LevelFiles.hasKey (level : LevelFiles κ) (userKey : κ) : Bool := level.files.any (·.contains userKey)

def Compaction.keyAbsent (c : Compaction κ) (userKey : κ) : Bool :=
  c.bottommostLevel ||
    (decide (c.outputLevel ≠ 0 ∧ c.styleLevel = true) && c.levels.all fun level => !level.hasKey userKey)

variable {k k' : κ} {f : FileMetaData κ} {files : List (FileMetaData κ)} {level : Level κ}

theorem contains_iff : f.contains k = true ↔ f.smallest ≤ k ∧ k ≤ f.largest := by
  rw [FileMetaData.contains, Bool.and_eq_true, decide_eq_true_eq, decide_eq_true_eq]

theorem not_contains_of_lt (h : f.largest < k) : f.contains k = false := by
  rw [← Bool.not_eq_true, contains_iff]
  exact fun hc => hc.2.not_gt h

/-! ## One call -/

/-- The loop passes files below the key, and stops at the only one that can have it. -/
theorem scanFiles_spec (hsorted : files.Pairwise fun f g => f.largest ≤ g.smallest) (ptr : ℕ) :
    ∃ passed rest, files = passed ++ rest ∧ (scanFiles k files ptr).1 = ptr + passed.length ∧
      (∀ f ∈ passed, f.largest < k) ∧ (scanFiles k files ptr).2 = files.any (·.contains k) := by
  induction files generalizing ptr with
  | nil => exact ⟨[], [], rfl, rfl, (fun _ hf => nomatch hf), rfl⟩
  | cons f files ih =>
      obtain ⟨hfirst, hsorted⟩ := List.pairwise_cons.mp hsorted
      rw [scanFiles]
      by_cases hle : k ≤ f.largest
      · rw [if_pos hle]
        refine ⟨[], f :: files, rfl, rfl, (fun _ hf => nomatch hf), ?_⟩
        rw [List.any_cons, FileMetaData.contains, decide_eq_true hle, Bool.and_true]
        by_cases hsmallest : f.smallest ≤ k
        · rw [decide_eq_true hsmallest, Bool.true_or]
        · -- the files behind it begin later
          have hnone : files.any (·.contains k) = false := by
            refine List.any_eq_false.mpr fun g hg hc => hsmallest ?_
            exact f.ordered.trans ((hfirst g hg).trans (contains_iff.mp hc).1)
          rw [hnone, Bool.or_false]
      · rw [if_neg hle]
        obtain ⟨passed, rest, rfl, hptr, hpassed, hfound⟩ := ih hsorted (ptr + 1)
        refine ⟨f :: passed, rest, rfl, ?_, fun g hg => ?_, ?_⟩
        · rw [hptr, List.length_cons, Nat.add_assoc, Nat.add_comm 1]
        · rcases List.mem_cons.mp hg with rfl | hg
          · exact not_le.mp hle
          · exact hpassed g hg
        · rw [hfound, List.any_cons, not_contains_of_lt (not_le.mp hle), Bool.false_or]

/-- The files before the pointer end below a key. -/
def Level.Passed (level : Level κ) (k : κ) : Prop := ∀ f ∈ level.files.take level.ptr, f.largest < k

theorem Level.Passed.mono (h : level.Passed k) (hle : k ≤ k') : level.Passed k' :=
  fun f hf => (h f hf).trans_le hle

theorem Level.Passed.scan (h : level.Passed k) : (level.scan k).1.Passed k ∧
    (level.scan k).1.toLevelFiles = level.toLevelFiles ∧ (level.scan k).2 = level.hasKey k := by
  obtain ⟨passed, rest, hdrop, hptr, hpassed, hfound⟩ :=
    scanFiles_spec (k := k) (level.sorted.sublist (List.drop_sublist level.ptr _)) level.ptr
  refine ⟨fun f hf => ?_, rfl, ?_⟩
  · change f ∈ level.files.take (scanFiles k (level.files.drop level.ptr) level.ptr).1 at hf
    rw [hptr, List.take_add, hdrop, List.take_left', List.mem_append] at hf
    · exact hf.elim (h f) (hpassed f)
    · rfl
  · change (scanFiles k (level.files.drop level.ptr) level.ptr).2 = level.files.any (·.contains k)
    have hnone : (level.files.take level.ptr).any (·.contains k) = false := by
      refine List.any_eq_false.mpr fun f hf hc => ?_
      exact Bool.false_ne_true ((not_contains_of_lt (h f hf)).symm.trans hc)
    rw [hfound]
    calc (level.files.drop level.ptr).any (·.contains k)
        = (level.files.take level.ptr ++ level.files.drop level.ptr).any (·.contains k) := by
          rw [List.any_append, hnone, Bool.false_or]
      _ = level.files.any (·.contains k) := by rw [List.take_append_drop]

theorem scanLevels_spec {levels : List (Level κ)} (h : ∀ level ∈ levels, level.Passed k) :
    (∀ level ∈ (scanLevels k levels).1, level.Passed k) ∧
      (scanLevels k levels).1.map (·.toLevelFiles) = levels.map (·.toLevelFiles) ∧
      (scanLevels k levels).2 = levels.all fun level => !level.hasKey k := by
  induction levels with
  | nil => exact ⟨(fun _ hl => nomatch hl), rfl, rfl⟩
  | cons level levels ih =>
      obtain ⟨hpassed, hfiles, hfound⟩ := (h level List.mem_cons_self).scan
      have hrest : ∀ l ∈ levels, l.Passed k := fun l hl => h l (List.mem_cons_of_mem _ hl)
      obtain ⟨hpasseds, hlevels, hnot⟩ := ih hrest
      rw [scanLevels]
      dsimp only
      cases hkey : (level.scan k).2 with
      | true =>
          rw [if_pos rfl, List.all_cons, ← hfound, hkey]
          refine ⟨fun l hl => ?_, by rw [List.map_cons, List.map_cons, hfiles], rfl⟩
          rcases List.mem_cons.mp hl with rfl | hl
          · exact hpassed
          · exact hrest l hl
      | false =>
          rw [if_neg Bool.false_ne_true, List.all_cons, ← hfound, hkey]
          refine ⟨fun l hl => ?_, by rw [List.map_cons, List.map_cons, hfiles, hlevels], hnot⟩
          rcases List.mem_cons.mp hl with rfl | hl
          · exact hpassed
          · exact hpasseds l hl

theorem keyNotExists_spec (c : Compaction κ) {levels : List (Level κ)}
    (hlevels : levels.map (·.toLevelFiles) = c.levels) (h : ∀ level ∈ levels, level.Passed k) :
    (∀ level ∈ (c.keyNotExistsBeyondOutputLevel k levels).1, level.Passed k) ∧
      (c.keyNotExistsBeyondOutputLevel k levels).1.map (·.toLevelFiles) = c.levels ∧
      (c.keyNotExistsBeyondOutputLevel k levels).2 = c.keyAbsent k := by
  rw [Compaction.keyNotExistsBeyondOutputLevel, Compaction.keyAbsent]
  cases c.bottommostLevel with
  | true => exact ⟨h, hlevels, rfl⟩
  | false =>
      rw [if_neg Bool.false_ne_true, Bool.false_or]
      by_cases hstyle : c.outputLevel ≠ 0 ∧ c.styleLevel = true
      · obtain ⟨hpassed, hfiles, hnot⟩ := scanLevels_spec h
        rw [if_pos hstyle, decide_eq_true hstyle, Bool.true_and, hnot, ← hlevels, List.all_map]
        exact ⟨hpassed, hfiles, rfl⟩
      · rw [if_neg hstyle, decide_eq_false hstyle, Bool.false_and]
        exact ⟨h, hlevels, rfl⟩

/-! ## A sequence of calls -/

theorem answersFrom_eq (c : Compaction κ) {keys : List κ} (hkeys : keys.Pairwise (· ≤ ·))
    {levels : List (Level κ)} (hlevels : levels.map (·.toLevelFiles) = c.levels)
    (h : ∀ level ∈ levels, ∀ k ∈ keys, level.Passed k) :
    c.answersFrom levels keys = keys.map c.keyAbsent := by
  induction keys generalizing levels with
  | nil => rfl
  | cons k keys ih =>
      obtain ⟨hle, hkeys⟩ := List.pairwise_cons.mp hkeys
      obtain ⟨hpassed, hfiles, hanswer⟩ :=
        keyNotExists_spec c hlevels fun level hl => h level hl k List.mem_cons_self
      rw [Compaction.answersFrom, List.map_cons]
      dsimp only
      rw [hanswer, ih hkeys hfiles fun level hl k' hk' => (hpassed level hl).mono (hle k' hk')]

/-- For keys in their order, every answer is the one of a search through all files. -/
theorem answers_eq_keyAbsent (c : Compaction κ) {keys : List κ} (hkeys : keys.Pairwise (· ≤ ·)) :
    c.answers keys = keys.map c.keyAbsent := by
  refine answersFrom_eq c hkeys ?_ fun level hl k _ f hf => ?_
  · rw [List.map_map]
    exact List.map_id _
  · obtain ⟨files, -, rfl⟩ := List.mem_map.mp hl
    cases hf

section

/-- Two levels beyond the output; in the first one two files share a key. -/
def twoLevels : Compaction ℕ where
  bottommostLevel := false
  outputLevel := 1
  styleLevel := true
  levels := [⟨[⟨2, 4, by decide⟩, ⟨4, 6, by decide⟩, ⟨9, 9, by decide⟩], by decide⟩, ⟨[⟨7, 8, by decide⟩], by decide⟩]

theorem answers_twoLevels : twoLevels.answers [1, 4, 4, 5, 6, 7, 9, 10] =
    [true, false, false, false, false, false, false, true] := by
  have hanswers := answers_eq_keyAbsent twoLevels
    (by decide : List.Pairwise (· ≤ ·) [1, 4, 4, 5, 6, 7, 9, 10])
  exact hanswers.trans rfl

end

end AegonKV.BeyondOutputLevel
