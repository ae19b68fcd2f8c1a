import AegonKV.IntervalSweep
import AegonKV.WalkLemmas

/-!
# The marks of `MarkFileIfNeedMerge`

The ends of the candidates are sorted by `std::string::compare`, the largest ends first at one key,
and a sweep keeps a working set. It finds the files that overlap too many others where every
candidate has its smallest key below its largest one in that order. A file with one key only, or one
whose keys a comparator orders the other way round, has its largest end first and stays in the set.
-/

namespace AegonKV
open LittleEndian IntervalSweep

abbrev stringLess (a b : Bytes) : Prop := @LT.lt (List UInt8) List.instLT a b

instance : IsStrictTotalOrder Bytes stringLess where
  irrefl a := List.lt_irrefl a
  trans _ _ _ hab hbc := List.lt_trans hab hbc
  trichotomous _ _ hab hba := List.le_antisymm (List.not_lt.mp hba) (List.not_lt.mp hab)

def stringCompare (a b : Bytes) : Ordering :=
  if stringLess a b then .lt else if a = b then .eq else .gt

/-- What `std::sort` may leave of both ends of the files. -/
structure SortedEnds (files : List BlobRange) (ends : List (BlobRange × Bool)) : Prop where
  perm : ends.Perm (files.flatMap fun file => [(file, true), (file, false)])
  sorted : ends.Pairwise fun end1 end2 => blobEndsCmp end2 end1 = false

/-- The loop over the ends: the working set, and the files sent `kNeedMerge`. -/
def sweepEnds (maxSortedRuns : ℤ) (ends : List (BlobRange × Bool)) : List UInt64 × List UInt64 :=
  ends.foldl (sweepEnd maxSortedRuns) ([], [])

/-! ## What is to be marked -/

section
variable (cmp : Bytes → Bytes → Ordering) (files : List BlobRange) (maxSortedRuns : ℤ)

/-- The smallest key of the file is the key, or the key lies between its smallest and largest one. -/
def activeAt (x : Bytes) (file : BlobRange) : Bool :=
  cmp file.smallestKey.val x == .eq ||
    (cmp file.smallestKey.val x == .lt && cmp x file.largestKey.val == .lt)

def activeFiles (x : Bytes) : List UInt64 := namesOf BlobRange.fileNumber files (activeAt cmp x)

/-- The file is active at the smallest key of a candidate where too many are. -/
def Crowded (f : UInt64) : Prop :=
  ∃ file ∈ files, maxSortedRuns < (activeFiles cmp files file.smallestKey.val).length ∧
    f ∈ activeFiles cmp files file.smallestKey.val

/-- However the ends are sorted, exactly the crowded files are marked and the working set is empty
at the end. -/
def MarksCrowded : Prop :=
  ∀ ends, SortedEnds files ends → (∀ f, f ∈ (sweepEnds maxSortedRuns ends).2 ↔
    Crowded cmp files maxSortedRuns f) ∧ (sweepEnds maxSortedRuns ends).1 = []

end

/-! ## The sweep over the ends of the files -/

variable {cmp : Bytes → Bytes → Ordering} {files : List BlobRange} {maxSortedRuns : ℤ}

theorem blobEndsCmp_iff {a b : BlobRange × Bool} :
    blobEndsCmp a b = true ↔
      before stringLess (fun file : BlobRange => file.smallestKey.val) (·.largestKey.val) a b := by
  have hkey (e : BlobRange × Bool) : (if e.2 then e.1.smallestKey else e.1.largestKey).val =
      key (fun file : BlobRange => file.smallestKey.val) (·.largestKey.val) e := by
    rw [key]
    split_ifs
    · rfl
    · rfl
  rw [blobEndsCmp, before]
  simp only [hkey]
  split_ifs with heq
  · rw [heq, Bool.and_eq_true, Bool.not_eq_true', or_iff_right (irrefl_of stringLess _)]
    exact (and_iff_right rfl).symm
  · rw [decide_eq_true_iff, or_iff_left fun h => heq h.1]

theorem SortedEnds.sorted' {ends : List (BlobRange × Bool)} (h : SortedEnds files ends) :
    Sorted stringLess (fun file : BlobRange => file.smallestKey.val) (·.largestKey.val) files ends := by
  constructor
  · refine h.sorted.imp fun {a b} hab => ?_
    rw [← blobEndsCmp_iff, hab]
    exact Bool.false_ne_true
  · intro a b
    rw [h.perm.mem_iff, List.mem_flatMap]
    constructor
    · rintro ⟨file, hfile, he⟩
      simp only [List.mem_cons, Prod.mk.injEq, List.not_mem_nil, or_false] at he
      rcases he with ⟨rfl, -⟩ | ⟨rfl, -⟩
      · exact hfile
      · exact hfile
    · intro ha
      refine ⟨a, ha, ?_⟩
      cases b with
      | true => exact List.mem_cons_self
      | false => exact List.mem_cons_of_mem _ List.mem_cons_self

/-- The sort of the model is one that `std::sort` may make. -/
theorem sortedEnds_mergeSort (files : List BlobRange) :
    SortedEnds files ((files.flatMap fun file => [(file, true), (file, false)]).mergeSort
      fun end1 end2 => !blobEndsCmp end2 end1) := by
  refine ⟨List.mergeSort_perm _ _, ?_⟩
  have hle (a b : BlobRange × Bool) : (!blobEndsCmp b a) = true ↔
      ¬before stringLess (fun file : BlobRange => file.smallestKey.val) (·.largestKey.val) b a := by
    rw [Bool.not_eq_true', Bool.eq_false_iff, ne_eq, blobEndsCmp_iff]
  have hsorted := List.pairwise_mergeSort
    (fun a b c hab hbc => (hle a c).mpr (not_before_trans ((hle a b).mp hab) ((hle b c).mp hbc)))
    (fun a b => (Bool.or_eq_true _ _).mpr
      ((not_before_total a b).imp (hle a b).mpr (hle b a).mpr))
    (files.flatMap fun file => [(file, true), (file, false)])
  exact hsorted.imp fun {a b} hab => (Bool.not_eq_true' _).mp hab

theorem toNat_castUInt64 (hruns : 0 ≤ maxSortedRuns) (hint : maxSortedRuns < 2 ^ 31) :
    ((castUInt64 maxSortedRuns).toNat : ℤ) = maxSortedRuns := by
  change ((BitVec.ofInt 64 maxSortedRuns).toNat : ℤ) = maxSortedRuns
  rw [BitVec.toNat_ofInt]
  omega

theorem sweepEnd_eq (acc : List UInt64 × List UInt64) (e : BlobRange × Bool) :
    sweepEnd maxSortedRuns acc e =
      sweep BlobRange.fileNumber (castUInt64 maxSortedRuns).toNat acc e := by
  rw [sweepEnd, sweep, track]
  cases e.2 with
  | true =>
      simp only [if_true, Bool.true_and, decide_eq_true_iff]
  | false => rfl

theorem sweepEnds_eq (ends : List (BlobRange × Bool)) :
    sweepEnds maxSortedRuns ends =
      ends.foldl (sweep BlobRange.fileNumber (castUInt64 maxSortedRuns).toNat) ([], []) := by
  rw [sweepEnds]
  congr 1
  funext acc e
  exact sweepEnd_eq acc e

theorem stringCompare_lt_iff {a b : Bytes} : stringCompare a b = .lt ↔ stringLess a b := by
  rw [stringCompare]
  split_ifs with hlt heq
  · exact iff_of_true rfl hlt
  · exact iff_of_false (fun h => by cases h) hlt
  · exact iff_of_false (fun h => by cases h) hlt

theorem stringCompare_eq_iff {a b : Bytes} : stringCompare a b = .eq ↔ a = b := by
  rw [stringCompare]
  split_ifs with hlt heq
  · refine iff_of_false (fun h => by cases h) fun h => ?_
    subst h
    exact irrefl_of stringLess _ hlt
  · exact iff_of_true rfl heq
  · exact iff_of_false (fun h => by cases h) heq

theorem activeAt_stringCompare {x : Bytes} {file : BlobRange} :
    activeAt stringCompare x file = true ↔
      Active stringLess (fun file : BlobRange => file.smallestKey.val) (·.largestKey.val) x file := by
  rw [activeAt, Bool.or_eq_true, Bool.and_eq_true, beq_iff_eq, beq_iff_eq, beq_iff_eq,
    stringCompare_eq_iff, stringCompare_lt_iff, stringCompare_lt_iff]
  exact Iff.rfl

/-- The sweep over proper files marks those that are crowded in the order of the strings. -/
theorem mem_sweepEnds_iff (hname : ∀ a ∈ files, ∀ b ∈ files, a.fileNumber = b.fileNumber → a = b)
    (hruns : 0 ≤ maxSortedRuns) (hint : maxSortedRuns < 2 ^ 31)
    (hproper : ∀ file ∈ files, stringLess file.smallestKey.val file.largestKey.val)
    {ends : List (BlobRange × Bool)} (hends : SortedEnds files ends) {f : UInt64} :
    f ∈ (sweepEnds maxSortedRuns ends).2 ↔ Crowded stringCompare files maxSortedRuns f := by
  rw [sweepEnds_eq, mem_marks_iff hends.sorted' hname hproper fun x file _ => activeAt_stringCompare]
  have hlimit (n : ℕ) : (castUInt64 maxSortedRuns).toNat < n ↔ maxSortedRuns < (n : ℤ) := by
    have hcast := toNat_castUInt64 hruns hint
    omega
  simp only [hlimit]
  exact Iff.rfl

/-- The working set is empty at the end where every file has its smallest key below its largest. -/
theorem sweepEnds_fst_eq_nil_iff
    (hname : ∀ a ∈ files, ∀ b ∈ files, a.fileNumber = b.fileNumber → a = b)
    {ends : List (BlobRange × Bool)} (hends : SortedEnds files ends) :
    (sweepEnds maxSortedRuns ends).1 = [] ↔
      ∀ file ∈ files, stringLess file.smallestKey.val file.largestKey.val := by
  rw [sweepEnds_eq, foldl_sweep_fst]
  exact openAfter_eq_nil_iff hends.sorted' hname

theorem Walk.ranges_distinct (st : BlobStorage) (candidates : List UInt64) :
    ∀ a ∈ ranges st candidates, ∀ b ∈ ranges st candidates, a.fileNumber = b.fileNumber → a = b := by
  intro a ha b hb hnumber
  obtain ⟨n, -, ha⟩ := List.mem_filterMap.mp ha
  obtain ⟨m, -, hb⟩ := List.mem_filterMap.mp hb
  obtain ⟨file, hfile, rfl⟩ := Option.map_eq_some_iff.mp ha
  obtain ⟨file', hfile', rfl⟩ := Option.map_eq_some_iff.mp hb
  obtain rfl : n = m := hnumber
  rw [Option.some.inj (hfile.symm.trans hfile')]

/-- The marks a compaction event makes among its candidates. -/
theorem Walk.mem_mergeMarks_iff {st : BlobStorage} {candidates : List UInt64}
    (hruns : 0 ≤ maxSortedRuns) (hint : maxSortedRuns < 2 ^ 31)
    (hproper : ∀ file ∈ ranges st candidates, stringLess file.smallestKey.val file.largestKey.val)
    {f : UInt64} : f ∈ mergeMarks (ranges st candidates) maxSortedRuns ↔
      Crowded stringCompare (ranges st candidates) maxSortedRuns f :=
  mem_sweepEnds_iff (ranges_distinct st candidates) hruns hint hproper (sortedEnds_mergeSort _)

/-- A call marks exactly the crowded files if and only if every file has its smallest key below its
largest one as strings and the order of the strings crowds the same files as the comparator. -/
theorem marksCrowded_iff (hname : ∀ a ∈ files, ∀ b ∈ files, a.fileNumber = b.fileNumber → a = b)
    (hruns : 0 ≤ maxSortedRuns) (hint : maxSortedRuns < 2 ^ 31) :
    MarksCrowded cmp files maxSortedRuns ↔
      (∀ file ∈ files, stringLess file.smallestKey.val file.largestKey.val) ∧
        ∀ f, Crowded stringCompare files maxSortedRuns f ↔ Crowded cmp files maxSortedRuns f := by
  constructor
  · intro hmarks
    have hends := sortedEnds_mergeSort files
    obtain ⟨hcrowded, hempty⟩ := hmarks _ hends
    have hproper := (sweepEnds_fst_eq_nil_iff hname hends).mp hempty
    exact ⟨hproper, fun f => (mem_sweepEnds_iff hname hruns hint hproper hends).symm.trans (hcrowded f)⟩
  · rintro ⟨hproper, hsame⟩ ends hends
    refine ⟨fun f => ?_, (sweepEnds_fst_eq_nil_iff hname hends).mpr hproper⟩
    exact (mem_sweepEnds_iff hname hruns hint hproper hends).trans (hsame f)

def overlappingFiles : List BlobRange :=
  [⟨7, .ofByte 97, .ofByte 99⟩, ⟨8, .ofByte 98, .ofByte 100⟩]

theorem marksCrowded_overlapping : MarksCrowded stringCompare overlappingFiles 1 := by
  refine (marksCrowded_iff ?_ (by omega) (by omega)).mpr ⟨by decide, fun f => Iff.rfl⟩
  decide

def singleKeyFiles : List BlobRange :=
  [⟨7, .ofByte 97, .ofByte 97⟩, ⟨8, .ofByte 98, .ofByte 99⟩]

/-- A file from `b` to `a` of a comparator that turns the order round. -/
def turnedFile : BlobRange := ⟨7, .ofByte 98, .ofByte 97⟩

/-- Both files are marked although only one is active at `b`, and the turned file is never taken out
of the working set. -/
theorem not_marksCrowded_singleKey :
    ¬MarksCrowded stringCompare singleKeyFiles 1 ∧
      ¬MarksCrowded (fun a b => stringCompare b a) [turnedFile] 1 := by
  constructor
  · intro hmarks
    have hends : SortedEnds singleKeyFiles
        [(⟨7, .ofByte 97, .ofByte 97⟩, false),
          (⟨7, .ofByte 97, .ofByte 97⟩, true),
          (⟨8, .ofByte 98, .ofByte 99⟩, true),
          (⟨8, .ofByte 98, .ofByte 99⟩, false)] := ⟨by decide, by decide⟩
    obtain ⟨file, hfile, hmany, -⟩ := ((hmarks _ hends).1 7).mp (by decide)
    revert file
    decide
  · intro hmarks
    have hends : SortedEnds [turnedFile] [(turnedFile, false), (turnedFile, true)] :=
      ⟨by decide, by decide⟩
    have hempty := (hmarks _ hends).2
    revert hempty
    decide

end AegonKV
