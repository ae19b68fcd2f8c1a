import AegonKV.ManifestHistory
import AegonKV.SortedWalk
import AegonKV.StorageInvariant

/-!
# Deleting the blob files in ranges

`GetBlobFilesInRanges` walks the multimap of smallest keys from the lower bound of the start of a
range to the upper bound of its limit, and `DeleteBlobFilesInRanges` makes one edit of what it
finds in all ranges. The walk runs off the map where the limit lies before the start with a
smallest key in between, and the edit is refused where a file is found twice.
-/

namespace AegonKV
open LittleEndian

/-- A start and a limit; without one the range is open on that side. -/
abbrev RangePtr := Option Bytes × Option Bytes

namespace BlobStorage

section
variable (st : BlobStorage) (includeEnd : Bool) (range : RangePtr)

def beforeStart (p : Key × UInt64) : Bool :=
  range.1.any fun b => st.cfOptions.comparator p.1.val b == .lt

def upToLimit (p : Key × UInt64) : Bool :=
  range.2.all fun e => st.cfOptions.comparator e p.1.val != .lt

def endsInside (file : BlobFileMeta) : Bool :=
  range.2.all fun e =>
    if includeEnd then st.cfOptions.comparator file.largestKey.val e != .gt
    else st.cfOptions.comparator file.largestKey.val e == .lt

def selects (p : Key × UInt64) : Bool :=
  (st.files.lookup p.2).any fun file =>
    !file.isObsolete && !(file.largestKey.val.isEmpty && range.2.isSome) &&
      st.endsInside includeEnd range file

/-- One round of the outer loop of `GetBlobFilesInRanges`; `none` where the iterator passes
`end()`. -/
def scanRange : Option (List UInt64) :=
  let lower := (st.blobRanges.takeWhile (st.beforeStart range)).length
  let upper := (st.blobRanges.takeWhile (st.upToLimit range)).length
  (SortedWalk.walkTo upper lower (st.blobRanges.drop lower)).map fun visited =>
    (visited.filter (st.selects includeEnd range)).map (·.2)

/-- `GetBlobFilesInRanges`. -/
def scanRanges (ranges : List RangePtr) : Option (List UInt64) :=
  (ranges.mapM (st.scanRange includeEnd)).map List.flatten

/-! ## What is to be deleted -/

/-- The keys of a file lie in the range: its smallest key between start and limit, its largest key
before the limit (or at it). -/
def inside (file : BlobFileMeta) : Bool :=
  (range.1.all fun b => st.cfOptions.comparator file.smallestKey.val b != .lt) &&
    (range.2.all fun e => st.cfOptions.comparator e file.smallestKey.val != .lt) &&
    st.endsInside includeEnd range file

/-- The range is inverted, and some file starts between its limit and its start. -/
def RunsPast : Prop :=
  ∃ b ∈ range.1, ∃ e ∈ range.2, ∃ file ∈ st.files.entries,
    st.cfOptions.comparator file.2.smallestKey.val b = .lt ∧
      st.cfOptions.comparator e file.2.smallestKey.val = .lt

/-- No live file lies in both ranges. -/
def Apart (range range' : RangePtr) : Prop :=
  ∀ file ∈ st.files.entries, file.2.isObsolete = false →
    ¬(st.inside includeEnd range file.2 = true ∧ st.inside includeEnd range' file.2 = true)

/-- The multimap has every file once, in the order of the smallest keys. -/
structure Indexed : Prop where
  ranges : st.blobRanges.Perm (st.files.entries.map fun e => (e.2.smallestKey, e.1))
  sorted : st.blobRanges.Pairwise fun a b => st.cfOptions.comparator a.1.val b.1.val ≠ .gt

end

variable {st : BlobStorage} {includeEnd : Bool} {range : RangePtr}

/-- A key of the range is one from its start on and before its limit (or at it). -/
def inRange (cmp : Bytes → Bytes → Ordering) (includeEnd : Bool) (range : RangePtr) (k : Bytes) :
    Bool :=
  (range.1.all fun b => cmp k b != .lt) &&
    range.2.all fun e => if includeEnd then cmp k e != .gt else cmp k e == .lt

theorem cmp_trans_le {cmp : Bytes → Bytes → Ordering} [Std.TransCmp cmp] {a b c : Bytes}
    (hab : cmp a b ≠ .gt) (hbc : cmp b c ≠ .gt) : cmp a c ≠ .gt :=
  Ordering.isLE_iff_ne_gt.mp (Std.TransCmp.isLE_trans (Ordering.isLE_iff_ne_gt.mpr hab)
    (Ordering.isLE_iff_ne_gt.mpr hbc))

/-- A file with its smallest key not above its largest lies in a range exactly when every key from
the one to the other does. -/
theorem inside_iff_keys [Std.TransCmp st.cfOptions.comparator] {file : BlobFileMeta}
    (hfile : st.cfOptions.comparator file.smallestKey.val file.largestKey.val ≠ .gt) :
    st.inside includeEnd range file = true ↔
      ∀ k, st.cfOptions.comparator file.smallestKey.val k ≠ .gt →
        st.cfOptions.comparator k file.largestKey.val ≠ .gt →
        inRange st.cfOptions.comparator includeEnd range k = true := by
  have hself (k : Bytes) : st.cfOptions.comparator k k ≠ .gt := by
    have heq : st.cfOptions.comparator k k = .eq := Std.ReflCmp.compare_self
    rw [heq]
    decide
  simp only [inside, endsInside, inRange, Bool.and_eq_true, Option.all_eq_true, bne_iff_ne, ne_eq]
  constructor
  · rintro ⟨⟨hstart, -⟩, hlimit⟩ k hsk hkl
    refine ⟨fun b hb hlt => hstart b hb ?_, fun e he => ?_⟩
    · exact Std.TransCmp.lt_of_isLE_of_lt (Ordering.isLE_iff_ne_gt.mpr hsk) hlt
    · have hend := hlimit e he
      cases includeEnd with
      | true =>
          simp only [if_true, bne_iff_ne] at hend ⊢
          exact cmp_trans_le hkl hend
      | false =>
          simp only [Bool.false_eq_true, if_false, beq_iff_eq] at hend ⊢
          exact Std.TransCmp.lt_of_isLE_of_lt (Ordering.isLE_iff_ne_gt.mpr hkl) hend
  · intro hkeys
    have hsmallest := hkeys file.smallestKey.val (hself _) hfile
    have hlargest := hkeys file.largestKey.val hfile (hself _)
    refine ⟨⟨hsmallest.1, fun e he hlt => ?_⟩, hlargest.2⟩
    have hgt : st.cfOptions.comparator file.smallestKey.val e = .gt :=
      Std.OrientedCmp.gt_of_lt hlt
    have hend := hsmallest.2 e he
    rw [hgt] at hend
    cases includeEnd with
    | true => exact Bool.false_ne_true hend
    | false => exact Bool.false_ne_true hend

theorem Indexed.mem_blobRanges (h : st.Indexed) {p : Key × UInt64} :
    p ∈ st.blobRanges ↔ ∃ file, st.files.lookup p.2 = some file ∧ file.smallestKey = p.1 := by
  rw [h.ranges.mem_iff, List.mem_map]
  constructor
  · rintro ⟨e, he, rfl⟩
    exact ⟨e.2, AList.mem_lookup_iff.mpr he, rfl⟩
  · rintro ⟨file, hfile, hkey⟩
    exact ⟨⟨p.2, file⟩, AList.mem_lookup_iff.mp hfile, by rw [hkey]⟩

theorem Indexed.numbers_nodup (h : st.Indexed) : (st.blobRanges.map (·.2)).Nodup := by
  have hkeys : (st.files.entries.map fun e => e.1).Nodup := st.files.keys_nodup
  have hperm := h.ranges.map (·.2)
  rw [List.map_map] at hperm
  exact hperm.nodup_iff.mpr hkeys

theorem Indexed.leads_beforeStart [Std.TransCmp st.cfOptions.comparator] (h : st.Indexed) :
    SortedWalk.Leads (st.beforeStart range) st.blobRanges := by
  refine SortedWalk.leads_of_pairwise h.sorted fun a b hab hb => ?_
  simp only [beforeStart, Option.any_eq_true, beq_iff_eq] at hb ⊢
  obtain ⟨start, hstart, hlt⟩ := hb
  exact ⟨start, hstart, Std.TransCmp.lt_of_isLE_of_lt (Ordering.isLE_iff_ne_gt.mpr hab) hlt⟩

theorem Indexed.leads_upToLimit [Std.TransCmp st.cfOptions.comparator] (h : st.Indexed) :
    SortedWalk.Leads (st.upToLimit range) st.blobRanges := by
  refine SortedWalk.leads_of_pairwise h.sorted fun a b hab hb => ?_
  simp only [upToLimit, Option.all_eq_true, bne_iff_ne, ne_eq] at hb ⊢
  intro limit hlimit hlt
  exact hb limit hlimit
    (Std.TransCmp.lt_of_lt_of_isLE hlt (Ordering.isLE_iff_ne_gt.mpr hab))

/-! ## Every reachable storage is indexed -/

def Ordered (st : BlobStorage) : Prop :=
  st.blobRanges.Pairwise fun a b => st.cfOptions.comparator a.1.val b.1.val ≠ .gt

theorem Ordered.congr {st' : BlobStorage} (h : st.Ordered) (hranges : st'.blobRanges = st.blobRanges)
    (hoptions : st'.cfOptions = st.cfOptions) : st'.Ordered := by
  rw [Ordered, hranges, hoptions]
  exact h

theorem Ordered.addBlobFile [Std.TransCmp st.cfOptions.comparator] (h : st.Ordered) (n : UInt64)
    (file : BlobFileMeta) : (st.addBlobFile n file).Ordered := by
  let before := fun p : Key × UInt64 =>
    st.cfOptions.comparator p.1.val file.smallestKey.val != .gt
  have hle (p : Key × UInt64) (hp : before p = true) :
      st.cfOptions.comparator p.1.val file.smallestKey.val ≠ .gt := by
    simpa [before] using hp
  have hleads : SortedWalk.Leads before st.blobRanges := by
    refine SortedWalk.leads_of_pairwise h fun a b hab hb => ?_
    simpa [before] using cmp_trans_le hab (hle b hb)
  have hbehind : ∀ p ∈ st.blobRanges.dropWhile before,
      st.cfOptions.comparator file.smallestKey.val p.1.val ≠ .gt := by
    intro p hp hgt
    rw [hleads.dropWhile_eq_filter] at hp
    have hnot := (List.mem_filter.mp hp).2
    have hlt := Std.OrientedCmp.lt_of_gt hgt
    simp [before, hlt] at hnot
  change (st.blobRanges.takeWhile before ++ (file.smallestKey, n) ::
    st.blobRanges.dropWhile before).Pairwise _
  refine List.pairwise_append.mpr ⟨h.sublist (List.takeWhile_sublist _), List.pairwise_cons.mpr
    ⟨hbehind, h.sublist (List.dropWhile_sublist _)⟩, ?_⟩
  intro a ha b hb
  rw [hleads.takeWhile_eq_filter] at ha
  have hfront := hle a (List.mem_filter.mp ha).2
  change st.cfOptions.comparator a.1.val b.1.val ≠ .gt
  rcases List.mem_cons.mp hb with rfl | hb
  · exact hfront
  · exact cmp_trans_le hfront (hbehind b hb)

theorem Ordered.foldl_addBlobFile (files : List (UInt64 × BlobFileMeta))
    [Std.TransCmp st.cfOptions.comparator] (h : st.Ordered) :
    (files.foldl (fun st file => st.addBlobFile file.1 file.2) st).Ordered := by
  induction files generalizing st with
  | nil => exact h
  | cons file files ih =>
      have htrans : Std.TransCmp (st.addBlobFile file.1 file.2).cfOptions.comparator :=
        inferInstanceAs (Std.TransCmp st.cfOptions.comparator)
      exact ih (h.addBlobFile file.1 file.2)

theorem applyDeleted_frame (files : List (UInt64 × ℕ)) (st : BlobStorage) :
    (CFEditCollector.applyDeleted files st).2.blobRanges = st.blobRanges ∧
      (CFEditCollector.applyDeleted files st).2.cfOptions = st.cfOptions := by
  induction files generalizing st with
  | nil => exact ⟨rfl, rfl⟩
  | cons file files ih =>
      rw [CFEditCollector.applyDeleted, markFileObsolete]
      cases st.files.lookup file.1 with
      | none => exact ⟨rfl, rfl⟩
      | some old => exact ih _

theorem Ordered.apply [Std.TransCmp st.cfOptions.comparator] (h : st.Ordered)
    (c : CFEditCollector BlobFileMeta) : (c.apply st).2.Ordered := by
  have hadded := h.foldl_addBlobFile c.newFiles
  obtain ⟨hranges, hoptions⟩ := applyDeleted_frame c.goneFiles
    (c.newFiles.foldl (fun st file => st.addBlobFile file.1 file.2) st)
  rw [CFEditCollector.apply]
  split
  rename_i status mid hmid
  rw [hmid] at hranges hoptions
  split_ifs
  · exact hadded.congr hranges hoptions
  · exact hadded.congr hranges hoptions

theorem Ordered.removeFile (h : st.Ordered) (n : UInt64) : (st.removeFile n).Ordered := by
  rw [BlobStorage.removeFile]
  split
  · exact h
  · exact h.sublist List.eraseP_sublist

theorem Ordered.getObsoleteFiles (h : st.Ordered) (oldestSequence : ℕ) :
    (st.getObsoleteFiles oldestSequence).2.Ordered := by
  have hfold (removed : List UInt64) (st : BlobStorage) (hst : st.Ordered) :
      (removed.foldl BlobStorage.removeFile st).Ordered := by
    induction removed generalizing st with
    | nil => exact hst
    | cons n removed ih => exact ih _ (hst.removeFile n)
  exact hfold _ st h

theorem foldl_transitFile_index (event : FileEvent) (ns : List UInt64) (w : Walk) :
    (ns.foldl (Walk.transitFile event) w).storage.blobRanges = w.storage.blobRanges ∧
      (ns.foldl (Walk.transitFile event) w).storage.cfOptions = w.storage.cfOptions := by
  induction ns generalizing w with
  | nil => exact ⟨rfl, rfl⟩
  | cons n ns ih =>
      have hstep : (Walk.transitFile event w n).storage.blobRanges = w.storage.blobRanges ∧
          (Walk.transitFile event w n).storage.cfOptions = w.storage.cfOptions := by
        rw [Walk.transitFile]
        split
        · exact ⟨rfl, rfl⟩
        · exact ⟨rfl, rfl⟩
      exact ⟨(ih _).1.trans hstep.1, (ih _).2.trans hstep.2⟩

theorem Ordered.step [Std.TransCmp st.cfOptions.comparator] (h : st.Ordered) {cf : UInt32} {op : Op}
    {st' : BlobStorage} (hstep : st.step cf op = some st') : st'.Ordered := by
  cases op with
  | apply edits =>
      obtain rfl := Option.some.inj hstep
      rw [BlobStorage.collectAndApply]
      split
      · exact h
      · split
        · exact h
        · exact h.apply _
  | getObsoleteFiles oldestSequence =>
      obtain rfl := Option.some.inj hstep
      exact h.getObsoleteFiles oldestSequence
  | initializeAllFiles =>
      rw [BlobStorage.step] at hstep
      split_ifs at hstep
      obtain rfl := Option.some.inj hstep
      obtain ⟨hranges, hoptions⟩ := foldl_transitFile_index .kDbRestart st.files.keys { storage := st }
      exact h.congr hranges hoptions

/-- The multimap is an index of the files in every state that a run reaches. -/
theorem indexed_of_run {options : TitanCFOptions} [Std.TransCmp options.comparator] {cf : UInt32}
    {ops : List Op} (hops : ∀ op ∈ ops, op.Adds options)
    (hrun : TransitionSystem.run (step cf) (empty options) ops = some st) : st.Indexed := by
  have hcmp : ∀ k, options.comparator k k = .eq := fun k => Std.ReflCmp.compare_self
  have hmeets : TransitionSystem.Meets (step cf) (fun _ op => op.Adds options) (empty options) ops :=
    TransitionSystem.meets_of_mem fun _ op hop => hops op hop
  have hstep : ∀ s op s', (Sound options s ∧ s.Ordered) → op.Adds options →
      s.step cf op = some s' → Sound options s' ∧ s'.Ordered := by
    intro s op s' hs hop hstep
    have htrans : Std.TransCmp s.cfOptions.comparator := by
      rw [hs.1.options]
      infer_instance
    exact ⟨hs.1.step hcmp hop hstep, hs.2.step hstep⟩
  have hinv : Sound options st ∧ st.Ordered :=
    TransitionSystem.run_invariant hstep ⟨sound_empty options, List.Pairwise.nil⟩ hmeets hrun
  exact ⟨hinv.1.represents.ranges, hinv.2⟩

/-! ## What the walk finds -/

theorem Indexed.runsPast_iff (h : st.Indexed) :
    (st.blobRanges.any fun p => st.beforeStart range p && !st.upToLimit range p) = true ↔
      st.RunsPast range := by
  simp only [List.any_eq_true, Bool.and_eq_true, beforeStart, upToLimit, Option.any_eq_true,
    beq_iff_eq, Bool.not_eq_true', Option.all_eq_false, bne_eq_false_iff_eq]
  constructor
  · rintro ⟨p, hp, ⟨b, hb, hlt⟩, e, he, hlt'⟩
    obtain ⟨file, hfile, hkey⟩ := h.mem_blobRanges.mp hp
    rw [← hkey] at hlt hlt'
    exact ⟨b, hb, e, he, ⟨p.2, file⟩, AList.mem_lookup_iff.mp hfile, hlt, hlt'⟩
  · rintro ⟨b, hb, e, he, file, hfile, hlt, hlt'⟩
    refine ⟨(file.2.smallestKey, file.1), ?_, ⟨b, hb, hlt⟩, e, he, hlt'⟩
    exact h.mem_blobRanges.mpr ⟨file.2, AList.mem_lookup_iff.mpr hfile, rfl⟩

/-- The walk over one range. -/
theorem Indexed.scanRange_eq [Std.TransCmp st.cfOptions.comparator] (h : st.Indexed) :
    st.scanRange includeEnd range =
      if st.blobRanges.any fun p => st.beforeStart range p && !st.upToLimit range p then none
      else some (((st.blobRanges.filter fun p => !st.beforeStart range p && st.upToLimit range p).filter
        (st.selects includeEnd range)).map (·.2)) := by
  rw [scanRange, SortedWalk.walkTo_between h.leads_beforeStart h.leads_upToLimit]
  split_ifs
  · rfl
  · rfl

theorem Indexed.scanRange_eq_none [Std.TransCmp st.cfOptions.comparator] (h : st.Indexed) :
    st.scanRange includeEnd range = none ↔ st.RunsPast range := by
  rw [h.scanRange_eq, ← h.runsPast_iff]
  split_ifs with hpast
  · exact iff_of_true rfl hpast
  · exact iff_of_false (fun hnone => by cases hnone) hpast

/-- A walk that ends has found the live files inside the range, each once. -/
theorem Indexed.mem_scanRange [Std.TransCmp st.cfOptions.comparator] (h : st.Indexed)
    (hkeys : ∀ e ∈ st.files.entries, e.2.largestKey.val ≠ []) {found : List UInt64}
    (hscan : st.scanRange includeEnd range = some found) {n : UInt64} :
    n ∈ found ↔ ∃ file, st.files.lookup n = some file ∧ file.isObsolete = false ∧
      st.inside includeEnd range file = true := by
  rw [h.scanRange_eq] at hscan
  split_ifs at hscan
  rw [← Option.some.inj hscan, List.mem_map]
  have hstart (p : Key × UInt64) (file : BlobFileMeta) (hkey : file.smallestKey = p.1) :
      (!st.beforeStart range p && st.upToLimit range p) =
        ((range.1.all fun b => st.cfOptions.comparator file.smallestKey.val b != .lt) &&
          range.2.all fun e => st.cfOptions.comparator e file.smallestKey.val != .lt) := by
    rw [beforeStart, upToLimit, hkey]
    cases range.1 with
    | none => rfl
    | some b => rfl
  constructor
  · rintro ⟨p, hp, rfl⟩
    obtain ⟨hp, hselects⟩ := List.mem_filter.mp hp
    obtain ⟨hp, hbounds⟩ := List.mem_filter.mp hp
    obtain ⟨file, hfile, hkey⟩ := h.mem_blobRanges.mp hp
    rw [hstart p file hkey] at hbounds
    simp only [selects, hfile, Option.any_some, Bool.and_eq_true, Bool.not_eq_true'] at hselects
    refine ⟨file, hfile, hselects.1.1, ?_⟩
    rw [inside, hbounds, hselects.2]
    rfl
  · rintro ⟨file, hfile, hlive, hinside⟩
    refine ⟨(file.smallestKey, n), List.mem_filter.mpr ⟨List.mem_filter.mpr ⟨?_, ?_⟩, ?_⟩, rfl⟩
    · exact h.mem_blobRanges.mpr ⟨file, hfile, rfl⟩
    · rw [hstart _ file rfl]
      exact (Bool.and_eq_true_iff.mp hinside).1
    · have hlargest : file.largestKey.val.isEmpty = false :=
        List.isEmpty_eq_false_iff.mpr (hkeys ⟨n, file⟩ (AList.mem_lookup_iff.mp hfile))
      simp only [selects, hfile, Option.any_some, hlive, hlargest, Bool.false_and, Bool.not_false,
        Bool.true_and]
      exact (Bool.and_eq_true_iff.mp hinside).2

theorem Indexed.nodup_scanRange [Std.TransCmp st.cfOptions.comparator] (h : st.Indexed)
    {found : List UInt64} (hscan : st.scanRange includeEnd range = some found) : found.Nodup := by
  rw [h.scanRange_eq] at hscan
  split_ifs at hscan
  rw [← Option.some.inj hscan]
  exact h.numbers_nodup.sublist ((List.filter_sublist.trans List.filter_sublist).map _)

/-- Where the walk ends, it finds the files that start inside the bounds, in the order of the
index. -/
theorem Indexed.scanRange_eq_filesInRange [Std.TransCmp st.cfOptions.comparator] (h : st.Indexed)
    {range : Option Key × Option Key} (hends : ¬st.RunsPast (range.1.map (·.val), range.2.map (·.val))) :
    st.scanRange includeEnd (range.1.map (·.val), range.2.map (·.val)) =
      some (st.filesInRange includeEnd range) := by
  rw [h.scanRange_eq, if_neg (mt h.runsPast_iff.mp hends)]
  have hstart : (fun p : Key × UInt64 => range.1.any fun b =>
      st.cfOptions.comparator p.1.val b.val == .lt) =
        st.beforeStart (range.1.map (·.val), range.2.map (·.val)) := by
    funext p
    rw [beforeStart, Option.any_map]
  have hlimit : (fun p : Key × UInt64 => range.2.all fun e =>
      st.cfOptions.comparator p.1.val e.val != .gt) =
        st.upToLimit (range.1.map (·.val), range.2.map (·.val)) := by
    funext p
    rw [upToLimit, Option.all_map]
    congr 1
    funext e
    rw [Bool.eq_iff_iff, bne_iff_ne, ne_eq, Std.OrientedCmp.gt_iff_lt]
    exact bne_iff_ne.symm
  have hselects : (fun p : Key × UInt64 => (st.files.lookup p.2).any fun file =>
      !file.isObsolete && !(file.largestKey.val.isEmpty && range.2.isSome) && range.2.all fun e =>
        if includeEnd then st.cfOptions.comparator file.largestKey.val e.val != .gt
        else st.cfOptions.comparator file.largestKey.val e.val == .lt) =
          st.selects includeEnd (range.1.map (·.val), range.2.map (·.val)) := by
    funext p
    simp only [selects, endsInside, Option.isSome_map, Option.all_map]
  rw [filesInRange]
  simp only [hstart, hlimit, hselects]
  have hfront : SortedWalk.Leads (st.upToLimit (range.1.map (·.val), range.2.map (·.val)))
      (st.blobRanges.dropWhile (st.beforeStart (range.1.map (·.val), range.2.map (·.val)))) :=
    h.leads_upToLimit.sublist (List.dropWhile_sublist _)
  rw [hfront.takeWhile_eq_filter, h.leads_beforeStart.dropWhile_eq_filter]
  congr 3
  rw [List.filter_filter]
  congr 1
  funext p
  exact Bool.and_comm _ _

/-- What the walk over a range finds, where it ends. -/
def foundIn (st : BlobStorage) (includeEnd : Bool) (range : RangePtr) : List UInt64 :=
  (st.scanRange includeEnd range).getD []

theorem scanRange_eq_some {range : RangePtr} (h : ¬st.scanRange includeEnd range = none) :
    st.scanRange includeEnd range = some (st.foundIn includeEnd range) := by
  cases hscan : st.scanRange includeEnd range with
  | none => exact absurd hscan h
  | some found => rw [foundIn, hscan, Option.getD_some]

/-- The walks over all ranges end where each of them does. -/
theorem scanRanges_eq (ranges : List RangePtr) :
    st.scanRanges includeEnd ranges =
      if ranges.any fun range => (st.scanRange includeEnd range).isNone then none
      else some (ranges.flatMap (st.foundIn includeEnd)) := by
  rw [scanRanges]
  induction ranges with
  | nil => rfl
  | cons range ranges ih =>
      rw [List.mapM_cons, List.any_cons]
      cases hscan : st.scanRange includeEnd range with
      | none => rfl
      | some found =>
          have hfound : st.foundIn includeEnd range = found := by rw [foundIn, hscan, Option.getD_some]
          rw [List.flatMap_cons, hfound, Option.isNone_some, Bool.false_or]
          cases hrest : ranges.mapM (st.scanRange includeEnd) with
          | none =>
              rw [hrest, Option.map_none] at ih
              split_ifs at ih ⊢ with hany
              · rfl
          | some founds =>
              rw [hrest, Option.map_some] at ih
              split_ifs at ih ⊢ with hany
              change some (found ++ founds.flatten) = _
              rw [Option.some.inj ih]

/-- The numbers found in all ranges are distinct where no live file lies in two of them. -/
theorem Indexed.nodup_flatMap_iff [Std.TransCmp st.cfOptions.comparator] (h : st.Indexed)
    (hkeys : ∀ e ∈ st.files.entries, e.2.largestKey.val ≠ []) {ranges : List RangePtr}
    (hends : ∀ range ∈ ranges, ¬st.RunsPast range) :
    (ranges.flatMap (st.foundIn includeEnd)).Nodup ↔ ranges.Pairwise (st.Apart includeEnd) := by
  have hscan (range : RangePtr) (hr : range ∈ ranges) :
      st.scanRange includeEnd range = some (st.foundIn includeEnd range) :=
    scanRange_eq_some fun hnone => hends range hr (h.scanRange_eq_none.mp hnone)
  rw [List.nodup_flatMap]
  have heach : ∀ range ∈ ranges, (st.foundIn includeEnd range).Nodup := fun range hr =>
    h.nodup_scanRange (hscan range hr)
  rw [and_iff_right heach]
  refine List.Pairwise.iff_of_mem fun {range range'} hr hr' => ?_
  constructor
  · intro hdisjoint file hfile hlive hboth
    have hlookup : st.files.lookup file.1 = some file.2 := AList.mem_lookup_iff.mpr hfile
    apply @hdisjoint file.1
    · exact (h.mem_scanRange hkeys (hscan range hr)).mpr ⟨file.2, hlookup, hlive, hboth.1⟩
    · exact (h.mem_scanRange hkeys (hscan range' hr')).mpr ⟨file.2, hlookup, hlive, hboth.2⟩
  · intro hapart n hn hn'
    obtain ⟨file, hfile, hlive, hinside⟩ := (h.mem_scanRange hkeys (hscan range hr)).mp hn
    obtain ⟨file', hfile', -, hinside'⟩ := (h.mem_scanRange hkeys (hscan range' hr')).mp hn'
    obtain rfl := Option.some.inj (hfile.symm.trans hfile')
    exact hapart ⟨n, file⟩ (AList.mem_lookup_iff.mp hfile) hlive ⟨hinside, hinside'⟩

end BlobStorage

/-! ## The call -/

namespace BlobFileSet

/-- `DeleteBlobFilesInRanges` with the walks of `GetBlobFilesInRanges`; `none` where one does not
end. -/
def deleteByRanges (s : BlobFileSet) (cf : UInt32) (ranges : List RangePtr) (includeEnd : Bool)
    (obsoleteSequence : ℕ) (io : ManifestIO) : Option (Status × BlobFileSet) :=
  match s.columnFamilies.lookup cf with
  | none => some (.notFound "invalid column family", s)
  | some st => (st.scanRanges includeEnd ranges).map fun files =>
    s.logAndApply ⟨cf, none, [], files.map fun f => (f, obsoleteSequence)⟩ io

/-- These files of the column family are obsolete now, and all others are as they were. -/
structure MadeObsolete (cf : UInt32) (st : BlobStorage) (gone : BlobFileMeta → Bool)
    (s s' : BlobFileSet) : Prop where
  column : ∃ st', s'.columnFamilies.lookup cf = some st' ∧ ∀ n, st'.files.lookup n =
    (st.files.lookup n).map fun file => if gone file then { file with state := .kObsolete } else file
  others : ∀ g ≠ cf, s'.columnFamilies.lookup g = s.columnFamilies.lookup g

/-- The call returns, and where the manifest is written it returns OK and exactly the files inside
one of the ranges are obsolete after it. -/
def DeletesInside (s : BlobFileSet) (cf : UInt32) (st : BlobStorage) (ranges : List RangePtr)
    (includeEnd : Bool) (obsoleteSequence : ℕ) : Prop :=
  ∀ io, ∃ status s', s.deleteByRanges cf ranges includeEnd obsoleteSequence io = some (status, s') ∧
    (io.addRecord.isOk → io.sync.isOk → status.isOk ∧
      MadeObsolete cf st (fun file => ranges.any fun range => st.inside includeEnd range file) s s')

variable {s : BlobFileSet} {cf : UInt32} {st : BlobStorage} {ranges : List RangePtr}
  {includeEnd : Bool} {seq : ℕ}

def rangesEdit (cf : UInt32) (st : BlobStorage) (ranges : List RangePtr) (includeEnd : Bool)
    (obsoleteSequence : ℕ) : VersionEdit BlobFileMeta :=
  ⟨cf, none, [], (ranges.flatMap (st.foundIn includeEnd)).map fun f => (f, obsoleteSequence)⟩

theorem deletedFiles_rangesEdit :
    (rangesEdit cf st ranges includeEnd seq).deletedFiles.map (·.1) =
      ranges.flatMap (st.foundIn includeEnd) := by
  rw [rangesEdit, List.map_map]
  exact List.map_id _

/-- A call that no range makes run past the end logs its edit. -/
theorem deleteByRanges_eq (hcf : s.columnFamilies.lookup cf = some st) {io : ManifestIO} :
    s.deleteByRanges cf ranges includeEnd seq io =
      if ranges.any fun range => (st.scanRange includeEnd range).isNone then none
      else some (s.logAndApply (rangesEdit cf st ranges includeEnd seq) io) := by
  rw [deleteByRanges]
  simp only [hcf, BlobStorage.scanRanges_eq]
  split_ifs
  · rfl
  · rfl

/-- Where the walk over each range ends, the call is the one on the filtered index. -/
theorem deleteByRanges_eq_filtered [Std.TransCmp st.cfOptions.comparator]
    (hcf : s.columnFamilies.lookup cf = some st) (hst : st.Indexed)
    {ranges : List (Option Key × Option Key)} {io : ManifestIO}
    (hends : ∀ range ∈ ranges, ¬st.RunsPast (range.1.map (·.val), range.2.map (·.val))) :
    s.deleteByRanges cf (ranges.map fun range => (range.1.map (·.val), range.2.map (·.val)))
        includeEnd seq io =
      some (s.deleteBlobFilesInRanges cf ranges includeEnd seq io) := by
  have hscan (range : Option Key × Option Key) (hr : range ∈ ranges) :
      st.scanRange includeEnd (range.1.map (·.val), range.2.map (·.val)) =
        some (st.filesInRange includeEnd range) := hst.scanRange_eq_filesInRange (hends range hr)
  have hany : ((ranges.map fun range => (range.1.map (·.val), range.2.map (·.val))).any
      fun range => (st.scanRange includeEnd range).isNone) = false := by
    rw [List.any_map, List.any_eq_false]
    intro range hr
    rw [Function.comp_apply, hscan range hr]
    exact Bool.false_ne_true
  have hfound : (ranges.map fun range => (range.1.map (·.val), range.2.map (·.val))).flatMap
      (st.foundIn includeEnd) = st.getBlobFilesInRanges ranges includeEnd := by
    rw [List.flatMap_map, BlobStorage.getBlobFilesInRanges]
    refine List.flatMap_congr fun range hr => ?_
    rw [BlobStorage.foundIn, hscan range hr, Option.getD_some]
  rw [deleteByRanges_eq hcf, if_neg (Bool.eq_false_iff.mp hany), deleteBlobFilesInRanges, rangesEdit,
    hfound]
  simp only [hcf]

theorem ends_iff [Std.TransCmp st.cfOptions.comparator] (hst : st.Indexed) :
    (ranges.any fun range => (st.scanRange includeEnd range).isNone) = false ↔
      ∀ range ∈ ranges, ¬st.RunsPast range := by
  rw [List.any_eq_false]
  refine forall₂_congr fun range _ => not_congr ?_
  rw [Option.isNone_iff_eq_none, hst.scanRange_eq_none]

/-- What is found in all ranges are the live files inside one of them. -/
theorem mem_found [Std.TransCmp st.cfOptions.comparator] (hst : st.Indexed)
    (hkeys : ∀ e ∈ st.files.entries, e.2.largestKey.val ≠ [])
    (hends : ∀ range ∈ ranges, ¬st.RunsPast range) {n : UInt64} :
    n ∈ ranges.flatMap (st.foundIn includeEnd) ↔ ∃ file, st.files.lookup n = some file ∧
      file.isObsolete = false ∧ (ranges.any fun range => st.inside includeEnd range file) = true := by
  have hscan (range : RangePtr) (hr : range ∈ ranges) :
      st.scanRange includeEnd range = some (st.foundIn includeEnd range) :=
    BlobStorage.scanRange_eq_some fun hnone => hends range hr (hst.scanRange_eq_none.mp hnone)
  rw [List.mem_flatMap]
  constructor
  · rintro ⟨range, hr, hn⟩
    obtain ⟨file, hfile, hlive, hinside⟩ := (hst.mem_scanRange hkeys (hscan range hr)).mp hn
    exact ⟨file, hfile, hlive, List.any_eq_true.mpr ⟨range, hr, hinside⟩⟩
  · rintro ⟨file, hfile, hlive, hany⟩
    obtain ⟨range, hr, hinside⟩ := List.any_eq_true.mp hany
    exact ⟨range, hr, (hst.mem_scanRange hkeys (hscan range hr)).mpr ⟨file, hfile, hlive, hinside⟩⟩

/-- An applied edit of the call makes the files inside a range obsolete. -/
theorem lookup_of_applied [Std.TransCmp st.cfOptions.comparator] (hst : st.Indexed)
    (hkeys : ∀ e ∈ st.files.entries, e.2.largestKey.val ≠ [])
    (hends : ∀ range ∈ ranges, ¬st.RunsPast range) {st' : BlobStorage}
    (happlied : AppliedExactly (rangesEdit cf st ranges includeEnd seq) st st') (n : UInt64) :
    st'.files.lookup n = (st.files.lookup n).map fun file =>
      if ranges.any fun range => st.inside includeEnd range file
      then { file with state := .kObsolete } else file := by
  by_cases hn : n ∈ ranges.flatMap (st.foundIn includeEnd)
  · obtain ⟨file, hfile, hlive, hany⟩ := (mem_found hst hkeys hends).mp hn
    obtain ⟨old, hold, -, hnew⟩ := happlied.deleted (n, seq) (List.mem_map_of_mem hn)
      fun hadded => by cases hadded
    obtain rfl := Option.some.inj (hold.symm.trans hfile)
    rw [hnew, hold, Option.map_some, if_pos hany]
  · have hsame : st'.files.lookup n = st.files.lookup n := by
      apply happlied.other
      rw [deletedFiles_rangesEdit]
      exact iff_of_false (fun hadded => by cases hadded) hn
    rw [hsame]
    cases hfile : st.files.lookup n with
    | none => rfl
    | some file =>
        rw [Option.map_some]
        split_ifs with hany
        · -- the file is inside a range and was not found, so that it is obsolete already
          have hobsolete : file.isObsolete = true := by
            by_contra hlive
            exact hn ((mem_found hst hkeys hends).mpr
              ⟨file, hfile, Bool.eq_false_iff.mpr hlive, hany⟩)
          have hstate : file.state = .kObsolete := by simpa [BlobFileMeta.isObsolete] using hobsolete
          rw [← hstate]
        · rfl

/-- The call makes exactly the files inside a range obsolete if and only if the walk over no range
runs past the end of the index and no live file lies in two of the ranges. -/
theorem deletesInside_iff [Std.TransCmp st.cfOptions.comparator]
    (hcf : s.columnFamilies.lookup cf = some st) (hst : st.Indexed)
    (hkeys : ∀ e ∈ st.files.entries, e.2.smallestKey.val ≠ [] ∧ e.2.largestKey.val ≠ []) :
    s.DeletesInside cf st ranges includeEnd seq ↔
      (∀ range ∈ ranges, ¬st.RunsPast range) ∧ ranges.Pairwise (st.Apart includeEnd) := by
  have hlargest : ∀ e ∈ st.files.entries, e.2.largestKey.val ≠ [] := fun e he => (hkeys e he).2
  have hfound : (rangesEdit cf st ranges includeEnd seq).deletedFiles.map (·.1) =
      ranges.flatMap (st.foundIn includeEnd) := deletedFiles_rangesEdit
  constructor
  · intro hdeletes
    obtain ⟨status, s', hcall, hdone⟩ := hdeletes ⟨.ok, .ok⟩
    obtain ⟨hok, -⟩ := hdone rfl rfl
    rw [deleteByRanges_eq hcf] at hcall
    split_ifs at hcall with hany
    have hends := (ends_iff hst).mp (Bool.eq_false_iff.mpr hany)
    refine ⟨hends, (hst.nodup_flatMap_iff hlargest hends).mp ?_⟩
    have hstatus : (s.logAndApply (rangesEdit cf st ranges includeEnd seq) ⟨.ok, .ok⟩).1.isOk = true := by
      rw [Option.some.inj hcall]
      exact hok
    rw [← hfound]
    rcases logAndApply_cases s (rangesEdit cf st ranges includeEnd seq) ⟨.ok, .ok⟩ with
      ⟨hno, -⟩ | ⟨-, -, hno, -⟩ | ⟨haccepts, -⟩
    · rw [hno] at hstatus
      cases hstatus
    · cases hno
    · exact (accepts_inv haccepts).2.1
  · rintro ⟨hends, hapart⟩ io
    have hcall : s.deleteByRanges cf ranges includeEnd seq io = _ := deleteByRanges_eq hcf
    rw [if_neg (Bool.eq_false_iff.mp ((ends_iff hst).mpr hends))] at hcall
    refine ⟨(s.logAndApply (rangesEdit cf st ranges includeEnd seq) io).1,
      (s.logAndApply (rangesEdit cf st ranges includeEnd seq) io).2, hcall, fun hrecord hsync => ?_⟩
    have haccepts : s.accepts (rangesEdit cf st ranges includeEnd seq) := by
      refine accepts_of_deletions hcf rfl ?_ ?_
      · rw [hfound]
        exact (hst.nodup_flatMap_iff hlargest hends).mpr hapart
      · intro file hfile
        have hn : file.1 ∈ ranges.flatMap (st.foundIn includeEnd) := by
          rw [← hfound]
          exact List.mem_map_of_mem hfile
        obtain ⟨old, hold, hlive, -⟩ := (mem_found hst hlargest hends).mp hn
        exact ⟨old, hold, hlive⟩
    obtain ⟨hok, st', happlied, hset⟩ := logAndApply_of_accepts hcf haccepts hrecord hsync
    refine ⟨hok, ?_⟩
    rw [hset]
    constructor
    · exact ⟨_, AList.lookup_insert _, lookup_of_applied hst hlargest hends happlied⟩
    · intro g hg
      exact AList.lookup_insert_ne hg

/-! ## Runs -/

/-- A column family with the files `b`..`c` and `d`..`e`. -/
def twoFiles : BlobStorage :=
  ((BlobStorage.empty BlobStorage.bytewiseOptions).addBlobFile 7
    ⟨100, 2, 0, .ofByte 98, .ofByte 99, 0, .kNormal⟩).addBlobFile 8
    ⟨100, 2, 0, .ofByte 100, .ofByte 101, 0, .kNormal⟩

def twoFilesSet : BlobFileSet := ⟨AList.singleton 0 twoFiles, [], 9, [], 1, []⟩

instance : Std.TransCmp twoFiles.cfOptions.comparator :=
  inferInstanceAs (Std.TransCmp (compare : Bytes → Bytes → Ordering))

theorem indexed_twoFiles : twoFiles.Indexed := ⟨by decide, by decide⟩

theorem twoFiles_keys :
    ∀ e ∈ twoFiles.files.entries, e.2.smallestKey.val ≠ [] ∧ e.2.largestKey.val ≠ [] := by decide

/-- The ranges from `a` to before `c` and from `c` on have the second file only. -/
theorem deletesInside_adjacent :
    twoFilesSet.DeletesInside 0 twoFiles [(some [97], some [99]), (some [99], none)] false 5 := by
  refine (deletesInside_iff rfl indexed_twoFiles twoFiles_keys).mpr ⟨?_, ?_⟩
  · intro range hr
    rintro ⟨b, hb, e, he, file, hfile, hlt, hlt'⟩
    rcases List.mem_cons.mp hr with rfl | hr
    · obtain rfl := Option.mem_some.mp hb
      obtain rfl := Option.mem_some.mp he
      revert file
      decide
    · obtain rfl := List.mem_singleton.mp hr
      cases he
  · refine List.pairwise_pair.mpr ?_
    unfold BlobStorage.Apart
    decide

/-- With a range given twice the file in it stays live, and the walk over the range from `e` to `a`
does not end. -/
theorem not_deletesInside_twice :
    ¬twoFilesSet.DeletesInside 0 twoFiles [(some [97], some [100]), (some [97], some [100])] false 5 ∧
      ¬twoFilesSet.DeletesInside 0 twoFiles [(some [101], some [97])] false 5 := by
  constructor
  · intro hdeletes
    obtain ⟨status, s', hcall, hdone⟩ := hdeletes ⟨.ok, .ok⟩
    obtain ⟨hok, -⟩ := hdone rfl rfl
    have hstatus : (twoFilesSet.deleteByRanges 0 [(some [97], some [100]), (some [97], some [100])]
        false 5 ⟨.ok, .ok⟩).map (·.1.isOk) = some false := rfl
    rw [hcall, Option.map_some, hok] at hstatus
    cases hstatus
  · intro hdeletes
    obtain ⟨status, s', hcall, -⟩ := hdeletes ⟨.ok, .ok⟩
    have hnone : twoFilesSet.deleteByRanges 0 [(some [101], some [97])] false 5 ⟨.ok, .ok⟩ = none := rfl
    rw [hnone] at hcall
    cases hcall

end BlobFileSet
end AegonKV
