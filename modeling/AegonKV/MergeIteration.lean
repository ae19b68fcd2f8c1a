import AegonKV.IteratorPositions
import AegonKV.BitMap
import AegonKV.PriorityQueue

/-!
# Merging blob files

`BlobFileMergeIterator` over the bytes of its files. The heap holds the children that stand on a
record, by their place in the list of children, and compares them by the keys that they show at the
time of the call. A child moves only while it is outside the heap.
-/

namespace AegonKV.MergeIteration
open LittleEndian PriorityQueue

/-- An iterator with what `SetBitMap` gave it. -/
structure Child where
  iterator : BlobFileIterator
  bitmap : Option BitMap

/-- A record as the merge iterator shows it: `key` and `value`, `GetBlobIndex`, `ValidateByBitMap`. -/
structure Item where
  record : BlobRecord
  blobIndex : BlobIndex
  /-- There is none where the bitmap is missing or refuses the index. -/
  valid : Option Bool

/-- Whether the bit of a record is not set. -/
def validateByBitMap (bitmap : Option BitMap) (index : UInt64) : Option Bool :=
  bitmap.bind fun bm => (bm.getBit index.toNat).toOption.map fun result => result == 0

def Child.item (c : Child) : Item :=
  ⟨c.iterator.curBlobRecord, c.iterator.getBlobIndex,
    validateByBitMap c.bitmap c.iterator.curRecordIndex⟩

structure BlobFileMergeIterator where
  status : Status := .ok
  blobFileIterators : List Child
  minHeap : List ℕ := []
  current : Option ℕ := none

namespace BlobFileMergeIterator

section

variable (m : BlobFileMergeIterator)

def keyOf (i : ℕ) : Bytes := (m.blobFileIterators[i]?).elim [] fun c => c.iterator.curBlobRecord.key

/-- `BlobFileIterComparator`: smaller keys have the higher priority. -/
def less (cmp : Bytes → Bytes → Ordering) (i j : ℕ) : Bool := cmp (m.keyOf i) (m.keyOf j) == .gt

def move (i : ℕ) (f : BlobFileIterator → BlobFileIterator) : BlobFileMergeIterator :=
  { m with
    blobFileIterators := m.blobFileIterators.modify i fun c => { c with iterator := f c.iterator } }

def onRecord (i : ℕ) : Bool :=
  (m.blobFileIterators[i]?).elim false fun c => c.iterator.status.isOk && c.iterator.isValid

def getStatus : Status :=
  match m.current.bind fun i => m.blobFileIterators[i]? with
  | none => m.status
  | some c => if c.iterator.status.isOk then m.status else c.iterator.status

def isValid : Bool :=
  match m.current.bind fun i => m.blobFileIterators[i]? with
  | none => false
  | some c => m.getStatus.isOk && c.iterator.isValid && c.iterator.status.isOk

def shown : Option Item := (m.current.bind fun i => m.blobFileIterators[i]?).map Child.item

end

variable (A : HeapAlgorithms ℕ) (cmp : Bytes → Bytes → Ordering)
  (uncompress : Bytes → UInt8 → Bytes → Except Status Bytes)

def pushOnRecord (m : BlobFileMergeIterator) (i : ℕ) : BlobFileMergeIterator :=
  if m.onRecord i then { m with minHeap := push A (m.less cmp) m.minHeap i } else m

def takeTop (m : BlobFileMergeIterator) (top : ℕ) : BlobFileMergeIterator :=
  { m with current := some top, minHeap := pop A (m.less cmp) m.minHeap }

/-- The loop of `SeekToFirst`. -/
def seekChildren (m : BlobFileMergeIterator) : BlobFileMergeIterator :=
  (List.range m.blobFileIterators.length).foldl
    (fun m i => (m.move i (·.seekToFirst uncompress)).pushOnRecord A cmp i) m

def seekToFirst (m : BlobFileMergeIterator) : BlobFileMergeIterator :=
  let m := m.seekChildren A cmp uncompress
  match m.minHeap with
  | [] => { m with status := .aborted "No iterator is valid" }
  | top :: _ => m.takeTop A cmp top

def next (m : BlobFileMergeIterator) : BlobFileMergeIterator :=
  match m.current with
  | none => m
  | some i =>
    let m := (m.move i (·.next uncompress)).pushOnRecord A cmp i
    match m.minHeap with
    | [] => { m with current := none }
    | top :: _ => m.takeTop A cmp top

/-- From where it stands the iterator shows exactly these records, and then becomes invalid. -/
structure Shows (m : BlobFileMergeIterator) (items : List Item) : Prop where
  item : ∀ n x, items[n]? = some x →
    ((next A cmp uncompress)^[n] m).isValid = true ∧ ((next A cmp uncompress)^[n] m).shown = some x
  done : ((next A cmp uncompress)^[items.length] m).isValid = false

variable {A cmp uncompress} {m : BlobFileMergeIterator}

theorem Shows.nil (h : m.isValid = false) : m.Shows A cmp uncompress [] := by
  constructor
  · intro n x hn
    rw [List.getElem?_nil] at hn
    cases hn
  · exact h

theorem Shows.cons {x : Item} {items : List Item} (hvalid : m.isValid = true)
    (hshown : m.shown = some x) (h : (m.next A cmp uncompress).Shows A cmp uncompress items) :
    m.Shows A cmp uncompress (x :: items) := by
  constructor
  · intro n y hn
    cases n with
    | zero =>
        obtain rfl : x = y := Option.some.inj hn
        exact ⟨hvalid, hshown⟩
    | succ n => exact h.item n y hn
  · exact h.done

end BlobFileMergeIterator

/-! ## The inputs -/

/-- A well-formed blob file with its records in the order of the comparator, and a bitmap for it. -/
structure InputFile (cmp : Bytes → Bytes → Ordering)
    (uncompress : Bytes → UInt8 → Bytes → Except Status Bytes) where
  fileNumber : UInt64
  file : Bytes
  bitmap : Option BitMap
  compress : Bytes → Bytes × UInt8
  header : BlobFileHeader
  dict : Bytes
  records : List BlobRecord
  readable : BlobFileIterator.Holds uncompress compress header dict records file
  sorted : records.Pairwise fun r q => (cmp r.key q.key).isLE

namespace InputFile

variable {cmp : Bytes → Bytes → Ordering}
  {uncompress : Bytes → UInt8 → Bytes → Except Status Bytes} (f : InputFile cmp uncompress)

/-- The records of the file, with their handles and bits. -/
def items : List Item :=
  (BlobFileIterator.handles f.compress f.header.size 0 f.records).map fun x =>
    ⟨x.1, { fileNumber := f.fileNumber, blobHandle := x.2 }, validateByBitMap f.bitmap x.2.index⟩

def child : Child := ⟨.new f.file f.fileNumber, f.bitmap⟩

/-- The child when it has come to a record, or before `SeekToFirst`. -/
def childAt : Option ℕ → Child
  | none => f.child
  | some n => ⟨f.child.iterator.afterNext uncompress n, f.bitmap⟩

theorem length_records_lt : f.records.length < 2 ^ 64 := by
  obtain ⟨blocks, handle, pad, hfile, -⟩ := f.readable.layout
  have hfits := f.readable.fits
  have hcount := BlobFileIterator.length_le_storedLength f.compress f.records
  rw [hfile] at hfits
  simp only [List.length_append] at hfits
  rw [BlobFileIterator.storedLength] at hcount
  omega

theorem yields : f.child.iterator.Yields uncompress
    (BlobFileIterator.handles f.compress f.header.size 0 f.records) := by
  have hentries : f.records.length ≤ BlobFileIterator.kNoFileEntries.toNat := by
    have hlt := f.length_records_lt
    have hmax : BlobFileIterator.kNoFileEntries.toNat = 2 ^ 64 - 1 := rfl
    omega
  obtain ⟨it', rest, hrun, hrow⟩ := f.readable.runInit f.fileNumber hentries
  obtain ⟨-, hindex, -, hnumber, -⟩ := BlobFileIterator.runInit_frame hrun
  have hready : BlobFileIterator.Ready uncompress f.compress f.child.iterator it' f.header.size
      f.records rest :=
    ⟨rfl, hindex, hrun, hnumber, hrow.headerSize, hrow.storable, hrow.row, hrow.toNat_end.ge,
      hrow.entries⟩
  exact hready.yields (Or.inl hrow.ends)

theorem childAt_item {n : ℕ} {x : Item} (hx : f.items[n]? = some x) :
    (f.childAt (some n)).iterator.status.isOk = true ∧ (f.childAt (some n)).iterator.isValid = true ∧
      (f.childAt (some n)).item = x := by
  rw [items, List.getElem?_map] at hx
  obtain ⟨⟨r, handle⟩, hget, rfl⟩ := Option.map_eq_some_iff.mp hx
  obtain ⟨hvalid, hrecord, hindex⟩ := f.yields.item n r handle hget
  have hok : (f.child.iterator.afterNext uncompress n).status.isOk = true := by
    rw [BlobFileIterator.isValid, Bool.and_eq_true] at hvalid
    exact hvalid.2
  refine ⟨hok, hvalid, ?_⟩
  have hcur : (f.child.iterator.afterNext uncompress n).curRecordIndex = handle.index :=
    congrArg (fun index : BlobIndex => index.blobHandle.index) hindex
  rw [Child.item, childAt]
  dsimp only
  rw [hrecord, hindex, hcur]
  rfl

theorem childAt_end : (f.childAt (some f.items.length)).iterator.isValid = false := by
  rw [items, List.length_map]
  exact f.yields.done.1

theorem items_sorted : f.items.Pairwise fun x y => (cmp x.record.key y.record.key).isLE := by
  have hrecords : f.items.map (·.record) = f.records := by
    rw [items, List.map_map]
    exact map_fst_handles f.compress f.header.size 0 f.records
  have hsorted := f.sorted
  rw [← hrecords, List.pairwise_map] at hsorted
  exact hsorted

end InputFile

/-! ## The heap -/

namespace BlobFileMergeIterator

variable {A : HeapAlgorithms ℕ} {cmp : Bytes → Bytes → Ordering}
  {uncompress : Bytes → UInt8 → Bytes → Except Status Bytes} {fs : List (InputFile cmp uncompress)}
  {pos : ℕ → Option ℕ} {out : Option ℕ} {m : BlobFileMergeIterator}

theorem strictWeakOrder_less [Std.TransCmp cmp] (m : BlobFileMergeIterator) :
    StrictWeakOrder (m.less cmp) := by
  have hle : ∀ {a b}, m.less cmp a b = false ↔ (cmp (m.keyOf a) (m.keyOf b)).isLE := by
    intro a b
    rw [less, Ordering.isLE_iff_ne_gt, beq_eq_false_iff_ne]
  constructor
  · intro a
    rw [hle]
    exact Std.ReflCmp.isLE_rfl
  · intro a b c hab hbc
    rw [hle] at hab hbc ⊢
    exact Std.TransCmp.isLE_trans hab hbc
  · intro a b hab
    rw [less, beq_iff_eq, Std.OrientedCmp.gt_iff_lt] at hab
    rw [hle, hab]
    rfl

/-- Child `i` of the file `fs[i]` has come to `pos i`. The heap holds the children that stand on a
record, but for the one that is outside. -/
structure Merging (fs : List (InputFile cmp uncompress)) (pos : ℕ → Option ℕ) (out : Option ℕ)
    (m : BlobFileMergeIterator) : Prop where
  children : ∀ i, m.blobFileIterators[i]? = (fs[i]?).map (InputFile.childAt · (pos i))
  status : m.status = .ok
  heap : IsHeap (m.less cmp) m.minHeap
  nodup : m.minHeap.Nodup
  members : ∀ i, i ∈ m.minHeap ↔
    out ≠ some i ∧ ∃ f n, fs[i]? = some f ∧ pos i = some n ∧ n < f.items.length

theorem Merging.keyOf_eq (h : Merging fs pos out m) {i n : ℕ} {f : InputFile cmp uncompress} {x : Item}
    (hf : fs[i]? = some f) (hn : pos i = some n) (hx : f.items[n]? = some x) :
    m.keyOf i = x.record.key := by
  rw [keyOf, h.children, hf, hn]
  exact congrArg (·.record.key) (f.childAt_item hx).2.2

theorem Merging.onRecord_iff (h : Merging fs pos out m) {i n : ℕ} {f : InputFile cmp uncompress}
    (hf : fs[i]? = some f) (hn : pos i = some n) (hle : n ≤ f.items.length) :
    m.onRecord i = true ↔ n < f.items.length := by
  rw [onRecord, h.children, hf, hn]
  dsimp only [Option.map_some, Option.elim_some]
  rcases Nat.lt_or_eq_of_le hle with hlt | rfl
  · obtain ⟨hok, hvalid, -⟩ := f.childAt_item (List.getElem?_eq_getElem hlt)
    rw [hok, hvalid]
    exact iff_of_true rfl hlt
  · rw [f.childAt_end, Bool.and_false]
    exact iff_of_false nofun (Nat.lt_irrefl _)

theorem blobFileIterators_move (m : BlobFileMergeIterator) (i j : ℕ)
    (g : BlobFileIterator → BlobFileIterator) : (m.move i g).blobFileIterators[j]? =
      (m.blobFileIterators[j]?).map fun c => if i = j then { c with iterator := g c.iterator } else c := by
  rw [move, List.getElem?_modify]
  split_ifs
  · rfl
  · rfl

theorem keyOf_move (m : BlobFileMergeIterator) {i j : ℕ} (hne : j ≠ i)
    (g : BlobFileIterator → BlobFileIterator) : (m.move i g).keyOf j = m.keyOf j := by
  rw [keyOf, blobFileIterators_move, keyOf]
  cases m.blobFileIterators[j]? with
  | none => rfl
  | some c =>
      dsimp only [Option.map_some, Option.elim_some]
      rw [if_neg (Ne.symm hne)]

/-- Moving the child that is outside leaves the heap as it is. -/
theorem Merging.move {i : ℕ} (h : Merging fs pos (some i) m) {n : ℕ} {g : BlobFileIterator → BlobFileIterator}
    (hmove : ∀ f, fs[i]? = some f → g (f.childAt (pos i)).iterator = (f.childAt (some n)).iterator) :
    Merging fs (Function.update pos i (some n)) (some i) (m.move i g) := by
  have houtside : i ∉ m.minHeap := fun hmem => ((h.members i).mp hmem).1 rfl
  constructor
  case children =>
    intro j
    rw [blobFileIterators_move, h.children]
    cases hf : fs[j]? with
    | none => rfl
    | some f =>
        by_cases hj : i = j
        · subst hj
          rw [Function.update_self]
          simp only [Option.map_some, if_true, Option.some.injEq]
          rw [hmove f hf]
          cases pos i with
          | none => rfl
          | some k => rfl
        · rw [Function.update_of_ne (Ne.symm hj)]
          simp only [Option.map_some, if_neg hj]
  case status => exact h.status
  case heap =>
    refine h.heap.congr fun x hx y hy => ?_
    have hxi : x ≠ i := fun heq => houtside (heq ▸ hx)
    have hyi : y ≠ i := fun heq => houtside (heq ▸ hy)
    rw [less, less, keyOf_move m hxi, keyOf_move m hyi]
  case nodup => exact h.nodup
  case members =>
    intro j
    refine (h.members j).trans (and_congr_right fun hne => ?_)
    rw [Function.update_of_ne fun heq => hne (congrArg some heq).symm]

/-- A child that is outside comes back if it stands on a record. -/
theorem Merging.pushOnRecord [Std.TransCmp cmp] {i : ℕ} (h : Merging fs pos (some i) m) {n : ℕ}
    (hn : pos i = some n) (hle : ∀ f, fs[i]? = some f → n ≤ f.items.length) :
    Merging fs pos none (m.pushOnRecord A cmp i) := by
  have houtside : i ∉ m.minHeap := fun hmem => ((h.members i).mp hmem).1 rfl
  have hback : ∀ f, fs[i]? = some f → (m.onRecord i = true ↔ n < f.items.length) :=
    fun f hf => h.onRecord_iff hf hn (hle f hf)
  have hrest : ∀ j, j ≠ i → (j ∈ m.minHeap ↔
      ∃ f k, fs[j]? = some f ∧ pos j = some k ∧ k < f.items.length) := by
    intro j hj
    rw [h.members j]
    exact and_iff_right fun heq => hj (Option.some.inj heq).symm
  rw [BlobFileMergeIterator.pushOnRecord]
  split_ifs with hon
  · have hperm := push_perm (A := A) (strictWeakOrder_less m) h.heap i
    constructor
    case children => exact h.children
    case status => exact h.status
    case heap => exact h.heap.push (strictWeakOrder_less m) i
    case nodup => exact hperm.nodup_iff.mpr (List.nodup_cons.mpr ⟨houtside, h.nodup⟩)
    case members =>
      intro j
      rw [and_iff_right (by exact nofun)]
      refine hperm.mem_iff.trans ?_
      by_cases hj : j = i
      · subst hj
        refine iff_of_true List.mem_cons_self ?_
        cases hf : fs[j]? with
        | none =>
            rw [onRecord, h.children, hf] at hon
            cases hon
        | some f => exact ⟨f, n, rfl, hn, (hback f hf).mp hon⟩
      · rw [List.mem_cons, or_iff_right hj]
        exact hrest j hj
  · constructor
    case children => exact h.children
    case status => exact h.status
    case heap => exact h.heap
    case nodup => exact h.nodup
    case members =>
      intro j
      rw [and_iff_right (by exact nofun)]
      by_cases hj : j = i
      · subst hj
        refine iff_of_false houtside ?_
        rintro ⟨f, k, hf, hk, hlt⟩
        obtain rfl := Option.some.inj (hn.symm.trans hk)
        exact hon ((hback f hf).mpr hlt)
      · exact hrest j hj

/-- The top of the heap is taken out, and no key in the heap comes before its key. -/
theorem Merging.takeTop [Std.TransCmp cmp] (h : Merging fs pos none m) {top : ℕ} {rest : List ℕ}
    (hheap : m.minHeap = top :: rest) :
    Merging fs pos (some top) (m.takeTop A cmp top) ∧
      ∀ i ∈ (m.takeTop A cmp top).minHeap, (cmp (m.keyOf top) (m.keyOf i)).isLE := by
  have hless := @strictWeakOrder_less cmp _ m
  have hordered := h.heap
  have hnodup := h.nodup
  rw [hheap] at hordered hnodup
  have hperm := pop_perm (A := A) hless hordered
  constructor
  · constructor
    case children => exact h.children
    case status => exact h.status
    case heap =>
      rw [BlobFileMergeIterator.takeTop, hheap]
      exact hordered.pop hless
    case nodup =>
      rw [BlobFileMergeIterator.takeTop, hheap]
      exact hperm.nodup_iff.mpr (List.nodup_cons.mp hnodup).2
    case members =>
      intro i
      rw [BlobFileMergeIterator.takeTop, hheap]
      refine hperm.mem_iff.trans ?_
      have hall := h.members i
      rw [hheap, List.mem_cons, and_iff_right (by exact nofun)] at hall
      rw [← hall]
      constructor
      · intro hi
        refine ⟨fun heq => ?_, Or.inr hi⟩
        obtain rfl := Option.some.inj heq
        exact (List.nodup_cons.mp hnodup).1 hi
      · rintro ⟨hne, rfl | hi⟩
        · exact absurd rfl hne
        · exact hi
  · intro i hi
    rw [BlobFileMergeIterator.takeTop, hheap] at hi
    have htop := hordered.top hless (List.mem_cons_of_mem top (hperm.mem_iff.mp hi))
    rwa [less, beq_eq_false_iff_ne, ne_eq, ← Ordering.isLE_iff_ne_gt] at htop

/-! ## The run -/

/-- The records of file `i` that have not been passed. -/
def left (fs : List (InputFile cmp uncompress)) (pos : ℕ → Option ℕ) (i : ℕ) : List Item :=
  (fs[i]?).elim [] fun f => f.items.drop ((pos i).getD 0)

def pending (fs : List (InputFile cmp uncompress)) (pos : ℕ → Option ℕ) : List Item :=
  (List.range fs.length).flatMap (left fs pos)

/-- One record taken from one of the lists. -/
theorem flatMap_perm_cons {l : List ℕ} {g g' : ℕ → List Item} {c : ℕ} {x : Item} (hnodup : l.Nodup)
    (hc : c ∈ l) (htake : g c = x :: g' c) (hsame : ∀ i, i ≠ c → g i = g' i) :
    (l.flatMap g).Perm (x :: l.flatMap g') := by
  induction l with
  | nil => cases hc
  | cons i l ih =>
      obtain ⟨hi, hnodup⟩ := List.nodup_cons.mp hnodup
      rw [List.flatMap_cons, List.flatMap_cons]
      by_cases heq : i = c
      · subst heq
        have hrest : l.flatMap g = l.flatMap g' :=
          List.flatMap_congr fun j hj => hsame j fun heq => hi (heq ▸ hj)
        rw [htake, hrest]
        exact List.Perm.refl _
      · rw [hsame i heq]
        have hmem : c ∈ l := (List.mem_cons.mp hc).resolve_left fun h => heq h.symm
        exact ((ih hnodup hmem).append_left (g' i)).trans List.perm_middle

/-- What is left when one record of file `c` is passed. -/
theorem pending_update {c n : ℕ} {f : InputFile cmp uncompress} {x : Item} (hf : fs[c]? = some f)
    (hn : pos c = some n) (hx : f.items[n]? = some x) :
    (pending fs pos).Perm (x :: pending fs (Function.update pos c (some (n + 1)))) := by
  obtain ⟨hlt, rfl⟩ := List.getElem?_eq_some_iff.mp hx
  refine flatMap_perm_cons List.nodup_range
    (List.mem_range.mpr (List.getElem?_eq_some_iff.mp hf).1) ?_ fun i hi => ?_
  · rw [left, left, hf, hn, Function.update_self]
    exact List.drop_eq_getElem_cons hlt
  · rw [left, left, Function.update_of_ne hi]

/-- Nothing is left of the other files that comes before the record at hand. -/
theorem Merging.le_of_pending [Std.TransCmp cmp] {c n : ℕ} (h : Merging fs pos (some c) m)
    (hleast : ∀ i ∈ m.minHeap, (cmp (m.keyOf c) (m.keyOf i)).isLE)
    (hseeked : ∀ i < fs.length, ∃ k, pos i = some k) {f : InputFile cmp uncompress} {x y : Item}
    (hf : fs[c]? = some f) (hn : pos c = some n) (hx : f.items[n]? = some x)
    (hy : y ∈ pending fs (Function.update pos c (some (n + 1)))) :
    (cmp x.record.key y.record.key).isLE := by
  obtain ⟨i, hi, hmem⟩ := List.mem_flatMap.mp hy
  rw [left] at hmem
  by_cases hic : i = c
  · -- the records behind it in its own file
    subst hic
    rw [hf, Function.update_self, Option.elim_some, Option.getD_some] at hmem
    obtain ⟨hlt, rfl⟩ := List.getElem?_eq_some_iff.mp hx
    have hsorted := f.items_sorted.drop (i := n)
    rw [List.drop_eq_getElem_cons hlt] at hsorted
    exact (List.pairwise_cons.mp hsorted).1 y hmem
  · -- the head of another file, and the records behind that head
    obtain ⟨k, hk⟩ := hseeked i (List.mem_range.mp hi)
    rw [Function.update_of_ne hic, hk, Option.getD_some] at hmem
    cases hq : fs[i]? with
    | none =>
        rw [hq] at hmem
        cases hmem
    | some q =>
        rw [hq, Option.elim_some] at hmem
        have hlt : k < q.items.length := by
          by_contra hge
          rw [List.drop_eq_nil_of_le (Nat.le_of_not_lt hge)] at hmem
          cases hmem
        have hheap : i ∈ m.minHeap :=
          (h.members i).mpr ⟨fun heq => hic (Option.some.inj heq).symm, q, k, hq, hk, hlt⟩
        have hhead := hleast i hheap
        rw [h.keyOf_eq hf hn hx, h.keyOf_eq hq hk (List.getElem?_eq_getElem hlt)] at hhead
        have hsorted := q.items_sorted.drop (i := k)
        rw [List.drop_eq_getElem_cons hlt] at hsorted hmem
        rcases List.mem_cons.mp hmem with rfl | hbehind
        · exact hhead
        · exact Std.TransCmp.isLE_trans hhead ((List.pairwise_cons.mp hsorted).1 y hbehind)

/-- The iterator stands on record `n` of file `c`, and no other record comes before it. -/
structure Serving (fs : List (InputFile cmp uncompress)) (pos : ℕ → Option ℕ) (c n : ℕ)
    (f : InputFile cmp uncompress) (m : BlobFileMergeIterator) : Prop where
  merging : Merging fs pos (some c) m
  current : m.current = some c
  file : fs[c]? = some f
  position : pos c = some n
  inside : n < f.items.length
  least : ∀ i ∈ m.minHeap, (cmp (m.keyOf c) (m.keyOf i)).isLE

theorem Serving.shows {c n : ℕ} {f : InputFile cmp uncompress} (h : Serving fs pos c n f m) :
    m.isValid = true ∧ m.getStatus = .ok ∧ m.shown = some (f.items.get ⟨n, h.inside⟩) := by
  have hchild : (m.current.bind fun i => m.blobFileIterators[i]?) = some (f.childAt (some n)) := by
    rw [h.current, Option.bind_some, h.merging.children, h.file, h.position]
    rfl
  obtain ⟨hok, hvalid, hitem⟩ := f.childAt_item (List.getElem?_eq_getElem h.inside)
  have hstatus : m.getStatus = .ok := by
    rw [getStatus, hchild]
    dsimp only
    rw [if_pos hok, h.merging.status]
  refine ⟨?_, hstatus, ?_⟩
  · rw [isValid, hchild]
    dsimp only
    rw [hstatus, hvalid, hok]
    rfl
  · rw [shown, hchild, Option.map_some, hitem, List.get_eq_getElem]

/-- With all children in the heap, the iterator either serves the top or has nothing left. -/
theorem Merging.settle [Std.TransCmp cmp] (h : Merging fs pos none m)
    (hseeked : ∀ i < fs.length, ∃ k, pos i = some k) :
    (m.minHeap = [] ∧ pending fs pos = []) ∨
      ∃ top rest n f, m.minHeap = top :: rest ∧ Serving fs pos top n f (m.takeTop A cmp top) := by
  cases hheap : m.minHeap with
  | nil =>
      refine Or.inl ⟨rfl, List.flatMap_eq_nil_iff.mpr fun i hi => ?_⟩
      obtain ⟨k, hk⟩ := hseeked i (List.mem_range.mp hi)
      cases hf : fs[i]? with
      | none => rw [left, hf, Option.elim_none]
      | some f =>
          rw [left, hf, hk, Option.elim_some, Option.getD_some]
          refine List.drop_eq_nil_of_le (Nat.le_of_not_lt fun hlt => ?_)
          have hmem := (h.members i).mpr ⟨nofun, f, k, hf, hk, hlt⟩
          rw [hheap] at hmem
          cases hmem
  | cons top rest =>
      have htop : top ∈ m.minHeap := by
        rw [hheap]
        exact List.mem_cons_self
      obtain ⟨-, f, n, hf, hn, hlt⟩ := (h.members top).mp htop
      obtain ⟨hmerging, hleast⟩ := h.takeTop (A := A) hheap
      exact Or.inr ⟨top, rest, n, f, rfl, hmerging, rfl, hf, hn, hlt, hleast⟩

/-- `Next` passes one record. -/
theorem Serving.next [Std.TransCmp cmp] {c n : ℕ} {f : InputFile cmp uncompress}
    (h : Serving fs pos c n f m) :
    Merging fs (Function.update pos c (some (n + 1))) none
      ((m.move c (·.next uncompress)).pushOnRecord A cmp c) := by
  have hmoved : Merging fs (Function.update pos c (some (n + 1))) (some c)
      (m.move c (·.next uncompress)) := by
    refine h.merging.move fun q hq => ?_
    rw [h.position]
    exact (Function.iterate_succ_apply' (BlobFileIterator.next uncompress) n _).symm
  refine hmoved.pushOnRecord (Function.update_self c _ pos) fun q hq => ?_
  obtain rfl := Option.some.inj (h.file.symm.trans hq)
  exact h.inside

theorem Serving.run [Std.TransCmp cmp] {c n : ℕ} {f : InputFile cmp uncompress}
    (h : Serving fs pos c n f m) (hseeked : ∀ i < fs.length, ∃ k, pos i = some k) :
    ∃ items, items.Perm (pending fs pos) ∧
      items.Pairwise (fun x y => (cmp x.record.key y.record.key).isLE) ∧
      m.Shows A cmp uncompress items := by
  induction hlen : (pending fs pos).length using Nat.strongRecOn generalizing m pos c n f with
  | ind length ih =>
      have hx : f.items[n]? = some (f.items.get ⟨n, h.inside⟩) := List.getElem?_eq_getElem h.inside
      have hperm := pending_update h.file h.position hx
      have hless := fun y hy => h.merging.le_of_pending (y := y) h.least hseeked h.file h.position hx hy
      obtain ⟨hvalid, -, hshown⟩ := h.shows
      have hmoved := h.next (A := A)
      have hseeked' : ∀ i < fs.length, ∃ k, Function.update pos c (some (n + 1)) i = some k := by
        intro i hi
        by_cases hic : i = c
        · exact ⟨n + 1, by rw [hic, Function.update_self]⟩
        · rw [Function.update_of_ne hic]
          exact hseeked i hi
      rcases hmoved.settle (A := A) hseeked' with ⟨hheap, hnil⟩ | ⟨top, rest, k, q, hheap, hserving⟩
      · rw [hnil] at hperm
        refine ⟨[f.items.get ⟨n, h.inside⟩], hperm.symm, List.pairwise_singleton _ _, ?_⟩
        refine Shows.cons hvalid hshown (Shows.nil ?_)
        simp only [BlobFileMergeIterator.next, h.current, hheap]
        rfl
      · have hshort : (pending fs (Function.update pos c (some (n + 1)))).length < length := by
          have hcount := hperm.length_eq
          rw [List.length_cons] at hcount
          omega
        obtain ⟨items, hitems, hsorted, hshows⟩ := ih _ hshort hserving hseeked' rfl
        refine ⟨f.items.get ⟨n, h.inside⟩ :: items, (hitems.cons _).trans hperm.symm, ?_, ?_⟩
        · exact List.pairwise_cons.mpr ⟨fun y hy => hless y (hitems.mem_iff.mp hy), hsorted⟩
        · refine Shows.cons hvalid hshown ?_
          simp only [BlobFileMergeIterator.next, h.current, hheap]
          exact hshows

/-! ## From `SeekToFirst` on -/

def new (fs : List (InputFile cmp uncompress)) : BlobFileMergeIterator :=
  { blobFileIterators := fs.map InputFile.child }

/-- Where the children are when the first `k` have been sought. -/
def sought (k i : ℕ) : Option ℕ := if i < k then some 0 else none

theorem merging_new (fs : List (InputFile cmp uncompress)) : Merging fs (sought 0) none (new fs) := by
  constructor
  case children => exact fun i => List.getElem?_map
  case status => rfl
  case heap => exact isHeap_nil
  case nodup => exact List.nodup_nil
  case members =>
    refine fun i => iff_of_false List.not_mem_nil ?_
    rintro ⟨-, f, n, -, hn, -⟩
    cases hn

theorem merging_seekChildren [Std.TransCmp cmp] (fs : List (InputFile cmp uncompress)) :
    Merging fs (sought fs.length) none ((new fs).seekChildren A cmp uncompress) := by
  have hloop : ∀ k, Merging fs (sought k) none ((List.range k).foldl
      (fun m i => (m.move i (·.seekToFirst uncompress)).pushOnRecord A cmp i) (new fs)) := by
    intro k
    induction k with
    | zero => exact merging_new fs
    | succ k ih =>
        rw [List.range_succ, List.foldl_append, List.foldl_cons, List.foldl_nil]
        generalize (List.range k).foldl _ (new fs) = reached at ih ⊢
        have hnone : sought k k = none := if_neg (Nat.lt_irrefl k)
        have hout : Merging fs (sought k) (some k) reached := by
          refine ⟨ih.children, ih.status, ih.heap, ih.nodup, fun i => (ih.members i).trans ?_⟩
          refine and_congr_left fun ⟨f, n, _, hn, _⟩ => iff_of_true nofun fun heq => ?_
          obtain rfl := Option.some.inj heq
          cases hnone.symm.trans hn
        have hsought : Function.update (sought k) k (some 0) = sought (k + 1) := by
          funext i
          by_cases hik : i = k
          · rw [hik, Function.update_self, sought, if_pos (Nat.lt_succ_self k)]
          · rw [Function.update_of_ne hik, sought, sought]
            exact if_congr (by omega) rfl rfl
        rw [← hsought]
        refine (hout.move fun f hf => ?_).pushOnRecord (Function.update_self k _ _)
          fun f hf => Nat.zero_le _
        rw [hnone]
        rfl
  have hlen : (new fs).blobFileIterators.length = fs.length := List.length_map _
  rw [seekChildren, hlen]
  exact hloop fs.length

theorem current_seekChildren (m : BlobFileMergeIterator) :
    (m.seekChildren A cmp uncompress).current = m.current := by
  rw [seekChildren]
  generalize List.range m.blobFileIterators.length = is
  induction is generalizing m with
  | nil => rfl
  | cons i is ih =>
      rw [List.foldl_cons, ih, pushOnRecord]
      split_ifs
      · rfl
      · rfl

theorem flatMap_range (l : List (InputFile cmp uncompress)) (g : InputFile cmp uncompress → List Item) :
    ((List.range l.length).flatMap fun i => (l[i]?).elim [] g) = l.flatMap g := by
  induction l with
  | nil => rfl
  | cons f l ih =>
      rw [List.length_cons, List.range_succ_eq_map, List.flatMap_cons, List.flatMap_map,
        List.flatMap_cons]
      exact congrArg (g f ++ ·) ih

/-- From `SeekToFirst` through `Next` the iterator shows every record of every file once, in the order
of the keys. -/
theorem shows_sorted_permutation [Std.TransCmp cmp] (A : HeapAlgorithms ℕ)
    (fs : List (InputFile cmp uncompress)) :
    ∃ items, items.Perm (fs.flatMap InputFile.items) ∧
      items.Pairwise (fun x y => (cmp x.record.key y.record.key).isLE) ∧
      ((new fs).seekToFirst A cmp uncompress).Shows A cmp uncompress items := by
  have hmerging := merging_seekChildren (A := A) fs
  have hpending : pending fs (sought fs.length) = fs.flatMap InputFile.items := by
    rw [← flatMap_range, pending]
    refine List.flatMap_congr fun i hi => ?_
    rw [left, sought, if_pos (List.mem_range.mp hi)]
    rfl
  have hseeked : ∀ i < fs.length, ∃ k, sought fs.length i = some k :=
    fun i hi => ⟨0, if_pos hi⟩
  rw [← hpending, seekToFirst]
  rcases hmerging.settle (A := A) hseeked with ⟨hheap, hnil⟩ | ⟨top, rest, n, f, hheap, hserving⟩
  · refine ⟨[], by rw [hnil], List.Pairwise.nil, Shows.nil ?_⟩
    rw [hheap]
    simp only [isValid, current_seekChildren]
    rfl
  · rw [hheap]
    exact hserving.run hseeked

/-- Two files with the same keys, of which the second one has a bit set for its first record. -/
def twoFiles : List (InputFile smallTrainOptions.comparator smallTrainOptions.codec.uncompress) :=
  [⟨1, BlobFileIterator.shortFile, none, _, _, _, _, BlobFileIterator.holds_shortFile, by decide⟩,
    ⟨2, BlobFileIterator.shortFile, ((BitMap.new 2).setBit 0 1).toOption, _, _, _, _,
      BlobFileIterator.holds_shortFile, by decide⟩]

theorem twoFiles_shown : ∃ items, items.Perm (twoFiles.flatMap InputFile.items) ∧
    items.Pairwise (fun x y => (smallTrainOptions.comparator x.record.key y.record.key).isLE) ∧
    ((new twoFiles).seekToFirst (sorting ℕ) smallTrainOptions.comparator
      smallTrainOptions.codec.uncompress).Shows (sorting ℕ) smallTrainOptions.comparator
      smallTrainOptions.codec.uncompress items :=
  shows_sorted_permutation (sorting ℕ) twoFiles

end BlobFileMergeIterator

end AegonKV.MergeIteration
