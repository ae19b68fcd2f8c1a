import Mathlib.Algebra.Order.BigOperators.Group.List
import Mathlib.Data.List.Perm.Subperm
import Mathlib.Tactic.Ring
import AegonKV.LsmCallbacks

/-!
# References of tables to blob files

The size collector of a table sums the sizes of its blob index entries by file. A flush or a
compaction reports the difference between the tables it wrote and the tables it read, which is the
change of the size of the records that the tables reference.
-/

namespace AegonKV

/-! ## Tables -/

abbrev SsTable := List BlobIndex

/-- `BlobFileSizeCollector::AddUserKey` of a blob index entry. -/
def addUserKey (sizes : AList fun _ : UInt64 => UInt64) (index : BlobIndex) :
    AList fun _ : UInt64 => UInt64 :=
  match sizes.lookup index.fileNumber with
  | none => sizes.insert index.fileNumber index.blobHandle.size
  | some size => sizes.insert index.fileNumber (size + index.blobHandle.size)

/-- The property `TitanDB.blob_discardable_size` of the table. -/
def SsTable.blobFilesSize (t : SsTable) : AList fun _ : UInt64 => UInt64 :=
  t.foldl addUserKey ∅

/-- One round of `ExtractGCStatsFromTableProperty`. -/
def SizeDiff.addSize (toAdd : Bool) (diff : SizeDiff) (e : (_ : UInt64) × UInt64) : SizeDiff :=
  diff.insert e.1 ((diff.lookup e.1).getD 0 + if toAdd then castInt64 e.2 else -castInt64 e.2)

def SizeDiff.extract (toAdd : Bool) (diff : SizeDiff) (t : SsTable) : SizeDiff :=
  t.blobFilesSize.entries.foldl (addSize toAdd) diff

inductive TableChange
  | flush (output : SsTable)
  | compaction (outputLevel : ℤ) (inputs outputs : List SsTable)

namespace TableChange

def inputs : TableChange → List SsTable
  | .flush _ => []
  | .compaction _ inputs _ => inputs

def outputs : TableChange → List SsTable
  | .flush output => [output]
  | .compaction _ _ outputs => outputs

/-- `blob_file_size_diff` of the callback. -/
def sizeDiff (c : TableChange) : SizeDiff :=
  c.outputs.foldl (SizeDiff.extract true) (c.inputs.foldl (SizeDiff.extract false) ∅)

def apply (tables : List SsTable) (c : TableChange) : List SsTable :=
  tables.diff c.inputs ++ c.outputs

end TableChange

def references (f : UInt64) (tables : List SsTable) : List BlobIndex :=
  tables.flatten.filter fun index => index.fileNumber = f

/-- The size of the records of a blob file that the tables reference. -/
def referencedSize (f : UInt64) (tables : List SsTable) : ℕ :=
  ((references f tables).map fun index => index.blobHandle.size.toNat).sum

/-- The difference a change makes to the live data of a file. -/
def TableChange.delta (f : UInt64) (c : TableChange) : ℤ :=
  referencedSize f c.outputs - referencedSize f c.inputs

/-- The change writes a new blob file, and every size about it fits in the callback's `int64_t`. -/
structure Creates (f : UInt64) (tables : List SsTable) (c : TableChange) : Prop where
  fresh : references f tables = []
  inputs : c.inputs.Subperm tables
  referenced : 0 < referencedSize f c.outputs
  bounded : referencedSize f c.outputs < 2 ^ 63

/-- A compaction of tables that are there. It carries references to the file over, drops some, and
makes none up. -/
structure Compacts (f : UInt64) (tables : List SsTable) (c : TableChange) : Prop where
  compaction : ∃ outputLevel inputs outputs, c = .compaction outputLevel inputs outputs
  inputs : c.inputs.Subperm tables
  carried : (references f c.outputs).Subperm (references f c.inputs)

/-- The compactions that follow, in the order in which they changed the tables. -/
def Follow (f : UInt64) : List SsTable → List TableChange → Prop
  | _, [] => True
  | tables, c :: later => Compacts f tables c ∧ Follow f (c.apply tables) later

/-! ## Sizes -/

theorem castInt64_castUInt64 {z : ℤ} (hlow : -2 ^ 63 ≤ z) (hhigh : z < 2 ^ 63) :
    castInt64 (castUInt64 z) = z :=
  BitVec.toInt_ofInt_eq_self (by decide) hlow hhigh

theorem castInt64_ofNat {n : ℕ} (h : n < 2 ^ 63) : castInt64 (UInt64.ofNat n) = n := by
  have hcast : UInt64.ofNat n = castUInt64 n := rfl
  rw [hcast]
  exact castInt64_castUInt64 (by omega) (by omega)

/-- A size that fits in an `int64_t` is the same in both types. -/
theorem toNat_of_castInt64 {size : UInt64} {n : ℕ} (h : castInt64 size = n) : size.toNat = n := by
  have hcast := BitVec.toInt_eq_toNat_cond size.toBitVec
  have hlt := size.toNat_lt
  have hnat : size.toBitVec.toNat = size.toNat := rfl
  rw [castInt64] at h
  rw [h, hnat] at hcast
  split_ifs at hcast <;> omega

theorem references_append (f : UInt64) (tables tables' : List SsTable) :
    references f (tables ++ tables') = references f tables ++ references f tables' := by
  rw [references, List.flatten_append, List.filter_append]
  rfl

theorem referencedSize_append (f : UInt64) (tables tables' : List SsTable) :
    referencedSize f (tables ++ tables') = referencedSize f tables + referencedSize f tables' := by
  rw [referencedSize, references_append, List.map_append, List.sum_append]
  rfl

theorem referencedSize_perm {f : UInt64} {tables tables' : List SsTable}
    (h : tables.Perm tables') : referencedSize f tables = referencedSize f tables' :=
  ((h.flatten.filter _).map _).sum_eq

/-- The collector sums the sizes of the references. -/
theorem getD_lookup_blobFilesSize (f : UInt64) (t : SsTable) :
    (t.blobFilesSize.lookup f).getD 0 = UInt64.ofNat (referencedSize f [t]) := by
  have hfold : ∀ (t : SsTable) (sizes : AList fun _ : UInt64 => UInt64),
      ((t.foldl addUserKey sizes).lookup f).getD 0 =
        (sizes.lookup f).getD 0 + UInt64.ofNat (referencedSize f [t]) := by
    intro t
    induction t with
    | nil =>
        intro sizes
        exact (UInt64.add_zero _).symm
    | cons index t ih =>
        intro sizes
        rw [List.foldl_cons, ih]
        by_cases hf : index.fileNumber = f
        · have hsize : referencedSize f [index :: t] =
              index.blobHandle.size.toNat + referencedSize f [t] := by
            simp [referencedSize, references, hf]
          have hadd : ((addUserKey sizes index).lookup f).getD 0 =
              (sizes.lookup f).getD 0 + index.blobHandle.size := by
            subst hf
            rw [addUserKey]
            cases sizes.lookup index.fileNumber with
            | none => simp
            | some size => simp
          rw [hadd, hsize, UInt64.ofNat_add, UInt64.ofNat_toNat, UInt64.add_assoc]
        · have hsize : referencedSize f [index :: t] = referencedSize f [t] := by
            simp [referencedSize, references, hf]
          have hadd : (addUserKey sizes index).lookup f = sizes.lookup f := by
            rw [addUserKey]
            split
            · exact AList.lookup_insert_ne (Ne.symm hf)
            · exact AList.lookup_insert_ne (Ne.symm hf)
          rw [hadd, hsize]
  have h := hfold t ∅
  rwa [AList.lookup_empty, Option.getD_none, UInt64.zero_add] at h

theorem getD_lookup_foldl_addSize (f : UInt64) (toAdd : Bool)
    (es : List ((_ : UInt64) × UInt64)) (hn : es.NodupKeys) (diff : SizeDiff) :
    ((es.foldl (SizeDiff.addSize toAdd) diff).lookup f).getD 0 = (diff.lookup f).getD 0 +
      (if toAdd then castInt64 ((es.dlookup f).getD 0) else -castInt64 ((es.dlookup f).getD 0)) := by
  have hzero : castInt64 0 = 0 := by decide
  induction es generalizing diff with
  | nil => simp [hzero]
  | cons e es ih =>
      obtain ⟨number, size⟩ := e
      obtain ⟨hnot, hn⟩ := List.nodupKeys_cons.mp hn
      rw [List.foldl_cons, ih hn]
      by_cases hf : f = number
      · subst hf
        rw [List.dlookup_eq_none.mpr hnot, List.dlookup_cons_eq, SizeDiff.addSize,
          AList.lookup_insert]
        simp [hzero]
      · rw [List.dlookup_cons_ne _ _ hf, SizeDiff.addSize, AList.lookup_insert_ne hf]

theorem getD_lookup_extract {f : UInt64} {t : SsTable} (toAdd : Bool) (diff : SizeDiff)
    (h : referencedSize f [t] < 2 ^ 63) :
    ((SizeDiff.extract toAdd diff t).lookup f).getD 0 = (diff.lookup f).getD 0 +
      if toAdd then (referencedSize f [t] : ℤ) else -(referencedSize f [t] : ℤ) := by
  have hsize : (t.blobFilesSize.entries.dlookup f).getD 0 = UInt64.ofNat (referencedSize f [t]) :=
    getD_lookup_blobFilesSize f t
  rw [SizeDiff.extract, getD_lookup_foldl_addSize f toAdd _ t.blobFilesSize.nodupKeys, hsize,
    castInt64_ofNat h]

theorem getD_lookup_foldl_extract {f : UInt64} (toAdd : Bool) (tables : List SsTable)
    (h : referencedSize f tables < 2 ^ 63) (diff : SizeDiff) :
    ((tables.foldl (SizeDiff.extract toAdd) diff).lookup f).getD 0 = (diff.lookup f).getD 0 +
      if toAdd then (referencedSize f tables : ℤ) else -(referencedSize f tables : ℤ) := by
  induction tables generalizing diff with
  | nil => simp [referencedSize, references]
  | cons t tables ih =>
      have hcons : referencedSize f (t :: tables) =
          referencedSize f [t] + referencedSize f tables := referencedSize_append f [t] tables
      rw [List.foldl_cons, ih (by omega), getD_lookup_extract toAdd diff (by omega), hcons]
      cases toAdd
      · simp only [Bool.false_eq_true, if_false]
        push_cast
        ring
      · simp only [if_true]
        push_cast
        ring

/-- The callback gets the difference of the change. -/
theorem getD_lookup_sizeDiff {f : UInt64} {c : TableChange}
    (hin : referencedSize f c.inputs < 2 ^ 63) (hout : referencedSize f c.outputs < 2 ^ 63) :
    (c.sizeDiff.lookup f).getD 0 = c.delta f := by
  rw [TableChange.sizeDiff, getD_lookup_foldl_extract true _ hout,
    getD_lookup_foldl_extract false _ hin, TableChange.delta, AList.lookup_empty,
    Option.getD_none]
  simp only [if_true, Bool.false_eq_true, if_false]
  ring

/-! ## What the changes do to the references -/

theorem referencedSize_inputs_le {f : UInt64} {tables : List SsTable} {c : TableChange}
    (h : c.inputs.Subperm tables) :
    referencedSize f c.inputs + referencedSize f (tables.diff c.inputs) =
      referencedSize f tables := by
  have hperm : (c.inputs ++ tables.diff c.inputs).Perm tables :=
    List.subperm_append_diff_self_of_count_le fun t _ => h.count_le t
  rw [← referencedSize_append]
  exact referencedSize_perm hperm

theorem referencedSize_apply {f : UInt64} {tables : List SsTable} {c : TableChange}
    (h : c.inputs.Subperm tables) :
    (referencedSize f (c.apply tables) : ℤ) = referencedSize f tables + c.delta f := by
  have hsplit : (referencedSize f (c.apply tables) : ℤ) =
      referencedSize f (tables.diff c.inputs) + referencedSize f c.outputs := by
    rw [TableChange.apply, referencedSize_append]
    push_cast
    rfl
  have hle := referencedSize_inputs_le (f := f) h
  rw [hsplit, TableChange.delta]
  omega

theorem sum_map_le_of_subperm {α : Type*} {l l' : List α} (g : α → ℕ) (h : l.Subperm l') :
    (l.map g).sum ≤ (l'.map g).sum := by
  obtain ⟨m, hperm, hsub⟩ := h
  rw [← (hperm.map g).sum_eq]
  exact (hsub.map g).sum_le_sum fun _ _ => Nat.zero_le _

/-- A compaction drops references, and the sizes it reports fit in an `int64_t` where the sizes of
the tables do. -/
theorem Compacts.delta_nonpos {f : UInt64} {tables : List SsTable} {c : TableChange}
    (h : Compacts f tables c) (hbound : referencedSize f tables < 2 ^ 63) :
    c.delta f ≤ 0 ∧ (c.sizeDiff.lookup f).getD 0 = c.delta f := by
  have hcarried : referencedSize f c.outputs ≤ referencedSize f c.inputs :=
    sum_map_le_of_subperm _ h.carried
  have hinputs := referencedSize_inputs_le (f := f) h.inputs
  refine ⟨?_, getD_lookup_sizeDiff (by omega) (by omega)⟩
  rw [TableChange.delta]
  omega

/-- The callback of a compaction that only drops references to the file. -/
structure Drops (f : UInt64) (c : TableChange) : Prop where
  compaction : ∃ outputLevel inputs outputs, c = .compaction outputLevel inputs outputs
  delta_nonpos : c.delta f ≤ 0
  lookup : (c.sizeDiff.lookup f).getD 0 = c.delta f

theorem Follow.drops {f : UInt64} {tables : List SsTable} {later : List TableChange}
    (h : Follow f tables later) (hbound : referencedSize f tables < 2 ^ 63) :
    ∀ c ∈ later, Drops f c := by
  induction later generalizing tables with
  | nil => exact fun c hc => (by cases hc)
  | cons c later ih =>
      obtain ⟨hc, hlater⟩ := h
      obtain ⟨hdelta, hlookup⟩ := hc.delta_nonpos hbound
      have happly := referencedSize_apply (f := f) hc.inputs
      intro c' hc'
      rcases List.mem_cons.mp hc' with rfl | hc'
      · exact ⟨hc.compaction, hdelta, hlookup⟩
      · exact ih hlater (by omega) c' hc'

theorem Follow.referencedSize_eq {f : UInt64} {tables : List SsTable} {later : List TableChange}
    (h : Follow f tables later) :
    (referencedSize f (later.foldl TableChange.apply tables) : ℤ) =
      referencedSize f tables + (later.map (TableChange.delta f)).sum := by
  induction later generalizing tables with
  | nil => simp
  | cons c later ih =>
      rw [List.foldl_cons, ih h.2, referencedSize_apply h.1.inputs, List.map_cons, List.sum_cons]
      ring

end AegonKV
