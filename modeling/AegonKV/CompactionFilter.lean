import AegonKV.BlobCache
import AegonKV.BlobIndexFormat

/-!
# The compaction filter

`TitanCompactionFilter::FilterV3` in front of the filter of the user. The slice it decodes an index
from is made of the data pointer of the stored value alone, so that it reaches to the first zero
byte in memory, wherever the value ends.
-/

namespace AegonKV
open LittleEndian

/-! ## Up to the first zero byte -/

def untilZero (bytes : Bytes) : Bytes := bytes.takeWhile (· ≠ 0)

/-- `Slice(const char*)` over the readable bytes from the pointer on. Without a zero byte among
them `strlen` runs out of the memory it may read. -/
def sliceOfPointer (readable : Bytes) : Option Bytes :=
  if 0 ∈ readable then some (untilZero readable) else none

theorem Varint.zero_mem_encode {fuel x : ℕ} (h : x < 128 ^ (fuel + 1)) :
    (0 : UInt8) ∈ Varint.encode fuel x ↔ x = 0 := by
  have hlast : ∀ y < 128, (0 : UInt8) ∈ [UInt8.ofNat y] ↔ y = 0 := by
    intro y hy
    rw [List.mem_singleton, eq_comm, ← UInt8.toNat_inj, UInt8.toNat_ofNat', UInt8.toNat_zero]
    omega
  induction fuel generalizing x with
  | zero => exact hlast x (by omega)
  | succ fuel ih =>
      rw [Varint.encode]
      split_ifs with hshort
      · exact hlast x hshort
      · have hdiv : x / 128 < 128 ^ (fuel + 1) := by
          rw [Nat.div_lt_iff_lt_mul (by omega)]
          rwa [pow_succ] at h
        have hmore : (0 : UInt8) ≠ UInt8.ofNat (x % 128 + 128) := by
          intro hzero
          have := congrArg UInt8.toNat hzero
          rw [UInt8.toNat_zero, UInt8.toNat_ofNat'] at this
          omega
        rw [List.mem_cons, or_iff_right hmore]
        exact (ih hdiv).trans (by omega)

theorem zero_mem_putVarint64 (v : UInt64) : (0 : UInt8) ∈ putVarint64 v ↔ v = 0 := by
  have hlt : v.toNat < 128 ^ (9 + 1) := v.toNat_lt.trans (by norm_num)
  rw [putVarint64, Varint.zero_mem_encode hlt, ← UInt64.toNat_inj, UInt64.toNat_zero]

/-- A varint in front is kept whole, or it is a zero and nothing is left. -/
theorem untilZero_putVarint64 (v : UInt64) (rest : Bytes) :
    untilZero (putVarint64 v ++ rest) = if v = 0 then [] else putVarint64 v ++ untilZero rest := by
  split_ifs with hv
  · subst hv
    rfl
  · refine List.takeWhile_append_of_pos fun b hb => ?_
    rw [decide_eq_true_eq]
    intro hzero
    exact hv ((zero_mem_putVarint64 v).mp (hzero ▸ hb))

theorem getVarint64_untilZero (v : UInt64) (rest : Bytes) :
    getVarint64 (untilZero (putVarint64 v ++ rest)) =
      if v = 0 then none else some (v, untilZero rest) := by
  rw [untilZero_putVarint64]
  split_ifs
  · rfl
  · exact getVarint64_putVarint64 v _

namespace BlobIndexType

/-- No field is zero, so that no byte of the encoding is. -/
def NoZero (p : BlobIndexType) : Prop :=
  p.fileNumber ≠ 0 ∧ p.offset ≠ 0 ∧ p.size ≠ 0 ∧ p.index ≠ 0

instance (p : BlobIndexType) : Decidable p.NoZero :=
  inferInstanceAs (Decidable (_ ∧ _ ∧ _ ∧ _))

theorem get_untilZero (p : BlobIndexType) (rest : Bytes) :
    get (untilZero (p.put ++ rest)) = if p.NoZero then some (p, untilZero rest) else none := by
  simp only [put, List.append_assoc, get]
  rw [getVarint64_untilZero]
  by_cases hfile : p.fileNumber = 0
  · rw [if_pos hfile, if_neg fun h : p.NoZero => h.1 hfile]
    rfl
  rw [if_neg hfile, Option.bind_eq_bind, Option.bind_some]
  dsimp only
  rw [getVarint64_untilZero]
  by_cases hoffset : p.offset = 0
  · rw [if_pos hoffset, if_neg fun h : p.NoZero => h.2.1 hoffset]
    rfl
  rw [if_neg hoffset, Option.bind_some]
  dsimp only
  rw [getVarint64_untilZero]
  by_cases hsize : p.size = 0
  · rw [if_pos hsize, if_neg fun h : p.NoZero => h.2.2.1 hsize]
    rfl
  rw [if_neg hsize, Option.bind_some]
  dsimp only
  rw [getVarint64_untilZero]
  by_cases hindex : p.index = 0
  · rw [if_pos hindex, if_neg fun h : p.NoZero => h.2.2.2 hindex]
    rfl
  have hnone : p.NoZero := ⟨hfile, hoffset, hsize, hindex⟩
  rw [if_neg hindex, Option.bind_some, if_pos hnone]
  rfl

def withOld (p o : BlobIndexType) : BlobIndex where
  fileNumber := p.fileNumber
  blobHandle := ⟨p.offset, p.size, p.index⟩
  oldFileNumber := o.fileNumber
  oldBlobHandle := ⟨o.offset, o.size, o.index⟩

end BlobIndexType

theorem BlobHandle.decodeFrom_toOption (src : Bytes) :
    (BlobHandle.decodeFrom src).toOption = do
      let (offset, src) ← getVarint64 src
      let (size, src) ← getVarint64 src
      let (index, src) ← getVarint64 src
      return (⟨offset, size, index⟩, src) := by
  unfold BlobHandle.decodeFrom
  split
  · rename_i hnone
    exact hnone.symm
  · rename_i r hsome
    exact hsome.symm

theorem BlobIndexType.get_eq_bind (src : Bytes) :
    BlobIndexType.get src = (getVarint64 src).bind fun file =>
      (BlobHandle.decodeFrom file.2).toOption.map fun handle =>
        (⟨file.1, handle.1.offset, handle.1.size, handle.1.index⟩, handle.2) := by
  rw [BlobIndexType.get]
  cases getVarint64 src with
  | none => rfl
  | some file =>
      simp only [BlobHandle.decodeFrom_toOption, Option.bind_eq_bind, Option.bind_some]
      cases getVarint64 file.2 with
      | none => rfl
      | some offset =>
          simp only [Option.bind_some]
          cases getVarint64 offset.2 with
          | none => rfl
          | some size =>
              simp only [Option.bind_some]
              cases getVarint64 size.2 with
              | none => rfl
              | some index => rfl

/-- What `DecodeFrom` finds, in terms of the two parts. -/
theorem BlobIndex.decodeFrom_toOption (src : Bytes) :
    (BlobIndex.decodeFrom src).toOption =
      (BlobIndexType.getTagged src).bind fun new =>
        if new.2.isEmpty then some (new.1.toIndex, new.2)
        else (BlobIndexType.get new.2).map fun old => (new.1.withOld old.1, old.2) := by
  rw [BlobIndexType.getTagged, BlobIndex.decodeFrom]
  cases getChar src with
  | none => rfl
  | some type =>
      simp only [Option.bind_eq_bind, Option.bind_some]
      by_cases htype : type.1 ≠ BlobIndex.kBlobRecord
      · have htag : type.1 ≠ 1 := htype
        rw [if_pos htype, if_pos htag]
        rfl
      have htag : ¬type.1 ≠ 1 := htype
      rw [if_neg htype, if_neg htag, BlobIndexType.get_eq_bind]
      cases getVarint64 type.2 with
      | none => rfl
      | some file =>
          simp only [Option.bind_some]
          cases BlobHandle.decodeFrom file.2 with
          | error s => rfl
          | ok handle =>
              simp only [Except.toOption, Option.map_some, Option.bind_some]
              by_cases hempty : handle.2.isEmpty = true
              · rw [if_pos hempty, if_pos hempty]
                rfl
              rw [if_neg hempty, if_neg hempty, BlobIndexType.get_eq_bind]
              cases getVarint64 handle.2 with
              | none => rfl
              | some oldFile =>
                  simp only [Option.bind_some]
                  cases BlobHandle.decodeFrom oldFile.2 with
                  | error s => rfl
                  | ok oldHandle => rfl

/-! ## What the slice of the pointer decodes to -/

/-- The fields of the index are not cut off: none of them is zero, a zero byte stands somewhere
behind the value, and no other old part stands before it. -/
def Delimited (b : BlobIndex) (behind : Bytes) : Prop :=
  b.newPart.NoZero ∧ 0 ∈ behind ∧
    if b.oldFileNumber > 0 then b.oldPart.NoZero
    else untilZero behind = [] ∨
      ∃ rest, BlobIndexType.get (untilZero behind) = some (⟨0, 0, 0, 0⟩, rest)

theorem BlobIndexType.getTagged_untilZero (p : BlobIndexType) (rest : Bytes) :
    BlobIndexType.getTagged (untilZero (1 :: p.put ++ rest)) =
      if p.NoZero then some (p, untilZero rest) else none := by
  rw [← BlobIndexType.get_untilZero]
  rfl

theorem BlobIndexType.not_zero_mem {p : BlobIndexType} : 0 ∉ p.put ↔ p.NoZero := by
  simp only [put, List.mem_append, zero_mem_putVarint64, not_or, NoZero, and_assoc, ne_eq]

/-- What is decoded of an index with an old part. -/
theorem decoded_of_old {b : BlobIndex} (hold : b.oldFileNumber > 0) (behind : Bytes) :
    (BlobIndex.decodeFrom (untilZero (b.encodeTo ++ behind))).toOption =
      if b.newPart.NoZero ∧ b.oldPart.NoZero then some (b, untilZero behind) else none := by
  have hzero : b.oldPart.fileNumber ≠ 0 := by
    intro hz
    change b.oldFileNumber = 0 at hz
    rw [hz] at hold
    exact absurd hold (by decide)
  have hkept : (untilZero (b.oldPart.put ++ behind)).isEmpty = false := by
    rw [List.isEmpty_eq_false_iff, BlobIndexType.put, List.append_assoc, List.append_assoc,
      List.append_assoc, untilZero_putVarint64, if_neg hzero]
    exact List.append_ne_nil_of_left_ne_nil (BlobIndex.putVarint64_ne_nil _) _
  rw [BlobIndex.encodeTo_of_old hold, List.append_assoc, BlobIndex.decodeFrom_toOption,
    BlobIndexType.getTagged_untilZero]
  by_cases hnew : b.newPart.NoZero
  · rw [if_pos hnew, Option.bind_some, hkept, if_neg Bool.false_ne_true,
      BlobIndexType.get_untilZero]
    by_cases hparts : b.oldPart.NoZero
    · rw [if_pos hparts, if_pos ⟨hnew, hparts⟩]
      rfl
    · rw [if_neg hparts, if_neg fun h => hparts h.2]
      rfl
  · rw [if_neg hnew, if_neg fun h => hnew h.1]
    rfl

/-- What is decoded of an index without one. -/
theorem decoded_of_plain {b : BlobIndex} (hold : ¬b.oldFileNumber > 0) (behind : Bytes) :
    (BlobIndex.decodeFrom (untilZero (b.encodeTo ++ behind))).toOption =
      if b.newPart.NoZero then
        if (untilZero behind).isEmpty then some (b.newIndex, untilZero behind)
        else (BlobIndexType.get (untilZero behind)).map fun old =>
          (b.newPart.withOld old.1, old.2)
      else none := by
  rw [BlobIndex.encodeTo_of_plain hold, BlobIndex.decodeFrom_toOption,
    BlobIndexType.getTagged_untilZero]
  by_cases hnew : b.newPart.NoZero
  · rw [if_pos hnew, if_pos hnew]
    rfl
  · rw [if_neg hnew, if_neg hnew]
    rfl

/-! ## `FilterV3` -/

namespace CompactionFilter

inductive ValueType
  | kValue | kMergeOperand | kBlobIndex
  deriving DecidableEq, Repr

inductive Decision
  | kKeep | kRemove | kChangeValue | kRemoveAndSkipUntil | kChangeBlobIndex | kIOError
  | kUndetermined
  deriving DecidableEq, Repr

structure Call where
  level : ℤ
  key : Bytes
  seqno : UInt64
  valueType : ValueType
  value : Bytes
  deriving DecidableEq, Repr

/-- The decision, with what was written to `new_value` and to `skip_until`. -/
structure Output where
  decision : Decision
  newValue : Option Bytes := none
  skipUntil : Option Bytes := none
  deriving DecidableEq, Repr

/-- What one call of the filter did: its answer, the index it decoded, the calls of the original
filter and the status handed to `SetBGError`. -/
structure Run where
  output : Output
  decoded : Option BlobIndex := none
  calls : List Call := []
  bgError : Option Status := none
  deriving DecidableEq, Repr

end CompactionFilter

open CompactionFilter

/-- The filter: the files of its blob storage, opened where they can be, and the original filter. -/
structure TitanCompactionFilter where
  files : UInt64 → Option (Except Status CachedReader)
  uncompress : Bytes → UInt8 → Bytes → Except Status Bytes
  originalFilter : Call → Output
  skipValue : Bool

namespace TitanCompactionFilter

/-- `BlobStorage::Get`. -/
def storageGet (f : TitanCompactionFilter) (index : BlobIndex) : Except Status BlobRecord :=
  match f.files index.fileNumber with
  | none => .error (.corruption ("Missing blob file: " ++ toString index.fileNumber))
  | some (.error s) => .error s
  | some (.ok reader) => (reader.get f.uncompress index.blobHandle).1

/-- `FilterV3` behind the index. -/
def filterDecoded (f : TitanCompactionFilter) (call : Call) (blobIndex : BlobIndex) : Run :=
  match f.storageGet blobIndex with
  | .error s =>
    { output := { decision := .kKeep }
      decoded := some blobIndex
      bgError := if s.code = .corruption then none else some s }
  | .ok record =>
    let call := { call with valueType := .kValue, value := record.value }
    let output := f.originalFilter call
    if output.decision = .kChangeValue then
      { output := { output with decision := .kKeep }
        decoded := some blobIndex
        calls := [call]
        bgError := some { code := .notSupported, msg := "It would be a problem if it change the " ++
          "value whereas the value_type is still kBlobIndex." } }
    else { output := output, decoded := some blobIndex, calls := [call] }

/-- `FilterV3` on a value with these readable bytes behind it. -/
def filterV3 (f : TitanCompactionFilter) (call : Call) (behind : Bytes) : Option Run :=
  if f.skipValue then
    let call := { call with value := [] }
    some { output := f.originalFilter call, calls := [call] }
  else if call.valueType ≠ .kBlobIndex then
    some { output := f.originalFilter call, calls := [call] }
  else
    (sliceOfPointer (call.value ++ behind)).map fun originalValue =>
      match BlobIndex.decodeFrom originalValue with
      | .error s => { output := { decision := .kKeep }, bgError := some s }
      | .ok (blobIndex, _) => f.filterDecoded call blobIndex

def keptDecision : Decision → Decision
  | .kChangeValue => .kKeep
  | decision => decision

/-- The filter decodes this index, hands the value of this record to the original filter and
returns what is left of its decision. -/
def SeesValue (f : TitanCompactionFilter) (call : Call) (behind : Bytes) (index : BlobIndex)
    (record : BlobRecord) : Prop :=
  let original := { call with valueType := .kValue, value := record.value }
  ∃ run, f.filterV3 call behind = some run ∧ run.decoded = some index ∧ run.calls = [original] ∧
    run.output.decision = keptDecision (f.originalFilter original).decision

variable {f : TitanCompactionFilter} {call : Call} {behind : Bytes} {index : BlobIndex}
  {record : BlobRecord}

theorem decoded_filterDecoded : (f.filterDecoded call index).decoded = some index := by
  unfold filterDecoded
  split
  · rfl
  · dsimp only
    split_ifs
    · rfl
    · rfl

/-- Behind the index everything is right where the record can be read. -/
theorem filterDecoded_of_read (hread : f.storageGet index = .ok record) :
    (f.filterDecoded call index).calls =
        [{ call with valueType := .kValue, value := record.value }] ∧
      (f.filterDecoded call index).output.decision = keptDecision
        (f.originalFilter { call with valueType := .kValue, value := record.value }).decision := by
  unfold filterDecoded
  rw [hread]
  dsimp only
  split_ifs with hchange
  · rw [hchange]
    exact ⟨rfl, rfl⟩
  · refine ⟨rfl, ?_⟩
    revert hchange
    cases (f.originalFilter { call with valueType := .kValue, value := record.value }).decision with
    | kChangeValue => exact fun hchange => absurd rfl hchange
    | _ => exact fun _ => rfl

/-- The filter sees a value that can be read exactly where it decodes the index of it. -/
theorem seesValue_iff_decoded (hskip : f.skipValue = false) (htype : call.valueType = .kBlobIndex)
    (hread : f.storageGet index = .ok record) :
    f.SeesValue call behind index record ↔
      0 ∈ call.value ++ behind ∧
        (BlobIndex.decodeFrom (untilZero (call.value ++ behind))).toOption.map Prod.fst =
          some index := by
  have htype' : ¬call.valueType ≠ .kBlobIndex := not_not_intro htype
  rw [SeesValue, filterV3, hskip, if_neg Bool.false_ne_true, if_neg htype', sliceOfPointer]
  by_cases hzero : 0 ∈ call.value ++ behind
  · rw [if_pos hzero, and_iff_right hzero, Option.map_some]
    cases hdecode : BlobIndex.decodeFrom (untilZero (call.value ++ behind)) with
    | error s =>
        refine iff_of_false ?_ fun hnone => (by cases hnone)
        rintro ⟨run, hrun, hdecoded, -⟩
        obtain rfl := Option.some.inj hrun
        cases hdecoded
    | ok r =>
        simp only [Except.toOption, Option.map_some, Option.some.injEq]
        constructor
        · rintro ⟨run, rfl, hdecoded, -⟩
          rw [decoded_filterDecoded] at hdecoded
          exact Option.some.inj hdecoded
        · rintro rfl
          exact ⟨_, rfl, decoded_filterDecoded, filterDecoded_of_read hread⟩
  · rw [if_neg hzero]
    refine iff_of_false ?_ fun h => hzero h.1
    rintro ⟨run, hrun, -⟩
    cases hrun

theorem withOld_newPart_eq_iff {b : StoredIndex} (hold : ¬b.oldFileNumber > 0)
    (o : BlobIndexType) : b.newPart.withOld o = b.toBlobIndex ↔ o = ⟨0, 0, 0, 0⟩ := by
  rw [← StoredIndex.newIndex_of_plain hold]
  obtain ⟨fileNumber, offset, size, index⟩ := o
  simp only [BlobIndexType.withOld, BlobIndex.newPart, BlobIndex.newIndex, BlobIndex.mk.injEq,
    BlobHandle.mk.injEq, BlobIndexType.mk.injEq, true_and]

/-- With `skip_value` off the filter sees the value of a stored index, whatever it says and
whatever stands behind it in memory, exactly where the index is delimited. -/
theorem seesValue_iff (f : TitanCompactionFilter) (b : StoredIndex) (behind : Bytes) (level : ℤ)
    (key : Bytes) (seqno : UInt64) (record : BlobRecord) (hskip : f.skipValue = false)
    (hread : f.storageGet b.toBlobIndex = .ok record) :
    f.SeesValue ⟨level, key, seqno, .kBlobIndex, b.encodeTo⟩ behind b.toBlobIndex record ↔
      Delimited b.toBlobIndex behind := by
  have hone : (0 : UInt8) ≠ 1 := by decide
  rw [seesValue_iff_decoded hskip rfl hread, Delimited]
  dsimp only
  by_cases hold : b.oldFileNumber > 0
  · rw [decoded_of_old hold, if_pos hold]
    by_cases hparts : b.newPart.NoZero ∧ b.oldPart.NoZero
    · have hzero : 0 ∈ b.encodeTo ++ behind ↔ 0 ∈ behind := by
        rw [BlobIndex.encodeTo_of_old hold, List.cons_append, List.cons_append, List.mem_cons,
          List.mem_append, List.mem_append, or_iff_right hone,
          or_iff_right (not_or.mpr ⟨BlobIndexType.not_zero_mem.mpr hparts.1,
            BlobIndexType.not_zero_mem.mpr hparts.2⟩)]
      rw [if_pos hparts, hzero, and_iff_right hparts.1, and_iff_left hparts.2, Option.map_some]
      exact and_iff_left rfl
    · rw [if_neg hparts]
      exact iff_of_false (fun h => (by cases h.2)) fun h => hparts ⟨h.1, h.2.2⟩
  · rw [decoded_of_plain hold, if_neg hold]
    by_cases hnew : b.newPart.NoZero
    · have hzero : 0 ∈ b.encodeTo ++ behind ↔ 0 ∈ behind := by
        rw [BlobIndex.encodeTo_of_plain hold, List.cons_append, List.mem_cons, List.mem_append,
          or_iff_right hone, or_iff_right (BlobIndexType.not_zero_mem.mpr hnew)]
      rw [if_pos hnew, hzero, and_iff_right hnew]
      refine and_congr_right fun _ => ?_
      by_cases hempty : untilZero behind = []
      · rw [hempty, StoredIndex.newIndex_of_plain hold]
        exact iff_of_true rfl (Or.inl rfl)
      · rw [if_neg (mt List.isEmpty_iff.mp hempty), or_iff_right hempty]
        cases BlobIndexType.get (untilZero behind) with
        | none =>
            refine iff_of_false (fun h => by cases h) ?_
            rintro ⟨rest, hget⟩
            cases hget
        | some old =>
            simp only [Option.map_some, Option.some.injEq, withOld_newPart_eq_iff hold]
            constructor
            · intro hzeros
              exact ⟨old.2, Prod.ext hzeros rfl⟩
            · rintro ⟨rest, rfl⟩
              rfl
    · rw [if_neg hnew]
      exact iff_of_false (fun h => (by cases h.2)) fun h => hnew h.1

/-- A filter over one cached record, which keeps everything. -/
def cachedFilter (blob : Bytes) : TitanCompactionFilter where
  files := fun _ => some (.ok ⟨⟨[], {}⟩, [], some fun _ => some blob⟩)
  uncompress := fun _ _ _ => .ok []
  originalFilter := fun _ => { decision := .kKeep }
  skipValue := false

/-- The second record of a file, in a block with a zero behind it. -/
def secondRecord : StoredIndex where
  fileNumber := 1
  blobHandle := ⟨42, 30, 1⟩
  old_absent := fun _ => rfl

def firstRecord : StoredIndex where
  fileNumber := 1
  blobHandle := ⟨12, 30, 0⟩
  old_absent := fun _ => rfl

theorem seesValue_secondRecord :
    (cachedFilter [1, 107, 1, 118]).SeesValue ⟨1, [107], 5, .kBlobIndex, secondRecord.encodeTo⟩ [0]
        secondRecord.toBlobIndex ⟨[107], [118]⟩ ↔
      Delimited secondRecord.toBlobIndex [0] :=
  seesValue_iff _ secondRecord [0] 1 [107] 5 ⟨[107], [118]⟩ rfl rfl

/-- The index of the first record ends in a zero byte and is cut off before it. A zero byte that
does not come right behind the other one makes an old part of what stands in between. -/
theorem not_seesValue_firstRecord :
    (cachedFilter [1, 107, 1, 118]).storageGet firstRecord.toBlobIndex = .ok ⟨[107], [118]⟩ ∧
    ¬(cachedFilter [1, 107, 1, 118]).SeesValue ⟨1, [107], 5, .kBlobIndex, firstRecord.encodeTo⟩ [0]
      firstRecord.toBlobIndex ⟨[107], [118]⟩ ∧
    ¬(cachedFilter [1, 107, 1, 118]).SeesValue ⟨1, [107], 5, .kBlobIndex, secondRecord.encodeTo⟩
      [9, 9, 9, 9, 0] secondRecord.toBlobIndex ⟨[107], [118]⟩ := by
  have hone : ¬((cachedFilter [1, 107, 1, 118]).filterV3
      ⟨1, [107], 5, .kBlobIndex, firstRecord.encodeTo⟩ [0]).bind Run.decoded =
        some firstRecord.toBlobIndex := by decide
  have htwo : ¬((cachedFilter [1, 107, 1, 118]).filterV3
      ⟨1, [107], 5, .kBlobIndex, secondRecord.encodeTo⟩ [9, 9, 9, 9, 0]).bind Run.decoded =
        some secondRecord.toBlobIndex := by decide
  refine ⟨rfl, ?_, ?_⟩
  · rintro ⟨run, hrun, hdecoded, -⟩
    exact hone (by rw [hrun]; exact hdecoded)
  · rintro ⟨run, hrun, hdecoded, -⟩
    exact htwo (by rw [hrun]; exact hdecoded)

end TitanCompactionFilter
end AegonKV
