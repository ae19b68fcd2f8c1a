import AegonKV.OffloadedBitmaps
import AegonKV.VersionEditFormat

/-!
# Blob files with their bitmaps

`BlobFileMeta` as a storage holds it: the fields of the record and the bits of the invalid entries.
The constructor that the builders use and `DecodeFrom` make a bitmap of the size of the entry count.
`DecodeFromLegacy` has no entry count to read and leaves the file without a bitmap.
-/

namespace AegonKV
open LittleEndian PrefixReader

structure TrackedFile where
  file : BlobFileMeta
  /-- `invalid_entry_indexes_`. -/
  invalidEntryIndexes : Option BitMap

namespace TrackedFile

def new (file : BlobFileMeta) : TrackedFile := ⟨file, some (BitMap.new file.fileEntries.toNat)⟩

/-- `UpdateInvalidEntryIndexes`; `none` where a null pointer is dereferenced. -/
def updateInvalidEntryIndexes (t : TrackedFile) (invalidBits : BitMap) :
    Option (Except Status TrackedFile) :=
  t.invalidEntryIndexes.map fun bits =>
    (bits.bitOps .kBitOr invalidBits).map fun bits => { t with invalidEntryIndexes := some bits }

def copyInvalidEntryIndexesTo (t : TrackedFile) (dest : Option BitMap) :
    Option (Except Status BitMap) :=
  t.invalidEntryIndexes.map fun bits => bits.copyTo dest

structure Sized (t : TrackedFile) (n : ℕ) : Prop where
  present : ∃ bits, t.invalidEntryIndexes = some bits ∧ bits.validBits = t.file.fileEntries.toNat
  entries : t.file.fileEntries.toNat = n

/-- What the callbacks and the jobs do with the file without a check works for every one of its `n`
records. -/
structure Usable (t : TrackedFile) (n : ℕ) : Prop where
  sized : t.Sized n
  update : ∀ indexes : List UInt64, (∀ i ∈ indexes, i.toNat < n) →
    ∃ invalid, InvalidEntries.setBits (BitMap.new t.file.fileEntries.toNat) indexes 1 = some invalid ∧
      ∃ t', t.updateInvalidEntryIndexes invalid = some (.ok t')
  copy : ∃ bits, t.copyInvalidEntryIndexesTo none = some (.ok bits) ∧
    ∀ i < n, ∃ b, bits.getBit i = .ok b

theorem sized_new {file : BlobFileMeta} {n : ℕ} (h : file.fileEntries.toNat = n) :
    (new file).Sized n :=
  ⟨⟨_, rfl, rfl⟩, h⟩

theorem setBits_ok {on : ℕ} {indexes : List UInt64} {bm : BitMap} (hon : on ≤ 1)
    (h : ∀ i ∈ indexes, i.toNat ≤ bm.validBits) :
    ∃ bm', InvalidEntries.setBits bm indexes on = some bm' ∧ bm'.validBits = bm.validBits := by
  induction indexes generalizing bm with
  | nil => exact ⟨bm, rfl, rfl⟩
  | cons i indexes ih =>
      have hi := h i List.mem_cons_self
      obtain ⟨mid, hmid⟩ : ∃ mid, bm.setBit i.toNat on = .ok mid := by
        rw [BitMap.setBit, if_neg (by omega)]
        split_ifs
        · exact ⟨_, rfl⟩
        · exact ⟨_, rfl⟩
      have hsame := (BitMap.setBit_spec hmid).1
      obtain ⟨bm', hset, hvalid⟩ := ih fun j hj => hsame ▸ h j (List.mem_cons_of_mem _ hj)
      refine ⟨bm', ?_, hvalid.trans hsame⟩
      rw [InvalidEntries.setBits, List.foldlM_cons, hmid]
      exact hset

theorem Sized.usable {t : TrackedFile} {n : ℕ} (h : t.Sized n) : t.Usable n := by
  obtain ⟨bits, hbits, hvalid⟩ := h.present
  refine ⟨h, fun indexes hindexes => ?_, bits, ?_, fun i hi => ?_⟩
  · obtain ⟨invalid, hset, hsame⟩ := @setBits_ok 1 indexes (BitMap.new t.file.fileEntries.toNat) le_rfl
      fun i hi => (hindexes i hi).le.trans h.entries.ge
    refine ⟨invalid, hset, ?_⟩
    have hmatch : ¬bits.validBits ≠ invalid.validBits := not_not.mpr (hvalid.trans hsame.symm)
    rw [updateInvalidEntryIndexes, hbits, Option.map_some, BitMap.bitOps, dif_neg hmatch]
    exact ⟨_, rfl⟩
  · rw [copyInvalidEntryIndexesTo, hbits, Option.map_some, BitMap.copyTo]
  · have hrange : ¬i > bits.validBits := by
      rw [hvalid, h.entries]
      omega
    rw [BitMap.getBit, if_neg hrange]
    exact ⟨_, rfl⟩

/-- Updates leave the size of the bitmap. -/
theorem Sized.updated {t t' : TrackedFile} {n : ℕ} {invalidBits : BitMap} (h : t.Sized n)
    (hupdate : t.updateInvalidEntryIndexes invalidBits = some (.ok t')) :
    t'.Sized n ∧ t'.file = t.file := by
  obtain ⟨bits, hbits, hvalid⟩ := h.present
  rw [updateInvalidEntryIndexes, hbits, Option.map_some] at hupdate
  cases hor : bits.bitOps .kBitOr invalidBits with
  | error s =>
      rw [hor] at hupdate
      cases hupdate
  | ok bits' =>
      rw [hor] at hupdate
      obtain rfl := Except.ok.inj (Option.some.inj hupdate)
      exact ⟨⟨⟨bits', rfl, (BitMap.bitOps_or_spec hor).1.trans hvalid⟩, h.entries⟩, rfl⟩

/-- A file from a legacy record cannot be used. -/
theorem not_usable_of_null {t : TrackedFile} (h : t.invalidEntryIndexes = none) (n : ℕ) :
    ¬t.Usable n := by
  rintro ⟨⟨⟨bits, hbits, -⟩, -⟩, -, -⟩
  cases h.symm.trans hbits

end TrackedFile

/-! ## The files that a record makes -/

def Field.object : Field → Option (UInt64 × TrackedFile)
  | .addedBlobFile file => some (file.1, ⟨file.2, none⟩)
  | .addedBlobFileV2 file => some (file.1, .new file.2)
  | _ => none

def readFields : ℕ → Bytes → List Field
  | 0, _ => []
  | fuel + 1, src =>
    if src.isEmpty then []
    else
      match getField src with
      | none => []
      | some (field, src) => field :: readFields fuel src

/-- The files that a record adds, as `DecodeFrom` makes them. -/
def recordObjects (record : Bytes) : List (UInt64 × TrackedFile) :=
  (readFields record.length record).filterMap Field.object

theorem getField_length {src rest : Bytes} {field : Field} (h : getField src = some (field, rest)) :
    rest.length < src.length := by
  obtain ⟨ts, himage, rfl⟩ := (reads_getField src field rest).mp h
  exact VersionEdit.decodeField_length
    ((@VersionEdit.decodeField_eq_ok_iff ⟨0, none, [], []⟩ _ _ _).mpr ⟨field, ts, himage, rfl, rfl⟩)

theorem readFields_fuel {fuel fuel' : ℕ} {src : Bytes} (h : src.length ≤ fuel)
    (h' : src.length ≤ fuel') : readFields fuel src = readFields fuel' src := by
  induction fuel generalizing fuel' src with
  | zero =>
      obtain rfl : src = [] := List.length_eq_zero_iff.mp (by omega)
      cases fuel' with
      | zero => rfl
      | succ fuel' => rfl
  | succ fuel ih =>
      cases fuel' with
      | zero =>
          obtain rfl : src = [] := List.length_eq_zero_iff.mp (by omega)
          rfl
      | succ fuel' =>
          rw [readFields, readFields]
          split_ifs
          · rfl
          · cases hfield : getField src with
            | none => rfl
            | some p =>
                have hlt := getField_length hfield
                exact congrArg (p.1 :: ·) (ih (by omega) (by omega))

/-- A round of the loop. -/
theorem readFields_cons {src rest : Bytes} {field : Field} (h : getField src = some (field, rest)) :
    readFields src.length src = field :: readFields rest.length rest := by
  have hlt := getField_length h
  cases src with
  | nil => cases hlt
  | cons b src =>
      have hlen : rest.length ≤ src.length := Nat.le_of_lt_succ hlt
      rw [List.length_cons, readFields, List.isEmpty_cons, if_neg Bool.false_ne_true, h]
      exact congrArg (field :: ·) (readFields_fuel hlen le_rfl)

theorem addedFiles_store (edit : VersionEdit BlobFileMeta) (field : Field) :
    (field.store edit).addedFiles =
      edit.addedFiles ++ (field.object.toList.map fun file => (file.1, file.2.file)) := by
  cases field with
  | nextFileNumber n => exact (List.append_nil _).symm
  | columnFamilyId cf => exact (List.append_nil _).symm
  | addedBlobFile file => rfl
  | addedBlobFileV2 file => rfl
  | deletedBlobFile number => exact (List.append_nil _).symm

theorem addedFiles_decodeLoop {fuel : ℕ} {edit edit' : VersionEdit BlobFileMeta} {src : Bytes}
    (h : VersionEdit.decodeLoop fuel edit src = .ok edit') :
    edit'.addedFiles = edit.addedFiles ++
      ((readFields fuel src).filterMap Field.object).map fun file => (file.1, file.2.file) := by
  induction fuel generalizing edit src with
  | zero =>
      obtain rfl := Except.ok.inj h
      exact (List.append_nil _).symm
  | succ fuel ih =>
      rw [VersionEdit.decodeLoop] at h
      rw [readFields]
      split_ifs at h ⊢
      · obtain rfl := Except.ok.inj h
        exact (List.append_nil _).symm
      · have hround := VersionEdit.decodeField_toOption edit src
        cases hfield : VersionEdit.decodeField edit src with
        | error e =>
            rw [hfield] at h
            cases h
        | ok p =>
            rw [hfield] at h hround
            obtain ⟨⟨field, rest⟩, hget, hp⟩ := Option.map_eq_some_iff.mp hround.symm
            obtain rfl := hp
            rw [hget, ih h, addedFiles_store]
            dsimp only
            cases hobject : field.object with
            | none => rw [List.filterMap_cons_none hobject, Option.toList_none, List.map_nil, List.append_nil]
            | some file =>
                rw [List.filterMap_cons_some hobject, Option.toList_some, List.map_singleton,
                  List.append_assoc]
                rfl

/-- What `DecodeFrom` adds to the edit are the objects of its fields. -/
theorem addedFiles_eq_recordObjects {record : Bytes} {edit : VersionEdit BlobFileMeta}
    (h : VersionEdit.decodeFrom record = .ok edit) :
    edit.addedFiles = (recordObjects record).map fun file => (file.1, file.2.file) := by
  rw [VersionEdit.decodeFrom] at h
  cases hloop : VersionEdit.decodeLoop record.length ⟨0, none, [], []⟩ record with
  | error e =>
      rw [hloop] at h
      cases h
  | ok edit' =>
      rw [hloop] at h
      obtain rfl := Except.ok.inj h
      exact addedFiles_decodeLoop hloop

/-! ## The records of this version -/

theorem getField_put {tag : UInt32} {value rest : Bytes} {field : Field}
    (h : getValue tag (value ++ rest) = some (field, rest)) :
    getField (putVarint32 tag ++ value ++ rest) = some (field, rest) := by
  rw [getField, List.append_assoc, getVarint32_putVarint32]
  exact h

theorem getField_encodeAdded (file : UInt64 × BlobFileMeta) (rest : Bytes) :
    getField (VersionEdit.encodeAdded file ++ rest) =
      some (.addedBlobFileV2 (file.1, file.2.persistent), rest) := by
  refine getField_put ?_
  change (getMeta _).map _ = _
  rw [getMeta, BlobFileMeta.decodeFrom_encodeTo]
  rfl

theorem getField_encodeDeleted (file : UInt64 × ℕ) (rest : Bytes) :
    getField (VersionEdit.encodeDeleted file ++ rest) = some (.deletedBlobFile file.1, rest) := by
  refine getField_put ?_
  change (getVarint64 _).map _ = _
  rw [getVarint64_putVarint64]
  rfl

theorem recordObjects_cons {src rest : Bytes} {field : Field} (h : getField src = some (field, rest)) :
    recordObjects src = field.object.toList ++ recordObjects rest := by
  rw [recordObjects, readFields_cons h]
  cases hobject : field.object with
  | none => rw [List.filterMap_cons_none hobject]; rfl
  | some file => rw [List.filterMap_cons_some hobject]; rfl

theorem recordObjects_deleted (files : List (UInt64 × ℕ)) :
    recordObjects (files.flatMap VersionEdit.encodeDeleted) = [] := by
  induction files with
  | nil => rfl
  | cons file files ih =>
      rw [List.flatMap_cons, recordObjects_cons (getField_encodeDeleted file _), ih]
      rfl

theorem recordObjects_added (files : List (UInt64 × BlobFileMeta)) (rest : Bytes) :
    recordObjects (files.flatMap VersionEdit.encodeAdded ++ rest) =
      (files.map fun file => (file.1, TrackedFile.new file.2.persistent)) ++ recordObjects rest := by
  induction files with
  | nil => rfl
  | cons file files ih =>
      rw [List.flatMap_cons, List.append_assoc, recordObjects_cons (getField_encodeAdded file _), ih]
      rfl

/-- A record that is written here makes files with bitmaps. -/
theorem recordObjects_encodeTo (edit : VersionEdit BlobFileMeta) :
    recordObjects edit.encodeTo =
      edit.addedFiles.map fun file => (file.1, TrackedFile.new file.2.persistent) := by
  have hcolumn (rest : Bytes) : recordObjects (putVarint32 VersionEdit.kColumnFamilyID ++
      putVarint32 edit.columnFamilyId ++ rest) = recordObjects rest := by
    have hget : getField (putVarint32 VersionEdit.kColumnFamilyID ++ putVarint32 edit.columnFamilyId ++
        rest) = some (.columnFamilyId edit.columnFamilyId, rest) := by
      refine getField_put ?_
      change (getVarint32 _).map _ = _
      rw [getVarint32_putVarint32]
      rfl
    rw [recordObjects_cons hget]
    rfl
  have hrest : recordObjects (putVarint32 VersionEdit.kColumnFamilyID ++
      putVarint32 edit.columnFamilyId ++ (edit.addedFiles.flatMap VersionEdit.encodeAdded ++
        edit.deletedFiles.flatMap VersionEdit.encodeDeleted)) =
      edit.addedFiles.map fun file => (file.1, TrackedFile.new file.2.persistent) := by
    rw [hcolumn, recordObjects_added, recordObjects_deleted, List.append_nil]
  rw [VersionEdit.encodeTo]
  cases edit.nextFileNumber with
  | none => exact hrest
  | some n =>
      have hget : ∀ rest, getField (VersionEdit.encodeNext (some n) ++ rest) =
          some (.nextFileNumber n, rest) := by
        intro rest
        refine getField_put ?_
        change (getVarint64 _).map _ = _
        rw [getVarint64_putVarint64]
        rfl
      rw [recordObjects_cons (hget _), hrest]
      rfl

end AegonKV
