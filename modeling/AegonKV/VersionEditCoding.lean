import AegonKV.BlobFormat
import AegonKV.BlobStorage
import AegonKV.EditCollector

/-!
# The encoding of version edits

A manifest record is an encoded version edit: a list of tagged fields, read back by a loop that
stops at the end of the record. The state of a blob file, its live data size and the sequence at
which it became obsolete are not persistent.
-/

namespace AegonKV
open LittleEndian

/-- A user key. A `WriteBatch` refuses keys whose length does not fit in 32 bits. -/
abbrev Key := { k : Bytes // k.length < 2 ^ 32 }

def Key.ofByte (b : UInt8) : Key := ⟨[b], by simp⟩

/-- `BlobFileMeta` without the file number, which is the key it is stored under. -/
structure BlobFileMeta where
  fileSize : UInt64
  fileEntries : UInt64
  fileLevel : UInt32
  smallestKey : Key
  largestKey : Key
  liveDataSize : UInt64 := 0
  state : FileState := .kInit
  deriving DecidableEq

/-- `GetLengthPrefixedSlice`, for a key. -/
def getKey (src : Bytes) : Option (Key × Bytes) :=
  match getVarint32 src with
  | none => none
  | some (len, rest) =>
    if rest.length < len.toNat then none
    else
      have hlt : (rest.take len.toNat).length < 2 ^ 32 :=
        Nat.lt_of_le_of_lt (List.length_take_le _ _) len.toNat_lt
      some (⟨rest.take len.toNat, hlt⟩, rest.drop len.toNat)

theorem getKey_eq (src : Bytes) :
    (getKey src).map (fun p => (p.1.val, p.2)) = getLengthPrefixedSlice src := by
  rw [getKey, getLengthPrefixedSlice]
  cases getVarint32 src with
  | none => rfl
  | some p =>
      obtain ⟨len, rest⟩ := p
      simp only [Option.bind_eq_bind, Option.bind_some]
      split_ifs <;> rfl

theorem getKey_put (k : Key) (rest : Bytes) :
    getKey (putLengthPrefixedSlice k.val ++ rest) = some (k, rest) := by
  have h := getKey_eq (putLengthPrefixedSlice k.val ++ rest)
  rw [getLengthPrefixedSlice_put k.property] at h
  obtain ⟨⟨k', rest'⟩, hget, heq⟩ := Option.map_eq_some_iff.mp h
  obtain ⟨hk, rfl⟩ : k'.val = k.val ∧ rest' = rest := by simpa using heq
  rw [hget, Subtype.ext hk]

namespace BlobFileMeta

def isObsolete (file : BlobFileMeta) : Bool := file.state == .kObsolete

/-- What a manifest record keeps of a file. -/
def persistent (file : BlobFileMeta) : BlobFileMeta := { file with liveDataSize := 0, state := .kInit }

def encodeTo (number : UInt64) (file : BlobFileMeta) : Bytes :=
  putVarint64 number ++ putVarint64 file.fileSize ++ putVarint64 file.fileEntries ++
    putVarint32 file.fileLevel ++ putLengthPrefixedSlice file.smallestKey.val ++
    putLengthPrefixedSlice file.largestKey.val

/-- `DecodeFromLegacy`. The entries and the level keep their initial 0. -/
def decodeFromLegacy (src : Bytes) : Except Status ((UInt64 × BlobFileMeta) × Bytes) :=
  match (do
    let (number, src) ← getVarint64 src
    let (fileSize, src) ← getVarint64 src
    return ((number, fileSize), src) : Option ((UInt64 × UInt64) × Bytes)) with
  | none => .error (.corruption "BlobFileMeta decode legacy failed")
  | some ((number, fileSize), src) =>
    .ok ((number, ⟨fileSize, 0, 0, ⟨[], by decide⟩, ⟨[], by decide⟩, 0, .kInit⟩), src)

def decodeFrom (src : Bytes) : Except Status ((UInt64 × BlobFileMeta) × Bytes) :=
  match (do
    let (number, src) ← getVarint64 src
    let (fileSize, src) ← getVarint64 src
    let (fileEntries, src) ← getVarint64 src
    let (fileLevel, src) ← getVarint32 src
    return ((number, fileSize, fileEntries, fileLevel), src) :
      Option ((UInt64 × UInt64 × UInt64 × UInt32) × Bytes)) with
  | none => .error (.corruption "BlobFileMeta decode failed")
  | some ((number, fileSize, fileEntries, fileLevel), src) =>
    match getKey src with
    | none => .error (.corruption "BlobSmallestKey Decode failed")
    | some (smallestKey, src) =>
      match getKey src with
      | none => .error (.corruption "BlobLargestKey decode failed")
      | some (largestKey, src) =>
        .ok ((number, ⟨fileSize, fileEntries, fileLevel, smallestKey, largestKey, 0, .kInit⟩), src)

theorem decodeFrom_encodeTo (number : UInt64) (file : BlobFileMeta) (rest : Bytes) :
    decodeFrom (encodeTo number file ++ rest) = .ok ((number, file.persistent), rest) := by
  simp only [decodeFrom, encodeTo, List.append_assoc, getVarint64_putVarint64,
    getVarint32_putVarint32, getKey_put, Option.bind_eq_bind, Option.bind_some, pure, persistent]

end BlobFileMeta

namespace VersionEdit

def kNextFileNumber : UInt32 := 1

def kColumnFamilyID : UInt32 := 10

def kAddedBlobFile : UInt32 := 11

def kDeletedBlobFile : UInt32 := 12

def kAddedBlobFileV2 : UInt32 := 13

def encodeNext : Option UInt64 → Bytes
  | none => []
  | some n => putVarint32 kNextFileNumber ++ putVarint64 n

def encodeAdded (file : UInt64 × BlobFileMeta) : Bytes :=
  putVarint32 kAddedBlobFileV2 ++ file.2.encodeTo file.1

def encodeDeleted (file : UInt64 × ℕ) : Bytes := putVarint32 kDeletedBlobFile ++ putVarint64 file.1

def encodeTo (edit : VersionEdit BlobFileMeta) : Bytes :=
  encodeNext edit.nextFileNumber ++
    (putVarint32 kColumnFamilyID ++ putVarint32 edit.columnFamilyId ++
      (edit.addedFiles.flatMap encodeAdded ++ edit.deletedFiles.flatMap encodeDeleted))

/-- A field reader of the loop: its `error` text, or the edit with the field and the rest. -/
abbrev FieldReader := VersionEdit BlobFileMeta → Bytes → Except String (VersionEdit BlobFileMeta × Bytes)

/-- One field whose value is read by `get` and stored by `set`. -/
def readField {α : Type} (get : Bytes → Option (α × Bytes)) (error : String)
    (set : VersionEdit BlobFileMeta → α → VersionEdit BlobFileMeta) : FieldReader := fun edit src =>
  match get src with
  | none => .error error
  | some (value, src) => .ok (set edit value, src)

/-- An add record. The source points into a temporary string for the text of its error. -/
def readAdded (decode : Bytes → Except Status ((UInt64 × BlobFileMeta) × Bytes)) : FieldReader :=
  fun edit src =>
    match decode src with
    | .error s => .error s.toString
    | .ok (file, src) => .ok ({ edit with addedFiles := edit.addedFiles ++ [file] }, src)

def decodeTagged (tag : UInt32) : FieldReader :=
  if tag = kNextFileNumber then
    readField getVarint64 "next file number" fun edit n => { edit with nextFileNumber := some n }
  else if tag = kColumnFamilyID then
    readField getVarint32 "column family id" fun edit cf => { edit with columnFamilyId := cf }
  else if tag = kAddedBlobFile then readAdded BlobFileMeta.decodeFromLegacy
  else if tag = kAddedBlobFileV2 then readAdded BlobFileMeta.decodeFrom
  else if tag = kDeletedBlobFile then
    readField getVarint64 "deleted blob file" fun edit f =>
      { edit with deletedFiles := edit.deletedFiles ++ [(f, 0)] }
  else fun _ _ => .error "unknown tag"

def decodeField : FieldReader := fun edit src =>
  match getVarint32 src with
  | none => .error "invalid tag"
  | some (tag, src) => decodeTagged tag edit src

/-- The loop. Every round consumes at least the tag, so a record never has more rounds than bytes. -/
def decodeLoop : ℕ → VersionEdit BlobFileMeta → Bytes → Except String (VersionEdit BlobFileMeta)
  | 0, edit, _ => .ok edit
  | fuel + 1, edit, src =>
    if src.isEmpty then .ok edit
    else
      match decodeField edit src with
      | .error e => .error e
      | .ok (edit, src) => decodeLoop fuel edit src

/-- `DecodeFrom`, into a default edit. -/
def decodeFrom (src : Bytes) : Except Status (VersionEdit BlobFileMeta) :=
  match decodeLoop src.length ⟨0, none, [], []⟩ src with
  | .error e => .error (.corruption "VersionEdit" e)
  | .ok edit => .ok edit

/-! ## The loop reads the whole record -/

theorem getVarint32_length {src rest : Bytes} {v : UInt32} (h : getVarint32 src = some (v, rest)) :
    rest.length < src.length := by
  obtain ⟨⟨x, rest'⟩, hdec, heq⟩ := Option.map_eq_some_iff.mp h
  obtain ⟨-, rfl⟩ : _ ∧ rest' = rest := by simpa using heq
  exact Varint.length_rest_lt hdec

theorem getVarint64_length {src rest : Bytes} {v : UInt64} (h : getVarint64 src = some (v, rest)) :
    rest.length < src.length := by
  obtain ⟨⟨x, rest'⟩, hdec, heq⟩ := Option.map_eq_some_iff.mp h
  obtain ⟨-, rfl⟩ : _ ∧ rest' = rest := by simpa using heq
  exact Varint.length_rest_lt hdec

theorem getKey_length {src rest : Bytes} {k : Key} (h : getKey src = some (k, rest)) :
    rest.length ≤ src.length := by
  rw [getKey] at h
  cases hlen : getVarint32 src with
  | none => simp [hlen] at h
  | some p =>
      obtain ⟨len, tail⟩ := p
      have htail := getVarint32_length hlen
      simp only [hlen] at h
      split_ifs at h
      obtain ⟨-, rfl⟩ : _ ∧ tail.drop len.toNat = rest := by simpa using h
      simp only [List.length_drop]
      omega

theorem decodeFromLegacy_length {src rest : Bytes} {file : UInt64 × BlobFileMeta}
    (h : BlobFileMeta.decodeFromLegacy src = .ok (file, rest)) : rest.length ≤ src.length := by
  simp only [BlobFileMeta.decodeFromLegacy, Option.bind_eq_bind, pure] at h
  split at h
  · cases h
  · next number fileSize tail hread =>
      obtain ⟨⟨_, r1⟩, h1, hread⟩ := Option.bind_eq_some_iff.mp hread
      obtain ⟨⟨_, r2⟩, h2, hread⟩ := Option.bind_eq_some_iff.mp hread
      simp only [Option.some.injEq, Prod.mk.injEq] at hread
      simp only [Except.ok.injEq, Prod.mk.injEq] at h
      have := getVarint64_length h1
      have : r2.length < r1.length := getVarint64_length h2
      rw [← h.2, ← hread.2]
      omega

theorem decodeMeta_length {src rest : Bytes} {file : UInt64 × BlobFileMeta}
    (h : BlobFileMeta.decodeFrom src = .ok (file, rest)) : rest.length ≤ src.length := by
  simp only [BlobFileMeta.decodeFrom, Option.bind_eq_bind, pure] at h
  split at h
  · cases h
  · next number fileSize fileEntries fileLevel tail hread =>
      obtain ⟨⟨_, r1⟩, h1, hread⟩ := Option.bind_eq_some_iff.mp hread
      obtain ⟨⟨_, r2⟩, h2, hread⟩ := Option.bind_eq_some_iff.mp hread
      obtain ⟨⟨_, r3⟩, h3, hread⟩ := Option.bind_eq_some_iff.mp hread
      obtain ⟨⟨_, r4⟩, h4, hread⟩ := Option.bind_eq_some_iff.mp hread
      simp only [Option.some.injEq, Prod.mk.injEq] at hread
      obtain ⟨-, rfl⟩ := hread
      have := getVarint64_length h1
      have : r2.length < r1.length := getVarint64_length h2
      have : r3.length < r2.length := getVarint64_length h3
      have : r4.length < r3.length := getVarint32_length h4
      split at h
      · cases h
      · next k5 r5 h5 =>
          split at h
          · cases h
          · next k6 r6 h6 =>
              simp only [Except.ok.injEq, Prod.mk.injEq] at h
              have := getKey_length h5
              have := getKey_length h6
              rw [← h.2]
              omega

/-- A field reader leaves a part of its input. -/
def Consumes (read : FieldReader) : Prop :=
  ∀ edit src edit' rest, read edit src = .ok (edit', rest) → rest.length ≤ src.length

theorem readField_consumes {α : Type} {get : Bytes → Option (α × Bytes)} {error : String}
    {set : VersionEdit BlobFileMeta → α → VersionEdit BlobFileMeta}
    (hget : ∀ src v rest, get src = some (v, rest) → rest.length < src.length) :
    Consumes (readField get error set) := by
  intro edit src edit' rest h
  rw [readField] at h
  split at h
  · cases h
  · next v tail htail =>
      simp only [Except.ok.injEq, Prod.mk.injEq] at h
      rw [← h.2]
      exact (hget _ _ _ htail).le

theorem readAdded_consumes {decode : Bytes → Except Status ((UInt64 × BlobFileMeta) × Bytes)}
    (hdecode : ∀ src file rest, decode src = .ok (file, rest) → rest.length ≤ src.length) :
    Consumes (readAdded decode) := by
  intro edit src edit' rest h
  rw [readAdded] at h
  split at h
  · cases h
  · next file tail htail =>
      simp only [Except.ok.injEq, Prod.mk.injEq] at h
      rw [← h.2]
      exact hdecode _ _ _ htail

theorem decodeTagged_consumes (tag : UInt32) : Consumes (decodeTagged tag) := by
  rw [decodeTagged]
  split_ifs
  · exact readField_consumes fun _ _ _ => getVarint64_length
  · exact readField_consumes fun _ _ _ => getVarint32_length
  · exact readAdded_consumes fun _ _ _ => decodeFromLegacy_length
  · exact readAdded_consumes fun _ _ _ => decodeMeta_length
  · exact readField_consumes fun _ _ _ => getVarint64_length
  · exact fun _ _ _ _ h => (by cases h)

theorem decodeField_length {edit edit' : VersionEdit BlobFileMeta} {src rest : Bytes}
    (h : decodeField edit src = .ok (edit', rest)) : rest.length < src.length := by
  rw [decodeField] at h
  split at h
  · cases h
  · next tag tail htail =>
      have hle := decodeTagged_consumes tag _ _ _ _ h
      have hlt := getVarint32_length htail
      omega

/-- The loop stops at the end of the record, whatever fuel is left. -/
theorem decodeLoop_fuel {fuel fuel' : ℕ} {edit : VersionEdit BlobFileMeta} {src : Bytes}
    (h : src.length ≤ fuel) (h' : src.length ≤ fuel') :
    decodeLoop fuel edit src = decodeLoop fuel' edit src := by
  induction fuel generalizing fuel' edit src with
  | zero =>
      obtain rfl : src = [] := List.length_eq_zero_iff.mp (by omega)
      cases fuel' <;> simp [decodeLoop]
  | succ fuel ih =>
      cases fuel' with
      | zero =>
          obtain rfl : src = [] := List.length_eq_zero_iff.mp (by omega)
          simp [decodeLoop]
      | succ fuel' =>
          simp only [decodeLoop]
          split_ifs
          · rfl
          · cases hfield : decodeField edit src with
            | error e => rfl
            | ok p =>
                have := decodeField_length hfield
                exact ih (by omega) (by omega)

/-! ## Round trip -/

def decodeRest (edit : VersionEdit BlobFileMeta) (src : Bytes) :
    Except String (VersionEdit BlobFileMeta) := decodeLoop src.length edit src

theorem decodeRest_field {edit edit' : VersionEdit BlobFileMeta} {src rest : Bytes}
    (h : decodeField edit src = .ok (edit', rest)) : decodeRest edit src = decodeRest edit' rest := by
  have hlt := decodeField_length h
  cases src with
  | nil => simp at hlt
  | cons b src =>
      simp only [decodeRest, List.length_cons, decodeLoop, List.isEmpty_cons, Bool.false_eq_true,
        if_false, h]
      exact decodeLoop_fuel (by simp at hlt; omega) le_rfl

theorem decodeRest_next (edit : VersionEdit BlobFileMeta) (n : Option UInt64) (rest : Bytes)
    (hn : edit.nextFileNumber = none) :
    decodeRest edit (encodeNext n ++ rest) = decodeRest { edit with nextFileNumber := n } rest := by
  cases n with
  | none =>
      obtain ⟨cf, next, added, deleted⟩ := edit
      obtain rfl : next = none := hn
      rfl
  | some n =>
      refine decodeRest_field ?_
      rw [encodeNext, List.append_assoc, decodeField, getVarint32_putVarint32]
      simp [decodeTagged, readField, getVarint64_putVarint64]

theorem decodeRest_column (edit : VersionEdit BlobFileMeta) (cf : UInt32) (rest : Bytes) :
    decodeRest edit (putVarint32 kColumnFamilyID ++ putVarint32 cf ++ rest) =
      decodeRest { edit with columnFamilyId := cf } rest := by
  refine decodeRest_field ?_
  rw [List.append_assoc, decodeField, getVarint32_putVarint32]
  simp [decodeTagged, readField, getVarint32_putVarint32, kColumnFamilyID, kNextFileNumber]

theorem decodeRest_added (edit : VersionEdit BlobFileMeta) (files : List (UInt64 × BlobFileMeta))
    (rest : Bytes) :
    decodeRest edit (files.flatMap encodeAdded ++ rest) =
      decodeRest { edit with
        addedFiles := edit.addedFiles ++ files.map fun file => (file.1, file.2.persistent) } rest := by
  induction files generalizing edit with
  | nil => simp
  | cons file files ih =>
      have hfield : decodeField edit (encodeAdded file ++ (files.flatMap encodeAdded ++ rest)) =
          .ok ({ edit with addedFiles := edit.addedFiles ++ [(file.1, file.2.persistent)] },
            files.flatMap encodeAdded ++ rest) := by
        rw [encodeAdded, List.append_assoc, decodeField, getVarint32_putVarint32]
        simp [decodeTagged, readAdded, BlobFileMeta.decodeFrom_encodeTo, kColumnFamilyID,
          kNextFileNumber, kAddedBlobFile, kAddedBlobFileV2]
      rw [List.flatMap_cons, List.append_assoc, decodeRest_field hfield, ih]
      simp

theorem decodeRest_deleted (edit : VersionEdit BlobFileMeta) (files : List (UInt64 × ℕ)) :
    decodeRest edit (files.flatMap encodeDeleted) =
      .ok { edit with deletedFiles := edit.deletedFiles ++ files.map fun file => (file.1, 0) } := by
  induction files generalizing edit with
  | nil => simp [decodeRest, decodeLoop]
  | cons file files ih =>
      have hfield : decodeField edit (encodeDeleted file ++ files.flatMap encodeDeleted) =
          .ok ({ edit with deletedFiles := edit.deletedFiles ++ [(file.1, 0)] },
            files.flatMap encodeDeleted) := by
        rw [encodeDeleted, List.append_assoc, decodeField, getVarint32_putVarint32]
        simp [decodeTagged, readField, getVarint64_putVarint64, kColumnFamilyID, kNextFileNumber,
          kAddedBlobFile, kAddedBlobFileV2, kDeletedBlobFile]
      rw [List.flatMap_cons, decodeRest_field hfield, ih]
      simp

/-- The edit a record holds: the states of its files and its obsolete sequences are lost. -/
def persistent (edit : VersionEdit BlobFileMeta) : VersionEdit BlobFileMeta :=
  { edit with
    addedFiles := edit.addedFiles.map fun file => (file.1, file.2.persistent)
    deletedFiles := edit.deletedFiles.map fun file => (file.1, 0) }

theorem decodeFrom_encodeTo (edit : VersionEdit BlobFileMeta) :
    decodeFrom edit.encodeTo = .ok edit.persistent := by
  have h : decodeRest ⟨0, none, [], []⟩ edit.encodeTo = .ok edit.persistent := by
    rw [encodeTo, decodeRest_next _ _ _ rfl, decodeRest_column, decodeRest_added, decodeRest_deleted]
    rfl
  rw [decodeFrom, ← decodeRest, h]

/-! ## Decoded files are new -/

/-- A decoded edit adds files in their initial state. -/
def AddsInit (edit : VersionEdit BlobFileMeta) : Prop :=
  ∀ file ∈ edit.addedFiles, file.2.state = .kInit

theorem readAdded_init {decode : Bytes → Except Status ((UInt64 × BlobFileMeta) × Bytes)}
    (hdecode : ∀ src file rest, decode src = .ok (file, rest) → file.2.state = .kInit)
    {edit edit' : VersionEdit BlobFileMeta} {src rest : Bytes} (he : edit.AddsInit)
    (h : readAdded decode edit src = .ok (edit', rest)) : edit'.AddsInit := by
  rw [readAdded] at h
  split at h
  · cases h
  · next file tail htail =>
      simp only [Except.ok.injEq, Prod.mk.injEq] at h
      rw [← h.1]
      intro g hg
      rcases List.mem_append.mp hg with hg | hg
      · exact he g hg
      · rw [List.mem_singleton.mp hg]
        exact hdecode _ _ _ htail

theorem readField_init {α : Type} {get : Bytes → Option (α × Bytes)} {error : String}
    {set : VersionEdit BlobFileMeta → α → VersionEdit BlobFileMeta}
    (hset : ∀ edit v, (set edit v).addedFiles = edit.addedFiles)
    {edit edit' : VersionEdit BlobFileMeta} {src rest : Bytes} (he : edit.AddsInit)
    (h : readField get error set edit src = .ok (edit', rest)) : edit'.AddsInit := by
  rw [readField] at h
  split at h
  · cases h
  · simp only [Except.ok.injEq, Prod.mk.injEq] at h
    rw [← h.1, AddsInit, hset]
    exact he

theorem decodeTagged_init {tag : UInt32} {edit edit' : VersionEdit BlobFileMeta} {src rest : Bytes}
    (he : edit.AddsInit) (h : decodeTagged tag edit src = .ok (edit', rest)) : edit'.AddsInit := by
  rw [decodeTagged] at h
  split_ifs at h
  · exact readField_init (by exact fun _ _ => rfl) he h
  · exact readField_init (by exact fun _ _ => rfl) he h
  · refine readAdded_init (fun src file rest hd => ?_) he h
    rw [BlobFileMeta.decodeFromLegacy] at hd
    split at hd
    · cases hd
    · simp only [Except.ok.injEq, Prod.mk.injEq] at hd
      rw [← hd.1]
  · refine readAdded_init (fun src file rest hd => ?_) he h
    simp only [BlobFileMeta.decodeFrom] at hd
    split at hd
    · cases hd
    · split at hd
      · cases hd
      · split at hd
        · cases hd
        · simp only [Except.ok.injEq, Prod.mk.injEq] at hd
          rw [← hd.1]
  · exact readField_init (by exact fun _ _ => rfl) he h

theorem decodeLoop_init {fuel : ℕ} {edit edit' : VersionEdit BlobFileMeta} {src : Bytes}
    (he : edit.AddsInit) (h : decodeLoop fuel edit src = .ok edit') : edit'.AddsInit := by
  induction fuel generalizing edit src with
  | zero =>
      obtain rfl := Except.ok.inj h
      exact he
  | succ fuel ih =>
      rw [decodeLoop] at h
      split_ifs at h with hnil
      · obtain rfl := Except.ok.inj h
        exact he
      · cases hfield : decodeField edit src with
        | error e =>
            rw [hfield] at h
            cases h
        | ok p =>
            rw [hfield] at h
            refine ih ?_ h
            rw [decodeField] at hfield
            split at hfield
            · cases hfield
            · exact decodeTagged_init he hfield

theorem decodeFrom_init {src : Bytes} {edit : VersionEdit BlobFileMeta}
    (h : decodeFrom src = .ok edit) : edit.AddsInit := by
  rw [decodeFrom] at h
  split at h
  · cases h
  · next edit' hloop =>
      obtain rfl := Except.ok.inj h
      exact decodeLoop_init (fun file hfile => (by cases hfile)) hloop

end VersionEdit
end AegonKV
