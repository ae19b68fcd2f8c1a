import AegonKV.PrefixReaders
import AegonKV.VersionEditCoding

/-!
# Which bytes are a version edit

A record is a row of fields, each of a tag and what the tag announces. `DecodeFrom` returns OK
exactly on such rows and gives the edit that the fields make up. Numbers need not be in their
shortest form.
-/

namespace AegonKV
open LittleEndian PrefixReader

/-! ## Parts of a field -/

def Varint32Image : Bytes → UInt32 → Prop :=
  Mapped (Varint.Image 5) UInt32.ofNat

def Varint64Image : Bytes → UInt64 → Prop :=
  Mapped (Varint.Image 10) UInt64.ofNat

def KeyImage : Bytes → Key → Prop :=
  Then Varint32Image fun len ts k => ts = k.val ∧ k.val.length = len.toNat

theorem reads_decode (w fuel : ℕ) :
    Reads (Varint.decode w fuel 0 0) (Mapped (Varint.Image fuel) (· % 2 ^ w)) := by
  intro src v rest
  rw [Varint.decode_eq_some_iff (show 0 < 2 ^ 0 by omega)]
  simp only [Nat.pow_zero, Nat.mul_one, Nat.zero_add, Mapped]
  constructor
  · rintro ⟨ts, n, himage, rfl, rfl⟩
    exact ⟨ts, ⟨n, himage, rfl⟩, rfl⟩
  · rintro ⟨ts, ⟨n, himage, rfl⟩, rfl⟩
    exact ⟨ts, n, himage, rfl, rfl⟩

/-- A number that is taken to a word of the width it was read in. -/
theorem mapped_mod {α : Type} {image : Bytes → ℕ → Prop} {f : ℕ → α} {w : ℕ}
    (hf : ∀ n, f (n % 2 ^ w) = f n) (ts : Bytes) (v : α) :
    Mapped (Mapped image (· % 2 ^ w)) f ts v ↔ Mapped image f ts v := by
  constructor
  · rintro ⟨_, ⟨n, himage, rfl⟩, rfl⟩
    exact ⟨n, himage, hf n⟩
  · rintro ⟨n, himage, rfl⟩
    exact ⟨_, ⟨n, himage, rfl⟩, (hf n).symm⟩

theorem reads_getVarint32 : Reads getVarint32 Varint32Image := by
  refine ((reads_decode 32 5).map UInt32.ofNat).congr (mapped_mod fun n => ?_)
  apply UInt32.toNat_inj.mp
  rw [UInt32.toNat_ofNat', UInt32.toNat_ofNat', Nat.mod_mod]

theorem reads_getVarint64 : Reads getVarint64 Varint64Image := by
  refine ((reads_decode 64 10).map UInt64.ofNat).congr (mapped_mod fun n => ?_)
  apply UInt64.toNat_inj.mp
  rw [UInt64.toNat_ofNat', UInt64.toNat_ofNat', Nat.mod_mod]

/-- The bytes of a key behind their length. -/
theorem length_take_lt (len : UInt32) (src : Bytes) : (src.take len.toNat).length < 2 ^ 32 :=
  Nat.lt_of_le_of_lt (List.length_take_le _ _) len.toNat_lt

def takeKey (len : UInt32) (src : Bytes) : Option (Key × Bytes) :=
  if src.length < len.toNat then none
  else some (⟨src.take len.toNat, length_take_lt len src⟩, src.drop len.toNat)

theorem reads_takeKey (len : UInt32) :
    Reads (takeKey len) fun ts k => ts = k.val ∧ k.val.length = len.toNat := by
  intro src k rest
  have htake : takeKey len src = some (k, rest) ↔ takeExactly len.toNat src = some (k.val, rest) := by
    rw [takeKey, takeExactly]
    split_ifs
    · exact iff_of_false (fun h => by cases h) (fun h => by cases h)
    · simp only [Option.some.injEq, Prod.mk.injEq, Subtype.ext_iff]
  rw [htake]
  exact reads_takeExactly len.toNat src k.val rest

theorem reads_getKey : Reads getKey KeyImage := by
  have hget : getKey = fun src => (getVarint32 src).bind fun p => takeKey p.1 p.2 := by
    funext src
    rw [getKey]
    cases getVarint32 src with
    | none => rfl
    | some p => rfl
  rw [hget]
  exact reads_getVarint32.bind reads_takeKey

/-! ## Fields -/

def decodedMeta (number fileSize fileEntries : UInt64) (fileLevel : UInt32) (smallestKey largestKey : Key) :
    UInt64 × BlobFileMeta :=
  (number, ⟨fileSize, fileEntries, fileLevel, smallestKey, largestKey, 0, .kInit⟩)

theorem length_nil_lt : ([] : Bytes).length < 2 ^ 32 :=
  Nat.two_pow_pos 32

/-- The keys of a file that was added by a legacy record are unknown. -/
def unknownKey : Key :=
  ⟨[], length_nil_lt⟩

def legacyMeta (number fileSize : UInt64) : UInt64 × BlobFileMeta :=
  (number, ⟨fileSize, 0, 0, unknownKey, unknownKey, 0, .kInit⟩)

/-- A file number with the metadata of a current add record. -/
def MetaImage : Bytes → UInt64 × BlobFileMeta → Prop :=
  Then Varint64Image fun number => Then Varint64Image fun fileSize =>
    Then Varint64Image fun fileEntries => Then Varint32Image fun fileLevel =>
      Then KeyImage fun smallestKey =>
        Mapped KeyImage (decodedMeta number fileSize fileEntries fileLevel smallestKey)

/-- A file number with the metadata of a legacy add record, which has the size only. -/
def LegacyImage : Bytes → UInt64 × BlobFileMeta → Prop :=
  Then Varint64Image fun number => Mapped Varint64Image (legacyMeta number)

inductive Field
  | nextFileNumber (n : UInt64)
  | columnFamilyId (cf : UInt32)
  | addedBlobFile (file : UInt64 × BlobFileMeta)
  | addedBlobFileV2 (file : UInt64 × BlobFileMeta)
  | deletedBlobFile (number : UInt64)

namespace Field

def store (edit : VersionEdit BlobFileMeta) : Field → VersionEdit BlobFileMeta
  | nextFileNumber n => { edit with nextFileNumber := some n }
  | columnFamilyId cf => { edit with columnFamilyId := cf }
  | addedBlobFile file => { edit with addedFiles := edit.addedFiles ++ [file] }
  | addedBlobFileV2 file => { edit with addedFiles := edit.addedFiles ++ [file] }
  | deletedBlobFile number => { edit with deletedFiles := edit.deletedFiles ++ [(number, 0)] }

def ValueImage (tag : UInt32) : Bytes → Field → Prop :=
  if tag = VersionEdit.kNextFileNumber then Mapped Varint64Image nextFileNumber
  else if tag = VersionEdit.kColumnFamilyID then Mapped Varint32Image columnFamilyId
  else if tag = VersionEdit.kAddedBlobFile then Mapped LegacyImage addedBlobFile
  else if tag = VersionEdit.kAddedBlobFileV2 then Mapped MetaImage addedBlobFileV2
  else if tag = VersionEdit.kDeletedBlobFile then Mapped Varint64Image deletedBlobFile
  else fun _ _ => False

def Image : Bytes → Field → Prop := Then Varint32Image ValueImage

end Field

/-! ## The readers -/

def getMeta (src : Bytes) : Option ((UInt64 × BlobFileMeta) × Bytes) :=
  (BlobFileMeta.decodeFrom src).toOption

def getLegacy (src : Bytes) : Option ((UInt64 × BlobFileMeta) × Bytes) :=
  (BlobFileMeta.decodeFromLegacy src).toOption

theorem reads_getLegacy : Reads getLegacy LegacyImage := by
  have hget : getLegacy = fun src => (getVarint64 src).bind fun p =>
      (getVarint64 p.2).map fun q => (legacyMeta p.1 q.1, q.2) := by
    funext src
    rw [getLegacy, BlobFileMeta.decodeFromLegacy]
    cases getVarint64 src with
    | none => rfl
    | some p =>
        simp only [Option.bind_eq_bind, Option.bind_some]
        cases getVarint64 p.2 with
        | none => rfl
        | some q => rfl
  rw [hget]
  exact reads_getVarint64.bind fun number => reads_getVarint64.map (legacyMeta number)

theorem reads_getMeta : Reads getMeta MetaImage := by
  have hget : getMeta = fun src => (getVarint64 src).bind fun p₁ => (getVarint64 p₁.2).bind fun p₂ =>
      (getVarint64 p₂.2).bind fun p₃ => (getVarint32 p₃.2).bind fun p₄ => (getKey p₄.2).bind fun p₅ =>
        (getKey p₅.2).map fun p₆ => (decodedMeta p₁.1 p₂.1 p₃.1 p₄.1 p₅.1 p₆.1, p₆.2) := by
    funext src
    rw [getMeta, BlobFileMeta.decodeFrom]
    simp only [Option.bind_eq_bind]
    cases getVarint64 src with
    | none => rfl
    | some p₁ =>
        simp only [Option.bind_some]
        cases getVarint64 p₁.2 with
        | none => rfl
        | some p₂ =>
            simp only [Option.bind_some]
            cases getVarint64 p₂.2 with
            | none => rfl
            | some p₃ =>
                simp only [Option.bind_some]
                cases getVarint32 p₃.2 with
                | none => rfl
                | some p₄ =>
                    simp only [Option.bind_some, pure]
                    cases getKey p₄.2 with
                    | none => rfl
                    | some p₅ =>
                        simp only [Option.bind_some]
                        cases getKey p₅.2 with
                        | none => rfl
                        | some p₆ => rfl
  rw [hget]
  exact reads_getVarint64.bind fun number => reads_getVarint64.bind fun fileSize =>
    reads_getVarint64.bind fun fileEntries => reads_getVarint32.bind fun fileLevel =>
      reads_getKey.bind fun smallestKey =>
        reads_getKey.map (decodedMeta number fileSize fileEntries fileLevel smallestKey)

def getValue (tag : UInt32) : Bytes → Option (Field × Bytes) :=
  if tag = VersionEdit.kNextFileNumber then
    fun src => (getVarint64 src).map fun p => (.nextFileNumber p.1, p.2)
  else if tag = VersionEdit.kColumnFamilyID then
    fun src => (getVarint32 src).map fun p => (.columnFamilyId p.1, p.2)
  else if tag = VersionEdit.kAddedBlobFile then
    fun src => (getLegacy src).map fun p => (.addedBlobFile p.1, p.2)
  else if tag = VersionEdit.kAddedBlobFileV2 then
    fun src => (getMeta src).map fun p => (.addedBlobFileV2 p.1, p.2)
  else if tag = VersionEdit.kDeletedBlobFile then
    fun src => (getVarint64 src).map fun p => (.deletedBlobFile p.1, p.2)
  else fun _ => none

theorem reads_getValue (tag : UInt32) : Reads (getValue tag) (Field.ValueImage tag) := by
  rw [getValue, Field.ValueImage]
  split_ifs
  · exact reads_getVarint64.map Field.nextFileNumber
  · exact reads_getVarint32.map Field.columnFamilyId
  · exact reads_getLegacy.map Field.addedBlobFile
  · exact reads_getMeta.map Field.addedBlobFileV2
  · exact reads_getVarint64.map Field.deletedBlobFile
  · exact reads_none

def getField (src : Bytes) : Option (Field × Bytes) :=
  (getVarint32 src).bind fun p => getValue p.1 p.2

theorem reads_getField : Reads getField Field.Image := reads_getVarint32.bind reads_getValue

namespace VersionEdit

theorem readField_toOption {α : Type} (get : Bytes → Option (α × Bytes)) (error : String)
    (set : VersionEdit BlobFileMeta → α → VersionEdit BlobFileMeta) (field : α → Field)
    (hset : ∀ edit v, (field v).store edit = set edit v) (edit : VersionEdit BlobFileMeta) (src : Bytes) :
    (readField get error set edit src).toOption =
      ((get src).map fun p => (field p.1, p.2)).map fun p => (p.1.store edit, p.2) := by
  rw [readField]
  cases get src with
  | none => rfl
  | some p => exact congrArg some (Prod.ext (hset edit p.1).symm rfl)

theorem readAdded_toOption (decode : Bytes → Except Status ((UInt64 × BlobFileMeta) × Bytes))
    (field : UInt64 × BlobFileMeta → Field)
    (hset : ∀ edit file, (field file).store edit = { edit with addedFiles := edit.addedFiles ++ [file] })
    (edit : VersionEdit BlobFileMeta) (src : Bytes) :
    (readAdded decode edit src).toOption =
      ((decode src).toOption.map fun p => (field p.1, p.2)).map fun p => (p.1.store edit, p.2) := by
  rw [readAdded]
  cases decode src with
  | error s => rfl
  | ok p => exact congrArg some (Prod.ext (hset edit p.1).symm rfl)

/-- A round of the loop reads a field and stores it. -/
theorem decodeTagged_toOption (tag : UInt32) (edit : VersionEdit BlobFileMeta) (src : Bytes) :
    (decodeTagged tag edit src).toOption =
      (getValue tag src).map fun p => (p.1.store edit, p.2) := by
  rw [decodeTagged, getValue]
  split_ifs
  · exact readField_toOption _ _ _ Field.nextFileNumber (by exact fun _ _ => rfl) edit src
  · exact readField_toOption _ _ _ Field.columnFamilyId (by exact fun _ _ => rfl) edit src
  · exact readAdded_toOption _ Field.addedBlobFile (by exact fun _ _ => rfl) edit src
  · exact readAdded_toOption _ Field.addedBlobFileV2 (by exact fun _ _ => rfl) edit src
  · exact readField_toOption _ _ _ Field.deletedBlobFile (by exact fun _ _ => rfl) edit src
  · rfl

/-- One round of the loop, with the field that it reads. -/
theorem decodeField_toOption (edit : VersionEdit BlobFileMeta) (src : Bytes) :
    (decodeField edit src).toOption = (getField src).map fun p => (p.1.store edit, p.2) := by
  rw [decodeField, getField]
  cases getVarint32 src with
  | none => rfl
  | some p => exact decodeTagged_toOption p.1 edit p.2

theorem decodeField_eq_ok_iff {edit edit' : VersionEdit BlobFileMeta} {src rest : Bytes} :
    decodeField edit src = .ok (edit', rest) ↔
      ∃ field ts, Field.Image ts field ∧ src = ts ++ rest ∧ edit' = field.store edit := by
  have hok : decodeField edit src = .ok (edit', rest) ↔
      (decodeField edit src).toOption = some (edit', rest) := by
    cases decodeField edit src with
    | error e => exact iff_of_false (fun h => by cases h) (fun h => by cases h)
    | ok p => exact ⟨fun h => congrArg some (Except.ok.inj h), fun h => congrArg _ (Option.some.inj h)⟩
  rw [hok, decodeField_toOption, Option.map_eq_some_iff]
  constructor
  · rintro ⟨⟨field, tail⟩, hget, heq⟩
    obtain ⟨rfl, rfl⟩ := Prod.mk.inj heq
    obtain ⟨ts, himage, rfl⟩ := (reads_getField src field tail).mp hget
    exact ⟨field, ts, himage, rfl, rfl⟩
  · rintro ⟨field, ts, himage, rfl, rfl⟩
    exact ⟨(field, rest), (reads_getField _ _ _).mpr ⟨ts, himage, rfl⟩, rfl⟩

/-! ## The loop -/

inductive Loop : VersionEdit BlobFileMeta → Bytes → Except String (VersionEdit BlobFileMeta) → Prop
  | done {edit : VersionEdit BlobFileMeta} : Loop edit [] (.ok edit)
  | failed {edit : VersionEdit BlobFileMeta} {src : Bytes} {e : String} (hne : src ≠ [])
      (h : decodeField edit src = .error e) : Loop edit src (.error e)
  | round {edit edit' : VersionEdit BlobFileMeta} {src rest : Bytes}
      {r : Except String (VersionEdit BlobFileMeta)} (hne : src ≠ [])
      (h : decodeField edit src = .ok (edit', rest)) (hrest : Loop edit' rest r) : Loop edit src r

/-- On every input the loop comes to its end. -/
theorem loop_decodeRest (edit : VersionEdit BlobFileMeta) (src : Bytes) :
    Loop edit src (decodeRest edit src) := by
  induction hlen : src.length using Nat.strongRecOn generalizing edit src with
  | ind length ih =>
      cases src with
      | nil => exact .done
      | cons b src =>
          have hne : b :: src ≠ [] := List.cons_ne_nil b src
          cases hfield : decodeField edit (b :: src) with
          | error e =>
              have herror : decodeRest edit (b :: src) = .error e := by
                rw [decodeRest, List.length_cons, decodeLoop, List.isEmpty_cons, if_neg Bool.false_ne_true,
                  hfield]
              rw [herror]
              exact .failed hne hfield
          | ok p =>
              obtain ⟨edit', rest⟩ := p
              have hlt := decodeField_length hfield
              rw [decodeRest_field hfield]
              exact .round hne hfield (ih rest.length (hlen ▸ hlt) edit' rest rfl)

theorem loop_ok {edit edit' : VersionEdit BlobFileMeta} {src : Bytes} (h : Loop edit src (.ok edit')) :
    ∃ fields, Many Field.Image src fields ∧ edit' = fields.foldl Field.store edit := by
  generalize hr : (Except.ok edit' : Except String _) = r at h
  induction h with
  | done =>
      obtain rfl := Except.ok.inj hr
      exact ⟨[], .nil, rfl⟩
  | failed _ _ => cases hr
  | round _ hfield _ ih =>
      obtain ⟨fields, hmany, rfl⟩ := ih hr
      obtain ⟨field, ts, himage, rfl, rfl⟩ := decodeField_eq_ok_iff.mp hfield
      exact ⟨field :: fields, .cons himage hmany, rfl⟩

theorem decodeRest_many {src : Bytes} {fields : List Field} (h : Many Field.Image src fields)
    (edit : VersionEdit BlobFileMeta) : decodeRest edit src = .ok (fields.foldl Field.store edit) := by
  induction h generalizing edit with
  | nil => rfl
  | cons himage _ ih =>
      rw [decodeRest_field (decodeField_eq_ok_iff.mpr ⟨_, _, himage, rfl, rfl⟩)]
      exact ih _

/-! ## The codec -/

def decodeSlice : ℕ → VersionEdit BlobFileMeta → Bytes → Except String (VersionEdit BlobFileMeta × Bytes)
  | 0, edit, src => .ok (edit, src)
  | fuel + 1, edit, src =>
    if src.isEmpty then .ok (edit, src)
    else
      match decodeField edit src with
      | .error e => .error e
      | .ok (edit, src) => decodeSlice fuel edit src

theorem decodeSlice_eq {fuel : ℕ} {edit : VersionEdit BlobFileMeta} {src : Bytes}
    (hfuel : src.length ≤ fuel) :
    decodeSlice fuel edit src = (decodeLoop fuel edit src).map fun edit => (edit, []) := by
  induction fuel generalizing edit src with
  | zero =>
      obtain rfl : src = [] := List.length_eq_zero_iff.mp (by omega)
      rfl
  | succ fuel ih =>
      rw [decodeSlice, decodeLoop]
      split_ifs with hempty
      · rw [List.isEmpty_iff.mp hempty]
        rfl
      · cases hfield : decodeField edit src with
        | error e => rfl
        | ok p =>
            have hlt := decodeField_length hfield
            exact ih (by omega)

def decodeInto (src : Bytes) : Except Status (VersionEdit BlobFileMeta) :=
  match decodeSlice src.length ⟨0, none, [], []⟩ src with
  | .error e => .error (.corruption "VersionEdit" e)
  | .ok (edit, rest) =>
    if rest.isEmpty then .ok edit
    else .error (.corruption "redundant bytes when decoding blob file")

/-- `DecodeFrom` leaves nothing of the slice where it returns OK. -/
theorem decodeInto_eq (src : Bytes) : decodeInto src = decodeFrom src := by
  rw [decodeInto, decodeFrom, decodeSlice_eq le_rfl]
  cases decodeLoop src.length ⟨0, none, [], []⟩ src with
  | error e => rfl
  | ok edit => rfl

theorem decodeFrom_eq (src : Bytes) : decodeFrom src =
    (decodeRest ⟨0, none, [], []⟩ src).mapError (Status.corruption "VersionEdit" ·) := by
  rw [decodeFrom, decodeRest]
  cases decodeLoop src.length ⟨0, none, [], []⟩ src with
  | error e => rfl
  | ok edit => rfl

/-- The encoding of an edit is read back, the loop of `DecodeFrom` comes to its end on every input, and
it returns OK exactly where the input is a row of complete fields. -/
theorem versionEdit_codec :
    (∀ edit : VersionEdit BlobFileMeta, decodeInto edit.encodeTo = .ok edit.persistent) ∧
      (∀ src, ∃ r, Loop ⟨0, none, [], []⟩ src r ∧
        decodeFrom src = r.mapError (Status.corruption "VersionEdit" ·)) ∧
      ∀ src edit, decodeFrom src = .ok edit ↔
        ∃ fields, Many Field.Image src fields ∧
          edit = fields.foldl Field.store ⟨0, none, [], []⟩ := by
  refine ⟨fun edit => ?_, fun src => ?_, fun src edit => ?_⟩
  · rw [decodeInto_eq, decodeFrom_encodeTo]
  · exact ⟨_, loop_decodeRest _ src, decodeFrom_eq src⟩
  · constructor
    · intro hok
      have hloop := loop_decodeRest ⟨0, none, [], []⟩ src
      rw [decodeFrom_eq] at hok
      cases hrest : decodeRest ⟨0, none, [], []⟩ src with
      | error e =>
          rw [hrest] at hok
          cases hok
      | ok edit' =>
          rw [hrest] at hok hloop
          obtain rfl := Except.ok.inj hok
          exact loop_ok hloop
    · rintro ⟨fields, hmany, rfl⟩
      rw [decodeFrom_eq, decodeRest_many hmany]
      rfl

end VersionEdit

end AegonKV
