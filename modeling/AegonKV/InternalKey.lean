import AegonKV.Coding
import AegonKV.Status

/-!
# Internal keys of the base DB

An internal key is a user key followed by eight bytes that pack a sequence number with a type.
-/

namespace AegonKV.InternalKey
open LittleEndian

/-- The types that `IsExtendedValueType` lets through. -/
inductive ValueType
  | kTypeDeletion | kTypeValue | kTypeMerge | kTypeSingleDeletion | kTypeRangeDeletion
  | kTypeBlobIndex | kTypeDeletionWithTimestamp
  deriving DecidableEq, Repr

namespace ValueType

def code : ValueType → ℕ
  | kTypeDeletion => 0x0
  | kTypeValue => 0x1
  | kTypeMerge => 0x2
  | kTypeSingleDeletion => 0x7
  | kTypeRangeDeletion => 0xF
  | kTypeBlobIndex => 0x11
  | kTypeDeletionWithTimestamp => 0x14

def ofCode : ℕ → Option ValueType
  | 0x0 => some kTypeDeletion
  | 0x1 => some kTypeValue
  | 0x2 => some kTypeMerge
  | 0x7 => some kTypeSingleDeletion
  | 0xF => some kTypeRangeDeletion
  | 0x11 => some kTypeBlobIndex
  | 0x14 => some kTypeDeletionWithTimestamp
  | _ => none

@[simp]
theorem ofCode_code (t : ValueType) : ofCode t.code = some t := by cases t <;> rfl

theorem code_lt (t : ValueType) : t.code < 256 := by cases t <;> decide

theorem code_of_ofCode {n : ℕ} {t : ValueType} (h : ofCode n = some t) : t.code = n := by
  unfold ofCode at h
  split at h <;> cases h <;> rfl

end ValueType

structure ParsedInternalKey where
  userKey : Bytes
  sequence : ℕ
  type : ValueType
  deriving DecidableEq, Repr

def kNumInternalBytes : ℕ := 8

/-- A sequence number is at most `kMaxSequenceNumber`, so that the type fits next to it. -/
def kMaxSequenceNumber : ℕ := 2 ^ 56 - 1

def packSequenceAndType (sequence : ℕ) (type : ValueType) : ℕ := sequence * 256 + type.code

def appendInternalKey (key : ParsedInternalKey) : Bytes :=
  key.userKey ++ leBytes kNumInternalBytes (packSequenceAndType key.sequence key.type)

/-- `ParseInternalKey`, without the key's debug string in the message. -/
def parseInternalKey (internalKey : Bytes) : Except Status ParsedInternalKey :=
  let n := internalKey.length
  if n < kNumInternalBytes then
    .error (.corruption ("Corrupted Key: Internal Key too small. Size=" ++ toString n ++ ". "))
  else
    let num := leNat (internalKey.drop (n - kNumInternalBytes))
    match ValueType.ofCode (num % 256) with
    | some type => .ok ⟨internalKey.take (n - kNumInternalBytes), num / 256, type⟩
    | none => .error (.corruption "Corrupted Key")

theorem parseInternalKey_appendInternalKey {key : ParsedInternalKey}
    (h : key.sequence ≤ kMaxSequenceNumber) :
    parseInternalKey (appendInternalKey key) = .ok key := by
  have hcode := key.type.code_lt
  have hlen : (appendInternalKey key).length = key.userKey.length + kNumInternalBytes := by
    rw [appendInternalKey, List.length_append, length_leBytes]
  have hpack : packSequenceAndType key.sequence key.type < 256 ^ kNumInternalBytes := by
    rw [kMaxSequenceNumber] at h
    rw [packSequenceAndType, kNumInternalBytes]
    omega
  have hdrop : (appendInternalKey key).drop key.userKey.length =
      leBytes kNumInternalBytes (packSequenceAndType key.sequence key.type) := List.drop_left
  have htake : (appendInternalKey key).take key.userKey.length = key.userKey := List.take_left
  have hmod : packSequenceAndType key.sequence key.type % 256 = key.type.code := by
    rw [packSequenceAndType]
    omega
  have hdiv : packSequenceAndType key.sequence key.type / 256 = key.sequence := by
    rw [packSequenceAndType]
    omega
  simp only [parseInternalKey, hlen, Nat.add_sub_cancel, hdrop, htake, leNat_leBytes_of_lt hpack,
    hmod, hdiv, ValueType.ofCode_code]
  exact if_neg (by omega)

/-- A parsed key is put together as it was. -/
theorem appendInternalKey_of_parse {internalKey : Bytes} {key : ParsedInternalKey}
    (h : parseInternalKey internalKey = .ok key) :
    appendInternalKey key = internalKey ∧ key.sequence ≤ kMaxSequenceNumber := by
  unfold parseInternalKey at h
  dsimp only at h
  split_ifs at h with hshort
  have hlen : (internalKey.drop (internalKey.length - kNumInternalBytes)).length =
      kNumInternalBytes := by
    rw [List.length_drop]
    omega
  have himage : leBytes kNumInternalBytes
      (leNat (internalKey.drop (internalKey.length - kNumInternalBytes))) =
      internalKey.drop (internalKey.length - kNumInternalBytes) := by
    have h := leBytes_leNat (internalKey.drop (internalKey.length - kNumInternalBytes))
    rwa [hlen] at h
  have hlt : leNat (internalKey.drop (internalKey.length - kNumInternalBytes)) < 2 ^ 64 := by
    have h := leNat_lt (internalKey.drop (internalKey.length - kNumInternalBytes))
    rwa [hlen] at h
  cases htype : ValueType.ofCode
      (leNat (internalKey.drop (internalKey.length - kNumInternalBytes)) % 256) with
  | none =>
      rw [htype] at h
      cases h
  | some type =>
      rw [htype] at h
      obtain rfl := Except.ok.inj h
      have hcode := ValueType.code_of_ofCode htype
      refine ⟨?_, ?_⟩
      · rw [appendInternalKey, packSequenceAndType, hcode, Nat.div_add_mod', himage,
          List.take_append_drop]
      · rw [kMaxSequenceNumber]
        dsimp only
        omega

end AegonKV.InternalKey
