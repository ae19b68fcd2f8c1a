import AegonKV.BlobFormat

/-!
# The compaction iterator's preprocessing pass

With `compaction_preprocess` on, `SeekToFirst` drains the whole input into `kv_queue_`, keeping one
entry per user key, and `Next` replays that queue. An internal key is kept in its parsed form. A
failed assertion of the source is `none`.
-/

namespace AegonKV
open LittleEndian

inductive ValueType
  | kTypeDeletion | kTypeValue | kTypeMerge | kTypeSingleDeletion | kTypeBlobIndex
  deriving DecidableEq, Repr

structure BlobIndexType where
  fileNumber : UInt64
  offset : UInt64
  size : UInt64
  index : UInt64
  deriving DecidableEq, Repr

/-- `kv_type`, with the internal key parsed. -/
structure Kv (κ : Type) where
  userKey : κ
  sequence : ℕ
  type : ValueType
  value : Bytes
  deriving DecidableEq, Repr

def BlobIndexType.put (p : BlobIndexType) : Bytes :=
  putVarint64 p.fileNumber ++ putVarint64 p.offset ++ putVarint64 p.size ++ putVarint64 p.index

def BlobIndexType.get (src : Bytes) : Option (BlobIndexType × Bytes) := do
  let (fileNumber, src) ← getVarint64 src
  let (offset, src) ← getVarint64 src
  let (size, src) ← getVarint64 src
  let (index, src) ← getVarint64 src
  return (⟨fileNumber, offset, size, index⟩, src)

def BlobIndexType.getTagged (src : Bytes) : Option (BlobIndexType × Bytes) := do
  let (type, src) ← getChar src
  if type ≠ 1 then none else BlobIndexType.get src

/-- The test of `CheckBlobIndex`: an old part names a record by file number and offset. -/
def BlobIndexType.sameRecord (a b : BlobIndexType) : Bool :=
  a.fileNumber == b.fileNumber && a.offset == b.offset

/-- `CheckBlobIndex`: `some none` is `false`, `some (some r)` is `true` with `*resV = r`. -/
def checkBlobIndex (prev cur : Bytes) : Option (Option Bytes) := do
  let (prevNew, prev) ← BlobIndexType.getTagged prev
  if prev.isEmpty then return none
  let (prevOld, _) ← BlobIndexType.get prev
  let (curNew, _) ← BlobIndexType.getTagged cur
  if prevOld.sameRecord curNew then return some (1 :: prevNew.put)
  else return some (1 :: curNew.put)

variable {κ : Type} [DecidableEq κ]

/-- One turn of the loop of `Preprocess`. The head of the list is `kv_queue_.back()`. -/
def preprocessStep (queue : List (Kv κ)) (kv : Kv κ) : Option (List (Kv κ)) :=
  if kv.type ≠ .kTypeValue ∧ kv.type ≠ .kTypeBlobIndex then none
  else
    match queue with
    | [] => some [kv]
    | pre :: queue =>
      if kv.userKey = pre.userKey then
        match pre.type with
        | .kTypeValue => some (pre :: queue)
        | .kTypeBlobIndex =>
          if kv.type = .kTypeValue then some (kv :: queue)
          else
            match checkBlobIndex pre.value kv.value with
            | none => none
            | some none => some (pre :: queue)
            | some (some resValue) => some ({ pre with value := resValue } :: queue)
        | _ => none
      else some (kv :: pre :: queue)

/-- `Preprocess`: the contents of `kv_queue_`, front first, once the input is exhausted. -/
def preprocess (input : List (Kv κ)) : Option (List (Kv κ)) :=
  (input.foldlM preprocessStep []).map List.reverse

omit [DecidableEq κ] in
/-- `NextFromCache` repeated until it clears `valid_`, from a given `kv_queue_offset`. -/
def nextFromCache (queue : List (Kv κ)) (offset : ℕ) : List (Kv κ) :=
  if h : offset < queue.length then queue[offset] :: nextFromCache queue (offset + 1) else []
termination_by queue.length - offset

/-- What a `for (SeekToFirst(); Valid(); Next())` loop over the iterator visits. -/
def emitted (input : List (Kv κ)) : Option (List (Kv κ)) :=
  (preprocess input).map fun queue => nextFromCache queue 0

omit [DecidableEq κ] in
theorem nextFromCache_eq_drop (queue : List (Kv κ)) (offset : ℕ) :
    nextFromCache queue offset = queue.drop offset := by
  induction hn : queue.length - offset generalizing offset with
  | zero =>
      rw [nextFromCache, dif_neg (by omega), List.drop_eq_nil_of_le (by omega)]
  | succ n ih =>
      have hlt : offset < queue.length := by omega
      rw [nextFromCache, dif_pos hlt, ih _ (by omega), List.drop_eq_getElem_cons hlt]

theorem emitted_eq_preprocess (input : List (Kv κ)) : emitted input = preprocess input := by
  unfold emitted
  cases preprocess input with
  | none => rfl
  | some queue => simp [nextFromCache_eq_drop]

namespace BlobIndexType

theorem get_put (p : BlobIndexType) (rest : Bytes) : get (p.put ++ rest) = some (p, rest) := by
  simp [get, put, List.append_assoc, getVarint64_putVarint64]

theorem getTagged_put (p : BlobIndexType) (rest : Bytes) :
    getTagged (1 :: p.put ++ rest) = some (p, rest) := by
  simp [getTagged, getChar, get_put]

theorem put_ne_nil (p : BlobIndexType) : p.put ≠ [] := by
  simp [put, BlobIndex.putVarint64_ne_nil]

end BlobIndexType

theorem checkBlobIndex_plain (p : BlobIndexType) (cur : Bytes) :
    checkBlobIndex (1 :: p.put) cur = some none := by
  have h := BlobIndexType.getTagged_put p []
  rw [List.append_nil] at h
  simp [checkBlobIndex, h]

/-- The old part of the current entry is never read. -/
theorem checkBlobIndex_writeBack (n o c : BlobIndexType) (old : Bytes) :
    checkBlobIndex (1 :: n.put ++ o.put) (1 :: c.put ++ old) =
      some (some (1 :: (if o.sameRecord c then n else c).put)) := by
  have ho := BlobIndexType.get_put o []
  rw [List.append_nil] at ho
  have hne : o.put.isEmpty = false := by simp [o.put_ne_nil]
  simp only [checkBlobIndex, BlobIndexType.getTagged_put, Option.bind_eq_bind, Option.bind_some,
    hne, ho]
  split_ifs with h1 h2 <;> simp_all

end AegonKV
