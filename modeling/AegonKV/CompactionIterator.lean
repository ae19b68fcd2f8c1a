import AegonKV.Preprocess
import AegonKV.Status
import Mathlib.Order.Defs.LinearOrder

/-!
# The compaction iterator

Without `compaction_preprocess` a flush or a compaction visits its input through `NextFromInput`, which
drops what no snapshot sees. Versions of a key come newest first. There is no compaction filter, no
merge operator, no range tombstone, no user-defined timestamp and no snapshot checker, and values are
not moved between blob files and tables here.
-/

namespace AegonKV.CompactionIterator
open LittleEndian AegonKV

def kMaxSequenceNumber : ℕ := 2 ^ 56 - 1

/-- `CompactionProxy`. -/
structure Compaction (κ : Type) where
  /-- No data of the key range lies below the output level. -/
  bottommostLevel : Bool
  allowIngestBehind : Bool
  preserveDeletes : Bool
  keyNotExistsBeyondOutputLevel : κ → Bool

/-- What the iterator is made with; a flush has no compaction. -/
structure Env (κ : Type) where
  snapshots : List ℕ
  earliestWriteConflictSnapshot : ℕ
  compaction : Option (Compaction κ)
  preserveDeletesSeqnum : ℕ

namespace Env

variable {κ : Type}

def earliestSnapshot (env : Env κ) : ℕ := env.snapshots.headD kMaxSequenceNumber

def bottommostLevel (env : Env κ) : Bool :=
  env.compaction.any fun c => c.bottommostLevel && !c.allowIngestBehind

/-- `findEarliestVisibleSnapshot` with `prev_snapshot`. -/
def findEarliestVisibleSnapshot (env : Env κ) (sequence : ℕ) : ℕ × ℕ :=
  ((env.snapshots.find? fun s => sequence ≤ s).getD kMaxSequenceNumber,
    (env.snapshots.takeWhile fun s => s < sequence).getLastD 0)

def ikeyNotNeededForIncrementalSnapshot (env : Env κ) (sequence : ℕ) : Bool :=
  env.compaction.all fun c => !c.preserveDeletes || decide (sequence < env.preserveDeletesSeqnum)

/-- The data of the key ends with the output of the compaction. -/
def keyNotExists (env : Env κ) (userKey : κ) : Bool :=
  env.compaction.any fun c => c.keyNotExistsBeyondOutputLevel userKey

end Env

structure State (κ : Type) where
  input : List (Kv κ)
  /-- `current_user_key_` while `has_current_user_key_`. -/
  currentUserKey : Option κ := none
  currentUserKeySnapshot : ℕ := 0
  hasOutputtedKey : Bool := false
  lastKeySeqZeroed : Bool := false
  clearAndOutputNextKey : Bool := false

/-- A round of the loop of `NextFromInput`: it goes on, it has an entry to output, or it fails. Where
`at_next_` is not set the entry is taken from the input as well. -/
inductive Round (κ : Type)
  | skip (st : State κ)
  | output (kv : Kv κ) (st : State κ)
  | failed (s : Status)

variable {κ : Type} [DecidableEq κ]

def State.newUserKey (st : State κ) (userKey : κ) : State κ :=
  if st.currentUserKey = some userKey then st
  else { st with
    currentUserKey := some userKey
    currentUserKeySnapshot := 0
    hasOutputtedKey := false
    lastKeySeqZeroed := false }

/-- `kTypeSingleDeletion`; the input is behind it. -/
def singleDeletion (env : Env κ) (st : State κ) (kv : Kv κ) (prevSnapshot : ℕ) : Round κ :=
  match st.input with
  | next :: rest =>
    if next.userKey = kv.userKey then
      if st.lastKeySeqZeroed then .skip { st with input := rest }
      else if prevSnapshot = 0 ∨ prevSnapshot < next.sequence then
        if next.type = .kTypeSingleDeletion ∨ next.type = .kTypeDeletion then .skip st
        else if st.hasOutputtedKey ∨ kv.sequence ≤ env.earliestWriteConflictSnapshot ∨
            env.earliestSnapshot < env.earliestWriteConflictSnapshot ∧
              kv.sequence ≤ env.earliestSnapshot then
          .skip { st with input := rest }
        else .output kv { st with clearAndOutputNextKey := true }
      else .output kv st
    else lastOfKey { st with currentUserKey := none }
  | [] => lastOfKey { st with currentUserKey := none }
where
  /-- No older version is in the input. -/
  lastOfKey (st : State κ) : Round κ :=
    if kv.sequence ≤ env.earliestSnapshot ∧ env.keyNotExists kv.userKey then .skip st
    else if st.lastKeySeqZeroed then .skip st
    else .output kv st

/-- The versions that the loop over a deletion at the bottommost level skips. -/
def coveredByDeletion (kv : Kv κ) (prevSnapshot : ℕ) (next : Kv κ) : Bool :=
  decide (next.userKey = kv.userKey) && (prevSnapshot == 0 || decide (prevSnapshot < next.sequence))

def round (env : Env κ) (st : State κ) (kv : Kv κ) (rest : List (Kv κ)) : Round κ :=
  let st := { st.newUserKey kv.userKey with input := rest }
  let lastSnapshot := st.currentUserKeySnapshot
  let (snapshot, prevSnapshot) := env.findEarliestVisibleSnapshot kv.sequence
  let st := { st with currentUserKeySnapshot := snapshot }
  if st.clearAndOutputNextKey then
    .output { kv with
        type := if kv.type = .kTypeBlobIndex then .kTypeValue else kv.type
        value := [] }
      { st with clearAndOutputNextKey := false }
  else if kv.type = .kTypeSingleDeletion then singleDeletion env st kv prevSnapshot
  else if lastSnapshot = snapshot ∨ 0 < lastSnapshot ∧ lastSnapshot < snapshot then .skip st
  else if kv.type = .kTypeDeletion ∧ kv.sequence ≤ env.earliestSnapshot ∧
      env.ikeyNotNeededForIncrementalSnapshot kv.sequence ∧ env.keyNotExists kv.userKey then
    .skip st
  else if kv.type = .kTypeDeletion ∧ env.bottommostLevel ∧
      env.ikeyNotNeededForIncrementalSnapshot kv.sequence then
    let st := { st with input := rest.dropWhile (coveredByDeletion kv prevSnapshot) }
    if st.input.head?.any fun next => decide (next.userKey = kv.userKey) then .output kv st
    else .skip st
  else if kv.type = .kTypeMerge then
    .failed (.invalidArgument "merge_operator is not properly initialized.")
  else .output kv st

/-- `NextFromInput`; the fuel is the length of the input. -/
def nextFromInput (env : Env κ) : ℕ → State κ → Except Status (Option (Kv κ) × State κ)
  | 0, st => .ok (none, st)
  | fuel + 1, st =>
    match st.input with
    | [] => .ok (none, st)
    | kv :: rest =>
      match round env st kv rest with
      | .skip st => nextFromInput env fuel st
      | .output kv st => .ok (some kv, st)
      | .failed s => .error s

/-- `PrepareOutput`: at the bottommost level a sequence number that every snapshot sees is not needed. -/
def prepareOutput (env : Env κ) (kv : Kv κ) (st : State κ) : Kv κ × State κ :=
  if env.compaction.isSome && !env.compaction.any (·.allowIngestBehind) &&
      env.ikeyNotNeededForIncrementalSnapshot kv.sequence && env.bottommostLevel &&
      decide (kv.sequence ≤ env.earliestSnapshot) && decide (kv.type ≠ .kTypeMerge) then
    ({ kv with sequence := 0 }, { st with lastKeySeqZeroed := true })
  else (kv, st)

/-- The calls of `Next` from a position on. `SeekToFirst` does not set `has_outputted_key_`. -/
def visitFrom (env : Env κ) : ℕ → Bool → State κ → Except Status (List (Kv κ))
  | 0, _, _ => .ok []
  | calls + 1, first, st =>
    match nextFromInput env st.input.length st with
    | .error s => .error s
    | .ok (none, _) => .ok []
    | .ok (some kv, st) =>
      let (kv, st) := prepareOutput env kv { st with hasOutputtedKey := !first || st.hasOutputtedKey }
      (visitFrom env calls false st).map (kv :: ·)

/-- What a loop `for (SeekToFirst(); Valid(); Next())` visits. -/
def visited (env : Env κ) (input : List (Kv κ)) : Except Status (List (Kv κ)) :=
  visitFrom env input.length true { input := input }

end AegonKV.CompactionIterator
