import AegonKV.CompactionIterator
import AegonKV.ListCursors

/-!
# The iterator of the base DB

`DBIter` makes of the internal keys, with all their versions, what a user sees at a sequence number.
Forward it stands on the internal key of the current entry. Backward it stands before all versions of
the current key, whose value it has pinned. Where it would skip too many versions it seeks instead.

The inner iterator has total order and does not fail. There are no range tombstones, no user-defined
timestamps, no merge operator and no read callback, and no limit on skipped keys is set. Blob indexes
are exposed.
-/

namespace AegonKV.DBIter
open LittleEndian ListCursors

structure Options (κ : Type) where
  sequence : ℕ
  maxSkip : ℕ
  iterateLowerBound : Option κ := none
  iterateUpperBound : Option κ := none

inductive Direction
  | kForward | kReverse
  deriving DecidableEq

structure State (κ : Type) where
  iter : Cursor (Kv κ)
  /-- The user key in `saved_key_`. -/
  savedKey : κ
  direction : Direction
  valid : Bool
  status : Status
  isKeySeqnumZero : Bool
  isBlob : Bool
  pinnedValue : Bytes

def typeCode : ValueType → ℕ
  | .kTypeDeletion => 0x0
  | .kTypeValue => 0x1
  | .kTypeMerge => 0x2
  | .kTypeSingleDeletion => 0x7
  | .kTypeBlobIndex => 0x11

/-- `kTypeDeletionWithTimestamp`. -/
def kValueTypeForSeek : ℕ := 0x14

/-- `kTypeDeletion`. -/
def kValueTypeForSeekForPrev : ℕ := 0x0

def packSequenceAndType (sequence type : ℕ) : ℕ := sequence * 256 + type

def kMaxSequenceNumber : ℕ := CompactionIterator.kMaxSequenceNumber

variable {κ : Type} [LinearOrder κ]

/-- `InternalKeyComparator::Compare`: the entry comes before an internal key. -/
def isBefore (userKey : κ) (sequence type : ℕ) (kv : Kv κ) : Bool :=
  kv.userKey < userKey ||
    kv.userKey = userKey &&
      packSequenceAndType sequence type < packSequenceAndType kv.sequence (typeCode kv.type)

/-- The entry does not come after an internal key. -/
def isUpTo (userKey : κ) (sequence type : ℕ) (kv : Kv κ) : Bool :=
  kv.userKey < userKey ||
    kv.userKey = userKey &&
      packSequenceAndType sequence type ≤ packSequenceAndType kv.sequence (typeCode kv.type)

/-- The key does not lie below the upper bound. -/
def Options.beyondUpperBound (o : Options κ) (userKey : κ) : Bool :=
  o.iterateUpperBound.any fun bound => bound ≤ userKey

def Options.belowLowerBound (o : Options κ) (userKey : κ) : Bool :=
  o.iterateLowerBound.any fun bound => userKey < bound

namespace State

def key (st : State κ) : κ := st.savedKey

def value (st : State κ) : Bytes :=
  match st.direction with
  | .kReverse => st.pinnedValue
  | .kForward => (st.iter.current.map (·.value)).getD []

def init (entries : List (Kv κ)) (savedKey : κ) : State κ :=
  ⟨.exhausted entries, savedKey, .kForward, false, .ok, false, false, []⟩

/-! ## Forward -/

structure Scan (κ : Type) where
  st : State κ
  skippingSavedKey : Bool
  numSkipped : ℕ
  reseekDone : Bool

/-- A turn of the loop on the current entry up to the move of the inner iterator: the loop goes on, or
the state is final. -/
def turn (o : Options κ) (l : Scan κ) (kv : Kv κ) : Scan κ ⊕ State κ :=
  let isPrevKeySeqnumZero := l.st.isKeySeqnumZero
  let st := { l.st with isKeySeqnumZero := kv.sequence = 0 }
  if o.beyondUpperBound kv.userKey then .inr { st with valid := false }
  else if kv.sequence ≤ o.sequence then
    if !isPrevKeySeqnumZero && l.skippingSavedKey && decide (kv.userKey ≤ st.savedKey) then
      .inl { l with st := st, numSkipped := l.numSkipped + 1 }
    else
      match kv.type with
      | .kTypeDeletion | .kTypeSingleDeletion =>
        .inl ⟨{ st with savedKey := kv.userKey }, true, 0, false⟩
      | .kTypeValue => .inr { st with savedKey := kv.userKey, valid := true }
      | .kTypeBlobIndex => .inr { st with savedKey := kv.userKey, isBlob := true, valid := true }
      | .kTypeMerge => .inr { st with
          savedKey := kv.userKey
          status := .invalidArgument "merge_operator_ must be set."
          valid := false }
  else if kv.userKey = st.savedKey ∨ l.skippingSavedKey ∧ kv.userKey < st.savedKey then
    .inl { l with st := st, numSkipped := l.numSkipped + 1 }
  else .inl ⟨{ st with savedKey := kv.userKey }, false, 0, false⟩

/-- The end of the turn: a seek after too many skipped entries, else one step. -/
def advance (o : Options κ) (l : Scan κ) : Scan κ :=
  if o.maxSkip < l.numSkipped ∧ l.reseekDone = false then
    let target :=
      if l.skippingSavedKey then isBefore l.st.savedKey 0 (typeCode .kTypeDeletion)
      else isBefore l.st.savedKey o.sequence kValueTypeForSeek
    { l with
      st := { l.st with isKeySeqnumZero := false, iter := l.st.iter.seek target }
      numSkipped := 0
      reseekDone := true }
  else { l with st := { l.st with iter := l.st.iter.next } }

def scan (o : Options κ) : ℕ → Scan κ → State κ
  | 0, l => l.st
  | fuel + 1, l =>
    match l.st.iter.current with
    | none => { l.st with valid := false }
    | some kv =>
      match turn o l kv with
      | .inl l => scan o fuel (advance o l)
      | .inr st => st

/-- Every entry takes at most two turns. -/
def findNextUserEntry (o : Options κ) (st : State κ) (skippingSavedKey : Bool) : State κ :=
  scan o (2 * st.iter.items.length + 2) ⟨{ st with isBlob := false }, skippingSavedKey, 0, false⟩

/-! ## Backward -/

/-- The end of `FindValueForCurrentKey` with the type of the newest visible version. -/
def foundValue (st : State κ) (lastKeyEntryType : ValueType) : Bool × State κ :=
  match lastKeyEntryType with
  | .kTypeDeletion | .kTypeSingleDeletion => (true, { st with isBlob := false, valid := false })
  | .kTypeValue => (true, { st with isBlob := false, valid := true })
  | .kTypeBlobIndex => (true, { st with isBlob := true, valid := true })
  | .kTypeMerge => (false, { st with
      isBlob := false
      status := .invalidArgument "merge_operator_ must be set."
      valid := false })

/-- `pinned_value_` is the value of an entry that has one. -/
def pin (st : State κ) (kv : Kv κ) : State κ := { st with
  pinnedValue :=
    if kv.type = .kTypeValue ∨ kv.type = .kTypeBlobIndex then kv.value else st.pinnedValue }

/-- `FindValueForCurrentKeyUsingSeek` behind the seek. Without a read callback the first entry of the
key is visible. -/
def findValueFromSeek (st : State κ) : Bool × State κ :=
  match st.iter.current with
  | none => (true, { st with isBlob := false, valid := false })
  | some kv =>
    if kv.userKey ≠ st.savedKey then (true, { st with isBlob := false, valid := false })
    else foundValue (st.pin kv) kv.type

/-- The loop of `FindValueForCurrentKey`; the result is false where the status is not ok. -/
def findValue (o : Options κ) : ℕ → State κ → ValueType → ℕ → Bool × State κ
  | 0, st, lastKeyEntryType, _ => foundValue st lastKeyEntryType
  | fuel + 1, st, lastKeyEntryType, numSkipped =>
    match st.iter.current with
    | none => foundValue st lastKeyEntryType
    | some kv =>
      if o.sequence < kv.sequence ∨ kv.userKey ≠ st.savedKey then foundValue st lastKeyEntryType
      else if o.maxSkip ≤ numSkipped then
        findValueFromSeek { st with
          iter := st.iter.seek (isBefore st.savedKey o.sequence kValueTypeForSeek) }
      else findValue o fuel { st.pin kv with iter := st.iter.prev } kv.type (numSkipped + 1)

def findValueForCurrentKey (o : Options κ) (st : State κ) : Bool × State κ :=
  findValue o (st.iter.items.length + 1) st .kTypeDeletion 0

def findBefore (o : Options κ) : ℕ → State κ → ℕ → State κ
  | 0, st, _ => st
  | fuel + 1, st, numSkipped =>
    match st.iter.current with
    | none => st
    | some kv =>
      if kv.userKey < st.savedKey then st
      else if o.maxSkip ≤ numSkipped then
        let iter := st.iter.seek (isBefore st.savedKey kMaxSequenceNumber kValueTypeForSeek)
        match iter.current with
        | none => { st with iter := iter }
        | some _ => findBefore o fuel { st with iter := iter.prev } 0
      else findBefore o fuel { st with iter := st.iter.prev } (numSkipped + 1)

def findUserKeyBeforeSavedKey (o : Options κ) (st : State κ) : State κ :=
  findBefore o (st.iter.items.length + 1) st 0

/-- The loop of `PrevInternal`. -/
def findPrev (o : Options κ) : ℕ → State κ → State κ
  | 0, st => st
  | fuel + 1, st =>
    match st.iter.current with
    | none => { st with valid := false }
    | some kv =>
      let st := { st with savedKey := kv.userKey }
      if o.belowLowerBound st.savedKey then { st with valid := false }
      else
        let (ok, st) := findValueForCurrentKey o st
        if ok then
          let st := findUserKeyBeforeSavedKey o st
          if st.valid then st else findPrev o fuel st
        else st

def prevInternal (o : Options κ) (st : State κ) : State κ := findPrev o (st.iter.items.length + 1) st

/-! ## The calls -/

/-- The loop of `ReverseToForward`. -/
def skipBelowSavedKey : ℕ → State κ → State κ
  | 0, st => st
  | fuel + 1, st =>
    match st.iter.current with
    | none => st
    | some kv =>
      if st.savedKey ≤ kv.userKey then st else skipBelowSavedKey fuel { st with iter := st.iter.next }

def reverseToForward (st : State κ) : State κ :=
  let st :=
    if st.iter.current.isNone then { st with
      iter := st.iter.seek (isBefore st.savedKey kMaxSequenceNumber kValueTypeForSeek) }
    else st
  skipBelowSavedKey st.iter.items.length { st with direction := .kForward }

def reverseToBackward (o : Options κ) (st : State κ) : State κ :=
  findUserKeyBeforeSavedKey o { st with direction := .kReverse }

/-- `Next` up to the search: the inner iterator leaves the entry, or comes back to its key. -/
def leaveEntry (st : State κ) : State κ :=
  match st.direction with
  | .kReverse => reverseToForward { st with isKeySeqnumZero := false }
  | .kForward => { st with iter := st.iter.next }

def next (o : Options κ) (st : State κ) : State κ :=
  let st := st.leaveEntry
  if st.iter.current.isSome then findNextUserEntry o st true
  else { st with isKeySeqnumZero := false, valid := false }

def prev (o : Options κ) (st : State κ) : State κ :=
  match st.direction with
  | .kForward => prevInternal o (reverseToBackward o st)
  | .kReverse => prevInternal o st

def seek (o : Options κ) (st : State κ) (target : κ) : State κ :=
  let bound := (o.iterateLowerBound.filter fun bound => target < bound).getD target
  let st := { st with
    status := .ok
    isKeySeqnumZero := false
    savedKey := bound
    iter := st.iter.seek (isBefore bound o.sequence kValueTypeForSeek) }
  if st.iter.current.isSome then findNextUserEntry o { st with direction := .kForward } false
  else { st with valid := false }

def seekForPrev (o : Options κ) (st : State κ) (target : κ) : State κ :=
  let (savedKey, upTo) :=
    match o.iterateUpperBound.filter fun bound => bound ≤ target with
    | some bound => (bound, isUpTo bound kMaxSequenceNumber kValueTypeForSeekForPrev)
    | none => (target, isUpTo target 0 kValueTypeForSeekForPrev)
  let st := { st with
    status := .ok
    isKeySeqnumZero := false
    savedKey := savedKey
    iter := st.iter.seekForPrev upTo }
  if st.iter.current.isSome then prevInternal o { st with direction := .kReverse }
  else { st with valid := false }

def seekToFirst (o : Options κ) (st : State κ) : State κ :=
  match o.iterateLowerBound with
  | some bound => st.seek o bound
  | none =>
    let st := { st with
      status := .ok
      direction := .kForward
      isKeySeqnumZero := false
      iter := .first st.iter.items }
    match st.iter.current with
    | some kv => findNextUserEntry o { st with savedKey := kv.userKey } false
    | none => { st with valid := false }

def seekToLast (o : Options κ) (st : State κ) : State κ :=
  match o.iterateUpperBound with
  | some bound =>
    let st := st.seekForPrev o bound
    if st.valid ∧ bound = st.key then prevInternal o st else st
  | none => prevInternal o { st with
      status := .ok
      direction := .kReverse
      isKeySeqnumZero := false
      iter := .last st.iter.items }

end State

end AegonKV.DBIter
