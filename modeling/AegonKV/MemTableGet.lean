import AegonKV.OffloadedGCReads

/-!
# Looking up a key in a memtable

`MemTable::Get` walks the entries of a key from the newest one on and hands each to `SaveValue`.
With a pending check the walk goes past a write-back to the next entry, and no further. A null
pointer among the fields of the saver is `none`, a failed assertion makes the result `none`.
-/

namespace AegonKV
open LittleEndian

structure MergeOperator (κ : Type) where
  timedFullMerge : κ → Option Bytes → List Bytes → Status × Bytes
  shouldMerge : List Bytes → Bool

namespace MemTable

structure SaverOptions (κ : Type) where
  key : κ
  maxCoveringTombstoneSeq : ℕ
  mergeOperator : Option (MergeOperator κ)
  callback : Option (ℕ → Bool)
  doMerge : Bool

structure Saver where
  status : Status
  foundFinalValue : Bool
  mergeInProgress : Bool
  value : Option Bytes
  seq : ℕ
  mergeContext : List Bytes
  pendingCheckInMem : Option Bool
  isBlobIndex : Option Bool
  deriving DecidableEq, Repr

variable {κ : Type}

def SaverOptions.checkCallback (o : SaverOptions κ) (seq : ℕ) : Bool :=
  match o.callback with
  | some callback => callback seq
  | none => true

def saverCheckIsGCWriteBack (value : Bytes) : Option Bool := do
  let (_, rest) ← BlobIndexType.getTagged value
  return !rest.isEmpty

def Saver.pushOperand (s : Saver) (v : Bytes) : Saver :=
  { s with mergeContext := s.mergeContext ++ [v] }

/-- `TimedFullMerge` into `s->value`, when there is one. -/
def Saver.fullMerge (o : SaverOptions κ) (s : Saver) (existing : Option Bytes) : Option Saver :=
  match s.value with
  | none => some s
  | some _ => do
    let mergeOperator ← o.mergeOperator
    let (status, result) := mergeOperator.timedFullMerge o.key existing s.mergeContext
    return { s with status := status, value := some result }

/-- The innermost branch of the Value case: with a pending check the second of two index entries
leaves the first one in place. -/
def Saver.assign (s : Saver) (type : ValueType) (v : Bytes) : Option Saver :=
  match s.value, s.pendingCheckInMem with
  | none, _ => some s
  | some _, none => some { s with value := some v }
  | some _, some pendingCheck =>
    if type = .kTypeBlobIndex then
      if !pendingCheck then do
        let writeBack ← saverCheckIsGCWriteBack v
        return { s with value := some v, pendingCheckInMem := some writeBack }
      else some { s with pendingCheckInMem := some false }
    else some { s with value := some v, pendingCheckInMem := some false }

/-- `case kTypeValue`, which `kTypeBlobIndex` falls through to. -/
def saveFound (o : SaverOptions κ) (s : Saver) (type : ValueType) (v : Bytes) :
    Option (Saver × Bool) := do
  let s := { s with status := .ok }
  let s ←
    if s.mergeInProgress then
      if o.doMerge then s.fullMerge o (some v) else some (s.pushOperand v)
    else if !o.doMerge then some (s.pushOperand v)
    else s.assign type v
  let s := { s with
    foundFinalValue := true
    isBlobIndex := s.isBlobIndex.map fun _ => type == .kTypeBlobIndex }
  return (s, s.pendingCheckInMem == some true)

def saveDeletion (o : SaverOptions κ) (s : Saver) : Option (Saver × Bool) := do
  let s ← if s.mergeInProgress then s.fullMerge o none else some { s with status := .notFound }
  return ({ s with foundFinalValue := true }, false)

def saveMerge (o : SaverOptions κ) (s : Saver) (v : Bytes) : Option (Saver × Bool) :=
  match o.mergeOperator with
  | none =>
    some ({ s with
      status := .invalidArgument "merge_operator is not properly initialized."
      foundFinalValue := true }, false)
  | some mergeOperator =>
    let s := { s with mergeInProgress := true }.pushOperand v
    if o.doMerge && mergeOperator.shouldMerge s.mergeContext then do
      let s ← s.fullMerge o none
      return ({ s with foundFinalValue := true }, false)
    else some (s, true)

/-- The checks before the index case falls through. -/
def Saver.checkBlobIndexAllowed (s : Saver) : Saver :=
  if s.isBlobIndex.isNone then
    { s with status := { code := .notSupported, msg := "Encounter unsupported blob value. Please open DB with ROCKSDB_NAMESPACE::blob_db::BlobDB instead." } }
  else if s.mergeInProgress then
    { s with status := { code := .notSupported, msg := "Blob DB does not support merge operator." } }
  else s

variable [DecidableEq κ]

/-- `SaveValue`: the flag says whether to go on to the next older entry. -/
def saveValue (o : SaverOptions κ) (s : Saver) (kv : Kv κ) : Option (Saver × Bool) :=
  if kv.userKey ≠ o.key then some (s, false)
  else if !o.checkCallback kv.sequence then some (s, true)
  else
    let s := { s with seq := kv.sequence }
    match kv.type with
    | .kTypeBlobIndex =>
      if kv.sequence < o.maxCoveringTombstoneSeq then saveDeletion o s
      else
        let s := s.checkBlobIndexAllowed
        if !s.status.isOk then some ({ s with foundFinalValue := true }, false)
        else saveFound o s .kTypeBlobIndex kv.value
    | .kTypeValue =>
      if kv.sequence < o.maxCoveringTombstoneSeq then saveDeletion o s
      else saveFound o s .kTypeValue kv.value
    | .kTypeMerge =>
      if kv.sequence < o.maxCoveringTombstoneSeq then saveDeletion o s
      else saveMerge o s kv.value
    | .kTypeDeletion => saveDeletion o s
    | .kTypeSingleDeletion => saveDeletion o s

/-- The loop of `MemTableRep::Get` from the entry the iterator stands at. -/
def walk (o : SaverOptions κ) (s : Saver) : List (Kv κ) → Option Saver
  | [] => some s
  | kv :: kvs =>
    match saveValue o s kv with
    | none => none
    | some (s', more) => if more then walk o s' kvs else some s'

end MemTable

section Get

variable {κ : Type} [LinearOrder κ]

namespace MemTable

/-- The iterator's `Seek` of a `LookupKey`. -/
def seek (k : κ) (snapshot : ℕ) (table : List (Kv κ)) : List (Kv κ) :=
  table.dropWhile fun kv => kv.userKey < k ∨ kv.userKey = k ∧ snapshot < kv.sequence

/-- The saver `DBImpl::GetImpl` and `MemTable::GetFromTable` set up for a `Get` with the pending
check. -/
def Saver.init : Saver where
  status := .ok
  foundFinalValue := false
  mergeInProgress := false
  value := some []
  seq := 2 ^ 56 - 1
  mergeContext := []
  pendingCheckInMem := some false
  isBlobIndex := some false

/-- `MemTable::Get` as `DBImpl::GetImpl` calls it on a table without range tombstones. -/
def get (mergeOperator : Option (MergeOperator κ)) (k : κ) (snapshot : ℕ) (table : List (Kv κ)) :
    Option Saver :=
  let o : SaverOptions κ :=
    { key := k, maxCoveringTombstoneSeq := 0, mergeOperator := mergeOperator, callback := none,
      doMerge := true }
  walk o .init (seek k snapshot table)

/-- What the saver holds after the lookup, decoded as `TitanDBImpl::GetImpl` decodes it. -/
def Saver.denote (s : Saver) : Option Resolved :=
  if s.status.isOk && s.foundFinalValue then
    (⟨(), s.seq, if s.isBlobIndex = some true then .kTypeBlobIndex else .kTypeValue,
      s.value.getD []⟩ : Kv Unit).denote
  else none

/-! ## The walk over versions -/

theorem saverCheckIsGCWriteBack_bytes {v : Version} (hv : v.type = .kTypeBlobIndex) :
    saverCheckIsGCWriteBack v.bytes = some (OffloadedGC.isGCWriteBack v) := by
  cases v with
  | value b => cases hv
  | plain p =>
      have h := BlobIndexType.getTagged_put p []
      rw [List.append_nil] at h
      simp only [saverCheckIsGCWriteBack, Version.bytes, h]
      rfl
  | writeBack n o =>
      have hne : o.put.isEmpty = false := by simp [o.put_ne_nil]
      simp only [saverCheckIsGCWriteBack, Version.bytes, BlobIndexType.getTagged_put,
        Option.bind_eq_bind, Option.bind_some, hne]
      rfl

/-- The saver of the walk over bytes and the one of the walk over versions. -/
structure Mirrors (s : Saver) (a : OffloadedGC.Saver) : Prop where
  status : s.status = .ok
  mergeInProgress : s.mergeInProgress = false
  value : s.value.isSome
  pendingCheckInMem : s.pendingCheckInMem = some a.pendingCheckInMem
  isBlobIndex : s.isBlobIndex.isSome
  found : s.foundFinalValue = a.value.isSome
  held : ∀ v, a.value = some v →
    s.value = some v.bytes ∧ s.isBlobIndex = some (v.type == .kTypeBlobIndex)
  pending : a.pendingCheckInMem = true → ∃ v, a.value = some v ∧ v.type = .kTypeBlobIndex

theorem mirrors_init : Mirrors Saver.init {} :=
  ⟨rfl, rfl, rfl, rfl, rfl, rfl, fun _ h => (by cases h), fun h => (by cases h)⟩

variable {o : SaverOptions κ} {s : Saver} {a : OffloadedGC.Saver}

/-- The lookup of `GetImpl`: merges go on, every entry is visible and none is covered. -/
structure Plain (o : SaverOptions κ) : Prop where
  doMerge : o.doMerge = true
  callback : o.callback = none
  maxCoveringTombstoneSeq : o.maxCoveringTombstoneSeq = 0

theorem saveValue_value (ho : Plain o) (h : Mirrors s a) {seq : ℕ} {v : Bytes} :
    saveValue o s ⟨o.key, seq, .kTypeValue, v⟩ =
      some ({ s with
        seq := seq
        value := some v
        pendingCheckInMem := some false
        foundFinalValue := true
        isBlobIndex := some false }, false) := by
  obtain ⟨old, hold⟩ := Option.isSome_iff_exists.mp h.value
  obtain ⟨flag, hflag⟩ := Option.isSome_iff_exists.mp h.isBlobIndex
  simp [saveValue, SaverOptions.checkCallback, ho.callback, ho.maxCoveringTombstoneSeq, saveFound,
    h.mergeInProgress, ho.doMerge, Saver.assign, hold, h.pendingCheckInMem, hflag, h.status]

theorem saveValue_blobIndex (ho : Plain o) (h : Mirrors s a) (seq : ℕ) {v : Version}
    (hv : v.type = .kTypeBlobIndex) :
    saveValue o s ⟨o.key, seq, .kTypeBlobIndex, v.bytes⟩ =
      if a.pendingCheckInMem then
        some ({ s with
          seq := seq
          pendingCheckInMem := some false
          foundFinalValue := true
          isBlobIndex := some true }, false)
      else
        some ({ s with
          seq := seq
          value := some v.bytes
          pendingCheckInMem := some (OffloadedGC.isGCWriteBack v)
          foundFinalValue := true
          isBlobIndex := some true }, OffloadedGC.isGCWriteBack v) := by
  obtain ⟨old, hold⟩ := Option.isSome_iff_exists.mp h.value
  obtain ⟨flag, hflag⟩ := Option.isSome_iff_exists.mp h.isBlobIndex
  cases hp : a.pendingCheckInMem with
  | false =>
      simp [saveValue, SaverOptions.checkCallback, ho.callback, ho.maxCoveringTombstoneSeq, saveFound,
        Saver.checkBlobIndexAllowed, h.mergeInProgress, ho.doMerge, Saver.assign, hold,
        h.pendingCheckInMem, hflag, h.status, hp, saverCheckIsGCWriteBack_bytes hv]
  | true =>
      simp [saveValue, SaverOptions.checkCallback, ho.callback, ho.maxCoveringTombstoneSeq, saveFound,
        Saver.checkBlobIndexAllowed, h.mergeInProgress, ho.doMerge, Saver.assign, hold,
        h.pendingCheckInMem, hflag, h.status, hp]

/-- One entry of the key. -/
theorem Mirrors.saveValue (ho : Plain o) (h : Mirrors s a) {e : Entry κ} (hkey : e.userKey = o.key) :
    ∃ s', saveValue o s e.kv = some (s', (OffloadedGC.saveValue a e.version).2) ∧
      Mirrors s' (OffloadedGC.saveValue a e.version).1 := by
  obtain ⟨k, seq, v⟩ := e
  obtain rfl : k = o.key := hkey
  by_cases hv : v.type = .kTypeBlobIndex
  · have hstep := saveValue_blobIndex ho h seq hv
    have hkv : Entry.kv ⟨o.key, seq, v⟩ = ⟨o.key, seq, .kTypeBlobIndex, v.bytes⟩ := by
      simp [Entry.kv, hv]
    rw [hkv, hstep, OffloadedGC.saveValue, hv]
    cases hp : a.pendingCheckInMem with
    | false =>
        refine ⟨_, rfl, h.status, h.mergeInProgress, rfl, rfl, rfl, rfl, ?_, ?_⟩
        · rintro u hu
          obtain rfl := Option.some.inj hu
          exact ⟨rfl, by rw [hv]; rfl⟩
        · exact fun _ => ⟨v, rfl, hv⟩
    | true =>
        obtain ⟨u, hu, hut⟩ := h.pending hp
        refine ⟨_, rfl, h.status, h.mergeInProgress, h.value, rfl, rfl, ?_, ?_, fun hf => ?_⟩
        · change true = a.value.isSome
          rw [hu]
          rfl
        · rintro w hw
          obtain rfl := Option.some.inj (hu.symm.trans hw)
          exact ⟨(h.held u hu).1, by rw [hut]; rfl⟩
        · cases hf
  · obtain ⟨b, rfl⟩ : ∃ b, v = .value b := by
      cases v with
      | value b => exact ⟨b, rfl⟩
      | plain p => exact absurd rfl hv
      | writeBack n o => exact absurd rfl hv
    refine ⟨_, saveValue_value ho h, h.status, h.mergeInProgress, rfl, rfl, rfl, rfl, ?_, fun hf => ?_⟩
    · rintro u hu
      obtain rfl := Option.some.inj hu
      exact ⟨rfl, rfl⟩
    · cases hf

/-- The walk ends where the walk over the versions of the key ends. -/
theorem Mirrors.walk (ho : Plain o) (h : Mirrors s a) {es : List (Entry κ)}
    (hes : ∀ e ∈ es, e.userKey = o.key) {rest : List (Kv κ)}
    (hrest : ∀ kv ∈ rest.head?, kv.userKey ≠ o.key) :
    ∃ s', walk o s (es.map Entry.kv ++ rest) = some s' ∧
      Mirrors s' (OffloadedGC.getFromTable a (es.map (·.version))) := by
  induction es generalizing s a with
  | nil =>
      refine ⟨s, ?_, h⟩
      cases rest with
      | nil => rfl
      | cons kv rest =>
          have hstep : MemTable.saveValue o s kv = some (s, false) := by
            rw [MemTable.saveValue, if_pos (hrest kv rfl)]
          rw [List.map_nil, List.nil_append, MemTable.walk, hstep]
          rfl
  | cons e es ih =>
      obtain ⟨s', hstep, hs'⟩ := h.saveValue ho (hes e List.mem_cons_self)
      rw [List.map_cons, List.cons_append, MemTable.walk, hstep, List.map_cons,
        OffloadedGC.getFromTable]
      dsimp only
      split_ifs
      · exact ih hs' fun e he => hes e (List.mem_cons_of_mem _ he)
      · exact ⟨s', rfl, hs'⟩

theorem Mirrors.denote (h : Mirrors s a) : s.denote = a.value.map Version.target := by
  rw [Saver.denote, h.status, Status.isOk_ok, Bool.true_and, h.found]
  cases hv : a.value with
  | none => rfl
  | some v =>
      obtain ⟨hvalue, hblob⟩ := h.held v hv
      have henc : (⟨(), s.seq, if s.isBlobIndex = some true then .kTypeBlobIndex else .kTypeValue,
          s.value.getD []⟩ : Kv Unit).Encodes v := by
        rw [hvalue, hblob]
        refine ⟨?_, rfl⟩
        cases v <;> rfl
      exact henc.denote_eq

/-! ## The entries of a key -/

theorem filter_append_of_ge {k : κ} {input : List (Entry κ)}
    (hs : SortedInput input) (hge : ∀ e ∈ input, k ≤ e.userKey) :
    ∃ rest, input = (input.filter fun e => e.userKey = k) ++ rest ∧
      ∀ e ∈ rest.head?, e.userKey ≠ k := by
  induction input with
  | nil => exact ⟨[], rfl, fun _ h => (by cases h)⟩
  | cons e input ih =>
      obtain ⟨hfirst, hs⟩ := List.pairwise_cons.mp hs
      by_cases he : e.userKey = k
      · obtain ⟨rest, hrest, hhead⟩ := ih hs fun u hu => hge u (List.mem_cons_of_mem _ hu)
        refine ⟨rest, ?_, hhead⟩
        rw [List.filter_cons_of_pos (by simpa using he), List.cons_append, ← hrest]
      · have hlt : ∀ u ∈ e :: input, k < u.userKey := by
          have hke := lt_of_le_of_ne (hge e List.mem_cons_self) (Ne.symm he)
          intro u hu
          rcases List.mem_cons.mp hu with rfl | hu
          · exact hke
          · rcases hfirst u hu with h | ⟨h, -⟩
            · exact hke.trans h
            · exact h ▸ hke
        refine ⟨e :: input, ?_, ?_⟩
        · rw [List.filter_eq_nil_iff.mpr, List.nil_append]
          intro u hu
          simpa using (hlt u hu).ne'
        · rintro u hu
          obtain rfl := Option.some.inj hu
          exact he

/-- The seek stops at the newest visible entry of the key. -/
theorem seek_kv {k : κ} {snapshot : ℕ} {input : List (Entry κ)} (hs : SortedInput input)
    (hsnapshot : ∀ e ∈ input, e.userKey = k → e.sequence ≤ snapshot) :
    ∃ rest, seek k snapshot (input.map Entry.kv) =
        (input.filter fun e => e.userKey = k).map Entry.kv ++ rest ∧
      ∀ kv ∈ rest.head?, kv.userKey ≠ k := by
  induction input with
  | nil => exact ⟨[], rfl, fun _ h => (by cases h)⟩
  | cons e input ih =>
      obtain ⟨hfirst, htail⟩ := List.pairwise_cons.mp hs
      by_cases hlt : e.userKey < k
      · obtain ⟨rest, hrest, hhead⟩ := ih htail fun u hu => hsnapshot u (List.mem_cons_of_mem _ hu)
        refine ⟨rest, ?_, hhead⟩
        rw [List.filter_cons_of_neg (by simpa using hlt.ne), ← hrest, List.map_cons, seek,
          List.dropWhile_cons_of_pos]
        · rfl
        · simp [Entry.kv, hlt]
      · have hge : ∀ u ∈ e :: input, k ≤ u.userKey := by
          intro u hu
          rcases List.mem_cons.mp hu with rfl | hu
          · exact not_lt.mp hlt
          · rcases hfirst u hu with h | ⟨h, -⟩
            · exact (not_lt.mp hlt).trans h.le
            · exact h ▸ not_lt.mp hlt
        obtain ⟨rest, hrest, hhead⟩ := filter_append_of_ge hs hge
        refine ⟨rest.map Entry.kv, ?_, ?_⟩
        · rw [← List.map_append, ← hrest, List.map_cons, seek, List.dropWhile_cons_of_neg]
          have hseq : e.userKey = k → e.sequence ≤ snapshot := hsnapshot e List.mem_cons_self
          simpa [Entry.kv, hlt] using hseq
        · intro kv hkv
          rw [List.head?_map] at hkv
          obtain ⟨u, hu, rfl⟩ := Option.map_eq_some_iff.mp hkv
          exact hhead u hu

/-- The lookup is the walk over the versions of the key. -/
theorem get_denote (mergeOperator : Option (MergeOperator κ)) {k : κ} {snapshot : ℕ}
    {input : List (Entry κ)} (hs : SortedInput input)
    (hsnapshot : ∀ e ∈ input, e.userKey = k → e.sequence ≤ snapshot) :
    ∃ s, get mergeOperator k snapshot (input.map Entry.kv) = some s ∧
      s.denote = (OffloadedGC.getFromTable {} (versionsOf k input)).value.map Version.target := by
  obtain ⟨rest, hseek, hrest⟩ := seek_kv hs hsnapshot
  have hes : ∀ e ∈ input.filter fun e => e.userKey = k, e.userKey = k :=
    fun e he => of_decide_eq_true (List.mem_filter.mp he).2
  obtain ⟨s, hwalk, hs⟩ := mirrors_init.walk (o := ⟨k, 0, mergeOperator, none, true⟩)
    ⟨rfl, rfl, rfl⟩ hes hrest
  refine ⟨s, ?_, hs.denote⟩
  rw [get, hseek]
  exact hwalk

/-! ## The entry a flush keeps -/

/-- The lookup and the flush of the same memtable lead a reader of `k` to the same place. -/
def LookupAgrees (mergeOperator : Option (MergeOperator κ)) (snapshot : ℕ) (k : κ)
    (input : List (Entry κ)) : Prop :=
  ∃ s out kv, get mergeOperator k snapshot (input.map Entry.kv) = some s ∧
    emitted (input.map Entry.kv) = some out ∧ kv ∈ out ∧ kv.userKey = k ∧ s.denote = kv.denote

def writeBacksAbove (vs : List Version) : ℕ := (vs.takeWhile fun v => !v.isValue).length

/-- With at most one write-back above the newest Value the lookup finds the Value. -/
theorem getFromTable_eq_resolve_iff {vs : List Version} (hplain : ∀ v ∈ vs, v.isPlain = false)
    (hvalue : vs.any Version.isValue) :
    (OffloadedGC.getFromTable {} vs).value.map Version.target = (resolve vs).map Version.target ↔
      writeBacksAbove vs ≤ 1 := by
  obtain ⟨v, post, hvs⟩ := exists_newest_value hvalue
  have habove : ∀ u ∈ vs.takeWhile fun v => !v.isValue, u.isValue = false :=
    fun u hu => by simpa using List.mem_takeWhile_imp hu
  have hresolve : resolve vs = some (.value v) := by
    rw [hvs]
    exact resolve_of_value habove
  rw [hresolve, writeBacksAbove]
  generalize vs.takeWhile (fun v => !v.isValue) = above at hvs habove
  match above, hvs with
  | [], hvs =>
      rw [hvs]
      exact iff_of_true rfl (by simp)
  | [.writeBack n o], hvs =>
      rw [hvs]
      exact iff_of_true rfl (by simp)
  | .writeBack n o :: .writeBack c d :: above, hvs =>
      rw [hvs]
      refine iff_of_false (fun h => ?_) (by simp)
      cases h
  | .value b :: above, _ => cases habove (.value b) List.mem_cons_self
  | .plain p :: above, hvs =>
      cases hplain (.plain p) (by rw [hvs]; simp)
  | .writeBack n o :: .value b :: above, _ => cases habove (.value b) (by simp)
  | .writeBack n o :: .plain p :: above, hvs =>
      cases hplain (.plain p) (by rw [hvs]; simp)

/-- On a memtable of Values and write-backs the two agree on a key with a Value exactly when at
most one write-back lies above its newest Value. -/
theorem lookupAgrees_iff (mergeOperator : Option (MergeOperator κ)) {k : κ} {snapshot : ℕ}
    {input : List (Entry κ)} (hs : SortedInput input)
    (hsnapshot : ∀ e ∈ input, e.userKey = k → e.sequence ≤ snapshot)
    (hplain : ∀ v ∈ versionsOf k input, v.isPlain = false)
    (hvalue : (versionsOf k input).any Version.isValue) :
    LookupAgrees mergeOperator snapshot k input ↔ writeBacksAbove (versionsOf k input) ≤ 1 := by
  obtain ⟨s, hget, hdenote⟩ := get_denote mergeOperator hs hsnapshot
  obtain ⟨out, hout, -, hkeys, hkept⟩ := preprocess_spec hs
  have hflush : ∀ kv ∈ out, kv.userKey = k →
      kv.denote = (resolve (versionsOf k input)).map Version.target := by
    intro kv hkv hk
    obtain ⟨r, hr, henc⟩ := hkept kv hkv
    rw [henc.denote_eq, ← hk, hr]
    rfl
  rw [← getFromTable_eq_resolve_iff hplain hvalue, ← hdenote]
  constructor
  · rintro ⟨s', out', kv, hget', hout', hkv, hk, hagree⟩
    obtain rfl := Option.some.inj (hget.symm.trans hget')
    obtain rfl := Option.some.inj (hout.symm.trans hout')
    rw [hagree, hflush kv hkv hk]
  · intro hagree
    have hmem : k ∈ input.map (·.userKey) := by
      by_contra hnot
      rw [versionsOf_eq_nil hnot] at hvalue
      cases hvalue
    obtain ⟨kv, hkv, hk⟩ := List.mem_map.mp ((hkeys k).mpr hmem)
    exact ⟨s, out, kv, hget, hout, hkv, hk, hagree.trans (hflush kv hkv hk).symm⟩

/-- A write-back that lost the race against a user Put. -/
def staleWriteBack : List (Entry ℕ) :=
  [⟨0, 2, .writeBack ⟨2, 12, 20, 0⟩ ⟨1, 12, 20, 0⟩⟩, ⟨0, 1, .value [7]⟩]

theorem staleWriteBack_agrees : LookupAgrees none 5 0 staleWriteBack :=
  (lookupAgrees_iff none (by simp [SortedInput, staleWriteBack]) (by decide) (by decide)
    (by decide)).mpr (by decide)

/-- The copy is collected once more before the memtable is flushed. -/
def staleWriteBacks : List (Entry ℕ) :=
  ⟨0, 3, .writeBack ⟨3, 12, 20, 0⟩ ⟨2, 12, 20, 0⟩⟩ :: staleWriteBack

/-- The lookup stops at the second write-back and returns the first one, the flush keeps the
Value. -/
theorem staleWriteBacks_disagree :
    SortedInput staleWriteBacks ∧
      (∀ v ∈ versionsOf 0 staleWriteBacks, v.isPlain = false) ∧
      (versionsOf 0 staleWriteBacks).any Version.isValue ∧
      (get none 0 5 (staleWriteBacks.map Entry.kv)).bind Saver.denote =
        some (.pointer ⟨3, 12, 20, 0⟩) ∧
      preprocess (staleWriteBacks.map Entry.kv) = some [⟨0, 1, .kTypeValue, [7]⟩] ∧
      ¬LookupAgrees none 5 0 staleWriteBacks := by
  have hget : (get none 0 5 (staleWriteBacks.map Entry.kv)).bind Saver.denote =
      some (.pointer ⟨3, 12, 20, 0⟩) := by decide +kernel
  have hkept : preprocess (staleWriteBacks.map Entry.kv) = some [⟨0, 1, .kTypeValue, [7]⟩] := by
    decide +kernel
  refine ⟨by simp [SortedInput, staleWriteBacks, staleWriteBack], by decide, by decide, hget, hkept, ?_⟩
  rintro ⟨s, out, kv, hs, hout, hkv, -, hagree⟩
  rw [hs, Option.bind_some] at hget
  rw [emitted_eq_preprocess, hkept] at hout
  obtain rfl := Option.some.inj hout
  rw [List.mem_singleton.mp hkv, hget] at hagree
  exact absurd hagree (by decide)

end MemTable

end Get
end AegonKV
