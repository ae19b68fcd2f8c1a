import AegonKV.KeyedFold
import AegonKV.Preprocess

/-!
# Versions of a key and the pass that resolves them

`foldVersions` says what a list of versions means: the oldest one first, each newer one applied to
the state below it. `resolve` is what `Preprocess` keeps of the same list, newest first with one
candidate. `preprocess_spec` identifies the byte-level pass with `resolve` on every key, so that
the two can be compared version by version.
-/

namespace AegonKV
open LittleEndian

inductive Version
  | value (v : Bytes)
  | plain (p : BlobIndexType)
  | writeBack (new old : BlobIndexType)
  deriving DecidableEq, Repr

inductive Resolved
  | value (v : Bytes)
  | pointer (p : BlobIndexType)
  deriving DecidableEq, Repr

namespace Version

def type : Version → ValueType
  | .value _ => .kTypeValue
  | .plain _ => .kTypeBlobIndex
  | .writeBack _ _ => .kTypeBlobIndex

def bytes : Version → Bytes
  | .value v => v
  | .plain p => 1 :: p.put
  | .writeBack n o => 1 :: n.put ++ o.put

def isValue : Version → Bool
  | .value _ => true
  | _ => false

def isPlain : Version → Bool
  | .plain _ => true
  | _ => false

/-- A version other than a write-back, which a user write or its flush leaves behind. -/
def isUserWrite : Version → Bool
  | .writeBack _ _ => false
  | _ => true

def apply : Version → Option Resolved → Option Resolved
  | .value v, _ => some (.value v)
  | .plain p, _ => some (.pointer p)
  | .writeBack n o, some (.pointer c) => some (.pointer (if o.sameRecord c then n else c))
  | .writeBack _ _, s => s

/-- The branches of `Preprocess` on the candidate `pre` and the next older version. -/
def combine : Version → Version → Version
  | .value v, _ => .value v
  | .plain _, .value v => .value v
  | .writeBack _ _, .value v => .value v
  | .plain p, _ => .plain p
  | .writeBack n o, .plain c => .plain (if o.sameRecord c then n else c)
  | .writeBack n o, .writeBack c _ => .plain (if o.sameRecord c then n else c)

/-- Where a reader that meets the version goes, whatever lies below it. -/
def target : Version → Resolved
  | .value v => .value v
  | .plain p => .pointer p
  | .writeBack n _ => .pointer n

end Version

/-- The fold of a key's versions, listed newest first, from the oldest to the newest. -/
def foldVersions (vs : List Version) : Option Resolved := vs.foldr Version.apply none

/-- What `Preprocess` keeps of a key's versions, listed newest first. -/
def resolve : List Version → Option Version
  | [] => none
  | v :: vs => some (vs.foldl Version.combine v)

theorem resolve_append_singleton (vs : List Version) (v : Version) :
    resolve (vs ++ [v]) = some ((resolve vs).elim v fun r => r.combine v) := by
  cases vs with
  | nil => rfl
  | cons u us => simp [resolve]

@[simp] theorem foldVersions_cons (v : Version) (vs : List Version) :
    foldVersions (v :: vs) = v.apply (foldVersions vs) := rfl

section Stream

variable {κ : Type}

structure Entry (κ : Type) where
  userKey : κ
  sequence : ℕ
  version : Version
  deriving DecidableEq, Repr

def Entry.kv (e : Entry κ) : Kv κ := ⟨e.userKey, e.sequence, e.version.type, e.version.bytes⟩

def Kv.Encodes (kv : Kv κ) (v : Version) : Prop := kv.type = v.type ∧ kv.value = v.bytes

/-- The state an emitted entry puts a reader in, decoded as `TitanDBImpl::GetImpl` decodes it. -/
def Kv.denote (kv : Kv κ) : Option Resolved :=
  match kv.type with
  | .kTypeValue => some (.value kv.value)
  | .kTypeBlobIndex =>
    match BlobIndex.decodeFrom kv.value with
    | .ok (b, _) => some (.pointer ⟨b.fileNumber, b.blobHandle.offset, b.blobHandle.size,
        b.blobHandle.index⟩)
    | .error _ => none
  | _ => none

theorem decodeFrom_put_append (p : BlobIndexType) (old : Option BlobIndexType) :
    ∃ b rest, BlobIndex.decodeFrom (1 :: p.put ++ (old.map BlobIndexType.put).getD []) =
      .ok (b, rest) ∧ b.fileNumber = p.fileNumber ∧
      b.blobHandle = ⟨p.offset, p.size, p.index⟩ := by
  have hp : p.put = putVarint64 p.fileNumber ++
      (BlobHandle.encodeTo ⟨p.offset, p.size, p.index⟩) := by
    simp [BlobIndexType.put, BlobHandle.encodeTo, List.append_assoc]
  have h1 : (1 : UInt8) = BlobIndex.kBlobRecord := rfl
  cases old with
  | none =>
      refine ⟨⟨p.fileNumber, ⟨p.offset, p.size, p.index⟩, 0, ⟨0, 0, 0⟩⟩, [], ?_, rfl, rfl⟩
      have hplain := BlobIndex.decodeFrom_encodeTo_of_plain p.fileNumber
        ⟨p.offset, p.size, p.index⟩
      simpa [BlobIndex.encodeTo, hp, h1] using hplain
  | some o =>
      have ho : o.put = putVarint64 o.fileNumber ++
          (BlobHandle.encodeTo ⟨o.offset, o.size, o.index⟩) := by
        simp [BlobIndexType.put, BlobHandle.encodeTo, List.append_assoc]
      refine ⟨⟨p.fileNumber, ⟨p.offset, p.size, p.index⟩, o.fileNumber,
        ⟨o.offset, o.size, o.index⟩⟩, [], ?_, rfl, rfl⟩
      have hold := BlobHandle.decodeFrom_encodeTo ⟨o.offset, o.size, o.index⟩ []
      rw [List.append_nil] at hold
      have hne : (putVarint64 o.fileNumber ++
          BlobHandle.encodeTo ⟨o.offset, o.size, o.index⟩).isEmpty = false := by
        simp [BlobIndex.putVarint64_ne_nil]
      simp only [hp, ho, h1, BlobIndex.decodeFrom, Option.map_some, Option.getD_some, getChar,
        List.cons_append, Option.bind_eq_bind, Option.bind_some, ne_eq, not_true_eq_false,
        if_false, List.append_assoc, getVarint64_putVarint64, BlobHandle.decodeFrom_encodeTo, hne,
        hold]
      rfl

theorem Kv.Encodes.denote_eq {kv : Kv κ} {v : Version} (h : kv.Encodes v) :
    kv.denote = some v.target := by
  obtain ⟨htype, hvalue⟩ := h
  cases v with
  | value v => simp [denote, htype, hvalue, Version.type, Version.bytes, Version.target]
  | plain p =>
      obtain ⟨b, rest, hdec, hf, hh⟩ := decodeFrom_put_append p none
      simp only [Option.map_none, Option.getD_none, List.append_nil] at hdec
      simp [denote, htype, hvalue, Version.type, Version.bytes, Version.target, hdec, hf, hh]
  | writeBack n o =>
      obtain ⟨b, rest, hdec, hf, hh⟩ := decodeFrom_put_append n (some o)
      simp only [Option.map_some, Option.getD_some, List.cons_append] at hdec
      simp [denote, htype, hvalue, Version.type, Version.bytes, Version.target, hdec, hf, hh]

variable [DecidableEq κ]

def versionsOf (k : κ) (input : List (Entry κ)) : List Version :=
  (input.filter fun e => e.userKey = k).map (·.version)

theorem versionsOf_eq_nil {k : κ} {input : List (Entry κ)}
    (h : k ∉ input.map (·.userKey)) : versionsOf k input = [] := by
  rw [versionsOf, List.map_eq_nil_iff, List.filter_eq_nil_iff]
  intro e he hk
  exact h (List.mem_map.mpr ⟨e, he, of_decide_eq_true hk⟩)

/-- A step on an equal key replaces the candidate's version by `combine`. -/
theorem preprocessStep_same {pre : Kv κ} (queue : List (Kv κ)) {r : Version} {e : Entry κ}
    (hkey : e.userKey = pre.userKey) (hpre : pre.Encodes r) :
    ∃ kv, preprocessStep (pre :: queue) e.kv = some (kv :: queue) ∧ kv.userKey = pre.userKey ∧
      kv.Encodes (r.combine e.version) := by
  obtain ⟨htype, hvalue⟩ := hpre
  obtain ⟨k, seq, v⟩ := e
  simp only at hkey
  subst hkey
  have hlist : ∀ x : BlobIndexType, 1 :: x.put ++ [] = 1 :: x.put := by simp
  cases r with
  | value a =>
      refine ⟨pre, ?_, rfl, ?_⟩
      · cases v <;> simp [preprocessStep, Entry.kv, htype, Version.type]
      · cases v <;> exact ⟨htype, hvalue⟩
  | plain p =>
      cases v with
      | value b =>
          refine ⟨Entry.kv ⟨pre.userKey, seq, .value b⟩, ?_, rfl, rfl, rfl⟩
          simp [preprocessStep, Entry.kv, htype, Version.type]
      | plain c =>
          refine ⟨pre, ?_, rfl, htype, hvalue⟩
          simp [preprocessStep, Entry.kv, htype, hvalue, Version.type, Version.bytes,
            checkBlobIndex_plain]
      | writeBack c d =>
          refine ⟨pre, ?_, rfl, htype, hvalue⟩
          simp [preprocessStep, Entry.kv, htype, hvalue, Version.type, Version.bytes,
            checkBlobIndex_plain]
  | writeBack n o =>
      cases v with
      | value b =>
          refine ⟨Entry.kv ⟨pre.userKey, seq, .value b⟩, ?_, rfl, rfl, rfl⟩
          simp [preprocessStep, Entry.kv, htype, Version.type]
      | plain c =>
          have hcheck := checkBlobIndex_writeBack n o c []
          rw [hlist] at hcheck
          refine ⟨{ pre with value := 1 :: (if o.sameRecord c then n else c).put }, ?_, rfl,
            htype, rfl⟩
          simp only [preprocessStep, Entry.kv, htype, hvalue, Version.type, Version.bytes, hcheck]
          simp
      | writeBack c d =>
          have hcheck := checkBlobIndex_writeBack n o c d.put
          refine ⟨{ pre with value := 1 :: (if o.sameRecord c then n else c).put }, ?_, rfl,
            htype, rfl⟩
          simp only [preprocessStep, Entry.kv, htype, hvalue, Version.type, Version.bytes, hcheck]
          simp

theorem preprocessStep_other (queue : List (Kv κ)) (e : Entry κ)
    (h : ∀ pre ∈ queue.head?, e.userKey ≠ pre.userKey) :
    preprocessStep queue e.kv = some (e.kv :: queue) := by
  have htype : ¬(e.kv.type ≠ .kTypeValue ∧ e.kv.type ≠ .kTypeBlobIndex) := by
    cases hv : e.version <;> simp [Entry.kv, hv, Version.type]
  cases queue with
  | nil => rw [preprocessStep, if_neg htype]
  | cons pre queue =>
      have hne : e.kv.userKey ≠ pre.userKey := h pre rfl
      simp only [preprocessStep, if_neg htype, if_neg hne]

end Stream

section Sorted

variable {κ : Type} [LinearOrder κ]

/-- Sorted by user key and then newest first. -/
def SortedInput (input : List (Entry κ)) : Prop :=
  input.Pairwise fun a b => a.userKey < b.userKey ∨ (a.userKey = b.userKey ∧ b.sequence < a.sequence)

/-- The candidate of a key holds the resolution of its versions. -/
theorem preprocessStep_pass : KeyedFold.Pass (κ := κ) Entry.userKey Kv.userKey
    (fun queue e => preprocessStep queue e.kv)
    (fun run kv => ∃ r, resolve (run.map Entry.version) = some r ∧ kv.Encodes r) where
  same := by
    rintro queue pre e run hkey ⟨r, hr, hpre⟩
    obtain ⟨kv, hstep, hkv, henc⟩ := preprocessStep_same queue hkey hpre
    refine ⟨kv, hstep, hkv, r.combine e.version, ?_, henc⟩
    rw [List.map_append, List.map_singleton, resolve_append_singleton, hr]
    rfl
  other := by
    intro queue e hother
    exact ⟨e.kv, preprocessStep_other queue e hother, rfl, e.version, rfl, rfl, rfl⟩

/-- On a sorted stream the pass never trips an assertion and emits, in user-key order, the
resolution of every key's versions. -/
theorem preprocess_spec {input : List (Entry κ)} (hs : SortedInput input) :
    ∃ out, emitted (input.map Entry.kv) = some out ∧
      (out.map (·.userKey)).Pairwise (· < ·) ∧
      (∀ k, k ∈ out.map (·.userKey) ↔ k ∈ input.map (·.userKey)) ∧
      ∀ kv ∈ out, ∃ r, resolve (versionsOf kv.userKey input) = some r ∧ kv.Encodes r := by
  have hle : input.Pairwise fun a b => a.userKey ≤ b.userKey :=
    hs.imp fun h => h.elim le_of_lt fun heq => heq.1.le
  obtain ⟨queue, hq, hinv⟩ := preprocessStep_pass.foldlM hle
  refine ⟨queue.reverse, ?_, ?_, ?_, ?_⟩
  · rw [emitted_eq_preprocess, preprocess, List.foldlM_map, hq]
    rfl
  · rw [List.pairwise_map, List.pairwise_reverse]
    exact hinv.sorted
  · intro k
    rw [List.map_reverse, List.mem_reverse]
    exact hinv.covers k
  · intro kv hkv
    exact hinv.holds kv (List.mem_reverse.mp hkv)

end Sorted
end AegonKV
