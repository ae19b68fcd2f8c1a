import AegonKV.VersionResolution

/-!
# Deletions in the preprocessing pass

`Preprocess` asserts that it only meets values and blob indexes, but `Delete` is open to users with
preprocessing on. In a build without assertions the pass goes on: a `Deletion` is treated as a blob
index wherever it is not a value, and a decoder that fails leaves zeros behind. The pass of
`Preprocess.lean` is this one as long as no assertion fails.
-/

namespace AegonKV
open LittleEndian

/-! ## The pass without assertions -/

def BlobIndexType.zero : BlobIndexType := ⟨0, 0, 0, 0⟩

/-- Four `GetVarint64` in a row. A call that fails leaves its field and the input alone, and the
calls after it are not made. -/
def BlobIndexType.getUnchecked (src : Bytes) : BlobIndexType × Bytes :=
  match getVarint64 src with
  | none => (.zero, src)
  | some (fileNumber, src) =>
    match getVarint64 src with
    | none => (⟨fileNumber, 0, 0, 0⟩, src)
    | some (offset, src) =>
      match getVarint64 src with
      | none => (⟨fileNumber, offset, 0, 0⟩, src)
      | some (size, src) =>
        match getVarint64 src with
        | none => (⟨fileNumber, offset, size, 0⟩, src)
        | some (index, src) => (⟨fileNumber, offset, size, index⟩, src)

def BlobIndexType.getTaggedUnchecked (src : Bytes) : BlobIndexType × Bytes :=
  match getChar src with
  | none => (.zero, src)
  | some (type, src) => if type ≠ 1 then (.zero, src) else BlobIndexType.getUnchecked src

/-- `CheckBlobIndex`: `none` is `false`, `some r` is `true` with `*resV = r`. -/
def checkBlobIndexUnchecked (prev cur : Bytes) : Option Bytes :=
  let (prevNew, prev) := BlobIndexType.getTaggedUnchecked prev
  if prev.isEmpty then none
  else
    let (prevOld, _) := BlobIndexType.getUnchecked prev
    let (curNew, _) := BlobIndexType.getTaggedUnchecked cur
    if prevOld.sameRecord curNew then some (1 :: prevNew.put) else some (1 :: curNew.put)

section Stream

variable {κ : Type} [DecidableEq κ]

/-- One turn of the loop of `Preprocess`. The head of the list is `kv_queue_.back()`. -/
def preprocessStepUnchecked (queue : List (Kv κ)) (kv : Kv κ) : List (Kv κ) :=
  match queue with
  | [] => [kv]
  | pre :: queue =>
    if kv.userKey = pre.userKey then
      match pre.type with
      | .kTypeValue => pre :: queue
      | .kTypeBlobIndex =>
        if kv.type = .kTypeValue then kv :: queue
        else
          match checkBlobIndexUnchecked pre.value kv.value with
          | none => pre :: queue
          | some resValue => { pre with value := resValue } :: queue
      | _ => pre :: queue
    else kv :: pre :: queue

def emittedUnchecked (input : List (Kv κ)) : List (Kv κ) :=
  nextFromCache (input.foldl preprocessStepUnchecked []).reverse 0

namespace BlobIndexType

theorem getUnchecked_of_get {src rest : Bytes} {p : BlobIndexType} (h : get src = some (p, rest)) :
    getUnchecked src = (p, rest) := by
  simp only [get, Option.bind_eq_bind, Option.bind_eq_some_iff, Option.pure_def, Option.some.injEq,
    Prod.exists] at h
  obtain ⟨fileNumber, src₁, h₁, offset, src₂, h₂, size, src₃, h₃, index, src₄, h₄, heq⟩ := h
  simp only [getUnchecked, h₁, h₂, h₃, h₄]
  exact heq

theorem getTaggedUnchecked_of_getTagged {src rest : Bytes} {p : BlobIndexType}
    (h : getTagged src = some (p, rest)) : getTaggedUnchecked src = (p, rest) := by
  simp only [getTagged, Option.bind_eq_bind, Option.bind_eq_some_iff, Prod.exists] at h
  obtain ⟨type, src', hchar, hget⟩ := h
  simp only [getTaggedUnchecked, hchar]
  split_ifs at hget ⊢ with htype
  exact getUnchecked_of_get hget

end BlobIndexType

/-- Where no assertion of `CheckBlobIndex` fails, the two agree. -/
theorem checkBlobIndexUnchecked_of_check {prev cur : Bytes} {r : Option Bytes}
    (h : checkBlobIndex prev cur = some r) : checkBlobIndexUnchecked prev cur = r := by
  simp only [checkBlobIndex, Option.bind_eq_bind, Option.bind_eq_some_iff, Prod.exists] at h
  obtain ⟨prevNew, prev', hprev, h⟩ := h
  simp only [checkBlobIndexUnchecked, BlobIndexType.getTaggedUnchecked_of_getTagged hprev]
  by_cases hempty : prev'.isEmpty = true
  · rw [if_pos hempty] at h ⊢
    exact Option.some.inj h
  · rw [if_neg hempty] at h ⊢
    simp only [Option.bind_eq_some_iff, Prod.exists] at h
    obtain ⟨prevOld, _, hold, curNew, _, hcur, h⟩ := h
    simp only [BlobIndexType.getUnchecked_of_get hold,
      BlobIndexType.getTaggedUnchecked_of_getTagged hcur]
    by_cases hsame : prevOld.sameRecord curNew = true
    · rw [if_pos hsame] at h ⊢
      exact Option.some.inj h
    · rw [if_neg hsame] at h ⊢
      exact Option.some.inj h

theorem preprocessStepUnchecked_of_step {queue queue' : List (Kv κ)} {kv : Kv κ}
    (h : preprocessStep queue kv = some queue') : preprocessStepUnchecked queue kv = queue' := by
  unfold preprocessStep at h
  by_cases hassert : kv.type ≠ .kTypeValue ∧ kv.type ≠ .kTypeBlobIndex
  · rw [if_pos hassert] at h
    cases h
  rw [if_neg hassert] at h
  cases queue with
  | nil => exact Option.some.inj h
  | cons pre queue =>
      simp only [preprocessStepUnchecked] at h ⊢
      by_cases hkey : kv.userKey = pre.userKey
      · rw [if_pos hkey] at h ⊢
        cases hpre : pre.type with
        | kTypeValue =>
            rw [hpre] at h
            exact Option.some.inj h
        | kTypeBlobIndex =>
            simp only [hpre] at h
            by_cases hvalue : kv.type = .kTypeValue
            · rw [if_pos hvalue] at h
              simp only [if_pos hvalue]
              exact Option.some.inj h
            · rw [if_neg hvalue] at h
              simp only [if_neg hvalue]
              cases hcheck : checkBlobIndex pre.value kv.value with
              | none =>
                  rw [hcheck] at h
                  cases h
              | some r =>
                  rw [hcheck] at h
                  rw [checkBlobIndexUnchecked_of_check hcheck]
                  cases r with
                  | none => exact Option.some.inj h
                  | some r => exact Option.some.inj h
        | kTypeDeletion => simp [hpre] at h
        | kTypeMerge => simp [hpre] at h
        | kTypeSingleDeletion => simp [hpre] at h
      · rw [if_neg hkey] at h ⊢
        exact Option.some.inj h

/-- Where no assertion fails, both builds of the pass emit the same. -/
theorem emittedUnchecked_of_emitted {input out : List (Kv κ)} (h : emitted input = some out) :
    emittedUnchecked input = out := by
  have hfold : ∀ (input : List (Kv κ)) queue queue', input.foldlM preprocessStep queue = some queue' →
      input.foldl preprocessStepUnchecked queue = queue' := by
    intro input
    induction input with
    | nil =>
        intro queue queue' h
        exact Option.some.inj h
    | cons kv input ih =>
        intro queue queue' h
        rw [List.foldlM_cons, Option.bind_eq_bind, Option.bind_eq_some_iff] at h
        obtain ⟨next, hstep, hrest⟩ := h
        rw [List.foldl_cons, preprocessStepUnchecked_of_step hstep]
        exact ih next queue' hrest
  rw [emitted, preprocess, Option.map_map, Option.map_eq_some_iff] at h
  obtain ⟨queue, hqueue, rfl⟩ := h
  rw [emittedUnchecked, hfold input [] queue hqueue]
  rfl

end Stream

/-! ## Versions with deletions -/

inductive StreamVersion
  | version (v : Version)
  | deletion
  deriving DecidableEq, Repr

namespace StreamVersion

def type : StreamVersion → ValueType
  | .version v => v.type
  | .deletion => .kTypeDeletion

/-- A `Deletion` has an empty value. -/
def bytes : StreamVersion → Bytes
  | .version v => v.bytes
  | .deletion => []

def isUserWrite : StreamVersion → Bool
  | .version v => v.isUserWrite
  | .deletion => true

def parts : StreamVersion → List BlobIndexType
  | .version (.plain p) => [p]
  | .version (.writeBack new old) => [new, old]
  | _ => []

/-- The branches of `Preprocess` on the candidate and the next older version. -/
def combine : StreamVersion → StreamVersion → StreamVersion
  | .version r, .version v => .version (r.combine v)
  | .version (.writeBack new old), .deletion =>
    .version (.plain (if old.sameRecord .zero then new else .zero))
  | r, _ => r

end StreamVersion

/-- What the pass keeps of a key's versions, listed newest first. -/
def resolveStream : List StreamVersion → Option StreamVersion
  | [] => none
  | v :: vs => some (vs.foldl StreamVersion.combine v)

theorem resolveStream_append_singleton {vs : List StreamVersion} {r : StreamVersion}
    (hr : resolveStream vs = some r) (v : StreamVersion) :
    resolveStream (vs ++ [v]) = some (r.combine v) := by
  cases vs with
  | nil => cases hr
  | cons u us =>
      cases hr
      simp [resolveStream]

section Entries

variable {κ : Type}

structure StreamEntry (κ : Type) where
  userKey : κ
  sequence : ℕ
  version : StreamVersion
  deriving DecidableEq, Repr

def StreamEntry.kv (e : StreamEntry κ) : Kv κ :=
  ⟨e.userKey, e.sequence, e.version.type, e.version.bytes⟩

def Kv.EncodesStream (kv : Kv κ) (v : StreamVersion) : Prop := kv.type = v.type ∧ kv.value = v.bytes

theorem checkBlobIndexUnchecked_plain (p : BlobIndexType) (cur : Bytes) :
    checkBlobIndexUnchecked (1 :: p.put) cur = none :=
  checkBlobIndexUnchecked_of_check (checkBlobIndex_plain p cur)

/-- The value of a `Deletion` does not decode, and the zeros it leaves are compared and stored. -/
theorem checkBlobIndexUnchecked_deletion (new old : BlobIndexType) :
    checkBlobIndexUnchecked (1 :: new.put ++ old.put) [] =
      some (1 :: (if old.sameRecord .zero then new else BlobIndexType.zero).put) := by
  have hold := BlobIndexType.get_put old []
  rw [List.append_nil] at hold
  have hempty : ¬old.put.isEmpty = true := by simp [old.put_ne_nil]
  have hcur : BlobIndexType.getTaggedUnchecked [] = (.zero, []) := rfl
  simp only [checkBlobIndexUnchecked,
    BlobIndexType.getTaggedUnchecked_of_getTagged (BlobIndexType.getTagged_put new old.put),
    if_neg hempty, BlobIndexType.getUnchecked_of_get hold, hcur]
  split_ifs
  · rfl
  · rfl

variable [DecidableEq κ]

theorem preprocessStepUnchecked_same {pre : Kv κ} (queue : List (Kv κ)) {r : StreamVersion}
    {e : StreamEntry κ} (hkey : e.userKey = pre.userKey) (hpre : pre.EncodesStream r) :
    ∃ kv, preprocessStepUnchecked (pre :: queue) e.kv = kv :: queue ∧ kv.userKey = pre.userKey ∧
      kv.EncodesStream (r.combine e.version) := by
  obtain ⟨k, seq, v⟩ := e
  obtain ⟨htype, hvalue⟩ := hpre
  have hkey' : (StreamEntry.kv ⟨k, seq, v⟩).userKey = pre.userKey := hkey
  cases r with
  | deletion =>
      refine ⟨pre, ?_, rfl, htype, hvalue⟩
      have htype' : pre.type = .kTypeDeletion := htype
      simp only [preprocessStepUnchecked, if_pos hkey', htype']
  | version r =>
      cases v with
      | version v =>
          obtain ⟨kv, hstep, hkv, henc⟩ :=
            preprocessStep_same (r := r) (e := ⟨k, seq, v⟩) queue hkey ⟨htype, hvalue⟩
          exact ⟨kv, preprocessStepUnchecked_of_step hstep, hkv, henc⟩
      | deletion =>
          have hother : (StreamEntry.kv ⟨k, seq, .deletion⟩).type ≠ .kTypeValue := nofun
          have hbytes : (StreamEntry.kv ⟨k, seq, .deletion⟩).value = [] := rfl
          cases r with
          | value a =>
              refine ⟨pre, ?_, rfl, htype, hvalue⟩
              have htype' : pre.type = .kTypeValue := htype
              simp only [preprocessStepUnchecked, if_pos hkey', htype']
          | plain p =>
              refine ⟨pre, ?_, rfl, htype, hvalue⟩
              have htype' : pre.type = .kTypeBlobIndex := htype
              have hvalue' : pre.value = 1 :: p.put := hvalue
              simp only [preprocessStepUnchecked, if_pos hkey', htype', if_neg hother, hvalue',
                checkBlobIndexUnchecked_plain]
          | writeBack new old =>
              refine ⟨{ pre with
                value := 1 :: (if old.sameRecord .zero then new else BlobIndexType.zero).put }, ?_, rfl,
                htype, rfl⟩
              have htype' : pre.type = .kTypeBlobIndex := htype
              have hvalue' : pre.value = 1 :: new.put ++ old.put := hvalue
              simp only [preprocessStepUnchecked, if_pos hkey', htype', if_neg hother, hvalue',
                hbytes, checkBlobIndexUnchecked_deletion]

theorem preprocessStepUnchecked_other (queue : List (Kv κ)) (kv : Kv κ)
    (h : ∀ pre ∈ queue.head?, kv.userKey ≠ pre.userKey) :
    preprocessStepUnchecked queue kv = kv :: queue := by
  cases queue with
  | nil => rfl
  | cons pre queue =>
      have hne : kv.userKey ≠ pre.userKey := h pre rfl
      rw [preprocessStepUnchecked, if_neg hne]

end Entries

/-! ## What is kept of a key -/

/-- The newest version of a key that is no write-back. -/
def newestUserWrite (vs : List StreamVersion) : Option StreamVersion :=
  vs.find? StreamVersion.isUserWrite

theorem StreamVersion.combine_eq_deletion {r v : StreamVersion} : r.combine v = .deletion ↔ r = .deletion := by
  cases r with
  | deletion => simp [StreamVersion.combine]
  | version r =>
      cases v with
      | version v => simp [StreamVersion.combine]
      | deletion => cases r <;> simp [StreamVersion.combine]

/-- A deletion is kept exactly when it is the newest version of all. -/
theorem resolveStream_eq_deletion {vs : List StreamVersion} :
    resolveStream vs = some .deletion ↔ vs.head? = some .deletion := by
  cases vs with
  | nil => simp [resolveStream]
  | cons v vs =>
      simp only [resolveStream, List.head?_cons, Option.some.injEq]
      induction vs generalizing v with
      | nil => exact Iff.rfl
      | cons u us ih => exact (ih (v.combine u)).trans StreamVersion.combine_eq_deletion

theorem StreamVersion.foldl_combine_value (a : Bytes) (vs : List StreamVersion) :
    vs.foldl StreamVersion.combine (.version (.value a)) = .version (.value a) := by
  induction vs with
  | nil => rfl
  | cons v vs ih =>
      cases v with
      | version v => cases v <;> exact ih
      | deletion => exact ih

/-- From a plain index on, only a value can take its place. -/
theorem StreamVersion.foldl_combine_plain (p : BlobIndexType) (vs : List StreamVersion) :
    vs.foldl StreamVersion.combine (.version (.plain p)) = .version (.plain p) ∨
      ∃ a, vs.foldl StreamVersion.combine (.version (.plain p)) = .version (.value a) := by
  induction vs with
  | nil => exact Or.inl rfl
  | cons v vs ih =>
      cases v with
      | deletion => exact ih
      | version v =>
          cases v with
          | value a => exact Or.inr ⟨a, StreamVersion.foldl_combine_value a vs⟩
          | plain c => exact ih
          | writeBack c d => exact ih

/-- The version is a blob index whose new part is `p`. -/
def StreamVersion.PointsTo (r : StreamVersion) (p : BlobIndexType) : Prop :=
  r = .version (.plain p) ∨ ∃ old, r = .version (.writeBack p old)

/-- With no write-back above a deleting write, whatever is kept names a record of the versions. -/
theorem resolveStream_pointsTo {vs : List StreamVersion} {r : StreamVersion}
    (hdelete : newestUserWrite vs = some .deletion → vs.head? = some .deletion)
    (hr : resolveStream vs = some r) (hpointer : r.type = .kTypeBlobIndex) :
    ∃ v ∈ vs, ∃ p ∈ v.parts, r.PointsTo p := by
  have hvalue {a : Bytes} {us : List StreamVersion} :
      ¬us.foldl StreamVersion.combine (.version (.value a)) = r := by
    rintro rfl
    rw [StreamVersion.foldl_combine_value] at hpointer
    cases hpointer
  have hplain {p : BlobIndexType} {us : List StreamVersion}
      (hfold : us.foldl StreamVersion.combine (.version (.plain p)) = r) : r.PointsTo p := by
    rcases StreamVersion.foldl_combine_plain p us with h | ⟨a, h⟩
    · exact Or.inl (hfold.symm.trans h)
    · rw [← hfold, h] at hpointer
      cases hpointer
  cases vs with
  | nil => cases hr
  | cons v us =>
      have hfold : us.foldl StreamVersion.combine v = r := Option.some.inj hr
      cases v with
      | deletion =>
          have hkept : resolveStream (.deletion :: us) = some .deletion :=
            resolveStream_eq_deletion.mpr rfl
          rw [hr] at hkept
          cases hkept
          cases hpointer
      | version v =>
          cases v with
          | value a => exact absurd hfold hvalue
          | plain p => exact ⟨_, List.mem_cons_self, p, List.mem_singleton.mpr rfl, hplain hfold⟩
          | writeBack new old =>
              cases us with
              | nil => exact ⟨_, List.mem_cons_self, new, List.mem_cons_self, Or.inr ⟨old, hfold.symm⟩⟩
              | cons u us =>
                  have hu : u ∈ StreamVersion.version (.writeBack new old) :: u :: us :=
                    List.mem_cons_of_mem _ List.mem_cons_self
                  -- the write-back is settled against `c`: either part occurs among the versions
                  have hsettled {c : BlobIndexType} (hc : c ∈ u.parts)
                      (hfold : us.foldl StreamVersion.combine
                        (.version (.plain (if old.sameRecord c then new else c))) = r) :
                      ∃ v ∈ StreamVersion.version (.writeBack new old) :: u :: us,
                        ∃ p ∈ v.parts, r.PointsTo p := by
                    have hto := hplain hfold
                    split_ifs at hto with hsame
                    · exact ⟨_, List.mem_cons_self, new, List.mem_cons_self, hto⟩
                    · exact ⟨u, hu, c, hc, hto⟩
                  cases u with
                  | deletion => cases hdelete rfl
                  | version u =>
                      cases u with
                      | value a => exact absurd hfold hvalue
                      | plain c => exact hsettled (List.mem_singleton.mpr rfl) hfold
                      | writeBack c d => exact hsettled List.mem_cons_self hfold

/-! ## Whole streams -/

section Sorted

variable {κ : Type} [LinearOrder κ]

/-- Sorted by user key and then newest first. -/
def SortedStream (input : List (StreamEntry κ)) : Prop :=
  input.Pairwise fun a b => a.userKey < b.userKey ∨ (a.userKey = b.userKey ∧ b.sequence < a.sequence)

def streamVersionsOf (k : κ) (input : List (StreamEntry κ)) : List StreamVersion :=
  (input.filter fun e => e.userKey = k).map (·.version)

theorem preprocessStepUnchecked_pass : KeyedFold.Pass (κ := κ) StreamEntry.userKey Kv.userKey
    (fun queue e => some (preprocessStepUnchecked queue e.kv))
    (fun run kv => ∃ r, resolveStream (run.map StreamEntry.version) = some r ∧ kv.EncodesStream r) where
  same := by
    rintro queue pre e run hkey ⟨r, hr, hpre⟩
    obtain ⟨kv, hstep, hkv, henc⟩ := preprocessStepUnchecked_same queue hkey hpre
    refine ⟨kv, congrArg some hstep, hkv, r.combine e.version, ?_, henc⟩
    rw [List.map_append, List.map_singleton, resolveStream_append_singleton hr]
  other := by
    intro queue e hother
    exact ⟨e.kv, congrArg some (preprocessStepUnchecked_other queue e.kv hother), rfl, e.version, rfl,
      rfl, rfl⟩

/-- The pass emits one entry for every key, in key order, with the resolution of its versions. -/
theorem emittedUnchecked_spec {input : List (StreamEntry κ)} (hs : SortedStream input) :
    ((emittedUnchecked (input.map StreamEntry.kv)).map (·.userKey)).Pairwise (· < ·) ∧
      (∀ k, k ∈ (emittedUnchecked (input.map StreamEntry.kv)).map (·.userKey) ↔
        k ∈ input.map (·.userKey)) ∧
      ∀ kv ∈ emittedUnchecked (input.map StreamEntry.kv),
        ∃ r, resolveStream (streamVersionsOf kv.userKey input) = some r ∧ kv.EncodesStream r := by
  have hle : input.Pairwise fun a b => a.userKey ≤ b.userKey :=
    hs.imp fun h => h.elim le_of_lt fun heq => heq.1.le
  obtain ⟨queue, hqueue, hinv⟩ := preprocessStepUnchecked_pass.foldlM hle
  have hfold : input.foldlM (fun queue e => some (preprocessStepUnchecked queue e.kv)) [] =
      some (input.foldl (fun queue e => preprocessStepUnchecked queue e.kv) []) :=
    List.foldlM_pure
  have hemitted : emittedUnchecked (input.map StreamEntry.kv) = queue.reverse := by
    rw [emittedUnchecked, nextFromCache_eq_drop, List.foldl_map, List.drop_zero]
    exact congrArg List.reverse (Option.some.inj (hfold.symm.trans hqueue))
  rw [hemitted]
  refine ⟨?_, ?_, ?_⟩
  · rw [List.pairwise_map, List.pairwise_reverse]
    exact hinv.sorted
  · intro k
    rw [List.map_reverse, List.mem_reverse]
    exact hinv.covers k
  · intro kv hkv
    exact hinv.holds kv (List.mem_reverse.mp hkv)

/-- Deletes survive the pass, and it makes up no pointer. -/
structure DeletesKept (input : List (StreamEntry κ)) : Prop where
  deletes : ∀ k, newestUserWrite (streamVersionsOf k input) = some .deletion →
    k ∈ (emittedUnchecked (input.map StreamEntry.kv)).map (·.userKey) ∧
    ∀ kv ∈ emittedUnchecked (input.map StreamEntry.kv), kv.userKey = k → kv.type = .kTypeDeletion
  pointers : ∀ kv ∈ emittedUnchecked (input.map StreamEntry.kv), kv.type = .kTypeBlobIndex →
    ∃ b rest, BlobIndex.decodeFrom kv.value = .ok (b, rest) ∧
      ∃ e ∈ input, ∃ p ∈ e.version.parts,
        p.fileNumber = b.fileNumber ∧ p.offset = b.blobHandle.offset

theorem mem_keys_of_newestUserWrite {k : κ} {input : List (StreamEntry κ)} {v : StreamVersion}
    (h : newestUserWrite (streamVersionsOf k input) = some v) : k ∈ input.map (·.userKey) := by
  obtain ⟨e, he, -⟩ := List.mem_map.mp (List.mem_of_find?_eq_some h)
  obtain ⟨he, hk⟩ := List.mem_filter.mp he
  exact List.mem_map.mpr ⟨e, he, of_decide_eq_true hk⟩

theorem deletesKept_iff {input : List (StreamEntry κ)} (hs : SortedStream input) :
    DeletesKept input ↔ ∀ k, newestUserWrite (streamVersionsOf k input) = some .deletion →
      (streamVersionsOf k input).head? = some .deletion := by
  obtain ⟨-, hcovers, hholds⟩ := emittedUnchecked_spec hs
  constructor
  · intro h k hnewest
    obtain ⟨hmem, hall⟩ := h.deletes k hnewest
    obtain ⟨kv, hkv, rfl⟩ := List.mem_map.mp hmem
    obtain ⟨r, hr, htype, -⟩ := hholds kv hkv
    have hdeletion : r = .deletion := by
      rw [hall kv hkv rfl] at htype
      cases r with
      | deletion => rfl
      | version v => cases v <;> cases htype
    exact resolveStream_eq_deletion.mp (hr.trans (congrArg some hdeletion))
  · intro hcond
    refine ⟨fun k hnewest => ⟨(hcovers k).mpr (mem_keys_of_newestUserWrite hnewest), ?_⟩, ?_⟩
    · rintro kv hkv rfl
      obtain ⟨r, hr, htype, -⟩ := hholds kv hkv
      rw [resolveStream_eq_deletion.mpr (hcond kv.userKey hnewest)] at hr
      rw [htype, ← Option.some.inj hr]
      rfl
    · intro kv hkv hpointer
      obtain ⟨r, hr, htype, hvalue⟩ := hholds kv hkv
      obtain ⟨v, hv, p, hp, hto⟩ :=
        resolveStream_pointsTo (hcond kv.userKey) hr (htype.symm.trans hpointer)
      obtain ⟨e, he, rfl⟩ := List.mem_map.mp hv
      obtain ⟨old, hbytes⟩ : ∃ old : Option BlobIndexType,
          kv.value = 1 :: p.put ++ (old.map BlobIndexType.put).getD [] := by
        rcases hto with rfl | ⟨old, rfl⟩
        · exact ⟨none, hvalue.trans (List.append_nil _).symm⟩
        · exact ⟨some old, hvalue⟩
      obtain ⟨b, rest, hdecode, hfile, hhandle⟩ := decodeFrom_put_append p old
      refine ⟨b, rest, hbytes ▸ hdecode, e, (List.mem_filter.mp he).1, p, hp, hfile.symm, ?_⟩
      rw [hhandle]

end Sorted

/-- A record of file 3, deleted while a garbage collection moves it to file 7. -/
def deletedWhileMoved : List (StreamEntry ℕ) :=
  [⟨1, 9, .version (.writeBack ⟨7, 12, 20, 0⟩ ⟨3, 12, 20, 0⟩)⟩, ⟨1, 6, .deletion⟩,
    ⟨1, 4, .version (.plain ⟨3, 12, 20, 0⟩)⟩]

/-- The pass keeps a pointer to offset zero of file zero, under a sequence above the delete. -/
theorem deletedWhileMoved_not_deletesKept :
    SortedStream deletedWhileMoved ∧ ¬DeletesKept deletedWhileMoved ∧
      emittedUnchecked (deletedWhileMoved.map StreamEntry.kv) =
        [⟨1, 9, .kTypeBlobIndex, [1, 0, 0, 0, 0]⟩] := by
  have hemitted : emittedUnchecked (deletedWhileMoved.map StreamEntry.kv) =
      [⟨1, 9, .kTypeBlobIndex, [1, 0, 0, 0, 0]⟩] := by
    rw [emittedUnchecked, nextFromCache_eq_drop]
    rfl
  refine ⟨by simp [SortedStream, deletedWhileMoved], fun h => ?_, hemitted⟩
  have hdeleted := (h.deletes 1 rfl).2 _ (hemitted ▸ List.mem_singleton.mpr rfl) rfl
  cases hdeleted

/-- A delete above the records that a garbage collection moved. -/
def deletedAfterMove : List (StreamEntry ℕ) :=
  [⟨1, 9, .deletion⟩, ⟨1, 6, .version (.writeBack ⟨7, 12, 20, 0⟩ ⟨3, 12, 20, 0⟩)⟩,
    ⟨1, 4, .version (.plain ⟨3, 12, 20, 0⟩)⟩,
    ⟨2, 8, .version (.writeBack ⟨7, 32, 20, 1⟩ ⟨3, 32, 20, 1⟩)⟩,
    ⟨2, 5, .version (.plain ⟨3, 32, 20, 1⟩)⟩]

theorem deletedAfterMove_deletesKept :
    SortedStream deletedAfterMove ∧ DeletesKept deletedAfterMove := by
  have hs : SortedStream deletedAfterMove := by simp [SortedStream, deletedAfterMove]
  refine ⟨hs, (deletesKept_iff hs).mpr fun k hnewest => ?_⟩
  have hk := mem_keys_of_newestUserWrite hnewest
  simp only [deletedAfterMove, List.map_cons, List.map_nil, List.mem_cons, List.not_mem_nil,
    or_false] at hk
  rcases hk with rfl | rfl | rfl | rfl | rfl
  · rfl
  · rfl
  · rfl
  · cases hnewest
  · cases hnewest

end AegonKV
