import AegonKV.VersionResolution
import Mathlib.Order.Nat

/-!
# Snapshot reads after preprocessing

A snapshot reads the newest version of a key at or below its sequence. `Preprocess` keeps one
version of each key without asking the live snapshots: the newest Value, or the newest version where
the key has no Value. A snapshot's view survives exactly when the version it sees is that one.
-/

namespace AegonKV
open LittleEndian

section

variable {κ : Type}

def earliestSnapshot (snapshots : List ℕ) : ℕ := snapshots.min?.getD (2 ^ 56 - 1)

/-- `PrepareOutput`: at the bottommost level a sequence that every snapshot sees becomes 0. -/
def prepareOutput (snapshots : List ℕ) (bottommost : Bool) (kv : Kv κ) : Kv κ :=
  if bottommost && decide (kv.sequence ≤ earliestSnapshot snapshots) then { kv with sequence := 0 }
  else kv

variable [DecidableEq κ]

def compacted (snapshots : List ℕ) (bottommost : Bool) (input : List (Kv κ)) :
    Option (List (Kv κ)) :=
  (emitted input).map (·.map (prepareOutput snapshots bottommost))

/-- What a snapshot sees of a key: the newest version at or below its sequence. -/
def readAt (s : ℕ) (k : κ) (kvs : List (Kv κ)) : Option Resolved :=
  (kvs.find? fun kv => kv.userKey = k ∧ kv.sequence ≤ s).bind Kv.denote

def entriesOf (k : κ) (input : List (Entry κ)) : List (Entry κ) :=
  input.filter fun e => e.userKey = k

/-! ## The pass on entries -/

/-- `Preprocess` on Values and plain indexes, at the level of entries. -/
def keepStep (queue : List (Entry κ)) (e : Entry κ) : List (Entry κ) :=
  match queue with
  | [] => [e]
  | pre :: queue =>
    if e.userKey = pre.userKey then
      if pre.version.isValue then pre :: queue
      else if e.version.isValue then e :: queue else pre :: queue
    else e :: pre :: queue

theorem preprocessStep_keepStep {queue : List (Entry κ)} {e : Entry κ}
    (hq : ∀ u ∈ queue, u.version.isUserWrite) (he : e.version.isUserWrite) :
    preprocessStep (queue.map Entry.kv) e.kv = some ((keepStep queue e).map Entry.kv) := by
  cases queue with
  | nil =>
      refine preprocessStep_other [] e ?_
      simp
  | cons pre queue =>
      by_cases hkey : e.userKey = pre.userKey
      · have hpre := hq pre List.mem_cons_self
        obtain ⟨k, seq, v⟩ := e
        obtain ⟨k', seq', v'⟩ := pre
        obtain rfl : k = k' := hkey
        -- the branches of the pass, without write-backs
        cases v' with
        | value a =>
            cases v <;>
              simp [preprocessStep, keepStep, Entry.kv, Version.type, Version.isValue]
        | plain p =>
            cases v with
            | value b => simp [preprocessStep, keepStep, Entry.kv, Version.type, Version.isValue]
            | plain c =>
                simp [preprocessStep, keepStep, Entry.kv, Version.type, Version.isValue,
                  Version.bytes, checkBlobIndex_plain]
            | writeBack c d => cases he
        | writeBack n o => cases hpre
      · have hother : ∀ u ∈ ((pre :: queue).map Entry.kv).head?, e.userKey ≠ u.userKey := by
          intro u hu
          obtain rfl : pre.kv = u := by simpa using hu
          exact hkey
        rw [preprocessStep_other _ e hother, keepStep, if_neg hkey]
        rfl

theorem keepStep_subset {queue : List (Entry κ)} {e u : Entry κ} (h : u ∈ keepStep queue e) :
    u ∈ queue ∨ u = e := by
  cases queue with
  | nil => exact Or.inr (List.mem_singleton.mp h)
  | cons pre queue =>
      rw [keepStep] at h
      split_ifs at h
      · exact Or.inl h
      · rcases List.mem_cons.mp h with rfl | h
        · exact Or.inr rfl
        · exact Or.inl (List.mem_cons_of_mem _ h)
      · exact Or.inl h
      · rcases List.mem_cons.mp h with rfl | h
        · exact Or.inr rfl
        · exact Or.inl h

theorem foldlM_keepStep {input queue : List (Entry κ)}
    (hq : ∀ u ∈ queue, u.version.isUserWrite) (hin : ∀ u ∈ input, u.version.isUserWrite) :
    (input.map Entry.kv).foldlM preprocessStep (queue.map Entry.kv) =
      some ((input.foldl keepStep queue).map Entry.kv) := by
  induction input generalizing queue with
  | nil => rfl
  | cons e input ih =>
      have he := hin e List.mem_cons_self
      rw [List.map_cons, List.foldlM_cons, preprocessStep_keepStep hq he]
      refine ih (fun u hu => ?_) fun u hu => hin u (List.mem_cons_of_mem _ hu)
      rcases keepStep_subset hu with hu | rfl
      · exact hq u hu
      · exact he

theorem emitted_eq_keep {input : List (Entry κ)} (hin : ∀ u ∈ input, u.version.isUserWrite) :
    emitted (input.map Entry.kv) = some ((input.foldl keepStep []).reverse.map Entry.kv) := by
  have hnil : ∀ u ∈ ([] : List (Entry κ)), u.version.isUserWrite := fun u hu => (by cases hu)
  have hfold := foldlM_keepStep hnil hin
  rw [emitted_eq_preprocess, preprocess]
  rw [List.map_nil] at hfold
  rw [hfold, Option.map_some, List.map_reverse]

/-! ## What is kept of a key -/

/-- The newest Value of a key, or its newest version where it has none. -/
def kept (es : List (Entry κ)) : Option (Entry κ) :=
  (es.find? fun e => e.version.isValue).or es.head?

omit [DecidableEq κ] in
theorem kept_snoc (es : List (Entry κ)) (e : Entry κ) :
    kept (es ++ [e]) = some ((kept es).elim e fun c =>
      if c.version.isValue then c else if e.version.isValue then e else c) := by
  rw [kept, kept, List.find?_append]
  cases hfind : es.find? fun e => e.version.isValue with
  | some c =>
      have hc : c.version.isValue := by simpa using List.find?_some hfind
      simp [hc]
  | none =>
      cases es with
      | nil => cases hv : e.version.isValue <;> simp [hv]
      | cons a es =>
          have ha : a.version.isValue = false := by
            simpa using List.find?_eq_none.mp hfind a List.mem_cons_self
          cases hv : e.version.isValue <;> simp [ha, hv]

omit [DecidableEq κ] in
theorem kept_eq_none {es : List (Entry κ)} : kept es = none ↔ es = [] := by
  cases es with
  | nil => simp [kept]
  | cons a es => simp [kept]

omit [DecidableEq κ] in
theorem kept_mem {es : List (Entry κ)} {c : Entry κ} (h : kept es = some c) : c ∈ es := by
  rcases Option.or_eq_some_iff.mp h with h | ⟨-, h⟩
  · exact List.mem_of_find?_eq_some h
  · exact List.mem_of_mem_head? h

theorem entriesOf_snoc_self (input : List (Entry κ)) (e : Entry κ) :
    entriesOf e.userKey (input ++ [e]) = entriesOf e.userKey input ++ [e] := by
  simp [entriesOf]

theorem entriesOf_snoc_other {k : κ} {e : Entry κ} (input : List (Entry κ)) (h : e.userKey ≠ k) :
    entriesOf k (input ++ [e]) = entriesOf k input := by
  simp [entriesOf, h]

theorem entriesOf_cons_self (queue : List (Entry κ)) (e : Entry κ) :
    entriesOf e.userKey (e :: queue) = e :: entriesOf e.userKey queue := by
  simp [entriesOf]

theorem entriesOf_cons_other {k : κ} {e : Entry κ} (queue : List (Entry κ)) (h : e.userKey ≠ k) :
    entriesOf k (e :: queue) = entriesOf k queue := by
  simp [entriesOf, h]

theorem entriesOf_eq_nil {k : κ} {queue : List (Entry κ)} (h : ∀ u ∈ queue, u.userKey ≠ k) :
    entriesOf k queue = [] :=
  List.filter_eq_nil_iff.mpr fun u hu hk => h u hu (by simpa using hk)

end

section

variable {κ : Type} [LinearOrder κ]

/-- The queue after a prefix of the input, newest key first. -/
structure KeepInv (seen queue : List (Entry κ)) : Prop where
  sorted : queue.Pairwise fun a b => b.userKey < a.userKey
  bounded : ∀ u ∈ queue, u ∈ seen
  holds : ∀ k, entriesOf k queue = (kept (entriesOf k seen)).toList

section
variable {seen queue : List (Entry κ)} {e pre : Entry κ}

theorem KeepInv.bounded_step (h : KeepInv seen queue) :
    ∀ u ∈ keepStep queue e, u ∈ seen ++ [e] := by
  intro u hu
  rcases keepStep_subset hu with hu | rfl
  · exact List.mem_append_left _ (h.bounded u hu)
  · exact List.mem_append_right _ List.mem_cons_self

/-- A new key goes on top of the queue. -/
theorem KeepInv.push (h : KeepInv seen queue) (hlt : ∀ u ∈ queue, u.userKey < e.userKey)
    (heq : keepStep queue e = e :: queue) : KeepInv (seen ++ [e]) (keepStep queue e) := by
  refine ⟨?_, h.bounded_step, fun k => ?_⟩
  · rw [heq]
    exact List.pairwise_cons.mpr ⟨hlt, h.sorted⟩
  · rw [heq]
    by_cases hk : e.userKey = k
    · subst hk
      have hnil := entriesOf_eq_nil fun u hu => ne_of_lt (hlt u hu)
      have hkept : kept (entriesOf e.userKey seen) = none := by
        have hh := h.holds e.userKey
        rw [hnil] at hh
        exact Option.toList_eq_nil_iff.mp hh.symm
      rw [entriesOf_cons_self, hnil, entriesOf_snoc_self, kept_snoc, hkept]
      rfl
    · rw [entriesOf_cons_other _ hk, entriesOf_snoc_other _ hk]
      exact h.holds k

theorem keepStep_same (queue : List (Entry κ)) (hkey : e.userKey = pre.userKey) :
    ∃ top, (if pre.version.isValue then pre else if e.version.isValue then e else pre) = top ∧
      top.userKey = e.userKey ∧ keepStep (pre :: queue) e = top :: queue := by
  refine ⟨_, rfl, ?_, ?_⟩
  · split_ifs
    · exact hkey.symm
    · rfl
    · exact hkey.symm
  · rw [keepStep, if_pos hkey]
    split_ifs
    · rfl
    · rfl
    · rfl

/-- One of two entries for the top key stays. -/
theorem KeepInv.replaceTop (h : KeepInv seen (pre :: queue)) (hkey : e.userKey = pre.userKey) :
    KeepInv (seen ++ [e]) (keepStep (pre :: queue) e) := by
  obtain ⟨hpre, hsorted⟩ := List.pairwise_cons.mp h.sorted
  have hrest : entriesOf e.userKey queue = [] :=
    entriesOf_eq_nil fun u hu => ne_of_lt (hkey ▸ hpre u hu)
  have hkept : kept (entriesOf e.userKey seen) = some pre := by
    have hh := h.holds e.userKey
    rw [hkey, entriesOf_cons_self, ← hkey, hrest] at hh
    exact Option.toList_eq_singleton_iff.mp hh.symm
  obtain ⟨top, htop, htopkey, hstep⟩ := keepStep_same queue hkey
  refine ⟨?_, h.bounded_step, fun k => ?_⟩
  · rw [hstep]
    refine List.pairwise_cons.mpr ⟨fun u hu => ?_, hsorted⟩
    rw [htopkey, hkey]
    exact hpre u hu
  · rw [hstep]
    by_cases hk : e.userKey = k
    · subst hk
      have hself := entriesOf_cons_self queue top
      rw [htopkey, hrest] at hself
      rw [hself, entriesOf_snoc_self, kept_snoc, hkept, Option.elim_some, htop]
      rfl
    · have hh := h.holds k
      rw [entriesOf_cons_other _ (hkey ▸ hk)] at hh
      rw [entriesOf_cons_other _ (htopkey.symm ▸ hk), entriesOf_snoc_other _ hk]
      exact hh

theorem KeepInv.step (h : KeepInv seen queue) (hle : ∀ a ∈ seen, a.userKey ≤ e.userKey) :
    KeepInv (seen ++ [e]) (keepStep queue e) := by
  cases queue with
  | nil => exact h.push (fun u hu => (by cases hu)) rfl
  | cons pre queue =>
      by_cases hkey : e.userKey = pre.userKey
      · exact h.replaceTop hkey
      · have hlt : pre.userKey < e.userKey :=
          lt_of_le_of_ne (hle pre (h.bounded pre List.mem_cons_self)) (Ne.symm hkey)
        refine h.push (fun u hu => ?_) (by rw [keepStep, if_neg hkey])
        rcases List.mem_cons.mp hu with rfl | hu
        · exact hlt
        · exact ((List.pairwise_cons.mp h.sorted).1 u hu).trans hlt

end

theorem keepInv_foldl {input : List (Entry κ)} (hs : SortedInput input) :
    KeepInv input (input.foldl keepStep []) := by
  induction input using List.reverseRecOn with
  | nil => exact ⟨.nil, fun u hu => (by cases hu), fun k => rfl⟩
  | append_singleton input e ih =>
      obtain ⟨hin, -, hlast⟩ := List.pairwise_append.mp hs
      rw [List.foldl_append]
      refine (ih hin).step fun a ha => ?_
      rcases hlast a ha e (List.mem_singleton.mpr rfl) with h | h
      · exact h.le
      · exact h.1.le

/-! ## Reads of the output -/

omit [LinearOrder κ] in
theorem prepareOutput_sequence {snapshots : List ℕ} {s : ℕ} (hs : s ∈ snapshots) (bottommost : Bool)
    (kv : Kv κ) : (prepareOutput snapshots bottommost kv).sequence ≤ s ↔ kv.sequence ≤ s := by
  have hle : earliestSnapshot snapshots ≤ s := by
    rw [earliestSnapshot]
    cases hmin : snapshots.min? with
    | none =>
        rw [List.min?_eq_none_iff.mp hmin] at hs
        cases hs
    | some m => exact (List.min?_eq_some_iff.mp hmin).2 s hs
  rw [prepareOutput]
  split_ifs with hzero
  · simp only [Bool.and_eq_true, decide_eq_true_eq] at hzero
    exact ⟨fun _ => hzero.2.trans hle, fun _ => Nat.zero_le s⟩
  · rfl

omit [LinearOrder κ] in
theorem prepareOutput_userKey (snapshots : List ℕ) (bottommost : Bool) (kv : Kv κ) :
    (prepareOutput snapshots bottommost kv).userKey = kv.userKey := by
  rw [prepareOutput]
  split_ifs <;> rfl

omit [LinearOrder κ] in
theorem prepareOutput_denote (snapshots : List ℕ) (bottommost : Bool) (kv : Kv κ) :
    (prepareOutput snapshots bottommost kv).denote = kv.denote := by
  rw [prepareOutput]
  split_ifs <;> rfl

/-- A read of entries, passed through a map that changes nothing the snapshot sees. -/
theorem readAt_map {s : ℕ} {f : Kv κ → Kv κ} (hkey : ∀ kv, (f kv).userKey = kv.userKey)
    (hseq : ∀ kv, (f kv).sequence ≤ s ↔ kv.sequence ≤ s) (hden : ∀ kv, (f kv).denote = kv.denote)
    (k : κ) (es : List (Entry κ)) :
    readAt s k ((es.map Entry.kv).map f) =
      ((entriesOf k es).find? fun e => e.sequence ≤ s).map fun e => e.version.target := by
  have hfind : ((es.map Entry.kv).map f).find? (fun kv => kv.userKey = k ∧ kv.sequence ≤ s) =
      (((entriesOf k es).find? fun e => e.sequence ≤ s).map fun e => f e.kv) := by
    rw [List.map_map, List.find?_map, entriesOf, List.find?_filter]
    congr 2
    funext e
    rw [Bool.eq_iff_iff]
    simp only [Function.comp_apply, decide_eq_true_eq, hkey, hseq]
    exact Iff.rfl
  rw [readAt, hfind, Option.bind_map]
  cases (entriesOf k es).find? fun e => e.sequence ≤ s with
  | none => rfl
  | some e =>
      have hdenote : e.kv.denote = some e.version.target := Kv.Encodes.denote_eq ⟨rfl, rfl⟩
      simp [hden, hdenote]

/-- What the output shows to the snapshots: the kept version, if its sequence is visible. -/
theorem compacted_spec {input : List (Entry κ)} (hs : SortedInput input)
    (hin : ∀ u ∈ input, u.version.isUserWrite) (snapshots : List ℕ) (bottommost : Bool) :
    ∃ out, compacted snapshots bottommost (input.map Entry.kv) = some out ∧
      ∀ s ∈ snapshots, ∀ k, readAt s k out =
        ((kept (entriesOf k input)).toList.find? fun e => e.sequence ≤ s).map
          fun e => e.version.target := by
  have hkeep := keepInv_foldl hs
  refine ⟨_, by rw [compacted, emitted_eq_keep hin]; rfl, fun s hmem k => ?_⟩
  rw [readAt_map (prepareOutput_userKey snapshots bottommost)
    (prepareOutput_sequence hmem bottommost) (prepareOutput_denote snapshots bottommost)]
  have hrev : entriesOf k (input.foldl keepStep []).reverse =
      (kept (entriesOf k input)).toList := by
    rw [entriesOf, List.filter_reverse]
    change (entriesOf k (input.foldl keepStep [])).reverse = _
    rw [hkeep.holds k]
    cases kept (entriesOf k input) <;> rfl
  rw [hrev]

/-! ## When snapshot reads survive -/

/-- Every live snapshot sees in the output what it sees in the input. -/
def SnapshotReadsSurvive (snapshots : List ℕ) (bottommost : Bool) (input : List (Entry κ)) : Prop :=
  ∃ out, compacted snapshots bottommost (input.map Entry.kv) = some out ∧
    ∀ s ∈ snapshots, ∀ k, readAt s k out = readAt s k (input.map Entry.kv)

/-- The version that a snapshot sees of a key is the key's newest Value, or its newest version where
it has no Value. -/
def SeesKept (snapshots : List ℕ) (input : List (Entry κ)) : Prop :=
  ∀ s ∈ snapshots, ∀ k e, (entriesOf k input).find? (fun e => e.sequence ≤ s) = some e →
    kept (entriesOf k input) = some e

theorem entriesOf_sorted {input : List (Entry κ)} (hs : SortedInput input) (k : κ) :
    (entriesOf k input).Pairwise fun a b => b.sequence < a.sequence := by
  have hp := hs.filter (fun e => decide (e.userKey = k))
  refine hp.imp_of_mem fun {a b} ha hb hab => ?_
  have ha : a.userKey = k := by simpa using (List.mem_filter.mp ha).2
  have hb : b.userKey = k := by simpa using (List.mem_filter.mp hb).2
  rcases hab with hlt | ⟨-, hseq⟩
  · rw [ha, hb] at hlt
    exact absurd hlt (lt_irrefl k)
  · exact hseq

omit [LinearOrder κ] in
/-- In a list sorted newest first, what is found at or below a sequence is the newest such. -/
theorem find?_newest {es : List (Entry κ)} (hs : es.Pairwise fun a b => b.sequence < a.sequence)
    {s : ℕ} {e u : Entry κ} (he : es.find? (fun e => e.sequence ≤ s) = some e) (hu : u ∈ es)
    (hus : u.sequence ≤ s) : u = e ∨ u.sequence < e.sequence := by
  obtain ⟨-, as, bs, rfl, hno⟩ := List.find?_eq_some_iff_append.mp he
  rcases List.mem_append.mp hu with hu | hu
  · have := hno u hu
    simp only [Bool.not_eq_true', decide_eq_false_iff_not] at this
    exact absurd hus this
  · rcases List.mem_cons.mp hu with rfl | hu
    · exact Or.inl rfl
    · exact Or.inr ((List.pairwise_cons.mp (List.pairwise_append.mp hs).2.1).1 u hu)

omit [LinearOrder κ] in
/-- What is newer than the kept version is not a Value, and the kept version is one. -/
theorem isValue_of_newer {es : List (Entry κ)}
    (hs : es.Pairwise fun a b => b.sequence < a.sequence) {c e : Entry κ} (hc : kept es = some c)
    (he : e ∈ es) (hlt : c.sequence < e.sequence) :
    c.version.isValue = true ∧ e.version.isValue = false := by
  rcases Option.or_eq_some_iff.mp hc with hfind | ⟨-, hhead⟩
  · obtain ⟨hv, as, bs, rfl, hno⟩ := List.find?_eq_some_iff_append.mp hfind
    refine ⟨hv, ?_⟩
    rcases List.mem_append.mp he with he | he
    · simpa using hno e he
    · rcases List.mem_cons.mp he with rfl | he
      · exact absurd hlt (lt_irrefl _)
      · have := (List.pairwise_cons.mp (List.pairwise_append.mp hs).2.1).1 e he
        exact absurd hlt (by omega)
  · cases es with
    | nil => cases he
    | cons a es =>
        obtain rfl : a = c := by simpa using hhead
        rcases List.mem_cons.mp he with rfl | he
        · exact absurd hlt (lt_irrefl _)
        · have := (List.pairwise_cons.mp hs).1 e he
          exact absurd hlt (by omega)

omit [LinearOrder κ] in
/-- The read of one snapshot of one key. -/
theorem target_eq_iff {es : List (Entry κ)} (hs : es.Pairwise fun a b => b.sequence < a.sequence)
    (s : ℕ) :
    ((kept es).toList.find? fun e => e.sequence ≤ s).map (fun e => e.version.target) =
        (es.find? fun e => e.sequence ≤ s).map (fun e => e.version.target) ↔
      ∀ e, es.find? (fun e => e.sequence ≤ s) = some e → kept es = some e := by
  cases hkept : kept es with
  | none =>
      rw [kept_eq_none.mp hkept]
      simp
  | some c =>
      have hmem := kept_mem hkept
      cases hfind : es.find? fun e => e.sequence ≤ s with
      | none =>
          have hno : ¬c.sequence ≤ s := by
            simpa using List.find?_eq_none.mp hfind c hmem
          simp [hno]
      | some e =>
          have hes : e.sequence ≤ s := by simpa using List.find?_some hfind
          have hemem := List.mem_of_find?_eq_some hfind
          by_cases hcs : c.sequence ≤ s
          · have hsome : [c].find? (fun e => decide (e.sequence ≤ s)) = some c := by simp [hcs]
            rw [Option.toList_some, hsome]
            simp only [Option.map_some, Option.some.injEq]
            constructor
            · rintro htarget e' rfl
              rcases find?_newest hs hfind hmem hcs with rfl | hlt
              · rfl
              · -- a Value and an index lead to different targets
                obtain ⟨hv, hne⟩ := isValue_of_newer hs hkept hemem hlt
                cases hcv : c.version <;> cases hev : e.version <;>
                  simp_all [Version.target, Version.isValue]
            · intro h
              rw [h e rfl]
          · have hnone : [c].find? (fun e => decide (e.sequence ≤ s)) = none := by simp [hcs]
            rw [Option.toList_some, hnone]
            constructor
            · intro h
              cases h
            · intro h
              obtain rfl := Option.some.inj (h e rfl)
              exact absurd hes hcs

/-- On Values and plain indexes, snapshot reads survive preprocessing exactly when every live
snapshot sees the versions that are kept. -/
theorem snapshotReadsSurvive_iff {input : List (Entry κ)} (hs : SortedInput input)
    (hin : ∀ u ∈ input, u.version.isUserWrite = true) (snapshots : List ℕ) (bottommost : Bool) :
    SnapshotReadsSurvive snapshots bottommost input ↔ SeesKept snapshots input := by
  obtain ⟨out, hout, hread⟩ := compacted_spec hs hin snapshots bottommost
  have hinput : ∀ s k, readAt s k (input.map Entry.kv) =
      ((entriesOf k input).find? fun e => e.sequence ≤ s).map fun e => e.version.target := by
    intro s k
    have h := readAt_map (s := s) (f := id) (fun _ => rfl) (fun _ => Iff.rfl) (fun _ => rfl) k input
    rwa [List.map_id] at h
  constructor
  · rintro ⟨out', hout', hsurvive⟩ s hmem k
    obtain rfl := Option.some.inj (hout.symm.trans hout')
    have heq := hsurvive s hmem k
    rw [hread s hmem k, hinput] at heq
    exact (target_eq_iff (entriesOf_sorted hs k) s).mp heq
  · intro hsees
    refine ⟨out, hout, fun s hmem k => ?_⟩
    rw [hread s hmem k, hinput]
    exact (target_eq_iff (entriesOf_sorted hs k) s).mpr (hsees s hmem k)

/-- A snapshot above both versions of a key sees the newer one, which is kept. -/
theorem recentSnapshot_survives :
    SortedInput [(⟨0, 5, .value [7]⟩ : Entry ℕ), ⟨0, 3, .plain ⟨1, 12, 30, 0⟩⟩] ∧
      SnapshotReadsSurvive [6] true [(⟨0, 5, .value [7]⟩ : Entry ℕ), ⟨0, 3, .plain ⟨1, 12, 30, 0⟩⟩] := by
  have hs : SortedInput [(⟨0, 5, .value [7]⟩ : Entry ℕ), ⟨0, 3, .plain ⟨1, 12, 30, 0⟩⟩] := by
    simp [SortedInput]
  refine ⟨hs, (snapshotReadsSurvive_iff hs (by decide) [6] true).mpr ?_⟩
  intro s hmem k e he
  obtain rfl := List.mem_singleton.mp hmem
  by_cases hk : k = 0
  · subst hk
    obtain rfl := Option.some.inj he
    rfl
  · have hnil : entriesOf k [(⟨0, 5, .value [7]⟩ : Entry ℕ), ⟨0, 3, .plain ⟨1, 12, 30, 0⟩⟩] = [] :=
      entriesOf_eq_nil (by simp [Ne.symm hk])
    rw [hnil] at he
    cases he

/-- A snapshot between two Values of a key loses the older one. -/
theorem olderSnapshot_not_survives :
    ¬SnapshotReadsSurvive [4] false [(⟨0, 5, .value [7]⟩ : Entry ℕ), ⟨0, 3, .value [8]⟩] := by
  rintro ⟨out, hout, hread⟩
  have hout' : out = [⟨0, 5, .kTypeValue, [7]⟩] := by
    have h : compacted [4] false ([(⟨0, 5, .value [7]⟩ : Entry ℕ), ⟨0, 3, .value [8]⟩].map Entry.kv) =
        some [⟨0, 5, .kTypeValue, [7]⟩] := by
      rw [compacted, emitted_eq_preprocess]
      decide
    exact Option.some.inj (hout.symm.trans h)
  have h := hread 4 List.mem_cons_self 0
  rw [hout'] at h
  revert h
  decide

end
end AegonKV
