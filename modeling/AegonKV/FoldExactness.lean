import AegonKV.VersionResolution
import Mathlib.Data.List.TakeWhile

/-!
# When preprocessing computes the fold of a key's versions

`Preprocess` prefers any Value over every BlobIndex of the same key and reads the old part of the
newest write-back only. It therefore agrees with `foldVersions` exactly when no plain BlobIndex is
newer than the newest Value and, where two write-backs are on top of pointers, the second one was
itself not stale or its staleness makes no difference.
-/

namespace AegonKV
open LittleEndian

def PlainAboveValue (vs : List Version) : Prop :=
  vs.any Version.isValue ∧ (vs.takeWhile fun v => !v.isValue).any Version.isPlain

instance (vs : List Version) : Decidable (PlainAboveValue vs) := by
  unfold PlainAboveValue; infer_instance

/-- For two write-backs on top of pointers: the second matches the state below it, or the first
gives the same pointer from the second's new record as from that state. -/
def NewestPairExact : List Version → Prop
  | .writeBack n o :: .writeBack c d :: older => older.any Version.isValue ∨
      ∃ s, foldVersions older = some (.pointer s) ∧ (d.sameRecord s ∨
        (if o.sameRecord c then n else c) = if o.sameRecord s then n else s)
  | _ => True

def FoldExact (vs : List Version) : Prop := ¬PlainAboveValue vs ∧ NewestPairExact vs

/-- The oldest version of a key is a Value or a plain BlobIndex. -/
def OldestIsUserWrite (vs : List Version) : Prop := ∀ v ∈ vs.getLast?, v.isUserWrite

theorem exists_newest_value {vs : List Version} (h : vs.any Version.isValue) :
    ∃ v post, vs = (vs.takeWhile fun v => !v.isValue) ++ .value v :: post := by
  induction vs with
  | nil => simp at h
  | cons u vs ih =>
      cases u with
      | value v => exact ⟨v, vs, by simp [Version.isValue]⟩
      | plain p =>
          obtain ⟨v, post, hv⟩ := ih (by simpa [Version.isValue] using h)
          exact ⟨v, post, by simpa [Version.isValue] using hv⟩
      | writeBack n o =>
          obtain ⟨v, post, hv⟩ := ih (by simpa [Version.isValue] using h)
          exact ⟨v, post, by simpa [Version.isValue] using hv⟩

theorem foldl_combine_value (v : Bytes) (vs : List Version) :
    vs.foldl Version.combine (.value v) = .value v := by
  induction vs with
  | nil => rfl
  | cons u vs ih => simpa [Version.combine] using ih

theorem combine_isValue {a b : Version} (ha : a.isValue = false) (hb : b.isValue = false) :
    (a.combine b).isValue = false := by
  cases a <;> cases b <;> simp_all [Version.combine, Version.isValue]

theorem combine_value {a : Version} (ha : a.isValue = false) (v : Bytes) :
    a.combine (.value v) = .value v := by
  cases a <;> simp_all [Version.combine, Version.isValue]

theorem foldl_combine_isValue {a : Version} (ha : a.isValue = false) {vs : List Version}
    (hvs : ∀ u ∈ vs, u.isValue = false) : (vs.foldl Version.combine a).isValue = false := by
  induction vs generalizing a with
  | nil => exact ha
  | cons u vs ih =>
      exact ih (combine_isValue ha (hvs u List.mem_cons_self))
        fun w hw => hvs w (List.mem_cons_of_mem _ hw)

/-- The newest Value wins over everything above it. -/
theorem resolve_of_value {pre post : List Version} {v : Bytes}
    (hpre : ∀ u ∈ pre, u.isValue = false) :
    resolve (pre ++ .value v :: post) = some (.value v) := by
  cases pre with
  | nil => simp [resolve, foldl_combine_value]
  | cons u us =>
      have hu := foldl_combine_isValue (hpre u List.mem_cons_self)
        fun w hw => hpre w (List.mem_cons_of_mem _ hw)
      simp [resolve, List.foldl_append, combine_value hu, foldl_combine_value]

theorem foldl_combine_plain {p : BlobIndexType} {vs : List Version}
    (hvs : ∀ u ∈ vs, u.isValue = false) : vs.foldl Version.combine (.plain p) = .plain p := by
  induction vs with
  | nil => rfl
  | cons u vs ih =>
      have hu := hvs u List.mem_cons_self
      have ih' := ih fun w hw => hvs w (List.mem_cons_of_mem _ hw)
      cases u <;> simp_all [Version.combine, Version.isValue]

theorem resolve_plain {p : BlobIndexType} {vs : List Version}
    (hvs : ∀ u ∈ vs, u.isValue = false) : resolve (.plain p :: vs) = some (.plain p) := by
  rw [resolve, foldl_combine_plain hvs]

theorem resolve_writeBack_plain {n o c : BlobIndexType} {vs : List Version}
    (hvs : ∀ u ∈ vs, u.isValue = false) :
    resolve (.writeBack n o :: .plain c :: vs) =
      some (.plain (if o.sameRecord c then n else c)) := by
  simp [resolve, Version.combine, foldl_combine_plain hvs]

theorem resolve_writeBack_writeBack {n o c d : BlobIndexType} {vs : List Version}
    (hvs : ∀ u ∈ vs, u.isValue = false) :
    resolve (.writeBack n o :: .writeBack c d :: vs) =
      some (.plain (if o.sameRecord c then n else c)) := by
  simp [resolve, Version.combine, foldl_combine_plain hvs]

theorem foldr_apply_value {pre : List Version} (hpre : ∀ u ∈ pre, u.isUserWrite = false)
    (v : Bytes) : pre.foldr Version.apply (some (.value v)) = some (.value v) := by
  induction pre with
  | nil => rfl
  | cons u pre ih =>
      have hu := hpre u List.mem_cons_self
      rw [List.foldr_cons, ih fun w hw => hpre w (List.mem_cons_of_mem _ hw)]
      cases u <;> simp_all [Version.apply, Version.isUserWrite]

/-- Once a plain BlobIndex is applied, only a Value could take the state away from pointers. -/
theorem foldr_apply_pointer {pre : List Version} (hpre : ∀ u ∈ pre, u.isValue = false)
    (hp : pre.any Version.isPlain) (s : Option Resolved) :
    ∃ p, pre.foldr Version.apply s = some (.pointer p) := by
  induction pre with
  | nil => simp at hp
  | cons u pre ih =>
      have hu := hpre u List.mem_cons_self
      have hrest : ∀ w ∈ pre, w.isValue = false := fun w hw => hpre w (List.mem_cons_of_mem _ hw)
      cases u with
      | value v => simp [Version.isValue] at hu
      | plain p => exact ⟨p, rfl⟩
      | writeBack n o =>
          obtain ⟨p, hfold⟩ := ih hrest (by simpa [Version.isPlain] using hp)
          exact ⟨_, by rw [List.foldr_cons, hfold, Version.apply]⟩

theorem any_isPlain_of_oldest {vs : List Version} (hne : vs ≠ [])
    (hvs : ∀ u ∈ vs, u.isValue = false) (ho : OldestIsUserWrite vs) : vs.any Version.isPlain := by
  have hmem := List.getLast_mem hne
  have hu := ho (vs.getLast hne) (List.getLast?_eq_some_getLast hne)
  have hv := hvs _ hmem
  rw [List.any_eq_true]
  refine ⟨_, hmem, ?_⟩
  cases hlast : vs.getLast hne <;> simp_all [Version.isUserWrite, Version.isValue, Version.isPlain]

theorem foldVersions_pointer {vs : List Version} (hne : vs ≠ [])
    (hvs : ∀ u ∈ vs, u.isValue = false) (ho : OldestIsUserWrite vs) :
    ∃ p, foldVersions vs = some (.pointer p) :=
  foldr_apply_pointer hvs (any_isPlain_of_oldest hne hvs ho) none

theorem OldestIsUserWrite.tail {v u : Version} {vs : List Version}
    (h : OldestIsUserWrite (v :: u :: vs)) : OldestIsUserWrite (u :: vs) := by
  intro w hw
  exact h w (by rwa [List.getLast?_cons_cons])

theorem resolve_target_of_value {vs : List Version} (hany : vs.any Version.isValue) :
    (resolve vs).map Version.target = foldVersions vs ↔ ¬PlainAboveValue vs := by
  obtain ⟨v, post, hsplit⟩ := exists_newest_value hany
  set pre := vs.takeWhile fun v => !v.isValue with hpre
  have hpreValue : ∀ u ∈ pre, u.isValue = false := by
    intro u hu
    simpa using List.mem_takeWhile_imp hu
  have hres : (resolve vs).map Version.target = some (.value v) := by
    rw [hsplit, resolve_of_value hpreValue]
    rfl
  have hfold : foldVersions vs = pre.foldr Version.apply (some (.value v)) := by
    rw [hsplit, foldVersions, List.foldr_append]
    rfl
  rw [hres, hfold]
  constructor
  · rintro heq ⟨-, hplain⟩
    obtain ⟨p, hp⟩ := foldr_apply_pointer hpreValue hplain (some (.value v))
    rw [hp] at heq
    cases heq
  · intro hnot
    rw [foldr_apply_value]
    intro u hu
    have hnp : u.isPlain = false := by
      by_contra hc
      exact hnot ⟨hany, List.any_eq_true.mpr ⟨u, hu, by simpa using hc⟩⟩
    have hnv := hpreValue u hu
    cases u with
    | value v => simp [Version.isValue] at hnv
    | plain p => simp [Version.isPlain] at hnp
    | writeBack n o => rfl

theorem resolve_target_of_no_value {vs : List Version} (hne : vs ≠ [])
    (hvs : ∀ u ∈ vs, u.isValue = false) (ho : OldestIsUserWrite vs) :
    (resolve vs).map Version.target = foldVersions vs ↔ NewestPairExact vs := by
  match vs, hne with
  | .value v :: _, _ => simp [Version.isValue] at hvs
  | .plain p :: rest, _ =>
      rw [resolve_plain fun u hu => hvs u (List.mem_cons_of_mem _ hu)]
      simp [NewestPairExact, Version.target, Version.apply]
  | [.writeBack n o], _ => exact absurd (ho _ rfl) (by simp [Version.isUserWrite])
  | .writeBack n o :: .value v :: _, _ => simp [Version.isValue] at hvs
  | .writeBack n o :: .plain c :: rest, _ =>
      rw [resolve_writeBack_plain fun u hu =>
        hvs u (List.mem_cons_of_mem _ (List.mem_cons_of_mem _ hu))]
      simp [NewestPairExact, Version.target, Version.apply]
  | .writeBack n o :: .writeBack c d :: rest, _ =>
      have hrest : ∀ u ∈ rest, u.isValue = false :=
        fun u hu => hvs u (List.mem_cons_of_mem _ (List.mem_cons_of_mem _ hu))
      have hrestne : rest ≠ [] := by
        rintro rfl
        exact absurd (ho.tail _ rfl) (by simp [Version.isUserWrite])
      have horest : OldestIsUserWrite rest := by
        obtain ⟨u, us, rfl⟩ := List.exists_cons_of_ne_nil hrestne
        exact ho.tail.tail
      have hany : rest.any Version.isValue = false := by
        rw [List.any_eq_false]
        intro u hu
        simp [hrest u hu]
      obtain ⟨s, hs⟩ := foldVersions_pointer hrestne hrest horest
      rw [resolve_writeBack_writeBack hrest]
      simp only [foldVersions_cons, hs, NewestPairExact, Version.apply, Version.target,
        Option.map_some, Option.some.injEq, Resolved.pointer.injEq, hany, Bool.false_eq_true,
        false_or, exists_eq_left']
      by_cases hd : d.sameRecord s
      · simp [hd]
      · simp [hd]

/-- One key: the kept candidate leads where the fold leads exactly under `FoldExact`. -/
theorem resolve_target_eq_fold_iff {vs : List Version} (ho : OldestIsUserWrite vs) :
    (resolve vs).map Version.target = foldVersions vs ↔ FoldExact vs := by
  by_cases hany : vs.any Version.isValue
  · have hpair : NewestPairExact vs := by
      unfold NewestPairExact
      split
      · exact Or.inl (by simpa [Version.isValue] using hany)
      · trivial
    rw [resolve_target_of_value hany, FoldExact, and_iff_left hpair]
  · have hvs : ∀ u ∈ vs, u.isValue = false := by simpa using hany
    have hnot : ¬PlainAboveValue vs := fun h => hany h.1
    rw [FoldExact, and_iff_right hnot]
    by_cases hne : vs = []
    · subst hne
      simp [resolve, foldVersions, NewestPairExact]
    · exact resolve_target_of_no_value hne hvs ho

variable {κ : Type} [LinearOrder κ]

/-- One entry per user key, in user-key order, each denoting the fold of its key's versions. -/
def EmitsFold (input : List (Entry κ)) : Prop :=
  ∃ out, emitted (input.map Entry.kv) = some out ∧ (out.map (·.userKey)).Pairwise (· < ·) ∧
    (∀ k, k ∈ out.map (·.userKey) ↔ k ∈ input.map (·.userKey)) ∧
    ∀ kv ∈ out, kv.denote = foldVersions (versionsOf kv.userKey input)

theorem emitsFold_iff_foldExact {input : List (Entry κ)} (hs : SortedInput input)
    (ho : ∀ k, OldestIsUserWrite (versionsOf k input)) :
    EmitsFold input ↔ ∀ k, FoldExact (versionsOf k input) := by
  obtain ⟨out, hout, hsorted, hkeys, hres⟩ := preprocess_spec hs
  have hdenote : ∀ kv ∈ out,
      kv.denote = (resolve (versionsOf kv.userKey input)).map Version.target := by
    intro kv hkv
    obtain ⟨r, hr, henc⟩ := hres kv hkv
    rw [henc.denote_eq, hr]
    rfl
  constructor
  · rintro ⟨out', hout', -, -, hfold⟩ k
    obtain rfl : out = out' := Option.some.inj (hout.symm.trans hout')
    by_cases hk : k ∈ out.map (·.userKey)
    · obtain ⟨kv, hkv, rfl⟩ := List.mem_map.mp hk
      rw [← resolve_target_eq_fold_iff (ho _), ← hdenote kv hkv, hfold kv hkv]
    · have hnil : versionsOf k input = [] := versionsOf_eq_nil fun h => hk ((hkeys k).mpr h)
      rw [hnil, ← resolve_target_eq_fold_iff (by simp [OldestIsUserWrite])]
      rfl
  · intro hexact
    refine ⟨out, hout, hsorted, hkeys, fun kv hkv => ?_⟩
    rw [hdenote kv hkv, resolve_target_eq_fold_iff (ho _)]
    exact hexact _

/-- One record copied once: a write-back over the pointer it relocates. -/
def relocatedOnce : List (Entry ℕ) :=
  [⟨0, 2, .writeBack ⟨2, 12, 20, 0⟩ ⟨1, 12, 20, 0⟩⟩, ⟨0, 1, .plain ⟨1, 12, 20, 0⟩⟩]

theorem relocatedOnce_emitsFold : EmitsFold relocatedOnce := by
  have hnil : ∀ k, k ≠ 0 → versionsOf k relocatedOnce = [] := by
    intro k hk
    apply versionsOf_eq_nil
    simpa [relocatedOnce] using hk
  refine (emitsFold_iff_foldExact ?_ ?_).mpr ?_
  · simp [SortedInput, relocatedOnce]
  · intro k
    by_cases hk : k = 0
    · subst hk
      simp [OldestIsUserWrite, versionsOf, relocatedOnce, Version.isUserWrite]
    · simp [hnil k hk, OldestIsUserWrite]
  · intro k
    by_cases hk : k = 0
    · subst hk
      exact ⟨by decide, trivial⟩
    · rw [hnil k hk]
      exact ⟨by decide, trivial⟩

/-- A small inline Value overwritten by a large one that a flush has separated. -/
def separatedOverInline : List (Entry ℕ) :=
  [⟨0, 2, .plain ⟨1, 12, 20, 0⟩⟩, ⟨0, 1, .value [7]⟩]

/-- `Preprocess` brings the overwritten Value back. -/
theorem separatedOverInline_not_emitsFold :
    SortedInput separatedOverInline ∧
      (∀ k, OldestIsUserWrite (versionsOf k separatedOverInline)) ∧
      ¬EmitsFold separatedOverInline := by
  refine ⟨by simp [SortedInput, separatedOverInline], ?_, ?_⟩
  · intro k
    by_cases hk : k = 0
    · subst hk
      simp [OldestIsUserWrite, versionsOf, separatedOverInline, Version.isUserWrite]
    · have hnil : versionsOf k separatedOverInline = [] :=
        versionsOf_eq_nil (by simpa [separatedOverInline] using hk)
      simp [hnil, OldestIsUserWrite]
  · rintro ⟨out, hout, -, -, hfold⟩
    have hrun : emitted (separatedOverInline.map Entry.kv) =
        some [⟨0, 1, .kTypeValue, [7]⟩] := by
      rw [emitted_eq_preprocess]
      decide
    obtain rfl : [⟨0, 1, .kTypeValue, [7]⟩] = out := Option.some.inj (hrun.symm.trans hout)
    have hval := hfold ⟨0, 1, .kTypeValue, [7]⟩ (by simp)
    exact absurd hval (by decide)

end AegonKV
