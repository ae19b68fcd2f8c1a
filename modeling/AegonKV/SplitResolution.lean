import AegonKV.FoldExactness

/-!
# Resolving a key's versions in several passes

A flush or an upper-level compaction resolves a run of newer versions on its own, and a later pass
meets only the result. For versions that are all BlobIndexes, the final entry is independent of
where the runs were cut exactly when the two newest write-backs do not hide a stale one.
-/

namespace AegonKV
open LittleEndian

variable {κ : Type} [DecidableEq κ]

/-- The newer pieces resolved one by one, then resolved together with the older entries. -/
def resolvePieces (pieces : List (List (Kv κ))) (older : List (Kv κ)) : Option (List (Kv κ)) := do
  let results ← pieces.mapM emitted
  emitted (results.flatten ++ older)

def Version.newPart : Version → Option BlobIndexType
  | .value _ => none
  | .plain p => some p
  | .writeBack n _ => some n

/-- The first write-back gives the same pointer whether or not the second one, stale over the
version below it, was resolved before. -/
def SplitExact : List Version → Prop
  | .writeBack n o :: .writeBack c d :: v :: _ => ∀ u ∈ v.newPart,
      d.sameRecord u ∨ (if o.sameRecord c then n else c) = if o.sameRecord u then n else u
  | _ => True

def SplitsAgree (entries : List (Entry κ)) : Prop :=
  ∀ (pieces : List (List (Entry κ))) (older : List (Entry κ)), pieces.flatten ++ older = entries →
    (resolvePieces (pieces.map (·.map Entry.kv)) (older.map Entry.kv)).map (·.map Kv.denote) =
      (emitted (entries.map Entry.kv)).map (·.map Kv.denote)

omit [DecidableEq κ] in
theorem Kv.Encodes.eq_kv {kv : Kv κ} {v : Version} (h : kv.Encodes v) :
    kv = Entry.kv ⟨kv.userKey, kv.sequence, v⟩ := by
  obtain ⟨k, s, t, b⟩ := kv
  obtain ⟨rfl, rfl⟩ := h
  rfl

/-- On one key the pass emits one entry, holding the resolution, whatever the sequence numbers. -/
theorem emitted_single_key {k : κ} {entries : List (Entry κ)} (hne : entries ≠ [])
    (hk : ∀ e ∈ entries, e.userKey = k) :
    ∃ e : Entry κ, emitted (entries.map Entry.kv) = some [e.kv] ∧ e.userKey = k ∧
      resolve (entries.map (·.version)) = some e.version := by
  suffices h : ∃ e : Entry κ, (entries.map Entry.kv).foldlM preprocessStep [] = some [e.kv] ∧
      e.userKey = k ∧ resolve (entries.map (·.version)) = some e.version by
    obtain ⟨e, hq, hek, hr⟩ := h
    exact ⟨e, by rw [emitted_eq_preprocess, preprocess, hq]; rfl, hek, hr⟩
  induction entries using List.reverseRecOn with
  | nil => exact absurd rfl hne
  | append_singleton entries e ih =>
      have hek := hk e (by simp)
      by_cases hnil : entries = []
      · subst hnil
        have hstep := preprocessStep_other [] e (by simp)
        exact ⟨e, by simp [hstep], hek, rfl⟩
      · obtain ⟨r, hq, hrk, hr⟩ := ih hnil fun a ha => hk a (by simp [ha])
        have hrenc : r.kv.Encodes r.version := ⟨rfl, rfl⟩
        obtain ⟨kv, hstep, hkv, henc⟩ := preprocessStep_same [] (hek.trans hrk.symm) hrenc
        refine ⟨⟨kv.userKey, kv.sequence, r.version.combine e.version⟩, ?_, hkv.trans hrk, ?_⟩
        · rw [← henc.eq_kv]
          simp [List.foldlM_append, hq, hstep]
        · simp [resolve_append_singleton, hr]

theorem emitted_nil : emitted ([] : List (Kv κ)) = some [] := by
  rw [emitted_eq_preprocess]
  rfl

/-- The pieces' results are entries of the same key that hold the pieces' resolutions. -/
theorem mapM_emitted {k : κ} (pieces : List (List (Entry κ)))
    (hk : ∀ p ∈ pieces, ∀ e ∈ p, e.userKey = k) :
    ∃ results : List (Entry κ),
      (∃ out, (pieces.map (·.map Entry.kv)).mapM emitted = some out ∧
        out.flatten = results.map Entry.kv) ∧ (∀ e ∈ results, e.userKey = k) ∧
      results.map (·.version) = pieces.filterMap fun p => resolve (p.map (·.version)) := by
  induction pieces with
  | nil => exact ⟨[], ⟨[], by simp, rfl⟩, by simp, rfl⟩
  | cons p pieces ih =>
      obtain ⟨results, ⟨out, hout, hflat⟩, hkeys, hversions⟩ :=
        ih fun q hq => hk q (List.mem_cons_of_mem _ hq)
      by_cases hp : p = []
      · subst hp
        exact ⟨results, ⟨[] :: out, by simp [emitted_nil, hout], by simpa using hflat⟩, hkeys,
          by simpa [resolve] using hversions⟩
      · obtain ⟨e, he, hek, hr⟩ := emitted_single_key hp (hk p List.mem_cons_self)
        refine ⟨e :: results, ⟨[e.kv] :: out, by simp [he, hout], by simp [hflat]⟩, ?_, ?_⟩
        · intro a ha
          obtain rfl | ha := List.mem_cons.mp ha
          · exact hek
          · exact hkeys a ha
        · simp [hr, hversions]

/-- What the last pass leaves a reader with, in terms of versions alone. -/
def splitTarget (pieces : List (List Version)) (older : List Version) : Option Resolved :=
  (resolve (pieces.filterMap resolve ++ older)).map Version.target

theorem denote_emitted {k : κ} {entries : List (Entry κ)} (hne : entries ≠ [])
    (hk : ∀ e ∈ entries, e.userKey = k) :
    (emitted (entries.map Entry.kv)).map (·.map Kv.denote) =
      some [(resolve (entries.map (·.version))).map Version.target] := by
  obtain ⟨e, he, -, hr⟩ := emitted_single_key hne hk
  have henc : e.kv.Encodes e.version := ⟨rfl, rfl⟩
  simp [he, hr, henc.denote_eq]

theorem denote_resolvePieces {k : κ} {pieces : List (List (Entry κ))} {older : List (Entry κ)}
    (hne : pieces.flatten ++ older ≠ []) (hk : ∀ e ∈ pieces.flatten ++ older, e.userKey = k) :
    (resolvePieces (pieces.map (·.map Entry.kv)) (older.map Entry.kv)).map (·.map Kv.denote) =
      some [splitTarget (pieces.map (·.map (·.version))) (older.map (·.version))] := by
  obtain ⟨results, ⟨out, hout, hflat⟩, hkeys, hversions⟩ := mapM_emitted (k := k) pieces
    fun p hp e he => hk e (List.mem_append_left _ (List.mem_flatten.mpr ⟨p, hp, he⟩))
  have hresne : results ++ older ≠ [] := by
    intro hnil
    obtain ⟨hr, ho⟩ := List.append_eq_nil_iff.mp hnil
    apply hne
    rw [ho, List.append_nil, List.flatten_eq_nil_iff]
    intro p hp
    by_contra hpne
    have hnone : pieces.filterMap (fun p => resolve (p.map (·.version))) = [] := by
      rw [← hversions, hr]
      rfl
    have hpn := List.filterMap_eq_nil_iff.mp hnone p hp
    obtain ⟨e, p', rfl⟩ := List.exists_cons_of_ne_nil hpne
    simp [resolve] at hpn
  have hreskeys : ∀ e ∈ results ++ older, e.userKey = k := by
    intro e he
    obtain he | he := List.mem_append.mp he
    · exact hkeys e he
    · exact hk e (List.mem_append_right _ he)
  have hfinal := denote_emitted hresne hreskeys
  rw [List.map_append, List.map_append, hversions] at hfinal
  simp only [resolvePieces, hout, Option.bind_eq_bind, Option.bind_some, hflat, hfinal, splitTarget,
    List.filterMap_map]
  rfl

theorem resolve_isValue {vs : List Version} (hvs : ∀ u ∈ vs, u.isValue = false) {r : Version}
    (hr : resolve vs = some r) : r.isValue = false := by
  cases vs with
  | nil => simp [resolve] at hr
  | cons v vs =>
      obtain rfl : vs.foldl Version.combine v = r := Option.some.inj hr
      exact foldl_combine_isValue (hvs v List.mem_cons_self)
        fun w hw => hvs w (List.mem_cons_of_mem _ hw)

theorem filterMap_resolve_isValue {pieces : List (List Version)} {older : List Version}
    (hvs : ∀ u ∈ pieces.flatten ++ older, u.isValue = false) :
    ∀ u ∈ pieces.filterMap resolve ++ older, u.isValue = false := by
  intro u hu
  obtain hu | hu := List.mem_append.mp hu
  · obtain ⟨p, hp, hr⟩ := List.mem_filterMap.mp hu
    exact resolve_isValue (fun w hw => hvs w
      (List.mem_append_left _ (List.mem_flatten.mpr ⟨p, hp, hw⟩))) hr
  · exact hvs u (List.mem_append_right _ hu)

/-- The newest entry after the first passes: the newest version itself, still above a split of the
rest when it is a write-back, or that write-back already merged with the version below it. -/
theorem splitHead {pieces : List (List Version)} {older rest : List Version} {v : Version}
    (hsplit : pieces.flatten ++ older = v :: rest) (hvs : ∀ u ∈ v :: rest, u.isValue = false) :
    ∃ r tail, pieces.filterMap resolve ++ older = r :: tail ∧
      ((v.isPlain ∧ r = v) ∨
        (r = v ∧ ∃ (pieces' : List (List Version)) (older' : List Version),
          tail = pieces'.filterMap resolve ++ older' ∧ pieces'.flatten ++ older' = rest) ∨
        ∃ n o u rest' x, v = .writeBack n o ∧ rest = u :: rest' ∧ u.newPart = some x ∧
          r = .plain (if o.sameRecord x then n else x)) := by
  induction pieces with
  | nil => exact ⟨v, rest, by simpa using hsplit, Or.inr (Or.inl ⟨rfl, [], rest, rfl, rfl⟩)⟩
  | cons p pieces ih =>
      cases p with
      | nil =>
          obtain ⟨r, tail, htail, hcases⟩ := ih (by simpa using hsplit)
          exact ⟨r, tail, htail, hcases⟩
      | cons w p =>
          simp only [List.flatten_cons, List.cons_append, List.append_assoc,
            List.cons.injEq] at hsplit
          obtain ⟨rfl, hrest⟩ := hsplit
          have hp : ∀ u ∈ p, u.isValue = false := by
            intro u hu
            exact hvs u (List.mem_cons_of_mem _ (hrest ▸ List.mem_append_left _ hu))
          refine ⟨p.foldl Version.combine w, pieces.filterMap resolve ++ older,
            by simp [resolve], ?_⟩
          cases w with
          | value b => simp [Version.isValue] at hvs
          | plain c => exact Or.inl ⟨rfl, foldl_combine_plain hp⟩
          | writeBack n o =>
              cases p with
              | nil => exact Or.inr (Or.inl ⟨rfl, pieces, older, rfl, by simpa using hrest⟩)
              | cons u p =>
                  have hpt : ∀ w ∈ p, w.isValue = false :=
                    fun w hw => hp w (List.mem_cons_of_mem _ hw)
                  refine Or.inr (Or.inr ?_)
                  cases u with
                  | value b => simp [Version.isValue] at hp
                  | plain x =>
                      exact ⟨n, o, .plain x, _, x, rfl, hrest.symm, rfl,
                        by simp [Version.combine, foldl_combine_plain hpt]⟩
                  | writeBack x y =>
                      exact ⟨n, o, .writeBack x y, _, x, rfl, hrest.symm, rfl,
                        by simp [Version.combine, foldl_combine_plain hpt]⟩

theorem resolve_writeBack_cons {n o x : BlobIndexType} {u : Version} {vs : List Version}
    (hvs : ∀ w ∈ u :: vs, w.isValue = false) (hu : u.newPart = some x) :
    resolve (.writeBack n o :: u :: vs) = some (.plain (if o.sameRecord x then n else x)) := by
  have hrest : ∀ w ∈ vs, w.isValue = false := fun w hw => hvs w (List.mem_cons_of_mem _ hw)
  cases u with
  | value b => simp [Version.newPart] at hu
  | plain c =>
      obtain rfl : c = x := by simpa [Version.newPart] using hu
      exact resolve_writeBack_plain hrest
  | writeBack c d =>
      obtain rfl : c = x := by simpa [Version.newPart] using hu
      exact resolve_writeBack_writeBack hrest

theorem newPart_isSome {v : Version} (h : v.isValue = false) : ∃ x, v.newPart = some x := by
  cases v with
  | value b => simp [Version.isValue] at h
  | plain p => exact ⟨p, rfl⟩
  | writeBack n o => exact ⟨n, rfl⟩

theorem splitTarget_eq {pieces : List (List Version)} {older vs : List Version}
    (hsplit : pieces.flatten ++ older = vs) (hvs : ∀ u ∈ vs, u.isValue = false)
    (ho : OldestIsUserWrite vs) (hexact : SplitExact vs) :
    splitTarget pieces older = (resolve vs).map Version.target := by
  have hres : ∀ u ∈ pieces.filterMap resolve ++ older, u.isValue = false :=
    filterMap_resolve_isValue (by rwa [hsplit])
  cases vs with
  | nil =>
      obtain ⟨hflat, hold⟩ := List.append_eq_nil_iff.mp hsplit
      have hnone : pieces.filterMap resolve = [] := by
        rw [List.filterMap_eq_nil_iff]
        intro p hp
        rw [List.flatten_eq_nil_iff.mp hflat p hp]
        rfl
      rw [splitTarget, hnone, hold]
      rfl
  | cons v rest =>
      obtain ⟨r, tail, htail, hcases⟩ := splitHead hsplit hvs
      rw [htail] at hres
      have htailv : ∀ u ∈ tail, u.isValue = false := fun u hu => hres u (List.mem_cons_of_mem _ hu)
      have hrestv : ∀ u ∈ rest, u.isValue = false := fun u hu => hvs u (List.mem_cons_of_mem _ hu)
      rw [splitTarget, htail]
      obtain ⟨hplain, rfl⟩ | ⟨rfl, pieces', older', rfl, hsplit'⟩ |
        ⟨n, o, u, rest', x, rfl, rfl, hx, rfl⟩ := hcases
      · cases r with
        | plain p => rw [resolve_plain htailv, resolve_plain hrestv]
        | value b => simp [Version.isPlain] at hplain
        | writeBack n o => simp [Version.isPlain] at hplain
      · cases r with
        | value b => simp [Version.isValue] at hvs
        | plain p => rw [resolve_plain htailv, resolve_plain hrestv]
        | writeBack n o =>
            cases rest with
            | nil => exact absurd (ho _ rfl) (by simp [Version.isUserWrite])
            | cons u rest' =>
                obtain ⟨x, hx⟩ := newPart_isSome (hrestv u List.mem_cons_self)
                obtain ⟨r', tail', htail', hcases'⟩ := splitHead hsplit' hrestv
                rw [htail'] at htailv ⊢
                rw [resolve_writeBack_cons hrestv hx]
                obtain ⟨-, rfl⟩ | ⟨rfl, -⟩ | ⟨c, d, w, rest'', y, rfl, rfl, hy, rfl⟩ := hcases'
                · rw [resolve_writeBack_cons htailv hx]
                · rw [resolve_writeBack_cons htailv hx]
                · obtain rfl : c = x := by simpa [Version.newPart] using hx
                  rw [resolve_writeBack_cons htailv rfl]
                  obtain hd | heq := hexact y hy
                  · rw [if_pos hd]
                  · by_cases hd : d.sameRecord y
                    · rw [if_pos hd]
                    · rw [if_neg hd, heq]
      · rw [resolve_plain htailv, resolve_writeBack_cons hrestv hx]

theorem splitExact_of_splitTarget {vs : List Version} (hvs : ∀ u ∈ vs, u.isValue = false)
    (h : ∀ v rest, vs = v :: rest → splitTarget [[v], rest] [] = (resolve vs).map Version.target) :
    SplitExact vs := by
  unfold SplitExact
  split
  · rename_i n o c d v rest
    intro u hu
    have hrest : ∀ w ∈ v :: rest, w.isValue = false := fun w hw =>
      hvs w (List.mem_cons_of_mem _ (List.mem_cons_of_mem _ hw))
    have heq := h _ _ rfl
    have hcut : [[Version.writeBack n o], .writeBack c d :: v :: rest].filterMap resolve =
        [.writeBack n o, .plain (if d.sameRecord u then c else u)] := by
      simp only [List.filterMap_cons, List.filterMap_nil, resolve_writeBack_cons hrest hu]
      rfl
    rw [splitTarget, hcut, resolve_writeBack_cons (fun w hw => hvs w (List.mem_cons_of_mem _ hw)) rfl]
      at heq
    by_cases hd : d.sameRecord u
    · exact Or.inl hd
    · rw [if_neg hd] at heq
      simp only [resolve, Version.combine, List.append_nil, List.foldl_cons, List.foldl_nil,
        Option.map_some, Version.target, Option.some.injEq, Resolved.pointer.injEq] at heq
      exact Or.inr heq.symm
  · trivial

/-- All split points agree exactly under `SplitExact`. -/
theorem splitsAgree_iff_splitExact {k : κ} {entries : List (Entry κ)}
    (hk : ∀ e ∈ entries, e.userKey = k) (hv : ∀ e ∈ entries, e.version.isValue = false)
    (ho : OldestIsUserWrite (entries.map (·.version))) :
    SplitsAgree entries ↔ SplitExact (entries.map (·.version)) := by
  have hvs : ∀ u ∈ entries.map (·.version), u.isValue = false := by
    intro u hu
    obtain ⟨e, he, rfl⟩ := List.mem_map.mp hu
    exact hv e he
  by_cases hne : entries = []
  · subst hne
    refine iff_of_true ?_ trivial
    intro pieces older hsplit
    obtain ⟨hflat, rfl⟩ := List.append_eq_nil_iff.mp hsplit
    obtain ⟨results, ⟨out, hout, hout'⟩, -, hres⟩ := mapM_emitted (k := k) pieces
      fun p hp e he => by
        rw [List.flatten_eq_nil_iff.mp hflat p hp] at he
        cases he
    have hnone : results = [] := by
      have : results.map (·.version) = [] := by
        rw [hres, List.filterMap_eq_nil_iff]
        intro p hp
        rw [List.flatten_eq_nil_iff.mp hflat p hp]
        rfl
      exact List.map_eq_nil_iff.mp this
    simp [resolvePieces, hout, hout', hnone]
  · constructor
    · intro hagree
      apply splitExact_of_splitTarget hvs
      intro v rest hcons
      obtain ⟨e, es, rfl⟩ := List.exists_cons_of_ne_nil hne
      simp only [List.map_cons, List.cons.injEq] at hcons
      obtain ⟨rfl, rfl⟩ := hcons
      have h := hagree [[e], es] [] (by simp)
      rw [denote_resolvePieces (by simp) (by simpa using hk), denote_emitted hne hk] at h
      simpa using h
    · intro hexact pieces older hsplit
      rw [denote_resolvePieces (by rwa [hsplit]) (by rwa [hsplit]), denote_emitted hne hk,
        splitTarget_eq _ hvs ho hexact]
      rw [← hsplit, List.map_append, List.map_flatten]

/-- A record relocated twice, the second time after the first copy reached the LSM tree. -/
def relocatedTwice : List (Entry ℕ) :=
  [⟨0, 3, .writeBack ⟨3, 12, 20, 0⟩ ⟨2, 12, 20, 0⟩⟩,
    ⟨0, 2, .writeBack ⟨2, 12, 20, 0⟩ ⟨1, 12, 20, 0⟩⟩, ⟨0, 1, .plain ⟨1, 12, 20, 0⟩⟩]

theorem relocatedTwice_splitsAgree : SplitsAgree relocatedTwice := by
  refine (splitsAgree_iff_splitExact (k := 0) ?_ ?_ ?_).mpr ?_
  · simp [relocatedTwice]
  · simp [relocatedTwice, Version.isValue]
  · simp [OldestIsUserWrite, relocatedTwice, Version.isUserWrite]
  · intro u hu
    simp only [Version.newPart, Option.mem_def, Option.some.injEq] at hu
    subst hu
    exact Or.inl rfl

/-- The key was overwritten in file 4 before the first copy was written back. -/
def overwrittenBeforeWriteBack : List (Entry ℕ) :=
  [⟨0, 4, .writeBack ⟨3, 12, 20, 0⟩ ⟨2, 12, 20, 0⟩⟩,
    ⟨0, 3, .writeBack ⟨2, 12, 20, 0⟩ ⟨1, 12, 20, 0⟩⟩, ⟨0, 2, .plain ⟨4, 12, 20, 0⟩⟩]

/-- One pass over all three versions ends in file 3; resolving the two older ones first ends in
file 4. -/
theorem overwrittenBeforeWriteBack_not_splitsAgree :
    (∀ e ∈ overwrittenBeforeWriteBack, e.userKey = 0 ∧ e.version.isValue = false) ∧
      OldestIsUserWrite (overwrittenBeforeWriteBack.map (·.version)) ∧
      ¬SplitsAgree overwrittenBeforeWriteBack := by
  refine ⟨by simp [overwrittenBeforeWriteBack, Version.isValue], ?_, ?_⟩
  · simp [OldestIsUserWrite, overwrittenBeforeWriteBack, Version.isUserWrite]
  · intro hagree
    have h := hagree [overwrittenBeforeWriteBack.take 1, overwrittenBeforeWriteBack.drop 1] [] rfl
    rw [denote_resolvePieces (k := 0) (by simp [overwrittenBeforeWriteBack])
      (by simp [overwrittenBeforeWriteBack]), denote_emitted (k := 0)
      (by simp [overwrittenBeforeWriteBack]) (by simp [overwrittenBeforeWriteBack])] at h
    exact absurd h (by decide)

end AegonKV
