import AegonKV.CompactionRounds

/-!
# Reads across a flush or a compaction

A read at a live snapshot, or of the newest versions, sees the same value before and after the
compaction iterator has gone over a part of the versions, and what the iterator visits is in the order
in which a table needs it.
-/

namespace AegonKV.CompactionIterator
open LittleEndian AegonKV

/-! ## Reads -/

section

variable {κ : Type}

/-- What a reader gets from a version: nothing from a deletion. -/
def seen (kv : Kv κ) : Option (ValueType × Bytes) :=
  if kv.type = .kTypeDeletion ∨ kv.type = .kTypeSingleDeletion then none else some (kv.type, kv.value)

variable [DecidableEq κ]

/-- A read of a key: the newest version at or below a sequence number. -/
def look (s : ℕ) (k : κ) (kvs : List (Kv κ)) : Option (ValueType × Bytes) :=
  (kvs.find? fun kv => kv.userKey = k ∧ kv.sequence ≤ s).bind seen

variable {s : ℕ} {k : κ} {kv : Kv κ} {l : List (Kv κ)}

theorem look_visible (hkey : kv.userKey = k) (hs : kv.sequence ≤ s) : look s k (kv :: l) = seen kv := by
  rw [look, List.find?_cons_of_pos (by simpa using ⟨hkey, hs⟩)]
  rfl

theorem look_cons (h : kv.userKey = k → ¬kv.sequence ≤ s) : look s k (kv :: l) = look s k l := by
  rw [look, List.find?_cons_of_neg (by simpa using h)]
  rfl

theorem look_append {covered : List (Kv κ)} (h : ∀ kv ∈ covered, kv.userKey = k → ¬kv.sequence ≤ s) :
    look s k (covered ++ l) = look s k l := by
  induction covered with
  | nil => rfl
  | cons kv covered ih =>
      rw [List.cons_append, look_cons (h kv List.mem_cons_self)]
      exact ih fun u hu => h u (List.mem_cons_of_mem _ hu)

theorem look_none (h : ∀ kv ∈ l, kv.userKey ≠ k) : look s k l = none := by
  have hlook := look_append (s := s) (l := []) fun kv hkv hkey _ => h kv hkv hkey
  rw [List.append_nil] at hlook
  exact hlook

/-- Where the newest version of a key that is there is a single deletion. -/
theorem look_singleDeletion (hhead : ∀ v ∈ l.find? fun v => v.userKey = k, v.type = .kTypeSingleDeletion)
    (hs : ∀ v ∈ l, v.userKey = k → v.sequence ≤ s) : look s k l = none := by
  induction l with
  | nil => rfl
  | cons v l ih =>
      by_cases hkey : v.userKey = k
      · rw [look_visible hkey (hs v List.mem_cons_self hkey)]
        have htype := hhead v (List.find?_cons_of_pos (decide_eq_true hkey))
        rw [seen, if_pos (Or.inr htype)]
      · rw [look_cons fun hc => absurd hc hkey]
        refine ih (fun u hu => hhead u ?_) fun u hu => hs u (List.mem_cons_of_mem _ hu)
        rw [List.find?_cons_of_neg (by simpa using hkey)]
        exact hu

end

section

variable {κ : Type} [LinearOrder κ] {env : Env κ} {low rest : List (Kv κ)} {kv : Kv κ}
  {st st' : State κ}

/-! ## Reads before and after -/

omit [LinearOrder κ] in
/-- `PrepareOutput` leaves the entry as every reader sees it. -/
theorem prepareOutput_spec (hordered : env.Ordered) (out : Kv κ) (st : State κ) :
    (prepareOutput env out st).1.userKey = out.userKey ∧ seen (prepareOutput env out st).1 = seen out ∧
      ∀ s, env.Live s → ((prepareOutput env out st).1.sequence ≤ s ↔ out.sequence ≤ s) := by
  rw [prepareOutput]
  split
  · rename_i hprepare
    simp only [Bool.and_eq_true, decide_eq_true_eq] at hprepare
    obtain ⟨⟨⟨⟨-, -⟩, -⟩, hle⟩, -⟩ := hprepare
    refine ⟨rfl, rfl, fun s hs => iff_of_true (Nat.zero_le s) (hle.trans (hordered.earliest_le hs))⟩
  · exact ⟨rfl, rfl, fun s hs => Iff.rfl⟩

omit [LinearOrder κ] in
theorem prepareOutput_key (env : Env κ) (out : Kv κ) (st : State κ) :
    (prepareOutput env out st).2.currentUserKey = st.currentUserKey ∧
      (prepareOutput env out st).2.currentUserKeySnapshot = st.currentUserKeySnapshot ∧
      (prepareOutput env out st).2.clearAndOutputNextKey = st.clearAndOutputNextKey := by
  rw [prepareOutput]
  split <;> exact ⟨rfl, rfl, rfl⟩

omit [LinearOrder κ] in
theorem prepareOutput_origin (env : Env κ) (out : Kv κ) (st : State κ) :
    (prepareOutput env out st).1.userKey = out.userKey ∧ (prepareOutput env out st).1.type = out.type ∧
      ((prepareOutput env out st).1.sequence = out.sequence ∨
        env.bottommostLevel = true ∧ (prepareOutput env out st).1.sequence = 0) := by
  rw [prepareOutput]
  split
  · rename_i hprepare
    simp only [Bool.and_eq_true, decide_eq_true_eq] at hprepare
    exact ⟨rfl, rfl, Or.inr ⟨hprepare.1.1.2, rfl⟩⟩
  · exact ⟨rfl, rfl, Or.inl rfl⟩

/-- No round makes an operand. -/
theorem round_merge {out : Kv κ} (h : round env st kv rest = .output out st') (htype : out.type = .kTypeMerge) :
    kv.type = .kTypeMerge := by
  have houtcome := round_outcome env st kv rest
  rw [h] at houtcome
  cases houtcome with
  | cleared =>
      dsimp only at htype
      split_ifs at htype
      exact htype
  | clearing => exact htype
  | lastKept => exact htype
  | bottommostKept => exact htype
  | kept => exact htype

/-- What comes up is a version of the input, perhaps with the sequence number of the bottommost level. -/
theorem Visits.origin {first : Bool} {visited : List (Kv κ)} (h : Visits env first st visited) :
    ∀ out ∈ visited, ∃ kv ∈ st.input, out.userKey = kv.userKey ∧
      (out.type = .kTypeMerge → kv.type = .kTypeMerge) ∧
      (out.sequence = kv.sequence ∨ env.bottommostLevel = true ∧ out.sequence = 0) := by
  induction h with
  | done hinput => exact fun out hout => nomatch hout
  | @skip first st st' kv rest visited hinput hround later ih =>
      have hshort := round_shortens env st kv rest
      rw [hround] at hshort
      intro out hout
      obtain ⟨u, hu, hout⟩ := ih out hout
      rw [hinput]
      exact ⟨u, List.mem_cons_of_mem _ (hshort.subset hu), hout⟩
  | @output first st st' kv out rest visited hinput hround later ih =>
      have hadvances := round_advances env st kv rest
      have hshort := round_shortens env st kv rest
      rw [hround] at hadvances hshort
      rw [hinput]
      intro v hv
      rcases List.mem_cons.mp hv with rfl | hv
      · obtain ⟨hkey, htype, hsequence⟩ := prepareOutput_origin env out
          { st' with hasOutputtedKey := !first || st'.hasOutputtedKey }
        exact ⟨kv, List.mem_cons_self, hkey.trans hadvances.2.2.1,
          fun hmerge => round_merge hround (htype.symm.trans hmerge),
          hsequence.imp (fun hsame => hsame.trans hadvances.2.2.2) id⟩
      · obtain ⟨u, hu, hv⟩ := ih v hv
        rw [prepareOutput_input] at hu
        exact ⟨u, List.mem_cons_of_mem _ (hshort.subset hu), hv⟩

theorem Visits.source {first : Bool} {visited : List (Kv κ)} (h : Visits env first st visited) :
    ∀ out ∈ visited, ∃ kv ∈ st.input, out.userKey = kv.userKey ∧ out.sequence ≤ kv.sequence := by
  intro out hout
  obtain ⟨kv, hkv, hkey, -, hsequence⟩ := h.origin out hout
  refine ⟨kv, hkv, hkey, ?_⟩
  rcases hsequence with hsame | ⟨-, hzero⟩
  · exact hsame.le
  · exact hzero.le.trans (Nat.zero_le _)

theorem Visits.keys {first : Bool} {visited : List (Kv κ)} (h : Visits env first st visited) {k : κ} (hk : ∀ kv ∈ st.input, kv.userKey ≠ k) :
    ∀ out ∈ visited, out.userKey ≠ k := by
  intro out hout hkey
  obtain ⟨kv, hkv, hsame, -⟩ := h.source out hout
  exact hk kv hkv (hsame.symm.trans hkey)

/-- Rule (A) comes first. -/
theorem round_hidden (hclear : st.clearAndOutputNextKey = false) (hsingle : kv.type ≠ .kTypeSingleDeletion)
    (hkey : st.currentUserKey = some kv.userKey)
    (hsame : st.currentUserKeySnapshot = env.stripe kv.sequence) :
    round env st kv rest = .skip { st.at env kv with input := rest } := by
  have hnew : st.newUserKey kv.userKey = st := if_pos hkey
  rw [round, hnew, State.at, hnew]
  dsimp only
  rw [hclear, if_neg Bool.false_ne_true, if_neg hsingle, if_pos (Or.inl hsame)]

/-- The keys of the input have passed the one of the state. -/
theorem Inv.passed (h : Inv env st) (hctx : Context env low st.input) (hinput : st.input = kv :: rest)
    {k : κ} (hkey : st.currentUserKey = some k) (hne : kv.userKey ≠ k) :
    ∀ u ∈ st.input, u.userKey ≠ k := by
  have hlt : k < kv.userKey :=
    lt_of_le_of_ne (h.ahead k hkey kv (by rw [hinput]; exact List.mem_cons_self)) (Ne.symm hne)
  intro u hu hku
  rw [hinput] at hu hctx
  rcases List.mem_cons.mp hu with rfl | hu
  · exact hne hku
  · rcases (List.pairwise_cons.mp hctx.sorted).1 u hu with hless | ⟨heq, -⟩
    · exact (hlt.trans hless).ne hku.symm
    · exact hne (heq.trans hku)

/-- Once a version was there that every live snapshot sees, none of the key comes up. Single deletions
go too where its sequence number was zeroed. -/
theorem Visits.nothing (hordered : env.Ordered) {first : Bool} {visited : List (Kv κ)}
    (h : Visits env first st visited) (hctx : Context env low st.input) (hinv : Inv env st) {k : κ}
    (hkey : st.currentUserKey = some k) (hall : ∀ s, env.Live s → st.currentUserKeySnapshot ≤ s)
    (hclear : st.clearAndOutputNextKey = false)
    (hsingle : st.lastKeySeqZeroed = true ∨
      ∀ kv ∈ st.input, kv.userKey = k → kv.type ≠ .kTypeSingleDeletion) :
    ∀ out ∈ visited, out.userKey ≠ k := by
  induction h with
  | done hinput => exact fun out hout => nomatch hout
  | @skip first st st' kv rest visited hinput hround later ih =>
      by_cases hkv : kv.userKey = k
      · subst hkv
        have hmem : kv ∈ st.input := by
          rw [hinput]
          exact List.mem_cons_self
        have hcovers := hinv.covers kv hmem hkey
        have hkeeps := hinv.round hordered hctx hinput
        have hshort := round_shortens env st kv rest
        have hnew : st.newUserKey kv.userKey = st := if_pos hkey
        have hkey' := currentUserKey_at env st kv
        have houtcome := round_outcome env st kv rest
        rw [hround] at hkeeps hshort houtcome
        rw [hinput] at hctx hsingle
        -- the next state has the key and skips on, or no version of the key is left
        have hgo : st'.currentUserKey = some kv.userKey →
            st'.currentUserKeySnapshot = env.stripe kv.sequence →
            st'.clearAndOutputNextKey = false → st'.lastKeySeqZeroed = st.lastKeySeqZeroed →
            ∀ out ∈ visited, out.userKey ≠ kv.userKey := by
          intro hcurrent hsnapshot hclear' hzeroed
          refine ih (hctx.suffix_cons hshort) hkeeps hcurrent (fun s hs => ?_) hclear' ?_
          · rw [hsnapshot]
            exact hcovers.trans (hall s hs)
          · rw [hzeroed]
            exact hsingle.imp id fun hno u hu =>
              hno u (List.mem_cons_of_mem _ (hshort.subset hu))
        have hzero : (st.at env kv).lastKeySeqZeroed = st.lastKeySeqZeroed := by rw [State.at, hnew]
        cases houtcome with
        | both htype hclear' hrest hnext hwhy => exact hgo hkey' rfl hclear' hzero
        | doubled htype hclear' hrest hnext htwo => exact hgo hkey' rfl hclear' hzero
        | lastDropped htype hclear' hrest hwhy =>
            exact later.keys (hctx.passed List.suffix_rfl hrest)
        | hidden htype hclear' hsame => exact hgo hkey' rfl hclear' hzero
        | obsolete htype hclear' hsequence hgone => exact hgo hkey' rfl hclear' hzero
        | bottommostDropped htype hclear' hbottom hrest hlast => exact hgo hkey' rfl hclear' hzero
      · exact Visits.keys (.skip hinput hround later) (hinv.passed hctx hinput hkey hkv)
  | @output first st st' kv out rest visited hinput hround later ih =>
      by_cases hkv : kv.userKey = k
      · subst hkv
        exfalso
        have hmem : kv ∈ st.input := by
          rw [hinput]
          exact List.mem_cons_self
        have hnew : st.newUserKey kv.userKey = st := if_pos hkey
        have hzero : (st.at env kv).lastKeySeqZeroed = st.lastKeySeqZeroed := by rw [State.at, hnew]
        by_cases htype : kv.type = .kTypeSingleDeletion
        · have hz : (st.at env kv).lastKeySeqZeroed = true :=
            hzero.trans (hsingle.resolve_right fun hno => hno kv hmem rfl htype)
          have houtcome := round_outcome env st kv rest
          rw [hround] at houtcome
          cases houtcome with
          | cleared hc =>
              rw [clearAndOutputNextKey_at, hclear] at hc
              cases hc
          | clearing _ _ hnot => exact Bool.false_ne_true (hnot.symm.trans hz)
          | lastKept _ _ hnot => exact Bool.false_ne_true (hnot.symm.trans hz)
          | bottommostKept hdeletion =>
              rw [htype] at hdeletion
              cases hdeletion
          | kept _ hno => exact Bool.false_ne_true ((hno htype).1.symm.trans hz)
        · have hsame : st.currentUserKeySnapshot = env.stripe kv.sequence :=
            le_antisymm (hall _ (env.live_stripe _)) (hinv.covers kv hmem hkey)
          rw [round_hidden hclear htype hkey hsame] at hround
          cases hround
      · exact Visits.keys (.output hinput hround later) (hinv.passed hctx hinput hkey hkv)

theorem find?_versions (k : κ) (l : List (Kv κ)) :
    (l.find? fun v => v.userKey = k) = (versions k l).head? := by
  rw [versions, List.head?_filter]

/-- Behind a single deletion and the write below it there is another single deletion, or nothing. -/
theorem Context.behindPair {next : Kv κ} (h : Context env low (kv :: next :: rest))
    (htype : kv.type = .kTypeSingleDeletion) (hkey : next.userKey = kv.userKey) :
    ∀ v ∈ (rest ++ low).find? fun v => v.userKey = kv.userKey, v.type = .kTypeSingleDeletion := by
  obtain ⟨vs, hvs, halt, hhead⟩ := h.single htype
  rw [versions, List.filter_cons_of_pos (by simpa using hkey), List.cons_append] at hvs
  subst hvs
  have hput := hhead next rfl
  intro v hv
  rw [find?_versions, versions, List.filter_append] at hv
  rcases halt.types v (List.mem_cons_of_mem _ (List.mem_of_head? hv)) with hv' | hv'
  · exact hv'
  · have hsingle := ((List.isChain_cons.mp halt.turns).1 v hv).mpr hv'
    exact absurd hput (not_isPut_of_singleDeletion hsingle)

/-- A deletion and a single deletion of one key do not come together. -/
theorem Context.no_single (h : Context env low (kv :: rest)) (htype : kv.type = .kTypeDeletion) :
    ∀ u ∈ rest, u.userKey = kv.userKey → u.type ≠ .kTypeSingleDeletion := by
  intro u hu hkey hsingle
  have halt := h.singles kv.userKey ⟨u, List.mem_cons_of_mem _ hu, hkey, hsingle⟩
  rw [versions, List.filter_cons_of_pos (by simp)] at halt
  rcases halt.types kv List.mem_cons_self with hc | hc | hc
  all_goals
    rw [htype] at hc
    cases hc

/-- What is below a visible entry is visible. -/
theorem Context.visible_below (h : Context env low (kv :: rest)) {rest' : List (Kv κ)}
    (hsuffix : rest' <:+ rest) {s : ℕ} (hs : kv.sequence ≤ s) :
    ∀ v ∈ rest' ++ low, v.userKey = kv.userKey → v.sequence ≤ s := by
  intro v hv hkey
  rcases List.mem_append.mp hv with hv | hv
  · exact (h.below (hsuffix.subset hv) hkey).le.trans hs
  · exact (h.older kv List.mem_cons_self v hv hkey).le.trans hs

omit [LinearOrder κ] in
theorem Env.stripe_pos (env : Env κ) (sequence : ℕ) (h : 0 ∈ env.snapshots → 0 < sequence) :
    0 < env.stripe sequence := by
  rcases env.stripe_cases sequence with ⟨hmem, hle⟩ | ⟨-, hmax⟩
  · rcases Nat.eq_zero_or_pos (env.stripe sequence) with hzero | hpos
    · rw [hzero] at hmem hle
      have := h hmem
      omega
    · exact hpos
  · rw [hmax]
    decide

/-- Rule (A) drops only what no undecided reader sees. -/
theorem Inv.hidden (h : Inv env st) (hctx : Context env low st.input)
    (hinput : st.input = kv :: rest)
    (hsame : (st.newUserKey kv.userKey).currentUserKeySnapshot = env.stripe kv.sequence ∨
      0 < (st.newUserKey kv.userKey).currentUserKeySnapshot ∧
        (st.newUserKey kv.userKey).currentUserKeySnapshot < env.stripe kv.sequence) :
    st.currentUserKey = some kv.userKey ∧ st.currentUserKeySnapshot = env.stripe kv.sequence := by
  have hmem : kv ∈ st.input := by
    rw [hinput]
    exact List.mem_cons_self
  rw [State.newUserKey] at hsame
  split at hsame
  · rename_i hkey
    have hcovers := h.covers kv hmem hkey
    exact ⟨hkey, by omega⟩
  · have hpos := env.stripe_pos kv.sequence fun hzero => hctx.positive hzero kv hmem
    dsimp only at hsame
    omega

/-- A round without an output, as a reader of its key sees it. -/
theorem look_skip (hordered : env.Ordered) (hctx : Context env low st.input) (hinv : Inv env st)
    (hinput : st.input = kv :: rest) (hround : round env st kv rest = .skip st') {first : Bool}
    {visited : List (Kv κ)} (later : Visits env first st' visited) {s : ℕ} (hs : env.Live s)
    (hk : st.currentUserKey = some kv.userKey →
      s < st.currentUserKeySnapshot ∨ kv.type = .kTypeSingleDeletion)
    (ih : (st'.currentUserKey = some kv.userKey → s < st'.currentUserKeySnapshot ∨
        ∀ v ∈ st'.input.find? fun v => v.userKey = kv.userKey, v.type = .kTypeSingleDeletion) →
      look s kv.userKey (visited ++ low) = look s kv.userKey (st'.input ++ low)) :
    look s kv.userKey (visited ++ low) = look s kv.userKey (kv :: rest ++ low) := by
  have hkeeps := hinv.round hordered hctx hinput
  have houtcome := round_outcome env st kv rest
  have hfresh := hinv.hidden hctx hinput
  have hzeroed := hinv.at_zeroed hinput
  rw [hround] at hkeeps houtcome
  rw [hinput] at hctx
  have hmax := hctx.bounded kv List.mem_cons_self
  have hsees := hordered.stripe_le hs hmax
  have hdeletion : kv.type = .kTypeDeletion ∨ kv.type = .kTypeSingleDeletion → seen kv = none :=
    fun htype => if_pos htype
  have hgone : env.keyNotExists kv.userKey = true → ∀ u ∈ low, u.userKey ≠ kv.userKey :=
    hctx.gone kv List.mem_cons_self
  cases houtcome with
  | @both next rest' htype hclear hrest hkey hwhy =>
      subst hrest
      have hbehind := hctx.behindPair htype hkey
      have hsuffix : rest' <:+ next :: rest' := List.suffix_cons next rest'
      rw [ih fun _ => Or.inr fun v hv => hbehind v (List.find?_append.symm ▸ (by
        dsimp only at hv
        rw [hv]
        rfl))]
      by_cases hvisible : kv.sequence ≤ s
      · rw [List.cons_append, look_visible rfl hvisible, hdeletion (Or.inr htype)]
        exact look_singleDeletion hbehind (hctx.visible_below hsuffix hvisible)
      · have hnext : ¬next.sequence ≤ s := by
          rcases hwhy with hz | hsame
          · exact absurd (hsees.mp ((hzeroed hz).2 s hs)) hvisible
          · rwa [hordered.same hs hmax (hctx.below List.mem_cons_self hkey).le
              (fun hzero => hctx.positive hzero next (List.mem_cons_of_mem _ List.mem_cons_self)) hsame]
        rw [List.cons_append, look_cons fun _ => hvisible, List.cons_append, look_cons fun _ => hnext]
  | @doubled next rest' htype hclear hrest hkey hnext =>
      subst hrest
      obtain ⟨vs, hvs, -, hhead⟩ := hctx.single htype
      rw [versions, List.filter_cons_of_pos (by simpa using hkey)] at hvs
      subst hvs
      rcases hhead next rfl with hput | hput
      all_goals
        rw [hput] at hnext
        exact absurd hnext (by decide)
  | lastDropped htype hclear hrest hwhy =>
      have hnew : (none : Option κ) ≠ some kv.userKey := (Option.some_ne_none _).symm
      rw [ih fun hc => absurd hc hnew]
      by_cases hvisible : kv.sequence ≤ s
      · rw [List.cons_append, look_visible rfl hvisible, hdeletion (Or.inr htype)]
        have hlow : env.keyNotExists kv.userKey = true := by
          rcases hwhy with hwhy | hz
          · exact hwhy.2
          · exact hctx.bottommost (hzeroed hz).1 kv List.mem_cons_self
        refine look_none fun u hu => ?_
        rcases List.mem_append.mp hu with hu | hu
        · exact hctx.passed List.suffix_rfl hrest u hu
        · exact hgone hlow u hu
      · rw [List.cons_append, look_cons fun _ => hvisible]
  | hidden htype hclear hsame =>
      obtain ⟨hcurrent, hsnapshot⟩ := hfresh hsame
      have hlt : s < env.stripe kv.sequence := by
        rcases hk hcurrent with hlt | hsingle
        · rwa [hsnapshot] at hlt
        · exact absurd hsingle htype
      rw [ih fun _ => Or.inl hlt, List.cons_append,
        look_cons fun _ hle => Nat.not_le.mpr hlt (hsees.mpr hle)]
  | obsolete htype hclear hsequence hkey =>
      have hall : ∀ t, env.Live t → env.stripe kv.sequence ≤ t := fun t ht =>
        (hordered.stripe_le ht hmax).mpr (hsequence.trans (hordered.earliest_le ht))
      have hnothing := later.nothing hordered (hctx.suffix (List.suffix_cons kv rest)) hkeeps
        (currentUserKey_at env st kv) hall hclear (Or.inr (hctx.no_single htype))
      rw [List.cons_append, look_visible rfl (hsees.mp (hall s hs)), hdeletion (Or.inl htype)]
      refine look_none fun u hu => ?_
      rcases List.mem_append.mp hu with hu | hu
      · exact hnothing u hu
      · exact hgone hkey u hu
  | @bottommostDropped rest' htype hclear hbottom hrest hlast =>
      obtain ⟨covered, rfl, hcovered⟩ := hrest
      have habsent := hctx.passed (List.suffix_append covered rest') hlast
      have hnone : ∀ u ∈ rest' ++ low, u.userKey ≠ kv.userKey := by
        intro u hu
        rcases List.mem_append.mp hu with hu | hu
        · exact habsent u hu
        · exact hgone (hctx.bottommost hbottom kv List.mem_cons_self) u hu
      rw [ih fun _ => Or.inr fun v hv => ?_, look_none hnone]
      · by_cases hvisible : kv.sequence ≤ s
        · rw [List.cons_append, look_visible rfl hvisible, hdeletion (Or.inl htype)]
        · rw [List.cons_append, look_cons fun _ => hvisible, List.append_assoc,
            look_append fun u hu _ => ?_, look_none hnone]
          obtain ⟨hkey, hsame⟩ := hcovered u hu
          have hmem := List.mem_append_left rest' hu
          rwa [hordered.same hs hmax (hctx.below hmem hkey).le
            (fun hzero => hctx.positive hzero u (List.mem_cons_of_mem _ hmem)) hsame]
      · have hmem := List.mem_of_find?_eq_some hv
        exact absurd (by simpa using List.find?_some hv) (habsent v hmem)

/-- A round with an output, as a reader of its key sees it. -/
theorem look_output (hordered : env.Ordered) (hctx : Context env low st.input) (hinv : Inv env st)
    (hinput : st.input = kv :: rest) {out : Kv κ} (hround : round env st kv rest = .output out st')
    {out' : Kv κ} {later : List (Kv κ)} {s : ℕ} (hs : env.Live s)
    (hkey : out'.userKey = out.userKey) (hseen : seen out' = seen out)
    (hsequence : out'.sequence ≤ s ↔ out.sequence ≤ s)
    (hk : st.currentUserKey = some kv.userKey →
      s < st.currentUserKeySnapshot ∨ kv.type = .kTypeSingleDeletion)
    (ih : s < env.stripe kv.sequence →
      look s kv.userKey (later ++ low) = look s kv.userKey (st'.input ++ low)) :
    look s kv.userKey (out' :: later ++ low) = look s kv.userKey (kv :: rest ++ low) := by
  have houtcome := round_outcome env st kv rest
  have hclears := hinv.clears
  rw [hround] at houtcome
  rw [hinput] at hctx hclears
  have hmax := hctx.bounded kv List.mem_cons_self
  have hsees := hordered.stripe_le hs hmax
  -- the entry comes out as it went in, and what was skipped is seen by nobody who does not see it
  have hplain : ∀ covered, rest = covered ++ st'.input → out = kv →
      (∀ u ∈ covered, u.userKey = kv.userKey ∧ (u.sequence ≤ s ↔ kv.sequence ≤ s)) →
      look s kv.userKey (out' :: later ++ low) = look s kv.userKey (kv :: rest ++ low) := by
    rintro covered hrest rfl hcovered
    by_cases hvisible : out.sequence ≤ s
    · rw [List.cons_append, List.cons_append, look_visible rfl hvisible,
        look_visible hkey (hsequence.mpr hvisible), hseen]
    · rw [List.cons_append, look_cons fun _ => fun hc => hvisible (hsequence.mp hc), List.cons_append,
        look_cons fun _ => hvisible, hrest, List.append_assoc,
        look_append fun u hu _ => fun hc => hvisible ((hcovered u hu).2.mp hc)]
      exact ih (Nat.not_le.mp fun hc => hvisible (hsees.mp hc))
  cases houtcome with
  | cleared hclear =>
      rw [clearAndOutputNextKey_at] at hclear
      obtain ⟨u, later', hhead, hcurrent, hstripe, hput⟩ := hclears hclear
      obtain ⟨rfl, rfl⟩ := List.cons.inj hhead
      have hlt : s < env.stripe kv.sequence := by
        rcases hk hcurrent with hlt | hsingle
        · rwa [← hstripe] at hlt
        · exact absurd hput (not_isPut_of_singleDeletion hsingle)
      have hhidden : ¬kv.sequence ≤ s := fun hc => Nat.not_le.mpr hlt (hsees.mpr hc)
      rw [List.cons_append, look_cons fun _ => fun hc => hhidden (hsequence.mp hc), List.cons_append,
        look_cons fun _ => hhidden]
      exact ih hlt
  | clearing htype hclear hzeroed hrest hnext hsame hlate =>
      exact hplain [] rfl rfl fun u hu => nomatch hu
  | lastKept htype hclear hzeroed hrest hwhy => exact hplain [] rfl rfl fun u hu => nomatch hu
  | kept hclear hsingle => exact hplain [] rfl rfl fun u hu => nomatch hu
  | @bottommostKept rest' htype hclear hrest =>
      obtain ⟨covered, rfl, hcovered⟩ := hrest
      refine hplain covered rfl rfl fun u hu => ?_
      obtain ⟨hukey, hsame⟩ := hcovered u hu
      have hmem := List.mem_append_left rest' hu
      exact ⟨hukey, hordered.same hs hmax (hctx.below hmem hukey).le
        (fun hzero => hctx.positive hzero u (List.mem_cons_of_mem _ hmem)) hsame⟩

/-- A reader of another key sees nothing of a round. -/
theorem look_other {k : κ} (hne : kv.userKey ≠ k) {input : List (Kv κ)} {covered : List (Kv κ)}
    (hrest : rest = covered ++ input) (hcovered : ∀ u ∈ covered, u.userKey = kv.userKey) (s : ℕ) :
    look s k (kv :: rest ++ low) = look s k (input ++ low) := by
  rw [List.cons_append, look_cons fun hc => absurd hc hne, hrest, List.append_assoc]
  exact look_append fun u hu hkey => absurd ((hcovered u hu).symm.trans hkey) hne

theorem Visits.look (hordered : env.Ordered) {first : Bool} {visited : List (Kv κ)}
    (h : Visits env first st visited) (hctx : Context env low st.input) (hinv : Inv env st) {k : κ}
    {s : ℕ} (hs : env.Live s)
    (hk : st.currentUserKey = some k → s < st.currentUserKeySnapshot ∨
      ∀ v ∈ st.input.find? fun v => v.userKey = k, v.type = .kTypeSingleDeletion) :
    look s k (visited ++ low) = look s k (st.input ++ low) := by
  induction h with
  | done hinput => rw [hinput]
  | @skip first st st' kv rest visited hinput hround later ih =>
      have hkeeps := hinv.round hordered hctx hinput
      have hadvances := round_advances env st kv rest
      have hshort := round_shortens env st kv rest
      rw [hround] at hkeeps hadvances hshort
      obtain ⟨⟨covered, hrest, hcovered⟩, hcurrent⟩ := hadvances
      have hctx' : Context env low st'.input := by
        rw [hinput] at hctx
        exact hctx.suffix_cons hshort
      by_cases hkv : kv.userKey = k
      · subst hkv
        have hhead : (st.input.find? fun v => v.userKey = kv.userKey) = some kv := by
          rw [hinput]
          exact List.find?_cons_of_pos (by simp)
        rw [hhead] at hk
        have hlook := look_skip hordered hctx hinv hinput hround later hs
          (fun hc => (hk hc).imp id fun hall => hall kv rfl) (ih hctx' hkeeps)
        rw [hlook, hinput]
      · rw [ih hctx' hkeeps fun hc => absurd (hcurrent k hc).symm hkv, hinput]
        exact (look_other hkv hrest hcovered s).symm
  | @output first st st' kv out rest visited hinput hround later ih =>
      have hadvances := round_advances env st kv rest
      have hshort := round_shortens env st kv rest
      have hinv' := hinv.afterOutput hordered hctx hinput hround (!first || st'.hasOutputtedKey)
      have hkeeps := hinv.round hordered hctx hinput
      rw [hround] at hadvances hshort hkeeps
      obtain ⟨⟨covered, hrest, hcovered⟩, hcurrent, hkey, hsequence⟩ := hadvances
      obtain ⟨hkey', hseen, hlive⟩ := prepareOutput_spec hordered out
        { st' with hasOutputtedKey := !first || st'.hasOutputtedKey }
      obtain ⟨hstate, hsnapshot, -⟩ := prepareOutput_key env out
        { st' with hasOutputtedKey := !first || st'.hasOutputtedKey }
      have hctx' : Context env low (prepareOutput env out
          { st' with hasOutputtedKey := !first || st'.hasOutputtedKey }).2.input := by
        rw [hinput] at hctx
        rw [prepareOutput_input]
        exact hctx.suffix_cons hshort
      have hlater := ih hctx' hinv'
      rw [hstate, hsnapshot, prepareOutput_input] at hlater
      dsimp only at hlater
      by_cases hkv : kv.userKey = k
      · subst hkv
        have hhead : (st.input.find? fun v => v.userKey = kv.userKey) = some kv := by
          rw [hinput]
          exact List.find?_cons_of_pos (by simp)
        rw [hhead] at hk
        rw [hinput]
        refine look_output hordered hctx hinv hinput hround hs hkey' hseen (hlive s hs)
          (fun hc => (hk hc).imp id fun hall => hall kv rfl) fun hlt => hlater fun hc => Or.inl ?_
        rw [hkeeps.2.2 (by rw [hc]; exact Option.some_ne_none _)]
        exact hlt
      · rw [List.cons_append, look_cons fun hc => absurd ((hkey'.trans hkey).symm.trans hc) hkv,
          hlater fun hc => absurd (hcurrent k hc).symm hkv, hinput]
        exact (look_other hkv hrest hcovered s).symm

/-! ## The order of what is visited -/

/-- The order of internal keys. -/
def Before (a b : Kv κ) : Prop := a.userKey < b.userKey ∨ a.userKey = b.userKey ∧ b.sequence < a.sequence

/-- The state after an output: it knows the key, or the key does not come again, or a transaction may
still ask for the write. -/
theorem output_state (hctx : Context env low (kv :: rest)) {out : Kv κ}
    (hround : round env st kv rest = .output out st') :
    (st'.currentUserKey = some kv.userKey ∧ st'.currentUserKeySnapshot = env.stripe kv.sequence ∧
        st'.clearAndOutputNextKey = false) ∨
      (∀ u ∈ st'.input, u.userKey ≠ kv.userKey) ∨ env.earliestWriteConflictSnapshot < kv.sequence := by
  have houtcome := round_outcome env st kv rest
  have hkey := currentUserKey_at env st kv
  rw [hround] at houtcome
  cases houtcome with
  | cleared hclear => exact Or.inl ⟨hkey, rfl, rfl⟩
  | clearing htype hclear hzeroed hrest hnext hsame hlate => exact Or.inr (Or.inr hlate)
  | lastKept htype hclear hzeroed hrest hwhy => exact Or.inr (Or.inl (hctx.passed List.suffix_rfl hrest))
  | bottommostKept htype hclear hrest => exact Or.inl ⟨hkey, rfl, hclear⟩
  | kept hclear hsingle => exact Or.inl ⟨hkey, rfl, hclear⟩

theorem Visits.sorted (hordered : env.Ordered) {first : Bool} {visited : List (Kv κ)}
    (h : Visits env first st visited) (hctx : Context env low st.input) (hinv : Inv env st) :
    visited.Pairwise Before := by
  induction h with
  | done hinput => exact List.Pairwise.nil
  | @skip first st st' kv rest visited hinput hround later ih =>
      have hkeeps := hinv.round hordered hctx hinput
      have hshort := round_shortens env st kv rest
      rw [hround] at hkeeps hshort
      rw [hinput] at hctx
      exact ih (hctx.suffix_cons hshort) hkeeps
  | @output first st st' kv out rest visited hinput hround later ih =>
      have hadvances := round_advances env st kv rest
      have hshort := round_shortens env st kv rest
      have hinv' := hinv.afterOutput hordered hctx hinput hround (!first || st'.hasOutputtedKey)
      rw [hround] at hadvances hshort
      rw [hinput] at hctx
      have hctx' : Context env low (prepareOutput env out
          { st' with hasOutputtedKey := !first || st'.hasOutputtedKey }).2.input := by
        rw [prepareOutput_input]
        exact hctx.suffix_cons hshort
      refine List.pairwise_cons.mpr ⟨fun v hv => ?_, ih hctx' hinv'⟩
      have hkey := (prepareOutput_spec hordered out
        { st' with hasOutputtedKey := !first || st'.hasOutputtedKey }).1.trans hadvances.2.2.1
      obtain ⟨u, hu, hvkey, hvle⟩ := later.source v hv
      rw [prepareOutput_input] at hu
      rw [Before, hkey]
      rcases (List.pairwise_cons.mp hctx.sorted).1 u (hshort.subset hu) with hlt | ⟨heq, hlt⟩
      · exact Or.inl (hvkey.symm ▸ hlt)
      refine Or.inr ⟨heq.trans hvkey.symm, ?_⟩
      rw [prepareOutput] at later hinv' hctx' ⊢
      split at later
      · -- no version follows one whose sequence number is zeroed
        exfalso
        rename_i hprepare
        rw [if_pos hprepare] at hinv' hctx'
        simp only [Bool.and_eq_true, decide_eq_true_eq] at hprepare
        obtain ⟨⟨⟨⟨-, -⟩, -⟩, hle⟩, -⟩ := hprepare
        rw [hadvances.2.2.2] at hle
        have hmax := hctx.bounded kv List.mem_cons_self
        rcases output_state hctx hround with ⟨hcurrent, hsnapshot, hclear⟩ | habsent | hlate
        · refine later.nothing hordered hctx' hinv' hcurrent (fun s hs => ?_) hclear (Or.inl rfl) v hv
            (hvkey.trans heq.symm)
          dsimp only
          rw [hsnapshot, hordered.stripe_le hs hmax]
          exact hle.trans (hordered.earliest_le hs)
        · exact habsent u hu heq.symm
        · exact Nat.not_le.mpr hlate (hle.trans hordered.conflicts)
      · rename_i hprepare
        rw [if_neg hprepare]
        dsimp only
        rw [hadvances.2.2.2]
        exact hvle.trans_lt hlt

/-! ## Main results -/

theorem look_upper {upper a b : List (Kv κ)} {s : ℕ} {k : κ} (h : look s k a = look s k b) :
    look s k (upper ++ a) = look s k (upper ++ b) := by
  induction upper with
  | nil => exact h
  | cons kv upper ih =>
      by_cases hvisible : kv.userKey = k ∧ kv.sequence ≤ s
      · rw [List.cons_append, List.cons_append, look_visible hvisible.1 hvisible.2,
          look_visible hvisible.1 hvisible.2]
      · rw [List.cons_append, List.cons_append, look_cons fun hkey hle => hvisible ⟨hkey, hle⟩,
          look_cons fun hkey hle => hvisible ⟨hkey, hle⟩]
        exact ih

/-- Two readers that see all versions see the same. -/
theorem look_all {l : List (Kv κ)} {s t : ℕ} (hs : ∀ kv ∈ l, kv.sequence ≤ s)
    (ht : ∀ kv ∈ l, kv.sequence ≤ t) (k : κ) : look s k l = look t k l := by
  induction l with
  | nil => rfl
  | cons kv l ih =>
      by_cases hkey : kv.userKey = k
      · rw [look_visible hkey (hs kv List.mem_cons_self), look_visible hkey (ht kv List.mem_cons_self)]
      · rw [look_cons fun hc => absurd hc hkey, look_cons fun hc => absurd hc hkey]
        exact ih (fun u hu => hs u (List.mem_cons_of_mem _ hu)) fun u hu =>
          ht u (List.mem_cons_of_mem _ hu)

variable {input : List (Kv κ)} {out : List (Kv κ)}

/-- A read below newer data. -/
theorem look_visited (hordered : env.Ordered) (hctx : Context env low input)
    (hlow : ∀ kv ∈ low, kv.sequence ≤ kMaxSequenceNumber) (h : visited env input = .ok out) (k : κ)
    {s : ℕ} (hs : s ∈ env.snapshots ∨ ∀ kv ∈ input ++ low, kv.sequence ≤ s) :
    look s k (out ++ low) = look s k (input ++ low) := by
  have hvisits : Visits env true { input := input } out := visits_of_visitFrom le_rfl h
  have hinv : Inv env { input := input } := Inv.noKey rfl rfl
  have hlive : ∀ {t}, env.Live t → look t k (out ++ low) = look t k (input ++ low) := fun ht =>
    hvisits.look hordered hctx hinv ht fun hc => nomatch hc
  rcases hs with hs | hs
  · exact hlive (Or.inl hs)
  · have hmax : ∀ kv ∈ input ++ low, kv.sequence ≤ kMaxSequenceNumber := fun kv hkv =>
      (List.mem_append.mp hkv).elim (hctx.bounded kv) (hlow kv)
    have hout : ∀ t, (∀ kv ∈ input ++ low, kv.sequence ≤ t) → ∀ kv ∈ out ++ low, kv.sequence ≤ t := by
      intro t ht kv hkv
      rcases List.mem_append.mp hkv with hkv | hkv
      · obtain ⟨u, hu, -, hle⟩ := hvisits.source kv hkv
        exact hle.trans (ht u (List.mem_append_left _ hu))
      · exact ht kv (List.mem_append_right _ hkv)
    calc look s k (out ++ low)
        = look kMaxSequenceNumber k (out ++ low) := look_all (hout s hs) (hout _ hmax) k
      _ = look kMaxSequenceNumber k (input ++ low) := hlive (Or.inr le_rfl)
      _ = look s k (input ++ low) := look_all hmax hs k

/-- A read of any key at a live snapshot, or one that sees every version, is the same before and after a
flush or a compaction, below newer data and above older data. -/
theorem visited_reads (hordered : env.Ordered) (hctx : Context env low input)
    (hlow : ∀ kv ∈ low, kv.sequence ≤ kMaxSequenceNumber) (h : visited env input = .ok out) (k : κ)
    {s : ℕ} (hs : s ∈ env.snapshots ∨ ∀ kv ∈ input ++ low, kv.sequence ≤ s) (upper : List (Kv κ)) :
    look s k (upper ++ (out ++ low)) = look s k (upper ++ (input ++ low)) :=
  look_upper (look_visited hordered hctx hlow h k hs)

/-- What is visited comes by key and newest first, with no internal key twice. -/
theorem visited_sorted (hordered : env.Ordered) (hctx : Context env low input)
    (h : visited env input = .ok out) : out.Pairwise Before :=
  have hvisits : Visits env true { input := input } out := visits_of_visitFrom le_rfl h
  hvisits.sorted hordered hctx (Inv.noKey rfl rfl)

end

section

/-- A compaction to the last level while one snapshot is live. -/
def bottommost : Env ℕ where
  snapshots := [5]
  earliestWriteConflictSnapshot := kMaxSequenceNumber
  compaction := some ⟨true, false, false, fun _ => true⟩
  preserveDeletesSeqnum := 0

/-- An overwritten key, a deleted one and one with a single deletion. -/
def threeKeys : List (Kv ℕ) :=
  [⟨1, 9, .kTypeBlobIndex, [1]⟩, ⟨1, 4, .kTypeValue, [2]⟩, ⟨1, 2, .kTypeValue, [3]⟩,
    ⟨2, 3, .kTypeDeletion, []⟩, ⟨2, 1, .kTypeValue, [4]⟩,
    ⟨3, 8, .kTypeSingleDeletion, []⟩, ⟨3, 7, .kTypeValue, [5]⟩]

theorem bottommost_ordered : bottommost.Ordered where
  sorted := List.pairwise_singleton _ _
  bounded := by decide +kernel
  conflicts := by decide +kernel

theorem threeKeys_context : Context bottommost [] threeKeys where
  sorted := by decide +kernel
  bounded := by decide +kernel
  positive := by decide +kernel
  older := fun _ _ _ hu => nomatch hu
  gone := fun _ _ _ _ hu => nomatch hu
  bottommost := fun _ _ _ => rfl
  singles := by
    rintro k ⟨kv, hkv, rfl, htype⟩
    have hthree : kv.userKey = 3 := by
      revert kv
      decide +kernel
    rw [hthree]
    exact ⟨by decide +kernel, by decide +kernel⟩

theorem visited_threeKeys : visited bottommost threeKeys =
    .ok [⟨1, 9, .kTypeBlobIndex, [1]⟩, ⟨1, 0, .kTypeValue, [2]⟩] := rfl

theorem visited_reads_threeKeys :
    look 5 1 [⟨1, 9, .kTypeBlobIndex, [1]⟩, ⟨1, 0, .kTypeValue, [2]⟩] = look 5 1 threeKeys := by
  have hreads := visited_reads bottommost_ordered threeKeys_context (fun _ hkv => nomatch hkv)
    visited_threeKeys 1 (Or.inl List.mem_cons_self) []
  rwa [List.append_nil, List.append_nil] at hreads

theorem visited_sorted_threeKeys :
    List.Pairwise Before [⟨1, 9, .kTypeBlobIndex, [1]⟩, (⟨1, 0, .kTypeValue, [2]⟩ : Kv ℕ)] :=
  visited_sorted bottommost_ordered threeKeys_context visited_threeKeys

end

end AegonKV.CompactionIterator
