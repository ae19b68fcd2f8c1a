import AegonKV.CompactionIterator
import Mathlib.Data.List.Chain
import Mathlib.Data.List.TakeWhile
import Mathlib.Order.Nat

/-!
# The rounds of the compaction iterator

What one round of `NextFromInput` can do, the rounds of a whole loop over the iterator, and what its
state says about the versions that come next. Single deletions are used as documented: a key that has
one is never written twice without one between.
-/

namespace AegonKV.CompactionIterator
open LittleEndian AegonKV

section

variable {κ : Type}

/-- What a round of the loop does, for an entry that is the first of its input. The state is the one
with the key and the snapshot of the entry. -/
inductive Outcome (env : Env κ) (st : State κ) (lastSnapshot : ℕ) (kv : Kv κ) (rest : List (Kv κ)) :
    Round κ → Prop
  | cleared (hclear : st.clearAndOutputNextKey = true) :
      Outcome env st lastSnapshot kv rest (.output { kv with
        type := if kv.type = .kTypeBlobIndex then .kTypeValue else kv.type, value := [] }
        { st with input := rest, clearAndOutputNextKey := false })
  /-- A single deletion goes with the version below it. -/
  | both {next : Kv κ} {rest' : List (Kv κ)} (htype : kv.type = .kTypeSingleDeletion)
      (hclear : st.clearAndOutputNextKey = false) (hrest : rest = next :: rest') (hkey : next.userKey = kv.userKey)
      (hwhy : st.lastKeySeqZeroed = true ∨
        (env.findEarliestVisibleSnapshot kv.sequence).2 = 0 ∨
          (env.findEarliestVisibleSnapshot kv.sequence).2 < next.sequence) :
      Outcome env st lastSnapshot kv rest (.skip { st with input := rest' })
  | doubled {next : Kv κ} {rest' : List (Kv κ)} (htype : kv.type = .kTypeSingleDeletion)
      (hclear : st.clearAndOutputNextKey = false) (hrest : rest = next :: rest') (hkey : next.userKey = kv.userKey)
      (hnext : next.type = .kTypeSingleDeletion ∨ next.type = .kTypeDeletion) :
      Outcome env st lastSnapshot kv rest (.skip { st with input := rest })
  /-- The version below is kept without its value. -/
  | clearing {next : Kv κ} {rest' : List (Kv κ)} (htype : kv.type = .kTypeSingleDeletion)
      (hclear : st.clearAndOutputNextKey = false) (hzeroed : st.lastKeySeqZeroed = false) (hrest : rest = next :: rest')
      (hkey : next.userKey = kv.userKey)
      (hsame : (env.findEarliestVisibleSnapshot kv.sequence).2 = 0 ∨
        (env.findEarliestVisibleSnapshot kv.sequence).2 < next.sequence)
      (hlate : env.earliestWriteConflictSnapshot < kv.sequence) :
      Outcome env st lastSnapshot kv rest
        (.output kv { st with input := rest, clearAndOutputNextKey := true })
  | lastDropped (htype : kv.type = .kTypeSingleDeletion) (hclear : st.clearAndOutputNextKey = false)
      (hrest : ∀ next ∈ rest.head?, next.userKey ≠ kv.userKey)
      (hwhy : kv.sequence ≤ env.earliestSnapshot ∧ env.keyNotExists kv.userKey = true ∨
        st.lastKeySeqZeroed = true) :
      Outcome env st lastSnapshot kv rest (.skip { st with input := rest, currentUserKey := none })
  | lastKept (htype : kv.type = .kTypeSingleDeletion) (hclear : st.clearAndOutputNextKey = false)
      (hzeroed : st.lastKeySeqZeroed = false)
      (hrest : ∀ next ∈ rest.head?, next.userKey ≠ kv.userKey)
      (hwhy : kv.sequence ≤ env.earliestSnapshot → env.keyNotExists kv.userKey = false) :
      Outcome env st lastSnapshot kv rest (.output kv { st with input := rest, currentUserKey := none })
  /-- Rule (A). -/
  | hidden (htype : kv.type ≠ .kTypeSingleDeletion) (hclear : st.clearAndOutputNextKey = false)
      (hsame : lastSnapshot = st.currentUserKeySnapshot ∨
        0 < lastSnapshot ∧ lastSnapshot < st.currentUserKeySnapshot) :
      Outcome env st lastSnapshot kv rest (.skip { st with input := rest })
  | obsolete (htype : kv.type = .kTypeDeletion) (hclear : st.clearAndOutputNextKey = false)
      (hsequence : kv.sequence ≤ env.earliestSnapshot) (hkey : env.keyNotExists kv.userKey = true) :
      Outcome env st lastSnapshot kv rest (.skip { st with input := rest })
  | bottommostKept {rest' : List (Kv κ)} (htype : kv.type = .kTypeDeletion)
      (hclear : st.clearAndOutputNextKey = false)
      (hrest : ∃ covered, rest = covered ++ rest' ∧ ∀ next ∈ covered, next.userKey = kv.userKey ∧
        ((env.findEarliestVisibleSnapshot kv.sequence).2 = 0 ∨
          (env.findEarliestVisibleSnapshot kv.sequence).2 < next.sequence)) :
      Outcome env st lastSnapshot kv rest (.output kv { st with input := rest' })
  | bottommostDropped {rest' : List (Kv κ)} (htype : kv.type = .kTypeDeletion)
      (hclear : st.clearAndOutputNextKey = false) (hbottom : env.bottommostLevel = true)
      (hrest : ∃ covered, rest = covered ++ rest' ∧ ∀ next ∈ covered, next.userKey = kv.userKey ∧
        ((env.findEarliestVisibleSnapshot kv.sequence).2 = 0 ∨
          (env.findEarliestVisibleSnapshot kv.sequence).2 < next.sequence))
      (hlast : ∀ next ∈ rest'.head?, next.userKey ≠ kv.userKey) :
      Outcome env st lastSnapshot kv rest (.skip { st with input := rest' })
  | kept (hclear : st.clearAndOutputNextKey = false)
      (hsingle : kv.type = .kTypeSingleDeletion → st.lastKeySeqZeroed = false ∧
        ∃ next rest', rest = next :: rest' ∧ next.userKey = kv.userKey ∧
          next.sequence ≤ (env.findEarliestVisibleSnapshot kv.sequence).2) :
      Outcome env st lastSnapshot kv rest (.output kv { st with input := rest })
  | failed (s : Status) : Outcome env st lastSnapshot kv rest (.failed s)

variable [DecidableEq κ]

def State.at (env : Env κ) (st : State κ) (kv : Kv κ) : State κ :=
  { st.newUserKey kv.userKey with
    currentUserKeySnapshot := (env.findEarliestVisibleSnapshot kv.sequence).1 }

omit [DecidableEq κ] in
theorem lastOfKey_outcome (env : Env κ) {st : State κ} {lastSnapshot : ℕ} {kv : Kv κ}
    {rest : List (Kv κ)} (htype : kv.type = .kTypeSingleDeletion)
    (hclear : st.clearAndOutputNextKey = false) (hrest : ∀ next ∈ rest.head?, next.userKey ≠ kv.userKey) :
    Outcome env st lastSnapshot kv rest
      (singleDeletion.lastOfKey env kv { st with input := rest, currentUserKey := none }) := by
  rw [singleDeletion.lastOfKey]
  split
  · rename_i hgone
    exact .lastDropped htype hclear hrest (Or.inl hgone)
  · rename_i hstays
    split
    · rename_i hzeroed
      exact .lastDropped htype hclear hrest (Or.inr hzeroed)
    · rename_i hzeroed
      refine .lastKept htype hclear (Bool.eq_false_iff.mpr hzeroed) hrest fun hle => ?_
      rw [Bool.eq_false_iff]
      exact fun hexists => hstays ⟨hle, hexists⟩

theorem singleDeletion_outcome (env : Env κ) {st : State κ} {lastSnapshot : ℕ} {kv : Kv κ}
    {rest : List (Kv κ)} (htype : kv.type = .kTypeSingleDeletion)
    (hclear : st.clearAndOutputNextKey = false) :
    Outcome env st lastSnapshot kv rest (singleDeletion env { st with input := rest } kv
      (env.findEarliestVisibleSnapshot kv.sequence).2) := by
  rw [singleDeletion]
  cases rest with
  | nil => exact lastOfKey_outcome env htype hclear fun next hnext => nomatch hnext
  | cons next rest' =>
      dsimp only
      by_cases hkey : next.userKey = kv.userKey
      · rw [if_pos hkey]
        by_cases hzeroed : st.lastKeySeqZeroed = true
        · rw [if_pos hzeroed]
          exact .both htype hclear rfl hkey (Or.inl hzeroed)
        rw [if_neg hzeroed]
        by_cases hsame : (env.findEarliestVisibleSnapshot kv.sequence).2 = 0 ∨
            (env.findEarliestVisibleSnapshot kv.sequence).2 < next.sequence
        · rw [if_pos hsame]
          by_cases hnext : next.type = .kTypeSingleDeletion ∨ next.type = .kTypeDeletion
          · rw [if_pos hnext]
            exact .doubled htype hclear rfl hkey hnext
          rw [if_neg hnext]
          split
          · exact .both htype hclear rfl hkey (Or.inr hsame)
          · rename_i hkeep
            rw [not_or, not_or] at hkeep
            exact .clearing htype hclear (Bool.eq_false_iff.mpr hzeroed) rfl hkey hsame (Nat.not_le.mp hkeep.2.1)
        · rw [if_neg hsame]
          rw [not_or] at hsame
          exact .kept hclear fun _ =>
            ⟨Bool.eq_false_iff.mpr hzeroed, next, rest', rfl, hkey, Nat.not_lt.mp hsame.2⟩
      · rw [if_neg hkey]
        refine lastOfKey_outcome env htype hclear fun v hv => ?_
        obtain rfl := Option.some.inj hv
        exact hkey

theorem round_outcome (env : Env κ) (st : State κ) (kv : Kv κ) (rest : List (Kv κ)) :
    Outcome env (st.at env kv) (st.newUserKey kv.userKey).currentUserKeySnapshot kv rest
      (round env st kv rest) := by
  rw [round]
  dsimp only
  by_cases hclear : (st.newUserKey kv.userKey).clearAndOutputNextKey = true
  · rw [if_pos hclear]
    exact .cleared hclear
  rw [if_neg hclear]
  have hfalse : (st.at env kv).clearAndOutputNextKey = false := Bool.eq_false_iff.mpr hclear
  by_cases hsingle : kv.type = .kTypeSingleDeletion
  · rw [if_pos hsingle]
    exact singleDeletion_outcome env hsingle hfalse
  rw [if_neg hsingle]
  split
  · rename_i hhidden
    exact .hidden hsingle hfalse hhidden
  split
  · rename_i hobsolete
    exact .obsolete hobsolete.1 hfalse hobsolete.2.1 hobsolete.2.2.2
  split
  · rename_i hbottom
    have hcovered : ∃ covered,
        rest = covered ++
          rest.dropWhile (coveredByDeletion kv (env.findEarliestVisibleSnapshot kv.sequence).2) ∧
        ∀ next ∈ covered, next.userKey = kv.userKey ∧
          ((env.findEarliestVisibleSnapshot kv.sequence).2 = 0 ∨
            (env.findEarliestVisibleSnapshot kv.sequence).2 < next.sequence) := by
      refine ⟨rest.takeWhile _, (List.takeWhile_append_dropWhile).symm, fun next hnext => ?_⟩
      have hcov := List.mem_takeWhile_imp hnext
      rw [coveredByDeletion, Bool.and_eq_true, Bool.or_eq_true, decide_eq_true_eq, beq_iff_eq,
        decide_eq_true_eq] at hcov
      exact hcov
    split
    · exact .bottommostKept hbottom.1 hfalse hcovered
    · rename_i hlast
      refine .bottommostDropped hbottom.1 hfalse hbottom.2.1 hcovered fun next hnext hkey => hlast ?_
      rw [Option.any_eq_true]
      exact ⟨next, hnext, decide_eq_true hkey⟩
  split
  · exact .failed _
  · exact .kept hfalse fun hc => absurd hc hsingle

/-! ## What the loop visits, round by round -/

/-- The rounds of a loop over the iterator from a state on, with the entries it visits. -/
inductive Visits (env : Env κ) : Bool → State κ → List (Kv κ) → Prop
  | done {first : Bool} {st : State κ} (hinput : st.input = []) : Visits env first st []
  | skip {first : Bool} {st st' : State κ} {kv : Kv κ} {rest visited : List (Kv κ)}
      (hinput : st.input = kv :: rest) (hround : round env st kv rest = .skip st')
      (later : Visits env first st' visited) : Visits env first st visited
  | output {first : Bool} {st st' : State κ} {kv out : Kv κ} {rest visited : List (Kv κ)}
      (hinput : st.input = kv :: rest) (hround : round env st kv rest = .output out st')
      (later : Visits env false
        (prepareOutput env out { st' with hasOutputtedKey := !first || st'.hasOutputtedKey }).2 visited) :
      Visits env first st ((prepareOutput env out
        { st' with hasOutputtedKey := !first || st'.hasOutputtedKey }).1 :: visited)

/-- After a round the input is behind versions of the same key, and an output is one of them. -/
def Round.Advances (kv : Kv κ) (rest : List (Kv κ)) : Round κ → Prop
  | .skip st => (∃ covered, rest = covered ++ st.input ∧ ∀ u ∈ covered, u.userKey = kv.userKey) ∧
      ∀ k, st.currentUserKey = some k → k = kv.userKey
  | .output out st =>
      (∃ covered, rest = covered ++ st.input ∧ ∀ u ∈ covered, u.userKey = kv.userKey) ∧
      (∀ k, st.currentUserKey = some k → k = kv.userKey) ∧
      out.userKey = kv.userKey ∧ out.sequence = kv.sequence
  | .failed _ => True

theorem currentUserKey_at (env : Env κ) (st : State κ) (kv : Kv κ) :
    (st.at env kv).currentUserKey = some kv.userKey := by
  rw [State.at, State.newUserKey]
  split
  · assumption
  · rfl

theorem round_advances (env : Env κ) (st : State κ) (kv : Kv κ) (rest : List (Kv κ)) :
    (round env st kv rest).Advances kv rest := by
  have houtcome := round_outcome env st kv rest
  have hkey : ∀ k, (st.at env kv).currentUserKey = some k → k = kv.userKey := by
    intro k hk
    rw [currentUserKey_at] at hk
    exact (Option.some.inj hk).symm
  have hnone : ∃ covered, rest = covered ++ rest ∧ ∀ u ∈ covered, u.userKey = kv.userKey :=
    ⟨[], rfl, fun u hu => nomatch hu⟩
  generalize round env st kv rest = result at houtcome ⊢
  cases houtcome with
  | @both next rest' htype hclear hrest hnext hwhy =>
      refine ⟨⟨[next], hrest, fun u hu => ?_⟩, hkey⟩
      obtain rfl := List.mem_singleton.mp hu
      exact hnext
  | bottommostKept htype hclear hrest =>
      obtain ⟨covered, hsplit, hcovered⟩ := hrest
      exact ⟨⟨covered, hsplit, fun u hu => (hcovered u hu).1⟩, hkey, rfl, rfl⟩
  | bottommostDropped htype hclear hbottom hrest hlast =>
      obtain ⟨covered, hsplit, hcovered⟩ := hrest
      exact ⟨⟨covered, hsplit, fun u hu => (hcovered u hu).1⟩, hkey⟩
  | failed s => trivial
  | cleared => exact ⟨hnone, hkey, rfl, rfl⟩
  | doubled => exact ⟨hnone, hkey⟩
  | clearing => exact ⟨hnone, hkey, rfl, rfl⟩
  | lastDropped => exact ⟨hnone, fun k hk => nomatch hk⟩
  | lastKept => exact ⟨hnone, (fun k hk => nomatch hk), rfl, rfl⟩
  | hidden => exact ⟨hnone, hkey⟩
  | obsolete => exact ⟨hnone, hkey⟩
  | kept => exact ⟨hnone, hkey, rfl, rfl⟩

/-- The input of the state after a round is a part of the rest. -/
def Round.Shortens (rest : List (Kv κ)) : Round κ → Prop
  | .skip st => st.input <:+ rest
  | .output _ st => st.input <:+ rest
  | .failed _ => True

theorem round_shortens (env : Env κ) (st : State κ) (kv : Kv κ) (rest : List (Kv κ)) :
    (round env st kv rest).Shortens rest := by
  have hadvances := round_advances env st kv rest
  generalize round env st kv rest = result at hadvances ⊢
  cases result with
  | failed s => trivial
  | skip st' =>
      obtain ⟨⟨covered, rfl, -⟩, -⟩ := hadvances
      exact List.suffix_append _ _
  | output out st' =>
      obtain ⟨⟨covered, rfl, -⟩, -⟩ := hadvances
      exact List.suffix_append _ _

omit [DecidableEq κ] in
theorem prepareOutput_input (env : Env κ) (kv : Kv κ) (st : State κ) :
    (prepareOutput env kv st).2.input = st.input := by
  rw [prepareOutput]
  split <;> rfl

/-- The rounds of one `NextFromInput`, before those of the rest of the loop. -/
theorem visits_of_nextFromInput {env : Env κ} {fuel : ℕ} {first : Bool} {st st' : State κ}
    {found : Option (Kv κ)} {visited : List (Kv κ)} (hfuel : st.input.length ≤ fuel)
    (h : nextFromInput env fuel st = .ok (found, st'))
    (hnone : found = none → visited = [])
    (hsome : ∀ out, found = some out → ∃ later, visited = (prepareOutput env out
        { st' with hasOutputtedKey := !first || st'.hasOutputtedKey }).1 :: later ∧
      (st'.input.length < st.input.length → Visits env false (prepareOutput env out
        { st' with hasOutputtedKey := !first || st'.hasOutputtedKey }).2 later)) :
    Visits env first st visited := by
  induction fuel generalizing st with
  | zero =>
      have hnil := List.eq_nil_of_length_eq_zero (Nat.le_zero.mp hfuel)
      obtain ⟨rfl, rfl⟩ := Prod.mk.inj (Except.ok.inj h)
      rw [hnone rfl]
      exact .done hnil
  | succ fuel ih =>
      rw [nextFromInput] at h
      cases hinput : st.input with
      | nil =>
          rw [hinput] at h
          obtain ⟨rfl, rfl⟩ := Prod.mk.inj (Except.ok.inj h)
          rw [hnone rfl]
          exact .done hinput
      | cons kv rest =>
          rw [hinput] at h hfuel
          have hshort := round_shortens env st kv rest
          dsimp only at h
          cases hround : round env st kv rest with
          | failed s =>
              rw [hround] at h
              cases h
          | skip next =>
              rw [hround] at h hshort
              have hle := List.IsSuffix.length_le hshort
              refine .skip hinput hround (ih ?_ h fun out hout => ?_)
              · rw [List.length_cons] at hfuel
                omega
              · obtain ⟨later, hvisited, hlater⟩ := hsome out hout
                refine ⟨later, hvisited, fun hless => hlater ?_⟩
                rw [hinput, List.length_cons]
                omega
          | output out next =>
              rw [hround] at h hshort
              obtain ⟨rfl, rfl⟩ := Prod.mk.inj (Except.ok.inj h)
              obtain ⟨later, rfl, hlater⟩ := hsome out rfl
              refine .output hinput hround (hlater ?_)
              rw [hinput, List.length_cons]
              exact Nat.lt_succ_of_le (List.IsSuffix.length_le hshort)

theorem visits_of_visitFrom {env : Env κ} {calls : ℕ} {first : Bool} {st : State κ}
    {visited : List (Kv κ)} (hcalls : st.input.length ≤ calls)
    (h : visitFrom env calls first st = .ok visited) : Visits env first st visited := by
  induction calls generalizing first st visited with
  | zero =>
      obtain rfl := Except.ok.inj h
      exact .done (List.eq_nil_of_length_eq_zero (Nat.le_zero.mp hcalls))
  | succ calls ih =>
      rw [visitFrom] at h
      rcases hnext : nextFromInput env st.input.length st with s | ⟨found, st'⟩
      · rw [hnext] at h
        cases h
      rw [hnext] at h
      refine visits_of_nextFromInput le_rfl hnext (fun hnone => ?_) fun out hout => ?_
      · subst hnone
        exact (Except.ok.inj h).symm
      · subst hout
        dsimp only at h
        cases hlater : visitFrom env calls false (prepareOutput env out
            { st' with hasOutputtedKey := !first || st'.hasOutputtedKey }).2 with
        | error s =>
            rw [hlater] at h
            cases h
        | ok later =>
            rw [hlater] at h
            refine ⟨later, (Except.ok.inj h).symm, fun hless => ih ?_ hlater⟩
            rw [prepareOutput_input]
            change st'.input.length ≤ calls
            omega

end

/-! ## Live snapshots -/

section

variable {κ : Type}

/-- The snapshots come in order, and transactions check for conflicts no further back. -/
structure Env.Ordered (env : Env κ) : Prop where
  sorted : env.snapshots.Pairwise (· < ·)
  bounded : ∀ s ∈ env.snapshots, s ≤ kMaxSequenceNumber
  conflicts : env.earliestSnapshot ≤ env.earliestWriteConflictSnapshot

/-- A sequence number that is read at: a snapshot, or one that is not below any version. -/
def Env.Live (env : Env κ) (s : ℕ) : Prop := s ∈ env.snapshots ∨ kMaxSequenceNumber ≤ s

/-- The earliest live snapshot that sees a sequence number. -/
abbrev Env.stripe (env : Env κ) (sequence : ℕ) : ℕ := (env.findEarliestVisibleSnapshot sequence).1

variable {env : Env κ} {sequence s : ℕ}

theorem Env.Ordered.earliest_le (h : env.Ordered) (hs : env.Live s) : env.earliestSnapshot ≤ s := by
  rw [Env.earliestSnapshot]
  rcases hsnapshots : env.snapshots with - | ⟨first, later⟩
  · rcases hs with hs | hs
    · rw [hsnapshots] at hs
      cases hs
    · exact hs
  · have hsorted := h.sorted
    have hfirst := h.bounded first (by rw [hsnapshots]; exact List.mem_cons_self)
    rw [hsnapshots, List.pairwise_cons] at hsorted
    rcases hs with hs | hs
    · rw [hsnapshots] at hs
      rcases List.mem_cons.mp hs with rfl | hs
      · exact Nat.le_refl _
      · exact (hsorted.1 s hs).le
    · exact hfirst.trans hs

theorem Env.stripe_cases (env : Env κ) (sequence : ℕ) :
    env.stripe sequence ∈ env.snapshots ∧ sequence ≤ env.stripe sequence ∨
      (∀ t ∈ env.snapshots, t < sequence) ∧ env.stripe sequence = kMaxSequenceNumber := by
  rw [Env.stripe, Env.findEarliestVisibleSnapshot]
  cases hfind : env.snapshots.find? fun t => sequence ≤ t with
  | none =>
      refine Or.inr ⟨fun t ht => ?_, rfl⟩
      have hnot := List.find?_eq_none.mp hfind t ht
      rw [decide_eq_true_eq] at hnot
      exact Nat.not_le.mp hnot
  | some t =>
      have hle := List.find?_some hfind
      rw [decide_eq_true_eq] at hle
      exact Or.inl ⟨List.mem_of_find?_eq_some hfind, hle⟩

theorem Env.live_stripe (env : Env κ) (sequence : ℕ) : env.Live (env.stripe sequence) := by
  rcases env.stripe_cases sequence with ⟨hmem, -⟩ | ⟨-, hmax⟩
  · exact Or.inl hmem
  · exact Or.inr hmax.ge

/-- A live snapshot sees a sequence number iff it is not before its stripe. -/
theorem Env.Ordered.stripe_le (h : env.Ordered) (hs : env.Live s)
    (hsequence : sequence ≤ kMaxSequenceNumber) : env.stripe sequence ≤ s ↔ sequence ≤ s := by
  constructor
  · intro hle
    rcases env.stripe_cases sequence with ⟨-, hsees⟩ | ⟨-, hmax⟩
    · exact hsees.trans hle
    · rw [hmax] at hle
      exact hsequence.trans hle
  · intro hle
    rcases hs with hs | hs
    · rw [Env.stripe, Env.findEarliestVisibleSnapshot]
      cases hfind : env.snapshots.find? fun t => sequence ≤ t with
      | none =>
          have hnot := List.find?_eq_none.mp hfind s hs
          rw [decide_eq_true_eq] at hnot
          exact absurd hle hnot
      | some t =>
          -- the snapshots before the first that sees it do not
          obtain ⟨-, before, after, hsplit, hbefore⟩ := List.find?_eq_some_iff_append.mp hfind
          have hsorted := h.sorted
          rw [hsplit] at hsorted hs
          rcases List.mem_append.mp hs with hs | hs
          · have hnot := hbefore s hs
            rw [Bool.not_eq_true', decide_eq_false_iff_not] at hnot
            exact absurd hle hnot
          · rcases List.mem_cons.mp hs with rfl | hs
            · exact Nat.le_refl _
            · exact ((List.pairwise_cons.mp (List.pairwise_append.mp hsorted).2.1).1 s hs).le
    · rcases env.stripe_cases sequence with ⟨hmem, -⟩ | ⟨-, hmax⟩
      · exact (h.bounded _ hmem).trans hs
      · rw [hmax]
        exact hs

/-- Below the previous snapshot nothing changes. -/
theorem Env.Ordered.same (h : env.Ordered) (hs : env.Live s) {next : ℕ}
    (hsequence : sequence ≤ kMaxSequenceNumber) (hle : next ≤ sequence)
    (hpositive : 0 ∈ env.snapshots → 0 < next)
    (hprev : (env.findEarliestVisibleSnapshot sequence).2 = 0 ∨
      (env.findEarliestVisibleSnapshot sequence).2 < next) : next ≤ s ↔ sequence ≤ s := by
  refine ⟨fun hnext => ?_, hle.trans⟩
  by_contra hno
  have hlt : s < sequence := Nat.not_le.mp hno
  rcases hs with hs | hs
  · have hmem : s ∈ env.snapshots.takeWhile fun t => decide (t < sequence) := by
      obtain ⟨before, after, hsplit⟩ := List.append_of_mem hs
      have hsorted := h.sorted
      rw [hsplit] at hsorted ⊢
      have hbefore : ∀ t ∈ before, decide (t < sequence) = true := fun t ht =>
        decide_eq_true (((List.pairwise_append.mp hsorted).2.2 t ht s List.mem_cons_self).trans hlt)
      rw [List.takeWhile_append_of_pos hbefore, List.takeWhile_cons, if_pos (decide_eq_true hlt)]
      exact List.mem_append_right _ List.mem_cons_self
    have hlast : s ≤ (env.snapshots.takeWhile fun t => decide (t < sequence)).getLastD 0 := by
      have hsorted := h.sorted.sublist (List.takeWhile_sublist fun t => decide (t < sequence))
      generalize env.snapshots.takeWhile (fun t => decide (t < sequence)) = seen at hmem hsorted
      induction seen using List.reverseRecOn with
      | nil => cases hmem
      | append_singleton seen last ih =>
          rw [List.getLastD_concat]
          rcases List.mem_append.mp hmem with hmem | hmem
          · exact ((List.pairwise_append.mp hsorted).2.2 s hmem last (List.mem_singleton_self last)).le
          · exact (List.mem_singleton.mp hmem).le
    rw [Env.findEarliestVisibleSnapshot] at hprev
    dsimp only at hprev
    rcases hprev with hzero | hprev
    · obtain rfl : s = 0 := by omega
      have := hpositive hs
      omega
    · omega
  · omega

end

/-! ## The versions at hand -/

section

variable {κ : Type} [DecidableEq κ] {kv : Kv κ} {l : List (Kv κ)}

def versions (k : κ) (kvs : List (Kv κ)) : List (Kv κ) := kvs.filter fun kv => kv.userKey = k

def IsPut (kv : Kv κ) : Prop := kv.type = .kTypeValue ∨ kv.type = .kTypeBlobIndex

instance (kv : Kv κ) : Decidable (IsPut kv) :=
  inferInstanceAs (Decidable (kv.type = .kTypeValue ∨ kv.type = .kTypeBlobIndex))

/-- Single deletions and writes take turns. -/
structure Alternates (kvs : List (Kv κ)) : Prop where
  types : ∀ kv ∈ kvs, kv.type = .kTypeSingleDeletion ∨ IsPut kv
  turns : kvs.IsChain fun a b => (a.type = .kTypeSingleDeletion ↔ IsPut b)

omit [DecidableEq κ] in
theorem Alternates.tail (h : Alternates (kv :: l)) : Alternates l :=
  ⟨fun v hv => h.types v (List.mem_cons_of_mem _ hv), (List.isChain_cons.mp h.turns).2⟩

omit [DecidableEq κ] in
theorem not_isPut_of_singleDeletion (h : kv.type = .kTypeSingleDeletion) : ¬IsPut kv := by
  rintro (hc | hc) <;> · rw [h] at hc; cases hc

end

section

variable {κ : Type} [LinearOrder κ] {env : Env κ} {low input rest : List (Kv κ)} {kv : Kv κ}

/-- What a flush or a compaction goes over: `input` by key and newest first, above the older data `low`
that it leaves alone. -/
structure Context (env : Env κ) (low input : List (Kv κ)) : Prop where
  sorted : input.Pairwise fun a b =>
    a.userKey < b.userKey ∨ a.userKey = b.userKey ∧ b.sequence < a.sequence
  bounded : ∀ kv ∈ input, kv.sequence ≤ kMaxSequenceNumber
  positive : 0 ∈ env.snapshots → ∀ kv ∈ input, 0 < kv.sequence
  older : ∀ kv ∈ input, ∀ u ∈ low, u.userKey = kv.userKey → u.sequence < kv.sequence
  gone : ∀ kv ∈ input, env.keyNotExists kv.userKey = true → ∀ u ∈ low, u.userKey ≠ kv.userKey
  bottommost : env.bottommostLevel = true → ∀ kv ∈ input, env.keyNotExists kv.userKey = true
  singles : ∀ k, (∃ kv ∈ input, kv.userKey = k ∧ kv.type = .kTypeSingleDeletion) →
    Alternates (versions k input ++ versions k low)

/-- What is left of the input. -/
theorem Context.suffix (h : Context env low input) (hsuffix : rest <:+ input) : Context env low rest := by
  have hsub : ∀ kv ∈ rest, kv ∈ input := fun kv hkv => hsuffix.subset hkv
  refine ⟨h.sorted.sublist hsuffix.sublist, fun kv hkv => h.bounded kv (hsub kv hkv),
    fun hzero kv hkv => h.positive hzero kv (hsub kv hkv), fun kv hkv => h.older kv (hsub kv hkv),
    fun kv hkv => h.gone kv (hsub kv hkv), fun hb kv hkv => h.bottommost hb kv (hsub kv hkv), ?_⟩
  rintro k ⟨kv, hkv, hkey, htype⟩
  have halt := h.singles k ⟨kv, hsub kv hkv, hkey, htype⟩
  obtain ⟨before, rfl⟩ := hsuffix
  rw [versions, List.filter_append, List.append_assoc] at halt
  have hdrop : ∀ xs : List (Kv κ), Alternates (xs ++ (versions k rest ++ versions k low)) →
      Alternates (versions k rest ++ versions k low) := by
    intro xs hxs
    induction xs with
    | nil => exact hxs
    | cons x xs ih => exact ih hxs.tail
  exact hdrop _ halt

/-- Below an entry there are only older versions of its key, or other keys. -/
theorem Context.below (h : Context env low (kv :: rest)) {u : Kv κ} (hu : u ∈ rest)
    (hkey : u.userKey = kv.userKey) : u.sequence < kv.sequence := by
  rcases (List.pairwise_cons.mp h.sorted).1 u hu with hlt | ⟨-, hlt⟩
  · exact absurd hkey.symm hlt.ne
  · exact hlt

/-- A key that does not come next does not come at all. -/
theorem Context.passed (h : Context env low (kv :: rest)) {rest' : List (Kv κ)} (hsuffix : rest' <:+ rest)
    (hhead : ∀ next ∈ rest'.head?, next.userKey ≠ kv.userKey) : ∀ u ∈ rest', u.userKey ≠ kv.userKey := by
  intro u hu hkey
  obtain ⟨hkv, hrest⟩ := List.pairwise_cons.mp h.sorted
  have hrest' := hrest.sublist hsuffix.sublist
  cases rest' with
  | nil => cases hu
  | cons next rest' =>
      have hne := hhead next rfl
      have hnext : kv.userKey < next.userKey := by
        rcases hkv next (hsuffix.subset List.mem_cons_self) with hlt | ⟨heq, -⟩
        · exact hlt
        · exact absurd heq.symm hne
      rcases List.mem_cons.mp hu with rfl | hu
      · exact hne hkey
      · rcases (List.pairwise_cons.mp hrest').1 u hu with hlt | ⟨heq, -⟩
        · exact absurd hkey.symm (hnext.trans hlt).ne
        · exact absurd (heq.trans hkey) hne

/-- Below a single deletion there is a write or nothing, and no single deletion follows that. -/
theorem Context.single (h : Context env low (kv :: rest)) (htype : kv.type = .kTypeSingleDeletion) :
    ∃ vs, versions kv.userKey rest ++ versions kv.userKey low = vs ∧ Alternates vs ∧
      ∀ v ∈ vs.head?, IsPut v := by
  have halt := h.singles kv.userKey ⟨kv, List.mem_cons_self, rfl, htype⟩
  rw [versions, List.filter_cons_of_pos (by simp), List.cons_append] at halt
  refine ⟨_, rfl, halt.tail, fun v hv => ?_⟩
  exact ((List.isChain_cons.mp halt.turns).1 v hv).mp htype

/-! ## The invariant of the loop -/

/-- What the state says about the versions of its key that come next. -/
structure Inv (env : Env κ) (st : State κ) : Prop where
  ahead : ∀ k, st.currentUserKey = some k → ∀ kv ∈ st.input, k ≤ kv.userKey
  covers : ∀ kv ∈ st.input, st.currentUserKey = some kv.userKey →
    env.stripe kv.sequence ≤ st.currentUserKeySnapshot
  clears : st.clearAndOutputNextKey = true → ∃ kv rest, st.input = kv :: rest ∧
    st.currentUserKey = some kv.userKey ∧ env.stripe kv.sequence = st.currentUserKeySnapshot ∧ IsPut kv
  zeroed : st.lastKeySeqZeroed = true → st.currentUserKey ≠ none →
    env.bottommostLevel = true ∧ ∀ s, env.Live s → st.currentUserKeySnapshot ≤ s

variable {st st' : State κ} {s : ℕ}

theorem clearAndOutputNextKey_at (env : Env κ) (st : State κ) (kv : Kv κ) :
    (st.at env kv).clearAndOutputNextKey = st.clearAndOutputNextKey := by
  rw [State.at, State.newUserKey]
  split <;> rfl

/-- An entry whose key the state has. -/
theorem Inv.at_zeroed (h : Inv env st) (hinput : st.input = kv :: rest)
    (hzeroed : (st.at env kv).lastKeySeqZeroed = true) :
    env.bottommostLevel = true ∧ ∀ s, env.Live s → env.stripe kv.sequence ≤ s := by
  rw [State.at, State.newUserKey] at hzeroed
  split at hzeroed
  · rename_i hkey
    obtain ⟨hbottom, hall⟩ := h.zeroed hzeroed (by rw [hkey]; exact Option.some_ne_none _)
    have hcovers := h.covers kv (by rw [hinput]; exact List.mem_cons_self) hkey
    exact ⟨hbottom, fun s hs => hcovers.trans (hall s hs)⟩
  · cases hzeroed

omit [LinearOrder κ] in
theorem Env.Ordered.stripe_mono (h : env.Ordered) {a b : ℕ} (hb : b ≤ kMaxSequenceNumber) (hab : a ≤ b) :
    env.stripe a ≤ env.stripe b := by
  have hle := (h.stripe_le (env.live_stripe b) hb).mp le_rfl
  exact (h.stripe_le (env.live_stripe b) (hab.trans hb)).mpr (hab.trans hle)

theorem Context.suffix_cons (h : Context env low (kv :: rest)) {rest' : List (Kv κ)}
    (hsuffix : rest' <:+ rest) : Context env low rest' :=
  h.suffix (hsuffix.trans (List.suffix_cons kv rest))

/-- The state after a round that does not look for another write to clear. -/
theorem Inv.next (hordered : env.Ordered) (hctx : Context env low (kv :: rest))
    (hkey : st'.currentUserKey = some kv.userKey)
    (hsnapshot : st'.currentUserKeySnapshot = env.stripe kv.sequence) (hsuffix : st'.input <:+ rest)
    (hclear : st'.clearAndOutputNextKey = false)
    (hzeroed : st'.lastKeySeqZeroed = true →
      env.bottommostLevel = true ∧ ∀ s, env.Live s → env.stripe kv.sequence ≤ s) : Inv env st' := by
  refine ⟨fun k hk u hu => ?_, fun u hu hukey => ?_, fun hc => ?_, fun hz _ => ?_⟩
  · rw [hkey] at hk
    obtain rfl := Option.some.inj hk
    rcases (List.pairwise_cons.mp hctx.sorted).1 u (hsuffix.subset hu) with hlt | ⟨heq, -⟩
    · exact hlt.le
    · exact heq.le
  · rw [hkey] at hukey
    have hlt := hctx.below (hsuffix.subset hu) (Option.some.inj hukey).symm
    rw [hsnapshot]
    exact hordered.stripe_mono (hctx.bounded kv List.mem_cons_self) hlt.le
  · rw [hclear] at hc
    cases hc
  · rw [hsnapshot]
    exact hzeroed hz

/-- The state without a key. -/
theorem Inv.noKey (hkey : st'.currentUserKey = none) (hclear : st'.clearAndOutputNextKey = false) :
    Inv env st' := by
  refine ⟨fun k hk => ?_, fun u _ hukey => ?_, fun hc => ?_, fun _ hne => absurd hkey hne⟩
  · rw [hkey] at hk
    cases hk
  · rw [hkey] at hukey
    cases hukey
  · rw [hclear] at hc
    cases hc

/-- `PrepareOutput` and `has_outputted_key_` change only what is said of a zeroed sequence number. -/
theorem Inv.prepareOutput (h : Inv env st') {out : Kv κ}
    (hzero : env.bottommostLevel = true → out.sequence ≤ env.earliestSnapshot →
      st'.currentUserKey ≠ none → ∀ s, env.Live s → st'.currentUserKeySnapshot ≤ s) :
    Inv env (prepareOutput env out st').2 := by
  rw [CompactionIterator.prepareOutput]
  split
  · rename_i hprepare
    simp only [Bool.and_eq_true, decide_eq_true_eq] at hprepare
    obtain ⟨⟨⟨⟨-, -⟩, hbottom⟩, hle⟩, -⟩ := hprepare
    exact ⟨h.ahead, h.covers, h.clears, fun _ hkey => ⟨hbottom, hzero hbottom hle hkey⟩⟩
  · exact h

theorem Inv.outputted (h : Inv env st') (outputted : Bool) :
    Inv env { st' with hasOutputtedKey := outputted } := ⟨h.ahead, h.covers, h.clears, h.zeroed⟩

def Round.Keeps (env : Env κ) (kv : Kv κ) : Round κ → Prop
  | .skip st => Inv env st
  | .output out st => Inv env st ∧ out.sequence = kv.sequence ∧
      (st.currentUserKey ≠ none → st.currentUserKeySnapshot = env.stripe kv.sequence)
  | .failed _ => True

theorem Inv.round (hordered : env.Ordered) (hctx : Context env low st.input) (h : Inv env st)
    (hinput : st.input = kv :: rest) : (round env st kv rest).Keeps env kv := by
  have houtcome := round_outcome env st kv rest
  have hshort := round_shortens env st kv rest
  rw [hinput] at hctx
  have hkey := currentUserKey_at env st kv
  have hzeroed := h.at_zeroed hinput
  generalize CompactionIterator.round env st kv rest = result at houtcome hshort ⊢
  cases houtcome with
  | cleared hclear =>
      exact ⟨Inv.next hordered hctx hkey rfl hshort rfl hzeroed, rfl, fun _ => rfl⟩
  | both htype hclear hrest hnext hwhy => exact Inv.next hordered hctx hkey rfl hshort hclear hzeroed
  | doubled htype hclear hrest hnext hsingle => exact Inv.next hordered hctx hkey rfl hshort hclear hzeroed
  | @clearing next rest' htype hclear hnot hrest hnext hsame hlate =>
      have hplain : Inv env { st.at env kv with input := rest } :=
        Inv.next hordered hctx hkey rfl hshort hclear hzeroed
      refine ⟨⟨hplain.ahead, hplain.covers, fun _ => ⟨next, rest', hrest, ?_, ?_, ?_⟩, hplain.zeroed⟩, rfl,
        fun _ => rfl⟩
      · rw [hnext]
        exact hkey
      · have hmem : next ∈ rest := by
          rw [hrest]
          exact List.mem_cons_self
        have hbelow := (hctx.below hmem hnext).le
        have hkv := hctx.bounded kv List.mem_cons_self
        refine le_antisymm (hordered.stripe_mono hkv hbelow) ?_
        have hlive := env.live_stripe next.sequence
        have hsees := (hordered.stripe_le hlive (hbelow.trans hkv)).mp le_rfl
        rw [hordered.same hlive hkv hbelow (fun hzero => hctx.positive hzero next
          (List.mem_cons_of_mem _ hmem)) hsame] at hsees
        exact (hordered.stripe_le hlive hkv).mpr hsees
      · obtain ⟨vs, hvs, -, hhead⟩ := hctx.single htype
        refine hhead next ?_
        rw [← hvs, hrest, versions, List.filter_cons_of_pos (by simpa using hnext)]
        rfl
  | lastDropped htype hclear hrest hwhy => exact Inv.noKey rfl hclear
  | lastKept htype hclear hnot hrest hwhy => exact ⟨Inv.noKey rfl hclear, rfl, fun hne => absurd rfl hne⟩
  | hidden htype hclear hsame => exact Inv.next hordered hctx hkey rfl hshort hclear hzeroed
  | obsolete htype hclear hsequence hgone => exact Inv.next hordered hctx hkey rfl hshort hclear hzeroed
  | bottommostKept htype hclear hrest =>
      exact ⟨Inv.next hordered hctx hkey rfl hshort hclear hzeroed, rfl, fun _ => rfl⟩
  | bottommostDropped htype hclear hbottom hrest hlast =>
      exact Inv.next hordered hctx hkey rfl hshort hclear hzeroed
  | kept hclear hsingle =>
      exact ⟨Inv.next hordered hctx hkey rfl hshort hclear hzeroed, rfl, fun _ => rfl⟩
  | failed s => trivial

/-- The state after an entry was output. -/
theorem Inv.afterOutput (hordered : env.Ordered) (hctx : Context env low st.input) (h : Inv env st)
    (hinput : st.input = kv :: rest) {out : Kv κ} (hround : CompactionIterator.round env st kv rest =
      .output out st') (outputted : Bool) :
    Inv env (CompactionIterator.prepareOutput env out { st' with hasOutputtedKey := outputted }).2 := by
  have hkeeps := h.round hordered hctx hinput
  rw [hround] at hkeeps
  obtain ⟨hinv, hsequence, hsnapshot⟩ := hkeeps
  refine (hinv.outputted outputted).prepareOutput fun _ hle hkey s hs => ?_
  rw [hinput] at hctx
  dsimp only at hkey ⊢
  rw [hsnapshot hkey, hordered.stripe_le hs (hctx.bounded kv List.mem_cons_self), ← hsequence]
  exact hle.trans (hordered.earliest_le hs)

end

end AegonKV.CompactionIterator
