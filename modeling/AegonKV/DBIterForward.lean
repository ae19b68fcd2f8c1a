import AegonKV.CompactionReads
import AegonKV.DBIter
import AegonKV.OrderedScan

/-!
# Going forward

The loop of `FindNextUserEntryInternal` ends on the first key it is asked for that a read at the sequence
number finds, whether it steps or seeks on the way.
-/

namespace AegonKV.DBIter
open LittleEndian ListCursors OrderedScan
open CompactionIterator (look seen Before look_visible look_append look_none)

variable {κ : Type} [LinearOrder κ]

/-- The versions as the inner iterator has them. -/
structure Ordered (entries : List (Kv κ)) : Prop where
  sorted : entries.Pairwise Before
  bounded : ∀ kv ∈ entries, kv.sequence < kMaxSequenceNumber
  noMerge : ∀ kv ∈ entries, kv.type ≠ .kTypeMerge

def visible (o : Options κ) (entries : List (Kv κ)) : Set κ :=
  {k | o.belowLowerBound k = false ∧ o.beyondUpperBound k = false ∧
    (look o.sequence k entries).isSome = true}

/-! ## The bounds -/

section

variable {o : Options κ}

theorem lt_of_belowLowerBound {a b : κ} (ha : o.belowLowerBound a = true)
    (hb : o.belowLowerBound b = false) : a < b := by
  rw [Options.belowLowerBound] at ha hb
  cases hlower : o.iterateLowerBound with
  | none =>
      rw [hlower] at ha
      cases ha
  | some bound =>
      rw [hlower] at ha hb
      exact (of_decide_eq_true ha).trans_le (not_lt.mp (of_decide_eq_false hb))

theorem belowLowerBound_mono {a b : κ} (hle : a ≤ b) (ha : o.belowLowerBound a = false) :
    o.belowLowerBound b = false := by
  rw [← Bool.not_eq_true]
  exact fun hb => (lt_of_belowLowerBound hb ha).not_ge hle

theorem lt_of_beyondUpperBound {a b : κ} (ha : o.beyondUpperBound a = true)
    (hb : o.beyondUpperBound b = false) : b < a := by
  rw [Options.beyondUpperBound] at ha hb
  cases hupper : o.iterateUpperBound with
  | none =>
      rw [hupper] at ha
      cases ha
  | some bound =>
      rw [hupper] at ha hb
      exact (not_le.mp (of_decide_eq_false hb)).trans_le (of_decide_eq_true ha)

theorem beyondUpperBound_mono {a b : κ} (hle : a ≤ b) (hb : o.beyondUpperBound b = false) :
    o.beyondUpperBound a = false := by
  rw [← Bool.not_eq_true]
  exact fun ha => (lt_of_beyondUpperBound ha hb).not_ge hle

end

namespace State

def type (st : State κ) : ValueType := if st.isBlob then .kTypeBlobIndex else .kTypeValue

def Forward (st : State κ) : Prop :=
  st.direction = .kForward ∧ ∃ kv rest, st.iter.after = kv :: rest ∧ kv.userKey = st.savedKey ∧
    (st.isKeySeqnumZero = true → kv.sequence = 0)

/-- Before all versions of the key that is returned. -/
def Backward (st : State κ) : Prop :=
  st.direction = .kReverse ∧ (∀ kv ∈ st.iter.later, st.savedKey ≤ kv.userKey) ∧
    ∀ kv ∈ st.iter.earlier, kv.userKey < st.savedKey

/-- The iterator stands on a key, with what a read of the key sees. -/
structure Stands (o : Options κ) (entries : List (Kv κ)) (st : State κ) (current : Option κ) : Prop where
  items : st.iter.items = entries
  status : st.status = .ok
  valid : st.valid = current.isSome
  key : ∀ k, current = some k → st.key = k
  entry : ∀ k, current = some k → look o.sequence k entries = some (st.type, st.value)
  position : st.valid = true → st.Forward ∨ st.Backward

end State

open State

theorem stands_none {o : Options κ} {entries : List (Kv κ)} {st : State κ} (hitems : st.iter.items = entries)
    (hstatus : st.status = .ok) (hvalid : st.valid = false) : Stands o entries st none :=
  ⟨hitems, hstatus, hvalid, (fun _ hk => nomatch hk), (fun _ hk => nomatch hk), fun hc =>
    absurd (hvalid.symm.trans hc) Bool.false_ne_true⟩

/-! ## The order of internal keys -/

section

variable {a b : Kv κ} {userKey : κ} {sequence type : ℕ}

omit [LinearOrder κ] in
theorem typeCode_lt (t : ValueType) : typeCode t < kValueTypeForSeek := by cases t <;> decide

theorem isBefore_iff : isBefore userKey sequence type a = true ↔ a.userKey < userKey ∨
    a.userKey = userKey ∧
      packSequenceAndType sequence type < packSequenceAndType a.sequence (typeCode a.type) := by
  rw [isBefore, Bool.or_eq_true, Bool.and_eq_true, decide_eq_true_eq, decide_eq_true_eq,
    decide_eq_true_eq]

theorem isUpTo_iff : isUpTo userKey sequence type a = true ↔ a.userKey < userKey ∨
    a.userKey = userKey ∧
      packSequenceAndType sequence type ≤ packSequenceAndType a.sequence (typeCode a.type) := by
  rw [isUpTo, Bool.or_eq_true, Bool.and_eq_true, decide_eq_true_eq, decide_eq_true_eq,
    decide_eq_true_eq]

omit [LinearOrder κ] in
theorem pack_lt (h : b.sequence < a.sequence) :
    packSequenceAndType b.sequence (typeCode b.type) <
      packSequenceAndType a.sequence (typeCode a.type) := by
  have hb := typeCode_lt b.type
  rw [kValueTypeForSeek] at hb
  rw [packSequenceAndType, packSequenceAndType]
  omega

theorem isBefore_mono (h : Before a b) (hb : isBefore userKey sequence type b = true) :
    isBefore userKey sequence type a = true := by
  rw [isBefore_iff] at hb ⊢
  rcases h with hlt | ⟨heq, hseq⟩
  · rcases hb with hb | ⟨rfl, -⟩
    · exact Or.inl (hlt.trans hb)
    · exact Or.inl hlt
  · rw [heq]
    exact hb.imp id fun hb => ⟨hb.1, hb.2.trans (pack_lt hseq)⟩

/-- A seek to a key at a sequence number passes newer versions of the key. -/
theorem isBefore_forSeek : isBefore userKey sequence kValueTypeForSeek a = true ↔
    a.userKey < userKey ∨ a.userKey = userKey ∧ sequence < a.sequence := by
  have ha := typeCode_lt a.type
  rw [isBefore_iff, packSequenceAndType, packSequenceAndType]
  rw [kValueTypeForSeek] at ha ⊢
  refine or_congr Iff.rfl (and_congr Iff.rfl ?_)
  omega

end

section

variable {o : Options κ} {entries : List (Kv κ)} {excluded : κ → Prop} {l l' : Scan κ} {kv : Kv κ}
  {rest : List (Kv κ)}

theorem Ordered.isBefore (h : Ordered entries) (userKey : κ) (sequence type : ℕ) :
    entries.Pairwise fun a b => isBefore userKey sequence type b = true →
      isBefore userKey sequence type a = true :=
  h.sorted.imp fun hab => isBefore_mono hab

theorem Ordered.split (h : Ordered entries) {c : Cursor (Kv κ)} (hitems : c.items = entries)
    (hafter : c.after = kv :: rest) : (∀ u ∈ c.before, Before u kv) ∧ ∀ u ∈ rest, Before kv u := by
  have hsorted := h.sorted
  rw [← hitems, Cursor.items, hafter, List.pairwise_append] at hsorted
  refine ⟨fun u hu => hsorted.2.2 u (List.mem_reverse.mpr hu) kv List.mem_cons_self, ?_⟩
  exact fun u hu => List.rel_of_pairwise_cons hsorted.2.1 hu

theorem before_le {a b : Kv κ} (h : Before a b) : a.userKey ≤ b.userKey :=
  h.elim le_of_lt fun h => h.1.le

namespace State.Scan

def Done (l : Scan κ) (k : κ) : Prop :=
  if l.skippingSavedKey then k ≤ l.st.savedKey else k < l.st.savedKey

theorem Done.le {k : κ} (h : l.Done k) : k ≤ l.st.savedKey := by
  rw [Done] at h
  split_ifs at h
  · exact h
  · exact h.le

theorem done_of_lt {k : κ} (h : k < l.st.savedKey) : l.Done k := by
  rw [Done]
  split_ifs
  · exact h.le
  · exact h

structure Inv (o : Options κ) (entries : List (Kv κ)) (excluded : κ → Prop) (l : Scan κ) : Prop where
  items : l.st.iter.items = entries
  status : l.st.status = .ok
  direction : l.st.direction = .kForward
  isBlob : l.st.isBlob = false
  excludes : ∀ k, excluded k → l.Done k
  dead : ∀ k, l.Done k → excluded k ∨ look o.sequence k entries = none
  before : ∀ u ∈ l.st.iter.before, l.Done u.userKey ∨ o.sequence < u.sequence
  after : ∀ u ∈ l.st.iter.after, l.st.savedKey ≤ u.userKey
  zero : l.st.isKeySeqnumZero = true → l.skippingSavedKey = true →
    ∀ u ∈ l.st.iter.after, l.st.savedKey < u.userKey

/-- The state when a turn is through with an entry that the inner iterator is still on. -/
structure Passed (o : Options κ) (entries : List (Kv κ)) (excluded : κ → Prop) (l : Scan κ)
    (kv : Kv κ) : Prop where
  items : l.st.iter.items = entries
  status : l.st.status = .ok
  direction : l.st.direction = .kForward
  isBlob : l.st.isBlob = false
  excludes : ∀ k, excluded k → l.Done k
  dead : ∀ k, l.Done k → excluded k ∨ look o.sequence k entries = none
  before : ∀ u ∈ l.st.iter.before, l.Done u.userKey ∨ o.sequence < u.sequence
  key : kv.userKey = l.st.savedKey
  passed : l.skippingSavedKey = true ∨ o.sequence < kv.sequence
  zero : l.st.isKeySeqnumZero = true → kv.sequence = 0

/-- A key that does not come any more. -/
theorem Inv.look_none (h : l.Inv o entries excluded) {k : κ} (hk : ∀ u ∈ l.st.iter.after, k < u.userKey) :
    excluded k ∨ look o.sequence k entries = none := by
  by_cases hdone : l.Done k
  · exact h.dead k hdone
  · refine Or.inr ?_
    rw [← h.items, Cursor.items, look_append fun u hu hkey => ?_]
    · exact CompactionIterator.look_none fun u hu hkey => (hk u hu).ne' hkey
    · rcases h.before u (List.mem_reverse.mp hu) with hu | hu
      · exact absurd (hkey ▸ hu) hdone
      · exact Nat.not_le.mpr hu

/-- The newest visible version of a key that is not done. -/
theorem Inv.look_head (h : l.Inv o entries excluded) (hafter : l.st.iter.after = kv :: rest)
    (hdone : ¬l.Done kv.userKey) (hvisible : kv.sequence ≤ o.sequence) :
    look o.sequence kv.userKey entries = seen kv := by
  rw [← h.items, Cursor.items, look_append fun u hu hkey => ?_, hafter, look_visible rfl hvisible]
  rcases h.before u (List.mem_reverse.mp hu) with hu | hu
  · exact absurd (hkey ▸ hu) hdone
  · exact Nat.not_le.mpr hu

/-- All keys before the current one are through. -/
theorem Inv.dead_below (h : l.Inv o entries excluded) (hentries : Ordered entries)
    (hafter : l.st.iter.after = kv :: rest) {k : κ} (hk : k < kv.userKey) :
    excluded k ∨ look o.sequence k entries = none := by
  refine h.look_none fun u hu => ?_
  rw [hafter] at hu
  rcases List.mem_cons.mp hu with rfl | hu
  · exact hk
  · exact hk.trans_le (before_le ((hentries.split h.items hafter).2 u hu))

def left (l : Scan κ) : ℕ := 2 * l.st.iter.after.length + if l.reseekDone then 0 else 1

/-- The inner iterator is moved. -/
theorem Passed.moved (h : l.Passed o entries excluded kv) {c : Cursor (Kv κ)} {zero : Bool}
    (hitems : c.items = l.st.iter.items)
    (hbefore : ∀ u ∈ c.before, l.Done u.userKey ∨ o.sequence < u.sequence)
    (hafter : ∀ u ∈ c.after, l.st.savedKey ≤ u.userKey)
    (hzero : zero = true → ∀ u ∈ c.after, l.st.savedKey < u.userKey) (numSkipped : ℕ)
    (reseekDone : Bool) :
    Inv o entries excluded ⟨{ l.st with isKeySeqnumZero := zero, iter := c }, l.skippingSavedKey,
      numSkipped, reseekDone⟩ :=
  ⟨hitems.trans h.items, h.status, h.direction, h.isBlob, h.excludes, h.dead, hbefore, hafter,
    fun hz _ => hzero hz⟩

/-- A seek that does not go back, to a place where the entries before it are through. -/
theorem Passed.sought (h : l.Passed o entries excluded kv) (hentries : Ordered entries)
    (hafter : l.st.iter.after = kv :: rest) (sequence type : ℕ)
    (hdone : ∀ u, isBefore l.st.savedKey sequence type u = true →
      l.Done u.userKey ∨ o.sequence < u.sequence)
    (hpassed : ∀ u ∈ l.st.iter.before, isBefore l.st.savedKey sequence type u = true) :
    let c := l.st.iter.seek (isBefore l.st.savedKey sequence type)
    Inv o entries excluded
      ⟨{ l.st with isKeySeqnumZero := false, iter := c }, l.skippingSavedKey, 0, true⟩ ∧
      c.after.length ≤ rest.length + 1 := by
  refine ⟨h.moved (Cursor.items_seek _ _) (fun u hu => hdone u (Cursor.seek_before hu)) (fun u hu => ?_)
    (fun hc => Bool.noConfusion hc) 0 true, ?_⟩
  · have hmono := hentries.isBefore l.st.savedKey sequence type
    rw [← h.items] at hmono
    have hu := Cursor.seek_after hmono hu
    rw [← Bool.not_eq_true, isBefore_iff, not_or] at hu
    exact not_lt.mp hu.1
  · have hlength := Cursor.length_after_seek hpassed
    rw [hafter, List.length_cons] at hlength
    exact hlength

/-- The next turn is made further on, or after a seek. -/
theorem Passed.advance (h : l.Passed o entries excluded kv) (hentries : Ordered entries)
    (hafter : l.st.iter.after = kv :: rest) :
    (advance o l).Inv o entries excluded ∧ (advance o l).left < 2 * (rest.length + 1) +
      if l.numSkipped = 0 ∨ l.reseekDone = true then 0 else 1 := by
  obtain ⟨hbefore, hrest⟩ := hentries.split h.items hafter
  have hbefore : ∀ u ∈ l.st.iter.before, u.userKey < l.st.savedKey ∨
      u.userKey = l.st.savedKey ∧ kv.sequence < u.sequence := h.key ▸ hbefore
  by_cases hseek : o.maxSkip < l.numSkipped ∧ l.reseekDone = false
  · have hagain : ¬(l.numSkipped = 0 ∨ l.reseekDone = true) := by
      rintro (hc | hc)
      · exact absurd hseek.1 (hc ▸ Nat.not_lt_zero _)
      · exact Bool.false_ne_true (hseek.2.symm.trans hc)
    rw [State.advance, if_pos hseek, if_neg hagain]
    by_cases hskip : l.skippingSavedKey = true
    · -- to the end of the key
      have hdone : ∀ u, isBefore l.st.savedKey 0 (typeCode .kTypeDeletion) u = true →
          l.Done u.userKey := by
        intro u hu
        rw [Done, if_pos hskip]
        exact (isBefore_iff.mp hu).elim le_of_lt fun hu => hu.1.le
      have hpassed : ∀ u ∈ l.st.iter.before,
          isBefore l.st.savedKey 0 (typeCode .kTypeDeletion) u = true := by
        refine fun u hu => isBefore_iff.mpr ((hbefore u hu).imp id fun hsame => ⟨hsame.1, ?_⟩)
        have hpos : 0 < u.sequence := (Nat.zero_le _).trans_lt hsame.2
        change 0 < u.sequence * 256 + typeCode u.type
        exact Nat.add_pos_left (Nat.mul_pos hpos (by decide)) _
      obtain ⟨hinv, hlength⟩ := h.sought hentries hafter 0 (typeCode .kTypeDeletion)
        (fun u hu => Or.inl (hdone u hu)) hpassed
      rw [if_pos hskip]
      refine ⟨hinv, ?_⟩
      rw [left, if_pos rfl]
      exact Nat.lt_succ_of_le (Nat.mul_le_mul_left 2 hlength)
    · -- to the visible versions of the key
      have hnew : o.sequence < kv.sequence := h.passed.resolve_left hskip
      obtain ⟨hinv, hlength⟩ := h.sought hentries hafter o.sequence kValueTypeForSeek
        (fun u hu => (isBefore_forSeek.mp hu).imp done_of_lt fun hu => hu.2)
        fun u hu => isBefore_forSeek.mpr
          ((hbefore u hu).imp id fun hsame => ⟨hsame.1, hnew.trans hsame.2⟩)
      rw [if_neg hskip]
      refine ⟨hinv, ?_⟩
      rw [left, if_pos rfl]
      exact Nat.lt_succ_of_le (Nat.mul_le_mul_left 2 hlength)
  · rw [State.advance, if_neg hseek]
    have hnext := Cursor.next_of_cons hafter
    constructor
    · refine h.moved (Cursor.items_next _) (fun u hu => ?_) (fun u hu => ?_) (fun hzero u hu => ?_)
        l.numSkipped l.reseekDone
      all_goals rw [hnext] at hu
      · rcases List.mem_cons.mp hu with rfl | hu
        · refine h.passed.imp (fun hskip => ?_) id
          rw [Done, if_pos hskip]
          exact h.key.le
        · exact h.before u hu
      · exact h.key.ge.trans (before_le (hrest u hu))
      · rcases hrest u hu with hlt | ⟨-, hlt⟩
        · exact h.key.symm.le.trans_lt hlt
        · rw [h.zero hzero] at hlt
          exact absurd hlt (Nat.not_lt_zero _)
    · rw [left, hnext]
      dsimp only
      split_ifs <;> omega

def wanted (o : Options κ) (entries : List (Kv κ)) (excluded : κ → Prop) : Set κ :=
  {k | ¬excluded k ∧ o.beyondUpperBound k = false ∧ (look o.sequence k entries).isSome = true}

theorem not_wanted {k : κ} (h : excluded k ∨ look o.sequence k entries = none) :
    k ∉ wanted o entries excluded := by
  rintro ⟨hexcluded, -, hsome⟩
  rcases h with h | h
  · exact hexcluded h
  · rw [h] at hsome
    cases hsome

inductive Turned (o : Options κ) (entries : List (Kv κ)) (excluded : κ → Prop) (l : Scan κ) (kv : Kv κ) :
    Scan κ ⊕ State κ → Prop
  | goesOn {l' : Scan κ} (passed : l'.Passed o entries excluded kv) (iter : l'.st.iter = l.st.iter)
      (reseek : l'.numSkipped = 0 ∨ l'.reseekDone = l.reseekDone) : Turned o entries excluded l kv (.inl l')
  | ends {st : State κ} {current : Option κ} (first : First (wanted o entries excluded) current)
      (stands : Stands o entries st current) : Turned o entries excluded l kv (.inr st)

/-- The entry is the newest visible version of a key that is not done. -/
theorem Inv.found (h : l.Inv o entries excluded) (hentries : Ordered entries)
    (hafter : l.st.iter.after = kv :: rest) (hbound : o.beyondUpperBound kv.userKey = false)
    (hdone : ¬l.Done kv.userKey) (hvisible : kv.sequence ≤ o.sequence) {blob : Bool}
    (htype : kv.type = if blob then .kTypeBlobIndex else .kTypeValue) :
    Turned o entries excluded l kv (.inr { l.st with
      isKeySeqnumZero := decide (kv.sequence = 0)
      savedKey := kv.userKey
      isBlob := blob
      valid := true }) := by
  have hlook := h.look_head hafter hdone hvisible
  have hseen : seen kv = some (kv.type, kv.value) := by
    rw [seen, if_neg]
    rw [htype]
    cases blob <;> rintro (hc | hc) <;> cases hc
  have hvalue : ((l.st.iter.current.map (·.value)).getD []) = kv.value := by
    rw [Cursor.current, hafter]
    rfl
  have hfirst : First (wanted o entries excluded) (some kv.userKey) := by
    refine ⟨⟨fun hc => hdone (h.excludes _ hc), hbound, ?_⟩, fun k hk => not_lt.mp fun hlt =>
      not_wanted (h.dead_below hentries hafter hlt) hk⟩
    rw [hlook, hseen]
    rfl
  refine .ends hfirst ⟨h.items, h.status, rfl, fun k hk => Option.some.inj hk, fun k hk => ?_,
    fun _ => Or.inl ⟨h.direction, kv, rest, hafter, rfl, of_decide_eq_true⟩⟩
  rw [← Option.some.inj hk, hlook, hseen, State.value, h.direction, State.type, htype]
  exact congrArg _ (congrArg _ hvalue.symm)

theorem Inv.turned (h : l.Inv o entries excluded) (hentries : Ordered entries)
    (hafter : l.st.iter.after = kv :: rest) : Turned o entries excluded l kv (turn o l kv) := by
  obtain ⟨hbefore, hrest⟩ := hentries.split h.items hafter
  have hkv : kv ∈ l.st.iter.after := hafter ▸ List.mem_cons_self
  have hle := h.after kv hkv
  have hmem : kv ∈ entries := by
    rw [← h.items, Cursor.items]
    exact List.mem_append_right _ hkv
  rw [turn]
  dsimp only
  by_cases hbound : o.beyondUpperBound kv.userKey = true
  · rw [if_pos hbound]
    refine .ends (first_none fun k hk => ?_) (stands_none h.items h.status rfl)
    refine not_wanted (h.dead_below hentries hafter ?_) hk
    exact lt_of_beyondUpperBound hbound hk.2.1
  rw [if_neg hbound]
  by_cases hvisible : kv.sequence ≤ o.sequence
  · rw [if_pos hvisible]
    by_cases hskip : (!l.st.isKeySeqnumZero && l.skippingSavedKey &&
        decide (kv.userKey ≤ l.st.savedKey)) = true
    · rw [if_pos hskip]
      rw [Bool.and_eq_true, Bool.and_eq_true, decide_eq_true_eq] at hskip
      exact .goesOn ⟨h.items, h.status, h.direction, h.isBlob, h.excludes, h.dead, h.before,
        le_antisymm hskip.2 hle, Or.inl hskip.1.2, of_decide_eq_true⟩ rfl (Or.inr rfl)
    · rw [if_neg hskip]
      have hdone : ¬l.Done kv.userKey := by
        intro hdone
        have hkey := le_antisymm hdone.le hle
        rw [Done] at hdone
        split_ifs at hdone with hskipping
        · cases hzero : l.st.isKeySeqnumZero with
          | true => exact (h.zero hzero hskipping kv hkv).ne' hkey
          | false =>
              rw [hzero, hskipping, decide_eq_true hkey.le] at hskip
              exact hskip rfl
        · exact hdone.not_ge hle
      have hnone : seen kv = none → ∀ k, k ≤ kv.userKey →
          excluded k ∨ look o.sequence k entries = none := by
        intro hseen k hk
        rcases hk.lt_or_eq with hlt | rfl
        · exact h.dead_below hentries hafter hlt
        · exact Or.inr ((h.look_head hafter hdone hvisible).trans hseen)
      have hdeletion : kv.type = .kTypeDeletion ∨ kv.type = .kTypeSingleDeletion →
          Turned o entries excluded l kv (.inl ⟨{ l.st with
            isKeySeqnumZero := decide (kv.sequence = 0)
            savedKey := kv.userKey }, true, 0, false⟩) := by
        intro htype
        exact .goesOn ⟨h.items, h.status, h.direction, h.isBlob,
          fun k hk => (h.excludes k hk).le.trans hle, hnone (if_pos htype),
          fun u hu => Or.inl (before_le (hbefore u hu)), rfl, Or.inl rfl, of_decide_eq_true⟩ rfl
          (Or.inl rfl)
      have hbound : o.beyondUpperBound kv.userKey = false := Bool.not_eq_true _ ▸ hbound
      cases htype : kv.type with
      | kTypeDeletion => exact hdeletion (Or.inl htype)
      | kTypeSingleDeletion => exact hdeletion (Or.inr htype)
      | kTypeMerge => exact absurd htype (hentries.noMerge kv hmem)
      | kTypeValue =>
          refine h.found hentries hafter hbound hdone hvisible ?_
          rw [h.isBlob]
          exact htype
      | kTypeBlobIndex => exact h.found hentries hafter hbound hdone hvisible htype
  · rw [if_neg hvisible]
    have hnew := Nat.not_le.mp hvisible
    have hzero : decide (kv.sequence = 0) = true → kv.sequence = 0 := of_decide_eq_true
    by_cases hsame : kv.userKey = l.st.savedKey ∨ l.skippingSavedKey = true ∧ kv.userKey < l.st.savedKey
    · rw [if_pos hsame]
      have hkey := hsame.resolve_right fun hc => hc.2.not_ge hle
      exact .goesOn ⟨h.items, h.status, h.direction, h.isBlob, h.excludes, h.dead, h.before, hkey,
        Or.inr hnew, hzero⟩ rfl (Or.inr rfl)
    · rw [if_neg hsame]
      have hlt : l.st.savedKey < kv.userKey := lt_of_le_of_ne hle fun hc => hsame (Or.inl hc.symm)
      exact .goesOn ⟨h.items, h.status, h.direction, h.isBlob,
        fun k hk => (h.excludes k hk).le.trans_lt hlt, fun k hk => h.dead_below hentries hafter hk,
        fun u hu => (h.before u hu).imp (fun hu => hu.le.trans_lt hlt) id, rfl, Or.inr hnew, hzero⟩ rfl
        (Or.inl rfl)

/-- The loop ends on the first key that it is asked for. -/
theorem Inv.scan (hentries : Ordered entries) {fuel : ℕ} (h : l.Inv o entries excluded)
    (hfuel : l.left < fuel) : ∃ current, Stands o entries (scan o fuel l) current ∧
      First (wanted o entries excluded) current := by
  induction fuel generalizing l with
  | zero => exact absurd hfuel (Nat.not_lt_zero _)
  | succ fuel ih =>
      rw [State.scan]
      cases hafter : l.st.iter.after with
      | nil =>
          have hcurrent : l.st.iter.current = none := Cursor.current_eq_none.mpr hafter
          rw [hcurrent]
          refine ⟨none, stands_none h.items h.status rfl, first_none fun k => not_wanted ?_⟩
          exact h.look_none fun u hu => absurd (hafter ▸ hu) List.not_mem_nil
      | cons kv rest =>
          have hcurrent : l.st.iter.current = some kv := Cursor.current_eq_some.mpr ⟨rest, hafter⟩
          rw [hcurrent]
          dsimp only
          have hturned := h.turned hentries hafter
          cases hturn : turn o l kv with
          | inr st =>
              rw [hturn] at hturned
              cases hturned with
              | ends first stands => exact ⟨_, stands, first⟩
          | inl l' =>
              rw [hturn] at hturned
              cases hturned with
              | goesOn passed iter reseek =>
                  obtain ⟨hinv, hleft⟩ := passed.advance hentries (iter ▸ hafter)
                  refine ih hinv ?_
                  rw [left, hafter, List.length_cons] at hfuel
                  split_ifs at hleft hfuel <;> grind

end State.Scan

open State.Scan (wanted not_wanted)

def State.OnFirst (o : Options κ) (entries : List (Kv κ)) (excluded : κ → Prop) (st : State κ) : Prop :=
  ∃ current, Stands o entries st current ∧ First (wanted o entries excluded) current

theorem onFirst_findNextUserEntry (hentries : Ordered entries) {st : State κ} {skipping : Bool}
    (h : (⟨{ st with isBlob := false }, skipping, 0, false⟩ : Scan κ).Inv o entries excluded) :
    (findNextUserEntry o st skipping).OnFirst o entries excluded := by
  refine h.scan hentries ?_
  rw [State.Scan.left, Cursor.items, List.length_append]
  dsimp only
  rw [if_neg Bool.false_ne_true]
  omega

/-- There is nothing more to come. -/
theorem onFirst_of_exhausted {st : State κ} (h : l.Inv o entries excluded)
    (hnone : ¬st.iter.current.isSome = true) (hiter : l.st.iter = st.iter) (hstatus : st.status = .ok)
    (hvalid : st.valid = false) : st.OnFirst o entries excluded := by
  rw [Option.not_isSome_iff_eq_none, Cursor.current_eq_none, ← hiter] at hnone
  refine ⟨none, stands_none (hiter ▸ h.items) hstatus hvalid, first_none fun k => not_wanted ?_⟩
  exact h.look_none fun u hu => absurd (hnone ▸ hu) List.not_mem_nil

/-! ## The calls -/

omit [LinearOrder κ] in
theorem mem_items {c : Cursor (Kv κ)} (hitems : c.items = entries) (h : kv ∈ c.before ∨ kv ∈ c.after) :
    kv ∈ entries := by
  rw [← hitems, Cursor.items, List.mem_append, List.mem_reverse]
  exact h

theorem onFirst_seek (hentries : Ordered entries) {st : State κ} (hitems : st.iter.items = entries)
    (target : κ) : (st.seek o target).OnFirst o entries
      fun k => k < (o.iterateLowerBound.filter fun bound => target < bound).getD target := by
  rw [State.seek]
  generalize (o.iterateLowerBound.filter fun bound => target < bound).getD target = bound
  dsimp only
  have hmono := hentries.isBefore bound o.sequence kValueTypeForSeek
  rw [← hitems] at hmono
  have hinv : (⟨{ st with
      isBlob := false
      status := .ok
      isKeySeqnumZero := false
      savedKey := bound
      iter := st.iter.seek (isBefore bound o.sequence kValueTypeForSeek)
      direction := .kForward }, false, 0, false⟩ : Scan κ).Inv o entries fun k => k < bound := by
    refine ⟨(Cursor.items_seek _ _).trans hitems, rfl, rfl, rfl, fun k hk => hk, fun k hk => Or.inl hk,
      fun u hu => ?_, fun u hu => ?_, fun hc => Bool.noConfusion hc⟩
    · exact (isBefore_forSeek.mp (Cursor.seek_before hu)).imp id fun hu => hu.2
    · have hu := Cursor.seek_after hmono hu
      rw [← Bool.not_eq_true, isBefore_forSeek, not_or] at hu
      exact not_lt.mp hu.1
  split_ifs with hsome
  · exact onFirst_findNextUserEntry hentries hinv
  · exact onFirst_of_exhausted hinv hsome rfl rfl rfl

theorem onFirst_first (hentries : Ordered entries) {st : State κ} (hitems : st.iter.items = entries)
    (hlower : o.iterateLowerBound = none) : (st.seekToFirst o).OnFirst o entries fun _ => False := by
  rw [State.seekToFirst, hlower]
  dsimp only
  cases hcurrent : (Cursor.first st.iter.items).current with
  | none =>
      refine ⟨none, stands_none hitems rfl rfl, first_none fun k => not_wanted (Or.inr ?_)⟩
      have hnil : entries = [] := hitems.symm.trans (Cursor.current_eq_none.mp hcurrent)
      rw [hnil]
      rfl
  | some kv =>
      obtain ⟨rest, hafter⟩ := Cursor.current_eq_some.mp hcurrent
      have hcons : entries = kv :: rest := hitems.symm.trans hafter
      have hle : ∀ u ∈ entries, kv.userKey ≤ u.userKey := by
        intro u hu
        rw [hcons] at hu
        rcases List.mem_cons.mp hu with rfl | hu
        · exact le_rfl
        · exact before_le (List.rel_of_pairwise_cons (hcons ▸ hentries.sorted) hu)
      refine onFirst_findNextUserEntry hentries ⟨hitems, rfl, rfl, rfl, fun k hk => hk.elim,
        fun k hk => Or.inr (look_none fun u hu => ?_), fun u hu => absurd hu List.not_mem_nil, ?_,
        fun hc => Bool.noConfusion hc⟩
      · exact (lt_of_lt_of_le hk (hle u hu)).ne'
      · exact fun u hu => hle u (hitems ▸ hu)

/-- `ReverseToForward` moves the inner iterator to the first version of the saved key. -/
theorem skipBelowSavedKey_spec (hentries : Ordered entries) (st : State κ) {fuel : ℕ}
    (hitems : st.iter.items = entries) (hbefore : ∀ u ∈ st.iter.before, u.userKey < st.savedKey)
    (hfuel : st.iter.after.length ≤ fuel) :
    ∃ c, skipBelowSavedKey fuel st = { st with iter := c } ∧ c.items = entries ∧
      (∀ u ∈ c.before, u.userKey < st.savedKey) ∧ ∀ u ∈ c.after, st.savedKey ≤ u.userKey := by
  induction fuel generalizing st with
  | zero =>
      have hafter := List.eq_nil_of_length_eq_zero (Nat.le_zero.mp hfuel)
      exact ⟨st.iter, rfl, hitems, hbefore, fun u hu => absurd (hafter ▸ hu) List.not_mem_nil⟩
  | succ fuel ih =>
      rw [skipBelowSavedKey]
      cases hafter : st.iter.after with
      | nil =>
          rw [Cursor.current_eq_none.mpr hafter]
          exact ⟨st.iter, rfl, hitems, hbefore, fun u hu => absurd (hafter ▸ hu) List.not_mem_nil⟩
      | cons kv rest =>
          rw [Cursor.current_eq_some.mpr ⟨rest, hafter⟩]
          dsimp only
          split_ifs with hle
          · refine ⟨st.iter, rfl, hitems, hbefore, fun u hu => ?_⟩
            rw [hafter] at hu
            rcases List.mem_cons.mp hu with rfl | hu
            · exact hle
            · exact hle.trans (before_le ((hentries.split hitems hafter).2 u hu))
          · have hnext := Cursor.next_of_cons hafter
            rw [hafter, List.length_cons] at hfuel
            have hbefore' : ∀ u ∈ st.iter.next.before, u.userKey < st.savedKey := by
              intro u hu
              rw [hnext] at hu
              rcases List.mem_cons.mp hu with rfl | hu
              · exact not_le.mp hle
              · exact hbefore u hu
            have hfuel' : st.iter.next.after.length ≤ fuel := by
              rw [hnext]
              exact Nat.le_of_succ_le_succ hfuel
            obtain ⟨c, hc, hspec⟩ := ih { st with iter := st.iter.next }
              ((Cursor.items_next _).trans hitems) hbefore' hfuel'
            exact ⟨c, hc, hspec⟩

theorem reverseToForward_spec (hentries : Ordered entries) (st : State κ)
    (hitems : st.iter.items = entries) (hearlier : ∀ u ∈ st.iter.earlier, u.userKey < st.savedKey) :
    ∃ c, reverseToForward st = { st with direction := .kForward, iter := c } ∧ c.items = entries ∧
      (∀ u ∈ c.before, u.userKey < st.savedKey) ∧ ∀ u ∈ c.after, st.savedKey ≤ u.userKey := by
  have hloop : ∀ c : Cursor (Kv κ), c.items = entries → (∀ u ∈ c.before, u.userKey < st.savedKey) →
      ∃ c', skipBelowSavedKey c.items.length { st with direction := .kForward, iter := c } =
          { st with direction := .kForward, iter := c' } ∧ c'.items = entries ∧
        (∀ u ∈ c'.before, u.userKey < st.savedKey) ∧ ∀ u ∈ c'.after, st.savedKey ≤ u.userKey := by
    intro c hc hbefore
    have hlength : c.after.length ≤ c.items.length := by
      rw [Cursor.items, List.length_append]
      exact Nat.le_add_left _ _
    exact skipBelowSavedKey_spec hentries { st with direction := .kForward, iter := c } hc hbefore hlength
  rw [reverseToForward]
  split_ifs with hnone
  · refine hloop _ ((Cursor.items_seek _ _).trans hitems) fun u hu => ?_
    refine (isBefore_forSeek.mp (Cursor.seek_before hu)).resolve_right fun hc => ?_
    have hmem : u ∈ entries := mem_items ((Cursor.items_seek _ _).trans hitems) (Or.inl hu)
    exact absurd hc.2 (hentries.bounded u hmem).le.not_gt
  · cases hafter : st.iter.after with
    | nil =>
        rw [Cursor.current_eq_none.mpr hafter] at hnone
        exact absurd rfl hnone
    | cons kv rest =>
        rw [Cursor.earlier, hafter] at hearlier
        exact hloop st.iter hitems fun u hu => hearlier u (List.mem_cons_of_mem _ hu)

theorem leaveEntry_forward {st : State κ} (h : st.direction = .kForward) :
    st.leaveEntry = { st with iter := st.iter.next } := by
  rw [leaveEntry, h]

theorem leaveEntry_reverse {st : State κ} (h : st.direction = .kReverse) :
    st.leaveEntry = reverseToForward { st with isKeySeqnumZero := false } := by
  rw [leaveEntry, h]

theorem onFirst_next (hentries : Ordered entries) {st : State κ} {current : κ}
    (h : Stands o entries st (some current)) : (st.next o).OnFirst o entries fun k => k ≤ current := by
  have hkey : st.savedKey = current := h.key current rfl
  have hinv : (⟨{ st.leaveEntry with isBlob := false }, true, 0, false⟩ : Scan κ).Inv o entries
      fun k => k ≤ current := by
    rcases h.position h.valid with ⟨hdirection, kv, rest, hafter, hsaved, hzero⟩ |
      ⟨hdirection, hlater, hearlier⟩
    · obtain ⟨hbefore, hrest⟩ := hentries.split h.items hafter
      have hnext := Cursor.next_of_cons hafter
      rw [leaveEntry_forward hdirection]
      refine ⟨(Cursor.items_next _).trans h.items, h.status, hdirection, rfl,
        fun k hk => hk.trans hkey.ge, fun k hk => Or.inl (hk.trans hkey.le), fun u hu => Or.inl ?_,
        fun u hu => ?_, fun hz _ u hu => ?_⟩
      all_goals rw [hnext] at hu
      · rcases List.mem_cons.mp hu with rfl | hu
        · exact hsaved.le
        · exact (before_le (hbefore u hu)).trans hsaved.le
      · exact hsaved.ge.trans (before_le (hrest u hu))
      · rcases hrest u hu with hlt | ⟨-, hlt⟩
        · exact hsaved.symm.le.trans_lt hlt
        · rw [hzero hz] at hlt
          exact absurd hlt (Nat.not_lt_zero _)
    · obtain ⟨c, hc, hitems, hbefore, hafter⟩ :=
        reverseToForward_spec hentries { st with isKeySeqnumZero := false } h.items hearlier
      rw [leaveEntry_reverse hdirection, hc]
      exact ⟨hitems, h.status, rfl, rfl, fun k hk => hk.trans hkey.ge,
        fun k hk => Or.inl (hk.trans hkey.le), fun u hu => Or.inl (hbefore u hu).le, hafter,
        fun hc => Bool.noConfusion hc⟩
  rw [State.next]
  split_ifs with hsome
  · exact onFirst_findNextUserEntry hentries hinv
  · exact onFirst_of_exhausted hinv hsome rfl hinv.status rfl

end

end AegonKV.DBIter
