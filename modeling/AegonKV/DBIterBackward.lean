import AegonKV.DBIterForward

/-!
# Going backward

`PrevInternal` ends on the last key it is asked for that a read at the sequence number finds. The value
of a key is collected from the oldest version on, or found by a seek, and the inner iterator is left
before all versions of the key.
-/

namespace AegonKV.DBIter
open LittleEndian ListCursors OrderedScan State
open CompactionIterator (look seen Before look_visible look_append look_none)

variable {κ : Type} [LinearOrder κ] {o : Options κ} {entries : List (Kv κ)} {excluded : κ → Prop}
  {st : State κ} {kv : Kv κ} {rest : List (Kv κ)}

/-! ## The value of the current key -/

/-- What a reader gets from a version with this type and value. -/
def outcome (type : ValueType) (value : Bytes) : Option (ValueType × Bytes) :=
  if type = .kTypeDeletion ∨ type = .kTypeSingleDeletion then none else some (type, value)

/-- The value of the saved key is found, and the inner iterator is not before its versions yet, or just
before them. -/
structure ValueFound (o : Options κ) (entries : List (Kv κ)) (savedKey : κ) (direction : Direction)
    (st : State κ) : Prop where
  items : st.iter.items = entries
  status : st.status = .ok
  direction_eq : st.direction = direction
  savedKey_eq : st.savedKey = savedKey
  later : ∀ u ∈ st.iter.later, savedKey ≤ u.userKey
  look_eq : look o.sequence savedKey entries =
    if st.valid then some (st.type, st.pinnedValue) else none

theorem foundValue_spec (st : State κ) (hitems : st.iter.items = entries) (hstatus : st.status = .ok)
    (hlater : ∀ u ∈ st.iter.later, st.savedKey ≤ u.userKey) {last : ValueType}
    (hlast : last ≠ .kTypeMerge)
    (hlook : look o.sequence st.savedKey entries = outcome last st.pinnedValue) :
    ∃ st', foundValue st last = (true, st') ∧ ValueFound o entries st.savedKey st.direction st' := by
  cases last with
  | kTypeMerge => exact absurd rfl hlast
  | kTypeDeletion => exact ⟨_, rfl, hitems, hstatus, rfl, rfl, hlater, hlook⟩
  | kTypeSingleDeletion => exact ⟨_, rfl, hitems, hstatus, rfl, rfl, hlater, hlook⟩
  | kTypeValue => exact ⟨_, rfl, hitems, hstatus, rfl, rfl, hlater, hlook⟩
  | kTypeBlobIndex => exact ⟨_, rfl, hitems, hstatus, rfl, rfl, hlater, hlook⟩

omit [LinearOrder κ] in
theorem outcome_pin (st : State κ) (h : kv.type ≠ .kTypeMerge) :
    outcome kv.type (st.pin kv).pinnedValue = seen kv := by
  rw [outcome, seen, pin]
  cases htype : kv.type with
  | kTypeMerge => exact absurd htype h
  | _ => rfl

theorem Ordered.earlier_le (h : Ordered entries) {c : Cursor (Kv κ)} (hitems : c.items = entries)
    (hafter : c.after = kv :: rest) : ∀ u ∈ c.earlier, u.userKey ≤ kv.userKey := by
  intro u hu
  rw [Cursor.earlier, hafter] at hu
  rcases List.mem_cons.mp hu with rfl | hu
  · exact le_rfl
  · exact before_le ((h.split hitems hafter).1 u hu)

omit [LinearOrder κ] in
theorem mem_of_earlier {c : Cursor (Kv κ)} (hitems : c.items = entries)
    (h : kv ∈ c.earlier ∨ kv ∈ c.later) : kv ∈ entries := by
  rw [← hitems, ← Cursor.earlier_later, List.mem_append, List.mem_reverse]
  exact h

/-- `FindValueForCurrentKeyUsingSeek` finds the newest visible version. -/
theorem findValueFromSeek_spec (hentries : Ordered entries) (hitems : st.iter.items = entries)
    (hstatus : st.status = .ok) (hmem : kv ∈ entries) (hkey : kv.userKey = st.savedKey)
    (hvisible : kv.sequence ≤ o.sequence) :
    ∃ st', findValueFromSeek { st with
        iter := st.iter.seek (isBefore st.savedKey o.sequence kValueTypeForSeek) } = (true, st') ∧
      ValueFound o entries st.savedKey st.direction st' := by
  have hmono := hentries.isBefore st.savedKey o.sequence kValueTypeForSeek
  rw [← hitems] at hmono
  generalize hc : st.iter.seek (isBefore st.savedKey o.sequence kValueTypeForSeek) = c
  have hcitems : c.items = entries := hc ▸ (Cursor.items_seek _ _).trans hitems
  have hbefore : ∀ u ∈ c.before, u.userKey < st.savedKey ∨
      u.userKey = st.savedKey ∧ o.sequence < u.sequence :=
    fun u hu => isBefore_forSeek.mp (Cursor.seek_before (hc ▸ hu))
  have hafter : ∀ u ∈ c.after, ¬(u.userKey < st.savedKey ∨
      u.userKey = st.savedKey ∧ o.sequence < u.sequence) := by
    intro u hu
    have hu := Cursor.seek_after hmono (hc ▸ hu)
    rw [← Bool.not_eq_true, isBefore_forSeek] at hu
    exact hu
  have hkv : kv ∈ c.after := by
    rw [← hcitems, Cursor.items, List.mem_append, List.mem_reverse] at hmem
    refine hmem.resolve_left fun hu => ?_
    rcases hbefore kv hu with hlt | ⟨-, hlt⟩
    · exact hlt.ne hkey
    · exact absurd hvisible hlt.not_ge
  cases hcons : c.after with
  | nil =>
      rw [hcons] at hkv
      cases hkv
  | cons newest rest =>
      have hnewest : newest ∈ c.after := hcons ▸ List.mem_cons_self
      have hle : newest.userKey ≤ kv.userKey := by
        rw [hcons] at hkv
        rcases List.mem_cons.mp hkv with rfl | hkv
        · exact le_rfl
        · exact before_le ((hentries.split hcitems hcons).2 kv hkv)
      have hnot := hafter newest hnewest
      rw [not_or, not_and] at hnot
      have hsame : newest.userKey = st.savedKey := le_antisymm (hle.trans hkey.le) (not_lt.mp hnot.1)
      have hlook : look o.sequence st.savedKey entries = seen newest := by
        rw [← hcitems, Cursor.items, look_append fun u hu hukey => ?_, hcons]
        · exact look_visible hsame (not_lt.mp (hnot.2 hsame))
        · rcases hbefore u (List.mem_reverse.mp hu) with hlt | ⟨-, hlt⟩
          · exact absurd hukey hlt.ne
          · exact hlt.not_ge
      have hlater : ∀ u ∈ c.later, st.savedKey ≤ u.userKey := by
        intro u hu
        rw [Cursor.later, hcons] at hu
        exact hsame.ge.trans (before_le ((hentries.split hcitems hcons).2 u hu))
      have hmerge := hentries.noMerge newest (mem_items hcitems (Or.inr hnewest))
      rw [findValueFromSeek, Cursor.current_eq_some.mpr ⟨rest, hcons⟩]
      dsimp only
      rw [if_neg (not_not.mpr hsame)]
      exact foundValue_spec (pin { st with iter := c } newest) hcitems hstatus hlater hmerge
        (hlook.trans (outcome_pin _ hmerge).symm)

/-- `FindValueForCurrentKey`, with the newest of the versions that it has gone over. -/
theorem findValue_spec (hentries : Ordered entries) {fuel : ℕ} (st : State κ) {last : ValueType}
    (numSkipped : ℕ) (hitems : st.iter.items = entries) (hstatus : st.status = .ok)
    (hearlier : ∀ u ∈ st.iter.earlier, u.userKey ≤ st.savedKey)
    (hlater : ∀ u ∈ st.iter.later, st.savedKey ≤ u.userKey) (hlast : last ≠ .kTypeMerge)
    (hlook : look o.sequence st.savedKey st.iter.later = outcome last st.pinnedValue)
    (hfuel : st.iter.earlier.length < fuel) :
    ∃ st', findValue o fuel st last numSkipped = (true, st') ∧ ValueFound o entries st.savedKey st.direction st' := by
  induction fuel generalizing st last numSkipped with
  | zero => exact absurd hfuel (Nat.not_lt_zero _)
  | succ fuel ih =>
      have hsplit : entries = st.iter.earlier.reverse ++ st.iter.later :=
        hitems.symm.trans (Cursor.earlier_later _).symm
      rw [findValue]
      cases hafter : st.iter.after with
      | nil =>
          rw [Cursor.current_eq_none.mpr hafter]
          refine foundValue_spec st hitems hstatus hlater hlast ?_
          rw [← hlook, hsplit, Cursor.earlier, hafter]
          rfl
      | cons kv rest =>
          have hearly : st.iter.earlier = kv :: st.iter.before := by rw [Cursor.earlier, hafter]
          have hkv : kv ∈ entries := mem_items hitems (Or.inr (hafter ▸ List.mem_cons_self))
          rw [Cursor.current_eq_some.mpr ⟨rest, hafter⟩]
          dsimp only
          by_cases hstop : o.sequence < kv.sequence ∨ kv.userKey ≠ st.savedKey
          · rw [if_pos hstop]
            refine foundValue_spec st hitems hstatus hlater hlast ?_
            rw [← hlook, hsplit, look_append fun u hu hkey => ?_]
            -- a version before this one is newer than it or of a smaller key
            have hu := List.mem_reverse.mp hu
            have hsame : kv.userKey = st.savedKey :=
              le_antisymm (hearlier kv (hearly ▸ List.mem_cons_self))
                (hkey.ge.trans (hentries.earlier_le hitems hafter u hu))
            have hnew := hstop.resolve_right (not_not.mpr hsame)
            rw [hearly] at hu
            rcases List.mem_cons.mp hu with rfl | hu
            · exact hnew.not_ge
            · rcases (hentries.split hitems hafter).1 u hu with hlt | ⟨-, hlt⟩
              · exact absurd (hkey.trans hsame.symm) hlt.ne
              · exact (hnew.trans hlt).not_ge
          · rw [if_neg hstop]
            rw [not_or, not_lt, not_not] at hstop
            split_ifs with hseek
            · exact findValueFromSeek_spec hentries hitems hstatus hkv hstop.2 hstop.1
            · have hcons : st.iter.prev.later = kv :: rest := Cursor.later_prev hafter
              have hbefore : st.iter.prev.earlier = st.iter.before := Cursor.earlier_prev _
              refine ih { st.pin kv with iter := st.iter.prev } (numSkipped + 1)
                ((Cursor.items_prev _).trans hitems) hstatus (fun u hu => ?_) (fun u hu => ?_)
                (hentries.noMerge kv hkv) ?_ ?_
              · rw [hbefore] at hu
                exact hearlier u (hearly ▸ List.mem_cons_of_mem _ hu)
              · rw [hcons] at hu
                rcases List.mem_cons.mp hu with rfl | hu
                · exact hstop.2.ge
                · exact hstop.2.ge.trans (before_le ((hentries.split hitems hafter).2 u hu))
              · rw [hcons]
                exact (look_visible hstop.2 hstop.1).trans (outcome_pin st (hentries.noMerge kv hkv)).symm
              · rw [hbefore]
                rw [hearly] at hfuel
                exact Nat.lt_of_succ_lt_succ hfuel

/-! ## To the key before -/

theorem findBefore_of_lt {fuel : ℕ} (st : State κ) (numSkipped : ℕ)
    (hearlier : ∀ u ∈ st.iter.earlier, u.userKey < st.savedKey) :
    findBefore o fuel st numSkipped = st := by
  cases fuel with
  | zero => rfl
  | succ fuel =>
      rw [findBefore]
      cases hafter : st.iter.after with
      | nil => rw [Cursor.current_eq_none.mpr hafter]
      | cons kv rest =>
          rw [Cursor.current_eq_some.mpr ⟨rest, hafter⟩]
          refine if_pos (hearlier kv ?_)
          rw [Cursor.earlier, hafter]
          exact List.mem_cons_self

theorem findBefore_spec (hentries : Ordered entries) {fuel : ℕ} (st : State κ) (numSkipped : ℕ)
    (hitems : st.iter.items = entries) (hlater : ∀ u ∈ st.iter.later, st.savedKey ≤ u.userKey)
    (hfuel : st.iter.earlier.length < fuel) :
    ∃ c, findBefore o fuel st numSkipped = { st with iter := c } ∧ c.items = entries ∧
      (∀ u ∈ c.later, st.savedKey ≤ u.userKey) ∧ ∀ u ∈ c.earlier, u.userKey < st.savedKey := by
  induction fuel generalizing st numSkipped with
  | zero => exact absurd hfuel (Nat.not_lt_zero _)
  | succ fuel ih =>
      by_cases hearlier : ∀ u ∈ st.iter.earlier, u.userKey < st.savedKey
      · exact ⟨st.iter, findBefore_of_lt st numSkipped hearlier, hitems, hlater, hearlier⟩
      cases hafter : st.iter.after with
      | nil =>
          rw [Cursor.earlier, hafter] at hearlier
          exact absurd (fun u hu => absurd hu List.not_mem_nil) hearlier
      | cons kv rest =>
          have hearly : st.iter.earlier = kv :: st.iter.before := by rw [Cursor.earlier, hafter]
          have hge : ¬kv.userKey < st.savedKey := fun hlt => hearlier fun u hu =>
            (hentries.earlier_le hitems hafter u hu).trans_lt hlt
          rw [findBefore, Cursor.current_eq_some.mpr ⟨rest, hafter⟩]
          dsimp only
          rw [if_neg hge]
          split_ifs with hseek
          · -- the seek goes to the first version of the key
            have hmono := hentries.isBefore st.savedKey kMaxSequenceNumber kValueTypeForSeek
            rw [← hitems] at hmono
            generalize hc : st.iter.seek (isBefore st.savedKey kMaxSequenceNumber kValueTypeForSeek) = c
            have hcitems : c.items = entries := hc ▸ (Cursor.items_seek _ _).trans hitems
            have hbefore : ∀ u ∈ c.before, u.userKey < st.savedKey := by
              intro u hu
              refine (isBefore_forSeek.mp (Cursor.seek_before (hc ▸ hu))).resolve_right fun hmax => ?_
              exact hmax.2.not_gt (hentries.bounded u (mem_items hcitems (Or.inl hu)))
            have hcafter : ∀ u ∈ c.after, st.savedKey ≤ u.userKey := by
              intro u hu
              have hu := Cursor.seek_after hmono (hc ▸ hu)
              rw [← Bool.not_eq_true, isBefore_forSeek, not_or] at hu
              exact not_lt.mp hu.1
            cases hcons : c.after with
            | nil =>
                have hkv : kv ∈ entries := mem_items hitems (Or.inr (hafter ▸ List.mem_cons_self))
                rw [← hcitems, Cursor.items, hcons, List.append_nil, List.mem_reverse] at hkv
                exact absurd (hbefore kv hkv) hge
            | cons first more =>
                rw [Cursor.current_eq_some.mpr ⟨more, hcons⟩]
                have hprev : ∀ u ∈ c.prev.earlier, u.userKey < st.savedKey := by
                  rw [Cursor.earlier_prev]
                  exact hbefore
                refine ⟨c.prev, findBefore_of_lt { st with iter := c.prev } 0 hprev,
                  (Cursor.items_prev _).trans hcitems, ?_, hprev⟩
                rw [Cursor.later_prev hcons, ← hcons]
                exact hcafter
          · have hprev := ih { st with iter := st.iter.prev } (numSkipped + 1)
              ((Cursor.items_prev _).trans hitems) (fun u hu => ?_) ?_
            · exact hprev
            · rw [Cursor.later_prev hafter] at hu
              rcases List.mem_cons.mp hu with rfl | hu
              · exact not_lt.mp hge
              · exact (not_lt.mp hge).trans (before_le ((hentries.split hitems hafter).2 u hu))
            · rw [Cursor.earlier_prev]
              rw [hearly] at hfuel
              exact Nat.lt_of_succ_lt_succ hfuel

/-! ## The loop of `PrevInternal` -/

def wantedBefore (o : Options κ) (entries : List (Kv κ)) (excluded : κ → Prop) : Set κ :=
  {k | ¬excluded k ∧ o.belowLowerBound k = false ∧ (look o.sequence k entries).isSome = true}

theorem not_wantedBefore {k : κ} (h : excluded k ∨ look o.sequence k entries = none) :
    k ∉ wantedBefore o entries excluded := by
  rintro ⟨hexcluded, -, hsome⟩
  rcases h with h | h
  · exact hexcluded h
  · rw [h] at hsome
    cases hsome

def State.OnLast (o : Options κ) (entries : List (Kv κ)) (excluded : κ → Prop) (st : State κ) : Prop :=
  ∃ current, Stands o entries st current ∧ Last (wantedBefore o entries excluded) current

/-- The state before a round: on the last version of a key, with all greater keys through. -/
structure Returning (o : Options κ) (entries : List (Kv κ)) (excluded : κ → Prop) (st : State κ) : Prop where
  items : st.iter.items = entries
  status : st.status = .ok
  direction : st.direction = .kReverse
  apart : ∀ e ∈ st.iter.earlier, ∀ u ∈ st.iter.later, e.userKey < u.userKey
  allowed : ∀ e ∈ st.iter.earlier, ¬excluded e.userKey
  dead : ∀ k, (∀ e ∈ st.iter.earlier, e.userKey < k) → excluded k ∨ look o.sequence k entries = none

/-- Where exactly the keys from the position on are excluded. -/
theorem returning_of_excluded (hitems : st.iter.items = entries) (hstatus : st.status = .ok)
    (hdirection : st.direction = .kReverse) (hup : ∀ k k', k ≤ k' → excluded k → excluded k')
    (hallowed : ∀ e ∈ st.iter.earlier, ¬excluded e.userKey)
    (hlater : ∀ u ∈ st.iter.later, excluded u.userKey) : Returning o entries excluded st := by
  refine ⟨hitems, hstatus, hdirection, fun e he u hu => not_le.mp fun hle => ?_, hallowed,
    fun k hk => ?_⟩
  · exact hallowed e he (hup _ _ hle (hlater u hu))
  · by_cases hexcluded : excluded k
    · exact Or.inl hexcluded
    · refine Or.inr (look_none fun u hu hkey => ?_)
      rw [← hitems, ← Cursor.earlier_later, List.mem_append, List.mem_reverse] at hu
      rcases hu with hu | hu
      · exact (hk u hu).ne hkey
      · exact hexcluded (hkey ▸ hlater u hu)

/-- The inner iterator has left a key behind. -/
theorem length_earlier_lt {c c' : Cursor (Kv κ)} (hitems : c'.items = c.items) (hmem : kv ∈ c.earlier)
    (hearlier : ∀ u ∈ c'.earlier, u.userKey < kv.userKey) : c'.earlier.length < c.earlier.length := by
  rw [← Cursor.earlier_later c', ← Cursor.earlier_later c, List.append_eq_append_iff] at hitems
  have hnot : kv ∉ c'.earlier.reverse := fun hc => (hearlier kv (List.mem_reverse.mp hc)).ne rfl
  rcases hitems with ⟨m, hm, -⟩ | ⟨m, hm, -⟩
  · have hlength := congrArg List.length hm
    rw [List.length_append, List.length_reverse, List.length_reverse] at hlength
    have hpos : 0 < m.length := by
      refine List.length_pos_iff.mpr fun hnil => hnot ?_
      rw [hnil, List.append_nil] at hm
      exact hm ▸ List.mem_reverse.mpr hmem
    omega
  · exact absurd (hm ▸ List.mem_append_left _ (List.mem_reverse.mpr hmem)) hnot

/-- The loop ends on the last key that it is asked for. -/
theorem findPrev_spec (hentries : Ordered entries) (hup : ∀ k k', k ≤ k' → excluded k → excluded k')
    {fuel : ℕ} (st : State κ) (h : Returning o entries excluded st)
    (hfuel : st.iter.earlier.length < fuel) : (findPrev o fuel st).OnLast o entries excluded := by
  induction fuel generalizing st with
  | zero => exact absurd hfuel (Nat.not_lt_zero _)
  | succ fuel ih =>
      rw [findPrev]
      cases hafter : st.iter.after with
      | nil =>
          rw [Cursor.current_eq_none.mpr hafter]
          refine ⟨none, stands_none h.items h.status rfl, last_none fun k => not_wantedBefore ?_⟩
          refine h.dead k fun e he => ?_
          rw [Cursor.earlier, hafter] at he
          cases he
      | cons kv rest =>
          have hearly : st.iter.earlier = kv :: st.iter.before := by rw [Cursor.earlier, hafter]
          have hkv : kv ∈ st.iter.earlier := hearly ▸ List.mem_cons_self
          have hle := hentries.earlier_le h.items hafter
          have habove : ∀ k, kv.userKey < k → excluded k ∨ look o.sequence k entries = none :=
            fun k hk => h.dead k fun e he => (hle e he).trans_lt hk
          rw [Cursor.current_eq_some.mpr ⟨rest, hafter⟩]
          dsimp only
          by_cases hbelow : o.belowLowerBound kv.userKey = true
          · rw [if_pos hbelow]
            refine ⟨none, stands_none h.items h.status rfl, last_none fun k hk => ?_⟩
            exact not_wantedBefore (habove k (lt_of_belowLowerBound hbelow hk.2.1)) hk
          rw [if_neg hbelow]
          have hlookLater : look o.sequence kv.userKey st.iter.later =
              outcome .kTypeDeletion st.pinnedValue :=
            look_none fun u hu hkey => (h.apart kv hkv u hu).ne' hkey
          have hlength : st.iter.earlier.length < st.iter.items.length + 1 := by
            rw [← Cursor.earlier_later, List.length_append, List.length_reverse]
            omega
          obtain ⟨st₁, hst₁, hfound⟩ := findValue_spec hentries (o := o)
            { st with savedKey := kv.userKey } 0 h.items h.status hle
            (fun u hu => (h.apart kv hkv u hu).le) (by decide) hlookLater hlength
          rw [findValueForCurrentKey, hst₁]
          dsimp only
          have hlength₁ : st₁.iter.earlier.length < st₁.iter.items.length + 1 := by
            rw [← Cursor.earlier_later, List.length_append, List.length_reverse]
            omega
          obtain ⟨c, hc, hcitems, hclater, hcearlier⟩ := findBefore_spec hentries (o := o) st₁ 0
            hfound.items (hfound.savedKey_eq ▸ hfound.later) hlength₁
          rw [hfound.savedKey_eq] at hclater hcearlier
          rw [findUserKeyBeforeSavedKey, hc]
          have hlook := hfound.look_eq
          cases hvalid : st₁.valid with
          | true =>
              rw [hvalid, if_pos rfl] at hlook
              rw [if_pos rfl]
              refine ⟨some kv.userKey, ⟨hcitems, hfound.status, rfl, fun k hk => ?_, fun k hk => ?_,
                fun _ => Or.inr ⟨hfound.direction_eq.trans h.direction, ?_⟩⟩, ⟨h.allowed kv hkv,
                Bool.not_eq_true _ ▸ hbelow, ?_⟩, fun k hk => not_lt.mp fun hlt => ?_⟩
              · exact hfound.savedKey_eq.trans (Option.some.inj hk)
              · rw [← Option.some.inj hk, hlook, State.value, hfound.direction_eq, h.direction]
                rfl
              · rw [hfound.savedKey_eq]
                exact ⟨hclater, hcearlier⟩
              · rw [hlook]
                rfl
              · exact not_wantedBefore (habove k hlt) hk
          | false =>
              rw [hvalid, if_neg Bool.false_ne_true] at hlook
              rw [if_neg Bool.false_ne_true]
              refine ih _ ⟨hcitems, hfound.status, hfound.direction_eq.trans h.direction,
                fun e he u hu => (hcearlier e he).trans_le (hclater u hu),
                fun e he hc => h.allowed kv hkv (hup _ _ (hcearlier e he).le hc), fun k hk => ?_⟩ ?_
              · rcases lt_trichotomy k kv.userKey with hlt | rfl | hlt
                · refine Or.inr (look_none fun u hu hkey => ?_)
                  rw [← hcitems, ← Cursor.earlier_later, List.mem_append, List.mem_reverse] at hu
                  rcases hu with hu | hu
                  · exact (hk u hu).ne hkey
                  · exact (hlt.trans_le (hclater u hu)).ne' hkey
                · exact Or.inr hlook
                · exact habove k hlt
              · exact (length_earlier_lt (hcitems.trans h.items.symm) hkv hcearlier).trans_le
                  (Nat.le_of_lt_succ hfuel)

end AegonKV.DBIter
