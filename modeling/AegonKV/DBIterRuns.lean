import AegonKV.DBIterBackward
import AegonKV.LabelledSimulation

/-!
# Runs of the iterator

Whatever calls are made, in whatever order, the iterator moves as a cursor on the ordered set of the
keys that a read at the sequence number finds within the bounds, and shows what that read returns.
-/

namespace AegonKV.DBIter
open LittleEndian ListCursors OrderedScan State TransitionSystem
open State.Scan (wanted)
open CompactionIterator (look)

variable {κ : Type} [LinearOrder κ] {o : Options κ} {entries : List (Kv κ)} {excluded : κ → Prop}
  {st : State κ}

/-! ## Calls that search backward -/

theorem onLast_prevInternal (hentries : Ordered entries)
    (hup : ∀ k k', k ≤ k' → excluded k → excluded k') (h : Returning o entries excluded st) :
    (st.prevInternal o).OnLast o entries excluded := by
  refine findPrev_spec hentries hup st h ?_
  rw [← Cursor.earlier_later, List.length_append, List.length_reverse]
  omega

theorem Ordered.isUpTo (h : Ordered entries) (userKey : κ) (sequence type : ℕ) :
    entries.Pairwise fun a b => isUpTo userKey sequence type b = true →
      isUpTo userKey sequence type a = true := by
  refine h.sorted.imp fun {a b} hab hb => ?_
  rw [isUpTo_iff] at hb ⊢
  rcases hab with hlt | ⟨heq, hseq⟩
  · rcases hb with hb | ⟨rfl, -⟩
    · exact Or.inl (hlt.trans hb)
    · exact Or.inl hlt
  · rw [heq]
    exact hb.imp id fun hb => ⟨hb.1, hb.2.trans (pack_lt hseq).le⟩

/-- A seek to the end of a key. -/
theorem isUpTo_all {userKey : κ} {kv : Kv κ} :
    isUpTo userKey 0 kValueTypeForSeekForPrev kv = true ↔ ¬userKey < kv.userKey := by
  have hpack : packSequenceAndType 0 kValueTypeForSeekForPrev ≤
      packSequenceAndType kv.sequence (typeCode kv.type) := Nat.zero_le _
  rw [isUpTo_iff, and_iff_left hpack, not_lt, le_iff_lt_or_eq]

/-- A seek to just before a key. -/
theorem isUpTo_below (hentries : Ordered entries) {userKey : κ} {kv : Kv κ} (hkv : kv ∈ entries) :
    isUpTo userKey kMaxSequenceNumber kValueTypeForSeekForPrev kv = true ↔ ¬userKey ≤ kv.userKey := by
  have hbounded := hentries.bounded kv hkv
  have htype := typeCode_lt kv.type
  rw [isUpTo_iff, not_le]
  refine or_iff_left_iff_imp.mpr fun h => ?_
  have hle := h.2
  rw [packSequenceAndType, packSequenceAndType, kValueTypeForSeekForPrev] at hle
  rw [kValueTypeForSeek] at htype
  omega

/-- The search from the last version that is not excluded, if there is one. -/
theorem onLast_seekForPrev_of_isUpTo (hentries : Ordered entries) (st : State κ) (hitems : st.iter.items = entries)
    (hstatus : st.status = .ok) {userKey : κ} {sequence type : ℕ}
    (hup : ∀ k k', k ≤ k' → excluded k → excluded k')
    (hupTo : ∀ u ∈ entries, isUpTo userKey sequence type u = true ↔ ¬excluded u.userKey) :
    let st := { st with iter := st.iter.seekForPrev (isUpTo userKey sequence type) }
    (if st.iter.current.isSome then prevInternal o { st with direction := .kReverse } else { st with valid := false }).OnLast o
      entries excluded := by
  have hc := (Cursor.items_seekForPrev st.iter (isUpTo userKey sequence type)).trans hitems
  have hreturning : Returning o entries excluded { st with
      iter := st.iter.seekForPrev (isUpTo userKey sequence type)
      direction := .kReverse } := by
    refine returning_of_excluded hc hstatus rfl hup (fun e he => ?_) fun u hu => ?_
    · have hmem := mem_of_earlier hc (Or.inl he)
      dsimp only at he
      rw [Cursor.earlier_seekForPrev, List.mem_reverse] at he
      exact (hupTo e hmem).mp (List.mem_takeWhile_imp he)
    · have hmem := mem_of_earlier hc (Or.inr hu)
      dsimp only at hu
      rw [Cursor.later_seekForPrev] at hu
      have hmono := hentries.isUpTo userKey sequence type
      rw [← hitems] at hmono
      have hnot : isUpTo userKey sequence type u = false := Cursor.seek_after (c := st.iter) hmono hu
      by_contra hallowed
      exact Bool.false_ne_true (hnot.symm.trans ((hupTo u hmem).mpr hallowed))
  dsimp only
  split_ifs with hsome
  · exact onLast_prevInternal hentries hup hreturning
  · rw [Option.not_isSome_iff_eq_none, Cursor.current_eq_none] at hsome
    refine ⟨none, stands_none hc hstatus rfl, last_none fun k => not_wantedBefore ?_⟩
    refine hreturning.dead k fun e he => ?_
    rw [Cursor.earlier, hsome] at he
    cases he

theorem onLast_seekForPrev_of_bound (hentries : Ordered entries) (hitems : st.iter.items = entries)
    {target bound : κ} (hbound : o.iterateUpperBound = some bound) (hle : bound ≤ target) :
    (st.seekForPrev o target).OnLast o entries fun k => bound ≤ k := by
  have hfilter : (o.iterateUpperBound.filter fun bound => bound ≤ target) = some bound := by
    rw [hbound]
    exact Option.filter_some_pos (decide_eq_true hle)
  rw [State.seekForPrev, hfilter]
  exact onLast_seekForPrev_of_isUpTo hentries
    { st with status := .ok, isKeySeqnumZero := false, savedKey := bound } hitems rfl
    (fun k k' hk hc => hc.trans hk) fun u hu => isUpTo_below hentries hu

theorem onLast_seekForPrev (hentries : Ordered entries) (hitems : st.iter.items = entries) {target : κ}
    (hbound : o.beyondUpperBound target = false) :
    (st.seekForPrev o target).OnLast o entries fun k => target < k := by
  have hfilter : (o.iterateUpperBound.filter fun bound => bound ≤ target) = none := by
    rw [Options.beyondUpperBound] at hbound
    cases hupper : o.iterateUpperBound with
    | none => rfl
    | some bound =>
        rw [hupper] at hbound
        exact Option.filter_some_neg (Bool.not_eq_true _ ▸ hbound)
  rw [State.seekForPrev, hfilter]
  exact onLast_seekForPrev_of_isUpTo hentries
    { st with status := .ok, isKeySeqnumZero := false, savedKey := target } hitems rfl
    (fun k k' hk hc => hc.trans_le hk) fun u _ => isUpTo_all

theorem onLast_last (hentries : Ordered entries) (hitems : st.iter.items = entries)
    (hupper : o.iterateUpperBound = none) : (st.seekToLast o).OnLast o entries fun _ => False := by
  have hearlier : (Cursor.last st.iter.items).earlier = st.iter.items.reverse := Cursor.earlier_prev _
  have hlater : (Cursor.last st.iter.items).later = [] := by
    have hsplit := Cursor.earlier_later (Cursor.last st.iter.items)
    rw [hearlier, List.reverse_reverse, Cursor.items_last] at hsplit
    exact List.append_right_eq_self.mp hsplit
  rw [State.seekToLast, hupper]
  dsimp only
  refine onLast_prevInternal hentries (fun _ _ _ hc => hc) ?_
  refine returning_of_excluded ((Cursor.items_last _).trans hitems) rfl rfl (fun _ _ _ hc => hc)
    (fun _ _ hc => hc) fun u hu => ?_
  dsimp only at hu
  rw [hlater] at hu
  cases hu

theorem onLast_prev (hentries : Ordered entries) {current : κ} (h : Stands o entries st (some current)) :
    (st.prev o).OnLast o entries fun k => current ≤ k := by
  have hkey : st.savedKey = current := h.key current rfl
  have hup : ∀ k k' : κ, k ≤ k' → current ≤ k → current ≤ k' := fun k k' hk hc => hc.trans hk
  rw [State.prev]
  rcases h.position h.valid with ⟨hdirection, kv, rest, hafter, hsaved, -⟩ |
    ⟨hdirection, hlater, hearlier⟩
  · have hlater : ∀ u ∈ st.iter.later, st.savedKey ≤ u.userKey := by
      intro u hu
      rw [Cursor.later, hafter] at hu
      exact hsaved.ge.trans (before_le ((hentries.split h.items hafter).2 u hu))
    have hlength : st.iter.earlier.length < st.iter.items.length + 1 := by
      rw [← Cursor.earlier_later, List.length_append, List.length_reverse]
      omega
    obtain ⟨c, hc, hitems, hclater, hcearlier⟩ := findBefore_spec hentries (o := o)
      { st with direction := .kReverse } 0 h.items hlater hlength
    rw [hdirection]
    dsimp only
    rw [reverseToBackward, findUserKeyBeforeSavedKey, hc]
    exact onLast_prevInternal hentries hup (returning_of_excluded hitems h.status rfl hup
      (fun e he => not_le.mpr ((hcearlier e he).trans_eq hkey)) fun u hu => hkey.ge.trans (hclater u hu))
  · rw [hdirection]
    exact onLast_prevInternal hentries hup (returning_of_excluded h.items h.status hdirection hup
      (fun e he => not_le.mpr ((hearlier e he).trans_eq hkey)) fun u hu => hkey.ge.trans (hlater u hu))

/-! ## The bounds -/

/-- `Seek` does not go below the lower bound. -/
theorem not_lt_clamped (target k : κ) :
    ¬k < (o.iterateLowerBound.filter fun bound => target < bound).getD target ↔
      o.belowLowerBound k = false ∧ k ∈ Set.Ici target := by
  rw [Options.belowLowerBound, Set.mem_Ici]
  cases o.iterateLowerBound with
  | none => exact not_lt.trans (and_iff_right rfl).symm
  | some bound =>
      rw [Option.any_some, decide_eq_false_iff_not, not_lt]
      by_cases hlt : target < bound
      · have hfilter : ((some bound).filter fun bound => target < bound) = some bound :=
          Option.filter_some_pos (decide_eq_true hlt)
        rw [hfilter, Option.getD_some, not_lt]
        exact (and_iff_left_of_imp fun hk => hlt.le.trans hk).symm
      · have hfilter : ((some bound).filter fun bound => target < bound) = none :=
          Option.filter_some_neg (decide_eq_false hlt)
        rw [hfilter, Option.getD_none, not_lt]
        exact (and_iff_right_of_imp fun hk => (not_lt.mp hlt).trans hk).symm

theorem wanted_eq {T : Set κ} (h : ∀ k, ¬excluded k ↔ o.belowLowerBound k = false ∧ k ∈ T) :
    wanted o entries excluded = visible o entries ∩ T := by
  ext k
  change ¬excluded k ∧ o.beyondUpperBound k = false ∧ (look o.sequence k entries).isSome = true ↔
    (o.belowLowerBound k = false ∧ o.beyondUpperBound k = false ∧
      (look o.sequence k entries).isSome = true) ∧ k ∈ T
  rw [h k]
  tauto

theorem wantedBefore_eq {T : Set κ} (h : ∀ k, ¬excluded k ↔ o.beyondUpperBound k = false ∧ k ∈ T) :
    wantedBefore o entries excluded = visible o entries ∩ T := by
  ext k
  change ¬excluded k ∧ o.belowLowerBound k = false ∧ (look o.sequence k entries).isSome = true ↔
    (o.belowLowerBound k = false ∧ o.beyondUpperBound k = false ∧
      (look o.sequence k entries).isSome = true) ∧ k ∈ T
  rw [h k]
  tauto

/-! ## The calls on the set of visible keys -/

section

variable (hentries : Ordered entries)
include hentries

theorem seek_first (hitems : st.iter.items = entries) (target : κ) :
    ∃ r, Stands o entries (st.seek o target) r ∧ First (visible o entries ∩ Set.Ici target) r := by
  rw [← wanted_eq (not_lt_clamped target)]
  exact onFirst_seek hentries hitems target

theorem seekForPrev_last (hitems : st.iter.items = entries) (target : κ) :
    ∃ r, Stands o entries (st.seekForPrev o target) r ∧ Last (visible o entries ∩ Set.Iic target) r := by
  cases hbeyond : o.beyondUpperBound target with
  | false =>
      have hequal : ∀ k, ¬target < k ↔ o.beyondUpperBound k = false ∧ k ∈ Set.Iic target := by
        intro k
        rw [Set.mem_Iic, not_lt]
        exact (and_iff_right_of_imp fun hk => beyondUpperBound_mono hk hbeyond).symm
      rw [← wantedBefore_eq hequal]
      exact onLast_seekForPrev hentries hitems hbeyond
  | true =>
      cases hupper : o.iterateUpperBound with
      | none =>
          rw [Options.beyondUpperBound, hupper] at hbeyond
          cases hbeyond
      | some bound =>
          have hle : bound ≤ target := by
            rw [Options.beyondUpperBound, hupper] at hbeyond
            exact of_decide_eq_true hbeyond
          have hequal : ∀ k, ¬bound ≤ k ↔ o.beyondUpperBound k = false ∧ k ∈ Set.Iic target := by
            intro k
            rw [Options.beyondUpperBound, hupper, Option.any_some, decide_eq_false_iff_not]
            exact (and_iff_left_of_imp fun hk => (not_le.mp hk).le.trans hle).symm
          rw [← wantedBefore_eq hequal]
          exact onLast_seekForPrev_of_bound hentries hitems hupper hle

theorem seekToFirst_first (hitems : st.iter.items = entries) :
    ∃ r, Stands o entries (st.seekToFirst o) r ∧ First (visible o entries) r := by
  cases hlower : o.iterateLowerBound with
  | none =>
      have hequal : ∀ k, ¬False ↔ o.belowLowerBound k = false ∧ k ∈ (Set.univ : Set κ) := by
        intro k
        rw [Options.belowLowerBound, hlower]
        exact iff_of_true not_false ⟨rfl, trivial⟩
      rw [← Set.inter_univ (visible o entries), ← wanted_eq hequal]
      exact onFirst_first hentries hitems hlower
  | some bound =>
      have hsub : visible o entries ⊆ Set.Ici bound := by
        intro k hk
        have hbelow := hk.1
        rw [Options.belowLowerBound, hlower] at hbelow
        exact not_lt.mp (of_decide_eq_false hbelow)
      rw [State.seekToFirst, hlower, ← Set.inter_eq_left.mpr hsub]
      exact seek_first hentries hitems bound

theorem seekToLast_last (hitems : st.iter.items = entries) :
    ∃ r, Stands o entries (st.seekToLast o) r ∧ Last (visible o entries) r := by
  cases hupper : o.iterateUpperBound with
  | none =>
      have hequal : ∀ k, ¬False ↔ o.beyondUpperBound k = false ∧ k ∈ (Set.univ : Set κ) := by
        intro k
        rw [Options.beyondUpperBound, hupper]
        exact iff_of_true not_false ⟨rfl, trivial⟩
      rw [← Set.inter_univ (visible o entries), ← wantedBefore_eq hequal]
      exact onLast_last hentries hitems hupper
  | some bound =>
      have hlt : ∀ k ∈ visible o entries, k < bound := by
        intro k hk
        have hbeyond := hk.2.1
        rw [Options.beyondUpperBound, hupper] at hbeyond
        exact not_le.mp (of_decide_eq_false hbeyond)
      have hsub : visible o entries ⊆ Set.Iic bound := fun k hk => (hlt k hk).le
      obtain ⟨r, hstands, hlast⟩ := seekForPrev_last (o := o) hentries hitems bound
      rw [Set.inter_eq_left.mpr hsub] at hlast
      -- no key that is found is the bound
      have hother : ¬((st.seekForPrev o bound).valid = true ∧ bound = (st.seekForPrev o bound).key) := by
        rintro ⟨hvalid, hkey⟩
        cases r with
        | none => exact absurd (hstands.valid.symm.trans hvalid) Bool.false_ne_true
        | some k => exact (hlt k hlast.1).ne' (hkey.trans (hstands.key k rfl))
      rw [State.seekToLast, hupper]
      dsimp only
      rw [if_neg hother]
      exact ⟨r, hstands, hlast⟩

theorem next_first {current : κ} (h : Stands o entries st (some current)) (hcurrent : current ∈ visible o entries) :
    ∃ r, Stands o entries (st.next o) r ∧ First (visible o entries ∩ Set.Ioi current) r := by
  have hequal : ∀ k, ¬k ≤ current ↔ o.belowLowerBound k = false ∧ k ∈ Set.Ioi current := by
    intro k
    rw [Set.mem_Ioi, not_le]
    exact (and_iff_right_of_imp fun hk => belowLowerBound_mono hk.le hcurrent.1).symm
  rw [← wanted_eq hequal]
  exact onFirst_next hentries h

theorem prev_last {current : κ} (h : Stands o entries st (some current)) (hcurrent : current ∈ visible o entries) :
    ∃ r, Stands o entries (st.prev o) r ∧ Last (visible o entries ∩ Set.Iio current) r := by
  have hequal : ∀ k, ¬current ≤ k ↔ o.beyondUpperBound k = false ∧ k ∈ Set.Iio current := by
    intro k
    rw [Set.mem_Iio, not_le]
    exact (and_iff_right_of_imp fun hk => beyondUpperBound_mono hk.le hcurrent.2.1).symm
  rw [← wantedBefore_eq hequal]
  exact onLast_prev hentries h

end

/-! ## Runs -/

/-- A call; the neighbours are asked for on a valid iterator only. -/
def State.step (o : Options κ) (st : State κ) : Op κ → Option (State κ)
  | .seekToFirst => some (st.seekToFirst o)
  | .seekToLast => some (st.seekToLast o)
  | .seek target => some (st.seek o target)
  | .seekForPrev target => some (st.seekForPrev o target)
  | .next => if st.valid then some (st.next o) else none
  | .prev => if st.valid then some (st.prev o) else none

structure Placed (o : Options κ) (entries : List (Kv κ)) (st : State κ) (current : Option κ) : Prop where
  stands : Stands o entries st current
  mem : ∀ k, current = some k → k ∈ visible o entries

omit [LinearOrder κ] in
theorem some_of_valid {current : Option κ} (hvalid : st.valid = current.isSome) (h : st.valid = true) :
    ∃ k, current = some k := Option.isSome_iff_exists.mp (hvalid.symm.trans h)

theorem step_moves (hentries : Ordered entries) {st' : State κ} {current : Option κ} {op : Op κ}
    (h : Placed o entries st current) (hstep : st.step o op = some st') :
    ∃ r, Moves (visible o entries) current op r ∧ Placed o entries st' r := by
  suffices hmoved : ∃ r, Stands o entries st' r ∧ Moves (visible o entries) current op r by
    obtain ⟨r, hstands, hmoves⟩ := hmoved
    exact ⟨r, hmoves, hstands, hmoves.mem⟩
  have hitems := h.stands.items
  cases op with
  | seekToFirst => exact Option.some.inj hstep ▸ seekToFirst_first hentries hitems
  | seekToLast => exact Option.some.inj hstep ▸ seekToLast_last hentries hitems
  | seek target => exact Option.some.inj hstep ▸ seek_first hentries hitems target
  | seekForPrev target => exact Option.some.inj hstep ▸ seekForPrev_last hentries hitems target
  | next =>
      rw [State.step, Option.ite_none_right_eq_some] at hstep
      obtain ⟨k, rfl⟩ := some_of_valid h.stands.valid hstep.1
      obtain ⟨r, hstands, hfirst⟩ := next_first hentries h.stands (h.mem k rfl)
      exact ⟨r, Option.some.inj hstep.2 ▸ hstands, k, rfl, hfirst⟩
  | prev =>
      rw [State.step, Option.ite_none_right_eq_some] at hstep
      obtain ⟨k, rfl⟩ := some_of_valid h.stands.valid hstep.1
      obtain ⟨r, hstands, hlast⟩ := prev_last hentries h.stands (h.mem k rfl)
      exact ⟨r, Option.some.inj hstep.2 ▸ hstands, k, rfl, hlast⟩

theorem placed_init {savedKey : κ} : Placed o entries (State.init entries savedKey) none :=
  ⟨stands_none (Cursor.items_exhausted _) rfl rfl, fun _ hk => nomatch hk⟩

theorem placed_run (hentries : Ordered entries) {savedKey : κ} {ops : List (Op κ)}
    (hr : run (State.step o) (State.init entries savedKey) ops = some st) :
    ∃ current, Runs (Moves (visible o entries)) none ops current ∧ Placed o entries st current := by
  have hmeets : Meets (State.step o) (fun _ _ => True) (State.init entries savedKey) ops :=
    meets_of_forall (fun _ _ => trivial) _ _
  refine run_simulated (R := Placed o entries) ?_ placed_init hmeets hr
  exact fun _ _ _ _ h _ hstep => step_moves hentries h hstep

/-- Whatever is called, the iterator is where the calls have brought a cursor on the visible keys, and
shows what a read of the key sees. -/
theorem run_moves (hentries : Ordered entries) {savedKey : κ} {ops : List (Op κ)}
    (hr : run (State.step o) (State.init entries savedKey) ops = some st) :
    ∃ current, Runs (Moves (visible o entries)) none ops current ∧ Stands o entries st current := by
  obtain ⟨current, hruns, hplaced⟩ := placed_run hentries hr
  exact ⟨current, hruns, hplaced.stands⟩

section

/-- Four keys within the bounds, one of them deleted, with versions that are not visible yet. -/
def fiveKeys : List (Kv ℕ) :=
  [⟨1, 9, .kTypeValue, [1]⟩, ⟨1, 4, .kTypeBlobIndex, [2]⟩, ⟨1, 2, .kTypeValue, [3]⟩,
    ⟨2, 7, .kTypeDeletion, []⟩, ⟨2, 1, .kTypeValue, [4]⟩,
    ⟨3, 11, .kTypeValue, [5]⟩, ⟨3, 10, .kTypeDeletion, []⟩, ⟨3, 6, .kTypeBlobIndex, [6]⟩,
    ⟨3, 5, .kTypeValue, [7]⟩, ⟨4, 8, .kTypeValue, [8]⟩, ⟨5, 3, .kTypeValue, [9]⟩]

/-- Every version that is passed makes the iterator seek. -/
def seekAlways : Options ℕ where
  sequence := 8
  maxSkip := 0
  iterateLowerBound := some 1
  iterateUpperBound := some 5

theorem fiveKeys_ordered : Ordered fiveKeys where
  sorted := by
    change fiveKeys.Pairwise fun a b =>
      a.userKey < b.userKey ∨ a.userKey = b.userKey ∧ b.sequence < a.sequence
    decide +kernel
  bounded := by decide +kernel
  noMerge := by decide +kernel

theorem run_moves_fiveKeys : ∃ st current,
    run (State.step seekAlways) (State.init fiveKeys 0) [.seekToLast, .prev, .next, .prev] = some st ∧
      Runs (Moves (visible seekAlways fiveKeys)) none [.seekToLast, .prev, .next, .prev] current ∧
      Stands seekAlways fiveKeys st current ∧ st.key = 3 ∧ st.value = [6] := by
  have hr : ∃ st, run (State.step seekAlways) (State.init fiveKeys 0)
      [.seekToLast, .prev, .next, .prev] = some st ∧ st.key = 3 ∧ st.value = [6] :=
    ⟨_, rfl, rfl, rfl⟩
  obtain ⟨st, hr, hkey, hvalue⟩ := hr
  obtain ⟨current, hruns, hstands⟩ := run_moves fiveKeys_ordered hr
  exact ⟨st, current, hr, hruns, hstands, hkey, hvalue⟩

end

/-! ## Two iterators -/

/-- What a user gets from two iterators is the same. -/
structure Agree (st st' : State κ) : Prop where
  status : st.status = st'.status
  valid : st.valid = st'.valid
  key : st.valid = true → st.key = st'.key
  entry : st.valid = true → st.type = st'.type ∧ st.value = st'.value

variable {o' : Options κ} {entries' : List (Kv κ)} {st' : State κ}

structure SameReads (o o' : Options κ) (entries entries' : List (Kv κ)) : Prop where
  lower : o'.iterateLowerBound = o.iterateLowerBound
  upper : o'.iterateUpperBound = o.iterateUpperBound
  look_eq : ∀ k, look o'.sequence k entries' = look o.sequence k entries

/-- The visible keys depend on the bounds and on what reads find. -/
theorem visible_congr (hlower : o'.iterateLowerBound = o.iterateLowerBound)
    (hupper : o'.iterateUpperBound = o.iterateUpperBound)
    (hsome : ∀ k, (look o'.sequence k entries').isSome = (look o.sequence k entries).isSome) :
    visible o' entries' = visible o entries := by
  ext k
  rw [visible, visible, Set.mem_ofPred, Set.mem_ofPred, Options.belowLowerBound, Options.beyondUpperBound,
    Options.belowLowerBound, Options.beyondUpperBound, hlower, hupper, hsome k]

theorem SameReads.visible_eq (h : SameReads o o' entries entries') :
    visible o' entries' = visible o entries :=
  visible_congr h.lower h.upper fun k => congrArg Option.isSome (h.look_eq k)

theorem SameReads.agree (h : SameReads o o' entries entries') {current : Option κ}
    (hst : Stands o entries st current) (hst' : Stands o' entries' st' current) : Agree st st' := by
  refine ⟨hst.status.trans hst'.status.symm, hst.valid.trans hst'.valid.symm, fun hvalid => ?_,
    fun hvalid => ?_⟩
  all_goals obtain ⟨k, rfl⟩ := some_of_valid hst.valid hvalid
  · exact (hst.key k rfl).trans (hst'.key k rfl).symm
  · have hentry := (hst.entry k rfl).symm.trans ((h.look_eq k).symm.trans (hst'.entry k rfl))
    exact Prod.mk.inj (Option.some.inj hentry)

theorem step_enabled (o' : Options κ) {op : Op κ} {next : State κ} (hvalid : st.valid = st'.valid)
    (hstep : st.step o op = some next) : ∃ next', st'.step o' op = some next' := by
  cases op with
  | next =>
      rw [State.step, Option.ite_none_right_eq_some] at hstep
      exact ⟨_, if_pos (hvalid.symm.trans hstep.1)⟩
  | prev =>
      rw [State.step, Option.ite_none_right_eq_some] at hstep
      exact ⟨_, if_pos (hvalid.symm.trans hstep.1)⟩
  | _ => exact ⟨_, rfl⟩

/-- Over versions that every read sees the same, the same calls can be made and show the same. -/
theorem run_agree (hentries : Ordered entries) (hentries' : Ordered entries')
    (hsame : SameReads o o' entries entries') {savedKey savedKey' : κ} {ops : List (Op κ)}
    (hr : run (State.step o) (State.init entries savedKey) ops = some st) :
    ∃ st', run (State.step o') (State.init entries' savedKey') ops = some st' ∧ Agree st st' := by
  let R : State κ → State κ → Prop := fun s t =>
    ∃ current, Placed o entries s current ∧ Placed o' entries' t current
  have hinit : R (State.init entries savedKey) (State.init entries' savedKey') :=
    ⟨none, placed_init, placed_init⟩
  have hsteps : ∀ s t op next, R s t → State.step o s op = some next →
      ∃ next', State.step o' t op = some next' ∧ R next next' := by
    rintro s t op next ⟨current, hs, ht⟩ hstep
    obtain ⟨next', hstep'⟩ := step_enabled o' (hs.stands.valid.trans ht.stands.valid.symm) hstep
    obtain ⟨r, hmoves, hnext⟩ := step_moves hentries hs hstep
    obtain ⟨r', hmoves', hnext'⟩ := step_moves hentries' ht hstep'
    rw [hsame.visible_eq] at hmoves'
    obtain rfl : r = r' := hmoves.unique hmoves'
    exact ⟨next', hstep', r, hnext, hnext'⟩
  obtain ⟨st', hr', current, hst, hst'⟩ := run_answered hsteps hinit hr
  exact ⟨st', hr', hsame.agree hst.stands hst'.stands⟩

end AegonKV.DBIter
