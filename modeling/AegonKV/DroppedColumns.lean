import AegonKV.ObsoleteHandout

/-!
# Erasing the storage of a dropped column family

A storage goes away when its column family is destroyed and its list of obsolete files has run
empty. Files that are not on the list go with it and are never handed out: a flush, a compaction or
a garbage collection may install its output after the drop has listed all the files there were.
-/

namespace AegonKV

namespace BlobFileSet

variable (s : BlobFileSet) (oldestSequence : ℕ)

/-! ## One call of the purge -/

theorem purgeColumn_other (acc : List UInt64 × BlobStorages) {cf c : UInt32} (h : c ≠ cf) :
    (s.purgeColumn oldestSequence acc cf).2.lookup c = acc.2.lookup c := by
  rw [purgeColumn]
  split_ifs
  · rfl
  · split
    · rfl
    · dsimp only
      split_ifs
      · exact AList.lookup_erase_ne h
      · exact AList.lookup_insert_ne h

/-- The files that the storage of a column family hands out. -/
def handedBy (cf : UInt32) (st : Option BlobStorage) : List UInt64 :=
  if cf ∈ s.obsoleteColumns then []
  else (st.map fun st => (st.getObsoleteFiles oldestSequence).1).getD []

def leftOf (cf : UInt32) (st : Option BlobStorage) : Option BlobStorage :=
  if cf ∈ s.obsoleteColumns then st
  else st.bind fun st =>
    if (st.getObsoleteFiles oldestSequence).2.maybeRemove then none
    else some (st.getObsoleteFiles oldestSequence).2

theorem purgeColumn_self (acc : List UInt64 × BlobStorages) (cf : UInt32) :
    (s.purgeColumn oldestSequence acc cf).1 = acc.1 ++ s.handedBy oldestSequence cf (acc.2.lookup cf) ∧
      (s.purgeColumn oldestSequence acc cf).2.lookup cf =
        s.leftOf oldestSequence cf (acc.2.lookup cf) := by
  rw [purgeColumn, handedBy, leftOf]
  by_cases hblocked : cf ∈ s.obsoleteColumns
  · rw [if_pos hblocked, if_pos hblocked, if_pos hblocked]
    exact ⟨(List.append_nil _).symm, rfl⟩
  · rw [if_neg hblocked, if_neg hblocked, if_neg hblocked]
    cases hst : acc.2.lookup cf with
    | none => exact ⟨(List.append_nil _).symm, hst⟩
    | some st =>
        refine ⟨rfl, ?_⟩
        dsimp only [Option.bind_some]
        split_ifs
        · exact AList.lookup_erase _ _
        · exact AList.lookup_insert _

theorem purgeLoop_spec {cfs : List UInt32} (hn : cfs.Nodup) (acc : List UInt64 × BlobStorages) :
    (∀ f, f ∈ (cfs.foldl (s.purgeColumn oldestSequence) acc).1 ↔
        f ∈ acc.1 ∨ ∃ cf ∈ cfs, f ∈ s.handedBy oldestSequence cf (acc.2.lookup cf)) ∧
      ∀ c, (cfs.foldl (s.purgeColumn oldestSequence) acc).2.lookup c =
        if c ∈ cfs then s.leftOf oldestSequence c (acc.2.lookup c) else acc.2.lookup c := by
  induction cfs generalizing acc with
  | nil => simp
  | cons cf cfs ih =>
      obtain ⟨hnot, hn⟩ := List.nodup_cons.mp hn
      obtain ⟨hremoved, hleft⟩ := ih hn (s.purgeColumn oldestSequence acc cf)
      obtain ⟨hself, hselfLeft⟩ := s.purgeColumn_self oldestSequence acc cf
      have hother {c : UInt32} (hc : c ∈ cfs) :
          (s.purgeColumn oldestSequence acc cf).2.lookup c = acc.2.lookup c :=
        s.purgeColumn_other oldestSequence acc fun heq => hnot (heq ▸ hc)
      constructor
      · intro f
        rw [List.foldl_cons, hremoved f, hself, List.mem_append, or_assoc]
        refine or_congr_right ?_
        constructor
        · rintro (hf | ⟨c, hc, hf⟩)
          · exact ⟨cf, List.mem_cons_self, hf⟩
          · exact ⟨c, List.mem_cons_of_mem _ hc, hother hc ▸ hf⟩
        · rintro ⟨c, hc, hf⟩
          rcases List.mem_cons.mp hc with rfl | hc
          · exact Or.inl hf
          · refine Or.inr ⟨c, hc, ?_⟩
            rw [hother hc]
            exact hf
      · intro c
        rw [List.foldl_cons, hleft c]
        by_cases hc : c ∈ cfs
        · rw [if_pos hc, if_pos (List.mem_cons_of_mem _ hc), hother hc]
        · rw [if_neg hc]
          by_cases hcf : c = cf
          · rw [hcf, if_pos List.mem_cons_self, hselfLeft]
          · rw [if_neg (by simp [hcf, hc]), s.purgeColumn_other oldestSequence acc hcf]

/-- Every column family gives its own files, and its storage is treated on its own. -/
theorem getObsoleteFiles_spec :
    (∀ f, f ∈ (s.getObsoleteFiles oldestSequence).1.1 ↔
        ∃ cf, f ∈ s.handedBy oldestSequence cf (s.columnFamilies.lookup cf)) ∧
      ∀ c, (s.getObsoleteFiles oldestSequence).2.columnFamilies.lookup c =
        s.leftOf oldestSequence c (s.columnFamilies.lookup c) := by
  obtain ⟨hremoved, hleft⟩ :=
    s.purgeLoop_spec oldestSequence s.columnFamilies.keys_nodup ([], s.columnFamilies)
  have hmissing {c : UInt32} (hc : c ∉ s.columnFamilies.keys) : s.columnFamilies.lookup c = none :=
    AList.lookup_eq_none.mpr hc
  constructor
  · intro f
    refine (hremoved f).trans ⟨?_, ?_⟩
    · rintro (hf | ⟨cf, -, hf⟩)
      · cases hf
      · exact ⟨cf, hf⟩
    · rintro ⟨cf, hf⟩
      by_cases hcf : cf ∈ s.columnFamilies.keys
      · exact Or.inr ⟨cf, hcf, hf⟩
      · rw [hmissing hcf, handedBy] at hf
        split_ifs at hf
        · cases hf
        · cases hf
  · intro c
    refine (hleft c).trans ?_
    split_ifs with hc
    · rfl
    · rw [hmissing hc, leftOf]
      split_ifs
      · rfl
      · rfl

end BlobFileSet

namespace Journal

variable {j : Journal} {edit : VersionEdit BlobFileMeta}

/-- Every file of a storage that is gone has been handed out. -/
def NoLeak (j : Journal) : Prop :=
  ∀ f cf, (f, cf) ∈ j.owner → j.set.columnFamilies.lookup cf = none → f ∈ j.handed.map (·.file)

/-- Every file of a storage that is there is still in it or has been handed out. -/
def Accounted (j : Journal) : Prop :=
  ∀ f cf st, (f, cf) ∈ j.owner → j.set.columnFamilies.lookup cf = some st →
    (st.files.lookup f).isSome ∨ f ∈ j.handed.map (·.file)

/-- The storage has a file that is not on its list of obsolete files. -/
def Unlisted (st : BlobStorage) : Prop := ∃ f ∈ st.files.keys, f ∉ st.obsoleteFiles.map (·.1)

/-- The call destroys or purges the column family so that its list of obsolete files is empty
afterwards. -/
def Call.Finishes (j : Journal) (cf : UInt32) (st : BlobStorage) : Call → Prop
  | .maybeDestroyColumnFamily c => c = cf ∧ st.obsoleteFiles = []
  | .getObsoleteFiles oldestSequence =>
    cf ∉ j.set.obsoleteColumns ∧ st.destroyed = true ∧ ∀ p ∈ st.obsoleteFiles, p.2 < oldestSequence
  | _ => False

/-- No storage that the call finishes has a file off its list. -/
def Call.Careful (j : Journal) (c : Call) : Prop :=
  ∀ cf st, j.set.columnFamilies.lookup cf = some st → c.Finishes j cf st → ¬Unlisted st

/-! ## Installing files -/

theorem Accounted.applied (h : j.Accounted) {set : BlobFileSet} {st st' : BlobStorage}
    (hst : j.set.columnFamilies.lookup edit.columnFamilyId = some st)
    (hst' : AppliedExactly edit st st')
    (hset : set.columnFamilies = j.set.columnFamilies.insert edit.columnFamilyId st') :
    (j.applied edit set).Accounted := by
  intro f cf other howner hother
  change set.columnFamilies.lookup cf = some other at hother
  rw [hset] at hother
  by_cases hcf : cf = edit.columnFamilyId
  · rw [hcf, AList.lookup_insert] at hother
    obtain rfl := Option.some.inj hother
    rcases List.mem_append.mp howner with howner | hnew
    · rcases h f cf st howner (hcf ▸ hst) with hsome | hhanded
      · refine Or.inl ?_
        rcases fate_of_applied hst' f with ⟨-, hnone, -⟩ | ⟨-, old, -, -, hnow⟩ | ⟨-, hsame⟩
        · rw [hnone] at hsome
          cases hsome
        · rw [hnow]
          rfl
        · rw [hsame]
          exact hsome
      · exact Or.inr hhanded
    · obtain ⟨file, hfile, heq⟩ := List.mem_map.mp hnew
      obtain ⟨hadded, hdeleted⟩ := mem_newFiles.mp hfile
      rw [← (Prod.mk.inj heq).1, (hst'.added file hadded hdeleted).2]
      exact Or.inl rfl
  · rw [AList.lookup_insert_ne hcf] at hother
    rcases List.mem_append.mp howner with howner | hnew
    · exact h f cf other howner hother
    · obtain ⟨file, -, heq⟩ := List.mem_map.mp hnew
      exact absurd (Prod.mk.inj heq).2.symm hcf

theorem NoLeak.applied (h : j.NoLeak) {set : BlobFileSet} {st' : BlobStorage}
    (hset : set.columnFamilies = j.set.columnFamilies.insert edit.columnFamilyId st') :
    (j.applied edit set).NoLeak := by
  intro f cf howner hnone
  change set.columnFamilies.lookup cf = none at hnone
  rw [hset] at hnone
  by_cases hcf : cf = edit.columnFamilyId
  · rw [hcf, AList.lookup_insert] at hnone
    cases hnone
  · rw [AList.lookup_insert_ne hcf] at hnone
    rcases List.mem_append.mp howner with howner | hnew
    · exact h f cf howner hnone
    · obtain ⟨file, -, heq⟩ := List.mem_map.mp hnew
      exact absurd (Prod.mk.inj heq).2.symm hcf

/-- The two together, which installing files and dropping column families keep. -/
structure Kept (j : Journal) : Prop where
  accounted : j.Accounted
  noLeak : j.NoLeak

theorem Kept.logAndApply (h : j.Kept) (edit : VersionEdit BlobFileMeta) (io : ManifestIO) :
    (j.logAndApply edit io).Kept := by
  rw [Journal.logAndApply]
  dsimp only
  rcases BlobFileSet.logAndApply_cases j.set edit io with ⟨hfail, hset, -⟩ | ⟨-, -, -, hfail, hset⟩ |
    ⟨-, -, -, hok, storages, happlies, hset⟩
  · rw [if_neg (by simp [hfail]), hset]
    exact h
  · rw [if_neg (by simp [hfail]), hset]
    exact ⟨h.accounted, h.noLeak⟩
  · rw [hset]
    cases happlies with
    | unknown hnone =>
        rw [if_neg (by simp [hnone])]
        exact ⟨h.accounted, h.noLeak⟩
    | known hst hst' =>
        rw [if_pos ⟨hok, by rw [hst]; rfl⟩]
        exact ⟨h.accounted.applied hst hst' rfl, h.noLeak.applied rfl⟩

theorem Kept.dropLoop (h : j.Kept) (obsoleteSequence : ℕ) (cfs : List (UInt32 × ManifestIO)) :
    (dropLoop obsoleteSequence j cfs).Kept := by
  induction cfs generalizing j with
  | nil => exact h
  | cons c cfs ih =>
      obtain ⟨cf, io⟩ := c
      rw [Journal.dropLoop]
      split
      · exact h
      · rename_i st hst
        have hdrop := h.logAndApply (BlobFileSet.dropEdit cf st obsoleteSequence) io
        dsimp only
        split_ifs
        · exact hdrop
        · exact ih ⟨hdrop.accounted, hdrop.noLeak⟩

theorem Kept.dropColumnFamilies (h : j.Kept) (cfs : List (UInt32 × ManifestIO)) (obsoleteSequence : ℕ) :
    (j.call (.dropColumnFamilies cfs obsoleteSequence)).Kept := by
  have hloop := h.dropLoop obsoleteSequence cfs
  rw [call]
  split_ifs
  · exact ⟨hloop.accounted, hloop.noLeak⟩
  · exact hloop

/-! ## Destroying -/

theorem lookup_maybeDestroy (s : BlobFileSet) (cf c : UInt32) :
    (s.maybeDestroyColumnFamily cf).2.columnFamilies.lookup c =
      if c = cf then (s.columnFamilies.lookup cf).bind fun st =>
        if st.obsoleteFiles = [] then none else some { st with destroyed := true }
      else s.columnFamilies.lookup c := by
  rw [BlobFileSet.maybeDestroyColumnFamily]
  dsimp only
  cases hst : s.columnFamilies.lookup cf with
  | none =>
      dsimp only
      split_ifs with hc
      · rw [hc]
        exact hst
      · rfl
  | some st =>
      have hremove : ({ st with destroyed := true } : BlobStorage).maybeRemove = true ↔
          st.obsoleteFiles = [] := by
        rw [BlobStorage.maybeRemove, Bool.true_and]
        exact List.isEmpty_iff
      dsimp only [Option.bind_some]
      by_cases hempty : st.obsoleteFiles = []
      · rw [if_pos (hremove.mpr hempty), if_pos hempty]
        split_ifs with hc
        · rw [hc, AList.lookup_erase]
        · exact AList.lookup_erase_ne hc
      · rw [if_neg fun h => hempty (hremove.mp h), if_neg hempty]
        split_ifs with hc
        · rw [hc, AList.lookup_insert]
        · exact AList.lookup_insert_ne hc

theorem Accounted.maybeDestroyColumnFamily (h : j.Accounted) (cf : UInt32) :
    (j.call (.maybeDestroyColumnFamily cf)).Accounted := by
  intro f c st howner hst
  change (j.set.maybeDestroyColumnFamily cf).2.columnFamilies.lookup c = some st at hst
  rw [lookup_maybeDestroy] at hst
  split_ifs at hst with hc
  · obtain ⟨old, hold, hleft⟩ := Option.bind_eq_some_iff.mp hst
    split_ifs at hleft
    obtain rfl := Option.some.inj hleft
    exact h f c old howner (hc ▸ hold)
  · exact h f c st howner hst

/-- The file is in no storage that is there, and was not handed out before. -/
theorem Inv.not_handed (h : j.Inv) {cf : UInt32} {st : BlobStorage}
    (hst : j.set.columnFamilies.lookup cf = some st) {f : UInt64} (hf : f ∈ st.files.keys) :
    (f, cf) ∈ j.owner ∧ f ∉ j.handed.map (·.file) := by
  obtain ⟨file, hfile⟩ := Option.isSome_iff_exists.mp (AList.lookup_isSome.mpr (AList.mem_keys.mpr hf))
  refine ⟨(h.column cf st hst).owned f file hfile, fun hhanded => ?_⟩
  obtain ⟨g, hg, rfl⟩ := List.mem_map.mp hhanded
  cases ((h.column cf st hst).gone g hg).symm.trans hfile

theorem noLeak_maybeDestroy_iff (h : j.Inv) (hk : j.Kept) (cf : UInt32) :
    (j.call (.maybeDestroyColumnFamily cf)).NoLeak ↔ (Call.maybeDestroyColumnFamily cf).Careful j := by
  constructor
  · rintro hleak c st hst ⟨rfl, hempty⟩ ⟨f, hf, -⟩
    obtain ⟨howner, hnot⟩ := h.not_handed hst hf
    refine hnot (hleak f cf howner ?_)
    change (j.set.maybeDestroyColumnFamily cf).2.columnFamilies.lookup cf = none
    rw [lookup_maybeDestroy, if_pos rfl, hst, Option.bind_some, if_pos hempty]
  · intro hcareful f c howner hnone
    change (j.set.maybeDestroyColumnFamily cf).2.columnFamilies.lookup c = none at hnone
    rw [lookup_maybeDestroy] at hnone
    split_ifs at hnone with hc
    · rw [← hc] at hnone
      cases hst : j.set.columnFamilies.lookup c with
      | none => exact hk.noLeak f c howner hst
      | some st =>
          rw [hst, Option.bind_some] at hnone
          split_ifs at hnone with hempty
          rcases hk.accounted f c st howner hst with hsome | hhanded
          · refine absurd ⟨f, AList.mem_keys.mp (AList.lookup_isSome.mp hsome), ?_⟩
              (hcareful c st hst ⟨hc.symm, hempty⟩)
            rw [hempty]
            exact fun hf => (by cases hf)
          · exact hhanded
    · exact hk.noLeak f c howner hnone

/-! ## Purging -/

theorem destroyed_getObsoleteFiles (st : BlobStorage) (oldestSequence : ℕ) :
    (st.getObsoleteFiles oldestSequence).2.destroyed = st.destroyed := by
  have hfold : ∀ (removed : List UInt64) (st : BlobStorage),
      (removed.foldl BlobStorage.removeFile st).destroyed = st.destroyed := by
    intro removed
    induction removed with
    | nil => exact fun _ => rfl
    | cons n removed ih =>
        intro st
        rw [List.foldl_cons, ih, BlobStorage.removeFile]
        split <;> rfl
  exact hfold _ st

/-- A purge leaves an empty list when all sequences on it are below the oldest one. -/
theorem maybeRemove_getObsoleteFiles (st : BlobStorage) (oldestSequence : ℕ) :
    (st.getObsoleteFiles oldestSequence).2.maybeRemove = true ↔
      st.destroyed = true ∧ ∀ p ∈ st.obsoleteFiles, p.2 < oldestSequence := by
  rw [BlobStorage.maybeRemove, Bool.and_eq_true, destroyed_getObsoleteFiles]
  refine and_congr_right fun _ => ?_
  rw [List.isEmpty_iff]
  change (st.obsoleteFiles.filter fun p => !decide (p.2 < oldestSequence)) = [] ↔ _
  rw [List.filter_eq_nil_iff]
  simp

variable {oldestSequence : ℕ}

theorem mem_handed_getObsoleteFiles {f : UInt64} :
    f ∈ (j.call (.getObsoleteFiles oldestSequence)).handed.map (·.file) ↔
      f ∈ j.handed.map (·.file) ∨
        ∃ cf, f ∈ j.set.handedBy oldestSequence cf (j.set.columnFamilies.lookup cf) := by
  rw [call, List.map_append, List.mem_append, List.map_map]
  have hid : ((fun g : Handout => g.file) ∘ fun f => (⟨f, oldestSequence, j.dropped⟩ : Handout)) =
      id := rfl
  rw [hid, List.map_id, (j.set.getObsoleteFiles_spec oldestSequence).1]

theorem mem_handedBy {cf : UInt32} {st : BlobStorage} (hcf : cf ∉ j.set.obsoleteColumns) {f : UInt64} :
    f ∈ j.set.handedBy oldestSequence cf (some st) ↔
      f ∈ (purgeable st oldestSequence).map (·.1) := by
  rw [BlobFileSet.handedBy, if_neg hcf]
  rfl

theorem Accounted.getObsoleteFiles (h : j.Accounted) (oldestSequence : ℕ) :
    (j.call (.getObsoleteFiles oldestSequence)).Accounted := by
  intro f c st howner hst
  change (j.set.getObsoleteFiles oldestSequence).2.columnFamilies.lookup c = some st at hst
  rw [(j.set.getObsoleteFiles_spec oldestSequence).2, BlobFileSet.leftOf] at hst
  rw [mem_handed_getObsoleteFiles]
  split_ifs at hst with hblocked
  · exact (h f c st howner hst).imp id Or.inl
  · obtain ⟨old, hold, hleft⟩ := Option.bind_eq_some_iff.mp hst
    split_ifs at hleft
    obtain rfl := Option.some.inj hleft
    rcases h f c old howner hold with hsome | hhanded
    · by_cases hmem : f ∈ (purgeable old oldestSequence).map (·.1)
      · refine Or.inr (Or.inr ⟨c, ?_⟩)
        rw [hold]
        exact (mem_handedBy hblocked).mpr hmem
      · rw [lookup_getObsoleteFiles_other hmem]
        exact Or.inl hsome
    · exact Or.inr (Or.inl hhanded)

theorem noLeak_getObsoleteFiles_iff (h : j.Inv) (hk : j.Kept) (oldestSequence : ℕ) :
    (j.call (.getObsoleteFiles oldestSequence)).NoLeak ↔
      (Call.getObsoleteFiles oldestSequence).Careful j := by
  constructor
  · rintro hleak cf st hst ⟨hblocked, hdestroyed, hall⟩ ⟨f, hf, hunlisted⟩
    obtain ⟨howner, hnot⟩ := h.not_handed hst hf
    have hgone : (j.call (.getObsoleteFiles oldestSequence)).set.columnFamilies.lookup cf = none := by
      change (j.set.getObsoleteFiles oldestSequence).2.columnFamilies.lookup cf = none
      rw [(j.set.getObsoleteFiles_spec oldestSequence).2, BlobFileSet.leftOf, if_neg hblocked, hst,
        Option.bind_some, if_pos ((maybeRemove_getObsoleteFiles st oldestSequence).mpr ⟨hdestroyed, hall⟩)]
    rcases mem_handed_getObsoleteFiles.mp (hleak f cf howner hgone) with hhanded | ⟨c, hc⟩
    · exact hnot hhanded
    · -- another column family cannot hand out a file of this one
      cases hother : j.set.columnFamilies.lookup c with
      | none =>
          rw [hother, BlobFileSet.handedBy] at hc
          split_ifs at hc
          · cases hc
          · cases hc
      | some other =>
          rw [hother] at hc
          have hcolumn : c ∉ j.set.obsoleteColumns := by
            intro hblocked'
            rw [BlobFileSet.handedBy, if_pos hblocked'] at hc
            cases hc
          obtain ⟨p, hp, rfl⟩ := List.mem_map.mp ((mem_handedBy hcolumn).mp hc)
          have hp := (mem_purgeable.mp hp).1
          obtain ⟨-, file, hfile, -⟩ := (h.column c other hother).marked p hp
          obtain rfl := h.owner_unique ((h.column c other hother).owned p.1 file hfile) howner
          obtain rfl := Option.some.inj (hother.symm.trans hst)
          exact hunlisted (List.mem_map_of_mem hp)
  · intro hcareful f c howner hnone
    change (j.set.getObsoleteFiles oldestSequence).2.columnFamilies.lookup c = none at hnone
    rw [(j.set.getObsoleteFiles_spec oldestSequence).2, BlobFileSet.leftOf] at hnone
    rw [mem_handed_getObsoleteFiles]
    cases hst : j.set.columnFamilies.lookup c with
    | none => exact Or.inl (hk.noLeak f c howner hst)
    | some st =>
        rw [hst] at hnone
        split_ifs at hnone with hblocked
        rw [Option.bind_some] at hnone
        split_ifs at hnone with hremove
        obtain ⟨hdestroyed, hall⟩ := (maybeRemove_getObsoleteFiles st oldestSequence).mp hremove
        rcases hk.accounted f c st howner hst with hsome | hhanded
        · have hlisted : f ∈ st.obsoleteFiles.map (·.1) := by
            by_contra hunlisted
            exact hcareful c st hst ⟨hblocked, hdestroyed, hall⟩
              ⟨f, AList.mem_keys.mp (AList.lookup_isSome.mp hsome), hunlisted⟩
          obtain ⟨p, hp, rfl⟩ := List.mem_map.mp hlisted
          refine Or.inr ⟨c, ?_⟩
          rw [hst]
          exact (mem_handedBy hblocked).mpr
            (List.mem_map_of_mem (mem_purgeable.mpr ⟨hp, hall p hp⟩))
        · exact Or.inl hhanded

/-! ## Whole runs -/

theorem noLeak_call_iff (h : j.Inv) (hk : j.Kept) (c : Call) : (j.call c).NoLeak ↔ c.Careful j := by
  cases c with
  | logAndApply edit io =>
      exact iff_of_true (hk.logAndApply edit io).noLeak fun _ _ _ hfinishes => hfinishes.elim
  | dropColumnFamilies cfs obsoleteSequence =>
      exact iff_of_true (hk.dropColumnFamilies cfs obsoleteSequence).noLeak
        fun _ _ _ hfinishes => hfinishes.elim
  | maybeDestroyColumnFamily cf => exact noLeak_maybeDestroy_iff h hk cf
  | getObsoleteFiles oldestSequence => exact noLeak_getObsoleteFiles_iff h hk oldestSequence

theorem Kept.accounted_call (hk : j.Kept) (c : Call) : (j.call c).Accounted := by
  cases c with
  | logAndApply edit io => exact (hk.logAndApply edit io).accounted
  | dropColumnFamilies cfs obsoleteSequence =>
      exact (hk.dropColumnFamilies cfs obsoleteSequence).accounted
  | maybeDestroyColumnFamily cf => exact hk.accounted.maybeDestroyColumnFamily cf
  | getObsoleteFiles oldestSequence => exact hk.accounted.getObsoleteFiles oldestSequence

def CarefulRun : Journal → List Call → Prop
  | _, [] => True
  | j, c :: calls => c.Careful j ∧ CarefulRun (j.call c) calls

theorem neverLeaks_iff (h : j.Inv) (hk : j.Kept) {calls : List Call} (hcalls : NumberedRun j calls) :
    (∀ pre, pre <+: calls → (j.run pre).NoLeak) ↔ CarefulRun j calls := by
  induction calls generalizing j with
  | nil =>
      refine iff_of_true (fun pre hpre => ?_) trivial
      rw [List.prefix_nil.mp hpre]
      exact hk.noLeak
  | cons c calls ih =>
      have hstep := noLeak_call_iff h hk c
      constructor
      · intro hall
        have hnext : (j.call c).NoLeak := hall [c] ⟨calls, rfl⟩
        refine ⟨hstep.mp hnext, (ih (h.call hcalls.1) ⟨hk.accounted_call c, hnext⟩ hcalls.2).mp ?_⟩
        exact fun pre hpre => hall (c :: pre) (List.cons_prefix_cons.mpr ⟨rfl, hpre⟩)
      · rintro ⟨hcareful, hrest⟩ pre hpre
        have hkept : (j.call c).Kept := ⟨hk.accounted_call c, hstep.mpr hcareful⟩
        cases pre with
        | nil => exact hk.noLeak
        | cons c' pre =>
            obtain ⟨rfl, htail⟩ := List.cons_prefix_cons.mp hpre
            exact (ih (h.call hcalls.1) hkept hcalls.2).mpr hrest pre htail

theorem kept_opened (s : BlobFileSet) : (opened s).Kept := by
  have hthere : ∀ f cf, (f, cf) ∈ (opened s).owner →
      ∃ st, s.columnFamilies.lookup cf = some st ∧ (st.files.lookup f).isSome := by
    intro f cf howner
    obtain ⟨e, he, hf⟩ := List.mem_flatMap.mp howner
    obtain ⟨g, hg, heq⟩ := List.mem_map.mp hf
    obtain ⟨rfl, rfl⟩ := Prod.mk.inj heq
    exact ⟨e.2, AList.mem_lookup_iff.mpr he, AList.lookup_isSome.mpr (AList.mem_keys.mpr hg)⟩
  constructor
  · intro f cf st howner hst
    obtain ⟨st', hst', hsome⟩ := hthere f cf howner
    obtain rfl := Option.some.inj (hst.symm.trans hst')
    exact Or.inl hsome
  · intro f cf howner hnone
    obtain ⟨st, hst, -⟩ := hthere f cf howner
    cases hnone.symm.trans hst

/-- In a run from an opened file set nothing leaks exactly when every call that finishes a column
family finds all of its files on the list. -/
theorem dropped_noLeak_iff {s : BlobFileSet} (hs : Opened s) {calls : List Call}
    (hcalls : NumberedRun (opened s) calls) :
    (∀ pre, pre <+: calls → ((opened s).run pre).NoLeak) ↔ CarefulRun (opened s) calls :=
  neverLeaks_iff (inv_opened hs) (kept_opened s) hcalls

theorem careful_of_entries {c : Call}
    (h : ∀ e ∈ j.set.columnFamilies.entries, c.Finishes j e.1 e.2 → ¬Unlisted e.2) : c.Careful j :=
  fun cf st hst => h ⟨cf, st⟩ (AList.mem_lookup_iff.mp hst)

instance (st : BlobStorage) : Decidable (Unlisted st) :=
  inferInstanceAs (Decidable (∃ f ∈ st.files.keys, f ∉ st.obsoleteFiles.map (·.1)))

instance (j : Journal) (cf : UInt32) (st : BlobStorage) (c : Call) : Decidable (c.Finishes j cf st) :=
  match c with
  | .logAndApply _ _ => inferInstanceAs (Decidable False)
  | .dropColumnFamilies _ _ => inferInstanceAs (Decidable False)
  | .maybeDestroyColumnFamily c => inferInstanceAs (Decidable (c = cf ∧ st.obsoleteFiles = []))
  | .getObsoleteFiles oldestSequence =>
    inferInstanceAs (Decidable (cf ∉ j.set.obsoleteColumns ∧ st.destroyed = true ∧
      ∀ p ∈ st.obsoleteFiles, p.2 < oldestSequence))

/-- The second column family is dropped, destroyed and purged. -/
def dropAndPurge : List Call :=
  [.dropColumnFamilies [(1, ⟨.ok, .ok⟩)] 8, .maybeDestroyColumnFamily 1, .getObsoleteFiles 20]

theorem dropAndPurge_noLeak :
    CarefulRun (opened twoColumns) dropAndPurge ∧
      ∀ pre, pre <+: dropAndPurge → ((opened twoColumns).run pre).NoLeak := by
  have hcareful : CarefulRun (opened twoColumns) dropAndPurge :=
    ⟨careful_of_entries (by decide +kernel), careful_of_entries (by decide +kernel),
      careful_of_entries (by decide +kernel), trivial⟩
  have hnumbered : NumberedRun (opened twoColumns) dropAndPurge := ⟨trivial, trivial, trivial, trivial⟩
  exact ⟨hcareful, (dropped_noLeak_iff ⟨by decide, by decide⟩ hnumbered).mpr hcareful⟩

/-- A flush that began before the drop installs its blob file after it. -/
def installAfterDrop : List Call :=
  [.dropColumnFamilies [(1, ⟨.ok, .ok⟩)] 8, .logAndApply ⟨1, none, [(12, plainFile)], []⟩ ⟨.ok, .ok⟩,
    .maybeDestroyColumnFamily 1, .getObsoleteFiles 20]

theorem installAfterDrop_leaks :
    Opened twoColumns ∧ NumberedRun (opened twoColumns) installAfterDrop ∧
      ((opened twoColumns).run installAfterDrop).set.columnFamilies.lookup 1 = none ∧
      (12, 1) ∈ ((opened twoColumns).run installAfterDrop).owner ∧
      ((opened twoColumns).run installAfterDrop).handed.map (·.file) = [9] ∧
      ¬((opened twoColumns).run installAfterDrop).NoLeak := by
  have hgone : ((opened twoColumns).run installAfterDrop).set.columnFamilies.lookup 1 = none :=
    AList.lookup_eq_none.mpr (by decide +kernel)
  have howner : (12, 1) ∈ ((opened twoColumns).run installAfterDrop).owner := by decide +kernel
  have hhanded : ((opened twoColumns).run installAfterDrop).handed.map (·.file) = [9] := by
    decide +kernel
  have hnumbered : NumberedRun (opened twoColumns) installAfterDrop := by
    refine ⟨trivial, fun file hfile => ?_, trivial, trivial, trivial⟩
    rw [List.mem_singleton.mp hfile]
    decide +kernel
  refine ⟨⟨by decide, by decide⟩, hnumbered, hgone, howner, hhanded, fun hleak => ?_⟩
  have hlost := hleak 12 1 howner hgone
  rw [hhanded] at hlost
  exact absurd hlost (by decide)

end Journal
end AegonKV
