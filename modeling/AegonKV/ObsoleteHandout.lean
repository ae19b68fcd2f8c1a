import AegonKV.StorageInvariant

/-!
# Handing out obsolete files

`BlobFileSet::GetObsoleteFiles` hands the files it removes to the purge, which deletes them. A
`Journal` keeps a file set together with what its calls have said so far: the files that were added
and their column family, the files made obsolete and with which sequence, the column families that
are dropped and not destroyed, and the files handed out.
-/

namespace AegonKV

/-- A file of a returned list: the argument of the call, and the column families that were dropped
and not destroyed at the time. -/
structure Handout where
  file : UInt64
  oldestSequence : ℕ
  dropped : List UInt32
  deriving DecidableEq, Repr

/-- A column family counts as dropped from the return of a `DropColumnFamilies` that returned OK. -/
structure Journal where
  set : BlobFileSet
  owner : List (UInt64 × UInt32) := []
  made : List (UInt64 × ℕ) := []
  dropped : List UInt32 := []
  handed : List Handout := []

namespace Journal

def newFiles (edit : VersionEdit BlobFileMeta) : List (UInt64 × BlobFileMeta) :=
  (CFEditCollector.mk edit.addedFiles edit.deletedFiles).newFiles

def goneFiles (edit : VersionEdit BlobFileMeta) : List (UInt64 × ℕ) :=
  (CFEditCollector.mk edit.addedFiles edit.deletedFiles).goneFiles

/-- A call of `LogAndApply` that succeeds on a column family that is there adds and deletes files. -/
def logAndApply (j : Journal) (edit : VersionEdit BlobFileMeta) (io : ManifestIO) : Journal :=
  match j.set.logAndApply edit io with
  | (status, set) =>
    if status.isOk ∧ (j.set.columnFamilies.lookup edit.columnFamilyId).isSome then
      { j with
        set := set
        owner := j.owner ++ (newFiles edit).map fun file => (file.1, edit.columnFamilyId)
        made := j.made ++ goneFiles edit }
    else { j with set := set }

/-- The loop of `DropColumnFamilies`, with what its edits delete. -/
def dropLoop (obsoleteSequence : ℕ) (j : Journal) : List (UInt32 × ManifestIO) → Journal
  | [] => j
  | (cf, io) :: cfs =>
    match j.set.columnFamilies.lookup cf with
    | none => j
    | some st =>
      let j' := j.logAndApply (BlobFileSet.dropEdit cf st obsoleteSequence) io
      if !(j.set.logAndApply (BlobFileSet.dropEdit cf st obsoleteSequence) io).1.isOk then j'
      else
        dropLoop obsoleteSequence
          { j' with set := { j'.set with obsoleteColumns := cf :: j'.set.obsoleteColumns } } cfs

inductive Call
  | logAndApply (edit : VersionEdit BlobFileMeta) (io : ManifestIO)
  | dropColumnFamilies (cfs : List (UInt32 × ManifestIO)) (obsoleteSequence : ℕ)
  | maybeDestroyColumnFamily (cf : UInt32)
  | getObsoleteFiles (oldestSequence : ℕ)

def call (j : Journal) : Call → Journal
  | .logAndApply edit io => j.logAndApply edit io
  | .dropColumnFamilies cfs obsoleteSequence =>
    let j' := dropLoop obsoleteSequence j cfs
    -- the caller learns that the column families are dropped when the call succeeds
    if (j.set.dropColumnFamilies obsoleteSequence cfs).1.isOk then
      { j' with dropped := cfs.map (·.1) ++ j'.dropped }
    else j'
  | .maybeDestroyColumnFamily cf =>
    { j with
      set := (j.set.maybeDestroyColumnFamily cf).2
      dropped := j.dropped.filter (· != cf) }
  | .getObsoleteFiles oldestSequence =>
    { j with
      set := (j.set.getObsoleteFiles oldestSequence).2
      handed := j.handed ++ (j.set.getObsoleteFiles oldestSequence).1.1.map fun f =>
        ⟨f, oldestSequence, j.dropped⟩ }

def numbers (j : Journal) : List UInt64 := j.owner.map (·.1)

/-- New files have new numbers, which `NewFileNumber` sees to. -/
def Call.Numbered (j : Journal) : Call → Prop
  | .logAndApply edit _ => ∀ file ∈ newFiles edit, file.1 ∉ j.numbers
  | _ => True

theorem set_logAndApply (j : Journal) (edit : VersionEdit BlobFileMeta) (io : ManifestIO) :
    (j.logAndApply edit io).set = (j.set.logAndApply edit io).2 := by
  rw [logAndApply]
  dsimp only
  split_ifs
  · rfl
  · rfl

/-! ## The invariant -/

structure Column (j : Journal) (cf : UInt32) (st : BlobStorage) : Prop where
  owned : ∀ f file, st.files.lookup f = some file → (f, cf) ∈ j.owner
  nodup : (st.obsoleteFiles.map (·.1)).Nodup
  marked : ∀ p ∈ st.obsoleteFiles, p ∈ j.made ∧
    ∃ file, st.files.lookup p.1 = some file ∧ file.isObsolete = true
  live : ∀ f file, st.files.lookup f = some file → file.isObsolete = false →
    f ∉ j.made.map (·.1)
  gone : ∀ h ∈ j.handed, st.files.lookup h.file = none

structure Inv (j : Journal) : Prop where
  column : ∀ cf st, j.set.columnFamilies.lookup cf = some st → j.Column cf st
  owner_nodup : j.numbers.Nodup
  made_owned : ∀ p ∈ j.made, p.1 ∈ j.numbers
  made_nodup : (j.made.map (·.1)).Nodup
  handed_nodup : (j.handed.map (·.file)).Nodup
  handed_made : ∀ h ∈ j.handed, ∃ seq, (h.file, seq) ∈ j.made ∧ seq < h.oldestSequence
  handed_kept : ∀ h ∈ j.handed, ∀ cf, (h.file, cf) ∈ j.owner → cf ∉ h.dropped
  dropped : ∀ cf ∈ j.dropped, cf ∈ j.set.obsoleteColumns

variable {j : Journal}

/-- A file is in the storage of one column family. -/
theorem Inv.owner_unique (h : j.Inv) {f : UInt64} {cf cf' : UInt32} (hf : (f, cf) ∈ j.owner)
    (hf' : (f, cf') ∈ j.owner) : cf = cf' := by
  have hpair : (f, cf) = (f, cf') := List.inj_on_of_nodup_map h.owner_nodup hf hf' rfl
  exact (Prod.mk.inj hpair).2

/-- The same file set up to storages that agree with the old ones. -/
theorem Inv.mono (h : j.Inv) {set : BlobFileSet} {dropped : List UInt32}
    (hcolumn : ∀ cf st, set.columnFamilies.lookup cf = some st → j.Column cf st)
    (hdropped : ∀ cf ∈ dropped, cf ∈ set.obsoleteColumns) :
    ({ j with set := set, dropped := dropped } : Journal).Inv :=
  ⟨fun cf st hst =>
      let hc := hcolumn cf st hst
      ⟨hc.owned, hc.nodup, hc.marked, hc.live, hc.gone⟩,
    h.owner_nodup, h.made_owned, h.made_nodup, h.handed_nodup, h.handed_made, h.handed_kept, hdropped⟩

/-! ## LogAndApply -/

variable {edit : VersionEdit BlobFileMeta} {st st' : BlobStorage}

/-- What happens to one file number when an edit is applied. -/
inductive Fate (edit : VersionEdit BlobFileMeta) (st st' : BlobStorage) (n : UInt64) : Prop
  | new (hnew : n ∈ (newFiles edit).map (·.1)) (hnone : st.files.lookup n = none)
      (hgone : n ∉ (goneFiles edit).map (·.1))
  | marked (hgone : n ∈ (goneFiles edit).map (·.1)) (old : BlobFileMeta)
      (hold : st.files.lookup n = some old) (hlive : old.isObsolete = false)
      (hnow : st'.files.lookup n = some { old with state := .kObsolete })
  | same (hgone : n ∉ (goneFiles edit).map (·.1)) (hsame : st'.files.lookup n = st.files.lookup n)

theorem fate_of_applied (h : AppliedExactly edit st st') (n : UInt64) : Fate edit st st' n := by
  by_cases hadded : n ∈ edit.addedFiles.map (·.1)
  · have hgone : n ∉ (goneFiles edit).map (·.1) := by
      intro hmem
      obtain ⟨p, hp, rfl⟩ := List.mem_map.mp hmem
      exact (mem_goneFiles.mp hp).2 hadded
    by_cases hdeleted : n ∈ edit.deletedFiles.map (·.1)
    · exact .same hgone (h.other n (iff_of_true hadded hdeleted))
    · obtain ⟨file, hfile, rfl⟩ := List.mem_map.mp hadded
      have hnew : file ∈ newFiles edit := mem_newFiles.mpr ⟨hfile, hdeleted⟩
      exact .new (List.mem_map_of_mem hnew) (h.added file hfile hdeleted).1 hgone
  · by_cases hdeleted : n ∈ edit.deletedFiles.map (·.1)
    · obtain ⟨p, hp, rfl⟩ := List.mem_map.mp hdeleted
      obtain ⟨old, hold, hlive, hnow⟩ := h.deleted p hp hadded
      exact .marked (List.mem_map_of_mem (mem_goneFiles.mpr ⟨hp, hadded⟩)) old hold hlive hnow
    · have hgone : n ∉ (goneFiles edit).map (·.1) := by
        intro hmem
        obtain ⟨p, hp, rfl⟩ := List.mem_map.mp hmem
        exact hdeleted (List.mem_map_of_mem (mem_goneFiles.mp hp).1)
      exact .same hgone (h.other n (iff_of_false hadded hdeleted))

theorem live_of_gone (h : AppliedExactly edit st st') {p : UInt64 × ℕ} (hp : p ∈ goneFiles edit) :
    ∃ old, st.files.lookup p.1 = some old ∧ old.isObsolete = false := by
  obtain ⟨hdeleted, hadded⟩ := mem_goneFiles.mp hp
  obtain ⟨old, hold, hlive, -⟩ := h.deleted p hdeleted hadded
  exact ⟨old, hold, hlive⟩

def applied (j : Journal) (edit : VersionEdit BlobFileMeta) (set : BlobFileSet) : Journal :=
  { j with
    set := set
    owner := j.owner ++ (newFiles edit).map fun file => (file.1, edit.columnFamilyId)
    made := j.made ++ goneFiles edit }

theorem Inv.mem_numbers (h : j.Inv) {g : Handout} (hg : g ∈ j.handed) : g.file ∈ j.numbers := by
  obtain ⟨seq, hmade, -⟩ := h.handed_made g hg
  exact h.made_owned _ hmade

theorem not_new {n : UInt64} (hnew : ∀ file ∈ newFiles edit, file.1 ∉ j.numbers)
    (hn : n ∈ j.numbers) : n ∉ (newFiles edit).map (·.1) := by
  intro hmem
  obtain ⟨file, hfile, rfl⟩ := List.mem_map.mp hmem
  exact hnew file hfile hn

theorem mem_numbers_of_lookup {cf : UInt32} (hc : j.Column cf st) {f : UInt64} {file : BlobFileMeta}
    (hfile : st.files.lookup f = some file) : f ∈ j.numbers :=
  List.mem_map.mpr ⟨_, hc.owned f file hfile, rfl⟩

/-- The storage that the edit is for. -/
theorem Inv.column_applied (h : j.Inv) {set : BlobFileSet}
    (hc : j.Column edit.columnFamilyId st) (hst' : AppliedExactly edit st st')
    (hdeleted : (edit.deletedFiles.map (·.1)).Nodup)
    (hnew : ∀ file ∈ newFiles edit, file.1 ∉ j.numbers) :
    (j.applied edit set).Column edit.columnFamilyId st' := by
  refine ⟨?_, ?_, ?_, ?_, ?_⟩
  · intro f file hfile
    rcases fate_of_applied hst' f with ⟨hadded, -, -⟩ | ⟨-, old, hold, -, -⟩ | ⟨-, hsame⟩
    · obtain ⟨g, hg, rfl⟩ := List.mem_map.mp hadded
      exact List.mem_append_right _ (List.mem_map.mpr ⟨g, hg, rfl⟩)
    · exact List.mem_append_left _ (hc.owned f old hold)
    · exact List.mem_append_left _ (hc.owned f file (hsame ▸ hfile))
  · rw [hst'.obsolete, List.map_append]
    refine List.nodup_append'.mpr ⟨hc.nodup, hdeleted.sublist (List.filter_sublist.map _), ?_⟩
    intro f hf hgone
    obtain ⟨p, hp, rfl⟩ := List.mem_map.mp hf
    obtain ⟨q, hq, heq⟩ := List.mem_map.mp hgone
    obtain ⟨-, file, hfile, hobsolete⟩ := hc.marked p hp
    obtain ⟨old, hold, hlive⟩ := live_of_gone hst' hq
    have hqp : q.1 = p.1 := heq
    rw [hqp, hfile] at hold
    obtain rfl := Option.some.inj hold
    cases hobsolete.symm.trans hlive
  · intro p hp
    rw [hst'.obsolete] at hp
    rcases List.mem_append.mp hp with hp | hp
    · obtain ⟨hmade, file, hfile, hobsolete⟩ := hc.marked p hp
      refine ⟨List.mem_append_left _ hmade, file, ?_, hobsolete⟩
      rcases fate_of_applied hst' p.1 with ⟨-, hnone, -⟩ | ⟨-, old, hold, hlive, -⟩ | ⟨-, hsame⟩
      · cases hnone.symm.trans hfile
      · obtain rfl := Option.some.inj (hfile.symm.trans hold)
        cases hobsolete.symm.trans hlive
      · exact hsame.trans hfile
    · have hgone : p ∈ goneFiles edit := hp
      refine ⟨List.mem_append_right _ hgone, ?_⟩
      obtain ⟨hdel, hadd⟩ := mem_goneFiles.mp hgone
      obtain ⟨old, -, -, hnow⟩ := hst'.deleted p hdel hadd
      exact ⟨_, hnow, rfl⟩
  · intro f file hfile hlive hmade
    rw [applied, List.map_append] at hmade
    rcases fate_of_applied hst' f with ⟨hadded, -, hgone⟩ | ⟨-, old, -, -, hnow⟩ | ⟨hgone, hsame⟩
    · rcases List.mem_append.mp hmade with hmade | hmade
      · obtain ⟨p, hp, rfl⟩ := List.mem_map.mp hmade
        exact not_new hnew (h.made_owned p hp) hadded
      · exact hgone hmade
    · obtain rfl := Option.some.inj (hfile.symm.trans hnow)
      cases hlive
    · rcases List.mem_append.mp hmade with hmade | hmade
      · exact hc.live f file (hsame ▸ hfile) hlive hmade
      · exact hgone hmade
  · intro g hg
    rcases fate_of_applied hst' g.file with ⟨hadded, -, -⟩ | ⟨-, old, hold, -, -⟩ | ⟨-, hsame⟩
    · exact absurd hadded (not_new hnew (h.mem_numbers hg))
    · cases (hc.gone g hg).symm.trans hold
    · exact hsame.trans (hc.gone g hg)

/-- The storages that the edit is not for. -/
theorem Inv.column_other (h : j.Inv) {set : BlobFileSet} {cf : UInt32} {other : BlobStorage}
    (hc : j.Column edit.columnFamilyId st) (hst' : AppliedExactly edit st st')
    (ho : j.Column cf other) (hne : cf ≠ edit.columnFamilyId) :
    (j.applied edit set).Column cf other := by
  refine ⟨fun f file hfile => List.mem_append_left _ (ho.owned f file hfile), ho.nodup,
    fun p hp => ⟨List.mem_append_left _ (ho.marked p hp).1, (ho.marked p hp).2⟩, ?_, ho.gone⟩
  intro f file hfile hlive hmade
  rw [applied, List.map_append] at hmade
  rcases List.mem_append.mp hmade with hmade | hmade
  · exact ho.live f file hfile hlive hmade
  · obtain ⟨p, hp, rfl⟩ := List.mem_map.mp hmade
    obtain ⟨old, hold, -⟩ := live_of_gone hst' hp
    exact hne (h.owner_unique (ho.owned p.1 file hfile) (hc.owned p.1 old hold))

theorem Inv.applied (h : j.Inv) {set : BlobFileSet}
    (hst : j.set.columnFamilies.lookup edit.columnFamilyId = some st)
    (hst' : AppliedExactly edit st st')
    (hset : set.columnFamilies = j.set.columnFamilies.insert edit.columnFamilyId st')
    (hcolumns : set.obsoleteColumns = j.set.obsoleteColumns)
    (hadded : (edit.addedFiles.map (·.1)).Nodup) (hdeleted : (edit.deletedFiles.map (·.1)).Nodup)
    (hnew : ∀ file ∈ newFiles edit, file.1 ∉ j.numbers) : (j.applied edit set).Inv := by
  have hc := h.column _ st hst
  have hnumbers : (j.applied edit set).numbers = j.numbers ++ (newFiles edit).map (·.1) := by
    rw [numbers, Journal.applied, List.map_append, List.map_map]
    rfl
  refine ⟨?_, ?_, ?_, ?_, h.handed_nodup, ?_, ?_, fun cf hcf => hcolumns ▸ h.dropped cf hcf⟩
  · intro cf other hother
    change set.columnFamilies.lookup cf = some other at hother
    rw [hset] at hother
    by_cases hcf : cf = edit.columnFamilyId
    · rw [hcf, AList.lookup_insert] at hother
      obtain rfl := Option.some.inj hother
      rw [hcf]
      exact h.column_applied hc hst' hdeleted hnew
    · rw [AList.lookup_insert_ne hcf] at hother
      exact h.column_other hc hst' (h.column cf other hother) hcf
  · rw [hnumbers]
    refine List.nodup_append'.mpr ⟨h.owner_nodup, newFiles_nodup hadded, fun n hn hmem => ?_⟩
    exact not_new hnew hn hmem
  · intro p hp
    rw [hnumbers]
    rcases List.mem_append.mp hp with hp | hp
    · exact List.mem_append_left _ (h.made_owned p hp)
    · obtain ⟨old, hold, -⟩ := live_of_gone hst' hp
      exact List.mem_append_left _ (mem_numbers_of_lookup hc hold)
  · rw [Journal.applied, List.map_append]
    refine List.nodup_append'.mpr
      ⟨h.made_nodup, hdeleted.sublist (List.filter_sublist.map _), fun f hf hgone => ?_⟩
    obtain ⟨p, hp, rfl⟩ := List.mem_map.mp hgone
    obtain ⟨old, hold, hlive⟩ := live_of_gone hst' hp
    exact hc.live p.1 old hold hlive hf
  · intro g hg
    obtain ⟨seq, hmade, hlt⟩ := h.handed_made g hg
    exact ⟨seq, List.mem_append_left _ hmade, hlt⟩
  · intro g hg cf hcf
    rcases List.mem_append.mp hcf with hcf | hcf
    · exact h.handed_kept g hg cf hcf
    · obtain ⟨file, hfile, heq⟩ := List.mem_map.mp hcf
      exact absurd ((Prod.mk.inj heq).1 ▸ h.mem_numbers hg) (hnew file hfile)

theorem nodup_of_accepts {s : BlobFileSet} (h : s.accepts edit) :
    (edit.addedFiles.map (·.1)).Nodup ∧ (edit.deletedFiles.map (·.1)).Nodup := by
  obtain ⟨c, hc, -⟩ := h
  exact (addEdit_empty hc).2

theorem Inv.logAndApply (h : j.Inv) (io : ManifestIO)
    (hnew : ∀ file ∈ newFiles edit, file.1 ∉ j.numbers) : (j.logAndApply edit io).Inv := by
  have hunchanged {set : BlobFileSet} (hset : set.columnFamilies = j.set.columnFamilies)
      (hcolumns : set.obsoleteColumns = j.set.obsoleteColumns) :
      ({ j with set := set } : Journal).Inv := by
    refine h.mono (fun cf st hst => h.column cf st ?_) fun cf hcf => hcolumns ▸ h.dropped cf hcf
    rw [← hset]
    exact hst
  rw [Journal.logAndApply]
  dsimp only
  rcases BlobFileSet.logAndApply_cases j.set edit io with ⟨hfail, hset, -⟩ | ⟨-, -, -, hfail, hset⟩ |
    ⟨haccepts, -, -, hok, storages, happlies, hset⟩
  · rw [if_neg (by simp [hfail]), hset]
    exact h
  · rw [if_neg (by simp [hfail]), hset]
    exact hunchanged rfl rfl
  · obtain ⟨hadded, hdeleted⟩ := nodup_of_accepts haccepts
    rw [hset]
    cases happlies with
    | unknown hnone =>
        rw [if_neg (by simp [hnone])]
        exact hunchanged rfl rfl
    | known hst hst' =>
        rw [if_pos ⟨hok, by rw [hst]; rfl⟩]
        exact h.applied hst hst' rfl rfl hadded hdeleted hnew

theorem obsoleteColumns_logAndApply (s : BlobFileSet) (edit : VersionEdit BlobFileMeta)
    (io : ManifestIO) : (s.logAndApply edit io).2.obsoleteColumns = s.obsoleteColumns := by
  rcases BlobFileSet.logAndApply_cases s edit io with ⟨-, hset, -⟩ | ⟨-, -, -, -, hset⟩ |
    ⟨-, -, -, -, storages, -, hset⟩
  · rw [hset]
  · rw [hset]
    rfl
  · rw [hset]
    rfl

/-! ## Column families -/

theorem dropped_logAndApply (j : Journal) (edit : VersionEdit BlobFileMeta) (io : ManifestIO) :
    (j.logAndApply edit io).dropped = j.dropped := by
  rw [logAndApply]
  dsimp only
  split_ifs
  · rfl
  · rfl

theorem Inv.block (h : j.Inv) (cf : UInt32) :
    ({ j with set := { j.set with obsoleteColumns := cf :: j.set.obsoleteColumns } } : Journal).Inv :=
  h.mono h.column fun c hc => List.mem_cons_of_mem _ (h.dropped c hc)

theorem Inv.dropLoop (h : j.Inv) (obsoleteSequence : ℕ) (cfs : List (UInt32 × ManifestIO)) :
    (dropLoop obsoleteSequence j cfs).Inv := by
  induction cfs generalizing j with
  | nil => exact h
  | cons c cfs ih =>
      obtain ⟨cf, io⟩ := c
      rw [Journal.dropLoop]
      split
      · exact h
      · rename_i st hst
        have hdrop : (j.logAndApply (BlobFileSet.dropEdit cf st obsoleteSequence) io).Inv :=
          h.logAndApply io fun file hfile => (by cases hfile)
        dsimp only
        split_ifs
        · exact hdrop
        · exact ih (hdrop.block cf)

/-- The loop only adds to the blocked column families, and a call that succeeds adds all of its. -/
theorem obsoleteColumns_dropLoop (obsoleteSequence : ℕ) (cfs : List (UInt32 × ManifestIO))
    (j : Journal) :
    (∀ cf ∈ j.set.obsoleteColumns, cf ∈ (dropLoop obsoleteSequence j cfs).set.obsoleteColumns) ∧
      ((j.set.dropColumnFamilies obsoleteSequence cfs).1.isOk = true →
        ∀ cf ∈ cfs.map (·.1), cf ∈ (dropLoop obsoleteSequence j cfs).set.obsoleteColumns) ∧
      (dropLoop obsoleteSequence j cfs).dropped = j.dropped := by
  induction cfs generalizing j with
  | nil => exact ⟨fun _ h => h, fun _ _ h => (by cases h), rfl⟩
  | cons c cfs ih =>
      obtain ⟨cf, io⟩ := c
      cases hst : j.set.columnFamilies.lookup cf with
      | none =>
        simp only [dropLoop, BlobFileSet.dropColumnFamilies, hst]
        exact ⟨fun _ h => h, fun hok => (by cases hok), trivial⟩
      | some st =>
        simp only [dropLoop, BlobFileSet.dropColumnFamilies, hst]
        have hcolumns : (j.logAndApply (BlobFileSet.dropEdit cf st obsoleteSequence) io).set.obsoleteColumns
            = j.set.obsoleteColumns := by
          rw [set_logAndApply, obsoleteColumns_logAndApply]
        split_ifs with hfail
        · refine ⟨fun c hc => hcolumns ▸ hc, fun hok => ?_, dropped_logAndApply j _ io⟩
          rw [hok] at hfail
          cases hfail
        · obtain ⟨hkeeps, hadds, hdropped⟩ := ih
            { j.logAndApply (BlobFileSet.dropEdit cf st obsoleteSequence) io with
              set := { (j.logAndApply (BlobFileSet.dropEdit cf st obsoleteSequence) io).set with
                obsoleteColumns := cf ::
                  (j.logAndApply (BlobFileSet.dropEdit cf st obsoleteSequence) io).set.obsoleteColumns } }
          refine ⟨fun c hc => hkeeps c (List.mem_cons_of_mem _ (hcolumns ▸ hc)), fun hok c hc => ?_,
            hdropped.trans (dropped_logAndApply j _ io)⟩
          rcases List.mem_cons.mp hc with rfl | hc
          · exact hkeeps _ List.mem_cons_self
          · refine hadds ?_ c hc
            simpa only [set_logAndApply] using hok

theorem Inv.dropColumnFamilies (h : j.Inv) (cfs : List (UInt32 × ManifestIO)) (obsoleteSequence : ℕ) :
    (j.call (.dropColumnFamilies cfs obsoleteSequence)).Inv := by
  obtain ⟨-, hadds, -⟩ := obsoleteColumns_dropLoop obsoleteSequence cfs j
  have hloop := h.dropLoop obsoleteSequence cfs
  rw [call]
  split_ifs with hok
  · refine hloop.mono hloop.column fun cf hcf => ?_
    rcases List.mem_append.mp hcf with hcf | hcf
    · exact hadds hok cf hcf
    · exact hloop.dropped cf hcf
  · exact hloop

theorem Inv.maybeDestroyColumnFamily (h : j.Inv) (cf : UInt32) :
    (j.call (.maybeDestroyColumnFamily cf)).Inv := by
  have hcolumns : (j.set.maybeDestroyColumnFamily cf).2.obsoleteColumns =
      j.set.obsoleteColumns.filter (· != cf) := by
    rw [BlobFileSet.maybeDestroyColumnFamily]
    split <;> rfl
  refine h.mono ?_ fun c hc => ?_
  · intro c st hst
    rw [BlobFileSet.maybeDestroyColumnFamily] at hst
    dsimp only at hst
    split at hst
    · exact h.column c st hst
    · rename_i old hold
      have hdestroyed : j.Column cf { old with destroyed := true } := by
        have hc := h.column cf old hold
        exact ⟨hc.owned, hc.nodup, hc.marked, hc.live, hc.gone⟩
      dsimp only at hst
      split_ifs at hst
      · by_cases hcf : c = cf
        · rw [hcf, AList.lookup_erase] at hst
          cases hst
        · rw [AList.lookup_erase_ne hcf] at hst
          exact h.column c st hst
      · by_cases hcf : c = cf
        · rw [hcf, AList.lookup_insert] at hst
          obtain rfl := Option.some.inj hst
          rw [hcf]
          exact hdestroyed
        · rw [AList.lookup_insert_ne hcf] at hst
          exact h.column c st hst
  · obtain ⟨hc, hne⟩ := List.mem_filter.mp hc
    rw [hcolumns]
    exact List.mem_filter.mpr ⟨h.dropped c hc, hne⟩

/-! ## GetObsoleteFiles -/

theorem lookup_foldl_removeFile_mem {removed : List UInt64} {f : UInt64} (hf : f ∈ removed)
    (st : BlobStorage) : (removed.foldl BlobStorage.removeFile st).files.lookup f = none := by
  have hnone (st : BlobStorage) (n : UInt64) : (st.removeFile n).files.lookup n = none := by
    rw [BlobStorage.removeFile]
    split
    · assumption
    · exact AList.lookup_erase _ _
  induction removed generalizing st with
  | nil => cases hf
  | cons n removed ih =>
      by_cases hmem : f ∈ removed
      · exact ih hmem _
      · have heq : f = n := (List.mem_cons.mp hf).resolve_right hmem
        rw [List.foldl_cons, (BlobStorage.foldl_removeFile_frame removed _).2.2 f hmem, heq]
        exact hnone st n

def purgeable (st : BlobStorage) (oldestSequence : ℕ) : List (UInt64 × ℕ) :=
  st.obsoleteFiles.filter fun p => p.2 < oldestSequence

/-- The journal when the storage of a column family has handed out its files. -/
def purged (j : Journal) (oldestSequence : ℕ) (removed : List UInt64) (storages : BlobStorages) :
    Journal :=
  { j with
    set := { j.set with columnFamilies := storages }
    handed := j.handed ++ removed.map fun f => ⟨f, oldestSequence, j.dropped⟩ }

theorem mem_purgeable {oldestSequence : ℕ} {p : UInt64 × ℕ} :
    p ∈ purgeable st oldestSequence ↔ p ∈ st.obsoleteFiles ∧ p.2 < oldestSequence := by
  simp only [purgeable, List.mem_filter, decide_eq_true_eq]

theorem lookup_getObsoleteFiles_mem {oldestSequence : ℕ} {p : UInt64 × ℕ}
    (hp : p ∈ purgeable st oldestSequence) :
    (st.getObsoleteFiles oldestSequence).2.files.lookup p.1 = none :=
  lookup_foldl_removeFile_mem (List.mem_map_of_mem hp) st

theorem lookup_getObsoleteFiles_other {oldestSequence : ℕ} {f : UInt64}
    (hf : f ∉ (purgeable st oldestSequence).map (·.1)) :
    (st.getObsoleteFiles oldestSequence).2.files.lookup f = st.files.lookup f :=
  (BlobStorage.foldl_removeFile_frame _ st).2.2 f hf

theorem lookup_of_getObsoleteFiles {oldestSequence : ℕ} {f : UInt64} {file : BlobFileMeta}
    (hfile : (st.getObsoleteFiles oldestSequence).2.files.lookup f = some file) :
    st.files.lookup f = some file := by
  by_cases hmem : f ∈ (purgeable st oldestSequence).map (·.1)
  · obtain ⟨p, hp, rfl⟩ := List.mem_map.mp hmem
    rw [lookup_getObsoleteFiles_mem hp] at hfile
    cases hfile
  · rwa [lookup_getObsoleteFiles_other hmem] at hfile

/-- The storage that has handed out its files. -/
theorem Column.purged {cf : UInt32} (hc : j.Column cf st) (oldestSequence : ℕ)
    (storages : BlobStorages) :
    (j.purged oldestSequence (st.getObsoleteFiles oldestSequence).1 storages).Column cf
      (st.getObsoleteFiles oldestSequence).2 := by
  refine ⟨fun f file hfile => hc.owned f file (lookup_of_getObsoleteFiles hfile),
    hc.nodup.sublist (List.filter_sublist.map _), ?_,
    fun f file hfile => hc.live f file (lookup_of_getObsoleteFiles hfile), ?_⟩
  · intro p hp
    obtain ⟨hp, hkept⟩ := List.mem_filter.mp hp
    obtain ⟨hmade, file, hfile, hobsolete⟩ := hc.marked p hp
    refine ⟨hmade, file, (lookup_getObsoleteFiles_other ?_).trans hfile, hobsolete⟩
    intro hmem
    obtain ⟨q, hq, heq⟩ := List.mem_map.mp hmem
    obtain ⟨hq, hlt⟩ := mem_purgeable.mp hq
    obtain rfl : q = p := List.inj_on_of_nodup_map hc.nodup hq hp heq
    simp [hlt] at hkept
  · intro g hg
    rcases List.mem_append.mp hg with hg | hg
    · cases hfile : (st.getObsoleteFiles oldestSequence).2.files.lookup g.file with
      | none => rfl
      | some file => cases (hc.gone g hg).symm.trans (lookup_of_getObsoleteFiles hfile)
    · obtain ⟨f, hf, rfl⟩ := List.mem_map.mp hg
      obtain ⟨p, hp, rfl⟩ := List.mem_map.mp hf
      exact lookup_getObsoleteFiles_mem hp

theorem Inv.purged (h : j.Inv) {cf : UInt32}
    (hst : j.set.columnFamilies.lookup cf = some st) (hcf : cf ∉ j.set.obsoleteColumns)
    (oldestSequence : ℕ) {storages : BlobStorages}
    (hstorages : ∀ c other, storages.lookup c = some other →
      c = cf ∧ other = (st.getObsoleteFiles oldestSequence).2 ∨
        c ≠ cf ∧ j.set.columnFamilies.lookup c = some other) :
    (j.purged oldestSequence (st.getObsoleteFiles oldestSequence).1 storages).Inv := by
  have hc := h.column cf st hst
  have hremoved {f : UInt64} (hf : f ∈ (st.getObsoleteFiles oldestSequence).1) :
      ∃ seq file, (f, seq) ∈ j.made ∧ seq < oldestSequence ∧ st.files.lookup f = some file := by
    obtain ⟨p, hp, rfl⟩ := List.mem_map.mp hf
    obtain ⟨hp, hlt⟩ := mem_purgeable.mp hp
    obtain ⟨hmade, file, hfile, -⟩ := hc.marked p hp
    exact ⟨p.2, file, hmade, hlt, hfile⟩
  refine ⟨?_, h.owner_nodup, h.made_owned, h.made_nodup, ?_, ?_, ?_, h.dropped⟩
  · intro c other hother
    rcases hstorages c other hother with ⟨rfl, rfl⟩ | ⟨hne, hold⟩
    · exact hc.purged oldestSequence storages
    · have ho := h.column c other hold
      refine ⟨ho.owned, ho.nodup, ho.marked, ho.live, fun g hg => ?_⟩
      rcases List.mem_append.mp hg with hg | hg
      · exact ho.gone g hg
      · obtain ⟨f, hf, rfl⟩ := List.mem_map.mp hg
        obtain ⟨_, file, -, -, hfile⟩ := hremoved hf
        cases hother : other.files.lookup f with
        | none => rfl
        | some file' =>
            exact absurd (h.owner_unique (ho.owned f file' hother) (hc.owned f file hfile)) hne
  · rw [Journal.purged, List.map_append, List.map_map]
    refine List.nodup_append'.mpr ⟨h.handed_nodup, ?_, ?_⟩
    · have hid : ((fun g : Handout => g.file) ∘ fun f => (⟨f, oldestSequence, j.dropped⟩ : Handout)) =
          id := rfl
      rw [hid, List.map_id]
      exact hc.nodup.sublist (List.filter_sublist.map _)
    · intro f hf hmem
      obtain ⟨g, hg, rfl⟩ := List.mem_map.mp hf
      obtain ⟨f, hf, heq⟩ := List.mem_map.mp hmem
      obtain ⟨_, file, -, -, hfile⟩ := hremoved hf
      have hfg : f = g.file := heq
      rw [hfg] at hfile
      cases (hc.gone g hg).symm.trans hfile
  · intro g hg
    rcases List.mem_append.mp hg with hg | hg
    · exact h.handed_made g hg
    · obtain ⟨f, hf, rfl⟩ := List.mem_map.mp hg
      obtain ⟨seq, _, hmade, hlt, -⟩ := hremoved hf
      exact ⟨seq, hmade, hlt⟩
  · intro g hg c hown
    rcases List.mem_append.mp hg with hg | hg
    · exact h.handed_kept g hg c hown
    · obtain ⟨f, hf, rfl⟩ := List.mem_map.mp hg
      obtain ⟨_, file, -, -, hfile⟩ := hremoved hf
      rw [h.owner_unique hown (hc.owned f file hfile)]
      exact fun hdropped => hcf (h.dropped cf hdropped)

/-- One round of the loop over the column families. -/
theorem Inv.purgeColumn (h : j.Inv) (oldestSequence : ℕ) (cf : UInt32) :
    (j.purged oldestSequence (j.set.purgeColumn oldestSequence ([], j.set.columnFamilies) cf).1
      (j.set.purgeColumn oldestSequence ([], j.set.columnFamilies) cf).2).Inv := by
  have hnone : (j.purged oldestSequence [] j.set.columnFamilies).Inv := by
    rw [Journal.purged, List.map_nil, List.append_nil]
    exact h
  rw [BlobFileSet.purgeColumn]
  split_ifs with hblocked
  · exact hnone
  · dsimp only
    split
    · exact hnone
    · rename_i st hst
      rw [List.nil_append]
      refine h.purged hst hblocked oldestSequence fun c other hother => ?_
      by_cases hc : c = cf
      · split_ifs at hother
        · rw [hc, AList.lookup_erase] at hother
          cases hother
        · rw [hc, AList.lookup_insert] at hother
          exact Or.inl ⟨hc, (Option.some.inj hother).symm⟩
      · split_ifs at hother
        · rw [AList.lookup_erase_ne hc] at hother
          exact Or.inr ⟨hc, hother⟩
        · rw [AList.lookup_insert_ne hc] at hother
          exact Or.inr ⟨hc, hother⟩

/-- What a round adds does not depend on what the rounds before it have collected. -/
theorem purgeColumn_acc (s : BlobFileSet) (oldestSequence : ℕ) (removed : List UInt64)
    (storages : BlobStorages) (cf : UInt32) :
    s.purgeColumn oldestSequence (removed, storages) cf =
      (removed ++ (s.purgeColumn oldestSequence ([], storages) cf).1,
        (s.purgeColumn oldestSequence ([], storages) cf).2) := by
  simp only [BlobFileSet.purgeColumn]
  split_ifs
  · rw [List.append_nil]
  · split
    · rw [List.append_nil]
    · rw [List.nil_append]

theorem purged_purged (j : Journal) (oldestSequence : ℕ) (removed removed' : List UInt64)
    (storages storages' : BlobStorages) :
    (j.purged oldestSequence removed storages).purged oldestSequence removed' storages' =
      j.purged oldestSequence (removed ++ removed') storages' := by
  simp only [purged, List.append_assoc, List.map_append]

theorem inv_purgeLoop {oldestSequence : ℕ} {removed : List UInt64} {storages : BlobStorages}
    (h : (j.purged oldestSequence removed storages).Inv) (cfs : List UInt32) :
    (j.purged oldestSequence
      (cfs.foldl (j.set.purgeColumn oldestSequence) (removed, storages)).1
      (cfs.foldl (j.set.purgeColumn oldestSequence) (removed, storages)).2).Inv := by
  induction cfs generalizing removed storages with
  | nil => exact h
  | cons cf cfs ih =>
      have hround := h.purgeColumn oldestSequence cf
      rw [purged_purged] at hround
      rw [List.foldl_cons, purgeColumn_acc]
      exact ih hround

theorem Inv.getObsoleteFiles (h : j.Inv) (oldestSequence : ℕ) :
    (j.call (.getObsoleteFiles oldestSequence)).Inv := by
  have hstart : (j.purged oldestSequence [] j.set.columnFamilies).Inv := by
    rw [Journal.purged, List.map_nil, List.append_nil]
    exact h
  have hloop := inv_purgeLoop hstart j.set.columnFamilies.keys
  refine Inv.mono hloop ?_ ?_
  · exact hloop.column
  · exact hloop.dropped

theorem Inv.call (h : j.Inv) {c : Call} (hc : c.Numbered j) : (j.call c).Inv := by
  cases c with
  | logAndApply edit io => exact h.logAndApply io hc
  | dropColumnFamilies cfs obsoleteSequence => exact h.dropColumnFamilies cfs obsoleteSequence
  | maybeDestroyColumnFamily cf => exact h.maybeDestroyColumnFamily cf
  | getObsoleteFiles oldestSequence => exact h.getObsoleteFiles oldestSequence

/-! ## Whole runs -/

/-- The journal of a file set that was opened: every file has its number and its column family. -/
def opened (s : BlobFileSet) : Journal :=
  { set := s
    owner := s.columnFamilies.entries.flatMap fun e => e.2.files.keys.map fun f => (f, e.1) }

/-- What `Open` leaves: distinct file numbers and nothing obsolete. -/
structure Opened (s : BlobFileSet) : Prop where
  numbers : (opened s).numbers.Nodup
  obsolete : ∀ e ∈ s.columnFamilies.entries, e.2.obsoleteFiles = []

theorem inv_opened {s : BlobFileSet} (h : Opened s) : (opened s).Inv := by
  refine ⟨fun cf st hst => ?_, h.numbers, fun _ hp => (by cases hp), List.nodup_nil, List.nodup_nil,
    fun _ hg => (by cases hg), fun _ hg => (by cases hg), fun _ hcf => (by cases hcf)⟩
  have hentry := AList.mem_lookup_iff.mp hst
  have hnone : st.obsoleteFiles = [] := h.obsolete ⟨cf, st⟩ hentry
  refine ⟨fun f file hfile => ?_, by rw [hnone]; exact List.nodup_nil, ?_, fun _ _ _ _ hf => (by cases hf),
    fun _ hg => (by cases hg)⟩
  · refine List.mem_flatMap.mpr ⟨⟨cf, st⟩, hentry, List.mem_map.mpr ⟨f, ?_, rfl⟩⟩
    exact AList.mem_keys.mp (AList.lookup_isSome.mp (by rw [hfile]; rfl))
  · rw [hnone]
    exact fun _ hp => (by cases hp)

/-- The calls of a run add files under new numbers. -/
def NumberedRun : Journal → List Call → Prop
  | _, [] => True
  | j, c :: calls => c.Numbered j ∧ NumberedRun (j.call c) calls

def run (j : Journal) (calls : List Call) : Journal := calls.foldl call j

theorem Inv.run (h : j.Inv) {calls : List Call} (hcalls : NumberedRun j calls) : (j.run calls).Inv := by
  induction calls generalizing j with
  | nil => exact h
  | cons c calls ih => exact ih (h.call hcalls.1) hcalls.2

structure Lawful (j : Journal) : Prop where
  once : (j.handed.map (·.file)).Nodup
  late : ∀ h ∈ j.handed, ∃ seq, (h.file, seq) ∈ j.made ∧ seq < h.oldestSequence
  sequence_unique : (j.made.map (·.1)).Nodup
  destroyed : ∀ h ∈ j.handed, ∀ cf, (h.file, cf) ∈ j.owner → cf ∉ h.dropped

theorem handout_lawful {s : BlobFileSet} (hs : Opened s) {calls : List Call}
    (hcalls : NumberedRun (opened s) calls) : ((opened s).run calls).Lawful := by
  have h := (inv_opened hs).run hcalls
  exact ⟨h.handed_nodup, h.handed_made, h.made_nodup, h.handed_kept⟩

def plainFile : BlobFileMeta := ⟨100, 2, 0, Key.ofByte 1, Key.ofByte 5, 80, .kNormal⟩

def storageOf (f : UInt64) : BlobStorage :=
  { BlobStorage.empty BlobStorage.bytewiseOptions with files := AList.insert f plainFile ∅ }

def twoColumns : BlobFileSet where
  columnFamilies := AList.insert 0 (storageOf 7) (AList.insert 1 (storageOf 9) ∅)
  obsoleteColumns := []
  nextFileNumber := 10
  manifest := []
  manifestFileNumber := 1
  obsoleteManifests := []

/-- File 7 is replaced by file 10, and the second column family is dropped and destroyed, with a
purge after every call. -/
def replaceAndDrop : List Call :=
  [.logAndApply ⟨0, none, [(10, plainFile)], [(7, 5)]⟩ ⟨.ok, .ok⟩, .getObsoleteFiles 5,
    .getObsoleteFiles 6, .dropColumnFamilies [(1, ⟨.ok, .ok⟩)] 8, .getObsoleteFiles 20,
    .maybeDestroyColumnFamily 1, .getObsoleteFiles 20]

theorem replaceAndDrop_lawful :
    ((opened twoColumns).run replaceAndDrop).handed = [⟨7, 6, []⟩, ⟨9, 20, []⟩] ∧
      ((opened twoColumns).run replaceAndDrop).Lawful := by
  refine ⟨by decide +kernel, handout_lawful ⟨by decide, by decide⟩ ?_⟩
  refine ⟨fun file hfile => ?_, trivial, trivial, trivial, trivial, trivial, trivial, trivial⟩
  rw [List.mem_singleton.mp hfile]
  decide

end Journal
end AegonKV
