import AegonKV.ManifestHistory

/-!
# Recovery from the manifest of a run

The snapshot starts both invariants. The weaker one, that the log covers the live files, survives
every call whose record may be replayed; with it no replay is rejected. The exact one survives calls
that succeed and relates the replayed storages to those in memory file by file.
-/

namespace AegonKV
open LittleEndian TransitionSystem

/-! ## The snapshot -/

section

variable {s : BlobFileSet} {cf : UInt32} {f : UInt64}

def snapshotLog (s : BlobFileSet) : List (VersionEdit BlobFileMeta) :=
  s.snapshotEdits.map VersionEdit.persistent

theorem decodes_writeSnapshot (s : BlobFileSet) : Decodes s.writeSnapshot (snapshotLog s) := by
  rw [BlobFileSet.writeSnapshot, snapshotLog]
  induction s.snapshotEdits with
  | nil => exact .nil
  | cons edit edits ih => exact .cons (VersionEdit.decodeFrom_encodeTo edit) ih

/-- Each column family has one edit among those made from the entries of a map. -/
theorem addedFiles_ofColumn_map {l : List (Sigma fun _ : UInt32 => BlobStorage)} (hn : l.NodupKeys)
    {g : (Sigma fun _ : UInt32 => BlobStorage) → VersionEdit BlobFileMeta}
    (hg : ∀ e, (g e).columnFamilyId = e.1) (cf : UInt32) :
    addedFiles (ofColumn cf (l.map g)) =
      match l.dlookup cf with
      | none => []
      | some st => (g ⟨cf, st⟩).addedFiles := by
  induction l with
  | nil => rfl
  | cons e l ih =>
      obtain ⟨k, st⟩ := e
      obtain ⟨hk, hn⟩ := List.nodupKeys_cons.mp hn
      by_cases hcf : k = cf
      · subst hcf
        have hnone : l.dlookup k = none := List.dlookup_eq_none.mpr hk
        have hrest := ih hn
        simp only [hnone] at hrest
        have hcons : ofColumn k ((⟨k, st⟩ :: l).map g) = g ⟨k, st⟩ :: ofColumn k (l.map g) := by
          simp [ofColumn, hg]
        have hadd : addedFiles (g ⟨k, st⟩ :: ofColumn k (l.map g)) =
            (g ⟨k, st⟩).addedFiles ++ addedFiles (ofColumn k (l.map g)) := List.flatMap_cons
        rw [hcons, hadd, hrest, List.append_nil, List.dlookup_cons_eq]
      · have hcons : ofColumn cf ((⟨k, st⟩ :: l).map g) = ofColumn cf (l.map g) := by
          simp [ofColumn, hg, hcf]
        rw [hcons, List.dlookup_cons_ne _ _ (Ne.symm hcf)]
        exact ih hn

def BlobStorage.liveEntries (st : BlobStorage) : List (UInt64 × BlobFileMeta) :=
  (st.files.entries.filter fun f => !f.2.isObsolete).map fun f => (f.1, f.2.persistent)

theorem BlobStorage.mem_liveEntries {st : BlobStorage} {file : BlobFileMeta} :
    (f, file) ∈ st.liveEntries ↔
      ∃ old, st.files.lookup f = some old ∧ old.isObsolete = false ∧ old.persistent = file := by
  constructor
  · intro h
    obtain ⟨e, he, heq⟩ := List.mem_map.mp h
    obtain ⟨hmem, hlive⟩ := List.mem_filter.mp he
    obtain ⟨rfl, rfl⟩ : e.1 = f ∧ e.2.persistent = file := by simpa using heq
    exact ⟨e.2, AList.mem_lookup_iff.mpr hmem, by simpa using hlive, rfl⟩
  · rintro ⟨old, hold, hlive, rfl⟩
    refine List.mem_map.mpr ⟨⟨f, old⟩, List.mem_filter.mpr ⟨AList.mem_lookup_iff.mp hold, ?_⟩, rfl⟩
    simpa using hlive

theorem BlobStorage.liveEntries_nodup (st : BlobStorage) : (st.liveEntries.map (·.1)).Nodup := by
  have hkeys : st.liveEntries.map (·.1) =
      (st.files.entries.filter fun f => !f.2.isObsolete).map Sigma.fst := by
    rw [liveEntries, List.map_map]
    rfl
  rw [hkeys]
  exact st.files.keys_nodup.sublist (List.filter_sublist.map _)

theorem addedFiles_snapshotLog (s : BlobFileSet) (cf : UInt32) :
    addedFiles (ofColumn cf (snapshotLog s)) =
      match s.columnFamilies.lookup cf with
      | none => []
      | some st => st.liveEntries := by
  have hhead : addedFiles (ofColumn cf (snapshotLog s)) =
      addedFiles (ofColumn cf ((s.columnFamilies.entries.map fun e =>
        ⟨e.1, none, e.2.liveEntries, []⟩))) := by
    have hcons : snapshotLog s = ⟨0, some s.nextFileNumber, [], []⟩ ::
        s.columnFamilies.entries.map fun e => ⟨e.1, none, e.2.liveEntries, []⟩ := by
      simp [snapshotLog, BlobFileSet.snapshotEdits, VersionEdit.persistent,
        BlobStorage.liveEntries, List.map_map, Function.comp_def]
    rw [hcons, ofColumn, List.filter_cons]
    split_ifs
    · exact List.nil_append _
    · rfl
  rw [hhead, addedFiles_ofColumn_map s.columnFamilies.nodupKeys (fun e => rfl) cf]
  rfl

theorem deletedFiles_snapshotLog (s : BlobFileSet) (cf : UInt32) :
    deletedFiles (ofColumn cf (snapshotLog s)) = [] := by
  refine List.flatMap_eq_nil_iff.mpr fun e he => ?_
  obtain ⟨edit, hedit, rfl⟩ := List.mem_map.mp (List.mem_filter.mp he).1
  rcases List.mem_cons.mp hedit with rfl | hedit
  · rfl
  · obtain ⟨_, -, rfl⟩ := List.mem_map.mp hedit
    rfl

theorem liveIn_snapshotLog {file : BlobFileMeta} : LiveIn cf (snapshotLog s) f file ↔
    ∃ st, s.columnFamilies.lookup cf = some st ∧ (f, file) ∈ st.liveEntries := by
  rw [LiveIn, Deleted, addedFiles_snapshotLog, deletedFiles_snapshotLog]
  cases s.columnFamilies.lookup cf with
  | none => simp
  | some st => simp

theorem filterMap_snapshotLog (s : BlobFileSet) :
    (snapshotLog s).filterMap (·.nextFileNumber) = [s.nextFileNumber] := by
  simp [snapshotLog, BlobFileSet.snapshotEdits, VersionEdit.persistent, List.filterMap_map,
    Function.comp_def]

theorem recoverable_afterSnapshot (s : BlobFileSet) :
    Recoverable s.afterSnapshot (snapshotLog s) := by
  refine ⟨decodes_writeSnapshot s, ⟨fun cf => ?_, fun cf => ?_, ?_⟩, fun cf _ f hf => ?_,
    fun cf st hst f file hf hlive => ?_, fun e he n hn => ?_, ?_⟩
  · rw [addedFiles_snapshotLog]
    cases s.columnFamilies.lookup cf with
    | none => exact List.nodup_nil
    | some st => exact st.liveEntries_nodup
  · rw [deletedFiles_snapshotLog]
    exact List.nodup_nil
  · rw [filterMap_snapshotLog]
    exact List.pairwise_singleton _ _
  · rw [Deleted, deletedFiles_snapshotLog] at hf
    cases hf
  · exact liveIn_snapshotLog.mpr ⟨st, hst, BlobStorage.mem_liveEntries.mpr ⟨file, hf, hlive, rfl⟩⟩
  · have hmem : n ∈ (snapshotLog s).filterMap (·.nextFileNumber) :=
      List.mem_filterMap.mpr ⟨e, he, hn⟩
    rw [filterMap_snapshotLog] at hmem
    rw [List.mem_singleton.mp hmem]
    exact UInt64.le_refl _
  · exact ⟨_, List.mem_cons_self, by simp [VersionEdit.persistent]⟩

/-! ## Calls that may be replayed -/

variable {log : List (VersionEdit BlobFileMeta)} {edit : VersionEdit BlobFileMeta} {io : ManifestIO}

theorem ofColumn_of_unused (hdec : Decodes s.manifest log) (h : s.unusedColumn cf = true) :
    ofColumn cf log = [] := by
  refine List.filter_eq_nil_iff.mpr fun e he hcf => ?_
  obtain ⟨record, hr, hd⟩ := hdec.exists_record he
  have hne := List.all_eq_true.mp h record hr
  simp only [hd, bne_iff_ne, ne_eq] at hne
  exact hne (by simpa using hcf)

theorem lookup_addColumnFamilies (s : BlobFileSet) (cf g : UInt32) (options : TitanCFOptions) :
    (s.addColumnFamilies [(cf, options)]).columnFamilies.lookup g =
      (s.columnFamilies.lookup g).or (if g = cf then some (.empty options) else none) := by
  simp only [BlobFileSet.addColumnFamilies, List.foldl_cons, List.foldl_nil]
  split_ifs with hmem hg hg
  · subst hg
    obtain ⟨st, hst⟩ := Option.isSome_iff_exists.mp (AList.lookup_isSome.mpr hmem)
    rw [hst]
    rfl
  · rw [Option.or_none]
  · subst hg
    rw [AList.lookup_insert, AList.lookup_eq_none.mpr hmem]
    rfl
  · rw [AList.lookup_insert_ne hg, Option.or_none]

/-- A storage after a column family is opened was there before, or is empty and the log knows
nothing of it. -/
theorem storage_of_opens (hdec : Decodes s.manifest log) (h : s.unusedColumn cf = true)
    {options : TitanCFOptions} {g : UInt32} {st : BlobStorage}
    (hst : (s.addColumnFamilies [(cf, options)]).columnFamilies.lookup g = some st) :
    s.columnFamilies.lookup g = some st ∨ st = .empty options ∧ ofColumn g log = [] := by
  rw [lookup_addColumnFamilies] at hst
  rcases Option.or_eq_some_iff.mp hst with hold | ⟨-, hnew⟩
  · exact Or.inl hold
  · split_ifs at hnew with hg
    subst hg
    exact Or.inr ⟨(Option.some.inj hnew).symm, ofColumn_of_unused hdec h⟩

theorem Recoverable.shrink (h : Recoverable s log) {s' : BlobFileSet}
    (hman : s'.manifest = s.manifest) (hnext : s'.nextFileNumber = s.nextFileNumber)
    (hst : StoragesShrink s.columnFamilies s'.columnFamilies) : Recoverable s' log := by
  refine ⟨hman ▸ h.decodes, h.collectable, fun cf hcf => ?_, fun cf st' hst' f file hf hlive => ?_,
    hnext ▸ h.bounded, h.hasNext⟩
  · obtain ⟨st', hst'⟩ := Option.isSome_iff_exists.mp hcf
    obtain ⟨st, hold, -⟩ := hst cf st' hst'
    exact h.paired cf (by rw [hold]; rfl)
  · obtain ⟨st, hold, hs⟩ := hst cf st' hst'
    exact h.live cf st hold f file (hs.sub f file hf) hlive

theorem Recoverable.number (h : Recoverable s log) {n : UInt64} (hn : s.nextFileNumber ≤ n) :
    Recoverable { s with nextFileNumber := n } log :=
  { h with bounded := fun e he m hm => UInt64.le_trans (h.bounded e he m hm) hn }

theorem Recoverable.opens (h : Recoverable s log) {options : TitanCFOptions}
    (hunused : s.unusedColumn cf = true) :
    Recoverable (s.addColumnFamilies [(cf, options)]) log := by
  refine ⟨h.decodes, h.collectable, fun g hg f hf => ?_, fun g st hst f file hf hlive => ?_,
    h.bounded, h.hasNext⟩
  · obtain ⟨st, hst⟩ := Option.isSome_iff_exists.mp hg
    rcases storage_of_opens h.decodes hunused hst with hold | ⟨-, hnil⟩
    · exact h.paired g (by rw [hold]; rfl) f hf
    · rw [hnil] at hf
      cases hf
  · rcases storage_of_opens h.decodes hunused hst with hold | ⟨rfl, -⟩
    · exact h.live g st hold f file hf hlive
    · cases hf

/-- The record of the call can be replayed: it adds no file that a record adds already, a column
family that is not open deletes no file twice, and if the sync fails it deletes no file that was
there before. -/
def Replayable (s : BlobFileSet) (edit : VersionEdit BlobFileMeta) (io : ManifestIO) : Prop :=
  s.accepts edit → io.addRecord.isOk = true →
    (∀ f ∈ edit.addedFiles.map (·.1), ¬s.AddedIn edit.columnFamilyId f) ∧
      (s.columnFamilies.lookup edit.columnFamilyId = none →
        ∀ f ∈ edit.deletedFiles.map (·.1), ¬s.DeletedIn edit.columnFamilyId f) ∧
      (io.sync.isOk = false → (s.columnFamilies.lookup edit.columnFamilyId).isSome →
        ∀ f ∈ edit.deletedFiles.map (·.1), f ∈ edit.addedFiles.map (·.1))

theorem Recoverable.call (h : Recoverable s log) (hc : Replayable s edit io) :
    ∃ log', Recoverable (s.logAndApply edit io).2 log' := by
  rcases BlobFileSet.logAndApply_cases s edit io with ⟨-, hs, -⟩ | ⟨hacc, hrec, hsync, -, hs⟩ |
    ⟨hacc, hrec, -, -, storages, hst, hs⟩
  · rw [hs]
    exact ⟨log, h⟩
  · obtain ⟨hadd, hdel, hpair⟩ := hc hacc hrec
    rw [hs]
    exact ⟨_, h.unapplied (h.editFits hacc hadd hdel) (hpair hsync)⟩
  · obtain ⟨hadd, hdel, -⟩ := hc hacc hrec
    rw [hs]
    exact ⟨_, h.applied (h.editFits hacc hadd hdel) hst⟩

theorem recoverable_preserved : Preserved Replayable fun s => ∃ log, Recoverable s log where
  call _ _ _ := fun ⟨_, h⟩ hc => h.call hc
  shrink _ _ := fun ⟨log, h⟩ hman hnext hst => ⟨log, h.shrink hman hnext hst⟩
  number _ _ := fun ⟨log, h⟩ hn => ⟨log, h.number hn⟩
  opens _ _ _ := fun ⟨log, h⟩ hunused => ⟨log, h.opens hunused⟩

/-- Recovery from the manifest with some of the open column families is not rejected, and the files
that are live in memory are there. -/
def RecoversLive (s : BlobFileSet) : Prop :=
  ∀ opened, FreshlyOpened opened →
    (∀ cf, (opened.lookup cf).isSome → (s.columnFamilies.lookup cf).isSome) →
    ∃ storages n, replay opened s.manifest = .ok (storages, n) ∧
      (∀ cf, (storages.lookup cf).isSome = (opened.lookup cf).isSome) ∧
      ∀ cf st st', s.columnFamilies.lookup cf = some st → storages.lookup cf = some st' →
        ∀ f file, st.files.lookup f = some file → file.isObsolete = false →
          st'.files.lookup f = some file.persistent

theorem Recoverable.recoversLive (h : Recoverable s log) : RecoversLive s := by
  intro opened hopen hsub
  obtain ⟨storages, n, hrep⟩ :=
    h.collectable.replays h.decodes hopen (fun cf hcf => h.paired cf (hsub cf hcf)) h.hasNext
  refine ⟨storages, n, hrep.ok, hrep.isSome, fun cf st st' hst hst' f file hf hlive => ?_⟩
  exact (hrep.files cf st' hst' f _).mpr (h.live cf st hst f file hf hlive)

/-- In a run whose calls may be replayed, recovery from the manifest succeeds with every file that is
live in memory. -/
theorem recoversLive_of_replayable {h h' : History} {as : List History.Action}
    (hset : h.set = s.afterSnapshot) (hm : Meets History.step (History.CallsMeet Replayable) h as)
    (hrun : run History.step h as = some h') : RecoversLive h'.set := by
  have hstep : ∀ (g : History) (a : History.Action) (g' : History),
      (fun g : History => ∃ log, Recoverable g.set log) g → g.CallsMeet Replayable a →
      g.step a = some g' → (fun g : History => ∃ log, Recoverable g.set log) g' :=
    fun g a g' hi hc hs => recoverable_preserved.step hi hc hs
  have hinit : ∃ log, Recoverable h.set log := ⟨_, hset ▸ recoverable_afterSnapshot s⟩
  obtain ⟨log, hlog⟩ := run_invariant hstep hinit hm hrun
  exact hlog.recoversLive

end

section

/-- A column family with the bytewise comparator, opened on an empty directory. -/
def bytewise (a b : Bytes) : Ordering := if a < b then .lt else if b < a then .gt else .eq

def freshSet : BlobFileSet :=
  ⟨AList.singleton 0 (.empty ⟨bytewise, 7, 8388608, 0.5⟩), [], 2, [], 1, []⟩

def freshHistory : History := ⟨freshSet.afterSnapshot, [1], [1]⟩

def smallFile : BlobFileMeta :=
  ⟨100, 1, 0, ⟨[97], by decide⟩, ⟨[98], by decide⟩, 0, .kPendingLSM⟩

def ioOk : ManifestIO := ⟨.ok, .ok⟩

def syncFails : ManifestIO := ⟨.ok, { code := .ioError }⟩

theorem eq_of_isSome_singleton {cf g : UInt32} {st : BlobStorage}
    (h : ((AList.singleton cf st : BlobStorages).lookup g).isSome) : g = cf := by
  have hmem := AList.lookup_isSome.mp h
  rw [AList.mem_keys, AList.keys_singleton] at hmem
  exact List.mem_singleton.mp hmem

theorem freshlyOpened_singleton (cf : UInt32) (options : TitanCFOptions) :
    FreshlyOpened (AList.singleton cf (.empty options)) := by
  intro g st hst
  have hg : g = cf := eq_of_isSome_singleton (by rw [hst]; rfl)
  subst hg
  have hself : (AList.singleton g (BlobStorage.empty options) : BlobStorages).lookup g =
      some (.empty options) := List.dlookup_cons_eq _ _ _
  obtain rfl := Option.some.inj (hself.symm.trans hst)
  rfl

/-- The record of a file is left behind by a failed sync, and the file is never used again. -/
theorem leftRecord_recoversLive : ∃ h', run History.step freshHistory
    [.logAndApply ⟨0, none, [(2, smallFile)], []⟩ syncFails,
      .logAndApply ⟨0, none, [(3, smallFile)], []⟩ ioOk] = some h' ∧
      (h'.set.columnFamilies.lookup 0).any (fun st => st.files.keys = [3]) = true ∧
      RecoversLive h'.set := by
  have hm : Meets History.step (History.CallsMeet Replayable) freshHistory
      [.logAndApply ⟨0, none, [(2, smallFile)], []⟩ syncFails,
        .logAndApply ⟨0, none, [(3, smallFile)], []⟩ ioOk] := by
    refine Meets.cons rfl ?_ (Meets.cons rfl ?_ trivial)
    · exact fun _ _ => ⟨List.forall_mem_singleton.mpr (by decide +kernel), fun _ => nofun,
        fun _ _ => nofun⟩
    · exact fun _ _ => ⟨List.forall_mem_singleton.mpr (by decide +kernel), fun _ => nofun,
        fun _ _ => nofun⟩
  refine ⟨_, rfl, by decide +kernel, ?_⟩
  exact recoversLive_of_replayable (s := freshSet) rfl hm rfl

/-- The deletion of a file is left behind by a failed sync and logged again: recovery rejects the
manifest. -/
theorem repeatedDeletion_not_recoversLive : ∃ h', run History.step freshHistory
    [.logAndApply ⟨0, none, [(2, smallFile)], []⟩ ioOk,
      .logAndApply ⟨0, none, [], [(2, 7)]⟩ syncFails,
      .logAndApply ⟨0, none, [], [(2, 8)]⟩ ioOk] = some h' ∧ ¬RecoversLive h'.set := by
  refine ⟨_, rfl, fun hrec => ?_⟩
  obtain ⟨storages, n, hok, -⟩ := hrec freshSet.columnFamilies (freshlyOpened_singleton _ _)
    fun cf hcf => by
      obtain rfl := eq_of_isSome_singleton hcf
      decide +kernel
  have hno : (replay freshSet.columnFamilies (freshHistory.set.manifest ++
      [VersionEdit.encodeTo ⟨0, some 2, [(2, smallFile)], []⟩,
        VersionEdit.encodeTo ⟨0, some 2, [], [(2, 7)]⟩,
        VersionEdit.encodeTo ⟨0, some 2, [], [(2, 8)]⟩])).toOption.isSome = false := by
    decide +kernel
  have hyes : _ = true := congrArg (fun x => x.toOption.isSome) hok
  cases hno.symm.trans hyes

end
end AegonKV
