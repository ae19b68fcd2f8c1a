import AegonKV.ManifestDisk

/-!
# Sets whose manifest says what is live

The records of a manifest give back the live files of every open column family, and a next file number
above the manifest's own. This holds of a set whose manifest has just been installed, and it survives
the calls of `LogAndApply` that add fresh files, and the changes that are not logged.
-/

namespace AegonKV.ManifestDisk
open LittleEndian DurableFiles TransitionSystem FileName

/-- The live files of every open column family. -/
abbrev Columns := UInt32 → Option (UInt64 → Option BlobFileMeta)

def view (s : BlobFileSet) : Columns := fun cf => (s.columnFamilies.lookup cf).map fun st => st.liveFile

def editColumns (edit : VersionEdit BlobFileMeta) (columns : Columns) : Columns :=
  Function.update columns edit.columnFamilyId ((columns edit.columnFamilyId).map fun files f =>
    if f ∈ edit.deletedFiles.map (·.1) then none
    else (((edit.addedFiles.lookup f).map (·.persistent)).or (files f)))

structure Logged (s : BlobFileSet) : Prop where
  exact : ∃ log, ExactLog s log
  paired : ∀ log, Decodes s.manifest log → ∀ cf f, Deleted (ofColumn cf log) f →
    Added (ofColumn cf log) f
  later : ∀ record ∈ s.manifest, ∀ n, recordNext record = some n → s.manifestFileNumber < n
  counter : s.manifestFileNumber < s.nextFileNumber

section

variable {s s' : BlobFileSet} {cf : UInt32} {edit : VersionEdit BlobFileMeta}

theorem decodes_unique {records : List Bytes} {log log' : List (VersionEdit BlobFileMeta)}
    (h : Decodes records log) (h' : Decodes records log') : log = log' := by
  induction h generalizing log' with
  | nil =>
      cases h'
      rfl
  | cons hdec hrest ih =>
      cases h' with
      | cons hdec' hrest' =>
          obtain rfl := Except.ok.inj (hdec.symm.trans hdec')
          rw [ih hrest']

theorem view_some {st : BlobStorage} (h : s.columnFamilies.lookup cf = some st) :
    view s cf = some st.liveFile := by
  rw [view, h, Option.map_some]

theorem view_eq_none : view s cf = none ↔ s.columnFamilies.lookup cf = none := by
  rw [view, Option.map_eq_none_iff]

theorem view_congr (h : ∀ cf, s'.columnFamilies.lookup cf = s.columnFamilies.lookup cf) :
    view s' = view s := by
  funext cf
  rw [view, view, h]

theorem liveFile_of_lookup {st : BlobStorage} {f : UInt64} {file : BlobFileMeta}
    (h : st.files.lookup f = some file) :
    st.liveFile f = if file.isObsolete then none else some file.persistent := by
  rw [BlobStorage.liveFile, h]

theorem liveFile_of_none {st : BlobStorage} {f : UInt64} (h : st.files.lookup f = none) :
    st.liveFile f = none := by
  rw [BlobStorage.liveFile, h]

/-! ## The manifest that has just been installed -/

theorem shrinks_of_lookup {storages storages' : BlobStorages}
    (h : ∀ cf, storages'.lookup cf = storages.lookup cf) : StoragesShrink storages storages' :=
  fun cf st hst => ⟨st, (h cf).symm.trans hst, .refl st⟩

theorem lookup_installed {number : UInt64} {recovered : Bool}
    (h : recovered = true → ∀ cf st, s.columnFamilies.lookup cf = some st → st.obsoleteFiles = [])
    (cf : UInt32) :
    (installed s number recovered).columnFamilies.lookup cf = s.columnFamilies.lookup cf := by
  cases recovered with
  | false => rfl
  | true => exact lookup_purgeAll (h rfl) cf

theorem recordNext_writeSnapshot {record : Bytes} {n : UInt64} (h : record ∈ s.writeSnapshot)
    (hn : recordNext record = some n) : n = s.nextFileNumber := by
  obtain ⟨edit, hedit, rfl⟩ := List.mem_map.mp h
  rw [recordNext_encodeTo] at hn
  rcases List.mem_cons.mp hedit with rfl | hedit
  · exact (Option.some.inj hn).symm
  · obtain ⟨e, -, rfl⟩ := List.mem_map.mp hedit
    cases hn

theorem logged_installed {number : UInt64} {recovered : Bool} (hwf : s.WellFormed)
    (h : recovered = true → ∀ cf st, s.columnFamilies.lookup cf = some st → st.obsoleteFiles = [])
    (hnumber : number < s.nextFileNumber) : Logged (installed s number recovered) := by
  refine ⟨?_, fun log hlog cf f hf => ?_, fun record hrecord n hn => ?_, hnumber⟩
  · exact exactLog_preserved.shrink s.afterSnapshot (installed s number recovered)
      ⟨_, exactLog_afterSnapshot hwf⟩ rfl rfl (shrinks_of_lookup (lookup_installed h))
  · rw [decodes_unique hlog (decodes_writeSnapshot s), Deleted, deletedFiles_snapshotLog] at hf
    cases hf
  · rw [recordNext_writeSnapshot hrecord hn]
    exact hnumber

/-! ## Changes -/

theorem Logged.shrink (h : Logged s) (hmanifest : s'.manifest = s.manifest)
    (hnumber : s'.manifestFileNumber = s.manifestFileNumber)
    (hnext : s'.nextFileNumber = s.nextFileNumber)
    (hshrink : StoragesShrink s.columnFamilies s'.columnFamilies) : Logged s' := by
  refine ⟨exactLog_preserved.shrink s s' h.exact hmanifest hnext hshrink, ?_, ?_, ?_⟩
  · rw [hmanifest]
    exact h.paired
  · rw [hmanifest, hnumber]
    exact h.later
  · rw [hnumber, hnext]
    exact h.counter

/-- A column family keeps its live files while it is open. -/
theorem Logged.view_shrink (h : Logged s) (hshrink : StoragesShrink s.columnFamilies s'.columnFamilies)
    (cf : UInt32) : view s' cf = view s cf ∨ view s' cf = none := by
  obtain ⟨log, hlog⟩ := h.exact
  cases hst' : s'.columnFamilies.lookup cf with
  | none => exact Or.inr (view_eq_none.mpr hst')
  | some st' =>
      obtain ⟨st, hst, hs⟩ := hshrink cf st' hst'
      refine Or.inl ?_
      rw [view_some hst, view_some hst']
      refine congrArg some (funext fun f => ?_)
      cases hold : st.files.lookup f with
      | none =>
          rw [liveFile_of_none hold]
          refine liveFile_of_none (Option.eq_none_iff_forall_ne_some.mpr fun file hfile => ?_)
          rw [hs.sub f file hfile] at hold
          cases hold
      | some file =>
          cases hobsolete : file.isObsolete with
          | false =>
              rw [liveFile_of_lookup hold,
                liveFile_of_lookup (hs.live (hlog.wf cf st hst) f file hold hobsolete)]
          | true =>
              rw [liveFile_of_lookup hold, hobsolete, if_pos rfl]
              cases hnew : st'.files.lookup f with
              | none => exact liveFile_of_none hnew
              | some file' =>
                  obtain rfl := Option.some.inj (hold.symm.trans (hs.sub f file' hnew))
                  rw [liveFile_of_lookup hnew, hobsolete, if_pos rfl]

theorem Logged.number (h : Logged s) {n : UInt64} (hn : s.nextFileNumber ≤ n) :
    Logged { s with nextFileNumber := n } :=
  ⟨exactLog_preserved.number s n h.exact hn, h.paired, h.later, UInt64.lt_of_lt_of_le h.counter hn⟩

theorem Logged.addColumnFamilies (h : Logged s) {options : TitanCFOptions}
    (hunused : s.unusedColumn cf = true) : Logged (s.addColumnFamilies [(cf, options)]) :=
  ⟨exactLog_preserved.opens s cf options h.exact hunused, h.paired, h.later, h.counter⟩

theorem view_addColumnFamilies (s : BlobFileSet) (cf : UInt32) (options : TitanCFOptions) :
    view (s.addColumnFamilies [(cf, options)]) =
      Function.update (view s) cf (some ((view s cf).getD fun _ => none)) := by
  funext g
  rw [view, lookup_addColumnFamilies]
  by_cases hg : g = cf
  · subst hg
    rw [Function.update_self, if_pos rfl]
    cases hst : s.columnFamilies.lookup g with
    | none =>
        rw [view_eq_none.mpr hst]
        rfl
    | some st =>
        rw [view_some hst]
        rfl
  · rw [Function.update_of_ne hg, if_neg hg, Option.or_none, view]

/-- What a call makes of the live files of the column family of its edit. -/
theorem liveFile_applied {log : List (VersionEdit BlobFileMeta)} {st st' : BlobStorage}
    (h : ExactLog s log) (hfit : EditFits s log edit)
    (hlive : ∀ file ∈ edit.addedFiles, file.2.isObsolete = false)
    (hst : s.columnFamilies.lookup edit.columnFamilyId = some st) (happ : AppliedExactly edit st st') :
    st'.liveFile = fun f => if f ∈ edit.deletedFiles.map (·.1) then none
      else ((edit.addedFiles.lookup f).map (·.persistent)).or (st.liveFile f) := by
  funext f
  by_cases hdel : f ∈ edit.deletedFiles.map (·.1)
  · rw [if_pos hdel]
    by_cases hadd : f ∈ edit.addedFiles.map (·.1)
    · -- the file is fresh, and nothing becomes of it
      cases hold : st.files.lookup f with
      | none => exact liveFile_of_none ((happ.other f ⟨fun _ => hdel, fun _ => hadd⟩).trans hold)
      | some file =>
          rw [liveFile_of_lookup ((happ.other f ⟨fun _ => hdel, fun _ => hadd⟩).trans hold)]
          cases hobsolete : file.isObsolete with
          | true => rfl
          | false =>
              exact absurd (added_of_liveIn (h.live _ st hst f file hold hobsolete)) (hfit.added f hadd)
    · obtain ⟨g, hg, rfl⟩ := List.mem_map.mp hdel
      obtain ⟨old, -, -, hnew⟩ := happ.deleted g hg hadd
      rw [liveFile_of_lookup hnew]
      rfl
  · rw [if_neg hdel]
    by_cases hadd : f ∈ edit.addedFiles.map (·.1)
    · obtain ⟨g, hg, rfl⟩ := List.mem_map.mp hadd
      rw [liveFile_of_lookup (happ.added g hg hdel).2, hlive g hg,
        lookup_of_mem_nodup hfit.added_nodup hg]
      rfl
    · have hsame := happ.other f ⟨fun hc => absurd hc hadd, fun hc => absurd hc hdel⟩
      rw [lookup_of_not_mem hadd, Option.map_none, Option.none_or, BlobStorage.liveFile,
        BlobStorage.liveFile, hsame]

/-- What a call leaves, with its record at the end of the manifest. -/
structure Called (s : BlobFileSet) (edit : VersionEdit BlobFileMeta) (next : BlobFileSet) : Prop where
  logged : Logged next
  manifest : next.manifest = s.manifest ++ [(s.withNext edit).encodeTo]
  number : next.manifestFileNumber = s.manifestFileNumber
  counter : next.nextFileNumber = s.nextFileNumber
  view : view next = editColumns edit (view s)

theorem Logged.call (h : Logged s) (hc : Regular s edit ioOk)
    (hok : (s.logAndApply edit ioOk).1.isOk = true) : Called s edit (s.logAndApply edit ioOk).2 := by
  obtain ⟨log, hlog⟩ := h.exact
  rcases BlobFileSet.logAndApply_cases s edit ioOk with ⟨hno, -, -⟩ | ⟨-, -, -, hno, -⟩ |
    ⟨hacc, hrec, -, -, storages, hst, hs⟩
  · rw [hok] at hno
    cases hno
  · rw [hok] at hno
    cases hno
  obtain ⟨hadd, hdel, -⟩ := hc.replayable hacc hrec
  have hfit := hlog.toRecoverable.editFits hacc hadd hdel
  refine ⟨⟨hlog.call hc, ?_, ?_, ?_⟩, ?_, ?_, ?_, ?_⟩
  · rw [hs]
    intro log' hlog' cf f hf
    rw [decodes_unique hlog' (hlog.decodes.snoc (s.withNext edit)), deleted_ofColumn_snoc,
      persistent_deleted] at hf
    rw [decodes_unique hlog' (hlog.decodes.snoc (s.withNext edit)), added_ofColumn_snoc,
      persistent_added]
    rcases hf with hf | ⟨hcf, hf⟩
    · exact Or.inl (h.paired log hlog.decodes cf f hf)
    · obtain rfl : edit.columnFamilyId = cf := hcf
      cases hopen : s.columnFamilies.lookup edit.columnFamilyId with
      | none =>
          have hnil : (s.withNext edit).deletedFiles = [] := hc.2.2.2 hopen
          rw [hnil] at hf
          cases hf
      | some st =>
          exact (hfit.paired (by rw [hopen]; rfl) f hf).imp id fun hnew => ⟨rfl, hnew⟩
  · rw [hs]
    intro record hrecord n hn
    rcases List.mem_append.mp hrecord with hrecord | hrecord
    · exact h.later record hrecord n hn
    · rw [List.mem_singleton.mp hrecord, recordNext_encodeTo] at hn
      obtain rfl := Option.some.inj hn
      exact h.counter
  · rw [hs]
    exact h.counter
  · rw [hs]
    rfl
  · rw [hs]
    rfl
  · rw [hs]
    rfl
  · rw [hs]
    funext cf
    by_cases hcf : cf = edit.columnFamilyId
    · subst hcf
      rw [editColumns, Function.update_self]
      cases hst with
      | unknown hnone =>
          rw [view_eq_none.mpr hnone]
          exact view_eq_none.mpr hnone
      | @known st st' hst happ =>
          rw [view_some hst, Option.map_some]
          refine (view_some (AList.lookup_insert _)).trans (congrArg some ?_)
          exact liveFile_applied hlog hfit (fun file hfile => (hc.2.2.1 file hfile).1) hst happ
    · rw [editColumns, Function.update_of_ne hcf]
      cases hst with
      | unknown hnone => rfl
      | known hst happ =>
          rw [view, view]
          exact congrArg _ (AList.lookup_insert_ne hcf)

/-! ## Opening -/

/-- The column families that are opened, of which those that were open before have their files. -/
structure Reopens (cfs : List UInt32) (columns columns' : Columns) : Prop where
  opened : ∀ cf, (columns' cf).isSome = true ↔ cf ∈ cfs
  files : ∀ cf files, columns cf = some files → cf ∈ cfs → columns' cf = some files

structure Opened (set : BlobFileSet) (number : UInt64) (recovered : Bool) : Prop where
  wf : set.WellFormed
  obsolete : recovered = true → ∀ cf st, set.columnFamilies.lookup cf = some st →
    st.obsoleteFiles = []
  counter : set.nextFileNumber = number + 1

theorem Opened.lt {number : UInt64} {recovered : Bool} (h : Opened s number recovered)
    (hnumber : number.toNat + 1 < 2 ^ 64) : number < s.nextFileNumber := by
  rw [h.counter, UInt64.lt_iff_toNat_lt, UInt64.toNat_add]
  simp only [UInt64.reduceToNat]
  omega

theorem Opened.logged {number : UInt64} {recovered : Bool} (h : Opened s number recovered)
    (hnumber : number.toNat + 1 < 2 ^ 64) : Logged (installed s number recovered) :=
  logged_installed h.wf h.obsolete (h.lt hnumber)

theorem Opened.view {number : UInt64} {recovered : Bool} (h : Opened s number recovered) :
    view (installed s number recovered) = view s := view_congr (lookup_installed h.obsolete)

theorem wellFormed_of_nil {st : BlobStorage} (h : st.obsoleteFiles = []) : st.WellFormed := by
  refine ⟨?_, fun p hp => ?_⟩
  · rw [h]
    exact List.nodup_nil
  · rw [h] at hp
    cases hp

theorem isSome_openedSet (cfs : List (UInt32 × TitanCFOptions)) (cf : UInt32) :
    ((openedSet cfs).columnFamilies.lookup cf).isSome = true ↔ cf ∈ cfs.map Prod.fst := by
  have hfold : ∀ (cfs : List (UInt32 × TitanCFOptions)) (acc : BlobStorages),
      ((cfs.foldl (fun storages cf =>
        if cf.1 ∈ storages then storages else storages.insert cf.1 (.empty cf.2)) acc).lookup cf).isSome =
          true ↔ (acc.lookup cf).isSome = true ∨ cf ∈ cfs.map Prod.fst := by
    intro cfs
    induction cfs with
    | nil => exact fun acc => (or_iff_left List.not_mem_nil).symm
    | cons c cfs ih =>
        intro acc
        rw [List.foldl_cons, ih, List.map_cons, List.mem_cons, ← or_assoc]
        refine or_congr_left ?_
        split_ifs with hmem
        · refine ⟨Or.inl, fun h => h.elim id fun heq => ?_⟩
          rw [heq]
          exact AList.lookup_isSome.mpr hmem
        · by_cases hcf : cf = c.1
          · rw [hcf, AList.lookup_insert]
            exact iff_of_true rfl (Or.inr rfl)
          · rw [AList.lookup_insert_ne hcf]
            exact (or_iff_left hcf).symm
  refine (hfold cfs ∅).trans (or_iff_right ?_)
  rw [AList.lookup_empty]
  exact Bool.false_ne_true

theorem recordsBefore_map (records : List Bytes) :
    recordsBefore (records.map .record) = records := by
  induction records with
  | nil => rfl
  | cons r records ih => rw [List.map_cons, recordsBefore, ih]

theorem persistent_liveFile {file : BlobFileMeta} {st : BlobStorage} {f : UInt64}
    (h : st.files.lookup f = some file.persistent) : st.liveFile f = some file.persistent :=
  liveFile_of_lookup h

/-- `Recover` on the records of the manifest of a set. -/
theorem Logged.replay (h : Logged s) {opened : BlobStorages} (hopened : FreshlyOpened opened) :
    ∃ storages number, replay opened s.manifest = .ok (storages, number) ∧
      s.manifestFileNumber < number ∧
      (∀ cf, (storages.lookup cf).isSome = (opened.lookup cf).isSome) ∧
      ∀ cf st st', s.columnFamilies.lookup cf = some st → storages.lookup cf = some st' →
        st'.liveFile = st.liveFile := by
  obtain ⟨log, hlog⟩ := h.exact
  obtain ⟨storages, number, hreplays⟩ := hlog.collectable.replays hlog.decodes hopened
    (fun cf _ => h.paired log hlog.decodes cf) hlog.hasNext
  refine ⟨storages, number, hreplays.ok, ?_, hreplays.isSome, fun cf st st' hst hst' => ?_⟩
  · have hnext := hreplays.next
    rw [← hlog.decodes.filterMap_recordNext] at hnext
    obtain ⟨record, hrecord, hn⟩ := List.mem_filterMap.mp (List.mem_of_getLast? hnext)
    exact h.later record hrecord number hn
  · funext f
    cases hlive : st.liveFile f with
    | some file =>
        have hmem := BlobStorage.liveFile_eq_some.mp hlive
        obtain ⟨old, hold, hobsolete, rfl⟩ := BlobStorage.mem_liveEntries.mp hmem
        exact persistent_liveFile
          ((hreplays.files cf st' hst' f _).mpr (hlog.live cf st hst f old hold hobsolete))
    | none =>
        refine liveFile_of_none (Option.eq_none_iff_forall_ne_some.mpr fun file hfile => ?_)
        have hmem := hlog.exact cf st hst f file ((hreplays.files cf st' hst' f file).mp hfile)
        rw [BlobStorage.liveFile_eq_some.mpr hmem] at hlive
        cases hlive

theorem Logged.reopens (h : Logged s) {d : Dir} {current file : File UInt8}
    (hcurrent : d currentFileName = some current)
    (hname : current.content = currentContents s.manifestFileNumber)
    (hfile : d (descriptorFileName s.manifestFileNumber) = some file)
    (hevents : manifestEvents file.content = s.manifest.map .record)
    (cfs : List (UInt32 × TitanCFOptions)) :
    ∃ set number, openSet d cfs = .ok (set, number, true) ∧ Opened set number true ∧
      s.manifestFileNumber < number ∧ Reopens (cfs.map Prod.fst) (view s) (view set) := by
  have hopened := openedSet_fresh cfs
  obtain ⟨storages, number, hreplay, hlt, hsome, hfiles⟩ := h.replay hopened
  obtain ⟨hnewline, hmanifest⟩ := manifestName_currentContents s.manifestFileNumber
  have hready : (recoverEnv d current.content).ready = .ok () := by
    rw [RecoverEnv.ready, recoverEnv, hname]
    dsimp only
    rw [if_neg (not_not.mpr hnewline), hmanifest, hfile]
    rfl
  have hcollect := collect_finish (openedSet cfs) (recoverEnv d current.content)
  have hrecords : recordsBefore (recoverEnv d current.content).events = s.manifest := by
    rw [recoverEnv, hname]
    dsimp only
    rw [hmanifest, hfile, ← recordsBefore_map s.manifest, ← hevents]
    rfl
  rw [hrecords, hreplay] at hcollect
  refine ⟨{ openedSet cfs with columnFamilies := storages, nextFileNumber := number + 1 }, number, ?_,
    ⟨fun cf st hst => wellFormed_of_nil (replay_init hopened hreplay hst).1,
      fun _ cf st hst => (replay_init hopened hreplay hst).1, rfl⟩, hlt, fun cf => ?_,
    fun cf files hlive hcf => ?_⟩
  · rw [openSet, hcurrent]
    dsimp only
    rw [hready]
    cases hc : collectEvents .ok .empty (recoverEnv d current.content).events with
    | error e =>
        rw [hc] at hcollect
        cases hcollect
    | ok c =>
        rw [hc] at hcollect
        have hfinish : c.finish (openedSet cfs).columnFamilies = .ok (storages, number) := hcollect
        change (c.finish (openedSet cfs).columnFamilies >>= _) = _
        rw [hfinish]
        rfl
  · rw [← isSome_openedSet, ← hsome, view, Option.isSome_map]
  · rw [← isSome_openedSet, ← hsome] at hcf
    obtain ⟨st', hst'⟩ := Option.isSome_iff_exists.mp hcf
    obtain ⟨st, hst, rfl⟩ := Option.map_eq_some_iff.mp hlive
    rw [← hfiles cf st st' hst hst']
    exact view_some hst'

end

end AegonKV.ManifestDisk
