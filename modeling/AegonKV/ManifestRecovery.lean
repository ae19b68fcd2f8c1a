import AegonKV.ManifestRuns

/-!
# `BlobFileSet::Recover` and corrupt manifests

The log reader reports corruption through a `LogReporter` that writes to the status variable of
`Recover`. The loop over the records stops on it, but the status is overwritten by the one of `Seal`:
recovery goes on with the records read so far, installs a new manifest and deletes the blob files
that these records do not name.
-/

namespace AegonKV
open LittleEndian

abbrev Failure := { s : Status // s.isOk = false }

/-- What the log reader does: it hands out a record, or it reports a corruption on its way to the
next record or to the end of the file. -/
inductive ReaderEvent
  | record (r : Bytes)
  | corruption (s : Failure)

inductive Child
  | blobFile (number : UInt64)
  | descriptorFile (number : UInt64)
  | other (name : String)
  deriving DecidableEq

/-- What `Recover` meets in its environment; `none` is an operation that succeeds. -/
structure RecoverEnv where
  /-- The contents of the CURRENT file. -/
  current : Except Failure Bytes
  openFile : Option Failure
  events : List ReaderEvent
  newFile : Option Failure
  writeSnapshot : Option Failure
  sync : Option Failure
  setCurrent : Option Failure
  /-- The titan directory when recovery starts. -/
  children : List Child

structure Recovered where
  status : Status
  set : BlobFileSet
  /-- The manifest that CURRENT was made to point to. -/
  installed : Option UInt64
  deleted : List Child

def kMaxSequenceNumber : ℕ := 2 ^ 56 - 1

/-- The loop of `Recover`, with the status variable that the reporter shares. -/
def collectEvents (status : Status) (c : Collecting) : List ReaderEvent → Except Status Collecting
  | [] => .ok c
  | .corruption s :: events => collectEvents (if status.isOk then s.val else status) c events
  | .record r :: events =>
    if !status.isOk then .ok c
    else
      match c.addRecord r with
      | .error e => .error e
      | .ok c => collectEvents .ok c events

namespace RecoverEnv

/-- CURRENT names a manifest that can be opened, and otherwise the error of `Recover`. -/
def ready (env : RecoverEnv) : Except Status Unit :=
  match env.current with
  | .error e => .error e.val
  | .ok manifest =>
    if manifest.getLast? ≠ some 10 then
      .error (.corruption "CURRENT file does not end with newline")
    else
      match env.openFile with
      | some e => .error e.val
      | none => .ok ()

/-- The first failure of `OpenManifest` after its file is there. -/
def failedWrite (env : RecoverEnv) : Option Failure :=
  env.writeSnapshot.or (env.sync.or env.setCurrent)

def opensManifest (env : RecoverEnv) : Bool := (env.newFile.or env.failedWrite).isNone

end RecoverEnv

def BlobFileSet.openManifest (s : BlobFileSet) (number : UInt64) (env : RecoverEnv) :
    Status × BlobFileSet :=
  match env.newFile with
  | some e => (e.val, s)
  | none =>
    match env.failedWrite with
    | some e =>
      (e.val, { s with manifest := [], obsoleteManifests := s.obsoleteManifests ++ [number] })
    | none => (.ok, { s with manifest := s.writeSnapshot, manifestFileNumber := number })

/-- `bs.second->GetObsoleteFiles(nullptr, kMaxSequenceNumber)` for one column family, and for all. -/
def purgeStorage (storages : BlobStorages) (cf : UInt32) : BlobStorages :=
  match storages.lookup cf with
  | none => storages
  | some st => storages.insert cf (st.getObsoleteFiles kMaxSequenceNumber).2

def purgeAll (storages : BlobStorages) : BlobStorages := storages.keys.foldl purgeStorage storages

def aliveFiles (storages : BlobStorages) : List UInt64 :=
  storages.entries.flatMap fun e => e.2.files.keys

def deleteInactive (alive : List UInt64) (children : List Child) : List Child :=
  children.filter fun child =>
    match child with
    | .blobFile number => number ∉ alive
    | .descriptorFile number => number ∉ alive
    | .other _ => false

def recoverSet (s : BlobFileSet) (env : RecoverEnv) : Recovered :=
  match env.ready with
  | .error e => ⟨e, s, none, []⟩
  | .ok () =>
    match collectEvents .ok .empty env.events with
    | .error e => ⟨e, s, none, []⟩
    | .ok c =>
      match c.finish s.columnFamilies with
      | .error e => ⟨e, s, none, []⟩
      | .ok (storages, number) =>
        let opened := { s with columnFamilies := storages, nextFileNumber := number + 1 }
        match opened.openManifest number env with
        | (status, s) =>
          if !status.isOk then ⟨status, s, none, []⟩
          else
            let purged := purgeAll storages
            ⟨.ok, { s with columnFamilies := purged }, some number,
              deleteInactive (number :: aliveFiles purged)
                (.descriptorFile number :: env.children.filter (· ≠ .descriptorFile number))⟩

/-- `Open` on a new set: the given column families, with empty storages. -/
def openedSet (cfs : List (UInt32 × TitanCFOptions)) : BlobFileSet :=
  BlobFileSet.addColumnFamilies ⟨∅, [], 1, [], 0, []⟩ cfs

/-! ## The loop sees a prefix of the records -/

/-- The reader reports a corruption somewhere. -/
def RecoverEnv.corrupted (env : RecoverEnv) : Bool :=
  env.events.any fun e =>
    match e with
    | .record _ => false
    | .corruption _ => true

def recordsBefore : List ReaderEvent → List Bytes
  | [] => []
  | .corruption _ :: _ => []
  | .record r :: events => r :: recordsBefore events

theorem collectEvents_of_failure {status : Status} (h : status.isOk = false) (c : Collecting)
    (events : List ReaderEvent) : collectEvents status c events = .ok c := by
  induction events with
  | nil => rfl
  | cons e events ih =>
      cases e with
      | record r => simp [collectEvents, h]
      | corruption s =>
          rw [collectEvents, h]
          exact ih

theorem collectEvents_eq (c : Collecting) (events : List ReaderEvent) :
    collectEvents .ok c events = (recordsBefore events).foldlM Collecting.addRecord c := by
  induction events generalizing c with
  | nil => rfl
  | cons e events ih =>
      cases e with
      | corruption s =>
          rw [collectEvents, Status.isOk_ok, if_pos rfl, collectEvents_of_failure s.property]
          rfl
      | record r =>
          rw [collectEvents, recordsBefore, List.foldlM_cons]
          cases hadd : c.addRecord r with
          | error e => rfl
          | ok c' => exact ih c'

/-- `Recover` on the records before the first report. -/
theorem collect_finish (s : BlobFileSet) (env : RecoverEnv) :
    (collectEvents .ok .empty env.events >>= fun c => c.finish s.columnFamilies) =
      replay s.columnFamilies (recordsBefore env.events) := by
  rw [collectEvents_eq]
  rfl

theorem openManifest_isOk (s : BlobFileSet) (number : UInt64) (env : RecoverEnv) :
    (s.openManifest number env).1.isOk = env.opensManifest := by
  rw [BlobFileSet.openManifest, RecoverEnv.opensManifest]
  cases env.newFile with
  | some e => exact e.property
  | none =>
      cases hfail : env.failedWrite with
      | some e => exact e.property
      | none => rfl

/-- All that `Recover` can do. -/
theorem recoverSet_cases (s : BlobFileSet) (env : RecoverEnv) :
    (∃ e, env.ready = .error e ∧ recoverSet s env = ⟨e, s, none, []⟩) ∨
      env.ready = .ok () ∧
        ((∃ e, replay s.columnFamilies (recordsBefore env.events) = .error e ∧
            recoverSet s env = ⟨e, s, none, []⟩) ∨
          ∃ storages number,
            replay s.columnFamilies (recordsBefore env.events) = .ok (storages, number) ∧
            ((env.opensManifest = false ∧ ∃ e set, e.isOk = false ∧
                recoverSet s env = ⟨e, set, none, []⟩) ∨
              env.opensManifest = true ∧ (recoverSet s env).status = .ok ∧
                (recoverSet s env).installed = some number ∧
                (recoverSet s env).deleted =
                  deleteInactive (number :: aliveFiles (purgeAll storages))
                    (.descriptorFile number ::
                      env.children.filter (· ≠ .descriptorFile number)))) := by
  rw [← collect_finish, recoverSet]
  cases hready : env.ready with
  | error e => exact Or.inl ⟨e, rfl, rfl⟩
  | ok u =>
      refine Or.inr ⟨rfl, ?_⟩
      dsimp only
      cases hcol : collectEvents .ok .empty env.events with
      | error e => exact Or.inl ⟨e, rfl, rfl⟩
      | ok c =>
          dsimp only
          cases hfin : c.finish s.columnFamilies with
          | error e => exact Or.inl ⟨e, by simp only [bind, Except.bind, hfin], rfl⟩
          | ok p =>
              obtain ⟨storages, number⟩ := p
              refine Or.inr ⟨storages, number, by simp only [bind, Except.bind, hfin], ?_⟩
              have hok := openManifest_isOk
                { s with columnFamilies := storages, nextFileNumber := number + 1 } number env
              dsimp only
              revert hok
              rcases BlobFileSet.openManifest _ number env with ⟨status, set⟩
              intro hok
              cases hopen : env.opensManifest with
              | false =>
                  rw [hopen] at hok
                  exact Or.inl ⟨rfl, status, set, hok, by simp [hok]⟩
              | true =>
                  rw [hopen] at hok
                  exact Or.inr ⟨rfl, by simp [hok]⟩

/-! ## What the replay leaves on fresh storages -/

def LiveFile (storages : BlobStorages) (f : UInt64) : Prop :=
  ∃ cf st file, storages.lookup cf = some st ∧ st.files.lookup f = some file ∧
    file.isObsolete = false

theorem replay_errorsOnly (storages : BlobStorages) (records : List Bytes) :
    ErrorsOnly (replay storages records) := by
  refine ErrorsOnly.bind (ErrorsOnly.foldlM (fun c record => ?_) _ _) fun c => ?_
  · refine ErrorsOnly.bind ?_ fun edit =>
      ErrorsOnly.bind (addEdit_errorsOnly _ _) fun _ => ErrorsOnly.ok _
    rw [VersionEdit.decodeFrom]
    split
    · exact ErrorsOnly.corruption _ _
    · exact ErrorsOnly.ok _
  · refine ErrorsOnly.bind (sealIn_errorsOnly _ _ _) fun _ => ?_
    split
    split_ifs with hok
    · split
      · exact ErrorsOnly.corruption _ _
      · exact ErrorsOnly.ok _
    · intro e he
      obtain rfl := Except.error.inj he
      simpa using hok

structure Collecting.Good (c : Collecting) : Prop where
  columns : c.columns.Nodup
  added : ∀ cf, ((c.collector.columnFamilies cf).addedFiles.map (·.1)).Nodup
  deleted : ∀ cf, ((c.collector.columnFamilies cf).deletedFiles.map (·.1)).Nodup
  init : ∀ cf, ∀ file ∈ (c.collector.columnFamilies cf).addedFiles, file.2.state = .kInit

theorem Collecting.Good.empty : Collecting.empty.Good :=
  ⟨List.nodup_nil, fun _ => List.nodup_nil, fun _ => List.nodup_nil, fun _ _ hf => (by cases hf)⟩

theorem Collecting.Good.addRecord {c c' : Collecting} {record : Bytes} (h : c.Good)
    (hadd : c.addRecord record = .ok c') : c'.Good := by
  simp only [Collecting.addRecord, bind, Except.bind] at hadd
  split at hadd
  · cases hadd
  · next edit hdec =>
      simp only [Collecting.addEdit, bind, Except.bind] at hadd
      split at hadd
      · cases hadd
      · next collector hcol =>
          obtain rfl := Except.ok.inj hadd
          obtain ⟨hupd, hna, hnd⟩ := addEdit_inv hcol (h.added _) (h.deleted _)
          refine ⟨?_, fun cf => ?_, fun cf => ?_, fun cf file hfile => ?_⟩
          · dsimp only
            split_ifs with hmem
            · exact h.columns
            · exact List.nodup_append'.mpr ⟨h.columns, List.nodup_singleton _, by simpa using hmem⟩
          · by_cases hcf : cf = edit.columnFamilyId
            · simpa only [hupd, hcf, Function.update_self] using hna
            · simpa only [hupd, Function.update_of_ne hcf] using h.added cf
          · by_cases hcf : cf = edit.columnFamilyId
            · simpa only [hupd, hcf, Function.update_self] using hnd
            · simpa only [hupd, Function.update_of_ne hcf] using h.deleted cf
          · by_cases hcf : cf = edit.columnFamilyId
            · simp only [hupd, hcf, Function.update_self] at hfile
              rcases List.mem_append.mp hfile with hfile | hfile
              · exact h.init _ file hfile
              · exact VersionEdit.decodeFrom_init hdec file hfile
            · simp only [hupd, Function.update_of_ne hcf] at hfile
              exact h.init cf file hfile

/-- A file that the loop has collected was there before or is in a record of its column family. -/
theorem Collecting.Good.added_foldlM {records : List Bytes} {c c' : Collecting} (h : c.Good)
    (hfold : records.foldlM Collecting.addRecord c = .ok c') {cf : UInt32} {file : UInt64 × BlobFileMeta}
    (hfile : file ∈ (c'.collector.columnFamilies cf).addedFiles) :
    file ∈ (c.collector.columnFamilies cf).addedFiles ∨ ∃ record ∈ records, ∃ edit,
      VersionEdit.decodeFrom record = .ok edit ∧ edit.columnFamilyId = cf ∧ file ∈ edit.addedFiles := by
  induction records generalizing c with
  | nil =>
      obtain rfl := Except.ok.inj hfold
      exact Or.inl hfile
  | cons record records ih =>
      rw [List.foldlM_cons] at hfold
      cases hadd : c.addRecord record with
      | error e =>
          rw [hadd] at hfold
          cases hfold
      | ok mid =>
          rw [hadd] at hfold
          rcases ih (h.addRecord hadd) hfold with hmid | ⟨r, hr, hedit⟩
          swap
          · exact Or.inr ⟨r, List.mem_cons_of_mem _ hr, hedit⟩
          simp only [Collecting.addRecord, bind, Except.bind] at hadd
          split at hadd
          · cases hadd
          · next edit hdec =>
              simp only [Collecting.addEdit, bind, Except.bind] at hadd
              split at hadd
              · cases hadd
              · next collector hcol =>
                  obtain rfl := Except.ok.inj hadd
                  obtain ⟨hupd, -, -⟩ := addEdit_inv hcol (h.added _) (h.deleted _)
                  by_cases hcf : cf = edit.columnFamilyId
                  · simp only [hupd, hcf, Function.update_self] at hmid
                    rcases List.mem_append.mp hmid with hmid | hmid
                    · exact Or.inl (hcf ▸ hmid)
                    · exact Or.inr ⟨record, List.mem_cons_self, edit, hdec, hcf.symm, hmid⟩
                  · simp only [hupd, Function.update_of_ne hcf] at hmid
                    exact Or.inl hmid

theorem Collecting.Good.foldlM {records : List Bytes} {c c' : Collecting} (h : c.Good)
    (hfold : records.foldlM Collecting.addRecord c = .ok c') : c'.Good := by
  induction records generalizing c with
  | nil =>
      obtain rfl := Except.ok.inj hfold
      exact h
  | cons record records ih =>
      rw [List.foldlM_cons] at hfold
      cases hadd : c.addRecord record with
      | error e =>
          rw [hadd] at hfold
          cases hfold
      | ok mid =>
          rw [hadd] at hfold
          exact ih (h.addRecord hadd) hfold

/-- A storage after a replay was opened and not touched, or a sealed collector has been applied. -/
theorem replay_column {opened storages : BlobStorages} {records : List Bytes} {n : UInt64}
    (h : replay opened records = .ok (storages, n)) {cf : UInt32} {st : BlobStorage}
    (hst : storages.lookup cf = some st) :
    opened.lookup cf = some st ∨ ∃ c : Collecting, records.foldlM Collecting.addRecord .empty = .ok c ∧
      c.Good ∧ ∃ st0, opened.lookup cf = some st0 ∧
      (c.collector.columnFamilies cf).apply st0 = (.ok, st) ∧
      AppliedExactly ⟨cf, none, (c.collector.columnFamilies cf).addedFiles,
        (c.collector.columnFamilies cf).deletedFiles⟩ st0 st := by
  simp only [replay, bind, Except.bind] at h
  split at h
  · cases h
  · next c hfold =>
      have hgood : c.Good := Collecting.Good.empty.foldlM hfold
      simp only [Collecting.finish, bind, Except.bind] at h
      split at h
      · cases h
      · next hseal =>
          have happ : ∀ g ∈ c.columns, ∀ st0, opened.lookup g = some st0 → ∃ st',
              (c.collector.columnFamilies g).apply st0 = (.ok, st') ∧
              AppliedExactly ⟨g, none, (c.collector.columnFamilies g).addedFiles,
                (c.collector.columnFamilies g).deletedFiles⟩ st0 st' := by
            intro g hg st0 hst0
            have hs := forM_eq_ok.mp hseal g hg
            simp only [hst0] at hs
            obtain ⟨st', happly, hst', -⟩ := @apply_of_sealed ⟨g, none, _, _⟩ st0 (hgood.added g) hs
            exact ⟨st', happly, hst'⟩
          obtain ⟨storages', happly, hspec⟩ := applyTo_spec hgood.columns fun g hg st0 hst0 => by
            obtain ⟨st', hst', -⟩ := happ g hg st0 hst0
            rw [hst']
          simp only [happly, Status.isOk_ok, if_true] at h
          split at h
          · cases h
          · obtain rfl : storages' = storages := by simpa using congrArg (·.1) (Except.ok.inj h)
            rw [hspec] at hst
            split_ifs at hst with hmem
            · obtain ⟨st0, hst0, rfl⟩ := Option.map_eq_some_iff.mp hst
              obtain ⟨st', hst', hex⟩ := happ cf hmem st0 hst0
              refine Or.inr ⟨c, hfold, hgood, st0, hst0, ?_, ?_⟩
              · rw [hst']
              · rw [hst']
                exact hex
            · exact Or.inl hst

/-- On an empty storage only files are deleted that are added. -/
theorem AppliedExactly.added_of_deleted {edit : VersionEdit BlobFileMeta} {st st' : BlobStorage}
    (h : AppliedExactly edit st st') (hempty : st.files = ∅) :
    ∀ file ∈ edit.deletedFiles, file.1 ∈ edit.addedFiles.map (·.1) := by
  intro file hfile
  by_contra hnot
  obtain ⟨old, hold, -⟩ := h.deleted file hfile hnot
  rw [hempty] at hold
  cases hold

/-- The files of a storage after a sealed collector has been applied to an empty one. -/
theorem AppliedExactly.mem_added {edit : VersionEdit BlobFileMeta} {st st' : BlobStorage}
    (h : AppliedExactly edit st st') (hempty : st.files = ∅) {f : UInt64} {file : BlobFileMeta}
    (hf : st'.files.lookup f = some file) : (f, file) ∈ edit.addedFiles := by
  have hsub : ∀ f ∈ edit.deletedFiles.map (·.1), f ∈ edit.addedFiles.map (·.1) := by
    intro f hf
    obtain ⟨file, hfile, rfl⟩ := List.mem_map.mp hf
    exact h.added_of_deleted hempty file hfile
  exact ((h.lookup_empty hempty hsub).mp hf).1

/-- After a replay on fresh storages nothing is listed as obsolete, and all files are as
`DecodeFrom` has made them. -/
theorem replay_init {opened storages : BlobStorages} {records : List Bytes} {n : UInt64}
    (hopen : FreshlyOpened opened) (h : replay opened records = .ok (storages, n)) {cf : UInt32}
    {st : BlobStorage} (hst : storages.lookup cf = some st) :
    st.obsoleteFiles = [] ∧ ∀ f file, st.files.lookup f = some file → file.state = .kInit := by
  rcases replay_column h hst with hold | ⟨c, -, hgood, st0, hst0, -, hex⟩
  · rw [hopen cf st hold]
    exact ⟨rfl, fun f file hf => (by cases hf)⟩
  · have hempty := hopen.files hst0
    refine ⟨?_, fun f file hf => hgood.init cf _ (hex.mem_added hempty hf)⟩
    rw [hex.obsolete, hopen cf st0 hst0]
    refine List.filter_eq_nil_iff.mpr fun file hfile => ?_
    simpa using hex.added_of_deleted hempty file hfile

/-- The files of a replay on fresh storages come from records of their column families. -/
theorem replay_added {opened storages : BlobStorages} {records : List Bytes} {n : UInt64}
    (hopen : FreshlyOpened opened) (h : replay opened records = .ok (storages, n)) {cf : UInt32}
    {st : BlobStorage} (hst : storages.lookup cf = some st) {f : UInt64} {file : BlobFileMeta}
    (hf : st.files.lookup f = some file) :
    ∃ record ∈ records, ∃ edit, VersionEdit.decodeFrom record = .ok edit ∧ edit.columnFamilyId = cf ∧
      (f, file) ∈ edit.addedFiles := by
  rcases replay_column h hst with hold | ⟨c, hfold, -, st0, hst0, -, hex⟩
  · rw [hopen cf st hold] at hf
    cases hf
  · have hmem := hex.mem_added (hopen.files hst0) hf
    rcases Collecting.Good.empty.added_foldlM hfold hmem with hnone | hsome
    · cases hnone
    · exact hsome

/-- Nothing is obsolete after a replay on fresh storages. -/
theorem replay_fresh {opened storages : BlobStorages} {records : List Bytes} {n : UInt64}
    (hopen : FreshlyOpened opened) (h : replay opened records = .ok (storages, n)) {cf : UInt32}
    {st : BlobStorage} (hst : storages.lookup cf = some st) :
    st.obsoleteFiles = [] ∧ ∀ f file, st.files.lookup f = some file → file.isObsolete = false := by
  obtain ⟨hnone, hinit⟩ := replay_init hopen h hst
  refine ⟨hnone, fun f file hfile => ?_⟩
  rw [BlobFileMeta.isObsolete, hinit f file hfile]
  rfl

theorem getObsoleteFiles_nil {st : BlobStorage} (h : st.obsoleteFiles = []) (oldest : ℕ) :
    (st.getObsoleteFiles oldest).2 = st := by
  obtain ⟨options, files, levels, ranges, scores, obsolete, destroyed⟩ := st
  obtain rfl : obsolete = [] := h
  rfl

theorem lookup_purgeStorage {storages : BlobStorages}
    (h : ∀ cf st, storages.lookup cf = some st → st.obsoleteFiles = []) (cf g : UInt32) :
    (purgeStorage storages cf).lookup g = storages.lookup g := by
  rw [purgeStorage]
  split
  · rfl
  · next st hst =>
      rw [getObsoleteFiles_nil (h cf st hst)]
      by_cases hg : g = cf
      · subst hg
        rw [AList.lookup_insert, hst]
      · rw [AList.lookup_insert_ne hg]

theorem lookup_purgeAll {storages : BlobStorages}
    (h : ∀ cf st, storages.lookup cf = some st → st.obsoleteFiles = []) (cf : UInt32) :
    (purgeAll storages).lookup cf = storages.lookup cf := by
  have hfold : ∀ (cfs : List UInt32) (acc : BlobStorages),
      (∀ g, acc.lookup g = storages.lookup g) →
      ∀ g, (cfs.foldl purgeStorage acc).lookup g = storages.lookup g := by
    intro cfs
    induction cfs with
    | nil => exact fun acc hacc => hacc
    | cons k cfs ih =>
        intro acc hacc
        refine ih _ fun g => ?_
        rw [lookup_purgeStorage (fun cf st hst => h cf st (hacc cf ▸ hst)), hacc]
  exact hfold _ storages (fun _ => rfl) cf

theorem mem_aliveFiles {storages : BlobStorages} {f : UInt64} :
    f ∈ aliveFiles storages ↔
      ∃ cf st, storages.lookup cf = some st ∧ (st.files.lookup f).isSome := by
  simp only [aliveFiles, List.mem_flatMap, ← AList.mem_keys, ← AList.lookup_isSome]
  constructor
  · rintro ⟨⟨cf, st⟩, he, hf⟩
    exact ⟨cf, st, AList.mem_lookup_iff.mpr he, hf⟩
  · rintro ⟨cf, st, hst, hf⟩
    exact ⟨⟨cf, st⟩, AList.mem_lookup_iff.mp hst, hf⟩

theorem mem_aliveFiles_replay {opened storages : BlobStorages} {records : List Bytes} {n f : UInt64}
    (hopen : FreshlyOpened opened) (h : replay opened records = .ok (storages, n)) :
    f ∈ aliveFiles (purgeAll storages) ↔ LiveFile storages f := by
  simp only [mem_aliveFiles, lookup_purgeAll fun cf st hst => (replay_fresh hopen h hst).1]
  constructor
  · rintro ⟨cf, st, hst, hf⟩
    obtain ⟨file, hfile⟩ := Option.isSome_iff_exists.mp hf
    exact ⟨cf, st, file, hst, hfile, (replay_fresh hopen h hst).2 f file hfile⟩
  · rintro ⟨cf, st, file, hst, hfile, -⟩
    exact ⟨cf, st, hst, by rw [hfile]; rfl⟩

/-! ## Recovery and corruption -/

/-- What is to be deleted when the new manifest has the number: blob files that are not live and
all other manifests. -/
def Inactive (storages : BlobStorages) (number : UInt64) : Child → Prop
  | .blobFile f => ¬LiveFile storages f
  | .descriptorFile f => f ≠ number
  | .other _ => False

/-- A reported corruption makes recovery fail before it acts. Without one, a recovery that replays and
writes its manifest deletes exactly what is inactive. -/
structure RecoversSafely (s : BlobFileSet) (env : RecoverEnv) : Prop where
  corrupted : env.corrupted = true → (recoverSet s env).status.isOk = false ∧
    (recoverSet s env).installed = none ∧ ∀ f, Child.blobFile f ∉ (recoverSet s env).deleted
  whole : env.corrupted = false → env.ready = .ok () → env.opensManifest = true →
    ∀ storages number, replay s.columnFamilies (recordsBefore env.events) = .ok (storages, number) →
      ∀ child, child ∈ (recoverSet s env).deleted ↔
        (child ∈ env.children ∨ child = .descriptorFile number) ∧ Inactive storages number child

/-- No corruption is reported, unless recovery fails on the records before it or cannot write its
manifest; and without one the directory has no dead blob file with the number of the new manifest and
no other manifest with the number of a live blob file. -/
structure NoLostReport (s : BlobFileSet) (env : RecoverEnv) : Prop where
  corrupted : env.corrupted = true → env.ready = .ok () → env.opensManifest = true →
    ∀ p, replay s.columnFamilies (recordsBefore env.events) ≠ .ok p
  numbers : env.corrupted = false → env.ready = .ok () → env.opensManifest = true →
    ∀ storages number, replay s.columnFamilies (recordsBefore env.events) = .ok (storages, number) →
      (Child.blobFile number ∈ env.children → LiveFile storages number) ∧
      ∀ f, Child.descriptorFile f ∈ env.children → f ≠ number → ¬LiveFile storages f

theorem ready_errorsOnly (env : RecoverEnv) : ErrorsOnly env.ready := by
  rw [RecoverEnv.ready]
  split
  · next e _ =>
      intro e' he
      obtain rfl := Except.error.inj he
      exact e.property
  · split_ifs
    · exact ErrorsOnly.corruption _ _
    · split
      · next e _ =>
          intro e' he
          obtain rfl := Except.error.inj he
          exact e.property
      · exact ErrorsOnly.ok _

/-- The set of a recovery that succeeds. -/
theorem recoverSet_ok {s : BlobFileSet} {env : RecoverEnv} (h : (recoverSet s env).status.isOk) :
    ∃ storages number,
      replay s.columnFamilies (recordsBefore env.events) = .ok (storages, number) ∧
      (recoverSet s env).set.columnFamilies = purgeAll storages ∧
      (recoverSet s env).set.manifest =
        { s with columnFamilies := storages, nextFileNumber := number + 1 }.writeSnapshot := by
  rw [← collect_finish]
  rw [recoverSet] at h ⊢
  cases hready : env.ready with
  | error e =>
      simp only [hready] at h
      cases (ready_errorsOnly env e hready).symm.trans h
  | ok u =>
      simp only [hready] at h ⊢
      cases hcol : collectEvents .ok .empty env.events with
      | error e =>
          simp only [hcol] at h
          have herrors := replay_errorsOnly s.columnFamilies (recordsBefore env.events) e
          rw [← collect_finish, hcol] at herrors
          cases (herrors rfl).symm.trans h
      | ok c =>
          simp only [hcol] at h ⊢
          cases hfin : c.finish s.columnFamilies with
          | error e =>
              simp only [hfin] at h
              have herrors := replay_errorsOnly s.columnFamilies (recordsBefore env.events) e
              rw [← collect_finish, hcol] at herrors
              cases (herrors hfin).symm.trans h
          | ok p =>
              obtain ⟨storages, number⟩ := p
              refine ⟨storages, number, hfin, ?_⟩
              simp only [hfin] at h ⊢
              rw [BlobFileSet.openManifest] at h ⊢
              cases hnew : env.newFile with
              | some e =>
                  simp only [hnew, e.property, Bool.not_false, if_true] at h
                  cases h
              | none =>
                  cases hwrite : env.failedWrite with
                  | some e =>
                      simp only [hnew, hwrite, e.property, Bool.not_false, if_true] at h
                      cases h
                  | none => exact ⟨rfl, rfl⟩

theorem openedSet_fresh (cfs : List (UInt32 × TitanCFOptions)) :
    FreshlyOpened (openedSet cfs).columnFamilies := by
  have hfold : ∀ (cfs : List (UInt32 × TitanCFOptions)) (acc : BlobStorages), FreshlyOpened acc →
      FreshlyOpened (cfs.foldl (fun storages cf =>
        if cf.1 ∈ storages then storages else storages.insert cf.1 (.empty cf.2)) acc) := by
    intro cfs
    induction cfs with
    | nil => exact fun acc hacc => hacc
    | cons cf cfs ih =>
        intro acc hacc
        refine ih _ fun g st hst => ?_
        dsimp only at hst
        split_ifs at hst
        · exact hacc g st hst
        · by_cases hg : g = cf.1
          · subst hg
            rw [AList.lookup_insert] at hst
            obtain rfl := Option.some.inj hst
            rfl
          · rw [AList.lookup_insert_ne hg] at hst
            exact hacc g st hst
  exact hfold cfs ∅ fun g st hst => (by cases hst)

theorem mem_deleteInactive {alive : List UInt64} {children : List Child} {child : Child} :
    child ∈ deleteInactive alive children ↔ child ∈ children ∧
      match child with
      | .blobFile f => f ∉ alive
      | .descriptorFile f => f ∉ alive
      | .other _ => False := by
  rw [deleteInactive, List.mem_filter]
  cases child <;> simp

/-- The deletions of a recovery that gets that far, seen as above. -/
theorem mem_deleted {opened storages : BlobStorages} {records : List Bytes} {number : UInt64}
    (hopen : FreshlyOpened opened) (h : replay opened records = .ok (storages, number))
    (children : List Child) (child : Child) :
    child ∈ deleteInactive (number :: aliveFiles (purgeAll storages))
        (.descriptorFile number :: children.filter (· ≠ .descriptorFile number)) ↔
      child ∈ children ∧
        match child with
        | .blobFile f => f ≠ number ∧ ¬LiveFile storages f
        | .descriptorFile f => f ≠ number ∧ ¬LiveFile storages f
        | .other _ => False := by
  rw [mem_deleteInactive]
  cases child with
  | blobFile f => simp [mem_aliveFiles_replay hopen h]
  | descriptorFile f =>
      simp only [List.mem_cons, Child.descriptorFile.injEq, List.mem_filter, not_or,
        mem_aliveFiles_replay hopen h, ne_eq, decide_not, Bool.not_eq_true', decide_eq_false_iff_not]
      constructor
      · rintro ⟨hmem, hne, hlive⟩
        exact ⟨(hmem.resolve_left hne).1, hne, hlive⟩
      · rintro ⟨hmem, hne, hlive⟩
        exact ⟨Or.inr ⟨hmem, hne⟩, hne, hlive⟩
  | other name => simp

/-- Recovery is safe exactly when no report is lost and no number is shared. -/
theorem recoversSafely_iff (cfs : List (UInt32 × TitanCFOptions)) (env : RecoverEnv) :
    RecoversSafely (openedSet cfs) env ↔ NoLostReport (openedSet cfs) env := by
  have hopen := openedSet_fresh cfs
  have hcases := recoverSet_cases (openedSet cfs) env
  constructor
  · intro hsafe
    refine ⟨fun hcor hready hman p hrep => ?_, fun hcor hready hman storages number hrep => ?_⟩
    · -- the status of a recovery that goes through is OK
      obtain ⟨hstatus, -⟩ := hsafe.corrupted hcor
      rcases hcases with ⟨e, hno, -⟩ | ⟨-, ⟨e, hno, -⟩ | ⟨st, n, -, ⟨hno, -⟩ | ⟨-, hok, -⟩⟩⟩
      · cases hready.symm.trans hno
      · cases hrep.symm.trans hno
      · cases hman.symm.trans hno
      · rw [hok] at hstatus
        cases hstatus
    · have hwhole := hsafe.whole hcor hready hman storages number hrep
      rcases hcases with ⟨e, hno, -⟩ | ⟨-, ⟨e, hno, -⟩ | ⟨st, n, hrep', ⟨hno, -⟩ | ⟨-, -, -, hdel⟩⟩⟩
      · cases hready.symm.trans hno
      · cases hrep.symm.trans hno
      · cases hman.symm.trans hno
      · obtain ⟨rfl, rfl⟩ : storages = st ∧ number = n := by
          simpa using Except.ok.inj (hrep.symm.trans hrep')
        rw [hdel] at hwhole
        refine ⟨fun hmem => ?_, fun f hmem hne hlive => ?_⟩
        · by_contra hdead
          have hin := (hwhole (.blobFile number)).mpr ⟨Or.inl hmem, hdead⟩
          exact ((mem_deleted hopen hrep env.children _).mp hin).2.1 rfl
        · have hin := (hwhole (.descriptorFile f)).mpr ⟨Or.inl hmem, hne⟩
          exact ((mem_deleted hopen hrep env.children _).mp hin).2.2 hlive
  · intro hcond
    refine ⟨fun hcor => ?_, fun hcor hready hman storages number hrep child => ?_⟩
    · rcases hcases with ⟨e, hno, heq⟩ | ⟨hready, ⟨e, hno, heq⟩ | ⟨st, n, hrep, ⟨-, e, set, hno, heq⟩ |
        ⟨hman, -⟩⟩⟩
      · rw [heq]
        exact ⟨ready_errorsOnly env e hno, rfl, fun f hf => (by cases hf)⟩
      · rw [heq]
        exact ⟨replay_errorsOnly _ _ e hno, rfl, fun f hf => (by cases hf)⟩
      · rw [heq]
        exact ⟨hno, rfl, fun f hf => (by cases hf)⟩
      · exact absurd hrep (hcond.corrupted hcor hready hman _)
    · obtain ⟨hblob, hdesc⟩ := hcond.numbers hcor hready hman storages number hrep
      rcases hcases with ⟨e, hno, -⟩ | ⟨-, ⟨e, hno, -⟩ | ⟨st, n, hrep', ⟨hno, -⟩ | ⟨-, -, -, hdel⟩⟩⟩
      · cases hready.symm.trans hno
      · cases hrep.symm.trans hno
      · cases hman.symm.trans hno
      · obtain ⟨rfl, rfl⟩ : storages = st ∧ number = n := by
          simpa using Except.ok.inj (hrep.symm.trans hrep')
        rw [hdel, mem_deleted hopen hrep]
        cases child with
        | blobFile f =>
            simp only [reduceCtorEq, or_false, Inactive]
            refine and_congr_right fun hmem => ⟨fun h => h.2, fun hdead => ⟨?_, hdead⟩⟩
            rintro rfl
            exact hdead (hblob hmem)
        | descriptorFile f =>
            simp only [Child.descriptorFile.injEq, Inactive]
            constructor
            · rintro ⟨hmem, hne, -⟩
              exact ⟨Or.inl hmem, hne⟩
            · rintro ⟨hmem, hne⟩
              have hmem := hmem.resolve_right hne
              exact ⟨hmem, hne, hdesc f hmem hne⟩
        | other name => simp [Inactive]

/-- The record that adds file 2 is behind a corrupt one. -/
def lostEdit : RecoverEnv where
  current := .ok [77, 65, 78, 73, 70, 69, 83, 84, 45, 49, 10]
  openFile := none
  events :=
    [.record (VersionEdit.encodeTo ⟨0, some 5, [], []⟩),
      .corruption ⟨.corruption "checksum mismatch", rfl⟩,
      .record (VersionEdit.encodeTo ⟨0, some 5, [(2, smallFile)], []⟩)]
  newFile := none
  writeSnapshot := none
  sync := none
  setCurrent := none
  children := [.blobFile 2, .descriptorFile 1]

/-- Recovery returns OK and deletes the file. -/
theorem lostEdit_not_recoversSafely :
    Child.blobFile 2 ∈ (recoverSet (openedSet [(0, ⟨bytewise, 7, 8388608, 0.5⟩)]) lostEdit).deleted ∧
      ¬RecoversSafely (openedSet [(0, ⟨bytewise, 7, 8388608, 0.5⟩)]) lostEdit := by
  have hmem : Child.blobFile 2 ∈
      (recoverSet (openedSet [(0, ⟨bytewise, 7, 8388608, 0.5⟩)]) lostEdit).deleted := by
    decide +kernel
  exact ⟨hmem, fun hsafe => (hsafe.corrupted rfl).2.2 2 hmem⟩

end AegonKV
