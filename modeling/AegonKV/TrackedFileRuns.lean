import AegonKV.HardwareAccounting
import AegonKV.ManifestRecovery
import AegonKV.TrackedFiles
import AegonKV.WalkLemmas

/-!
# Every way into a storage

A blob file is tracked once a table builder, a software GC job or a hardware job has handed it to
`LogAndApply`, or once it is read from a manifest. In a database whose manifest has been written with
the entry counts of the files, every tracked file has a bitmap of the size of its records, over all
runs, snapshots and reopenings.
-/

namespace AegonKV.Tracking
open LittleEndian TransitionSystem Kernel ByteMemory

/-! ## The files that the jobs make -/

inductive BuilderKind
  | tableBuilder (targetLevel : UInt32)
  | gcJob

def BuilderKind.level : BuilderKind → UInt32
  | .tableBuilder targetLevel => targetLevel
  | .gcJob => 0

/-- A builder that has been given its last call and whose writes have succeeded. -/
structure BuilderOutput where
  number : UInt64
  kind : BuilderKind
  options : BuilderOptions
  calls : List BuilderCall
  tagged : ∀ call ∈ calls, call.Tagged
  small : BlobFileBuilder.SmallWhileBuffered options BlobFileHeader.kVersion2 calls

namespace BuilderOutput

variable (o : BuilderOutput)

def builder : BlobFileBuilder := (buildFile o.options BlobFileHeader.kVersion2 o.calls).1

/-- The metadata of `FinishBlobFile` and of `InstallOutputBlobFiles`. -/
def file : Option BlobFileMeta := do
  let smallestKey ← toKey o.builder.smallestKey
  let largestKey ← toKey o.builder.largestKey
  let made : BlobFileMeta := {
    fileSize := UInt64.ofNat o.builder.file.length
    fileEntries := UInt64.ofNat o.builder.numEntries
    fileLevel := o.kind.level
    smallestKey := smallestKey
    largestKey := largestKey }
  match o.kind with
  | .tableBuilder _ => return { made with state := made.state.after .kFlushOrCompactionOutput }
  | .gcJob =>
    return { made with
      liveDataSize := UInt64.ofNat o.builder.liveDataSize
      state := made.state.after .kGCOutput }

end BuilderOutput

structure KernelOutput where
  number : UInt64
  comparator : Bytes → Bytes → Ordering
  inputs : List UInt64
  files : List BatchFile
  device : Mem
  outputData : Mem

inductive JobOutput
  | builder (o : BuilderOutput)
  | kernel (o : KernelOutput)

namespace JobOutput

def number : JobOutput → UInt64
  | .builder o => o.number
  | .kernel o => o.number

/-- The metadata; `none` where a job ends without a file. -/
def file : JobOutput → Option BlobFileMeta
  | .builder o => o.file
  | .kernel o =>
    (doRunGCOnHardware o.comparator o.number o.inputs o.files o.device o.outputData).map
      (·.hardwareBlobFile)

def records : JobOutput → List BlobRecord
  | .builder o => BuilderCall.records o.calls
  | .kernel o => keptRecords o.files

theorem fileEntries {o : JobOutput} {file : BlobFileMeta} (h : o.file = some file) :
    file.fileEntries = UInt64.ofNat o.records.length := by
  cases o with
  | builder o =>
      have hheld := BlobFileBuilder.buildFile_held (o := o.options) (Or.inl rfl) o.tagged o.small
      have hentries : o.builder.numEntries = (BuilderCall.records o.calls).length := hheld.2.2.2
      rw [records, ← hentries]
      change o.file = some file at h
      rw [BuilderOutput.file] at h
      obtain ⟨smallestKey, -, h⟩ := Option.bind_eq_some_iff.mp h
      obtain ⟨largestKey, -, h⟩ := Option.bind_eq_some_iff.mp h
      cases hkind : o.kind with
      | tableBuilder targetLevel =>
          rw [hkind] at h
          rw [← Option.some.inj h]
      | gcJob =>
          rw [hkind] at h
          rw [← Option.some.inj h]
  | kernel o =>
      obtain ⟨job, hjob, rfl⟩ := Option.map_eq_some_iff.mp h
      rw [(doRunGCOnHardware_cases hjob).2.2.1, records, keptRecords, List.length_map]

end JobOutput

/-- An output with its metadata. The counters of 64 bits do not wrap. -/
structure MadeFile where
  output : JobOutput
  file : BlobFileMeta
  made : output.file = some file
  fits : output.records.length < 2 ^ 64

namespace MadeFile

def number (m : MadeFile) : UInt64 := m.output.number

theorem sized (m : MadeFile) : (TrackedFile.new m.file).Sized m.output.records.length := by
  apply TrackedFile.sized_new
  rw [JobOutput.fileEntries m.made, UInt64.toNat_ofNat_of_lt' m.fits]

end MadeFile

/-! ## The database -/

structure World where
  set : BlobFileSet
  /-- `invalid_entry_indexes_` of the file that a storage has under the number. -/
  bitmaps : UInt32 → UInt64 → Option BitMap
  /-- The records of the blob files in the directory. -/
  written : UInt64 → List BlobRecord

namespace World

/-- A directory with a manifest and blob files, before the database is opened. -/
def closed (manifest : List Bytes) (written : UInt64 → List BlobRecord) : World :=
  ⟨{ openedSet [] with manifest := manifest }, fun _ _ => none, written⟩

def trackedFile (w : World) (cf : UInt32) (f : UInt64) : Option TrackedFile :=
  (w.set.fileOf cf f).map fun file => ⟨file, w.bitmaps cf f⟩

/-- `NewFileNumber` hands out numbers that no storage and no record of the manifest has. -/
def fresh (w : World) (f : UInt64) : Bool :=
  (w.set.columnFamilies.entries.all fun e => f ∉ e.2.files) &&
    w.set.manifest.all fun record => f ∉ (recordObjects record).map (·.1)

/-- A job has written a file and made its metadata. -/
def register (cf : UInt32) (w : World) (m : MadeFile) : World :=
  { w with
    bitmaps := Function.update w.bitmaps cf
      (Function.update (w.bitmaps cf) m.number (TrackedFile.new m.file).invalidEntryIndexes)
    written := Function.update w.written m.number m.output.records }

end World

def columnObjects (cf : UInt32) (record : Bytes) : List (UInt64 × TrackedFile) :=
  match VersionEdit.decodeFrom record with
  | .error _ => []
  | .ok edit => if edit.columnFamilyId = cf then recordObjects record else []

/-- The bitmaps of the files after a replay. The collector has refused a number that is added twice. -/
def replayedBitmaps (records : List Bytes) (cf : UInt32) (f : UInt64) : Option BitMap :=
  ((records.flatMap (columnObjects cf)).find? fun object => object.1 = f).bind
    (·.2.invalidEntryIndexes)

/-- An action on the set that adds no file. -/
def addsNothing : History.Action → Bool
  | .logAndApply edit _ => edit.addedFiles.isEmpty
  | _ => true

inductive Action
  /-- `Open` where there is no manifest. -/
  | create (cfs : List (UInt32 × TitanCFOptions))
  /-- `Open` of a manifest, of which a crash may have cut off the end. -/
  | reopen (cfs : List (UInt32 × TitanCFOptions)) (env : RecoverEnv)
  /-- `BatchFinishFiles`, or `InstallHardwareOutputBlobFiles`. -/
  | finishFiles (cf : UInt32) (files : List MadeFile) (io : ManifestIO)
  /-- Deletions, purges, opened and dropped column families. -/
  | manage (a : History.Action)
  /-- Anything that a callback or a job does to the live data and the state of a file. -/
  | setFile (cf : UInt32) (f : UInt64) (liveDataSize : UInt64) (state : FileState)
  /-- The bits of a compaction or of dropped rewrites. -/
  | markInvalid (cf : UInt32) (f : UInt64) (indexes : List UInt64)

/-- A step; `none` is also a null pointer that is dereferenced. -/
def step (w : World) : Action → Option World
  | .create cfs =>
    if w.set.manifest = [] then some ⟨(openedSet cfs).afterSnapshot, fun _ _ => none, w.written⟩
    else none
  | .reopen cfs env =>
    if recordsBefore env.events <+: w.set.manifest then
      let recovered := recoverSet (openedSet cfs) env
      if recovered.status.isOk then
        some ⟨recovered.set, replayedBitmaps (recordsBefore env.events), w.written⟩
      else some (.closed w.set.manifest w.written)
    else none
  | .finishFiles cf files io =>
    if (files.map (·.number)).Nodup ∧ (files.map (·.number)).all w.fresh then
      let edit : VersionEdit BlobFileMeta := ⟨cf, none, files.map fun m => (m.number, m.file), []⟩
      some { files.foldl (World.register cf) w with set := (w.set.logAndApply edit io).2 }
    else none
  | .manage a =>
    if addsNothing a then
      (History.step ⟨w.set, [], []⟩ a).map fun h => { w with set := h.set }
    else none
  | .setFile cf f liveDataSize state =>
    match w.set.columnFamilies.lookup cf with
    | none => none
    | some st =>
      (st.files.lookup f).map fun file => { w with
        set := w.set.setStorage cf
          (st.setFile f { file with liveDataSize := liveDataSize, state := state }) }
  | .markInvalid cf f indexes => do
    let t ← w.trackedFile cf f
    let invalid ← InvalidEntries.setBits (BitMap.new t.file.fileEntries.toNat) indexes 1
    match ← t.updateInvalidEntryIndexes invalid with
    | .error _ => return w
    | .ok t =>
      return { w with
        bitmaps := Function.update w.bitmaps cf
          (Function.update (w.bitmaps cf) f t.invalidEntryIndexes) }

/-! ## The invariant -/

/-- The record has the entry counts of the files that it adds, and bitmaps come with them. -/
def Described (written : UInt64 → List BlobRecord) (record : Bytes) : Prop :=
  ∀ object ∈ recordObjects record, object.2.Sized (written object.1).length

/-- The records of the manifest describe the files, and the files in memory have their bitmaps. -/
structure Kept (bitmaps : UInt32 → UInt64 → Option BitMap) (written : UInt64 → List BlobRecord)
    (s : BlobFileSet) : Prop where
  described : ∀ record ∈ s.manifest, Described written record
  sized : ∀ cf st, s.columnFamilies.lookup cf = some st → ∀ f file, st.files.lookup f = some file →
    (TrackedFile.mk file (bitmaps cf f)).Sized (written f).length

variable {bitmaps : UInt32 → UInt64 → Option BitMap} {written : UInt64 → List BlobRecord}
  {s : BlobFileSet} {edit : VersionEdit BlobFileMeta} {io : ManifestIO}

theorem Described.congr {written' : UInt64 → List BlobRecord} {record : Bytes}
    (h : Described written record)
    (hsame : ∀ f ∈ (recordObjects record).map (·.1), written' f = written f) :
    Described written' record := by
  intro object hobject
  rw [hsame _ (List.mem_map_of_mem hobject)]
  exact h object hobject

theorem described_encodeTo
    (h : ∀ file ∈ edit.addedFiles, file.2.fileEntries.toNat = (written file.1).length) :
    Described written edit.encodeTo := by
  intro object hobject
  rw [recordObjects_encodeTo] at hobject
  obtain ⟨file, hfile, rfl⟩ := List.mem_map.mp hobject
  exact TrackedFile.sized_new (h file hfile)

theorem sized_of_entries {file file' : BlobFileMeta} {bits : Option BitMap} {n : ℕ}
    (h : (TrackedFile.mk file bits).Sized n) (hsame : file'.fileEntries = file.fileEntries) :
    (TrackedFile.mk file' bits).Sized n := by
  obtain ⟨bm, hbm, hvalid⟩ := h.present
  exact ⟨⟨bm, hbm, hvalid.trans (congrArg UInt64.toNat hsame.symm)⟩,
    (congrArg UInt64.toNat hsame).trans h.entries⟩

/-- A call whose new files have bitmaps of their sizes. -/
theorem Kept.logAndApply (h : Kept bitmaps written s)
    (hadd : ∀ file ∈ edit.addedFiles,
      (TrackedFile.mk file.2 (bitmaps edit.columnFamilyId file.1)).Sized (written file.1).length) :
    Kept bitmaps written (s.logAndApply edit io).2 := by
  have hlogged : ∀ record ∈ (s.logged edit).manifest, Described written record := by
    intro record hrecord
    rcases List.mem_append.mp hrecord with hold | hnew
    · exact h.described record hold
    · obtain rfl := List.mem_singleton.mp hnew
      exact described_encodeTo fun file hfile => (hadd file hfile).entries
  refine ⟨?_, fun cf st' hst' f file hf => ?_⟩
  · rcases BlobFileSet.logAndApply_cases s edit io with ⟨-, hs, -⟩ | ⟨-, -, -, -, hs⟩ |
      ⟨-, -, -, -, storages, -, hs⟩
    · rw [hs]
      exact h.described
    · rw [hs]
      exact hlogged
    · rw [hs]
      exact hlogged
  · rcases BlobFileSet.origin_logAndApply hst' hf with ⟨rfl, hnew⟩ | ⟨st, old, hst, hold, hsame⟩
    · exact hadd (f, file) hnew
    · refine sized_of_entries (h.sized cf st hst f old hold) ?_
      rcases hsame with rfl | rfl
      · rfl
      · rfl

/-- What adds no file keeps the invariant. -/
theorem kept_preserved :
    Preserved (fun _ edit _ => edit.addedFiles = []) (Kept bitmaps written) where
  call s edit io h hnone := h.logAndApply fun file hfile => by
    rw [hnone] at hfile
    cases hfile
  shrink s s' h hmanifest _ hshrink := by
    refine ⟨hmanifest ▸ h.described, fun cf st' hst' f file hf => ?_⟩
    obtain ⟨st, hst, hsub⟩ := hshrink cf st' hst'
    exact h.sized cf st hst f file (hsub.sub f file hf)
  number s n h _ := ⟨h.described, h.sized⟩
  opens s cf options h _ := by
    refine ⟨h.described, fun g st hst f file hf => ?_⟩
    rw [lookup_addColumnFamilies] at hst
    rcases Option.or_eq_some_iff.mp hst with hold | ⟨-, hnew⟩
    · exact h.sized g st hold f file hf
    · split_ifs at hnew
      obtain rfl := Option.some.inj hnew
      cases hf

theorem callsMeet_of_addsNothing {a : History.Action} (ha : addsNothing a = true) (h : History) :
    h.CallsMeet (fun _ edit _ => edit.addedFiles = []) a := by
  cases a with
  | logAndApply edit io => exact List.isEmpty_iff.mp ha
  | dropColumnFamilies cfs seq =>
      have hdrop : ∀ (cfs : List (UInt32 × ManifestIO)) (s : BlobFileSet),
          History.DropMeets (fun _ edit _ => edit.addedFiles = []) seq s cfs := by
        intro cfs
        induction cfs with
        | nil => exact fun _ => trivial
        | cons cf cfs ih => exact fun s st _ => ⟨rfl, fun _ => ih _⟩
      exact hdrop cfs h.set
  | deleteBlobFilesInRanges cf ranges includeEnd seq io => exact fun st _ => rfl
  | newFileNumber => trivial
  | getObsoleteFiles oldest => trivial
  | maybeDestroyColumnFamily cf => trivial
  | addColumnFamilies cf options => trivial

/-! ## New files -/

theorem register_of_notMem {files : List MadeFile} {f : UInt64} (h : f ∉ files.map (·.number))
    (cf : UInt32) (w : World) :
    (files.foldl (World.register cf) w).written f = w.written f ∧
      ∀ g, (files.foldl (World.register cf) w).bitmaps g f = w.bitmaps g f := by
  induction files generalizing w with
  | nil => exact ⟨rfl, fun _ => rfl⟩
  | cons m files ih =>
      rw [List.map_cons, List.mem_cons, not_or] at h
      obtain ⟨hwritten, hbitmaps⟩ := ih h.2 (w.register cf m)
      refine ⟨hwritten.trans (Function.update_of_ne h.1 _ _), fun g => (hbitmaps g).trans ?_⟩
      by_cases hg : g = cf
      · subst hg
        simp only [World.register, Function.update_self, Function.update_of_ne h.1]
      · simp only [World.register, Function.update_of_ne hg]

theorem register_of_mem {files : List MadeFile} (hn : (files.map (·.number)).Nodup) {m : MadeFile}
    (hm : m ∈ files) (cf : UInt32) (w : World) :
    (files.foldl (World.register cf) w).written m.number = m.output.records ∧
      (files.foldl (World.register cf) w).bitmaps cf m.number =
        (TrackedFile.new m.file).invalidEntryIndexes := by
  induction files generalizing w with
  | nil => cases hm
  | cons k files ih =>
      obtain ⟨hk, hn⟩ := List.nodup_cons.mp hn
      rcases List.mem_cons.mp hm with rfl | hm
      · obtain ⟨hwritten, hbitmaps⟩ := register_of_notMem hk cf (w.register cf m)
        rw [List.foldl_cons, hwritten, hbitmaps]
        simp only [World.register, Function.update_self, and_self]
      · exact ih hn hm (w.register cf k)

/-- Fresh numbers are in no storage and in no record. -/
theorem not_named_of_fresh {w : World} {f : UInt64} (h : w.fresh f = true) :
    (∀ cf st, w.set.columnFamilies.lookup cf = some st → st.files.lookup f = none) ∧
      ∀ record ∈ w.set.manifest, f ∉ (recordObjects record).map (·.1) := by
  rw [World.fresh, Bool.and_eq_true, List.all_eq_true, List.all_eq_true] at h
  refine ⟨fun cf st hst => ?_, fun record hrecord => of_decide_eq_true (h.2 record hrecord)⟩
  exact AList.lookup_eq_none.mpr (of_decide_eq_true (h.1 ⟨cf, st⟩ (AList.mem_lookup_iff.mp hst)))

theorem Kept.finishFiles {w : World} (h : Kept w.bitmaps w.written w.set) {files : List MadeFile}
    (hn : (files.map (·.number)).Nodup) (hfresh : ∀ f ∈ files.map (·.number), w.fresh f = true)
    (cf : UInt32) (io : ManifestIO) :
    Kept (files.foldl (World.register cf) w).bitmaps (files.foldl (World.register cf) w).written
      (w.set.logAndApply ⟨cf, none, files.map fun m => (m.number, m.file), []⟩ io).2 := by
  have hsame : Kept (files.foldl (World.register cf) w).bitmaps
      (files.foldl (World.register cf) w).written w.set := by
    refine ⟨fun record hrecord => (h.described record hrecord).congr fun f hf => ?_,
      fun g st hst f file hf => ?_⟩
    · have hnot : f ∉ files.map (·.number) := fun hmem =>
        (not_named_of_fresh (hfresh f hmem)).2 record hrecord hf
      exact (register_of_notMem hnot cf w).1
    · have hnot : f ∉ files.map (·.number) := by
        intro hmem
        cases hf.symm.trans ((not_named_of_fresh (hfresh f hmem)).1 g st hst)
      obtain ⟨hwritten, hbitmaps⟩ := register_of_notMem hnot cf w
      rw [hwritten, hbitmaps]
      exact h.sized g st hst f file hf
  refine hsame.logAndApply fun file hfile => ?_
  obtain ⟨m, hm, rfl⟩ := List.mem_map.mp hfile
  obtain ⟨hwritten, hbitmaps⟩ := register_of_mem hn hm cf w
  rw [hwritten, hbitmaps]
  exact m.sized

/-! ## Reopening -/

theorem kept_snapshot (h : ∀ cf st, s.columnFamilies.lookup cf = some st →
    ∀ f file, st.files.lookup f = some file → file.fileEntries.toNat = (written f).length) :
    ∀ record ∈ s.writeSnapshot, Described written record := by
  intro record hrecord
  obtain ⟨edit, hedit, rfl⟩ := List.mem_map.mp hrecord
  apply described_encodeTo
  rcases List.mem_cons.mp hedit with rfl | hedit
  · exact fun file hfile => (by cases hfile)
  · obtain ⟨e, he, rfl⟩ := List.mem_map.mp hedit
    intro file hfile
    obtain ⟨entry, hentry, rfl⟩ := List.mem_map.mp hfile
    have hst := AList.mem_lookup_iff.mpr he
    exact h e.1 e.2 hst entry.1 entry.2 (AList.mem_lookup_iff.mpr (List.mem_of_mem_filter hentry))

/-- The objects of a replay have the sizes that the records tell. -/
theorem sized_replayed {records : List Bytes} (h : ∀ record ∈ records, Described written record)
    {record : Bytes} (hrecord : record ∈ records) (hdec : VersionEdit.decodeFrom record = .ok edit)
    {f : UInt64} {file : BlobFileMeta} (hf : (f, file) ∈ edit.addedFiles) :
    (TrackedFile.mk file (replayedBitmaps records edit.columnFamilyId f)).Sized (written f).length := by
  rw [addedFiles_eq_recordObjects hdec] at hf
  obtain ⟨object, hobject, heq⟩ := List.mem_map.mp hf
  obtain ⟨rfl, rfl⟩ := Prod.mk.inj heq
  have hcolumn : object ∈ records.flatMap (columnObjects edit.columnFamilyId) := by
    refine List.mem_flatMap.mpr ⟨record, hrecord, ?_⟩
    rw [columnObjects, hdec]
    dsimp only
    rw [if_pos rfl]
    exact hobject
  -- the first object with the number is as good as any other
  have hfound : ((records.flatMap (columnObjects edit.columnFamilyId)).find? fun other =>
      other.1 = object.1).isSome :=
    List.find?_isSome.mpr ⟨object, hcolumn, decide_eq_true rfl⟩
  obtain ⟨first, hfirst⟩ := Option.isSome_iff_exists.mp hfound
  have hdecided := List.find?_some hfirst
  have hnumber : first.1 = object.1 := of_decide_eq_true hdecided
  obtain ⟨record', hrecord', hmem⟩ := List.mem_flatMap.mp (List.mem_of_find?_eq_some hfirst)
  have hin : first ∈ recordObjects record' := by
    rw [columnObjects] at hmem
    split at hmem
    · cases hmem
    · split_ifs at hmem
      · exact hmem
      · cases hmem
  have hfirstSized := h record' hrecord' first hin
  have hentries := (h record hrecord object hobject).entries
  obtain ⟨bits, hbits, hvalid⟩ := hfirstSized.present
  refine ⟨⟨bits, ?_, ?_⟩, hentries⟩
  · rw [replayedBitmaps, hfirst]
    exact hbits
  · rw [hvalid, hfirstSized.entries, hnumber]
    exact hentries.symm

theorem Kept.reopen (h : Kept bitmaps written s) {cfs : List (UInt32 × TitanCFOptions)}
    {env : RecoverEnv} (hpre : recordsBefore env.events <+: s.manifest)
    (hok : (recoverSet (openedSet cfs) env).status.isOk) :
    Kept (replayedBitmaps (recordsBefore env.events)) written (recoverSet (openedSet cfs) env).set := by
  have hopen := openedSet_fresh cfs
  obtain ⟨storages, number, hreplay, hset, hmanifest⟩ := recoverSet_ok hok
  have hdescribed : ∀ record ∈ recordsBefore env.events, Described written record :=
    fun record hrecord => h.described record (hpre.subset hrecord)
  have hsized : ∀ cf st, storages.lookup cf = some st → ∀ f file, st.files.lookup f = some file →
      (TrackedFile.mk file (replayedBitmaps (recordsBefore env.events) cf f)).Sized
        (written f).length := by
    intro cf st hst f file hf
    obtain ⟨record, hrecord, edit, hdec, rfl, hmem⟩ := replay_added hopen hreplay hst hf
    exact sized_replayed hdescribed hrecord hdec hmem
  refine ⟨?_, fun cf st hst => ?_⟩
  · rw [hmanifest]
    exact kept_snapshot fun cf st hst f file hf => (hsized cf st hst f file hf).entries
  · rw [hset, lookup_purgeAll fun g st hg => (replay_init hopen hreplay hg).1] at hst
    exact hsized cf st hst

/-! ## Runs -/

def World.Keeps (w : World) : Prop := Kept w.bitmaps w.written w.set

theorem kept_closed {manifest : List Bytes} (h : ∀ record ∈ manifest, Described written record) :
    (World.closed manifest written).Keeps :=
  ⟨h, fun cf st hst => (by cases hst)⟩

theorem keeps_setFile {w w' : World} {cf : UInt32} {f liveDataSize : UInt64} {state : FileState}
    (h : w.Keeps) (hs : step w (.setFile cf f liveDataSize state) = some w') : w'.Keeps := by
  rw [step] at hs
  cases hst : w.set.columnFamilies.lookup cf with
  | none =>
      rw [hst] at hs
      cases hs
  | some st =>
      rw [hst] at hs
      obtain ⟨file, hfile, rfl⟩ := Option.map_eq_some_iff.mp hs
      refine ⟨h.described, fun g st' hst' n file' hn => ?_⟩
      by_cases hg : g = cf
      · subst hg
        obtain rfl := Option.some.inj ((AList.lookup_insert _).symm.trans hst')
        by_cases hf : n = f
        · subst hf
          obtain rfl := Option.some.inj ((BlobStorage.lookup_setFile_self _ _ _).symm.trans hn)
          exact sized_of_entries (h.sized g st hst n file hfile) rfl
        · rw [BlobStorage.lookup_setFile_ne st _ hf] at hn
          exact h.sized g st hst n file' hn
      · have hsame := (AList.lookup_insert_ne hg).symm.trans hst'
        exact h.sized g st' hsame n file' hn

theorem keeps_markInvalid {w w' : World} {cf : UInt32} {f : UInt64} {indexes : List UInt64}
    (h : w.Keeps) (hs : step w (.markInvalid cf f indexes) = some w') : w'.Keeps := by
  obtain ⟨t, ht, hs⟩ := Option.bind_eq_some_iff.mp hs
  obtain ⟨invalid, -, hs⟩ := Option.bind_eq_some_iff.mp hs
  obtain ⟨result, hresult, hs⟩ := Option.bind_eq_some_iff.mp hs
  cases result with
  | error e =>
      obtain rfl := Option.some.inj hs
      exact h
  | ok t' =>
      obtain rfl := Option.some.inj hs
      refine ⟨h.described, fun g st hst n file hn => ?_⟩
      have hsized := h.sized g st hst n file hn
      by_cases hg : g = cf
      · subst hg
        by_cases hf : n = f
        · subst hf
          have hfile : w.trackedFile g n = some ⟨file, w.bitmaps g n⟩ := by
            rw [World.trackedFile, BlobFileSet.fileOf, hst, Option.bind_some, hn, Option.map_some]
          obtain rfl := Option.some.inj (hfile.symm.trans ht)
          obtain ⟨hupdated, hsame⟩ := hsized.updated hresult
          simp only [Function.update_self]
          exact sized_of_entries hupdated (congrArg _ hsame.symm)
        · simp only [Function.update_self, Function.update_of_ne hf]
          exact hsized
      · simp only [Function.update_of_ne hg]
        exact hsized

theorem keeps_step (w : World) (a : Action) (w' : World) (h : w.Keeps) (hs : step w a = some w') :
    w'.Keeps := by
  cases a with
  | create cfs =>
      rw [step] at hs
      split_ifs at hs
      obtain rfl := Option.some.inj hs
      have hempty : ∀ cf st, (openedSet cfs).columnFamilies.lookup cf = some st →
          ∀ f, st.files.lookup f = none := by
        intro cf st hst f
        rw [(openedSet_fresh cfs).files hst]
        rfl
      refine ⟨kept_snapshot fun cf st hst f file hf => ?_, fun cf st hst f file hf => ?_⟩
      · cases (hempty cf st hst f).symm.trans hf
      · cases (hempty cf st hst f).symm.trans hf
  | reopen cfs env =>
      rw [step] at hs
      split_ifs at hs with hpre
      dsimp only at hs
      split_ifs at hs with hok
      · obtain rfl := Option.some.inj hs
        exact h.reopen hpre hok
      · obtain rfl := Option.some.inj hs
        exact kept_closed h.described
  | finishFiles cf files io =>
      rw [step] at hs
      split_ifs at hs with hguard
      obtain rfl := Option.some.inj hs
      exact h.finishFiles hguard.1 (List.all_eq_true.mp hguard.2) cf io
  | manage a =>
      rw [step] at hs
      split_ifs at hs with hadds
      obtain ⟨h', hstep, rfl⟩ := Option.map_eq_some_iff.mp hs
      exact kept_preserved.step (h := ⟨w.set, [], []⟩) h (callsMeet_of_addsNothing hadds _) hstep
  | setFile cf f liveDataSize state => exact keeps_setFile h hs
  | markInvalid cf f indexes => exact keeps_markInvalid h hs

/-- In every run from a manifest that describes the blob files, every file that a storage has can be
used. -/
theorem trackedFiles_usable {manifest : List Bytes} {written : UInt64 → List BlobRecord}
    {as : List Action} {w : World} (hdescribed : ∀ record ∈ manifest, Described written record)
    (hrun : run step (.closed manifest written) as = some w) {cf : UInt32} {f : UInt64}
    {t : TrackedFile} (ht : w.trackedFile cf f = some t) : t.Usable (w.written f).length := by
  have hkept := run_invariant_always keeps_step (kept_closed hdescribed) hrun
  obtain ⟨file, hfile, rfl⟩ := Option.map_eq_some_iff.mp ht
  obtain ⟨st, hst, hfile⟩ := Option.bind_eq_some_iff.mp hfile
  exact (hkept.sized cf st hst f file hfile).usable

/-! ## Runs on a small directory -/

def readsAll (records : List Bytes) : RecoverEnv where
  current := .ok [77, 65, 78, 73, 70, 69, 83, 84, 45, 49, 10]
  openFile := none
  events := records.map .record
  newFile := none
  writeSnapshot := none
  sync := none
  setCurrent := none
  children := []

def threeRecords (f : UInt64) : List BlobRecord :=
  if f = 5 then [⟨[1], [10]⟩, ⟨[2], [20]⟩, ⟨[3], [30]⟩] else []

def describedManifest : List Bytes :=
  [VersionEdit.encodeTo ⟨0, some 6, [(5, { smallFile with fileEntries := 3 })], []⟩]

def someOptions : List (UInt32 × TitanCFOptions) := [(0, ⟨bytewise, 7, 8388608, 0.5⟩)]

def oneCall : BuilderOutput where
  number := 7
  kind := .gcJob
  options := smallTrainOptions
  calls := [.add ⟨[2], [20]⟩ { key := [2] }]
  tagged := List.forall_mem_singleton.mpr rfl
  small := by
    intro pre ctx post hsplit
    have hmem : BuilderCall.addSmall ctx ∈ [BuilderCall.add ⟨[2], [20]⟩ { key := [2] }] :=
      hsplit ▸ List.mem_append_right pre List.mem_cons_self
    cases List.mem_singleton.mp hmem

theorem oneCall_makes : oneCall.file.isSome = true := by decide +kernel

def oneMade : MadeFile where
  output := .builder oneCall
  file := oneCall.file.get oneCall_makes
  made := (Option.some_get _).symm
  fits := by decide

def describedRun : List Action :=
  [.reopen someOptions (readsAll describedManifest), .finishFiles 0 [oneMade] ioOk,
    .markInvalid 0 5 [2]]

theorem describedRun_usable :
    ∃ w, run step (.closed describedManifest threeRecords) describedRun = some w ∧
      ∃ t, w.trackedFile 0 5 = some t ∧ t.Usable (w.written 5).length := by
  have hdescribed : ∀ record ∈ describedManifest, Described threeRecords record := by
    refine List.forall_mem_singleton.mpr (described_encodeTo ?_)
    exact List.forall_mem_singleton.mpr (by decide)
  have htracked : ((run step (.closed describedManifest threeRecords) describedRun).bind
      fun w => w.trackedFile 0 5).isSome := by
    decide +kernel
  obtain ⟨t, ht⟩ := Option.isSome_iff_exists.mp htracked
  obtain ⟨w, hrun, ht⟩ := Option.bind_eq_some_iff.mp ht
  exact ⟨w, hrun, t, ht, trackedFiles_usable hdescribed hrun ht⟩

/-- A manifest of a version that did not record entry counts: file 5 has 100 bytes. -/
def legacyRecord : Bytes :=
  putVarint32 VersionEdit.kNextFileNumber ++ putVarint64 6 ++
    (putVarint32 VersionEdit.kColumnFamilyID ++ putVarint32 0) ++
      (putVarint32 VersionEdit.kAddedBlobFile ++ putVarint64 5 ++ putVarint64 100)

/-- The manifest that the first `Open` writes. -/
def legacySnapshot : List Bytes :=
  (recoverSet (openedSet someOptions) (readsAll [legacyRecord])).set.manifest

def legacyRun : List Action :=
  [.reopen someOptions (readsAll [legacyRecord]), .reopen someOptions (readsAll legacySnapshot)]

/-- What a run leaves of a tracked file: whether there is a bitmap, the entry count, and the number of
records. -/
def leaves (w : World) (as : List Action) (cf : UInt32) (f : UInt64) : Option (Bool × UInt64 × ℕ) :=
  (run step w as).bind fun w => (w.trackedFile cf f).map fun t =>
    (t.invalidEntryIndexes.isSome, t.file.fileEntries, (w.written f).length)

theorem exists_of_leaves {w : World} {as : List Action} {cf : UInt32} {f entries : UInt64}
    {present : Bool} {n : ℕ} (h : leaves w as cf f = some (present, entries, n)) :
    ∃ w', run step w as = some w' ∧ ∃ t, w'.trackedFile cf f = some t ∧
      t.invalidEntryIndexes.isSome = present ∧ t.file.fileEntries = entries ∧
      (w'.written f).length = n := by
  obtain ⟨w', hrun, h⟩ := Option.bind_eq_some_iff.mp h
  obtain ⟨t, ht, heq⟩ := Option.map_eq_some_iff.mp h
  obtain ⟨hpresent, hrest⟩ := Prod.mk.inj heq
  obtain ⟨hentries, hlen⟩ := Prod.mk.inj hrest
  exact ⟨w', hrun, t, ht, hpresent, hentries, hlen⟩

/-- After the first `Open` the file has no bitmap. The snapshot gives it an entry count of 0, so that
after the second one its bitmap has no bits for its three records. -/
theorem legacyRun_notUsable :
    (∃ w, run step (.closed [legacyRecord] threeRecords) (legacyRun.take 1) = some w ∧
      ∃ t, w.trackedFile 0 5 = some t ∧ ¬t.Usable (w.written 5).length) ∧
    ∃ w, run step (.closed [legacyRecord] threeRecords) legacyRun = some w ∧
      ∃ t, w.trackedFile 0 5 = some t ∧ ¬t.Usable (w.written 5).length := by
  constructor
  · obtain ⟨w, hrun, t, ht, hnone, -, -⟩ := exists_of_leaves (show leaves
      (.closed [legacyRecord] threeRecords) (legacyRun.take 1) 0 5 = some (false, 0, 3) by
        decide +kernel)
    exact ⟨w, hrun, t, ht, TrackedFile.not_usable_of_null (Option.isSome_eq_false_iff.mp hnone |>
      Option.isNone_iff_eq_none.mp) _⟩
  · obtain ⟨w, hrun, t, ht, -, hzero, hlen⟩ := exists_of_leaves (show leaves
      (.closed [legacyRecord] threeRecords) legacyRun 0 5 = some (true, 0, 3) by decide +kernel)
    refine ⟨w, hrun, t, ht, fun husable => ?_⟩
    have hentries := husable.sized.entries
    rw [hzero, hlen] at hentries
    cases hentries

end AegonKV.Tracking
