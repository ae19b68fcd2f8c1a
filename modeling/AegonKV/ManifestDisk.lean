import AegonKV.DurableFiles
import AegonKV.FileNames
import AegonKV.LogRoundTrip
import AegonKV.ManifestExact
import AegonKV.ManifestRecovery

/-!
# The manifest on disk

`Open` recovers from the manifest that CURRENT names, writes a snapshot to a new manifest and makes
CURRENT point to it. `LogAndApply` appends a record, syncs the manifest and applies the edit. The
process may crash between any two of these steps, which are apart where something is synced, and it
goes down the same way when one of them fails.
-/

namespace AegonKV.ManifestDisk
open LittleEndian DurableFiles TransitionSystem FileName

abbrev Dir := DurableFiles.Dir (List Char) UInt8

def newWriter : Log.Writer := ⟨0, 0, false⟩

/-- The reporter of `Recover` keeps the status. -/
def readerEvent : Log.Event → ReaderEvent
  | .record r => .record r
  | .corruption report => .corruption report.status

def manifestEvents (file : Bytes) : List ReaderEvent :=
  ((Log.readLog .kTolerateCorruptedTailRecords (.start 0 file)).getD []).map readerEvent

/-- What `Recover` meets in the directory, with the contents of CURRENT. -/
def recoverEnv (d : Dir) (current : Bytes) : RecoverEnv where
  current := .ok current
  openFile := if (d (manifestName current)).isSome then none else some ⟨.notFound "", rfl⟩
  events := manifestEvents (((d (manifestName current)).map (·.content)).getD [])
  newFile := none
  writeSnapshot := none
  sync := none
  setCurrent := none
  children := []

/-- `Open` up to `OpenManifest`: the set, with the number of its manifest, and whether it is
recovered. -/
def openSet (d : Dir) (cfs : List (UInt32 × TitanCFOptions)) :
    Except Status (BlobFileSet × UInt64 × Bool) :=
  let s := openedSet cfs
  match d currentFileName with
  | none => .ok ({ s with nextFileNumber := s.nextFileNumber + 1 }, s.nextFileNumber, false)
  | some current => do
    let env := recoverEnv d current.content
    env.ready
    let c ← collectEvents .ok .empty env.events
    let (storages, number) ← c.finish s.columnFamilies
    return ({ s with columnFamilies := storages, nextFileNumber := number + 1 }, number, true)

/-- How far `OpenManifest` is: the snapshot is written, it is synced, and `SetCurrentFile` has written
and synced its temporary file. -/
inductive Stage
  | written | synced | tempWritten | tempSynced
  deriving DecidableEq

inductive Process
  | down
  | opening (set : BlobFileSet) (number : UInt64) (recovered : Bool) (stage : Stage)
  /-- `Recover` deletes inactive files. -/
  | purging (set : BlobFileSet) (aliveFiles : List UInt64)
  | running (set : BlobFileSet)
  /-- `LogAndApply` has added its record. The set after the call is `next`. -/
  | logging (set next : BlobFileSet)

/-- The directory of the blob file set, and the process that has it open. The bytes that the log writer
of a manifest appends follow from the records before. -/
structure State where
  dir : Dir
  process : Process

def State.init : State := ⟨fun _ => none, .down⟩

inductive Action
  | openSet (cfs : List (UInt32 × TitanCFOptions))
  | syncManifest
  | writeTemp
  | syncTemp
  | setCurrent
  | deleteFile (fname : List Char)
  | opened
  | newFileNumber
  | addRecord (edit : VersionEdit BlobFileMeta)
  | applyEdit
  | dropColumn (cf : UInt32)
  | getObsoleteFiles (oldestSequence : ℕ)
  | maybeDestroyColumnFamily (cf : UInt32)
  | addColumnFamilies (cf : UInt32) (options : TitanCFOptions)
  | crash (kept : List Char → ℕ)

def recordBytes (records : List Bytes) (record : Bytes) : Bytes :=
  ((newWriter.addRecords records).2.addRecord record).1

/-- The set when CURRENT points to its manifest. -/
def installed (set : BlobFileSet) (number : UInt64) (recovered : Bool) : BlobFileSet :=
  { set with
    columnFamilies := if recovered then purgeAll set.columnFamilies else set.columnFamilies
    manifest := set.writeSnapshot
    manifestFileNumber := number }

/-- `NewFileNumber`, while the 64-bit counter lasts. -/
def takeNumber (set : BlobFileSet) : Option BlobFileSet :=
  if set.nextFileNumber.toNat + 1 < 2 ^ 64 then
    some { set with nextFileNumber := set.nextFileNumber + 1 }
  else none

def openStep (m : State) (cfs : List (UInt32 × TitanCFOptions)) : Option State :=
  match m.process with
  | .down =>
    match openSet m.dir cfs with
    | .error _ => some m
    | .ok (set, number, recovered) =>
      if number.toNat + 1 < 2 ^ 64 then
        some {
          dir := (m.dir.create (descriptorFileName number)).append (descriptorFileName number)
            (newWriter.addRecords set.writeSnapshot).1
          process := .opening set number recovered .written }
      else none
  | _ => none

/-- `OpenManifest` and `SetCurrentFile` behind the snapshot. -/
def openingStep (m : State) : Action → Option State
  | .syncManifest =>
    match m.process with
    | .opening set number recovered .written => some {
        dir := m.dir.sync (descriptorFileName number)
        process := .opening set number recovered .synced }
    | _ => none
  | .writeTemp =>
    match m.process with
    | .opening set number recovered .synced => some {
        dir := (m.dir.create (tempPlainFileName number)).append (tempPlainFileName number)
          (currentContents number)
        process := .opening set number recovered .tempWritten }
    | _ => none
  | .syncTemp =>
    match m.process with
    | .opening set number recovered .tempWritten => some {
        dir := m.dir.sync (tempPlainFileName number)
        process := .opening set number recovered .tempSynced }
    | _ => none
  | .setCurrent =>
    match m.process with
    | .opening set number recovered .tempSynced =>
      let set := installed set number recovered
      some {
        dir := m.dir.rename (tempPlainFileName number) currentFileName
        process :=
          if recovered then .purging set (number :: aliveFiles set.columnFamilies) else .running set }
    | _ => none
  | _ => none

/-- `LogAndApply` up to the sync. An edit that is not accepted changes nothing. -/
def addRecordStep (m : State) (edit : VersionEdit BlobFileMeta) : Option State :=
  match m.process with
  | .running set =>
    match set.logAndApply edit ioOk with
    | (status, next) =>
      if status.isOk then
        some {
          dir := m.dir.append (descriptorFileName set.manifestFileNumber)
            (recordBytes set.manifest (set.withNext edit).encodeTo)
          process := .logging set next }
      else some m
  | _ => none

/-- A change of the set in memory, by a thread that holds the mutex. -/
def memoryStep (m : State) (change : BlobFileSet → BlobFileSet) : Option State :=
  match m.process with
  | .running set => some { m with process := .running (change set) }
  | _ => none

def step (m : State) : Action → Option State
  | .openSet cfs => openStep m cfs
  | .syncManifest => openingStep m .syncManifest
  | .writeTemp => openingStep m .writeTemp
  | .syncTemp => openingStep m .syncTemp
  | .setCurrent => openingStep m .setCurrent
  | .deleteFile fname =>
    match m.process with
    | .purging _ aliveFiles =>
      if purges aliveFiles fname then some { m with dir := m.dir.delete fname } else none
    | _ => none
  | .opened =>
    match m.process with
    | .purging set _ => some { m with process := .running set }
    | _ => none
  | .newFileNumber =>
    match m.process with
    | .running set => (takeNumber set).map fun set => { m with process := .running set }
    | .logging set next => do
      let set ← takeNumber set
      let next ← takeNumber next
      return { m with process := .logging set next }
    | _ => none
  | .addRecord edit => addRecordStep m edit
  | .applyEdit =>
    match m.process with
    | .logging set next => some {
        dir := m.dir.sync (descriptorFileName set.manifestFileNumber)
        process := .running next }
    | _ => none
  | .dropColumn cf =>
    memoryStep m fun set => { set with obsoleteColumns := cf :: set.obsoleteColumns }
  | .getObsoleteFiles oldestSequence => memoryStep m fun set => (set.getObsoleteFiles oldestSequence).2
  | .maybeDestroyColumnFamily cf => memoryStep m fun set => (set.maybeDestroyColumnFamily cf).2
  | .addColumnFamilies cf options =>
    match m.process with
    | .running set =>
      if set.unusedColumn cf then
        some { m with process := .running (set.addColumnFamilies [(cf, options)]) }
      else none
    | _ => none
  | .crash kept => some ⟨m.dir.crash kept, .down⟩

end AegonKV.ManifestDisk
