import AegonKV.ManifestLedger

/-!
# The manifest keeps the ledger

Every step of the process is a step of the ledger. The directory is enough to go on with after a crash
at any point: the manifest that CURRENT names is not touched before the next one is complete, and a
record that is not synced is the only one that may be lost.
-/

namespace AegonKV.ManifestDisk
open LittleEndian DurableFiles TransitionSystem FileName

structure Opening (d : Dir) (l : Ledger) (set : BlobFileSet) (number : UInt64) (recovered : Bool)
    (stage : Stage) : Prop where
  disk : Disk d l
  columns : ∃ cfs columns, l.opening = some cfs ∧ (columns = l.columns ∨ l.pending = some columns) ∧
    Reopens cfs columns (view set)
  opened : Opened set number recovered
  counter : number.toNat + 1 < 2 ^ 64
  apart : ∀ file, d currentFileName = some file → file.content ≠ currentContents number
  manifest : ∃ file, d (descriptorFileName number) = some file ∧
    file.content = logBytes set.writeSnapshot ∧ (stage ≠ .written → file.synced = file.content.length)
  temp : stage = .tempWritten ∨ stage = .tempSynced → ∃ file,
    d (tempPlainFileName number) = some file ∧ file.content = currentContents number ∧
    (stage = .tempSynced → file.synced = file.content.length)

/-- What the process and the directory make of the ledger. -/
def Represents (m : State) (l : Ledger) : Prop :=
  match m.process with
  | .down => Disk m.dir l ∧ l.opening = none
  | .opening set number recovered stage => Opening m.dir l set number recovered stage
  | .purging set aliveFiles =>
    Installed m.dir set none ∧ set.manifestFileNumber ∈ aliveFiles ∧ l = ⟨view set, none, none⟩
  | .running set => Installed m.dir set none ∧ l = ⟨view set, none, none⟩
  | .logging set next =>
    Installed m.dir set (some next) ∧ next.nextFileNumber = set.nextFileNumber ∧
      (∃ file, m.dir (descriptorFileName set.manifestFileNumber) = some file ∧
        file.content = logBytes next.manifest) ∧
      l = ⟨view set, some (view next), none⟩

/-- The files of an edit are fresh, and a column family that is not open loses none. -/
def Fresh (m : State) : Action → Prop
  | .addRecord edit => ∀ set, m.process = .running set → Regular set edit ioOk
  | _ => True

def Answered (m' : State) (l : Ledger) (a : Action) : Prop := ∃ l', l.Step a l' ∧ Represents m' l'

section

variable {m m' : State} {l : Ledger}

theorem Represents.down (h : Represents m l) (hp : m.process = .down) :
    Disk m.dir l ∧ l.opening = none := by
  rw [Represents, hp] at h
  exact h

theorem Represents.opening (h : Represents m l) {set : BlobFileSet} {number : UInt64}
    {recovered : Bool} {stage : Stage} (hp : m.process = .opening set number recovered stage) :
    Opening m.dir l set number recovered stage := by
  rw [Represents, hp] at h
  exact h

theorem Represents.running (h : Represents m l) {set : BlobFileSet} (hp : m.process = .running set) :
    Installed m.dir set none ∧ l = ⟨view set, none, none⟩ := by
  rw [Represents, hp] at h
  exact h

/-! ## Opening -/

theorem answered_openSet (h : Represents m l) {cfs : List (UInt32 × TitanCFOptions)}
    (hs : openStep m cfs = some m') : Answered m' l (.openSet cfs) := by
  rw [openStep] at hs
  cases hp : m.process with
  | opening set number recovered stage =>
      rw [hp] at hs
      cases hs
  | purging set aliveFiles =>
      rw [hp] at hs
      cases hs
  | running set =>
      rw [hp] at hs
      cases hs
  | logging set next =>
      rw [hp] at hs
      cases hs
  | down =>
      obtain ⟨hdisk, hopening⟩ := h.down hp
      obtain ⟨set, number, recovered, columns, hopen, hopened, hapart, hwhich, hreopens⟩ :=
        hdisk.reopens cfs
      rw [hp, hopen] at hs
      dsimp only at hs
      split_ifs at hs with hcounter
      obtain rfl := Option.some.inj hs
      have hcurrent : ((m.dir.create (descriptorFileName number)).append (descriptorFileName number)
          (newWriter.addRecords set.writeSnapshot).1) currentFileName = m.dir currentFileName :=
        Dir.write_ne (descriptorFileName_ne_current number).symm _
      refine ⟨_, .open cfs hopening, ?_⟩
      refine ⟨(hdisk.opening _).frame hapart hcurrent fun n hn => ?_, ⟨_, columns, rfl, hwhich, hreopens⟩,
        hopened, hcounter, fun file hfile => hapart file (hcurrent ▸ hfile),
        ⟨_, Dir.write_self _, rfl, fun hc => absurd rfl hc⟩, ?_⟩
      · exact Dir.write_ne (fun hc => hn (descriptorFileName_inj.mp hc)) _
      · rintro (hc | hc) <;> cases hc

/-- Writing to the files of a manifest that CURRENT does not name. -/
theorem Opening.frame {set : BlobFileSet} {number : UInt64} {recovered : Bool} {stage stage' : Stage}
    (h : Opening m.dir l set number recovered stage) {d' : Dir}
    (hcurrent : d' currentFileName = m.dir currentFileName)
    (hother : ∀ n, n ≠ number → d' (descriptorFileName n) = m.dir (descriptorFileName n))
    (hmanifest : ∃ file, d' (descriptorFileName number) = some file ∧
      file.content = logBytes set.writeSnapshot ∧
      (stage' ≠ .written → file.synced = file.content.length))
    (htemp : stage' = .tempWritten ∨ stage' = .tempSynced → ∃ file,
      d' (tempPlainFileName number) = some file ∧ file.content = currentContents number ∧
      (stage' = .tempSynced → file.synced = file.content.length)) :
    Opening d' l set number recovered stage' :=
  ⟨h.disk.frame h.apart hcurrent hother, h.columns, h.opened, h.counter,
    fun file hfile => h.apart file (hcurrent ▸ hfile), hmanifest, htemp⟩

theorem answered_syncManifest (h : Represents m l) (hs : openingStep m .syncManifest = some m') :
    Answered m' l .syncManifest := by
  rw [openingStep] at hs
  split at hs
  case h_2 => cases hs
  rename_i set number recovered hp
  obtain rfl := Option.some.inj hs
  have hopening := h.opening hp
  obtain ⟨file, hfile, hcontent, -⟩ := hopening.manifest
  refine ⟨l, .silent trivial, hopening.frame ?_ (fun n hn => ?_)
    ⟨_, Dir.sync_self hfile, hcontent, fun _ => rfl⟩ ?_⟩
  · exact Dir.sync_ne (descriptorFileName_ne_current number).symm
  · exact Dir.sync_ne fun hc => hn (descriptorFileName_inj.mp hc)
  · rintro (hc | hc) <;> cases hc

theorem answered_writeTemp (h : Represents m l) (hs : openingStep m .writeTemp = some m') :
    Answered m' l .writeTemp := by
  rw [openingStep] at hs
  split at hs
  case h_2 => cases hs
  rename_i set number recovered hp
  obtain rfl := Option.some.inj hs
  have hopening := h.opening hp
  obtain ⟨file, hfile, hcontent, hsynced⟩ := hopening.manifest
  have hframe : ∀ n, ((m.dir.create (tempPlainFileName number)).append (tempPlainFileName number)
      (currentContents number)) (descriptorFileName n) = m.dir (descriptorFileName n) :=
    fun n => Dir.write_ne (descriptorFileName_ne_temp n number) _
  exact ⟨l, .silent trivial, hopening.frame (Dir.write_ne (currentFileName_ne_temp number) _)
    (fun n _ => hframe n) ⟨file, (hframe number).trans hfile, hcontent, fun _ => hsynced (by decide)⟩
    fun _ => ⟨_, Dir.write_self _, rfl, fun hc => by cases hc⟩⟩

theorem answered_syncTemp (h : Represents m l) (hs : openingStep m .syncTemp = some m') :
    Answered m' l .syncTemp := by
  rw [openingStep] at hs
  split at hs
  case h_2 => cases hs
  rename_i set number recovered hp
  obtain rfl := Option.some.inj hs
  have hopening := h.opening hp
  obtain ⟨file, hfile, hcontent, hsynced⟩ := hopening.manifest
  obtain ⟨temp, htemp, hcurrent, -⟩ := hopening.temp (Or.inl rfl)
  have hframe : ∀ n, m.dir.sync (tempPlainFileName number) (descriptorFileName n) =
      m.dir (descriptorFileName n) := fun n => Dir.sync_ne (descriptorFileName_ne_temp n number)
  exact ⟨l, .silent trivial, hopening.frame (Dir.sync_ne (currentFileName_ne_temp number))
    (fun n _ => hframe n) ⟨file, (hframe number).trans hfile, hcontent, fun _ => hsynced (by decide)⟩
    fun _ => ⟨_, Dir.sync_self htemp, hcurrent, fun _ => rfl⟩⟩

/-- From here on CURRENT names the manifest of the new set. -/
theorem answered_setCurrent (h : Represents m l) (hs : openingStep m .setCurrent = some m') :
    Answered m' l .setCurrent := by
  rw [openingStep] at hs
  split at hs
  case h_2 => cases hs
  rename_i set number recovered hp
  obtain rfl := Option.some.inj hs
  have hopening := h.opening hp
  obtain ⟨cfs, columns, hcfs, hwhich, hreopens⟩ := hopening.columns
  obtain ⟨file, hfile, hcontent, hsynced⟩ := hopening.manifest
  obtain ⟨temp, htemp, hcurrent, hwhole⟩ := hopening.temp (Or.inr rfl)
  have hview := hopening.opened.view
  have hinstalled : Installed (m.dir.rename (tempPlainFileName number) currentFileName)
      (installed set number recovered) none := by
    refine ⟨hopening.opened.logged hopening.counter, (fun _ hc => nomatch hc),
      ⟨temp, (Dir.rename_dst (currentFileName_ne_temp number)).trans htemp, hcurrent, hwhole rfl⟩,
      ⟨file, ?_, ?_, Nat.le_of_eq (hsynced (by decide)), ?_⟩⟩
    · exact (Dir.rename_ne (descriptorFileName_ne_temp number number)
        (descriptorFileName_ne_current number)).trans hfile
    · rw [hsynced (by decide), hcontent]
      exact Nat.le_refl _
    · rw [hcontent]
      exact List.prefix_refl _
  refine ⟨_, .reopen hcfs hwhich hreopens, ?_⟩
  cases recovered with
  | false => exact ⟨hinstalled, congrArg (Ledger.mk · none none) hview.symm⟩
  | true => exact ⟨hinstalled, List.mem_cons_self, congrArg (Ledger.mk · none none) hview.symm⟩

/-- What `Recover` deletes is neither CURRENT nor the manifest that it names. -/
theorem answered_deleteFile (h : Represents m l) {fname : List Char}
    (hs : step m (.deleteFile fname) = some m') : Answered m' l (.deleteFile fname) := by
  rw [step] at hs
  split at hs
  case h_2 => cases hs
  rename_i set aliveFiles hp
  split_ifs at hs with hpurges
  obtain rfl := Option.some.inj hs
  rw [Represents, hp] at h
  obtain ⟨hinstalled, halive, hl⟩ := h
  have hcurrent : fname ≠ currentFileName := by
    rintro rfl
    have hparse : parseFileName currentFileName = some (0, .kCurrentFile) := rfl
    rw [purges, hparse] at hpurges
    dsimp only at hpurges
    split_ifs at hpurges
    exact Bool.false_ne_true hpurges
  have hmanifest : fname ≠ descriptorFileName set.manifestFileNumber := by
    rintro rfl
    rw [purges, parse_descriptorFileName] at hpurges
    dsimp only at hpurges
    rw [if_pos halive] at hpurges
    cases hpurges
  refine ⟨l, .silent trivial, ?_⟩
  rw [Represents, hp]
  exact ⟨hinstalled.frame (Dir.delete_ne hcurrent.symm) (Dir.delete_ne hmanifest.symm), halive, hl⟩

theorem answered_opened (h : Represents m l) (hs : step m .opened = some m') :
    Answered m' l .opened := by
  rw [step] at hs
  split at hs
  case h_2 => cases hs
  rename_i set aliveFiles hp
  obtain rfl := Option.some.inj hs
  rw [Represents, hp] at h
  exact ⟨l, .silent trivial, h.1, h.2.2⟩

/-! ## Calls of `LogAndApply` -/

theorem answered_addRecord (h : Represents m l) {edit : VersionEdit BlobFileMeta}
    (hfresh : Fresh m (.addRecord edit)) (hs : addRecordStep m edit = some m') :
    Answered m' l (.addRecord edit) := by
  rw [addRecordStep] at hs
  split at hs
  case h_2 => cases hs
  rename_i set hp
  obtain ⟨hinstalled, rfl⟩ := h.running hp
  dsimp only at hs
  split_ifs at hs with hok
  · obtain rfl := Option.some.inj hs
    have hcalled := hinstalled.logged.call (hfresh set hp) hok
    have hfile := Dir.append_self hinstalled.whole
      (recordBytes set.manifest (set.withNext edit).encodeTo)
    have hbytes : logBytes set.manifest ++ recordBytes set.manifest (set.withNext edit).encodeTo =
        logBytes (set.logAndApply edit ioOk).2.manifest := by
      rw [hcalled.manifest, logBytes_snoc]
    rw [hbytes] at hfile
    refine ⟨_, .begin edit rfl, ⟨hinstalled.logged, fun s' hs' => ?_, ?_, ⟨_, hfile, ?_, ?_, ?_⟩⟩,
      hcalled.counter, ⟨_, hfile, rfl⟩, ?_⟩
    · obtain rfl := Option.some.inj hs'
      exact ⟨hcalled.logged, hcalled.number, _, hcalled.manifest⟩
    · obtain ⟨file, hcurrent, hrest⟩ := hinstalled.current
      have hsame := Dir.append_ne (d := m.dir)
        (descriptorFileName_ne_current set.manifestFileNumber).symm
        (recordBytes set.manifest (set.withNext edit).encodeTo)
      exact ⟨file, hsame.trans hcurrent, hrest⟩
    · exact Nat.le_refl _
    · rw [← hbytes, List.length_append]
      exact Nat.le_add_right _ _
    · exact List.prefix_refl _
    · exact congrArg (fun columns => Ledger.mk (view set) (some columns) none) hcalled.view.symm
  · obtain rfl := Option.some.inj hs
    exact ⟨_, .reject edit, h⟩

theorem answered_applyEdit (h : Represents m l) (hs : step m .applyEdit = some m') :
    Answered m' l .applyEdit := by
  rw [step] at hs
  split at hs
  case h_2 => cases hs
  rename_i set next hp
  obtain rfl := Option.some.inj hs
  rw [Represents, hp] at h
  obtain ⟨hinstalled, -, ⟨file, hfile, hcontent⟩, rfl⟩ := h
  obtain ⟨hlogged, hnumber, -⟩ := hinstalled.called next rfl
  refine ⟨_, .apply rfl, ⟨hlogged, (fun _ hc => nomatch hc), ?_, ?_⟩, rfl⟩
  · obtain ⟨current, hcurrent, hrest⟩ := hinstalled.current
    rw [← Dir.sync_ne (d := m.dir) (descriptorFileName_ne_current set.manifestFileNumber).symm] at hcurrent
    rw [hnumber]
    exact ⟨current, hcurrent, hrest⟩
  · rw [hnumber, Option.getD_none, ← hcontent]
    exact ⟨_, Dir.sync_self hfile, Nat.le_refl _, Nat.le_refl _, List.prefix_refl _⟩

theorem takeNumber_some {set set' : BlobFileSet} (h : takeNumber set = some set') :
    set' = { set with nextFileNumber := set.nextFileNumber + 1 } ∧
      set.nextFileNumber ≤ set.nextFileNumber + 1 := by
  rw [takeNumber] at h
  split_ifs at h with hlt
  refine ⟨(Option.some.inj h).symm, ?_⟩
  rw [UInt64.le_iff_toNat_le, UInt64.toNat_add]
  simp only [UInt64.reduceToNat]
  omega

theorem answered_newFileNumber (h : Represents m l) (hs : step m .newFileNumber = some m') :
    Answered m' l .newFileNumber := by
  rw [step] at hs
  split at hs
  · rename_i set hp
    obtain ⟨hinstalled, rfl⟩ := h.running hp
    obtain ⟨set', htake, rfl⟩ := Option.map_eq_some_iff.mp hs
    obtain ⟨rfl, hle⟩ := takeNumber_some htake
    exact ⟨_, .silent trivial, hinstalled.change (hinstalled.logged.number hle) rfl rfl, rfl⟩
  · rename_i set next hp
    rw [Represents, hp] at h
    obtain ⟨hinstalled, hcounter, hwritten, rfl⟩ := h
    obtain ⟨set', htake, hs⟩ := Option.bind_eq_some_iff.mp hs
    obtain ⟨next', htake', hs⟩ := Option.bind_eq_some_iff.mp hs
    obtain rfl := Option.some.inj hs
    obtain ⟨rfl, hle⟩ := takeNumber_some htake
    obtain ⟨rfl, hle'⟩ := takeNumber_some htake'
    refine ⟨_, .silent trivial, ⟨hinstalled.logged.number hle, fun s' hs' => ?_, hinstalled.current,
      hinstalled.manifest⟩, congrArg (· + 1) hcounter, hwritten, rfl⟩
    obtain rfl := Option.some.inj hs'
    obtain ⟨hlogged, hnumber, hmanifest⟩ := hinstalled.called next rfl
    exact ⟨hlogged.number hle', hnumber, hmanifest⟩
  · cases hs

/-! ## Changes in memory -/

theorem answered_memory (h : Represents m l) {a : Action} {change : BlobFileSet → BlobFileSet}
    (hs : memoryStep m change = some m') (ha : Ledger.Closes a)
    (hmanifest : ∀ set, (change set).manifest = set.manifest)
    (hnumber : ∀ set, (change set).manifestFileNumber = set.manifestFileNumber)
    (hnext : ∀ set, (change set).nextFileNumber = set.nextFileNumber)
    (hshrink : ∀ set, StoragesShrink set.columnFamilies (change set).columnFamilies) :
    Answered m' l a := by
  rw [memoryStep] at hs
  split at hs
  case h_2 => cases hs
  rename_i set hp
  obtain rfl := Option.some.inj hs
  obtain ⟨hinstalled, rfl⟩ := h.running hp
  have hlogged := hinstalled.logged.shrink (hmanifest set) (hnumber set) (hnext set) (hshrink set)
  exact ⟨_, .close ha (hinstalled.logged.view_shrink (hshrink set)),
    hinstalled.change hlogged (hmanifest set) (hnumber set), rfl⟩

theorem answered_dropColumn (h : Represents m l) {cf : UInt32}
    (hs : step m (.dropColumn cf) = some m') : Answered m' l (.dropColumn cf) := by
  rw [step, memoryStep] at hs
  split at hs
  case h_2 => cases hs
  rename_i set hp
  obtain rfl := Option.some.inj hs
  obtain ⟨hinstalled, rfl⟩ := h.running hp
  exact ⟨_, .silent trivial,
    hinstalled.change (hinstalled.logged.shrink rfl rfl rfl (.refl _)) rfl rfl, rfl⟩

theorem answered_addColumnFamilies (h : Represents m l) {cf : UInt32} {options : TitanCFOptions}
    (hs : step m (.addColumnFamilies cf options) = some m') :
    Answered m' l (.addColumnFamilies cf options) := by
  rw [step] at hs
  split at hs
  case h_2 => cases hs
  rename_i set hp
  split_ifs at hs with hunused
  obtain rfl := Option.some.inj hs
  obtain ⟨hinstalled, rfl⟩ := h.running hp
  exact ⟨_, .create cf options,
    hinstalled.change (hinstalled.logged.addColumnFamilies hunused) rfl rfl,
    congrArg (Ledger.mk · none none) (view_addColumnFamilies set cf options).symm⟩

theorem answered_crash (h : Represents m l) (kept : List Char → ℕ) :
    Answered ⟨m.dir.crash kept, .down⟩ l (.crash kept) := by
  refine ⟨_, .crash kept, ?_, rfl⟩
  cases hp : m.process with
  | down => exact (h.down hp).1.crash kept
  | opening set number recovered stage => exact (h.opening hp).disk.crash kept
  | purging set aliveFiles =>
      rw [Represents, hp] at h
      obtain ⟨hinstalled, -, rfl⟩ := h
      exact .manifest (hinstalled.crash kept) rfl rfl
  | running set =>
      obtain ⟨hinstalled, rfl⟩ := h.running hp
      exact .manifest (hinstalled.crash kept) rfl rfl
  | logging set next =>
      rw [Represents, hp] at h
      obtain ⟨hinstalled, -, -, rfl⟩ := h
      exact .manifest (hinstalled.crash kept) rfl rfl

theorem answered (a : Action) (h : Represents m l) (hfresh : Fresh m a) (hs : step m a = some m') :
    Answered m' l a := by
  cases a with
  | openSet cfs => exact answered_openSet h hs
  | syncManifest => exact answered_syncManifest h hs
  | writeTemp => exact answered_writeTemp h hs
  | syncTemp => exact answered_syncTemp h hs
  | setCurrent => exact answered_setCurrent h hs
  | deleteFile fname => exact answered_deleteFile h hs
  | opened => exact answered_opened h hs
  | newFileNumber => exact answered_newFileNumber h hs
  | addRecord edit => exact answered_addRecord h hfresh hs
  | applyEdit => exact answered_applyEdit h hs
  | dropColumn cf => exact answered_dropColumn h hs
  | getObsoleteFiles oldestSequence =>
      exact answered_memory h hs trivial (fun _ => rfl) (fun _ => rfl) (fun _ => rfl)
        fun set => shrink_getObsoleteFiles set oldestSequence
  | maybeDestroyColumnFamily cf =>
      refine answered_memory h hs trivial (fun set => ?_) (fun set => ?_) (fun set => ?_)
        fun set => shrink_maybeDestroyColumnFamily set cf
      all_goals
        rw [BlobFileSet.maybeDestroyColumnFamily]
        dsimp only
        split <;> rfl
  | addColumnFamilies cf options => exact answered_addColumnFamilies h hs
  | crash kept =>
      obtain rfl := Option.some.inj hs
      exact answered_crash h kept

end

/-- A run of the process, with crashes anywhere, is a run of the ledger. While the set is open it is
what the ledger says, and when the process is down the set can be opened with every choice of column
families, and has what the ledger says with or without the call that was not done. -/
theorem run_ledger {as : List Action} {m : State} (hm : Meets step Fresh State.init as)
    (hr : run step State.init as = some m) :
    ∃ l, Runs Ledger.Step Ledger.init as l ∧
      (∀ set, m.process = .running set → l.columns = view set ∧ l.pending = none) ∧
      (m.process = .down → ∀ cfs, ∃ set number recovered columns,
        openSet m.dir cfs = .ok (set, number, recovered) ∧
        (columns = l.columns ∨ l.pending = some columns) ∧
        Reopens (cfs.map Prod.fst) columns (view set)) := by
  have hinit : Represents State.init Ledger.init := ⟨.new rfl rfl rfl, rfl⟩
  obtain ⟨l, hruns, hrep⟩ := run_simulated (fun _ _ a _ => answered a) hinit hm hr
  refine ⟨l, hruns, fun set hp => ?_, fun hp cfs => ?_⟩
  · obtain ⟨-, rfl⟩ := hrep.running hp
    exact ⟨rfl, rfl⟩
  · obtain ⟨set, number, recovered, columns, hopen, -, -, hwhich, hreopens⟩ :=
      (hrep.down hp).1.reopens cfs
    exact ⟨set, number, recovered, columns, hopen, hwhich, hreopens⟩

/-- A call is not done when the process goes down, and its record is cut. -/
def tornCall : List Action :=
  [.openSet [(0, ⟨bytewise, 7, 8388608, 0.5⟩)], .syncManifest, .writeTemp, .syncTemp, .setCurrent,
    .newFileNumber, .addRecord ⟨0, none, [(2, smallFile)], []⟩, .crash fun _ => 5,
    .openSet [(0, ⟨bytewise, 7, 8388608, 0.5⟩)], .syncManifest, .writeTemp, .syncTemp, .setCurrent,
    .deleteFile (descriptorFileName 1), .opened, .crash fun _ => 0]

theorem run_ledger_tornCall : ∃ m l, run step State.init tornCall = some m ∧
    Runs Ledger.Step Ledger.init tornCall l ∧
    (∀ set, m.process = .running set → l.columns = view set ∧ l.pending = none) ∧
    (m.process = .down → ∀ cfs, ∃ set number recovered columns,
      openSet m.dir cfs = .ok (set, number, recovered) ∧
      (columns = l.columns ∨ l.pending = some columns) ∧
      Reopens (cfs.map Prod.fst) columns (view set)) := by
  have hm : Meets step Fresh State.init tornCall := by
    refine Meets.cons rfl trivial (Meets.cons rfl trivial (Meets.cons rfl trivial (Meets.cons rfl trivial
      (Meets.cons rfl trivial (Meets.cons rfl trivial ⟨fun set hset => ?_, fun m _ => ?_⟩)))))
    · obtain rfl := Process.running.inj hset
      exact ⟨rfl, rfl, by decide +kernel, fun _ => rfl⟩
    · refine meets_of_mem fun m a ha => ?_
      cases a with
      | addRecord edit => simp only [List.mem_cons, reduceCtorEq, List.not_mem_nil, or_false] at ha
      | _ => trivial
  have hsome : (run step State.init tornCall).isSome = true := by decide +kernel
  obtain ⟨m, hr⟩ := Option.isSome_iff_exists.mp hsome
  obtain ⟨l, h⟩ := run_ledger hm hr
  exact ⟨m, l, hr, h⟩

end AegonKV.ManifestDisk
