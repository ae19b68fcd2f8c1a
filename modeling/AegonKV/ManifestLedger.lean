import AegonKV.LabelledSimulation
import AegonKV.LoggedSets

/-!
# A manifest that survives crashes

The ledger says what the blob file set is for: a call changes the live files of a column family as a
whole, and the files are kept when the process goes down. A call that has not returned by then either
counts or does not, which shows when the set is opened again. The directory holds the ledger between
any two steps of the process.
-/

namespace AegonKV.ManifestDisk
open LittleEndian DurableFiles TransitionSystem FileName

structure Ledger where
  columns : Columns
  /-- The columns after a call that has not returned. -/
  pending : Option Columns
  /-- The column families of an `Open` that is not done. -/
  opening : Option (List UInt32)

namespace Ledger

def init : Ledger := ⟨fun _ => none, none, none⟩

/-- Steps that the ledger does not see. -/
def Silent : Action → Prop
  | .syncManifest | .writeTemp | .syncTemp | .deleteFile _ | .opened | .newFileNumber
  | .dropColumn _ => True
  | _ => False

/-- Steps that may close column families. -/
def Closes : Action → Prop
  | .getObsoleteFiles _ | .maybeDestroyColumnFamily _ => True
  | _ => False

inductive Step (l : Ledger) : Action → Ledger → Prop
  | open (cfs : List (UInt32 × TitanCFOptions)) (h : l.opening = none) :
      Step l (.openSet cfs) { l with opening := some (cfs.map Prod.fst) }
  | reopen {cfs : List UInt32} {columns columns' : Columns} (hopening : l.opening = some cfs)
      (hcolumns : columns = l.columns ∨ l.pending = some columns)
      (hreopens : Reopens cfs columns columns') : Step l .setCurrent ⟨columns', none, none⟩
  | begin (edit : VersionEdit BlobFileMeta) (h : l.pending = none) :
      Step l (.addRecord edit) { l with pending := some (editColumns edit l.columns) }
  | reject (edit : VersionEdit BlobFileMeta) : Step l (.addRecord edit) l
  | apply {columns : Columns} (h : l.pending = some columns) :
      Step l .applyEdit { l with columns := columns, pending := none }
  | close {a : Action} {columns : Columns} (ha : Closes a)
      (h : ∀ cf, columns cf = l.columns cf ∨ columns cf = none) : Step l a { l with columns := columns }
  | create (cf : UInt32) (options : TitanCFOptions) : Step l (.addColumnFamilies cf options)
      { l with columns := Function.update l.columns cf (some ((l.columns cf).getD fun _ => none)) }
  | crash (kept : List Char → ℕ) : Step l (.crash kept) { l with opening := none }
  | silent {a : Action} (ha : Silent a) : Step l a l

end Ledger

/-! ## Reading a manifest that a crash has cut -/

def logBytes (records : List Bytes) : Bytes := (newWriter.addRecords records).1

theorem logBytes_snoc (records : List Bytes) (record : Bytes) :
    logBytes (records ++ [record]) = logBytes records ++ recordBytes records record := by
  rw [logBytes, logBytes, recordBytes, Log.Writer.addRecords_append]
  exact congrArg _ (List.append_nil _)

/-- One record may be there or not. -/
theorem manifestEvents_of_cut {records : List Bytes} (more : Option Bytes) {content : Bytes}
    (hwhole : (logBytes records).length ≤ content.length)
    (hcut : content <+: logBytes (records ++ more.toList)) :
    manifestEvents content = records.map .record ∨
      manifestEvents content = (records ++ more.toList).map .record := by
  have hcontent := List.prefix_iff_eq_take.mp hcut
  have hbefore := Log.Reader.before_start 0 content
  rw [hcontent, logBytes] at hbefore
  obtain ⟨k, tail, hholds, hread, hlenient, -⟩ := hbefore.log .kTolerateCorruptedTailRecords
    (w := newWriter) (fun hc => Bool.noConfusion hc) rfl (Nat.zero_le _) (Nat.lt_succ_self _)
  obtain rfl := hlenient rfl
  rw [List.map_nil, List.append_nil] at hread
  have hlog : Log.readLog .kTolerateCorruptedTailRecords (.start 0 content) =
      some (((records ++ more.toList).take k).map .record) := by
    rw [hcontent]
    exact hread
  have hevents : manifestEvents content = ((records ++ more.toList).take k).map .record := by
    rw [manifestEvents, hlog, Option.getD_some, List.map_map]
    rfl
  have hle : records.length ≤ k := by
    refine (hholds.whole records.length ?_).mp ?_
    · rw [List.length_append]
      exact Nat.le_add_right _ _
    · rw [List.take_left]
      exact hwhole
  rw [hevents]
  rcases Nat.lt_or_ge k (records ++ more.toList).length with hlt | hge
  · refine Or.inl ?_
    have hk : k = records.length := by
      rw [List.length_append] at hlt
      have hone : more.toList.length ≤ 1 := by
        cases more with
        | none => exact Nat.zero_le 1
        | some record => exact Nat.le_refl 1
      omega
    rw [hk, List.take_left]
  · refine Or.inr ?_
    rw [List.take_of_length_le hge]

/-! ## The directory between two steps -/

/-- The directory has the manifest of the set, and CURRENT names it. `next` is the set after a call
whose record has been added and may survive in part. -/
structure Installed (d : Dir) (s : BlobFileSet) (next : Option BlobFileSet) : Prop where
  logged : Logged s
  called : ∀ s', next = some s' → Logged s' ∧ s'.manifestFileNumber = s.manifestFileNumber ∧
    ∃ record, s'.manifest = s.manifest ++ [record]
  current : ∃ file, d currentFileName = some file ∧
    file.content = currentContents s.manifestFileNumber ∧ file.synced = file.content.length
  manifest : ∃ file, d (descriptorFileName s.manifestFileNumber) = some file ∧
    (logBytes s.manifest).length ≤ file.synced ∧ file.synced ≤ file.content.length ∧
    file.content <+: logBytes (next.getD s).manifest

section

variable {d d' : Dir} {s : BlobFileSet} {next : Option BlobFileSet}

theorem Installed.frame (h : Installed d s next) (hcurrent : d' currentFileName = d currentFileName)
    (hmanifest : d' (descriptorFileName s.manifestFileNumber) =
      d (descriptorFileName s.manifestFileNumber)) : Installed d' s next :=
  ⟨h.logged, h.called, hcurrent ▸ h.current, hmanifest ▸ h.manifest⟩

theorem Installed.crash (h : Installed d s next) (kept : List Char → ℕ) :
    Installed (d.crash kept) s next := by
  refine ⟨h.logged, h.called, ?_, ?_⟩
  · obtain ⟨file, hfile, hcontent, hsynced⟩ := h.current
    exact ⟨file, Dir.crash_synced hfile hsynced kept, hcontent, hsynced⟩
  · obtain ⟨file, hfile, hwhole, hsynced, hcut⟩ := h.manifest
    refine ⟨_, Dir.crash_some hfile kept, hwhole, ?_, (List.take_prefix _ _).trans hcut⟩
    rw [List.length_take]
    exact Nat.le_min.mpr ⟨Nat.le_add_right _ _, hsynced⟩

/-- Changes of the set that its manifest does not see. -/
theorem Installed.change (h : Installed d s none) {s' : BlobFileSet} (hlogged : Logged s')
    (hmanifest : s'.manifest = s.manifest) (hnumber : s'.manifestFileNumber = s.manifestFileNumber) :
    Installed d s' none := by
  refine ⟨hlogged, (fun _ hc => nomatch hc), ?_, ?_⟩
  · rw [hnumber]
    exact h.current
  · rw [Option.getD_none, hmanifest, hnumber]
    exact h.manifest

/-- Without a call that is not done the manifest is there as a whole. -/
theorem Installed.whole (h : Installed d s none) :
    d (descriptorFileName s.manifestFileNumber) =
      some ⟨logBytes s.manifest, (logBytes s.manifest).length⟩ := by
  obtain ⟨⟨content, synced⟩, hfile, hwhole, hsynced, hcut⟩ := h.manifest
  have hcontent : content = logBytes s.manifest := hcut.eq_of_length_le (hwhole.trans hsynced)
  subst hcontent
  have hlength : synced = (logBytes s.manifest).length := Nat.le_antisymm hsynced hwhole
  rw [hfile, hlength]

theorem Installed.reopens (h : Installed d s next) (cfs : List (UInt32 × TitanCFOptions)) :
    ∃ set number columns, openSet d cfs = .ok (set, number, true) ∧ Opened set number true ∧
      s.manifestFileNumber < number ∧ (columns = view s ∨ next.map view = some columns) ∧
      Reopens (cfs.map Prod.fst) columns (view set) := by
  obtain ⟨current, hcurrent, hname, -⟩ := h.current
  obtain ⟨file, hfile, hwhole, hsynced, hcut⟩ := h.manifest
  have hbefore : manifestEvents file.content = s.manifest.map .record →
      ∃ set number columns, openSet d cfs = .ok (set, number, true) ∧ Opened set number true ∧
        s.manifestFileNumber < number ∧ (columns = view s ∨ next.map view = some columns) ∧
        Reopens (cfs.map Prod.fst) columns (view set) := by
    intro hevents
    obtain ⟨set, number, hopen, hopened, hlt, hreopens⟩ :=
      h.logged.reopens hcurrent hname hfile hevents cfs
    exact ⟨set, number, view s, hopen, hopened, hlt, Or.inl rfl, hreopens⟩
  cases hnext : next with
  | none =>
      subst hnext
      rw [Option.getD_none] at hcut
      rw [← List.append_nil s.manifest] at hcut
      rcases manifestEvents_of_cut none (hwhole.trans hsynced) hcut with
        hevents | hevents
      · exact hbefore hevents
      · refine hbefore (hevents.trans ?_)
        rw [Option.toList_none, List.append_nil]
  | some s' =>
      subst hnext
      obtain ⟨hlogged, hnumber, record, hmanifest⟩ := h.called s' rfl
      rw [Option.getD_some, hmanifest] at hcut
      rcases manifestEvents_of_cut (some record) (hwhole.trans hsynced) hcut with
        hevents | hevents
      · exact hbefore hevents
      · rw [Option.toList_some, ← hmanifest] at hevents
        rw [← hnumber] at hname hfile
        obtain ⟨set, number, hopen, hopened, hlt, hreopens⟩ :=
          hlogged.reopens hcurrent hname hfile hevents cfs
        exact ⟨set, number, view s', hopen, hopened, hnumber ▸ hlt, Or.inr rfl, hreopens⟩

end

inductive Disk (d : Dir) (l : Ledger) : Prop
  | new (hcurrent : d currentFileName = none) (hcolumns : l.columns = fun _ => none)
      (hpending : l.pending = none)
  | manifest {s : BlobFileSet} {next : Option BlobFileSet} (h : Installed d s next)
      (hcolumns : l.columns = view s) (hpending : l.pending = next.map view)

section

variable {d d' : Dir} {l : Ledger}

theorem Disk.crash (h : Disk d l) (kept : List Char → ℕ) :
    Disk (d.crash kept) { l with opening := none } := by
  cases h with
  | new hcurrent hcolumns hpending => exact .new (Dir.crash_none hcurrent kept) hcolumns hpending
  | manifest h hcolumns hpending => exact .manifest (h.crash kept) hcolumns hpending

theorem Disk.opening (h : Disk d l) (opening : Option (List UInt32)) :
    Disk d { l with opening := opening } := by
  cases h with
  | new hcurrent hcolumns hpending => exact .new hcurrent hcolumns hpending
  | manifest h hcolumns hpending => exact .manifest h hcolumns hpending

/-- The files of a manifest that CURRENT does not name do not matter. -/
theorem Disk.frame (h : Disk d l) {number : UInt64}
    (hapart : ∀ file, d currentFileName = some file → file.content ≠ currentContents number)
    (hcurrent : d' currentFileName = d currentFileName)
    (hother : ∀ n, n ≠ number → d' (descriptorFileName n) = d (descriptorFileName n)) :
    Disk d' l := by
  cases h with
  | new hnone hcolumns hpending => exact .new (hcurrent.trans hnone) hcolumns hpending
  | @manifest s next h hcolumns hpending =>
      refine .manifest (h.frame hcurrent (hother _ fun heq => ?_)) hcolumns hpending
      obtain ⟨file, hfile, hcontent, -⟩ := h.current
      exact hapart file hfile (heq ▸ hcontent)

/-- `Open` does not fail, and finds the columns or those after the call that was not done. -/
theorem Disk.reopens (h : Disk d l) (cfs : List (UInt32 × TitanCFOptions)) :
    ∃ set number recovered columns, openSet d cfs = .ok (set, number, recovered) ∧
      Opened set number recovered ∧
      (∀ file, d currentFileName = some file → file.content ≠ currentContents number) ∧
      (columns = l.columns ∨ l.pending = some columns) ∧
      Reopens (cfs.map Prod.fst) columns (view set) := by
  cases h with
  | new hcurrent hcolumns hpending =>
      refine ⟨{ openedSet cfs with nextFileNumber := (openedSet cfs).nextFileNumber + 1 },
        (openedSet cfs).nextFileNumber, false, l.columns, ?_, ⟨fun cf st hst => ?_,
          fun hc => Bool.noConfusion hc, rfl⟩, fun file hfile => ?_, Or.inl rfl, fun cf => ?_,
          fun cf files hfiles => ?_⟩
      · rw [openSet, hcurrent]
      · refine wellFormed_of_nil ?_
        rw [openedSet_fresh cfs cf st hst]
        rfl
      · rw [hcurrent] at hfile
        cases hfile
      · rw [← isSome_openedSet, view, Option.isSome_map]
      · rw [hcolumns] at hfiles
        cases hfiles
  | @manifest s next h hcolumns hpending =>
      obtain ⟨set, number, columns, hopen, hopened, hlt, hwhich, hreopens⟩ := h.reopens cfs
      refine ⟨set, number, true, columns, hopen, hopened, fun file hfile hcontent => ?_, ?_,
        hreopens⟩
      · obtain ⟨current, hcurrent, hname, -⟩ := h.current
        obtain rfl := Option.some.inj (hcurrent.symm.trans hfile)
        have hnames := congrArg manifestName (hname.symm.trans hcontent)
        rw [(manifestName_currentContents _).2, (manifestName_currentContents _).2,
          descriptorFileName_inj] at hnames
        exact UInt64.ne_of_lt hlt hnames
      · rw [hcolumns, hpending]
        exact hwhich

end

end AegonKV.ManifestDisk
