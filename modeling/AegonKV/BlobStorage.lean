import AegonKV.Preprocess
import Mathlib.Logic.Function.Basic

/-!
# Blob files of a column family

`BlobFiles` is `BlobStorage::files_`: the files a reader can find, by number. A file keeps its
records in order and its life-cycle state. Records of one file have distinct offsets, which the
structure carries, so that a pointer names at most one record.
-/

namespace AegonKV
open LittleEndian

inductive FileEvent
  | kInit | kFlushCompleted | kCompactionCompleted | kGCCompleted | kGCBegin | kGCOutput
  | kFlushOrCompactionOutput | kDbRestart | kDelete | kNeedMerge | kReset
  deriving DecidableEq, Repr

inductive FileState
  | kInit | kNormal | kPendingLSM | kBeingGC | kPendingGC | kObsolete | kToMerge
  deriving DecidableEq, Repr

/-- `BlobFileMeta::FileStateTransit`; a violated assertion is `none`. -/
def fileStateTransit (state : FileState) : FileEvent → Option FileState
  | .kFlushCompleted =>
    match state with
    | .kPendingLSM => some .kNormal
    | .kPendingGC | .kNormal | .kBeingGC | .kObsolete => some state
    | _ => none
  | .kGCCompleted =>
    match state with
    | .kObsolete => some .kObsolete
    | .kPendingGC | .kBeingGC => some .kNormal
    | _ => none
  | .kCompactionCompleted => if state = .kPendingLSM then some .kNormal else none
  | .kGCBegin => if state = .kNormal then some .kBeingGC else none
  | .kGCOutput => if state = .kInit then some .kPendingGC else none
  | .kFlushOrCompactionOutput => if state = .kInit then some .kPendingLSM else none
  | .kDbRestart => if state = .kInit then some .kNormal else none
  | .kDelete => if state ≠ .kObsolete then some .kObsolete else none
  | .kNeedMerge =>
    match state with
    | .kToMerge => some .kToMerge
    | .kNormal => some .kToMerge
    | _ => none
  | .kReset => some .kNormal
  | .kInit => none

structure BlobRec (κ : Type) where
  handle : BlobHandle
  key : κ
  value : Bytes
  deriving DecidableEq, Repr

structure BlobFile (κ : Type) where
  records : List (BlobRec κ)
  state : FileState
  offsets_nodup : (records.map fun r => r.handle.offset).Nodup

variable {κ : Type}

/-- The index entry of a record of file `f`. -/
def pointerTo (f : UInt64) (r : BlobRec κ) : BlobIndexType :=
  ⟨f, r.handle.offset, r.handle.size, r.handle.index⟩

abbrev BlobFiles (κ : Type) := UInt64 → Option (BlobFile κ)

namespace BlobFiles

def read (files : BlobFiles κ) (p : BlobIndexType) : Option (BlobRec κ) :=
  (files p.fileNumber).bind fun bf => bf.records.find? fun r => r.handle.offset = p.offset

def setState (files : BlobFiles κ) (f : UInt64) (state : FileState) : BlobFiles κ :=
  Function.update files f ((files f).map fun bf => { bf with state := state })

/-- One event on one file; `none` where the file is missing or its state forbids the event. -/
def transit (files : BlobFiles κ) (event : FileEvent) (f : UInt64) : Option (BlobFiles κ) := do
  let bf ← files f
  let state ← fileStateTransit bf.state event
  return files.setState f state

def transitAll (files : BlobFiles κ) (event : FileEvent) (fs : List UInt64) :
    Option (BlobFiles κ) :=
  fs.foldlM (fun files f => files.transit event f) files

theorem read_congr {p q : BlobIndexType} (h : p.sameRecord q) (files : BlobFiles κ) :
    files.read p = files.read q := by
  simp only [BlobIndexType.sameRecord, Bool.and_eq_true, beq_iff_eq] at h
  rw [read, read, h.1, h.2]

theorem find?_offset {records : List (BlobRec κ)}
    (hn : (records.map fun r => r.handle.offset).Nodup) {r : BlobRec κ} (hr : r ∈ records) :
    (records.find? fun q => q.handle.offset = r.handle.offset) = some r := by
  induction records with
  | nil => cases hr
  | cons q records ih =>
      obtain ⟨hq, hn⟩ := List.nodup_cons.mp hn
      obtain rfl | hr := List.mem_cons.mp hr
      · simp
      · have hne : q.handle.offset ≠ r.handle.offset := fun heq =>
          hq (List.mem_map.mpr ⟨r, hr, heq.symm⟩)
        simpa [hne] using ih hn hr

theorem read_pointerTo {files : BlobFiles κ} {f : UInt64} {bf : BlobFile κ} {r : BlobRec κ}
    (hf : files f = some bf) (hr : r ∈ bf.records) : files.read (pointerTo f r) = some r := by
  simp only [read, pointerTo, hf, Option.bind_some]
  exact find?_offset bf.offsets_nodup hr

/-- A new file number takes no record away. -/
theorem read_update_of_fresh {files : BlobFiles κ} {f : UInt64} (hf : files f = none)
    {p : BlobIndexType} {r : BlobRec κ} (hr : files.read p = some r) (bf : BlobFile κ) :
    read (Function.update files f (some bf)) p = some r := by
  have hne : p.fileNumber ≠ f := by
    intro heq
    simp [read, heq, hf] at hr
  rw [read, Function.update_of_ne hne]
  exact hr

@[simp] theorem read_setState (files : BlobFiles κ) (f : UInt64) (state : FileState)
    (p : BlobIndexType) : (files.setState f state).read p = files.read p := by
  by_cases hp : p.fileNumber = f
  · subst hp
    simp only [read, setState, Function.update_self]
    cases files p.fileNumber <;> rfl
  · simp only [read, setState, Function.update_of_ne hp]

theorem read_transit {files files' : BlobFiles κ} {event : FileEvent} {f : UInt64}
    (h : files.transit event f = some files') (p : BlobIndexType) :
    files'.read p = files.read p := by
  simp only [transit, Option.bind_eq_bind, Option.bind_eq_some_iff] at h
  obtain ⟨bf, -, state, -, heq⟩ := h
  obtain rfl := Option.some.inj heq
  exact read_setState _ _ _ _

theorem read_transitAll {event : FileEvent} {fs : List UInt64} {files files' : BlobFiles κ}
    (h : files.transitAll event fs = some files') (p : BlobIndexType) :
    files'.read p = files.read p := by
  induction fs generalizing files with
  | nil =>
      obtain rfl := Option.some.inj h
      rfl
  | cons f fs ih =>
      simp only [transitAll, List.foldlM_cons, Option.bind_eq_bind, Option.bind_eq_some_iff] at h
      obtain ⟨mid, hmid, hrest⟩ := h
      rw [ih hrest, read_transit hmid]

theorem transit_apply {files files' : BlobFiles κ} {event : FileEvent} {f : UInt64}
    (h : files.transit event f = some files') :
    (∀ g ≠ f, files' g = files g) ∧ ∃ bf state, files f = some bf ∧
      fileStateTransit bf.state event = some state ∧ files' f = some { bf with state := state } := by
  simp only [transit, Option.bind_eq_bind, Option.bind_eq_some_iff] at h
  obtain ⟨bf, hbf, state, hstate, heq⟩ := h
  obtain rfl := Option.some.inj heq
  refine ⟨fun g hg => Function.update_of_ne hg _ _, bf, state, hbf, hstate, ?_⟩
  rw [setState, Function.update_self, hbf]
  rfl

theorem transitAll_cons {files files' : BlobFiles κ} {event : FileEvent} {f : UInt64}
    {fs : List UInt64} (h : files.transitAll event (f :: fs) = some files') :
    ∃ mid, files.transit event f = some mid ∧ mid.transitAll event fs = some files' := by
  simpa only [transitAll, List.foldlM_cons, Option.bind_eq_bind, Option.bind_eq_some_iff] using h

theorem transitAll_singleton (files : BlobFiles κ) (event : FileEvent) (f : UInt64) :
    files.transitAll event [f] = files.transit event f := by
  simp only [transitAll, List.foldlM_cons, List.foldlM_nil, bind_pure]

theorem transitAll_of_not_mem {event : FileEvent} {fs : List UInt64} {files files' : BlobFiles κ}
    (h : files.transitAll event fs = some files') {g : UInt64} (hg : g ∉ fs) :
    files' g = files g := by
  induction fs generalizing files with
  | nil =>
      obtain rfl := Option.some.inj h
      rfl
  | cons f fs ih =>
      obtain ⟨mid, hmid, hrest⟩ := transitAll_cons h
      obtain ⟨hne, hg⟩ := List.ne_and_not_mem_of_not_mem_cons hg
      rw [ih hrest hg, (transit_apply hmid).1 g hne]

theorem transitAll_of_mem {event : FileEvent} {fs : List UInt64} {files files' : BlobFiles κ}
    (h : files.transitAll event fs = some files') (hn : fs.Nodup) {g : UInt64} (hg : g ∈ fs) :
    ∃ bf state, files g = some bf ∧ fileStateTransit bf.state event = some state ∧
      files' g = some { bf with state := state } := by
  induction fs generalizing files with
  | nil => cases hg
  | cons f fs ih =>
      obtain ⟨mid, hmid, hrest⟩ := transitAll_cons h
      obtain ⟨hf, hn⟩ := List.nodup_cons.mp hn
      rcases List.mem_cons.mp hg with rfl | hg
      · rw [transitAll_of_not_mem hrest hf]
        exact (transit_apply hmid).2
      · obtain ⟨bf, state, hbf, hrest⟩ := ih hrest hn hg
        have hne : g ≠ f := fun heq => hf (heq ▸ hg)
        rw [(transit_apply hmid).1 g hne] at hbf
        exact ⟨bf, state, hbf, hrest⟩

/-- No file is lost and none changes its records. -/
def Keeps (files files' : BlobFiles κ) : Prop :=
  ∀ f bf, files f = some bf → ∃ bf', files' f = some bf' ∧ bf'.records = bf.records

theorem Keeps.refl (files : BlobFiles κ) : files.Keeps files :=
  fun _ bf hf => ⟨bf, hf, rfl⟩

theorem Keeps.trans {files mid files' : BlobFiles κ} (h : files.Keeps mid)
    (h' : mid.Keeps files') : files.Keeps files' := by
  intro f bf hf
  obtain ⟨bf', hf', hrec⟩ := h f bf hf
  obtain ⟨bf'', hf'', hrec'⟩ := h' f bf' hf'
  exact ⟨bf'', hf'', hrec'.trans hrec⟩

theorem Keeps.update_fresh {files : BlobFiles κ} {f : UInt64} (hf : files f = none)
    (bf : BlobFile κ) : files.Keeps (Function.update files f (some bf)) := by
  intro g bg hg
  have hne : g ≠ f := by
    rintro rfl
    simp [hf] at hg
  exact ⟨bg, by rw [Function.update_of_ne hne, hg], rfl⟩

theorem Keeps.transit {files files' : BlobFiles κ} {event : FileEvent} {f : UInt64}
    (h : files.transit event f = some files') : files.Keeps files' := by
  intro g bg hg
  obtain ⟨hother, bf, state, hf, -, hf'⟩ := transit_apply h
  by_cases hne : g = f
  · subst hne
    obtain rfl : bf = bg := Option.some.inj (hf.symm.trans hg)
    exact ⟨_, hf', rfl⟩
  · exact ⟨bg, by rw [hother g hne, hg], rfl⟩

theorem Keeps.transitAll {event : FileEvent} {fs : List UInt64} {files files' : BlobFiles κ}
    (h : files.transitAll event fs = some files') : files.Keeps files' := by
  induction fs generalizing files with
  | nil =>
      obtain rfl := Option.some.inj h
      exact .refl files
  | cons f fs ih =>
      obtain ⟨mid, hmid, hrest⟩ := transitAll_cons h
      exact (Keeps.transit hmid).trans (ih hrest)

theorem Keeps.read {files files' : BlobFiles κ} (h : files.Keeps files') {p : BlobIndexType}
    {r : BlobRec κ} (hr : files.read p = some r) : files'.read p = some r := by
  obtain ⟨bf, hf, hfind⟩ := Option.bind_eq_some_iff.mp hr
  obtain ⟨bf', hf', hrec⟩ := h _ bf hf
  simp [BlobFiles.read, hf', hrec, hfind]

end BlobFiles
end AegonKV
