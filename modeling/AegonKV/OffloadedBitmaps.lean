import AegonKV.InvalidEntriesSound
import AegonKV.OffloadedTables

/-!
# Which dead records the bitmaps know of under offloaded garbage collection

A reference to a record goes away when a flush or a compaction resolves the versions of its key.
`OnCompactionCompleted` sets the bits of the records that its input tables reference and its output
tables do not. `OnFlushCompleted` sets no bit: a write-back that a flush discards leaves a dead
record behind that no bitmap will ever show.
-/

namespace AegonKV.OffloadedBitmaps
open LittleEndian AegonKV OffloadedGC TransitionSystem
open AegonKV.InvalidEntries (CompactionJobInfo invalidEntryIndexes markInvalid)

variable {κ : Type}

/-- A flush or a compaction whose callback has not been called, with its new blob file. -/
inductive Callback
  | flush (f : UInt64)
  | compaction (f : UInt64) (info : CompactionJobInfo)
  deriving DecidableEq, Repr

structure State (κ : Type) where
  gc : OffloadedGC.State κ
  /-- `invalid_entry_indexes_` of the files it was updated for. -/
  bitmaps : UInt64 → Option BitMap
  callbacks : List Callback

inductive Action (κ : Type)
  | put (k : κ) (v : Bytes)
  | switchMemtable
  | flush (n : ℕ) (f : UInt64) (records : List (BlobRec κ))
  /-- A compaction of tables that hold the user keys `keys`. -/
  | compact (i n : ℕ) (keys : List κ) (f : UInt64) (records : List (BlobRec κ))
  /-- The callbacks come in any order. -/
  | completed (i : ℕ)
  | gcCopy (inputs : List UInt64) (output : UInt64) (offsets : List UInt64)
  | gcInstall (j : ℕ)
  | gcWriteBack (j : ℕ)
  | gcFinish (j : ℕ)
  | gcAbort (j : ℕ)

def State.bits (s : State κ) (f i : UInt64) : Bool :=
  match s.gc.files f with
  | none => false
  | some bf =>
    match (invalidEntryIndexes s.bitmaps f bf).getBit i.toNat with
    | .ok result => result == 1
    | .error _ => false

/-- The new blob file of a flush or a compaction leaves `kPendingLSM`. -/
def settleFile (files : BlobFiles κ) (event : FileEvent) (f : UInt64) : Option (BlobFiles κ) :=
  match files f with
  | none => some files
  | some bf => if bf.state ≠ .kPendingLSM then some files else files.transit event f

def State.completedStep (s : State κ) (i : ℕ) : Option (State κ) :=
  match s.callbacks[i]? with
  | none => none
  | some (.flush f) => do
    let files ← settleFile s.gc.files .kFlushCompleted f
    return { s with gc := { s.gc with files := files }, callbacks := s.callbacks.eraseIdx i }
  | some (.compaction f info) => do
    let bitmaps ← InvalidEntries.onCompactionCompleted s.gc.files s.bitmaps info
    let files ← settleFile s.gc.files .kCompactionCompleted f
    return ⟨{ s.gc with files := files }, bitmaps, s.callbacks.eraseIdx i⟩

def State.gcAbortStep (s : State κ) (j : ℕ) : Option (State κ) :=
  match s.gc.jobs[j]? with
  | none => none
  | some job => (releaseGcFiles s.gc.files job).map fun files =>
      { s with gc := { s.gc with files := files, jobs := s.gc.jobs.eraseIdx j } }

variable [DecidableEq κ]

def State.init : State κ := ⟨.init, fun _ => none, []⟩

def step (s : State κ) : Action κ → Option (State κ)
  | .put k v => (OffloadedGC.step s.gc (.put k v)).map fun gc => { s with gc := gc }
  | .switchMemtable => (OffloadedGC.step s.gc .switchMemtable).map fun gc => { s with gc := gc }
  | .flush n f records => (s.gc.flushStep n f records).map fun gc =>
      { s with gc := gc, callbacks := s.callbacks ++ [.flush f] }
  | .compact i n keys f records =>
    let selected := fun k => decide (k ∈ keys)
    let segment := s.gc.segment i n selected
    (s.gc.compactStep i n selected f records).map fun gc =>
      { s with
        gc := gc
        callbacks := s.callbacks ++ [.compaction f
          ⟨collect segment keys, collect (buildTable segment f records) keys⟩] }
  | .completed i => s.completedStep i
  | .gcCopy inputs output offsets =>
    (s.gc.gcCopyStep inputs s.bits output offsets).map fun gc => { s with gc := gc }
  | .gcInstall j => (s.gc.gcInstallStep j).map fun gc => { s with gc := gc }
  | .gcWriteBack j => (s.gc.gcWriteBackStep j).map fun gc => { s with gc := gc }
  | .gcFinish j => (s.gc.gcFinishStep j).map fun gc => { s with gc := gc }
  | .gcAbort j => s.gcAbortStep j

/-- A table or a memtable has an entry for the record. -/
def Referenced (gc : OffloadedGC.State κ) (ref : UInt64 × UInt64) : Prop :=
  ∃ k, ∃ v ∈ gc.versions k, ∃ p, v.newPart = some p ∧ (p.fileNumber, p.index) = ref

/-- A flush finds an index entry, that is a write-back, only as the one version of its key. -/
def Lone (s : State κ) : Action κ → Prop
  | .flush n _ _ => ∀ k, ∀ v ∈ (s.gc.imm.drop (s.gc.imm.length - n)).flatMap (· k),
      v.newPart.isSome → (s.gc.imm.drop (s.gc.imm.length - n)).flatMap (· k) = [v]
  | _ => True

/-! ## What an update sets for good -/

section Updates

omit [DecidableEq κ]

/-- Every bit that was set stays set. -/
def Grows (bitmaps bitmaps' : UInt64 → Option BitMap) : Prop :=
  ∀ f bm, bitmaps f = some bm → ∃ bm', bitmaps' f = some bm' ∧ bm'.validBits = bm.validBits ∧
    ∀ j, bm.bit j = true → bm'.bit j = true

theorem Grows.refl (bitmaps : UInt64 → Option BitMap) : Grows bitmaps bitmaps :=
  fun _ bm hbm => ⟨bm, hbm, rfl, fun _ hj => hj⟩

theorem Grows.trans {a b c : UInt64 → Option BitMap} (h : Grows a b) (h' : Grows b c) : Grows a c := by
  intro f bm hbm
  obtain ⟨mid, hmid, hvalid, hbits⟩ := h f bm hbm
  obtain ⟨bm', hbm', hvalid', hbits'⟩ := h' f mid hmid
  exact ⟨bm', hbm', hvalid'.trans hvalid, fun j hj => hbits' j (hbits j hj)⟩

def Marked (bitmaps : UInt64 → Option BitMap) (ref : UInt64 × UInt64) : Prop :=
  ∃ bm, bitmaps ref.1 = some bm ∧ bm.bit ref.2.toNat = true ∧ ref.2.toNat ≤ bm.validBits

theorem Marked.grows {bitmaps bitmaps' : UInt64 → Option BitMap} {ref : UInt64 × UInt64}
    (h : Marked bitmaps ref) (hgrows : Grows bitmaps bitmaps') : Marked bitmaps' ref := by
  obtain ⟨bm, hbm, hbit, hrange⟩ := h
  obtain ⟨bm', hbm', hvalid, hbits⟩ := hgrows ref.1 bm hbm
  exact ⟨bm', hbm', hbits _ hbit, hvalid ▸ hrange⟩

theorem setBits_range {on : ℕ} {indexes : List UInt64} {bm bm' : BitMap}
    (h : InvalidEntries.setBits bm indexes on = some bm') :
    bm'.validBits = bm.validBits ∧ ∀ i ∈ indexes, i.toNat ≤ bm.validBits := by
  induction indexes generalizing bm with
  | nil =>
      obtain rfl := Option.some.inj h
      exact ⟨rfl, fun i hi => (by cases hi)⟩
  | cons i indexes ih =>
      simp only [InvalidEntries.setBits, List.foldlM_cons, Option.bind_eq_bind,
        Option.bind_eq_some_iff] at h
      obtain ⟨mid, hmid, hrest⟩ := h
      have hset : bm.setBit i.toNat on = .ok mid := by
        cases hb : bm.setBit i.toNat on <;> simp_all [Except.toOption]
      obtain ⟨hvalid, hrange⟩ := ih hrest
      have hmidValid := (BitMap.setBit_spec hset).1
      refine ⟨hvalid.trans hmidValid, fun i' hi' => ?_⟩
      rcases List.mem_cons.mp hi' with rfl | hi'
      · rw [BitMap.setBit] at hset
        split_ifs at hset with hbad
        · omega
        · omega
      · exact hmidValid ▸ hrange i' hi'

theorem markInvalid_grows {files : BlobFiles κ} {skip : FileState → Bool}
    {invalid valid : List (UInt64 × UInt64)} {bitmaps bitmaps' : UInt64 → Option BitMap} {f : UInt64}
    (h : markInvalid files skip invalid valid bitmaps f = some bitmaps') :
    Grows bitmaps bitmaps' ∧ ∀ bf, files f = some bf → skip bf.state = false →
      ∀ i, (f, i) ∈ invalid → (f, i) ∉ valid → Marked bitmaps' (f, i) := by
  unfold markInvalid at h
  split at h
  · rename_i hnone
    obtain rfl := Option.some.inj h
    refine ⟨.refl _, fun bf hbf => ?_⟩
    cases hnone.symm.trans hbf
  rename_i bf hbf
  split_ifs at h with hskip
  · obtain rfl := Option.some.inj h
    refine ⟨.refl _, fun bf' hbf' hnot => ?_⟩
    obtain rfl := Option.some.inj (hbf.symm.trans hbf')
    cases hskip.symm.trans hnot
  simp only [Option.bind_eq_bind, Option.bind_eq_some_iff] at h
  obtain ⟨ones, hones, bm, hzeros, res, hres, heq⟩ := h
  obtain rfl := Option.some.inj heq
  have hor : (invalidEntryIndexes bitmaps f bf).bitOps .kBitOr bm = .ok res := by
    cases hb : (invalidEntryIndexes bitmaps f bf).bitOps .kBitOr bm <;>
      simp_all [Except.toOption]
  obtain ⟨hvalid, hbits⟩ := BitMap.bitOps_or_spec hor
  constructor
  · intro g old hold
    by_cases hg : g = f
    · subst hg
      have hentries : invalidEntryIndexes bitmaps g bf = old := by
        rw [invalidEntryIndexes, hold]
        rfl
      rw [hentries] at hvalid hbits
      refine ⟨res, Function.update_self _ _ _, hvalid, fun j hj => ?_⟩
      rw [hbits, hj, Bool.true_or]
    · exact ⟨old, (Function.update_of_ne hg _ _).trans hold, rfl, fun _ hj => hj⟩
  · intro bf' hbf' _ i hi hnot
    obtain rfl := Option.some.inj (hbf.symm.trans hbf')
    refine ⟨res, Function.update_self _ _ _, ?_, ?_⟩
    · have hone : bm.bit i.toNat = true := by
        rw [InvalidEntries.setBits_spec hzeros, InvalidEntries.setBits_spec hones, if_neg, if_pos]
        · rfl
        · exact ⟨i, InvalidEntries.mem_indexesOf.mpr hi, rfl⟩
        · rintro ⟨i', hi', hsame⟩
          obtain rfl := UInt64.toNat_inj.mp hsame
          exact hnot (InvalidEntries.mem_indexesOf.mp hi')
      rw [hbits, hone, Bool.or_true]
    · have hequal : (invalidEntryIndexes bitmaps f bf).validBits = bm.validBits := by
        rw [BitMap.bitOps] at hor
        split_ifs at hor with hne
        exact not_not.mp hne
      have hrange := (setBits_range hones).2 i (InvalidEntries.mem_indexesOf.mpr hi)
      change i.toNat ≤ res.validBits
      rw [hvalid, hequal, (setBits_range hzeros).1, (setBits_range hones).1]
      exact hrange

theorem foldlM_markInvalid {files : BlobFiles κ} {skip : FileState → Bool}
    {invalid valid : List (UInt64 × UInt64)} {fs : List UInt64}
    {bitmaps bitmaps' : UInt64 → Option BitMap}
    (h : fs.foldlM (markInvalid files skip invalid valid) bitmaps = some bitmaps') :
    Grows bitmaps bitmaps' ∧ ∀ f ∈ fs, ∀ bf, files f = some bf → skip bf.state = false →
      ∀ i, (f, i) ∈ invalid → (f, i) ∉ valid → Marked bitmaps' (f, i) := by
  induction fs generalizing bitmaps with
  | nil =>
      obtain rfl := Option.some.inj h
      exact ⟨.refl _, fun f hf => (by cases hf)⟩
  | cons f fs ih =>
      simp only [List.foldlM_cons, Option.bind_eq_bind, Option.bind_eq_some_iff] at h
      obtain ⟨mid, hmid, hrest⟩ := h
      obtain ⟨hgrows, hset⟩ := markInvalid_grows hmid
      obtain ⟨hgrows', hset'⟩ := ih hrest
      refine ⟨hgrows.trans hgrows', fun g hg bf hbf hskip i hi hnot => ?_⟩
      rcases List.mem_cons.mp hg with rfl | hg
      · exact (hset bf hbf hskip i hi hnot).grows hgrows'
      · exact hset' g hg bf hbf hskip i hi hnot

/-- The callback of a compaction sets a bit for every reference the compaction dropped. -/
theorem onCompactionCompleted_marks {files : BlobFiles κ} {bitmaps bitmaps' : UInt64 → Option BitMap}
    {info : CompactionJobInfo}
    (h : InvalidEntries.onCompactionCompleted files bitmaps info = some bitmaps') :
    Grows bitmaps bitmaps' ∧ ∀ ref ∈ info.inputIndexes, ref ∉ info.outputIndexes →
      files ref.1 ≠ none → Marked bitmaps' ref ∨ SoftwareGC.isObsolete files ref.1 = true := by
  obtain ⟨hgrows, hset⟩ := foldlM_markInvalid h
  refine ⟨hgrows, fun ref href hnot hsome => ?_⟩
  obtain ⟨bf, hbf⟩ := Option.ne_none_iff_exists'.mp hsome
  by_cases hstate : bf.state = .kObsolete
  · exact Or.inr (SoftwareGC.isObsolete_iff.mpr ⟨bf, hbf, hstate⟩)
  · refine Or.inl (hset ref.1 (List.mem_dedup.mpr (List.mem_map_of_mem href)) bf hbf ?_ ref.2 href hnot)
    simpa using hstate

theorem bits_eq_true {s : State κ} {ref : UInt64 × UInt64} (hsome : s.gc.files ref.1 ≠ none)
    (h : Marked s.bitmaps ref) : s.bits ref.1 ref.2 = true := by
  obtain ⟨bf, hbf⟩ := Option.ne_none_iff_exists'.mp hsome
  obtain ⟨bm, hbm, hbit, hrange⟩ := h
  rw [State.bits, hbf]
  simp only [invalidEntryIndexes, hbm, Option.getD_some, BitMap.getBit, if_neg (not_lt.mpr hrange),
    if_pos hbit]
  rfl

end Updates

/-! ## The invariant -/

section Invariant

omit [DecidableEq κ]

/-- What was referenced once is referenced, is about to be reported, is marked, or its file is
obsolete. -/
def Accounted (s : State κ) (ref : UInt64 × UInt64) : Prop :=
  Referenced s.gc ref ∨
    (∃ f info, .compaction f info ∈ s.callbacks ∧ ref ∈ info.inputIndexes ∧ ref ∉ info.outputIndexes) ∨
    Marked s.bitmaps ref ∨ SoftwareGC.isObsolete s.gc.files ref.1 = true

/-- References and reports name files that are there, and so do the write-backs of installed
outputs. -/
structure Inv (s : State κ) : Prop where
  present : ∀ ref, Referenced s.gc ref → s.gc.files ref.1 ≠ none
  reported : ∀ f info, .compaction f info ∈ s.callbacks → ∀ ref ∈ info.inputIndexes,
    s.gc.files ref.1 ≠ none
  rewrites : ∀ job ∈ s.gc.jobs, ∀ w ∈ job.rewriteBatches, w.new.fileNumber = job.outputNumber
  installed : ∀ job ∈ s.gc.jobs, job.installed = true → s.gc.files job.outputNumber ≠ none

theorem ages_ne_none {files files' : BlobFiles κ} (h : SoftwareGC.Ages files files') {f : UInt64}
    (hf : files f ≠ none) : files' f ≠ none := by
  obtain ⟨bf, hbf⟩ := Option.ne_none_iff_exists'.mp hf
  obtain ⟨bf', hbf', -⟩ := h f bf hbf
  rw [hbf']
  exact Option.some_ne_none bf'

variable {s s' : State κ}

/-- A step that leaves the references as they are and queues no callback. -/
theorem Inv.of_ages (h : Inv s) (hages : SoftwareGC.Ages s.gc.files s'.gc.files)
    (hrefs : ∀ ref, Referenced s'.gc ref → Referenced s.gc ref)
    (hcallbacks : ∀ cb ∈ s'.callbacks, cb ∈ s.callbacks)
    (hrewrites : ∀ job ∈ s'.gc.jobs, ∀ w ∈ job.rewriteBatches, w.new.fileNumber = job.outputNumber)
    (hinstalled : ∀ job ∈ s'.gc.jobs, job.installed = true → s'.gc.files job.outputNumber ≠ none) :
    Inv s' where
  present ref href := ages_ne_none hages (h.present ref (hrefs ref href))
  reported f info hcb ref href := ages_ne_none hages (h.reported f info (hcallbacks _ hcb) ref href)
  rewrites := hrewrites
  installed := hinstalled

theorem Accounted.of_ages {ref : UInt64 × UInt64} (h : Accounted s ref)
    (hages : SoftwareGC.Ages s.gc.files s'.gc.files)
    (hrefs : Referenced s.gc ref → Referenced s'.gc ref)
    (hcallbacks : ∀ cb ∈ s.callbacks, cb ∈ s'.callbacks) (hbitmaps : s'.bitmaps = s.bitmaps) :
    Accounted s' ref := by
  rcases h with href | ⟨f, info, hcb, hreport⟩ | hmarked | hobsolete
  · exact Or.inl (hrefs href)
  · exact Or.inr (Or.inl ⟨f, info, hcallbacks _ hcb, hreport⟩)
  · rw [← hbitmaps] at hmarked
    exact Or.inr (Or.inr (Or.inl hmarked))
  · exact Or.inr (Or.inr (Or.inr (hages.obsolete hobsolete)))

structure StepSpec (s s' : State κ) : Prop where
  inv : Inv s'
  accounted : ∀ ref, Accounted s ref → Accounted s' ref

/-- A step that only moves files through their life cycle and ends jobs. -/
theorem StepSpec.of_files (h : Inv s) (hages : SoftwareGC.Ages s.gc.files s'.gc.files)
    (hversions : s'.gc.versions = s.gc.versions) (hjobs : ∀ job ∈ s'.gc.jobs, job ∈ s.gc.jobs)
    (hcallbacks : s'.callbacks = s.callbacks) (hbitmaps : s'.bitmaps = s.bitmaps) : StepSpec s s' := by
  have hrefs : ∀ ref, Referenced s'.gc ref ↔ Referenced s.gc ref := by
    intro ref
    rw [Referenced, hversions]
    rfl
  constructor
  · refine h.of_ages hages (fun ref => (hrefs ref).mp) (fun cb hcb => hcallbacks ▸ hcb) ?_ ?_
    · exact fun job hjob => h.rewrites job (hjobs job hjob)
    · exact fun job hjob hinstalled => ages_ne_none hages (h.installed job (hjobs job hjob) hinstalled)
  · exact fun ref href => href.of_ages hages (hrefs ref).mpr (fun cb hcb => hcallbacks ▸ hcb) hbitmaps

theorem settleFile_ages {files files' : BlobFiles κ} {event : FileEvent} {f : UInt64}
    (h : settleFile files event f = some files') (he : event ≠ .kGCOutput) (hr : event ≠ .kReset) :
    SoftwareGC.Ages files files' := by
  rw [settleFile] at h
  split at h
  · obtain rfl := Option.some.inj h
    exact .refl _
  · split_ifs at h
    · obtain rfl := Option.some.inj h
      exact .refl _
    · exact .transit h he hr

/-- A callback. -/
theorem stepSpec_completed (h : Inv s) {i : ℕ} (hs : s.completedStep i = some s') : StepSpec s s' := by
  have herase : ∀ cb ∈ s.callbacks.eraseIdx i, cb ∈ s.callbacks :=
    fun cb hcb => List.mem_of_mem_eraseIdx hcb
  rw [State.completedStep] at hs
  split at hs
  · cases hs
  · rename_i f hcb
    simp only [Option.bind_eq_bind, Option.bind_eq_some_iff] at hs
    obtain ⟨files, hfiles, heq⟩ := hs
    obtain rfl := Option.some.inj heq
    have hages := settleFile_ages hfiles (by decide) (by decide)
    constructor
    · exact h.of_ages hages (fun _ href => href) herase h.rewrites
        fun job hjob hinstalled => ages_ne_none hages (h.installed job hjob hinstalled)
    · intro ref href
      rcases href with href | ⟨g, info, hmem, hreport⟩ | hmarked | hobsolete
      · exact Or.inl href
      · refine Or.inr (Or.inl ⟨g, info, ?_, hreport⟩)
        -- the callback that went is the one of a flush
        refine (List.mem_eraseIdx_iff_getElem?.mpr ?_)
        obtain ⟨k, hk⟩ := List.getElem?_of_mem hmem
        refine ⟨k, ?_, hk⟩
        rintro rfl
        cases hcb.symm.trans hk
      · exact Or.inr (Or.inr (Or.inl hmarked))
      · exact Or.inr (Or.inr (Or.inr (hages.obsolete hobsolete)))
  · rename_i f info hcb
    simp only [Option.bind_eq_bind, Option.bind_eq_some_iff] at hs
    obtain ⟨bitmaps, hbitmaps, files, hfiles, heq⟩ := hs
    obtain rfl := Option.some.inj heq
    have hages := settleFile_ages hfiles (by decide) (by decide)
    obtain ⟨hgrows, hset⟩ := onCompactionCompleted_marks hbitmaps
    constructor
    · exact h.of_ages hages (fun _ href => href) herase h.rewrites
        fun job hjob hinstalled => ages_ne_none hages (h.installed job hjob hinstalled)
    · intro ref href
      rcases href with href | ⟨g, other, hmem, hin, hout⟩ | hmarked | hobsolete
      · exact Or.inl href
      · obtain ⟨k, hk⟩ := List.getElem?_of_mem hmem
        by_cases hki : k = i
        · subst hki
          obtain ⟨rfl, rfl⟩ := Callback.compaction.inj (Option.some.inj (hcb.symm.trans hk))
          rcases hset ref hin hout (h.reported _ _ hmem ref hin) with hmarked | hobsolete
          · exact Or.inr (Or.inr (Or.inl hmarked))
          · exact Or.inr (Or.inr (Or.inr (hages.obsolete hobsolete)))
        · exact Or.inr (Or.inl ⟨g, other, List.mem_eraseIdx_iff_getElem?.mpr ⟨k, hki, hk⟩, hin, hout⟩)
      · exact Or.inr (Or.inr (Or.inl (hmarked.grows hgrows)))
      · exact Or.inr (Or.inr (Or.inr (hages.obsolete hobsolete)))

theorem stepSpec_gcCopy (h : Inv s) {inputs offsets : List UInt64} {output : UInt64}
    {gc : OffloadedGC.State κ} (hs : s.gc.gcCopyStep inputs s.bits output offsets = some gc) :
    StepSpec s { s with gc := gc } := by
  have hages := ages_gcCopy hs
  obtain ⟨-, files, hfiles, hoffsets, rfl⟩ := gcCopyStep_cases hs
  constructor
  · refine h.of_ages hages (fun _ href => href) (fun _ hcb => hcb) ?_ ?_
    · intro job hjob w hw
      rcases List.mem_append.mp hjob with hjob | hjob
      · exact h.rewrites job hjob w hw
      · obtain rfl := List.mem_singleton.mp hjob
        obtain ⟨i, hi⟩ := List.getElem?_of_mem hw
        obtain ⟨x, r, -, -, rfl⟩ := List.getElem?_zipWith_eq_some.mp hi
        rfl
    · intro job hjob hinstalled
      rcases List.mem_append.mp hjob with hjob | hjob
      · exact ages_ne_none hages (h.installed job hjob hinstalled)
      · obtain rfl := List.mem_singleton.mp hjob
        cases hinstalled
  · exact fun ref href => href.of_ages hages id (fun _ hcb => hcb) rfl

theorem stepSpec_gcInstall (h : Inv s) {j : ℕ} {gc : OffloadedGC.State κ}
    (hs : s.gc.gcInstallStep j = some gc) : StepSpec s { s with gc := gc } := by
  have hages := ages_gcInstall hs
  obtain ⟨job, hjob, -, -, rfl⟩ := gcInstallStep_cases hs
  have hmem := List.mem_of_getElem? hjob
  constructor
  · refine h.of_ages hages (fun _ href => href) (fun _ hcb => hcb) ?_ ?_
    · intro other hother
      rcases List.mem_or_eq_of_mem_set hother with hother | rfl
      · exact h.rewrites other hother
      · exact h.rewrites job hmem
    · intro other hother hinstalled
      rcases List.mem_or_eq_of_mem_set hother with hother | rfl
      · exact ages_ne_none hages (h.installed other hother hinstalled)
      · change Function.update s.gc.files job.outputNumber (some job.output) job.outputNumber ≠ none
        rw [Function.update_self]
        exact Option.some_ne_none _
  · exact fun ref href => href.of_ages hages id (fun _ hcb => hcb) rfl

theorem stepSpec_gcFinish (h : Inv s) {j : ℕ} {gc : OffloadedGC.State κ}
    (hs : s.gc.gcFinishStep j = some gc) : StepSpec s { s with gc := gc } := by
  have hages := ages_gcFinish hs
  obtain ⟨job, mid, files, -, -, -, -, -, rfl⟩ := gcFinishStep_cases hs
  exact .of_files h hages rfl (fun job hjob => List.mem_of_mem_eraseIdx hjob) rfl rfl

theorem stepSpec_gcAbort (h : Inv s) {j : ℕ} (hs : s.gcAbortStep j = some s') : StepSpec s s' := by
  rw [State.gcAbortStep] at hs
  split at hs
  · cases hs
  · obtain ⟨files, hfiles, rfl⟩ := Option.map_eq_some_iff.mp hs
    have hages : SoftwareGC.Ages s.gc.files files := ages_releaseGcFiles hfiles
    exact .of_files h hages rfl (fun job hjob => List.mem_of_mem_eraseIdx hjob) rfl rfl

end Invariant

/-! ## Writes -/

variable {s s' : State κ}

theorem referenced_pushMem {gc : OffloadedGC.State κ} {k : κ} {v : Version} {ref : UInt64 × UInt64} :
    Referenced (gc.pushMem k v) ref ↔
      Referenced gc ref ∨ ∃ p, v.newPart = some p ∧ (p.fileNumber, p.index) = ref := by
  constructor
  · rintro ⟨g, u, hu, p, hp, href⟩
    by_cases hg : g = k
    · rw [hg, versions_pushMem_self] at hu
      rcases List.mem_cons.mp hu with rfl | hu
      · exact Or.inr ⟨p, hp, href⟩
      · exact Or.inl ⟨k, u, hu, p, hp, href⟩
    · rw [versions_pushMem_other gc hg] at hu
      exact Or.inl ⟨g, u, hu, p, hp, href⟩
  · rintro (⟨g, u, hu, p, hp, href⟩ | ⟨p, hp, href⟩)
    · refine ⟨g, u, ?_, p, hp, href⟩
      by_cases hg : g = k
      · rw [hg, versions_pushMem_self]
        exact List.mem_cons_of_mem _ (hg ▸ hu)
      · rwa [versions_pushMem_other gc hg]
    · refine ⟨k, v, ?_, p, hp, href⟩
      rw [versions_pushMem_self]
      exact List.mem_cons_self

theorem stepSpec_put (h : Inv s) (k : κ) (v : Bytes) {gc : OffloadedGC.State κ}
    (hs : OffloadedGC.step s.gc (.put k v) = some gc) : StepSpec s { s with gc := gc } := by
  obtain rfl := Option.some.inj hs
  have hrefs : ∀ ref, Referenced (s.gc.pushMem k (.value v)) ref ↔ Referenced s.gc ref := by
    intro ref
    refine referenced_pushMem.trans ⟨fun href => ?_, Or.inl⟩
    rcases href with href | ⟨p, hp, -⟩
    · exact href
    · cases hp
  constructor
  · exact h.of_ages (.refl _) (fun ref => (hrefs ref).mp) (fun _ hcb => hcb) h.rewrites h.installed
  · exact fun ref href => href.of_ages (.refl _) (hrefs ref).mpr (fun _ hcb => hcb) rfl

theorem stepSpec_gcWriteBack (h : Inv s) {j : ℕ} {gc : OffloadedGC.State κ}
    (hs : s.gc.gcWriteBackStep j = some gc) : StepSpec s { s with gc := gc } := by
  obtain ⟨job, w, rest, hjob, hbatches, hinstalled, rfl⟩ := gcWriteBackStep_cases hs
  have hmem := List.mem_of_getElem? hjob
  have hnumber := h.rewrites job hmem w (by rw [hbatches]; exact List.mem_cons_self)
  have hnew : s.gc.files w.new.fileNumber ≠ none := by
    rw [hnumber]
    exact h.installed job hmem hinstalled
  constructor
  · constructor
    · intro ref href
      rcases referenced_pushMem.mp href with href | ⟨p, hp, rfl⟩
      · exact h.present ref href
      · obtain rfl := Option.some.inj hp
        exact hnew
    · exact h.reported
    · intro other hother u hu
      rcases List.mem_or_eq_of_mem_set hother with hother | rfl
      · exact h.rewrites other hother u hu
      · refine h.rewrites job hmem u ?_
        rw [hbatches]
        exact List.mem_cons_of_mem _ hu
    · intro other hother hother_installed
      rcases List.mem_or_eq_of_mem_set hother with hother | rfl
      · exact h.installed other hother hother_installed
      · exact h.installed job hmem hinstalled
  · refine fun ref href => href.of_ages (.refl _) (fun hold => ?_) (fun _ hcb => hcb) rfl
    exact referenced_pushMem.mpr (Or.inl hold)

/-! ## Flushes and compactions -/

variable {gc' : OffloadedGC.State κ} {segment : Table κ} {f : UInt64} {records : List (BlobRec κ)}

/-- A rebuild references what was referenced before, and the records of the new file. -/
theorem present_rebuilds (h : Inv s) (hb : Rebuilds s.gc gc' segment f records)
    (ref : UInt64 × UInt64) (href : Referenced gc' ref) : gc'.files ref.1 ≠ none := by
  obtain ⟨k, v, hv, p, hp, rfl⟩ := href
  rcases hb.named hv hp with ⟨u, hu, hup⟩ | ⟨r, hr, -, rfl⟩
  · exact ages_ne_none hb.ages (h.present _ ⟨k, u, hu, p, hup, rfl⟩)
  · obtain ⟨-, bf, hbf, -⟩ := hb.file hr
    change gc'.files f ≠ none
    rw [hbf]
    exact Option.some_ne_none bf

/-- A reference survives a rebuild unless it was in the segment and is not in the new table. -/
theorem referenced_rebuilds (hb : Rebuilds s.gc gc' segment f records) {ref : UInt64 × UInt64}
    (href : Referenced s.gc ref) :
    Referenced gc' ref ∨ ∃ k, ∃ v ∈ segment k, ∃ p, v.newPart = some p ∧
      (p.fileNumber, p.index) = ref := by
  obtain ⟨k, v, hv, p, hp, hpr⟩ := href
  obtain ⟨newer, older, hold, hnew⟩ := hb.versions k
  rw [hold] at hv
  rcases List.mem_append.mp hv with hv | hv
  · refine Or.inl ⟨k, v, ?_, p, hp, hpr⟩
    rw [hnew]
    exact List.mem_append_left _ hv
  rcases List.mem_append.mp hv with hv | hv
  · exact Or.inr ⟨k, v, hv, p, hp, hpr⟩
  · refine Or.inl ⟨k, v, ?_, p, hp, hpr⟩
    rw [hnew]
    exact List.mem_append_right _ (List.mem_append_right _ hv)

theorem referenced_buildTable (hb : Rebuilds s.gc gc' segment f records) {k : κ} {v : Version}
    (hv : v ∈ buildTable segment f records k) {p : BlobIndexType} (hp : v.newPart = some p) :
    Referenced gc' (p.fileNumber, p.index) := by
  obtain ⟨newer, older, -, hnew⟩ := hb.versions k
  refine ⟨k, v, ?_, p, hp, rfl⟩
  rw [hnew]
  exact List.mem_append_right _ (List.mem_append_left _ hv)

theorem stepSpec_flush (h : Inv s) {n : ℕ} (hlone : Lone s (.flush n f records))
    (hs : s.gc.flushStep n f records = some gc') :
    StepSpec s { s with gc := gc', callbacks := s.callbacks ++ [.flush f] } := by
  have hb := rebuilds_flush hs
  have hjobs : gc'.jobs = s.gc.jobs := hb.jobs
  constructor
  · constructor
    · exact present_rebuilds h hb
    · intro g info hcb ref href
      rcases List.mem_append.mp hcb with hcb | hcb
      · exact ages_ne_none hb.ages (h.reported g info hcb ref href)
      · cases List.mem_singleton.mp hcb
    · intro job hjob
      exact h.rewrites job (hjobs ▸ hjob)
    · intro job hjob hinstalled
      exact ages_ne_none hb.ages (h.installed job (hjobs ▸ hjob) hinstalled)
  · refine fun ref href => href.of_ages hb.ages (fun hold => ?_)
      (fun cb hcb => List.mem_append_left _ hcb) rfl
    rcases referenced_rebuilds hb hold with hnew | ⟨k, v, hv, p, hp, rfl⟩
    · exact hnew
    · -- the one version of its key stays as it is
      have hone := hlone k v hv (by rw [hp]; rfl)
      refine referenced_buildTable (v := v) hb (k := k) ?_ hp
      rw [buildTable, hone]
      cases v with
      | value b => cases hp
      | plain q => exact List.mem_singleton.mpr rfl
      | writeBack q o => exact List.mem_singleton.mpr rfl

theorem stepSpec_compact (h : Inv s) {i n : ℕ} {keys : List κ}
    (hs : step s (.compact i n keys f records) = some s') : StepSpec s s' := by
  simp only [step] at hs
  obtain ⟨gc, hgc, rfl⟩ := Option.map_eq_some_iff.mp hs
  have hb := rebuilds_compact hgc
  have hjobs : gc.jobs = s.gc.jobs := hb.jobs
  constructor
  · constructor
    · exact present_rebuilds h hb
    · intro g info hcb ref href
      rcases List.mem_append.mp hcb with hcb | hcb
      · exact ages_ne_none hb.ages (h.reported g info hcb ref href)
      · obtain ⟨-, rfl⟩ := Callback.compaction.inj (List.mem_singleton.mp hcb)
        obtain ⟨k, hk, v, hv, p, hp, rfl⟩ := mem_collect.mp href
        obtain ⟨newer, older, hold, -⟩ := hb.versions k
        refine ages_ne_none hb.ages (h.present _ ⟨k, v, ?_, p, hp, rfl⟩)
        rw [hold]
        exact List.mem_append_right _ (List.mem_append_left _ hv)
    · intro job hjob
      exact h.rewrites job (hjobs ▸ hjob)
    · intro job hjob hinstalled
      exact ages_ne_none hb.ages (h.installed job (hjobs ▸ hjob) hinstalled)
  · intro ref href
    by_cases hold : Referenced s.gc ref
    · rcases referenced_rebuilds hb hold with hnew | ⟨k, v, hv, p, hp, rfl⟩
      · exact Or.inl hnew
      · have hk : k ∈ keys := by
          by_contra hk
          simp [OffloadedGC.State.segment, hk] at hv
        by_cases hout : (p.fileNumber, p.index) ∈
            collect (buildTable (s.gc.segment i n fun k => decide (k ∈ keys)) f records) keys
        · obtain ⟨g, -, u, hu, q, hq, heq⟩ := mem_collect.mp hout
          refine Or.inl ?_
          rw [← heq]
          exact referenced_buildTable hb hu hq
        · refine Or.inr (Or.inl ⟨f, _, List.mem_append_right _ (List.mem_singleton.mpr rfl), ?_, hout⟩)
          exact mem_collect.mpr ⟨k, hk, v, hv, p, hp, rfl⟩
    · exact href.of_ages hb.ages (fun hold' => absurd hold' hold)
        (fun cb hcb => List.mem_append_left _ hcb) rfl

/-! ## Runs -/

theorem step_spec (h : Inv s) {a : Action κ} (hlone : Lone s a) (hs : step s a = some s') :
    StepSpec s s' := by
  cases a with
  | put k v =>
      rw [step, Option.map_eq_some_iff] at hs
      obtain ⟨gc, hgc, rfl⟩ := hs
      exact stepSpec_put h k v hgc
  | switchMemtable =>
      rw [step, Option.map_eq_some_iff] at hs
      obtain ⟨gc, hgc, rfl⟩ := hs
      obtain rfl := Option.some.inj hgc
      refine .of_files h (.refl _) ?_ (fun _ hjob => hjob) rfl rfl
      funext k
      simp only [OffloadedGC.State.versions, List.flatMap_cons, List.nil_append]
  | flush n f records =>
      rw [step, Option.map_eq_some_iff] at hs
      obtain ⟨gc, hgc, rfl⟩ := hs
      exact stepSpec_flush h hlone hgc
  | compact i n keys f records => exact stepSpec_compact h hs
  | completed i => exact stepSpec_completed h hs
  | gcCopy inputs output offsets =>
      rw [step, Option.map_eq_some_iff] at hs
      obtain ⟨gc, hgc, rfl⟩ := hs
      exact stepSpec_gcCopy h hgc
  | gcInstall j =>
      rw [step, Option.map_eq_some_iff] at hs
      obtain ⟨gc, hgc, rfl⟩ := hs
      exact stepSpec_gcInstall h hgc
  | gcWriteBack j =>
      rw [step, Option.map_eq_some_iff] at hs
      obtain ⟨gc, hgc, rfl⟩ := hs
      exact stepSpec_gcWriteBack h hgc
  | gcFinish j =>
      rw [step, Option.map_eq_some_iff] at hs
      obtain ⟨gc, hgc, rfl⟩ := hs
      exact stepSpec_gcFinish h hgc
  | gcAbort j => exact stepSpec_gcAbort h hs

omit [DecidableEq κ] in
theorem Inv.init : Inv (State.init : State κ) where
  present ref href := by
    obtain ⟨k, v, hv, -⟩ := href
    cases hv
  reported f info hcb := by cases hcb
  rewrites job hjob := by cases hjob
  installed job hjob := by cases hjob

theorem accounted_run {t : State κ} {actions : List (Action κ)} (h : Inv t)
    (hlone : Meets step Lone t actions) (hr : run step t actions = some s) {ref : UInt64 × UInt64}
    (href : Accounted t ref) : Inv s ∧ Accounted s ref := by
  induction actions generalizing t with
  | nil =>
      obtain rfl : t = s := Option.some.inj hr
      exact ⟨h, href⟩
  | cons a actions ih =>
      obtain ⟨mid, hmid, hrest⟩ := run_cons_some hr
      have hspec := step_spec h hlone.1 hmid
      exact ih hspec.inv (hlone.2 mid hmid) hrest (hspec.accounted ref href)

/-- Bitmap completeness: in every run whose flushes find write-backs as the one version of their
key, once all callbacks have been called, every record of a file in use that was referenced and is
not any more has its bit set. -/
theorem unreferenced_bit_invalid {before after : List (Action κ)} {t : State κ}
    (hbefore : Meets step Lone State.init before) (ht : run step State.init before = some t)
    (hafter : Meets step Lone t after) (hs : run step t after = some s) (hcallbacks : s.callbacks = [])
    {f i : UInt64} (href : Referenced t.gc (f, i)) (hgone : ¬Referenced s.gc (f, i))
    {bf : BlobFile κ} (hbf : s.gc.files f = some bf) (huse : bf.state ≠ .kObsolete) :
    s.bits f i = true := by
  have hinv : Inv t :=
    run_invariant (fun _ _ _ h hlone hstep => (step_spec h hlone hstep).inv) .init hbefore ht
  obtain ⟨-, haccounted⟩ := accounted_run hinv hafter hs (Or.inl href)
  rcases haccounted with hstill | ⟨g, info, hcb, -⟩ | hmarked | hobsolete
  · exact absurd hstill hgone
  · rw [hcallbacks] at hcb
    cases hcb
  · refine bits_eq_true ?_ hmarked
    rw [hbf]
    exact Option.some_ne_none bf
  · obtain ⟨bf', hbf', hstate⟩ := SoftwareGC.isObsolete_iff.mp hobsolete
    obtain rfl := Option.some.inj (hbf.symm.trans hbf')
    exact absurd hstate huse

/-- A key is flushed into file 1, its record is copied to file 2 and written back. -/
def copied : List (Action ℕ) :=
  [.put 0 [1], .switchMemtable, .flush 1 1 [⟨⟨12, 20, 0⟩, 0, [1]⟩], .completed 0, .gcCopy [1] 2 [12],
    .gcInstall 0, .gcWriteBack 0, .gcFinish 0, .switchMemtable]

def copiedState : State ℕ := (run step State.init copied).getD State.init

/-- The write-back is flushed alone. The key is written again, and a compaction drops the
write-back. -/
def compactedAway : List (Action ℕ) :=
  [.flush 1 3 [], .completed 0, .put 0 [2], .switchMemtable, .flush 1 4 [], .completed 0,
    .compact 0 3 [0] 5 [], .completed 0]

theorem lone_copied : Meets step Lone State.init copied := by
  refine .cons rfl trivial (.cons rfl trivial (.cons rfl ?_ (.cons rfl trivial (.cons rfl trivial
    (.cons rfl trivial (.cons rfl trivial (.cons rfl trivial (.cons rfl trivial trivial))))))))
  rintro (_ | k) v hv hp
  · obtain rfl := List.mem_singleton.mp hv
    cases hp
  · cases hv

theorem lone_compactedAway : Meets step Lone copiedState compactedAway := by
  refine .cons rfl ?_ (.cons rfl trivial (.cons rfl trivial (.cons rfl trivial (.cons rfl ?_
    (.cons rfl trivial (.cons rfl trivial (.cons rfl trivial trivial)))))))
  · rintro (_ | k) v hv -
    · obtain rfl := List.mem_singleton.mp hv
      rfl
    · cases hv
  · rintro (_ | k) v hv hp
    · obtain rfl := List.mem_singleton.mp hv
      cases hp
    · cases hv

theorem compactedAway_marked :
    ∃ s, run step State.init copied = some copiedState ∧ Referenced copiedState.gc (2, 0) ∧
      run step copiedState compactedAway = some s ∧ s.callbacks = [] ∧
      ¬Referenced s.gc (2, 0) ∧ s.bits 2 0 = true := by
  have hrun : run step State.init copied = some copiedState := rfl
  have href : Referenced copiedState.gc (2, 0) :=
    ⟨0, .writeBack ⟨2, 12, 20, 0⟩ ⟨1, 12, 20, 0⟩, by decide +kernel, ⟨2, 12, 20, 0⟩, rfl, rfl⟩
  obtain ⟨s, hs⟩ : ∃ s, run step copiedState compactedAway = some s := ⟨_, rfl⟩
  have hgone : ¬Referenced s.gc (2, 0) := by
    obtain rfl := Option.some.inj hs
    rintro ⟨_ | k, v, hv, p, hp, -⟩
    · obtain rfl := List.mem_singleton.mp hv
      cases hp
    · cases hv
  have hcallbacks : s.callbacks = [] := by
    obtain rfl := Option.some.inj hs
    rfl
  obtain ⟨bf, hbf, hstate⟩ : ∃ bf, s.gc.files 2 = some bf ∧ bf.state = .kNormal := by
    obtain rfl := Option.some.inj hs
    exact ⟨_, rfl, rfl⟩
  refine ⟨s, hrun, href, hs, hcallbacks, hgone, ?_⟩
  refine unreferenced_bit_invalid lone_copied hrun lone_compactedAway hs hcallbacks href hgone hbf ?_
  rw [hstate]
  decide

/-- The key is written again before the write-back, so that the flush finds both. -/
def overwritten : List (Action ℕ) :=
  [.put 0 [1], .switchMemtable, .flush 1 1 [⟨⟨12, 20, 0⟩, 0, [1]⟩], .completed 0, .gcCopy [1] 2 [12],
    .gcInstall 0, .put 0 [2], .gcWriteBack 0, .gcFinish 0]

def overwrittenState : State ℕ := (run step State.init overwritten).getD State.init

/-- The flush discards the write-back, and no callback says so. -/
theorem flushedAway_unmarked :
    ∃ s bf, run step State.init overwritten = some overwrittenState ∧
      Referenced overwrittenState.gc (2, 0) ∧
      run step overwrittenState [.switchMemtable, .flush 1 3 [], .completed 0] = some s ∧
      s.callbacks = [] ∧ s.gc.files 2 = some bf ∧ bf.state = .kNormal ∧
      (bf.records.map fun r => r.handle.index) = [0] ∧
      ¬Referenced s.gc (2, 0) ∧ s.bits 2 0 = false := by
  have hrun : run step State.init overwritten = some overwrittenState := rfl
  have href : Referenced overwrittenState.gc (2, 0) :=
    ⟨0, .writeBack ⟨2, 12, 20, 0⟩ ⟨1, 12, 20, 0⟩, by decide +kernel, ⟨2, 12, 20, 0⟩, rfl, rfl⟩
  refine ⟨_, _, hrun, href, rfl, rfl, rfl, rfl, rfl, ?_, rfl⟩
  rintro ⟨_ | k, v, hv, p, hp, hpair⟩
  · rcases List.mem_cons.mp hv with rfl | hv
    · cases hp
    · obtain rfl := List.mem_singleton.mp hv
      obtain rfl := Option.some.inj hp
      exact absurd hpair (by decide)
  · cases hv

end AegonKV.OffloadedBitmaps
