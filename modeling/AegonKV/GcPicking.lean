import AegonKV.StorageEvolution

/-!
# What the picker of a GC job takes

The loop of `PickBlobGC` adds files until their sizes reach `max_gc_batch_size` and goes on only to
see whether another job is worth while.
-/

namespace AegonKV

def BlobStorage.sizeOf (st : BlobStorage) (f : UInt64) : UInt64 :=
  ((st.files.lookup f).map (·.fileSize)).getD 0

/-- `batch_size` for the files of a job, in the arithmetic of `uint64_t`. -/
def BlobStorage.batchSizeOf (st : BlobStorage) (files : List UInt64) : UInt64 :=
  files.foldl (fun size f => size + st.sizeOf f) 0

/-- No file is added to a batch that has reached the maximum. -/
def StopsAtMax (p : GcPickOptions) (st : BlobStorage) (files : List UInt64) : Prop :=
  ∀ before f after, files = before ++ f :: after →
    before = [] ∨ st.batchSizeOf before < p.maxGcBatchSize

structure Picking.Counted (p : GcPickOptions) (st : BlobStorage) (acc : Picking) : Prop where
  size : acc.batchSize = st.batchSizeOf acc.blobFiles
  stops : StopsAtMax p st acc.blobFiles
  going : acc.stopPicking = false → acc.blobFiles = [] ∨ acc.batchSize < p.maxGcBatchSize

variable {p : GcPickOptions} {st : BlobStorage} {acc : Picking}

theorem BlobStorage.batchSizeOf_snoc (st : BlobStorage) (files : List UInt64) (f : UInt64) :
    st.batchSizeOf (files ++ [f]) = st.batchSizeOf files + st.sizeOf f := by
  simp only [batchSizeOf, List.foldl_append, List.foldl_cons, List.foldl_nil]

theorem StopsAtMax.snoc {files : List UInt64} (h : StopsAtMax p st files)
    (hgoing : files = [] ∨ st.batchSizeOf files < p.maxGcBatchSize) (f : UInt64) :
    StopsAtMax p st (files ++ [f]) := by
  intro before g after heq
  rcases List.eq_nil_or_concat after with rfl | ⟨init, last, rfl⟩
  · have hparts := List.append_inj' heq rfl
    rw [← hparts.1]
    exact hgoing
  · have hassoc : files ++ [f] = (before ++ g :: init) ++ [last] := by
      rw [heq, List.concat_eq_append, List.append_assoc, List.cons_append]
    exact h before g init (List.append_inj' hassoc rfl).1

theorem Picking.counted_start (p : GcPickOptions) (st : BlobStorage) : Counted p st {} := by
  refine ⟨rfl, fun before f after heq => ?_, fun _ => Or.inl rfl⟩
  cases (List.append_eq_nil_iff.mp heq.symm).2

/-- A round that adds a file. -/
theorem Picking.Counted.add (h : acc.Counted p st) {f : UInt64} {file : BlobFileMeta}
    (hfile : st.files.lookup f = some file) (hgoing : acc.stopPicking = false) :
    Counted p st { acc with
      blobFiles := acc.blobFiles ++ [f]
      batchSize := acc.batchSize + file.fileSize
      stopPicking := decide (p.maxGcBatchSize ≤ acc.batchSize + file.fileSize) } := by
  have hsize : st.sizeOf f = file.fileSize := by
    rw [BlobStorage.sizeOf, hfile, Option.map_some, Option.getD_some]
  constructor
  case size =>
    dsimp only
    rw [st.batchSizeOf_snoc, hsize, h.size]
  case stops =>
    refine h.stops.snoc ?_ f
    rw [← h.size]
    exact h.going hgoing
  case going =>
    intro hstop
    exact Or.inr (UInt64.not_le.mp (of_decide_eq_false hstop))

theorem pickFiles_counted (h : acc.Counted p st) (scores : List GCScore) :
    (pickFiles p st scores acc).Counted p st := by
  induction scores generalizing acc with
  | nil => exact h
  | cons g scores ih =>
      rw [pickFiles]
      split
      · exact h
      · cases hfile : st.files.lookup g.fileNumber with
        | none => exact ih h
        | some file =>
            dsimp only
            split_ifs with hstate hpicking hnext
            · exact ih h
            · exact ih (h.add hfile (by simpa using hpicking))
            · exact ⟨h.size, h.stops, h.going⟩
            · exact ih ⟨h.size, h.stops, h.going⟩

def takenFiles (p : GcPickOptions) (st : BlobStorage) : List UInt64 :=
  (pickFiles p st st.gcScore {}).blobFiles

theorem takenFiles_counted (p : GcPickOptions) (st : BlobStorage) :
    (pickFiles p st st.gcScore {}).Counted p st :=
  pickFiles_counted (Picking.counted_start p st) st.gcScore

theorem pickBlobGC_taken {inputs : List UInt64} (h : pickBlobGC p st = some inputs) :
    inputs = takenFiles p st := by
  rw [pickBlobGC] at h
  split_ifs at h
  exact (Option.some.inj h).symm

theorem pickBlobGC_none_of_small (h : st.batchSizeOf (takenFiles p st) < p.minGcBatchSize) :
    pickBlobGC p st = none := by
  have hsmall : (pickFiles p st st.gcScore {}).batchSize < p.minGcBatchSize := by
    rw [(takenFiles_counted p st).size]
    exact h
  rw [pickBlobGC]
  simp only [hsmall, decide_true, Bool.or_true, if_true]

/-- Every entry of `gc_score_` has a file, and the picker takes normal files that are in the hands of
no job, each once, stops at the maximum and takes nothing that is below the minimum. -/
structure PicksWell (p : GcPickOptions) (st : BlobStorage) (held : List UInt64) : Prop where
  found : ∀ g ∈ st.gcScore, ∃ file, st.files.lookup g.fileNumber = some file
  normal : ∀ inputs, pickBlobGC p st = some inputs → inputs.Nodup ∧
    ∀ f ∈ inputs, ∃ file, st.files.lookup f = some file ∧ file.state = .kNormal
  free : ∀ inputs, pickBlobGC p st = some inputs → ∀ f ∈ inputs, f ∉ held
  stops : ∀ inputs, pickBlobGC p st = some inputs → StopsAtMax p st inputs
  small : st.batchSizeOf (takenFiles p st) < p.minGcBatchSize → pickBlobGC p st = none

/-- In a storage whose scores are right it does so, if the files in the hands of a job are not
normal. -/
theorem BlobStorage.Tidy.picksWell (h : st.Tidy) (p : GcPickOptions) {held : List UInt64}
    (hheld : ∀ f ∈ held, ∀ file, st.files.lookup f = some file → file.state.InGC) :
    PicksWell p st held where
  found g hg := by
    obtain ⟨file, hfile, -⟩ := h.scored g hg
    exact ⟨file, hfile⟩
  normal inputs hinputs := pickBlobGC_spec hinputs h.distinct
  free inputs hinputs f hf hmem := by
    obtain ⟨file, hfile, hnormal⟩ := (pickBlobGC_spec hinputs h.distinct).2 f hf
    have hgc := hheld f hmem file hfile
    rw [hnormal] at hgc
    rcases hgc with hgc | hgc | hgc <;> cases hgc
  stops inputs hinputs := by
    rw [pickBlobGC_taken hinputs]
    exact (takenFiles_counted p st).stops
  small := pickBlobGC_none_of_small

end AegonKV
