import AegonKV.GcMergeIterator
import AegonKV.TransitionSystem
import Mathlib.Data.List.Perm.Basic

/-!
# The mutex and the compute units of GC jobs

`DoRunGCOnHardware` takes a compute unit from the driver's queue, looks its inputs up under
`mutex_`, runs the kernel and returns the unit; where no unit is free it falls back to `DoRunGC`,
whose `BuildIterator` looks the inputs up under `mutex_` as well. A lookup that fails leaves either
function by a `return` between `Lock` and `Unlock`. The functions are given first as one call, and
then cut at their waiting points into the steps of any number of concurrent jobs.
-/

namespace AegonKV.GcJob
open AegonKV TransitionSystem

variable {κ : Type}

/-! ## One call -/

/-- `HardwareGCDriver::get_free_cu_index`: the index and the queue without it, or `Busy`. -/
def getFreeCuIndex : List UInt8 → Option (UInt8 × List UInt8)
  | [] => none
  | index :: queue => some (index, queue)

def setFreeCuIndex (queue : List UInt8) (index : UInt8) : List UInt8 := queue ++ [index]

/-- The driver's constructor pushes the index of every kernel name but the first of the nine. -/
def initialUnits : List UInt8 := [1, 2, 3, 4, 5, 6, 7, 8]

/-- A job on the hardware, with what `PutBlobIndex` returns for each key the kernel hands back. -/
structure HardwareJob (κ : Type) extends Job κ where
  putStatuses : List Status

/-- The loop over the inputs under `mutex_`. An error is a `return` out of the locked region. -/
def copyBitmaps : Status → List (Input κ) → Except Status Status
  | s, [] => .ok s
  | _, input :: inputs =>
    if input.found then copyBitmaps .ok inputs
    else .error (.notFound "BlobGC::BuildIterator: File not Found.")

/-- What both functions do between `Lock` and `Unlock`. -/
def lookUpInputs (storageFound : Bool) (s : Status) (inputs : List (Input κ)) :
    Except Status Status :=
  if storageFound then copyBitmaps s inputs
  else .error (.notFound "BlobGC::BuildIterator: Column family not Found.")

/-- The loop over the rewritten keys stops at the first `PutBlobIndex` that fails. -/
def putBlobIndices : Status → List Status → Status
  | s, [] => s
  | _, s :: statuses => if s.isOk then putBlobIndices s statuses else s

structure Exit where
  status : Status
  mutexHeld : Bool
  freeIndexQueue : List UInt8

/-- The status `BuildIterator` returns, and whether it returns with `mutex_` held. -/
def Job.buildIteratorExit (job : Job κ) : Status × Bool :=
  let (list, s) := Job.openInputs job.inputs
  if job.useBitmap then
    match lookUpInputs job.storageFound s list with
    | .error s => (s, true)
    | .ok s => (s, false)
  else (s, false)

def HardwareJob.doRunGCOnHardware [LinearOrder κ] (job : HardwareJob κ) (queue : List UInt8) :
    Exit :=
  match getFreeCuIndex queue with
  | none => ⟨job.doRunGC.1, job.buildIteratorExit.2, queue⟩
  | some (cuIndex, queue) =>
    match lookUpInputs job.storageFound .ok job.inputs with
    | .error s => ⟨s, true, queue⟩
    | .ok s => ⟨putBlobIndices s job.putStatuses, false, setFreeCuIndex queue cuIndex⟩

/-- Every input that `DoRunGCOnHardware` looks up is there. -/
def HardwareJob.FoundOnUnit (job : HardwareJob κ) : Prop :=
  job.storageFound = true ∧ ∀ input ∈ job.inputs, input.found = true

/-- Every input that `BuildIterator` looks up is there: it looks up those it could open, and none
without bitmaps. -/
def Job.FoundOnOpen (job : Job κ) : Prop :=
  job.useBitmap = true →
    job.storageFound = true ∧ ∀ input ∈ (Job.openInputs job.inputs).1, input.found = true

theorem copyBitmaps_error_iff {s : Status} {inputs : List (Input κ)} :
    (∃ e, copyBitmaps s inputs = .error e) ↔ ¬ ∀ input ∈ inputs, input.found = true := by
  induction inputs generalizing s with
  | nil => simp [copyBitmaps]
  | cons input inputs ih =>
      cases hf : input.found with
      | false => simp [copyBitmaps, hf]
      | true => simp [copyBitmaps, hf, ih]

theorem lookUpInputs_error_iff {storageFound : Bool} {s : Status} {inputs : List (Input κ)} :
    (∃ e, lookUpInputs storageFound s inputs = .error e) ↔
      ¬ (storageFound = true ∧ ∀ input ∈ inputs, input.found = true) := by
  cases storageFound with
  | false => simp [lookUpInputs]
  | true =>
      simp only [lookUpInputs, if_true, true_and]
      exact copyBitmaps_error_iff

/-- The two ways out of the locked region. -/
theorem lookUpInputs_cases (storageFound : Bool) (s : Status) (inputs : List (Input κ)) :
    (∃ t, lookUpInputs storageFound s inputs = .ok t ∧
      (storageFound = true ∧ ∀ input ∈ inputs, input.found = true)) ∨
    (∃ e, lookUpInputs storageFound s inputs = .error e ∧
      ¬ (storageFound = true ∧ ∀ input ∈ inputs, input.found = true)) := by
  cases h : lookUpInputs storageFound s inputs with
  | error e => exact .inr ⟨e, rfl, lookUpInputs_error_iff.mp ⟨e, h⟩⟩
  | ok t =>
      refine .inl ⟨t, rfl, ?_⟩
      by_contra hnot
      obtain ⟨e, he⟩ := lookUpInputs_error_iff.mpr hnot
      rw [h] at he
      cases he

theorem Job.buildIteratorExit_free_iff (job : Job κ) :
    job.buildIteratorExit.2 = false ↔ job.FoundOnOpen := by
  unfold Job.buildIteratorExit Job.FoundOnOpen
  cases job.useBitmap with
  | false => simp
  | true =>
      obtain ⟨t, ht, hf⟩ | ⟨e, he, hf⟩ := lookUpInputs_cases job.storageFound
        (Job.openInputs job.inputs).2 (Job.openInputs job.inputs).1
      · simp only [if_true, ht, true_iff]
        exact fun _ => hf
      · simp only [if_true, he, Bool.true_eq_false, false_iff]
        exact fun h => hf (h trivial)

theorem copyBitmaps_eq (s : Status) (inputs : List (Input κ)) :
    copyBitmaps s inputs =
      if inputs.any fun input => !input.found then
        .error (.notFound "BlobGC::BuildIterator: File not Found.")
      else .ok (if inputs.isEmpty then s else .ok) := by
  induction inputs generalizing s with
  | nil => rfl
  | cons input inputs ih =>
      cases hf : input.found with
      | false => simp [copyBitmaps, hf]
      | true =>
          simp only [copyBitmaps, hf, if_true, ih, List.any_cons, Bool.not_true, Bool.false_or,
            List.isEmpty_cons, Bool.false_eq_true, if_false, ite_self]

theorem Job.buildIteratorExit_status (job : Job κ) :
    job.buildIteratorExit.1 = job.buildIterator.1 := by
  unfold Job.buildIteratorExit Job.buildIterator
  cases job.useBitmap with
  | false => simp
  | true =>
      cases job.storageFound with
      | false => simp [lookUpInputs]
      | true =>
          simp only [lookUpInputs, if_true, copyBitmaps_eq, Bool.not_true, Bool.false_eq_true,
            if_false]
          split_ifs <;> rfl

section
variable [LinearOrder κ]

theorem HardwareJob.doRunGCOnHardware_free_iff (job : HardwareJob κ) (queue : List UInt8) :
    (job.doRunGCOnHardware queue).mutexHeld = false ↔
      if queue = [] then job.FoundOnOpen else job.FoundOnUnit := by
  cases queue with
  | nil => exact job.buildIteratorExit_free_iff
  | cons cuIndex queue =>
      obtain ⟨t, ht, hf⟩ | ⟨e, he, hf⟩ := lookUpInputs_cases job.storageFound .ok job.inputs
      · have hfound : job.FoundOnUnit := hf
        simp [doRunGCOnHardware, getFreeCuIndex, ht, hfound]
      · have hfound : ¬ job.FoundOnUnit := hf
        simp [doRunGCOnHardware, getFreeCuIndex, he, hfound]

theorem HardwareJob.doRunGCOnHardware_units_iff (job : HardwareJob κ) (queue : List UInt8) :
    (job.doRunGCOnHardware queue).freeIndexQueue.Perm queue ↔ queue = [] ∨ job.FoundOnUnit := by
  cases queue with
  | nil => simp [doRunGCOnHardware, getFreeCuIndex]
  | cons cuIndex queue =>
      obtain ⟨t, ht, hf⟩ | ⟨e, he, hf⟩ := lookUpInputs_cases job.storageFound .ok job.inputs
      · have hfound : job.FoundOnUnit := hf
        have hperm : (queue ++ [cuIndex]).Perm (cuIndex :: queue) := List.perm_append_singleton _ _
        simp only [doRunGCOnHardware, getFreeCuIndex, ht, hfound, setFreeCuIndex, hperm, or_true]
      · have hfound : ¬ job.FoundOnUnit := hf
        have hlost : ¬ queue.Perm (cuIndex :: queue) := by
          intro h
          have := h.length_eq
          simp at this
        simp [doRunGCOnHardware, getFreeCuIndex, he, hfound, hlost]

end

/-! ## Concurrent jobs -/

/-- Where a job stands in `DoRunGCOnHardware`. -/
inductive Phase
  /-- It has a unit and waits for `mutex_`. -/
  | acquired (cuIndex : UInt8)
  | locked (cuIndex : UInt8)
  /-- The kernel runs. -/
  | offloaded (cuIndex : UInt8) (s : Status)
  | rewriting (s : Status)
  /-- No unit was free: `DoRunGC`, before `BuildIterator` takes `mutex_`. -/
  | software
  | softwareLocked
  | softwareRunning
  | returned (s : Status)

namespace Phase

def unit : Phase → Option UInt8
  | .acquired cuIndex => some cuIndex
  | .locked cuIndex => some cuIndex
  | .offloaded cuIndex _ => some cuIndex
  | _ => none

def InRegion : Phase → Prop
  | .locked _ => True
  | .softwareLocked => True
  | _ => False

def IsReturned : Phase → Prop
  | .returned _ => True
  | _ => False

end Phase

/-- Who can hold `mutex_`: a GC job or any other thread of the DB. -/
inductive Thread
  | gcJob (i : ℕ)
  | other

structure Running (κ : Type) where
  job : HardwareJob κ
  phase : Phase

structure System (κ : Type) where
  freeIndexQueue : List UInt8
  mutex : Option Thread
  jobs : List (Running κ)

def System.init : System κ := ⟨initialUnits, none, []⟩

inductive Action (κ : Type)
  | start (job : HardwareJob κ)
  /-- Job `i` goes on to its next waiting point. -/
  | proceed (i : ℕ)
  | lockOther
  | unlockOther

section
variable [LinearOrder κ]

/-- The next stretch of a job's code: the queue, the mutex and the phase after it, or nothing while
the job waits for `mutex_` or has returned. -/
def HardwareJob.proceed (job : HardwareJob κ) (thread : Thread) (queue : List UInt8)
    (mutex : Option Thread) : Phase → Option (List UInt8 × Option Thread × Phase)
  | .acquired cuIndex => if mutex.isNone then some (queue, some thread, .locked cuIndex) else none
  | .locked cuIndex =>
    match lookUpInputs job.storageFound .ok job.inputs with
    | .error s => some (queue, mutex, .returned s)
    | .ok s => some (queue, none, .offloaded cuIndex s)
  | .offloaded cuIndex s => some (setFreeCuIndex queue cuIndex, mutex, .rewriting s)
  | .rewriting s => some (queue, mutex, .returned (putBlobIndices s job.putStatuses))
  | .software =>
    if job.useBitmap then
      if mutex.isNone then some (queue, some thread, .softwareLocked) else none
    else some (queue, mutex, .softwareRunning)
  | .softwareLocked =>
    match lookUpInputs job.storageFound (Job.openInputs job.inputs).2
        (Job.openInputs job.inputs).1 with
    | .error s => some (queue, mutex, .returned s)
    | .ok _ => some (queue, none, .softwareRunning)
  | .softwareRunning => some (queue, mutex, .returned job.doRunGC.1)
  | .returned _ => none

namespace System

def step (s : System κ) : Action κ → Option (System κ)
  | .start job =>
    match getFreeCuIndex s.freeIndexQueue with
    | none => some { s with jobs := s.jobs ++ [⟨job, .software⟩] }
    | some (cuIndex, queue) =>
      some { s with freeIndexQueue := queue, jobs := s.jobs ++ [⟨job, .acquired cuIndex⟩] }
  | .proceed i =>
    match s.jobs[i]? with
    | none => none
    | some r =>
      (r.job.proceed (.gcJob i) s.freeIndexQueue s.mutex r.phase).map
        fun (queue, mutex, phase) => ⟨queue, mutex, s.jobs.set i ⟨r.job, phase⟩⟩
  | .lockOther => if s.mutex.isNone then some { s with mutex := some .other } else none
  | .unlockOther =>
    match s.mutex with
    | some .other => some { s with mutex := none }
    | _ => none

end System

end

namespace System

/-- The units of the driver's queue and those of running jobs. -/
def units (s : System κ) : List UInt8 :=
  s.freeIndexQueue ++ s.jobs.filterMap fun r => r.phase.unit

/-- No job has returned with `mutex_` held. -/
def MutexReturned (s : System κ) : Prop :=
  ∀ i r, s.mutex = some (.gcJob i) → s.jobs[i]? = some r → ¬ r.phase.IsReturned

end System

/-- The lookup a job is about to make finds its files. -/
def Running.Found (r : Running κ) : Prop :=
  match r.phase with
  | .locked _ => r.job.FoundOnUnit
  | .softwareLocked => r.job.FoundOnOpen
  | _ => True

def Running.FoundOnUnit (r : Running κ) : Prop :=
  match r.phase with
  | .locked _ => r.job.FoundOnUnit
  | _ => True

def System.Found (s : System κ) : Action κ → Prop
  | .proceed i => ∀ r, s.jobs[i]? = some r → r.Found
  | _ => True

def System.FoundOnUnit (s : System κ) : Action κ → Prop
  | .proceed i => ∀ r, s.jobs[i]? = some r → r.FoundOnUnit
  | _ => True

theorem System.Found.onUnit (s : System κ) (a : Action κ) (h : s.Found a) : s.FoundOnUnit a := by
  cases a with
  | proceed i =>
      intro r hr
      have hf := h r hr
      cases hp : r.phase <;> simp_all only [Running.Found, Running.FoundOnUnit]
  | _ => trivial

/-! ## What a step does -/

section
variable [LinearOrder κ]

namespace HardwareJob

variable {job : HardwareJob κ} {s : Status}

theorem proceed_locked_error (h : lookUpInputs job.storageFound .ok job.inputs = .error s)
    (thread : Thread) (queue : List UInt8) (mutex : Option Thread) (cuIndex : UInt8) :
    job.proceed thread queue mutex (.locked cuIndex) = some (queue, mutex, .returned s) := by
  simp only [proceed, h]

theorem proceed_locked_ok (h : lookUpInputs job.storageFound .ok job.inputs = .ok s)
    (thread : Thread) (queue : List UInt8) (mutex : Option Thread) (cuIndex : UInt8) :
    job.proceed thread queue mutex (.locked cuIndex) = some (queue, none, .offloaded cuIndex s) := by
  simp only [proceed, h]

theorem proceed_softwareLocked_error
    (h : lookUpInputs job.storageFound (Job.openInputs job.inputs).2
      (Job.openInputs job.inputs).1 = .error s)
    (thread : Thread) (queue : List UInt8) (mutex : Option Thread) :
    job.proceed thread queue mutex .softwareLocked = some (queue, mutex, .returned s) := by
  simp only [proceed, h]

theorem proceed_softwareLocked_ok
    (h : lookUpInputs job.storageFound (Job.openInputs job.inputs).2
      (Job.openInputs job.inputs).1 = .ok s)
    (thread : Thread) (queue : List UInt8) (mutex : Option Thread) :
    job.proceed thread queue mutex .softwareLocked = some (queue, none, .softwareRunning) := by
  simp only [proceed, h]

end HardwareJob

/-- The stretches of a job's code, with what decides between them. -/
inductive HardwareJob.Proceeds (job : HardwareJob κ) (thread : Thread) :
    List UInt8 → Option Thread → Phase → List UInt8 → Option Thread → Phase → Prop
  | lock (queue cuIndex) :
      Proceeds job thread queue none (.acquired cuIndex) queue (some thread) (.locked cuIndex)
  | unlock (queue mutex cuIndex s) (hf : job.FoundOnUnit) :
      Proceeds job thread queue mutex (.locked cuIndex) queue none (.offloaded cuIndex s)
  | fail (queue mutex cuIndex s) (hf : ¬ job.FoundOnUnit) :
      Proceeds job thread queue mutex (.locked cuIndex) queue mutex (.returned s)
  | release (queue mutex cuIndex s) :
      Proceeds job thread queue mutex (.offloaded cuIndex s)
        (setFreeCuIndex queue cuIndex) mutex (.rewriting s)
  | finish (queue mutex s t) :
      Proceeds job thread queue mutex (.rewriting s) queue mutex (.returned t)
  | softwareLock (queue) (hb : job.useBitmap = true) :
      Proceeds job thread queue none .software queue (some thread) .softwareLocked
  | softwareSkip (queue mutex) :
      Proceeds job thread queue mutex .software queue mutex .softwareRunning
  | softwareUnlock (queue mutex) (hf : job.FoundOnOpen) :
      Proceeds job thread queue mutex .softwareLocked queue none .softwareRunning
  | softwareFail (queue mutex s) (hf : job.useBitmap = true → ¬ job.FoundOnOpen) :
      Proceeds job thread queue mutex .softwareLocked queue mutex (.returned s)
  | softwareFinish (queue mutex s) :
      Proceeds job thread queue mutex .softwareRunning queue mutex (.returned s)

theorem HardwareJob.proceeds {job : HardwareJob κ} {thread : Thread}
    {queue queue' : List UInt8} {mutex mutex' : Option Thread} {phase phase' : Phase}
    (h : job.proceed thread queue mutex phase = some (queue', mutex', phase')) :
    job.Proceeds thread queue mutex phase queue' mutex' phase' := by
  cases phase with
  | acquired cuIndex =>
      simp only [proceed, Option.ite_none_right_eq_some, Option.some.injEq, Prod.mk.injEq,
        Option.isNone_iff_eq_none] at h
      obtain ⟨rfl, rfl, rfl, rfl⟩ := h
      exact .lock ..
  | locked cuIndex =>
      obtain ⟨t, ht, hf⟩ | ⟨e, he, hf⟩ := lookUpInputs_cases job.storageFound .ok job.inputs
      · simp only [proceed_locked_ok ht, Option.some.injEq, Prod.mk.injEq] at h
        obtain ⟨rfl, rfl, rfl⟩ := h
        exact .unlock _ _ _ _ hf
      · simp only [proceed_locked_error he, Option.some.injEq, Prod.mk.injEq] at h
        obtain ⟨rfl, rfl, rfl⟩ := h
        exact .fail _ _ _ _ hf
  | offloaded cuIndex t =>
      simp only [proceed, Option.some.injEq, Prod.mk.injEq] at h
      obtain ⟨rfl, rfl, rfl⟩ := h
      exact .release ..
  | rewriting t =>
      simp only [proceed, Option.some.injEq, Prod.mk.injEq] at h
      obtain ⟨rfl, rfl, rfl⟩ := h
      exact .finish ..
  | software =>
      cases hb : job.useBitmap with
      | false =>
          simp only [proceed, hb, Bool.false_eq_true, if_false, Option.some.injEq,
            Prod.mk.injEq] at h
          obtain ⟨rfl, rfl, rfl⟩ := h
          exact .softwareSkip ..
      | true =>
          simp only [proceed, hb, if_true, Option.ite_none_right_eq_some, Option.some.injEq,
            Prod.mk.injEq, Option.isNone_iff_eq_none] at h
          obtain ⟨rfl, rfl, rfl, rfl⟩ := h
          exact .softwareLock _ hb
  | softwareLocked =>
      obtain ⟨t, ht, hf⟩ | ⟨e, he, hf⟩ := lookUpInputs_cases job.storageFound
        (Job.openInputs job.inputs).2 (Job.openInputs job.inputs).1
      · simp only [proceed_softwareLocked_ok ht, Option.some.injEq, Prod.mk.injEq] at h
        obtain ⟨rfl, rfl, rfl⟩ := h
        exact .softwareUnlock _ _ fun _ => hf
      · simp only [proceed_softwareLocked_error he, Option.some.injEq, Prod.mk.injEq] at h
        obtain ⟨rfl, rfl, rfl⟩ := h
        exact .softwareFail _ _ _ fun hb hall => hf (hall hb)
  | softwareRunning =>
      simp only [proceed, Option.some.injEq, Prod.mk.injEq] at h
      obtain ⟨rfl, rfl, rfl⟩ := h
      exact .softwareFinish ..
  | returned t => cases h

omit [LinearOrder κ] in
/-- A stretch of a job's code takes the mutex, returns it, or returns to the caller with it; or it
is no matter of the mutex. -/
theorem HardwareJob.Proceeds.mutex {job : HardwareJob κ} {thread : Thread}
    {queue queue' : List UInt8} {m m' : Option Thread} {phase phase' : Phase}
    (h : job.Proceeds thread queue m phase queue' m' phase')
    (hb : phase = .softwareLocked → job.useBitmap = true) :
    (¬ phase.InRegion ∧ m = none ∧ m' = some thread ∧ phase'.InRegion ∧
      (phase' = .softwareLocked → job.useBitmap = true)) ∨
    (phase.InRegion ∧ (Running.mk job phase).Found ∧ m' = none ∧ ¬ phase'.InRegion) ∨
    (phase.InRegion ∧ ¬ (Running.mk job phase).Found ∧ m' = m ∧ phase'.IsReturned) ∨
    (¬ phase.InRegion ∧ (Running.mk job phase).Found ∧ m' = m ∧ ¬ phase'.InRegion) := by
  cases h with
  | lock cuIndex => exact .inl ⟨id, rfl, rfl, trivial, fun h => (by cases h)⟩
  | softwareLock hu => exact .inl ⟨id, rfl, rfl, trivial, fun _ => hu⟩
  | unlock mutex cuIndex t hf => exact .inr (.inl ⟨trivial, hf, rfl, id⟩)
  | softwareUnlock mutex hf => exact .inr (.inl ⟨trivial, hf, rfl, id⟩)
  | fail mutex cuIndex t hf => exact .inr (.inr (.inl ⟨trivial, hf, rfl, trivial⟩))
  | softwareFail mutex t hf =>
      exact .inr (.inr (.inl ⟨trivial, hf (hb rfl), rfl, trivial⟩))
  | _ => exact .inr (.inr (.inr ⟨id, trivial, rfl, id⟩))

omit [LinearOrder κ] in
theorem HardwareJob.Proceeds.not_isReturned {job : HardwareJob κ} {thread : Thread}
    {queue queue' : List UInt8} {m m' : Option Thread} {phase phase' : Phase}
    (h : job.Proceeds thread queue m phase queue' m' phase') : ¬ phase.IsReturned := by
  cases h with
  | _ => exact id

omit [LinearOrder κ] in
/-- A stretch of a job's code moves a unit between the job and the queue, or loses it. -/
theorem HardwareJob.Proceeds.units {job : HardwareJob κ} {thread : Thread}
    {queue queue' : List UInt8} {mutex mutex' : Option Thread} {phase phase' : Phase}
    (h : job.Proceeds thread queue mutex phase queue' mutex' phase') :
    ((Running.mk job phase).FoundOnUnit ∧
      (queue' ++ phase'.unit.toList).Perm (queue ++ phase.unit.toList)) ∨
    (¬ (Running.mk job phase).FoundOnUnit ∧
      (queue' ++ phase'.unit.toList).length < (queue ++ phase.unit.toList).length) := by
  cases h with
  | unlock mutex cuIndex t hf => exact .inl ⟨hf, .refl _⟩
  | fail mutex cuIndex t hf =>
      refine .inr ⟨hf, ?_⟩
      simp [Phase.unit]
  | release mutex cuIndex t =>
      refine .inl ⟨trivial, ?_⟩
      simp [setFreeCuIndex, Phase.unit]
  | _ => exact .inl ⟨trivial, .refl _⟩

namespace System

/-- A step of job `i`, and the job it is a step of. -/
theorem step_proceed {s s' : System κ} {i : ℕ} (h : s.step (.proceed i) = some s') :
    ∃ r phase, s.jobs[i]? = some r ∧ s'.jobs = s.jobs.set i ⟨r.job, phase⟩ ∧
      r.job.Proceeds (.gcJob i) s.freeIndexQueue s.mutex r.phase s'.freeIndexQueue s'.mutex
        phase := by
  cases hr : s.jobs[i]? with
  | none =>
      simp only [step, hr] at h
      cases h
  | some r =>
      simp only [step, hr, Option.map_eq_some_iff] at h
      obtain ⟨⟨queue, mutex, phase⟩, hp, rfl⟩ := h
      exact ⟨r, phase, rfl, rfl, HardwareJob.proceeds hp⟩

/-- Every other step leaves the jobs under way as they are. -/
theorem step_start {s s' : System κ} {job : HardwareJob κ} (h : s.step (.start job) = some s') :
    ∃ phase, s'.jobs = s.jobs ++ [⟨job, phase⟩] ∧ s'.mutex = s.mutex ∧
      s.freeIndexQueue = phase.unit.toList ++ s'.freeIndexQueue ∧
      ¬ phase.InRegion ∧ ¬ phase.IsReturned := by
  cases hq : s.freeIndexQueue with
  | nil =>
      simp only [step, hq, getFreeCuIndex, Option.some.injEq] at h
      obtain rfl := h
      exact ⟨.software, rfl, rfl, rfl, id, id⟩
  | cons cuIndex queue =>
      simp only [step, hq, getFreeCuIndex, Option.some.injEq] at h
      obtain rfl := h
      exact ⟨.acquired cuIndex, rfl, rfl, rfl, id, id⟩

/-- The threads outside GC take `mutex_` while it is free and return it. -/
theorem step_other {s s' : System κ} {a : Action κ} (h : s.step a = some s')
    (ha : a = .lockOther ∨ a = .unlockOther) :
    s'.jobs = s.jobs ∧ s'.freeIndexQueue = s.freeIndexQueue ∧
      (∀ i, s.mutex ≠ some (.gcJob i)) ∧ ∀ i, s'.mutex ≠ some (.gcJob i) := by
  obtain rfl | rfl := ha
  · simp only [step, Option.ite_none_right_eq_some, Option.some.injEq,
      Option.isNone_iff_eq_none] at h
    obtain ⟨hm, rfl⟩ := h
    refine ⟨rfl, rfl, fun i hi => ?_, fun i hi => ?_⟩
    · rw [hm] at hi
      cases hi
    · cases hi
  · cases hm : s.mutex with
    | none =>
        simp only [step, hm] at h
        cases h
    | some thread =>
        cases thread with
        | gcJob i =>
            simp only [step, hm] at h
            cases h
        | other =>
            simp only [step, hm, Option.some.injEq] at h
            obtain rfl := h
            exact ⟨rfl, rfl, fun i hi => (by cases hi), fun i hi => (by cases hi)⟩

/-! ## The units over a run -/

omit [LinearOrder κ] in
/-- The units, with those of job `i` next to the queue. -/
theorem units_perm_of_getElem? {s : System κ} {i : ℕ} {r : Running κ}
    (hr : s.jobs[i]? = some r) :
    s.units.Perm (s.freeIndexQueue ++ r.phase.unit.toList ++
      (s.jobs.eraseIdx i).filterMap fun r => r.phase.unit) := by
  obtain ⟨hi, rfl⟩ := List.getElem?_eq_some_iff.mp hr
  have hjobs := (List.getElem_cons_eraseIdx_perm hi).symm.filterMap fun r => r.phase.unit
  rw [units, List.append_assoc]
  refine (List.Perm.append_left _ hjobs).trans ?_
  cases hu : (s.jobs[i]).phase.unit <;> simp [hu]

theorem units_step {s s' : System κ} {a : Action κ} (h : s.step a = some s') :
    (s.FoundOnUnit a ∧ s'.units.Perm s.units) ∨
      (¬ s.FoundOnUnit a ∧ s'.units.length < s.units.length) := by
  cases a with
  | start job =>
      obtain ⟨phase, hjobs, -, hqueue, -⟩ := step_start h
      refine .inl ⟨trivial, ?_⟩
      have hunit : ([⟨job, phase⟩] : List (Running κ)).filterMap (fun r => r.phase.unit) =
          phase.unit.toList := by
        cases hu : phase.unit <;> simp [hu]
      rw [units, units, hjobs, hqueue, List.filterMap_append, hunit, ← List.append_assoc,
        List.append_assoc phase.unit.toList]
      exact List.perm_append_comm
  | proceed i =>
      obtain ⟨r, phase, hr, hjobs, hp⟩ := step_proceed h
      have hi : i < s.jobs.length := (List.getElem?_eq_some_iff.mp hr).1
      have hr' : s'.jobs[i]? = some ⟨r.job, phase⟩ := by
        rw [hjobs, List.getElem?_set_self hi]
      have hrest : s'.jobs.eraseIdx i = s.jobs.eraseIdx i := by
        rw [hjobs, List.eraseIdx_set_eq]
      have hbefore := units_perm_of_getElem? hr
      have hafter := units_perm_of_getElem? hr'
      rw [hrest] at hafter
      obtain ⟨hf, hperm⟩ | ⟨hf, hlt⟩ := hp.units
      · refine .inl ⟨fun q hq => ?_, ?_⟩
        · obtain rfl : r = q := Option.some.inj (hr.symm.trans hq)
          exact hf
        · exact hafter.trans ((hperm.append_right _).trans hbefore.symm)
      · refine .inr ⟨fun hall => hf (hall r hr), ?_⟩
        simp only [List.length_append] at hlt
        simp only [hafter.length_eq, hbefore.length_eq, List.length_append]
        omega
  | lockOther =>
      obtain ⟨hjobs, hqueue, -⟩ := step_other h (.inl rfl)
      refine .inl ⟨trivial, ?_⟩
      rw [units, hjobs, hqueue, units]
  | unlockOther =>
      obtain ⟨hjobs, hqueue, -⟩ := step_other h (.inr rfl)
      refine .inl ⟨trivial, ?_⟩
      rw [units, hjobs, hqueue, units]

/-- In every run, with `hs` an empty one: the units are all there exactly where no lookup of a job
on a unit has failed. -/
theorem units_run_iff {as : List (Action κ)} {s : System κ}
    (hr : run step init as = some s) :
    s.units.Perm initialUnits ↔ Meets step FoundOnUnit init as := by
  have hgood : ∀ s a s', (s : System κ).units.length ≤ initialUnits.length →
      s.step a = some s' →
      (s'.units.Perm initialUnits ↔ s.units.Perm initialUnits ∧ s.FoundOnUnit a) := by
    intro s a s' hle h
    obtain ⟨hf, hperm⟩ | ⟨hf, hlt⟩ := units_step h
    · simp only [hf, and_true]
      exact ⟨hperm.symm.trans, hperm.trans⟩
    · simp only [hf, and_false, iff_false]
      intro hperm
      have := hperm.length_eq
      omega
  have hinv : ∀ s a s', (s : System κ).units.length ≤ initialUnits.length →
      s.step a = some s' → s'.units.length ≤ initialUnits.length := by
    intro s a s' hle h
    obtain ⟨-, hperm⟩ | ⟨-, hlt⟩ := units_step h
    · exact hperm.length_eq.trans_le hle
    · exact hlt.le.trans hle
  have hinit : (init : System κ).units = initialUnits := rfl
  rw [run_iff_meets hinv hgood (congrArg List.length hinit).le hr]
  simp only [hinit, List.Perm.refl, true_and]

/-! ## The mutex over a run -/

end System

end

/-- A job between `Lock` and `Unlock` holds the mutex; a job that holds it is there, or it has
returned from there. -/
structure Running.Agrees (r : Running κ) (i : ℕ) (mutex : Option Thread) : Prop where
  held : r.phase.InRegion → mutex = some (.gcJob i)
  holder : mutex = some (.gcJob i) → r.phase.InRegion ∨ r.phase.IsReturned
  bitmap : r.phase = .softwareLocked → r.job.useBitmap = true

structure System.Exclusive (s : System κ) : Prop where
  agrees : ∀ (i : ℕ) (r : Running κ), s.jobs[i]? = some r → r.Agrees i s.mutex
  holder : ∀ i, s.mutex = some (.gcJob i) → i < s.jobs.length

theorem System.exclusive_init : (init : System κ).Exclusive :=
  ⟨fun _ _ h => (by cases h), fun _ h => (by cases h)⟩

theorem Running.Agrees.congr {r : Running κ} {i : ℕ} {mutex mutex' : Option Thread}
    (h : r.Agrees i mutex) (hm : mutex' = some (.gcJob i) ↔ mutex = some (.gcJob i)) :
    r.Agrees i mutex' :=
  ⟨fun hin => hm.mpr (h.held hin), fun heq => h.holder (hm.mp heq), h.bitmap⟩

/-- A job other than `i` is the same after a step of `i`. -/
theorem getElem?_set_cases {jobs : List (Running κ)} {i j : ℕ} {r q : Running κ}
    (h : (jobs.set i q)[j]? = some r) : (j = i ∧ r = q) ∨ (j ≠ i ∧ jobs[j]? = some r) := by
  rw [List.getElem?_set] at h
  split_ifs at h with hij hlt
  · exact .inl ⟨hij.symm, (Option.some.inj h).symm⟩
  · exact .inr ⟨fun hji => hij hji.symm, h⟩

/-- A job that starts is the last of the list. -/
theorem getElem?_append_cases {jobs : List (Running κ)} {j : ℕ} {r q : Running κ}
    (h : (jobs ++ [q])[j]? = some r) : (j = jobs.length ∧ r = q) ∨ jobs[j]? = some r := by
  rw [List.getElem?_append] at h
  split_ifs at h with hlt
  · exact .inr h
  · obtain ⟨hj, rfl⟩ := List.getElem?_eq_some_iff.mp h
    simp only [List.length_singleton] at hj
    exact .inl ⟨by omega, List.getElem_singleton _⟩

theorem System.Exclusive.other {s s' : System κ} (hs : s.Exclusive)
    (h : s'.jobs = s.jobs ∧ s'.freeIndexQueue = s.freeIndexQueue ∧
      (∀ i, s.mutex ≠ some (.gcJob i)) ∧ ∀ i, s'.mutex ≠ some (.gcJob i)) : s'.Exclusive := by
  obtain ⟨hjobs, -, hm, hm'⟩ := h
  refine ⟨fun i r hr => ?_, fun i hi => (hm' i hi).elim⟩
  rw [hjobs] at hr
  exact (hs.agrees i r hr).congr (iff_of_false (hm' i) (hm i))

namespace HardwareJob.Proceeds

variable {job : HardwareJob κ} {i : ℕ} {queue queue' : List UInt8} {m m' : Option Thread}
  {phase phase' : Phase}

/-- A step of job `i` does not touch the mutex in the hands of another. -/
theorem mutex_other (h : job.Proceeds (.gcJob i) queue m phase queue' m' phase')
    (ha : (Running.mk job phase).Agrees i m) {j : ℕ} (hj : j ≠ i) :
    m' = some (.gcJob j) ↔ m = some (.gcJob j) := by
  have hne : (some (Thread.gcJob i)) ≠ some (.gcJob j) := by
    intro heq
    cases heq
    exact hj rfl
  obtain ⟨-, rfl, rfl, -⟩ | ⟨hin, -, rfl, -⟩ | ⟨-, -, rfl, -⟩ | ⟨-, -, rfl, -⟩ := h.mutex ha.bitmap
  · simp [hne]
  · rw [ha.held hin]
    simp [hne]
  · rfl
  · rfl

/-- Outside the region the job does not hold the mutex. -/
theorem not_held (h : job.Proceeds (.gcJob i) queue m phase queue' m' phase')
    (ha : (Running.mk job phase).Agrees i m) (hout : ¬ phase.InRegion) : m ≠ some (.gcJob i) := by
  intro hm
  obtain hin | hret := ha.holder hm
  · exact hout hin
  · exact h.not_isReturned hret

theorem agrees (h : job.Proceeds (.gcJob i) queue m phase queue' m' phase')
    (ha : (Running.mk job phase).Agrees i m) : (Running.mk job phase').Agrees i m' := by
  have hlocked : ∀ p : Phase, ¬ p.InRegion → p ≠ .softwareLocked := by
    rintro p hp rfl
    exact hp trivial
  have hfinal : ∀ p : Phase, p.IsReturned → ¬ p.InRegion := by
    intro p hp
    cases p <;> first | exact id | cases hp
  obtain ⟨-, rfl, rfl, hin, hb⟩ | ⟨-, -, rfl, hout⟩ | ⟨hin, -, rfl, hret⟩ | ⟨hout, -, rfl, hout'⟩ :=
    h.mutex ha.bitmap
  · exact ⟨fun _ => rfl, fun _ => .inl hin, hb⟩
  · exact ⟨fun hin => (hout hin).elim, fun hm => (by cases hm), fun hp => (hlocked _ hout hp).elim⟩
  · exact ⟨fun _ => ha.held hin, fun _ => .inr hret,
      fun hp => (hlocked _ (hfinal _ hret) hp).elim⟩
  · exact ⟨fun hin => (hout' hin).elim, fun hm => (h.not_held ha hout hm).elim,
      fun hp => (hlocked _ hout' hp).elim⟩

/-- Job `i` returns with the mutex exactly where its lookup fails. -/
theorem found_iff (h : job.Proceeds (.gcJob i) queue m phase queue' m' phase')
    (ha : (Running.mk job phase).Agrees i m) :
    (m' = some (.gcJob i) → ¬ phase'.IsReturned) ↔ (Running.mk job phase).Found := by
  have hregion : ∀ p : Phase, p.InRegion → ¬ p.IsReturned := by
    intro p hp
    cases p <;> first | exact id | cases hp
  obtain ⟨hout, rfl, rfl, hin, -⟩ | ⟨-, hf, rfl, -⟩ | ⟨hin, hf, rfl, hret⟩ | ⟨hout, hf, rfl, -⟩ :=
    h.mutex ha.bitmap
  · refine iff_of_true (fun _ => hregion _ hin) ?_
    cases h <;> trivial
  · exact iff_of_true (fun hm => (by cases hm)) hf
  · exact iff_of_false (fun hall => hall (ha.held hin) hret) hf
  · exact iff_of_true (fun hm => (h.not_held ha hout hm).elim) hf

end HardwareJob.Proceeds

namespace System

variable [LinearOrder κ]

theorem Exclusive.step {s s' : System κ} {a : Action κ} (hs : s.Exclusive)
    (h : s.step a = some s') : s'.Exclusive := by
  cases a with
  | start job =>
      obtain ⟨phase, hjobs, hm, -, hout, -⟩ := step_start h
      have hlen : s'.jobs.length = s.jobs.length + 1 := by
        rw [hjobs, List.length_append, List.length_singleton]
      refine ⟨fun i r hr => ?_, fun i hi => ?_⟩
      · rw [hm]
        rw [hjobs] at hr
        obtain ⟨rfl, rfl⟩ | hr := getElem?_append_cases hr
        · refine ⟨fun hin => (hout hin).elim, fun hi => ?_, fun hp => ?_⟩
          · exact (Nat.lt_irrefl _ (hs.holder _ hi)).elim
          · exact (hout (by rw [show phase = .softwareLocked from hp]; trivial)).elim
        · exact hs.agrees i r hr
      · rw [hm] at hi
        have := hs.holder i hi
        omega
  | proceed i =>
      obtain ⟨r, phase, hr, hjobs, hp⟩ := step_proceed h
      have ha := hs.agrees i r hr
      refine ⟨fun j q hq => ?_, fun j hj => ?_⟩
      · rw [hjobs] at hq
        obtain ⟨rfl, rfl⟩ | ⟨hne, hq⟩ := getElem?_set_cases hq
        · exact hp.agrees ha
        · exact (hs.agrees j q hq).congr (hp.mutex_other ha hne)
      · rw [hjobs, List.length_set]
        obtain rfl | hne := eq_or_ne j i
        · exact (List.getElem?_eq_some_iff.mp hr).1
        · exact hs.holder j ((hp.mutex_other ha hne).mp hj)
  | lockOther => exact hs.other (step_other h (.inl rfl))
  | unlockOther => exact hs.other (step_other h (.inr rfl))

omit [LinearOrder κ] in
theorem mutexReturned_iff {s : System κ} {i : ℕ} {r : Running κ} (hr : s.jobs[i]? = some r) :
    s.MutexReturned ↔ (s.mutex = some (.gcJob i) → ¬ r.phase.IsReturned) ∧
      ∀ j q, j ≠ i → s.mutex = some (.gcJob j) → s.jobs[j]? = some q → ¬ q.phase.IsReturned := by
  refine ⟨fun h => ⟨fun hm => h i r hm hr, fun j q _ => h j q⟩, fun h j q hm hq => ?_⟩
  obtain rfl | hne := eq_or_ne j i
  · obtain rfl : r = q := Option.some.inj (hr.symm.trans hq)
    exact h.1 hm
  · exact h.2 j q hne hm hq

/-- A step leaves the mutex with a job that has returned exactly where its lookup fails, and no
step takes it back. -/
theorem mutexReturned_step {s s' : System κ} {a : Action κ} (hs : s.Exclusive)
    (h : s.step a = some s') : s'.MutexReturned ↔ s.MutexReturned ∧ s.Found a := by
  cases a with
  | start job =>
      obtain ⟨phase, hjobs, hm, -, -, hret⟩ := step_start h
      simp only [MutexReturned, Found, and_true, hm, hjobs]
      refine ⟨fun hall i r hi hr => ?_, fun hall i r hi hr => ?_⟩
      · refine hall i r hi ?_
        rw [List.getElem?_append_left (hs.holder i hi)]
        exact hr
      · obtain ⟨rfl, rfl⟩ | hr := getElem?_append_cases hr
        · exact hret
        · exact hall i r hi hr
  | proceed i =>
      obtain ⟨r, phase, hr, hjobs, hp⟩ := step_proceed h
      have ha := hs.agrees i r hr
      have hr' : s'.jobs[i]? = some ⟨r.job, phase⟩ := by
        rw [hjobs, List.getElem?_set_self (List.getElem?_eq_some_iff.mp hr).1]
      have hfound : s.Found (.proceed i) ↔ r.Found := by
        simp only [Found, hr, Option.some.injEq, forall_eq']
      rw [mutexReturned_iff hr', mutexReturned_iff hr, hfound, hp.found_iff ha, and_comm]
      refine and_congr ?_ Iff.rfl
      rw [and_iff_right fun _ => hp.not_isReturned]
      refine forall₂_congr fun j q => forall_congr' fun hne => ?_
      rw [hp.mutex_other ha hne, hjobs, List.getElem?_set_ne fun hij => hne hij.symm]
  | lockOther =>
      obtain ⟨-, -, hm, hm'⟩ := step_other h (.inl rfl)
      exact iff_of_true (fun i _ hi => (hm' i hi).elim) ⟨fun i _ hi => (hm i hi).elim, trivial⟩
  | unlockOther =>
      obtain ⟨-, -, hm, hm'⟩ := step_other h (.inr rfl)
      exact iff_of_true (fun i _ hi => (hm' i hi).elim) ⟨fun i _ hi => (hm i hi).elim, trivial⟩

theorem mutexReturned_run_iff {as : List (Action κ)} {s : System κ}
    (hr : run step init as = some s) : s.MutexReturned ↔ Meets step Found init as := by
  have hinit : (init : System κ).MutexReturned := fun i _ hi => (by cases hi)
  rw [run_iff_meets (fun s a s' hs h => hs.step h) (fun s a s' hs h => mutexReturned_step hs h)
    exclusive_init hr, and_iff_right hinit]

/-! ## A job alone -/

/-- The job that started last goes on. -/
theorem run_last {queue queue' : List UInt8} {mutex mutex' : Option Thread}
    {jobs : List (Running κ)} {job : HardwareJob κ} {phase phase' : Phase}
    (h : job.proceed (.gcJob jobs.length) queue mutex phase = some (queue', mutex', phase'))
    (n : ℕ) :
    run step ⟨queue, mutex, jobs ++ [⟨job, phase⟩]⟩
        (List.replicate (n + 1) (.proceed jobs.length)) =
      run step ⟨queue', mutex', jobs ++ [⟨job, phase'⟩]⟩
        (List.replicate n (.proceed jobs.length)) := by
  simp only [List.replicate_succ, run, step, List.getElem?_concat_length, h, Option.map_some,
    Option.bind_some, List.set_append_right _ _ (le_refl _), Nat.sub_self, List.set_cons_zero]

omit [LinearOrder κ] in
theorem lookUpInputs_error_not_ok {storageFound : Bool} {s e : Status} {inputs : List (Input κ)}
    (h : lookUpInputs storageFound s inputs = .error e) : e.isOk = false := by
  cases storageFound with
  | false =>
      obtain rfl : .notFound _ = e := Except.error.inj h
      rfl
  | true =>
      simp only [lookUpInputs, if_true, copyBitmaps_eq] at h
      split_ifs at h
      obtain rfl : .notFound _ = e := Except.error.inj h
      rfl

/-- `DoRunGC` returns the error of the lookup. -/
theorem doRunGC_status_of_error {job : Job κ} {e : Status} (hb : job.useBitmap = true)
    (h : lookUpInputs job.storageFound (Job.openInputs job.inputs).2
      (Job.openInputs job.inputs).1 = .error e) : job.doRunGC.1 = e := by
  have hs : job.buildIterator.1 = e := by
    rw [← Job.buildIteratorExit_status]
    simp only [Job.buildIteratorExit, hb, if_true, h]
  have he : (!job.buildIterator.1.isOk) = true := by
    rw [hs, lookUpInputs_error_not_ok h]
    rfl
  rw [← hs]
  simp only [Job.doRunGC, he, if_true]

/-- The steps of a job that nobody disturbs are the call: the concurrent jobs run the same code. -/
theorem run_alone (job : HardwareJob κ) (queue : List UInt8) (jobs : List (Running κ)) :
    ∃ n, run step ⟨queue, none, jobs⟩ (.start job :: List.replicate n (.proceed jobs.length)) =
      some ⟨(job.doRunGCOnHardware queue).freeIndexQueue,
        if (job.doRunGCOnHardware queue).mutexHeld then some (.gcJob jobs.length) else none,
        jobs ++ [⟨job, .returned (job.doRunGCOnHardware queue).status⟩]⟩ := by
  cases queue with
  | cons cuIndex queue =>
      have hstart : ∀ n, run step ⟨cuIndex :: queue, none, jobs⟩
          (.start job :: List.replicate n (.proceed jobs.length)) =
          run step ⟨queue, none, jobs ++ [⟨job, .acquired cuIndex⟩]⟩
            (List.replicate n (.proceed jobs.length)) := fun n => rfl
      cases hl : lookUpInputs job.storageFound .ok job.inputs with
      | error e =>
          refine ⟨2, ?_⟩
          rw [hstart, run_last rfl, run_last (HardwareJob.proceed_locked_error hl _ _ _ _)]
          simp only [run, HardwareJob.doRunGCOnHardware, getFreeCuIndex, hl, if_true,
            List.replicate_zero]
      | ok t =>
          refine ⟨4, ?_⟩
          rw [hstart, run_last rfl, run_last (HardwareJob.proceed_locked_ok hl _ _ _ _),
            run_last rfl, run_last rfl]
          simp only [run, HardwareJob.doRunGCOnHardware, getFreeCuIndex, hl, List.replicate_zero,
            Bool.false_eq_true, if_false]
  | nil =>
      have hstart : ∀ n, run step ⟨[], none, jobs⟩
          (.start job :: List.replicate n (.proceed jobs.length)) =
          run step ⟨[], none, jobs ++ [⟨job, .software⟩]⟩
            (List.replicate n (.proceed jobs.length)) := fun n => rfl
      cases hb : job.useBitmap with
      | false =>
          have hskip : job.proceed (.gcJob jobs.length) [] none .software =
              some ([], none, .softwareRunning) := by
            simp only [HardwareJob.proceed, hb, Bool.false_eq_true, if_false]
          refine ⟨2, ?_⟩
          rw [hstart, run_last hskip, run_last rfl]
          simp only [run, HardwareJob.doRunGCOnHardware, getFreeCuIndex, Job.buildIteratorExit, hb,
            List.replicate_zero, Bool.false_eq_true, if_false]
      | true =>
          have hlock : job.proceed (.gcJob jobs.length) [] none .software =
              some ([], some (.gcJob jobs.length), .softwareLocked) := by
            simp only [HardwareJob.proceed, hb, if_true, Option.isNone_none]
          cases hl : lookUpInputs job.storageFound (Job.openInputs job.inputs).2
              (Job.openInputs job.inputs).1 with
          | error e =>
              refine ⟨2, ?_⟩
              rw [hstart, run_last hlock,
                run_last (HardwareJob.proceed_softwareLocked_error hl _ _ _)]
              simp only [run, HardwareJob.doRunGCOnHardware, getFreeCuIndex, Job.buildIteratorExit,
                hb, hl, if_true, List.replicate_zero, doRunGC_status_of_error hb hl]
          | ok t =>
              refine ⟨3, ?_⟩
              rw [hstart, run_last hlock, run_last (HardwareJob.proceed_softwareLocked_ok hl _ _ _),
                run_last rfl]
              simp only [run, HardwareJob.doRunGCOnHardware, getFreeCuIndex, Job.buildIteratorExit,
                hb, hl, if_true, List.replicate_zero, Bool.false_eq_true, if_false]

end System

/-- A GC run releases what it took exactly where its lookups succeed: for `BuildIterator`, for a
call of `DoRunGCOnHardware`, and over every interleaving of hardware jobs. -/
theorem releases_iff_found [LinearOrder κ] :
    (∀ job : Job κ, job.buildIteratorExit.2 = false ↔ job.FoundOnOpen) ∧
    (∀ (job : HardwareJob κ) (queue : List UInt8),
      (job.doRunGCOnHardware queue).mutexHeld = false ↔
        if queue = [] then job.FoundOnOpen else job.FoundOnUnit) ∧
    (∀ (job : HardwareJob κ) (queue : List UInt8),
      (job.doRunGCOnHardware queue).freeIndexQueue.Perm queue ↔ queue = [] ∨ job.FoundOnUnit) ∧
    ∀ (as : List (Action κ)) (s : System κ), run System.step System.init as = some s →
      (s.MutexReturned ↔ Meets System.step System.Found System.init as) ∧
      (s.units.Perm initialUnits ↔ Meets System.step System.FoundOnUnit System.init as) :=
  ⟨Job.buildIteratorExit_free_iff, HardwareJob.doRunGCOnHardware_free_iff,
    HardwareJob.doRunGCOnHardware_units_iff, fun _ _ hr => ⟨System.mutexReturned_run_iff hr, System.units_run_iff hr⟩⟩

/-- A job over one input, which a concurrent range deletion may have made obsolete. -/
def oneInput (found : Bool) : HardwareJob ℕ where
  inputs := [⟨7, .ok, .ok, [], found⟩]
  useBitmap := true
  storageFound := true
  process := fun _ => .ok
  putStatuses := []

/-- The job takes a unit, locks, and looks its input up. -/
def lookUpOnce (found : Bool) : List (Action ℕ) :=
  [.start (oneInput found), .proceed 0, .proceed 0]

def afterLookUp : System ℕ :=
  ⟨[2, 3, 4, 5, 6, 7, 8], none, [⟨oneInput true, .offloaded 1 .ok⟩]⟩

theorem lookUpOnce_found : Meets System.step System.Found System.init (lookUpOnce true) := by
  refine ⟨trivial, fun s hs => ?_⟩
  cases hs
  refine ⟨fun r hr => ?_, fun s hs => ?_⟩
  · cases hr
    trivial
  · cases hs
    refine ⟨fun r hr => ?_, fun _ _ => trivial⟩
    cases hr
    exact ⟨rfl, List.forall_mem_singleton.mpr rfl⟩

/-- An input that is still there: the mutex is free again, and unit 1 is with the kernel. -/
theorem foundInput_releases : run System.step System.init (lookUpOnce true) = some afterLookUp ∧
    afterLookUp.MutexReturned ∧ afterLookUp.units.Perm initialUnits := by
  have hrun : run System.step System.init (lookUpOnce true) = some afterLookUp := rfl
  obtain ⟨hmutex, hunits⟩ := releases_iff_found.2.2.2 _ _ hrun
  exact ⟨hrun, hmutex.mpr lookUpOnce_found, hunits.mpr (lookUpOnce_found.mono System.Found.onUnit)⟩

/-- An input that a range deletion has made obsolete: both functions return with the mutex held, and
the unit is neither free nor with a running job. -/
theorem obsoleteInput_keeps_mutex :
    (oneInput false).buildIteratorExit.2 = true ∧
    ((oneInput false).doRunGCOnHardware initialUnits).mutexHeld = true ∧
    ∃ s, run System.step System.init (lookUpOnce false) = some s ∧ ¬ s.MutexReturned ∧
      ¬ s.units.Perm initialUnits := by
  refine ⟨rfl, rfl, _, rfl, fun h => ?_, fun h => ?_⟩
  · exact h 0 _ rfl rfl trivial
  · have := h.length_eq
    cases this

end AegonKV.GcJob
