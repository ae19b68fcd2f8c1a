import Mathlib.Data.List.Basic
import Mathlib.Tactic.Ring
import AegonKV.TransitionSystem

/-!
# The GC queue and the column family drops

`TitanDBImpl` counts its GC requests in `unscheduled_gc_`, `bg_gc_scheduled_` and
`bg_gc_running_`, and the drops in progress in `drop_cf_requests_`. All of them and `gc_queue_` are
read and written under `mutex_`, so one action below is what one thread does between taking the
mutex, at a lock or on return from `bg_cv_.Wait()`, and releasing it. A waiting thread may return
at any moment, as condition variables allow, and tests its condition again.
-/

namespace AegonKV

open TransitionSystem

/-- Where a `BackgroundCallGC` job is while it does not hold the mutex. -/
inductive WorkerPhase
  /-- Submitted to the thread pool, `BackgroundCallGC` not begun. -/
  | submitted
  /-- In `bg_cv_.Wait()` for the drop requests to end. -/
  | waiting
  /-- In `BackgroundGC` of a column family, where `BlobGCJob` has released the mutex. -/
  | collecting (columnFamilyId : UInt32)
  /-- After `BackgroundGC`, writing the log buffer. -/
  | flushingLog
  | finished
deriving DecidableEq, Repr

/-- Where a `DropColumnFamilies` call is while it does not hold the mutex. -/
inductive DropPhase
  /-- In `bg_cv_.Wait()` for the running GC jobs to end. -/
  | waiting
  /-- In the base database's `DropColumnFamilies`. -/
  | droppingBase
  | returned
deriving DecidableEq, Repr

structure GcOptions where
  disableBackgroundGc : Bool
  maxBackgroundGc : ℕ

structure GcScheduler where
  gcQueue : List UInt32 := []
  unscheduledGc : ℤ := 0
  bgGcScheduled : ℤ := 0
  bgGcRunning : ℤ := 0
  dropCfRequests : ℤ := 0
  shutingDown : Bool := false
  workers : List WorkerPhase := []
  drops : List DropPhase := []
deriving DecidableEq, Repr

/-- What `BackgroundGC` does before it first releases the mutex. -/
inductive GcEntry
  /-- The column family is dropped, or the picker finds nothing. -/
  | nothingToDo
  | prepareFailed (triggerNext : Bool)
  | runs
deriving DecidableEq, Repr

namespace GcScheduler

variable (o : GcOptions)

def addToGCQueue (s : GcScheduler) (columnFamilyId : UInt32) : GcScheduler :=
  { s with
    unscheduledGc := s.unscheduledGc + 1
    gcQueue := s.gcQueue ++ [columnFamilyId] }

/-- One round of the loop of `MaybeScheduleGC`, whose job goes to the thread pool. -/
def submitJob (s : GcScheduler) : GcScheduler :=
  { s with
    unscheduledGc := s.unscheduledGc - 1
    bgGcScheduled := s.bgGcScheduled + 1
    workers := s.workers ++ [.submitted] }

def submitJobs : ℕ → GcScheduler → GcScheduler
  | 0, s => s
  | n + 1, s =>
    if 0 < s.unscheduledGc ∧ s.bgGcScheduled < o.maxBackgroundGc then submitJobs n s.submitJob
    else s

/-- Each round takes one from `unscheduled_gc_`, which so bounds their number. -/
def maybeScheduleGC (s : GcScheduler) : GcScheduler :=
  if o.disableBackgroundGc then s
  else if s.shutingDown then s
  else submitJobs o s.unscheduledGc.toNat s

def setWorker (s : GcScheduler) (i : ℕ) (phase : WorkerPhase) : GcScheduler :=
  { s with workers := s.workers.set i phase }

def setDrop (s : GcScheduler) (j : ℕ) (phase : DropPhase) : GcScheduler :=
  { s with drops := s.drops.set j phase }

/-- The last lines of `BackgroundGC`: the column family returns to the queue where the picker left
files for a next job and the queue is not overwhelmed. -/
def triggerNext (s : GcScheduler) (columnFamilyId : UInt32) (trigger : Bool) : GcScheduler :=
  if trigger ∧ s.bgGcScheduled - 1 + s.gcQueue.length < 2 * (o.maxBackgroundGc : ℤ) then
    s.addToGCQueue columnFamilyId
  else s

def finishCall (s : GcScheduler) (i : ℕ) : GcScheduler :=
  maybeScheduleGC o
    { s.setWorker i .finished with
      bgGcRunning := s.bgGcRunning - 1
      bgGcScheduled := s.bgGcScheduled - 1 }

/-- `BackgroundCallGC` from its lock, or from its return from `Wait`, up to its next release of the
mutex. -/
def backgroundCallGC (s : GcScheduler) (i : ℕ) (entry : GcEntry) : GcScheduler :=
  if 0 < s.dropCfRequests then s.setWorker i .waiting
  else
    let s := { s with bgGcRunning := s.bgGcRunning + 1 }
    match s.gcQueue with
    | [] => finishCall o s i
    | columnFamilyId :: rest =>
      let s := { s with gcQueue := rest }
      match entry with
      | .nothingToDo => s.setWorker i .flushingLog
      | .prepareFailed trigger => (triggerNext o s columnFamilyId trigger).setWorker i .flushingLog
      | .runs => s.setWorker i (.collecting columnFamilyId)

/-- The loop of `DropColumnFamilies` that waits for the running jobs. -/
def awaitGC (s : GcScheduler) (j : ℕ) : GcScheduler :=
  if 0 < s.bgGcRunning then s.setDrop j .waiting else s.setDrop j .droppingBase

inductive Action
  | addToGCQueue (columnFamilyId : UInt32)
  | maybeScheduleGC
  /-- A worker takes the mutex at its start or on its return from `Wait`. -/
  | workerEnters (i : ℕ) (entry : GcEntry)
  /-- `BlobGCJob::Run` and `Finish` are over and `BackgroundGC` returns. -/
  | gcReturns (i : ℕ) (trigger : Bool)
  | logFlushed (i : ℕ)
  | dropColumnFamilies
  /-- A drop takes the mutex on its return from `Wait`. -/
  | dropWakes (j : ℕ)
  | baseDropReturns (j : ℕ) (ok : Bool)
  | shutDown
deriving DecidableEq, Repr

def step (s : GcScheduler) : Action → Option GcScheduler
  | .addToGCQueue columnFamilyId => some (s.addToGCQueue columnFamilyId)
  | .maybeScheduleGC => some (maybeScheduleGC o s)
  | .workerEnters i entry =>
    match s.workers[i]? with
    | some .submitted => some (backgroundCallGC o s i entry)
    | some .waiting => some (backgroundCallGC o s i entry)
    | _ => none
  | .gcReturns i trigger =>
    match s.workers[i]? with
    | some (.collecting columnFamilyId) =>
      some ((triggerNext o s columnFamilyId trigger).setWorker i .flushingLog)
    | _ => none
  | .logFlushed i =>
    match s.workers[i]? with
    | some .flushingLog => some (finishCall o s i)
    | _ => none
  | .dropColumnFamilies =>
    let s := { s with dropCfRequests := s.dropCfRequests + 1, drops := s.drops ++ [.waiting] }
    some (awaitGC s (s.drops.length - 1))
  | .dropWakes j =>
    match s.drops[j]? with
    | some .waiting => some (awaitGC s j)
    | _ => none
  | .baseDropReturns j ok =>
    match s.drops[j]? with
    | some .droppingBase =>
      -- A failed base drop returns without giving its request back.
      if ok then some { s.setDrop j .returned with dropCfRequests := s.dropCfRequests - 1 }
      else some (s.setDrop j .returned)
    | _ => none
  | .shutDown => some { s with shutingDown := true }

/-- The actions that go ahead: the phase the thread is in before, and the state after. -/
inductive Performs (s : GcScheduler) : Action → GcScheduler → Prop
  | addToGCQueue (columnFamilyId : UInt32) :
      Performs s (.addToGCQueue columnFamilyId) (s.addToGCQueue columnFamilyId)
  | maybeScheduleGC : Performs s .maybeScheduleGC (maybeScheduleGC o s)
  | workerEnters {i : ℕ} {phase : WorkerPhase} (hi : s.workers[i]? = some phase)
      (hphase : phase = .submitted ∨ phase = .waiting) (entry : GcEntry) :
      Performs s (.workerEnters i entry) (backgroundCallGC o s i entry)
  | gcReturns {i : ℕ} {columnFamilyId : UInt32}
      (hi : s.workers[i]? = some (.collecting columnFamilyId)) (trigger : Bool) :
      Performs s (.gcReturns i trigger)
        ((triggerNext o s columnFamilyId trigger).setWorker i .flushingLog)
  | logFlushed {i : ℕ} (hi : s.workers[i]? = some .flushingLog) :
      Performs s (.logFlushed i) (finishCall o s i)
  | dropColumnFamilies :
      Performs s .dropColumnFamilies
        (awaitGC { s with dropCfRequests := s.dropCfRequests + 1, drops := s.drops ++ [.waiting] }
          s.drops.length)
  | dropWakes {j : ℕ} (hj : s.drops[j]? = some .waiting) : Performs s (.dropWakes j) (awaitGC s j)
  | baseDropped {j : ℕ} (hj : s.drops[j]? = some .droppingBase) :
      Performs s (.baseDropReturns j true)
        { s.setDrop j .returned with dropCfRequests := s.dropCfRequests - 1 }
  | baseDropFailed {j : ℕ} (hj : s.drops[j]? = some .droppingBase) :
      Performs s (.baseDropReturns j false) (s.setDrop j .returned)
  | shutDown : Performs s .shutDown { s with shutingDown := true }

theorem performs_of_step {o : GcOptions} {s s' : GcScheduler} {a : Action}
    (hstep : step o s a = some s') : Performs o s a s' := by
  cases a with
  | addToGCQueue columnFamilyId =>
      obtain rfl := Option.some.inj hstep
      exact .addToGCQueue columnFamilyId
  | maybeScheduleGC =>
      obtain rfl := Option.some.inj hstep
      exact .maybeScheduleGC
  | workerEnters i entry =>
      simp only [step] at hstep
      split at hstep
      · rename_i hi
        obtain rfl := Option.some.inj hstep
        exact .workerEnters hi (Or.inl rfl) entry
      · rename_i hi
        obtain rfl := Option.some.inj hstep
        exact .workerEnters hi (Or.inr rfl) entry
      · cases hstep
  | gcReturns i trigger =>
      simp only [step] at hstep
      split at hstep
      · rename_i columnFamilyId hi
        obtain rfl := Option.some.inj hstep
        exact .gcReturns hi trigger
      · cases hstep
  | logFlushed i =>
      simp only [step] at hstep
      split at hstep
      · rename_i hi
        obtain rfl := Option.some.inj hstep
        exact .logFlushed hi
      · cases hstep
  | dropColumnFamilies =>
      obtain rfl := Option.some.inj hstep
      have hlast : (s.drops ++ [DropPhase.waiting]).length - 1 = s.drops.length := by
        rw [List.length_append, List.length_singleton, Nat.add_sub_cancel]
      simp only [hlast]
      exact .dropColumnFamilies
  | dropWakes j =>
      simp only [step] at hstep
      split at hstep
      · rename_i hj
        obtain rfl := Option.some.inj hstep
        exact .dropWakes hj
      · cases hstep
  | baseDropReturns j ok =>
      simp only [step] at hstep
      split at hstep
      · rename_i hj
        cases ok with
        | true =>
            obtain rfl := Option.some.inj hstep
            exact .baseDropped hj
        | false =>
            obtain rfl := Option.some.inj hstep
            exact .baseDropFailed hj
      · cases hstep
  | shutDown =>
      obtain rfl := Option.some.inj hstep
      exact .shutDown

/-- The worker is past the loop on `drop_cf_requests_` as soon as it has the mutex. -/
def ReachesQueue (s : GcScheduler) (i : ℕ) : Prop :=
  (s.workers[i]? = some .submitted ∨ s.workers[i]? = some .waiting) ∧ ¬ 0 < s.dropCfRequests

def DropsBase (s : GcScheduler) : Prop := .droppingBase ∈ s.drops

/-- What the counters promise between two critical sections. -/
structure Scheduled (s : GcScheduler) : Prop where
  queue_size : (s.gcQueue.length : ℤ) = s.unscheduledGc + (s.bgGcScheduled - s.bgGcRunning)
  running_nonneg : 0 ≤ s.bgGcRunning
  running_le : s.bgGcRunning ≤ s.bgGcScheduled
  scheduled_le : s.bgGcScheduled ≤ o.maxBackgroundGc
  queue_nonempty : ∀ i, s.ReachesQueue i → s.gcQueue ≠ []
  /-- The assertion with which `BackgroundCallGC` begins. -/
  worker_scheduled : ∀ i : ℕ, s.workers[i]? = some WorkerPhase.submitted → 0 < s.bgGcScheduled
  /-- `BackgroundGC` is neither in progress nor begun during a base drop. -/
  gc_excluded : s.DropsBase →
    (∀ columnFamilyId, .collecting columnFamilyId ∉ s.workers) ∧ ∀ i, ¬ s.ReachesQueue i

/-! ## The invariant -/

/-- A scheduled job that has not taken its request from the queue. -/
def pending (phase : WorkerPhase) : Bool := phase = .submitted ∨ phase = .waiting

/-- A job between the increment and the decrement of `bg_gc_running_`. -/
def active : WorkerPhase → Bool
  | .collecting _ => true
  | .flushingLog => true
  | _ => false

/-- A drop that has not given its request back. -/
def requested (phase : DropPhase) : Bool := phase ≠ .returned

/-- The counters are the numbers of workers and drops in each phase. -/
structure Balanced (s : GcScheduler) : Prop where
  unscheduled_nonneg : 0 ≤ s.unscheduledGc
  queue_length : (s.gcQueue.length : ℤ) = s.unscheduledGc + s.workers.countP pending
  scheduled_eq : s.bgGcScheduled = s.workers.countP pending + s.bgGcRunning
  running_eq : s.bgGcRunning = s.workers.countP active
  scheduled_le : s.bgGcScheduled ≤ o.maxBackgroundGc
  requests : (s.drops.countP requested : ℤ) ≤ s.dropCfRequests
  idle : s.DropsBase → s.bgGcRunning = 0

theorem countP_set_add {α : Type*} {f : α → Bool} {l : List α} {i : ℕ} {a b : α}
    (h : l[i]? = some a) :
    (l.set i b).countP f + (f a).toNat = l.countP f + (f b).toNat := by
  induction l generalizing i with
  | nil => simp at h
  | cons x l ih =>
      cases i with
      | zero =>
          obtain rfl : x = a := by simpa using h
          rw [List.set_cons_zero, List.countP_cons, List.countP_cons]
          cases f x <;> cases f b <;> simp
      | succ i =>
          have hrest := ih (i := i) (by simpa using h)
          rw [List.set_cons_succ, List.countP_cons, List.countP_cons]
          omega

variable {o} {s : GcScheduler}

theorem Balanced.addToGCQueue (h : s.Balanced o) (columnFamilyId : UInt32) :
    (s.addToGCQueue columnFamilyId).Balanced o := by
  have hnonneg := h.unscheduled_nonneg
  have hlength := h.queue_length
  constructor
  case unscheduled_nonneg =>
    show 0 ≤ s.unscheduledGc + 1
    omega
  case queue_length =>
    show ((s.gcQueue ++ [columnFamilyId]).length : ℤ) =
      s.unscheduledGc + 1 + s.workers.countP pending
    rw [List.length_append, List.length_singleton]
    push_cast
    omega
  case scheduled_eq => exact h.scheduled_eq
  case running_eq => exact h.running_eq
  case scheduled_le => exact h.scheduled_le
  case requests => exact h.requests
  case idle => exact h.idle

theorem Balanced.submitJob (h : s.Balanced o) (hun : 0 < s.unscheduledGc)
    (hmax : s.bgGcScheduled < o.maxBackgroundGc) : s.submitJob.Balanced o := by
  have hpending : (s.workers ++ [WorkerPhase.submitted]).countP pending =
      s.workers.countP pending + 1 := by
    rw [List.countP_append]
    rfl
  have hactive : (s.workers ++ [WorkerPhase.submitted]).countP active =
      s.workers.countP active := by
    rw [List.countP_append]
    rfl
  constructor
  case unscheduled_nonneg =>
    show 0 ≤ s.unscheduledGc - 1
    omega
  case queue_length =>
    show (s.gcQueue.length : ℤ) = s.unscheduledGc - 1 + _
    rw [h.queue_length, GcScheduler.submitJob, hpending]
    push_cast
    ring
  case scheduled_eq =>
    show s.bgGcScheduled + 1 = _ + s.bgGcRunning
    rw [h.scheduled_eq, GcScheduler.submitJob, hpending]
    push_cast
    ring
  case running_eq =>
    show s.bgGcRunning = _
    rw [h.running_eq, GcScheduler.submitJob, hactive]
  case scheduled_le =>
    show s.bgGcScheduled + 1 ≤ _
    omega
  case requests => exact h.requests
  case idle => exact h.idle

theorem Balanced.submitJobs (n : ℕ) (h : s.Balanced o) : (submitJobs o n s).Balanced o := by
  induction n generalizing s with
  | zero => exact h
  | succ n ih =>
      rw [GcScheduler.submitJobs]
      by_cases hc : 0 < s.unscheduledGc ∧ s.bgGcScheduled < o.maxBackgroundGc
      · rw [if_pos hc]
        exact ih (h.submitJob hc.1 hc.2)
      · rw [if_neg hc]
        exact h

theorem Balanced.maybeScheduleGC (h : s.Balanced o) : (maybeScheduleGC o s).Balanced o := by
  rw [GcScheduler.maybeScheduleGC]
  by_cases hd : o.disableBackgroundGc
  · rw [if_pos hd]
    exact h
  · rw [if_neg hd]
    by_cases hs : s.shutingDown
    · rw [if_pos hs]
      exact h
    · rw [if_neg hs]
      exact h.submitJobs _

/-- The number of rounds is large enough: the loop ends where its condition fails. -/
theorem submitJobs_exhausted (n : ℕ) (h : s.unscheduledGc ≤ n) :
    ¬ (0 < (submitJobs o n s).unscheduledGc ∧
      (submitJobs o n s).bgGcScheduled < o.maxBackgroundGc) := by
  induction n generalizing s with
  | zero =>
      rw [submitJobs]
      omega
  | succ n ih =>
      rw [submitJobs]
      by_cases hc : 0 < s.unscheduledGc ∧ s.bgGcScheduled < o.maxBackgroundGc
      · rw [if_pos hc]
        refine ih ?_
        show s.unscheduledGc - 1 ≤ n
        omega
      · rw [if_neg hc]
        exact hc

theorem Balanced.triggerNext (h : s.Balanced o) (columnFamilyId : UInt32) (trigger : Bool) :
    (triggerNext o s columnFamilyId trigger).Balanced o := by
  rw [GcScheduler.triggerNext]
  split
  · exact h.addToGCQueue columnFamilyId
  · exact h

theorem triggerNext_setWorker (columnFamilyId : UInt32) (trigger : Bool) (i : ℕ)
    (phase : WorkerPhase) :
    (triggerNext o s columnFamilyId trigger).setWorker i phase =
      triggerNext o (s.setWorker i phase) columnFamilyId trigger := by
  rw [triggerNext, triggerNext, apply_ite fun s => setWorker s i phase]
  rfl

/-- A worker that stays pending, or stays active, changes no count. -/
theorem Balanced.setWorker {i : ℕ} {phase : WorkerPhase} (h : s.Balanced o)
    (hi : s.workers[i]? = some phase) (next : WorkerPhase) (hp : pending next = pending phase)
    (ha : active next = active phase) : (s.setWorker i next).Balanced o := by
  have hpending : (s.workers.set i next).countP pending = s.workers.countP pending := by
    have := countP_set_add (f := pending) (b := next) hi
    rw [hp] at this
    omega
  have hactive : (s.workers.set i next).countP active = s.workers.countP active := by
    have := countP_set_add (f := active) (b := next) hi
    rw [ha] at this
    omega
  constructor
  case unscheduled_nonneg => exact h.unscheduled_nonneg
  case queue_length =>
    rw [GcScheduler.setWorker, hpending]
    exact h.queue_length
  case scheduled_eq =>
    rw [GcScheduler.setWorker, hpending]
    exact h.scheduled_eq
  case running_eq =>
    rw [GcScheduler.setWorker, hactive]
    exact h.running_eq
  case scheduled_le => exact h.scheduled_le
  case requests => exact h.requests
  case idle => exact h.idle

theorem Balanced.not_dropsBase (h : s.Balanced o) (hd : ¬ 0 < s.dropCfRequests) :
    ¬ s.DropsBase := by
  intro hbase
  have hpos : 0 < s.drops.countP requested := List.countP_pos_iff.mpr ⟨_, hbase, rfl⟩
  have hle := h.requests
  omega

/-- A pending worker that takes the head of the queue becomes active. -/
theorem Balanced.popped {i : ℕ} {phase : WorkerPhase} {columnFamilyId : UInt32}
    {rest : List UInt32} (h : s.Balanced o) (hi : s.workers[i]? = some phase)
    (hp : pending phase = true) (ha : active phase = false) (hd : ¬ 0 < s.dropCfRequests)
    (hq : s.gcQueue = columnFamilyId :: rest) (next : WorkerPhase) (hnp : pending next = false)
    (hna : active next = true) :
    Balanced o (GcScheduler.setWorker
      { s with bgGcRunning := s.bgGcRunning + 1, gcQueue := rest } i next) := by
  have hpending : (s.workers.set i next).countP pending + 1 = s.workers.countP pending := by
    have hset := countP_set_add (f := pending) (b := next) hi
    rwa [hp, hnp] at hset
  have hactive : (s.workers.set i next).countP active = s.workers.countP active + 1 := by
    have hset := countP_set_add (f := active) (b := next) hi
    rwa [ha, hna] at hset
  have hlength := h.queue_length
  have hscheduled := h.scheduled_eq
  have hrunning := h.running_eq
  rw [hq, List.length_cons] at hlength
  constructor
  case unscheduled_nonneg => exact h.unscheduled_nonneg
  case queue_length =>
    show (rest.length : ℤ) = s.unscheduledGc + (s.workers.set i next).countP pending
    omega
  case scheduled_eq =>
    show s.bgGcScheduled = (s.workers.set i next).countP pending + (s.bgGcRunning + 1)
    omega
  case running_eq =>
    show s.bgGcRunning + 1 = (s.workers.set i next).countP active
    omega
  case scheduled_le => exact h.scheduled_le
  case requests => exact h.requests
  case idle => exact fun hbase => absurd hbase (h.not_dropsBase hd)

theorem Balanced.queue_ne_nil {i : ℕ} {phase : WorkerPhase} (h : s.Balanced o)
    (hi : s.workers[i]? = some phase) (hp : pending phase = true) : s.gcQueue ≠ [] := by
  intro hq
  have hpos : 0 < s.workers.countP pending :=
    List.countP_pos_iff.mpr ⟨phase, List.mem_of_getElem? hi, hp⟩
  have hlength := h.queue_length
  have hnonneg := h.unscheduled_nonneg
  rw [hq, List.length_nil] at hlength
  omega

/-- A worker that takes the mutex at its start or on its return from `Wait`. -/
theorem Balanced.backgroundCallGC {i : ℕ} {phase : WorkerPhase} (h : s.Balanced o)
    (hi : s.workers[i]? = some phase) (hp : pending phase = true) (ha : active phase = false)
    (entry : GcEntry) : (backgroundCallGC o s i entry).Balanced o := by
  rw [GcScheduler.backgroundCallGC]
  by_cases hd : 0 < s.dropCfRequests
  · rw [if_pos hd]
    exact h.setWorker hi .waiting hp.symm ha.symm
  · rw [if_neg hd]
    cases hq : s.gcQueue with
    | nil => exact absurd hq (h.queue_ne_nil hi hp)
    | cons columnFamilyId rest =>
        cases entry with
        | nothingToDo => exact h.popped hi hp ha hd hq .flushingLog rfl rfl
        | prepareFailed trigger =>
            show ((GcScheduler.triggerNext o _ columnFamilyId trigger).setWorker i _).Balanced o
            rw [triggerNext_setWorker]
            exact (h.popped hi hp ha hd hq .flushingLog rfl rfl).triggerNext columnFamilyId trigger
        | runs => exact h.popped hi hp ha hd hq (.collecting columnFamilyId) rfl rfl

theorem Balanced.finishCall {i : ℕ} (h : s.Balanced o)
    (hi : s.workers[i]? = some .flushingLog) : (finishCall o s i).Balanced o := by
  have hpending : (s.workers.set i .finished).countP pending = s.workers.countP pending :=
    countP_set_add (f := pending) hi
  have hactive : (s.workers.set i .finished).countP active + 1 = s.workers.countP active :=
    countP_set_add (f := active) hi
  have hscheduled := h.scheduled_eq
  have hrunning := h.running_eq
  have hmax := h.scheduled_le
  apply Balanced.maybeScheduleGC
  constructor
  case unscheduled_nonneg => exact h.unscheduled_nonneg
  case queue_length =>
    show (s.gcQueue.length : ℤ) = s.unscheduledGc + (s.workers.set i .finished).countP pending
    rw [hpending]
    exact h.queue_length
  case scheduled_eq =>
    show s.bgGcScheduled - 1 = (s.workers.set i .finished).countP pending + (s.bgGcRunning - 1)
    omega
  case running_eq =>
    show s.bgGcRunning - 1 = (s.workers.set i .finished).countP active
    omega
  case scheduled_le =>
    show s.bgGcScheduled - 1 ≤ o.maxBackgroundGc
    omega
  case requests => exact h.requests
  case idle =>
    intro hbase
    have hidle : s.bgGcRunning = 0 := h.idle hbase
    omega

/-! ## The drops -/

theorem dropsBase_setDrop {j : ℕ} {phase : DropPhase} (hbase : (s.setDrop j phase).DropsBase)
    (hne : phase ≠ .droppingBase) : s.DropsBase := by
  rcases List.mem_or_eq_of_mem_set hbase with hbase | heq
  · exact hbase
  · exact absurd heq.symm hne

/-- A drop keeps its request while it waits and while the base database drops. -/
theorem Balanced.setDrop {j : ℕ} {phase : DropPhase} (h : s.Balanced o)
    (hj : s.drops[j]? = some phase) (next : DropPhase) (hr : requested next → requested phase)
    (hidle : next = .droppingBase → s.bgGcRunning = 0) : (s.setDrop j next).Balanced o := by
  have hcount := countP_set_add (f := requested) (b := next) hj
  have hle : (requested next).toNat ≤ (requested phase).toNat := by
    cases hn : requested next with
    | false => exact Nat.zero_le _
    | true => rw [hr hn]
  have hrequests := h.requests
  constructor
  case unscheduled_nonneg => exact h.unscheduled_nonneg
  case queue_length => exact h.queue_length
  case scheduled_eq => exact h.scheduled_eq
  case running_eq => exact h.running_eq
  case scheduled_le => exact h.scheduled_le
  case requests =>
    show ((s.drops.set j next).countP requested : ℤ) ≤ s.dropCfRequests
    omega
  case idle =>
    intro hbase
    by_cases hne : next = .droppingBase
    · exact hidle hne
    · exact h.idle (dropsBase_setDrop hbase hne)

theorem Balanced.awaitGC {j : ℕ} (h : s.Balanced o) (hj : s.drops[j]? = some .waiting) :
    (awaitGC s j).Balanced o := by
  rw [GcScheduler.awaitGC]
  by_cases hr : 0 < s.bgGcRunning
  · rw [if_pos hr]
    exact h.setDrop hj .waiting id fun hne => (by cases hne)
  · rw [if_neg hr]
    have hrunning := h.running_eq
    exact h.setDrop hj .droppingBase (fun _ => rfl) fun _ => (by omega)

theorem Balanced.dropBegins (h : s.Balanced o) :
    Balanced o
      { s with dropCfRequests := s.dropCfRequests + 1, drops := s.drops ++ [.waiting] } := by
  have hrequests := h.requests
  constructor
  case unscheduled_nonneg => exact h.unscheduled_nonneg
  case queue_length => exact h.queue_length
  case scheduled_eq => exact h.scheduled_eq
  case running_eq => exact h.running_eq
  case scheduled_le => exact h.scheduled_le
  case requests =>
    show ((s.drops ++ [DropPhase.waiting]).countP requested : ℤ) ≤ s.dropCfRequests + 1
    have hcount : (s.drops ++ [DropPhase.waiting]).countP requested =
        s.drops.countP requested + 1 := by
      rw [List.countP_append]
      rfl
    omega
  case idle =>
    intro hbase
    rcases List.mem_append.mp hbase with hbase | hnew
    · exact h.idle hbase
    · simp at hnew

theorem Balanced.baseDropped {j : ℕ} (h : s.Balanced o)
    (hj : s.drops[j]? = some .droppingBase) :
    Balanced o { s.setDrop j .returned with dropCfRequests := s.dropCfRequests - 1 } := by
  have hreturned :=
    h.setDrop hj .returned (fun hr => (by cases hr)) fun hne => (by cases hne)
  have hcount : (s.drops.set j .returned).countP requested + 1 = s.drops.countP requested :=
    countP_set_add (f := requested) hj
  have hrequests := h.requests
  constructor
  case unscheduled_nonneg => exact h.unscheduled_nonneg
  case queue_length => exact h.queue_length
  case scheduled_eq => exact h.scheduled_eq
  case running_eq => exact h.running_eq
  case scheduled_le => exact h.scheduled_le
  case requests =>
    show ((s.drops.set j .returned).countP requested : ℤ) ≤ s.dropCfRequests - 1
    omega
  case idle => exact hreturned.idle

/-! ## Runs -/

theorem Balanced.step {a : Action} {s' : GcScheduler} (h : s.Balanced o)
    (hstep : step o s a = some s') : s'.Balanced o := by
  cases performs_of_step hstep with
  | addToGCQueue columnFamilyId => exact h.addToGCQueue columnFamilyId
  | maybeScheduleGC => exact h.maybeScheduleGC
  | workerEnters hi hphase entry =>
      rcases hphase with rfl | rfl
      · exact h.backgroundCallGC hi rfl rfl entry
      · exact h.backgroundCallGC hi rfl rfl entry
  | gcReturns hi trigger =>
      rw [triggerNext_setWorker]
      exact (h.setWorker hi .flushingLog rfl rfl).triggerNext _ trigger
  | logFlushed hi => exact h.finishCall hi
  | dropColumnFamilies => exact h.dropBegins.awaitGC List.getElem?_concat_length
  | dropWakes hj => exact h.awaitGC hj
  | baseDropped hj => exact h.baseDropped hj
  | baseDropFailed hj =>
      exact h.setDrop hj .returned (fun hr => (by cases hr)) fun hne => (by cases hne)
  | shutDown =>
      exact ⟨h.unscheduled_nonneg, h.queue_length, h.scheduled_eq, h.running_eq, h.scheduled_le,
        h.requests, h.idle⟩

theorem balanced_init (o : GcOptions) : Balanced o {} where
  unscheduled_nonneg := le_refl 0
  queue_length := rfl
  scheduled_eq := rfl
  running_eq := rfl
  scheduled_le := Int.natCast_nonneg _
  requests := le_refl 0
  idle := fun _ => rfl

theorem Balanced.scheduled (h : s.Balanced o) : s.Scheduled o := by
  have hlength := h.queue_length
  have hscheduled := h.scheduled_eq
  have hrunning := h.running_eq
  constructor
  case queue_size => omega
  case running_nonneg => omega
  case running_le => omega
  case scheduled_le => exact h.scheduled_le
  case queue_nonempty =>
    rintro i ⟨hi | hi, -⟩
    · exact h.queue_ne_nil hi rfl
    · exact h.queue_ne_nil hi rfl
  case worker_scheduled =>
    intro i hi
    have hpos : 0 < s.workers.countP pending :=
      List.countP_pos_iff.mpr ⟨_, List.mem_of_getElem? hi, rfl⟩
    omega
  case gc_excluded =>
    intro hbase
    refine ⟨fun columnFamilyId hmem => ?_, fun i hreach => h.not_dropsBase hreach.2 hbase⟩
    have hpos : 0 < s.workers.countP active := List.countP_pos_iff.mpr ⟨_, hmem, rfl⟩
    have hidle := h.idle hbase
    omega

/-- Every interleaving of the queue's users, the workers and the drops, from the freshly
constructed database. -/
theorem run_scheduled {o : GcOptions} {actions : List Action} {s : GcScheduler}
    (hrun : run (step o) {} actions = some s) : s.Scheduled o := by
  have hbalanced : s.Balanced o :=
    run_invariant_always (fun _ _ _ h hstep => h.step hstep) (balanced_init o) hrun
  exact hbalanced.scheduled

/-- A drop that waited for the running job, while the next worker waits for the drop. -/
def dropAfterGC : GcScheduler where
  gcQueue := [8, 7]
  unscheduledGc := 1
  bgGcScheduled := 1
  dropCfRequests := 1
  workers := [.finished, .waiting]
  drops := [.droppingBase]

theorem dropAfterGC_scheduled :
    dropAfterGC.DropsBase ∧ dropAfterGC.Scheduled ⟨false, 1⟩ := by
  have hrun : run (step ⟨false, 1⟩) {}
      [.addToGCQueue 7, .addToGCQueue 8, .maybeScheduleGC, .workerEnters 0 .runs,
        .dropColumnFamilies, .gcReturns 0 true, .logFlushed 0, .workerEnters 1 .runs,
        .dropWakes 0] = some dropAfterGC := by decide
  exact ⟨List.mem_singleton_self _, run_scheduled hrun⟩

end GcScheduler

end AegonKV
