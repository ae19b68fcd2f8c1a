import AegonKV.GcScheduling

/-!
# The requests of the column family drops

`drop_cf_requests_` makes the GC workers wait on `bg_cv_`, which is to be signalled whenever the
counter goes down to 0. A call of `DropColumnFamilies` raises it at its start and lowers it only
where the base database's drop has succeeded, so that a call that fails there leaves its request
behind.
-/

namespace AegonKV

open TransitionSystem

/-- An action, and what `BlobFileSet::DropColumnFamilies` returns in it if it is called. -/
structure DropEvent where
  action : GcScheduler.Action
  setDropOk : Bool := true

/-- The scheduler, the workers in `bg_cv_.Wait()` that a `SignalAll` has reached, and the calls of
`DropColumnFamilies` that have returned with their results. -/
structure DropWaits where
  scheduler : GcScheduler := {}
  signalled : List ℕ := []
  returned : List (ℕ × Bool) := []

namespace GcScheduler

/-- The workers in `bg_cv_.Wait()`. -/
def waitingWorkers (s : GcScheduler) : List ℕ :=
  (List.range s.workers.length).filter fun i => s.workers[i]? == some .waiting

/-- The action that leads to the second state calls `bg_cv_.SignalAll()`. -/
def signals (s s' : GcScheduler) : Action → Bool
  | .workerEnters _ _ =>
    !decide (0 < s.dropCfRequests) && s.gcQueue.isEmpty &&
      (s'.bgGcScheduled == 0 || s'.bgGcRunning == 0)
  | .logFlushed _ => s'.bgGcScheduled == 0 || s'.bgGcRunning == 0
  | .baseDropReturns _ ok => ok && s'.dropCfRequests == 0
  | _ => false

/-- A worker that takes the mutex has returned from `Wait`. -/
def wakes (i : ℕ) : Action → Bool
  | .workerEnters j _ => i == j
  | _ => false

end GcScheduler

namespace DropWaits
open GcScheduler

variable (o : GcOptions)

def step (w : DropWaits) (e : DropEvent) : Option DropWaits :=
  (GcScheduler.step o w.scheduler e.action).map fun s' =>
    { scheduler := s'
      signalled :=
        if signals w.scheduler s' e.action then s'.waitingWorkers
        else w.signalled.filter fun i => !wakes i e.action
      returned :=
        match e.action with
        | .baseDropReturns j ok => w.returned ++ [(j, ok && e.setDropOk)]
        | _ => w.returned }

/-- The counter is the number of calls in progress, and at 0 every worker that waits has been
signalled. -/
structure Counted (w : DropWaits) : Prop where
  requests : w.scheduler.dropCfRequests = w.scheduler.drops.countP requested
  signalled : w.scheduler.dropCfRequests = 0 →
    ∀ i, w.scheduler.workers[i]? = some WorkerPhase.waiting → i ∈ w.signalled

end DropWaits

def GcScheduler.Action.failsBase : GcScheduler.Action → Bool
  | .baseDropReturns _ ok => !ok
  | _ => false

/-! ## Waiting workers -/

namespace GcScheduler

variable {o : GcOptions} {s s' : GcScheduler} {i : ℕ}

theorem mem_waitingWorkers :
    i ∈ s.waitingWorkers ↔ s.workers[i]? = some WorkerPhase.waiting := by
  rw [waitingWorkers, List.mem_filter, List.mem_range, beq_iff_eq, and_iff_right_iff_imp]
  intro h
  exact (List.getElem?_eq_some_iff.mp h).1

theorem waiting_submitJobs {n : ℕ}
    (h : (submitJobs o n s).workers[i]? = some WorkerPhase.waiting) :
    s.workers[i]? = some WorkerPhase.waiting := by
  induction n generalizing s with
  | zero => exact h
  | succ n ih =>
      rw [submitJobs] at h
      split at h
      · have happend : (s.workers ++ [WorkerPhase.submitted])[i]? = some WorkerPhase.waiting := ih h
        by_cases hi : i < s.workers.length
        · rwa [List.getElem?_append_left hi] at happend
        · rw [List.getElem?_append_right (by omega), List.getElem?_singleton] at happend
          split at happend
          · cases happend
          · cases happend
      · exact h

theorem waiting_maybeScheduleGC (s : GcScheduler)
    (h : (maybeScheduleGC o s).workers[i]? = some WorkerPhase.waiting) :
    s.workers[i]? = some WorkerPhase.waiting := by
  rw [maybeScheduleGC] at h
  split_ifs at h
  · exact h
  · exact h
  · exact waiting_submitJobs h

theorem waiting_setWorker {j : ℕ} {phase : WorkerPhase} (hphase : phase ≠ .waiting)
    (h : (s.setWorker j phase).workers[i]? = some WorkerPhase.waiting) :
    i ≠ j ∧ s.workers[i]? = some WorkerPhase.waiting := by
  change (s.workers.set j phase)[i]? = _ at h
  rw [List.getElem?_set] at h
  split_ifs at h with hij hlt
  · exact absurd (Option.some.inj h) hphase
  · exact ⟨fun heq => hij heq.symm, h⟩

/-! ## The counter -/

structure SameDrops (s s' : GcScheduler) : Prop where
  dropCfRequests : s'.dropCfRequests = s.dropCfRequests
  drops : s'.drops = s.drops

theorem sameDrops_submitJobs (n : ℕ) (s : GcScheduler) : SameDrops s (submitJobs o n s) := by
  induction n generalizing s with
  | zero => exact ⟨rfl, rfl⟩
  | succ n ih =>
      rw [submitJobs]
      split
      · exact ⟨(ih s.submitJob).dropCfRequests, (ih s.submitJob).drops⟩
      · exact ⟨rfl, rfl⟩

theorem sameDrops_maybeScheduleGC (s : GcScheduler) : SameDrops s (maybeScheduleGC o s) := by
  rw [maybeScheduleGC]
  split_ifs
  · exact ⟨rfl, rfl⟩
  · exact ⟨rfl, rfl⟩
  · exact sameDrops_submitJobs _ s

theorem sameDrops_triggerNext (s : GcScheduler) (columnFamilyId : UInt32) (trigger : Bool) :
    SameDrops s (triggerNext o s columnFamilyId trigger) := by
  rw [triggerNext]
  split
  · exact ⟨rfl, rfl⟩
  · exact ⟨rfl, rfl⟩

theorem sameDrops_finishCall (s : GcScheduler) (i : ℕ) : SameDrops s (finishCall o s i) := by
  have hlast := sameDrops_maybeScheduleGC (o := o) { s.setWorker i .finished with
    bgGcRunning := s.bgGcRunning - 1
    bgGcScheduled := s.bgGcScheduled - 1 }
  exact ⟨hlast.dropCfRequests, hlast.drops⟩

theorem sameDrops_backgroundCallGC (s : GcScheduler) (i : ℕ) (entry : GcEntry) :
    SameDrops s (backgroundCallGC o s i entry) := by
  rw [backgroundCallGC]
  split
  · exact ⟨rfl, rfl⟩
  · dsimp only
    split
    · have hlast := sameDrops_finishCall (o := o) { s with bgGcRunning := s.bgGcRunning + 1 } i
      exact ⟨hlast.dropCfRequests, hlast.drops⟩
    · rename_i columnFamilyId rest hqueue
      cases entry with
      | nothingToDo => exact ⟨rfl, rfl⟩
      | prepareFailed trigger =>
          have hlast := sameDrops_triggerNext (o := o)
            { s with bgGcRunning := s.bgGcRunning + 1, gcQueue := rest } columnFamilyId trigger
          exact ⟨hlast.dropCfRequests, hlast.drops⟩
      | runs => exact ⟨rfl, rfl⟩

/-- The requests that no call in progress holds. -/
def leaked (s : GcScheduler) : ℤ := s.dropCfRequests - s.drops.countP requested

theorem SameDrops.leaked_eq (h : SameDrops s s') : s'.leaked = s.leaked := by
  rw [leaked, leaked, h.dropCfRequests, h.drops]

theorem leaked_awaitGC {j : ℕ} (hj : s.drops[j]? = some .waiting) :
    (awaitGC s j).leaked = s.leaked := by
  have hwaiting := countP_set_add (f := requested) (b := .waiting) hj
  have hbase := countP_set_add (f := requested) (b := .droppingBase) hj
  rw [awaitGC]
  split
  · change s.dropCfRequests - ((s.drops.set j .waiting).countP requested : ℤ) = s.leaked
    rw [leaked]
    omega
  · change s.dropCfRequests - ((s.drops.set j .droppingBase).countP requested : ℤ) = s.leaked
    have heq : requested .droppingBase = requested .waiting := rfl
    rw [heq] at hbase
    rw [leaked]
    omega

/-- A call whose base drop fails leaves one request behind, and nothing else does. -/
theorem leaked_step {a : Action} (hstep : step o s a = some s') :
    s'.leaked = s.leaked + (a.failsBase).toNat := by
  cases performs_of_step hstep with
  | addToGCQueue columnFamilyId => exact (Int.add_zero _).symm
  | maybeScheduleGC => exact (sameDrops_maybeScheduleGC s).leaked_eq.trans (Int.add_zero _).symm
  | workerEnters hi hphase entry =>
      exact (sameDrops_backgroundCallGC s _ entry).leaked_eq.trans (Int.add_zero _).symm
  | gcReturns hi trigger =>
      exact (sameDrops_triggerNext s _ trigger).leaked_eq.trans (Int.add_zero _).symm
  | logFlushed hi => exact (sameDrops_finishCall s _).leaked_eq.trans (Int.add_zero _).symm
  | dropColumnFamilies =>
      rw [leaked_awaitGC List.getElem?_concat_length]
      have hcount : (s.drops ++ [DropPhase.waiting]).countP requested =
          s.drops.countP requested + 1 := by
        rw [List.countP_append]
        rfl
      change s.dropCfRequests + 1 - ((s.drops ++ [DropPhase.waiting]).countP requested : ℤ) =
        s.dropCfRequests - (s.drops.countP requested : ℤ) + 0
      omega
  | dropWakes hj => exact (leaked_awaitGC hj).trans (Int.add_zero _).symm
  | @baseDropped j hj =>
      have hcount : (s.drops.set j .returned).countP requested + 1 = s.drops.countP requested :=
        countP_set_add (f := requested) hj
      change s.dropCfRequests - 1 - ((s.drops.set j .returned).countP requested : ℤ) =
        s.dropCfRequests - (s.drops.countP requested : ℤ) + 0
      omega
  | @baseDropFailed j hj =>
      have hcount : (s.drops.set j .returned).countP requested + 1 = s.drops.countP requested :=
        countP_set_add (f := requested) hj
      change s.dropCfRequests - ((s.drops.set j .returned).countP requested : ℤ) =
        s.dropCfRequests - (s.drops.countP requested : ℤ) + 1
      omega
  | shutDown => exact (Int.add_zero _).symm

/-! ## The signals -/

theorem waiting_triggerNext (s : GcScheduler) {columnFamilyId : UInt32} {trigger : Bool}
    (hi : (triggerNext o s columnFamilyId trigger).workers[i]? = some WorkerPhase.waiting) :
    s.workers[i]? = some WorkerPhase.waiting := by
  rw [triggerNext] at hi
  split at hi
  · exact hi
  · exact hi

theorem waiting_finishCall (s : GcScheduler) {j : ℕ}
    (hi : (finishCall o s j).workers[i]? = some WorkerPhase.waiting) :
    i ≠ j ∧ s.workers[i]? = some WorkerPhase.waiting := by
  rw [finishCall] at hi
  have hset := waiting_maybeScheduleGC _ hi
  change (s.setWorker j .finished).workers[i]? = some WorkerPhase.waiting at hset
  exact waiting_setWorker (fun h => by cases h) hset

theorem waiting_backgroundCallGC {j : ℕ} {entry : GcEntry} (hd : ¬0 < s.dropCfRequests)
    (hi : (backgroundCallGC o s j entry).workers[i]? = some WorkerPhase.waiting) :
    i ≠ j ∧ s.workers[i]? = some WorkerPhase.waiting := by
  rw [backgroundCallGC, if_neg hd] at hi
  dsimp only at hi
  split at hi
  · have hlast := waiting_finishCall _ hi
    exact hlast
  · cases entry with
    | nothingToDo => exact waiting_setWorker (fun h => by cases h) hi
    | prepareFailed trigger =>
        obtain ⟨hne, hi⟩ := waiting_setWorker (fun h => by cases h) hi
        have hbefore := waiting_triggerNext _ hi
        exact ⟨hne, hbefore⟩
    | runs => exact waiting_setWorker (fun h => by cases h) hi

theorem awaitGC_eq (s : GcScheduler) (j : ℕ) :
    (awaitGC s j).workers = s.workers ∧ (awaitGC s j).dropCfRequests = s.dropCfRequests := by
  rw [awaitGC]
  split_ifs
  · exact ⟨rfl, rfl⟩
  · exact ⟨rfl, rfl⟩

/-- A worker waits after an action because it waited before, or because there is a request. -/
theorem waiting_step {a : Action} (hstep : step o s a = some s')
    (hi : s'.workers[i]? = some WorkerPhase.waiting) :
    (s.workers[i]? = some WorkerPhase.waiting ∧ wakes i a = false) ∨ 0 < s'.dropCfRequests := by
  cases performs_of_step hstep with
  | addToGCQueue columnFamilyId => exact Or.inl ⟨hi, rfl⟩
  | maybeScheduleGC => exact Or.inl ⟨waiting_maybeScheduleGC _ hi, rfl⟩
  | @workerEnters j phase hj hphase entry =>
      by_cases hd : 0 < s.dropCfRequests
      · exact Or.inr ((sameDrops_backgroundCallGC s j entry).dropCfRequests ▸ hd)
      · obtain ⟨hne, hi⟩ := waiting_backgroundCallGC hd hi
        exact Or.inl ⟨hi, beq_false_of_ne hne⟩
  | gcReturns hj trigger =>
      obtain ⟨-, hi⟩ := waiting_setWorker (fun h => by cases h) hi
      exact Or.inl ⟨waiting_triggerNext _ hi, rfl⟩
  | logFlushed hj => exact Or.inl ⟨(waiting_finishCall _ hi).2, rfl⟩
  | dropColumnFamilies =>
      rw [(awaitGC_eq _ _).1] at hi
      exact Or.inl ⟨hi, rfl⟩
  | dropWakes hj =>
      rw [(awaitGC_eq _ _).1] at hi
      exact Or.inl ⟨hi, rfl⟩
  | baseDropped hj => exact Or.inl ⟨hi, rfl⟩
  | baseDropFailed hj => exact Or.inl ⟨hi, rfl⟩
  | shutDown => exact Or.inl ⟨hi, rfl⟩

/-- The counter gets 0 by an action that signals. -/
theorem signals_of_requests_zero {a : Action} (hstep : step o s a = some s')
    (hnonneg : 0 ≤ s.dropCfRequests) (hzero : s'.dropCfRequests = 0) :
    signals s s' a = true ∨ s.dropCfRequests = 0 := by
  cases performs_of_step hstep with
  | addToGCQueue columnFamilyId => exact Or.inr hzero
  | maybeScheduleGC => exact Or.inr ((sameDrops_maybeScheduleGC s).dropCfRequests.symm.trans hzero)
  | workerEnters hi hphase entry =>
      exact Or.inr ((sameDrops_backgroundCallGC s _ entry).dropCfRequests.symm.trans hzero)
  | gcReturns hi trigger =>
      exact Or.inr ((sameDrops_triggerNext s _ trigger).dropCfRequests.symm.trans hzero)
  | logFlushed hi => exact Or.inr ((sameDrops_finishCall s _).dropCfRequests.symm.trans hzero)
  | dropColumnFamilies =>
      rw [(awaitGC_eq _ _).2] at hzero
      dsimp only at hzero
      omega
  | dropWakes hj =>
      rw [(awaitGC_eq _ _).2] at hzero
      exact Or.inr hzero
  | baseDropped hj =>
      left
      rw [signals, hzero]
      rfl
  | baseDropFailed hj => exact Or.inr hzero
  | shutDown => exact Or.inr hzero

end GcScheduler

/-! ## Runs -/

namespace DropWaits
open GcScheduler

variable {o : GcOptions} {w w' : DropWaits} {e : DropEvent}

structure Inv (o : GcOptions) (w : DropWaits) : Prop where
  balanced : w.scheduler.Balanced o
  signalled : w.scheduler.dropCfRequests = 0 →
    ∀ i, w.scheduler.workers[i]? = some WorkerPhase.waiting → i ∈ w.signalled

theorem step_scheduler (hstep : w.step o e = some w') :
    GcScheduler.step o w.scheduler e.action = some w'.scheduler ∧
      w'.signalled = if signals w.scheduler w'.scheduler e.action then w'.scheduler.waitingWorkers
        else w.signalled.filter fun i => !wakes i e.action := by
  obtain ⟨s', hs', rfl⟩ := Option.map_eq_some_iff.mp hstep
  exact ⟨hs', rfl⟩

theorem Inv.step (h : w.Inv o) (hstep : w.step o e = some w') : w'.Inv o := by
  obtain ⟨hscheduler, hsignalled⟩ := step_scheduler hstep
  refine ⟨h.balanced.step hscheduler, fun hzero i hi => ?_⟩
  have hrequests := h.balanced.requests
  rw [hsignalled]
  split_ifs with hsignals
  · exact mem_waitingWorkers.mpr hi
  · have hbefore : w.scheduler.dropCfRequests = 0 :=
      (signals_of_requests_zero hscheduler (by omega) hzero).resolve_left hsignals
    rcases waiting_step hscheduler hi with ⟨hi, hwakes⟩ | hpos
    · refine List.mem_filter.mpr ⟨h.signalled hbefore i hi, ?_⟩
      rw [hwakes]
      rfl
    · omega

theorem inv_init (o : GcOptions) : Inv o {} := by
  refine ⟨balanced_init o, fun _ i hi => ?_⟩
  rw [List.getElem?_nil] at hi
  cases hi

theorem counted_iff_leaked (h : w.Inv o) : w.Counted ↔ w.scheduler.leaked = 0 := by
  rw [leaked]
  constructor
  · intro hcounted
    rw [hcounted.requests]
    omega
  · intro hleaked
    exact ⟨by omega, h.signalled⟩

theorem leaked_run {events : List DropEvent} (hrun : run (step o) w events = some w') :
    w'.scheduler.leaked =
      w.scheduler.leaked + events.countP fun e => e.action.failsBase := by
  induction events generalizing w with
  | nil =>
      obtain rfl := Option.some.inj hrun
      exact (Int.add_zero _).symm
  | cons e events ih =>
      obtain ⟨mid, hmid, hrest⟩ := run_cons_some hrun
      rw [ih hrest, leaked_step (step_scheduler hmid).1, List.countP_cons]
      cases e.action.failsBase with
      | true =>
          rw [if_pos rfl, Bool.toNat_true]
          omega
      | false =>
          rw [if_neg Bool.false_ne_true, Bool.toNat_false]
          omega

/-- In every run the counter is the number of calls in progress, with the waiting workers signalled
where it is 0, if and only if no drop of the base database fails. -/
theorem run_counted_iff {events : List DropEvent} (hrun : run (step o) {} events = some w) :
    w.Counted ↔ ∀ e ∈ events, e.action.failsBase = false := by
  have hinv : w.Inv o := run_invariant_always (fun _ _ _ h hstep => h.step hstep) (inv_init o) hrun
  have hleaked := leaked_run hrun
  have hinit : ({} : DropWaits).scheduler.leaked = 0 := rfl
  have hcount : (events.countP fun e => e.action.failsBase) = 0 ↔
      ∀ e ∈ events, e.action.failsBase = false := by
    rw [List.countP_eq_zero]
    exact forall₂_congr fun e _ => Bool.eq_false_iff.symm
  rw [counted_iff_leaked hinv, ← hcount, hleaked, hinit]
  omega

/-- A drop whose `BlobFileSet` part fails, while a worker waits. -/
def countedRun : List DropEvent :=
  [⟨.addToGCQueue 7, true⟩, ⟨.maybeScheduleGC, true⟩, ⟨.dropColumnFamilies, true⟩,
    ⟨.workerEnters 0 .runs, true⟩, ⟨.baseDropReturns 0 true, false⟩]

theorem countedRun_counted : ∃ w, run (step ⟨false, 1⟩) {} countedRun = some w ∧ w.Counted ∧
    w.signalled = [0] ∧ w.returned = [(0, false)] := by
  have hrun : run (step ⟨false, 1⟩) {} countedRun = some _ := rfl
  exact ⟨_, hrun, (run_counted_iff hrun).mpr (by decide), rfl, rfl⟩

/-- After a failed drop of the base database the worker waits for ever: the counter is 1, no call is
in progress and the worker has not been signalled. -/
theorem not_counted_failed : ∃ w, run (step ⟨false, 1⟩) {}
    [⟨.addToGCQueue 7, true⟩, ⟨.maybeScheduleGC, true⟩, ⟨.dropColumnFamilies, true⟩,
      ⟨.workerEnters 0 .runs, true⟩, ⟨.baseDropReturns 0 false, true⟩] = some w ∧ ¬w.Counted ∧
    w.scheduler.workers = [.waiting] ∧ w.scheduler.drops = [.returned] ∧ w.signalled = [] := by
  refine ⟨_, rfl, fun hcounted => ?_, rfl, rfl, rfl⟩
  have hrequests := hcounted.requests
  revert hrequests
  decide

end DropWaits
end AegonKV
