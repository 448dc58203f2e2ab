import Infly.PoolInvariant
import Mathlib.Algebra.Order.Ring.Rat

/-! # The restarts of each worker

What a step does to the restart times of a worker, and a log beside the pool: when its last
restart was scheduled, and when its restarts began.
-/
namespace RestartHistory

open Contracts Config PoolState PoolTables PoolAccounting PoolGroups PoolModel PoolFrames
open PoolInvariant

/-- The clock reading the supervisor goes by. -/
def SupervisorPc.reading : SupervisorPc → Option ℚ
  | .checking now => some now
  | .inspecting _ rd | .handlingExit _ rd | .failing _ _ _ rd | .dispatching _ rd
  | .scheduling _ rd | .restarting _ rd | .recording _ rd | .relaunching _ rd | .awaiting _ rd
  | .markingReady _ rd | .completing _ rd | .stopping _ _ rd | .rescheduling _ rd
  | .shutdownFlagging _ rd | .shutdownSignalling _ rd | .shutdownStopping _ _ _ _ rd
  | .shutdownTaking _ rd | .shutdownFailing _ _ _ rd | .shutdownLogging _ rd => some rd.now
  | .waiting | .hanging | .stopped | .crashed _ => none

/-- The worker found due, until its restart is recorded. -/
def SupervisorPc.begins : SupervisorPc → Option Ref
  | .restarting r _ | .recording r _ => some r
  | _ => none

/-- One restart: when it was scheduled and when it began. -/
structure Start where
  scheduled : Option ℚ
  time : ℚ
  deriving DecidableEq

structure Log where
  scheduled : Option ℚ := none
  starts : List Start := []
  deriving DecidableEq

variable {ι : Type}

structure Logged (ι : Type) where
  state : State ι
  logs : Ref → Log

/-- The worker's state after `_schedule_restart` tells whether a restart was scheduled. -/
def Log.schedule (g : Log) (w : WorkerState) (clock : ℚ) : Log :=
  { g with scheduled := w.nextRestartAt.map fun _ => clock }

def note (s : State ι) (logs : Ref → Log) : Event ι → Ref → Log
  | .schedule r rd =>
    Function.update logs r ((logs r).schedule (scheduleRestart (s.pool.heap r) rd.now) s.clock)
  | .reschedule r _ =>
    if s.pool.closing || (s.pool.heap r).retiring then logs
    else
      Function.update logs r ((logs r).schedule (scheduleRestart (s.pool.heap r) s.clock) s.clock)
  | .record r _ =>
    Function.update logs r
      { logs r with starts := (logs r).starts ++ [⟨(logs r).scheduled, s.clock⟩] }
  | _ => logs

section

variable [DecidableEq ι]

/-- The pool, with the log beside it. -/
def logged (ι : Type) [DecidableEq ι] : Transitions.System (Logged ι) (Event ι) where
  init x := (system ι).init x.state ∧ x.logs = fun _ => {}
  step x e y := Step x.state e y.state ∧ y.logs = note x.state x.logs e

variable {s : State ι} {e : Event ι} {r : Ref} {x y : Logged ι}

theorem logged_reachable (h : (logged ι).Reachable x) : Reachable x.state := by
  refine Transitions.System.invariant (P := fun x => Reachable x.state) ?_ ?_ h
  · intro x hx
    exact Transitions.System.reachable_init hx.1
  · intro x e y hx hxy
    exact hx.next hxy.1

def Logged.next (x : Logged ι) (e : Event ι) : Logged ι :=
  ⟨PoolModel.next x.state e, note x.state x.logs e⟩

/-- A pool from its constructor call on, nothing restarted yet. -/
def opened (registry : List String) (groups : List WorkerGroup) : Logged ι :=
  ⟨started (constructed registry groups), fun _ => {}⟩

theorem logged_replay {registry : List String} {groups : List WorkerGroup}
    (h : registry.Nodup ∧ (construct registry groups).isOk = true) {es : List (Event ι)}
    (hes : Transitions.Valid (fun x e => Enabled x.state e) Logged.next
      (opened registry groups) es) :
    (logged ι).Reachable (es.foldl Logged.next (opened registry groups)) := by
  apply hes.reachable (S := logged ι) ⟨init_constructed h, rfl⟩
  intro x e he
  exact ⟨⟨he, rfl⟩, rfl⟩

/-- Nothing but the next restart changes, and that only by being called off. -/
structure Untimed (w v : WorkerState) : Prop where
  times : v.restartTimes = w.restartTimes
  due : v.nextRestartAt = w.nextRestartAt ∨ v.nextRestartAt = none

theorem Untimed.rfl' (w : WorkerState) : Untimed w w := ⟨rfl, .inl rfl⟩

theorem launchWorker_untimed (w : WorkerState) (o : LaunchOutcome) :
    Untimed w (launchWorker w o) := by
  cases o <;> exact ⟨rfl, .inr rfl⟩

theorem stopProcess_untimed {w v : WorkerState} {k : StopStep} {k' : Option StopStep}
    (h : stopProcess w k = .ok (v, k')) : Untimed w v := by
  cases k with
  | close | mark => cases h; exact ⟨rfl, .inl rfl⟩
  | join | probe | terminate | rejoin =>
    cases hp : w.process with
    | none => simp only [stopProcess, hp] at h; cases h; exact Untimed.rfl' _
    | some p =>
      simp only [stopProcess, hp] at h
      obtain ⟨a, _, ha⟩ := Traversal.bind_ok_iff.mp h
      first
        | (cases ha; exact Untimed.rfl' _)
        | (cases a <;> (cases ha; exact Untimed.rfl' _))

/-- Three steps of the supervisor write restart times. -/
theorem times_next (hp : Consistent s.pool) (hr : r < s.pool.nextRef)
    (hrec : ∀ rd, e ≠ .record r rd) (hs : ∀ rd, e ≠ .schedule r rd)
    (hres : ∀ rd, e ≠ .reschedule r rd) :
    Untimed (s.pool.heap r) ((next s e).pool.heap r) := by
  have modify : ∀ (r' : Ref) (f : WorkerState → WorkerState),
      (r = r' → Untimed (s.pool.heap r') (f (s.pool.heap r'))) →
      Untimed (s.pool.heap r) ((s.pool.modify r' f).heap r) := by
    intro r' f hf
    by_cases e : r = r'
    · subst e; simpa using hf rfl
    · simpa [e] using Untimed.rfl' _
  have same : Untimed (s.pool.heap r) (s.pool.heap r) := .rfl' _
  cases e
  case execute q puts =>
    simp only [next, executeNext_pool]
    rcases execute_cases (p := s.pool) puts q s.history.nextFuture
      (fun t => (hp.books.keys t).mp) with
      ⟨r', -, -, -, -, weights, cursors, h⟩ | ⟨weights, out, h, -⟩ <;> rw [h]
    · exact modify r' (fun w => { w with outstanding := w.outstanding + 1 }) fun _ => ⟨rfl, .inl rfl⟩
    · exact same
  case receive m =>
    simp only [next, receiveNext_pool]
    rcases hp.books.takeResult_eq m with ⟨-, h⟩ | ⟨r', f, -, -, -, h⟩ <;> rw [h]
    · exact same
    · exact modify r' (fun w => { w with outstanding := w.outstanding - 1 }) fun _ => ⟨rfl, .inl rfl⟩
  case handleExit r' rd =>
    simp only [next]
    rcases handleExitNext_pool (s := s) r' rd with h | ⟨⟨hr', halive⟩, h⟩ <;> rw [h]
    · exact same
    obtain ⟨weights, h | ⟨-, e, h⟩⟩ := handleWorkerExit_cases hp.books hr' halive <;> rw [h]
    · by_cases e : r = r'
      · subst e
        simpa [exited, takeWorkerFuturesLocked] using
          (⟨rfl, .inl rfl⟩ : Untimed (s.pool.heap r)
            { s.pool.heap r with alive := false, outstanding := 0 })
      · simpa [exited, takeWorkerFuturesLocked, e] using same
    · exact modify r' (fun w => { w with alive := false }) fun _ => ⟨rfl, .inl rfl⟩
  case unregisterCall i g =>
    simp only [next, unregisterNext_pool]
    rcases unregisterLocked_cases hp g with ⟨-, e, h⟩ | ⟨-, -, -, q, failed, h, hu⟩ <;> rw [h]
    · exact same
    obtain ⟨d, -, hret⟩ := hu.retired
    simp only [hret.heap]
    split
    · exact ⟨rfl, .inr rfl⟩
    · exact same
  case registerCall i group =>
    simp only [next, registerNext]
    split
    · exact same
    · simpa only [setUser_pool, newWorkers_heap _ _ hr] using same
  case launch i job r' rest o =>
    simp only [next, launchNext]
    split <;> exact modify r' (launchWorker · o) fun _ => launchWorker_untimed _ o
  case relaunch r' rd o =>
    simp only [next, relaunchNext]
    split
    · exact same
    · exact modify r' (launchWorker · o) fun _ => launchWorker_untimed _ o
  case schedule r' rd =>
    apply modify r' (scheduleRestart · rd.now)
    rintro rfl
    exact absurd rfl (hs rd)
  case reschedule r' rd =>
    simp only [next, rescheduleNext]
    split
    · exact same
    · apply modify r' (scheduleRestart · s.clock)
      rintro rfl
      exact absurd rfl (hres rd)
  case record r' rd =>
    simp only [next, recordNext]
    apply modify r'
    rintro rfl
    exact absurd rfl (hrec rd)
  case processExit r' =>
    exact modify r' (fun w => { w with process := some .exited }) fun _ => ⟨rfl, .inl rfl⟩
  case closeTake | shutdownTake =>
    simp only [next, closeTakeNext, shutdownTakeNext, takeAllPending, setUser_pool]
    split <;> exact ⟨rfl, .inl rfl⟩
  case dispose | closeStop | closeQueue | joinQueue | stopFailed | shutdownStop =>
    simp only [next, disposeNext, closeStopNext, closeQueueNext, queuesClosed, stopFailedNext,
      shutdownStopNext]
    (repeat' split) <;> first
      | exact same
      | (exact modify _ (fun w => { w with retiring := true, nextRestartAt := none })
          fun _ => ⟨rfl, .inr rfl⟩)
      | (exact modify _ (fun w => { w with taskQueue := false, lifecycleQueue := false })
          fun _ => ⟨rfl, .inl rfl⟩)
      | (rename_i w' k' heq
         exact modify _ (fun _ => w') fun _ => stopProcess_untimed heq)
  all_goals
    simp only [next, deliverNext, ensureNext, failNext, closeCallNext, addHandler, awaitReadyNext,
      closeProbeNext, joinResultNext, closeFailNext, waitNext, checkNext, inspectNext, exitFailNext,
      dispatchNext, awaitRestartNext, completeNext, shutdownSignalNext, shutdownFailNext,
      shutdownLogsNext, publishNext, publishGroup]
    (repeat' split) <;> first
      | exact same
      | exact modify _ (fun w => { w with alive := _ }) fun _ => ⟨rfl, .inl rfl⟩

/-- A new worker has no restart behind it and none ahead. -/
theorem times_allocated (hp : Consistent s.pool) (hold : s.pool.nextRef ≤ r)
    (hr : r < (next s e).pool.nextRef) :
    ((next s e).pool.heap r).restartTimes = [] ∧
      ((next s e).pool.heap r).nextRestartAt = none := by
  by_cases h : ∃ i group, e = .registerCall i group
  · obtain ⟨i, group, rfl⟩ := h
    rcases registerNext_pool (s := s) i group with hpool | ⟨names, -, hpool⟩ <;>
      simp only [next, hpool] at hr ⊢
    · exact absurd hr (Nat.not_lt.mpr hold)
    · have hnew : s.pool.nextRef ≤ r ∧ r < s.pool.nextRef + group.processCount := ⟨hold, hr⟩
      simp only [newWorkers, hnew, and_self, ↓reduceIte, newWorker]
  · push Not at h
    rw [allocated_frame hp h] at hr
    exact absurd hr (Nat.not_lt.mpr hold)

omit [DecidableEq ι] in
theorem times_constructed {registry : List String} {groups : List WorkerGroup} {p : Pool}
    (h : construct registry groups = .ok p) :
    ∀ r < p.nextRef, (p.heap r).restartTimes = [] ∧ (p.heap r).nextRestartAt = none := by
  apply (construct_rule (P := fun p => ∀ r < p.nextRef,
    (p.heap r).restartTimes = [] ∧ (p.heap r).nextRestartAt = none) _ _ h).2
  · intro r hr
    exact absurd hr (Nat.not_lt_zero r)
  · intro p g q _ hp hq r hr
    obtain ⟨names, ready, hs, rfl⟩ := addGroup_staffed hq
    obtain ⟨heap, hready⟩ := hs.rest
    change r < ready.nextRef at hr
    change (ready.heap r).restartTimes = [] ∧ (ready.heap r).nextRestartAt = none
    rw [hready] at hr
    change r < p.nextRef + g.processCount at hr
    by_cases hold : r < p.nextRef
    · rw [hs.old r hold]
      exact hp r hold
    · obtain ⟨k, rfl⟩ := Nat.exists_eq_add_of_le (Nat.le_of_not_lt hold)
      rw [hs.workers k (Nat.lt_of_add_lt_add_left hr)]
      exact ⟨rfl, rfl⟩

omit [DecidableEq ι] in
theorem note_starts (logs : Ref → Log) (hrec : ∀ rd, e ≠ .record r rd) :
    (note s logs e r).starts = (logs r).starts := by
  cases e
  case record r' rd =>
    have hne : r ≠ r' := by
      rintro rfl
      exact hrec rd rfl
    simp [note, hne]
  case schedule r' rd =>
    by_cases hr : r = r'
    · subst hr
      simp [note, Log.schedule]
    · simp [note, hr]
  case reschedule r' rd =>
    simp only [note]
    split
    · rfl
    · by_cases hr : r = r'
      · subst hr
        simp [Log.schedule]
      · simp [hr]
  all_goals rfl

omit [DecidableEq ι] in
theorem note_scheduled (logs : Ref → Log) (hs : ∀ rd, e ≠ .schedule r rd)
    (hres : ∀ rd, e ≠ .reschedule r rd) :
    (note s logs e r).scheduled = (logs r).scheduled := by
  cases e
  case record r' rd =>
    by_cases hr : r = r'
    · subst hr
      simp [note]
    · simp [note, hr]
  case schedule r' rd =>
    have hne : r ≠ r' := by
      rintro rfl
      exact hs rd rfl
    simp [note, hne]
  case reschedule r' rd =>
    have hne : r ≠ r' := by
      rintro rfl
      exact hres rd rfl
    simp only [note]
    split
    · rfl
    · simp [hne]
  all_goals rfl

/-! ## The supervisor's clock reading -/

theorem clock_next : (next s e).clock = s.clock ∨ ∃ d, e = .tick d := by
  cases e
  case tick d => exact .inr ⟨d, rfl⟩
  all_goals
    left
    simp only [next, executeNext, receiveNext, deliverNext, registerNext, ensureNext, launchNext,
      awaitReadyNext, publishNext, unregisterNext, disposeNext, failNext, closeCallNext,
      closeProbeNext, closeStopNext, closeTakeNext, closeFailNext, joinResultNext, closeQueueNext,
      queuesClosed, closeLogsNext, waitNext, checkNext, inspectNext, handleExitNext, exitFailNext,
      dispatchNext, recordNext, relaunchNext, awaitRestartNext, completeNext, stopFailedNext,
      rescheduleNext, shutdownSignalNext, shutdownStopNext, shutdownTakeNext, shutdownFailNext,
      shutdownLogsNext] <;>
    (repeat' split) <;> rfl

theorem clock_le (he : Enabled s e) : s.clock ≤ (next s e).clock := by
  rcases clock_next (s := s) (e := e) with h | ⟨d, rfl⟩
  · exact le_of_eq h.symm
  · exact le_add_of_nonneg_right he

variable {now : ℚ} {rd : Round}

omit [DecidableEq ι] in
theorem roundFrom_reading {l : List Ref} {t : ℚ}
    (h : SupervisorPc.reading (roundFrom now l) = some t) : now = t := by
  cases l with
  | nil => cases h
  | cons r l => exact Option.some.inj h

@[simp] theorem exitFailFrom_reading (r : Ref) (rd : Round) (l : List FutureId) :
    SupervisorPc.reading (exitFailFrom r rd l) = some rd.now := by cases l <;> rfl

@[simp] theorem shutdownStopFrom_reading (r : Ref) (rd : Round) (l : List Ref) :
    SupervisorPc.reading (shutdownStopFrom r rd l) = some rd.now := by cases l <;> rfl

@[simp] theorem shutdownFailFrom_reading (r : Ref) (rd : Round) (l : List FutureId) :
    SupervisorPc.reading (shutdownFailFrom r rd l) = some rd.now := by cases l <;> rfl

omit [DecidableEq ι] in
theorem afterShutdown_reading {x : LogStop} {t : ℚ}
    (h : SupervisorPc.reading (afterShutdown rd x) = some t) : rd.now = t := by
  cases x with
  | returns => exact roundFrom_reading h
  | raises | hangs => cases h

@[simp] theorem afterFailedStop_reading (k : Option StopStep) (r : Ref) (rd : Round) :
    SupervisorPc.reading (afterFailedStop k r rd) = some rd.now := by cases k <;> rfl

@[simp] theorem afterShutdownStop_reading (k : Option StopStep) (w : Ref) (rest : List Ref)
    (r : Ref) (rd : Round) :
    SupervisorPc.reading (afterShutdownStop k w rest r rd) = some rd.now := by
  cases k with
  | none => exact shutdownStopFrom_reading ..
  | some k => rfl

@[simp] theorem roundFrom_begins (now : ℚ) (l : List Ref) :
    SupervisorPc.begins (roundFrom now l) = none := by cases l <;> rfl

@[simp] theorem exitFailFrom_begins (r : Ref) (rd : Round) (l : List FutureId) :
    SupervisorPc.begins (exitFailFrom r rd l) = none := by cases l <;> rfl

@[simp] theorem shutdownStopFrom_begins (r : Ref) (rd : Round) (l : List Ref) :
    SupervisorPc.begins (shutdownStopFrom r rd l) = none := by cases l <;> rfl

@[simp] theorem shutdownFailFrom_begins (r : Ref) (rd : Round) (l : List FutureId) :
    SupervisorPc.begins (shutdownFailFrom r rd l) = none := by cases l <;> rfl

@[simp] theorem afterShutdown_begins (rd : Round) (x : LogStop) :
    SupervisorPc.begins (afterShutdown rd x) = none := by
  cases x with
  | returns => exact roundFrom_begins ..
  | raises | hangs => rfl

@[simp] theorem afterFailedStop_begins (k : Option StopStep) (r : Ref) (rd : Round) :
    SupervisorPc.begins (afterFailedStop k r rd) = none := by cases k <;> rfl

@[simp] theorem afterShutdownStop_begins (k : Option StopStep) (w : Ref) (rest : List Ref)
    (r : Ref) (rd : Round) :
    SupervisorPc.begins (afterShutdownStop k w rest r rd) = none := by
  cases k with
  | none => exact shutdownStopFrom_begins ..
  | some k => rfl

/-- The supervisor reads the clock once, at the head of its loop. -/
theorem reading_next (he : Enabled s e)
    (h : SupervisorPc.reading (next s e).supervisor = some now) :
    SupervisorPc.reading s.supervisor = some now ∨ now = s.clock := by
  by_cases ha : Event.actor e = .supervisor
  swap
  · rw [supervisor_frame ha] at h
    exact .inl h
  cases e <;> simp only [Event.actor, reduceCtorEq] at ha <;> simp only [Enabled] at he
  case wait =>
    simp only [next, waitNext] at h
    split at h
    · cases h
    · exact .inr (Option.some.inj h).symm
  case awaitRestart r' rd o =>
    left
    simp only [next, awaitRestartNext] at h
    rw [he.1]
    split at h <;> first
      | exact h
      | (rw [he.1] at h; exact h)
  all_goals
    left
    simp only [next, checkNext, inspectNext, handleExitNext, exitFailNext, dispatchNext, recordNext,
      relaunchNext, completeNext, stopFailedNext, rescheduleNext, shutdownSignalNext,
      shutdownStopNext, shutdownTakeNext, shutdownFailNext, shutdownLogsNext] at h
    rw [he]
    revert h
    (repeat' split) <;> intro h <;> first
      | cases h; done
      | exact h
      | exact congrArg some (roundFrom_reading h)
      | exact congrArg some (afterShutdown_reading h)
      | (simp only [elim_afterFailedStop, elim_afterShutdownStop, exitFailFrom_reading,
          shutdownStopFrom_reading, shutdownFailFrom_reading, afterFailedStop_reading,
          afterShutdownStop_reading] at h
         exact h)

/-- A restart begins for a worker whose time has come by the supervisor's reading. -/
theorem begins_next (he : Enabled s e)
    (h : SupervisorPc.begins (next s e).supervisor = some r) :
    SupervisorPc.begins s.supervisor = some r ∨
    ∃ rd due, s.supervisor = .inspecting r rd ∧ (s.pool.heap r).nextRestartAt = some due ∧
      due ≤ rd.now := by
  by_cases ha : Event.actor e = .supervisor
  swap
  · rw [supervisor_frame ha] at h
    exact .inl h
  cases e <;> simp only [Event.actor, reduceCtorEq] at ha <;> simp only [Enabled] at he
  case inspect r' rd =>
    right
    simp only [next, inspectNext] at h
    revert h
    (repeat' split) <;> intro h <;> first
      | (rw [continue_eq, roundFrom_begins] at h; cases h)
      | cases h
    rename_i hdue
    exact ⟨rd, _, he, hdue, by assumption⟩
  case restart r' rd =>
    left
    simp only [next] at h
    rw [he]
    split at h
    · rw [continue_eq, roundFrom_begins] at h
      cases h
    · exact h
  case awaitRestart r' rd o =>
    left
    simp only [next, awaitRestartNext] at h
    split at h <;> first
      | cases h
      | exact h
  all_goals
    simp only [next, waitNext, checkNext, handleExitNext, exitFailNext, dispatchNext, recordNext,
      relaunchNext, completeNext, stopFailedNext, rescheduleNext, shutdownSignalNext,
      shutdownStopNext, shutdownTakeNext, shutdownFailNext, shutdownLogsNext, elim_afterFailedStop,
      elim_afterShutdownStop] at h
    revert h
    (repeat' split) <;> intro h <;> first
      | cases h
      | (simp only [continue_eq, roundFrom_begins, exitFailFrom_begins, shutdownStopFrom_begins,
          shutdownFailFrom_begins, afterShutdown_begins, afterFailedStop_begins,
          afterShutdownStop_begins] at h
         cases h)

omit [DecidableEq ι] in
theorem begins_refs {pc : SupervisorPc} (h : SupervisorPc.begins pc = some r) :
    r ∈ SupervisorPc.refs pc := by
  unfold SupervisorPc.begins at h
  split at h
  · cases h
    exact List.mem_cons_self ..
  · cases h
    exact List.mem_cons_self ..
  · cases h

/-- Between the look at a worker and the record of its restart nobody touches its times. -/
theorem begins_quiet (hi : Invariant s) (he : Enabled s e)
    (h : SupervisorPc.begins (next s e).supervisor = some r) :
    r < s.pool.nextRef ∧ (∀ rd, e ≠ .record r rd) ∧ (∀ rd, e ≠ .schedule r rd) ∧
      ∀ rd, e ≠ .reschedule r rd := by
  have before : r ∈ SupervisorPc.refs s.supervisor ∧ (∀ rd, s.supervisor ≠ .scheduling r rd) ∧
      ∀ rd, s.supervisor ≠ .rescheduling r rd := by
    rcases begins_next he h with hold | ⟨rd, due, hpc, -, -⟩
    · refine ⟨begins_refs hold, ?_, ?_⟩ <;>
      · intro rd hpc
        rw [hpc] at hold
        cases hold
    · rw [hpc]
      refine ⟨List.mem_cons_self .., ?_, ?_⟩ <;>
      · intro rd hpc
        cases hpc
  obtain ⟨hmem, hs, hres⟩ := before
  refine ⟨(hi.known r hmem).1, ?_, ?_, ?_⟩
  · rintro rd rfl
    cases h
  · rintro rd rfl
    exact hs rd he
  · rintro rd rfl
    exact hres rd he

/-- The supervisor goes by a past reading, and only workers that exist have restarts. -/
structure Timely (x : Logged ι) : Prop where
  reading : ∀ now, SupervisorPc.reading x.state.supervisor = some now → now ≤ x.state.clock
  fresh : ∀ r, x.state.pool.nextRef ≤ r → (x.logs r).starts = []

omit [DecidableEq ι] in
/-- A worker that a step makes has no restart in the log. -/
theorem starts_allocated (hi : Invariant x.state) (ht : Timely x) (he : Enabled x.state e)
    (hold : x.state.pool.nextRef ≤ r) : (note x.state x.logs e r).starts = [] := by
  rw [note_starts]
  · exact ht.fresh r hold
  · rintro rd rfl
    have hpc : x.state.supervisor = .recording r rd := he
    have hlt := (hi.known r (by rw [hpc]; exact List.mem_cons_self ..)).1
    exact absurd hold (Nat.not_le.mpr hlt)

theorem reachable_timely (h : (logged ι).Reachable x) : Timely x := by
  refine Transitions.System.invariant_reachable ?_ ?_ h
  · rintro ⟨s, logs⟩ ⟨⟨registry, groups, p, pipe, logging, -, -, rfl⟩, rfl⟩
    constructor
    · intro now h
      cases h
    · intro r _
      rfl
  · rintro ⟨s, logs⟩ e ⟨t, logs'⟩ hr ht ⟨⟨he, rfl⟩, rfl⟩
    have hi := reachable_invariant (logged_reachable hr)
    constructor
    · intro now hnow
      have hc := clock_le he
      rcases reading_next he hnow with hold | rfl
      · exact le_trans (ht.reading now hold) hc
      · exact hc
    · intro r hlow
      have hold : s.pool.nextRef ≤ r := le_trans (nextRef_frame hi.consistent) hlow
      exact starts_allocated hi ht he hold

end

end RestartHistory
