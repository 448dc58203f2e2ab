import Infly.PoolModel
import Infly.PoolGroups

/-! # What a step leaves alone

Each event belongs to one thread; it changes no other thread's program counter, and of the
workers outside the table only the one it names.
-/
namespace PoolFrames

open Contracts Config PoolState PoolTables PoolAccounting PoolGroups PoolModel

/-- Who takes a step; `execute` runs on a caller's thread but leaves nothing behind there. -/
inductive Actor (ι : Type) where
  | environment | result | supervisor | user (i : ι)
  deriving DecidableEq

variable {ι : Type}

def Event.actor : Event ι → Actor ι
  | .processExit _ | .read _ | .drop _ _ | .tick _ | .registerHandler _
  | .execute _ _ => .environment
  | .receive _ | .deliver _ _ | .resultStop | .resultCrash _ => .result
  | .registerCall i _ | .ensure i _ | .launch i _ _ _ _ | .awaitReady i _ _ _ _ | .publish i _
  | .unregisterCall i _ | .dispose i _ _ _ _ | .fail i _ _ _ | .closeCall i | .closeCallback i
  | .closeSink i | .closeSignal i | .closeProbe i _ _ | .closeStop i _ _ _ | .closeResultStop i
  | .joinResult i _ | .joinSupervisor i _ | .closeTake i | .closeFail i _ _ | .closeQueue i _ _
  | .joinQueue i _ _ | .closeResult i | .closeLogs i | .closeComplete i => .user i
  | .wait | .check _ | .inspect _ _ | .handleExit _ _ | .exitFail _ _ _ _ | .dispatch _ _
  | .schedule _ _ | .restart _ _ | .record _ _ | .relaunch _ _ _ | .awaitRestart _ _ _
  | .markReady _ _ | .complete _ _ | .stopFailed _ _ _ | .reschedule _ _ | .shutdownFlag _ _
  | .shutdownSignal _ _ | .shutdownStop _ _ _ _ _ | .shutdownTake _ _
  | .shutdownFail _ _ _ _ | .shutdownLogs _ _ => .supervisor

/-! ## The pool's sections -/

variable {s : State ι}

/-- `q` has the workers and the routes of `p`, and outside the table the same heap. -/
structure Within (p q : Pool) : Prop where
  registry : q.registry = p.registry
  workers : q.workers = p.workers
  groups : q.groups = p.groups
  groupHandlers : q.groupHandlers = p.groupHandlers
  handlerGroups : q.handlerGroups = p.handlerGroups
  nextRef : q.nextRef = p.nextRef
  closing : q.closing = p.closing
  closeComplete : q.closeComplete = p.closeComplete
  signals : q.supervisorStop = p.supervisorStop ∧ q.resultStop = p.resultStop
  heap : ∀ r, ¬ InTable p r → q.heap r = p.heap r

theorem execute_within {p : Pool} (hb : Books p) (putRaises : List String)
    (request : TaskRequest) (f : FutureId) : Within p (execute p putRaises request f).1 := by
  rcases execute_cases putRaises request f (fun t => (hb.keys t).mp) with
    ⟨r, hr, -, -, -, weights, cursors, h⟩ | ⟨weights, out, h, -⟩ <;> rw [h]
  · refine ⟨rfl, rfl, rfl, rfl, rfl, rfl, rfl, rfl, ⟨rfl, rfl⟩, fun r' hr' => ?_⟩
    have : r' ≠ r := fun e => hr' (e ▸ inTable_values.mpr hr)
    simp [assigned, this]
  · exact ⟨rfl, rfl, rfl, rfl, rfl, rfl, rfl, rfl, ⟨rfl, rfl⟩, fun _ _ => rfl⟩

theorem takeResult_within {p : Pool} (hb : Books p) (m : WorkerResultMessage) :
    Within p (takeResult p m).1 := by
  rcases hb.takeResult_eq m with ⟨-, h⟩ | ⟨r, f, hr, -, -, h⟩ <;> rw [h]
  · exact ⟨rfl, rfl, rfl, rfl, rfl, rfl, rfl, rfl, ⟨rfl, rfl⟩, fun _ _ => rfl⟩
  · refine ⟨rfl, rfl, rfl, rfl, rfl, rfl, rfl, rfl, ⟨rfl, rfl⟩, fun r' hr' => ?_⟩
    have : r' ≠ r := fun e => hr' (e ▸ ⟨_, hr⟩)
    simp [this]

theorem handleWorkerExit_within {p : Pool} {r : Ref} (hr : InTable p r) :
    Within p (handleWorkerExit p r).1 := by
  have other : ∀ r', ¬ InTable p r' → r' ≠ r := fun r' h e => h (e ▸ hr)
  unfold handleWorkerExit
  repeat' split
  all_goals
    refine ⟨rfl, rfl, rfl, rfl, rfl, rfl, rfl, rfl, ⟨rfl, rfl⟩, fun r' hr' => ?_⟩
    simp [takeWorkerFuturesLocked, other r' hr']

theorem takeAllPending_within (p : Pool) : Within p (takeAllPending p).1 := by
  refine ⟨rfl, rfl, rfl, rfl, rfl, rfl, rfl, rfl, ⟨rfl, rfl⟩, fun r hr => ?_⟩
  simp [takeAllPending, ← inTable_values, hr]

theorem executeNext_pool (q : TaskRequest) (putRaises : List String) :
    (executeNext s q putRaises).pool = (execute s.pool putRaises q s.history.nextFuture).1 := by
  unfold executeNext
  dsimp only
  split <;> simp_all

theorem receiveNext_pool (m : WorkerResultMessage) :
    (receiveNext s m).pool = (takeResult s.pool m).1 := by
  unfold receiveNext
  dsimp only
  split <;> simp_all

theorem handleExitNext_pool (r : Ref) (rd : Round) :
    (handleExitNext s r rd).pool = s.pool ∨
      (InTable s.pool r ∧ (s.pool.heap r).alive = true) ∧
        (handleExitNext s r rd).pool = (handleWorkerExit s.pool r).1 := by
  unfold handleExitNext
  dsimp only
  split
  · exact Or.inl rfl
  · rename_i h
    simp only [Bool.or_eq_true, Bool.not_eq_true', bne_iff_ne, ne_eq, not_or, not_not,
      Bool.not_eq_false, Bool.not_eq_true] at h
    refine Or.inr ⟨⟨⟨_, h.2⟩, h.1.1⟩, ?_⟩
    split <;> simp_all

@[simp] theorem modify_pool (r : Ref) (f : WorkerState → WorkerState) :
    (s.modify r f).pool = s.pool.modify r f := rfl
@[simp] theorem modify_queues (r : Ref) (f : WorkerState → WorkerState) :
    (s.modify r f).queues = s.queues := rfl

/-! ## Program counters -/

variable [DecidableEq ι] {e : Event ι} {i j : ι} {pc : UserPc}

@[simp] theorem setUser_pool : (s.setUser i pc).pool = s.pool := rfl
@[simp] theorem setUser_supervisor : (s.setUser i pc).supervisor = s.supervisor := rfl
@[simp] theorem setUser_result : (s.setUser i pc).result = s.result := rfl
@[simp] theorem setUser_history : (s.setUser i pc).history = s.history := rfl
@[simp] theorem setUser_queues : (s.setUser i pc).queues = s.queues := rfl
@[simp] theorem setUser_caller : (s.setUser i pc).caller = s.caller := rfl
@[simp] theorem setUser_self : (s.setUser i pc).user i = pc := by simp [State.setUser]
theorem setUser_other (h : i ≠ j) : (s.setUser j pc).user i = s.user i := by
  simp [State.setUser, h]

theorem user_frame (h : Event.actor e ≠ .user i) : (next s e).user i = s.user i := by
  cases e <;> simp only [Event.actor, ne_eq, Actor.user.injEq] at h <;>
    simp only [next, executeNext, receiveNext, deliverNext, registerNext, ensureNext, launchNext,
      awaitReadyNext, publishNext, unregisterNext, disposeNext, failNext, closeCallNext,
      closeProbeNext, closeStopNext, closeTakeNext, closeFailNext, joinResultNext, closeQueueNext,
      queuesClosed, closeLogsNext, waitNext, checkNext, inspectNext, handleExitNext, exitFailNext,
      dispatchNext, recordNext, relaunchNext, awaitRestartNext, completeNext, stopFailedNext,
      rescheduleNext, shutdownSignalNext, shutdownStopNext, shutdownTakeNext, shutdownFailNext,
      shutdownLogsNext] <;>
    (repeat' split) <;> first | rfl | exact setUser_other (Ne.symm h)

theorem supervisor_frame (h : Event.actor e ≠ .supervisor) :
    (next s e).supervisor = s.supervisor := by
  cases e <;> simp only [Event.actor, ne_eq, not_true_eq_false] at h <;>
    simp only [next, executeNext, receiveNext, deliverNext, registerNext, ensureNext, launchNext,
      awaitReadyNext, publishNext, unregisterNext, disposeNext, failNext, closeCallNext,
      closeProbeNext, closeStopNext, closeTakeNext, closeFailNext, joinResultNext, closeQueueNext,
      queuesClosed, closeLogsNext] <;>
    (repeat' split) <;> rfl

theorem result_frame (h : Event.actor e ≠ .result) : (next s e).result = s.result := by
  cases e <;> simp only [Event.actor, ne_eq, not_true_eq_false] at h <;>
    simp only [next, executeNext, registerNext, ensureNext, launchNext, awaitReadyNext, publishNext,
      unregisterNext, disposeNext, failNext, closeCallNext, closeProbeNext, closeStopNext,
      closeTakeNext, closeFailNext, joinResultNext, closeQueueNext, queuesClosed, closeLogsNext,
      waitNext, checkNext, inspectNext, handleExitNext, exitFailNext, dispatchNext, recordNext,
      relaunchNext, awaitRestartNext, completeNext, stopFailedNext, rescheduleNext,
      shutdownSignalNext, shutdownStopNext, shutdownTakeNext, shutdownFailNext,
      shutdownLogsNext] <;>
    (repeat' split) <;> rfl

/-! ## The pool -/

theorem unregisterNext_pool (g : String) :
    (unregisterNext s i g).pool = (unregisterLocked s.pool g).1 := by
  unfold unregisterNext
  split <;> simp_all

/-- The events that change which workers are in the table. -/
def Event.regroups : Event ι → Bool
  | .publish _ _ | .unregisterCall _ _ => true
  | _ => false

/-- The worker an event changes by name. -/
def Event.target : Event ι → Option Ref
  | .processExit r | .launch _ _ r _ _ | .awaitReady _ _ r _ _ | .dispose _ _ r _ _
  | .closeStop _ _ r _ | .closeQueue _ r _ | .joinQueue _ r _ | .schedule r _ | .record r _
  | .relaunch r _ _ | .markReady r _ | .stopFailed _ r _ | .reschedule r _
  | .shutdownStop _ r _ _ _ => some r
  | _ => none

/-- `q` has the tables of workers and groups of `p`. -/
structure SameTables (p q : Pool) : Prop where
  workers : q.workers = p.workers
  groups : q.groups = p.groups
  groupHandlers : q.groupHandlers = p.groupHandlers
  handlerGroups : q.handlerGroups = p.handlerGroups

theorem Within.tables {p q : Pool} (h : Within p q) : SameTables p q :=
  ⟨h.workers, h.groups, h.groupHandlers, h.handlerGroups⟩

theorem SameTables.inTable {p q : Pool} (h : SameTables p q) {r : Ref} :
    InTable q r ↔ InTable p r := by
  rw [InTable, h.workers, InTable]

theorem tables_frame (hb : Books s.pool) (h : Event.regroups e = false) :
    SameTables s.pool (next s e).pool := by
  cases e
  case execute q puts =>
    simp only [next, executeNext_pool]
    exact (execute_within hb puts q s.history.nextFuture).tables
  case receive m =>
    simp only [next, receiveNext_pool]
    exact (takeResult_within hb m).tables
  case handleExit r rd =>
    simp only [next]
    rcases handleExitNext_pool (s := s) r rd with h | ⟨⟨hr, -⟩, h⟩ <;> rw [h]
    · exact ⟨rfl, rfl, rfl, rfl⟩
    · exact (handleWorkerExit_within hr).tables
  case publish | unregisterCall => simp [Event.regroups] at h
  all_goals
    simp only [next, deliverNext, registerNext, ensureNext, launchNext, addHandler, awaitReadyNext,
      disposeNext, failNext, closeCallNext, closeProbeNext, closeStopNext, closeTakeNext,
      closeFailNext, joinResultNext, closeQueueNext, queuesClosed, closeLogsNext, waitNext,
      checkNext, inspectNext, exitFailNext, dispatchNext, recordNext, relaunchNext,
      awaitRestartNext, completeNext, stopFailedNext, rescheduleNext, shutdownSignalNext,
      shutdownStopNext, shutdownTakeNext, shutdownFailNext, shutdownLogsNext]
    (repeat' split) <;> exact ⟨rfl, rfl, rfl, rfl⟩

/-- Worker states are made by `register_worker_group` only. -/
theorem allocated_frame (hp : Consistent s.pool) (h : ∀ i group, e ≠ .registerCall i group) :
    (next s e).pool.nextRef = s.pool.nextRef := by
  cases e
  case registerCall i group => exact absurd rfl (h i group)
  case execute q puts =>
    simp only [next, executeNext_pool]
    exact (execute_within hp.books puts q s.history.nextFuture).nextRef
  case receive m =>
    simp only [next, receiveNext_pool]
    exact (takeResult_within hp.books m).nextRef
  case handleExit r rd =>
    simp only [next]
    rcases handleExitNext_pool (s := s) r rd with h | ⟨⟨hr, -⟩, h⟩ <;> rw [h]
    exact (handleWorkerExit_within hr).nextRef
  case unregisterCall i g =>
    simp only [next, unregisterNext_pool]
    rcases unregisterLocked_cases hp g with ⟨-, e, h⟩ | ⟨-, -, -, q, failed, h, hu⟩ <;> rw [h]
    exact hu.nextRef.1
  all_goals
    simp only [next, deliverNext, ensureNext, launchNext, publishNext, publishGroup, awaitReadyNext,
      disposeNext, failNext, closeCallNext, addHandler, closeProbeNext, closeStopNext,
      closeTakeNext, closeFailNext, joinResultNext, closeQueueNext, queuesClosed, closeLogsNext,
      waitNext, checkNext, inspectNext, exitFailNext, dispatchNext, recordNext, relaunchNext,
      awaitRestartNext, completeNext, stopFailedNext, rescheduleNext, shutdownSignalNext,
      shutdownStopNext, shutdownTakeNext, shutdownFailNext, shutdownLogsNext, takeAllPending] <;>
    (repeat' split) <;> rfl

theorem registerNext_pool (i : ι) (group : WorkerGroup) :
    (registerNext s i group).pool = s.pool ∨
      ∃ names, resolveGroupHandlers s.pool group = .ok names ∧
        (registerNext s i group).pool = (newWorkers s.pool group names).1 := by
  unfold registerNext
  split
  · exact Or.inl rfl
  · rename_i names hn
    exact Or.inr ⟨names, hn, rfl⟩

theorem nextRef_frame (hp : Consistent s.pool) : s.pool.nextRef ≤ (next s e).pool.nextRef := by
  by_cases h : ∃ i group, e = .registerCall i group
  · obtain ⟨i, group, rfl⟩ := h
    rcases registerNext_pool (s := s) i group with hpool | ⟨names, -, hpool⟩ <;>
      simp only [next, hpool]
    · exact le_refl _
    · exact Nat.le_add_right _ _
  · push Not at h
    exact (allocated_frame hp h).ge

/-- Handlers are added by `registerHandler` only. -/
theorem registry_frame (hp : Consistent s.pool) (h : ∀ name, e ≠ .registerHandler name) :
    (next s e).pool.registry = s.pool.registry := by
  cases e
  case registerHandler name => exact absurd rfl (h name)
  case execute q puts =>
    simp only [next, executeNext_pool]
    exact (execute_within hp.books puts q s.history.nextFuture).registry
  case receive m =>
    simp only [next, receiveNext_pool]
    exact (takeResult_within hp.books m).registry
  case handleExit r rd =>
    simp only [next]
    rcases handleExitNext_pool (s := s) r rd with h | ⟨⟨hr, -⟩, h⟩ <;> rw [h]
    exact (handleWorkerExit_within hr).registry
  case unregisterCall i g =>
    simp only [next, unregisterNext_pool]
    rcases unregisterLocked_cases hp g with ⟨-, e, h⟩ | ⟨-, -, -, q, failed, h, hu⟩ <;> rw [h]
    obtain ⟨d, -, hret⟩ := hu.retired
    obtain ⟨_, _, _, _, hrest⟩ := hret.rest
    rw [hrest]
    rfl
  all_goals
    simp only [next, deliverNext, registerNext, ensureNext, launchNext, publishNext, publishGroup,
      awaitReadyNext, disposeNext, failNext, closeCallNext, newWorkers, closeProbeNext,
      closeStopNext, closeTakeNext, closeFailNext, joinResultNext, closeQueueNext, queuesClosed,
      closeLogsNext, waitNext, checkNext, inspectNext, exitFailNext, dispatchNext, recordNext,
      relaunchNext, awaitRestartNext, completeNext, stopFailedNext, rescheduleNext,
      shutdownSignalNext, shutdownStopNext, shutdownTakeNext, shutdownFailNext, shutdownLogsNext,
      takeAllPending] <;>
    (repeat' split) <;> rfl

/-- A worker outside the table changes only in a step that names it. -/
theorem heap_frame (hp : Consistent s.pool) {r : Ref} (hr : r < s.pool.nextRef)
    (ht : ¬ InTable s.pool r) (h : Event.target e ≠ some r) :
    (next s e).pool.heap r = s.pool.heap r := by
  cases e
  case execute q puts =>
    simp only [next, executeNext_pool]
    exact (execute_within hp.books puts q s.history.nextFuture).heap r ht
  case receive m =>
    simp only [next, receiveNext_pool]
    exact (takeResult_within hp.books m).heap r ht
  case handleExit r' rd =>
    simp only [next]
    rcases handleExitNext_pool (s := s) r' rd with h | ⟨⟨hr', -⟩, h⟩ <;> rw [h]
    exact (handleWorkerExit_within hr').heap r ht
  case unregisterCall i g =>
    simp only [next, unregisterNext_pool]
    rcases unregisterLocked_cases hp g with ⟨-, e, h⟩ | ⟨-, -, -, q, failed, h, hu⟩ <;> rw [h]
    exact hu.heap fun hm => ht (mem_groupWorkers.mp hm).1
  all_goals
    simp only [Event.target, ne_eq, Option.some.injEq] at h
    simp only [next, deliverNext, registerNext, ensureNext, launchNext, publishNext, publishGroup,
      awaitReadyNext, disposeNext, failNext, closeCallNext, addHandler, closeProbeNext,
      closeStopNext, closeTakeNext, closeFailNext, joinResultNext, closeQueueNext, queuesClosed,
      closeLogsNext, waitNext, checkNext, inspectNext, exitFailNext, dispatchNext, recordNext,
      relaunchNext, awaitRestartNext, completeNext, stopFailedNext, rescheduleNext,
      shutdownSignalNext, shutdownStopNext, shutdownTakeNext, shutdownFailNext,
      shutdownLogsNext] <;>
    (repeat' split) <;> first
      | rfl
      | exact Function.update_of_ne (Ne.symm h) _ _
      | exact newWorkers_heap _ _ hr
      | exact (takeAllPending_within _).heap r ht

/-- Once the pool is closing it stays so, and no worker enters or leaves the table. -/
theorem closing_frame (hp : Consistent s.pool) (hc : s.pool.closing = true) :
    (next s e).pool.closing = true ∧ SameTables s.pool (next s e).pool := by
  constructor
  · cases e
    case execute q puts =>
      simp only [next, executeNext_pool]
      exact (execute_within hp.books puts q s.history.nextFuture).closing.trans hc
    case receive m =>
      simp only [next, receiveNext_pool]
      exact (takeResult_within hp.books m).closing.trans hc
    case handleExit r' rd =>
      simp only [next]
      rcases handleExitNext_pool (s := s) r' rd with h | ⟨⟨hr', -⟩, h⟩ <;> rw [h]
      · exact hc
      · exact (handleWorkerExit_within hr').closing.trans hc
    case unregisterCall i g =>
      simp only [next, unregisterNext_pool]
      rcases unregisterLocked_cases hp g with ⟨-, e, h⟩ | ⟨ho, -, -, q, failed, h, hu⟩
      · rw [h]; exact hc
      · rw [hc] at ho; cases ho
    all_goals
      simp only [next, deliverNext, registerNext, ensureNext, launchNext, publishNext, publishGroup,
        awaitReadyNext, disposeNext, failNext, closeCallNext, addHandler, newWorkers,
        closeProbeNext, closeStopNext, closeTakeNext, closeFailNext, joinResultNext, closeQueueNext,
        queuesClosed, closeLogsNext, waitNext, checkNext, inspectNext, exitFailNext, dispatchNext,
        recordNext, relaunchNext, awaitRestartNext, completeNext, stopFailedNext, rescheduleNext,
        shutdownSignalNext, shutdownStopNext, shutdownTakeNext, shutdownFailNext, shutdownLogsNext,
        takeAllPending] <;>
      (repeat' split) <;> first | exact hc | rfl
  · by_cases h : Event.regroups e = false
    · exact tables_frame hp.books h
    cases e <;> simp only [Event.regroups, not_true_eq_false] at h
    case publish i job =>
      have : ensureGroupCanBeRegisteredLocked s.pool job.group.name =
          .error (internalError "ProcessPoolStrategy is closed") := by
        simp [ensureGroupCanBeRegisteredLocked, hc]
      simp only [next, publishNext, this]
      exact ⟨rfl, rfl, rfl, rfl⟩
    case unregisterCall i g =>
      simp only [next, unregisterNext_pool]
      rcases unregisterLocked_cases hp g with ⟨-, e, h⟩ | ⟨ho, -, -, q, failed, h, hu⟩
      · rw [h]; exact ⟨rfl, rfl, rfl, rfl⟩
      · rw [hc] at ho; cases ho

/-- The stop events are set by `close` and by the shutdown after a worker failure. -/
theorem signal_frame (hp : Consistent s.pool) (hclose : ∀ i, e ≠ .closeSignal i)
    (hshut : ∀ r rd, e ≠ .shutdownSignal r rd) :
    (next s e).pool.supervisorStop = s.pool.supervisorStop := by
  cases e
  case closeSignal i => exact absurd rfl (hclose i)
  case shutdownSignal r rd => exact absurd rfl (hshut r rd)
  case execute q puts =>
    simp only [next, executeNext_pool]
    exact (execute_within hp.books puts q s.history.nextFuture).signals.1
  case receive m =>
    simp only [next, receiveNext_pool]
    exact (takeResult_within hp.books m).signals.1
  case handleExit r rd =>
    simp only [next]
    rcases handleExitNext_pool (s := s) r rd with h | ⟨⟨hr, -⟩, h⟩ <;> rw [h]
    exact (handleWorkerExit_within hr).signals.1
  case unregisterCall i g =>
    simp only [next, unregisterNext_pool]
    rcases unregisterLocked_cases hp g with ⟨-, e, h⟩ | ⟨-, -, -, q, failed, h, hu⟩ <;> rw [h]
    obtain ⟨d, -, hret⟩ := hu.retired
    obtain ⟨_, _, _, _, hrest⟩ := hret.rest
    rw [hrest]
    rfl
  all_goals
    simp only [next, deliverNext, registerNext, ensureNext, launchNext, publishNext, publishGroup,
      awaitReadyNext, disposeNext, failNext, closeCallNext, newWorkers, addHandler, closeProbeNext,
      closeStopNext, closeTakeNext, closeFailNext, joinResultNext, closeQueueNext, queuesClosed,
      closeLogsNext, waitNext, checkNext, inspectNext, exitFailNext, dispatchNext, recordNext,
      relaunchNext, awaitRestartNext, completeNext, stopFailedNext, rescheduleNext,
      shutdownStopNext, shutdownTakeNext, shutdownFailNext, shutdownLogsNext, takeAllPending] <;>
    (repeat' split) <;> rfl

/-- Only the last step of a `close` sets `_close_complete`. -/
theorem complete_frame (hp : Consistent s.pool) (h : ∀ i, e ≠ .closeComplete i) :
    (next s e).pool.closeComplete = s.pool.closeComplete := by
  cases e
  case closeComplete i => exact absurd rfl (h i)
  case execute q puts =>
    simp only [next, executeNext_pool]
    exact (execute_within hp.books puts q s.history.nextFuture).closeComplete
  case receive m =>
    simp only [next, receiveNext_pool]
    exact (takeResult_within hp.books m).closeComplete
  case handleExit r rd =>
    simp only [next]
    rcases handleExitNext_pool (s := s) r rd with h | ⟨⟨hr, -⟩, h⟩ <;> rw [h]
    exact (handleWorkerExit_within hr).closeComplete
  case unregisterCall i g =>
    simp only [next, unregisterNext_pool]
    rcases unregisterLocked_cases hp g with ⟨-, e, h⟩ | ⟨-, -, -, q, failed, h, hu⟩ <;> rw [h]
    exact hu.nextRef.2.2
  all_goals
    simp only [next, deliverNext, registerNext, ensureNext, launchNext, publishNext, publishGroup,
      awaitReadyNext, disposeNext, failNext, closeCallNext, addHandler, newWorkers, closeProbeNext,
      closeStopNext, closeTakeNext, closeFailNext, joinResultNext, closeQueueNext, queuesClosed,
      closeLogsNext, waitNext, checkNext, inspectNext, exitFailNext, dispatchNext, recordNext,
      relaunchNext, awaitRestartNext, completeNext, stopFailedNext, rescheduleNext,
      shutdownSignalNext, shutdownStopNext, shutdownTakeNext, shutdownFailNext, shutdownLogsNext,
      takeAllPending] <;>
    (repeat' split) <;> rfl

/-- Only a READY message makes a worker alive. -/
theorem alive_frame (hp : Consistent s.pool) {r : Ref} (ha : (s.pool.heap r).alive = false)
    (hready : ∀ i job rest o, e ≠ .awaitReady i job r rest o) (hmark : ∀ rd, e ≠ .markReady r rd) :
    ((next s e).pool.heap r).alive = false := by
  have modify : ∀ (r' : Ref) (f : WorkerState → WorkerState),
      (r' = r → (f (s.pool.heap r)).alive = false) →
      ((s.pool.modify r' f).heap r).alive = false := by
    intro r' f hf
    by_cases e : r = r'
    · subst e; simpa using hf rfl
    · simpa [e] using ha
  cases e
  case execute q puts =>
    simp only [next, executeNext_pool]
    rcases execute_cases (p := s.pool) puts q s.history.nextFuture
      (fun t => (hp.books.keys t).mp) with
      ⟨r', -, -, -, -, weights, cursors, h⟩ | ⟨weights, out, h, -⟩ <;> rw [h]
    · exact modify r' (fun w => { w with outstanding := w.outstanding + 1 }) fun _ => ha
    · exact ha
  case receive m =>
    simp only [next, receiveNext_pool]
    rcases hp.books.takeResult_eq m with ⟨-, h⟩ | ⟨r', f, -, -, -, h⟩ <;> rw [h]
    · exact ha
    · exact modify r' (fun w => { w with outstanding := w.outstanding - 1 }) fun _ => ha
  case handleExit r' rd =>
    simp only [next]
    rcases handleExitNext_pool (s := s) r' rd with h | ⟨⟨hr', halive⟩, h⟩ <;> rw [h]
    · exact ha
    obtain ⟨weights, h | ⟨-, e, h⟩⟩ := handleWorkerExit_cases hp.books hr' halive <;> rw [h]
    · by_cases e : r = r' <;> simp [exited, takeWorkerFuturesLocked, e, ha]
    · exact modify r' (fun w => { w with alive := false }) fun _ => rfl
  case unregisterCall i g =>
    simp only [next, unregisterNext_pool]
    rcases unregisterLocked_cases hp g with ⟨-, e, h⟩ | ⟨-, -, -, q, failed, h, hu⟩ <;> rw [h]
    · exact ha
    obtain ⟨d, -, hret⟩ := hu.retired
    simp only [hret.heap]
    split
    · rfl
    · exact ha
  case registerCall i group =>
    simp only [next, registerNext]
    split
    · exact ha
    · simp only [newWorkers, setUser_pool]
      split
      · rfl
      · exact ha
  case publish i job =>
    simp only [next, publishNext]
    split <;> exact ha
  case awaitReady i job r' rest o =>
    simp only [next, awaitReadyNext]
    split
    · exact ha
    · simp only [setUser_pool, modify_pool]
      refine modify r' (fun w => { w with alive := true }) ?_
      rintro rfl
      exact absurd rfl (hready i job rest o)
    · exact ha
  case launch i job r' rest o =>
    simp only [next, launchNext]
    split <;> exact modify r' (launchWorker · o) fun _ => (launchWorker_group _ o).2.2.2.2.1
  case relaunch r' rd o =>
    simp only [next, relaunchNext]
    split
    · exact ha
    · exact modify r' (launchWorker · o) fun _ => (launchWorker_group _ o).2.2.2.2.1
  case markReady r' rd =>
    refine modify r' (fun w => { w with alive := true }) ?_
    rintro rfl
    exact absurd rfl (hmark rd)
  case schedule r' rd =>
    exact modify r' (scheduleRestart · rd.now) fun _ => (scheduleRestart_books _ _).2.1.trans ha
  case reschedule r' rd =>
    simp only [next, rescheduleNext]
    split
    · exact ha
    · exact modify r' (scheduleRestart · s.clock) fun _ =>
        (scheduleRestart_books _ _).2.1.trans ha
  case closeTake | shutdownTake =>
    simp only [next, closeTakeNext, shutdownTakeNext, takeAllPending, setUser_pool]
    split <;> exact ha
  case dispose | closeStop | closeQueue | joinQueue | stopFailed | shutdownStop =>
    simp only [next, disposeNext, closeStopNext, closeQueueNext, queuesClosed, stopFailedNext,
      shutdownStopNext]
    (repeat' split) <;> simp only [setUser_pool, modify_pool] <;> first
      | exact ha
      | (exact modify _ _ fun _ => ha)
      | (rename_i heq
         refine modify _ (fun _ => _) fun e => ?_
         have := (stopProcess_ok heq).2.2.1
         rw [e] at this
         rw [this]
         split
         · rfl
         · exact ha)
  all_goals
    simp only [next, deliverNext, ensureNext, failNext, closeCallNext, addHandler, closeProbeNext,
      joinResultNext, closeFailNext, waitNext, checkNext, inspectNext, exitFailNext, dispatchNext,
      recordNext, awaitRestartNext, completeNext, shutdownSignalNext, shutdownFailNext,
      shutdownLogsNext]
    (repeat' split) <;> first
      | exact ha
      | exact modify _ (fun w => { w with process := _ }) fun _ => ha
      | exact modify _ (fun w => { w with nextRestartAt := _, restartTimes := _ }) fun _ => ha

/-- The worker whose process handle an event replaces or closes. -/
def Event.rehandles : Event ι → Option Ref
  | .launch _ _ r _ _ | .relaunch r _ _ | .dispose _ (.stop .close) r _ _ | .closeStop _ .close r _
  | .stopFailed .close r _ | .shutdownStop .close r _ _ _ => some r
  | _ => none

/-- A handle changes when its process ends, and when a step replaces or closes it. -/
theorem process_frame (hp : Consistent s.pool) {r : Ref} (hr : r < s.pool.nextRef)
    (h : Event.rehandles e ≠ some r) :
    ((next s e).pool.heap r).process = (s.pool.heap r).process ∨
      e = .processExit r ∧ ((next s e).pool.heap r).process = some .exited := by
  have modify : ∀ (r' : Ref) (f : WorkerState → WorkerState),
      (r' = r → (f (s.pool.heap r)).process = (s.pool.heap r).process) →
      ((s.pool.modify r' f).heap r).process = (s.pool.heap r).process := by
    intro r' f hf
    by_cases e : r = r'
    · subst e; simpa using hf rfl
    · simp [e]
  cases e
  case processExit r' =>
    by_cases e : r' = r
    · subst e; exact Or.inr ⟨rfl, by simp [next]⟩
    · exact Or.inl (modify r' (fun w => { w with process := some .exited }) fun h => absurd h e)
  all_goals left
  case execute q puts =>
    simp only [next, executeNext_pool]
    rcases execute_cases (p := s.pool) puts q s.history.nextFuture
      (fun t => (hp.books.keys t).mp) with
      ⟨r', -, -, -, -, weights, cursors, h⟩ | ⟨weights, out, h, -⟩ <;> rw [h]
    exact modify r' (fun w => { w with outstanding := w.outstanding + 1 }) fun _ => rfl
  case receive m =>
    simp only [next, receiveNext_pool]
    rcases hp.books.takeResult_eq m with ⟨-, h⟩ | ⟨r', f, -, -, -, h⟩ <;> rw [h]
    exact modify r' (fun w => { w with outstanding := w.outstanding - 1 }) fun _ => rfl
  case handleExit r' rd =>
    simp only [next]
    rcases handleExitNext_pool (s := s) r' rd with h | ⟨⟨hr', halive⟩, h⟩ <;> rw [h]
    obtain ⟨weights, h | ⟨-, e, h⟩⟩ := handleWorkerExit_cases hp.books hr' halive <;> rw [h]
    · by_cases e : r = r' <;> simp [exited, takeWorkerFuturesLocked, e]
    · exact modify r' (fun w => { w with alive := false }) fun _ => rfl
  case unregisterCall i g =>
    simp only [next, unregisterNext_pool]
    rcases unregisterLocked_cases hp g with ⟨-, e, h⟩ | ⟨-, -, -, q, failed, h, hu⟩ <;> rw [h]
    obtain ⟨d, -, hret⟩ := hu.retired
    simp only [hret.heap]
    split <;> rfl
  case registerCall i group =>
    simp only [next, registerNext]
    split
    · rfl
    · simp only [setUser_pool, newWorkers_heap _ _ hr]
  case schedule r' rd =>
    exact modify r' (scheduleRestart · rd.now) fun _ => (scheduleRestart_books _ _).2.2
  case reschedule r' rd =>
    simp only [next, rescheduleNext]
    split
    · rfl
    · exact modify r' (scheduleRestart · s.clock) fun _ => (scheduleRestart_books _ _).2.2
  case launch i job r' rest o =>
    simp only [Event.rehandles, ne_eq, Option.some.injEq] at h
    simp only [next, launchNext]
    split <;> exact modify r' (launchWorker · o) fun e => absurd e h
  case relaunch r' rd o =>
    simp only [Event.rehandles, ne_eq, Option.some.injEq] at h
    simp only [next, relaunchNext]
    split
    · rfl
    · exact modify r' (launchWorker · o) fun e => absurd e h
  case closeTake | shutdownTake =>
    simp only [next, closeTakeNext, shutdownTakeNext, takeAllPending, setUser_pool]
    split <;> rfl
  case dispose | closeStop | closeQueue | joinQueue | stopFailed | shutdownStop =>
    simp only [next, disposeNext, closeStopNext, closeQueueNext, queuesClosed, stopFailedNext,
      shutdownStopNext]
    (repeat' split) <;> simp only [setUser_pool, modify_pool] <;> first
      | rfl
      | (exact modify _ _ fun _ => rfl)
      | (rename_i heq
         refine modify _ (fun _ => _) fun e => ?_
         have := (stopProcess_ok heq).2.2.2
         subst e
         rw [this, if_neg]
         rintro rfl
         exact h rfl)
  all_goals
    simp only [next, deliverNext, ensureNext, failNext, closeCallNext, addHandler, awaitReadyNext,
      closeProbeNext, joinResultNext, closeFailNext, waitNext, checkNext, inspectNext, exitFailNext,
      dispatchNext, recordNext, awaitRestartNext, completeNext, shutdownSignalNext,
      shutdownFailNext, shutdownLogsNext, publishNext, publishGroup] <;>
    (repeat' split) <;> first
      | rfl
      | exact modify _ (fun w => { w with alive := _ }) fun _ => rfl
      | exact modify _ (fun w => { w with nextRestartAt := _, restartTimes := _ }) fun _ => rfl

/-- What becomes of a worker state: it keeps its place, does not come back from retirement, and a
process starts to run for it with the next generation only. -/
structure Lasting (w v : WorkerState) : Prop where
  workerId : v.workerId = w.workerId
  index : v.index = w.index
  group : v.group = w.group
  handlerNames : v.handlerNames = w.handlerNames
  retiring : w.retiring = true → v.retiring = true
  launched : v.generation = w.generation ∧
    (v.process = some .running → w.process = some .running) ∨ v.generation = w.generation + 1

theorem Lasting.rfl' (w : WorkerState) : Lasting w w := ⟨rfl, rfl, rfl, rfl, id, .inl ⟨rfl, id⟩⟩

theorem SameBooks.lasting {w v : WorkerState} (h : SameBooks w v)
    (hn : v.handlerNames = w.handlerNames) (hr : w.retiring = true → v.retiring = true)
    (hp : v.process = some .running → w.process = some .running) : Lasting w v :=
  ⟨h.workerId, h.index, h.group, hn, hr, .inl ⟨h.generation, hp⟩⟩

theorem launchWorker_lasting (w : WorkerState) (o : LaunchOutcome) :
    Lasting w (launchWorker w o) := by
  obtain ⟨hid, hindex, hgroup, -, -, hretiring, hgen⟩ := launchWorker_group w o
  refine ⟨hid, hindex, hgroup, ?_, fun h => hretiring.trans h, .inr hgen⟩
  cases o <;> rfl

theorem scheduleRestart_lasting (w : WorkerState) (now : ℚ) :
    Lasting w (scheduleRestart w now) := by
  obtain ⟨hs, -, hp⟩ := scheduleRestart_books w now
  refine SameBooks.lasting hs ?_ ?_ fun h => hp ▸ h <;> simp only [scheduleRestart] <;> split
  · rfl
  · rfl
  · exact id
  · exact id

theorem stopProcess_handlerNames {w v : WorkerState} {k : StopStep} {k' : Option StopStep}
    (h : stopProcess w k = .ok (v, k')) : v.handlerNames = w.handlerNames := by
  cases k with
  | close | mark => cases h; rfl
  | join | probe | terminate | rejoin =>
    cases hp : w.process with
    | none => simp only [stopProcess, hp] at h; cases h; rfl
    | some p =>
      simp only [stopProcess, hp] at h
      obtain ⟨a, _, ha⟩ := Traversal.bind_ok_iff.mp h
      first
        | (cases ha; rfl)
        | (cases a <;> (cases ha; rfl))

theorem stopProcess_lasting {w v : WorkerState} {k : StopStep} {k' : Option StopStep}
    (h : stopProcess w k = .ok (v, k')) : Lasting w v := by
  obtain ⟨hs, hret, -, hp⟩ := stopProcess_ok h
  refine SameBooks.lasting hs (stopProcess_handlerNames h) (fun h => hret.trans h) fun hrun => ?_
  rw [hp] at hrun
  split at hrun
  · obtain ⟨x, hx, hclose⟩ := Option.map_eq_some_iff.mp hrun
    cases x <;> first
      | exact hx
      | cases hclose
  · exact hrun

theorem worker_frame (hp : Consistent s.pool) {r : Ref} (hr : r < s.pool.nextRef) :
    Lasting (s.pool.heap r) ((next s e).pool.heap r) := by
  have modify : ∀ (r' : Ref) (f : WorkerState → WorkerState),
      Lasting (s.pool.heap r') (f (s.pool.heap r')) →
      Lasting (s.pool.heap r) ((s.pool.modify r' f).heap r) := by
    intro r' f hf
    by_cases e : r = r'
    · subst e; simpa using hf
    · simpa [e] using Lasting.rfl' _
  have same : Lasting (s.pool.heap r) (s.pool.heap r) := .rfl' _
  have plain : ∀ (r' : Ref) (f : WorkerState → WorkerState),
      (∀ w, (f w).workerId = w.workerId ∧ (f w).index = w.index ∧ (f w).group = w.group ∧
        (f w).handlerNames = w.handlerNames ∧ (f w).generation = w.generation ∧ (w.retiring = true → (f w).retiring = true) ∧
        ((f w).process = some .running → w.process = some .running)) →
      Lasting (s.pool.heap r) ((s.pool.modify r' f).heap r) := by
    intro r' f hf
    obtain ⟨hid, hindex, hgroup, hnames, hgen, hret, hp⟩ := hf (s.pool.heap r')
    exact modify r' f ⟨hid, hindex, hgroup, hnames, hret, .inl ⟨hgen, hp⟩⟩
  cases e
  case execute q puts =>
    simp only [next, executeNext_pool]
    rcases execute_cases (p := s.pool) puts q s.history.nextFuture
      (fun t => (hp.books.keys t).mp) with
      ⟨r', -, -, -, -, weights, cursors, h⟩ | ⟨weights, out, h, -⟩ <;> rw [h]
    · exact plain r' (fun w => { w with outstanding := w.outstanding + 1 })
        fun _ => ⟨rfl, rfl, rfl, rfl, rfl, id, id⟩
    · exact same
  case receive m =>
    simp only [next, receiveNext_pool]
    rcases hp.books.takeResult_eq m with ⟨-, h⟩ | ⟨r', f, -, -, -, h⟩ <;> rw [h]
    · exact same
    · exact plain r' (fun w => { w with outstanding := w.outstanding - 1 })
        fun _ => ⟨rfl, rfl, rfl, rfl, rfl, id, id⟩
  case handleExit r' rd =>
    simp only [next]
    rcases handleExitNext_pool (s := s) r' rd with h | ⟨⟨hr', halive⟩, h⟩ <;> rw [h]
    · exact same
    obtain ⟨weights, h | ⟨-, e, h⟩⟩ := handleWorkerExit_cases hp.books hr' halive <;> rw [h]
    · by_cases e : r = r'
      · subst e
        simpa [exited, takeWorkerFuturesLocked] using
          (⟨rfl, rfl, rfl, rfl, id, .inl ⟨rfl, id⟩⟩ : Lasting (s.pool.heap r)
            { s.pool.heap r with alive := false, outstanding := 0 })
      · simpa [exited, takeWorkerFuturesLocked, e] using same
    · exact plain r' (fun w => { w with alive := false }) fun _ => ⟨rfl, rfl, rfl, rfl, rfl, id, id⟩
  case unregisterCall i g =>
    simp only [next, unregisterNext_pool]
    rcases unregisterLocked_cases hp g with ⟨-, e, h⟩ | ⟨-, -, -, q, failed, h, hu⟩ <;> rw [h]
    · exact same
    obtain ⟨d, -, hret⟩ := hu.retired
    simp only [hret.heap]
    split
    · exact ⟨rfl, rfl, rfl, rfl, fun _ => rfl, .inl ⟨rfl, id⟩⟩
    · exact same
  case registerCall i group =>
    simp only [next, registerNext]
    split
    · exact same
    · simpa only [setUser_pool, newWorkers_heap _ _ hr] using same
  case launch i job r' rest o =>
    simp only [next, launchNext]
    split <;> exact modify r' (launchWorker · o) (launchWorker_lasting _ o)
  case relaunch r' rd o =>
    simp only [next, relaunchNext]
    split
    · exact same
    · exact modify r' (launchWorker · o) (launchWorker_lasting _ o)
  case schedule r' rd => exact modify r' (scheduleRestart · rd.now) (scheduleRestart_lasting ..)
  case reschedule r' rd =>
    simp only [next, rescheduleNext]
    split
    · exact same
    · exact modify r' (scheduleRestart · s.clock) (scheduleRestart_lasting ..)
  case processExit r' =>
    exact plain r' (fun w => { w with process := some .exited })
      fun _ => ⟨rfl, rfl, rfl, rfl, rfl, id, fun h => by cases h⟩
  case closeTake | shutdownTake =>
    simp only [next, closeTakeNext, shutdownTakeNext, takeAllPending, setUser_pool]
    split <;> exact ⟨rfl, rfl, rfl, rfl, id, .inl ⟨rfl, id⟩⟩
  case dispose | closeStop | closeQueue | joinQueue | stopFailed | shutdownStop =>
    simp only [next, disposeNext, closeStopNext, closeQueueNext, queuesClosed, stopFailedNext,
      shutdownStopNext]
    (repeat' split) <;> first
      | exact same
      | (exact plain _ (fun w => { w with retiring := true, nextRestartAt := none })
          fun _ => ⟨rfl, rfl, rfl, rfl, rfl, fun _ => rfl, id⟩)
      | (exact plain _ (fun w => { w with taskQueue := false, lifecycleQueue := false })
          fun _ => ⟨rfl, rfl, rfl, rfl, rfl, id, id⟩)
      | (rename_i w' k' heq
         exact modify _ (fun _ => w') (stopProcess_lasting heq))
  all_goals
    simp only [next, deliverNext, ensureNext, failNext, closeCallNext, addHandler, awaitReadyNext,
      closeProbeNext, joinResultNext, closeFailNext, waitNext, checkNext, inspectNext, exitFailNext,
      dispatchNext, recordNext, awaitRestartNext, completeNext, shutdownSignalNext,
      shutdownFailNext, shutdownLogsNext, publishNext, publishGroup]
    (repeat' split) <;> first
      | exact same
      | exact plain _ (fun w => { w with alive := _ }) fun _ => ⟨rfl, rfl, rfl, rfl, rfl, id, id⟩
      | exact plain _ (fun w => { w with nextRestartAt := _, restartTimes := _ })
          fun _ => ⟨rfl, rfl, rfl, rfl, rfl, id, id⟩

end PoolFrames
