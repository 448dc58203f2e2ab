import Infly.PoolState
import Infly.Transitions

/-! # The threads of the process pool

User threads call `execute`, `register_worker_group`, `unregister_worker_group` and
`close`; the result thread and the supervisor run their loops. A locked section is one
step. Outside the lock every operation that another thread can notice is a step.
Processes end, messages arrive and time passes at any moment.
-/
namespace PoolModel

open Contracts Config PoolState

/-! ## Program counters -/

structure Registration where
  group : WorkerGroup
  handlerNames : List String
  workers : List Ref
  deriving DecidableEq

/-- What follows `_dispose_workers`. -/
inductive AfterDispose where
  | raise (e : Raised)
  | failFutures (futures : List FutureId) (e : PlatformError)
  deriving DecidableEq

inductive DisposeStep where
  | mark | probe | stop (k : StopStep) | closeQueues
  deriving DecidableEq

inductive UserPc where
  | idle | returned | raised (e : Raised)
  | ensuring (job : Registration)
  | launching (job : Registration) (r : Ref) (rest : List Ref)
  | awaiting (job : Registration) (r : Ref) (rest : List Ref)
  | publishing (job : Registration)
  | disposing (k : DisposeStep) (r : Ref) (rest : List Ref) (next : AfterDispose)
  | failing (f : FutureId) (rest : List FutureId) (e : PlatformError)
  | closeSignalling
  | closeProbing (r : Ref) (rest : List Ref)
  | closeStopping (k : StopStep) (r : Ref) (rest : List Ref)
  | closeResultStopping | closeJoiningResult | closeJoiningSupervisor | closeTaking
  | closeFailing (f : FutureId) (rest : List FutureId)
  | closeClosingQueue (r : Ref) (rest : List Ref)
  | closeJoiningQueue (r : Ref) (rest : List Ref)
  | closeClosingResult | closeStoppingLogs | closeCompleting | closeHanging
  deriving DecidableEq

/-- One pass of the supervisor over a snapshot of the workers, with one clock reading. -/
structure Round where
  now : ℚ
  todo : List Ref
  deriving DecidableEq

inductive SupervisorPc where
  | waiting
  | checking (now : ℚ)
  | inspecting (r : Ref) (rd : Round)
  | handlingExit (r : Ref) (rd : Round)
  | failing (f : FutureId) (rest : List FutureId) (r : Ref) (rd : Round)
  | dispatching (r : Ref) (rd : Round)
  | scheduling (r : Ref) (rd : Round)
  | restarting (r : Ref) (rd : Round)
  | recording (r : Ref) (rd : Round)
  | relaunching (r : Ref) (rd : Round)
  | awaiting (r : Ref) (rd : Round)
  | markingReady (r : Ref) (rd : Round)
  | completing (r : Ref) (rd : Round)
  | stopping (k : StopStep) (r : Ref) (rd : Round)
  | rescheduling (r : Ref) (rd : Round)
  | shutdownFlagging (r : Ref) (rd : Round)
  | shutdownSignalling (r : Ref) (rd : Round)
  | shutdownStopping (k : StopStep) (w : Ref) (rest : List Ref) (r : Ref) (rd : Round)
  | shutdownTaking (r : Ref) (rd : Round)
  | shutdownFailing (f : FutureId) (rest : List FutureId) (r : Ref) (rd : Round)
  | shutdownLogging (r : Ref) (rd : Round)
  | hanging
  | stopped
  | crashed (e : Raised)
  deriving DecidableEq

inductive ResultPc where
  | polling
  | holding (f : Option FutureId) (m : WorkerResultMessage)
  | stopped
  | crashed (e : Raised)
  deriving DecidableEq

def failFrom : List FutureId → PlatformError → UserPc
  | [], _ => .returned
  | f :: rest, e => .failing f rest e

def AfterDispose.enter : AfterDispose → UserPc
  | .raise e => .raised e
  | .failFutures futures e => failFrom futures e

def disposeFrom : List Ref → AfterDispose → UserPc
  | [], next => next.enter
  | r :: rest, next => .disposing .mark r rest next

def awaitFrom (job : Registration) : List Ref → UserPc
  | [] => .publishing job
  | r :: rest => .awaiting job r rest

def launchFrom (job : Registration) : List Ref → UserPc
  | [] => awaitFrom job job.workers
  | r :: rest => .launching job r rest

def closeStopFrom : List Ref → UserPc
  | [] => .closeResultStopping
  | r :: rest => .closeStopping .join r rest

def closeProbeFrom (workers : List Ref) : List Ref → UserPc
  | [] => closeStopFrom workers
  | r :: rest => .closeProbing r rest

def closeQueuesFrom : List Ref → UserPc
  | [] => .closeClosingResult
  | r :: rest => .closeClosingQueue r rest

def closeFailFrom (workers : List Ref) : List FutureId → UserPc
  | [] => closeQueuesFrom workers
  | f :: rest => .closeFailing f rest

def roundFrom (now : ℚ) : List Ref → SupervisorPc
  | [] => .waiting
  | r :: rest => .inspecting r ⟨now, rest⟩

def Round.continue (rd : Round) : SupervisorPc := roundFrom rd.now rd.todo

def exitFailFrom (r : Ref) (rd : Round) : List FutureId → SupervisorPc
  | [] => .dispatching r rd
  | f :: rest => .failing f rest r rd

def shutdownStopFrom (r : Ref) (rd : Round) : List Ref → SupervisorPc
  | [] => .shutdownTaking r rd
  | w :: rest => .shutdownStopping .join w rest r rd

def shutdownFailFrom (r : Ref) (rd : Round) : List FutureId → SupervisorPc
  | [] => .shutdownLogging r rd
  | f :: rest => .shutdownFailing f rest r rd

def SupervisorPc.ended : SupervisorPc → Bool
  | .stopped | .crashed _ => true
  | _ => false

def ResultPc.ended : ResultPc → Bool
  | .stopped | .crashed _ => true
  | _ => false

def UserPc.resting : UserPc → Bool
  | .idle | .returned | .raised _ => true
  | _ => false

/-! ## Task queues -/

/-- The pipe under a task queue: with what unread in it the queue's feeder thread still gets its
last message through. `none` is the message that has a worker end. -/
structure Pipe where
  fits : List (Option TaskRequest) → Bool
  fewer : ∀ l l', l'.Sublist l → fits l = true → fits l' = true
  sentinel : fits [none] = true

def Pipe.wide : Pipe := ⟨fun _ => true, fun _ _ _ _ => rfl, rfl⟩

/-- The task queue that each worker has: what its process has still to read, and whether somebody
has begun to join its feeder. A later join of the same feeder returns at once. -/
structure TaskQueues where
  pipe : Pipe
  unread : Ref → List (Option TaskRequest)
  joined : Ref → Bool

namespace TaskQueues

def keep (q : TaskQueues) (r : Ref) (unread : List (Option TaskRequest)) : TaskQueues :=
  { q with unread := Function.update q.unread r unread }

def put (q : TaskQueues) (r : Ref) (m : Option TaskRequest) : TaskQueues :=
  q.keep r (q.unread r ++ [m])

/-- `task_queue.put(None)` to a worker whose process runs; a queue that is closed refuses it. -/
def sendStop (q : TaskQueues) (r : Ref) (w : WorkerState) : TaskQueues :=
  if w.process = some .running ∧ w.taskQueue = true then q.put r none else q

/-- `_launch_worker` gives the worker a new queue. -/
def launch (q : TaskQueues) (r : Ref) (o : LaunchOutcome) : TaskQueues :=
  if o = .queueRaises then q
  else { q.keep r [] with joined := Function.update q.joined r false }

def join (q : TaskQueues) (r : Ref) : TaskQueues :=
  { q with joined := Function.update q.joined r true }

end TaskQueues

/-! ## The log manager -/

/-- The thread on which a call of `close` runs: one of its own, the result thread (in a done
callback) or the listener thread of the log manager (in a sink). -/
inductive Caller where
  | own | result | listener
  deriving DecidableEq

/-- What a call of `MainLogManager.stop` comes to. It may raise what closing a handler raises,
and the feeder of its queue, which it joins, may be unable to send what is left. -/
inductive LogStop where
  | returns | raises (e : Raised) | hangs
  deriving DecidableEq

/-- Only the first call of `stop` does anything. `outcome` is what it comes to, except on the
listener thread, which it would have to join. -/
structure Logs where
  stopped : Bool := false
  outcome : LogStop := .returns

def Logs.stop (l : Logs) (c : Caller) : LogStop × Logs :=
  if l.stopped then (.returns, l)
  else (if c = .listener then .raises joinCurrent else l.outcome, { l with stopped := true })

/-! ## States -/

/-- Who takes futures out of the tables; `_fail_all_pending` runs for `close` and for the
shutdown after a worker failure. -/
inductive Resolver (ι : Type) where
  | resultLoop | exitHandler | unregister (i : ι) | closePending (i : ι) | shutdownPending
  deriving DecidableEq

inductive Resolution where
  | result (payload : Option TaskResult)
  | error (e : PlatformError)
  deriving DecidableEq

/-- The future objects, by the calls of `set_result` and `set_exception` made on each, and
what the run did with them. -/
structure History (ι : Type) where
  nextFuture : FutureId
  acceptedTask : FutureId → Option TaskId
  takenBy : FutureId → List (Resolver ι)
  resolutions : FutureId → List Resolution
  received : List WorkerResultMessage

/-- `caller`: on which thread a call of `close` runs. -/
structure State (ι : Type) where
  pool : Pool
  clock : ℚ
  user : ι → UserPc
  supervisor : SupervisorPc
  result : ResultPc
  history : History ι
  queues : TaskQueues
  logs : Logs
  caller : ι → Caller

variable {ι : Type}

def History.empty : History ι := ⟨0, fun _ => none, fun _ => [], fun _ => [], []⟩

def History.take (h : History ι) (futures : List FutureId) (x : Resolver ι) : History ι :=
  { h with takenBy := fun f => if f ∈ futures then h.takenBy f ++ [x] else h.takenBy f }

section

variable [DecidableEq ι]

/-- A resolver's call of `set_result` or `set_exception`. The `done()` guards before these
calls are left out, so that a second call would show. -/
def History.settle (h : History ι) (f : FutureId) (res : Resolution) : History ι :=
  { h with resolutions := Function.update h.resolutions f (h.resolutions f ++ [res]) }

def State.setUser (s : State ι) (i : ι) (pc : UserPc) : State ι :=
  { s with user := Function.update s.user i pc }

def State.modify (s : State ι) (r : Ref) (f : WorkerState → WorkerState) : State ι :=
  { s with pool := s.pool.modify r f }

def started (p : Pool) (pipe : Pipe := .wide) (logs : Logs := {}) : State ι :=
  ⟨p, 0, fun _ => .idle, .waiting, .polling, History.empty,
    ⟨pipe, fun _ => [], fun _ => false⟩, logs, fun _ => .own⟩

/-- The feeder of the worker's task queue gets its last message through. -/
def State.drained (s : State ι) (r : Ref) : Bool := s.queues.pipe.fits (s.queues.unread r)

/-- `_close_queue` has a feeder to wait for: the queue is there, and nobody has joined its
feeder. -/
def State.unjoined (s : State ι) (r : Ref) : Bool :=
  (s.pool.heap r).taskQueue && !s.queues.joined r

/-! ## Events -/

inductive Event (ι : Type) where
  | processExit (r : Ref)
  | read (r : Ref)
  | drop (r : Ref) (k : ℕ)
  | tick (d : ℚ)
  | registerHandler (name : String)
  | execute (request : TaskRequest) (putRaises : List String)
  | receive (m : WorkerResultMessage)
  | deliver (f : Option FutureId) (m : WorkerResultMessage)
  | resultStop
  | resultCrash (e : Raised)
  | registerCall (i : ι) (group : WorkerGroup)
  | ensure (i : ι) (job : Registration)
  | launch (i : ι) (job : Registration) (r : Ref) (rest : List Ref) (o : LaunchOutcome)
  | awaitReady (i : ι) (job : Registration) (r : Ref) (rest : List Ref) (o : AwaitOutcome)
  | publish (i : ι) (job : Registration)
  | unregisterCall (i : ι) (groupName : String)
  | dispose (i : ι) (k : DisposeStep) (r : Ref) (rest : List Ref) (next : AfterDispose)
  | fail (i : ι) (f : FutureId) (rest : List FutureId) (e : PlatformError)
  | closeCall (i : ι)
  | closeCallback (i : ι)
  | closeSink (i : ι)
  | closeSignal (i : ι)
  | closeProbe (i : ι) (r : Ref) (rest : List Ref)
  | closeStop (i : ι) (k : StopStep) (r : Ref) (rest : List Ref)
  | closeResultStop (i : ι)
  | joinResult (i : ι) (timedOut : Bool)
  | joinSupervisor (i : ι) (timedOut : Bool)
  | closeTake (i : ι)
  | closeFail (i : ι) (f : FutureId) (rest : List FutureId)
  | closeQueue (i : ι) (r : Ref) (rest : List Ref)
  | joinQueue (i : ι) (r : Ref) (rest : List Ref)
  | closeResult (i : ι)
  | closeLogs (i : ι)
  | closeComplete (i : ι)
  | wait
  | check (now : ℚ)
  | inspect (r : Ref) (rd : Round)
  | handleExit (r : Ref) (rd : Round)
  | exitFail (f : FutureId) (rest : List FutureId) (r : Ref) (rd : Round)
  | dispatch (r : Ref) (rd : Round)
  | schedule (r : Ref) (rd : Round)
  | restart (r : Ref) (rd : Round)
  | record (r : Ref) (rd : Round)
  | relaunch (r : Ref) (rd : Round) (o : LaunchOutcome)
  | awaitRestart (r : Ref) (rd : Round) (o : AwaitOutcome)
  | markReady (r : Ref) (rd : Round)
  | complete (r : Ref) (rd : Round)
  | stopFailed (k : StopStep) (r : Ref) (rd : Round)
  | reschedule (r : Ref) (rd : Round)
  | shutdownFlag (r : Ref) (rd : Round)
  | shutdownSignal (r : Ref) (rd : Round)
  | shutdownStop (k : StopStep) (w : Ref) (rest : List Ref) (r : Ref) (rd : Round)
  | shutdownTake (r : Ref) (rd : Round)
  | shutdownFail (f : FutureId) (rest : List FutureId) (r : Ref) (rd : Round)
  | shutdownLogs (r : Ref) (rd : Round)
  deriving DecidableEq

/-- A thread may take the step its counter names. The supervisor's stop flag lets a wait
for READY be interrupted; a join that did not time out found the thread ended, and the join of
a feeder has no timeout. A feeder drops a request that it cannot pickle, and the result thread
ends in a message that it cannot unpickle: which these are is left open. The result thread may
run a callback between two turns, and the listener thread a sink at any time; that they wait
for the callback or the sink is left out. -/
def Enabled (s : State ι) : Event ι → Prop
  | .processExit r => (s.pool.heap r).process = some .running
  | .read r => (s.pool.heap r).process = some .running ∧ s.queues.unread r ≠ []
  | .drop r k => ((s.queues.unread r)[k]?.join).isSome = true
  | .tick d => 0 ≤ d
  | .registerHandler _ => True
  | .execute _ _ => True
  | .receive _ => s.result = .polling ∧ s.pool.resultStop = false ∧ s.pool.resultQueue = true
  | .deliver f m => s.result = .holding f m
  | .resultStop => s.result = .polling ∧ (s.pool.resultStop = true ∨ s.pool.resultQueue = false)
  | .resultCrash _ => s.result = .polling ∧ s.pool.resultStop = false ∧ s.pool.resultQueue = true
  | .registerCall i _ | .unregisterCall i _ | .closeCall i | .closeSink i =>
    (s.user i).resting = true
  | .closeCallback i => (s.user i).resting = true ∧ s.result = .polling
  | .ensure i job => s.user i = .ensuring job
  | .launch i job r rest _ => s.user i = .launching job r rest
  | .awaitReady i job r rest o =>
    s.user i = .awaiting job r rest ∧ (o = .interrupted → s.pool.supervisorStop = true)
  | .publish i job => s.user i = .publishing job
  | .dispose i k r rest next => s.user i = .disposing k r rest next ∧
    (k = .closeQueues → s.unjoined r = true → s.drained r = true)
  | .fail i f rest e => s.user i = .failing f rest e
  | .closeSignal i => s.user i = .closeSignalling
  | .closeProbe i r rest => s.user i = .closeProbing r rest
  | .closeStop i k r rest => s.user i = .closeStopping k r rest
  | .closeResultStop i => s.user i = .closeResultStopping
  | .joinResult i timedOut =>
    s.user i = .closeJoiningResult ∧ (timedOut = false → s.result.ended = true)
  | .joinSupervisor i timedOut =>
    s.user i = .closeJoiningSupervisor ∧
      (timedOut = false → s.supervisor.ended = true)
  | .closeTake i => s.user i = .closeTaking
  | .closeFail i f rest => s.user i = .closeFailing f rest
  | .closeQueue i r rest => s.user i = .closeClosingQueue r rest
  | .joinQueue i r rest => s.user i = .closeJoiningQueue r rest ∧ s.drained r = true
  | .closeResult i => s.user i = .closeClosingResult
  | .closeLogs i => s.user i = .closeStoppingLogs
  | .closeComplete i => s.user i = .closeCompleting
  | .wait => s.supervisor = .waiting
  | .check now => s.supervisor = .checking now
  | .inspect r rd => s.supervisor = .inspecting r rd
  | .handleExit r rd => s.supervisor = .handlingExit r rd
  | .exitFail f rest r rd => s.supervisor = .failing f rest r rd
  | .dispatch r rd => s.supervisor = .dispatching r rd
  | .schedule r rd => s.supervisor = .scheduling r rd
  | .restart r rd => s.supervisor = .restarting r rd
  | .record r rd => s.supervisor = .recording r rd
  | .relaunch r rd _ => s.supervisor = .relaunching r rd
  | .awaitRestart r rd o =>
    s.supervisor = .awaiting r rd ∧ (o = .interrupted → s.pool.supervisorStop = true)
  | .markReady r rd => s.supervisor = .markingReady r rd
  | .complete r rd => s.supervisor = .completing r rd
  | .stopFailed k r rd => s.supervisor = .stopping k r rd
  | .reschedule r rd => s.supervisor = .rescheduling r rd
  | .shutdownFlag r rd => s.supervisor = .shutdownFlagging r rd
  | .shutdownSignal r rd => s.supervisor = .shutdownSignalling r rd
  | .shutdownStop k w rest r rd => s.supervisor = .shutdownStopping k w rest r rd
  | .shutdownTake r rd => s.supervisor = .shutdownTaking r rd
  | .shutdownFail f rest r rd => s.supervisor = .shutdownFailing f rest r rd
  | .shutdownLogs r rd => s.supervisor = .shutdownLogging r rd

instance (s : State ι) (e : Event ι) : Decidable (Enabled s e) := by
  cases e <;> simp only [Enabled] <;> infer_instance

/-- The guard `closing or retiring or no longer in the table` under the lock. -/
def skips (p : Pool) (r : Ref) : Bool :=
  p.closing || (p.heap r).retiring || p.workers.get? (p.heap r).workerId != some r

/-! ## Steps of one thread -/

def executeNext (s : State ι) (request : TaskRequest) (putRaises : List String) : State ι :=
  let f := s.history.nextFuture
  let h := { s.history with nextFuture := f + 1 }
  match execute s.pool putRaises request f with
  | (p, .assigned r) => { s with
      pool := p
      history := { h with acceptedTask := Function.update h.acceptedTask f (some request.taskId) }
      queues := s.queues.put r (some request) }
  | (p, .rejected e) => { s with pool := p, history := h.settle f (.error e) }
  | (p, .raised _) => { s with pool := p, history := h }

def receiveNext (s : State ι) (m : WorkerResultMessage) : State ι :=
  let h := { s.history with received := m :: s.history.received }
  match takeResult s.pool m with
  | (p, none) => { s with pool := p, history := h }
  | (p, some f) => { s with
      pool := p
      result := .holding f m
      history := h.take f.toList .resultLoop }

/-- The outcome a result message stands for; an unknown code is an internal error. -/
def resolutionOf (m : WorkerResultMessage) : Resolution :=
  if m.ok then .result m.payload
  else .error ⟨m.errorCode.getD .internalError, m.errorMessage.getD "Unknown worker error"⟩

def deliverNext (s : State ι) (f : Option FutureId) (m : WorkerResultMessage) : State ι :=
  match f with
  | none => { s with result := .polling }
  | some f => { s with
      result := .polling
      history := s.history.settle f (resolutionOf m) }

def launchFailed : Raised := .other "the process could not be launched"

def startupFailed (job : Registration) (e : Raised) : Raised :=
  internalError ("WorkerGroup '" ++ job.group.name ++ "' startup failed: " ++ e.text)

def registerNext (s : State ι) (i : ι) (group : WorkerGroup) : State ι :=
  match resolveGroupHandlers s.pool group with
  | .error e => s.setUser i (.raised e)
  | .ok names =>
    let (p, workers) := newWorkers s.pool group names
    { s with pool := p }.setUser i (.ensuring ⟨group, names, workers⟩)

def ensureNext (s : State ι) (i : ι) (job : Registration) : State ι :=
  match ensureGroupCanBeRegisteredLocked s.pool job.group.name with
  | .error e => s.setUser i (.raised e)
  | .ok () => s.setUser i (launchFrom job job.workers)

def launchNext (s : State ι) (i : ι) (job : Registration) (r : Ref) (rest : List Ref)
    (o : LaunchOutcome) : State ι :=
  let launched := { s.modify r (launchWorker · o) with queues := s.queues.launch r o }
  if o = .started then launched.setUser i (launchFrom job rest)
  else launched.setUser i (disposeFrom job.workers (.raise (startupFailed job launchFailed)))

def awaitReadyNext (s : State ι) (i : ι) (job : Registration) (r : Ref) (rest : List Ref)
    (o : AwaitOutcome) : State ι :=
  match awaitTurn (s.pool.heap r) o with
  | .error e => s.setUser i (disposeFrom job.workers (.raise (startupFailed job e)))
  | .ok true =>
    (s.modify r fun w => { w with alive := true }).setUser i (awaitFrom job rest)
  | .ok false => s

/-- The workers of a refused registration are known to this thread alone, so disposing of
them is not kept inside the locked section. -/
def publishNext (s : State ι) (i : ι) (job : Registration) : State ι :=
  match ensureGroupCanBeRegisteredLocked s.pool job.group.name with
  | .error e => s.setUser i (disposeFrom job.workers (.raise e))
  | .ok () =>
    { s with pool := publishGroup s.pool job.group job.handlerNames job.workers }.setUser i
      .returned

def unregisterNext (s : State ι) (i : ι) (groupName : String) : State ι :=
  match unregisterLocked s.pool groupName with
  | (p, .error e) => { s with pool := p }.setUser i (.raised e)
  | (p, .ok (workers, failed)) =>
    { s with pool := p, history := s.history.take failed (.unregister i) }.setUser i
      (disposeFrom workers (.failFutures failed
        ⟨.workerUnavailable, "WorkerGroup '" ++ groupName ++ "' was unloaded"⟩))

def disposeNext (s : State ι) (i : ι) (k : DisposeStep) (r : Ref) (rest : List Ref)
    (next : AfterDispose) : State ι :=
  match k with
  | .mark =>
    (s.modify r fun w => { w with retiring := true, nextRestartAt := none }).setUser i
      (.disposing .probe r rest next)
  | .probe =>
    match (s.pool.heap r).process.map Process.isAlive with
    | some (.error e) => s.setUser i (.raised e)
    | _ => { s with queues := s.queues.sendStop r (s.pool.heap r) }.setUser i
        (.disposing (.stop .join) r rest next)
  | .stop k =>
    match stopProcess (s.pool.heap r) k with
    | .error e => s.setUser i (.raised e)
    | .ok (w, k) =>
      (s.modify r fun _ => w).setUser i
        (.disposing (k.elim .closeQueues .stop) r rest next)
  | .closeQueues =>
    (s.modify r fun w => { w with taskQueue := false, lifecycleQueue := false }).setUser i
      (disposeFrom rest next)

def failNext (s : State ι) (i : ι) (f : FutureId) (rest : List FutureId) (e : PlatformError) :
    State ι :=
  { s with history := s.history.settle f (.error e) }.setUser i (failFrom rest e)

def closeCallNext (s : State ι) (i : ι) (c : Caller) : State ι :=
  let called := { s with caller := Function.update s.caller i c }
  if s.pool.closeComplete then called.setUser i .returned
  else { called with pool := { s.pool with accepting := false, closing := true } }.setUser i
    .closeSignalling

def closeProbeNext (s : State ι) (i : ι) (r : Ref) (rest : List Ref) : State ι :=
  match (s.pool.heap r).process.map Process.isAlive with
  | some (.error e) => s.setUser i (.raised e)
  | _ => { s with queues := s.queues.sendStop r (s.pool.heap r) }.setUser i
      (closeProbeFrom s.pool.workers.values rest)

def closeStopNext (s : State ι) (i : ι) (k : StopStep) (r : Ref) (rest : List Ref) : State ι :=
  match stopProcess (s.pool.heap r) k with
  | .error e => s.setUser i (.raised e)
  | .ok (w, k) =>
    (s.modify r fun _ => w).setUser i
      (k.elim (closeStopFrom rest) (.closeStopping · r rest))

def joinResultNext (s : State ι) (i : ι) : State ι :=
  s.setUser i (if s.caller i = .result then .raised joinCurrent else .closeJoiningSupervisor)

def closeTakeNext (s : State ι) (i : ι) : State ι :=
  let (p, futures) := takeAllPending s.pool
  { s with pool := p, history := s.history.take futures (.closePending i) }.setUser i
    (closeFailFrom s.pool.workers.values futures)

def closedError : PlatformError :=
  ⟨.internalError, "ProcessPoolStrategy closed before request completed"⟩

def closeFailNext (s : State ι) (i : ι) (f : FutureId) (rest : List FutureId) : State ι :=
  { s with history := s.history.settle f (.error closedError) }.setUser i
    (closeFailFrom s.pool.workers.values rest)

/-- The lifecycle queue and the result queue, into which the parent puts nothing, have no feeder
here to wait for. -/
def queuesClosed (s : State ι) (i : ι) (r : Ref) (rest : List Ref) : State ι :=
  (s.modify r fun w => { w with taskQueue := false, lifecycleQueue := false }).setUser i
    (closeQueuesFrom rest)

def closeQueueNext (s : State ι) (i : ι) (r : Ref) (rest : List Ref) : State ι :=
  if s.unjoined r then { s with queues := s.queues.join r }.setUser i (.closeJoiningQueue r rest)
  else queuesClosed s i r rest

def afterLogs : LogStop → UserPc
  | .returns => .closeCompleting
  | .raises e => .raised e
  | .hangs => .closeHanging

def closeLogsNext (s : State ι) (i : ι) : State ι :=
  { s with logs := (s.logs.stop (s.caller i)).2 }.setUser i
    (afterLogs (s.logs.stop (s.caller i)).1)

def waitNext (s : State ι) : State ι :=
  { s with supervisor := if s.pool.supervisorStop then .stopped else .checking s.clock }

def checkNext (s : State ι) (now : ℚ) : State ι :=
  { s with supervisor := if s.pool.closing then .stopped else roundFrom now s.pool.workers.values }

def inspectNext (s : State ι) (r : Ref) (rd : Round) : State ι :=
  let w := s.pool.heap r
  if skips s.pool r then { s with supervisor := rd.continue }
  else if w.alive then
    match w.process.map Process.isAlive with
    | some (.error e) => { s with supervisor := .crashed e }
    | some (.ok true) => { s with supervisor := rd.continue }
    | _ => { s with supervisor := .handlingExit r rd }
  else
    match w.nextRestartAt with
    | some due =>
      if due ≤ rd.now then { s with supervisor := .restarting r rd }
      else { s with supervisor := rd.continue }
    | none => { s with supervisor := rd.continue }

def handleExitNext (s : State ι) (r : Ref) (rd : Round) : State ι :=
  let w := s.pool.heap r
  if !w.alive || w.retiring || s.pool.workers.get? w.workerId != some r then
    { s with supervisor := rd.continue }
  else
    match handleWorkerExit s.pool r with
    | (p, .error e) => { s with pool := p, supervisor := .crashed e }
    | (p, .ok failed) => { s with
        pool := p
        supervisor := exitFailFrom r rd failed
        history := s.history.take failed .exitHandler }

def exitError (w : WorkerState) : PlatformError :=
  ⟨.workerUnavailable, "Worker '" ++ w.workerId ++ "' exited unexpectedly"⟩

def exitFailNext (s : State ι) (f : FutureId) (rest : List FutureId) (r : Ref) (rd : Round) :
    State ι :=
  { s with
    history := s.history.settle f (.error (exitError (s.pool.heap r)))
    supervisor := exitFailFrom r rd rest }

def dispatchNext (s : State ι) (r : Ref) (rd : Round) : State ι :=
  match (s.pool.heap r).group.safety.mode with
  | .shutdown => { s with supervisor := .shutdownFlagging r rd }
  | .restart => { s with supervisor := .scheduling r rd }
  | .degrade => { s with supervisor := rd.continue }

def recordNext (s : State ι) (r : Ref) (rd : Round) : State ι :=
  { s with
    pool := s.pool.modify r (fun w => { w with
      nextRestartAt := none
      restartTimes := w.restartTimes ++ [s.clock] })
    supervisor := .relaunching r rd }

def relaunchNext (s : State ι) (r : Ref) (rd : Round) (o : LaunchOutcome) : State ι :=
  if skips s.pool r then { s with supervisor := rd.continue }
  else { s with
    pool := s.pool.modify r (launchWorker · o)
    queues := s.queues.launch r o
    supervisor := if o = .started then .awaiting r rd else .stopping .join r rd }

def awaitRestartNext (s : State ι) (r : Ref) (rd : Round) (o : AwaitOutcome) : State ι :=
  match awaitTurn (s.pool.heap r) o with
  | .error _ => { s with supervisor := .stopping .join r rd }
  | .ok true => { s with supervisor := .markingReady r rd }
  | .ok false => s

def completeNext (s : State ι) (r : Ref) (rd : Round) : State ι :=
  let weights := Function.update s.pool.smoothWeights (s.pool.heap r).group.name 0
  { s with pool := { s.pool with smoothWeights := weights }, supervisor := rd.continue }

def stopFailedNext (s : State ι) (k : StopStep) (r : Ref) (rd : Round) : State ι :=
  match stopProcess (s.pool.heap r) k with
  | .error e => { s with supervisor := .crashed e }
  | .ok (w, k) => { s with
      pool := s.pool.modify r (fun _ => w)
      supervisor := k.elim (.rescheduling r rd) (.stopping · r rd) }

def rescheduleNext (s : State ι) (r : Ref) (rd : Round) : State ι :=
  if s.pool.closing || (s.pool.heap r).retiring then { s with supervisor := rd.continue }
  else { s with
    pool := s.pool.modify r (scheduleRestart · s.clock)
    supervisor := rd.continue }

def shutdownSignalNext (s : State ι) (r : Ref) (rd : Round) : State ι :=
  { s with
    pool := { s.pool with supervisorStop := true, resultStop := true }
    supervisor := shutdownStopFrom r rd (s.pool.workers.values.filter (fun w => decide (w ≠ r))) }

def shutdownStopNext (s : State ι) (k : StopStep) (w : Ref) (rest : List Ref) (r : Ref)
    (rd : Round) : State ι :=
  match stopProcess (s.pool.heap w) k with
  | .error e => { s with supervisor := .crashed e }
  | .ok (w', k) => { s with
      pool := s.pool.modify w (fun _ => w')
      supervisor := k.elim (shutdownStopFrom r rd rest) (.shutdownStopping · w rest r rd) }

def shutdownTakeNext (s : State ι) (r : Ref) (rd : Round) : State ι :=
  let (p, futures) := takeAllPending s.pool
  { s with
    pool := p
    history := s.history.take futures .shutdownPending
    supervisor := shutdownFailFrom r rd futures }

def shutdownError (w : WorkerState) : PlatformError :=
  ⟨.workerUnavailable, "Pool shut down after worker '" ++ w.workerId ++ "' failed"⟩

def shutdownFailNext (s : State ι) (f : FutureId) (rest : List FutureId) (r : Ref) (rd : Round) :
    State ι :=
  { s with
    history := s.history.settle f (.error (shutdownError (s.pool.heap r)))
    supervisor := shutdownFailFrom r rd rest }

def afterShutdown (rd : Round) : LogStop → SupervisorPc
  | .returns => rd.continue
  | .raises e => .crashed e
  | .hangs => .hanging

def shutdownLogsNext (s : State ι) (rd : Round) : State ι :=
  { s with
    logs := (s.logs.stop .own).2
    supervisor := afterShutdown rd (s.logs.stop .own).1 }

def next (s : State ι) : Event ι → State ι
  | .processExit r => s.modify r fun w => { w with process := some .exited }
  | .read r => { s with queues := s.queues.keep r (s.queues.unread r).tail }
  | .drop r k => { s with queues := s.queues.keep r ((s.queues.unread r).eraseIdx k) }
  | .tick d => { s with clock := s.clock + d }
  | .registerHandler name =>
    { s with pool := addHandler s.pool name }
  | .execute request putRaises => executeNext s request putRaises
  | .receive m => receiveNext s m
  | .deliver f m => deliverNext s f m
  | .resultStop => { s with result := .stopped }
  | .resultCrash e => { s with result := .crashed e }
  | .registerCall i group => registerNext s i group
  | .ensure i job => ensureNext s i job
  | .launch i job r rest o => launchNext s i job r rest o
  | .awaitReady i job r rest o => awaitReadyNext s i job r rest o
  | .publish i job => publishNext s i job
  | .unregisterCall i groupName => unregisterNext s i groupName
  | .dispose i k r rest next => disposeNext s i k r rest next
  | .fail i f rest e => failNext s i f rest e
  | .closeCall i => closeCallNext s i .own
  | .closeCallback i => closeCallNext s i .result
  | .closeSink i => closeCallNext s i .listener
  | .closeSignal i =>
    { s with pool := { s.pool with supervisorStop := true } }.setUser i
      (closeProbeFrom s.pool.workers.values s.pool.workers.values)
  | .closeProbe i r rest => closeProbeNext s i r rest
  | .closeStop i k r rest => closeStopNext s i k r rest
  | .closeResultStop i =>
    { s with pool := { s.pool with resultStop := true } }.setUser i .closeJoiningResult
  | .joinResult i _ => joinResultNext s i
  | .joinSupervisor i _ => s.setUser i .closeTaking
  | .closeTake i => closeTakeNext s i
  | .closeFail i f rest => closeFailNext s i f rest
  | .closeQueue i r rest => closeQueueNext s i r rest
  | .joinQueue i r rest => queuesClosed s i r rest
  | .closeResult i =>
    { s with pool := { s.pool with resultQueue := false } }.setUser i .closeStoppingLogs
  | .closeLogs i => closeLogsNext s i
  | .closeComplete i =>
    { s with pool := { s.pool with closeComplete := true } }.setUser i .returned
  | .wait => waitNext s
  | .check now => checkNext s now
  | .inspect r rd => inspectNext s r rd
  | .handleExit r rd => handleExitNext s r rd
  | .exitFail f rest r rd => exitFailNext s f rest r rd
  | .dispatch r rd => dispatchNext s r rd
  | .schedule r rd =>
    { s with pool := s.pool.modify r (scheduleRestart · rd.now), supervisor := rd.continue }
  | .restart r rd =>
    { s with supervisor := if skips s.pool r then rd.continue else .recording r rd }
  | .record r rd => recordNext s r rd
  | .relaunch r rd o => relaunchNext s r rd o
  | .awaitRestart r rd o => awaitRestartNext s r rd o
  | .markReady r rd =>
    { s with
      pool := s.pool.modify r (fun w => { w with alive := true })
      supervisor := .completing r rd }
  | .complete r rd => completeNext s r rd
  | .stopFailed k r rd => stopFailedNext s k r rd
  | .reschedule r rd => rescheduleNext s r rd
  | .shutdownFlag r rd =>
    { s with
      pool := { s.pool with accepting := false, closing := true }
      supervisor := .shutdownSignalling r rd }
  | .shutdownSignal r rd => shutdownSignalNext s r rd
  | .shutdownStop k w rest r rd => shutdownStopNext s k w rest r rd
  | .shutdownTake r rd => shutdownTakeNext s r rd
  | .shutdownFail f rest r rd => shutdownFailNext s f rest r rd
  | .shutdownLogs _ rd => shutdownLogsNext s rd

def Step (s : State ι) (e : Event ι) (t : State ι) : Prop := Enabled s e ∧ t = next s e

/-- The pool from a successful construction on; a registry lists each handler once. -/
def system (ι : Type) [DecidableEq ι] : Transitions.System (State ι) (Event ι) where
  init s := ∃ registry groups p pipe logs,
    registry.Nodup ∧ construct registry groups = .ok p ∧ s = started p pipe logs
  step := Step

abbrev Reachable (s : State ι) : Prop := (system ι).Reachable s

/-- The pool that a constructor call returns. -/
def constructed (registry : List String) (groups : List WorkerGroup) : Pool :=
  (construct registry groups).toOption.getD (emptyPool registry)

theorem init_constructed {registry : List String} {groups : List WorkerGroup}
    (h : registry.Nodup ∧ (construct registry groups).isOk = true) :
    (system ι).init (started (constructed registry groups)) := by
  obtain ⟨hn, h⟩ := h
  refine ⟨registry, groups, constructed registry groups, .wide, {}, hn, ?_, rfl⟩
  unfold constructed
  cases hc : construct registry groups with
  | error e => rw [hc] at h; cases h
  | ok p => rfl

theorem reachable_replay {registry : List String} {groups : List WorkerGroup}
    (h : registry.Nodup ∧ (construct registry groups).isOk = true) {es : List (Event ι)}
    (hes : Transitions.Valid Enabled next (started (constructed registry groups)) es) :
    Reachable (es.foldl next (started (constructed registry groups))) :=
  hes.reachable (init_constructed h) fun _ _ he => ⟨he, rfl⟩

end

end PoolModel
