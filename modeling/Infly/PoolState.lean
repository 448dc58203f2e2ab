import Infly.Dict
import Infly.Contracts
import Infly.Config
import Mathlib.Algebra.GroupWithZero.Nat
import Mathlib.Data.List.Dedup
import Mathlib.Data.List.Sort
import Mathlib.Logic.Function.Basic

/-! # The process pool's tables and what each section of code does to them

`infly/runtime/strategy/process_pool.py`. A worker state is an object that threads keep
references to after it has left `_workers`, so workers live in a heap and the table
holds references. Futures are identified by number. Logging is left out.
-/
namespace PoolState

open Contracts Config

abbrev Ref := ℕ
abbrev FutureId := ℕ
abbrev Assignment := String × ℕ

/-- A `multiprocessing.Process` handle: created, started (the process runs or has ended),
or closed. -/
inductive Process where
  | unstarted | running | exited | closed
  deriving DecidableEq, Repr

def processClosed : Raised := .valueError "process object is closed"

namespace Process

def isAlive : Process → Except Raised Bool
  | .closed => .error processClosed
  | .running => .ok true
  | _ => .ok false

/-- `join(timeout)` returns whether or not the process ended in time. -/
def join : Process → Except Raised Unit
  | .closed => .error processClosed
  | .unstarted => .error (.assertionError "can only join a started process")
  | _ => .ok ()

def terminate : Process → Except Raised Unit
  | .closed => .error processClosed
  | .unstarted => .error (.attributeError "'NoneType' object has no attribute 'terminate'")
  | _ => .ok ()

/-- `close` under `suppress(Exception)`: on a running process it raises and changes nothing. -/
def close : Process → Process
  | .running => .running
  | _ => .closed

/-- Started and not closed: every operation on the handle succeeds. -/
def Usable (p : Process) : Prop := p = .running ∨ p = .exited

instance (p : Process) : Decidable p.Usable := inferInstanceAs (Decidable (_ ∨ _))

end Process

/-- A missing queue (`None`) and a closed one raise on every operation, so one flag says
whether the worker holds an open queue. -/
structure WorkerState where
  workerId : String
  index : ℕ
  group : WorkerGroup
  handlerNames : List String
  generation : ℕ := 0
  taskQueue : Bool := false
  lifecycleQueue : Bool := false
  process : Option Process := none
  alive : Bool := false
  outstanding : ℕ := 0
  retiring : Bool := false
  restartTimes : List ℚ := []
  nextRestartAt : Option ℚ := none
  deriving DecidableEq

structure WorkerResultMessage where
  ok : Bool
  taskId : TaskId
  workerId : String
  generation : ℕ
  payload : Option TaskResult := none
  errorCode : Option ErrorCode := none
  errorMessage : Option String := none
  deriving DecidableEq, Repr

structure Pool where
  registry : List String
  groups : Dict String WorkerGroup
  groupHandlers : Dict String (List String)
  handlerGroups : Dict String (List String)
  workers : Dict String Ref
  heap : Ref → WorkerState
  nextRef : Ref
  groupCursors : String → ℕ
  smoothWeights : String → ℤ
  futures : Dict TaskId FutureId
  assignments : Dict TaskId Assignment
  accepting : Bool
  closing : Bool
  closeComplete : Bool
  resultStop : Bool
  supervisorStop : Bool
  resultQueue : Bool

def WorkerState.assignment (w : WorkerState) : Assignment := (w.workerId, w.generation)

def Pool.modify (p : Pool) (r : Ref) (f : WorkerState → WorkerState) : Pool :=
  { p with heap := Function.update p.heap r (f (p.heap r)) }

section Modify

variable (p : Pool) (r : Ref) (f : WorkerState → WorkerState)

@[simp] theorem modify_heap : (p.modify r f).heap = Function.update p.heap r (f (p.heap r)) := rfl
@[simp] theorem modify_groups : (p.modify r f).groups = p.groups := rfl
@[simp] theorem modify_groupHandlers : (p.modify r f).groupHandlers = p.groupHandlers := rfl
@[simp] theorem modify_handlerGroups : (p.modify r f).handlerGroups = p.handlerGroups := rfl
@[simp] theorem modify_workers : (p.modify r f).workers = p.workers := rfl
@[simp] theorem modify_nextRef : (p.modify r f).nextRef = p.nextRef := rfl
@[simp] theorem modify_futures : (p.modify r f).futures = p.futures := rfl
@[simp] theorem modify_assignments : (p.modify r f).assignments = p.assignments := rfl
@[simp] theorem modify_accepting : (p.modify r f).accepting = p.accepting := rfl
@[simp] theorem modify_closing : (p.modify r f).closing = p.closing := rfl
@[simp] theorem modify_closeComplete : (p.modify r f).closeComplete = p.closeComplete := rfl

end Modify

def workerName (groupName : String) (index : ℕ) : String :=
  groupName ++ "_R" ++ toString index

def internalError (message : String) : Raised := .platform ⟨.internalError, message⟩

/-! ## One worker -/

/-- How `_launch_worker` ends: the process runs, `start` raised, or something before the
new handle was assigned raised (making a queue, or building the child's registry). -/
inductive LaunchOutcome where
  | started | startRaises | setupRaises | queueRaises
  deriving DecidableEq, Repr

def launchWorker (w : WorkerState) (o : LaunchOutcome) : WorkerState :=
  let reset := { w with
    generation := w.generation + 1
    alive := false
    outstanding := 0
    nextRestartAt := none }
  let queued := { reset with taskQueue := true, lifecycleQueue := true }
  match o with
  | .started => { queued with process := some .running }
  | .startRaises => { queued with process := some .unstarted }
  | .setupRaises => queued
  | .queueRaises => reset

/-- What `_await_worker_ready` meets in one turn of its loop. -/
inductive AwaitOutcome where
  | ready | refused (errorMessage : Option String) | empty | timedOut | interrupted
  deriving DecidableEq, Repr

def queueMissing : Raised := .attributeError "'NoneType' object has no attribute 'get'"

/-- One turn: `true` is a READY message, `false` another turn. -/
def awaitTurn (w : WorkerState) : AwaitOutcome → Except Raised Bool
  | .interrupted => .error (internalError ("Worker '" ++ w.workerId ++ "' startup was interrupted"))
  | .timedOut =>
    .error (internalError ("Worker pool startup timed out waiting for '" ++ w.workerId ++ "'"))
  | .ready => if w.lifecycleQueue then .ok true else .error queueMissing
  | .refused m =>
    if w.lifecycleQueue then
      .error (internalError
        ("Worker '" ++ w.workerId ++ "' startup failed: " ++ m.getD "unknown error"))
    else .error queueMissing
  | .empty =>
    if w.lifecycleQueue then
      match w.process with
      | none => .error (.attributeError "'NoneType' object has no attribute 'is_alive'")
      | some h => do
        if ← h.isAlive then pure false
        else throw (internalError ("Worker '" ++ w.workerId ++ "' exited during startup"))
    else .error queueMissing

/-- The operations of `_stop_process`, each a step of its own. -/
inductive StopStep where
  | join | probe | terminate | rejoin | close | mark
  deriving DecidableEq, Repr

/-- One operation of `_stop_process`: the worker after it and the next one, if any. -/
def stopProcess (w : WorkerState) : StopStep → Except Raised (WorkerState × Option StopStep)
  | .join =>
    match w.process with
    | none => .ok (w, none)
    | some h => do h.join; pure (w, some .probe)
  | .probe =>
    match w.process with
    | none => .ok (w, none)
    | some h => do if ← h.isAlive then pure (w, some .terminate) else pure (w, some .close)
  | .terminate =>
    match w.process with
    | none => .ok (w, none)
    | some h => do h.terminate; pure (w, some .rejoin)
  | .rejoin =>
    match w.process with
    | none => .ok (w, none)
    | some h => do h.join; pure (w, some .close)
  | .close => .ok ({ w with process := w.process.map Process.close }, some .mark)
  | .mark => .ok ({ w with alive := false }, none)

def scheduleRestart (w : WorkerState) (now : ℚ) : WorkerState :=
  let policy := w.group.safety
  let times := w.restartTimes.dropWhile (fun t => decide (t < now - policy.restartWindowSeconds))
  if policy.restartLimit ≤ times.length then
    { w with restartTimes := times, nextRestartAt := none }
  else
    { w with restartTimes := times, nextRestartAt := some (now + policy.restartBackoffSeconds) }

/-! ## Routing and `execute` -/

def WorkerState.isLive (w : WorkerState) : Bool := w.alive && w.process == some .running

/-- `_alive_workers_locked`. Asking a closed handle raises, see `livenessRaises`. -/
def aliveWorkersLocked (p : Pool) (groupName : String) : List Ref :=
  p.workers.values.filter fun r =>
    (p.heap r).group.name == groupName && (p.heap r).isLive

def livenessRaises (p : Pool) (groupName : String) : Bool :=
  p.workers.values.any fun r =>
    (p.heap r).group.name == groupName && (p.heap r).alive && (p.heap r).process == some .closed

/-- The order of `max`'s key `(smooth weight, -position)`. -/
def precedes (p : Pool) (weights : String → ℤ) (g h : String) : Bool :=
  weights g < weights h ||
    (weights g == weights h && p.groups.keys.idxOf h < p.groups.keys.idxOf g)

/-- The weights are a dictionary, so a name counts once. -/
def selectGroupLocked (p : Pool) (first : String) (rest : List String) : String × Pool :=
  let weight := fun g => (aliveWorkersLocked p g).length
  let names := (first :: rest).dedup
  let total := (names.map weight).sum
  let raised := names.foldl
    (fun s g => Function.update s g (s g + (weight g : ℤ))) p.smoothWeights
  let selected := rest.foldl (fun best g => if precedes p raised best g then g else best) first
  (selected,
    { p with smoothWeights := Function.update raised selected (raised selected - (total : ℤ)) })

def orderedWorkersLocked (p : Pool) (groupName : String) : List Ref :=
  match p.groups.get? groupName with
  | none => []
  | some group =>
    let key := fun r => ((p.heap r).outstanding,
      ((p.heap r).index - p.groupCursors groupName : ℤ) % (group.processCount : ℤ))
    (aliveWorkersLocked p groupName).insertionSort fun a b =>
      (key a).1 < (key b).1 ∨ ((key a).1 = (key b).1 ∧ (key a).2 ≤ (key b).2)

/-- The worker loop of `execute`: book, try `put_nowait`, undo on an exception. The list is of the
workers on whose queues it called `put_nowait`. -/
def assignTo (p : Pool) (putRaises : List String) (taskId : TaskId) (groupName : String) :
    List Ref → Pool × Option Ref × List Ref
  | [] => (p, none, [])
  | r :: rest =>
    let w := p.heap r
    let booked := { p.modify r (fun w => { w with outstanding := w.outstanding + 1 }) with
      assignments := p.assignments.set taskId w.assignment }
    if w.workerId ∈ putRaises ∨ w.taskQueue = false then
      let undone := { booked.modify r (fun w => { w with outstanding := w.outstanding - 1 }) with
        assignments := booked.assignments.pop taskId }
      let (p, out, tried) := assignTo undone putRaises taskId groupName rest
      (p, out, r :: tried)
    else
      let cursor := (w.index + 1) % w.group.processCount
      ({ booked with
          groupCursors := Function.update booked.groupCursors groupName cursor }, some r, [r])

/-- The loop over `remaining_groups`; each turn removes the group it tried, so the number
of groups bounds the turns. -/
def tryGroups (putRaises : List String) (taskId : TaskId) :
    ℕ → Pool → List String → Pool × Option Ref × List Ref
  | 0, p, _ => (p, none, [])
  | _ + 1, p, [] => (p, none, [])
  | n + 1, p, first :: rest =>
    let (selected, p) := selectGroupLocked p first rest
    match assignTo p putRaises taskId selected (orderedWorkersLocked p selected) with
    | (p, some r, tried) => (p, some r, tried)
    | (p, none, tried) =>
      let (p, out, more) := tryGroups putRaises taskId n p ((first :: rest).erase selected)
      (p, out, tried ++ more)

inductive Executed where
  | assigned (r : Ref)
  | rejected (e : PlatformError)
  | raised (e : Raised)
  deriving DecidableEq, Repr

/-- `execute`, with `future` the object it makes, and the workers on whose queues it called
`put_nowait`. Only an assigned future enters the tables; a rejected one fails before it is
returned. -/
def executeTrying (p : Pool) (putRaises : List String) (request : TaskRequest)
    (future : FutureId) : Pool × Executed × List Ref :=
  if request.taskId = "" then
    (p, .rejected ⟨.invalidRequest,
      "TaskRequest must be submitted through TaskScheduler before execution."⟩, [])
  else if !p.accepting then (p, .rejected ⟨.internalError, "ProcessPoolStrategy is closed"⟩, [])
  else if p.futures.contains request.taskId then
    (p, .rejected ⟨.internalError, "Duplicate task_id: " ++ request.taskId⟩, [])
  else
    let hosts := (p.handlerGroups.get? request.handlerName).getD []
    -- Liveness is fixed while the lock is held: a handle that raises does so in this first scan.
    if hosts.any (livenessRaises p) then (p, .raised processClosed, [])
    else
      let groupNames := hosts.filter fun g => !(aliveWorkersLocked p g).isEmpty
      if groupNames = [] then
        (p, .rejected ⟨.workerUnavailable,
          "No live worker is deployed for handler '" ++ request.handlerName ++ "'"⟩, [])
      else
        let opened := { p with futures := p.futures.set request.taskId future }
        match tryGroups putRaises request.taskId groupNames.length opened groupNames with
        | (p, some r, tried) => (p, .assigned r, tried)
        | (p, none, tried) =>
          ({ p with futures := p.futures.pop request.taskId },
            .rejected ⟨.workerUnavailable, "Unable to submit request to a live worker for handler '"
              ++ request.handlerName ++ "'"⟩, tried)

def execute (p : Pool) (putRaises : List String) (request : TaskRequest) (future : FutureId) :
    Pool × Executed :=
  let x := executeTrying p putRaises request future
  (x.1, x.2.1)

/-! ## Taking futures out of the tables -/

/-- The locked section of `_result_loop`: `none` is a stale message. -/
def takeResult (p : Pool) (m : WorkerResultMessage) : Pool × Option (Option FutureId) :=
  if p.assignments.get? m.taskId = some (m.workerId, m.generation) then
    let taken := { p with
      assignments := p.assignments.pop m.taskId
      futures := p.futures.pop m.taskId }
    match p.workers.get? m.workerId with
    | some r =>
      if 0 < (p.heap r).outstanding then
        (taken.modify r (fun w => { w with outstanding := w.outstanding - 1 }),
          some (p.futures.get? m.taskId))
      else (taken, some (p.futures.get? m.taskId))
    | none => (taken, some (p.futures.get? m.taskId))
  else (p, none)

def takeWorkerFuturesLocked (p : Pool) (r : Ref) : Pool × List FutureId :=
  let owner := (p.heap r).assignment
  let owned := (p.assignments.entries.filter (fun e => decide (e.2 = owner))).map Prod.fst
  ({ p.modify r (fun w => { w with outstanding := 0 }) with
      assignments := p.assignments.filter (fun _ a => decide (a ≠ owner))
      futures := p.futures.filter (fun t _ => decide (t ∉ owned)) },
    owned.filterMap p.futures.get?)

/-- The locked section of `_fail_all_pending`. -/
def takeAllPending (p : Pool) : Pool × List FutureId :=
  ({ p with
      futures := Dict.empty
      assignments := Dict.empty
      heap := fun r => if r ∈ p.workers.values then { p.heap r with outstanding := 0 } else p.heap r },
    p.futures.values)

/-- The locked section of `_handle_worker_exit`, past its guard. -/
def handleWorkerExit (p : Pool) (r : Ref) : Pool × Except Raised (List FutureId) :=
  let marked := { p.modify r (fun w => { w with alive := false }) with
    smoothWeights := Function.update p.smoothWeights (p.heap r).group.name 0 }
  match (p.heap r).process with
  | none => (marked, .error (.attributeError "'NoneType' object has no attribute 'join'"))
  | some h =>
    match h.join with
    | .error e => (marked, .error e)
    | .ok () =>
      let (p, failed) := takeWorkerFuturesLocked marked r
      (p, .ok failed)

/-! ## Registering and unregistering groups -/

/-- `HandlerRegistry.add`; `list` returns the names in order. -/
def addHandler (p : Pool) (name : String) : Pool :=
  if name ∈ p.registry then p
  else { p with registry := p.registry.orderedInsert (fun a b => a ≤ b) name }

def resolveGroupHandlers (p : Pool) (group : WorkerGroup) : Except Raised (List String) :=
  let names := if group.handlers = [] then p.registry else group.handlers
  match names.find? (fun h => decide (h ∉ p.registry)) with
  | some h => .error (internalError
      ("WorkerGroup '" ++ group.name ++ "' references missing handler '" ++ h ++ "'"))
  | none => .ok names

def newWorker (group : WorkerGroup) (handlerNames : List String) (index : ℕ) : WorkerState where
  workerId := workerName group.name index
  index := index
  group := group
  handlerNames := handlerNames

/-- The worker states of a group are fresh objects, one for each index. -/
def newWorkers (p : Pool) (group : WorkerGroup) (handlerNames : List String) : Pool × List Ref :=
  ({ p with
      heap := fun r =>
        if p.nextRef ≤ r ∧ r < p.nextRef + group.processCount then
          newWorker group handlerNames (r - p.nextRef)
        else p.heap r
      nextRef := p.nextRef + group.processCount },
    (List.range group.processCount).map (p.nextRef + ·))

def ensureGroupCanBeRegisteredLocked (p : Pool) (groupName : String) : Except Raised Unit :=
  if p.closing || p.closeComplete || !p.accepting then
    .error (internalError "ProcessPoolStrategy is closed")
  else if p.groups.contains groupName then
    .error (internalError ("WorkerGroup '" ++ groupName ++ "' is already registered"))
  else .ok ()

def appendGroup (routes : Dict String (List String)) (handlerName groupName : String) :
    Dict String (List String) :=
  routes.set handlerName ((routes.get? handlerName).getD [] ++ [groupName])

/-- The table updates that publish a group. -/
def publishGroup (p : Pool) (group : WorkerGroup) (handlerNames : List String)
    (workers : List Ref) : Pool :=
  { p with
    groups := p.groups.set group.name group
    groupHandlers := p.groupHandlers.set group.name handlerNames
    handlerGroups := handlerNames.foldl (fun d h => appendGroup d h group.name) p.handlerGroups
    workers := p.workers.setAll (fun r => (p.heap r).workerId) id workers }

/-- The loop over the handler names in `unregister_worker_group`. `list.remove` raises
when the group is not listed. -/
def removeRoutes (groupName : String) :
    List String → Dict String (List String) → Dict String (List String) × Option Raised
  | [], routes => (routes, none)
  | h :: rest, routes =>
    let listed := (routes.get? h).getD []
    if groupName ∈ listed then
      let left := listed.erase groupName
      removeRoutes groupName rest (if left = [] then routes.pop h else routes.set h left)
    else (routes.set h listed, some (.valueError "list.remove(x): x not in list"))

/-- The loop over the group's workers in `unregister_worker_group`. -/
def retireWorkers : List Ref → Pool → List FutureId → Pool × List FutureId
  | [], p, failed => (p, failed)
  | r :: rest, p, failed =>
    let retired := p.modify r
      (fun w => { w with retiring := true, alive := false, nextRestartAt := none })
    let (p, taken) := takeWorkerFuturesLocked retired r
    retireWorkers rest { p with workers := p.workers.pop (p.heap r).workerId } (failed ++ taken)

def groupWorkers (p : Pool) (groupName : String) : List Ref :=
  p.workers.values.filter fun r => (p.heap r).group.name == groupName

/-- The locked section of `unregister_worker_group`. -/
def unregisterLocked (p : Pool) (groupName : String) :
    Pool × Except Raised (List Ref × List FutureId) :=
  if p.closing || p.closeComplete then
    (p, .error (internalError "ProcessPoolStrategy is closed"))
  else if !p.groups.contains groupName then
    (p, .error (.platform ⟨.notFound, "WorkerGroup '" ++ groupName ++ "' is not registered"⟩))
  else
    let popped := { p with groups := p.groups.pop groupName }
    match p.groupHandlers.get? groupName with
    | none => (popped, .error (.keyError groupName))
    | some handlerNames =>
      let (routes, failure) := removeRoutes groupName handlerNames p.handlerGroups
      let unrouted := { popped with
        groupHandlers := p.groupHandlers.pop groupName
        handlerGroups := routes }
      match failure with
      | some e => (unrouted, .error e)
      | none =>
        let cleared := { unrouted with
          groupCursors := Function.update p.groupCursors groupName 0
          smoothWeights := Function.update p.smoothWeights groupName 0 }
        let workers := groupWorkers cleared groupName
        let (p, failed) := retireWorkers workers cleared []
        (p, .ok (workers, failed))

/-! ## Construction -/

def emptyPool (registry : List String) : Pool where
  registry := registry
  groups := Dict.empty
  groupHandlers := Dict.empty
  handlerGroups := Dict.empty
  workers := Dict.empty
  heap := fun _ => ⟨"", 0, { name := "?" }, [], 0, false, false, none, false, 0, false, [], none⟩
  nextRef := 0
  groupCursors := fun _ => 0
  smoothWeights := fun _ => 0
  futures := Dict.empty
  assignments := Dict.empty
  accepting := true
  closing := false
  closeComplete := false
  resultStop := false
  supervisorStop := false
  resultQueue := true

/-- One group of the constructor's loop, its workers launched and ready. -/
def addGroup (p : Pool) (group : WorkerGroup) : Except Raised Pool := do
  if p.groups.contains group.name then
    throw (internalError "WorkerGroup names must be unique")
  let handlerNames ← resolveGroupHandlers p group
  let (p, workers) := newWorkers p group handlerNames
  let ready := workers.foldl (fun p r =>
    p.modify r (fun w => { launchWorker w .started with alive := true })) p
  pure (publishGroup ready group handlerNames workers)

/-- A constructor call whose workers all start. -/
def construct (registry : List String) (workerGroups : List WorkerGroup) : Except Raised Pool :=
  if workerGroups = [] then
    .error (internalError "ProcessPoolStrategy requires at least one worker group")
  else workerGroups.foldlM addGroup (emptyPool registry)

/-! Groups for example runs. -/

def sampleGroup : WorkerGroup := { name := "g" }

def rivalGroup : WorkerGroup := { name := "h" }

def restartGroup : WorkerGroup := { name := "g", safety := { mode := .restart } }

def restartPair : WorkerGroup :=
  { name := "g", processCount := 2, safety := { mode := .restart } }

end PoolState
