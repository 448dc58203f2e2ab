import Infly.Config
import Infly.TaskBackend
import Infly.Observability
import Mathlib.Data.Finset.Card

/-! # The task scheduler's shared state

`infly/runtime/scheduler.py`. The ledger is what a step can change about tasks: the
backend, the outstanding ids, the execution futures, and what the run did with each task.
Clock readings and timeouts are nanoseconds.
-/
namespace SchedulerState

open Contracts Config TaskBackend Observability

abbrev FutureId := ℕ
abbrev WaiterId := ℕ

/-! ## Execution futures -/

inductive Outcome where
  | result (payload : Option TaskResult)
  | exception (e : Raised)
  deriving DecidableEq

/-- A future that `strategy.execute` returned. Its done callback is `_complete_task`. -/
structure Execution where
  task : TaskId
  outcome : Option Outcome := none
  registered : Bool := false

/-! ## Tasks -/

/-- `foreign`: what the backend knew before the scheduler; `requested`: these and the ids
of all submit calls; `accepts` and `returns`: how often a submit call stored a record of the
id, and returned; `executed`: how often `strategy.execute` was called; `moves`: the statuses
the record was given, in order. -/
structure Ledger where
  backend : Backend
  outstanding : Finset TaskId := ∅
  futures : FutureId → Execution
  nextFuture : FutureId := 0
  foreign : Finset TaskId
  requested : Finset TaskId
  accepted : Finset TaskId := ∅
  accepts : TaskId → ℕ := fun _ => 0
  returns : TaskId → ℕ := fun _ => 0
  executed : TaskId → ℕ := fun _ => 0
  moves : TaskId → List TaskStatus

namespace Ledger

def record (L : Ledger) (t : TaskId) : Option TaskRecord := L.backend.get t

/-- `backend.submit` of a new record. -/
def store (L : Ledger) (request : TaskRequest) (priority : ℤ) : Except Raised Unit × Ledger :=
  match L.backend.submit { taskId := request.taskId, request := request } priority with
  | (.error e, b) => (.error e, { L with backend := b })
  | (.ok (), b) => (.ok (), { L with
      backend := b
      accepted := insert request.taskId L.accepted
      accepts := Function.update L.accepts request.taskId (L.accepts request.taskId + 1)
      moves := Function.update L.moves request.taskId
        (L.moves request.taskId ++ [.pending]) })

def pull (L : Ledger) : Option TaskId × Ledger :=
  (L.backend.pull.1, { L with backend := L.backend.pull.2 })

def read (L : Ledger) (t : TaskId) (consume : Bool) (copying : Copying) :
    Except Raised (Option TaskRecord) × Ledger :=
  ((L.backend.read t consume copying).1,
    { L with backend := (L.backend.read t consume copying).2 })

def update (L : Ledger) (now : ℕ) (t : TaskId) (x : Backend.Update) :
    Except Raised TaskRecord × Ledger :=
  ((L.backend.updateStatus now t x).1, { L with
    backend := (L.backend.updateStatus now t x).2
    moves := if (L.record t).isSome then Function.update L.moves t (L.moves t ++ [x.status])
      else L.moves })

/-- `strategy.execute` was called for `t`. -/
def call (L : Ledger) (t : TaskId) : Ledger :=
  { L with executed := Function.update L.executed t (L.executed t + 1) }

/-- The future that the call returned. -/
def launch (L : Ledger) (t : TaskId) : Ledger :=
  { L.call t with
    futures := Function.update L.futures L.nextFuture { task := t }
    nextFuture := L.nextFuture + 1 }

def modify (L : Ledger) (f : FutureId) (g : Execution → Execution) : Ledger :=
  { L with futures := Function.update L.futures f (g (L.futures f)) }

def initial (b : Backend) : Ledger where
  backend := b
  futures := fun _ => { task := "" }
  foreign := b.records.keys.toFinset ∪ b.queued.toFinset
  requested := b.records.keys.toFinset ∪ b.queued.toFinset
  moves := fun t => (b.get t).toList.map TaskRecord.status

end Ledger

/-! ## The rest -/

inductive Thread (ι : Type) where
  | client (i : ι)
  | worker (k : ℕ)
  | callback (f : FutureId)
  deriving DecidableEq

/-- A `threading.Thread` of the scheduler. -/
inductive Life where
  | unstarted | running | ended
  deriving DecidableEq

/-- The future a coroutine awaits: `scheduled` when `set_result` waits in the event loop. -/
inductive WaiterFuture where
  | pending | scheduled | done | cancelled
  deriving DecidableEq

/-- `waiting`: threads in `_condition.wait` that were not notified yet. -/
structure Shared (ι : Type) where
  config : SchedulerConfig
  clock : ℕ := 0
  ledger : Ledger
  free : ℕ
  stop : Bool := false
  accepting : Bool := true
  closed : Bool := false
  strategyClosed : Bool := false
  threads : List ℕ := []
  nextThread : ℕ := 0
  worker : ℕ → Life := fun _ => .unstarted
  waiting : Thread ι → Bool := fun _ => false
  asyncWaiters : Dict TaskId WaiterId := .empty
  waiterFuture : WaiterId → WaiterFuture := fun _ => .pending
  nextWaiter : WaiterId := 0
  instrumentation : RuntimeInstrumentation := {}
  trace : List TraceEvent := []

variable {ι : Type}

def created (config : SchedulerConfig) (b : Backend) : Shared ι :=
  { config, ledger := Ledger.initial b, free := config.maxOutstandingTasks }

end SchedulerState
