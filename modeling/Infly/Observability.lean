import Infly.Dict
import Infly.Contracts

/-! # Runtime metrics and trace events

`infly/runtime/observability.py`. The section under the instrumentation's lock is one
function; delivering the event to the sinks, which may raise, is a step of the caller.
Clock readings are natural numbers.
-/
namespace Observability

open Contracts

structure TraceEvent where
  name : String
  taskId : TaskId
  handlerName : String
  traceId : Option String := none
  metadata : Mapping := []
  duration : Option ℕ := none
  errorCode : Option ErrorCode := none
  errorMessage : Option String := none
  deriving DecidableEq, Repr

def traceId (request : TaskRequest) : Option String := request.metadata.lookup "trace_id"

structure RuntimeInstrumentation where
  submittedTotal : ℕ := 0
  startedTotal : ℕ := 0
  completedTotal : ℕ := 0
  failedTotal : ℕ := 0
  inflightTasks : ℕ := 0
  submittedAt : Dict TaskId ℕ := .empty
  latencies : List ℕ := []
  lastLatency : Option ℕ := none

/-- Without the average and the percentiles, which are floats. -/
structure RuntimeMetricsSnapshot where
  submittedTotal : ℕ
  startedTotal : ℕ
  completedTotal : ℕ
  failedTotal : ℕ
  inflightTasks : ℕ
  latencyCount : ℕ
  lastLatency : Option ℕ
  deriving DecidableEq, Repr

namespace RuntimeInstrumentation

def event (name : String) (t : TaskId) (request : TaskRequest) : TraceEvent where
  name := name
  taskId := t
  handlerName := request.handlerName
  traceId := traceId request
  metadata := request.metadata

def recordSubmitted (m : RuntimeInstrumentation) (now : ℕ) (t : TaskId) (request : TaskRequest) :
    TraceEvent × RuntimeInstrumentation :=
  (event "task.submitted" t request, { m with
    submittedTotal := m.submittedTotal + 1
    inflightTasks := m.inflightTasks + 1
    submittedAt := m.submittedAt.set t now })

def recordStarted (m : RuntimeInstrumentation) (t : TaskId) (request : TaskRequest) :
    TraceEvent × RuntimeInstrumentation :=
  (event "task.started" t request, { m with startedTotal := m.startedTotal + 1 })

/-- The gauge is clamped at zero; a task without a start time has no latency. -/
def finish (m : RuntimeInstrumentation) (now : ℕ) (t : TaskId) (completed : Bool) :
    Option ℕ × RuntimeInstrumentation :=
  let counted := { m with
    submittedAt := m.submittedAt.pop t
    inflightTasks := m.inflightTasks - 1
    completedTotal := if completed then m.completedTotal + 1 else m.completedTotal
    failedTotal := if completed then m.failedTotal else m.failedTotal + 1 }
  match m.submittedAt.get? t with
  | none => (none, counted)
  | some started => (some (now - started), { counted with
      latencies := m.latencies ++ [now - started]
      lastLatency := some (now - started) })

def recordCompleted (m : RuntimeInstrumentation) (now : ℕ) (t : TaskId) (request : TaskRequest) :
    TraceEvent × RuntimeInstrumentation :=
  let (duration, m') := m.finish now t true
  ({ event "task.completed" t request with duration }, m')

def recordFailed (m : RuntimeInstrumentation) (now : ℕ) (t : TaskId) (request : TaskRequest)
    (errorCode : Option ErrorCode) (errorMessage : Option String) :
    TraceEvent × RuntimeInstrumentation :=
  let (duration, m') := m.finish now t false
  ({ event "task.failed" t request with duration, errorCode, errorMessage }, m')

def metricsSnapshot (m : RuntimeInstrumentation) : RuntimeMetricsSnapshot where
  submittedTotal := m.submittedTotal
  startedTotal := m.startedTotal
  completedTotal := m.completedTotal
  failedTotal := m.failedTotal
  inflightTasks := m.inflightTasks
  latencyCount := m.latencies.length
  lastLatency := m.lastLatency

end RuntimeInstrumentation
end Observability
