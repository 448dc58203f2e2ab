import Infly.SchedulerState
import Infly.Transitions

/-! # The threads of the task scheduler

Clients call `submit`, `submit_and_wait`, `submit_and_wait_async`, `query` and `stop`;
worker threads run `_worker_loop`; a future runs its done callback on a thread of its
own. What one of the short locks guards is one step, and so is everything else another
thread can notice. The three locks held across steps are in `Pc.locks`.
-/
namespace SchedulerModel

open Contracts Config TaskBackend Observability SchedulerState

def pollIntervalNs : ℕ := 100000000

/-! ## Program counters -/

/-- What the caller does with the id that `submit` returns. -/
inductive After where
  | return
  | wait (timeout : Option ℤ) (consume : Bool)
  | waitAsync (timeout : Option ℤ) (consume : Bool)
  deriving DecidableEq

structure Job where
  request : TaskRequest
  priority : ℤ := 0
  after : After := .return
  deriving DecidableEq

def Job.task (job : Job) : TaskId := job.request.taskId

inductive Caller where
  | query | submitAndWait | submitAndWaitAsync
  deriving DecidableEq

structure Query where
  task : TaskId
  wait : Bool := false
  timeout : Option ℤ := none
  consume : Bool := false
  caller : Caller := .query
  deriving DecidableEq

/-- `_fail_task`, `_handle_worker_loop_task_failure` and `_complete_task`. -/
inductive Ender where
  | failTask (e : Raised)
  | workerLoop (e : Raised)
  | completeTask (o : Outcome)
  deriving DecidableEq

/-- Who called `_release_outstanding_slot` or `_resolve_async_waiter`: the except branch of
`submit`, `_finish_execution`, `_fail_pending_tasks` with the tasks it has failed and has
still to fail, or the coroutine itself. -/
inductive Cont where
  | rollback (e : Raised)
  | finish (m : Ender)
  | sweep (done rest : List TaskId)
  | coroutine (q : Query)
  deriving DecidableEq

inductive Report where
  | submitted (job : Job)
  | started (t : TaskId) (request : TaskRequest)
  | ended (t : TaskId) (m : Ender) (request : TaskRequest)
  deriving DecidableEq

/-- Who calls `_notify_waiters`. -/
inductive Notice where
  | submitted (job : Job)
  | stopping (timeout : ℤ) (workers : List ℕ)
  | finished (t : TaskId) (m : Ender)
  | swept (done : List TaskId)
  deriving DecidableEq

inductive Reply where
  | accepted (t : TaskId)
  | response (r : TaskQueryResponse)
  | result (r : TaskResult)
  | stopped
  deriving DecidableEq

inductive Pc where
  | idle | returned (r : Reply) | raised (e : Raised)
  -- start
  | starting (job : Job) | startChecking (job : Job)
  | spawning (job : Job) (index : ℕ) | launching (job : Job) (index k : ℕ)
  -- submit
  | submitting (job : Job) | checkingDuplicate (job : Job) | acquiringSlot (job : Job)
  | addingId (job : Job) | storing (job : Job)
  -- metrics, trace sinks, slots, condition and waiters
  | reporting (k : Report) | tracing (k : Report) (event : TraceEvent)
  | releasing (t : TaskId) (c : Cont) | givingBack (t : TaskId) (c : Cont)
  | notifying (n : Notice)
  | resolving (t : TaskId) (c : Cont) | scheduling (w : WaiterId) (t : TaskId) (c : Cont)
  -- stop
  | stopping (timeout : ℤ) | snapshotting (timeout : ℤ)
  | closingStrategy (timeout : ℤ) (workers : List ℕ)
  | joining (deadline : ℕ) (k : ℕ) (rest : List ℕ) | filtering
  -- _fail_pending_tasks
  | listingIds | listingRecords (ids : Finset TaskId)
  | sweeping (t : TaskId) (done rest : List TaskId)
  -- query
  | querying (q : Query) | reading (q : Query) (locked : Bool)
  | waitChecking (q : Query) (deadline : Option ℕ)
  | blocking (q : Query) (deadline : Option (ℕ × ℕ))
  | waiting (q : Query) (deadline : Option (ℕ × ℕ))
  -- submit_and_wait_async
  | registering (q : Query) | checkingWaiter (q : Query) (w : WaiterId)
  | suspended (q : Query) (w : WaiterId) (deadline : Option ℕ)
  | cleaning (q : Query) (error : Option PlatformError)
  -- _worker_loop
  | unstarted | pullChecking | pulling | pullBlocking | pullWaiting
  | checking (t : TaskId) | running (t : TaskId) (request : TaskRequest)
  | executing (t : TaskId) (request : TaskRequest)
  | addingCallback (t : TaskId) (f : FutureId)
  -- the end of a task
  | uncalled | fetching (t : TaskId) (m : Ender)
  | updating (t : TaskId) (m : Ender) (request : Option TaskRequest)
  -- _worker_exited
  | exiting | removing | leaving | exited
  deriving DecidableEq

def Pc.resting : Pc → Bool
  | .idle | .returned _ | .raised _ => true
  | _ => false

/-! ## Locks -/

inductive Lock where
  | lifecycle | threads | condition
  deriving DecidableEq

variable {ι : Type}

/-- `stop` fails the leftover tasks inside the lifecycle lock, a worker inside the lock of
the thread list. -/
def sweepLock : Thread ι → Lock
  | .client _ => .lifecycle
  | _ => .threads

def Cont.locks (a : Thread ι) : Cont → List Lock
  | .rollback _ => [.lifecycle]
  | .sweep _ _ => [sweepLock a]
  | _ => []

def Report.locks : Report → List Lock
  | .submitted _ => [.lifecycle]
  | _ => []

def Notice.locks (a : Thread ι) : Notice → List Lock
  | .submitted _ | .stopping _ _ => [.lifecycle]
  | .finished _ _ => []
  | .swept _ => [sweepLock a]

/-- The locks that `a` holds at a program counter. -/
def Pc.locks (a : Thread ι) : Pc → List Lock
  | .startChecking _ | .spawning _ _ | .launching _ _ _ | .checkingDuplicate _
  | .acquiringSlot _ | .addingId _ | .storing _ => [.lifecycle]
  | .snapshotting _ | .closingStrategy _ _ | .joining _ _ _ | .filtering => [.lifecycle]
  | .reporting k | .tracing k _ => k.locks
  | .releasing _ c | .givingBack _ c | .resolving _ c | .scheduling _ _ c => c.locks a
  | .notifying n => n.locks a
  | .listingIds | .listingRecords _ | .sweeping _ _ _ => [sweepLock a]
  | .reading _ true | .blocking _ _ | .pulling | .pullBlocking => [.condition]
  | .removing => [.threads]
  | _ => []

/-- The locks that the step from a program counter takes, if only for the step. -/
def Pc.needs : Pc → List Lock
  | .starting _ | .submitting _ | .stopping _ => [.lifecycle]
  | .startChecking _ | .spawning _ _ | .snapshotting _ | .filtering | .exiting => [.threads]
  | .notifying _ | .waitChecking _ _ | .pullChecking => [.condition]
  | _ => []

/-! ## Errors and answers -/

def closedForStart : Raised :=
  .platform ⟨.invalidState, "Scheduler is closed and cannot be started again."⟩

def closedForSubmit : Raised :=
  .platform ⟨.invalidState, "Scheduler is closed and no longer accepts submissions."⟩

def duplicate (t : TaskId) : Raised :=
  .platform ⟨.invalidRequest, "Task '" ++ t ++ "' has already been submitted."⟩

def overloaded (limit : ℕ) : Raised :=
  .platform ⟨.overloaded,
    "Scheduler has reached its outstanding task limit (" ++ toString limit ++ ")."⟩

def negativeTimeout (name : String) : PlatformError :=
  ⟨.invalidArgument, name ++ " must be greater than or equal to zero."⟩

def notFound (t : TaskId) : PlatformError := ⟨.notFound, "Task '" ++ t ++ "' not found."⟩

def timeoutError (t : TaskId) (phase : String) : Option String → PlatformError
  | none => ⟨.timeout, "Timed out waiting for task '" ++ t ++ "' to " ++ phase ++ "."⟩
  | some api => ⟨.timeout,
      api ++ " timed out for task '" ++ t ++ "' while waiting for task to " ++ phase ++ "."⟩

def joinUnstarted : Raised := .other "cannot join thread before it is started"

def overReleased : Raised := .valueError "Semaphore released too many times"

def errorText : Option String → String
  | none => "Task execution failed."
  | some m => if m = "" then "Task execution failed." else m

def Query.respond (q : Query) (r : TaskQueryResponse) : Pc :=
  match q.caller with
  | .query => .returned (.response r)
  | _ =>
    match r.status, r.result with
    | .completed, none =>
      .raised (.platform ⟨.internalError, "Task completed without a result."⟩)
    | .completed, some result => .returned (.result result)
    | _, _ => .raised (.platform ⟨r.errorCode.getD .internalError, errorText r.errorMessage⟩)

def Query.fail (q : Query) (e : PlatformError) : Pc :=
  if q.caller = .submitAndWait ∧ e.code = .timeout then
    .raised (.platform (timeoutError q.task "complete" (some "submit_and_wait")))
  else .raised (.platform e)

/-- An exception leaves `query`. -/
def Query.escape (q : Query) : Raised → Pc
  | .platform e => q.fail e
  | e => .raised e

def executionErrorCode : Raised → ErrorCode
  | .platform e => if e.code = .workerUnavailable then .workerUnavailable else .internalError
  | _ => .internalError

def executionFailed (e : Raised) : Backend.Update where
  status := .failed
  errorCode := some (executionErrorCode e)
  errorMessage := some ("Execution failed: " ++ e.text)

def Ender.update : Ender → Backend.Update
  | .failTask e | .completeTask (.exception e) => executionFailed e
  | .workerLoop e => {
      status := .failed
      errorCode := some .internalError
      errorMessage := some ("Worker loop failed: " ++ e.text) }
  | .completeTask (.result payload) => { status := .completed, result := payload }

def stoppedBeforeStart : Backend.Update where
  status := .failed
  errorCode := some .workerUnavailable
  errorMessage := some "Scheduler stopped before task execution started."

/-! ## What comes next -/

/-- Where a thread goes on when a task has been dealt with. -/
def home : Thread ι → Pc
  | .worker _ => .pullChecking
  | _ => .exited

def afterSweep : Thread ι → Pc
  | .client _ => .returned .stopped
  | _ => .removing

/-- An exception leaves `_fail_pending_tasks`; a worker thread then ends in `_threads`. -/
def abortSweep (e : Raised) : Thread ι → Pc
  | .client _ => .raised e
  | _ => .leaving

def sweepFrom (a : Thread ι) (done : List TaskId) : List TaskId → Pc
  | [] => if done = [] then afterSweep a else .notifying (.swept done)
  | t :: rest => .sweeping t done rest

def joinFrom (deadline : ℕ) : List ℕ → Pc
  | [] => .filtering
  | k :: rest => .joining deadline k rest

def Report.next : Report → Pc
  | .submitted job => .notifying (.submitted job)
  | .started t request => .executing t request
  | .ended t m _ => .releasing t (.finish m)

/-- A sink raised. -/
def Report.escape (e : Raised) : Report → Pc
  | .submitted _ => .raised e
  | .started t _ | .ended t (.failTask _) _ => .fetching t (.workerLoop e)
  | .ended t m _ => .releasing t (.finish m)

/-- `update_status` raised. -/
def Ender.escape (t : TaskId) (e : Raised) : Ender → Pc
  | .failTask _ => .fetching t (.workerLoop e)
  | m => .releasing t (.finish m)

def afterRelease (a : Thread ι) (t : TaskId) : Cont → Pc
  | .rollback e => .raised e
  | .finish m => .notifying (.finished t m)
  | .sweep done rest => .resolving t (.sweep done rest)
  | .coroutine _ => home a

/-- The semaphore's `release` raised. -/
def afterOverRelease (a : Thread ι) (t : TaskId) : Cont → Pc
  | .rollback _ => .raised overReleased
  | .finish (.failTask _) => .fetching t (.workerLoop overReleased)
  | .finish (.workerLoop _) => .exiting
  | .finish (.completeTask _) | .coroutine _ => home a
  | .sweep _ _ => abortSweep overReleased a

def afterResolve (a : Thread ι) (t : TaskId) : Cont → Pc
  | .finish _ | .rollback _ => home a
  | .sweep done rest => sweepFrom a (done ++ [t]) rest
  | .coroutine q => .cleaning q none

def Job.followUp (job : Job) : Pc :=
  match job.after with
  | .return => .returned (.accepted job.task)
  | .wait timeout consume => .querying
      { task := job.task, wait := true, timeout, consume, caller := .submitAndWait }
  | .waitAsync timeout consume => .registering
      { task := job.task, timeout, consume, caller := .submitAndWaitAsync }

def afterNotify (now : ℕ) (a : Thread ι) : Notice → Pc
  | .submitted job => job.followUp
  | .stopping timeout workers => joinFrom (now + timeout.toNat) workers
  | .finished t m => .resolving t (.finish m)
  | .swept _ => afterSweep a

def report (s : Shared ι) : Report → TraceEvent × RuntimeInstrumentation
  | .submitted job => s.instrumentation.recordSubmitted s.clock job.task job.request
  | .started t request => s.instrumentation.recordStarted t request
  | .ended t m request =>
    if m.update.status = .completed then s.instrumentation.recordCompleted s.clock t request
    else s.instrumentation.recordFailed s.clock t request m.update.errorCode
      m.update.errorMessage

/-- The records that `_fail_pending_tasks` collects, if no copy raises. -/
def pendingRecords (b : Backend) (ids : Finset TaskId) : List TaskId :=
  match b.listAll copies with
  | .ok records => (records.filter (fun r => decide (r.taskId ∈ ids ∧ r.status = .pending))).map
      TaskRecord.taskId
  | .error _ => []

def Query.start (q : Query) (now : ℕ) : Pc :=
  match q.timeout with
  | none => .waitChecking q none
  | some d => if d < 0 then q.fail (negativeTimeout "timeout_seconds")
    else .waitChecking q (some (now + d.toNat))

/-- One look at the record under the condition's lock. -/
def Query.look (q : Query) (now : ℕ) (deadline : Option ℕ) : Option TaskRecord → Pc
  | none => q.fail (notFound q.task)
  | some r =>
    if terminal r.status then .reading q true
    else match deadline with
      | none => .blocking q none
      | some d =>
        if d ≤ now then
          q.fail (timeoutError q.task (if r.status = .pending then "start" else "complete") none)
        else .blocking q (some (d, min (d - now) pollIntervalNs))

/-- A submit call returns. -/
def answer (L : Ledger) : Notice → Ledger
  | .submitted job =>
    { L with returns := Function.update L.returns job.task (L.returns job.task + 1) }
  | _ => L

/-! ## Steps -/

/-- A step in which `e` is raised by code outside the scheduler: starting a
thread, the backend's `submit`, a trace sink, the strategy, or `deepcopy` of a record.
`join` raises when a sink or callback on the worker thread has called `stop`. -/
def throwing (s : Shared ι) (a : Thread ι) (e : Raised) : Pc → Option (Shared ι × Pc)
  | .launching _ _ _ => some (s, .raised e)
  | .storing job => some (s, .releasing job.task (.rollback e))
  | .tracing k _ => some (s, k.escape e)
  | .closingStrategy _ _ => if s.strategyClosed then none else some (s, .raised e)
  | .executing t _ => some ({ s with ledger := s.ledger.call t }, .fetching t (.failTask e))
  | .joining _ k _ =>
    if s.worker k = .running ∧ e = joinCurrent then some (s, .raised joinCurrent) else none
  | .listingRecords _ =>
    match s.ledger.backend.listAll fun _ => some e with
    | .ok _ => none
    | .error e => some (s, abortSweep e a)
  | .querying q =>
    match s.ledger.record q.task with
    | none => none
    | some r => if terminal r.status || q.wait then none else some (s, q.escape e)
  | .reading q _ =>
    match (s.ledger.read q.task q.consume fun _ => some e).1 with
    | .ok _ => none
    | .error e =>
      some ({ s with ledger := (s.ledger.read q.task q.consume fun _ => some e).2 }, q.escape e)
  | _ => none

section

variable [DecidableEq ι] (s : Shared ι) (a : Thread ι)

/-- The next step of `a`, when nothing raises and no timeout ends it; `none` where `a` has
to wait for others or has nothing to do. -/
def advance : Pc → Option (Shared ι × Pc)
  | .idle | .returned _ | .raised _ | .exited => none
  | .starting job =>
    some (s, if s.closed then .raised closedForStart else .startChecking job)
  | .startChecking job =>
    if s.threads = [] then some ({ s with stop := false }, .spawning job 0)
    else some (s, .submitting job)
  | .spawning job index =>
    some ({ s with threads := s.threads ++ [s.nextThread], nextThread := s.nextThread + 1 },
      .launching job index s.nextThread)
  | .launching job index k =>
    some ({ s with worker := Function.update s.worker k .running },
      if index + 1 < s.config.numThreads then .spawning job (index + 1) else .submitting job)
  | .submitting job =>
    some (s, if s.accepting then .checkingDuplicate job else .raised closedForSubmit)
  | .checkingDuplicate job =>
    some (s, if (s.ledger.record job.task).isSome then .raised (duplicate job.task)
      else .acquiringSlot job)
  | .acquiringSlot job =>
    if s.free = 0 then some (s, .raised (overloaded s.config.maxOutstandingTasks))
    else some ({ s with free := s.free - 1 }, .addingId job)
  | .addingId job =>
    some ({ s with ledger := { s.ledger with
      outstanding := insert job.task s.ledger.outstanding } }, .storing job)
  | .storing job =>
    some ({ s with ledger := (s.ledger.store job.request job.priority).2 },
      match (s.ledger.store job.request job.priority).1 with
      | .ok () => .reporting (.submitted job)
      | .error e => .releasing job.task (.rollback e))
  | .reporting k =>
    some ({ s with instrumentation := (report s k).2 }, .tracing k (report s k).1)
  | .tracing k event => some ({ s with trace := s.trace ++ [event] }, k.next)
  | .releasing t c =>
    if t ∈ s.ledger.outstanding then
      some ({ s with ledger := { s.ledger with
        outstanding := s.ledger.outstanding.erase t } }, .givingBack t c)
    else some (s, afterRelease a t c)
  | .givingBack t c =>
    if s.free < s.config.maxOutstandingTasks then
      some ({ s with free := s.free + 1 }, afterRelease a t c)
    else some (s, afterOverRelease a t c)
  | .notifying n =>
    some ({ s with waiting := fun _ => false, ledger := answer s.ledger n },
      afterNotify s.clock a n)
  | .resolving t c =>
    match s.asyncWaiters.get? t with
    | none => some (s, afterResolve a t c)
    | some w => some ({ s with asyncWaiters := s.asyncWaiters.pop t }, .scheduling w t c)
  | .scheduling w t c =>
    if s.waiterFuture w = .pending then
      some ({ s with waiterFuture := Function.update s.waiterFuture w .scheduled },
        afterResolve a t c)
    else some (s, afterResolve a t c)
  | .stopping timeout =>
    some ({ s with stop := true, accepting := false, closed := true }, .snapshotting timeout)
  | .snapshotting timeout => some (s, .closingStrategy timeout s.threads)
  | .closingStrategy timeout workers =>
    some ({ s with strategyClosed := true }, .notifying (.stopping timeout workers))
  | .joining deadline k rest =>
    match s.worker k with
    | .unstarted => some (s, .raised joinUnstarted)
    | .running => none
    | .ended => some (s, joinFrom deadline rest)
  | .filtering =>
    let alive := s.threads.filter (fun k => decide (s.worker k = .running))
    some ({ s with threads := alive }, if alive = [] then .listingIds else .returned .stopped)
  | .listingIds => some (s, .listingRecords s.ledger.outstanding)
  | .listingRecords ids => some (s, sweepFrom a [] (pendingRecords s.ledger.backend ids))
  | .sweeping t done rest =>
    some ({ s with ledger := (s.ledger.update s.clock t stoppedBeforeStart).2 },
      match (s.ledger.update s.clock t stoppedBeforeStart).1 with
      | .ok _ => .releasing t (.sweep done rest)
      | .error e => abortSweep e a)
  | .querying q =>
    match s.ledger.record q.task with
    | none => some (s, q.fail (notFound q.task))
    | some r =>
      if terminal r.status then some (s, .reading q false)
      else if q.wait then some (s, q.start s.clock)
      else some (s, q.respond (.fromRecord r))
  | .reading q _ =>
    some ({ s with ledger := (s.ledger.read q.task q.consume copies).2 },
      match (s.ledger.read q.task q.consume copies).1 with
      | .ok none => q.fail (notFound q.task)
      | .ok (some r) => q.respond (.fromRecord r)
      | .error e => q.escape e)
  | .waitChecking q deadline =>
    some (s, q.look s.clock deadline (s.ledger.record q.task))
  | .blocking q deadline =>
    some ({ s with waiting := Function.update s.waiting a true },
      .waiting q (deadline.map fun d => (d.1, s.clock + d.2)))
  | .waiting q deadline =>
    if s.waiting a then none else some (s, .waitChecking q (deadline.map Prod.fst))
  | .registering q =>
    some ({ s with
      asyncWaiters := s.asyncWaiters.set q.task s.nextWaiter
      waiterFuture := Function.update s.waiterFuture s.nextWaiter .pending
      nextWaiter := s.nextWaiter + 1 }, .checkingWaiter q s.nextWaiter)
  | .checkingWaiter q w =>
    some (s, if (s.ledger.record q.task).any (fun r => terminal r.status) then
        .resolving q.task (.coroutine q)
      else .suspended q w (q.timeout.map fun d => s.clock + d.toNat))
  | .suspended q w _ => if s.waiterFuture w = .done then some (s, .cleaning q none) else none
  | .cleaning q error =>
    some ({ s with asyncWaiters := s.asyncWaiters.pop q.task },
      match error with
      | none => .querying q
      | some e => .raised (.platform e))
  | .unstarted =>
    match a with
    | .worker k => if s.worker k = .running then some (s, .pullChecking) else none
    | _ => none
  | .pullChecking => some (s, if s.stop then .exiting else .pulling)
  | .pulling =>
    some ({ s with ledger := s.ledger.pull.2 },
      match s.ledger.pull.1 with
      | none => .pullBlocking
      | some t => .checking t)
  | .pullBlocking => some ({ s with waiting := Function.update s.waiting a true }, .pullWaiting)
  | .pullWaiting => if s.waiting a then none else some (s, .pullChecking)
  | .checking t =>
    some (s, match s.ledger.record t with
      | none => home a
      | some r => if r.status = .pending then .running t r.request else home a)
  | .running t request =>
    some ({ s with ledger := (s.ledger.update s.clock t { status := .running }).2 },
      match (s.ledger.update s.clock t { status := .running }).1 with
      | .ok _ => .reporting (.started t request)
      | .error e => .fetching t (.workerLoop e))
  | .executing t _ =>
    some ({ s with ledger := s.ledger.launch t }, .addingCallback t s.ledger.nextFuture)
  | .addingCallback t f =>
    match (s.ledger.futures f).outcome with
    | none => some ({ s with
        ledger := s.ledger.modify f fun x => { x with registered := true } }, home a)
    | some o => some (s, .fetching t (.completeTask o))
  | .uncalled =>
    match a with
    | .callback f =>
      match (s.ledger.futures f).registered, (s.ledger.futures f).outcome with
      | true, some o => some (s, .fetching (s.ledger.futures f).task (.completeTask o))
      | _, _ => none
    | _ => none
  | .fetching t m =>
    match m, s.ledger.record t with
    | .workerLoop _, none => some (s, .releasing t (.finish m))
    | .workerLoop _, some r =>
      some (s, if terminal r.status then .releasing t (.finish m)
        else .updating t m (some r.request))
    | _, record => some (s, .updating t m (record.map TaskRecord.request))
  | .updating t m request =>
    some ({ s with ledger := (s.ledger.update s.clock t m.update).2 },
      match (s.ledger.update s.clock t m.update).1, request with
      | .error e, _ => m.escape t e
      | .ok _, none => .releasing t (.finish m)
      | .ok _, some request => .reporting (.ended t m request))
  | .exiting =>
    match a with
    | .worker k =>
      if s.stop && s.threads.all (fun j => decide (j = k ∨ s.worker j ≠ .running)) then
        some (s, .listingIds)
      else some ({ s with threads := s.threads.erase k }, .leaving)
    | _ => none
  | .removing =>
    match a with
    | .worker k => some ({ s with threads := s.threads.erase k }, .leaving)
    | _ => none
  | .leaving =>
    match a with
    | .worker k => some ({ s with worker := Function.update s.worker k .ended }, .exited)
    | _ => none

/-- The step in which a wait of `a` times out. -/
def expire : Pc → Option (Shared ι × Pc)
  | .joining deadline k rest =>
    if s.worker k = .running ∧ deadline ≤ s.clock then some (s, joinFrom deadline rest) else none
  | .waiting q deadline =>
    match deadline with
    | none => none
    | some (deadline, wakeAt) =>
      if wakeAt ≤ s.clock then
        some ({ s with waiting := Function.update s.waiting a false },
          .waitChecking q (some deadline))
      else none
  | .suspended q w deadline =>
    match deadline with
    | none => none
    | some deadline =>
      if deadline ≤ s.clock ∧ s.waiterFuture w ≠ .done then
        some ({ s with waiterFuture := Function.update s.waiterFuture w .cancelled },
          .cleaning q (some (timeoutError q.task "complete" (some "submit_and_wait_async"))))
      else none
  | _ => none

end

/-! ## Runs -/

structure State (ι : Type) where
  shared : Shared ι
  locks : Lock → Option (Thread ι)
  pc : Thread ι → Pc

inductive Choice where
  | go | raises (e : Raised) | timeout
  deriving DecidableEq

inductive Call where
  | submit (job : Job)
  | stop (timeout : ℤ)
  | query (q : Query)
  deriving DecidableEq

inductive Event (ι : Type) where
  | call (i : ι) (c : Call)
  | step (a : Thread ι) (c : Choice)
  | resolve (f : FutureId) (o : Outcome)
  | fire (w : WaiterId)
  | tick (d : ℕ)
  deriving DecidableEq

def Call.enter (s : Shared ι) : Call → Shared ι × Pc
  | .submit job => ({ s with ledger := { s.ledger with
      requested := insert job.task s.ledger.requested } }, .starting job)
  | .stop timeout =>
    (s, if timeout < 0 then .raised (.platform (negativeTimeout "timeout")) else .stopping timeout)
  | .query q => (s, .querying { q with caller := .query })

def act [DecidableEq ι] (s : Shared ι) (a : Thread ι) (p : Pc) : Choice → Option (Shared ι × Pc)
  | .go => advance s a p
  | .raises e => throwing s a e p
  | .timeout => expire s a p

section

variable [DecidableEq ι] {s : Shared ι} {a : Thread ι} {e : Raised} {x : Shared ι × Pc}

theorem listing_raises {ids : Finset TaskId}
    (h : act s a (.listingRecords ids) (.raises e) = some x) : ∃ e', x = (s, abortSweep e' a) := by
  simp only [act, throwing] at h
  split at h
  · cases h
  · exact ⟨_, (Option.some.inj h).symm⟩

theorem querying_raises {q : Query} (h : act s a (.querying q) (.raises e) = some x) :
    (∃ r, s.ledger.record q.task = some r ∧ terminal r.status = false ∧ q.wait = false) ∧
    x = (s, q.escape e) := by
  simp only [act, throwing] at h
  split at h
  · cases h
  · rename_i r hr
    split at h
    · cases h
    · rename_i hn
      obtain ⟨ht, hw⟩ := not_or.mp (mt (Bool.or_eq_true _ _).mpr hn)
      exact ⟨⟨r, hr, Bool.not_eq_true _ ▸ ht, Bool.not_eq_true _ ▸ hw⟩, (Option.some.inj h).symm⟩

/-- The read leaves what it leaves when the copy ends. -/
theorem reading_raises {q : Query} {locked : Bool}
    (h : act s a (.reading q locked) (.raises e) = some x) :
    q.consume = false ∧ (∃ r, s.ledger.record q.task = some r ∧ terminal r.status = true) ∧
    x = ({ s with ledger := (s.ledger.read q.task q.consume copies).2 }, q.escape e) := by
  simp only [act, throwing] at h
  split at h
  · cases h
  · rename_i e' hr
    obtain ⟨hc, ⟨r, hg, ht, he⟩, _⟩ := Backend.read_raises hr
    cases he
    refine ⟨hc, ⟨r, hg, ht⟩, (Option.some.inj h).symm.trans ?_⟩
    simp only [Ledger.read, Backend.read_leaves _ _ _ (fun _ => some e) copies]

end

section

variable [DecidableEq ι]

/-- `a` reaches a program counter, and with it takes and gives back locks. -/
def State.goto (s : State ι) (a : Thread ι) (x : Shared ι × Pc) : State ι where
  shared := x.1
  locks l := if l ∈ x.2.locks a then some a else if s.locks l = some a then none else s.locks l
  pc := Function.update s.pc a x.2

@[simp] theorem goto_shared (s : State ι) (a : Thread ι) (x : Shared ι × Pc) :
    (s.goto a x).shared = x.1 := rfl

@[simp] theorem goto_pc (s : State ι) (a : Thread ι) (x : Shared ι × Pc) :
    (s.goto a x).pc a = x.2 := Function.update_self ..

theorem goto_pc_of_ne (s : State ι) {a b : Thread ι} (h : b ≠ a) (x : Shared ι × Pc) :
    (s.goto a x).pc b = s.pc b := Function.update_of_ne h ..

def next (s : State ι) : Event ι → Option (State ι)
  | .call i c =>
    if (s.pc (.client i)).resting then some (s.goto (.client i) (c.enter s.shared)) else none
  | .step a c =>
    if ∀ l ∈ (s.pc a).needs, s.locks l = none then
      (act s.shared a (s.pc a) c).map (s.goto a)
    else none
  | .resolve f o =>
    if f < s.shared.ledger.nextFuture ∧ (s.shared.ledger.futures f).outcome = none then
      some { s with shared := { s.shared with
        ledger := s.shared.ledger.modify f fun x => { x with outcome := some o } } }
    else none
  | .fire w =>
    if s.shared.waiterFuture w = .scheduled then
      some { s with shared := { s.shared with
        waiterFuture := Function.update s.shared.waiterFuture w .done } }
    else none
  | .tick d => some { s with shared := { s.shared with clock := s.shared.clock + d } }

def Step (s : State ι) (e : Event ι) (t : State ι) : Prop := next s e = some t

/-- Records with agreeing indices, and no id queued twice. -/
structure Usable (b : Backend) : Prop where
  wellformed : b.Wellformed
  queued_nodup : b.queued.Nodup

def begin (config : SchedulerConfig) (b : Backend) : State ι where
  shared := created config b
  locks _ := none
  pc
    | .client _ => .idle
    | .worker _ => .unstarted
    | .callback _ => .uncalled

def Init (s : State ι) : Prop := ∃ config b, Usable b ∧ s = begin config b

def system (ι : Type) [DecidableEq ι] : Transitions.System (State ι) (Event ι) := ⟨Init, Step⟩

/-- Each request is submitted at most once, and none that the backend knew before. -/
def Fresh (s : State ι) : Event ι → Prop
  | .call _ (.submit job) => job.task ∉ s.shared.ledger.requested
  | _ => True

end

end SchedulerModel
