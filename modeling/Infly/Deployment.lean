import Infly.Simulation
import Infly.SchedulerFutures
import Infly.StaleResults
import Infly.WorkerProcess

/-! # A scheduler over a process pool

The task scheduler, the pool that is its strategy, and the worker processes, as one system. The
scheduler's threads call `execute` and `close` of the pool, a future that the pool settles runs
the scheduler's callback, and the processes answer what is put on their queues, unless it gets
lost on the way.
-/
namespace Deployment

open Contracts Config PoolState StaleResults CacheKey ExecutorCache WorkerProcess SchedulerState
  Transitions

/-- Who calls the pool: operators register and unregister groups or close it, and a client's
`stop` has the scheduler close it. -/
inductive User (ι : Type) where
  | operator (i : ι)
  | client (i : ι)
  deriving DecidableEq

/-- A request that a process took from its queue, and what came of it. -/
structure Service where
  process : Incarnation
  workerId : String
  request : TaskRequest
  execution : ExecutorCache.Execution
  own : Option Code

/-- What the process sends. -/
def Service.reply (v : Service) : WorkerResultMessage :=
  WorkerProcess.reply v.workerId v.process.2 v.request.taskId v.own v.execution.outcome

/-- `launched`: which of the scheduler's futures one of the pool's is; `closing`: the client for
whom `close` was called; `added`: the definitions that the registry has ever held. -/
structure State (ι : Type) where
  scheduler : SchedulerModel.State ι
  wire : Wire (User ι)
  launched : PoolState.FutureId → Option SchedulerState.FutureId := fun _ => none
  closing : Option ι := none
  registry : Registry
  added : List HandlerDefinition
  child : Incarnation → Child
  inbox : Incarnation → List TaskRequest := fun _ => []
  services : List Service := []

variable {ι : Type}

abbrev State.pool (s : State ι) : Pool := s.wire.state.pool
abbrev State.ledger (s : State ι) : Ledger := s.scheduler.shared.ledger
abbrev State.history (s : State ι) : PoolModel.History (User ι) := s.wire.state.history

/-! ## Events -/

inductive Event (ι : Type) where
  | scheduler (e : SchedulerModel.Event ι)
  | execute (a : Thread ι) (putRaises : List String)
  | close (i : ι)
  | closed (i : ι)
  | pool (e : PoolModel.Event (User ι))
  | add (definition : HandlerDefinition)
  | boot (o : Incarnation) (load : String → Option Raised)
  | serve (o : Incarnation) (load : Option Raised) (handle : Except Raised Mapping)
      (own : Option Code)
  | receive (o : Incarnation) (m : WorkerResultMessage)
  | lose (o : Incarnation) (k : ℕ)
  | drop (o : Incarnation) (m : WorkerResultMessage)
  | garble (o : Incarnation) (m : WorkerResultMessage) (e : Raised)

/-- The steps of the scheduler in which the strategy has no part. -/
def aside (s : SchedulerModel.State ι) : SchedulerModel.Event ι → Bool
  | .resolve _ _ => false
  | .step a _ =>
    match s.pc a with
    | .executing _ _ => false
    | .closingStrategy _ _ => s.shared.strategyClosed
    | _ => true
  | _ => true

/-- The steps of the pool that nobody else takes part in. `read` and `drop` tell of a feeder
whether it ends, and are not tied to what the processes serve. -/
def alone : PoolModel.Event (User ι) → Bool
  | .execute _ _ | .receive _ | .resultCrash _ | .registerHandler _ => false
  | .registerCall (.client _) _ | .unregisterCall (.client _) _ => false
  | .closeCall (.client _) | .closeCallback (.client _) | .closeSink (.client _) => false
  | _ => true

/-- What the process has put into its lifecycle queue. -/
def reports : Child → AwaitOutcome → Bool
  | .serving _, .ready => true
  | .refused message, .refused m => m == some message
  | _, .ready | _, .refused _ => false
  | _, _ => true

/-- A wait for READY finds what the process says. -/
def heard (s : State ι) : PoolModel.Event (User ι) → Bool
  | .awaitReady _ _ r _ o | .awaitRestart r _ o => reports (s.child (incarnation s.pool r)) o
  | _ => true

/-- The worker whose process a step starts. -/
def starts (p : Pool) : PoolModel.Event (User ι) → Option Ref
  | .launch _ _ r _ .started => some r
  | .relaunch r _ .started => if PoolModel.skips p r then none else some r
  | _ => none

/-- The future that a step of the pool settles. -/
def settles : PoolModel.Event (User ι) → Option PoolState.FutureId
  | .deliver f _ => f
  | .fail _ f _ _ | .closeFail _ f _ | .exitFail f _ _ _ | .shutdownFail f _ _ _ => some f
  | _ => none

def outcomeOf : PoolModel.Resolution → Outcome
  | .result payload => .result payload
  | .error e => .exception (.platform e)

section

variable [DecidableEq ι] (keys : CacheKeys) (memory : Memory)

/-- The strategy's future is the scheduler's future: it has its outcome at once. -/
def settle (s : State ι) (wire : Wire (User ι)) (g : Option PoolState.FutureId) :
    Option (SchedulerModel.State ι) :=
  match g with
  | none => some s.scheduler
  | some g =>
    match s.launched g, (wire.state.history.resolutions g).getLast? with
    | some f, some res => SchedulerModel.next s.scheduler (.resolve f (outcomeOf res))
    | _, _ => some s.scheduler

/-- `strategy.execute(record.request)` in `_run_task`. -/
def dispatch (s : State ι) (a : Thread ι) (request : TaskRequest) (putRaises : List String) :
    Option (State ι) :=
  let wire := wireNext s.wire (.step (.execute request putRaises))
  let launched := Function.update s.launched s.history.nextFuture (some s.ledger.nextFuture)
  match (PoolState.execute s.pool putRaises request s.history.nextFuture).2 with
  | .assigned r =>
    let o := incarnation s.pool r
    (SchedulerModel.next s.scheduler (.step a .go)).map fun x => { s with
      scheduler := x
      wire := wire
      launched := launched
      inbox := Function.update s.inbox o (s.inbox o ++ [request]) }
  | .rejected e =>
    ((SchedulerModel.next s.scheduler (.step a .go)).bind fun x =>
      SchedulerModel.next x (.resolve s.ledger.nextFuture (.exception (.platform e)))).map
        fun x => { s with scheduler := x, wire := wire, launched := launched }
  | .raised e =>
    (SchedulerModel.next s.scheduler (.step a (.raises e))).map fun x => { s with
      scheduler := x
      wire := wire }

/-- The process of `r` starts with the registry made for it, or has ended. -/
def children (s : State ι) (e : PoolModel.Event (User ι)) :
    Except Raised (Incarnation → Child) :=
  match starts s.pool e, e with
  | some r, _ =>
    (workerRegistry memory s.registry (s.pool.heap r)).map fun registry =>
      Function.update s.child (r, (s.pool.heap r).generation + 1) (.starting registry)
  | none, .processExit r => .ok (Function.update s.child (incarnation s.pool r) .absent)
  | none, _ => .ok s.child

def inboxes (s : State ι) : PoolModel.Event (User ι) → Incarnation → List TaskRequest
  | .processExit r => Function.update s.inbox (incarnation s.pool r) []
  | _ => s.inbox

/-- A step of the pool alone, and what the scheduler and the processes see of it. -/
def poolNext (s : State ι) (e : PoolModel.Event (User ι)) : Option (State ι) :=
  if alone e = true ∧ heard s e = true ∧ PoolModel.Enabled s.wire.state e then
    match children memory s e with
    | .error _ => none
    | .ok child =>
      (settle s (wireNext s.wire (.step e)) (settles e)).map fun x => { s with
        scheduler := x
        wire := wireNext s.wire (.step e)
        child := child
        inbox := inboxes s e }
  else none

/-- One turn of the request loop of `_worker_loop`. -/
def serveNext (s : State ι) (o : Incarnation) (load : Option Raised)
    (handle : Except Raised Mapping) (own : Option Code) : Option (State ι) :=
  match s.child o, s.inbox o with
  | .serving executor, request :: rest =>
    let v : Service := ⟨o, (s.pool.heap o.1).workerId, request,
      (ExecutorCache.execute keys executor request load handle).1, own⟩
    if WireEnabled s.wire (.answer o (v.reply)) then some { s with
      wire := wireNext s.wire (.answer o (v.reply))
      child := Function.update s.child o
        (.serving (ExecutorCache.execute keys executor request load handle).2)
      inbox := Function.update s.inbox o rest
      services := s.services ++ [v] }
    else none
  | _, _ => none

/-- The feeder of the process's queue drops a request. -/
def loseNext (s : State ι) (o : Incarnation) (k : ℕ) : Option (State ι) :=
  match (s.inbox o)[k]? with
  | some request =>
    if WireEnabled s.wire (.lose request.taskId o) then some { s with
      wire := wireNext s.wire (.lose request.taskId o)
      inbox := Function.update s.inbox o ((s.inbox o).eraseIdx k) }
    else none
  | none => none

/-- What becomes of messages in the result queue. -/
def carryNext (s : State ι) (b : WireEvent (User ι)) : Option (State ι) :=
  if WireEnabled s.wire b then some { s with wire := wireNext s.wire b } else none

def closeNext (s : State ι) (i : ι) : Option (State ι) :=
  match s.scheduler.pc (.client i) with
  | .closingStrategy _ _ =>
    if s.scheduler.shared.strategyClosed = false ∧ s.closing = none ∧
        PoolModel.Enabled s.wire.state (.closeCall (.client i)) then some { s with
      wire := wireNext s.wire (.step (.closeCall (.client i)))
      closing := some i }
    else none
  | _ => none

/-- `strategy.close()` returns to `stop`, or raises. -/
def closedNext (s : State ι) (i : ι) : Option (State ι) :=
  if s.closing = some i then
    match s.scheduler.pc (.client i), s.wire.state.user (.client i) with
    | .closingStrategy _ _, .returned =>
      (SchedulerModel.next s.scheduler (.step (.client i) .go)).map fun x =>
        { s with scheduler := x, closing := none }
    | .closingStrategy _ _, .raised e =>
      (SchedulerModel.next s.scheduler (.step (.client i) (.raises e))).map fun x =>
        { s with scheduler := x, closing := none }
    | _, _ => none
  else none

def next (s : State ι) : Event ι → Option (State ι)
  | .scheduler e =>
    if aside s.scheduler e then
      (SchedulerModel.next s.scheduler e).map fun x => { s with scheduler := x }
    else none
  | .execute a putRaises =>
    match s.scheduler.pc a with
    | .executing _ request => dispatch s a request putRaises
    | _ => none
  | .close i => closeNext s i
  | .closed i => closedNext s i
  | .pool e => poolNext memory s e
  | .add definition => some { s with
      registry := s.registry.add definition
      added := s.added ++ [definition]
      wire := wireNext s.wire (.step (.registerHandler definition.handlerName)) }
  | .boot o load =>
    match s.child o with
    | .starting registry => some { s with
        child := Function.update s.child o (WorkerProcess.boot keys registry load) }
    | _ => none
  | .serve o load handle own => serveNext keys s o load handle own
  | .receive o m => carryNext s (.receive o m)
  | .lose o k => loseNext s o k
  | .drop o m => carryNext s (.drop o m)
  | .garble o m e => carryNext s (.garble o m e)

/-! ## Runs -/

def registryOf (definitions : List HandlerDefinition) : Registry :=
  definitions.foldl Registry.add .empty

/-- The process of a worker that the constructor has started. -/
def firstChild (registry : Registry) (w : WorkerState) (load : String → Option Raised) : Child :=
  match workerRegistry memory registry w with
  | .error _ => .absent
  | .ok registry => WorkerProcess.boot keys registry load

/-- The pool is constructed, and then the scheduler, with a backend of its own. -/
def deployed (config : SchedulerConfig) (registry : Registry) (p : Pool) (pipe : PoolModel.Pipe)
    (logs : PoolModel.Logs) (load : Incarnation → String → Option Raised) : State ι where
  scheduler := SchedulerModel.begin config
    { maxRetainedTerminalTasks := config.maxRetainedTerminalTasks }
  wire := quiet (PoolModel.started p pipe logs)
  registry := registry
  added := registry.values
  child o :=
    if o.1 ∈ p.workers.values ∧ o = incarnation p o.1 then
      firstChild keys memory registry (p.heap o.1) (load o)
    else .absent

/-- Every process of the first workers has reported READY. -/
structure Ready (registry : Registry) (groups : List WorkerGroup) (p : Pool)
    (load : Incarnation → String → Option Raised) : Prop where
  construct : PoolState.construct (registry.list.map HandlerDefinition.handlerName) groups = .ok p
  serving : ∀ r ∈ p.workers.values,
    (firstChild keys memory registry (p.heap r) (load (incarnation p r))).isServing = true

def system : System (State ι) (Event ι) where
  init s := ∃ config definitions groups p pipe logs load,
    Ready keys memory (registryOf definitions) groups p load ∧
      s = deployed keys memory config (registryOf definitions) p pipe logs load
  step s e t := next keys memory s e = some t

/-- No id is submitted twice. -/
def Fresh (s : State ι) : Event ι → Prop
  | .scheduler e => SchedulerModel.Fresh s.scheduler e
  | _ => True

instance (s : State ι) (e : Event ι) : Decidable (Fresh s e) :=
  match e with
  | .scheduler e => inferInstanceAs (Decidable (SchedulerModel.Fresh s.scheduler e))
  | .execute _ _ | .close _ | .closed _ | .pool _ | .add _ | .boot _ _ | .serve _ _ _ _
  | .receive _ _ | .lose _ _ | .drop _ _ | .garble _ _ _ => .isTrue trivial

/-! ## What a step does -/

/-- The steps, each with what it needs and what it leaves. -/
inductive Change (s : State ι) : Event ι → State ι → Prop where
  | scheduler (e : SchedulerModel.Event ι) (x : SchedulerModel.State ι)
      (own : aside s.scheduler e = true) (hx : SchedulerModel.Step s.scheduler e x) :
      Change s (.scheduler e) { s with scheduler := x }
  | assigned (a : Thread ι) (putRaises : List String) (t : TaskId) (request : TaskRequest)
      (r : Ref) (x : SchedulerModel.State ι) (hp : s.scheduler.pc a = .executing t request)
      (hr : (PoolState.execute s.pool putRaises request s.history.nextFuture).2 = .assigned r)
      (hx : SchedulerModel.Step s.scheduler (.step a .go) x) :
      Change s (.execute a putRaises) { s with
        scheduler := x
        wire := wireNext s.wire (.step (.execute request putRaises))
        launched := Function.update s.launched s.history.nextFuture (some s.ledger.nextFuture)
        inbox := Function.update s.inbox (incarnation s.pool r)
          (s.inbox (incarnation s.pool r) ++ [request]) }
  | rejected (a : Thread ι) (putRaises : List String) (t : TaskId) (request : TaskRequest)
      (e : PlatformError) (x y : SchedulerModel.State ι)
      (hp : s.scheduler.pc a = .executing t request)
      (hr : (PoolState.execute s.pool putRaises request s.history.nextFuture).2 = .rejected e)
      (hx : SchedulerModel.Step s.scheduler (.step a .go) x)
      (hy : SchedulerModel.Step x (.resolve s.ledger.nextFuture (.exception (.platform e))) y) :
      Change s (.execute a putRaises) { s with
        scheduler := y
        wire := wireNext s.wire (.step (.execute request putRaises))
        launched := Function.update s.launched s.history.nextFuture (some s.ledger.nextFuture) }
  | raised (a : Thread ι) (putRaises : List String) (t : TaskId) (request : TaskRequest)
      (e : Raised) (x : SchedulerModel.State ι) (hp : s.scheduler.pc a = .executing t request)
      (hr : (PoolState.execute s.pool putRaises request s.history.nextFuture).2 = .raised e)
      (hx : SchedulerModel.Step s.scheduler (.step a (.raises e)) x) :
      Change s (.execute a putRaises) { s with
        scheduler := x
        wire := wireNext s.wire (.step (.execute request putRaises)) }
  | close (i : ι) (open_ : s.scheduler.shared.strategyClosed = false)
      (he : PoolModel.Enabled s.wire.state (.closeCall (.client i))) :
      Change s (.close i) { s with
        wire := wireNext s.wire (.step (.closeCall (.client i)))
        closing := some i }
  | closed (i : ι) (c : SchedulerModel.Choice) (timeout : ℤ) (workers : List ℕ)
      (x : SchedulerModel.State ι)
      (hp : s.scheduler.pc (.client i) = .closingStrategy timeout workers)
      (hx : SchedulerModel.Step s.scheduler (.step (.client i) c) x) :
      Change s (.closed i) { s with scheduler := x, closing := none }
  | pool (e : PoolModel.Event (User ι)) (child : Incarnation → Child)
      (x : SchedulerModel.State ι) (own : alone e = true) (hh : heard s e = true)
      (he : PoolModel.Enabled s.wire.state e) (hc : children memory s e = .ok child)
      (hx : settle s (wireNext s.wire (.step e)) (settles e) = some x) :
      Change s (.pool e) { s with
        scheduler := x
        wire := wireNext s.wire (.step e)
        child := child
        inbox := inboxes s e }
  | add (definition : HandlerDefinition) :
      Change s (.add definition) { s with
        registry := s.registry.add definition
        added := s.added ++ [definition]
        wire := wireNext s.wire (.step (.registerHandler definition.handlerName)) }
  | boot (o : Incarnation) (load : String → Option Raised) (registry : Registry)
      (hc : s.child o = .starting registry) :
      Change s (.boot o load) { s with
        child := Function.update s.child o (WorkerProcess.boot keys registry load) }
  | serve (o : Incarnation) (load : Option Raised) (handle : Except Raised Mapping)
      (own : Option Code) (executor executor' : Executor) (request : TaskRequest)
      (rest : List TaskRequest) (v : Service) (hc : s.child o = .serving executor)
      (hi : s.inbox o = request :: rest)
      (hv : v = ⟨o, (s.pool.heap o.1).workerId, request,
        (ExecutorCache.execute keys executor request load handle).1, own⟩)
      (hn : executor' = (ExecutorCache.execute keys executor request load handle).2)
      (he : WireEnabled s.wire (.answer o (v.reply))) :
      Change s (.serve o load handle own) { s with
        wire := wireNext s.wire (.answer o (v.reply))
        child := Function.update s.child o (.serving executor')
        inbox := Function.update s.inbox o rest
        services := s.services ++ [v] }
  | receive (o : Incarnation) (m : WorkerResultMessage)
      (he : WireEnabled s.wire (.receive o m)) :
      Change s (.receive o m) { s with wire := wireNext s.wire (.receive o m) }
  | lose (o : Incarnation) (k : ℕ) (request : TaskRequest) (hi : (s.inbox o)[k]? = some request)
      (he : WireEnabled s.wire (.lose request.taskId o)) :
      Change s (.lose o k) { s with
        wire := wireNext s.wire (.lose request.taskId o)
        inbox := Function.update s.inbox o ((s.inbox o).eraseIdx k) }
  | drop (o : Incarnation) (m : WorkerResultMessage) (he : WireEnabled s.wire (.drop o m)) :
      Change s (.drop o m) { s with wire := wireNext s.wire (.drop o m) }
  | garble (o : Incarnation) (m : WorkerResultMessage) (e : Raised)
      (he : WireEnabled s.wire (.garble o m e)) :
      Change s (.garble o m e) { s with wire := wireNext s.wire (.garble o m e) }

variable {keys : CacheKeys} {memory : Memory} {s t : State ι} {e : Event ι}

theorem dispatch_change {a : Thread ι} {putRaises : List String} {u : TaskId}
    {request : TaskRequest} (hp : s.scheduler.pc a = .executing u request)
    (h : dispatch s a request putRaises = some t) :
    Change keys memory s (.execute a putRaises) t := by
  unfold dispatch at h
  dsimp only at h
  split at h
  · rename_i r hr
    obtain ⟨x, hx, rfl⟩ := Option.map_eq_some_iff.mp h
    exact .assigned a putRaises u request r x hp hr hx
  · rename_i w hr
    obtain ⟨y, hy, rfl⟩ := Option.map_eq_some_iff.mp h
    obtain ⟨x, hx, hy⟩ := Option.bind_eq_some_iff.mp hy
    exact .rejected a putRaises u request w x y hp hr hx hy
  · rename_i w hr
    obtain ⟨x, hx, rfl⟩ := Option.map_eq_some_iff.mp h
    exact .raised a putRaises u request w x hp hr hx

theorem close_change {i : ι} (h : closeNext s i = some t) :
    Change keys memory s (.close i) t := by
  unfold closeNext at h
  split at h
  · split at h
    · rename_i hc
      cases h
      exact .close i hc.1 hc.2.2
    · cases h
  · cases h

theorem closed_change {i : ι} (h : closedNext s i = some t) :
    Change keys memory s (.closed i) t := by
  unfold closedNext at h
  split at h
  · split at h
    · rename_i hp _
      obtain ⟨x, hx, rfl⟩ := Option.map_eq_some_iff.mp h
      exact .closed i .go _ _ x hp hx
    · rename_i hp _
      obtain ⟨x, hx, rfl⟩ := Option.map_eq_some_iff.mp h
      exact .closed i _ _ _ x hp hx
    · cases h
  · cases h

theorem pool_change {b : PoolModel.Event (User ι)} (h : poolNext memory s b = some t) :
    Change keys memory s (.pool b) t := by
  unfold poolNext at h
  split at h
  · rename_i hb
    split at h
    · cases h
    · rename_i child hc
      obtain ⟨x, hx, rfl⟩ := Option.map_eq_some_iff.mp h
      exact .pool b child x hb.1 hb.2.1 hb.2.2 hc hx
  · cases h

theorem serve_change {o : Incarnation} {load : Option Raised} {handle : Except Raised Mapping}
    {own : Option Code} (h : serveNext keys s o load handle own = some t) :
    Change keys memory s (.serve o load handle own) t := by
  unfold serveNext at h
  split at h
  · rename_i executor request rest hc hi
    dsimp only at h
    split at h
    · rename_i he
      cases h
      exact .serve o load handle own executor _ request rest _ hc hi rfl rfl he
    · cases h
  · cases h

theorem lose_change {o : Incarnation} {k : ℕ} (h : loseNext s o k = some t) :
    Change keys memory s (.lose o k) t := by
  unfold loseNext at h
  split at h
  · rename_i request hi
    split at h
    · rename_i he
      cases h
      exact .lose o k request hi he
    · cases h
  · cases h

theorem carry_enabled {b : WireEvent (User ι)} (h : carryNext s b = some t) :
    WireEnabled s.wire b ∧ t = { s with wire := wireNext s.wire b } := by
  unfold carryNext at h
  split at h
  · rename_i he
    cases h
    exact ⟨he, rfl⟩
  · cases h

theorem next_change (h : next keys memory s e = some t) : Change keys memory s e t := by
  cases e with
  | scheduler e =>
    simp only [next] at h
    split at h
    · rename_i own
      obtain ⟨x, hx, rfl⟩ := Option.map_eq_some_iff.mp h
      exact .scheduler e x own hx
    · cases h
  | execute a putRaises =>
    simp only [next] at h
    split at h
    · rename_i u request hp
      exact dispatch_change hp h
    · cases h
  | close i => exact close_change h
  | closed i => exact closed_change h
  | pool b => exact pool_change h
  | add definition =>
    cases h
    exact .add definition
  | boot o load =>
    simp only [next] at h
    split at h
    · rename_i registry hc
      cases h
      exact .boot o load registry hc
    · cases h
  | serve o load handle own => exact serve_change h
  | receive o m =>
    obtain ⟨he, rfl⟩ := carry_enabled h
    exact .receive o m he
  | lose o k => exact lose_change h
  | drop o m =>
    obtain ⟨he, rfl⟩ := carry_enabled h
    exact .drop o m he
  | garble o m w =>
    obtain ⟨he, rfl⟩ := carry_enabled h
    exact .garble o m w he

end

end Deployment
