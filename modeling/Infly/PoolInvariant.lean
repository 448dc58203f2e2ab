import Infly.PoolFrames

/-! # The invariant of the pool's threads

Which workers a thread holds outside the table, what the supervisor knows of the worker it
restarts, and that the table's bookkeeping holds throughout.
-/
namespace PoolInvariant

open Contracts Config PoolState PoolTables PoolAccounting PoolGroups PoolModel PoolFrames

/-! ## What a program counter holds -/

def UserPc.job : UserPc → Option Registration
  | .ensuring job | .launching job _ _ | .awaiting job _ _ | .publishing job => some job
  | _ => none

/-- The workers of a registration that the loop has still to visit. -/
def UserPc.pending : UserPc → List Ref
  | .ensuring job => job.workers
  | .launching _ r rest | .awaiting _ r rest => r :: rest
  | _ => []

def UserPc.unlaunched : UserPc → List Ref
  | .ensuring job => job.workers
  | .launching _ r rest => r :: rest
  | _ => []

/-- Workers outside the table that only this thread will stop. -/
def UserPc.owned : UserPc → List Ref
  | .ensuring job | .launching job _ _ | .awaiting job _ _ | .publishing job => job.workers
  | .disposing _ r rest _ => r :: rest
  | _ => []

def UserPc.closes : UserPc → Bool
  | .closeSignalling | .closeProbing _ _ | .closeStopping _ _ _ | .closeResultStopping
  | .closeJoiningResult | .closeJoiningSupervisor | .closeTaking | .closeFailing _ _
  | .closeClosingQueue _ _ | .closeJoiningQueue _ _ | .closeClosingResult | .closeStoppingLogs
  | .closeCompleting => true
  | _ => false

def UserPc.inspects : UserPc → List Ref
  | .closeProbing r rest | .closeStopping _ r rest | .closeClosingQueue r rest
  | .closeJoiningQueue r rest => r :: rest
  | _ => []

def SupervisorPc.refs : SupervisorPc → List Ref
  | .inspecting r rd | .handlingExit r rd | .failing _ _ r rd | .dispatching r rd
  | .scheduling r rd | .restarting r rd | .recording r rd | .relaunching r rd | .awaiting r rd
  | .markingReady r rd | .completing r rd | .stopping _ r rd | .rescheduling r rd
  | .shutdownFlagging r rd | .shutdownSignalling r rd | .shutdownStopping _ _ _ r rd
  | .shutdownTaking r rd | .shutdownFailing _ _ r rd | .shutdownLogging r rd => r :: rd.todo
  | .waiting | .checking _ | .hanging | .stopped | .crashed _ => []

/-- The worker under restart, until it is alive again. -/
def SupervisorPc.restarts : SupervisorPc → Option Ref
  | .restarting r _ | .recording r _ | .relaunching r _ | .awaiting r _ | .markingReady r _
  | .stopping _ r _ | .rescheduling r _ => some r
  | _ => none

def SupervisorPc.awaits : SupervisorPc → Option Ref
  | .awaiting r _ | .markingReady r _ => some r
  | _ => none

def SupervisorPc.shutsDown : SupervisorPc → Bool
  | .shutdownSignalling _ _ | .shutdownStopping _ _ _ _ _ | .shutdownTaking _ _
  | .shutdownFailing _ _ _ _ | .shutdownLogging _ _ | .hanging => true
  | _ => false

def SupervisorPc.stops : SupervisorPc → List Ref
  | .shutdownStopping _ w rest _ _ => w :: rest
  | _ => []

structure Registering (p : Pool) (pc : UserPc) (job : Registration) : Prop where
  fresh : Fresh p job.group job.workers
  pending : ∀ r ∈ UserPc.pending pc, r ∈ job.workers
  usable : ∀ r ∈ job.workers, r ∉ UserPc.unlaunched pc → UsableHandle (p.heap r)

variable {ι : Type}

structure Invariant (s : State ι) : Prop where
  consistent : Consistent s.pool
  finished : s.pool.closeComplete = true → s.pool.closing = true
  jobs : ∀ i job, UserPc.job (s.user i) = some job → Registering s.pool (s.user i) job
  outside : ∀ i, ∀ r ∈ UserPc.owned (s.user i), r < s.pool.nextRef ∧ ¬ InTable s.pool r
  disjoint : ∀ i j r, r ∈ UserPc.owned (s.user i) → r ∈ UserPc.owned (s.user j) → i = j
  closers : ∀ i, UserPc.closes (s.user i) = true →
    s.pool.closing = true ∧ ∀ r ∈ UserPc.inspects (s.user i), InTable s.pool r
  known : ∀ r ∈ SupervisorPc.refs s.supervisor, r < s.pool.nextRef ∧
    ∀ i job, UserPc.job (s.user i) = some job → r ∉ job.workers
  dead : ∀ r, SupervisorPc.restarts s.supervisor = some r → (s.pool.heap r).alive = false
  launched : ∀ r, SupervisorPc.awaits s.supervisor = some r → InTable s.pool r →
    s.pool.closing = false → UsableHandle (s.pool.heap r)
  shutdown : SupervisorPc.shutsDown s.supervisor = true →
    s.pool.closing = true ∧ ∀ r ∈ SupervisorPc.stops s.supervisor, InTable s.pool r

theorem job_owned {pc : UserPc} {job : Registration} (h : UserPc.job pc = some job) :
    UserPc.owned pc = job.workers := by
  cases pc <;> simp [UserPc.job] at h <;> simp [UserPc.owned, h]

/-! ### Entering a loop -/

variable {job : Registration} {l workers : List Ref}

@[simp] theorem awaitFrom_job : UserPc.job (awaitFrom job l) = some job := by
  cases l <;> rfl
@[simp] theorem awaitFrom_unlaunched : UserPc.unlaunched (awaitFrom job l) = [] := by
  cases l <;> rfl
@[simp] theorem awaitFrom_pending : UserPc.pending (awaitFrom job l) = l := by
  cases l <;> rfl
@[simp] theorem launchFrom_job : UserPc.job (launchFrom job l) = some job := by
  cases l with
  | nil => exact awaitFrom_job
  | cons _ _ => rfl
@[simp] theorem launchFrom_unlaunched : UserPc.unlaunched (launchFrom job l) = l := by
  cases l with
  | nil => exact awaitFrom_unlaunched
  | cons _ _ => rfl
theorem launchFrom_pending {r : Ref} (h : r ∈ UserPc.pending (launchFrom job l)) :
    r ∈ l ∨ r ∈ job.workers := by
  cases l with
  | nil => simp only [launchFrom, awaitFrom_pending] at h; exact Or.inr h
  | cons _ _ => exact Or.inl h

@[simp] theorem failFrom_job (l : List FutureId) (e : PlatformError) :
    UserPc.job (failFrom l e) = none := by cases l <;> rfl
@[simp] theorem failFrom_owned (l : List FutureId) (e : PlatformError) :
    UserPc.owned (failFrom l e) = [] := by cases l <;> rfl
@[simp] theorem failFrom_closes (l : List FutureId) (e : PlatformError) :
    UserPc.closes (failFrom l e) = false := by cases l <;> rfl

@[simp] theorem disposeFrom_job (a : AfterDispose) : UserPc.job (disposeFrom l a) = none := by
  cases l with
  | nil =>
    cases a with
    | raise _ => rfl
    | failFutures l e => exact failFrom_job l e
  | cons _ _ => rfl

@[simp] theorem disposeFrom_owned (a : AfterDispose) : UserPc.owned (disposeFrom l a) = l := by
  cases l with
  | nil =>
    cases a with
    | raise _ => rfl
    | failFutures l e => exact failFrom_owned l e
  | cons _ _ => rfl

@[simp] theorem disposeFrom_closes (a : AfterDispose) :
    UserPc.closes (disposeFrom l a) = false := by
  cases l with
  | nil =>
    cases a with
    | raise _ => rfl
    | failFutures l e => exact failFrom_closes l e
  | cons _ _ => rfl

@[simp] theorem awaitFrom_owned : UserPc.owned (awaitFrom job l) = job.workers := by
  cases l <;> rfl
@[simp] theorem awaitFrom_closes : UserPc.closes (awaitFrom job l) = false := by
  cases l <;> rfl
@[simp] theorem launchFrom_owned : UserPc.owned (launchFrom job l) = job.workers := by
  cases l with
  | nil => exact awaitFrom_owned
  | cons _ _ => rfl
@[simp] theorem launchFrom_closes : UserPc.closes (launchFrom job l) = false := by
  cases l with
  | nil => exact awaitFrom_closes
  | cons _ _ => rfl

@[simp] theorem closeStopFrom_job : UserPc.job (closeStopFrom l) = none := by cases l <;> rfl
@[simp] theorem closeStopFrom_owned : UserPc.owned (closeStopFrom l) = [] := by cases l <;> rfl
@[simp] theorem closeStopFrom_inspects : UserPc.inspects (closeStopFrom l) = l := by
  cases l <;> rfl
@[simp] theorem closeProbeFrom_job : UserPc.job (closeProbeFrom workers l) = none := by
  cases l with
  | nil => exact closeStopFrom_job
  | cons _ _ => rfl
@[simp] theorem closeProbeFrom_owned : UserPc.owned (closeProbeFrom workers l) = [] := by
  cases l with
  | nil => exact closeStopFrom_owned
  | cons _ _ => rfl
theorem closeProbeFrom_inspects {r : Ref}
    (h : r ∈ UserPc.inspects (closeProbeFrom workers l)) : r ∈ l ∨ r ∈ workers := by
  cases l with
  | nil => simp only [closeProbeFrom, closeStopFrom_inspects] at h; exact Or.inr h
  | cons _ _ => exact Or.inl h

@[simp] theorem closeQueuesFrom_job : UserPc.job (closeQueuesFrom l) = none := by
  cases l <;> rfl
@[simp] theorem closeQueuesFrom_owned : UserPc.owned (closeQueuesFrom l) = [] := by
  cases l <;> rfl
@[simp] theorem closeQueuesFrom_inspects : UserPc.inspects (closeQueuesFrom l) = l := by
  cases l <;> rfl
@[simp] theorem closeFailFrom_job (fs : List FutureId) :
    UserPc.job (closeFailFrom workers fs) = none := by
  cases fs with
  | nil => exact closeQueuesFrom_job
  | cons _ _ => rfl
@[simp] theorem closeFailFrom_owned (fs : List FutureId) :
    UserPc.owned (closeFailFrom workers fs) = [] := by
  cases fs with
  | nil => exact closeQueuesFrom_owned
  | cons _ _ => rfl
theorem closeFailFrom_inspects {fs : List FutureId} {r : Ref}
    (h : r ∈ UserPc.inspects (closeFailFrom workers fs)) : r ∈ workers := by
  cases fs with
  | nil => simpa only [closeFailFrom, closeQueuesFrom_inspects] using h
  | cons _ _ => cases h

@[simp] theorem afterLogs_job (x : LogStop) : UserPc.job (afterLogs x) = none := by
  cases x <;> rfl
@[simp] theorem afterLogs_owned (x : LogStop) : UserPc.owned (afterLogs x) = [] := by
  cases x <;> rfl
@[simp] theorem afterLogs_inspects (x : LogStop) : UserPc.inspects (afterLogs x) = [] := by
  cases x <;> rfl

/-- The program counter after one operation on the worker that `close` stops. -/
def afterStop (k : Option StopStep) (r : Ref) (rest : List Ref) : UserPc :=
  k.elim (closeStopFrom rest) (.closeStopping · r rest)

@[simp] theorem elim_afterStop (k : Option StopStep) (r : Ref) (rest : List Ref) :
    k.elim (closeStopFrom rest) (.closeStopping · r rest) = afterStop k r rest := rfl
@[simp] theorem afterStop_job (k : Option StopStep) (r : Ref) (rest : List Ref) :
    UserPc.job (afterStop k r rest) = none := by
  cases k with
  | none => exact closeStopFrom_job
  | some k => rfl
@[simp] theorem afterStop_owned (k : Option StopStep) (r : Ref) (rest : List Ref) :
    UserPc.owned (afterStop k r rest) = [] := by
  cases k with
  | none => exact closeStopFrom_owned
  | some k => rfl
theorem afterStop_inspects {k : Option StopStep} {r w : Ref} {rest : List Ref}
    (h : w ∈ UserPc.inspects (afterStop k r rest)) : w ∈ r :: rest := by
  cases k with
  | none => exact List.mem_cons_of_mem _ (closeStopFrom_inspects (l := rest) ▸ h)
  | some k => exact h

@[simp] theorem roundFrom_refs (now : ℚ) (l : List Ref) :
    SupervisorPc.refs (roundFrom now l) = l := by
  cases l <;> rfl

@[simp] theorem continue_eq (rd : Round) : rd.continue = roundFrom rd.now rd.todo := rfl

@[simp] theorem roundFrom_restarts (now : ℚ) (l : List Ref) :
    SupervisorPc.restarts (roundFrom now l) = none := by
  cases l <;> rfl

@[simp] theorem roundFrom_awaits (now : ℚ) (l : List Ref) :
    SupervisorPc.awaits (roundFrom now l) = none := by
  cases l <;> rfl

@[simp] theorem roundFrom_stops (now : ℚ) (l : List Ref) :
    SupervisorPc.stops (roundFrom now l) = [] := by
  cases l <;> rfl

@[simp] theorem exitFailFrom_refs (r : Ref) (rd : Round) (l : List FutureId) :
    SupervisorPc.refs (exitFailFrom r rd l) = r :: rd.todo := by cases l <;> rfl
@[simp] theorem exitFailFrom_restarts (r : Ref) (rd : Round) (l : List FutureId) :
    SupervisorPc.restarts (exitFailFrom r rd l) = none := by cases l <;> rfl
@[simp] theorem exitFailFrom_awaits (r : Ref) (rd : Round) (l : List FutureId) :
    SupervisorPc.awaits (exitFailFrom r rd l) = none := by cases l <;> rfl
@[simp] theorem exitFailFrom_stops (r : Ref) (rd : Round) (l : List FutureId) :
    SupervisorPc.stops (exitFailFrom r rd l) = [] := by cases l <;> rfl
@[simp] theorem exitFailFrom_shutsDown (r : Ref) (rd : Round) (l : List FutureId) :
    SupervisorPc.shutsDown (exitFailFrom r rd l) = false := by cases l <;> rfl

@[simp] theorem shutdownStopFrom_refs (r : Ref) (rd : Round) (l : List Ref) :
    SupervisorPc.refs (shutdownStopFrom r rd l) = r :: rd.todo := by cases l <;> rfl
@[simp] theorem shutdownStopFrom_restarts (r : Ref) (rd : Round) (l : List Ref) :
    SupervisorPc.restarts (shutdownStopFrom r rd l) = none := by cases l <;> rfl
@[simp] theorem shutdownStopFrom_awaits (r : Ref) (rd : Round) (l : List Ref) :
    SupervisorPc.awaits (shutdownStopFrom r rd l) = none := by cases l <;> rfl
@[simp] theorem shutdownStopFrom_stops (r : Ref) (rd : Round) (l : List Ref) :
    SupervisorPc.stops (shutdownStopFrom r rd l) = l := by cases l <;> rfl

@[simp] theorem shutdownFailFrom_refs (r : Ref) (rd : Round) (l : List FutureId) :
    SupervisorPc.refs (shutdownFailFrom r rd l) = r :: rd.todo := by cases l <;> rfl
@[simp] theorem shutdownFailFrom_restarts (r : Ref) (rd : Round) (l : List FutureId) :
    SupervisorPc.restarts (shutdownFailFrom r rd l) = none := by cases l <;> rfl
@[simp] theorem shutdownFailFrom_awaits (r : Ref) (rd : Round) (l : List FutureId) :
    SupervisorPc.awaits (shutdownFailFrom r rd l) = none := by cases l <;> rfl
@[simp] theorem shutdownFailFrom_stops (r : Ref) (rd : Round) (l : List FutureId) :
    SupervisorPc.stops (shutdownFailFrom r rd l) = [] := by cases l <;> rfl

theorem afterShutdown_refs {rd : Round} {x : LogStop} {w : Ref}
    (h : w ∈ SupervisorPc.refs (afterShutdown rd x)) : w ∈ rd.todo := by
  cases x with
  | returns => exact roundFrom_refs rd.now rd.todo ▸ h
  | raises | hangs => cases h
@[simp] theorem afterShutdown_restarts (rd : Round) (x : LogStop) :
    SupervisorPc.restarts (afterShutdown rd x) = none := by
  cases x with
  | returns => exact roundFrom_restarts _ _
  | raises | hangs => rfl
@[simp] theorem afterShutdown_awaits (rd : Round) (x : LogStop) :
    SupervisorPc.awaits (afterShutdown rd x) = none := by
  cases x with
  | returns => exact roundFrom_awaits _ _
  | raises | hangs => rfl
@[simp] theorem afterShutdown_stops (rd : Round) (x : LogStop) :
    SupervisorPc.stops (afterShutdown rd x) = [] := by
  cases x with
  | returns => exact roundFrom_stops _ _
  | raises | hangs => rfl

/-- The program counters after one operation on a process that the supervisor stops. -/
def afterFailedStop (k : Option StopStep) (r : Ref) (rd : Round) : SupervisorPc :=
  k.elim (.rescheduling r rd) (.stopping · r rd)
def afterShutdownStop (k : Option StopStep) (w : Ref) (rest : List Ref) (r : Ref) (rd : Round) :
    SupervisorPc := k.elim (shutdownStopFrom r rd rest) (.shutdownStopping · w rest r rd)

section AfterStop

variable (k : Option StopStep) (w : Ref) (rest : List Ref) (r : Ref) (rd : Round)

@[simp] theorem elim_afterFailedStop :
    k.elim (.rescheduling r rd) (.stopping · r rd) = afterFailedStop k r rd := rfl
@[simp] theorem elim_afterShutdownStop :
    k.elim (shutdownStopFrom r rd rest) (.shutdownStopping · w rest r rd) =
      afterShutdownStop k w rest r rd := rfl
@[simp] theorem afterFailedStop_refs :
    SupervisorPc.refs (afterFailedStop k r rd) = r :: rd.todo := by cases k <;> rfl
@[simp] theorem afterFailedStop_restarts :
    SupervisorPc.restarts (afterFailedStop k r rd) = some r := by cases k <;> rfl
@[simp] theorem afterFailedStop_awaits :
    SupervisorPc.awaits (afterFailedStop k r rd) = none := by cases k <;> rfl
@[simp] theorem afterFailedStop_stops :
    SupervisorPc.stops (afterFailedStop k r rd) = [] := by cases k <;> rfl
@[simp] theorem afterFailedStop_shutsDown :
    SupervisorPc.shutsDown (afterFailedStop k r rd) = false := by cases k <;> rfl
@[simp] theorem afterShutdownStop_refs :
    SupervisorPc.refs (afterShutdownStop k w rest r rd) = r :: rd.todo := by
  cases k with
  | none => exact shutdownStopFrom_refs _ _ _
  | some k => rfl
@[simp] theorem afterShutdownStop_restarts :
    SupervisorPc.restarts (afterShutdownStop k w rest r rd) = none := by
  cases k with
  | none => exact shutdownStopFrom_restarts _ _ _
  | some k => rfl
@[simp] theorem afterShutdownStop_awaits :
    SupervisorPc.awaits (afterShutdownStop k w rest r rd) = none := by
  cases k with
  | none => exact shutdownStopFrom_awaits _ _ _
  | some k => rfl
theorem afterShutdownStop_stops {v : Ref}
    (h : v ∈ SupervisorPc.stops (afterShutdownStop k w rest r rd)) : v ∈ w :: rest := by
  cases k with
  | none => exact List.mem_cons_of_mem _ (shutdownStopFrom_stops r rd rest ▸ h)
  | some k => exact h

end AfterStop

@[simp] theorem roundFrom_shutsDown (now : ℚ) (l : List Ref) :
    SupervisorPc.shutsDown (roundFrom now l) = false := by
  cases l <;> rfl

/-! ## Steps of a user thread -/

section

variable [DecidableEq ι] {s : State ι} {e : Event ι} {i : ι}

/-- A registration begins with its call; later steps carry it along. -/
theorem job_next {job : Registration} (he : Enabled s e)
    (h : UserPc.job ((next s e).user i) = some job) :
    UserPc.job (s.user i) = some job ∨
      ∃ group names, e = .registerCall i group ∧ (next s e).user i = .ensuring job ∧
        resolveGroupHandlers s.pool group = .ok names ∧
        job = ⟨group, names, (newWorkers s.pool group names).2⟩ ∧
        (next s e).pool = (newWorkers s.pool group names).1 := by
  by_cases ha : Event.actor e = .user i
  swap
  · exact Or.inl (user_frame (s := s) ha ▸ h)
  cases e <;> simp only [Event.actor, Actor.user.injEq, reduceCtorEq] at ha <;> subst ha
  case registerCall i group =>
    simp only [next, registerNext] at h ⊢
    split at h
    · simp [UserPc.job] at h
    · rename_i names hn
      simp only [setUser_self, UserPc.job, Option.some.injEq] at h
      subst h
      exact Or.inr ⟨group, names, rfl, by simp, hn, rfl, rfl⟩
  all_goals
    left
    simp only [Enabled] at he
    simp only [next, ensureNext, launchNext, awaitReadyNext, publishNext, unregisterNext,
      disposeNext, failNext, closeCallNext, closeProbeNext, closeStopNext, closeTakeNext,
      closeFailNext, joinResultNext, closeQueueNext, queuesClosed, closeLogsNext] at h
    revert h
    (repeat' split) <;> intro h <;> first
      | exact h
      | (simp only [setUser_self, elim_afterStop] at h
         first
         | cases h
         | (simp at h; done)
         | (first | rw [he] | rw [he.1]
            first
            | exact h
            | (simp at h; subst h; rfl)))

/-- New workers are owned by whoever registers them; a group's workers pass from the table
to whoever unregisters it. -/
theorem owned_next {r : Ref} (he : Enabled s e) (hp : Consistent s.pool)
    (h : r ∈ UserPc.owned ((next s e).user i)) :
    r ∈ UserPc.owned (s.user i) ∨
      (¬ InTable (next s e).pool r ∧ r < (next s e).pool.nextRef ∧
        (s.pool.nextRef ≤ r ∨ InTable s.pool r)) := by
  by_cases ha : Event.actor e = .user i
  swap
  · exact Or.inl (user_frame (s := s) ha ▸ h)
  cases e <;> simp only [Event.actor, Actor.user.injEq, reduceCtorEq] at ha <;> subst ha
  case registerCall i group =>
    right
    simp only [next, registerNext] at h ⊢
    split at h
    · simp [UserPc.owned] at h
    · simp only [setUser_self, setUser_pool, UserPc.owned] at h ⊢
      obtain ⟨k, hk, rfl⟩ := List.mem_map.mp h
      have := List.mem_range.mp hk
      refine ⟨?_, Nat.add_lt_add_left this _, Or.inl (Nat.le_add_right _ _)⟩
      intro ht
      exact absurd (hp.books.allocated _ ht) (by simp)
  case unregisterCall i g =>
    have hpool := unregisterNext_pool (s := s) (i := i) g
    simp only [next, unregisterNext] at h hpool ⊢
    rcases unregisterLocked_cases hp g with ⟨-, e, hu⟩ | ⟨-, -, -, q, failed, hu, hq⟩
    · simp [hu, UserPc.owned] at h
    · right
      simp only [hu, setUser_self, disposeFrom_owned, setUser_pool] at h ⊢
      have ht := (mem_groupWorkers.mp h).1
      exact ⟨fun hin => (hq.inTable.mp hin).2 h, hq.nextRef.1 ▸ hp.books.allocated _ ht, Or.inr ht⟩
  all_goals
    left
    simp only [Enabled] at he
    simp only [next, ensureNext, launchNext, awaitReadyNext, publishNext, disposeNext, failNext,
      closeCallNext, closeProbeNext, closeStopNext, closeTakeNext, closeFailNext, joinResultNext,
      closeQueueNext, queuesClosed, closeLogsNext] at h
    revert h
    (repeat' split) <;> intro h <;> first
      | exact h
      | (simp only [setUser_self, elim_afterStop] at h
         first
         | (cases h; done)
         | (simp at h; done)
         | (first | rw [he] | rw [he.1]
            first
            | exact h
            | (simp at h; exact h)
            | (simp at h; exact List.mem_cons_of_mem _ h)))

/-- The first step of a `close` by `i`. -/
def callsClose (i : ι) : Event ι → Prop
  | .closeCall j | .closeCallback j | .closeSink j => j = i
  | _ => False

theorem closes_next (he : Enabled s e) (h : UserPc.closes ((next s e).user i) = true) :
    UserPc.closes (s.user i) = true ∨ callsClose i e ∧ (next s e).pool.closing = true ∧
      (next s e).user i = .closeSignalling := by
  by_cases ha : Event.actor e = .user i
  swap
  · exact Or.inl (user_frame (s := s) ha ▸ h)
  cases e <;> simp only [Event.actor, Actor.user.injEq, reduceCtorEq] at ha <;> subst ha
  case closeCall i | closeCallback i | closeSink i =>
    simp only [next, closeCallNext] at h ⊢
    split at h
    · simp [UserPc.closes] at h
    · rename_i hc
      simp [hc, callsClose]
  all_goals
    left
    simp only [Enabled] at he
    simp only [next, registerNext, ensureNext, launchNext, awaitReadyNext, publishNext,
      unregisterNext, disposeNext, failNext, closeProbeNext, closeStopNext, closeTakeNext,
      closeFailNext, joinResultNext, closeQueueNext, queuesClosed, closeLogsNext] at h
    first
    | (rw [he]; rfl)
    | (rw [he.1]; rfl)
    | (revert h
       (repeat' split) <;> intro h <;> first
         | exact h
         | (simp only [setUser_self] at h
            first
            | cases h
            | simp at h))

theorem resting_closes {pc : UserPc} (h : pc.resting = true) : UserPc.closes pc = false := by
  cases pc <;> first | rfl | cases h

theorem resting_job {pc : UserPc} (h : pc.resting = true) : UserPc.job pc = none := by
  cases pc <;> first | rfl | cases h

theorem inspects_closes {pc : UserPc} {r : Ref} (h : r ∈ UserPc.inspects pc) :
    UserPc.closes pc = true := by
  cases pc <;> first | rfl | cases h

/-- What `close` still has to visit was in the table when it looked. -/
theorem inspects_next {r : Ref} (he : Enabled s e)
    (h : r ∈ UserPc.inspects ((next s e).user i)) :
    r ∈ UserPc.inspects (s.user i) ∨ UserPc.closes (s.user i) = true ∧ InTable s.pool r := by
  by_cases ha : Event.actor e = .user i
  swap
  · exact Or.inl (user_frame (s := s) ha ▸ h)
  have hcl : UserPc.closes (s.user i) = true := by
    rcases closes_next he (inspects_closes h) with hc | ⟨-, -, hc⟩
    · exact hc
    · rw [hc] at h; cases h
  have visits : ∀ {l w : List Ref}, r ∈ UserPc.inspects (closeProbeFrom w l) →
      r ∈ l ∨ r ∈ w := closeProbeFrom_inspects
  cases e <;> simp only [Event.actor, Actor.user.injEq, reduceCtorEq] at ha <;> subst ha
  case closeSignal i =>
    simp only [next, setUser_self] at h
    exact Or.inr ⟨hcl, inTable_values.mpr ((visits h).elim (fun h => h) (fun h => h))⟩
  case closeProbe i w rest =>
    simp only [Enabled] at he
    simp only [next, closeProbeNext] at h
    split at h
    · simp [UserPc.inspects] at h
    · rw [setUser_self] at h
      rcases visits h with h | h
      · exact Or.inl (he ▸ List.mem_cons_of_mem _ h)
      · exact Or.inr ⟨hcl, inTable_values.mpr h⟩
  case closeStop i k w rest =>
    simp only [Enabled] at he
    simp only [next, closeStopNext] at h
    split at h
    · simp [UserPc.inspects] at h
    · rw [setUser_self, elim_afterStop] at h
      exact Or.inl (he ▸ afterStop_inspects h)
  case closeTake i =>
    simp only [next, closeTakeNext, setUser_self] at h
    exact Or.inr ⟨hcl, inTable_values.mpr (closeFailFrom_inspects h)⟩
  case closeFail i f rest =>
    simp only [next, closeFailNext, setUser_self] at h
    exact Or.inr ⟨hcl, inTable_values.mpr (closeFailFrom_inspects h)⟩
  case closeQueue i w rest =>
    simp only [Enabled] at he
    simp only [next, closeQueueNext, queuesClosed] at h
    split at h <;> simp only [setUser_self, closeQueuesFrom_inspects] at h
    · exact Or.inl (he ▸ h)
    · exact Or.inl (he ▸ List.mem_cons_of_mem _ h)
  case joinQueue i w rest =>
    simp only [Enabled] at he
    simp only [next, queuesClosed, setUser_self, closeQueuesFrom_inspects] at h
    exact Or.inl (he.1 ▸ List.mem_cons_of_mem _ h)
  case joinResult i timedOut =>
    simp only [next, joinResultNext, setUser_self] at h
    split at h <;> cases h
  case closeLogs i =>
    simp only [next, closeLogsNext, setUser_self, afterLogs_inspects, List.not_mem_nil] at h
  all_goals
    simp only [Enabled] at he
    first
    | (simp [next, UserPc.inspects] at h; done)
    | (rw [he] at hcl; cases hcl)
    | (rw [he.1] at hcl; cases hcl)
    | (rw [resting_closes he] at hcl; cases hcl)
    | (rw [resting_closes he.1] at hcl; cases hcl)

/-! ## Registrations -/

omit [DecidableEq ι] in
/-- Whom a step that names a worker has it from. -/
theorem target_owner (hi : Invariant s) (he : Enabled s e) {r : Ref}
    (h : Event.target e = some r) :
    e = .processExit r ∨ (∃ i, Event.actor e = .user i ∧ r ∈ UserPc.owned (s.user i)) ∨
      InTable s.pool r ∨ Event.actor e = .supervisor ∧ r ∈ SupervisorPc.refs s.supervisor := by
  cases e <;> simp only [Event.target, Option.some.injEq, reduceCtorEq] at h <;> subst h <;>
    simp only [Enabled] at he
  case processExit r => exact Or.inl rfl
  case launch i job r rest o =>
    have hr := (hi.jobs i job (by rw [he]; rfl)).pending r (by rw [he]; exact List.mem_cons_self)
    exact Or.inr (Or.inl ⟨i, rfl, by rw [he]; exact hr⟩)
  case awaitReady i job r rest o =>
    have hr := (hi.jobs i job (by rw [he.1]; rfl)).pending r
      (by rw [he.1]; exact List.mem_cons_self)
    exact Or.inr (Or.inl ⟨i, rfl, by rw [he.1]; exact hr⟩)
  case dispose i k r rest next =>
    exact Or.inr (Or.inl ⟨i, rfl, by rw [he.1]; exact List.mem_cons_self⟩)
  case closeStop i k r rest =>
    exact Or.inr (Or.inr (Or.inl ((hi.closers i (by rw [he]; rfl)).2 r
      (by rw [he]; exact List.mem_cons_self))))
  case closeQueue i r rest =>
    exact Or.inr (Or.inr (Or.inl ((hi.closers i (by rw [he]; rfl)).2 r
      (by rw [he]; exact List.mem_cons_self))))
  case joinQueue i r rest =>
    exact Or.inr (Or.inr (Or.inl ((hi.closers i (by rw [he.1]; rfl)).2 r
      (by rw [he.1]; exact List.mem_cons_self))))
  case shutdownStop k w rest r rd =>
    exact Or.inr (Or.inr (Or.inl ((hi.shutdown (by rw [he]; rfl)).2 w
      (by rw [he]; exact List.mem_cons_self))))
  all_goals exact Or.inr (Or.inr (Or.inr ⟨rfl, by rw [he]; exact List.mem_cons_self⟩))

theorem exited_kept (w : WorkerState) : Kept w { w with process := some .exited } :=
  ⟨rfl, rfl, fun h => h, fun _ => ⟨.exited, rfl, Or.inr rfl⟩⟩

/-- Other threads leave the workers of a registration alone. -/
theorem job_heap_frame (hi : Invariant s) (he : Enabled s e) {job : Registration}
    (hj : UserPc.job (s.user i) = some job) (ha : Event.actor e ≠ .user i) {r : Ref}
    (hr : r ∈ job.workers) : Kept (s.pool.heap r) ((next s e).pool.heap r) := by
  have hown : r ∈ UserPc.owned (s.user i) := by rw [job_owned hj]; exact hr
  obtain ⟨hlt, hout⟩ := hi.outside i r hown
  by_cases ht : Event.target e = some r
  · rcases target_owner hi he ht with rfl | ⟨j, hactor, hmem⟩ | hin | ⟨-, hmem⟩
    · simpa [next, State.modify] using exited_kept _
    · exact absurd (hi.disjoint i j r hown hmem ▸ hactor) ha
    · exact absurd hin hout
    · exact absurd hr ((hi.known r hmem).2 i job hj)
  · rw [heap_frame hi.consistent hlt hout ht]
    exact Kept.rfl' _

theorem jobs_next (hi : Invariant s) (he : Enabled s e) {job : Registration}
    (h : UserPc.job ((next s e).user i) = some job) :
    Registering (next s e).pool ((next s e).user i) job := by
  have hn := nextRef_frame (e := e) hi.consistent
  rcases job_next he h with hj | ⟨group, names, rfl, hpc, -, rfl, hpool⟩
  swap
  · rw [hpc, hpool]
    refine ⟨⟨⟨s.pool.nextRef, rfl, le_refl _, fun k hk => ?_⟩, fun r hr => ?_, fun r hr => ?_⟩,
      fun r hr => hr, fun r hr hnot => absurd hr hnot⟩
    · simp [newWorkers, hk, newWorker]
    all_goals
      obtain ⟨k, hk, rfl⟩ := List.mem_map.mp hr
      simp [newWorkers, List.mem_range.mp hk, newWorker]
  have reg := hi.jobs i job hj
  by_cases ha : Event.actor e = .user i
  swap
  · rw [user_frame ha]
    have kept := fun r hr => job_heap_frame hi he hj ha (r := r) hr
    exact ⟨reg.fresh.kept hn kept, reg.pending, fun r hr hu => (kept r hr).usable (reg.usable r hr hu)⟩
  cases e <;> simp only [Event.actor, Actor.user.injEq, reduceCtorEq] at ha <;>
    subst ha <;> simp only [Enabled] at he
  case ensure i job' =>
    simp only [he, UserPc.job, Option.some.injEq] at hj
    subst hj
    simp only [next, ensureNext] at h ⊢
    split at h
    · simp [UserPc.job] at h
    · simp only [setUser_self, setUser_pool]
      refine ⟨reg.fresh, fun r hr => ?_, fun r hr hu => ?_⟩
      · exact (launchFrom_pending hr).elim (fun h => h) (fun h => h)
      · exact absurd hr (by simpa using hu)
  case launch i job' r rest o =>
    simp only [he, UserPc.job, Option.some.injEq] at hj
    subst hj
    simp only [next, launchNext] at h ⊢
    split at h
    swap
    · simp at h
    rename_i ho
    subst ho
    have hr : r ∈ job'.workers := reg.pending r (by rw [he]; exact List.mem_cons_self)
    have kept : ∀ r' ∈ job'.workers,
        Kept (s.pool.heap r') ((s.pool.modify r (launchWorker · .started)).heap r') := by
      intro r' hr'
      by_cases e : r' = r
      · subst e
        simpa using ⟨rfl, rfl, fun _ => rfl, fun _ => ⟨.running, rfl, Or.inl rfl⟩⟩
      · simpa [e] using Kept.rfl' _
    simp only [↓reduceIte, setUser_self, setUser_pool, State.modify]
    refine ⟨reg.fresh.kept (le_refl _) kept, fun r' hr' => ?_, fun r' hr' hu => ?_⟩
    · rcases launchFrom_pending hr' with hr' | hr'
      · exact reg.pending r' (by rw [he]; exact List.mem_cons_of_mem _ hr')
      · exact hr'
    · rw [launchFrom_unlaunched] at hu
      by_cases e : r' = r
      · subst e
        simpa using ⟨.running, rfl, Or.inl rfl⟩
      · exact (kept r' hr').usable (reg.usable r' hr' (by rw [he]; simp [UserPc.unlaunched, e, hu]))
  case awaitReady i job' r rest o =>
    simp only [he.1, UserPc.job, Option.some.injEq] at hj
    subst hj
    have none : ∀ r', r' ∉ UserPc.unlaunched (s.user i) := by
      intro r' hr'; rw [he.1] at hr'; cases hr'
    simp only [next, awaitReadyNext] at h ⊢
    split at h
    · simp at h
    · have kept : ∀ r', Kept (s.pool.heap r')
          ((s.pool.modify r (fun w => { w with alive := true })).heap r') := by
        intro r'
        by_cases e : r' = r
        · subst e; simpa using ⟨rfl, rfl, fun h => h, fun h => h⟩
        · simpa [e] using Kept.rfl' _
      simp only [setUser_self, setUser_pool, State.modify]
      refine ⟨reg.fresh.kept (le_refl _) fun r' _ => kept r', fun r' hr' => ?_, fun r' hr' _ => ?_⟩
      · rw [awaitFrom_pending] at hr'
        exact reg.pending r' (by rw [he.1]; exact List.mem_cons_of_mem _ hr')
      · exact (kept r').usable (reg.usable r' hr' (none r'))
    · exact reg
  case publish i job' =>
    simp only [next, publishNext] at h
    split at h
    · simp at h
    · rw [setUser_self] at h; cases h
  all_goals
    first
    | (rw [he] at hj; cases hj)
    | (rw [he.1] at hj; cases hj)
    | (rw [resting_job he] at hj; cases hj)
    | (rw [resting_job he.1] at hj; cases hj)

/-! ## Steps of the supervisor -/

theorem refs_next {r : Ref} (he : Enabled s e) (h : r ∈ SupervisorPc.refs (next s e).supervisor) :
    r ∈ SupervisorPc.refs s.supervisor ∨ InTable s.pool r := by
  by_cases ha : Event.actor e = .supervisor
  swap
  · exact Or.inl (supervisor_frame (s := s) ha ▸ h)
  cases e <;> simp only [Event.actor, reduceCtorEq] at ha <;> simp only [Enabled] at he
  case check now =>
    simp only [next, checkNext] at h
    split at h
    · cases h
    · rw [roundFrom_refs] at h
      exact Or.inr (inTable_values.mpr h)
  case awaitRestart r' rd o =>
    simp only [next, awaitRestartNext] at h
    split at h <;> first | exact Or.inl h | exact Or.inl (he.1 ▸ h)
  all_goals
    left
    simp only [next, waitNext, inspectNext, handleExitNext, exitFailNext, dispatchNext, recordNext,
      relaunchNext, completeNext, stopFailedNext, rescheduleNext, shutdownSignalNext,
      shutdownStopNext, shutdownTakeNext, shutdownFailNext, shutdownLogsNext] at h
    rw [he]
    revert h
    (repeat' split) <;> intro h <;> first
      | exact h
      | cases h
      | exact List.mem_cons_of_mem _ (afterShutdown_refs h)
      | (simp at h; exact List.mem_cons_of_mem _ h)
      | (simp at h; exact List.mem_cons.mpr h)

/-- A worker is dead when its restart begins. -/
theorem restarts_next {r : Ref} (he : Enabled s e)
    (h : SupervisorPc.restarts (next s e).supervisor = some r) :
    (SupervisorPc.restarts s.supervisor = some r ∨ (s.pool.heap r).alive = false) ∧
      ∀ rd, e ≠ .markReady r rd := by
  by_cases ha : Event.actor e = .supervisor
  swap
  · exact ⟨Or.inl (supervisor_frame (s := s) ha ▸ h), by rintro rd rfl; exact ha rfl⟩
  cases e <;> simp only [Event.actor, reduceCtorEq] at ha <;> simp only [Enabled] at he
  case inspect r' rd =>
    refine ⟨Or.inr ?_, by simp⟩
    simp only [next, inspectNext] at h
    revert h
    (repeat' split) <;> intro h <;> first
      | (simp at h; done)
      | cases h
    simp_all
  case awaitRestart r' rd o =>
    refine ⟨Or.inl ?_, by simp⟩
    simp only [next, awaitRestartNext] at h
    split at h <;> first | exact h | exact he.1 ▸ h
  all_goals
    simp only [next, waitNext, checkNext, handleExitNext, exitFailNext, dispatchNext, recordNext,
      relaunchNext, completeNext, stopFailedNext, rescheduleNext, shutdownSignalNext,
      shutdownStopNext, shutdownTakeNext, shutdownFailNext, shutdownLogsNext] at h
    rw [he]
    revert h
    (repeat' split) <;> intro h <;> first
      | cases h; done
      | (simp at h; done)
      | exact ⟨Or.inl h, by simp⟩
      | (simp at h; subst h; exact ⟨Or.inl rfl, by simp⟩)

theorem awaits_next {r : Ref} (he : Enabled s e)
    (h : SupervisorPc.awaits (next s e).supervisor = some r) :
    SupervisorPc.awaits s.supervisor = some r ∨
      (∃ rd, e = .relaunch r rd .started) ∧ skips s.pool r = false := by
  by_cases ha : Event.actor e = .supervisor
  swap
  · exact Or.inl (supervisor_frame (s := s) ha ▸ h)
  cases e <;> simp only [Event.actor, reduceCtorEq] at ha <;> simp only [Enabled] at he
  case relaunch r' rd o =>
    simp only [next, relaunchNext] at h
    split at h
    · simp at h
    · rename_i hskip
      split at h
      · rename_i ho
        subst ho
        cases h
        exact Or.inr ⟨⟨rd, rfl⟩, by simpa using hskip⟩
      · cases h
  case awaitRestart r' rd o =>
    left
    simp only [next, awaitRestartNext] at h
    split at h <;> first | exact h | exact he.1 ▸ h | cases h
  all_goals
    left
    simp only [next, waitNext, checkNext, inspectNext, handleExitNext, exitFailNext, dispatchNext,
      recordNext, completeNext, stopFailedNext, rescheduleNext, shutdownSignalNext,
      shutdownStopNext, shutdownTakeNext, shutdownFailNext, shutdownLogsNext] at h
    revert h
    (repeat' split) <;> intro h <;> first
      | cases h
      | simp at h

theorem shutsDown_next (he : Enabled s e)
    (h : SupervisorPc.shutsDown (next s e).supervisor = true) :
    SupervisorPc.shutsDown s.supervisor = true ∨ (next s e).pool.closing = true ∧
      SupervisorPc.stops (next s e).supervisor = [] := by
  by_cases ha : Event.actor e = .supervisor
  swap
  · exact Or.inl (supervisor_frame (s := s) ha ▸ h)
  cases e <;> simp only [Event.actor, reduceCtorEq] at ha <;> simp only [Enabled] at he
  case shutdownFlag r rd => exact Or.inr ⟨rfl, rfl⟩
  case shutdownSignal | shutdownStop | shutdownTake | shutdownFail | shutdownLogs =>
    exact Or.inl (by rw [he]; rfl)
  case awaitRestart r' rd o =>
    left
    simp only [next, awaitRestartNext] at h
    split at h <;> first | cases h | exact h
  all_goals
    left
    simp only [next, waitNext, checkNext, inspectNext, handleExitNext, exitFailNext, dispatchNext,
      recordNext, relaunchNext, completeNext, stopFailedNext, rescheduleNext] at h
    revert h
    (repeat' split) <;> intro h <;> first
      | cases h
      | simp at h

theorem stops_next {r : Ref} (he : Enabled s e)
    (h : r ∈ SupervisorPc.stops (next s e).supervisor) :
    r ∈ SupervisorPc.stops s.supervisor ∨
      SupervisorPc.shutsDown s.supervisor = true ∧ InTable s.pool r := by
  by_cases ha : Event.actor e = .supervisor
  swap
  · exact Or.inl (supervisor_frame (s := s) ha ▸ h)
  cases e <;> simp only [Event.actor, reduceCtorEq] at ha <;> simp only [Enabled] at he
  case shutdownSignal r' rd =>
    simp only [next, shutdownSignalNext, shutdownStopFrom_stops] at h
    exact Or.inr ⟨by rw [he]; rfl, inTable_values.mpr (List.mem_filter.mp h).1⟩
  case shutdownStop k w rest r' rd =>
    left
    simp only [next, shutdownStopNext] at h
    split at h
    · cases h
    · rw [elim_afterShutdownStop] at h
      exact he ▸ afterShutdownStop_stops _ _ _ _ _ h
  case awaitRestart r' rd o =>
    left
    simp only [next, awaitRestartNext] at h
    split at h <;> first | cases h | exact h
  all_goals
    left
    simp only [next, waitNext, checkNext, inspectNext, handleExitNext, exitFailNext, dispatchNext,
      recordNext, relaunchNext, completeNext, stopFailedNext, rescheduleNext, shutdownTakeNext,
      shutdownFailNext, shutdownLogsNext] at h
    revert h
    (repeat' split) <;> intro h <;> first
      | cases h
      | simp at h

/-! ## The bookkeeping -/

theorem consistent_next (hi : Invariant s) (he : Enabled s e) : Consistent (next s e).pool := by
  have hp := hi.consistent
  cases e <;> simp only [Enabled] at he
  case processExit r =>
    exact hp.modify (f := fun w => { w with process := some .exited }) ⟨rfl, rfl, rfl, rfl, rfl⟩
      (fun _ _ h => h) (fun _ _ _ => ⟨.exited, rfl, Or.inr rfl⟩)
  case registerHandler name =>
    simp only [next, addHandler]
    split
    · exact hp
    · obtain ⟨hb, hg, hr⟩ := hp
      exact ⟨⟨hb.keys, hb.owner, hb.counted, hb.idle, hb.handles, hb.named, hb.allocated, hb.flags⟩,
        hg, ⟨hr.grouped, hr.listed⟩⟩
  case execute q puts =>
    simp only [next, executeNext_pool]
    rcases execute_cases (p := s.pool) puts q s.history.nextFuture
      (fun t => (hp.books.keys t).mp) with
      ⟨r, hr, hlive, -, hnew, weights, cursors, h⟩ | ⟨weights, out, h, -⟩ <;> rw [h]
    · refine ⟨hp.books.assigned (inTable_values.mpr hr) hlive hnew weights cursors, ?_,
        ⟨hp.routed.grouped, hp.routed.listed⟩⟩
      exact hp.grouped.modify (f := fun w => { w with outstanding := w.outstanding + 1 }) (r := r) rfl
    · obtain ⟨hb, hg, hr⟩ := hp
      exact ⟨⟨hb.keys, hb.owner, hb.counted, hb.idle, hb.handles, hb.named, hb.allocated, hb.flags⟩,
        hg, ⟨hr.grouped, hr.listed⟩⟩
  case receive m =>
    simp only [next, receiveNext_pool]
    have hbooks := hp.books.takeResult m
    rcases hp.books.takeResult_eq m with ⟨-, h⟩ | ⟨r, f, -, -, -, h⟩ <;> rw [h] at hbooks ⊢
    · exact hp
    · exact ⟨hbooks,
        hp.grouped.modify (f := fun w => { w with outstanding := w.outstanding - 1 }) (r := r) rfl,
        ⟨hp.routed.grouped, hp.routed.listed⟩⟩
  case registerCall i group =>
    simp only [next, registerNext]
    split
    · exact hp
    · refine ⟨newWorkers_books hp.books _ _, ?_, ⟨hp.routed.grouped, hp.routed.listed⟩⟩
      intro id r hr
      have same := newWorkers_heap (p := s.pool) group (by assumption : List String)
        (hp.books.allocated r ⟨id, hr⟩)
      simp only [setUser_pool, same]
      exact hp.grouped id r hr
  case launch i job r rest o =>
    have hr : r ∈ UserPc.owned (s.user i) :=
      he ▸ (hi.jobs i job (by rw [he]; rfl)).pending r (by rw [he]; exact List.mem_cons_self)
    simp only [next, launchNext]
    split <;> simp only [setUser_pool, modify_pool] <;>
      exact hp.modify_private (hi.outside i r hr).2
  case awaitReady i job r rest o =>
    have hr : r ∈ UserPc.owned (s.user i) :=
      he.1 ▸ (hi.jobs i job (by rw [he.1]; rfl)).pending r (by rw [he.1]; exact List.mem_cons_self)
    simp only [next, awaitReadyNext]
    split <;> first
      | exact hp
      | (simp only [setUser_pool, modify_pool]; exact hp.modify_private (hi.outside i r hr).2)
  case publish i job =>
    simp only [next, publishNext]
    split
    · exact hp
    · rename_i hok
      have reg := hi.jobs i job (by rw [he]; rfl)
      have hnew := ensured_unlisted hok
      have husable : ∀ r ∈ job.workers, UsableHandle (s.pool.heap r) := fun r hr =>
        reg.usable r hr (by rw [he]; simp [UserPc.unlaunched])
      exact ⟨publish_books hp.books hp.grouped reg.fresh hnew husable,
        publish_grouped hp.grouped reg.fresh hnew, publish_routed hp.routed hnew⟩
  case unregisterCall i g =>
    simp only [next, unregisterNext_pool]
    rcases unregisterLocked_cases hp g with ⟨-, e, h⟩ | ⟨-, -, -, q, failed, h, hu⟩ <;> rw [h]
    · exact hp
    · exact hu.consistent
  case dispose i k r rest a =>
    have hr := (hi.outside i r (by rw [he.1]; exact List.mem_cons_self)).2
    simp only [next, disposeNext]
    (repeat' split) <;> first
      | exact hp
      | (simp only [setUser_pool, modify_pool]; exact hp.modify_private hr)
  case closeCall i | closeCallback i | closeSink i =>
    simp only [next, closeCallNext]
    split
    · exact hp
    · exact hp.close
  case closeStop i k r rest =>
    have hc := (hi.closers i (by rw [he]; rfl)).1
    simp only [next, closeStopNext]
    split
    · exact hp
    · rename_i heq
      exact hp.modify (f := fun _ => _) (stopProcess_ok heq).1 (by simp [hc]) (by simp [hc])
  case shutdownStop k w rest r rd =>
    have hc := (hi.shutdown (by rw [he]; rfl)).1
    simp only [next, shutdownStopNext]
    split
    · exact hp
    · rename_i heq
      exact hp.modify (f := fun _ => _) (stopProcess_ok heq).1 (by simp [hc]) (by simp [hc])
  case closeTake | shutdownTake =>
    refine ⟨hp.books.takeAll, ?_, ⟨hp.routed.grouped, hp.routed.listed⟩⟩
    intro id r hr
    have hm : r ∈ s.pool.workers.values := Dict.mem_values.mpr ⟨id, hr⟩
    simp only [next, closeTakeNext, shutdownTakeNext, setUser_pool, takeAllPending, hm, ↓reduceIte]
    exact hp.grouped id r hr
  case closeQueue i r rest | joinQueue i r rest =>
    have closed := hp.modify (f := fun w => { w with taskQueue := false, lifecycleQueue := false })
      (r := r) ⟨rfl, rfl, rfl, rfl, rfl⟩ (fun hc ht ha => ha)
      (fun hc ht ha => hp.books.handles hc r ht ha)
    simp only [next, closeQueueNext, queuesClosed]
    first
      | exact closed
      | (split <;> first
          | exact closed
          | exact hp)
  case handleExit r rd =>
    simp only [next]
    rcases handleExitNext_pool (s := s) r rd with h | ⟨⟨hr, halive⟩, h⟩ <;> rw [h]
    · exact hp
    obtain ⟨weights, h | ⟨hc, e, h⟩⟩ := handleWorkerExit_cases hp.books hr halive <;> rw [h]
    · refine ⟨exited_books hp.books hr weights, ?_, ⟨hp.routed.grouped, hp.routed.listed⟩⟩
      exact (hp.grouped.modify (f := fun w => { w with alive := false }) (r := r) rfl).modify
        (f := fun w => { w with outstanding := 0 }) (r := r) rfl
    · obtain ⟨hb, hg, hr⟩ := hp.modify (f := fun w => { w with alive := false }) (r := r)
        ⟨rfl, rfl, rfl, rfl, rfl⟩ (by simp [hc]) (by simp [hc])
      exact ⟨⟨hb.keys, hb.owner, hb.counted, hb.idle, hb.handles, hb.named, hb.allocated, hb.flags⟩,
        hg, ⟨hr.grouped, hr.listed⟩⟩
  case schedule r rd =>
    obtain ⟨hs, ha, hpr⟩ := scheduleRestart_books (s.pool.heap r) rd.now
    refine hp.modify (f := (scheduleRestart · rd.now)) hs (fun _ _ h => ha ▸ h) fun hc ht h => ?_
    obtain ⟨x, hx, hu⟩ := hp.books.handles hc r ht (ha ▸ h)
    exact ⟨x, hpr.trans hx, hu⟩
  case reschedule r rd =>
    simp only [next, rescheduleNext]
    split
    · exact hp
    · obtain ⟨hs, ha, hpr⟩ := scheduleRestart_books (s.pool.heap r) s.clock
      refine hp.modify (f := (scheduleRestart · s.clock)) hs (fun _ _ h => ha ▸ h) fun hc ht h => ?_
      obtain ⟨x, hx, hu⟩ := hp.books.handles hc r ht (ha ▸ h)
      exact ⟨x, hpr.trans hx, hu⟩
  case record r rd =>
    exact hp.modify (f := fun w => { w with
        nextRestartAt := none, restartTimes := w.restartTimes ++ [s.clock] })
      ⟨rfl, rfl, rfl, rfl, rfl⟩ (fun _ _ h => h) fun hc ht h => hp.books.handles hc r ht h
  case relaunch r rd o =>
    simp only [next, relaunchNext]
    split
    · exact hp
    · rename_i hskip
      simp only [skips, Bool.or_eq_true, bne_iff_ne, ne_eq, not_or, not_not, Bool.not_eq_true]
        at hskip
      exact hp.launch ⟨_, hskip.2⟩ hskip.1.1 (hi.dead r (by rw [he]; rfl)) o
  case markReady r rd =>
    exact hp.modify (f := fun w => { w with alive := true }) ⟨rfl, rfl, rfl, rfl, rfl⟩
      (fun _ _ h => by simp at h) (fun hc ht _ => hi.launched r (by rw [he]; rfl) ht hc)
  case stopFailed k r rd =>
    have hdead := hi.dead r (by rw [he]; rfl)
    simp only [next, stopFailedNext]
    split
    · exact hp
    · rename_i heq
      obtain ⟨hs, -, ha, -⟩ := stopProcess_ok heq
      refine hp.modify (f := fun _ => _) hs (fun _ _ _ => hdead) fun _ _ h => ?_
      rw [ha, hdead] at h
      simp at h
  case shutdownFlag r rd => exact hp.close
  case complete | closeSignal | closeResultStop | closeResult | closeComplete | shutdownSignal =>
    obtain ⟨hb, hg, hr⟩ := hp
    exact ⟨⟨hb.keys, hb.owner, hb.counted, hb.idle, hb.handles, hb.named, hb.allocated, hb.flags⟩,
      hg, ⟨hr.grouped, hr.listed⟩⟩
  all_goals
    simp only [next, deliverNext, ensureNext, failNext, closeProbeNext, joinResultNext,
      closeFailNext, waitNext, checkNext, inspectNext, exitFailNext, dispatchNext, awaitRestartNext,
      shutdownFailNext, shutdownLogsNext]
    (repeat' split) <;> exact hp

/-! ## The invariant -/

/-- A worker in the table was there before, or its registration has just been published. -/
theorem inTable_next (hi : Invariant s) (he : Enabled s e) {r : Ref}
    (h : InTable (next s e).pool r) :
    InTable s.pool r ∨ ∃ i job, e = .publish i job ∧ UserPc.job (s.user i) = some job ∧
      r ∈ job.workers := by
  by_cases hreg : Event.regroups e = false
  · exact Or.inl ((tables_frame hi.consistent.books hreg).inTable.mp h)
  cases e <;> simp only [Event.regroups, not_true_eq_false] at hreg
  case publish i job =>
    simp only [Enabled] at he
    have hj : UserPc.job (s.user i) = some job := by rw [he]; rfl
    simp only [next, publishNext] at h
    split at h
    · exact Or.inl h
    · rename_i hok
      have hnew := ensured_unlisted hok
      obtain ⟨id, hid⟩ := h
      rcases (publish_workers _ (hi.jobs i job hj).fresh hi.consistent.grouped hnew id r).mp hid with
        h | ⟨h, -⟩
      · exact Or.inl ⟨id, h⟩
      · exact Or.inr ⟨i, job, rfl, hj, h⟩
  case unregisterCall i g =>
    simp only [next, unregisterNext_pool] at h
    rcases unregisterLocked_cases hi.consistent g with
      ⟨-, e, hu⟩ | ⟨-, -, -, q, failed, hu, hq⟩ <;> rw [hu] at h
    · exact Or.inl h
    · exact Or.inl (hq.inTable.mp h).1

theorem finished_next (hi : Invariant s) (he : Enabled s e)
    (h : (next s e).pool.closeComplete = true) : (next s e).pool.closing = true := by
  by_cases hc : s.pool.closing = true
  · exact (closing_frame hi.consistent hc).1
  have hopen : s.pool.closeComplete ≠ true := fun h => hc (hi.finished h)
  refine absurd h ?_
  rw [complete_frame hi.consistent]
  · exact hopen
  · rintro i rfl
    simp only [Enabled] at he
    exact absurd (hi.closers i (by rw [he]; rfl)).1 hc

theorem outside_next (hi : Invariant s) (he : Enabled s e) {r : Ref}
    (h : r ∈ UserPc.owned ((next s e).user i)) :
    r < (next s e).pool.nextRef ∧ ¬ InTable (next s e).pool r := by
  rcases owned_next he hi.consistent h with hold | ⟨hnot, hlt, -⟩
  · obtain ⟨hlt, hout⟩ := hi.outside i r hold
    refine ⟨hlt.trans_le (nextRef_frame hi.consistent), fun hin => ?_⟩
    rcases inTable_next hi he hin with hin | ⟨j, job, rfl, hj, hr⟩
    · exact hout hin
    · -- the thread that publishes this worker owns it, and lets go of it now
      have hown : r ∈ UserPc.owned (s.user j) := by rw [job_owned hj]; exact hr
      have hij := hi.disjoint i j r hold hown
      subst hij
      simp only [Enabled] at he
      simp only [next, publishNext] at h hin
      split at h
      · rename_i heq
        simp only [heq, setUser_pool] at hin
        exact hout hin
      · rw [setUser_self] at h
        cases h
  · exact ⟨hlt, hnot⟩

theorem disjoint_next (hi : Invariant s) (he : Enabled s e) {j : ι} {r : Ref}
    (hr : r ∈ UserPc.owned ((next s e).user i)) (hr' : r ∈ UserPc.owned ((next s e).user j)) :
    i = j := by
  have stranger : ∀ {i j : ι}, r ∈ UserPc.owned ((next s e).user i) →
      r ∈ UserPc.owned (s.user j) → i = j := by
    intro i j h h'
    rcases owned_next he hi.consistent h with hold | ⟨-, -, hfresh | hin⟩
    · exact hi.disjoint i j r hold h'
    · exact absurd (hi.outside j r h').1 (Nat.not_lt.mpr hfresh)
    · exact absurd hin (hi.outside j r h').2
  by_cases ha : Event.actor e = .user j
  · by_cases hij : i = j
    · exact hij
    have : Event.actor e ≠ .user i := fun h => hij (Actor.user.inj (h.symm.trans ha))
    rw [user_frame this] at hr
    exact (stranger hr' hr).symm
  · rw [user_frame ha] at hr'
    exact stranger hr hr'

theorem closers_next (hi : Invariant s) (he : Enabled s e)
    (h : UserPc.closes ((next s e).user i) = true) :
    (next s e).pool.closing = true ∧
      ∀ r ∈ UserPc.inspects ((next s e).user i), InTable (next s e).pool r := by
  rcases closes_next he h with hcl | ⟨-, hc, hpc⟩
  · obtain ⟨hc, hall⟩ := hi.closers i hcl
    obtain ⟨hc', htab⟩ := closing_frame (e := e) hi.consistent hc
    refine ⟨hc', fun r hr => htab.inTable.mpr ?_⟩
    rcases inspects_next he hr with hr | ⟨-, hr⟩
    · exact hall r hr
    · exact hr
  · refine ⟨hc, fun r hr => ?_⟩
    rw [hpc] at hr
    cases hr

theorem known_next (hi : Invariant s) (he : Enabled s e) {r : Ref}
    (h : r ∈ SupervisorPc.refs (next s e).supervisor) : r < (next s e).pool.nextRef ∧
      ∀ i job, UserPc.job ((next s e).user i) = some job → r ∉ job.workers := by
  have hlt : r < s.pool.nextRef := by
    rcases refs_next he h with h | h
    · exact (hi.known r h).1
    · exact hi.consistent.books.allocated r h
  refine ⟨hlt.trans_le (nextRef_frame hi.consistent), fun i job hj hr => ?_⟩
  rcases job_next he hj with hj | ⟨group, names, -, -, -, rfl, -⟩
  · rcases refs_next he h with h | h
    · exact (hi.known r h).2 i job hj hr
    · exact (hi.outside i r (by rw [job_owned hj]; exact hr)).2 h
  · obtain ⟨k, -, rfl⟩ := List.mem_map.mp hr
    exact absurd hlt (by simp)

theorem restarts_refs {pc : SupervisorPc} {r : Ref} (h : SupervisorPc.restarts pc = some r) :
    r ∈ SupervisorPc.refs pc := by
  cases pc <;> simp [SupervisorPc.restarts] at h <;> simp [SupervisorPc.refs, h]

theorem awaits_restarts {pc : SupervisorPc} {r : Ref} (h : SupervisorPc.awaits pc = some r) :
    SupervisorPc.restarts pc = some r := by
  cases pc <;> simp [SupervisorPc.awaits] at h <;> simp [SupervisorPc.restarts, h]

theorem dead_next (hi : Invariant s) (he : Enabled s e) {r : Ref}
    (h : SupervisorPc.restarts (next s e).supervisor = some r) :
    ((next s e).pool.heap r).alive = false := by
  obtain ⟨hpc, hmark⟩ := restarts_next he h
  refine alive_frame hi.consistent (hpc.elim (hi.dead r) (fun h => h)) ?_ hmark
  rintro i job rest o rfl
  rw [supervisor_frame (by simp [Event.actor])] at h
  simp only [Enabled] at he
  have hj : UserPc.job (s.user i) = some job := by rw [he.1]; rfl
  exact (hi.known r (restarts_refs h)).2 i job hj
    ((hi.jobs i job hj).pending r (by rw [he.1]; exact List.mem_cons_self))

omit [DecidableEq ι] in
/-- Who may replace or close a worker's handle. -/
theorem rehandles_owner (hi : Invariant s) (he : Enabled s e) {r : Ref}
    (h : Event.rehandles e = some r) :
    (∃ i job rest o, e = .launch i job r rest o ∧ UserPc.job (s.user i) = some job ∧
        r ∈ job.workers) ∨
      (∃ i rest a, e = .dispose i (.stop .close) r rest a ∧ r ∈ UserPc.owned (s.user i)) ∨
      (∃ i rest, e = .closeStop i .close r rest ∧ s.pool.closing = true) ∨
      (∃ rd o, e = .relaunch r rd o) ∨ (∃ rd, e = .stopFailed .close r rd) ∨
      ∃ rest w rd, e = .shutdownStop .close r rest w rd ∧ s.pool.closing = true := by
  unfold Event.rehandles at h
  split at h <;> simp only [Option.some.injEq, reduceCtorEq] at h <;> subst h <;>
    simp only [Enabled] at he
  · rename_i i job r rest o
    have hj : UserPc.job (s.user i) = some job := by rw [he]; rfl
    exact Or.inl ⟨i, job, rest, o, rfl, hj,
      (hi.jobs _ _ hj).pending _ (by rw [he]; exact List.mem_cons_self)⟩
  · exact Or.inr (Or.inr (Or.inr (Or.inl ⟨_, _, rfl⟩)))
  · exact Or.inr (Or.inl ⟨_, _, _, rfl, by rw [he.1]; exact List.mem_cons_self⟩)
  · exact Or.inr (Or.inr (Or.inl ⟨_, _, rfl, (hi.closers _ (by rw [he]; rfl)).1⟩))
  · exact Or.inr (Or.inr (Or.inr (Or.inr (Or.inl ⟨_, rfl⟩))))
  · exact Or.inr (Or.inr (Or.inr (Or.inr (Or.inr
      ⟨_, _, _, rfl, (hi.shutdown (by rw [he]; rfl)).1⟩))))

theorem launched_next (hi : Invariant s) (he : Enabled s e) {r : Ref}
    (h : SupervisorPc.awaits (next s e).supervisor = some r) (ht : InTable (next s e).pool r)
    (hc : (next s e).pool.closing = false) : UsableHandle ((next s e).pool.heap r) := by
  rcases awaits_next he h with hold | ⟨⟨rd, rfl⟩, hskip⟩
  swap
  · simp only [next, relaunchNext, hskip, Bool.false_eq_true, ↓reduceIte, modify_heap,
      Function.update_self]
    exact ⟨.running, rfl, Or.inl rfl⟩
  have hc' : s.pool.closing = false := by
    by_contra hcl
    have := (closing_frame (e := e) hi.consistent (by simpa using hcl)).1
    rw [hc] at this
    cases this
  obtain ⟨hlt, hforeign⟩ := hi.known r (restarts_refs (awaits_restarts hold))
  have ht' : InTable s.pool r := by
    rcases inTable_next hi he ht with ht | ⟨i, job, -, hj, hr⟩
    · exact ht
    · exact absurd hr (hforeign i job hj)
  have hrehandle : Event.rehandles e ≠ some r := by
    intro hre
    rcases rehandles_owner hi he hre with ⟨i, job, rest, o, -, hj, hr⟩ | ⟨i, rest, a, -, hr⟩ |
      ⟨i, rest, -, hcl⟩ | ⟨rd, o, rfl⟩ | ⟨rd, rfl⟩ | ⟨rest, w, rd, -, hcl⟩
    · exact hforeign i job hj hr
    · exact (hi.outside i r hr).2 ht'
    · rw [hc'] at hcl; cases hcl
    · rw [show s.supervisor = .relaunching r rd from he] at hold; cases hold
    · rw [show s.supervisor = .stopping .close r rd from he] at hold; cases hold
    · rw [hc'] at hcl; cases hcl
  obtain ⟨x, hx, hu⟩ := hi.launched r hold ht' hc'
  rcases process_frame hi.consistent hlt hrehandle with hpr | ⟨-, hpr⟩
  · exact ⟨x, hpr.trans hx, hu⟩
  · exact ⟨.exited, hpr, Or.inr rfl⟩

theorem shutdown_next (hi : Invariant s) (he : Enabled s e)
    (h : SupervisorPc.shutsDown (next s e).supervisor = true) :
    (next s e).pool.closing = true ∧
      ∀ r ∈ SupervisorPc.stops (next s e).supervisor, InTable (next s e).pool r := by
  rcases shutsDown_next he h with hs | ⟨hc, hstops⟩
  · obtain ⟨hc, hall⟩ := hi.shutdown hs
    obtain ⟨hc', htab⟩ := closing_frame (e := e) hi.consistent hc
    refine ⟨hc', fun r hr => htab.inTable.mpr ?_⟩
    rcases stops_next he hr with hr | ⟨-, hr⟩
    · exact hall r hr
    · exact hr
  · refine ⟨hc, fun r hr => ?_⟩
    rw [hstops] at hr
    cases hr

theorem invariant_next (hi : Invariant s) (he : Enabled s e) : Invariant (next s e) where
  consistent := consistent_next hi he
  finished := finished_next hi he
  jobs _ _ := jobs_next hi he
  outside _ _ := outside_next hi he
  disjoint _ _ _ := disjoint_next hi he
  closers _ := closers_next hi he
  known _ := known_next hi he
  dead _ := dead_next hi he
  launched _ := launched_next hi he
  shutdown := shutdown_next hi he

omit [DecidableEq ι] in
theorem invariant_started {p : Pool} (hp : Prepared p) (pipe : Pipe) (logs : Logs) :
    Invariant (started p pipe logs : State ι) where
  consistent := hp.consistent
  finished h := by
    rw [show (started p pipe logs : State ι).pool = p from rfl, hp.openFlags.2] at h
    cases h
  jobs i job h := by cases h
  outside i r h := by cases h
  disjoint i j r h := by cases h
  closers i h := by cases h
  known r h := by cases h
  dead r h := by cases h
  launched r h := by cases h
  shutdown h := by cases h

theorem reachable_invariant (h : Reachable s) : Invariant s := by
  refine Transitions.System.invariant ?_ ?_ h
  · rintro s ⟨registry, groups, p, pipe, logs, -, hp, rfl⟩
    exact invariant_started (construct_prepared hp) pipe logs
  · rintro s e t hi ⟨he, rfl⟩
    exact invariant_next hi he

/-! ## Assignments -/

/-- The tables agree in every reachable state, and the guards of the result loop never meet
a mismatch. -/
theorem assignments_agree (h : Reachable s) :
    (∀ t, t ∈ s.pool.assignments.keys ↔ t ∈ s.pool.futures.keys) ∧
      (∀ t id generation, s.pool.assignments.get? t = some (id, generation) →
        ∃ r, s.pool.workers.get? id = some r ∧ (s.pool.heap r).workerId = id ∧
          (s.pool.heap r).generation = generation) ∧
      (∀ id r, s.pool.workers.get? id = some r →
        (s.pool.heap r).outstanding = s.pool.assignments.values.countP (fun a => a.1 == id)) ∧
      ∀ m : WorkerResultMessage,
        s.pool.assignments.get? m.taskId = some (m.workerId, m.generation) →
        ∃ r, s.pool.workers.get? m.workerId = some r ∧ 0 < (s.pool.heap r).outstanding := by
  have hb := (reachable_invariant h).consistent.books
  refine ⟨hb.keys, fun t id g ht => ?_, fun id r hr => ?_, fun m hm => ?_⟩
  · obtain ⟨r, hr, e⟩ := hb.owner t _ ht
    exact ⟨r, hr, Prod.mk.inj e⟩
  · rw [hb.counted id r hr, List.count]
    refine List.countP_congr fun a ha => ?_
    obtain ⟨t, ht⟩ := Dict.mem_values.mp ha
    obtain ⟨r', hr', e⟩ := hb.owner t a ht
    rw [beq_iff_eq, beq_iff_eq]
    constructor
    · rintro rfl
      exact hb.named id r hr
    · rintro rfl
      rw [hr] at hr'
      cases hr'
      exact e.symm
  · obtain ⟨r, hr, hpos, -⟩ := hb.result_guards hm
    exact ⟨r, hr, hpos⟩

end

/-- After a task was given to the only worker. -/
theorem execute_agrees : ∃ s : State Unit,
    s.pool.assignments.get? "t" = some ("g_R0", 1) ∧ "t" ∈ s.pool.futures.keys := by
  have hr : Reachable ([Event.execute { handlerName := "echo", taskId := "t" } []].foldl next
      (started (constructed ["echo"] [sampleGroup])) : State Unit) :=
    reachable_replay (by decide +kernel) (by decide +kernel)
  exact ⟨_, by decide +kernel, ((assignments_agree hr).1 "t").mp (by decide +kernel)⟩

end PoolInvariant
