import Infly.Holders
import Infly.RestartFlags

/-! # Why a future has its outcome

A future of the pool gets the answer of a process, or an error that the pool makes of what
happened to the request. Each such error says what has happened.
-/
namespace Provenance

open Contracts Config PoolState PoolTables PoolAccounting PoolGroups PoolModel PoolFrames
  PoolInvariant PoolDelivery StaleResults Holders Transitions

variable {ι : Type}

def unloadedError (groupName : String) : PlatformError :=
  ⟨.workerUnavailable, "WorkerGroup '" ++ groupName ++ "' was unloaded"⟩

/-- The errors with which `execute` turns a request down. -/
inductive Refusal : PlatformError → Prop where
  | unsubmitted : Refusal ⟨.invalidRequest,
      "TaskRequest must be submitted through TaskScheduler before execution."⟩
  | closed : Refusal ⟨.internalError, "ProcessPoolStrategy is closed"⟩
  | duplicate (t : TaskId) : Refusal ⟨.internalError, "Duplicate task_id: " ++ t⟩
  | undeployed (n : String) :
      Refusal ⟨.workerUnavailable, "No live worker is deployed for handler '" ++ n ++ "'"⟩
  | unsent (n : String) : Refusal ⟨.workerUnavailable,
      "Unable to submit request to a live worker for handler '" ++ n ++ "'"⟩

/-- What brought an outcome about, and what is true of the request then. -/
inductive Cause (s : Wire ι) (g : FutureId) : Resolution → Prop where
  | answered (m : WorkerResultMessage) (received : m ∈ s.state.history.received)
      (accepted : s.state.history.acceptedTask g = some m.taskId) : Cause s g (resolutionOf m)
  | refused (w : PlatformError) (refusal : Refusal w)
      (known : g < s.state.history.nextFuture)
      (accepted : s.state.history.acceptedTask g = none) : Cause s g (.error w)
  | exited (o : Incarnation) (sent : s.sentTo g = some o) (gone : Gone s.state.pool o) :
      Cause s g (.error (exitError (s.state.pool.heap o.1)))
  | unloaded (o : Incarnation) (sent : s.sentTo g = some o) :
      Cause s g (.error (unloadedError (s.state.pool.heap o.1).group.name))
  | shutDown (r : Ref) (known : r < s.state.pool.nextRef)
      (closing : s.state.pool.closing = true) :
      Cause s g (.error (shutdownError (s.state.pool.heap r)))
  | closed (closing : s.state.pool.closing = true) : Cause s g (.error closedError)

/-- The futures that an unload has still to settle, and with what. -/
def UserPc.unloads : UserPc → Option (List FutureId × PlatformError)
  | .disposing _ _ _ (.failFutures futures w) => some (futures, w)
  | .failing f rest w => some (f :: rest, w)
  | _ => none

/-- The worker whose exit is handled, and the futures that have still to be settled for it. -/
def SupervisorPc.exits : SupervisorPc → Option (Ref × List FutureId)
  | .failing f rest r _ => some (r, f :: rest)
  | _ => none

structure Attributed (s : Wire ι) : Prop where
  resolved : ∀ g, ∀ res ∈ s.state.history.resolutions g, Cause s g res
  handling : ∀ r rd, s.state.supervisor = .handlingExit r rd →
    (s.state.pool.heap r).process ≠ some .running
  exiting : ∀ r futures, SupervisorPc.exits s.state.supervisor = some (r, futures) →
    ∀ g ∈ futures, ∃ o, s.sentTo g = some o ∧ o.1 = r ∧ Gone s.state.pool o
  unloading : ∀ i futures w, UserPc.unloads (s.state.user i) = some (futures, w) →
    ∀ g ∈ futures, ∃ o, s.sentTo g = some o ∧
      w = unloadedError (s.state.pool.heap o.1).group.name

theorem execute_refusal {p : Pool} {putRaises : List String} {q : TaskRequest} {f : FutureId}
    {w : PlatformError} (h : (execute p putRaises q f).2 = .rejected w) : Refusal w := by
  rw [execute_eq] at h
  dsimp only at h
  repeat' split at h
  all_goals cases h
  · exact .unsubmitted
  · exact .closed
  · exact .duplicate _
  · exact .undeployed _
  · exact .unsent _

/-! ## Where the threads of the pool are -/

section

variable [DecidableEq ι] {s : State ι} {e : Event ι} {i : ι} {g : FutureId}

/-- The outcome that a step gives to a future. -/
inductive Settles (s : State ι) : Event ι → FutureId → Resolution → Prop where
  | execute (q : TaskRequest) (puts : List String) (w : PlatformError)
      (hx : (execute s.pool puts q s.history.nextFuture).2 = .rejected w) :
      Settles s (.execute q puts) s.history.nextFuture (.error w)
  | deliver (g : FutureId) (m : WorkerResultMessage) :
      Settles s (.deliver (some g) m) g (resolutionOf m)
  | fail (i : ι) (g : FutureId) (rest : List FutureId) (w : PlatformError) :
      Settles s (.fail i g rest w) g (.error w)
  | closeFail (i : ι) (g : FutureId) (rest : List FutureId) :
      Settles s (.closeFail i g rest) g (.error closedError)
  | exitFail (g : FutureId) (rest : List FutureId) (r : Ref) (rd : Round) :
      Settles s (.exitFail g rest r rd) g (.error (exitError (s.pool.heap r)))
  | shutdownFail (g : FutureId) (rest : List FutureId) (r : Ref) (rd : Round) :
      Settles s (.shutdownFail g rest r rd) g (.error (shutdownError (s.pool.heap r)))

omit [DecidableEq ι] in
theorem mem_settle {h : History ι} {f : FutureId} {res x : Resolution}
    (hx : x ∈ (h.settle f res).resolutions g) : x ∈ h.resolutions g ∨ g = f ∧ x = res := by
  unfold History.settle at hx
  dsimp only at hx
  rw [Function.update_apply] at hx
  split at hx
  · rename_i hg
    subst hg
    exact (List.mem_append.mp hx).imp_right fun h => ⟨rfl, List.mem_singleton.mp h⟩
  · exact .inl hx

theorem resolved_next {res : Resolution} (h : res ∈ (next s e).history.resolutions g) :
    res ∈ s.history.resolutions g ∨ Settles s e g res := by
  cases e
  case execute q puts =>
    simp only [next, executeNext] at h
    split at h
    · exact .inl h
    · rename_i hx
      rcases mem_settle h with h | ⟨rfl, rfl⟩
      · exact .inl h
      · exact .inr (.execute q puts _ (congrArg Prod.snd hx))
    · exact .inl h
  case deliver f m =>
    cases f with
    | none => exact .inl h
    | some f =>
      rcases mem_settle h with h | ⟨rfl, rfl⟩
      · exact .inl h
      · exact .inr (.deliver g m)
  case fail i f rest w =>
    rcases mem_settle h with h | ⟨rfl, rfl⟩
    · exact .inl h
    · exact .inr (.fail i g rest w)
  case closeFail i f rest =>
    rcases mem_settle h with h | ⟨rfl, rfl⟩
    · exact .inl h
    · exact .inr (.closeFail i g rest)
  case exitFail f rest r rd =>
    rcases mem_settle h with h | ⟨rfl, rfl⟩
    · exact .inl h
    · exact .inr (.exitFail g rest r rd)
  case shutdownFail f rest r rd =>
    rcases mem_settle h with h | ⟨rfl, rfl⟩
    · exact .inl h
    · exact .inr (.shutdownFail g rest r rd)
  all_goals
    left
    revert h
    simp only [next, receiveNext, registerNext, ensureNext, launchNext, awaitReadyNext, publishNext,
      unregisterNext, disposeNext, closeCallNext, closeProbeNext, closeStopNext, closeTakeNext,
      joinResultNext, closeQueueNext, queuesClosed, closeLogsNext, waitNext, checkNext, inspectNext,
      handleExitNext, dispatchNext, recordNext, relaunchNext, awaitRestartNext, completeNext,
      stopFailedNext, rescheduleNext, shutdownSignalNext, shutdownStopNext, shutdownTakeNext]
    (repeat' split) <;> exact id

theorem failFrom_unloads {futures gs : List FutureId} {w x : PlatformError}
    (h : UserPc.unloads (failFrom futures w) = some (gs, x)) : gs = futures ∧ x = w := by
  cases futures with
  | nil => cases h
  | cons f rest =>
    cases h
    exact ⟨rfl, rfl⟩

theorem disposeFrom_unloads {workers : List Ref} {futures gs : List FutureId}
    {w x : PlatformError}
    (h : UserPc.unloads (disposeFrom workers (.failFutures futures w)) = some (gs, x)) :
    gs = futures ∧ x = w := by
  cases workers with
  | nil => exact failFrom_unloads h
  | cons r rest =>
    cases h
    exact ⟨rfl, rfl⟩

@[simp] theorem disposeFrom_raises {workers : List Ref} {w : Raised} :
    UserPc.unloads (disposeFrom workers (.raise w)) = none := by
  cases workers <;> rfl

@[simp] theorem awaitFrom_unloads {job : Registration} {l : List Ref} :
    UserPc.unloads (awaitFrom job l) = none := by
  cases l <;> rfl

@[simp] theorem launchFrom_unloads {job : Registration} {l : List Ref} :
    UserPc.unloads (launchFrom job l) = none := by
  cases l with
  | nil => exact awaitFrom_unloads
  | cons r rest => rfl

@[simp] theorem closeStopFrom_unloads {l : List Ref} :
    UserPc.unloads (closeStopFrom l) = none := by
  cases l <;> rfl

@[simp] theorem closeProbeFrom_unloads {workers l : List Ref} :
    UserPc.unloads (closeProbeFrom workers l) = none := by
  cases l with
  | nil => exact closeStopFrom_unloads
  | cons r rest => rfl

@[simp] theorem closeQueuesFrom_unloads {l : List Ref} :
    UserPc.unloads (closeQueuesFrom l) = none := by
  cases l <;> rfl

@[simp] theorem closeFailFrom_unloads {workers : List Ref} {l : List FutureId} :
    UserPc.unloads (closeFailFrom workers l) = none := by
  cases l with
  | nil => exact closeQueuesFrom_unloads
  | cons f rest => rfl

@[simp] theorem afterLogs_unloads {x : LogStop} : UserPc.unloads (afterLogs x) = none := by
  cases x <;> rfl

@[simp] theorem afterStop_unloads {k : Option StopStep} {r : Ref} {l : List Ref} :
    UserPc.unloads (afterStop k r l) = none := by
  cases k with
  | none => exact closeStopFrom_unloads
  | some k => rfl

/-- An unload begins with the call; after that it only settles what it took. -/
theorem unloads_next {futures : List FutureId} {w : PlatformError} (he : Enabled s e)
    (h : UserPc.unloads ((next s e).user i) = some (futures, w)) :
    (∃ before, UserPc.unloads (s.user i) = some (before, w) ∧ futures ⊆ before) ∨
      ∃ name p workers, e = .unregisterCall i name ∧
        unregisterLocked s.pool name = (p, .ok (workers, futures)) ∧ w = unloadedError name := by
  by_cases ha : Event.actor e = .user i
  swap
  · rw [user_frame (s := s) ha] at h
    exact .inl ⟨futures, h, List.Subset.refl _⟩
  cases e <;> simp only [Event.actor, Actor.user.injEq, reduceCtorEq] at ha <;> subst ha
  case unregisterCall i name =>
    simp only [next, unregisterNext] at h
    split at h
    · rw [setUser_self] at h
      cases h
    · rename_i p workers failed hx
      rw [setUser_self] at h
      obtain ⟨rfl, rfl⟩ := disposeFrom_unloads h
      exact .inr ⟨name, p, workers, rfl, hx, rfl⟩
  case dispose i k r rest after =>
    left
    have hpc : s.user i = .disposing k r rest after := he.1
    have same : ∀ k', UserPc.unloads (.disposing k' r rest after) = some (futures, w) →
        ∃ before, UserPc.unloads (s.user i) = some (before, w) ∧ futures ⊆ before := by
      intro k' hk
      refine ⟨futures, ?_, List.Subset.refl _⟩
      rw [hpc]
      cases after <;> exact hk
    simp only [next, disposeNext] at h
    revert h
    (repeat' split) <;> intro h <;> simp only [setUser_self] at h
    · exact same _ h
    · cases h
    · exact same _ h
    · cases h
    · exact same _ h
    · cases after with
      | raise x =>
        rw [disposeFrom_raises] at h
        cases h
      | failFutures gs x =>
        obtain ⟨rfl, rfl⟩ := disposeFrom_unloads h
        exact ⟨futures, by rw [hpc]; rfl, List.Subset.refl _⟩
  case fail i f rest x =>
    left
    have hpc : s.user i = .failing f rest x := he
    simp only [next, failNext, setUser_self] at h
    obtain ⟨rfl, rfl⟩ := failFrom_unloads h
    exact ⟨f :: futures, by rw [hpc]; rfl, List.subset_cons_self _ _⟩
  all_goals
    exfalso
    simp only [Enabled] at he
    revert h
    simp only [next, registerNext, ensureNext, launchNext, awaitReadyNext, publishNext,
      closeCallNext, closeProbeNext, closeStopNext, closeTakeNext, joinResultNext, closeQueueNext,
      queuesClosed, closeLogsNext, closeFailNext]
    (repeat' split) <;> intro h <;> first
      | (simp only [setUser_self, elim_afterStop] at h
         first
         | cases h
         | simp at h)
      | (rw [he.1] at h
         cases h)

@[simp] theorem roundFrom_exits {now : ℚ} {l : List Ref} :
    SupervisorPc.exits (roundFrom now l) = none := by
  cases l <;> rfl

theorem exitFailFrom_exits {r r' : Ref} {rd : Round} {l futures : List FutureId}
    (h : SupervisorPc.exits (exitFailFrom r rd l) = some (r', futures)) :
    r' = r ∧ futures = l := by
  cases l with
  | nil => cases h
  | cons f rest =>
    cases h
    exact ⟨rfl, rfl⟩

@[simp] theorem shutdownStopFrom_exits {r : Ref} {rd : Round} {l : List Ref} :
    SupervisorPc.exits (shutdownStopFrom r rd l) = none := by
  cases l <;> rfl

@[simp] theorem shutdownFailFrom_exits {r : Ref} {rd : Round} {l : List FutureId} :
    SupervisorPc.exits (shutdownFailFrom r rd l) = none := by
  cases l <;> rfl

@[simp] theorem afterShutdown_exits {rd : Round} {x : LogStop} :
    SupervisorPc.exits (afterShutdown rd x) = none := by
  cases x with
  | returns => exact roundFrom_exits
  | raises | hangs => rfl

@[simp] theorem afterFailedStop_exits {k : Option StopStep} {r : Ref} {rd : Round} :
    SupervisorPc.exits (afterFailedStop k r rd) = none := by
  cases k <;> rfl

@[simp] theorem afterShutdownStop_exits {k : Option StopStep} {w : Ref} {rest : List Ref}
    {r : Ref} {rd : Round} :
    SupervisorPc.exits (afterShutdownStop k w rest r rd) = none := by
  cases k with
  | none => exact shutdownStopFrom_exits
  | some k => rfl

/-- Futures are settled for an exit from the locked section on that takes them. -/
theorem exits_next {r : Ref} {futures : List FutureId} (hi : Invariant s) (he : Enabled s e)
    (h : SupervisorPc.exits (next s e).supervisor = some (r, futures)) :
    (∃ before, SupervisorPc.exits s.supervisor = some (r, before) ∧ futures ⊆ before) ∨
      ∃ rd weights, e = .handleExit r rd ∧ InTable s.pool r ∧
        futures = (exited s.pool r weights).2 := by
  by_cases ha : Event.actor e = .supervisor
  swap
  · rw [supervisor_frame (s := s) ha] at h
    exact .inl ⟨futures, h, List.Subset.refl _⟩
  cases e <;> simp only [Event.actor, reduceCtorEq] at ha <;> simp only [Enabled] at he
  case handleExit r' rd =>
    right
    simp only [next, handleExitNext] at h
    split at h
    · simp [Round.continue] at h
    · rename_i hskip
      simp only [Bool.or_eq_true, Bool.not_eq_true', bne_iff_ne, ne_eq, not_or, not_not,
        Bool.not_eq_false, Bool.not_eq_true] at hskip
      have table : InTable s.pool r' := ⟨_, hskip.2⟩
      obtain ⟨weights, hexit | ⟨-, x, hexit⟩⟩ :=
        handleWorkerExit_cases hi.consistent.books table hskip.1.1
      · rw [hexit] at h
        obtain ⟨rfl, rfl⟩ := exitFailFrom_exits h
        exact ⟨rd, weights, rfl, table, rfl⟩
      · rw [hexit] at h
        cases h
  case exitFail f rest r' rd =>
    left
    obtain ⟨rfl, rfl⟩ := exitFailFrom_exits h
    exact ⟨f :: futures, by rw [he]; rfl, List.subset_cons_self _ _⟩
  all_goals
    exfalso
    revert h
    simp only [next, waitNext, checkNext, inspectNext, dispatchNext, recordNext, relaunchNext,
      awaitRestartNext, completeNext, stopFailedNext, rescheduleNext, shutdownSignalNext,
      shutdownStopNext, shutdownTakeNext, shutdownFailNext, shutdownLogsNext, Round.continue]
    (repeat' split) <;> intro h <;> first
      | cases h
      | (simp at h)
      | (rw [he.1] at h
         cases h)

@[simp] theorem roundFrom_handling {now : ℚ} {l : List Ref} {r : Ref} {rd : Round} :
    roundFrom now l ≠ .handlingExit r rd := by
  cases l <;> nofun

@[simp] theorem exitFailFrom_handling {r r' : Ref} {rd rd' : Round} {l : List FutureId} :
    exitFailFrom r rd l ≠ .handlingExit r' rd' := by
  cases l <;> nofun

@[simp] theorem shutdownStopFrom_handling {r r' : Ref} {rd rd' : Round} {l : List Ref} :
    shutdownStopFrom r rd l ≠ .handlingExit r' rd' := by
  cases l <;> nofun

@[simp] theorem shutdownFailFrom_handling {r r' : Ref} {rd rd' : Round} {l : List FutureId} :
    shutdownFailFrom r rd l ≠ .handlingExit r' rd' := by
  cases l <;> nofun

@[simp] theorem afterShutdown_handling {r : Ref} {rd rd' : Round} {x : LogStop} :
    afterShutdown rd x ≠ .handlingExit r rd' := by
  cases x with
  | returns => exact roundFrom_handling
  | raises | hangs => nofun

@[simp] theorem afterFailedStop_handling {k : Option StopStep} {r r' : Ref} {rd rd' : Round} :
    afterFailedStop k r rd ≠ .handlingExit r' rd' := by
  cases k <;> nofun

@[simp] theorem afterShutdownStop_handling {k : Option StopStep} {w : Ref} {rest : List Ref}
    {r r' : Ref} {rd rd' : Round} : afterShutdownStop k w rest r rd ≠ .handlingExit r' rd' := by
  cases k with
  | none => exact shutdownStopFrom_handling
  | some k => nofun

omit [DecidableEq ι] in
/-- Closing a handle does not start its process. -/
theorem closed_running {x : Option Process} (h : x.map Process.close = some .running) :
    x = some .running := by
  cases x with
  | none => cases h
  | some x => cases x <;> first
    | rfl
    | cases h

/-- An exit is handled only where the process does not run. -/
theorem handling_next {r : Ref} {rd : Round} (hi : Invariant s)
    (old : ∀ rd, s.supervisor = .handlingExit r rd →
      (s.pool.heap r).process ≠ some .running)
    (he : Enabled s e) (h : (next s e).supervisor = .handlingExit r rd) :
    ((next s e).pool.heap r).process ≠ some .running := by
  by_cases ha : Event.actor e = .supervisor
  · cases e <;> simp only [Event.actor, reduceCtorEq] at ha <;> simp only [Enabled] at he
    case inspect r' rd' =>
      simp only [next, inspectNext, Round.continue] at h ⊢
      split at h
      · exact absurd h roundFrom_handling
      rename_i hskip
      rw [if_neg hskip]
      split at h
      · rename_i halive
        rw [if_pos halive]
        split at h
        · cases h
        · exact absurd h roundFrom_handling
        · rename_i hmap
          cases h
          refine fun hrun => hmap ?_
          rw [show (s.pool.heap r).process = some .running from hrun]
          rfl
      · split at h
        · split at h
          · cases h
          · exact absurd h roundFrom_handling
        · exact absurd h roundFrom_handling
    all_goals
      exfalso
      revert h
      simp only [next, waitNext, checkNext, handleExitNext, exitFailNext, dispatchNext, recordNext,
        relaunchNext, awaitRestartNext, completeNext, stopFailedNext, rescheduleNext,
        shutdownSignalNext, shutdownStopNext, shutdownTakeNext, shutdownFailNext, shutdownLogsNext,
        Round.continue]
      (repeat' split) <;> intro h <;> first
        | cases h
        | (simp at h)
        | (rw [he.1] at h
           cases h)
  · rw [supervisor_frame (s := s) ha] at h
    have hr : r ∈ SupervisorPc.refs s.supervisor := by
      rw [h]
      exact List.mem_cons_self
    obtain ⟨hlt, foreign⟩ := hi.known r hr
    by_cases hre : Event.rehandles e = some r
    · rcases rehandles_owner hi he hre with ⟨i, job, rest, o, rfl, hj, hmem⟩ |
        ⟨i, rest, a, rfl, -⟩ | ⟨i, rest, rfl, -⟩ | ⟨rd', o, rfl⟩ | ⟨rd', rfl⟩ |
        ⟨rest, w, rd', rfl, -⟩
      · exact absurd hmem (foreign i job hj)
      · refine fun hrun => old rd h (closed_running ?_)
        simpa [next, disposeNext, stopProcess, PoolModel.State.modify] using hrun
      · refine fun hrun => old rd h (closed_running ?_)
        simpa [next, closeStopNext, stopProcess, PoolModel.State.modify] using hrun
      all_goals exact absurd rfl ha
    · rcases process_frame hi.consistent hlt hre with hsame | ⟨-, hexit⟩
      · rw [hsame]
        exact old rd h
      · rw [hexit]
        exact fun hrun => by cases hrun

end

/-! ## The invariant -/

section

variable [DecidableEq ι] {s : State ι} {e : Event ι} {g : FutureId}

/-- Messages are only added. -/
theorem received_frame {m : WorkerResultMessage} (h : m ∈ s.history.received) :
    m ∈ (next s e).history.received := by
  cases e
  case receive m' =>
    rw [show (next s (.receive m')).history.received = m' :: s.history.received by
      simp only [next, receiveNext]
      split <;> rfl]
    exact List.mem_cons_of_mem _ h
  all_goals
    simp only [next, executeNext, deliverNext, registerNext, ensureNext, launchNext, awaitReadyNext,
      publishNext, unregisterNext, disposeNext, failNext, closeCallNext, closeProbeNext,
      closeStopNext, closeTakeNext, closeFailNext, joinResultNext, closeQueueNext, queuesClosed,
      closeLogsNext, waitNext, checkNext, inspectNext, handleExitNext, exitFailNext, dispatchNext,
      recordNext, relaunchNext, awaitRestartNext, completeNext, stopFailedNext, rescheduleNext,
      shutdownSignalNext, shutdownStopNext, shutdownTakeNext, shutdownFailNext, shutdownLogsNext]
    (repeat' split) <;> exact h

/-- A future that was turned down is not accepted later. -/
theorem unaccepted_frame (hg : g < s.history.nextFuture) (h : s.history.acceptedTask g = none) :
    (next s e).history.acceptedTask g = none := by
  cases e
  case execute q puts =>
    simp only [next, executeNext]
    split
    · simpa [Nat.ne_of_lt hg] using h
    all_goals exact h
  all_goals
    simp only [next, receiveNext, deliverNext, registerNext, ensureNext, launchNext, awaitReadyNext,
      publishNext, unregisterNext, disposeNext, failNext, closeCallNext, closeProbeNext,
      closeStopNext, closeTakeNext, closeFailNext, joinResultNext, closeQueueNext, queuesClosed,
      closeLogsNext, waitNext, checkNext, inspectNext, handleExitNext, exitFailNext, dispatchNext,
      recordNext, relaunchNext, awaitRestartNext, completeNext, stopFailedNext, rescheduleNext,
      shutdownSignalNext, shutdownStopNext, shutdownTakeNext, shutdownFailNext, shutdownLogsNext]
    (repeat' split) <;> exact h

end

section

variable [DecidableEq ι] {s : Wire ι} {e : WireEvent ι} {o : Incarnation} {g : FutureId}

/-- A worker state keeps its name and its group. -/
theorem role_wire (hp : Consistent s.state.pool) (he : WireEnabled s e) {r : Ref}
    (hr : r < s.state.pool.nextRef) :
    ((wireNext s e).state.pool.heap r).workerId = (s.state.pool.heap r).workerId ∧
      ((wireNext s e).state.pool.heap r).group = (s.state.pool.heap r).group := by
  rcases wire_state he with hs | ⟨b, -, hs⟩ <;> rw [hs]
  · exact ⟨rfl, rfl⟩
  · exact ⟨(worker_frame hp hr).workerId, (worker_frame hp hr).group⟩

theorem closing_wire (hp : Consistent s.state.pool) (he : WireEnabled s e)
    (h : s.state.pool.closing = true) : (wireNext s e).state.pool.closing = true := by
  rcases wire_state he with hs | ⟨b, -, hs⟩ <;> rw [hs]
  · exact h
  · exact (closing_frame hp h).1

/-- What has happened to a request has happened. -/
theorem Cause.kept {res : Resolution} (h : Cause s g res) (hp : Consistent s.state.pool)
    (hd : Delivery s.state) (hc : Carried s) (he : WireEnabled s e) :
    Cause (wireNext s e) g res := by
  cases h with
  | answered m received accepted =>
    refine .answered m ?_ (accepted_wire hd he accepted)
    rcases wire_state he with hs | ⟨b, -, hs⟩ <;> rw [hs]
    · exact received
    · exact received_frame received
  | refused w refusal known accepted =>
    rcases wire_state he with hs | ⟨b, -, hs⟩
    · exact .refused w refusal (hs ▸ known) (hs ▸ accepted)
    · refine .refused w refusal ?_ ?_ <;> rw [hs]
      · exact lt_of_lt_of_le known nextFuture_frame
      · exact unaccepted_frame known accepted
  | exited o sent gone =>
    have bound := hc.bound g o sent
    have text := (role_wire hp he bound.1).1
    have after := Cause.exited (s := wireNext s e) o (hc.sent hd sent) (gone_wire hp he bound gone)
    unfold exitError at after ⊢
    rwa [text] at after
  | unloaded o sent =>
    have group := (role_wire hp he (hc.bound g o sent).1).2
    have after := Cause.unloaded (s := wireNext s e) o (hc.sent hd sent)
    rwa [group] at after
  | shutDown r known closing =>
    have text := (role_wire hp he known).1
    have after := Cause.shutDown (s := wireNext s e) (g := g) r
      (lt_of_lt_of_le known (nextRef_wire hp he)) (closing_wire hp he closing)
    unfold shutdownError at after ⊢
    rwa [text] at after
  | closed closing => exact .closed (closing_wire hp he closing)

omit [DecidableEq ι] in
/-- What a step settles, it settles for a reason. -/
theorem settles_cause (h : Attributed s) (hi : Invariant s.state) (hd : Delivery s.state)
    {b : Event ι} (he : Enabled s.state b) {res : Resolution} (hs : Settles s.state b g res) :
    (∃ q puts w, b = .execute q puts ∧ g = s.state.history.nextFuture ∧ res = .error w ∧
        (execute s.state.pool puts q s.state.history.nextFuture).2 = .rejected w) ∨
      Cause s g res := by
  cases hs with
  | execute q puts w hx => exact .inl ⟨q, puts, w, rfl, rfl, rfl, hx⟩
  | deliver g m =>
    obtain ⟨received, accepted⟩ := hd.message g m he
    exact .inr (.answered m received accepted)
  | fail i g rest w =>
    have hpc : s.state.user i = .failing g rest w := he
    obtain ⟨o, sent, rfl⟩ := h.unloading i (g :: rest) w (by rw [hpc]; rfl) g List.mem_cons_self
    exact .inr (.unloaded o sent)
  | closeFail i g rest =>
    have hpc : s.state.user i = .closeFailing g rest := he
    exact .inr (.closed (hi.closers i (by rw [hpc]; rfl)).1)
  | exitFail g rest r rd =>
    have hpc : s.state.supervisor = .failing g rest r rd := he
    obtain ⟨o, sent, rfl, gone⟩ := h.exiting r (g :: rest) (by rw [hpc]; rfl) g
      List.mem_cons_self
    exact .inr (.exited o sent gone)
  | shutdownFail g rest r rd =>
    have hpc : s.state.supervisor = .shutdownFailing g rest r rd := he
    refine .inr (.shutDown r (hi.known r ?_).1 (hi.shutdown (by rw [hpc]; rfl)).1)
    rw [hpc]
    exact List.mem_cons_self

omit [DecidableEq ι] in
/-- What the locked section of an exit takes went to the process that has ended. -/
theorem exited_sent (ht : Traced s) (hb : Books s.state.pool) {r : Ref} {weights : String → ℤ}
    (hr : InTable s.state.pool r) (hg : g ∈ (exited s.state.pool r weights).2) :
    s.sentTo g = some (incarnation s.state.pool r) := by
  have taken : ∃ t, s.state.pool.assignments.get? t = some (s.state.pool.heap r).assignment ∧
      s.state.pool.futures.get? t = some g := by
    have hmem := mem_taken.mp hg
    simpa [WorkerState.assignment] using hmem
  obtain ⟨t, ha, hf⟩ := taken
  obtain ⟨r', sent, table, -⟩ := ht t _ g ha hf
  cases table.symm.trans (hb.inTable.mp hr)
  exact sent

omit [DecidableEq ι] in
/-- What an unload takes went to a worker of its group. -/
theorem unloaded_sent (ht : Traced s) (hp : Consistent s.state.pool) {name : String} {p : Pool}
    {workers : List Ref} {futures : List FutureId}
    (hx : unregisterLocked s.state.pool name = (p, .ok (workers, futures)))
    (hg : g ∈ futures) :
    ∃ o, s.sentTo g = some o ∧ (s.state.pool.heap o.1).group.name = name := by
  rcases unregisterLocked_cases hp name with ⟨-, x, h⟩ | ⟨-, -, -, q, failed, h, hu⟩
  · rw [h] at hx
    cases hx
  · rw [h] at hx
    cases hx
    obtain ⟨d, -, hret⟩ := hu.retired
    obtain ⟨t, ⟨r, hr, ha⟩, hf⟩ := (hret.taken_iff g).mp hg
    obtain ⟨table, hname⟩ := mem_groupWorkers.mp hr
    obtain ⟨r', sent, table', -⟩ := ht t _ g ha hf
    cases table'.symm.trans (hp.books.inTable.mp table)
    exact ⟨_, sent, hname⟩

theorem attributed_next (h : Attributed s) (hr : ((wire ι).restrict Unmixed).Reachable s)
    (he : WireEnabled s e) : Attributed (wireNext s e) := by
  have reach := System.restrict_reachable hr
  have hi := reachable_invariant (wire_reachable reach)
  have hp := hi.consistent
  have hd := reachable_delivery (wire_reachable reach)
  have hc := reachable_carried hr
  have traced := reachable_traced hr
  refine ⟨fun g res hres => ?_, fun r rd hsup => ?_, fun r futures hsup g hg => ?_,
    fun i futures w hu g hg => ?_⟩
  · rcases wire_state he with hs | ⟨b, hb, hs⟩
    · exact (h.resolved g res (hs ▸ hres)).kept hp hd hc he
    · rw [hs] at hres
      rcases resolved_next hres with hres | hset
      · exact (h.resolved g res hres).kept hp hd hc he
      · rcases settles_cause h hi hd hb hset with ⟨q, puts, w, rfl, rfl, rfl, hx⟩ | cause
        · refine .refused w (execute_refusal hx) ?_ ?_ <;> rw [hs]
          · show _ < (executeNext s.state q puts).history.nextFuture
            rw [executeNext_nextFuture]
            exact Nat.lt_succ_self _
          · show (executeNext s.state q puts).history.acceptedTask _ = none
            rw [execute_refused hx]
            exact (hd.unused _ le_rfl).1
        · exact cause.kept hp hd hc he
  · rcases wire_state he with hs | ⟨b, hb, hs⟩ <;> rw [hs] at hsup ⊢
    · exact h.handling r rd hsup
    · exact handling_next hi (h.handling r) hb hsup
  · have old : ∀ before, SupervisorPc.exits s.state.supervisor = some (r, before) →
        futures ⊆ before → ∃ o, (wireNext s e).sentTo g = some o ∧ o.1 = r ∧
          Gone (wireNext s e).state.pool o := by
      intro before hb hsub
      obtain ⟨o, sent, ho, gone⟩ := h.exiting r before hb g (hsub hg)
      exact ⟨o, hc.sent hd sent, ho, gone_wire hp he (hc.bound g o sent) gone⟩
    rcases wire_state he with hs | ⟨b, hb, hs⟩
    · exact old futures (hs ▸ hsup) (List.Subset.refl _)
    · rw [hs] at hsup
      rcases exits_next hi hb hsup with ⟨before, hbefore, hsub⟩ |
        ⟨rd, weights, rfl, table, rfl⟩
      · exact old before hbefore hsub
      · have sent := exited_sent traced hp.books table hg
        refine ⟨_, hc.sent hd sent, rfl, gone_wire hp he (hc.bound g _ sent) fun hrun => ?_⟩
        exact absurd hrun (h.handling r rd hb)
  · have old : ∀ before, UserPc.unloads (s.state.user i) = some (before, w) →
        futures ⊆ before → ∃ o, (wireNext s e).sentTo g = some o ∧
          w = unloadedError ((wireNext s e).state.pool.heap o.1).group.name := by
      intro before hb hsub
      obtain ⟨o, sent, hw⟩ := h.unloading i before w hb g (hsub hg)
      refine ⟨o, hc.sent hd sent, ?_⟩
      rw [(role_wire hp he (hc.bound g o sent).1).2]
      exact hw
    rcases wire_state he with hs | ⟨b, hb, hs⟩
    · exact old futures (hs ▸ hu) (List.Subset.refl _)
    · rw [hs] at hu
      rcases unloads_next hb hu with ⟨before, hbefore, hsub⟩ | ⟨name, p, workers, rfl, hx, rfl⟩
      · exact old before hbefore hsub
      · obtain ⟨o, sent, rfl⟩ := unloaded_sent traced hp hx hg
        refine ⟨o, hc.sent hd sent, ?_⟩
        rw [(role_wire hp he (hc.bound g o sent).1).2]

theorem reachable_attributed (h : ((wire ι).restrict Unmixed).Reachable s) : Attributed s := by
  refine System.invariant_reachable ?_ ?_ h
  · rintro s ⟨b, ⟨registry, groups, p, pipe, logs, -, hp, rfl⟩, rfl⟩
    exact ⟨fun g res hres => (by cases hres), fun r rd hsup => (by cases hsup),
      fun r futures hsup => (by cases hsup), fun i futures w hu => (by cases hu)⟩
  · rintro s e t hr ha ⟨-, he, rfl⟩
    exact attributed_next ha hr he

end

end Provenance
