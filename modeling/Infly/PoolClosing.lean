import Infly.PoolSettling
import Infly.PoolQueues

/-! # A pool being closed

What a `close` has still to do, and what the other threads of the pool may do meanwhile. Once
the pool is closing no worker enters the table and no request is queued, and the handles that
somebody has still to close only become fewer. A `close` that nothing is in the way of takes each
of its steps.
-/
namespace PoolClose

open Contracts Config PoolState PoolTables PoolAccounting PoolGroups PoolModel PoolFrames
open PoolInvariant PoolDelivery PoolSettling PoolHandles PoolQueues Progress

/-! ## What the call depends on -/

def others (p : Pool) (r : Ref) : List Ref := p.workers.values.filter (fun w => decide (w ≠ r))

/-- The handles of the table that a `close` has still to close. -/
def UserPc.willStop (p : Pool) : UserPc → List Ref
  | .closeSignalling | .closeProbing _ _ => p.workers.values
  | .closeStopping .mark _ rest => rest
  | .closeStopping _ r rest => r :: rest
  | _ => []

def exits (p : Pool) (r : Ref) : Bool :=
  (p.heap r).alive && !(p.heap r).retiring && p.workers.get? (p.heap r).workerId == some r

/-- The handles that the supervisor may still close once the pool is closing. -/
def SupervisorPc.willStop (p : Pool) : SupervisorPc → List Ref
  | .awaiting r _ => [r]
  | .stopping k r _ => if k = .mark then [] else [r]
  | .handlingExit r _ =>
    if exits p r = true ∧ (p.heap r).group.safety.mode = .shutdown then others p r else []
  | .failing _ _ r _ | .dispatching r _ =>
    if (p.heap r).group.safety.mode = .shutdown then others p r else []
  | .shutdownFlagging r _ | .shutdownSignalling r _ => others p r
  | .shutdownStopping k w rest _ _ => if k = .mark then rest else w :: rest
  | _ => []

/-- The workers to which a `close` has still to send the stop message. -/
def UserPc.unprobed (p : Pool) : UserPc → List Ref
  | .closeSignalling => p.workers.values
  | .closeProbing r rest => r :: rest
  | _ => []

/-- The message that a `close` has still to put on the worker's queue. -/
def UserPc.coming (p : Pool) (pc : UserPc) (r : Ref) : List (Option TaskRequest) :=
  if r ∈ UserPc.unprobed p pc then stopMessages (p.heap r) else []

/-- The workers whose queues a `close` has still to close. -/
def UserPc.unclosed (p : Pool) : UserPc → List Ref
  | .closeSignalling | .closeProbing _ _ | .closeStopping _ _ _ | .closeResultStopping
  | .closeJoiningResult | .closeJoiningSupervisor | .closeTaking | .closeFailing _ _ =>
    p.workers.values
  | .closeClosingQueue r rest => r :: rest
  | .closeJoiningQueue _ rest => rest
  | _ => []

/-- The worker whose feeder a `close` joins. -/
def UserPc.joining : UserPc → Option Ref
  | .closeJoiningQueue r _ => some r
  | _ => none

/-- The `close` has the result thread still to join. -/
def UserPc.beforeJoin : UserPc → Bool
  | .closeSignalling | .closeProbing _ _ | .closeStopping _ _ _ | .closeResultStopping
  | .closeJoiningResult => true
  | _ => false

/-- The `close` has the log manager still to stop. -/
def UserPc.beforeLogs (pc : UserPc) : Bool := UserPc.closes pc && pc != .closeCompleting

/-- How many steps the `close` has still to take, at most. -/
def UserPc.rank (workers : ℕ) (futures : ℕ) : UserPc → ℕ
  | .closeSignalling => futures + 8 + 9 * workers + workers + 1
  | .closeProbing _ rest => futures + 8 + 9 * workers + rest.length + 1
  | .closeStopping k _ rest => futures + 8 + 2 * workers + 7 * rest.length + StopStep.rank k
  | .closeResultStopping => futures + 8 + 2 * workers
  | .closeJoiningResult => futures + 7 + 2 * workers
  | .closeJoiningSupervisor => futures + 6 + 2 * workers
  | .closeTaking => futures + 5 + 2 * workers
  | .closeFailing _ rest => rest.length + 4 + 2 * workers
  | .closeClosingQueue _ rest => 2 * rest.length + 5
  | .closeJoiningQueue _ rest => 2 * rest.length + 4
  | .closeClosingResult => 3
  | .closeStoppingLogs => 2
  | .closeCompleting => 1
  | _ => 0

variable {ι : Type}

/-- The steps of a `close` after its first locked section. -/
def closes (i : ι) : Event ι → Prop
  | .closeSignal j | .closeProbe j _ _ | .closeStop j _ _ _ | .closeResultStop j
  | .joinResult j _ | .joinSupervisor j _ | .closeTake j | .closeFail j _ _ | .closeQueue j _ _
  | .joinQueue j _ _ | .closeResult j | .closeLogs j | .closeComplete j => j = i
  | _ => False

/-- Nobody else is about to close a handle of the table. -/
structure Quiet (i : ι) (s : State ι) : Prop where
  supervisor : ∀ r, InTable s.pool r → r ∉ SupervisorPc.willStop s.pool s.supervisor
  users : ∀ j, j ≠ i → ∀ r, InTable s.pool r → r ∉ UserPc.willStop s.pool (s.user j)

section

variable [DecidableEq ι]

/-- The steps taken while nobody else calls `close`. -/
def Alone (s : State ι) (e : Event ι) (t : State ι) : Prop :=
  (∀ j, ¬ callsClose j e) ∧ Step s e t

/-- No queue of the table will hold the `close`. -/
structure Clear (i : ι) (s : State ι) : Prop where
  queues : ∀ r ∈ s.pool.workers.values, Joinable s r (UserPc.coming s.pool (s.user i) r)
  joining : ∀ r, UserPc.joining (s.user i) = some r → s.drained r = true

structure Closing (i : ι) (futures : List FutureId) (s : State ι) : Prop where
  reachable : Reachable s
  busy : UserPc.closes (s.user i) = true
  answers : ∀ r ∈ UserPc.willStop s.pool (s.user i), UsableHandle (s.pool.heap r)
  quiet : Quiet i s
  distinct : (UserPc.inspects (s.user i)).Nodup
  clear : Clear i s
  apart : s.caller i ≠ .result
  logs : (s.logs.stop (s.caller i)).1 = .returns
  futures : ∀ f ∈ futures, (∃ t, s.history.acceptedTask f = some t) ∧
    ∀ j, s.history.takenBy f ≠ [.unregister j]

variable {s t : State ι} {e : Event ι} {i j : ι}

/-! ## Frames of a closing pool -/

omit [DecidableEq ι] in
theorem closes_alone (h : closes i e) (j : ι) : ¬ callsClose j e := by
  cases e <;> first | exact fun hj => hj | exact absurd h id

theorem caller_frame (h : ¬ callsClose i e) : (next s e).caller i = s.caller i := by
  cases e
  case closeCall j | closeCallback j | closeSink j =>
    have hj : i ≠ j := fun hij => h hij.symm
    simp only [next, closeCallNext]
    split <;> simp [hj]
  all_goals first
    | rfl
    | (simp only [next, executeNext, receiveNext, deliverNext, registerNext, ensureNext,
        launchNext, awaitReadyNext, publishNext, unregisterNext, disposeNext, closeProbeNext,
        closeStopNext, closeQueueNext, queuesClosed, inspectNext, handleExitNext, dispatchNext,
        relaunchNext, awaitRestartNext, stopFailedNext, rescheduleNext, shutdownStopNext]
       (repeat' split) <;> rfl)

theorem stop_logs (l : Logs) (c : Caller) :
    (l.stop c).2 = l ∨ (l.stop c).2 = { l with stopped := true } := by
  unfold Logs.stop
  split
  · exact Or.inl rfl
  · exact Or.inr rfl

/-- Once the log manager is stopped, it stays so. -/
theorem logs_frame :
    (next s e).logs = s.logs ∨ (next s e).logs = { s.logs with stopped := true } := by
  cases e
  case closeLogs i => exact stop_logs _ _
  case shutdownLogs r rd => exact stop_logs _ _
  all_goals
    left
    first
    | rfl
    | (simp only [next, executeNext, receiveNext, deliverNext, registerNext, ensureNext,
        launchNext, awaitReadyNext, publishNext, unregisterNext, disposeNext, closeCallNext,
        closeProbeNext, closeStopNext, closeQueueNext, queuesClosed, inspectNext, handleExitNext,
        dispatchNext, relaunchNext, awaitRestartNext, stopFailedNext, rescheduleNext,
        shutdownStopNext]
       (repeat' split) <;> rfl)

omit [DecidableEq ι] in
theorem closes_of_actor (he : Enabled s e) (ha : Event.actor e = .user i)
    (hpc : UserPc.closes (s.user i) = true) : closes i e := by
  cases e <;> simp only [Event.actor, Actor.user.injEq, reduceCtorEq] at ha <;> subst ha <;>
    simp only [Enabled] at he <;> first
    | rfl
    | (rw [he] at hpc; cases hpc)
    | (rw [he.1] at hpc; cases hpc)
    | (rw [resting_closes he] at hpc; cases hpc)
    | (rw [resting_closes he.1] at hpc; cases hpc)

section

variable {p : Pool} {workers l : List Ref} {k : Option StopStep} {r : Ref} {fs : List FutureId}
  {job : Registration} {a : AfterDispose} {x : PlatformError}

omit [DecidableEq ι]

@[simp] theorem closeStopFrom_willStop : UserPc.willStop p (closeStopFrom l) = l := by
  cases l <;> rfl
theorem closeProbeFrom_willStop {w : Ref}
    (h : w ∈ UserPc.willStop p (closeProbeFrom p.workers.values l)) : w ∈ p.workers.values := by
  cases l with
  | nil => simpa [closeProbeFrom] using h
  | cons _ _ => exact h
theorem afterStop_willStop {w : Ref} (h : w ∈ UserPc.willStop p (afterStop k r l)) :
    w ∈ r :: l := by
  cases k with
  | none => exact List.mem_cons_of_mem _ (by simpa [afterStop] using h)
  | some k => cases k <;> first | exact h | exact List.mem_cons_of_mem _ h
theorem rest_willStop {w : Ref} {k : StopStep} (h : w ∈ l) :
    w ∈ UserPc.willStop p (.closeStopping k r l) := by
  cases k <;> first | exact h | exact List.mem_cons_of_mem _ h
/-- What an operation of `_stop_process` leaves to be stopped. -/
theorem afterStop_left {w v : WorkerState} {k : StopStep} {k' : Option StopStep}
    (h : stopProcess w k = .ok (v, k')) {r' : Ref}
    (hr : r' ∈ UserPc.willStop p (afterStop k' r l)) :
    r' ∈ l ∨ r' = r ∧ v.process = w.process ∧ k ≠ .mark := by
  have hk := stopProcess_ok h
  cases k' with
  | none => exact Or.inl (by simpa [afterStop] using hr)
  | some k' =>
    cases k with
    | mark => cases h
    | close => cases h; exact Or.inl hr
    | join | probe | terminate | rejoin =>
      rcases List.mem_cons.mp (afterStop_willStop hr) with hmem | hmem
      · exact Or.inr ⟨hmem, by simpa using hk.2.2.2, by simp⟩
      · exact Or.inl hmem
@[simp] theorem closeQueuesFrom_willStop : UserPc.willStop p (closeQueuesFrom l) = [] := by
  cases l <;> rfl
@[simp] theorem closeFailFrom_willStop : UserPc.willStop p (closeFailFrom l fs) = [] := by
  cases fs with
  | nil => exact closeQueuesFrom_willStop
  | cons _ _ => rfl

@[simp] theorem afterLogs_willStop {x : LogStop} : UserPc.willStop p (afterLogs x) = [] := by
  cases x <;> rfl

@[simp] theorem closeStopFrom_closes : UserPc.closes (closeStopFrom l) = true := by
  cases l <;> rfl
@[simp] theorem closeProbeFrom_closes : UserPc.closes (closeProbeFrom workers l) = true := by
  cases l with
  | nil => exact closeStopFrom_closes
  | cons _ _ => rfl
@[simp] theorem afterStop_closes : UserPc.closes (afterStop k r l) = true := by
  cases k with
  | none => exact closeStopFrom_closes
  | some _ => rfl
@[simp] theorem closeQueuesFrom_closes : UserPc.closes (closeQueuesFrom l) = true := by
  cases l <;> rfl
@[simp] theorem closeFailFrom_closes : UserPc.closes (closeFailFrom l fs) = true := by
  cases fs with
  | nil => exact closeQueuesFrom_closes
  | cons _ _ => rfl
theorem closeProbeFrom_distinct (hw : workers.Nodup) (hl : l.Nodup) :
    (UserPc.inspects (closeProbeFrom workers l)).Nodup := by
  cases l with
  | nil => simpa [closeProbeFrom] using hw
  | cons _ _ => exact hl
theorem afterStop_distinct (h : (r :: l).Nodup) :
    (UserPc.inspects (afterStop k r l)).Nodup := by
  cases k with
  | none => simpa [afterStop] using (List.nodup_cons.mp h).2
  | some _ => exact h

theorem closeFailFrom_distinct (h : l.Nodup) : (UserPc.inspects (closeFailFrom l fs)).Nodup := by
  cases fs with
  | nil => simpa [closeFailFrom] using h
  | cons _ _ => exact List.nodup_nil

/-! ### What is to come for the queues -/

@[simp] theorem closeStopFrom_unprobed : UserPc.unprobed p (closeStopFrom l) = [] := by
  cases l <;> rfl
@[simp] theorem closeProbeFrom_unprobed : UserPc.unprobed p (closeProbeFrom workers l) = l := by
  cases l with
  | nil => exact closeStopFrom_unprobed
  | cons _ _ => rfl
@[simp] theorem afterStop_unprobed : UserPc.unprobed p (afterStop k r l) = [] := by
  cases k with
  | none => exact closeStopFrom_unprobed
  | some _ => rfl
@[simp] theorem closeQueuesFrom_unprobed : UserPc.unprobed p (closeQueuesFrom l) = [] := by
  cases l <;> rfl
@[simp] theorem closeFailFrom_unprobed : UserPc.unprobed p (closeFailFrom l fs) = [] := by
  cases fs with
  | nil => exact closeQueuesFrom_unprobed
  | cons _ _ => rfl

@[simp] theorem closeStopFrom_joining : UserPc.joining (closeStopFrom l) = none := by
  cases l <;> rfl
@[simp] theorem closeProbeFrom_joining : UserPc.joining (closeProbeFrom workers l) = none := by
  cases l with
  | nil => exact closeStopFrom_joining
  | cons _ _ => rfl
@[simp] theorem afterStop_joining : UserPc.joining (afterStop k r l) = none := by
  cases k with
  | none => exact closeStopFrom_joining
  | some _ => rfl
@[simp] theorem closeQueuesFrom_joining : UserPc.joining (closeQueuesFrom l) = none := by
  cases l <;> rfl
@[simp] theorem closeFailFrom_joining : UserPc.joining (closeFailFrom l fs) = none := by
  cases fs with
  | nil => exact closeQueuesFrom_joining
  | cons _ _ => rfl

@[simp] theorem closeStopFrom_unclosed :
    UserPc.unclosed p (closeStopFrom l) = p.workers.values := by cases l <;> rfl
@[simp] theorem closeProbeFrom_unclosed :
    UserPc.unclosed p (closeProbeFrom workers l) = p.workers.values := by
  cases l with
  | nil => exact closeStopFrom_unclosed
  | cons _ _ => rfl
@[simp] theorem afterStop_unclosed :
    UserPc.unclosed p (afterStop k r l) = p.workers.values := by
  cases k with
  | none => exact closeStopFrom_unclosed
  | some _ => rfl
@[simp] theorem closeQueuesFrom_unclosed : UserPc.unclosed p (closeQueuesFrom l) = l := by
  cases l <;> rfl
@[simp] theorem closeFailFrom_unclosed :
    UserPc.unclosed p (closeFailFrom p.workers.values fs) = p.workers.values := by
  cases fs with
  | nil => exact closeQueuesFrom_unclosed
  | cons _ _ => rfl

@[simp] theorem closeStopFrom_beforeJoin : UserPc.beforeJoin (closeStopFrom l) = true := by
  cases l <;> rfl
@[simp] theorem closeProbeFrom_beforeJoin :
    UserPc.beforeJoin (closeProbeFrom workers l) = true := by
  cases l with
  | nil => exact closeStopFrom_beforeJoin
  | cons _ _ => rfl
@[simp] theorem afterStop_beforeJoin : UserPc.beforeJoin (afterStop k r l) = true := by
  cases k with
  | none => exact closeStopFrom_beforeJoin
  | some _ => rfl

@[simp] theorem closeStopFrom_beforeLogs : UserPc.beforeLogs (closeStopFrom l) = true := by
  cases l <;> rfl
@[simp] theorem closeProbeFrom_beforeLogs :
    UserPc.beforeLogs (closeProbeFrom workers l) = true := by
  cases l with
  | nil => exact closeStopFrom_beforeLogs
  | cons _ _ => rfl
@[simp] theorem afterStop_beforeLogs : UserPc.beforeLogs (afterStop k r l) = true := by
  cases k with
  | none => exact closeStopFrom_beforeLogs
  | some _ => rfl
@[simp] theorem closeQueuesFrom_beforeLogs : UserPc.beforeLogs (closeQueuesFrom l) = true := by
  cases l <;> rfl
@[simp] theorem closeFailFrom_beforeLogs : UserPc.beforeLogs (closeFailFrom l fs) = true := by
  cases fs with
  | nil => exact closeQueuesFrom_beforeLogs
  | cons _ _ => rfl

@[simp] theorem closeProbeFrom_coming : UserPc.coming p (closeProbeFrom workers l) r =
    if r ∈ l then stopMessages (p.heap r) else [] := by
  rw [UserPc.coming, closeProbeFrom_unprobed]

/-! ### Ranks -/

theorem closeStopFrom_rank {n : ℕ} : UserPc.rank workers.length n (closeStopFrom l) ≤
    n + 8 + 2 * workers.length + 7 * l.length := by
  cases l with
  | nil => exact le_refl _
  | cons r l => simp only [closeStopFrom, UserPc.rank, StopStep.rank, List.length_cons]; omega
theorem closeProbeFrom_rank {n : ℕ} : UserPc.rank workers.length n (closeProbeFrom workers l) ≤
    n + 8 + 9 * workers.length + l.length := by
  cases l with
  | nil =>
    have : UserPc.rank workers.length n (closeStopFrom workers) ≤ _ := closeStopFrom_rank
    simp only [closeProbeFrom, List.length_nil]
    omega
  | cons r l => exact le_refl _
theorem closeQueuesFrom_rank {m n : ℕ} :
    UserPc.rank m n (closeQueuesFrom l) = 2 * l.length + 3 := by
  cases l <;> rfl
theorem closeFailFrom_rank {n : ℕ} :
    UserPc.rank l.length n (closeFailFrom l fs) = fs.length + 3 + 2 * l.length := by
  cases fs with
  | nil =>
    rw [closeFailFrom, closeQueuesFrom_rank]
    exact Nat.add_comm _ _
  | cons f fs => simp only [closeFailFrom, UserPc.rank, List.length_cons]
theorem rank_mono {m n n' : ℕ} (h : n' ≤ n) (pc : UserPc) :
    UserPc.rank m n' pc ≤ UserPc.rank m n pc := by
  cases pc <;> simp only [UserPc.rank] <;> omega

@[simp] theorem roundFrom_willStop {now : ℚ} :
    SupervisorPc.willStop p (roundFrom now l) = [] := by cases l <;> rfl
@[simp] theorem exitFailFrom_willStop {rd : Round} :
    SupervisorPc.willStop p (exitFailFrom r rd fs) =
      if (p.heap r).group.safety.mode = .shutdown then others p r else [] := by
  cases fs <;> rfl
@[simp] theorem shutdownStopFrom_willStop {rd : Round} :
    SupervisorPc.willStop p (shutdownStopFrom r rd l) = l := by cases l <;> rfl
@[simp] theorem shutdownFailFrom_willStop {rd : Round} :
    SupervisorPc.willStop p (shutdownFailFrom r rd fs) = [] := by cases fs <;> rfl
@[simp] theorem afterShutdown_willStop {rd : Round} {x : LogStop} :
    SupervisorPc.willStop p (afterShutdown rd x) = [] := by
  cases x with
  | returns => exact roundFrom_willStop
  | raises | hangs => rfl

theorem willStop_closes {pc : UserPc} {w : Ref} (h : w ∈ UserPc.willStop p pc) :
    UserPc.closes pc = true := by
  cases pc <;> first | rfl | cases h

end

theorem unprobed_congr {p q : Pool} (h : q.workers = p.workers) (pc : UserPc) :
    UserPc.unprobed q pc = UserPc.unprobed p pc := by
  unfold UserPc.unprobed
  rw [h]

theorem joining_inspects {pc : UserPc} {r : Ref} (h : UserPc.joining pc = some r) :
    r ∈ UserPc.inspects pc := by
  cases pc <;> cases h
  exact List.mem_cons_self

theorem willStop_congr {p q : Pool} (h : q.workers = p.workers) (pc : UserPc) :
    UserPc.willStop q pc = UserPc.willStop p pc := by
  unfold UserPc.willStop
  rw [h]

/-- A `close` has ever less to stop. -/
theorem user_willStop_next (hi : Invariant s) (he : Enabled s e) (hc : s.pool.closing = true)
    (hcall : ∀ j, ¬ callsClose j e) {r : Ref}
    (h : r ∈ UserPc.willStop (next s e).pool ((next s e).user j)) :
    r ∈ UserPc.willStop s.pool (s.user j) := by
  have hw : (next s e).pool.workers = s.pool.workers := (closing_frame hi.consistent hc).2.workers
  rw [willStop_congr hw] at h
  by_cases ha : Event.actor e = .user j
  swap
  · rwa [user_frame ha] at h
  have hcl : UserPc.closes (s.user j) = true :=
    (closes_next he (willStop_closes h)).resolve_right fun h' => hcall j h'.1
  have hown := closes_of_actor he ha hcl
  cases e <;> simp only [closes] at hown <;> subst hown <;> simp only [Enabled] at he
  case closeSignal j =>
    simp only [next, setUser_self] at h
    rw [he]
    exact closeProbeFrom_willStop h
  case closeProbe j w rest =>
    simp only [next, closeProbeNext] at h
    rw [he]
    split at h <;> rw [setUser_self] at h
    · cases h
    · exact closeProbeFrom_willStop h
  case closeStop j k w rest =>
    simp only [next, closeStopNext] at h
    rw [he]
    split at h <;> rw [setUser_self] at h
    · cases h
    · rename_i v k' hv
      rw [elim_afterStop] at h
      cases k with
      | mark =>
        cases hv
        have hmem : r ∈ rest := by simpa [afterStop] using h
        exact hmem
      | join | probe | terminate | rejoin | close => exact afterStop_willStop h
  all_goals
    simp only [next, closeTakeNext, closeFailNext, joinResultNext, closeQueueNext, queuesClosed,
      closeLogsNext] at h
    (try split at h) <;> simp only [setUser_self, closeFailFrom_willStop,
      closeQueuesFrom_willStop, afterLogs_willStop] at h <;> cases h

omit [DecidableEq ι] in
theorem supervisor_willStop_congr {p q : Pool} (hw : q.workers = p.workers) {pc : SupervisorPc}
    {r : Ref} (hgroup : ∀ w ∈ SupervisorPc.refs pc, (q.heap w).group = (p.heap w).group)
    (hexits : ∀ w ∈ SupervisorPc.refs pc, exits q w = true → exits p w = true)
    (h : r ∈ SupervisorPc.willStop q pc) : r ∈ SupervisorPc.willStop p pc := by
  have hothers : ∀ w, others q w = others p w := fun w => by simp only [others, hw]
  cases pc with
  | handlingExit w rd =>
    simp only [SupervisorPc.willStop, hothers, hgroup w List.mem_cons_self] at h ⊢
    split at h
    · rename_i hcond
      rwa [if_pos ⟨hexits w List.mem_cons_self hcond.1, hcond.2⟩]
    · cases h
  | failing f rest w rd | dispatching w rd =>
    simpa only [SupervisorPc.willStop, hothers, hgroup w List.mem_cons_self] using h
  | shutdownFlagging w rd | shutdownSignalling w rd =>
    simpa only [SupervisorPc.willStop, hothers] using h
  | _ => exact h

/-- A worker that the supervisor did not find running does not come to run. -/
theorem exits_next (hi : Invariant s) (he : Enabled s e) (hc : s.pool.closing = true)
    (ha : Event.actor e ≠ .supervisor) {r : Ref} (hr : r ∈ SupervisorPc.refs s.supervisor)
    (h : exits (next s e).pool r = true) : exits s.pool r = true := by
  obtain ⟨hlt, hforeign⟩ := hi.known r hr
  have hw : (next s e).pool.workers = s.pool.workers := (closing_frame hi.consistent hc).2.workers
  simp only [exits, Bool.and_eq_true, Bool.not_eq_true', beq_iff_eq, hw] at h ⊢
  obtain ⟨⟨halive, hretiring⟩, hin⟩ := h
  refine ⟨⟨?_, ?_⟩, ?_⟩
  · by_contra hdead
    rw [alive_frame hi.consistent (by simpa using hdead) ?_ ?_] at halive
    · cases halive
    · rintro i job rest o rfl
      simp only [Enabled] at he
      have hj : UserPc.job (s.user i) = some job := by rw [he.1]; rfl
      exact hforeign i job hj ((hi.jobs i job hj).pending r (by rw [he.1]; exact List.mem_cons_self))
    · rintro rd rfl
      exact ha rfl
  · by_contra hret
    rw [(worker_frame (e := e) hi.consistent hlt).retiring (by simpa using hret)] at hretiring
    cases hretiring
  · rwa [hi.consistent.books.named _ r hin]

theorem handleExit_supervisor (r : Ref) (rd : Round) :
    (next s (.handleExit r rd)).supervisor = rd.continue ∨
      (∃ x, (next s (.handleExit r rd)).supervisor = .crashed x) ∨
      exits s.pool r = true ∧
        ∃ failed, (next s (.handleExit r rd)).supervisor = exitFailFrom r rd failed := by
  simp only [next, handleExitNext]
  split
  · exact Or.inl rfl
  · rename_i hguard
    split
    · exact Or.inr (Or.inl ⟨_, rfl⟩)
    · refine Or.inr (Or.inr ⟨?_, _, rfl⟩)
      simpa [exits, and_assoc] using hguard

/-- The supervisor has ever less to stop once the pool is closing. -/
theorem supervisor_willStop_next (hi : Invariant s) (he : Enabled s e)
    (hc : s.pool.closing = true) {r : Ref}
    (h : r ∈ SupervisorPc.willStop (next s e).pool (next s e).supervisor) :
    r ∈ SupervisorPc.willStop s.pool s.supervisor := by
  have hw : (next s e).pool.workers = s.pool.workers := (closing_frame hi.consistent hc).2.workers
  have hgroup : ∀ w ∈ SupervisorPc.refs s.supervisor,
      ((next s e).pool.heap w).group = (s.pool.heap w).group := fun w hmem =>
    (worker_frame hi.consistent (hi.known w hmem).1).group
  by_cases ha : Event.actor e = .supervisor
  swap
  · rw [supervisor_frame ha] at h
    exact supervisor_willStop_congr hw hgroup (fun w hmem => exits_next hi he hc ha hmem) h
  cases e <;> simp only [Event.actor, reduceCtorEq] at ha <;> simp only [Enabled] at he <;>
    first | rw [he] at hgroup ⊢ | rw [he.1] at hgroup ⊢
  case handleExit w rd =>
    have hmode := hgroup w List.mem_cons_self
    have hothers : others (next s (.handleExit w rd)).pool w = others s.pool w := by
      simp only [others, hw]
    rcases handleExit_supervisor (s := s) w rd with hpc | ⟨x, hpc⟩ | ⟨hexits, failed, hpc⟩ <;>
      rw [hpc] at h
    · rw [continue_eq, roundFrom_willStop] at h
      cases h
    · cases h
    · rw [exitFailFrom_willStop, hothers, hmode] at h
      simp only [SupervisorPc.willStop, hexits, true_and]
      exact h
  case awaitRestart w rd o =>
    simp only [next, awaitRestartNext] at h
    split at h
    · exact h
    · cases h
    · rwa [he.1] at h
  case stopFailed k w rd =>
    simp only [next, stopFailedNext] at h
    split at h
    · cases h
    · rename_i v k' hv
      cases k with
      | mark => cases hv; cases h
      | join | probe | terminate | rejoin | close =>
        cases k' with
        | none => cases h
        | some k' =>
          simp only [Option.elim, SupervisorPc.willStop] at h ⊢
          split at h
          · cases h
          · exact h
  case shutdownStop k w rest w' rd =>
    simp only [next, shutdownStopNext] at h
    split at h
    · cases h
    · rename_i v k' hv
      rw [elim_afterShutdownStop] at h
      cases k' with
      | none =>
        rw [afterShutdownStop, Option.elim, shutdownStopFrom_willStop] at h
        simp only [SupervisorPc.willStop]
        split
        · exact h
        · exact List.mem_cons_of_mem _ h
      | some k' =>
        simp only [afterShutdownStop, Option.elim, SupervisorPc.willStop] at h ⊢
        have hk : k ≠ .mark := by rintro rfl; cases hv
        rw [if_neg hk]
        split at h
        · exact List.mem_cons_of_mem _ h
        · exact h
  case shutdownFlag w rd => exact h
  case shutdownSignal w rd =>
    simp only [next, shutdownSignalNext, shutdownStopFrom_willStop] at h
    exact h
  case exitFail f rest w rd =>
    simp only [next, exitFailNext, exitFailFrom_willStop] at h
    exact h
  case dispatch w rd =>
    have hpool : (next s (.dispatch w rd)).pool = s.pool := by
      simp only [next, dispatchNext]
      split <;> rfl
    rw [hpool] at h
    simp only [next, dispatchNext] at h
    split at h <;> rename_i hm
    · simpa only [SupervisorPc.willStop, hm, ↓reduceIte] using h
    · cases h
    · rw [continue_eq, roundFrom_willStop] at h
      cases h
  all_goals
    simp only [next, waitNext, checkNext, hc, inspectNext, recordNext, relaunchNext, skips,
      completeNext, rescheduleNext, shutdownTakeNext, shutdownFailNext, shutdownLogsNext,
      continue_eq, roundFrom_willStop, Bool.true_or, ↓reduceIte, shutdownFailFrom_willStop,
      afterShutdown_willStop] at h
    (repeat' split at h) <;> cases h

theorem quiet_next (hi : Invariant s) (hq : Quiet i s) (he : Enabled s e)
    (hc : s.pool.closing = true) (hcall : ∀ j, ¬ callsClose j e) : Quiet i (next s e) := by
  have htable := (closing_frame (e := e) hi.consistent hc).2
  constructor
  · intro r hr hmem
    exact hq.supervisor r (htable.inTable.mp hr) (supervisor_willStop_next hi he hc hmem)
  · intro j hj r hr hmem
    exact hq.users j hj r (htable.inTable.mp hr) (user_willStop_next hi he hc hcall hmem)

/-- While it is quiet, only this `close` closes handles of the table. -/
theorem answers_frame (hi : Invariant s) (hq : Quiet i s) (he : Enabled s e)
    (hc : s.pool.closing = true) {r : Ref} (hr : InTable s.pool r)
    (hown : ∀ rest, e ≠ .closeStop i .close r rest) (hu : UsableHandle (s.pool.heap r)) :
    UsableHandle ((next s e).pool.heap r) := by
  obtain ⟨x, hx, hxu⟩ := hu
  by_cases hre : Event.rehandles e = some r
  · rcases rehandles_owner hi he hre with ⟨j, job, rest, o, rfl, hj, hmem⟩ |
      ⟨j, rest, a, rfl, hmem⟩ | ⟨j, rest, rfl, -⟩ | ⟨rd, o, rfl⟩ | ⟨rd, rfl⟩ | ⟨rest, w, rd, rfl, -⟩
    · exact absurd hr (hi.outside j r (by rw [job_owned hj]; exact hmem)).2
    · exact absurd hr (hi.outside j r hmem).2
    · have hj : j ≠ i := by rintro rfl; exact hown rest rfl
      refine absurd ?_ (hq.users j hj r hr)
      rw [show s.user j = _ from he]
      exact List.mem_cons_self
    · simp only [next, relaunchNext, skips, hc, Bool.true_or, ↓reduceIte]
      exact ⟨x, hx, hxu⟩
    · refine absurd ?_ (hq.supervisor r hr)
      rw [show s.supervisor = _ from he]
      exact List.mem_cons_self
    · refine absurd ?_ (hq.supervisor r hr)
      rw [show s.supervisor = _ from he]
      exact List.mem_cons_self
  · rcases process_frame (e := e) hi.consistent (hi.consistent.books.allocated r hr) hre with
      hp | ⟨-, hp⟩
    · exact ⟨x, hp.trans hx, hxu⟩
    · exact ⟨.exited, hp, Or.inr rfl⟩

omit [DecidableEq ι] in
theorem willStop_inTable (hi : Invariant s) {r : Ref}
    (h : r ∈ UserPc.willStop s.pool (s.user i)) : InTable s.pool r := by
  have hall := (hi.closers i (willStop_closes h)).2
  cases hpc : s.user i <;> rw [hpc] at h hall <;> try cases h
  case closeSignalling => exact inTable_values.mpr h
  case closeProbing => exact inTable_values.mpr h
  case closeStopping k w rest =>
    refine hall r ?_
    cases k <;> first | exact h | exact List.mem_cons_of_mem _ h

/-! ### Queues of a closing pool -/

/-- A task queue of the table gets no more requests. -/
theorem table_queue (hi : Invariant s) (he : Enabled s e) (hc : s.pool.closing = true) {r : Ref}
    (hr : InTable s.pool r) (hm : Event.signals e ≠ some r) : SameQueue s (next s e) r := by
  refine same_queue hi.consistent (hi.consistent.books.allocated r hr) (fun _ => hc) ?_ hm
  rintro j job rest o rfl
  simp only [Enabled] at he
  have hj : UserPc.job (s.user j) = some job := by rw [he]; rfl
  refine (hi.outside j r ?_).2 hr
  rw [job_owned hj]
  exact (hi.jobs j job hj).pending r (by rw [he]; exact List.mem_cons_self)

/-- The queues stay clear, whether or not thread `i` goes on, if so does the queue that gets the
stop message, and if it does not begin to join a feeder that is stuck. -/
theorem clear_next (hi : Invariant s) (hb : UserPc.closes (s.user i) = true) (hcl : Clear i s)
    (he : Enabled s e)
    (hun : ∀ r ∈ UserPc.unprobed s.pool ((next s e).user i),
      r ∈ UserPc.unprobed s.pool (s.user i))
    (hm : ∀ r, InTable s.pool r → Event.signals e = some r → UserPc.joining (s.user i) = none ∧
      Joinable (next s e) r (UserPc.coming (next s e).pool ((next s e).user i) r))
    (hj : ∀ r, UserPc.joining ((next s e).user i) = some r →
      UserPc.joining (s.user i) = some r ∨ (next s e).drained r = true) : Clear i (next s e) := by
  obtain ⟨hc, hin⟩ := hi.closers i hb
  have hw : (next s e).pool.workers = s.pool.workers := (closing_frame hi.consistent hc).2.workers
  constructor
  · intro r hr
    rw [hw] at hr
    have ht := inTable_values.mpr hr
    by_cases hsig : Event.signals e = some r
    · exact (hm r ht hsig).2
    have hsame := table_queue hi he hc ht hsig
    refine hsame.joinable ?_ (hcl.queues r hr)
    unfold UserPc.coming
    rw [unprobed_congr hw]
    split
    · rename_i hmem
      rw [if_pos (hun r hmem)]
      exact hsame.stopMessages
    · exact List.nil_sublist _
  · intro r hr
    refine (hj r hr).elim (fun hold => ?_) id
    have ht := hin r (joining_inspects hold)
    refine (table_queue hi he hc ht fun hsig => ?_).drained (hcl.joining r hold)
    rw [(hm r ht hsig).1] at hold
    cases hold

/-- Nobody else sends a worker of the table the stop message. -/
theorem clear_others (hi : Invariant s) (hq : Quiet i s) (hb : UserPc.closes (s.user i) = true)
    (hcl : Clear i s) (he : Enabled s e) (hown : ¬ closes i e)
    (hpc : (next s e).user i = s.user i) : Clear i (next s e) := by
  refine clear_next hi hb hcl he (fun r hr => hpc ▸ hr) (fun r hr hsig => ?_)
    fun r hr => Or.inl (hpc ▸ hr)
  unfold Event.signals at hsig
  split at hsig <;> cases hsig
  · rename_i j rest
    have hj : j ≠ i := hown
    refine absurd ?_ (hq.users j hj r hr)
    rw [show s.user j = _ from he]
    exact inTable_values.mp hr
  · rename_i j rest a
    refine absurd hr (hi.outside j r ?_).2
    rw [he.1]
    exact List.mem_cons_self

/-- A `close` that sends no stop message, and joins no feeder, keeps the queues clear. -/
theorem clear_own (hi : Invariant s) (hb : UserPc.closes (s.user i) = true) (hcl : Clear i s)
    (he : Enabled s e) (hm : Event.signals e = none) {pc : UserPc}
    (hpc : (next s e).user i = pc)
    (hun : ∀ r ∈ UserPc.unprobed s.pool pc, r ∈ UserPc.unprobed s.pool (s.user i))
    (hj : UserPc.joining pc = none) : Clear i (next s e) := by
  subst hpc
  refine clear_next hi hb hcl he hun (fun r _ hsig => ?_) fun r hr => ?_
  · rw [hm] at hsig
    cases hsig
  · rw [hj] at hr
    cases hr

omit [DecidableEq ι] in
/-- What `put(None)` adds was to come. -/
theorem sendStop_joinable {r : Ref} {u : ι → UserPc}
    (hr : r ∈ UserPc.unprobed s.pool (s.user i))
    (hj : Joinable s r (UserPc.coming s.pool (s.user i) r)) :
    Joinable { s with queues := s.queues.sendStop r (s.pool.heap r), user := u } r [] := by
  intro hu
  rw [UserPc.coming, if_pos hr] at hj
  have hold := hj (by simpa [State.unjoined] using hu)
  simpa [sendStop_unread] using hold

/-- The parts of the invariant that no thread's step breaks. -/
theorem closing_keeps {futures : List FutureId} (hb : Closing i futures s) (he : Enabled s e)
    (hcall : ∀ j, ¬ callsClose j e) : Reachable (next s e) ∧ Quiet i (next s e) ∧
      ((next s e).caller i ≠ .result ∧ ((next s e).logs.stop ((next s e).caller i)).1 = .returns) ∧
      ∀ f ∈ futures, (∃ t, (next s e).history.acceptedTask f = some t) ∧
        ∀ j, (next s e).history.takenBy f ≠ [.unregister j] := by
  have hi := reachable_invariant hb.reachable
  have hc := (hi.closers i hb.busy).1
  refine ⟨hb.reachable.next (S := system ι) ⟨he, rfl⟩, quiet_next hi hb.quiet he hc hcall,
    ?_, fun f hf => ?_⟩
  · rw [caller_frame (hcall i)]
    refine ⟨hb.apart, ?_⟩
    rcases logs_frame (s := s) (e := e) with hl | hl <;> rw [hl]
    · exact hb.logs
    · rfl
  obtain ⟨⟨t, ht⟩, htaken⟩ := hb.futures f hf
  refine ⟨⟨t, accepted_frame (reachable_delivery hb.reachable) ht⟩, fun j hj => ?_⟩
  rcases held_of_taken hi.consistent hj with h | ⟨-, h⟩
  · exact htaken j h
  · cases h hc

theorem closing_others {futures : List FutureId} (hb : Closing i futures s) (he : Enabled s e)
    (hcall : ∀ j, ¬ callsClose j e) (hown : ¬ closes i e) : Closing i futures (next s e) ∧
      (next s e).user i = s.user i := by
  have hi := reachable_invariant hb.reachable
  have hc := (hi.closers i hb.busy).1
  have ha : Event.actor e ≠ .user i := fun ha => hown (closes_of_actor he ha hb.busy)
  have hpc : (next s e).user i = s.user i := user_frame ha
  obtain ⟨hr, hq, hon, hf⟩ := closing_keeps hb he hcall
  have hclear := clear_others hi hb.quiet hb.busy hb.clear he hown hpc
  refine ⟨⟨hr, hpc ▸ hb.busy, fun r hmem => ?_, hq, hpc ▸ hb.distinct, hclear, hon.1, hon.2,
    hf⟩, hpc⟩
  rw [hpc, willStop_congr (closing_frame hi.consistent hc).2.workers] at hmem
  refine answers_frame hi hb.quiet he hc (willStop_inTable hi hmem) ?_ (hb.answers r hmem)
  rintro rest rfl
  exact hown rfl

/-- The measure of a `close` by thread `i`. -/
def work (i : ι) (s : State ι) : ℕ :=
  UserPc.rank s.pool.workers.values.length s.pool.futures.values.length (s.user i)

theorem Closing.onward {futures : List FutureId} {pc : UserPc} (hb : Closing i futures s)
    (he : Enabled s e) (hcall : ∀ j, ¬ callsClose j e) (hpc : (next s e).user i = pc)
    (hbusy : UserPc.closes pc = true)
    (hans : ∀ r ∈ UserPc.willStop s.pool pc, UsableHandle ((next s e).pool.heap r))
    (hn : (UserPc.inspects pc).Nodup) (hclear : Clear i (next s e))
    (hlt : UserPc.rank s.pool.workers.values.length s.pool.futures.values.length pc < work i s) :
    Closing i futures (next s e) ∧ work i (next s e) < work i s := by
  have hi := reachable_invariant hb.reachable
  have hc := (hi.closers i hb.busy).1
  have htable := (closing_frame (e := e) hi.consistent hc).2
  obtain ⟨hreach, hquiet, hon, hfutures⟩ := closing_keeps hb he hcall
  have shrinks : (next s e).pool.futures.values.length ≤ s.pool.futures.values.length :=
    Dict.length_values_le fun t f h => futures_frame hi hc h
  subst hpc
  refine ⟨⟨hreach, hbusy, by rwa [willStop_congr htable.workers], hquiet, hn, hclear, hon.1,
    hon.2, hfutures⟩, ?_⟩
  refine lt_of_le_of_lt ?_ hlt
  rw [work, htable.workers]
  exact rank_mono shrinks _

/-- Behind the workers nothing can raise. -/
theorem Closing.past {futures : List FutureId} (hb : Closing i futures s) (he : Enabled s e)
    (hcall : ∀ j, ¬ callsClose j e) {pc : UserPc} (hpc : (next s e).user i = pc)
    (hbusy : UserPc.closes pc = true) (hstop : UserPc.willStop s.pool pc = [])
    (hn : (UserPc.inspects pc).Nodup) (hclear : Clear i (next s e))
    (hlt : UserPc.rank s.pool.workers.values.length s.pool.futures.values.length pc < work i s) :
    Closing i futures (next s e) ∧ work i (next s e) < work i s := by
  refine hb.onward he hcall hpc hbusy (fun r hr => ?_) hn hclear hlt
  rw [hstop] at hr
  cases hr

theorem closing_probe {futures : List FutureId} {r : Ref} {rest : List Ref}
    (hb : Closing i futures s) (he : s.user i = .closeProbing r rest) :
    Closing i futures (next s (.closeProbe i r rest)) ∧
      work i (next s (.closeProbe i r rest)) < work i s := by
  have hi := reachable_invariant hb.reachable
  have hall := (hi.closers i hb.busy).2
  have hans := hb.answers
  have hdistinct := hb.distinct
  rw [he] at hans hall hdistinct
  obtain ⟨hr, hrest⟩ := List.nodup_cons.mp hdistinct
  obtain ⟨x, hx, hu⟩ := hans r (inTable_values.mp (hall r List.mem_cons_self))
  have hnext : next s (.closeProbe i r rest) =
      { s with queues := s.queues.sendStop r (s.pool.heap r) }.setUser i
        (closeProbeFrom s.pool.workers.values rest) := by
    rcases hu with rfl | rfl <;> simp only [next, closeProbeNext, hx] <;> rfl
  have hpc : (next s (.closeProbe i r rest)).user i =
      closeProbeFrom s.pool.workers.values rest := by
    rw [hnext, setUser_self]
  have hclear : Clear i (next s (.closeProbe i r rest)) := by
    refine clear_next hi hb.busy hb.clear he ?_ (fun w hw hsig => ⟨by rw [he]; rfl, ?_⟩) ?_
    · rw [hpc, closeProbeFrom_unprobed, he]
      exact fun w hw => List.mem_cons_of_mem _ hw
    · cases hsig
      rw [UserPc.coming, hpc, closeProbeFrom_unprobed, if_neg hr, hnext]
      exact sendStop_joinable (by rw [he]; exact List.mem_cons_self)
        (hb.clear.queues r (inTable_values.mp hw))
    · rw [hpc, closeProbeFrom_joining]
      rintro w ⟨⟩
  refine hb.onward he (fun j hj => hj) hpc closeProbeFrom_closes (fun w hw => ?_)
    (closeProbeFrom_distinct hi.consistent.books.values_nodup hrest) hclear ?_
  · rw [hnext]
    exact hans w (closeProbeFrom_willStop hw)
  · rw [work, he]
    exact Nat.lt_succ_of_le closeProbeFrom_rank

theorem closing_stop {futures : List FutureId} {k : StopStep} {r : Ref} {rest : List Ref}
    (hb : Closing i futures s) (he : s.user i = .closeStopping k r rest) :
    Closing i futures (next s (.closeStop i k r rest)) ∧
      work i (next s (.closeStop i k r rest)) < work i s := by
  have hans := hb.answers
  have hdistinct := hb.distinct
  rw [he] at hans hdistinct
  have hok : k = .close ∨ k = .mark ∨ Manageable (s.pool.heap r) := by
    by_cases hk : k = .mark
    · exact Or.inr (Or.inl hk)
    · refine Or.inr (Or.inr (hans r ?_).manageable)
      cases k <;> first | exact List.mem_cons_self | exact absurd rfl hk
  obtain ⟨v, k', hv⟩ := stopProcess_succeeds hok
  have hnext : next s (.closeStop i k r rest) =
      (s.modify r fun _ => v).setUser i (afterStop k' r rest) := by
    simp only [next, closeStopNext, hv, elim_afterStop]
  have hpc : (next s (.closeStop i k r rest)).user i = afterStop k' r rest := by
    rw [hnext, setUser_self]
  have hclear := clear_own (reachable_invariant hb.reachable) hb.busy hb.clear
    (e := .closeStop i k r rest) he rfl hpc (by simp) (by simp)
  refine hb.onward he (fun j hj => hj) hpc afterStop_closes
    (fun w hw => ?_) (afterStop_distinct hdistinct) hclear ?_
  · rw [hnext]
    rcases afterStop_left hv hw with hmem | ⟨rfl, hp, hk⟩
    · have hwr : w ≠ r := fun h => (List.nodup_cons.mp hdistinct).1 (h ▸ hmem)
      simpa [hwr] using hans w (rest_willStop hmem)
    · have hold : w ∈ UserPc.willStop s.pool (.closeStopping k w rest) := by
        cases k <;> first | exact List.mem_cons_self | exact absurd rfl hk
      obtain ⟨x, hx, hu⟩ := hans w hold
      exact ⟨x, by simpa [hp] using hx, hu⟩
  · rw [work, he]
    cases k' with
    | none =>
      have hrank : UserPc.rank s.pool.workers.values.length s.pool.futures.values.length
        (closeStopFrom rest) ≤ _ := closeStopFrom_rank
      have hpos : 0 < StopStep.rank k := by cases k <;> decide
      simp only [afterStop, Option.elim, UserPc.rank] at hrank ⊢
      omega
    | some k' => simpa [afterStop, UserPc.rank] using stopProcess_rank hv

theorem closing_queue {futures : List FutureId} {r : Ref} {rest : List Ref}
    (hb : Closing i futures s) (he : s.user i = .closeClosingQueue r rest) :
    Closing i futures (next s (.closeQueue i r rest)) ∧
      work i (next s (.closeQueue i r rest)) < work i s := by
  have hi := reachable_invariant hb.reachable
  have hall := (hi.closers i hb.busy).2
  have hdistinct := hb.distinct
  rw [he] at hall hdistinct
  have hen : Enabled s (.closeQueue i r rest) := he
  have hcall : ∀ j, ¬ callsClose j (.closeQueue i r rest) := fun j hj => hj
  by_cases hu : s.unjoined r = true
  · have hnext : next s (.closeQueue i r rest) =
        { s with queues := s.queues.join r }.setUser i (.closeJoiningQueue r rest) := by
      simp only [next, closeQueueNext, hu, ↓reduceIte]
    have hpc : (next s (.closeQueue i r rest)).user i = .closeJoiningQueue r rest := by
      rw [hnext, setUser_self]
    have hfits : s.drained r = true := by
      have hj := hb.clear.queues r (inTable_values.mp (hall r List.mem_cons_self))
      rw [UserPc.coming, if_neg (by rw [he]; exact List.not_mem_nil)] at hj
      exact hj.drained hu
    refine hb.past hen hcall hpc rfl rfl hdistinct ?_ ?_
    · refine clear_next hi hb.busy hb.clear hen ?_ (fun w _ hsig => by cases hsig) fun w hw => ?_
      · rw [hpc]
        exact fun w hw => absurd hw List.not_mem_nil
      · rw [hpc] at hw
        cases hw
        rw [hnext]
        exact Or.inr hfits
    · rw [work, he]
      exact Nat.lt_succ_self _
  · have hnext : next s (.closeQueue i r rest) = queuesClosed s i r rest := by
      simp only [next, closeQueueNext, hu, Bool.false_eq_true, ↓reduceIte]
    have hpc : (next s (.closeQueue i r rest)).user i = closeQueuesFrom rest := by
      rw [hnext, queuesClosed, setUser_self]
    refine hb.past hen hcall hpc closeQueuesFrom_closes closeQueuesFrom_willStop
      (by rw [closeQueuesFrom_inspects]; exact (List.nodup_cons.mp hdistinct).2)
      (clear_own hi hb.busy hb.clear hen rfl hpc (by simp) (by simp)) ?_
    rw [work, he, closeQueuesFrom_rank]
    simp only [UserPc.rank]
    omega

/-- Each step of the `close` takes it on. -/
theorem closing_own {futures : List FutureId} (hb : Closing i futures s) (he : Enabled s e)
    (hown : closes i e) :
    ((next s e).user i = .returned ∧ (next s e).pool.closeComplete = true) ∨
      Closing i futures (next s e) ∧ work i (next s e) < work i s := by
  have hi := reachable_invariant hb.reachable
  have hcall := closes_alone hown
  have hnodup := hi.consistent.books.values_nodup
  have hdistinct := hb.distinct
  have past : ∀ {pc}, Event.signals e = none → (next s e).user i = pc →
      UserPc.closes pc = true → UserPc.willStop s.pool pc = [] → (UserPc.inspects pc).Nodup →
      UserPc.unprobed s.pool pc = [] → UserPc.joining pc = none →
      UserPc.rank s.pool.workers.values.length s.pool.futures.values.length pc < work i s →
      Closing i futures (next s e) ∧ work i (next s e) < work i s := by
    intro pc hm hpc hbusy hstop hn hun hj hlt
    refine hb.past he hcall hpc hbusy hstop hn ?_ hlt
    exact clear_own hi hb.busy hb.clear he hm hpc (by simp [hun]) hj
  cases e <;> simp only [closes] at hown <;> subst hown <;> simp only [Enabled] at he
  case closeSignal i =>
    have hans := hb.answers
    rw [he] at hans
    have hclear := clear_own hi hb.busy hb.clear (e := .closeSignal i) he rfl setUser_self
      (by rw [closeProbeFrom_unprobed, he]; exact fun r hr => hr) (by simp)
    refine Or.inr (hb.onward he hcall setUser_self closeProbeFrom_closes
      (fun r hr => hans r (closeProbeFrom_willStop hr)) (closeProbeFrom_distinct hnodup hnodup)
      hclear ?_)
    rw [work, he]
    exact Nat.lt_succ_of_le closeProbeFrom_rank
  case closeProbe i r rest => exact Or.inr (closing_probe hb he)
  case closeStop i k r rest => exact Or.inr (closing_stop hb he)
  case closeResultStop i =>
    refine Or.inr (past rfl setUser_self rfl rfl List.nodup_nil rfl rfl ?_)
    rw [work, he]
    simp only [UserPc.rank]
    omega
  case joinResult i timedOut =>
    have hpc : (next s (.joinResult i timedOut)).user i = .closeJoiningSupervisor := by
      simp only [next, joinResultNext, hb.apart, ↓reduceIte, setUser_self]
    refine Or.inr (past rfl hpc rfl rfl List.nodup_nil rfl rfl ?_)
    rw [work, he.1]
    simp only [UserPc.rank]
    omega
  case joinSupervisor i timedOut =>
    refine Or.inr (past rfl setUser_self rfl rfl List.nodup_nil rfl rfl ?_)
    rw [work, he.1]
    simp only [UserPc.rank]
    omega
  case closeTake i =>
    refine Or.inr (past rfl setUser_self closeFailFrom_closes (by simp)
      (closeFailFrom_distinct hnodup) (by simp) (by simp) ?_)
    rw [work, he, closeFailFrom_rank]
    have : (takeAllPending s.pool).2.length = s.pool.futures.values.length := rfl
    simp only [UserPc.rank]
    omega
  case closeFail i f rest =>
    refine Or.inr (past rfl setUser_self closeFailFrom_closes (by simp)
      (closeFailFrom_distinct hnodup) (by simp) (by simp) ?_)
    rw [work, he, closeFailFrom_rank]
    simp only [UserPc.rank]
    omega
  case closeQueue i r rest => exact Or.inr (closing_queue hb he)
  case joinQueue i r rest =>
    rw [he.1] at hdistinct
    refine Or.inr (past rfl setUser_self closeQueuesFrom_closes (by simp)
      (by rw [closeQueuesFrom_inspects]; exact (List.nodup_cons.mp hdistinct).2) (by simp)
      (by simp) ?_)
    rw [work, he.1, closeQueuesFrom_rank]
    exact Nat.lt_succ_self _
  case closeResult i =>
    refine Or.inr (past rfl setUser_self rfl rfl List.nodup_nil rfl rfl ?_)
    rw [work, he]
    exact Nat.lt_succ_self _
  case closeLogs i =>
    have hpc : (next s (.closeLogs i)).user i = .closeCompleting := by
      simp only [next, closeLogsNext, hb.logs, afterLogs, setUser_self]
    refine Or.inr (past rfl hpc rfl rfl List.nodup_nil rfl rfl ?_)
    rw [work, he]
    exact Nat.lt_succ_self _
  case closeComplete i => exact Or.inl ⟨setUser_self, rfl⟩

end

end PoolClose
