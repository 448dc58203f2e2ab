import Infly.PoolInvariant

/-! # The supervisor stays alive

`_supervisor_loop` has no handler of its own, so an exception in it ends crash detection.
While the pool is open it raises only when somebody closes the handle of the worker it
restarts, or when a launch fails and leaves a handle that cannot be joined.
-/
namespace PoolSupervision

open Contracts Config PoolState PoolTables PoolAccounting PoolGroups PoolModel PoolFrames
open PoolInvariant

/-- The worker whose handle the supervisor has still to query. -/
def SupervisorPc.queries : SupervisorPc → Option Ref
  | .awaiting r _ | .stopping .join r _ | .stopping .probe r _ | .stopping .terminate r _
  | .stopping .rejoin r _ => some r
  | _ => none

variable {ι : Type}

/-- A step that neither closes the handle the supervisor is about to query nor is a failed
launch that leaves a handle it cannot join. -/
def Undisturbed (s : State ι) : Event ι → Prop
  | .dispose _ (.stop .close) r _ _ =>
    (s.pool.heap r).process = some .exited → SupervisorPc.queries s.supervisor ≠ some r
  | .relaunch r _ o => skips s.pool r = true ∨ o = .started ∨
    o ≠ .startRaises ∧ Manageable (s.pool.heap r)
  | _ => True

instance (s : State ι) (e : Event ι) : Decidable (Undisturbed s e) := by
  apply Event.casesOn (motive := fun e => Decidable (Undisturbed s e)) e
  case dispose =>
    intro i k r rest after
    apply DisposeStep.casesOn
      (motive := fun k => Decidable (Undisturbed s (.dispose i k r rest after))) k
    case stop =>
      intro q
      apply StopStep.casesOn
        (motive := fun q => Decidable (Undisturbed s (.dispose i (.stop q) r rest after))) q
      case close => exact inferInstanceAs (Decidable (_ = _ → _ ≠ _))
      all_goals exact instDecidableTrue
    all_goals exact instDecidableTrue
  case relaunch =>
    intro r rd o
    exact inferInstanceAs (Decidable (_ ∨ _ ∨ _ ∧ _))
  all_goals
    intros
    exact instDecidableTrue

/-- While the pool is open. -/
structure Survives (s : State ι) : Prop where
  running : s.supervisor.ended = false
  signal : s.pool.supervisorStop = false
  manageable : ∀ r, SupervisorPc.queries s.supervisor = some r → Manageable (s.pool.heap r)

theorem queries_restarts {pc : SupervisorPc} {r : Ref} (h : SupervisorPc.queries pc = some r) :
    SupervisorPc.restarts pc = some r := by
  unfold SupervisorPc.queries at h
  split at h <;> first | exact h | cases h

section

variable [DecidableEq ι] {s : State ι} {e : Event ι}

theorem queries_next {r : Ref} (he : Enabled s e)
    (h : SupervisorPc.queries (next s e).supervisor = some r) :
    SupervisorPc.queries s.supervisor = some r ∧ (∀ rd, e ≠ .stopFailed .close r rd) ∨
      ∃ rd o, e = .relaunch r rd o ∧ skips s.pool r = false := by
  by_cases ha : Event.actor e = .supervisor
  swap
  · rw [supervisor_frame ha] at h
    exact Or.inl ⟨h, by rintro rd rfl; exact ha rfl⟩
  cases e <;> simp only [Event.actor, reduceCtorEq] at ha <;> simp only [Enabled] at he
  case relaunch r' rd o =>
    simp only [next, relaunchNext] at h
    split at h
    · have := queries_restarts h
      simp at this
    · rename_i hskip
      have hr : r' = r := by split at h <;> exact Option.some.inj h
      subst hr
      exact Or.inr ⟨rd, o, rfl, by simpa using hskip⟩
  case awaitRestart r' rd o =>
    left
    simp only [next, awaitRestartNext] at h
    split at h <;> first
      | exact ⟨h, by simp⟩
      | exact ⟨by rw [he.1]; exact h, by simp⟩
      | cases h
  case stopFailed k r' rd =>
    left
    simp only [next, stopFailedNext] at h
    split at h
    · cases h
    · rename_i w k' heq
      rw [elim_afterFailedStop] at h
      have hr : r' = r := by
        have := queries_restarts h
        simpa using this
      subst hr
      cases k with
      | join | probe | terminate | rejoin => exact ⟨by rw [he]; rfl, by simp⟩
      | close | mark => cases heq; cases h
  all_goals
    simp only [next, waitNext, checkNext, inspectNext, handleExitNext, exitFailNext, dispatchNext,
      recordNext, completeNext, rescheduleNext, shutdownSignalNext, shutdownStopNext,
      shutdownTakeNext, shutdownFailNext, shutdownLogsNext] at h
    have hr := queries_restarts h
    revert hr h
    (repeat' split) <;> intro h hr <;> first
      | cases h
      | simp at hr

/-- No step that meets the condition makes the supervisor raise. -/
theorem running_next (hi : Invariant s) (hs : Survives s) (he : Enabled s e)
    (hopen : s.pool.closing = false) (hopen' : (next s e).pool.closing = false) :
    (next s e).supervisor.ended = false := by
  have hb := hi.consistent.books
  have round : ∀ now l, (roundFrom now l).ended = false := by
    intro now l; cases l <;> rfl
  by_cases ha : Event.actor e = .supervisor
  swap
  · rw [supervisor_frame ha]; exact hs.running
  cases e <;> simp only [Event.actor, reduceCtorEq] at ha <;> simp only [Enabled] at he
  case wait =>
    simp only [next, waitNext, hs.signal, Bool.false_eq_true, ↓reduceIte]
    rfl
  case check now =>
    simp only [next, checkNext, hopen, Bool.false_eq_true, ↓reduceIte]
    exact round _ _
  case inspect r rd =>
    simp only [next, inspectNext]
    split
    · exact round _ _
    rename_i hskip
    simp only [skips, Bool.or_eq_true, bne_iff_ne, ne_eq, not_or, not_not, Bool.not_eq_true] at hskip
    split
    · rename_i halive
      obtain ⟨x, hx, hu⟩ := hb.handles hopen r ⟨_, hskip.2⟩ halive
      rw [hx]
      rcases hu with rfl | rfl
      · exact round _ _
      · rfl
    · (repeat' split) <;> first | rfl | exact round _ _
  case handleExit r rd =>
    simp only [next, handleExitNext]
    split
    · exact round _ _
    rename_i hskip
    simp only [Bool.or_eq_true, Bool.not_eq_true', bne_iff_ne, ne_eq, not_or, not_not,
      Bool.not_eq_false] at hskip
    obtain ⟨weights, h | ⟨hc, -⟩⟩ := handleWorkerExit_cases hb ⟨_, hskip.2⟩ hskip.1.1
    · rw [h]
      cases (exited s.pool r weights).2 <;> rfl
    · rw [hopen] at hc
      cases hc
  case stopFailed k r rd =>
    have hok : k = .close ∨ k = .mark ∨ Manageable (s.pool.heap r) := by
      have hq := hs.manageable r
      rw [he] at hq
      cases k <;> first
        | exact Or.inl rfl
        | exact Or.inr (Or.inl rfl)
        | exact Or.inr (Or.inr (hq rfl))
    obtain ⟨v, k', hv⟩ := stopProcess_succeeds hok
    simp only [next, stopFailedNext, hv]
    cases k' <;> rfl
  case shutdownStop | shutdownLogs =>
    rw [(hi.shutdown (by rw [he]; rfl)).1] at hopen
    cases hopen
  all_goals
    simp only [next, exitFailNext, dispatchNext, recordNext, relaunchNext, awaitRestartNext,
      completeNext, rescheduleNext, shutdownSignalNext, shutdownTakeNext, shutdownFailNext,
      exitFailFrom, shutdownStopFrom, shutdownFailFrom]
    (repeat' split) <;> first
      | rfl
      | exact round _ _
      | exact hs.running

theorem signal_next (hi : Invariant s) (hs : Survives s) (he : Enabled s e)
    (hopen : s.pool.closing = false) : (next s e).pool.supervisorStop = false := by
  rw [signal_frame hi.consistent ?_ ?_]
  · exact hs.signal
  · rintro i rfl
    rw [(hi.closers i (by rw [show s.user i = .closeSignalling from he]; rfl)).1] at hopen
    cases hopen
  · rintro r rd rfl
    rw [(hi.shutdown (by rw [show s.supervisor = .shutdownSignalling r rd from he]; rfl)).1] at hopen
    cases hopen

/-- The handle under query can still be queried. -/
theorem manageable_next (hi : Invariant s) (hs : Survives s) (he : Enabled s e)
    (hopen : s.pool.closing = false) (hallow : Undisturbed s e) {r : Ref}
    (hq : SupervisorPc.queries (next s e).supervisor = some r) :
    Manageable ((next s e).pool.heap r) := by
  rcases queries_next he hq with ⟨hold, hclose⟩ | ⟨rd, o, rfl, hskip⟩
  · have hm := hs.manageable r hold
    have hrestarts := queries_restarts hold
    obtain ⟨hlt, hforeign⟩ := hi.known r (restarts_refs hrestarts)
    by_cases hre : Event.rehandles e = some r
    · rcases rehandles_owner hi he hre with ⟨i, job, rest, o, -, hj, hr⟩ | ⟨i, rest, a, rfl, -⟩ |
        ⟨i, rest, -, hc⟩ | ⟨rd, o, rfl⟩ | ⟨rd, rfl⟩ | ⟨rest, w, rd, -, hc⟩
      · exact absurd hr (hforeign i job hj)
      · intro x hx
        simp only [next, disposeNext, stopProcess, setUser_pool, modify_pool, modify_heap,
          Function.update_self] at hx
        cases hp : (s.pool.heap r).process with
        | none => rw [hp] at hx; cases hx
        | some y =>
          rw [hp] at hx
          rcases hm y hp with rfl | rfl
          · cases hx; exact Or.inl rfl
          · exact absurd hold (hallow hp)
      · rw [hopen] at hc; cases hc
      · rw [show s.supervisor = .relaunching r rd from he] at hold; cases hold
      · exact absurd rfl (hclose rd)
      · rw [hopen] at hc; cases hc
    · rcases process_frame hi.consistent hlt hre with hp | ⟨-, hp⟩ <;> intro x hx <;> rw [hp] at hx
      · exact hm x hx
      · cases hx; exact Or.inr rfl
  · simp only [next, relaunchNext, hskip, Bool.false_eq_true, ↓reduceIte, modify_heap,
      Function.update_self]
    rcases hallow with h | rfl | ⟨hne, hm⟩
    · rw [hskip] at h; cases h
    · intro x hx; cases hx; exact Or.inl rfl
    · cases o with
      | started => intro x hx; cases hx; exact Or.inl rfl
      | startRaises => exact absurd rfl hne
      | setupRaises | queueRaises => exact hm

theorem survives_next (hi : Invariant s) (hs : Survives s) (he : Enabled s e)
    (hopen : s.pool.closing = false) (hopen' : (next s e).pool.closing = false)
    (hallow : Undisturbed s e) : Survives (next s e) :=
  ⟨running_next hi hs he hopen hopen', signal_next hi hs he hopen, fun _ =>
    manageable_next hi hs he hopen hallow⟩

omit [DecidableEq ι] in
/-- While the pool is open, a running supervisor can always take its next step. -/
theorem supervisor_enabled (hi : Invariant s) (hopen : s.pool.closing = false)
    (h : s.supervisor.ended = false) : ∃ e, Event.actor e = .supervisor ∧ Enabled s e := by
  cases hpc : s.supervisor with
  | waiting => exact ⟨.wait, rfl, hpc⟩
  | checking now => exact ⟨.check now, rfl, hpc⟩
  | inspecting r rd => exact ⟨.inspect r rd, rfl, hpc⟩
  | handlingExit r rd => exact ⟨.handleExit r rd, rfl, hpc⟩
  | failing f rest r rd => exact ⟨.exitFail f rest r rd, rfl, hpc⟩
  | dispatching r rd => exact ⟨.dispatch r rd, rfl, hpc⟩
  | scheduling r rd => exact ⟨.schedule r rd, rfl, hpc⟩
  | restarting r rd => exact ⟨.restart r rd, rfl, hpc⟩
  | recording r rd => exact ⟨.record r rd, rfl, hpc⟩
  | relaunching r rd => exact ⟨.relaunch r rd .started, rfl, hpc⟩
  | awaiting r rd => exact ⟨.awaitRestart r rd .timedOut, rfl, hpc, by simp⟩
  | markingReady r rd => exact ⟨.markReady r rd, rfl, hpc⟩
  | completing r rd => exact ⟨.complete r rd, rfl, hpc⟩
  | stopping k r rd => exact ⟨.stopFailed k r rd, rfl, hpc⟩
  | rescheduling r rd => exact ⟨.reschedule r rd, rfl, hpc⟩
  | shutdownFlagging r rd => exact ⟨.shutdownFlag r rd, rfl, hpc⟩
  | shutdownSignalling r rd => exact ⟨.shutdownSignal r rd, rfl, hpc⟩
  | shutdownStopping k w rest r rd => exact ⟨.shutdownStop k w rest r rd, rfl, hpc⟩
  | shutdownTaking r rd => exact ⟨.shutdownTake r rd, rfl, hpc⟩
  | shutdownFailing f rest r rd => exact ⟨.shutdownFail f rest r rd, rfl, hpc⟩
  | shutdownLogging r rd => exact ⟨.shutdownLogs r rd, rfl, hpc⟩
  | hanging =>
    rw [(hi.shutdown (by rw [hpc]; rfl)).1] at hopen
    cases hopen
  | stopped | crashed e => rw [hpc] at h; cases h

theorem raise_crashes {k : StopStep} {r : Ref} {rd : Round} {x : Raised}
    (hopen : s.pool.closing = false) (hpc : s.supervisor = .stopping k r rd)
    (hx : stopProcess (s.pool.heap r) k = .error x) :
    ∃ t, Transitions.Execution Step s t ∧ t.pool.closing = false ∧
      ∃ x, t.supervisor = .crashed x := by
  refine ⟨_, .single (e := .stopFailed k r rd) ⟨hpc, rfl⟩, ?_⟩
  simp only [next, stopFailedNext, hx]
  exact ⟨hopen, x, rfl⟩

/-- Whatever query comes next on a closed handle, it raises. -/
theorem closed_crashes (hopen : s.pool.closing = false) {r : Ref}
    (hq : SupervisorPc.queries s.supervisor = some r)
    (hx : (s.pool.heap r).process = some .closed) :
    ∃ t, Transitions.Execution Step s t ∧ t.pool.closing = false ∧
      ∃ x, t.supervisor = .crashed x := by
  have hraise : ∀ k, k ≠ .close → k ≠ .mark →
      stopProcess (s.pool.heap r) k = .error processClosed := by
    intro k h h'
    cases k <;> simp only [stopProcess, hx] <;> first | rfl | contradiction
  cases hpc : s.supervisor <;> rw [hpc] at hq <;> try cases hq
  case awaiting r rd =>
    have hstep : Step s (.awaitRestart r rd .timedOut) { s with supervisor := .stopping .join r rd } :=
      ⟨⟨hpc, by simp⟩, by simp only [next, awaitRestartNext, awaitTurn]⟩
    obtain ⟨t, hrun, ht⟩ := raise_crashes (s := { s with supervisor := .stopping .join r rd }) hopen
      rfl (hraise .join (by simp) (by simp))
    exact ⟨t, (Transitions.Execution.single hstep).trans hrun, ht⟩
  case stopping k r' rd =>
    have hr : r' = r := by
      have := queries_restarts hq
      simpa [SupervisorPc.restarts] using this
    subst hr
    refine raise_crashes hopen hpc (hraise k ?_ ?_) <;> rintro rfl <;> cases hq

/-- From a step that does not meet the condition some run lets an exception escape. -/
theorem disturbed_crashes (hopen : s.pool.closing = false) (he : Enabled s e)
    (h : ¬ Undisturbed s e) : ∃ t, Transitions.Execution Step (next s e) t ∧
      t.pool.closing = false ∧ ∃ x, t.supervisor = .crashed x := by
  unfold Undisturbed at h
  split at h
  · rename_i i r rest a
    simp only [Classical.not_imp, not_not] at h
    obtain ⟨hx, hq⟩ := h
    refine closed_crashes (r := r) ?_ ?_ ?_
    · simpa [next, disposeNext, stopProcess] using hopen
    · rwa [supervisor_frame (by simp [Event.actor])]
    · simp [next, disposeNext, stopProcess, hx, Process.close]
  · rename_i r rd o
    simp only [not_or, not_and, Bool.not_eq_true] at h
    obtain ⟨hskip, ho, hm⟩ := h
    have hpc : (next s (.relaunch r rd o)).supervisor = .stopping .join r rd := by
      simp [next, relaunchNext, hskip, ho]
    have hheap : (next s (.relaunch r rd o)).pool.heap r = launchWorker (s.pool.heap r) o := by
      simp [next, relaunchNext, hskip]
    have hopen' : (next s (.relaunch r rd o)).pool.closing = false := by
      simpa [next, relaunchNext, hskip] using hopen
    have hjoin : ∃ x, stopProcess (launchWorker (s.pool.heap r) o) .join = .error x := by
      cases o with
      | started => exact absurd rfl ho
      | startRaises => exact ⟨_, rfl⟩
      | setupRaises | queueRaises =>
        have hm := hm (by simp)
        simp only [Manageable, Classical.not_forall] at hm
        obtain ⟨x, hx, hbad⟩ := hm
        simp only [launchWorker, stopProcess, hx]
        cases x with
        | unstarted | closed => exact ⟨_, rfl⟩
        | running => exact absurd (Or.inl rfl) hbad
        | exited => exact absurd (Or.inr rfl) hbad
    obtain ⟨x, hx⟩ := hjoin
    exact raise_crashes hopen' hpc (by rw [hheap]; exact hx)
  · exact absurd trivial h

/-- In every run whose steps all meet the condition, as long as the pool is open no
exception has ended the supervisor, and it can go on; and no weaker condition does. -/
theorem supervisor_survives :
    (∀ s : State ι, ((system ι).restrict Undisturbed).Reachable s → s.pool.closing = false →
      s.supervisor.ended = false ∧ ∃ e, Event.actor e = .supervisor ∧ Enabled s e) ∧
    ∀ (s : State ι) (e : Event ι), Reachable s → s.pool.closing = false → Enabled s e →
      ¬ Undisturbed s e → ∃ t, Transitions.Execution Step (next s e) t ∧
        t.pool.closing = false ∧ ∃ x, t.supervisor = .crashed x := by
  refine ⟨fun s h hopen => ?_, fun s e _ hopen he h => disturbed_crashes hopen he h⟩
  have hs : s.pool.closing = false → Survives s := by
    refine Transitions.System.invariant_reachable (P := fun s => s.pool.closing = false → Survives s)
      ?_ ?_ h
    · rintro s ⟨registry, groups, p, pipe, logs, -, hp, rfl⟩ -
      exact ⟨rfl, (construct_prepared hp).signals.1, fun r hr => by cases hr⟩
    · rintro s e t hr hs ⟨hallow, he, rfl⟩ hopen'
      have hi := reachable_invariant (Transitions.System.restrict_reachable hr)
      have hopen : s.pool.closing = false := by
        by_contra hc
        rw [(closing_frame hi.consistent (by simpa using hc)).1] at hopen'
        cases hopen'
      exact survives_next hi (hs hopen) he hopen hopen' hallow
  exact ⟨(hs hopen).running, supervisor_enabled
    (reachable_invariant (Transitions.System.restrict_reachable h)) hopen (hs hopen).running⟩

end

/-! ## A run in which an unload meets a restart -/

def restarting : List WorkerGroup := [restartGroup]

/-- The only worker exits and is restarted; the supervisor waits for READY. -/
def restarted : List (Event Unit) :=
  [.processExit 0, .wait, .check 0, .inspect 0 ⟨0, []⟩, .handleExit 0 ⟨0, []⟩, .dispatch 0 ⟨0, []⟩,
    .schedule 0 ⟨0, []⟩, .tick 1, .wait, .check 1, .inspect 0 ⟨1, []⟩, .restart 0 ⟨1, []⟩,
    .record 0 ⟨1, []⟩, .relaunch 0 ⟨1, []⟩ .started]

def unloaded : AfterDispose := .failFutures [] ⟨.workerUnavailable, "WorkerGroup 'g' was unloaded"⟩

/-- Meanwhile the group is unregistered and its worker's process stopped and closed. -/
def unloadedUnderRestart : List (Event Unit) :=
  restarted ++ [.unregisterCall () "g", .dispose () .mark 0 [] unloaded,
    .dispose () .probe 0 [] unloaded, .dispose () (.stop .join) 0 [] unloaded,
    .dispose () (.stop .probe) 0 [] unloaded, .dispose () (.stop .terminate) 0 [] unloaded,
    .processExit 0, .dispose () (.stop .rejoin) 0 [] unloaded,
    .dispose () (.stop .close) 0 [] unloaded, .awaitRestart 0 ⟨1, []⟩ .empty,
    .stopFailed .join 0 ⟨1, []⟩]

/-- The supervisor dies of the handle that the unload closed. -/
theorem unload_crashes_supervisor : ∃ s : State Unit, Reachable s ∧ s.pool.closing = false ∧
    s.supervisor = .crashed (.valueError "process object is closed") :=
  have hr : Reachable (unloadedUnderRestart.foldl next
      (started (constructed ["echo"] restarting))) :=
    reachable_replay (by decide +kernel) (by decide +kernel)
  ⟨_, hr, by decide +kernel, by decide +kernel⟩

theorem supervisor_survives_restart : ∃ s : State Unit,
    s.supervisor = .awaiting 0 ⟨1, []⟩ ∧ s.supervisor.ended = false := by
  have hr : ((system Unit).restrict Undisturbed).Reachable
      (restarted.foldl next (started (constructed ["echo"] restarting))) :=
    Transitions.Valid.reachable (E := fun s e => Undisturbed s e ∧ Enabled s e)
      (by decide +kernel) (init_constructed (by decide +kernel)) fun s e h => ⟨h.1, h.2, rfl⟩
  exact ⟨_, by decide +kernel, (supervisor_survives.1 _ hr (by decide +kernel)).1⟩

end PoolSupervision
