import Infly.PoolInvariant

/-! # Who may still close a worker's handle

A handle that one thread has closed makes the next thread that queries it raise. These are
the runs of the supervisor, and of processes that exit, in which that happens.
-/
namespace PoolHandles

open Contracts Config PoolState PoolTables PoolAccounting PoolGroups PoolModel PoolFrames
open PoolInvariant

/-- The worker whose handle the supervisor may still close, its restart having failed or
failing yet. -/
def SupervisorPc.mayClose : SupervisorPc → Option Ref
  | .awaiting r _ => some r
  | .stopping k r _ => if k = .mark then none else some r
  | _ => none

/-- How many operations of `_stop_process` are left, at most. -/
def StopStep.rank : StopStep → ℕ
  | .join => 6
  | .probe => 5
  | .terminate => 4
  | .rejoin => 3
  | .close => 2
  | .mark => 1

theorem stopProcess_rank {w v : WorkerState} {k k' : StopStep}
    (h : stopProcess w k = .ok (v, some k')) : StopStep.rank k' < StopStep.rank k := by
  cases k <;> cases hp : w.process with
  | none => simp only [stopProcess, hp] at h; cases h <;> decide
  | some x =>
    cases x <;> simp only [stopProcess, hp] at h <;> cases h <;> decide

theorem mayClose_restarts {pc : SupervisorPc} {r : Ref}
    (h : SupervisorPc.mayClose pc = some r) : SupervisorPc.restarts pc = some r := by
  unfold SupervisorPc.mayClose at h
  split at h
  · exact h
  · split at h
    · cases h
    · exact h
  · cases h

variable {ι : Type}

section

variable [DecidableEq ι] {s : State ι} {e : Event ι} {i : ι}

/-- The supervisor comes to close a handle by launching its worker again. -/
theorem mayClose_next {r : Ref} (he : Enabled s e)
    (h : SupervisorPc.mayClose (next s e).supervisor = some r) :
    SupervisorPc.mayClose s.supervisor = some r ∨
      ∃ rd o, e = .relaunch r rd o ∧ skips s.pool r = false := by
  by_cases ha : Event.actor e = .supervisor
  swap
  · exact Or.inl (supervisor_frame (s := s) ha ▸ h)
  cases e <;> simp only [Event.actor, reduceCtorEq] at ha <;> simp only [Enabled] at he
  case relaunch r' rd o =>
    right
    simp only [next, relaunchNext] at h
    split at h
    · have := mayClose_restarts h
      simp at this
    · rename_i hskip
      have hr : r' = r := by split at h <;> exact Option.some.inj h
      subst hr
      exact ⟨rd, o, rfl, by simpa using hskip⟩
  case awaitRestart r' rd o =>
    left
    simp only [next, awaitRestartNext] at h
    split at h <;> first
      | exact h
      | exact he.1 ▸ h
      | cases h
  case stopFailed k r' rd =>
    left
    simp only [next, stopFailedNext] at h
    split at h
    · cases h
    · rename_i heq
      rw [elim_afterFailedStop] at h
      have hr : r' = r := by simpa using mayClose_restarts h
      subst hr
      cases k with
      | mark => cases heq; cases h
      | join | probe | terminate | rejoin | close => rw [he]; rfl
  all_goals
    simp only [next, waitNext, checkNext, inspectNext, handleExitNext, exitFailNext, dispatchNext,
      recordNext, completeNext, rescheduleNext, shutdownSignalNext, shutdownStopNext,
      shutdownTakeNext, shutdownFailNext, shutdownLogsNext] at h
    have hr := mayClose_restarts h
    revert hr h
    (repeat' split) <;> intro h hr <;> first
      | cases h
      | simp at hr

theorem skips_outside {p : Pool} {r : Ref} (h : ¬ InTable p r) : skips p r = true := by
  have : p.workers.get? (p.heap r).workerId ≠ some r := fun hr => h ⟨_, hr⟩
  simp [skips, this]

/-- A worker outside the table that the supervisor will not close is left to the thread that
disposes of it; its process may exit. -/
theorem handle_frame (hi : Invariant s) (he : Enabled s e) {r : Ref} (hlt : r < s.pool.nextRef)
    (hout : ¬ InTable s.pool r)
    (hown : ∀ j, Event.actor e = .user j → r ∉ UserPc.owned (s.user j))
    (hclose : ∀ y, (s.pool.heap r).process = some y → SupervisorPc.mayClose s.supervisor ≠ some r)
    {h : Process} (hx : ((next s e).pool.heap r).process = some h) :
    (s.pool.heap r).process = some h ∨ (s.pool.heap r).process = some .running ∧ h = .exited := by
  by_cases hre : Event.rehandles e = some r
  · rcases rehandles_owner hi he hre with ⟨j, job, rest, o, rfl, hj, hmem⟩ |
      ⟨j, rest, a, rfl, hmem⟩ | ⟨j, rest, rfl, -⟩ | ⟨rd, o, rfl⟩ | ⟨rd, rfl⟩ | ⟨rest, w, rd, rfl, -⟩
    · exact absurd (by rw [job_owned hj]; exact hmem) (hown j rfl)
    · exact absurd hmem (hown j rfl)
    · exact absurd ((hi.closers j (by rw [show s.user j = _ from he]; rfl)).2 r
        (by rw [show s.user j = _ from he]; exact List.mem_cons_self)) hout
    · left
      simpa [next, relaunchNext, skips_outside hout] using hx
    · have hpc : SupervisorPc.mayClose s.supervisor = some r := by
        rw [show s.supervisor = .stopping .close r rd from he]; rfl
      cases hp : (s.pool.heap r).process with
      | none => simp [next, stopFailedNext, stopProcess, hp] at hx
      | some y => exact absurd hpc (hclose y hp)
    · exact absurd ((hi.shutdown (by rw [show s.supervisor = _ from he]; rfl)).2 r
        (by rw [show s.supervisor = _ from he]; exact List.mem_cons_self)) hout
  · rcases process_frame (e := e) hi.consistent hlt hre with hp | ⟨rfl, hp⟩
    · exact Or.inl (hp ▸ hx)
    · rw [hp] at hx
      cases hx
      exact Or.inr ⟨he, rfl⟩

/-! ## Workers have handles -/

theorem handle_kept (hp : Consistent s.pool) {r : Ref} (hr : r < s.pool.nextRef)
    (h : (s.pool.heap r).process ≠ none) : ((next s e).pool.heap r).process ≠ none := by
  have launch : ∀ o, (launchWorker (s.pool.heap r) o).process ≠ none := by
    intro o
    cases o <;> simp [launchWorker, h]
  have stop : ∀ {k v k'}, stopProcess (s.pool.heap r) k = .ok (v, k') → v.process ≠ none := by
    intro k v k' hv
    rw [(stopProcess_ok hv).2.2.2]
    split <;> simp [h]
  by_cases hre : Event.rehandles e = some r
  · unfold Event.rehandles at hre
    split at hre <;> simp only [Option.some.injEq, reduceCtorEq] at hre <;> subst hre <;>
      simp only [next, launchNext, relaunchNext, disposeNext, closeStopNext, stopFailedNext,
        shutdownStopNext] <;>
      (repeat' split) <;>
      simp only [setUser_pool, modify_pool, modify_heap, Function.update_self] <;> first
        | exact h
        | exact launch _
        | (rename_i hv; exact stop hv)
  · rcases process_frame (e := e) hp hr hre with hk | ⟨-, hk⟩ <;> rw [hk]
    · exact h
    · simp

/-- Every worker of the table has been launched. -/
theorem table_handled (h : Reachable s) {r : Ref} (hr : InTable s.pool r) :
    (s.pool.heap r).process ≠ none := by
  have all : ∀ r, InTable s.pool r → (s.pool.heap r).process ≠ none := by
    refine Transitions.System.invariant_reachable
      (P := fun s : State ι => ∀ r, InTable s.pool r → (s.pool.heap r).process ≠ none) ?_ ?_ h
    · rintro s ⟨registry, groups, p, pipe, logs, -, hp, rfl⟩
      exact (construct_prepared hp).handles
    · rintro s e t hs ih ⟨he, rfl⟩ r hr
      have hi := reachable_invariant hs
      rcases inTable_next hi he hr with hin | ⟨i, job, rfl, hj, hmem⟩
      · exact handle_kept hi.consistent (hi.consistent.books.allocated r hin) (ih r hin)
      · have hown := hi.outside i r (by rw [job_owned hj]; exact hmem)
        refine handle_kept hi.consistent hown.1 ?_
        obtain ⟨x, hx, -⟩ := (hi.jobs i job hj).usable r hmem (by
          rw [show s.user i = .publishing job from he]
          exact List.not_mem_nil)
        rw [hx]
        simp
  exact all r hr

/-! ## Runs that close a handle -/

/-- Steps of the supervisor and exits of processes. -/
def Background (s : State ι) (e : Event ι) (t : State ι) : Prop :=
  (Event.actor e = .supervisor ∨ ∃ r, e = .processExit r) ∧ Step s e t

theorem background_user {t : State ι} (run : Transitions.Execution Background s t) :
    t.user = s.user := by
  refine run.preserves (P := fun t => t.user = s.user) ?_ rfl
  rintro t e u ht ⟨ha, -, rfl⟩
  rw [← ht]
  funext j
  refine user_frame ?_
  rcases ha with ha | ⟨r, rfl⟩
  · rw [ha]; simp
  · simp [Event.actor]

omit [DecidableEq ι] in
/-- A thread that takes `_stop_process` on an exited process step by step closes its handle. -/
theorem stop_closes {R : State ι → Event ι → State ι → Prop} {A : StopStep → State ι → Prop}
    {r : Ref} (go : ∀ s k w k', A k s → stopProcess (s.pool.heap r) k = .ok (w, some k') →
      ∃ e t, R s e t ∧ t.pool.heap r = w ∧ A k' t) {k : StopStep} (hk : k ≠ .mark)
    (hs : A k s) (hx : (s.pool.heap r).process = some .exited) :
    ∃ t, Transitions.Execution R s t ∧ (t.pool.heap r).process = some .closed := by
  have last : ∀ s : State ι, A .close s → (s.pool.heap r).process = some .exited →
      ∃ t, Transitions.Execution R s t ∧ (t.pool.heap r).process = some .closed := by
    intro s hs hx
    obtain ⟨e, t, hst, hw, -⟩ := go s .close _ .mark hs rfl
    exact ⟨t, .single hst, by rw [hw, hx]; rfl⟩
  have before : ∀ k k', (∀ w : WorkerState, w.process = some .exited →
      stopProcess w k = .ok (w, some k')) →
      (∀ s : State ι, A k' s → (s.pool.heap r).process = some .exited →
        ∃ t, Transitions.Execution R s t ∧ (t.pool.heap r).process = some .closed) →
      ∀ s : State ι, A k s → (s.pool.heap r).process = some .exited →
        ∃ t, Transitions.Execution R s t ∧ (t.pool.heap r).process = some .closed := by
    intro k k' hstop hlater s hs hx
    obtain ⟨e, u, hst, hw, hu⟩ := go s k _ k' hs (hstop _ hx)
    obtain ⟨t, run, ht⟩ := hlater u hu (by rw [hw, hx])
    exact ⟨t, (Transitions.Execution.single hst).trans run, ht⟩
  have rejoin := before .rejoin .close (fun w h => by simp only [stopProcess, h]; rfl) last
  have probe := before .probe .close (fun w h => by simp only [stopProcess, h]; rfl) last
  cases k with
  | close => exact last s hs hx
  | rejoin => exact rejoin s hs hx
  | terminate =>
    exact before .terminate .rejoin (fun w h => by simp only [stopProcess, h]; rfl) rejoin s hs hx
  | probe => exact probe s hs hx
  | join => exact before .join .probe (fun w h => by simp only [stopProcess, h]; rfl) probe s hs hx
  | mark => exact absurd rfl hk

/-- The supervisor closes the handle of a worker whose restart failed. -/
theorem stopping_closes {r : Ref} {rd : Round} {k : StopStep} (hk : k ≠ .mark)
    (hpc : s.supervisor = .stopping k r rd) (hx : (s.pool.heap r).process = some .exited) :
    ∃ t, Transitions.Execution Background s t ∧ (t.pool.heap r).process = some .closed := by
  refine stop_closes (A := fun k s => s.supervisor = .stopping k r rd) ?_ hk hpc hx
  intro s k w k' hpc hw
  refine ⟨.stopFailed k r rd, _, ⟨Or.inl rfl, hpc, rfl⟩, ?_, ?_⟩ <;>
    simp [next, stopFailedNext, hw]

theorem mayClose_closes {r : Ref} (hm : SupervisorPc.mayClose s.supervisor = some r) {h : Process}
    (hp : (s.pool.heap r).process = some h) (hu : h.Usable) :
    ∃ t, Transitions.Execution Background s t ∧ (t.pool.heap r).process = some .closed := by
  have exited : ∀ s : State ι, SupervisorPc.mayClose s.supervisor = some r →
      (s.pool.heap r).process = some .exited →
      ∃ t, Transitions.Execution Background s t ∧ (t.pool.heap r).process = some .closed := by
    intro s hm hx
    cases hpc : s.supervisor <;> rw [hpc] at hm <;> try cases hm
    case awaiting rd =>
      have hst : Background s (.awaitRestart r rd .timedOut)
          { s with supervisor := .stopping .join r rd } :=
        ⟨Or.inl rfl, ⟨hpc, by simp⟩, by simp only [next, awaitRestartNext, awaitTurn]⟩
      obtain ⟨t, run, ht⟩ := stopping_closes (s := { s with supervisor := .stopping .join r rd })
        (k := .join) (by simp) rfl hx
      exact ⟨t, (Transitions.Execution.single hst).trans run, ht⟩
    case stopping k r' rd =>
      simp only [SupervisorPc.mayClose] at hm
      split at hm
      · cases hm
      · rename_i hk
        cases hm
        exact stopping_closes hk hpc hx
  rcases hu with rfl | rfl
  · have hst : Background s (.processExit r) (next s (.processExit r)) := ⟨Or.inr ⟨r, rfl⟩, hp, rfl⟩
    obtain ⟨t, run, ht⟩ := exited (next s (.processExit r)) hm (by simp [next])
    exact ⟨t, (Transitions.Execution.single hst).trans run, ht⟩
  · exact exited s hm hp

end

/-! ## A run in which a restart fails -/

def twoWorkers : List WorkerGroup := [restartPair]

/-- Worker 0 of two exits, and again before it is ready, so the supervisor closes its handle;
then worker 1 gets a task. -/
def restartFailed : List (Event Unit) :=
  [.processExit 0, .wait, .check 0, .inspect 0 ⟨0, [1]⟩, .handleExit 0 ⟨0, [1]⟩,
    .dispatch 0 ⟨0, [1]⟩, .schedule 0 ⟨0, [1]⟩, .inspect 1 ⟨0, []⟩, .tick 1, .wait, .check 1,
    .inspect 0 ⟨1, [1]⟩, .restart 0 ⟨1, [1]⟩, .record 0 ⟨1, [1]⟩, .relaunch 0 ⟨1, [1]⟩ .started,
    .processExit 0, .awaitRestart 0 ⟨1, [1]⟩ .empty, .stopFailed .join 0 ⟨1, [1]⟩,
    .stopFailed .probe 0 ⟨1, [1]⟩, .stopFailed .close 0 ⟨1, [1]⟩, .stopFailed .mark 0 ⟨1, [1]⟩,
    .reschedule 0 ⟨1, [1]⟩, .execute { handlerName := "echo", taskId := "t" } []]

end PoolHandles
