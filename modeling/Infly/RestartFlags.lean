import Infly.RestartHistory

/-! # Alive or waiting for a restart

`alive` and `next_restart_at` are written by several threads, some of them without the lock.
-/
namespace RestartFlags

open Contracts Config PoolState PoolTables PoolAccounting PoolGroups PoolModel PoolFrames
open PoolInvariant RestartHistory

/-- The worker whose exit is being handled, until its restart is scheduled. -/
def SupervisorPc.handles : SupervisorPc → Option Ref
  | .failing _ _ r _ | .dispatching r _ | .scheduling r _ => some r
  | _ => none

/-- The worker whose restart is recorded, until it is alive again. -/
def SupervisorPc.relaunches : SupervisorPc → Option Ref
  | .relaunching r _ | .awaiting r _ | .markingReady r _ => some r
  | _ => none

theorem handles_refs {pc : SupervisorPc} {r : Ref} (h : SupervisorPc.handles pc = some r) :
    r ∈ SupervisorPc.refs pc := by
  cases pc <;> simp [SupervisorPc.handles] at h <;> simp [SupervisorPc.refs, h]

theorem relaunches_restarts {pc : SupervisorPc} {r : Ref}
    (h : SupervisorPc.relaunches pc = some r) : SupervisorPc.restarts pc = some r := by
  cases pc <;> simp [SupervisorPc.relaunches] at h <;> simp [SupervisorPc.restarts, h]

@[simp] theorem roundFrom_handles (now : ℚ) (l : List Ref) :
    SupervisorPc.handles (roundFrom now l) = none := by cases l <;> rfl

@[simp] theorem exitFailFrom_handles (r : Ref) (rd : Round) (l : List FutureId) :
    SupervisorPc.handles (exitFailFrom r rd l) = some r := by cases l <;> rfl

@[simp] theorem shutdownStopFrom_handles (r : Ref) (rd : Round) (l : List Ref) :
    SupervisorPc.handles (shutdownStopFrom r rd l) = none := by cases l <;> rfl

@[simp] theorem shutdownFailFrom_handles (r : Ref) (rd : Round) (l : List FutureId) :
    SupervisorPc.handles (shutdownFailFrom r rd l) = none := by cases l <;> rfl

@[simp] theorem afterShutdown_handles (rd : Round) (x : LogStop) :
    SupervisorPc.handles (afterShutdown rd x) = none := by
  cases x with
  | returns => exact roundFrom_handles ..
  | raises | hangs => rfl

@[simp] theorem afterFailedStop_handles (k : Option StopStep) (r : Ref) (rd : Round) :
    SupervisorPc.handles (afterFailedStop k r rd) = none := by cases k <;> rfl

@[simp] theorem afterShutdownStop_handles (k : Option StopStep) (w : Ref) (rest : List Ref)
    (r : Ref) (rd : Round) :
    SupervisorPc.handles (afterShutdownStop k w rest r rd) = none := by
  cases k with
  | none => exact shutdownStopFrom_handles ..
  | some k => rfl

@[simp] theorem roundFrom_relaunches (now : ℚ) (l : List Ref) :
    SupervisorPc.relaunches (roundFrom now l) = none := by cases l <;> rfl

@[simp] theorem exitFailFrom_relaunches (r : Ref) (rd : Round) (l : List FutureId) :
    SupervisorPc.relaunches (exitFailFrom r rd l) = none := by cases l <;> rfl

@[simp] theorem shutdownStopFrom_relaunches (r : Ref) (rd : Round) (l : List Ref) :
    SupervisorPc.relaunches (shutdownStopFrom r rd l) = none := by cases l <;> rfl

@[simp] theorem shutdownFailFrom_relaunches (r : Ref) (rd : Round) (l : List FutureId) :
    SupervisorPc.relaunches (shutdownFailFrom r rd l) = none := by cases l <;> rfl

@[simp] theorem afterShutdown_relaunches (rd : Round) (x : LogStop) :
    SupervisorPc.relaunches (afterShutdown rd x) = none := by
  cases x with
  | returns => exact roundFrom_relaunches ..
  | raises | hangs => rfl

@[simp] theorem afterFailedStop_relaunches (k : Option StopStep) (r : Ref) (rd : Round) :
    SupervisorPc.relaunches (afterFailedStop k r rd) = none := by cases k <;> rfl

@[simp] theorem afterShutdownStop_relaunches (k : Option StopStep) (w : Ref) (rest : List Ref)
    (r : Ref) (rd : Round) :
    SupervisorPc.relaunches (afterShutdownStop k w rest r rd) = none := by
  cases k with
  | none => exact shutdownStopFrom_relaunches ..
  | some k => rfl

variable {ι : Type}

structure Flagged (s : State ι) : Prop where
  apart : ∀ r < s.pool.nextRef, (s.pool.heap r).alive = true →
    (s.pool.heap r).nextRestartAt = none
  handled : ∀ r, SupervisorPc.handles s.supervisor = some r → (s.pool.heap r).alive = false
  recorded : ∀ r, SupervisorPc.relaunches s.supervisor = some r →
    (s.pool.heap r).nextRestartAt = none
  fresh : ∀ i job, UserPc.job (s.user i) = some job →
    ∀ r ∈ job.workers, (s.pool.heap r).nextRestartAt = none

section

variable [DecidableEq ι] {s : State ι} {e : Event ι} {r : Ref}

/-- An exit is handled from the locked section on that marks the worker. -/
theorem handles_next (hi : Invariant s) (he : Enabled s e)
    (h : SupervisorPc.handles (next s e).supervisor = some r) :
    SupervisorPc.handles s.supervisor = some r ∨ ((next s e).pool.heap r).alive = false := by
  by_cases ha : Event.actor e = .supervisor
  swap
  · exact .inl (supervisor_frame (s := s) ha ▸ h)
  cases e <;> simp only [Event.actor, reduceCtorEq] at ha <;> simp only [Enabled] at he
  case handleExit r' rd =>
    right
    simp only [next, handleExitNext] at h
    split at h
    · simp at h
    · rename_i hskip
      split at h
      · cases h
      · rename_i p failed heq
        simp only [exitFailFrom_handles, Option.some.injEq] at h
        subst h
        simp only [Bool.or_eq_true, Bool.not_eq_true', bne_iff_ne, ne_eq, not_or, not_not,
          Bool.not_eq_false, Bool.not_eq_true] at hskip
        obtain ⟨weights, hexit | ⟨-, x, hexit⟩⟩ :=
          handleWorkerExit_cases hi.consistent.books ⟨_, hskip.2⟩ hskip.1.1
        · rw [hexit] at heq
          cases heq
          simp [next, handleExitNext, hskip, hexit, exited, takeWorkerFuturesLocked]
        · rw [hexit] at heq
          cases heq
  case awaitRestart r' rd o =>
    left
    simp only [next, awaitRestartNext] at h
    split at h <;> first | cases h | exact h
  all_goals
    left
    simp only [next, waitNext, checkNext, inspectNext, exitFailNext, dispatchNext, recordNext,
      relaunchNext, completeNext, stopFailedNext, rescheduleNext, shutdownSignalNext,
      shutdownStopNext, shutdownTakeNext, shutdownFailNext, shutdownLogsNext] at h
    rw [he]
    revert h
    (repeat' split) <;> intro h <;> first
      | cases h; done
      | (simp at h; done)
      | exact h
      | (simp at h; subst h; rfl)

/-- The supervisor takes no other worker under restart before this one is recorded. -/
theorem relaunches_next (he : Enabled s e)
    (h : SupervisorPc.relaunches (next s e).supervisor = some r) :
    (SupervisorPc.relaunches s.supervisor = some r ∨
        ((next s e).pool.heap r).nextRestartAt = none) ∧
      (∀ rd, e ≠ .schedule r rd) ∧ ∀ rd, e ≠ .reschedule r rd := by
  by_cases ha : Event.actor e = .supervisor
  swap
  · refine ⟨.inl (supervisor_frame (s := s) ha ▸ h), ?_, ?_⟩ <;>
    · rintro rd rfl
      exact ha rfl
  cases e <;> simp only [Event.actor, reduceCtorEq] at ha <;> simp only [Enabled] at he
  case record r' rd =>
    refine ⟨.inr ?_, by simp⟩
    cases h
    simp [next, recordNext]
  case awaitRestart r' rd o =>
    refine ⟨.inl ?_, by simp⟩
    simp only [next, awaitRestartNext] at h
    split at h <;> first | cases h; done | exact h | exact he.1 ▸ h
  all_goals
    simp only [next, waitNext, checkNext, inspectNext, handleExitNext, exitFailNext, dispatchNext,
      relaunchNext, completeNext, stopFailedNext, rescheduleNext, shutdownSignalNext,
      shutdownStopNext, shutdownTakeNext, shutdownFailNext, shutdownLogsNext] at h
    rw [he]
    revert h
    (repeat' split) <;> intro h <;> first
      | cases h; done
      | (simp at h; done)
      | exact ⟨.inl h, by simp⟩

omit [DecidableEq ι] in
/-- What the supervisor works on is known to no registration. -/
theorem refs_foreign (hi : Invariant s) {i : ι} {job : Registration}
    (h : r ∈ SupervisorPc.refs s.supervisor) (hj : UserPc.job (s.user i) = some job) :
    r ∉ job.workers := (hi.known r h).2 i job hj

omit [DecidableEq ι] in
theorem awaited_worker (hi : Invariant s) {i : ι} {job : Registration} {rest : List Ref}
    {o : AwaitOutcome} (he : Enabled s (.awaitReady i job r rest o)) :
    UserPc.job (s.user i) = some job ∧ r ∈ job.workers := by
  have hpc : s.user i = .awaiting job r rest := he.1
  have hj : UserPc.job (s.user i) = some job := by rw [hpc]; rfl
  exact ⟨hj, (hi.jobs i job hj).pending r (by rw [hpc]; exact List.mem_cons_self)⟩

theorem handled_next (hi : Invariant s) (hf : Flagged s) (he : Enabled s e)
    (h : SupervisorPc.handles (next s e).supervisor = some r) :
    ((next s e).pool.heap r).alive = false := by
  rcases handles_next hi he h with hold | hdone
  · apply alive_frame hi.consistent (hf.handled r hold)
    · rintro i job rest o rfl
      obtain ⟨hj, hr⟩ := awaited_worker hi he
      exact refs_foreign hi (handles_refs hold) hj hr
    · rintro rd rfl
      have hpc : s.supervisor = .markingReady r rd := he
      rw [hpc] at hold
      cases hold
  · exact hdone

theorem recorded_next (hi : Invariant s) (hf : Flagged s) (he : Enabled s e)
    (h : SupervisorPc.relaunches (next s e).supervisor = some r) :
    ((next s e).pool.heap r).nextRestartAt = none := by
  obtain ⟨hold | hdone, hs, hres⟩ := relaunches_next he h
  · by_cases hrec : ∃ rd, e = .record r rd
    · obtain ⟨rd, rfl⟩ := hrec
      simp [next, recordNext]
    · push Not at hrec
      have hr := (hi.known r (restarts_refs (relaunches_restarts hold))).1
      rcases (times_next hi.consistent hr hrec hs hres).due with hdue | hdue
      · exact hdue.trans (hf.recorded r hold)
      · exact hdue
  · exact hdone

theorem fresh_next (hi : Invariant s) (hf : Flagged s) (he : Enabled s e) {i : ι}
    {job : Registration} (hj : UserPc.job ((next s e).user i) = some job) (hr : r ∈ job.workers) :
    ((next s e).pool.heap r).nextRestartAt = none := by
  have hout := ((invariant_next hi he).outside i r (by rw [job_owned hj]; exact hr)).1
  by_cases hlt : r < s.pool.nextRef
  swap
  · exact (times_allocated hi.consistent (Nat.le_of_not_lt hlt) hout).2
  have hold : UserPc.job (s.user i) = some job := by
    rcases job_next he hj with hold | ⟨group, names, -, -, -, rfl, -⟩
    · exact hold
    · obtain ⟨k, -, rfl⟩ := List.mem_map.mp hr
      exact absurd hlt (by simp)
  have foreign : r ∉ SupervisorPc.refs s.supervisor := fun h => refs_foreign hi h hold hr
  have times : Untimed (s.pool.heap r) ((next s e).pool.heap r) := by
    apply times_next hi.consistent hlt <;>
    · rintro rd rfl
      simp only [Enabled] at he
      exact foreign (by rw [he]; exact List.mem_cons_self)
  rcases times.due with hdue | hdue
  · exact hdue.trans (hf.fresh i job hold r hr)
  · exact hdue

omit [DecidableEq ι] in
/-- A step that schedules a restart finds the worker dead. -/
theorem scheduled_dead (hi : Invariant s) (hf : Flagged s) (he : Enabled s e)
    (h : (∃ rd, e = .schedule r rd) ∨ ∃ rd, e = .reschedule r rd) :
    (s.pool.heap r).alive = false := by
  rcases h with ⟨rd, rfl⟩ | ⟨rd, rfl⟩ <;> simp only [Enabled] at he
  · exact hf.handled r (by rw [he]; rfl)
  · exact hi.dead r (by rw [he]; rfl)

theorem apart_next (hi : Invariant s) (hf : Flagged s) (he : Enabled s e)
    (hr : r < (next s e).pool.nextRef) (ha : ((next s e).pool.heap r).alive = true) :
    ((next s e).pool.heap r).nextRestartAt = none := by
  by_cases hlt : r < s.pool.nextRef
  swap
  · exact (times_allocated hi.consistent (Nat.le_of_not_lt hlt) hr).2
  by_cases hrec : ∃ rd, e = .record r rd
  · obtain ⟨rd, rfl⟩ := hrec
    simp [next, recordNext]
  push Not at hrec
  -- A worker that a step schedules for restart stays dead in it.
  have unscheduled : (∀ rd, e ≠ .schedule r rd) ∧ ∀ rd, e ≠ .reschedule r rd := by
    constructor <;>
    · rintro rd rfl
      have hdead := scheduled_dead (r := r) hi hf he (by simp)
      rw [alive_frame hi.consistent hdead (by simp) (by simp)] at ha
      cases ha
  have hnone : (s.pool.heap r).nextRestartAt = none := by
    by_cases hold : (s.pool.heap r).alive = true
    · exact hf.apart r hlt hold
    by_cases hready : ∃ i job rest o, e = .awaitReady i job r rest o
    · obtain ⟨i, job, rest, o, rfl⟩ := hready
      obtain ⟨hj, hmem⟩ := awaited_worker hi he
      exact hf.fresh i job hj r hmem
    by_cases hmark : ∃ rd, e = .markReady r rd
    · obtain ⟨rd, rfl⟩ := hmark
      exact hf.recorded r (by rw [show s.supervisor = .markingReady r rd from he]; rfl)
    push Not at hready hmark
    rw [alive_frame hi.consistent (by simpa using hold) hready hmark] at ha
    cases ha
  rcases (times_next hi.consistent hlt hrec unscheduled.1 unscheduled.2).due with hdue | hdue
  · exact hdue.trans hnone
  · exact hdue

theorem flagged_next (hi : Invariant s) (hf : Flagged s) (he : Enabled s e) :
    Flagged (next s e) where
  apart _ hr ha := apart_next hi hf he hr ha
  handled _ h := handled_next hi hf he h
  recorded _ h := recorded_next hi hf he h
  fresh _ _ hj _ hr := fresh_next hi hf he hj hr

theorem reachable_flagged (h : Reachable s) : Flagged s := by
  refine Transitions.System.invariant_reachable ?_ ?_ h
  · rintro s ⟨registry, groups, p, pipe, logs, -, hp, rfl⟩
    constructor
    · intro r hr _
      exact (times_constructed hp r hr).2
    · intro r h
      cases h
    · intro r h
      cases h
    · intro i job h
      cases h
  · rintro s e t hr hf ⟨he, rfl⟩
    exact flagged_next (reachable_invariant hr) hf he

/-- No worker of the table is both alive and waiting for a restart. -/
theorem unscheduled_alive (h : Reachable s) (hr : r ∈ s.pool.workers.values)
    (ha : (s.pool.heap r).alive = true) : (s.pool.heap r).nextRestartAt = none :=
  (reachable_flagged h).apart r
    ((reachable_invariant h).consistent.books.allocated r (inTable_values.mpr hr)) ha

end

end RestartFlags
