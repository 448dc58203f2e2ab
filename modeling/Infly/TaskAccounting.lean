import Infly.Observability
import Infly.Transitions
import Mathlib.Data.Int.Notation

/-! # Accounting over task runs

Threads report on many tasks in any order. The calls for one task are `record_submitted`, at
most one `record_started` and at most one of `record_completed` and `record_failed`.
-/
namespace TaskAccounting

open Contracts Observability Transitions

/-- How far the calls for a task have come. -/
inductive Phase where
  | fresh | submitted | started | finished
  deriving DecidableEq

def Phase.open : Phase → Bool
  | .submitted | .started => true
  | .fresh | .finished => false

structure State where
  metrics : RuntimeInstrumentation := {}
  phase : TaskId → Phase := fun _ => .fresh

inductive Event where
  | submitted (now : ℕ) (t : TaskId) (request : TaskRequest)
  | started (t : TaskId) (request : TaskRequest)
  | completed (now : ℕ) (t : TaskId) (request : TaskRequest)
  | failed (now : ℕ) (t : TaskId) (request : TaskRequest) (errorCode : Option ErrorCode)
      (errorMessage : Option String)

def Event.finishes : Event → Option TaskId
  | .completed _ t _ | .failed _ t _ _ _ => some t
  | .submitted _ _ _ | .started _ _ => none

def Enabled (s : State) : Event → Prop
  | .submitted _ t _ => s.phase t = .fresh
  | .started t _ => s.phase t = .submitted
  | .completed _ t _ | .failed _ t _ _ _ => (s.phase t).open = true

/-- The section under the lock; the sinks are called after it. -/
def next (s : State) : Event → State
  | .submitted now t request => {
      metrics := (s.metrics.recordSubmitted now t request).2
      phase := Function.update s.phase t .submitted }
  | .started t request => {
      metrics := (s.metrics.recordStarted t request).2
      phase := Function.update s.phase t .started }
  | .completed now t request => {
      metrics := (s.metrics.recordCompleted now t request).2
      phase := Function.update s.phase t .finished }
  | .failed now t request errorCode errorMessage => {
      metrics := (s.metrics.recordFailed now t request errorCode errorMessage).2
      phase := Function.update s.phase t .finished }

def system : System State Event where
  init s := s = {}
  step s e s' := Enabled s e ∧ s' = next s e

/-! ## The sections -/

variable {m : RuntimeInstrumentation} {t u : TaskId} {s : State} {e : Event} {now : ℕ}

/-- The end of a task that has a start time. -/
theorem finish_known (hs : m.submittedAt.get? t ≠ none) (now : ℕ) (completed : Bool) :
    ∃ duration, m.finish now t completed = (some duration, { m with
      submittedAt := m.submittedAt.pop t
      inflightTasks := m.inflightTasks - 1
      completedTotal := if completed then m.completedTotal + 1 else m.completedTotal
      failedTotal := if completed then m.failedTotal else m.failedTotal + 1
      latencies := m.latencies ++ [duration]
      lastLatency := some duration }) := by
  obtain ⟨started, hg⟩ := Option.ne_none_iff_exists'.mp hs
  refine ⟨now - started, ?_⟩
  simp only [RuntimeInstrumentation.finish, hg]

theorem size_set (hs : m.submittedAt.get? t = none) (now : ℕ) :
    (m.submittedAt.set t now).keys.length = m.submittedAt.keys.length + 1 := by
  simp [Dict.keys, Dict.set_entries_new hs]

theorem size_pop (hs : m.submittedAt.get? t ≠ none) :
    (m.submittedAt.pop t).keys.length + 1 = m.submittedAt.keys.length := by
  have hmem : t ∈ m.submittedAt.keys := by
    by_contra hno
    exact hs (Dict.get?_eq_none.mpr hno)
  have herase : (m.submittedAt.pop t).keys = m.submittedAt.keys.erase t := by
    have nodup : m.submittedAt.keys.Nodup := m.submittedAt.nodup
    rw [Dict.keys_pop, nodup.erase_eq_filter t]
    apply List.filter_congr
    intro j _
    by_cases h : j = t <;> simp [h]
  rw [herase, List.length_erase_of_mem hmem]
  have := List.length_pos_of_mem hmem
  omega

/-! ## Runs -/

/-- The counters, the open tasks and the latencies add up. -/
structure Accounts (s : State) : Prop where
  totals : s.metrics.submittedTotal =
    s.metrics.inflightTasks + s.metrics.completedTotal + s.metrics.failedTotal
  size : s.metrics.inflightTasks = s.metrics.submittedAt.keys.length
  keys : ∀ t, t ∈ s.metrics.submittedAt.keys ↔ (s.phase t).open = true
  latencies : s.metrics.latencies.length = s.metrics.completedTotal + s.metrics.failedTotal

theorem Accounts.found (h : Accounts s) (ht : (s.phase t).open = true) :
    s.metrics.submittedAt.get? t ≠ none ∧ 0 < s.metrics.inflightTasks := by
  have hmem : t ∈ s.metrics.submittedAt.keys := (h.keys t).mpr ht
  constructor
  · intro hn
    exact Dict.get?_eq_none.mp hn hmem
  · rw [h.size]
    exact List.length_pos_of_mem hmem

theorem Accounts.submitted (h : Accounts s) (ht : s.phase t = .fresh) (now : ℕ)
    (request : TaskRequest) : Accounts (next s (.submitted now t request)) := by
  have hnew : s.metrics.submittedAt.get? t = none := by
    apply Dict.get?_eq_none.mpr
    rw [h.keys, ht]
    decide
  have totals := h.totals
  have size := h.size
  constructor
  · simp only [next, RuntimeInstrumentation.recordSubmitted]
    omega
  · simp only [next, RuntimeInstrumentation.recordSubmitted]
    rw [size_set hnew]
    omega
  · intro u
    simp only [next, RuntimeInstrumentation.recordSubmitted, Dict.mem_keys_set]
    by_cases hu : u = t
    · subst hu
      simp [Phase.open]
    · rw [Function.update_of_ne hu]
      simp only [hu, false_or]
      exact h.keys u
  · exact h.latencies

theorem Accounts.started (h : Accounts s) (ht : s.phase t = .submitted)
    (request : TaskRequest) : Accounts (next s (.started t request)) := by
  constructor
  · exact h.totals
  · exact h.size
  · intro u
    simp only [next, RuntimeInstrumentation.recordStarted]
    rw [h.keys u]
    by_cases hu : u = t
    · subst hu
      rw [Function.update_self, ht]
      decide
    · rw [Function.update_of_ne hu]
  · exact h.latencies

theorem Accounts.finished (h : Accounts s) (ht : (s.phase t).open = true) (now : ℕ)
    (completed : Bool) : Accounts {
      metrics := (s.metrics.finish now t completed).2
      phase := Function.update s.phase t .finished } := by
  obtain ⟨hknown, hpos⟩ := h.found ht
  obtain ⟨duration, hfinish⟩ := finish_known hknown now completed
  have totals := h.totals
  have size := h.size
  have latencies := h.latencies
  constructor
  · rw [hfinish]
    cases completed <;> simp only [Bool.false_eq_true, ↓reduceIte] <;> omega
  · rw [hfinish]
    have := size_pop hknown
    dsimp only
    omega
  · intro u
    rw [hfinish]
    simp only [Dict.mem_keys_pop]
    by_cases hu : u = t
    · subst hu
      simp [Phase.open]
    · rw [Function.update_of_ne hu]
      simp only [hu, ne_eq, not_false_eq_true, true_and]
      exact h.keys u
  · rw [hfinish]
    cases completed <;> simp only [List.length_append, List.length_singleton, Bool.false_eq_true,
      ↓reduceIte] <;> omega

theorem accounts_next (h : Accounts s) (he : Enabled s e) : Accounts (next s e) := by
  cases e with
  | submitted now t request => exact h.submitted he now request
  | started t request => exact h.started he request
  | completed now t request => exact h.finished he now true
  | failed now t request errorCode errorMessage => exact h.finished he now false

theorem reachable_accounts (h : system.Reachable s) : Accounts s := by
  refine System.invariant (S := system) ?_ (fun u e v hu hs => ?_) h
  · rintro s rfl
    refine ⟨rfl, rfl, ?_, rfl⟩
    intro t
    simp [Phase.open, Dict.keys_empty]
  · obtain ⟨he, rfl⟩ := hs
    exact accounts_next hu he

/-- After every step the gauge is what was submitted and not finished, and the number of start
times kept, which are those of the open tasks; each end has a latency. The next end finds its
start time and a positive gauge. -/
theorem task_accounts (h : system.Reachable s) :
    (s.metrics.metricsSnapshot.inflightTasks : ℤ) = s.metrics.metricsSnapshot.submittedTotal -
      s.metrics.metricsSnapshot.completedTotal - s.metrics.metricsSnapshot.failedTotal ∧
    s.metrics.metricsSnapshot.inflightTasks = s.metrics.submittedAt.keys.length ∧
    (∀ t, t ∈ s.metrics.submittedAt.keys ↔ s.phase t = .submitted ∨ s.phase t = .started) ∧
    s.metrics.metricsSnapshot.latencyCount =
      s.metrics.metricsSnapshot.completedTotal + s.metrics.metricsSnapshot.failedTotal ∧
    ∀ e, Enabled s e → ∀ t, e.finishes = some t →
      s.metrics.submittedAt.get? t ≠ none ∧ 0 < s.metrics.inflightTasks := by
  have accounts := reachable_accounts h
  have totals := accounts.totals
  refine ⟨?_, accounts.size, ?_, accounts.latencies, ?_⟩
  · simp only [RuntimeInstrumentation.metricsSnapshot]
    omega
  · intro t
    rw [accounts.keys t]
    cases s.phase t <;> simp [Phase.open]
  · intro e he t ht
    cases e with
    | submitted now u request | started u request => cases ht
    | completed now u request | failed now u request errorCode errorMessage =>
      cases ht
      exact accounts.found he

def sampleRequest (t : TaskId) : TaskRequest := { handlerName := "h", taskId := t }

/-- Two tasks submitted, and the first of them completed. -/
def overlapping : List Event :=
  [.submitted 1 "a" (sampleRequest "a"), .submitted 2 "b" (sampleRequest "b"), .started "a" (sampleRequest "a"),
    .completed 5 "a" (sampleRequest "a")]

theorem overlapping_tasks_accounted :
    ((overlapping.foldl next {}).metrics.metricsSnapshot.inflightTasks : ℤ) = 2 - 1 - 0 ∧
      ∀ t, t ∈ (overlapping.foldl next {}).metrics.submittedAt.keys ↔
        (overlapping.foldl next {}).phase t = .submitted ∨
          (overlapping.foldl next {}).phase t = .started := by
  have start : system.Reachable {} := System.reachable_init rfl
  have first := start.next (S := system) (e := .submitted 1 "a" (sampleRequest "a")) ⟨rfl, rfl⟩
  have second := first.next (S := system) (e := .submitted 2 "b" (sampleRequest "b")) ⟨rfl, rfl⟩
  have third := second.next (S := system) (e := .started "a" (sampleRequest "a")) ⟨rfl, rfl⟩
  have fourth := third.next (S := system) (e := .completed 5 "a" (sampleRequest "a")) ⟨rfl, rfl⟩
  obtain ⟨gauge, -, keys, -⟩ := task_accounts fourth
  exact ⟨gauge, keys⟩

end TaskAccounting
