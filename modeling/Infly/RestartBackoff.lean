import Infly.RestartHistory

/-! # The restart backoff

The delay before a restart is counted from the reading at the head of the supervisor's round,
so time spent on other workers in the same round shortens it.
-/
namespace RestartBackoff

open Contracts Config PoolState PoolTables PoolGroups PoolModel PoolFrames PoolInvariant
open RestartHistory

variable {ι : Type}

/-- An exit is scheduled for restart without delay since the reading, unless there is no
backoff or no restart left in the window. -/
def Prompt (s : State ι) : Event ι → Prop
  | .schedule r rd =>
    let w := s.pool.heap r
    rd.now = s.clock ∨ w.group.safety.restartBackoffSeconds = 0 ∨
      w.group.safety.restartLimit ≤ (w.restartTimes.dropWhile fun t =>
        decide (t < rd.now - w.group.safety.restartWindowSeconds)).length
  | _ => True

instance (s : State ι) (e : Event ι) : Decidable (Prompt s e) := by
  apply Event.casesOn (motive := fun e => Decidable (Prompt s e)) e
  case schedule =>
    intro r rd
    exact inferInstanceAs (Decidable (_ ∨ _ ∨ _))
  all_goals
    intros
    exact instDecidableTrue

/-- The restart ahead and the restarts behind wait for the backoff. -/
structure Delayed (w : WorkerState) (g : Log) (clock : ℚ) : Prop where
  ahead : ∀ due, w.nextRestartAt = some due → ∃ t, g.scheduled = some t ∧
    t + w.group.safety.restartBackoffSeconds ≤ max due clock
  behind : ∀ start ∈ g.starts, ∃ t, start.scheduled = some t ∧
    t + w.group.safety.restartBackoffSeconds ≤ start.time

variable {w v : WorkerState} {g g' : Log} {clock now : ℚ}

theorem Delayed.fresh (hd : w.nextRestartAt = none) (hs : g.starts = []) : Delayed w g clock := by
  constructor
  · intro due h
    rw [hd] at h
    cases h
  · intro start h
    rw [hs] at h
    cases h

theorem Delayed.untimed (h : Delayed w g clock) (hv : Untimed w v) (hg : v.group = w.group)
    (hlog : g' = g) (hc : clock ≤ now) : Delayed v g' now := by
  subst hlog
  constructor
  · intro due hdue
    rw [hg]
    rcases hv.due with heq | hnone
    · rw [heq] at hdue
      obtain ⟨t, ht, hle⟩ := h.ahead due hdue
      exact ⟨t, ht, le_trans hle (max_le_max (le_refl due) hc)⟩
    · rw [hnone] at hdue
      cases hdue
  · rw [hg]
    exact h.behind

/-- Scheduled at once, or with nothing to wait for. -/
theorem Delayed.schedule (h : Delayed w g clock)
    (hp : now = clock ∨ w.group.safety.restartBackoffSeconds = 0 ∨
      w.group.safety.restartLimit ≤ (w.restartTimes.dropWhile fun t =>
        decide (t < now - w.group.safety.restartWindowSeconds)).length) :
    Delayed (scheduleRestart w now) (g.schedule (scheduleRestart w now) clock) clock := by
  have hgroup : (scheduleRestart w now).group = w.group := (scheduleRestart_books w now).1.group
  constructor
  · intro due hdue
    refine ⟨clock, by simp [Log.schedule, hdue], ?_⟩
    rw [hgroup]
    unfold scheduleRestart at hdue
    dsimp only at hdue
    split at hdue
    · cases hdue
    · rename_i hroom
      cases hdue
      rcases hp with rfl | hzero | hfull
      · exact le_max_left _ _
      · rw [hzero, add_zero]
        exact le_max_right _ _
      · exact absurd hfull hroom
  · rw [hgroup]
    exact h.behind

theorem Delayed.record (h : Delayed w g clock)
    (hb : ∃ t, g.scheduled = some t ∧ t + w.group.safety.restartBackoffSeconds ≤ clock) :
    Delayed { w with nextRestartAt := none, restartTimes := w.restartTimes ++ [clock] }
      { g with starts := g.starts ++ [⟨g.scheduled, clock⟩] } clock := by
  constructor
  · intro due hdue
    cases hdue
  · intro start hstart
    rcases List.mem_append.mp hstart with hold | hnew
    · exact h.behind start hold
    · rw [List.mem_singleton.mp hnew]
      exact hb

structure Waiting (x : Logged ι) : Prop where
  delayed : ∀ r < x.state.pool.nextRef, Delayed (x.state.pool.heap r) (x.logs r) x.state.clock
  begins : ∀ r, SupervisorPc.begins x.state.supervisor = some r →
    ∃ t, (x.logs r).scheduled = some t ∧
      t + (x.state.pool.heap r).group.safety.restartBackoffSeconds ≤ x.state.clock

section

variable [DecidableEq ι] {x : Logged ι} {s : State ι} {e : Event ι} {r : Ref} {logs : Ref → Log}

theorem delayed_next (hi : Invariant s) (ht : Timely ⟨s, logs⟩) (h : Waiting ⟨s, logs⟩)
    (he : Enabled s e) (hp : Prompt s e) (hr : r < (next s e).pool.nextRef) :
    Delayed ((next s e).pool.heap r) (note s logs e r) (next s e).clock := by
  by_cases hold : r < s.pool.nextRef
  swap
  · have hlow := Nat.le_of_not_lt hold
    exact Delayed.fresh (times_allocated hi.consistent hlow hr).2 (starts_allocated hi ht he hlow)
  have hd := h.delayed r hold
  by_cases hrec : ∃ rd, e = .record r rd
  · obtain ⟨rd, rfl⟩ := hrec
    have hpc : s.supervisor = .recording r rd := he
    have hb := h.begins r (by rw [hpc]; rfl)
    simpa [next, recordNext, note] using hd.record hb
  push Not at hrec
  by_cases hs : ∃ rd, e = .schedule r rd
  · obtain ⟨rd, rfl⟩ := hs
    simpa [next, note] using hd.schedule hp
  push Not at hs
  by_cases hres : ∃ rd, e = .reschedule r rd
  · obtain ⟨rd, rfl⟩ := hres
    simp only [next, rescheduleNext, note]
    split
    · exact hd
    · simpa using hd.schedule (.inl rfl)
  push Not at hres
  have hun := times_next hi.consistent hold hrec hs hres
  have hgroup := (worker_frame (e := e) hi.consistent hold).group
  have hc := clock_le he
  constructor
  · intro due hdue
    rw [note_scheduled logs hs hres]
    exact (hd.untimed hun hgroup rfl hc).ahead due hdue
  · rw [note_starts logs hrec]
    exact (hd.untimed hun hgroup rfl hc).behind

theorem begins_waiting (hi : Invariant s) (ht : Timely ⟨s, logs⟩) (h : Waiting ⟨s, logs⟩)
    (he : Enabled s e) (hb : SupervisorPc.begins (next s e).supervisor = some r) :
    ∃ t, (note s logs e r).scheduled = some t ∧
      t + ((next s e).pool.heap r).group.safety.restartBackoffSeconds ≤ (next s e).clock := by
  obtain ⟨hlt, hrec, hs, hres⟩ := begins_quiet hi he hb
  rw [note_scheduled logs hs hres, (worker_frame hi.consistent hlt).group]
  have hc := clock_le he
  rcases begins_next he hb with hold | ⟨rd, due, hpc, hdue, hle⟩
  · obtain ⟨t, hsched, hwait⟩ := h.begins r hold
    exact ⟨t, hsched, le_trans hwait hc⟩
  · obtain ⟨t, hsched, hwait⟩ := (h.delayed r hlt).ahead due hdue
    have hread := ht.reading rd.now (by rw [hpc]; rfl)
    refine ⟨t, hsched, le_trans hwait ?_⟩
    exact max_le (le_trans hle (le_trans hread hc)) hc

/-- Runs in which every exit is scheduled promptly. -/
def prompt (ι : Type) [DecidableEq ι] : Transitions.System (Logged ι) (Event ι) :=
  (logged ι).restrict fun x e => Prompt x.state e

theorem reachable_waiting (h : (prompt ι).Reachable x) : Waiting x := by
  refine Transitions.System.invariant_reachable ?_ ?_ h
  · rintro ⟨s, logs⟩ ⟨⟨registry, groups, p, pipe, logging, -, hp, rfl⟩, rfl⟩
    constructor
    · intro r hr
      exact Delayed.fresh (times_constructed hp r hr).2 rfl
    · intro r h
      cases h
  · rintro ⟨s, logs⟩ e ⟨t, logs'⟩ hr hw ⟨hp, ⟨he, rfl⟩, rfl⟩
    have hl := Transitions.System.restrict_reachable hr
    have hi := reachable_invariant (logged_reachable hl)
    constructor
    · exact fun r => delayed_next hi (reachable_timely hl) hw he hp
    · exact fun r => begins_waiting hi (reachable_timely hl) hw he

/-- If every exit is scheduled promptly, no restart begins before its backoff is over. -/
theorem restarts_wait (h : (prompt ι).Reachable x) (r : Ref) :
    ∀ start ∈ (x.logs r).starts, ∃ t, start.scheduled = some t ∧
      t + (x.state.pool.heap r).group.safety.restartBackoffSeconds ≤ start.time := by
  by_cases hr : r < x.state.pool.nextRef
  · exact ((reachable_waiting h).delayed r hr).behind
  · rw [(reachable_timely (Transitions.System.restrict_reachable h)).fresh r (Nat.le_of_not_lt hr)]
    intro start hs
    cases hs

end

/-! ## Two workers of one group -/

/-- The first worker exits; in the round at second one its restart begins. -/
def firstRestart : List (Event Unit) :=
  [.processExit 0, .wait, .check 0, .inspect 0 ⟨0, [1]⟩, .handleExit 0 ⟨0, [1]⟩,
    .dispatch 0 ⟨0, [1]⟩, .schedule 0 ⟨0, [1]⟩, .inspect 1 ⟨0, []⟩, .tick 1, .wait, .check 1,
    .inspect 0 ⟨1, [1]⟩, .restart 0 ⟨1, [1]⟩, .record 0 ⟨1, [1]⟩]

/-- The restart takes five seconds. Meanwhile the second worker exits; at second six its
restart is scheduled for second two, and the next round begins it. -/
def secondRestart : List (Event Unit) :=
  firstRestart ++ [.relaunch 0 ⟨1, [1]⟩ .started, .processExit 1, .tick 5,
    .awaitRestart 0 ⟨1, [1]⟩ .ready, .markReady 0 ⟨1, [1]⟩, .complete 0 ⟨1, [1]⟩,
    .inspect 1 ⟨1, []⟩, .handleExit 1 ⟨1, []⟩, .dispatch 1 ⟨1, []⟩, .schedule 1 ⟨1, []⟩, .wait,
    .check 6, .inspect 0 ⟨6, [1]⟩, .inspect 1 ⟨6, []⟩, .restart 1 ⟨6, []⟩, .record 1 ⟨6, []⟩]

/-- The second worker's restart begins at the very time it is scheduled. -/
theorem restart_before_backoff : ∃ x : Logged Unit, (logged Unit).Reachable x ∧
    (x.logs 1).starts = [⟨some 6, 6⟩] ∧
    (x.state.pool.heap 1).group.safety.restartBackoffSeconds = 1 := by
  have hr : (logged Unit).Reachable
      (secondRestart.foldl Logged.next (opened ["echo"] [restartPair])) :=
    logged_replay (by decide +kernel) (by decide +kernel)
  exact ⟨_, hr, by decide +kernel, by decide +kernel⟩

theorem first_restart_waits : ∃ x : Logged Unit, (x.logs 0).starts = [⟨some 0, 1⟩] ∧
    ∀ start ∈ (x.logs 0).starts, ∃ t, start.scheduled = some t ∧
      t + (x.state.pool.heap 0).group.safety.restartBackoffSeconds ≤ start.time := by
  have hr : (prompt Unit).Reachable
      (firstRestart.foldl Logged.next (opened ["echo"] [restartPair])) := by
    apply Transitions.Valid.reachable
      (E := fun (x : Logged Unit) e => Prompt x.state e ∧ Enabled x.state e)
    · decide +kernel
    · exact ⟨init_constructed (by decide +kernel), rfl⟩
    · intro x e h
      exact ⟨h.1, ⟨h.2, rfl⟩, rfl⟩
  exact ⟨_, by decide +kernel, restarts_wait hr 0⟩

end RestartBackoff
