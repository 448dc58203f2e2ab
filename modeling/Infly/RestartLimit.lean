import Infly.RestartHistory
import Infly.SlidingWindow

/-! # The restart limit

`_schedule_restart` counts the restart times in the window, `_restart_worker` adds one later.
The restarts of a worker stay within the limit in any window all the same.
-/
namespace RestartLimit

open Contracts Config PoolState PoolTables PoolGroups PoolModel PoolFrames PoolInvariant
open RestartHistory SlidingWindow

/-- The times at which restarts of the worker began. -/
def restartStarts (g : Log) : List ℚ := g.starts.map Start.time

/-- The worker's queue is all that counts of its restarts, and has room if one is scheduled. -/
structure Metered (w : WorkerState) (times : List ℚ) (clock : ℚ) : Prop where
  kept : Kept w.group.safety.restartWindowSeconds clock times w.restartTimes
  within : Within w.group.safety.restartLimit w.group.safety.restartWindowSeconds times
  room : w.nextRestartAt ≠ none → w.restartTimes.length < w.group.safety.restartLimit

variable {w v : WorkerState} {times : List ℚ} {clock now : ℚ}

theorem Metered.fresh (ht : w.restartTimes = []) (hd : w.nextRestartAt = none) :
    Metered w [] clock := by
  constructor
  · rw [ht]
    exact Kept.nil
  · exact Within.nil
  · intro h
    exact absurd hd h

theorem Metered.untimed (h : Metered w times clock) (hv : Untimed w v) (hg : v.group = w.group)
    (hc : clock ≤ now) : Metered v times now := by
  constructor
  · rw [hv.times, hg]
    exact h.kept.later hc
  · rw [hg]
    exact h.within
  · rw [hv.times, hg]
    intro hd
    apply h.room
    rcases hv.due with heq | hnone
    · rw [← heq]
      exact hd
    · exact absurd hnone hd

theorem Metered.schedule (h : Metered w times clock) (hc : now ≤ clock) :
    Metered (scheduleRestart w now) times clock := by
  have hkept := h.kept.prune hc
  unfold scheduleRestart
  dsimp only
  split
  · constructor
    · exact hkept
    · exact h.within
    · intro hd
      exact absurd rfl hd
  · rename_i hroom
    constructor
    · exact hkept
    · exact h.within
    · intro _
      exact Nat.lt_of_not_le hroom

theorem Metered.record (h : Metered w times clock)
    (hroom : w.restartTimes.length < w.group.safety.restartLimit) :
    Metered { w with nextRestartAt := none, restartTimes := w.restartTimes ++ [clock] }
      (times ++ [clock]) clock := by
  obtain ⟨hkept, hwithin⟩ := h.kept.record hroom h.within
  constructor
  · exact hkept
  · exact hwithin
  · intro hd
    exact absurd rfl hd

variable {ι : Type}

structure Limited (x : Logged ι) : Prop where
  metered : ∀ r < x.state.pool.nextRef,
    Metered (x.state.pool.heap r) (restartStarts (x.logs r)) x.state.clock
  begins : ∀ r, SupervisorPc.begins x.state.supervisor = some r →
    (x.state.pool.heap r).restartTimes.length <
      (x.state.pool.heap r).group.safety.restartLimit

section

variable [DecidableEq ι] {x y : Logged ι} {s : State ι} {e : Event ι} {r : Ref} {logs : Ref → Log}

theorem metered_next (hi : Invariant s) (ht : Timely ⟨s, logs⟩) (h : Limited ⟨s, logs⟩)
    (he : Enabled s e) (hr : r < (next s e).pool.nextRef) :
    Metered ((next s e).pool.heap r) (restartStarts (note s logs e r)) (next s e).clock := by
  by_cases hold : r < s.pool.nextRef
  swap
  · have hlow := Nat.le_of_not_lt hold
    obtain ⟨htimes, hd⟩ := times_allocated hi.consistent hlow hr
    unfold restartStarts
    rw [starts_allocated hi ht he hlow]
    exact Metered.fresh htimes hd
  have hm := h.metered r hold
  by_cases hrec : ∃ rd, e = .record r rd
  · obtain ⟨rd, rfl⟩ := hrec
    have hpc : s.supervisor = .recording r rd := he
    have hroom := h.begins r (by rw [hpc]; rfl)
    have hlog : restartStarts (note s logs (.record r rd) r) =
        restartStarts (logs r) ++ [s.clock] := by
      simp [restartStarts, note]
    rw [hlog]
    simpa [next, recordNext] using hm.record hroom
  push Not at hrec
  have hlog : restartStarts (note s logs e r) = restartStarts (logs r) := by
    unfold restartStarts
    rw [note_starts logs hrec]
  rw [hlog]
  by_cases hs : ∃ rd, e = .schedule r rd
  · obtain ⟨rd, rfl⟩ := hs
    have hpc : s.supervisor = .scheduling r rd := he
    have hread := ht.reading rd.now (by rw [hpc]; rfl)
    simpa [next] using hm.schedule hread
  push Not at hs
  by_cases hres : ∃ rd, e = .reschedule r rd
  · obtain ⟨rd, rfl⟩ := hres
    simp only [next, rescheduleNext]
    split
    · exact hm
    · simpa using hm.schedule (le_refl s.clock)
  push Not at hres
  exact hm.untimed (times_next hi.consistent hold hrec hs hres)
    (worker_frame hi.consistent hold).group (clock_le he)

theorem begins_limited (hi : Invariant s) (h : Limited ⟨s, logs⟩) (he : Enabled s e)
    (hb : SupervisorPc.begins (next s e).supervisor = some r) :
    ((next s e).pool.heap r).restartTimes.length <
      ((next s e).pool.heap r).group.safety.restartLimit := by
  obtain ⟨hlt, hrec, hs, hres⟩ := begins_quiet hi he hb
  rw [(times_next hi.consistent hlt hrec hs hres).times, (worker_frame hi.consistent hlt).group]
  rcases begins_next he hb with hold | ⟨rd, due, -, hdue, -⟩
  · exact h.begins r hold
  · apply (h.metered r hlt).room
    rw [hdue]
    simp

theorem reachable_limited (h : (logged ι).Reachable x) : Limited x := by
  refine Transitions.System.invariant_reachable ?_ ?_ h
  · rintro ⟨s, logs⟩ ⟨⟨registry, groups, p, pipe, logging, -, hp, rfl⟩, rfl⟩
    constructor
    · intro r hr
      obtain ⟨ht, hd⟩ := times_constructed hp r hr
      exact Metered.fresh ht hd
    · intro r h
      cases h
  · rintro ⟨s, logs⟩ e ⟨t, logs'⟩ hr hl ⟨⟨he, rfl⟩, rfl⟩
    have hi := reachable_invariant (logged_reachable hr)
    constructor
    · exact fun r => metered_next hi (reachable_timely hr) hl he
    · exact fun r => begins_limited hi hl he

/-- In every run, any closed interval of length `restart_window_seconds` contains at most
`restart_limit` of the times at which restarts of a worker began. -/
theorem restarts_limited (h : (logged ι).Reachable x) (r : Ref) (a : ℚ) :
    ((x.logs r).starts.filter fun start => decide (a ≤ start.time ∧
        start.time ≤ a + (x.state.pool.heap r).group.safety.restartWindowSeconds)).length ≤
      (x.state.pool.heap r).group.safety.restartLimit := by
  have hl := reachable_limited h
  by_cases hr : r < x.state.pool.nextRef
  · have hw := (hl.metered r hr).within a
    unfold restartStarts at hw
    rw [List.countP_map, List.countP_eq_length_filter] at hw
    exact hw
  · rw [(reachable_timely h).fresh r (Nat.le_of_not_lt hr)]
    exact Nat.zero_le _

end

/-- The only worker of a pool exits, and a second later its restart begins. -/
def restartedOnce : List (Event Unit) :=
  [.processExit 0, .wait, .check 0, .inspect 0 ⟨0, []⟩, .handleExit 0 ⟨0, []⟩,
    .dispatch 0 ⟨0, []⟩, .schedule 0 ⟨0, []⟩, .tick 1, .wait, .check 1, .inspect 0 ⟨1, []⟩,
    .restart 0 ⟨1, []⟩, .record 0 ⟨1, []⟩]

theorem one_restart_limited : ∃ x : Logged Unit, (x.logs 0).starts = [⟨some 0, 1⟩] ∧
    (x.state.pool.heap 0).group.safety.restartLimit = 3 ∧
    ((x.logs 0).starts.filter fun start => decide (1 ≤ start.time ∧
        start.time ≤ 1 + (x.state.pool.heap 0).group.safety.restartWindowSeconds)).length ≤
      (x.state.pool.heap 0).group.safety.restartLimit := by
  have hr : (logged Unit).Reachable
      (restartedOnce.foldl Logged.next (opened ["echo"] [restartGroup])) :=
    logged_replay (by decide +kernel) (by decide +kernel)
  exact ⟨_, by decide +kernel, by decide +kernel, restarts_limited hr 0 1⟩

end RestartLimit
