import Infly.SchedulerControl
import Infly.SchedulerLedger

/-! # What a thread has in hand

The task that a thread deals with at a program counter, the tasks it has still to fail, and
the one thread that fails the leftover tasks.
-/
namespace SchedulerDuties

open Contracts TaskBackend SchedulerState SchedulerModel SchedulerLocks SchedulerControl
  SchedulerLedger Transitions

def contDuty (t : TaskId) (refused done : Level) : Cont → Option (TaskId × Level)
  | .rollback _ => some (t, refused)
  | .finish _ | .sweep _ _ => some (t, done)
  | .coroutine _ => none

def reportDuty : Report → Option (TaskId × Level)
  | .submitted _ => none
  | .started t _ => some (t, .started)
  | .ended t _ _ => some (t, .ended)

def enderLevel : Ender → Level
  | .failTask _ | .workerLoop _ => .failing
  | .completeTask o => .completing o

variable {ι : Type}

/-- The task that a thread has in hand. A registered callback that has not run yet has its
future's task. -/
def duty (L : Ledger) (a : Thread ι) : Pc → Option (TaskId × Level)
  | .acquiringSlot job => some (job.task, .fresh)
  | .addingId job => some (job.task, .slotted)
  | .storing job => some (job.task, .entered)
  | .reporting k | .tracing k _ => reportDuty k
  | .releasing t c => contDuty t .withdrawn .ended c
  | .givingBack t c => contDuty t .unslotted .repaying c
  | .notifying (.finished t _) => some (t, .closing)
  | .resolving t (.finish _) | .resolving t (.sweep _ _)
  | .scheduling _ t (.finish _) | .scheduling _ t (.sweep _ _) => some (t, .closing)
  | .sweeping _ _ _ => none
  | .checking t => some (t, .pulled)
  | .running t _ => some (t, .checked)
  | .executing t _ => some (t, .started)
  | .addingCallback t f => some (t, .ran f)
  | .fetching t (.workerLoop _) => some (t, .handling)
  | .fetching t m | .updating t m _ => some (t, enderLevel m)
  | .uncalled =>
    match a with
    | .callback f =>
      if (L.futures f).registered then some ((L.futures f).task, .awaiting f) else none
    | _ => none
  | _ => none

/-- The tasks that a sweeping thread has still to fail. -/
def todo : Pc → List TaskId
  | .sweeping t _ rest => t :: rest
  | .releasing _ (.sweep _ rest) | .givingBack _ (.sweep _ rest) | .resolving _ (.sweep _ rest)
  | .scheduling _ _ (.sweep _ rest) => rest
  | _ => []

/-- The ids that a sweeping thread has copied. -/
def copied : Pc → Finset TaskId
  | .listingRecords ids => ids
  | _ => ∅

/-- The end of a task is reported with the request found in its record. -/
def requestFound : Pc → Bool
  | .updating _ _ none => false
  | _ => true

def Swept (z : Zone) : Prop := z = .sweeping ∨ z = .removing ∨ z = .leaving

/-- No worker thread will pull a task any more. -/
structure Quiet (s : State ι) : Prop where
  closed : s.shared.closed = true
  workers : ∀ k, s.shared.worker k = .running → Swept (zone (s.pc (.worker k)))

/-! ## Sweeping -/

section

variable {s t : State ι} {a b : Thread ι} {p : Pc} {e : Event ι}

/-- Only clients and workers sweep, one at a time. -/
theorem sweeping_maySweep (hp : runsOn a p = true) (hz : zone p = .sweeping) :
    maySweep a = true := by
  cases p
  case reporting k | tracing k _ => cases k <;> cases hz
  case releasing t c | givingBack t c | resolving t c | scheduling _ t c =>
    cases c <;> first
      | exact hp
      | cases hz
  case notifying n =>
    cases n <;> first
      | exact hp
      | cases hz
  all_goals first
    | exact hp
    | cases hz

theorem sweeping_locks (hz : zone p = .sweeping) : sweepLock a ∈ p.locks a := by
  cases p
  case reporting k | tracing k _ => cases k <;> cases hz
  case releasing t c | givingBack t c | resolving t c | scheduling _ t c =>
    cases c <;> first
      | exact List.mem_singleton.mpr rfl
      | cases hz
  case notifying n =>
    cases n <;> first
      | exact List.mem_singleton.mpr rfl
      | cases hz
  all_goals first
    | exact List.mem_singleton.mpr rfl
    | cases hz

theorem worker_zone {k : ℕ} (hp : runsOn (Thread.worker (ι := ι) k) p = true) :
    zone p ≠ .opening ∧ (∀ j, zone p ≠ .launching j) ∧ zone p ≠ .stopping := by
  cases p
  case reporting r | tracing r _ | releasing _ r | givingBack _ r | resolving _ r |
      scheduling _ _ r | notifying r =>
    cases r <;> first
      | exact absurd hp Bool.false_ne_true
      | exact ⟨nofun, nofun, nofun⟩
  all_goals first
    | exact absurd hp Bool.false_ne_true
    | exact ⟨nofun, nofun, nofun⟩

/-- A running worker that has left the list is about to end. -/
theorem unlisted_leaving {k : ℕ} (hx : Exclusive s) (hc : Control s)
    (hr : s.shared.worker k = .running) (hk : k ∉ s.shared.threads) :
    zone (s.pc (.worker k)) = .leaving := by
  obtain ⟨ho, hl, hs⟩ := worker_zone (hx.placed (.worker k))
  have hf := hc.facts (.worker k)
  cases hz : zone (s.pc (.worker k)) <;> rw [hz] at hf
  case opening => exact absurd hz ho
  case launching j => exact absurd hz (hl j)
  case stopping => exact absurd hz hs
  case unstarted => exact absurd (hf.2 hr) hk
  case exited => exact absurd (hr.symm.trans hf) (by decide)
  case plain | exiting => exact absurd hf.2 hk
  case sweeping | removing => exact absurd hf.2.1 hk

theorem sweeper_quiet (hx : Exclusive s) (hc : Control s) (hz : zone (s.pc a) = .sweeping) :
    Quiet s := by
  have ha := hc.facts a
  rw [hz] at ha
  cases a with
  | client i =>
    refine ⟨ha.1, fun k hr => .inr (.inr (unlisted_leaving hx hc hr ?_))⟩
    rw [ha.2]
    exact List.not_mem_nil
  | worker j =>
    refine ⟨ha.2.2.1, fun k hr => ?_⟩
    by_cases hk : k = j
    · subst hk
      exact .inl hz
    · refine .inr (.inr (unlisted_leaving hx hc hr fun hm => ?_))
      exact (ha.2.2.2 k hm).elim hk (fun h => h hr)
  | callback f => exact absurd (sweeping_maySweep (hx.placed _) hz) Bool.false_ne_true

theorem sweeper_unique (hx : Exclusive s) (hc : Control s) (ha : zone (s.pc a) = .sweeping)
    (hb : zone (s.pc b) = .sweeping) : a = b := by
  have la := sweeping_locks (a := a) ha
  have lb := sweeping_locks (a := b) hb
  have fa := hc.facts a
  have fb := hc.facts b
  rw [ha] at fa
  rw [hb] at fb
  cases a with
  | callback f => exact absurd (sweeping_maySweep (hx.placed _) ha) Bool.false_ne_true
  | client i =>
    cases b with
    | callback f => exact absurd (sweeping_maySweep (hx.placed _) hb) Bool.false_ne_true
    | client j => exact hx.unique la lb
    | worker j => exact absurd (fa.2 ▸ fb.2.1) List.not_mem_nil
  | worker k =>
    cases b with
    | callback f => exact absurd (sweeping_maySweep (hx.placed _) hb) Bool.false_ne_true
    | client j => exact absurd (fb.2 ▸ fa.2.1) List.not_mem_nil
    | worker j => exact hx.unique la lb

theorem todo_sweeping {u : TaskId} (h : u ∈ todo p) : zone p = .sweeping := by
  cases p
  case releasing t c | givingBack t c | resolving t c | scheduling _ t c =>
    cases c <;> first
      | rfl
      | exact absurd h List.not_mem_nil
  all_goals first
    | rfl
    | exact absurd h List.not_mem_nil

end

section

variable [DecidableEq ι] {s t : State ι} {sh : Shared ι} {a : Thread ι} {p : Pc} {c : Choice}
  {x : Shared ι × Pc} {e : Event ι}

theorem turn_closed (h : act sh a p c = some x) (hc : sh.closed = true) :
    x.1.closed = true := by
  cases c <;> cases p <;> simp only [act, advance, throwing, expire, reduceCtorEq] at h
  all_goals repeat' split at h
  all_goals cases h
  all_goals first
    | exact hc
    | rfl

theorem turn_running {k : ℕ} (h : act sh a p c = some x) (hr : x.1.worker k = .running) :
    sh.worker k = .running ∨ ∃ job index, p = .launching job index k := by
  cases c <;> cases p <;> simp only [act, advance, throwing, expire, reduceCtorEq] at h
  case go.launching job index j =>
    cases h
    by_cases hk : k = j
    · exact .inr ⟨job, index, hk ▸ rfl⟩
    · exact .inl (by simpa [hk] using hr)
  case go.leaving =>
    split at h <;> cases h
    rename_i j
    by_cases hk : k = j
    · subst hk
      simp at hr
    · exact .inl (by simpa [hk] using hr)
  all_goals repeat' split at h
  all_goals cases h
  all_goals exact .inl hr

omit [DecidableEq ι] in
theorem sweepFrom_swept {k : ℕ} (done rest : List TaskId) :
    Swept (zone (sweepFrom (Thread.worker (ι := ι) k) done rest)) := by
  rcases sweepFrom_cases (Thread.worker (ι := ι) k) done rest with ⟨_, _, hp⟩ | ⟨_, _, hp⟩ |
    ⟨t, rest', _, hp⟩
  · exact hp ▸ .inr (.inl rfl)
  · exact hp ▸ .inl rfl
  · exact hp ▸ .inl rfl

theorem turn_swept {k : ℕ} (h : act sh (.worker k) p c = some x)
    (hp : runsOn (Thread.worker (ι := ι) k) p = true) (hr : x.1.worker k = .running)
    (hz : Swept (zone p)) : Swept (zone x.2) := by
  cases p
  case listingIds | listingRecords ids | removing | leaving =>
    cases c <;> simp only [act, advance, throwing, expire, reduceCtorEq] at h
    all_goals try split at h
    all_goals cases h
    all_goals first
      | exact .inl rfl
      | exact .inr (.inr rfl)
      | exact sweepFrom_swept _ _
      | exact absurd hr (by simp)
  case sweeping t done rest =>
    cases c <;> simp only [act, advance, throwing, expire, reduceCtorEq] at h
    cases h
    dsimp only
    split
    · exact .inl rfl
    · exact .inr (.inr rfl)
  case reporting r | tracing r _ => cases r <;> simp [Swept, zone, reportZone] at hz
  case notifying n =>
    cases n <;> simp [Swept, zone, noticeZone] at hz
    cases c <;> simp only [act, advance, throwing, expire, reduceCtorEq] at h
    cases h
    exact .inr (.inl rfl)
  case releasing t m | givingBack t m | resolving t m | scheduling _ t m =>
    cases m <;> simp [Swept, zone, contZone] at hz
    cases c <;> simp only [act, advance, throwing, expire, reduceCtorEq] at h
    repeat' split at h
    all_goals cases h
    all_goals first
      | exact .inl rfl
      | exact .inr (.inr rfl)
      | exact sweepFrom_swept _ _
  all_goals simp [Swept, zone] at hz

/-- Workers are not started in a closed scheduler, and none that is about to end goes back. -/
theorem quiet_next (hx : Exclusive s) (hc : Control s) (hs : Step s e t) (hq : Quiet s) :
    Quiet t := by
  rcases step_cases hs with ⟨i, k, rfl, _, rfl⟩ | ⟨a, c, x, rfl, _, hx', rfl⟩ |
    ⟨f, o, rfl, _, _, rfl⟩ | ⟨w, rfl, _, rfl⟩ | ⟨d, rfl, rfl⟩
  · refine ⟨?_, fun j hj => ?_⟩
    · cases k <;> exact hq.closed
    · have hj : s.shared.worker j = .running := by cases k <;> exact hj
      simpa [State.goto] using hq.workers j hj
  · refine ⟨turn_closed hx' hq.closed, fun k hr => ?_⟩
    have hk : s.shared.worker k = .running := by
      rcases turn_running hx' hr with h | ⟨job, index, hp⟩
      · exact h
      · have hf := hc.facts a
        have ha := hx.placed a
        rw [hp] at hf ha
        cases a with
        | client i => exact absurd (hf.1.symm.trans hq.closed) (by decide)
        | worker j => exact absurd ha Bool.false_ne_true
        | callback f => exact absurd ha Bool.false_ne_true
    by_cases ha : a = .worker k
    · subst ha
      simpa [State.goto] using turn_swept hx' (hx.placed _) hr (hq.workers k hk)
    · simpa [State.goto, Ne.symm ha] using hq.workers k hk
  · exact ⟨hq.closed, hq.workers⟩
  · exact ⟨hq.closed, hq.workers⟩
  · exact ⟨hq.closed, hq.workers⟩

end

end SchedulerDuties
