import Infly.SingleUse

/-! # Wakeups

A thread that waits for a task sleeps on the condition, and so do idle workers. Whoever ends
a task, stores one or stops the scheduler has to notify afterwards.
-/
namespace Wakeups

open Contracts TaskBackend SchedulerState SchedulerModel SchedulerLocks SchedulerControl
  SchedulerLedger SchedulerDuties SchedulerStages SchedulerOwnership SchedulerAccounts
  SchedulerRequests TaskLife Transitions

def contOwes (t : TaskId) : Cont → List TaskId
  | .finish _ => [t]
  | .sweep done _ => done ++ [t]
  | _ => []

def reportOwes : Report → List TaskId
  | .ended t _ _ => [t]
  | _ => []

/-- The tasks whose end a thread has still to announce. -/
def owes : Pc → List TaskId
  | .reporting k | .tracing k _ => reportOwes k
  | .fetching t (.workerLoop _) => [t]
  | .releasing t c | .givingBack t c => contOwes t c
  | .notifying (.finished t _) => [t]
  | .notifying (.swept done) | .sweeping _ done _ => done
  | .resolving t (.sweep done _) | .scheduling _ t (.sweep done _) => done ++ [t]
  | _ => []

/-- The task that a thread has just made terminal. -/
def ends : Pc → Option TaskId
  | .reporting (.ended t _ _) | .releasing t (.finish _) | .releasing t (.sweep _ _) => some t
  | _ => none

variable {ι : Type} {a b : Thread ι} {p : Pc} {t : TaskId}

theorem ends_owes (h : ends p = some t) : t ∈ owes p := by
  cases p
  case reporting k =>
    cases k <;> cases h
    exact List.mem_singleton.mpr rfl
  case releasing u k =>
    cases k <;> cases h
    · exact List.mem_singleton.mpr rfl
    · exact List.mem_append_right _ (List.mem_singleton.mpr rfl)
  all_goals cases h

theorem sweepFrom_owes {done rest : List TaskId} (ht : t ∈ done) :
    t ∈ owes (sweepFrom a done rest) := by
  rcases sweepFrom_cases a done rest with ⟨hd, _, hp⟩ | ⟨_, _, hp⟩ | ⟨u, rest', _, hp⟩
  · rw [hd] at ht
    exact absurd ht List.not_mem_nil
  · exact hp ▸ ht
  · exact hp ▸ ht

section

variable [DecidableEq ι] {s s' : State ι} {stage : TaskId → Stage ι} {sh : Shared ι}
  {x : Shared ι × Pc} {c : Choice} {e : Event ι}

/-- A step that makes a task terminal goes on to its end. -/
theorem turn_ends (hw : sh.ledger.backend.Wellformed) (h : act sh a p c = some x)
    (hl : live sh.ledger t = true) : live x.1.ledger t = true ∨ ends x.2 = some t := by
  obtain ⟨r, hr, hn⟩ := live_iff.mp hl
  have kept (hp : writes p ≠ some t) : live x.1.ledger t = true :=
    live_iff.mpr ⟨r, (turn_fades hw h hp).live hr hn, hn⟩
  by_cases hp : writes p = some t
  · cases p <;> cases c <;> simp only [act, advance, throwing, expire, reduceCtorEq] at h
    case storing.go job =>
      cases hp
      cases h
      have hc : sh.ledger.backend.records.contains job.request.taskId = true := by
        simp [Dict.contains, show sh.ledger.backend.records.get? job.request.taskId = some r from hr]
      refine .inl ?_
      simp only [Ledger.store, Backend.submit, hc, ↓reduceIte]
      exact hl
    case storing.raises job e =>
      cases h
      exact .inl hl
    case running.go u request =>
      cases hp
      cases h
      obtain ⟨_, _, _, hs, _⟩ := update_ok hw hr sh.clock { status := .running }
      rcases hs with hs | ⟨_, hs⟩
      · exact .inl (live_iff.mpr ⟨_, hs, rfl⟩)
      · cases hs
    case updating.go u m request =>
      cases hp
      rw [(update_ok hw hr sh.clock m.update).1] at h
      cases h
      cases request <;> exact .inr rfl
    case sweeping.go u done rest =>
      cases hp
      rw [(update_ok hw hr sh.clock stoppedBeforeStart).1] at h
      cases h
      exact .inr rfl
    all_goals cases hp
  · exact .inl (kept hp)

/-- A step that makes a task terminal owes the announcement. -/
theorem turn_live (hw : sh.ledger.backend.Wellformed) (h : act sh a p c = some x)
    (hl : live sh.ledger t = true) : live x.1.ledger t = true ∨ t ∈ owes x.2 :=
  (turn_ends hw h hl).imp_right ends_owes

/-- Where an announcement is due, the next step leaves it due, or finds that the task is not
over, or makes it. -/
theorem turn_owes (h : act sh a p c = some x)
    (found : ∀ u, updates p = some u → ∃ r, sh.ledger.record u = some r)
    (hw : sh.ledger.backend.Wellformed)
    (room : ∀ u k, p = .givingBack u k → sh.free < sh.config.maxOutstandingTasks)
    (ht : t ∈ owes p) : t ∈ owes x.2 ∨ live sh.ledger t = true ∧ x.1.ledger = sh.ledger ∨
      (∃ n, p = .notifying n) ∧ ∀ b, x.1.waiting b = false := by
  cases p <;> try exact absurd ht List.not_mem_nil
  case reporting k =>
    cases c <;> simp only [act, advance, throwing, expire, reduceCtorEq] at h
    cases h
    exact .inl ht
  case tracing k event =>
    cases k with
    | ended u m request =>
      cases c <;> simp only [act, advance, throwing, expire, reduceCtorEq] at h
      · cases h
        exact .inl ht
      · cases h
        cases m <;> exact .inl ht
    | _ => exact absurd ht List.not_mem_nil
  case fetching u m =>
    cases m with
    | workerLoop e =>
      cases c <;> simp only [act, advance, throwing, expire, reduceCtorEq] at h
      rw [List.mem_singleton.mp ht]
      cases hr : sh.ledger.record u with
      | none =>
        rw [hr] at h
        cases h
        exact .inl (List.mem_singleton.mpr rfl)
      | some r =>
        rw [hr] at h
        cases h
        by_cases hn : terminal r.status = true
        · rw [if_pos hn]
          exact .inl (List.mem_singleton.mpr rfl)
        · exact .inr (.inl ⟨live_iff.mpr ⟨r, hr, Bool.not_eq_true _ ▸ hn⟩, rfl⟩)
    | _ => exact absurd ht List.not_mem_nil
  case releasing u k =>
    cases c <;> simp only [act, advance, throwing, expire, reduceCtorEq] at h
    split at h <;> cases h
    · exact .inl ht
    · cases k with
      | rollback e => exact absurd ht List.not_mem_nil
      | coroutine q => exact absurd ht List.not_mem_nil
      | _ => exact .inl ht
  case givingBack u k =>
    cases c <;> simp only [act, advance, throwing, expire, reduceCtorEq] at h
    rw [if_pos (room u k rfl)] at h
    cases h
    cases k with
    | rollback e => exact absurd ht List.not_mem_nil
    | coroutine q => exact absurd ht List.not_mem_nil
    | _ => exact .inl ht
  case notifying n =>
    cases c <;> simp only [act, advance, throwing, expire, reduceCtorEq] at h
    cases h
    exact .inr (.inr ⟨⟨n, rfl⟩, fun _ => rfl⟩)
  case resolving u k =>
    cases k with
    | sweep done rest =>
      cases c <;> simp only [act, advance, throwing, expire, reduceCtorEq] at h
      split at h <;> cases h
      · exact .inl (sweepFrom_owes ht)
      · exact .inl ht
    | _ => exact absurd ht List.not_mem_nil
  case scheduling w u k =>
    cases k with
    | sweep done rest =>
      cases c <;> simp only [act, advance, throwing, expire, reduceCtorEq] at h
      split at h <;> cases h
      all_goals exact .inl (sweepFrom_owes ht)
    | _ => exact absurd ht List.not_mem_nil
  case sweeping u done rest =>
    cases c <;> simp only [act, advance, throwing, expire, reduceCtorEq] at h
    obtain ⟨r, hr⟩ := found u rfl
    rw [(update_ok hw hr sh.clock stoppedBeforeStart).1] at h
    cases h
    exact .inl (List.mem_append_left _ ht)

/-! ## Waiting queries -/

/-- The task whose end a query waits for, with the condition's lock or in the wait. -/
def awaits : Pc → Option TaskId
  | .blocking q _ | .waiting q _ => some q.task
  | _ => none

omit [DecidableEq ι] in
theorem onward_awaits (h : onward p = true) : awaits p = none := by
  cases p <;> first
    | rfl
    | cases h

/-- A query goes to sleep only after it has seen that its task is not over. -/
theorem turn_awaits (h : act sh a p c = some x) (ht : awaits x.2 = some t) :
    live x.1.ledger t = true ∨ x.1.ledger = sh.ledger ∧ ∃ q d, p = .blocking q d ∧ q.task = t := by
  have away (hp : onward x.2 = true) : live x.1.ledger t = true ∨ x.1.ledger = sh.ledger ∧
      ∃ q d, p = .blocking q d ∧ q.task = t := by
    rw [onward_awaits hp] at ht
    cases ht
  cases p <;> cases c <;> simp only [act, advance, throwing, expire, reduceCtorEq] at h
  case waitChecking.go q d =>
    cases h
    rcases look_cases q sh.clock d (sh.ledger.record q.task) with hl | ⟨hl, _⟩ | ⟨⟨w, hl⟩, y, hy, hn⟩
    · exact away (resumed_onward hl)
    · dsimp only at ht
      rw [hl] at ht
      cases ht
    · dsimp only at ht
      rw [hl] at ht
      cases ht
      exact .inl (live_iff.mpr ⟨y, hy, hn⟩)
  case blocking.go q d =>
    cases h
    exact .inr ⟨rfl, q, d, rfl, Option.some.inj ht⟩
  case tracing.go k event =>
    cases h
    cases k <;> cases ht
  all_goals repeat' split at h
  all_goals cases h
  all_goals first
    | cases ht
    | (refine away ?_; simp [resumed_onward])

/-- Nobody but a thread itself begins its wait. -/
theorem turn_waits (h : act sh a p c = some x) (hb : b ≠ a) (hw : x.1.waiting b = true) :
    sh.waiting b = true := by
  cases p <;> cases c <;> simp only [act, advance, throwing, expire, reduceCtorEq] at h
  case notifying.go n =>
    cases h
    cases hw
  case blocking.go q d =>
    cases h
    simpa [hb] using hw
  case pullBlocking.go =>
    cases h
    simpa [hb] using hw
  case waiting.timeout q d =>
    repeat' split at h
    all_goals cases h
    simpa [hb] using hw
  all_goals repeat' split at h
  all_goals cases h
  all_goals exact hw

/-- An ended task that a thread sleeps for, or is about to, has still to be announced. -/
def Alert (s : State ι) : Prop :=
  ∀ a t, awaits (s.pc a) = some t →
    (s.shared.waiting a = true ∨ ∃ q d, s.pc a = .blocking q d) →
    live s.shared.ledger t = true ∨ ∃ b, t ∈ owes (s.pc b)

omit [DecidableEq ι] in
theorem Alert.still (h : Alert s) (hp : s'.pc = s.pc)
    (hr : s'.shared.ledger.backend = s.shared.ledger.backend)
    (hw : s'.shared.waiting = s.shared.waiting) : Alert s' := by
  intro a t ha hs
  rw [hp] at ha
  rw [hw, hp] at hs
  have hl : live s'.shared.ledger t = live s.shared.ledger t := by
    simp only [live, Ledger.record, hr]
  rw [hl, hp]
  exact h a t ha hs

theorem alert_turn (hex : Exclusive s) (hst : Staged s stage) (hb : Balanced s) (h : Alert s)
    (hn : ∀ l ∈ (s.pc a).needs, s.locks l = none) (hx : act s.shared a (s.pc a) c = some x) :
    Alert (s.goto a x) := by
  have hw := hst.wellformed
  have found : ∀ u, updates (s.pc a) = some u → ∃ r, s.shared.ledger.record u = some r :=
    fun u hu => (updates_found hst hu).imp fun _ hr => hr.1
  have room : ∀ u k, s.pc a = .givingBack u k →
      s.shared.free < s.shared.config.maxOutstandingTasks :=
    fun u k hp => hb.room (a := a) (by rw [hp]; rfl)
  have mine {t : TaskId} (ht : t ∈ owes x.2) : ∃ b, t ∈ owes ((s.goto a x).pc b) :=
    ⟨a, by rwa [goto_pc]⟩
  intro b t hb hs
  by_cases hba : b = a
  · subst hba
    rw [goto_pc] at hb
    rcases turn_awaits hx hb with hl | ⟨hL, q, d, hp, rfl⟩
    · exact .inl hl
    · rcases h b q.task (by rw [hp]; rfl) (.inr ⟨q, d, hp⟩) with hl | ⟨b', ho⟩
      · exact .inl (by rw [goto_shared, hL]; exact hl)
      · have hne : b' ≠ b := by
          rintro rfl
          rw [hp] at ho
          exact absurd ho List.not_mem_nil
        exact .inr ⟨b', by rwa [goto_pc_of_ne s hne]⟩
  · rw [goto_pc_of_ne s hba] at hb hs
    rw [goto_shared] at hs ⊢
    rcases h b t hb (hs.imp_left (turn_waits hx hba)) with hl | ⟨b', ho⟩
    · exact (turn_live hw hx hl).imp_right mine
    · by_cases hne : b' = a
      · subst hne
        rcases turn_owes hx found hw room ho with ho | ⟨hl, hL⟩ | ⟨⟨n, hp⟩, hq⟩
        · exact .inr (mine ho)
        · exact .inl (hL ▸ hl)
        · -- Whoever is about to sleep holds the lock that a notification takes.
          rcases hs with hs | ⟨q, d, hq⟩
          · rw [hq b] at hs
            cases hs
          · have hlock := (hex.held .condition b).mpr (by rw [hq]; exact List.mem_singleton.mpr rfl)
            rw [hn .condition (by rw [hp]; exact List.mem_singleton.mpr rfl)] at hlock
            cases hlock
      · exact .inr ⟨b', by rwa [goto_pc_of_ne s hne]⟩

theorem reachable_alert (h : ((system ι).restrict Single).Reachable s) : Alert s := by
  refine System.invariant_reachable ?_ (fun u e v hr hu hs => ?_) h
  · rintro s ⟨config, b, _, rfl⟩
    intro a t ha
    cases a <;> cases ha
  · obtain ⟨⟨stage, hst⟩, hb⟩ := reachable_accounts hr
    have quiet {i : ι} {y : Shared ι × Pc} (hy : awaits y.2 = none)
        (ho : owes (u.pc (.client i)) = []) (hL : y.1.ledger.backend = u.shared.ledger.backend)
        (hw : y.1.waiting = u.shared.waiting) : Alert (u.goto (.client i) y) := by
      intro b t hb hs
      by_cases hba : b = .client i
      · subst hba
        rw [goto_pc, hy] at hb
        cases hb
      · rw [goto_pc_of_ne u hba] at hb hs
        rw [goto_shared, hw] at hs
        have hl : live (u.goto (.client i) y).shared.ledger t = live u.shared.ledger t := by
          simp only [goto_shared, live, Ledger.record, hL]
        refine (hu b t hb hs).imp (hl.trans ·) ?_
        rintro ⟨b', ho'⟩
        refine ⟨b', ?_⟩
        rwa [goto_pc_of_ne u]
        rintro rfl
        rw [ho] at ho'
        exact absurd ho' List.not_mem_nil
    rcases step_cases hs.2 with ⟨i, k, rfl, hrest, rfl⟩ | ⟨a, c, x, rfl, hn, hx, rfl⟩ |
      ⟨f, o, rfl, _, _, rfl⟩ | ⟨w, rfl, _, rfl⟩ | ⟨d, rfl, rfl⟩
    · have ho : owes (u.pc (.client i)) = [] := by
        generalize u.pc (.client i) = p at hrest
        cases p <;> first | rfl | cases hrest
      cases k with
      | stop timeout =>
        refine quiet ?_ ho rfl rfl
        simp only [Call.enter]
        split <;> rfl
      | _ => exact quiet rfl ho rfl rfl
    · exact alert_turn (single_exclusive hr) hst hb hu hn hx
    · exact hu.still rfl rfl rfl
    · exact hu.still rfl rfl rfl
    · exact hu.still rfl rfl rfl

/-! ## The way to the announcement -/

def contSteps : Cont → ℕ
  | .sweep _ rest => 6 * rest.length + 4
  | _ => 1

/-- How many steps are left at most until a thread announces the tasks it owes. -/
def distance : Pc → ℕ
  | .reporting _ => 6
  | .tracing _ _ => 5
  | .fetching _ _ => 4
  | .releasing _ c => contSteps c + 2
  | .givingBack _ c => contSteps c + 1
  | .resolving _ c => contSteps c
  | .scheduling _ _ (.sweep _ rest) => 6 * rest.length + 3
  | .sweeping _ _ rest => 6 * rest.length + 7
  | .notifying _ => 1
  | _ => 0

omit [DecidableEq ι] in
theorem sweepFrom_distance (done rest : List TaskId) :
    distance (sweepFrom a done rest) < 6 * rest.length + 3 := by
  rcases sweepFrom_cases a done rest with ⟨_, _, hp⟩ | ⟨_, _, hp⟩ | ⟨t, rest', hr, hp⟩
  · rw [hp]
    cases a <;> simp [afterSweep, distance]
  · rw [hp]
    simp [distance]
  · rw [hp, hr]
    simp only [distance, List.length_cons]
    omega

/-- A thread that owes an announcement comes closer to it. -/
theorem turn_distance (h : act sh a p c = some x)
    (room : ∀ u k, p = .givingBack u k → sh.free < sh.config.maxOutstandingTasks)
    (ht : t ∈ owes p) (ht' : t ∈ owes x.2) : distance x.2 < distance p := by
  cases p <;> try exact absurd ht List.not_mem_nil
  case reporting k =>
    cases c <;> simp only [act, advance, throwing, expire, reduceCtorEq] at h
    cases h
    exact Nat.lt_succ_self _
  case tracing k event =>
    cases k with
    | ended u m request =>
      cases c <;> simp only [act, advance, throwing, expire, reduceCtorEq] at h
      · cases h
        simp [distance, Report.next, contSteps]
      · cases h
        cases m <;> simp [distance, Report.escape, contSteps]
    | _ => exact absurd ht List.not_mem_nil
  case fetching u m =>
    cases m with
    | workerLoop e =>
      cases c <;> simp only [act, advance, throwing, expire, reduceCtorEq] at h
      split at h
      · cases h
        simp [distance, contSteps]
      · cases h
        dsimp only at ht' ⊢
        split
        · simp [distance, contSteps]
        · rename_i hn
          rw [if_neg hn] at ht'
          exact absurd ht' List.not_mem_nil
      · cases h
        exact absurd ht' List.not_mem_nil
    | _ => exact absurd ht List.not_mem_nil
  case releasing u k =>
    cases c <;> simp only [act, advance, throwing, expire, reduceCtorEq] at h
    split at h <;> cases h
    · simp [distance]
    · cases k with
      | rollback e => exact absurd ht List.not_mem_nil
      | coroutine q => exact absurd ht List.not_mem_nil
      | _ => simp [distance, afterRelease, contSteps]
  case givingBack u k =>
    cases c <;> simp only [act, advance, throwing, expire, reduceCtorEq] at h
    rw [if_pos (room u k rfl)] at h
    cases h
    cases k with
    | rollback e => exact absurd ht List.not_mem_nil
    | coroutine q => exact absurd ht List.not_mem_nil
    | _ => simp [distance, afterRelease, contSteps]
  case notifying n =>
    cases c <;> simp only [act, advance, throwing, expire, reduceCtorEq] at h
    cases h
    cases n with
    | finished u m => exact absurd ht' List.not_mem_nil
    | swept done => cases a <;> exact absurd ht' List.not_mem_nil
    | _ => exact absurd ht List.not_mem_nil
  case resolving u k =>
    cases k with
    | sweep done rest =>
      cases c <;> simp only [act, advance, throwing, expire, reduceCtorEq] at h
      split at h <;> cases h
      · exact Nat.lt_succ_of_lt (sweepFrom_distance ..)
      · simp [distance, contSteps]
    | _ => exact absurd ht List.not_mem_nil
  case scheduling w u k =>
    cases k with
    | sweep done rest =>
      cases c <;> simp only [act, advance, throwing, expire, reduceCtorEq] at h
      split at h <;> cases h
      all_goals exact sweepFrom_distance ..
    | _ => exact absurd ht List.not_mem_nil
  case sweeping u done rest =>
    cases c <;> simp only [act, advance, throwing, expire, reduceCtorEq] at h
    cases h
    dsimp only
    split
    · simp [distance, contSteps]
    · cases a <;> simp [distance, abortSweep]

theorem owes_advances (ht : t ∈ owes p) : ∃ x, act sh a p .go = some x := by
  cases p <;> try exact absurd ht List.not_mem_nil
  all_goals
    simp only [act, advance]
    repeat' split
    all_goals exact ⟨_, rfl⟩

/-- When a sleeping query's task is over, another thread is on its way to wake it: it can
go on whenever the condition is free, and each step of it leads closer or notifies all. -/
theorem no_lost_wakeup (h : ((system ι).restrict Fresh).Reachable s) {q : Query}
    {d : Option (ℕ × ℕ)} (hp : s.pc a = .waiting q d) (hw : s.shared.waiting a = true)
    (ht : ∀ r, s.shared.ledger.record q.task = some r → terminal r.status = true) :
    ∃ b, b ≠ a ∧ q.task ∈ owes (s.pc b) ∧
      (∃ x, act s.shared b (s.pc b) .go = some x) ∧
      ∀ c s', Step s (.step b c) s' →
        q.task ∈ owes (s'.pc b) ∧ distance (s'.pc b) < distance (s.pc b) ∨
        ∀ a', s'.shared.waiting a' = false := by
  have hr := fresh_single h
  obtain ⟨⟨stage, hst⟩, hb⟩ := reachable_accounts hr
  have hover : live s.shared.ledger q.task = false := by
    by_contra hl
    obtain ⟨r, hr, hn⟩ := live_iff.mp (Bool.not_eq_false _ ▸ hl)
    exact absurd ((ht r hr).symm.trans hn) (by decide)
  obtain ⟨b, ho⟩ := (reachable_alert hr a q.task (by rw [hp]; rfl) (.inl hw)).resolve_left
    (by rw [hover]; decide)
  refine ⟨b, ?_, ho, owes_advances ho, fun c s' hs => ?_⟩
  · rintro rfl
    rw [hp] at ho
    exact absurd ho List.not_mem_nil
  · rcases step_cases hs with ⟨_, _, he, _⟩ | ⟨a', c', x, he, _, hx, rfl⟩ | ⟨_, _, he, _⟩ |
      ⟨_, he, _⟩ | ⟨_, he, _⟩ <;> cases he
    rw [goto_pc, goto_shared]
    have room : ∀ u k, s.pc b = .givingBack u k →
        s.shared.free < s.shared.config.maxOutstandingTasks :=
      fun u k hp => hb.room (a := b) (by rw [hp]; rfl)
    rcases turn_owes hx (fun u hu => (updates_found hst hu).imp fun _ hr => hr.1)
      hst.wellformed room ho with hown | ⟨hl, _⟩ | ⟨_, hq⟩
    · exact .inl ⟨hown, turn_distance hx room ho hown⟩
    · exact absurd (hover.symm.trans hl) (by decide)
    · exact .inr hq

/-- A query waits while the callback of its task has completed it and not notified yet. -/
def sleepingQuery : List (Event Bool) :=
  firstSubmit false (sampleJob "t") ++
    [.call true (.query { task := "t", wait := true })] ++ turns (.client true) 3 ++
    turns (.worker 0) 9 ++ [.resolve 0 (.result none)] ++ turns (.callback 0) 3

theorem sleeping_query_owed : ∃ s, after Fresh { numThreads := 1 } sleepingQuery = some s ∧
    ∃ b, b ≠ .client true ∧ "t" ∈ owes (s.pc b) := by
  obtain ⟨s, hs, hr, hp, hw, ht⟩ := after_spec (A := Fresh) (c := { numThreads := 1 })
    (l := sleepingQuery) (P := fun s =>
      s.pc (.client true) = .waiting { task := "t", wait := true } none ∧
      s.shared.waiting (.client true) = true ∧
      (s.shared.ledger.record "t").map TaskRecord.status = some .completed) (by decide +kernel)
  obtain ⟨b, hb, ho, _⟩ := no_lost_wakeup hr hp hw fun r hrec => by
    rw [hrec, Option.map_some] at ht
    rw [Option.some.inj ht]
    rfl
  exact ⟨s, hs, b, hb, ho⟩

end

end Wakeups
