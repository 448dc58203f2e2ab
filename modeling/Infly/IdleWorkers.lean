import Infly.Wakeups

/-! # Idle workers

An idle worker sleeps on the condition without a timeout. `submit` and `stop` change what it
looks at first and notify later, and between the two they call trace sinks and the
strategy's `close`.
-/
namespace IdleWorkers

open Contracts TaskBackend SchedulerState SchedulerModel SchedulerLocks SchedulerControl
  SchedulerLedger SchedulerRequests Wakeups Transitions

/-- A submit call that has stored its task, or a stop call that has set the flag, and has
not notified yet. -/
def rouses : Pc → Bool
  | .reporting (.submitted _) | .tracing (.submitted _) _ | .notifying (.submitted _)
  | .snapshotting _ | .closingStrategy _ _ | .notifying (.stopping _ _) => true
  | _ => false

def roused (L : Ledger) (stop : Bool) : Prop := L.backend.queued ≠ [] ∨ stop = true

variable {ι : Type} {a b : Thread ι} {p : Pc} {k : ℕ}

theorem rouses_lifecycle (h : rouses p = true) : .lifecycle ∈ p.locks a := by
  cases p
  case reporting r | tracing r _ =>
    cases r <;> first
      | exact List.mem_singleton.mpr rfl
      | cases h
  case notifying n =>
    cases n <;> first
      | exact List.mem_singleton.mpr rfl
      | cases h
  all_goals first
    | exact List.mem_singleton.mpr rfl
    | cases h

theorem resting_rouses (h : p.resting = true) : rouses p = false := by
  cases p <;> first | rfl | cases h

/-- Worker `k` sleeps, or has found the queue empty and goes to sleep next. -/
def Dozing (s : State ι) (k : ℕ) : Prop :=
  s.pc (.worker k) = .pullWaiting ∧ s.shared.waiting (.worker k) = true ∨
    s.pc (.worker k) = .pullBlocking

/-- Nobody else is about to wake worker `k`, and it sleeps, or is about to, though a task is
queued or the flag set. -/
def Oversleeps (s : State ι) (k : ℕ) : Prop :=
  Dozing s k ∧ roused s.shared.ledger s.shared.stop ∨
    s.pc (.worker k) = .pulling ∧ s.shared.stop = true ∧ s.shared.ledger.backend.queued = []

/-- No sink raises on `task.submitted`, and the strategy's `close` does not, while a worker
would then oversleep. -/
def Heard (s : State ι) : Event ι → Prop
  | .step a (.raises _) => rouses (s.pc a) = true → ∀ k, ¬Oversleeps s k
  | _ => True

section

variable [DecidableEq ι] {s s' : State ι} {sh : Shared ι} {x : Shared ι × Pc} {c : Choice}
  {e : Event ι}

/-- Who stores a task or sets the flag has still to notify. -/
theorem turn_cause (h : act sh a p c = some x) : rouses x.2 = true ∨
    (x.1.stop = true → sh.stop = true) ∧
    (x.1.ledger.backend.queued = sh.ledger.backend.queued ∨
      p = .pulling ∧ ∃ t, sh.ledger.backend.queued = t :: x.1.ledger.backend.queued) := by
  cases p <;> cases c <;> simp only [act, advance, throwing, expire, reduceCtorEq] at h
  case storing.go job =>
    cases h
    unfold Ledger.store
    split
    · rename_i e b hb
      have hq := Backend.submit_raises (e := e) (congrArg Prod.fst hb)
      rw [hb] at hq
      exact .inr ⟨id, .inl (by rw [show b = sh.ledger.backend from hq])⟩
    · exact .inl rfl
  case pulling.go =>
    cases h
    refine .inr ⟨id, ?_⟩
    cases hp : sh.ledger.pull.1 with
    | none => exact .inl (by rw [pull_none_same hp])
    | some t => exact .inr ⟨rfl, t, Backend.pull_some hp⟩
  case stopping.go timeout =>
    cases h
    exact .inl rfl
  case startChecking.go job =>
    split at h <;> cases h
    · exact .inr ⟨fun hs => (by cases hs), .inl rfl⟩
    · exact .inr ⟨id, .inl rfl⟩
  case running.go t request =>
    cases h
    exact .inr ⟨id, .inl (by simp [Ledger.update, Backend.queued])⟩
  case updating.go t m request =>
    cases h
    exact .inr ⟨id, .inl (by simp [Ledger.update, Backend.queued])⟩
  case sweeping.go t done rest =>
    cases h
    exact .inr ⟨id, .inl (by simp [Ledger.update, Backend.queued])⟩
  case reading.go q locked =>
    cases h
    exact .inr ⟨id, .inl (by simp [Ledger.read, Backend.queued])⟩
  case notifying.go n =>
    cases h
    cases n <;> exact .inr ⟨id, .inl rfl⟩
  all_goals repeat' split at h
  all_goals cases h
  all_goals first
    | exact .inr ⟨id, .inl rfl⟩
    | exact .inr ⟨id, .inl (by simp [Ledger.read, Backend.queued])⟩

/-- Who has to notify goes on to it, does it, or is stopped by an exception. -/
theorem turn_rouses (h : act sh a p c = some x) (hr : rouses p = true) :
    rouses x.2 = true ∨ (∃ n, p = .notifying n) ∧ (∀ b, x.1.waiting b = false) ∨
      ∃ e, c = .raises e := by
  cases c with
  | raises e => exact .inr (.inr ⟨e, rfl⟩)
  | timeout =>
    cases p <;> simp only [act, expire, reduceCtorEq] at h
    all_goals cases hr
  | go =>
    cases p <;> simp only [act, advance, reduceCtorEq] at h
    case reporting k =>
      cases h
      cases k <;> first | exact .inl rfl | cases hr
    case tracing k event =>
      cases h
      cases k <;> first | exact .inl rfl | cases hr
    case notifying n =>
      cases h
      exact .inr (.inl ⟨⟨n, rfl⟩, fun _ => rfl⟩)
    case snapshotting timeout => cases h; exact .inl rfl
    case closingStrategy timeout workers => cases h; exact .inl rfl
    all_goals cases hr

/-- A worker looks at the flag, then at the queue, and goes to sleep with both as it saw
them. -/
theorem turn_dozes (h : act sh a p c = some x)
    (hx : x.2 = .pulling ∨ x.2 = .pullBlocking ∨ x.2 = .pullWaiting) :
    x.1.ledger = sh.ledger ∧ x.1.stop = sh.stop ∧
    (x.2 = .pulling ∧ sh.stop = false ∨
      x.2 = .pullBlocking ∧ p = .pulling ∧ sh.ledger.backend.queued = [] ∨
      x.2 = .pullWaiting ∧ p = .pullBlocking) := by
  have away (hp : onward x.2 = true) : False := by
    rcases hx with hx | hx | hx <;> rw [hx] at hp <;> cases hp
  cases p <;> cases c <;> simp only [act, advance, throwing, expire, reduceCtorEq] at h
  case pullChecking.go =>
    cases h
    cases hs : sh.stop with
    | true =>
      rw [hs] at hx
      rcases hx with hx | hx | hx <;> cases hx
    | false => exact ⟨rfl, rfl, .inl ⟨rfl, rfl⟩⟩
  case pulling.go =>
    cases h
    cases hp : sh.ledger.pull.1 with
    | none => exact ⟨pull_none_same hp, rfl, .inr (.inl ⟨rfl, rfl, (Backend.pull_none hp).1⟩)⟩
    | some t =>
      rw [hp] at hx
      rcases hx with hx | hx | hx <;> cases hx
  case pullBlocking.go =>
    cases h
    exact ⟨rfl, rfl, .inr (.inr ⟨rfl, rfl⟩)⟩
  case waitChecking.go q d =>
    cases h
    rcases look_cases q sh.clock d (sh.ledger.record q.task) with hl | ⟨hl, _⟩ | ⟨⟨w, hl⟩, _⟩
    · exact (away (resumed_onward hl)).elim
    · dsimp only at hx
      rw [hl] at hx
      rcases hx with hx | hx | hx <;> cases hx
    · dsimp only at hx
      rw [hl] at hx
      rcases hx with hx | hx | hx <;> cases hx
  case tracing.go k event =>
    cases h
    cases k <;> rcases hx with hx | hx | hx <;> cases hx
  all_goals repeat' split at h
  all_goals cases h
  all_goals first
    | (rcases hx with hx | hx | hx <;> cases hx)
    | (refine (away ?_).elim; simp [resumed_onward])

/-- Whoever would oversleep is going to be woken. -/
def Awake (s : State ι) : Prop := ∀ k, Oversleeps s k → ∃ b, rouses (s.pc b) = true

omit [DecidableEq ι] in
theorem Awake.still (h : Awake s) (hp : s'.pc = s.pc)
    (hq : s'.shared.ledger.backend = s.shared.ledger.backend)
    (hw : s'.shared.waiting = s.shared.waiting) (hs : s'.shared.stop = s.shared.stop) :
    Awake s' := by
  intro k ho
  rw [hp]
  refine h k ?_
  simpa only [Oversleeps, Dozing, roused, hp, hq, hw, hs] using ho

omit [DecidableEq ι] in
theorem pulling_condition (hex : Exclusive s)
    (hp : s.pc a = .pulling ∨ s.pc a = .pullBlocking) : s.locks .condition = some a := by
  rw [hex.held]
  rcases hp with hp | hp <;> rw [hp] <;> exact List.mem_singleton.mpr rfl

/-- The worker itself takes its next step. -/
theorem awake_own (h : Awake s) (hx : act s.shared (.worker k) (s.pc (.worker k)) c = some x)
    (ho : Oversleeps (s.goto (.worker k) x) k) :
    ∃ b, rouses ((s.goto (.worker k) x).pc b) = true := by
  have other (hs : Oversleeps s k) (hn : rouses (s.pc (.worker k)) = false) :
      ∃ b, rouses ((s.goto (.worker k) x).pc b) = true := by
    obtain ⟨b, hb⟩ := h k hs
    refine ⟨b, ?_⟩
    rwa [goto_pc_of_ne s]
    rintro rfl
    exact absurd (hb.symm.trans hn) (by decide)
  simp only [Oversleeps, Dozing, goto_pc, goto_shared] at ho
  have hx2 : x.2 = .pulling ∨ x.2 = .pullBlocking ∨ x.2 = .pullWaiting := by
    rcases ho with ⟨⟨ho, _⟩ | ho, _⟩ | ⟨ho, _⟩
    · exact .inr (.inr ho)
    · exact .inr (.inl ho)
    · exact .inl ho
  obtain ⟨hL, hs, ⟨hp2, hf⟩ | ⟨hp2, hp, hq⟩ | ⟨hp2, hp⟩⟩ := turn_dozes hx hx2
  all_goals rw [hp2, hL, hs] at ho
  · rcases ho with ⟨⟨ho, _⟩ | ho, _⟩ | ⟨_, ho, _⟩
    · cases ho
    · cases ho
    · exact absurd (hf.symm.trans ho) (by decide)
  · rcases ho with ⟨_, hr⟩ | ⟨ho, _⟩
    · exact other (.inr ⟨hp, hr.resolve_left fun hn => hn hq, hq⟩) (by rw [hp]; rfl)
    · cases ho
  · rcases ho with ⟨_, hr⟩ | ⟨ho, _⟩
    · exact other (.inl ⟨.inr hp, hr⟩) (by rw [hp]; rfl)
    · cases ho

/-- Another thread takes a step. -/
theorem awake_other (hex : Exclusive s) (h : Awake s) (heard : Heard s (.step a c))
    (hn : ∀ l ∈ (s.pc a).needs, s.locks l = none) (hx : act s.shared a (s.pc a) c = some x)
    (hk : a ≠ .worker k) (ho : Oversleeps (s.goto a x) k) :
    ∃ b, rouses ((s.goto a x).pc b) = true := by
  by_cases hr : rouses x.2 = true
  · exact ⟨a, by rwa [goto_pc]⟩
  obtain ⟨hstop, hqueue⟩ := (turn_cause hx).resolve_left hr
  simp only [Oversleeps, Dozing, goto_pc_of_ne s (Ne.symm hk), goto_shared] at ho
  have before : Oversleeps s k := by
    rcases ho with ⟨hd, hc⟩ | ⟨hp, hs, hq⟩
    · refine .inl ⟨hd.imp_left (And.imp_right (turn_waits hx (Ne.symm hk))), ?_⟩
      refine hc.imp (fun hne => ?_) hstop
      rcases hqueue with hq | ⟨_, t, hq⟩
      · exact hq ▸ hne
      · rw [hq]
        exact List.cons_ne_nil _ _
    · refine .inr ⟨hp, hstop hs, ?_⟩
      rcases hqueue with hq' | ⟨hpa, _⟩
      · exact hq' ▸ hq
      · have := pulling_condition hex (.inl hpa)
        rw [pulling_condition hex (.inl hp)] at this
        exact absurd (Option.some.inj this).symm hk
  obtain ⟨b, hb⟩ := h k before
  by_cases hba : b = a
  · subst hba
    rcases turn_rouses hx hb with hr' | ⟨⟨n, hp⟩, hw⟩ | ⟨e, rfl⟩
    · exact absurd hr' hr
    · have free := hn .condition (by rw [hp]; exact List.mem_singleton.mpr rfl)
      have busy (hp : s.pc (.worker k) = .pulling ∨ s.pc (.worker k) = .pullBlocking) : False := by
        rw [pulling_condition hex hp] at free
        cases free
      rcases ho with ⟨⟨_, ho⟩ | ho, _⟩ | ⟨ho, _⟩
      · rw [hw] at ho
        cases ho
      · exact (busy (.inr ho)).elim
      · exact (busy (.inl ho)).elim
    · exact absurd before (heard hb k)
  · exact ⟨b, by rwa [goto_pc_of_ne s hba]⟩

theorem reachable_awake (h : ((system ι).restrict Heard).Reachable s) : Awake s := by
  refine System.invariant_reachable ?_ (fun u e v hr hu hs => ?_) h
  · rintro s ⟨config, b, _, rfl⟩
    intro k ho
    rcases ho with ⟨⟨ho, _⟩ | ho, _⟩ | ⟨ho, _⟩ <;> cases ho
  · obtain ⟨heard, hs⟩ := hs
    rcases step_cases hs with ⟨i, m, rfl, hrest, rfl⟩ | ⟨a, c, x, rfl, hn, hx, rfl⟩ |
      ⟨f, o, rfl, _, _, rfl⟩ | ⟨w, rfl, _, rfl⟩ | ⟨d, rfl, rfl⟩
    · intro k ho
      have before : Oversleeps u k := by
        cases m <;> simpa [Oversleeps, Dozing, State.goto, Call.enter, roused] using ho
      obtain ⟨b, hb⟩ := hu k before
      refine ⟨b, ?_⟩
      rwa [goto_pc_of_ne u]
      rintro rfl
      exact absurd (hb.symm.trans (resting_rouses hrest)) (by decide)
    · intro k ho
      by_cases hk : a = .worker k
      · subst hk
        exact awake_own hu hx ho
      · exact awake_other (reachable_exclusive (System.restrict_reachable hr)) hu heard hn hx hk ho
    · exact hu.still rfl rfl rfl rfl
    · exact hu.still rfl rfl rfl rfl
    · exact hu.still rfl rfl rfl rfl

/-- As long as no exception ends a submit or stop call while a worker would then oversleep, a
thread in such a call is on its way to wake every worker that sleeps though a task is queued
or the flag set: each of its steps leads on or notifies all. -/
theorem idle_workers_wake (h : ((system ι).restrict Heard).Reachable s)
    (hp : s.pc (.worker k) = .pullWaiting) (hw : s.shared.waiting (.worker k) = true)
    (hc : s.shared.ledger.backend.queued ≠ [] ∨ s.shared.stop = true) :
    ∃ b, rouses (s.pc b) = true ∧ ∀ c s', Heard s (.step b c) → Step s (.step b c) s' →
      rouses (s'.pc b) = true ∨ ∀ a, s'.shared.waiting a = false := by
  have sleeps : Oversleeps s k := .inl ⟨.inl ⟨hp, hw⟩, hc⟩
  obtain ⟨b, hb⟩ := reachable_awake h k sleeps
  refine ⟨b, hb, fun c s' heard hs => ?_⟩
  rcases step_cases hs with ⟨_, _, he, _⟩ | ⟨a, c', x, he, _, hx, rfl⟩ | ⟨_, _, he, _⟩ |
    ⟨_, he, _⟩ | ⟨_, he, _⟩ <;> cases he
  rw [goto_pc, goto_shared]
  rcases turn_rouses hx hb with hr | ⟨_, hw⟩ | ⟨e, rfl⟩
  · exact .inl hr
  · exact .inr hw
  · exact absurd sleeps (heard hb k)

/-- A first submit call up to its trace event, after its worker has gone to sleep. -/
def sleepThenStore : List (Event Unit) :=
  .call () (.submit (sampleJob "t")) :: turns (.client ()) 4 ++ turns (.worker 0) 4 ++
    turns (.client ()) 6

/-- No call raises. -/
def Returning (_ : State ι) : Event ι → Prop
  | .step _ (.raises _) => False
  | _ => True

instance (s : State ι) (e : Event ι) : Decidable (Returning s e) :=
  match e with
  | .step _ (.raises _) => .isFalse id
  | .step _ .go | .step _ .timeout | .call _ _ | .resolve _ _ | .fire _ | .tick _ =>
    .isTrue trivial

omit [DecidableEq ι] in
theorem returning_heard (h : Returning s e) : Heard s e := by
  unfold Heard
  split
  · exact h.elim
  · trivial

theorem sleeping_worker_woken : ∃ s, after Returning { numThreads := 1 } sleepThenStore = some s ∧
    ∃ b, rouses (s.pc b) = true := by
  obtain ⟨s, hs, hr, hp, hw, hq⟩ := after_spec (A := Returning) (c := { numThreads := 1 })
    (l := sleepThenStore) (P := fun s => s.pc (.worker 0) = .pullWaiting ∧
      s.shared.waiting (.worker 0) = true ∧ s.shared.ledger.backend.queued ≠ [])
    (by decide +kernel)
  have heard := System.restrict_imp (B := Heard) (P := fun _ => True) (fun _ _ => trivial)
    (fun _ _ _ h => returning_heard h) hr
  obtain ⟨b, hb, _⟩ := idle_workers_wake heard hp hw (.inl hq)
  exact ⟨s, hs, b, hb⟩

theorem sink_leaves_worker_asleep : ∃ s, after (fun _ _ => True) { numThreads := 1 }
    (sleepThenStore ++ [.step (.client ()) (.raises (.other "sink"))]) = some s ∧
    (system Unit).Reachable s ∧ s.pc (.worker 0) = .pullWaiting ∧
    s.shared.waiting (.worker 0) = true ∧ s.shared.ledger.backend.queued ≠ [] ∧
    ∀ b, rouses (s.pc b) = false := by
  obtain ⟨s, hs, hr, hp, hw, hq, hl⟩ := after_spec (A := fun _ _ => True)
    (c := { numThreads := 1 })
    (l := sleepThenStore ++ [.step (.client ()) (.raises (.other "sink"))])
    (P := fun s => s.pc (.worker 0) = .pullWaiting ∧ s.shared.waiting (.worker 0) = true ∧
      s.shared.ledger.backend.queued ≠ [] ∧ s.locks .lifecycle = none) (by decide +kernel)
  have hr := System.restrict_reachable hr
  refine ⟨s, hs, hr, hp, hw, hq, fun b => ?_⟩
  by_contra hb
  have := ((reachable_exclusive hr).held .lifecycle b).mpr
    (rouses_lifecycle (Bool.not_eq_false _ ▸ hb))
  rw [hl] at this
  cases this

end

end IdleWorkers
