import Infly.Staffing

/-! # Calls of `start`

`submit` begins with a call of `start`; a client that calls `start` itself gets no further
than that. `Thread.start` may raise, which leaves a thread in the list that was not started.
-/
namespace StartCalls

open Contracts TaskBackend SchedulerState SchedulerModel SchedulerLocks SchedulerControl
  SchedulerLedger SchedulerDuties SchedulerStages SchedulerOwnership SchedulerAccounts
  SchedulerSweep ThreadList Staffing Transitions

inductive CallEvent (ι : Type) where
  | event (e : Event ι)
  | startReturns (i : ι)
  deriving DecidableEq

/-- Where the call of `start` is over. -/
def startOver : Pc → Bool
  | .submitting _ => true
  | _ => false

variable {ι : Type}

/-- The threads that a `stop` call has still to join. -/
def joins : Pc → List ℕ
  | .closingStrategy _ workers | .notifying (.stopping _ workers) => workers
  | .joining _ k rest => k :: rest
  | _ => []

/-- No `stop` call has a thread to join that was not started. -/
def Joinable (s : State ι) : Prop :=
  ∀ a, ∀ k ∈ joins (s.pc a), s.shared.worker k ≠ .unstarted

section

variable [DecidableEq ι]

def nextCall (s : State ι) : CallEvent ι → Option (State ι)
  | .event e => next s e
  | .startReturns i =>
    if startOver (s.pc (.client i)) then some (s.goto (.client i) (s.shared, .idle)) else none

def calls (ι : Type) [DecidableEq ι] : System (State ι) (CallEvent ι) :=
  ⟨Init, fun s e t => nextCall s e = some t⟩

/-- Where `stop` copies the list, every thread in it was started; the strategy's `close`
returns; and no worker thread calls `stop`, which would join itself. -/
def Stoppable (s : State ι) : Event ι → Prop
  | .step a .go => ∀ timeout, s.pc a = .snapshotting timeout →
      ∀ k ∈ s.shared.threads, s.shared.worker k ≠ .unstarted
  | .step a (.raises _) => (∀ timeout workers, s.pc a ≠ .closingStrategy timeout workers) ∧
      ∀ deadline k rest, s.pc a ≠ .joining deadline k rest
  | _ => True

/-- No id is accepted again, and a `Thread.start` that raised does no harm: a later `start`
finds a started thread in the list as well, and a later `stop` none that was not started.
Whoever fails the tasks left behind can copy the records. -/
def Sane (s : State ι) : CallEvent ι → Prop
  | .event e => Single s e ∧ Startable s e ∧ Stoppable s e ∧ Listable s e
  | .startReturns _ => True

variable {s s' : State ι} {stage : TaskId → Stage ι} {sh : Shared ι} {a b : Thread ι} {p : Pc}
  {c : Choice} {x : Shared ι × Pc} {e : Event ι} {d : CallEvent ι} {k : ℕ} {t : TaskId} {i : ι}

/-! ## Joining -/

omit [DecidableEq ι] in
@[simp] theorem joinFrom_joins (d : ℕ) (ks : List ℕ) : joins (joinFrom d ks) = ks := by
  cases ks <;> rfl

omit [DecidableEq ι] in
theorem joins_stopping (h : k ∈ joins p) : zone p = .stopping := by
  cases p
  case notifying n =>
    cases n <;> first
      | rfl
      | exact absurd h List.not_mem_nil
  all_goals first
    | rfl
    | exact absurd h List.not_mem_nil

omit [DecidableEq ι] in
theorem home_calm (a : Thread ι) : zone (home a) ≠ .stopping := by cases a <;> simp [home, zone]

omit [DecidableEq ι] in
theorem abort_calm (e : Raised) : zone (abortSweep e a) ≠ .stopping := by
  cases a <;> simp [abortSweep, zone]

omit [DecidableEq ι] in
theorem sweep_calm (done rest : List TaskId) : zone (sweepFrom a done rest) ≠ .stopping := by
  rcases sweepFrom_stays (a := a) done rest with h | h <;> rw [h]
  · simp
  · cases a <;> simp [afterSweep, zone]

/-- The threads to join are those of the list, copied once. -/
theorem turn_joins (h : act sh a p c = some x) (hk : k ∈ joins x.2) :
    k ∈ joins p ∨ k ∈ sh.threads ∧ c = .go ∧ ∃ timeout, p = .snapshotting timeout := by
  have hz := joins_stopping hk
  cases c <;> cases p <;> simp only [act, advance, throwing, expire, reduceCtorEq] at h
  case go.snapshotting timeout =>
    cases h
    exact .inr ⟨hk, rfl, timeout, rfl⟩
  case go.closingStrategy timeout workers =>
    cases h
    exact .inl hk
  case go.notifying n =>
    cases h
    cases n with
    | stopping timeout workers =>
      rw [afterNotify, joinFrom_joins] at hk
      exact .inl hk
    | submitted job => cases (followUp_zone job).symm.trans hz
    | finished t m => cases hz
    | swept done => cases a <;> cases hz
  case go.joining deadline j rest | timeout.joining deadline j rest =>
    repeat' split at h
    all_goals cases h
    all_goals first
      | cases hz
      | exact .inl (List.mem_cons_of_mem _ (by simpa using hk))
  case go.stopping timeout =>
    cases h
    exact absurd hk List.not_mem_nil
  case go.filtering =>
    cases h
    dsimp only at hz
    split at hz <;> cases hz
  case go.launching job index k =>
    cases h
    dsimp only at hz
    split at hz <;> cases hz
  case go.tracing r event =>
    cases h
    cases r <;> cases hz
  case go.releasing t m | go.givingBack t m | go.resolving t m | go.scheduling w t m =>
    repeat' split at h
    all_goals cases h
    all_goals cases m
    all_goals first
      | cases hz
      | exact absurd hz (home_calm _)
      | exact absurd hz (sweep_calm _ _)
      | exact absurd hz (abort_calm _)
      | (rename_i m; cases m <;> first | cases hz | exact absurd hz (home_calm _))
  all_goals repeat' split at h
  all_goals cases h
  all_goals first
    | exact absurd hk List.not_mem_nil
    | cases hz
    | exact absurd hz (home_calm _)
    | exact absurd hz (sweep_calm _ _)
    | exact absurd hz (abort_calm _)
    | simp at hz

theorem joinable_next (h : Joinable s) (hs : Step s e s') (stoppable : Stoppable s e) :
    Joinable s' := by
  rcases step_cases hs with ⟨i, c, rfl, _, rfl⟩ | ⟨a, c, x, rfl, _, hx, rfl⟩ |
    ⟨f, o, rfl, _, _, rfl⟩ | ⟨w, rfl, _, rfl⟩ | ⟨d, rfl, rfl⟩
  · intro b k hk
    have hw : (c.enter s.shared).1.worker = s.shared.worker := by cases c <;> rfl
    rw [goto_shared, hw]
    by_cases hb : b = .client i
    · subst hb
      rw [goto_pc] at hk
      have hz := joins_stopping hk
      cases c with
      | stop timeout =>
        simp only [Call.enter] at hz
        split at hz <;> cases hz
      | _ => cases hz
    · rw [goto_pc_of_ne s hb] at hk
      exact h b k hk
  · intro b k hk
    refine (turn_change hx).started ?_
    by_cases hb : b = a
    · subst hb
      rw [goto_pc] at hk
      rcases turn_joins hx hk with hk | ⟨hk, rfl, timeout, hp⟩
      · exact h b k hk
      · exact stoppable timeout hp k hk
    · rw [goto_pc_of_ne s hb] at hk
      exact h b k hk
  · exact h
  · exact h
  · exact h

/-! ## Invariants -/

structure Steady (s : State ι) : Prop where
  exclusive : Exclusive s
  control : Control s
  accounts : Accounts s
  within : Within s
  thorough : Thorough s
  crew : Crew s
  joinable : Joinable s

omit [DecidableEq ι] in
theorem Steady.sound (h : Steady s) : ∃ stage, Sound s stage := by
  obtain ⟨stage, staged⟩ := h.accounts.staged
  exact ⟨stage, h.exclusive, h.control, staged, h.within, h.thorough⟩

theorem steady_next (h : Steady s) (hs : Step s e s') (sane : Sane s (.event e)) :
    Steady s' := by
  obtain ⟨stage, sound⟩ := h.sound
  obtain ⟨single, startable, stoppable, listable⟩ := sane
  exact {
    exclusive := exclusive_next h.exclusive hs
    control := control_next h.exclusive h.control hs
    accounts := accounts_next h.exclusive h.control h.accounts hs single
    within := within_next h.within hs
    thorough := thorough_next h.exclusive h.control sound.staged h.within h.thorough hs
    crew := crew_next sound h.crew hs startable listable
    joinable := joinable_next h.joinable hs stoppable }

omit [DecidableEq ι] in
theorem startOver_iff : startOver p = true ↔ ∃ job, p = .submitting job := by
  cases p <;> simp [startOver]

theorem control_starts (h : Exclusive s ∧ Control s) :
    Exclusive (s.goto (.client i) (s.shared, .idle)) ∧
      Control (s.goto (.client i) (s.shared, .idle)) :=
  ⟨h.1.goto rfl (fun l hl => by cases hl), h.2.quiet ⟨rfl, rfl, rfl, rfl, rfl, rfl⟩ trivial⟩

theorem calls_control (h : (calls ι).Reachable s) : Exclusive s ∧ Control s := by
  refine System.invariant (S := calls ι) (P := fun s => Exclusive s ∧ Control s) ?_
    (fun u d v hu hst => ?_) h
  · rintro s ⟨config, b, _, rfl⟩
    exact ⟨exclusive_begin config b, control_begin config b⟩
  · have hst' : nextCall u d = some v := hst
    cases d with
    | event e => exact ⟨exclusive_next hu.1 hst', control_next hu.1 hu.2 hst'⟩
    | startReturns i =>
      simp only [nextCall] at hst'
      split at hst' <;> cases hst'
      exact control_starts hu

/-- A call of `start` returns. -/
theorem steady_starts (h : Steady s) (hp : startOver (s.pc (.client i)) = true) :
    Steady (s.goto (.client i) (s.shared, .idle)) := by
  obtain ⟨stage, staged⟩ := h.accounts.staged
  obtain ⟨job, hp⟩ := startOver_iff.mp hp
  have other {b : Thread ι} (hb : b ≠ .client i) := goto_pc_of_ne s hb (s.shared, .idle)
  have worker (k : ℕ) : (s.goto (.client i) (s.shared, .idle)).pc (.worker k) =
      s.pc (.worker k) := other (by simp)
  have idle {P : Pc → Prop} (hidle : P .idle) (hold : ∀ b, P (s.pc b)) (b : Thread ι) :
      P ((s.goto (.client i) (s.shared, .idle)).pc b) := by
    by_cases hb : b = .client i
    · rw [hb, goto_pc]
      exact hidle
    · rw [other hb]
      exact hold b
  obtain ⟨exclusive, control⟩ := control_starts (i := i) ⟨h.exclusive, h.control⟩
  refine ⟨exclusive, control, ⟨⟨stage, ?_⟩, ?_⟩, ?_, ?_, ?_, ?_⟩
  · refine staged.calm (by rw [hp]; rfl) (.refl staged.wellformed) (fun hq => ?_)
      (staged.ready_same (by rw [hp]; rfl) rfl rfl) fun _ he => (by cases he)
    exact ⟨hq.closed, fun k hk => worker k ▸ hq.workers k hk⟩
  · exact h.accounts.balanced.goto rfl (by rw [hp]; rfl)
  · exact h.within.goto rfl (by rw [hp]; rfl)
  · exact idle (P := fun q => sweeps q = true → ∀ t, Pending s.shared.ledger t → Covered t q)
      (fun hq => by cases hq) h.thorough
  · refine ⟨fun k hk => ?_, fun k hk => ?_, fun hneed => ?_⟩
    · rw [worker k] at hk
      exact h.crew.gone k hk
    · rw [worker k] at hk
      exact h.crew.quitting k hk
    · have hm : Manned s := by
        refine h.crew.staffed (hneed.imp_right fun hopen => ⟨hopen.1, ?_⟩)
        obtain ⟨_, j, hj⟩ := hopen
        refine ⟨j, ?_⟩
        by_cases hji : j = i
        · subst hji
          rw [goto_pc] at hj
          cases hj
        · rwa [other (by simpa using hji)] at hj
      rcases hm with ⟨k, hk⟩ | ⟨k, hk⟩
      · exact .inl ⟨k, hk.1, hk.2.1, (worker k).symm ▸ hk.2.2⟩
      · exact .inr ⟨k, (worker k).symm ▸ hk⟩
  · exact idle (P := fun q => ∀ k ∈ joins q, s.shared.worker k ≠ .unstarted)
      (fun k hk => absurd hk List.not_mem_nil) h.joinable

omit [DecidableEq ι] in
theorem steady_begin (config : Config.SchedulerConfig) {b : Backend} (hb : Usable b) :
    Steady (begin (ι := ι) config b) where
  exclusive := exclusive_begin config b
  control := control_begin config b
  accounts := accounts_begin config hb
  within := within_begin config b
  thorough := thorough_begin config b
  crew := crew_begin config b
  joinable := by
    intro a k hk
    cases a <;> exact absurd hk List.not_mem_nil

theorem steady_call (h : Steady s) (hs : nextCall s d = some s') (sane : Sane s d) :
    Steady s' := by
  cases d with
  | event e => exact steady_next h hs sane
  | startReturns i =>
    simp only [nextCall] at hs
    split at hs <;> cases hs
    exact steady_starts h (by assumption)

theorem reachable_steady (h : ((calls ι).restrict Sane).Reachable s) : Steady s := by
  refine System.invariant (S := (calls ι).restrict Sane) ?_
    (fun _ _ _ hu hst => steady_call hu hst.2 hst.1) h
  rintro s ⟨config, b, hb, rfl⟩
  exact steady_begin config hb

end

end StartCalls
