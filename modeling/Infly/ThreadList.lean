import Infly.SchedulerSweep

/-! # The thread list

What a step does to `_threads`, to the worker threads and to `_closed`, and which worker
threads are still in the list.
-/
namespace ThreadList

open Contracts TaskBackend SchedulerState SchedulerModel SchedulerLocks SchedulerControl
  SchedulerLedger SchedulerDuties SchedulerStages SchedulerOwnership SchedulerAccounts
  SchedulerSweep Transitions

variable {ι : Type}

/-- The program counters with a step about the list, the threads or the flag. -/
def manages : Pc → Bool
  | .spawning _ _ | .launching _ _ _ | .stopping _ | .filtering | .exiting | .removing
  | .leaving => true
  | _ => false

/-- A step of `a` from `p` to `x`. -/
inductive Change (sh : Shared ι) : Thread ι → Pc → Shared ι × Pc → Prop where
  | still {a p x} : manages p = false → x.1.threads = sh.threads → x.1.worker = sh.worker →
      x.1.closed = sh.closed → Change sh a p x
  | spawn {a job index x} : x.1.threads = sh.threads ++ [sh.nextThread] →
      x.1.worker = sh.worker → x.1.closed = sh.closed →
      x.2 = .launching job index sh.nextThread → Change sh a (.spawning job index) x
  | launch {a job index k x} : x.1.threads = sh.threads →
      x.1.worker = Function.update sh.worker k .running → x.1.closed = sh.closed →
      (x.2 = .spawning job (index + 1) ∨ x.2 = .submitting job) →
      Change sh a (.launching job index k) x
  | unlaunched {a job index k e x} : x.1 = sh → x.2 = .raised e →
      Change sh a (.launching job index k) x
  | close {a timeout x} : x.1.threads = sh.threads → x.1.worker = sh.worker →
      x.1.closed = true → x.2 = .snapshotting timeout → Change sh a (.stopping timeout) x
  | filter {a x} : x.1.threads = sh.threads.filter (fun k => decide (sh.worker k = .running)) →
      x.1.worker = sh.worker → x.1.closed = sh.closed →
      (x.1.threads = [] ∧ x.2 = .listingIds ∨ x.1.threads ≠ [] ∧ x.2 = .returned .stopped) →
      Change sh a .filtering x
  | last {k x} : x.1.threads = sh.threads → x.1.worker = sh.worker → x.1.closed = sh.closed →
      x.2 = .listingIds → Change sh (.worker k) .exiting x
  | erase {k p x} : (p = .removing ∨ p = .exiting ∧ (sh.stop = true → ∃ j ∈ sh.threads,
        j ≠ k ∧ sh.worker j = .running)) → x.1.threads = sh.threads.erase k →
      x.1.worker = sh.worker → x.1.closed = sh.closed → x.2 = .leaving →
      Change sh (.worker k) p x
  | finish {k x} : x.1.threads = sh.threads → x.1.worker = Function.update sh.worker k .ended →
      x.1.closed = sh.closed → x.2 = .exited → Change sh (.worker k) .leaving x

section

variable [DecidableEq ι] {s s' : State ι} {stage : TaskId → Stage ι} {sh : Shared ι}
  {a b : Thread ι} {p : Pc} {c : Choice} {x : Shared ι × Pc} {e : Event ι} {k : ℕ}

theorem turn_change (h : act sh a p c = some x) : Change sh a p x := by
  cases c <;> cases p <;> simp only [act, advance, throwing, expire, reduceCtorEq] at h
  case go.spawning job index => cases h; exact .spawn rfl rfl rfl rfl
  case raises.launching job index k e => cases h; exact .unlaunched rfl rfl
  case go.launching job index k =>
    cases h
    refine .launch rfl rfl rfl ?_
    dsimp only
    split
    · exact .inl rfl
    · exact .inr rfl
  case go.stopping timeout => cases h; exact .close rfl rfl rfl rfl
  case go.filtering =>
    cases h
    refine .filter rfl rfl rfl ?_
    dsimp only
    split
    · exact .inl ⟨by assumption, rfl⟩
    · exact .inr ⟨by assumption, rfl⟩
  case go.exiting =>
    split at h
    · rename_i k
      split at h <;> cases h
      · exact .last rfl rfl rfl rfl
      · rename_i hlast
        refine .erase (.inr ⟨rfl, fun hstop => ?_⟩) rfl rfl rfl rfl
        simpa [hstop] using hlast
    · cases h
  case go.removing =>
    split at h <;> cases h
    exact .erase (.inl rfl) rfl rfl rfl rfl
  case go.leaving =>
    split at h <;> cases h
    exact .finish rfl rfl rfl rfl
  all_goals repeat' split at h
  all_goals cases h
  all_goals exact .still rfl rfl rfl rfl

/-- A worker that will still look whether it is the last one. -/
def alert (p : Pc) : Bool :=
  match zone p with
  | .unstarted | .plain | .exiting => true
  | _ => false

omit [DecidableEq ι] in
theorem plain_alert (h : zone p = .plain) : alert p = true := by simp [alert, h]

/-- Of an alert worker only the look itself makes something else. -/
theorem turn_alert (h : act sh (.worker k) p c = some x)
    (hp : runsOn (Thread.worker (ι := ι) k) p = true) (hz : alert p = true)
    (he : p ≠ .exiting) : alert x.2 = true := by
  cases c <;> cases p <;> simp only [act, advance, throwing, expire, reduceCtorEq] at h
  all_goals try exact absurd hp Bool.false_ne_true
  case go.exiting => exact absurd rfl he
  case go.releasing t m | go.givingBack t m | go.resolving t m | go.scheduling w t m =>
    cases m with
    | finish m =>
      repeat' split at h
      all_goals cases h
      all_goals first
        | rfl
        | (cases m <;> rfl)
    | sweep done rest => cases hz
    | rollback e => exact absurd hp Bool.false_ne_true
    | coroutine q => exact absurd hp Bool.false_ne_true
  case go.notifying n =>
    cases h
    cases n with
    | finished t m => rfl
    | swept done => cases hz
    | submitted job => exact absurd hp Bool.false_ne_true
    | stopping timeout workers => exact absurd hp Bool.false_ne_true
  case go.tracing r event | go.reporting r | raises.tracing r event =>
    cases h
    cases r with
    | submitted job => exact absurd hp Bool.false_ne_true
    | started t request => rfl
    | ended t m request => first | rfl | (cases m <;> rfl)
  case go.updating t m request =>
    cases h
    dsimp only
    split
    · exact plain_alert (ender_escape_zone ..)
    · rfl
    · rfl
  all_goals repeat' split at h
  all_goals cases h
  all_goals first
    | rfl
    | cases hz

/-- A worker that is about to end, or has ended, is in the list no more. -/
def Gone (s : State ι) : Prop :=
  ∀ k, zone (s.pc (.worker k)) = .leaving ∨ zone (s.pc (.worker k)) = .exited →
    k ∉ s.shared.threads

/-- What is known of the threads, locks and tasks in a run without reused ids. -/
structure Sound (s : State ι) (stage : TaskId → Stage ι) : Prop where
  exclusive : Exclusive s
  control : Control s
  staged : Staged s stage
  within : Within s
  thorough : Thorough s

theorem Sound.sweep (h : Sound s stage) (listable : Listable s (.step a c))
    (hz : zone (s.pc a) = .sweeping)
    (hx : act s.shared a (s.pc a) c = some x) :
    (zone x.2 = .sweeping ∨ x.2 = afterSweep a) ∧
      ∀ u, Pending x.1.ledger u → Covered u x.2 := by
  refine sweep_turn h.exclusive h.control h.staged (fun u k hp => ?_) listable hz
    (h.thorough a ?_) hx
  · exact h.within.room (a := a) (by rw [hp]; rfl)
  · simp [sweeps, hz]

/-- A worker's own step to its end leads out of the list. -/
theorem Sound.gone_own (h : Sound s stage) (hg : Gone s)
    (listable : Listable s (.step (.worker k) c))
    (hx : act s.shared (.worker k) (s.pc (.worker k)) c = some x)
    (hz : zone x.2 = .leaving ∨ zone x.2 = .exited) : k ∉ x.1.threads := by
  have hp := h.exclusive.placed (.worker k)
  have hch := turn_change hx
  have hsweep := h.sweep (a := .worker k) (c := c) (x := x) listable
  have hgone := hg k
  generalize s.pc (.worker k) = p at hx hp hch hsweep hgone
  cases hch with
  | erase _ ht =>
    rw [ht]
    exact h.control.nodup.not_mem_erase
  | finish ht =>
    rw [ht]
    exact hgone (.inl rfl)
  | last _ _ _ hpc | spawn _ _ _ hpc | unlaunched _ hpc | close _ _ _ hpc =>
    rw [hpc] at hz
    rcases hz with hz | hz <;> cases hz
  | launch _ _ _ hpc =>
    rcases hpc with hpc | hpc <;> rw [hpc] at hz <;> rcases hz with hz | hz <;> cases hz
  | filter _ _ _ hpc =>
    rcases hpc with ⟨_, hpc⟩ | ⟨_, hpc⟩ <;> rw [hpc] at hz <;> rcases hz with hz | hz <;> cases hz
  | still hm =>
    have halert : alert x.2 = false := by rcases hz with hz | hz <;> simp [alert, hz]
    obtain ⟨ho, hl, hs⟩ := worker_zone hp
    cases hpz : zone p
    case opening => exact absurd hpz ho
    case launching j => exact absurd hpz (hl j)
    case stopping => exact absurd hpz hs
    case sweeping =>
      rcases (hsweep hpz hx).1 with hz' | hz'
      · rw [hz'] at hz
        rcases hz with hz | hz <;> cases hz
      · rw [hz'] at hz
        rcases hz with hz | hz <;> cases hz
    case exiting => rw [(lone_zone p).1 hpz] at hm; cases hm
    case removing => rw [(lone_zone p).2.1 hpz] at hm; cases hm
    case leaving => rw [(lone_zone p).2.2.1 hpz] at hm; cases hm
    case exited =>
      rw [(lone_zone p).2.2.2 hpz] at hx
      cases c <;> cases hx
    case plain | unstarted =>
      have := turn_alert hx hp (by simp [alert, hpz]) (fun he => by rw [he] at hm; cases hm)
      rw [halert] at this
      cases this

omit [DecidableEq ι] in
theorem Change.listed (h : Change sh a p x) (hk : k ∈ x.1.threads) :
    k ∈ sh.threads ∨ k = sh.nextThread := by
  cases h with
  | still _ ht | launch ht | close ht | last ht | finish ht => exact .inl (ht ▸ hk)
  | unlaunched hx => exact .inl (hx ▸ hk)
  | spawn ht =>
    rw [ht] at hk
    exact (List.mem_append.mp hk).imp_right List.mem_singleton.mp
  | filter ht =>
    rw [ht] at hk
    exact .inl (List.mem_filter.mp hk).1
  | erase _ ht =>
    rw [ht] at hk
    exact .inl (List.mem_of_mem_erase hk)

omit [DecidableEq ι] in
/-- A thread that was started stays started. -/
theorem Change.started (h : Change sh a p x) (hk : sh.worker k ≠ .unstarted) :
    x.1.worker k ≠ .unstarted := by
  cases h with
  | still _ _ hw | spawn _ hw | close _ hw | filter _ hw | last _ hw | erase _ _ hw =>
    rw [hw]
    exact hk
  | unlaunched hx => exact hx ▸ hk
  | @launch _ _ _ j _ _ hw | @finish j _ _ hw =>
    rw [hw]
    by_cases he : k = j
    · subst he
      simp
    · rw [Function.update_of_ne he]
      exact hk

omit [DecidableEq ι] in
/-- A running worker of the list stays both, but for its own steps. -/
theorem Change.kept (h : Change sh a p x) (hk : k ∈ sh.threads) (hr : sh.worker k = .running)
    (ha : a ≠ .worker k) : k ∈ x.1.threads ∧ x.1.worker k = .running := by
  have other {j : ℕ} (hj : (.worker j : Thread ι) ≠ .worker k) : k ≠ j := fun he => hj (he ▸ rfl)
  cases h with
  | still _ ht hw => exact ⟨ht ▸ hk, hw ▸ hr⟩
  | close ht hw => exact ⟨ht ▸ hk, hw ▸ hr⟩
  | last ht hw => exact ⟨ht ▸ hk, hw ▸ hr⟩
  | unlaunched hx => exact hx ▸ ⟨hk, hr⟩
  | spawn ht hw => exact ⟨ht ▸ List.mem_append_left _ hk, hw ▸ hr⟩
  | filter ht hw => exact ⟨ht ▸ List.mem_filter.mpr ⟨hk, by simpa using hr⟩, hw ▸ hr⟩
  | erase _ ht hw => exact ⟨ht ▸ (List.mem_erase_of_ne (other ha)).mpr hk, hw ▸ hr⟩
  | finish ht hw =>
    refine ⟨ht ▸ hk, ?_⟩
    rw [hw, Function.update_of_ne (other ha)]
    exact hr
  | @launch _ _ _ j _ ht hw =>
    refine ⟨ht ▸ hk, ?_⟩
    rw [hw]
    by_cases he : k = j
    · subst he
      simp
    · rw [Function.update_of_ne he]
      exact hr

theorem Sound.gone (h : Sound s stage) (hg : Gone s) (listable : Listable s e)
    (hs : Step s e s') : Gone s' := by
  rcases step_cases hs with ⟨i, c, rfl, _, rfl⟩ | ⟨a, c, x, rfl, _, hx, rfl⟩ |
    ⟨f, o, rfl, _, _, rfl⟩ | ⟨w, rfl, _, rfl⟩ | ⟨d, rfl, rfl⟩
  · intro k hz
    rw [goto_pc_of_ne s (by simp)] at hz
    have hk := hg k hz
    cases c <;> exact hk
  · intro k hz hk
    by_cases ha : .worker k = a
    · subst ha
      rw [goto_pc] at hz
      exact h.gone_own hg listable hx hz hk
    · rw [goto_pc_of_ne s ha] at hz
      rcases (turn_change hx).listed hk with hold | hnew
      · exact hg k hz hold
      · have hu := h.control.unused k (le_of_eq hnew.symm)
        have hf := h.control.facts (.worker k)
        rcases hz with hz | hz <;> rw [hz] at hf <;> exact absurd (hu.symm.trans hf) (by decide)
  · exact hg
  · exact hg
  · exact hg

/-! ## Workers that look whether they are the last one -/

/-- A worker leaves its loop when the scheduler is stopping, or when a slot was given back
that nobody had taken. -/
theorem turn_exiting (h : act sh a p c = some x) (hx : x.2 = .exiting) :
    sh.stop = true ∨ ∃ t k, p = .givingBack t k ∧ ¬sh.free < sh.config.maxOutstandingTasks := by
  have busy {q : Pc} (hq : zone q = .plain ∨ zone q = .stopping) : q ≠ .exiting := fun he => by
    rw [he] at hq
    rcases hq with hq | hq <;> cases hq
  have home_busy : home a ≠ .exiting := by cases a <;> simp [home]
  have sweep_busy (done rest : List TaskId) : sweepFrom a done rest ≠ .exiting := fun he => by
    rcases sweepFrom_stays (a := a) done rest with hs | hs <;> rw [he] at hs
    · cases hs
    · cases a <;> cases hs
  cases c <;> cases p <;> simp only [act, advance, throwing, expire, reduceCtorEq] at h
  case go.pullChecking =>
    cases h
    dsimp only at hx
    split at hx
    · exact .inl (by assumption)
    · cases hx
  case go.givingBack t k =>
    split at h <;> cases h
    · cases k <;> first
        | cases hx
        | exact absurd hx home_busy
    · exact .inr ⟨t, k, rfl, by assumption⟩
  case go.releasing t k | go.resolving t k | go.scheduling w t k =>
    all_goals repeat' split at h
    all_goals cases h
    all_goals cases k <;> first
      | cases hx
      | exact absurd hx home_busy
      | exact absurd hx (sweep_busy _ _)
  case go.notifying n =>
    cases h
    cases n with
    | submitted job => exact absurd hx (busy (.inl (followUp_zone job)))
    | stopping timeout workers => exact absurd hx (busy (.inr (joinFrom_zone ..)))
    | finished t m => cases hx
    | swept done => cases a <;> cases hx
  case go.tracing k event =>
    cases h
    cases k <;> cases hx
  case go.sweeping t done rest =>
    cases h
    dsimp only at hx
    split at hx
    · cases hx
    · cases a <;> cases hx
  all_goals repeat' split at h
  all_goals cases h
  all_goals first
    | cases hx
    | exact absurd hx home_busy
    | exact absurd hx (sweep_busy _ _)
    | (cases a <;> cases hx)
    | exact absurd hx (busy (by simp))

end

end ThreadList
