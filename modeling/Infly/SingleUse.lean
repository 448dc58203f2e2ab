import Infly.Slots

/-! # Single use of a request

How often submit calls for one id return, and what a call for an accepted id meets.
-/
namespace SingleUse

open Contracts TaskBackend SchedulerState SchedulerModel SchedulerLocks SchedulerControl
  SchedulerLedger SchedulerDuties SchedulerStages SchedulerOwnership SchedulerAccounts SchedulerRequests Transitions

/-- The stored task whose submit call has not returned yet. -/
def posted : Pc → Option TaskId
  | .reporting (.submitted job) | .tracing (.submitted job) _ | .notifying (.submitted job) =>
    some job.task
  | _ => none

variable {ι : Type} {a b : Thread ι} {p : Pc} {t : TaskId}

theorem onward_posted (h : onward p = true) : posted p = none := by
  cases p
  case notifying n => cases n <;> first | rfl | cases h
  case reporting k | tracing k _ => cases h
  all_goals rfl

theorem posted_lifecycle (hp : posted p = some t) : .lifecycle ∈ p.locks a := by
  cases p
  case reporting k | tracing k _ =>
    cases k <;> first
      | exact List.mem_singleton.mpr rfl
      | cases hp
  case notifying n =>
    cases n <;> first
      | exact List.mem_singleton.mpr rfl
      | cases hp
  all_goals cases hp

section

variable [DecidableEq ι] {s s' : State ι} {stage : TaskId → Stage ι} {sh : Shared ι} {x : Shared ι × Pc} {c : Choice}
  {e : Event ι}

/-- A step stores a task, or answers its submit call, or leaves both counts alone. -/
theorem turn_posted (h : act sh a p c = some x) :
    ((posted x.2 = posted p ∨ posted x.2 = none) ∧ x.1.ledger.accepts = sh.ledger.accepts ∧
      x.1.ledger.returns = sh.ledger.returns) ∨
    (∃ job, p = .storing job ∧ posted x.2 = some job.task ∧
      x.1.ledger.accepts = Function.update sh.ledger.accepts job.task
        (sh.ledger.accepts job.task + 1) ∧ x.1.ledger.returns = sh.ledger.returns) ∨
    ∃ job, p = .notifying (.submitted job) ∧ posted x.2 = none ∧
      x.1.ledger.accepts = sh.ledger.accepts ∧
      x.1.ledger.returns = Function.update sh.ledger.returns job.task
        (sh.ledger.returns job.task + 1) := by
  cases p <;> cases c <;> simp only [act, advance, throwing, expire, reduceCtorEq] at h
  case storing.go job =>
    cases h
    unfold Ledger.store
    split
    · exact .inl ⟨.inl rfl, rfl, rfl⟩
    · exact .inr (.inl ⟨job, rfl, rfl, rfl, rfl⟩)
  case notifying.go n =>
    cases h
    cases n with
    | submitted job =>
      exact .inr (.inr ⟨job, rfl, onward_posted (resumed_onward (followUp_resumed job)), rfl, rfl⟩)
    | _ => exact .inl ⟨.inr (onward_posted (by simp)), rfl, rfl⟩
  case reporting.go k | tracing.go k _ =>
    cases h
    cases k <;> exact .inl ⟨.inl rfl, rfl, rfl⟩
  case waitChecking.go q d =>
    cases h
    exact .inl ⟨.inr (look_of q _ _ _ (fun _ hp => onward_posted (resumed_onward hp)) rfl
      fun _ => rfl), rfl, rfl⟩
  all_goals repeat' split at h
  all_goals cases h
  all_goals first
    | exact .inl ⟨.inl rfl, rfl, rfl⟩
    | exact .inl ⟨.inr rfl, rfl, rfl⟩
    | (refine .inl ⟨.inr (onward_posted ?_), rfl, rfl⟩; simp [resumed_onward])

/-- Submit calls return at most as often as a record was stored. -/
structure Counted (s : State ι) : Prop where
  returned : ∀ t, s.shared.ledger.returns t ≤ s.shared.ledger.accepts t
  posted : ∀ a t, posted (s.pc a) = some t →
    s.shared.ledger.returns t < s.shared.ledger.accepts t

omit [DecidableEq ι] in
theorem Counted.still (h : Counted s) (hp : s'.pc = s.pc)
    (ha : s'.shared.ledger.accepts = s.shared.ledger.accepts)
    (hr : s'.shared.ledger.returns = s.shared.ledger.returns) : Counted s' where
  returned := by rw [ha, hr]; exact h.returned
  posted := by rw [hp, ha, hr]; exact h.posted

theorem Counted.goto (h : Counted s) (hx : SingleUse.posted x.2 = SingleUse.posted (s.pc a) ∨
    SingleUse.posted x.2 = none)
    (ha : x.1.ledger.accepts = s.shared.ledger.accepts)
    (hr : x.1.ledger.returns = s.shared.ledger.returns) : Counted (s.goto a x) where
  returned := by rw [goto_shared, ha, hr]; exact h.returned
  posted b u hb := by
    rw [goto_shared, ha, hr]
    by_cases hba : b = a
    · subst hba
      rw [goto_pc] at hb
      rcases hx with hx | hx
      · exact h.posted b u (hx ▸ hb)
      · cases hx.symm.trans hb
    · rw [goto_pc_of_ne s hba] at hb
      exact h.posted b u hb

theorem counted_turn (hex : Exclusive s) (h : Counted s) (hx : act s.shared a (s.pc a) c = some x) :
    Counted (s.goto a x) := by
  rcases turn_posted hx with ⟨hp, ha, hr⟩ | ⟨job, hp, hx2, ha, hr⟩ | ⟨job, hp, hx2, ha, hr⟩
  · exact h.goto hp ha hr
  · refine ⟨fun u => ?_, fun b u hb => ?_⟩
    all_goals rw [goto_shared, ha, hr]
    · by_cases hu : u = job.task
      · subst hu
        rw [Function.update_self]
        exact Nat.le_succ_of_le (h.returned _)
      · rw [Function.update_of_ne hu]
        exact h.returned u
    · by_cases hu : u = job.task
      · subst hu
        rw [Function.update_self]
        exact Nat.lt_succ_of_le (h.returned _)
      · rw [Function.update_of_ne hu]
        by_cases hba : b = a
        · subst hba
          rw [goto_pc, hx2] at hb
          cases hb
          exact absurd rfl hu
        · rw [goto_pc_of_ne s hba] at hb
          exact h.posted b u hb
  · have own : SingleUse.posted (s.pc a) = some job.task := by rw [hp]; rfl
    refine ⟨fun u => ?_, fun b u hb => ?_⟩
    all_goals rw [goto_shared, ha, hr]
    · by_cases hu : u = job.task
      · subst hu
        rw [Function.update_self]
        exact h.posted a _ own
      · rw [Function.update_of_ne hu]
        exact h.returned u
    · by_cases hba : b = a
      · subst hba
        rw [goto_pc, hx2] at hb
        cases hb
      · rw [goto_pc_of_ne s hba] at hb
        exact absurd (hex.unique (posted_lifecycle hb) (posted_lifecycle own)) hba

theorem reachable_counted (h : (system ι).Reachable s) : Counted s := by
  refine System.invariant_reachable ?_ (fun u e v hr hu hs => ?_) h
  · rintro s ⟨config, b, _, rfl⟩
    refine ⟨fun t => le_rfl, fun a t ha => ?_⟩
    cases a <;> cases ha
  · rcases step_cases hs with ⟨i, k, rfl, hrest, rfl⟩ | ⟨a, c, x, rfl, _, hx, rfl⟩ |
      ⟨f, o, rfl, _, _, rfl⟩ | ⟨w, rfl, _, rfl⟩ | ⟨d, rfl, rfl⟩
    · cases k with
      | submit job => exact hu.goto (.inr rfl) rfl rfl
      | query q => exact hu.goto (.inr rfl) rfl rfl
      | stop timeout =>
        refine hu.goto (.inr ?_) rfl rfl
        simp only [Call.enter]
        split <;> rfl
    · exact counted_turn (reachable_exclusive hr) hu hx
    · exact hu.still rfl rfl rfl
    · exact hu.still rfl rfl rfl
    · exact hu.still rfl rfl rfl

/-! ## A second call -/

/-- The errors with which a call for a used id ends. -/
def refusals (t : TaskId) : List Raised := [closedForStart, closedForSubmit, duplicate t]

/-- A call for an accepted task is still on its way to the duplicate check, and every step
of the scheduler's own code leads on or refuses. -/
theorem accepted_refused (h : Staged s stage) (single : Single s (.step a .go))
    (ha : t ∈ s.shared.ledger.accepted) (hp : asking (s.pc a) = some t)
    (hs : Step s (.step a .go) s') :
    asking (s'.pc a) = some t ∨ ∃ e ∈ refusals t, s'.pc a = .raised e := by
  rcases step_cases hs with ⟨_, _, he, _⟩ | ⟨b, c, x, he, _, hx, rfl⟩ | ⟨_, _, he, _⟩ |
    ⟨_, he, _⟩ | ⟨_, he, _⟩ <;> cases he
  have level {l : Level} (hd : duty s.shared.ledger a (s.pc a) = some (t, l))
      (hl : opening l = true) : False := by
    have hf := h.level hd
    cases l with
    | fresh | slotted | entered | withdrawn | unslotted => exact hf.1.accepted ha
    | _ => cases hl
  rw [goto_pc]
  cases hpc : s.pc a <;> rw [hpc] at hp hx level <;> simp only [act, advance, reduceCtorEq] at hx
  case starting job =>
    cases hp
    cases hx
    cases s.shared.closed with
    | true => exact .inr ⟨_, List.mem_cons_self .., rfl⟩
    | false => exact .inl rfl
  case startChecking job =>
    cases hp
    split at hx <;> cases hx <;> exact .inl rfl
  case spawning job index => cases hp; cases hx; exact .inl rfl
  case launching job index k =>
    cases hp
    cases hx
    dsimp only
    split <;> exact .inl rfl
  case submitting job =>
    cases hp
    cases hx
    cases s.shared.accepting with
    | true => exact .inl rfl
    | false => exact .inr ⟨_, List.mem_cons_of_mem _ (List.mem_cons_self ..), rfl⟩
  case checkingDuplicate job =>
    cases hp
    cases hx
    have hr : (s.shared.ledger.record job.task).isSome = true :=
      Option.isSome_iff_ne_none.mpr (single job hpc (.inl ha))
    dsimp only
    rw [if_pos hr]
    exact .inr ⟨_, by simp [refusals], rfl⟩
  case acquiringSlot job | addingId job | storing job =>
    cases hp
    exact (level rfl rfl).elim
  all_goals cases hp

omit [DecidableEq ι] in
/-- Every task is accepted at most once and executed at most once. -/
theorem used_once (h : Staged s stage) (t : TaskId) :
    s.shared.ledger.accepts t ≤ 1 ∧ s.shared.ledger.executed t ≤ 1 := by
  have hfact := h.fact t
  have mine : Mine s.shared.ledger t → s.shared.ledger.accepts t ≤ 1 := fun hm => by
    rw [hm.accepts]
    split <;> omega
  have blank : Blank s.shared.ledger t →
      s.shared.ledger.accepts t ≤ 1 ∧ s.shared.ledger.executed t ≤ 1 := fun hb =>
    ⟨by rw [hb.accepts]; omega, by rw [hb.executed]; omega⟩
  have waiting : Waiting s.shared.ledger t →
      s.shared.ledger.accepts t ≤ 1 ∧ s.shared.ledger.executed t ≤ 1 := fun hw =>
    ⟨mine hw.mine, by rw [hw.executed]; omega⟩
  have stale : Stale s.shared.ledger t →
      s.shared.ledger.accepts t ≤ 1 ∧ s.shared.ledger.executed t ≤ 1 := fun hs =>
    ⟨mine hs.mine, by rw [hs.executed]; omega⟩
  have ended : Ended s.shared.ledger t →
      s.shared.ledger.accepts t ≤ 1 ∧ s.shared.ledger.executed t ≤ 1 := fun he =>
    ⟨mine he.mine, he.executed⟩
  cases hst : stage t <;> rw [hst] at hfact
  case absent => exact blank hfact.1
  case queued => exact hfact.2.elim waiting stale
  case spent => exact hfact.2.elim ended fun hf => ⟨mine hf.2.2, by rw [hf.2.1]; omega⟩
  case held b l =>
    cases l with
    | fresh | slotted | unslotted | entered | withdrawn => exact blank hfact.1
    | pulled => exact hfact.elim waiting stale
    | checked => exact waiting hfact
    | started => exact ⟨mine hfact.1.mine, by rw [hfact.2.1]; omega⟩
    | ran f | awaiting f | completing o => exact ⟨mine hfact.1.mine, Nat.le_of_eq hfact.2.1⟩
    | failing => exact ⟨mine hfact.1.mine, hfact.2.1⟩
    | handling => exact hfact.elim (fun h => ⟨mine h.2.mine, h.1.1⟩) (fun h => ended h.1)
    | ended | repaying | closing => exact ended hfact.1

/-- As long as every id that is submitted again still has its record, at most one submit
call for an id returns, the strategy is called at most once for it, and later calls are
refused. -/
theorem single_use (h : ((system ι).restrict Single).Reachable s) (t : TaskId) :
    s.shared.ledger.returns t ≤ 1 ∧ s.shared.ledger.executed t ≤ 1 ∧
    (t ∈ s.shared.ledger.accepted → ∀ a s', asking (s.pc a) = some t →
      Single s (.step a .go) → Step s (.step a .go) s' →
      asking (s'.pc a) = some t ∨ ∃ e ∈ refusals t, s'.pc a = .raised e) := by
  obtain ⟨stage, hst⟩ := (reachable_accounts h).staged
  have hcount := (reachable_counted (System.restrict_reachable h)).returned t
  obtain ⟨haccepts, hexecuted⟩ := used_once hst t
  exact ⟨hcount.trans haccepts, hexecuted, fun ha a s' hp single hs =>
    accepted_refused hst single ha hp hs⟩

/-- The same request again while its record is retained. -/
def secondSubmit : List (Event Bool) :=
  firstSubmit false (sampleJob "t") ++ turns (.worker 0) 9 ++ [.resolve 0 (.result none)] ++
    turns (.callback 0) 9 ++ [.call true (.submit (sampleJob "t"))] ++ turns (.client true) 4

theorem second_submit_refused : ∃ s, after Single { numThreads := 1 } secondSubmit = some s ∧
    s.pc (.client true) = .raised (duplicate "t") ∧
    s.shared.ledger.returns "t" ≤ 1 ∧ s.shared.ledger.executed "t" ≤ 1 := by
  obtain ⟨s, hs, hr, hp⟩ := after_spec (A := Single) (c := { numThreads := 1 })
    (l := secondSubmit) (P := fun s => s.pc (.client true) = .raised (duplicate "t"))
    (by decide +kernel)
  have hu := single_use hr "t"
  exact ⟨s, hs, hp, hu.1, hu.2.1⟩

/-- The same request again after its record was consumed. -/
def consumedAndRepeated : List (Event Bool) :=
  firstSubmit false (sampleJob "t") ++ turns (.worker 0) 9 ++ [.resolve 0 (.result none)] ++
    turns (.callback 0) 9 ++ [.call true (.query { task := "t", consume := true })] ++
    turns (.client true) 2 ++ [.call true (.submit (sampleJob "t"))] ++ turns (.client true) 10 ++
    turns (.worker 0) 7

theorem consumed_task_returns_twice : ∃ s,
    after (fun _ _ => True) { numThreads := 1 } consumedAndRepeated = some s ∧
    (system Bool).Reachable s ∧
    s.shared.ledger.returns "t" = 2 ∧ s.shared.ledger.executed "t" = 2 := by
  obtain ⟨s, hs, hr, hp⟩ := after_spec (A := fun _ _ => True) (c := { numThreads := 1 })
    (l := consumedAndRepeated) (P := fun s => s.shared.ledger.returns "t" = 2 ∧
      s.shared.ledger.executed "t" = 2) (by decide +kernel)
  exact ⟨s, hs, System.restrict_reachable hr, hp⟩

end

end SingleUse
