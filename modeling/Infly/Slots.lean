import Infly.TaskLife

/-! # Outstanding slots

How the free slots, the outstanding ids and the unfinished tasks belong together, and when
a submit call is refused for want of a slot.
-/
namespace Slots

open Contracts TaskBackend SchedulerState SchedulerModel SchedulerLocks SchedulerLedger
  SchedulerDuties SchedulerStages SchedulerOwnership SchedulerAccounts SchedulerRequests
  Transitions

/-- The accepted tasks that are PENDING or RUNNING. -/
def unfinished (L : Ledger) : Finset TaskId := L.accepted.filter fun t => live L t

def reportSlot : Report → Option TaskId
  | .ended t _ _ => some t
  | _ => none

/-- The task whose slot a thread has taken and not accounted for yet, or has still to give
back because the task is over. -/
def holding : Pc → Option TaskId
  | .addingId job | .storing job => some job.task
  | .reporting k | .tracing k _ => reportSlot k
  | .fetching t (.workerLoop _) => some t
  | .releasing t _ | .givingBack t _ => some t
  | _ => none

variable {ι : Type} {s s' : State ι} {stage : TaskId → Stage ι} {a b : Thread ι} {p : Pc}
  {L : Ledger} {t : TaskId} {l : Level} {job : Job}

theorem mem_unfinished : t ∈ unfinished L ↔ t ∈ L.accepted ∧ live L t = true := by
  simp [unfinished]

/-- Levels at which a slot is with the thread itself. -/
def slotLevel : Level → Bool
  | .slotted | .entered | .withdrawn | .unslotted | .handling | .ended | .repaying => true
  | _ => false

theorem duty_holding (hd : duty L a p = some (t, l)) (hl : slotLevel l = true) :
    holding p = some t := by
  cases p
  case reporting k | tracing k _ =>
    cases k <;> cases hd <;> first
      | rfl
      | cases hl
  case releasing u k | givingBack u k => cases k <;> cases hd <;> rfl
  case resolving u k | scheduling _ u k => cases k <;> cases hd <;> cases hl
  case notifying n =>
    cases n <;> cases hd
    cases hl
  case fetching u m => cases m <;> cases hd <;> first | rfl | cases hl
  case updating u m _ => cases m <;> cases hd <;> cases hl
  case uncalled =>
    cases a with
    | callback f =>
      simp only [duty] at hd
      split at hd <;> cases hd
      cases hl
    | _ => cases hd
  all_goals cases hd
  all_goals first
    | rfl
    | cases hl

theorem holding_duty (hr : runsOn a p = true) (hh : holding p = some t) :
    ∃ l, duty L a p = some (t, l) ∧ slotLevel l = true := by
  cases p
  case reporting k | tracing k _ =>
    cases k <;> cases hh
    exact ⟨_, rfl, rfl⟩
  case releasing u k | givingBack u k =>
    cases k <;> cases hh <;> first
      | exact ⟨_, rfl, rfl⟩
      | exact absurd hr Bool.false_ne_true
  case fetching u m =>
    cases m <;> cases hh
    exact ⟨_, rfl, rfl⟩
  all_goals cases hh <;> exact ⟨_, rfl, rfl⟩

theorem repaying_transit (hd : duty L a p = some (t, .repaying)) : inTransit p = true := by
  cases p
  case reporting k | tracing k _ => cases k <;> cases hd
  case releasing u k | givingBack u k => cases k <;> cases hd <;> rfl
  case resolving u k | scheduling _ u k => cases k <;> cases hd
  case notifying n => cases n <;> cases hd
  case fetching u m | updating u m _ => cases m <;> cases hd
  case uncalled =>
    cases a with
    | callback f =>
      simp only [duty] at hd
      split at hd <;> cases hd
    | _ => cases hd
  all_goals cases hd

theorem transit_duty (hr : runsOn a p = true) (h : inTransit p = true) : ∃ t l,
    duty L a p = some (t, l) ∧ holding p = some t ∧
      (l = .slotted ∨ l = .unslotted ∨ l = .repaying) := by
  cases p
  case addingId job => exact ⟨_, _, rfl, rfl, .inl rfl⟩
  case givingBack u k =>
    cases k with
    | rollback e => exact ⟨_, _, rfl, rfl, .inr (.inl rfl)⟩
    | coroutine q => exact absurd hr Bool.false_ne_true
    | _ => exact ⟨_, _, rfl, rfl, .inr (.inr rfl)⟩
  all_goals cases h

/-- An outstanding task is an accepted one that is not finished, or its slot is with a
thread. -/
theorem outstanding_cases (h : Staged s stage) (ht : t ∈ s.shared.ledger.outstanding) :
    t ∈ unfinished s.shared.ledger ∨
      ∃ b l, duty s.shared.ledger b (s.pc b) = some (t, l) ∧ slotLevel l = true := by
  have hfact := h.fact t
  have hown := hfact.own ht
  have waiting : Waiting s.shared.ledger t → t ∈ unfinished s.shared.ledger := fun hw =>
    mem_unfinished.mpr ⟨hw.mine.accepted.mpr hown, hw.live⟩
  have running : Running s.shared.ledger t → t ∈ unfinished s.shared.ledger := fun hr =>
    mem_unfinished.mpr ⟨hr.mine.accepted.mpr hown, hr.live⟩
  cases hst : stage t <;> rw [hst] at hfact
  case absent => exact absurd ht hfact.2
  case queued => exact .inl (waiting (hfact.2.resolve_right fun hs => hown hs.foreign))
  case spent => exact absurd ht hfact.1
  case held b l =>
    have hd := (h.owner b t l).mpr hst
    cases l with
    | fresh | slotted | unslotted => exact absurd ht hfact.2
    | entered | withdrawn | handling | ended => exact .inr ⟨b, _, hd, rfl⟩
    | pulled => exact .inl (waiting (hfact.resolve_right fun hs => hown hs.foreign))
    | checked => exact .inl (waiting hfact)
    | started | ran | awaiting | failing | completing => exact .inl (running hfact.1)
    | repaying => exact absurd ht hfact.2.1
    | closing => exact absurd ht hfact.2

/-- Every PENDING or RUNNING task that the scheduler accepted is outstanding. -/
theorem unfinished_outstanding (h : Staged s stage) (ht : t ∈ unfinished s.shared.ledger) :
    t ∈ s.shared.ledger.outstanding := by
  obtain ⟨ha, hl⟩ := mem_unfinished.mp ht
  have hfact := h.fact t
  have own : Mine s.shared.ledger t → t ∉ s.shared.ledger.foreign := fun hm => hm.accepted.mp ha
  have waiting : Waiting s.shared.ledger t → t ∈ s.shared.ledger.outstanding := fun hw =>
    hw.owed.mpr (own hw.mine)
  cases hst : stage t <;> rw [hst] at hfact
  case absent => exact absurd ha hfact.1.accepted
  case queued => exact waiting (hfact.2.resolve_right fun hs => own hs.mine hs.foreign)
  case spent => exact hfact.2.elim (fun he => absurd hl he.not_live) (fun hf => absurd hf.1 (own hf.2.2))
  case held b l =>
    cases l with
    | fresh | slotted | unslotted | entered | withdrawn => exact absurd ha hfact.1.accepted
    | pulled => exact waiting (hfact.resolve_right fun hs => own hs.mine hs.foreign)
    | checked => exact waiting hfact
    | started | ran | awaiting | failing | completing =>
      exact hfact.1.owed.mpr (own hfact.1.mine)
    | handling =>
      exact hfact.elim (fun h => h.2.owed.mpr (own h.2.mine)) (fun h => h.2.mpr (own h.1.mine))
    | ended => exact hfact.2.mpr (own hfact.1.mine)
    | repaying | closing => exact absurd hl hfact.1.not_live

section

variable [DecidableEq ι]

/-- Slots, outstanding ids and threads on their way between the two add up to the limit; a
slot is never given back above it; the unfinished tasks are outstanding, and at most as many
as the limit allows; and when no task is unfinished and no thread has a slot in hand, all
slots are free. -/
theorem slots_balanced (h : ((system ι).restrict Fresh).Reachable s) :
    (∃ moving : Finset (Thread ι), (∀ a, a ∈ moving ↔ inTransit (s.pc a) = true) ∧
      s.shared.free + s.shared.ledger.outstanding.card + moving.card =
        s.shared.config.maxOutstandingTasks) ∧
    (∀ a t k, s.pc a = .givingBack t k → s.shared.free < s.shared.config.maxOutstandingTasks) ∧
    unfinished s.shared.ledger ⊆ s.shared.ledger.outstanding ∧
    (unfinished s.shared.ledger).card ≤ s.shared.config.maxOutstandingTasks ∧
    (unfinished s.shared.ledger = ∅ → (∀ a, holding (s.pc a) = none) →
      s.shared.free = s.shared.config.maxOutstandingTasks) := by
  obtain ⟨⟨stage, hst⟩, hb⟩ := reachable_accounts (fresh_single h)
  have hsub : unfinished s.shared.ledger ⊆ s.shared.ledger.outstanding :=
    fun t ht => unfinished_outstanding hst ht
  refine ⟨hb, fun a t k hp => hb.room (a := a) (by rw [hp]; rfl), hsub, ?_, fun hu hh => ?_⟩
  all_goals obtain ⟨moving, hm, hsum⟩ := hb
  · have := Finset.card_le_card hsub
    omega
  · have hout : s.shared.ledger.outstanding = ∅ := by
      refine Finset.eq_empty_of_forall_notMem fun t ht => ?_
      rcases outstanding_cases hst ht with hf | ⟨b, l, hd, hl⟩
      · rw [hu] at hf
        exact Finset.notMem_empty t hf
      · exact absurd ((hh b).symm.trans (duty_holding hd hl)) nofun
    have hmov : moving = ∅ := by
      refine Finset.eq_empty_of_forall_notMem fun b hb => ?_
      obtain ⟨t, _, _, ht, _⟩ := transit_duty (L := s.shared.ledger)
        ((single_exclusive (fresh_single h)).placed b) ((hm b).mp hb)
      exact absurd ((hh b).symm.trans ht) nofun
    rw [hout, hmov] at hsum
    simpa using hsum

theorem one_task_slots : ∃ s, after Fresh { numThreads := 1 } TaskLife.oneTask = some s ∧
    (unfinished s.shared.ledger).card ≤ s.shared.config.maxOutstandingTasks ∧
    s.shared.free = s.shared.config.maxOutstandingTasks := by
  obtain ⟨s, hs, hr, hf⟩ := after_spec (A := Fresh) (c := { numThreads := 1 })
    (l := TaskLife.oneTask)
    (P := fun s => s.shared.free = s.shared.config.maxOutstandingTasks) (by decide +kernel)
  exact ⟨s, hs, (slots_balanced hr).2.2.2.1, hf⟩

/-! ## Overload -/

/-- The step of `a` refuses a submission for want of a slot. -/
def Refuses (s : State ι) (a : Thread ι) (s' : State ι) : Prop :=
  Step s (.step a .go) s' ∧ (∃ job, s.pc a = .acquiringSlot job) ∧
    s'.pc a = .raised (overloaded s.shared.config.maxOutstandingTasks)

theorem refuses_full (h : Refuses s a s') : s.shared.free = 0 := by
  obtain ⟨hs, ⟨job, hp⟩, hr⟩ := h
  rcases step_cases hs with ⟨_, _, he, _⟩ | ⟨b, c, x, he, _, hx, rfl⟩ | ⟨_, _, he, _⟩ |
    ⟨_, he, _⟩ | ⟨_, he, _⟩ <;> cases he
  by_contra hf
  rw [hp] at hx
  simp only [act, advance, hf, ↓reduceIte] at hx
  cases hx
  rw [goto_pc] at hr
  cases hr

theorem full_refuses (hp : s.pc a = .acquiringSlot job) (hf : s.shared.free = 0) :
    ∃ s', Refuses s a s' := by
  refine ⟨s.goto a (s.shared, .raised (overloaded s.shared.config.maxOutstandingTasks)),
    ?_, ⟨job, hp⟩, goto_pc ..⟩
  simp [Step, next, hp, Pc.needs, act, advance, hf]

omit [DecidableEq ι] in
/-- Only one thread submits at a time. -/
theorem opening_alone (hex : Exclusive s) (hp : s.pc a = .acquiringSlot job)
    (hd : duty s.shared.ledger b (s.pc b) = some (t, l)) (hl : opening l = true) (hb : l ≠ .fresh) :
    False := by
  have ha : .lifecycle ∈ (s.pc a).locks a := by
    rw [hp]
    exact List.mem_singleton.mpr rfl
  have hab : b = a := hex.unique (opening_lifecycle hd hl) ha
  subst hab
  rw [hp] at hd
  cases hd
  exact hb rfl

/-- A submission is refused with as many unfinished tasks as the limit allows exactly if no
thread is between making an accepted task terminal and giving back its slot. -/
theorem overload_exact (h : ((system ι).restrict Fresh).Reachable s) (hr : Refuses s a s') :
    (unfinished s.shared.ledger).card = s.shared.config.maxOutstandingTasks ↔
      ∀ b t, holding (s.pc b) = some t → t ∈ s.shared.ledger.accepted →
        live s.shared.ledger t = true := by
  obtain ⟨⟨stage, hst⟩, moving, hm, hsum⟩ := reachable_accounts (fresh_single h)
  have hex := single_exclusive (fresh_single h)
  have hfree := refuses_full hr
  obtain ⟨_, ⟨job, hp⟩, _⟩ := hr
  have hsub : unfinished s.shared.ledger ⊆ s.shared.ledger.outstanding :=
    fun t ht => unfinished_outstanding hst ht
  constructor
  · intro hcard b t hh ha
    have hle := Finset.card_le_card hsub
    have hmov : moving = ∅ := Finset.card_eq_zero.mp (by omega)
    have heq : unfinished s.shared.ledger = s.shared.ledger.outstanding :=
      Finset.eq_of_subset_of_card_le hsub (by omega)
    have still : inTransit (s.pc b) ≠ true := fun hb => by
      have := (hm b).mpr hb
      rw [hmov] at this
      exact absurd this (Finset.notMem_empty b)
    have counted : t ∈ s.shared.ledger.outstanding → live s.shared.ledger t = true := fun ho =>
      (mem_unfinished.mp (heq ▸ ho)).2
    obtain ⟨l, hd, hl⟩ := holding_duty (L := s.shared.ledger) (hex.placed b) hh
    have hfact := hst.level hd
    cases l with
    | slotted | entered | withdrawn | unslotted => exact absurd ha hfact.1.accepted
    | handling =>
      exact hfact.elim (fun h => h.2.live) fun h => counted (h.2.mpr (h.1.mine.accepted.mp ha))
    | ended => exact counted (hfact.2.mpr (hfact.1.mine.accepted.mp ha))
    | repaying => exact absurd (repaying_transit hd) still
    | _ => cases hl
  · intro hall
    have hmov : moving = ∅ := by
      refine Finset.eq_empty_of_forall_notMem fun b hb => ?_
      obtain ⟨t, l, hd, hh, hl⟩ := transit_duty (L := s.shared.ledger) (hex.placed b)
        ((hm b).mp hb)
      have hfact := hst.level hd
      rcases hl with rfl | rfl | rfl
      · exact opening_alone hex hp hd rfl nofun
      · exact opening_alone hex hp hd rfl nofun
      · exact hfact.1.not_live (hall b t hh (hfact.1.mine.accepted.mpr hfact.2.2))
    have heq : s.shared.ledger.outstanding ⊆ unfinished s.shared.ledger := by
      intro t ht
      rcases outstanding_cases hst ht with hf | ⟨b, l, hd, hl⟩
      · exact hf
      · have hh := duty_holding hd hl
        have hfact := hst.level hd
        have own := (hst.fact t).own ht
        have done : Mine s.shared.ledger t → t ∈ unfinished s.shared.ledger := fun hmine =>
          mem_unfinished.mpr ⟨hmine.accepted.mpr own, hall b t hh (hmine.accepted.mpr own)⟩
        cases l with
        | slotted | entered | withdrawn | unslotted =>
          exact (opening_alone hex hp hd rfl nofun).elim
        | handling => exact hfact.elim (fun h => done h.2.mine) (fun h => done h.1.mine)
        | ended | repaying => exact done hfact.1.mine
        | _ => cases hl
    have := Finset.card_le_card heq
    have := Finset.card_le_card hsub
    rw [hmov, Finset.card_empty] at hsum
    omega

/-- A second submission while the one slot is taken by a task that waits. -/
def tooMany : List (Event Bool) :=
  firstSubmit false (sampleJob "t") ++ [.call true (.submit (sampleJob "u"))] ++
    turns (.client true) 4

theorem too_many_refused : ∃ s s', after Fresh { maxOutstandingTasks := 1, numThreads := 1 }
    tooMany = some s ∧ Refuses s (.client true) s' ∧
    ∀ b t, holding (s.pc b) = some t → t ∈ s.shared.ledger.accepted →
      live s.shared.ledger t = true := by
  obtain ⟨s, hs, hr, hp, hf, hn⟩ := after_spec (A := Fresh)
    (c := { maxOutstandingTasks := 1, numThreads := 1 }) (l := tooMany)
    (P := fun s => s.pc (.client true) = .acquiringSlot (sampleJob "u") ∧ s.shared.free = 0 ∧
      (unfinished s.shared.ledger).card = s.shared.config.maxOutstandingTasks) (by decide +kernel)
  obtain ⟨s', hs'⟩ := full_refuses hp hf
  exact ⟨s, s', hs, hs', (overload_exact hr hs').mp hn⟩

/-- A submission while the callback of a task that a query already finds completed has not
given its slot back. -/
def lateRelease : List (Event Bool) :=
  firstSubmit false (sampleJob "t") ++ turns (.worker 0) 9 ++ [.resolve 0 (.result none)] ++
    turns (.callback 0) 3 ++ [.call true (.query { task := "t" })] ++ turns (.client true) 2 ++
    [.call true (.submit (sampleJob "u"))] ++ turns (.client true) 4

theorem overload_early : ∃ s s', after Fresh { maxOutstandingTasks := 1, numThreads := 1 }
    lateRelease = some s ∧ Refuses s (.client true) s' ∧
    (unfinished s.shared.ledger).card ≠ s.shared.config.maxOutstandingTasks := by
  obtain ⟨s, hs, _, hp, hf, hn⟩ := after_spec (A := Fresh)
    (c := { maxOutstandingTasks := 1, numThreads := 1 }) (l := lateRelease)
    (P := fun s => s.pc (.client true) = .acquiringSlot (sampleJob "u") ∧ s.shared.free = 0 ∧
      (unfinished s.shared.ledger).card ≠ s.shared.config.maxOutstandingTasks) (by decide +kernel)
  obtain ⟨s', hs'⟩ := full_refuses hp hf
  exact ⟨s, s', hs, hs', hn⟩

end

end Slots
