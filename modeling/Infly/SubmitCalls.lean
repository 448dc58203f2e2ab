import Infly.SchedulerRequests

/-! # What a failed submit call leaves behind

The effect of a call is what its own steps change, among those of all other threads: whether
the task is stored and queued, the slots taken, the outstanding id, and two metrics.
-/
namespace SubmitCalls

open Contracts TaskBackend SchedulerState SchedulerModel SchedulerLocks SchedulerAccounts
  SchedulerRequests Transitions

structure Effect where
  stored : ℤ := 0
  queued : ℤ := 0
  slots : ℤ := 0
  ids : ℤ := 0
  submitted : ℤ := 0
  inflight : ℤ := 0

namespace Effect

/-- A step that changes `before` into `after` is added. -/
def plus (f before after : Effect) : Effect where
  stored := f.stored + (after.stored - before.stored)
  queued := f.queued + (after.queued - before.queued)
  slots := f.slots + (after.slots - before.slots)
  ids := f.ids + (after.ids - before.ids)
  submitted := f.submitted + (after.submitted - before.submitted)
  inflight := f.inflight + (after.inflight - before.inflight)

/-- Nothing is held for the task, and the metrics are what they were. -/
def Nothing (f : Effect) : Prop :=
  f.stored = 0 ∧ f.queued = 0 ∧ f.slots = 0 ∧ f.ids ≤ 0 ∧ f.submitted = 0 ∧ f.inflight = 0

instance (f : Effect) : Decidable f.Nothing :=
  inferInstanceAs (Decidable (_ ∧ _ ∧ _ ∧ _ ∧ _ ∧ _))

@[simp] theorem plus_self (f g : Effect) : f.plus g g = f := by simp [plus]

end Effect

variable {ι : Type}

def holdings (sh : Shared ι) (t : TaskId) : Effect where
  stored := if (sh.ledger.record t).isSome then 1 else 0
  queued := sh.ledger.backend.queued.count t
  slots := -sh.free
  ids := if t ∈ sh.ledger.outstanding then 1 else 0
  submitted := sh.instrumentation.submittedTotal
  inflight := sh.instrumentation.inflightTasks

/-- The code of `submit`, up to its return. -/
def inSubmit : Pc → Bool
  | .starting _ | .startChecking _ | .spawning _ _ | .launching _ _ _ | .submitting _
  | .checkingDuplicate _ | .acquiringSlot _ | .addingId _ | .storing _
  | .reporting (.submitted _) | .tracing (.submitted _) _ | .releasing _ (.rollback _)
  | .givingBack _ (.rollback _) | .notifying (.submitted _) => true
  | _ => false

/-- No sink raises on `task.submitted`, and the id is still outstanding when the except branch
takes it out. -/
def spared (sh : Shared ι) : Pc → Choice → Bool
  | .tracing (.submitted _) _, .raises _ => false
  | .releasing t (.rollback _), _ => decide (t ∈ sh.ledger.outstanding)
  | _, _ => true

def Elsewhere (i : ι) : Event ι → Prop
  | .call j _ => j ≠ i
  | .step a _ => a ≠ .client i
  | _ => True

/-- A submit call of client `i`, from any reachable state on and among the steps of all other
threads: its effect so far, whether all its steps were spared, and the state. -/
inductive CallRun [DecidableEq ι] (i : ι) (job : Job) : Effect → Bool → State ι → Prop where
  | enter {s} : (system ι).Reachable s → (s.pc (.client i)).resting = true →
      CallRun i job {} true (s.goto (.client i) ((Call.submit job).enter s.shared))
  | own {f ok s c s'} : CallRun i job f ok s → inSubmit (s.pc (.client i)) = true →
      Step s (.step (.client i) c) s' →
      CallRun i job (f.plus (holdings s.shared job.task) (holdings s'.shared job.task))
        (ok && spared s.shared (s.pc (.client i)) c) s'
  | other {f ok s e s'} : CallRun i job f ok s → Elsewhere i e → Step s e s' →
      CallRun i job f ok s'

/-- The effect that a call has had when it reaches a program counter. -/
def Expected (job : Job) (f : Effect) (ok : Bool) : Pc → Prop
  | .starting j | .startChecking j | .spawning j _ | .launching j _ _ | .submitting j
  | .checkingDuplicate j | .acquiringSlot j => j = job ∧ f = {} ∧ ok = true
  | .addingId j => j = job ∧ f = { slots := 1 } ∧ ok = true
  | .storing j => j = job ∧ (∃ n ≤ 1, f = { slots := 1, ids := n }) ∧ ok = true
  | .releasing t (.rollback _) => t = job.task ∧ (∃ n ≤ 1, f = { slots := 1, ids := n }) ∧ ok = true
  | .givingBack _ (.rollback _) => (∃ n ≤ 0, f = { slots := 1, ids := n }) ∧ ok = true
  | .reporting (.submitted j) => j = job ∧ f.submitted = 0
  | .tracing (.submitted _) _ => f.submitted = 1
  | .raised _ => f.Nothing ↔ ok = true
  | _ => True

section

variable [DecidableEq ι] {i : ι} {job : Job} {f : Effect} {ok : Bool} {sh : Shared ι} {p : Pc}
  {c : Choice} {x : Shared ι × Pc} {s : State ι}

omit [DecidableEq ι] in
theorem expected_raised (e : Raised) : Expected job {} true (.raised e) := by
  simp [Expected, Effect.Nothing]

omit [DecidableEq ι] in
/-- A step that changes neither the backend nor the metrics. -/
theorem plus_holdings {sh' : Shared ι} (f : Effect) (t : TaskId)
    (hb : sh'.ledger.backend = sh.ledger.backend)
    (hi : sh'.instrumentation = sh.instrumentation) :
    f.plus (holdings sh t) (holdings sh' t) = { f with
      slots := f.slots + (sh.free - sh'.free)
      ids := f.ids + ((if t ∈ sh'.ledger.outstanding then 1 else 0) -
        if t ∈ sh.ledger.outstanding then 1 else 0) } := by
  have hr : sh'.ledger.record t = sh.ledger.record t := by rw [Ledger.record, hb, Ledger.record]
  simp only [Effect.plus, holdings, hb, hi, hr, Effect.mk.injEq]
  refine ⟨?_, ?_, ?_, trivial, ?_, ?_⟩ <;> omega

theorem turn_expected (h : act sh (.client i) p c = some x) (hp : inSubmit p = true)
    (room : ∀ t k, p = .givingBack t k → sh.free < sh.config.maxOutstandingTasks)
    (he : Expected job f ok p) :
    Expected job (f.plus (holdings sh job.task) (holdings x.1 job.task)) (ok && spared sh p c)
      x.2 := by
  cases p <;> cases c <;> simp only [act, advance, throwing, expire, reduceCtorEq] at h
  case starting.go j =>
    obtain ⟨rfl, rfl, rfl⟩ := he
    cases h
    rw [Effect.plus_self]
    dsimp only
    split
    · exact expected_raised _
    · exact ⟨rfl, rfl, rfl⟩
  case startChecking.go j =>
    obtain ⟨rfl, rfl, rfl⟩ := he
    split at h <;> cases h
    all_goals exact ⟨rfl, Effect.plus_self .., rfl⟩
  case spawning.go j index =>
    obtain ⟨rfl, rfl, rfl⟩ := he
    cases h
    exact ⟨rfl, Effect.plus_self .., rfl⟩
  case launching.go j index k =>
    obtain ⟨rfl, rfl, rfl⟩ := he
    cases h
    dsimp only
    split <;> exact ⟨rfl, Effect.plus_self .., rfl⟩
  case launching.raises j index k e =>
    obtain ⟨rfl, rfl, rfl⟩ := he
    cases h
    rw [Effect.plus_self]
    exact expected_raised _
  case submitting.go j =>
    obtain ⟨rfl, rfl, rfl⟩ := he
    cases h
    rw [Effect.plus_self]
    dsimp only
    split
    · exact ⟨rfl, rfl, rfl⟩
    · exact expected_raised _
  case checkingDuplicate.go j =>
    obtain ⟨rfl, rfl, rfl⟩ := he
    cases h
    rw [Effect.plus_self]
    dsimp only
    split
    · exact expected_raised _
    · exact ⟨rfl, rfl, rfl⟩
  case acquiringSlot.go j =>
    obtain ⟨rfl, rfl, rfl⟩ := he
    split at h <;> cases h
    · rw [Effect.plus_self]
      exact expected_raised _
    · rename_i hf
      refine ⟨rfl, ?_, rfl⟩
      rw [plus_holdings]
      · simp only [Effect.mk.injEq, Int.ofNat_sub (Nat.pos_of_ne_zero hf)]
        refine ⟨trivial, trivial, ?_, ?_, trivial, trivial⟩ <;> omega
      · rfl
      · rfl
  case addingId.go j =>
    obtain ⟨rfl, rfl, rfl⟩ := he
    cases h
    by_cases ho : j.task ∈ sh.ledger.outstanding
    · refine ⟨rfl, ⟨0, by decide, ?_⟩, rfl⟩
      rw [plus_holdings]
      · simp [ho]
      · rfl
      · rfl
    · refine ⟨rfl, ⟨1, le_rfl, ?_⟩, rfl⟩
      rw [plus_holdings]
      · simp [ho]
      · rfl
      · rfl
  case storing.go j =>
    obtain ⟨rfl, ⟨n, hn, rfl⟩, rfl⟩ := he
    cases h
    unfold Ledger.store
    split
    · rename_i e b hb
      have hsame := Backend.submit_raises (e := e) (congrArg Prod.fst hb)
      rw [hb] at hsame
      refine ⟨rfl, ⟨n, hn, ?_⟩, rfl⟩
      rw [show b = sh.ledger.backend from hsame]
      exact Effect.plus_self ..
    · exact ⟨rfl, by simp [Effect.plus, holdings]⟩
  case storing.raises j e =>
    obtain ⟨rfl, hn, rfl⟩ := he
    cases h
    rw [Effect.plus_self]
    exact ⟨rfl, hn, rfl⟩
  case reporting.go k =>
    cases k with
    | submitted j =>
      obtain ⟨rfl, hz⟩ := he
      cases h
      simp only [Expected, Effect.plus, holdings, report,
        Observability.RuntimeInstrumentation.recordSubmitted, hz]
      omega
    | _ => cases hp
  case tracing.go k event =>
    cases k with
    | submitted j =>
      cases h
      trivial
    | _ => cases hp
  case tracing.raises k event e =>
    cases k with
    | submitted j =>
      have hone : f.submitted = 1 := he
      cases h
      rw [Effect.plus_self]
      simp [Report.escape, Expected, Effect.Nothing, spared, hone]
    | _ => cases hp
  case releasing.go t k =>
    cases k with
    | rollback e =>
      obtain ⟨rfl, ⟨n, hn, rfl⟩, rfl⟩ := he
      split at h
      · rename_i ho
        cases h
        refine ⟨⟨n - 1, by omega, ?_⟩, by simp [spared, ho]⟩
        rw [plus_holdings]
        · simp only [ho, Finset.notMem_erase, ↓reduceIte, Effect.mk.injEq]
          refine ⟨trivial, trivial, ?_, ?_, trivial, trivial⟩ <;> omega
        · rfl
        · rfl
      · rename_i ho
        cases h
        rw [Effect.plus_self]
        simp [afterRelease, Expected, Effect.Nothing, spared, ho]
    | _ => cases hp
  case givingBack.go t k =>
    cases k with
    | rollback e =>
      obtain ⟨⟨n, hn, rfl⟩, rfl⟩ := he
      rw [if_pos (room t _ rfl)] at h
      cases h
      rw [plus_holdings]
      · simp only [afterRelease, Expected, Effect.Nothing, spared]
        refine iff_of_true ⟨trivial, trivial, ?_, ?_, trivial, trivial⟩ rfl <;> omega
      · rfl
      · rfl
    | _ => cases hp
  case notifying.go n =>
    cases n with
    | submitted j =>
      cases h
      dsimp only [afterNotify]
      unfold Job.followUp
      split <;> trivial
    | _ => cases hp
  all_goals cases hp

theorem CallRun.reachable (run : CallRun i job f ok s) : (system ι).Reachable s := by
  induction run with
  | enter h hr => exact h.next (e := .call i (.submit job)) (by simp [system, Step, next, hr])
  | own _ _ hs ih => exact ih.next hs
  | other _ _ hs ih => exact ih.next hs

theorem elsewhere_pc {e : Event ι} {s' : State ι} (he : Elsewhere i e) (hs : Step s e s') :
    s'.pc (.client i) = s.pc (.client i) := by
  rcases step_cases hs with ⟨j, k, rfl, _, rfl⟩ | ⟨a, c, x, rfl, _, _, rfl⟩ |
    ⟨_, _, rfl, _, _, rfl⟩ | ⟨_, rfl, _, rfl⟩ | ⟨_, rfl, rfl⟩
  · exact goto_pc_of_ne s (fun h => he (Thread.client.inj h).symm) _
  · exact goto_pc_of_ne s (Ne.symm he) _
  · rfl
  · rfl
  · rfl

theorem CallRun.expected (run : CallRun i job f ok s) :
    Expected job f ok (s.pc (.client i)) := by
  induction run with
  | enter h hr =>
    rw [goto_pc]
    exact ⟨rfl, rfl, rfl⟩
  | own run hp hs ih =>
    rcases step_cases hs with ⟨_, _, he, _⟩ | ⟨a, c', x, he, _, hx, rfl⟩ | ⟨_, _, he, _⟩ |
      ⟨_, he, _⟩ | ⟨_, he, _⟩ <;> cases he
    rw [goto_pc, goto_shared]
    exact turn_expected hx hp (fun t k hk =>
      (reachable_within run.reachable).room (a := .client i) (by rw [hk]; rfl)) ih
  | other run he hs ih =>
    rw [elsewhere_pc he hs]
    exact ih

/-- A submit call that raises leaves nothing behind exactly if no sink raised on
`task.submitted` and its rollback found the id still outstanding. -/
theorem submit_all_or_nothing (run : CallRun i job f ok s) {e : Raised}
    (hp : s.pc (.client i) = .raised e) : f.Nothing ↔ ok = true := by
  have he := run.expected
  rw [hp] at he
  exact he

/-! ## Calls without interference -/

/-- The steps of a call, one after another. -/
def callSteps (i : ι) (t : TaskId) : List Choice → Effect × Bool × State ι →
    Option (Effect × Bool × State ι)
  | [], r => some r
  | c :: cs, (f, ok, s) =>
    if inSubmit (s.pc (.client i)) = true then
      (next s (.step (.client i) c)).bind fun s' => callSteps i t cs
        (f.plus (holdings s.shared t) (holdings s'.shared t),
          ok && spared s.shared (s.pc (.client i)) c, s')
    else none

theorem CallRun.steps {cs : List Choice} {f' : Effect} {ok' : Bool} {s' : State ι}
    (run : CallRun i job f ok s)
    (h : callSteps i job.task cs (f, ok, s) = some (f', ok', s')) : CallRun i job f' ok' s' := by
  induction cs generalizing f ok s with
  | nil =>
    cases h
    exact run
  | cons c cs ih =>
    unfold callSteps at h
    split at h
    · rename_i hp
      obtain ⟨u, hu, hrest⟩ := Option.bind_eq_some_iff.mp h
      exact ih (.own run hp hu) hrest
    · cases h

/-- The first call to a new scheduler. -/
def firstCall (config : Config.SchedulerConfig) (cs : List Choice) :
    Option (Effect × Bool × State Unit) :=
  callSteps () "t" cs ({}, true, (begin config {}).goto (.client ())
    ((Call.submit (sampleJob "t")).enter (created config {})))

theorem first_call_run {config : Config.SchedulerConfig} {cs : List Choice} {s : State Unit}
    (h : firstCall config cs = some (f, ok, s)) : CallRun () (sampleJob "t") f ok s := by
  refine CallRun.steps (.enter (s := begin config {}) ?_ rfl) h
  exact System.reachable_init (S := system Unit) ⟨config, {}, empty_usable 50, rfl⟩

theorem first_call_spec {c : Config.SchedulerConfig} {l : List Choice}
    {P : Effect × Bool × State Unit → Prop} [DecidablePred P]
    (h : (firstCall c l).any (fun r => decide (P r)) = true) :
    ∃ f ok s, CallRun () (sampleJob "t") f ok s ∧ P (f, ok, s) := by
  obtain ⟨⟨f, ok, s⟩, hs, hp⟩ := (Option.any_eq_true _ _).mp h
  exact ⟨f, ok, s, first_call_run hs, of_decide_eq_true hp⟩

/-- The backend refuses the record. -/
theorem refused_record_rolled_back : ∃ f s, CallRun () (sampleJob "t") f true s ∧
    s.pc (.client ()) = .raised (.other "backend") ∧ f.Nothing := by
  obtain ⟨f, ok, s, run, hp, hok⟩ := first_call_spec (c := { numThreads := 1 })
    (l := List.replicate 8 .go ++ [.raises (.other "backend"), .go, .go])
    (P := fun r => r.2.2.pc (.client ()) = .raised (.other "backend") ∧ r.2.1 = true)
    (by decide +kernel)
  exact ⟨f, s, hok ▸ run, hp, (submit_all_or_nothing run hp).mpr hok⟩

/-- A sink raises. -/
theorem sink_leaves_task_behind : ∃ f ok s, CallRun () (sampleJob "t") f ok s ∧
    s.pc (.client ()) = .raised (.other "sink") ∧ ¬f.Nothing ∧ f.stored = 1 ∧ f.queued = 1 ∧
    f.slots = 1 ∧ f.ids = 1 ∧ f.submitted = 1 ∧ f.inflight = 1 :=
  first_call_spec (c := { numThreads := 1 })
    (l := List.replicate 10 .go ++ [.raises (.other "sink")])
    (P := fun r => r.2.2.pc (.client ()) = .raised (.other "sink") ∧ ¬r.1.Nothing ∧
      r.1.stored = 1 ∧ r.1.queued = 1 ∧ r.1.slots = 1 ∧ r.1.ids = 1 ∧ r.1.submitted = 1 ∧
      r.1.inflight = 1) (by decide +kernel)

end

end SubmitCalls
