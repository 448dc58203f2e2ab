import Infly.Wakeups

/-! # Coroutines that wait for a result

`submit_and_wait_async` registers its waiter when its task is stored already, and looks at the
record once. If it then awaits the waiter, only `_resolve_async_waiter` wakes it.
-/
namespace AsyncWaiters

open Contracts TaskBackend SchedulerState SchedulerModel SchedulerLocks SchedulerLedger
  SchedulerAccounts SchedulerRequests TaskLife Wakeups Transitions

/-- The task and the waiter of a coroutine that has registered it. -/
def awaited : Pc → Option (TaskId × WaiterId)
  | .checkingWaiter q w | .suspended q w _ => some (q.task, w)
  | _ => none

/-- The task for which a thread has yet to run `_resolve_async_waiter`. -/
def resolves : Pc → Option TaskId
  | .reporting (.ended t _ _) | .tracing (.ended t _ _) _ => some t
  | .fetching t _ | .updating t _ _ => some t
  | .releasing t (.finish _) | .releasing t (.sweep _ _) => some t
  | .givingBack t (.finish _) | .givingBack t (.sweep _ _) => some t
  | .notifying (.finished t _) => some t
  | .resolving t _ => some t
  | _ => none

/-- The task and the waiter that `_resolve_async_waiter` has taken out. -/
def taken : Pc → Option (TaskId × WaiterId)
  | .scheduling w t _ => some (t, w)
  | _ => none

variable {ι : Type} {a b : Thread ι} {p : Pc} {t : TaskId} {w : WaiterId}

theorem onward_awaited (h : onward p = true) : awaited p = none := by
  cases p <;> first
    | rfl
    | cases h

theorem ends_resolves (h : ends p = some t) : resolves p = some t := by
  cases p
  case reporting k => cases k <;> exact h
  case releasing u k => cases k <;> exact h
  all_goals cases h

theorem resting_unconcerned (h : p.resting = true) :
    awaited p = none ∧ taken p = none ∧ resolves p = none := by
  cases p <;> first
    | exact ⟨rfl, rfl, rfl⟩
    | cases h

section

variable [DecidableEq ι] {s s' : State ι} {sh : Shared ι} {x : Shared ι × Pc} {c : Choice}
  {e : Event ι}

/-! ## What a step does to waiters -/

/-- What a step from `p` does to the registered waiters and their futures. -/
inductive Turned (sh : Shared ι) (x : Shared ι × Pc) : Pc → Prop where
  | still {p : Pc} (waiters : x.1.asyncWaiters = sh.asyncWaiters)
      (futures : x.1.waiterFuture = sh.waiterFuture) (count : x.1.nextWaiter = sh.nextWaiter)
      (same : awaited x.2 = awaited p ∨ awaited x.2 = none) (free : taken p = none) : Turned sh x p
  | registers {q : Query} (waiters : x.1.asyncWaiters = sh.asyncWaiters.set q.task sh.nextWaiter)
      (futures : x.1.waiterFuture = Function.update sh.waiterFuture sh.nextWaiter .pending)
      (count : x.1.nextWaiter = sh.nextWaiter + 1) (pc : x.2 = .checkingWaiter q sh.nextWaiter) :
      Turned sh x (.registering q)
  | takes {t : TaskId} {k : Cont} {w : WaiterId} (registered : sh.asyncWaiters.get? t = some w)
      (waiters : x.1.asyncWaiters = sh.asyncWaiters.pop t)
      (futures : x.1.waiterFuture = sh.waiterFuture) (count : x.1.nextWaiter = sh.nextWaiter)
      (pc : x.2 = .scheduling w t k) : Turned sh x (.resolving t k)
  | schedules {t : TaskId} {k : Cont} {w : WaiterId} (waiters : x.1.asyncWaiters = sh.asyncWaiters)
      (futures : x.1.waiterFuture = if sh.waiterFuture w = .pending then
        Function.update sh.waiterFuture w .scheduled else sh.waiterFuture)
      (count : x.1.nextWaiter = sh.nextWaiter) (past : awaited x.2 = none) :
      Turned sh x (.scheduling w t k)
  | expires {q : Query} {w : WaiterId} {d : Option ℕ} (waiters : x.1.asyncWaiters = sh.asyncWaiters)
      (futures : x.1.waiterFuture = Function.update sh.waiterFuture w .cancelled)
      (count : x.1.nextWaiter = sh.nextWaiter) (past : awaited x.2 = none) :
      Turned sh x (.suspended q w d)
  | cleans {q : Query} {error : Option PlatformError}
      (waiters : x.1.asyncWaiters = sh.asyncWaiters.pop q.task)
      (futures : x.1.waiterFuture = sh.waiterFuture) (count : x.1.nextWaiter = sh.nextWaiter)
      (past : awaited x.2 = none) : Turned sh x (.cleaning q error)

theorem turn_waiters (h : act sh a p c = some x) : Turned sh x p := by
  have away (hs : x.1.asyncWaiters = sh.asyncWaiters ∧ x.1.waiterFuture = sh.waiterFuture ∧
      x.1.nextWaiter = sh.nextWaiter) (hp : onward x.2 = true) (free : taken p = none) :
      Turned sh x p := .still hs.1 hs.2.1 hs.2.2 (.inr (onward_awaited hp)) free
  cases p <;> cases c <;> simp only [act, advance, throwing, expire, reduceCtorEq] at h
  case registering.go q =>
    cases h
    exact .registers rfl rfl rfl rfl
  case checkingWaiter.go q w =>
    cases h
    refine .still rfl rfl rfl ?_ rfl
    dsimp only
    split
    · exact .inr rfl
    · exact .inl rfl
  case resolving.go t k =>
    split at h <;> cases h
    · exact away ⟨rfl, rfl, rfl⟩ (afterResolve_onward ..) rfl
    · rename_i w hw
      exact .takes hw rfl rfl rfl rfl
  case scheduling.go w t k =>
    split at h <;> cases h
    all_goals
      rename_i hw
      refine .schedules rfl ?_ rfl (onward_awaited (afterResolve_onward ..))
    · exact (if_pos hw).symm
    · exact (if_neg hw).symm
  case suspended.timeout q w d =>
    repeat' split at h
    all_goals cases h
    exact .expires rfl rfl rfl rfl
  case cleaning.go q error =>
    cases h
    refine .cleans rfl rfl rfl ?_
    dsimp only
    split <;> rfl
  case tracing.go k event =>
    cases h
    exact .still rfl rfl rfl (.inr (by cases k <;> rfl)) rfl
  case waitChecking.go q d =>
    cases h
    exact .still rfl rfl rfl (.inr (look_of q _ _ _
      (fun _ hp => onward_awaited (resumed_onward hp)) rfl fun _ => rfl)) rfl
  all_goals repeat' split at h
  all_goals cases h
  all_goals first
    | exact .still rfl rfl rfl (.inr rfl) rfl
    | (refine away ⟨rfl, rfl, rfl⟩ ?_ rfl; simp [resumed_onward])

/-- A thread that has a waiter to resolve goes on, or takes the waiter out. -/
theorem turn_resolves (h : act sh a p c = some x)
    (room : ∀ u k, p = .givingBack u k → sh.free < sh.config.maxOutstandingTasks)
    (ht : resolves p = some t) : resolves x.2 = some t ∨ ∃ k, p = .resolving t k := by
  cases p
  case reporting k =>
    cases c <;> simp only [act, advance, throwing, expire, reduceCtorEq] at h
    cases h
    left
    cases k <;> exact ht
  case tracing k event =>
    cases k with
    | ended u m request =>
      cases c <;> simp only [act, advance, throwing, expire, reduceCtorEq] at h
      · cases h
        exact .inl ht
      · cases h
        cases m <;> exact .inl ht
    | _ => cases ht
  case fetching u m =>
    cases c <;> simp only [act, advance, throwing, expire, reduceCtorEq] at h
    left
    split at h
    · cases h
      exact ht
    · cases h
      dsimp only
      split <;> exact ht
    · cases h
      exact ht
  case updating u m request =>
    cases c <;> simp only [act, advance, throwing, expire, reduceCtorEq] at h
    cases h
    left
    dsimp only
    split
    · cases m <;> exact ht
    · exact ht
    · exact ht
  case releasing u k =>
    cases c <;> simp only [act, advance, throwing, expire, reduceCtorEq] at h
    split at h <;> cases h
    · left
      cases k <;> exact ht
    · left
      cases k <;> first | exact ht | cases ht
  case givingBack u k =>
    cases c <;> simp only [act, advance, throwing, expire, reduceCtorEq] at h
    rw [if_pos (room u k rfl)] at h
    cases h
    left
    cases k <;> first | exact ht | cases ht
  case notifying n =>
    cases c <;> simp only [act, advance, throwing, expire, reduceCtorEq] at h
    cases h
    left
    cases n <;> first | exact ht | cases ht
  case resolving u k =>
    cases ht
    exact .inr ⟨k, rfl⟩
  all_goals cases ht

/-! ## Waiters that are registered -/

/-- The waiter has been taken out, or its result is set or about to be. -/
def Resolved (s : State ι) (t : TaskId) (w : WaiterId) : Prop :=
  (∃ b, taken (s.pc b) = some (t, w)) ∨ s.shared.waiterFuture w = .scheduled ∨
    s.shared.waiterFuture w = .done

/-- The task of the waiter is not past, or the waiter is resolved, or will be. -/
def Attended (s : State ι) (t : TaskId) (w : WaiterId) : Prop :=
  live s.shared.ledger t = true ∨ (∃ b, resolves (s.pc b) = some t) ∨ Resolved s t w

/-- The task whose waiter a coroutine is about to register or to remove. -/
def replaces : Pc → Option TaskId
  | .registering q | .cleaning q _ => some q.task
  | _ => none

/-- A coroutine looks at the record of its task while the record is stored, or before its waiter
has been resolved in vain; and no other coroutine takes the place of its waiter. -/
def Timely (s : State ι) : Event ι → Prop
  | .step a .go =>
    (∀ q w, s.pc a = .checkingWaiter q w → s.shared.ledger.record q.task ≠ none ∨
      (∃ b, resolves (s.pc b) = some q.task) ∨ Resolved s q.task w) ∧
    ∀ t, replaces (s.pc a) = some t → ∀ b w, b ≠ a → awaited (s.pc b) = some (t, w) →
      s.shared.asyncWaiters.get? t ≠ some w
  | _ => True

/-- An awaited waiter is registered until it is taken out to be resolved. -/
structure Kept (s : State ι) (t : TaskId) (w : WaiterId) : Prop where
  issued : w < s.shared.nextWaiter
  uncancelled : s.shared.waiterFuture w ≠ .cancelled
  intact : Resolved s t w ∨ s.shared.asyncWaiters.get? t = some w

theorem Kept.resolved (h : Kept s t w) (turned : Turned s.shared x (s.pc a))
    (spared : ∀ q d, s.pc a = .suspended q w d → awaited x.2 ≠ none) (hr : Resolved s t w) :
    Resolved (s.goto a x) t w := by
  have others : taken (s.pc a) = none → x.1.waiterFuture w = s.shared.waiterFuture w →
      Resolved (s.goto a x) t w := by
    intro free same
    rcases hr with ⟨b, hb⟩ | hf
    · left
      refine ⟨b, ?_⟩
      rwa [goto_pc_of_ne s]
      rintro rfl
      rw [free] at hb
      cases hb
    · right
      rw [goto_shared, same]
      exact hf
  generalize hp : s.pc a = p at turned spared others
  cases turned with
  | still _ futures _ _ free => exact others free (by rw [futures])
  | registers _ futures _ _ =>
    apply others rfl
    rw [futures, Function.update_of_ne (Nat.ne_of_lt h.issued)]
  | takes _ _ futures _ _ => exact others rfl (by rw [futures])
  | @schedules u k v _ futures _ _ =>
    by_cases hv : w = v
    · subst hv
      right
      rw [goto_shared, futures]
      split
      · left
        exact Function.update_self ..
      · rename_i hn
        cases hf : s.shared.waiterFuture w with
        | pending => exact absurd hf hn
        | scheduled => exact .inl rfl
        | done => exact .inr rfl
        | cancelled => exact absurd hf h.uncancelled
    · have same : x.1.waiterFuture w = s.shared.waiterFuture w := by
        rw [futures]
        split
        · exact Function.update_of_ne hv ..
        · rfl
      rcases hr with ⟨b, hb⟩ | hf
      · left
        refine ⟨b, ?_⟩
        rwa [goto_pc_of_ne s]
        rintro rfl
        rw [hp] at hb
        cases hb
        exact hv rfl
      · right
        rw [goto_shared, same]
        exact hf
  | @expires q v d _ futures _ past =>
    apply others rfl
    rw [futures, Function.update_of_ne]
    rintro rfl
    exact spared q d rfl past
  | cleans _ futures _ _ => exact others rfl (by rw [futures])

theorem Kept.turn (h : Kept s t w) (turned : Turned s.shared x (s.pc a))
    (spared : ∀ q d, s.pc a = .suspended q w d → awaited x.2 ≠ none)
    (unreplaced : replaces (s.pc a) = some t → s.shared.asyncWaiters.get? t ≠ some w) :
    Kept (s.goto a x) t w := by
  have resolved := h.resolved turned spared
  obtain ⟨issued, uncancelled, intact⟩ := h
  have registered (hx : x.1.asyncWaiters.get? t = s.shared.asyncWaiters.get? t ∨
      s.shared.asyncWaiters.get? t ≠ some w) :
      Resolved (s.goto a x) t w ∨ (s.goto a x).shared.asyncWaiters.get? t = some w := by
    rcases intact with hr | hg
    · exact .inl (resolved hr)
    · rcases hx with hx | hx
      · exact .inr (hx.trans hg)
      · exact absurd hg hx
  generalize hp : s.pc a = p at turned spared unreplaced
  cases turned with
  | still waiters futures count _ _ =>
    refine ⟨?_, ?_, registered (.inl (by rw [waiters]))⟩
    · rw [goto_shared, count]
      exact issued
    · rw [goto_shared, futures]
      exact uncancelled
  | @registers q waiters futures count _ =>
    refine ⟨?_, ?_, registered ?_⟩
    · rw [goto_shared, count]
      exact Nat.lt_succ_of_lt issued
    · rw [goto_shared, futures, Function.update_of_ne (Nat.ne_of_lt issued)]
      exact uncancelled
    · by_cases hq : q.task = t
      · exact .inr (unreplaced (congrArg some hq))
      · left
        rw [waiters, Dict.get?_set, if_neg (Ne.symm hq)]
  | @takes u k v taken waiters futures count pc =>
    refine ⟨?_, ?_, ?_⟩
    · rw [goto_shared, count]
      exact issued
    · rw [goto_shared, futures]
      exact uncancelled
    · by_cases hu : u = t
      · subst hu
        rcases intact with hr | hg
        · exact .inl (resolved hr)
        · cases taken.symm.trans hg
          left
          left
          exact ⟨a, by rw [goto_pc, pc]; rfl⟩
      · apply registered
        left
        rw [waiters, Dict.get?_pop, if_neg (Ne.symm hu)]
  | @schedules u k v waiters futures count _ =>
    refine ⟨?_, ?_, registered (.inl (by rw [waiters]))⟩
    · rw [goto_shared, count]
      exact issued
    · rw [goto_shared, futures]
      split
      · by_cases hv : w = v
        · subst hv
          rw [Function.update_self]
          intro hc
          cases hc
        · rw [Function.update_of_ne hv]
          exact uncancelled
      · exact uncancelled
  | @expires q v d waiters futures count past =>
    refine ⟨?_, ?_, registered (.inl (by rw [waiters]))⟩
    · rw [goto_shared, count]
      exact issued
    · rw [goto_shared, futures, Function.update_of_ne]
      · exact uncancelled
      · rintro rfl
        exact spared q d rfl past
  | @cleans q error waiters futures count _ =>
    refine ⟨?_, ?_, registered ?_⟩
    · rw [goto_shared, count]
      exact issued
    · rw [goto_shared, futures]
      exact uncancelled
    · by_cases hq : q.task = t
      · exact .inr (unreplaced (congrArg some hq))
      · left
        rw [waiters, Dict.get?_pop, if_neg (Ne.symm hq)]

/-! ## Coroutines -/

structure Waited (s : State ι) : Prop where
  own : ∀ a b t u w, awaited (s.pc a) = some (t, w) → awaited (s.pc b) = some (u, w) → a = b
  kept : ∀ a t w, awaited (s.pc a) = some (t, w) → Kept s t w
  attended : ∀ a q w d, s.pc a = .suspended q w d → Attended s q.task w

omit [DecidableEq ι] in
theorem awaited_unreplacing (h : awaited p = some (t, w)) : replaces p = none := by
  cases p <;> first
    | rfl
    | cases h

theorem turn_replaces (h : act sh a p c = some x) (hr : replaces p = some t) : c = .go := by
  cases p
  case registering q | cleaning q error => cases c <;> first | rfl | cases h
  all_goals cases hr

omit [DecidableEq ι] in
/-- A coroutine awaits the waiter that it has registered. -/
theorem Turned.awaits (turned : Turned sh x p) (h : awaited x.2 = some (t, w)) :
    awaited p = some (t, w) ∨ w = sh.nextWaiter ∧ x.1.waiterFuture w = .pending ∧
      x.1.asyncWaiters.get? t = some w ∧ w < x.1.nextWaiter := by
  cases turned with
  | still _ _ _ same _ =>
    rcases same with same | none
    · exact .inl (same.symm.trans h)
    · cases none.symm.trans h
  | registers waiters futures count pc =>
    rw [pc] at h
    cases h
    refine .inr ⟨rfl, ?_, ?_, ?_⟩
    · rw [futures, Function.update_self]
    · rw [waiters, Dict.get?_set, if_pos rfl]
    · rw [count]
      exact Nat.lt_succ_self _
  | takes _ _ _ _ pc =>
    rw [pc] at h
    cases h
  | schedules _ _ _ past | expires _ _ _ past | cleans _ _ _ past => cases past.symm.trans h

/-- A coroutine is suspended after it has looked at the record. -/
theorem turn_suspends {q : Query} {d : Option ℕ} (h : act sh a p c = some x)
    (hx : x.2 = .suspended q w d) : c = .go ∧ p = .checkingWaiter q w ∧ x.1 = sh ∧
      (sh.ledger.record q.task = none ∨ live sh.ledger q.task = true) := by
  have away (hp : onward x.2 = true) : c = .go ∧ p = .checkingWaiter q w ∧ x.1 = sh ∧
      (sh.ledger.record q.task = none ∨ live sh.ledger q.task = true) := by
    rw [hx] at hp
    cases hp
  cases p <;> cases c <;> simp only [act, advance, throwing, expire, reduceCtorEq] at h
  case checkingWaiter.go q' w' =>
    cases h
    dsimp only at hx
    split at hx
    · cases hx
    · rename_i hn
      cases hx
      refine ⟨rfl, rfl, rfl, ?_⟩
      cases hr : sh.ledger.record q.task with
      | none => exact .inl rfl
      | some r =>
        right
        rw [hr, Option.any_some, Bool.not_eq_true] at hn
        exact live_iff.mpr ⟨r, hr, hn⟩
  case waitChecking.go q' d' =>
    cases h
    rcases look_cases q' sh.clock d' (sh.ledger.record q'.task) with hl | ⟨hl, _⟩ | ⟨⟨v, hl⟩, _⟩
    · exact away (resumed_onward hl)
    · dsimp only at hx
      rw [hl] at hx
      cases hx
    · dsimp only at hx
      rw [hl] at hx
      cases hx
  case tracing.go k event =>
    cases h
    cases k <;> cases hx
  all_goals repeat' split at h
  all_goals cases h
  all_goals first
    | cases hx
    | (refine away ?_; simp [resumed_onward])

omit [DecidableEq ι] in
/-- What is said of a waiter does not depend on calls, completions and the clock. -/
theorem Waited.still (h : Waited s) (hp : ∀ a, awaited (s'.pc a) = awaited (s.pc a) ∧
      taken (s'.pc a) = taken (s.pc a) ∧ resolves (s'.pc a) = resolves (s.pc a))
    (hs : ∀ a q w d, s'.pc a = .suspended q w d → s.pc a = .suspended q w d)
    (hb : s'.shared.ledger.backend = s.shared.ledger.backend)
    (hw : s'.shared.asyncWaiters = s.shared.asyncWaiters)
    (hn : s'.shared.nextWaiter = s.shared.nextWaiter)
    (hc : ∀ w, s.shared.waiterFuture w ≠ .cancelled → s'.shared.waiterFuture w ≠ .cancelled)
    (hf : ∀ w, s.shared.waiterFuture w = .scheduled ∨ s.shared.waiterFuture w = .done →
      s'.shared.waiterFuture w = .scheduled ∨ s'.shared.waiterFuture w = .done) : Waited s' := by
  have resolved : ∀ {t w}, Resolved s t w → Resolved s' t w := by
    rintro t w (⟨b, hb⟩ | hr)
    · exact .inl ⟨b, (hp b).2.1.trans hb⟩
    · exact .inr (hf w hr)
  constructor
  · intro a b t u w ha hb
    exact h.own a b t u w ((hp a).1.symm.trans ha) ((hp b).1.symm.trans hb)
  · intro a t w ha
    obtain ⟨issued, uncancelled, intact⟩ := h.kept a t w ((hp a).1.symm.trans ha)
    exact ⟨hn ▸ issued, hc w uncancelled, intact.imp resolved (hw ▸ ·)⟩
  · intro a q w d ha
    rcases h.attended a q w d (hs a q w d ha) with hl | ⟨b, ho⟩ | hr
    · left
      rw [← hl]
      simp only [live, Ledger.record, hb]
    · exact .inr (.inl ⟨b, (hp b).2.2.trans ho⟩)
    · exact .inr (.inr (resolved hr))

/-- A waiter is awaited already, or it was registered in this step. -/
theorem Turned.awaited_goto (turned : Turned s.shared x (s.pc a))
    (hb : awaited ((s.goto a x).pc b) = some (t, w)) :
    awaited (s.pc b) = some (t, w) ∨ b = a ∧ w = s.shared.nextWaiter ∧ Kept (s.goto a x) t w := by
  by_cases hba : b = a
  · subst hba
    rw [goto_pc] at hb
    rcases turned.awaits hb with hold | ⟨hw, hpending, hget, hlt⟩
    · exact .inl hold
    · refine .inr ⟨rfl, hw, hlt, ?_, .inr hget⟩
      rw [goto_shared, hpending]
      intro hc
      cases hc
  · rw [goto_pc_of_ne s hba] at hb
    exact .inl hb

omit [DecidableEq ι] in
/-- A coroutine that is resumed was the only one to await its waiter. -/
theorem Waited.spared (h : Waited s) (hb : awaited (s.pc b) = some (t, w))
    (mine : b = a → awaited x.2 ≠ none) (q : Query) (d : Option ℕ)
    (hp : s.pc a = .suspended q w d) : awaited x.2 ≠ none := by
  apply mine
  apply h.own b a t q.task w hb
  rw [hp]
  rfl

theorem awaited_unreplaced (timely : Timely s (.step a c))
    (hx : act s.shared a (s.pc a) c = some x) (hb : awaited (s.pc b) = some (t, w))
    (hr : replaces (s.pc a) = some t) : s.shared.asyncWaiters.get? t ≠ some w := by
  obtain rfl := turn_replaces hx hr
  apply timely.2 t hr b w _ hb
  rintro rfl
  rw [awaited_unreplacing hb] at hr
  cases hr

theorem kept_turn (h : Waited s) (timely : Timely s (.step a c))
    (hx : act s.shared a (s.pc a) c = some x)
    (hb : awaited ((s.goto a x).pc b) = some (t, w)) : Kept (s.goto a x) t w := by
  have turned := turn_waiters hx
  rcases turned.awaited_goto hb with hold | ⟨-, -, hk⟩
  · apply (h.kept b t w hold).turn turned (h.spared hold _) (awaited_unreplaced timely hx hold)
    rintro rfl hn
    rw [goto_pc, hn] at hb
    cases hb
  · exact hk

/-- A coroutine that begins to await has seen its task live, or will be resolved. -/
theorem attended_own (h : Waited s) (timely : Timely s (.step a c))
    (hx : act s.shared a (s.pc a) c = some x) {q : Query} {d : Option ℕ}
    (ha : (s.goto a x).pc a = .suspended q w d) : Attended (s.goto a x) q.task w := by
  have turned := turn_waiters hx
  rw [goto_pc] at ha
  obtain ⟨rfl, hp, hsame, hr⟩ := turn_suspends hx ha
  have held : awaited (s.pc a) = some (q.task, w) := by
    rw [hp]
    rfl
  have look : live s.shared.ledger q.task = true ∨ (∃ b, resolves (s.pc b) = some q.task) ∨
      Resolved s q.task w := by
    rcases hr with hr | hl
    · exact .inr ((timely.1 q w hp).resolve_left (fun hn => hn hr))
    · exact .inl hl
  rcases look with hl | ⟨b, ho⟩ | hres
  · left
    rw [goto_shared, hsame]
    exact hl
  · refine .inr (.inl ⟨b, ?_⟩)
    rwa [goto_pc_of_ne s]
    rintro rfl
    rw [hp] at ho
    cases ho
  · refine .inr (.inr ((h.kept a _ w held).resolved turned (h.spared held ?_) hres))
    intro _ hn
    rw [ha] at hn
    cases hn

/-- Whoever ends the task of a coroutine that awaits goes on to resolve its waiter. -/
theorem attended_other (hw : s.shared.ledger.backend.Wellformed) (hin : Within s) (h : Waited s)
    (hx : act s.shared a (s.pc a) c = some x) (hba : b ≠ a) {q : Query} {d : Option ℕ}
    (hb : s.pc b = .suspended q w d) : Attended (s.goto a x) q.task w := by
  have held : awaited (s.pc b) = some (q.task, w) := by
    rw [hb]
    rfl
  have hk := h.kept b _ w held
  have resolved := hk.resolved (turn_waiters hx) (h.spared held fun hc => absurd hc hba)
  rcases h.attended b q w d hb with hl | ⟨b', ho⟩ | hr
  · rcases turn_ends hw hx hl with hl' | he
    · exact .inl hl'
    · exact .inr (.inl ⟨a, by rw [goto_pc]; exact ends_resolves he⟩)
  · by_cases hne : b' = a
    · subst hne
      have room : ∀ u k, s.pc b' = .givingBack u k →
          s.shared.free < s.shared.config.maxOutstandingTasks :=
        fun u k hp => hin.room (a := b') (by rw [hp]; rfl)
      rcases turn_resolves hx room ho with ho' | ⟨k, hp⟩
      · exact .inr (.inl ⟨b', by rw [goto_pc]; exact ho'⟩)
      · rcases hk.intact with hr | hg
        · exact .inr (.inr (resolved hr))
        · right
          right
          left
          refine ⟨b', ?_⟩
          rw [hp] at hx
          cases c <;> simp only [act, advance, throwing, expire, reduceCtorEq, hg] at hx
          cases hx
          rw [goto_pc]
          rfl
    · exact .inr (.inl ⟨b', by rwa [goto_pc_of_ne s hne]⟩)
  · exact .inr (.inr (resolved hr))

theorem waited_turn (hw : s.shared.ledger.backend.Wellformed) (hin : Within s) (h : Waited s)
    (timely : Timely s (.step a c)) (hx : act s.shared a (s.pc a) c = some x) :
    Waited (s.goto a x) := by
  have turned := turn_waiters hx
  refine ⟨?_, fun b t w hb => kept_turn h timely hx hb, ?_⟩
  · intro b b' t u w hb hb'
    rcases turned.awaited_goto hb with hold | ⟨rfl, hnew, -⟩
    · rcases turned.awaited_goto hb' with hold' | ⟨rfl, hnew', -⟩
      · exact h.own b b' t u w hold hold'
      · exact absurd hnew' (Nat.ne_of_lt (h.kept b t w hold).issued)
    · rcases turned.awaited_goto hb' with hold' | ⟨rfl, hnew', -⟩
      · exact absurd hnew (Nat.ne_of_lt (h.kept b' u w hold').issued)
      · rfl
  · intro b q w d hb
    by_cases hba : b = a
    · subst hba
      exact attended_own h timely hx hb
    · rw [goto_pc_of_ne s hba] at hb
      exact attended_other hw hin h hx hba hb

theorem reachable_waited (h : ((system ι).restrict Timely).Reachable s) : Waited s := by
  refine System.invariant_reachable ?_ (fun u e v hr hu hs => ?_) h
  · rintro s ⟨config, b, _, rfl⟩
    constructor
    · intro a b t u w ha
      cases a <;> cases ha
    · intro a t w ha
      cases a <;> cases ha
    · intro a q w d ha
      cases a <;> cases ha
  · have hr := System.restrict_reachable hr
    obtain ⟨timely, hs⟩ := hs
    rcases step_cases hs with ⟨i, k, rfl, hrest, rfl⟩ | ⟨a, c, x, rfl, _, hx, rfl⟩ |
      ⟨f, o, rfl, _, _, rfl⟩ | ⟨w, rfl, hw, rfl⟩ | ⟨d, rfl, rfl⟩
    · obtain ⟨ha, ht, ho⟩ := resting_unconcerned hrest
      have entered : awaited (k.enter u.shared).2 = none ∧ taken (k.enter u.shared).2 = none ∧
          resolves (k.enter u.shared).2 = none := by
        cases k with
        | stop timeout =>
          simp only [Call.enter]
          split <;> exact ⟨rfl, rfl, rfl⟩
        | _ => exact ⟨rfl, rfl, rfl⟩
      refine hu.still (fun b => ?_) (fun b q w d hb => ?_) ?_ ?_ ?_ ?_ ?_
      · by_cases hb : b = .client i
        · subst hb
          rw [goto_pc, ha, ht, ho]
          exact entered
        · rw [goto_pc_of_ne u hb]
          exact ⟨rfl, rfl, rfl⟩
      · by_cases hbi : b = .client i
        · subst hbi
          rw [goto_pc] at hb
          rw [hb] at entered
          cases entered.1
        · rwa [goto_pc_of_ne u hbi] at hb
      all_goals cases k <;> first
        | rfl
        | exact fun _ h => h
    · exact waited_turn (reachable_wellformed hr) (reachable_within hr) hu timely hx
    · exact hu.still (fun _ => ⟨rfl, rfl, rfl⟩) (fun _ _ _ _ h => h) rfl rfl rfl (fun _ h => h)
        fun _ h => h
    · refine hu.still (fun _ => ⟨rfl, rfl, rfl⟩) (fun _ _ _ _ h => h) rfl rfl rfl ?_ ?_
      · intro v hv
        by_cases hvw : v = w
        · subst hvw
          simp
        · simpa [hvw] using hv
      · intro v hv
        by_cases hvw : v = w
        · subst hvw
          simp
        · simpa [hvw] using hv
    · exact hu.still (fun _ => ⟨rfl, rfl, rfl⟩) (fun _ _ _ _ h => h) rfl rfl rfl (fun _ h => h)
        fun _ h => h

/-- In runs of timely looks a coroutine that is suspended on its waiter has a task that is not
over, or a thread has yet to resolve the waiter, or its result is set or scheduled. -/
theorem suspended_attended (h : ((system ι).restrict Timely).Reachable s) {q : Query}
    {d : Option ℕ} (hp : s.pc a = .suspended q w d) :
    (∃ r, s.shared.ledger.record q.task = some r ∧
        (r.status = .pending ∨ r.status = .running)) ∨
      (∃ b, resolves (s.pc b) = some q.task ∨ taken (s.pc b) = some (q.task, w)) ∨
      s.shared.waiterFuture w = .scheduled ∨ s.shared.waiterFuture w = .done := by
  rcases (reachable_waited h).attended a q w d hp with hl | ⟨b, hb⟩ | ⟨b, hb⟩ | hf
  · left
    obtain ⟨r, hr, hn⟩ := live_iff.mp hl
    refine ⟨r, hr, ?_⟩
    cases hs : r.status with
    | pending => exact .inl rfl
    | running => exact .inr rfl
    | completed | failed =>
      rw [hs] at hn
      cases hn
  · exact .inr (.inl ⟨b, .inl hb⟩)
  · exact .inr (.inl ⟨b, .inr hb⟩)
  · exact .inr (.inr hf)

def checks : Pc → Option TaskId
  | .checkingWaiter q _ => some q.task
  | _ => none

omit [DecidableEq ι] in
theorem checks_iff : checks p = some t ↔ ∃ q w, p = .checkingWaiter q w ∧ q.task = t := by
  cases p <;> simp [checks]

/-- Records are looked at while they are stored, and no waiter is registered next to another. -/
def Orderly (s : State ι) : Event ι → Prop
  | .step a .go => (∀ t ∈ checks (s.pc a), s.shared.ledger.record t ≠ none) ∧
      ∀ t ∈ replaces (s.pc a), s.shared.asyncWaiters.get? t = none
  | _ => True

instance (s : State ι) (e : Event ι) : Decidable (Orderly s e) :=
  match e with
  | .step a .go =>
    inferInstanceAs (Decidable ((∀ t ∈ checks (s.pc a), s.shared.ledger.record t ≠ none) ∧
      ∀ t ∈ replaces (s.pc a), s.shared.asyncWaiters.get? t = none))
  | .step _ (.raises _) | .step _ .timeout | .call _ _ | .resolve _ _ | .fire _ | .tick _ =>
    .isTrue trivial

omit [DecidableEq ι] in
theorem orderly_timely (h : Orderly s e) : Timely s e := by
  unfold Timely
  split
  · refine ⟨fun q w hp => .inl ?_, fun t hr b w _ _ hg => ?_⟩
    · exact h.1 q.task (checks_iff.mpr ⟨q, w, hp, rfl⟩)
    · cases (h.2 t hr).symm.trans hg
  · trivial

/-- A coroutine is suspended while the callback of its task has completed it and not resolved
the waiter yet. -/
def completedWhileSuspended : List (Event Bool) :=
  firstSubmit false { sampleJob "t" with after := .waitAsync none false } ++
    turns (.client false) 2 ++ turns (.worker 0) 9 ++ [.resolve 0 (.result none)] ++
    turns (.callback 0) 3

theorem coroutine_attended : ∃ s, after Orderly { numThreads := 1 } completedWhileSuspended =
    some s ∧ (∀ r, s.shared.ledger.record "t" = some r → r.status = .completed) ∧
    ∃ b, resolves (s.pc b) = some "t" ∨ taken (s.pc b) = some ("t", 0) := by
  obtain ⟨s, hs, hr, hp, ht, hw⟩ := after_spec (A := Orderly) (c := { numThreads := 1 })
    (l := completedWhileSuspended) (P := fun s =>
      s.pc (.client false) =
        .suspended { task := "t", caller := .submitAndWaitAsync } 0 none ∧
      (s.shared.ledger.record "t").map TaskRecord.status = some .completed ∧
      s.shared.waiterFuture 0 = .pending) (by decide +kernel)
  have timely := System.restrict_imp (B := Timely) (P := fun _ => True) (fun _ _ => trivial)
    (fun _ _ _ h => orderly_timely h) hr
  have past : ∀ r, s.shared.ledger.record "t" = some r → r.status = .completed := by
    intro r hr
    rw [hr, Option.map_some] at ht
    exact Option.some.inj ht
  refine ⟨s, hs, past, ?_⟩
  rcases suspended_attended timely hp with ⟨r, hr, hn⟩ | hb | hf
  · rw [past r hr] at hn
    rcases hn with hn | hn <;> cases hn
  · exact hb
  · rw [hw] at hf
    rcases hf with hf | hf <;> cases hf

/-- With one terminal record retained, another task's end evicts the one whose coroutine has not
registered its waiter yet. -/
def evictedBeforeRegistered : List (Event Bool) :=
  firstSubmit false { sampleJob "t" with after := .waitAsync none false } ++
    [.call true (.submit (sampleJob "u"))] ++ turns (.client true) 10 ++ turns (.worker 0) 17 ++
    [.resolve 0 (.result none), .resolve 1 (.result none)] ++
    turns (.callback 0) 9 ++ turns (.callback 1) 9 ++ turns (.client false) 2

theorem evicted_never_resolved : ∃ s, after Fresh
    { numThreads := 1, maxRetainedTerminalTasks := 1 } evictedBeforeRegistered = some s ∧
    s.pc (.client false) = .suspended { task := "t", caller := .submitAndWaitAsync } 0 none ∧
    s.shared.ledger.record "t" = none ∧
    (∀ b, resolves (s.pc b) ≠ some "t" ∧ taken (s.pc b) ≠ some ("t", 0)) ∧
    s.shared.waiterFuture 0 = .pending := by
  obtain ⟨s, hs, _, hp, hr, hidle, hw⟩ := after_spec (A := Fresh)
    (c := { numThreads := 1, maxRetainedTerminalTasks := 1 }) (l := evictedBeforeRegistered)
    (P := fun s => s.pc (.client false) =
        .suspended { task := "t", caller := .submitAndWaitAsync } 0 none ∧
      s.shared.ledger.record "t" = none ∧
      (∀ m ∈ evictedBeforeRegistered.filterMap mover, resolves (s.pc m) ≠ some "t" ∧
        taken (s.pc m) ≠ some ("t", 0)) ∧ s.shared.waiterFuture 0 = .pending) (by decide +kernel)
  refine ⟨s, hs, hp, hr, fun b => ?_, hw⟩
  by_cases hb : b ∈ evictedBeforeRegistered.filterMap mover
  · exact hidle b hb
  · have unmoved := after_unmoved hs fun hc => hb (List.mem_filterMap.mpr (List.mem_map.mp hc))
    rw [unmoved]
    constructor <;>
    · intro h
      cases b <;> cases h

end

end AsyncWaiters
