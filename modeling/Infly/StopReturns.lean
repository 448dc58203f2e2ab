import Infly.Progress
import Infly.StartCalls
import Infly.SchedulerRequests

/-! # `stop` returns

While a `stop` call runs and no other call does, the locks it needs are held by worker threads
only, which give them back.
-/
namespace StopReturns

open Contracts TaskBackend SchedulerState SchedulerModel SchedulerLocks SchedulerControl
  SchedulerLedger SchedulerDuties SchedulerStages SchedulerOwnership SchedulerAccounts
  SchedulerSweep SchedulerRequests ThreadList Staffing StartCalls Transitions Progress

/-! ## How far a stop call has come -/

def stops (p : Pc) : Bool :=
  match p, zone p with
  | .stopping _, _ => true
  | _, .stopping => true
  | _, .sweeping => true
  | _, _ => false

/-- First the part of the call, then what is left of the list that the part goes through. -/
def stopRank : Pc → ℕ × ℕ
  | .stopping _ => (8, 0)
  | .snapshotting _ => (7, 0)
  | .closingStrategy _ _ => (6, 0)
  | .notifying (.stopping _ _) => (5, 0)
  | .joining _ _ rest => (4, rest.length + 1)
  | .filtering => (4, 0)
  | .listingIds => (3, 0)
  | .listingRecords _ => (2, 0)
  | .sweeping _ _ rest => (1, 5 * rest.length + 5)
  | .releasing _ (.sweep _ rest) => (1, 5 * rest.length + 4)
  | .givingBack _ (.sweep _ rest) => (1, 5 * rest.length + 3)
  | .resolving _ (.sweep _ rest) => (1, 5 * rest.length + 2)
  | .scheduling _ _ (.sweep _ rest) => (1, 5 * rest.length + 1)
  | .notifying (.swept _) => (1, 0)
  | _ => (0, 0)

/-- Closer to the end. -/
def Closer : ℕ × ℕ → ℕ × ℕ → Prop := Prod.Lex (· < ·) (· < ·)

theorem closer_wf : WellFounded Closer := WellFounded.prod_lex Nat.lt_wfRel.wf Nat.lt_wfRel.wf

theorem closer_first {a b a' b' : ℕ} (h : a < a') : Closer (a, b) (a', b') := .left _ _ h

theorem closer_second {a b b' : ℕ} (h : b < b') : Closer (a, b) (a, b') := .right _ h

theorem sweepFrom_closer {ι : Type} (a : Thread ι) (done rest : List TaskId) {n : ℕ}
    (h : 5 * rest.length < n) : Closer (stopRank (sweepFrom a done rest)) (1, n) := by
  rcases sweepFrom_cases a done rest with ⟨_, _, hp⟩ | ⟨_, _, hp⟩ | ⟨t, rest', hr, hp⟩
  · rw [hp]
    cases a <;> exact closer_first Nat.zero_lt_one
  · rw [hp]
    exact closer_second (by omega)
  · rw [hp]
    refine closer_second ?_
    rw [hr, List.length_cons] at h
    omega

variable {ι : Type} [DecidableEq ι] {s s' : State ι} {stage : TaskId → Stage ι} {sh : Shared ι}
  {a b : Thread ι} {p : Pc} {c : Choice} {x : Shared ι × Pc} {k : ℕ} {i : ι}

omit [DecidableEq ι] in
theorem abort_stays {e : Raised}
    (h : zone (abortSweep e a) = .sweeping ∨ abortSweep e a = afterSweep a) : False := by
  rcases h with h | h <;> cases a <;> cases h

/-- A step of the sweep, unless it is broken off. -/
theorem sweep_closer (hx : act sh a p c = some x) (hz : zone p = .sweeping)
    (stays : zone x.2 = .sweeping ∨ x.2 = afterSweep a) :
    Closer (stopRank x.2) (stopRank p) := by
  have done : Closer (stopRank (afterSweep a)) (1, 0) := by
    cases a <;> exact closer_first Nat.zero_lt_one
  cases p
  case reporting k | tracing k _ => cases k <;> cases hz
  case notifying n =>
    cases n <;> first
      | cases hz; done
      | skip
    cases c <;> simp only [act, advance, throwing, expire, reduceCtorEq] at hx
    cases hx
    exact done
  case listingIds =>
    cases c <;> simp only [act, advance, throwing, expire, reduceCtorEq] at hx
    cases hx
    exact closer_first (by decide)
  case listingRecords ids =>
    cases c
    case raises e =>
      obtain ⟨e', rfl⟩ := listing_raises hx
      exact (abort_stays stays).elim
    all_goals simp only [act, advance, expire, reduceCtorEq] at hx
    cases hx
    rcases sweepFrom_cases a [] (pendingRecords sh.ledger.backend ids) with ⟨_, _, hp⟩ |
      ⟨_, _, hp⟩ | ⟨t, rest, _, hp⟩
    · dsimp only
      rw [hp]
      cases a <;> exact closer_first Nat.zero_lt_two
    · dsimp only
      rw [hp]
      exact closer_first Nat.one_lt_two
    · dsimp only
      rw [hp]
      exact closer_first Nat.one_lt_two
  case sweeping v done rest =>
    cases c <;> simp only [act, advance, throwing, expire, reduceCtorEq] at hx
    cases hx
    dsimp only at stays ⊢
    split at stays
    · exact closer_second (by omega)
    · exact (abort_stays stays).elim
  case releasing v k =>
    cases k <;> first
      | cases hz; done
      | skip
    cases c <;> simp only [act, advance, throwing, expire, reduceCtorEq] at hx
    split at hx <;> cases hx <;> exact closer_second (by omega)
  case givingBack v k =>
    cases k <;> first
      | cases hz; done
      | skip
    cases c <;> simp only [act, advance, throwing, expire, reduceCtorEq] at hx
    split at hx <;> cases hx
    · exact closer_second (by omega)
    · exact (abort_stays stays).elim
  case resolving v k =>
    cases k <;> first
      | cases hz; done
      | skip
    cases c <;> simp only [act, advance, throwing, expire, reduceCtorEq] at hx
    split at hx <;> cases hx
    · exact sweepFrom_closer a _ _ (by omega)
    · exact closer_second (by omega)
  case scheduling w v k =>
    cases k <;> first
      | cases hz; done
      | skip
    cases c <;> simp only [act, advance, throwing, expire, reduceCtorEq] at hx
    split at hx <;> cases hx <;> exact sweepFrom_closer a _ _ (by omega)
  all_goals cases hz

omit [DecidableEq ι] in
theorem stops_cases (h : stops p = true) :
    (∃ timeout, p = .stopping timeout) ∨ zone p = .stopping ∨ zone p = .sweeping := by
  unfold stops at h
  split at h
  · exact .inl ⟨_, rfl⟩
  · exact .inr (.inl (by assumption))
  · exact .inr (.inr (by assumption))
  · cases h

omit [DecidableEq ι] in
theorem stops_of_zone (h : zone p = .stopping ∨ zone p = .sweeping) : stops p = true := by
  unfold stops
  split
  · rfl
  · rfl
  · rfl
  · rename_i h1 h2
    rcases h with h | h
    · exact absurd h h1
    · exact absurd h h2

/-- The zone `stopping`, one program counter after the other. -/
theorem stopping_pcs (h : zone p = .stopping) : (∃ timeout, p = .snapshotting timeout) ∨
    (∃ timeout workers, p = .closingStrategy timeout workers) ∨
    (∃ timeout workers, p = .notifying (.stopping timeout workers)) ∨
    (∃ deadline k rest, p = .joining deadline k rest) ∨ p = .filtering := by
  cases p
  case snapshotting timeout => exact .inl ⟨_, rfl⟩
  case closingStrategy timeout workers => exact .inr (.inl ⟨_, _, rfl⟩)
  case joining deadline k rest => exact .inr (.inr (.inr (.inl ⟨_, _, _, rfl⟩)))
  case filtering => exact .inr (.inr (.inr (.inr rfl)))
  case notifying n =>
    cases n with
    | stopping timeout workers => exact .inr (.inr (.inl ⟨_, _, rfl⟩))
    | _ => cases h
  case reporting r | tracing r _ | releasing _ r | givingBack _ r | resolving _ r |
      scheduling _ _ r => cases r <;> cases h
  all_goals cases h

theorem joinFrom_closer (deadline : ℕ) (rest : List ℕ) {n : ℕ} (h : rest.length < n) :
    Closer (stopRank (joinFrom deadline rest)) (4, n) := by
  cases rest with
  | nil => exact closer_second h
  | cons k rest => exact closer_second h

/-- A stop call goes on to its return, whatever the state of the threads. -/
theorem stop_turn (h : Sound s stage) (hj : Joinable s)
    (stoppable : Stoppable s (.step (.client i) c)) (listable : Listable s (.step (.client i) c))
    (hp : stops (s.pc (.client i)) = true)
    (hx : act s.shared (.client i) (s.pc (.client i)) c = some x) :
    x.2 = .returned .stopped ∨
      stops x.2 = true ∧ Closer (stopRank x.2) (stopRank (s.pc (.client i))) := by
  have hjoin := hj (.client i)
  rcases stops_cases hp with ⟨timeout, hp⟩ | hz | hz
  · rw [hp] at hx ⊢
    cases c <;> cases hx
    exact .inr ⟨rfl, closer_first (by decide)⟩
  · rcases stopping_pcs hz with ⟨timeout, hp⟩ | ⟨timeout, workers, hp⟩ | ⟨timeout, workers, hp⟩ |
      ⟨deadline, k, rest, hp⟩ | hp
    · rw [hp] at hx ⊢
      cases c <;> cases hx
      exact .inr ⟨rfl, closer_first (by decide)⟩
    · cases c with
      | raises e => exact absurd hp (stoppable.1 timeout workers)
      | timeout =>
        rw [hp] at hx
        cases hx
      | go =>
        rw [hp] at hx ⊢
        cases hx
        exact .inr ⟨rfl, closer_first (by decide)⟩
    · rw [hp] at hx ⊢
      cases c <;> cases hx
      refine .inr ⟨stops_of_zone (.inl (joinFrom_zone ..)), ?_⟩
      cases workers <;> exact closer_first (by decide)
    · have itself : ∀ e, c ≠ .raises e := by
        rintro e rfl
        exact stoppable.2 deadline k rest hp
      rw [hp] at hx hjoin ⊢
      have next : stops (joinFrom deadline rest) = true ∧
          Closer (stopRank (joinFrom deadline rest)) (stopRank (.joining deadline k rest)) :=
        ⟨stops_of_zone (.inl (joinFrom_zone ..)),
          joinFrom_closer deadline rest (Nat.lt_succ_self _)⟩
      cases c with
      | go =>
        simp only [act, advance] at hx
        split at hx <;> cases hx
        · exact absurd (by assumption) (hjoin k (List.mem_cons_self ..))
        · exact .inr next
      | raises e => exact absurd rfl (itself e)
      | timeout =>
        simp only [act, expire] at hx
        split at hx <;> cases hx
        exact .inr next
    · rw [hp] at hx ⊢
      cases c <;> simp only [act, advance, throwing, expire, reduceCtorEq] at hx
      cases hx
      dsimp only
      split
      · exact .inr ⟨rfl, closer_first (by decide)⟩
      · exact .inl rfl
  · obtain ⟨stays, _⟩ := h.sweep listable hz hx
    have closer := sweep_closer hx hz stays
    rcases stays with stays | stays
    · exact .inr ⟨stops_of_zone (.inr stays), closer⟩
    · exact .inl stays

/-! ## A stop call among the other threads -/

/-- A sane step that is not a new call: calls come one after another. -/
def Between (s : State ι) (d : CallEvent ι) (s' : State ι) : Prop :=
  (Sane s d ∧ ∀ j k, d ≠ .event (.call j k)) ∧ nextCall s d = some s'

def own (i : ι) (d : CallEvent ι) : Prop := ∃ c, d = .event (.step (.client i) c)

/-- The `stop` call of `i`, while no other call runs and every thread in the list was
started. -/
structure Stopping (i : ι) (s : State ι) : Prop where
  steady : Steady s
  alone : ∀ j, j ≠ i → (s.pc (.client j)).resting = true
  phase : stops (s.pc (.client i)) = true
  started : ∀ k ∈ s.shared.threads, s.shared.worker k ≠ .unstarted

theorem resting_still (h : p.resting = true) : act sh a p c = none := by
  cases p <;> first
    | cases h; done
    | (cases c <;> rfl)

omit [DecidableEq ι] in
/-- Only `start` puts threads into the list. -/
theorem listed_before (h : Change sh a p x) (hp : ∀ job index, p ≠ .spawning job index)
    (hk : k ∈ x.1.threads) : k ∈ sh.threads := by
  cases h with
  | still _ ht | launch ht | close ht | last ht | finish ht => exact ht ▸ hk
  | unlaunched hx => exact hx ▸ hk
  | @spawn _ job index => exact absurd rfl (hp job index)
  | filter ht => exact (List.mem_filter.mp (ht ▸ hk)).1
  | erase _ ht => exact List.mem_of_mem_erase (ht ▸ hk)

theorem Stopping.others (h : Stopping i s) {d : CallEvent ι}
    (hs : Others Between (own i) s d s') :
    Stopping i s' ∧ s'.pc (.client i) = s.pc (.client i) := by
  obtain ⟨hown, ⟨sane, hcall⟩, hstep⟩ := hs
  have steady := steady_call h.steady hstep sane
  cases d with
  | startReturns j =>
    simp only [nextCall] at hstep
    split at hstep
    · rename_i hover
      obtain ⟨job, hp⟩ := startOver_iff.mp hover
      by_cases hj : j = i
      · have := h.phase
        rw [← hj, hp] at this
        cases this
      · have := h.alone j hj
        rw [hp] at this
        cases this
    · cases hstep
  | event e =>
    rcases step_cases hstep with ⟨j, k, rfl, _, rfl⟩ | ⟨a, c, x, rfl, _, hx, rfl⟩ |
      ⟨f, o, rfl, _, _, rfl⟩ | ⟨w, rfl, _, rfl⟩ | ⟨d, rfl, rfl⟩
    · exact absurd rfl (hcall j k)
    · have hai : a ≠ .client i := fun he => hown ⟨c, he ▸ rfl⟩
      have ha : isClient a = false := by
        cases a with
        | client j =>
          rw [resting_still (h.alone j fun he => hai (he ▸ rfl))] at hx
          cases hx
        | _ => rfl
      have client (j : ι) : (s.goto a x).pc (.client j) = s.pc (.client j) := by
        refine goto_pc_of_ne s (fun he => ?_) x
        rw [← he] at ha
        cases ha
      refine ⟨⟨steady, fun j hj => ?_, ?_, fun k hk => ?_⟩, client i⟩
      · rw [client]
        exact h.alone j hj
      · rw [client]
        exact h.phase
      · have hch := turn_change hx
        refine hch.started (h.started k (listed_before hch (fun job index hp => ?_) hk))
        have hplaced := h.steady.exclusive.placed a
        rw [hp] at hplaced
        cases hplaced.symm.trans ha
    · exact ⟨⟨steady, h.alone, h.phase, h.started⟩, rfl⟩
    · exact ⟨⟨steady, h.alone, h.phase, h.started⟩, rfl⟩
    · exact ⟨⟨steady, h.alone, h.phase, h.started⟩, rfl⟩

/-! ## Locks are given back -/

omit [DecidableEq ι] in
theorem sweepLock_cases (a : Thread ι) : isClient a = true ∧ sweepLock a = .lifecycle ∨
    isClient a = false ∧ sweepLock a = .threads := by
  cases a <;> simp [isClient, sweepLock]

omit [DecidableEq ι] in
/-- Where a thread has a lock across steps. -/
theorem locks_cases {l : Lock} (h : l ∈ p.locks a) :
    l = .lifecycle ∨ l = sweepLock a ∧ zone p = .sweeping ∨ l = .threads ∧ p = .removing ∨
      l = .condition ∧ (p = .pulling ∨ p = .pullBlocking ∨ (∃ q, p = .reading q true) ∨
        ∃ q d, p = .blocking q d) := by
  cases p
  case reading q locked =>
    cases locked with
    | true => exact .inr (.inr (.inr ⟨List.mem_singleton.mp h, .inr (.inr (.inl ⟨q, rfl⟩))⟩))
    | false => cases h
  case pulling => exact .inr (.inr (.inr ⟨List.mem_singleton.mp h, .inl rfl⟩))
  case pullBlocking => exact .inr (.inr (.inr ⟨List.mem_singleton.mp h, .inr (.inl rfl)⟩))
  case blocking q d =>
    exact .inr (.inr (.inr ⟨List.mem_singleton.mp h, .inr (.inr (.inr ⟨q, d, rfl⟩))⟩))
  case removing => exact .inr (.inr (.inl ⟨List.mem_singleton.mp h, rfl⟩))
  case listingIds | listingRecords | sweeping =>
    exact .inr (.inl ⟨List.mem_singleton.mp h, rfl⟩)
  case reporting r | tracing r _ =>
    cases r with
    | submitted job => exact .inl (List.mem_singleton.mp h)
    | _ => cases h
  case releasing _ r | givingBack _ r | resolving _ r | scheduling _ _ r =>
    cases r with
    | rollback e => exact .inl (List.mem_singleton.mp h)
    | sweep done rest => exact .inr (.inl ⟨List.mem_singleton.mp h, rfl⟩)
    | _ => cases h
  case notifying n =>
    cases n with
    | submitted job => exact .inl (List.mem_singleton.mp h)
    | stopping timeout workers => exact .inl (List.mem_singleton.mp h)
    | swept done => exact .inr (.inl ⟨List.mem_singleton.mp h, rfl⟩)
    | finished t m => cases h
  all_goals first
    | exact .inl (List.mem_singleton.mp h)
    | cases h

omit [DecidableEq ι] in
theorem condition_pcs (h : .condition ∈ p.locks a) :
    p = .pulling ∨ p = .pullBlocking ∨ (∃ q, p = .reading q true) ∨ ∃ q d, p = .blocking q d := by
  rcases locks_cases h with hl | ⟨hl, _⟩ | ⟨hl, _⟩ | ⟨_, hp⟩
  · cases hl
  · rcases sweepLock_cases a with ⟨_, ha⟩ | ⟨_, ha⟩ <;> cases hl.trans ha
  · cases hl
  · exact hp

omit [DecidableEq ι] in
theorem threads_pcs (h : .threads ∈ p.locks a) :
    isClient a = false ∧ zone p = .sweeping ∨ p = .removing := by
  rcases locks_cases h with hl | ⟨hl, hz⟩ | ⟨_, hp⟩ | ⟨hl, _⟩
  · cases hl
  · rcases sweepLock_cases a with ⟨_, ha⟩ | ⟨hc, _⟩
    · cases hl.trans ha
    · exact .inl ⟨hc, hz⟩
  · exact .inr hp
  · cases hl

omit [DecidableEq ι] in
theorem lifecycle_client (h : .lifecycle ∈ p.locks a) (hp : runsOn a p = true) :
    isClient a = true := by
  have swept (hl : Lock.lifecycle ∈ [sweepLock a]) : isClient a = true := by
    rcases sweepLock_cases a with ⟨hc, _⟩ | ⟨_, ha⟩
    · exact hc
    · rw [ha] at hl
      cases List.mem_singleton.mp hl
  cases p
  case reporting r | tracing r _ =>
    cases r with
    | submitted job => exact hp
    | _ => cases h
  case releasing _ r | givingBack _ r | resolving _ r | scheduling _ _ r =>
    cases r with
    | rollback e => first
      | exact hp
      | cases hp
    | sweep done rest => exact swept h
    | _ => cases h
  case notifying n =>
    cases n with
    | swept done => exact swept h
    | finished t m => cases h
    | _ => exact hp
  case reading q locked => exact hp
  case listingIds | listingRecords | sweeping => exact swept h
  all_goals first
    | exact hp
    | exact absurd h (by simp [Pc.locks])

theorem freed {l : Lock} (h : s.locks l = some a ∨ s.locks l = none) (hx : l ∉ x.2.locks a) :
    (s.goto a x).locks l = none := by
  simp only [State.goto, hx, if_false]
  rcases h with h | h
  · rw [if_pos h]
  · rw [h]
    rfl

theorem Stopping.moves (h : Stopping i s) (hb : isClient b = false)
    (hn : ∀ l ∈ (s.pc b).needs, s.locks l = none)
    (hx : act s.shared b (s.pc b) .go = some x) :
    Others Between (own i) s (.event (.step b .go)) (s.goto b x) := by
  have hp := h.steady.exclusive.placed b
  have away {q : Pc} (hq : runsOn b q = isClient b) : s.pc b ≠ q := fun he => by
    rw [he, hq, hb] at hp
    cases hp
  refine ⟨?_, ⟨⟨?_, ?_, ?_, trivial⟩, ?_⟩, ?_⟩
  · rintro ⟨c, he⟩
    cases he
    cases hb
  · intro job hpc
    exact absurd hpc (away rfl)
  · intro job hpc
    exact absurd hpc (away rfl)
  · intro timeout hpc
    exact absurd hpc (away rfl)
  · intro j k he
    cases he
  · simp only [nextCall, next, if_pos hn, hx, Option.map_some]

/-- Where a client stops, or rests, it has no lock but its own. -/
theorem Stopping.holder (h : Stopping i s) {l : Lock} (hl : s.locks l = some b)
    (hne : l ≠ .lifecycle) : isClient b = false := by
  have hmem := (h.steady.exclusive.held l b).mp hl
  cases b with
  | client j =>
    by_cases hj : j = i
    · subst hj
      have hstop := h.phase
      rcases locks_cases hmem with hl | ⟨hl, _⟩ | ⟨_, hp⟩ | ⟨_, hp⟩
      · exact absurd hl hne
      · exact absurd hl hne
      · rw [hp] at hstop
        cases hstop
      · rcases hp with hp | hp | ⟨q, hp⟩ | ⟨q, d, hp⟩ <;> rw [hp] at hstop <;> cases hstop
    · rw [resting_locks (h.alone j hj)] at hmem
      cases hmem
  | _ => rfl

/-- Whoever has the lock of the condition gives it back, and nobody else moves. -/
theorem Stopping.free_condition (h : Stopping i s) :
    ∃ v, Execution (Others Between (own i)) s v ∧ v.locks .condition = none ∧
      ∀ a, s.locks .condition ≠ some a → v.pc a = s.pc a := by
  cases hl : s.locks .condition with
  | none => exact ⟨s, .refl s, hl, fun _ _ => rfl⟩
  | some b =>
    have hb := h.holder hl (by decide)
    have hplaced := h.steady.exclusive.placed b
    -- the wait gives the lock back
    have block {u : State ι} (hu : Stopping i u) (hp : u.pc b = .pullBlocking)
        (hlu : u.locks .condition = some b) : ∃ v, Execution (Others Between (own i)) u v ∧
          v.locks .condition = none ∧ ∀ a, some b ≠ some a → v.pc a = u.pc a := by
      refine ⟨_, .single (hu.moves hb (by rw [hp]; exact fun l hl => by cases hl)
        (by rw [hp]; rfl)), freed (.inl hlu) (by simp [Pc.locks]), fun a ha => ?_⟩
      refine goto_pc_of_ne u (fun he => ?_) _
      exact ha (congrArg some he.symm)
    rcases condition_pcs ((h.steady.exclusive.held _ _).mp hl) with hp | hp | ⟨q, hp⟩ | ⟨q, d, hp⟩
    · have hn : ∀ l ∈ (s.pc b).needs, s.locks l = none := by
        rw [hp]
        exact fun l hl => by cases hl
      cases hpull : s.shared.ledger.pull.1 with
      | some t =>
        have step := h.moves (x := ({ s.shared with ledger := s.shared.ledger.pull.2 },
          .checking t)) hb hn (by rw [hp]; simp only [act, advance, hpull])
        refine ⟨_, .single step, freed (.inl hl) (by simp [Pc.locks]), fun a ha => ?_⟩
        refine goto_pc_of_ne s (fun he => ?_) _
        exact ha (congrArg some he.symm)
      | none =>
        have step := h.moves (x := ({ s.shared with ledger := s.shared.ledger.pull.2 },
          .pullBlocking)) hb hn (by rw [hp]; simp only [act, advance, hpull])
        obtain ⟨hu, _⟩ := h.others step
        obtain ⟨v, run, hv, hpc⟩ := block hu (goto_pc ..)
          ((hu.steady.exclusive.held _ _).mpr (by rw [goto_pc]; exact List.mem_singleton.mpr rfl))
        refine ⟨v, (Execution.single step).trans run, hv, fun a ha => (hpc a ha).trans ?_⟩
        refine goto_pc_of_ne s (fun he => ?_) _
        exact ha (congrArg some he.symm)
    · exact block h hp hl
    · rw [hp] at hplaced
      cases hplaced.symm.trans hb
    · rw [hp] at hplaced
      cases hplaced.symm.trans hb

/-- The sweep waits for nothing but the lock of the condition. -/
theorem sweep_go (sh : Shared ι) (a : Thread ι) (hz : zone p = .sweeping) :
    (∃ x, act sh a p .go = some x) ∧ ∀ l ∈ p.needs, l = .condition := by
  have quiet : (∀ l ∈ ([] : List Lock), l = .condition) := fun l hl => by cases hl
  cases p
  case releasing v m | givingBack v m | resolving v m | scheduling w v m =>
    refine ⟨?_, quiet⟩
    simp only [act, advance]
    split <;> exact ⟨_, rfl⟩
  case notifying n => exact ⟨⟨_, rfl⟩, fun l hl => List.mem_singleton.mp hl⟩
  case listingIds | listingRecords | sweeping => exact ⟨⟨_, rfl⟩, quiet⟩
  case reporting r | tracing r _ => cases r <;> cases hz
  all_goals cases hz

theorem Stopping.run (h : Stopping i s) (run : Execution (Others Between (own i)) s s') :
    Stopping i s' ∧ s'.pc (.client i) = s.pc (.client i) := by
  refine run.preserves (P := fun u => Stopping i u ∧ u.pc (.client i) = s.pc (.client i)) ?_
    ⟨h, rfl⟩
  rintro u d v ⟨hu, hpc⟩ hst
  obtain ⟨hv, hpc'⟩ := hu.others hst
  exact ⟨hv, hpc'.trans hpc⟩

/-- Whoever has the lock of the thread list gives it back. -/
theorem Stopping.free_threads (h : Stopping i s) :
    ∃ v, Execution (Others Between (own i)) s v ∧ v.locks .threads = none := by
  cases hl : s.locks .threads with
  | none => exact ⟨s, .refl s, hl⟩
  | some b =>
    have hb := h.holder hl (by decide)
    have hlock : sweepLock b = .threads := by
      rcases sweepLock_cases b with ⟨hc, _⟩ | ⟨_, hlock⟩
      · cases hc.symm.trans hb
      · exact hlock
    refine reaches_of_rank (B := fun u => Stopping i u ∧ u.locks .threads = some b) closer_wf
      (fun u => stopRank (u.pc b)) ?_ ⟨h, hl⟩
    rintro u ⟨hu, hlu⟩
    have hplaced := hu.steady.exclusive.placed b
    rcases threads_pcs ((hu.steady.exclusive.held _ _).mp hlu) with ⟨_, hz⟩ | hp
    · obtain ⟨v, run, hfree, hsame⟩ := hu.free_condition
      have hpc : v.pc b = u.pc b := by
        refine hsame b fun hc => ?_
        rcases condition_pcs ((hu.steady.exclusive.held _ _).mp hc) with hp | hp | ⟨q, hp⟩ |
          ⟨q, d, hp⟩ <;> rw [hp] at hz <;> cases hz
      obtain ⟨hv, _⟩ := hu.run run
      rw [← hpc] at hz
      obtain ⟨⟨x, hx⟩, hneeds⟩ := sweep_go v.shared b hz
      have step := hv.moves hb (fun l hl => (hneeds l hl).symm ▸ hfree) hx
      obtain ⟨hw, _⟩ := hv.others step
      obtain ⟨stage, sound⟩ := hv.steady.sound
      have stays := (sound.sweep (c := .go) trivial hz hx).1
      refine ⟨_, run.trans (.single step), .inr ⟨⟨hw, ?_⟩, ?_⟩⟩
      · rw [hw.steady.exclusive.held, goto_pc, ← hlock]
        rcases stays with stays | stays
        · exact sweeping_locks stays
        · rw [stays, hlock]
          cases b with
          | client j => cases hb
          | _ => exact List.mem_singleton.mpr rfl
      · rw [goto_pc, ← hpc]
        exact sweep_closer hx hz stays
    · cases b with
      | worker k =>
        have step := hu.moves hb (by rw [hp]; exact fun l hl => by cases hl)
          (x := ({ u.shared with threads := u.shared.threads.erase k }, .leaving)) (by rw [hp]; rfl)
        exact ⟨_, .single step, .inl (freed (.inl hlu) (by simp [Pc.locks]))⟩
      | _ =>
        rw [hp] at hplaced
        cases hplaced

/-! ## The call goes on -/

theorem Stopping.step (h : Stopping i s) (hc : ∀ e, c ≠ .raises e)
    (hn : ∀ l ∈ (s.pc (.client i)).needs, s.locks l = none)
    (hx : act s.shared (.client i) (s.pc (.client i)) c = some x) :
    Between s (.event (.step (.client i) c)) (s.goto (.client i) x) := by
  have hstop := h.phase
  have away {q : Pc} (hq : stops q = false) : s.pc (.client i) ≠ q := fun he => by
    rw [he, hq] at hstop
    cases hstop
  refine ⟨⟨?_, fun j k he => by cases he⟩, ?_⟩
  · cases c with
    | go =>
      refine ⟨fun job hp => ?_, fun job hp => ?_, fun _ _ => h.started, trivial⟩
      · exact absurd hp (away rfl)
      · exact absurd hp (away rfl)
    | raises e => exact absurd rfl (hc e)
    | timeout => exact ⟨trivial, trivial, trivial, trivial⟩
  · simp only [nextCall, next, if_pos hn, hx, Option.map_some]

/-- Before it takes the lifecycle lock no other call has it. -/
theorem Stopping.lifecycle_free (h : Stopping i s) {timeout : ℤ}
    (hp : s.pc (.client i) = .stopping timeout) : s.locks .lifecycle = none := by
  cases hl : s.locks .lifecycle with
  | none => rfl
  | some b =>
    have hmem := (h.steady.exclusive.held _ _).mp hl
    obtain ⟨j, rfl⟩ := isClient_iff.mp (lifecycle_client hmem (h.steady.exclusive.placed b))
    by_cases hj : j = i
    · rw [hj, hp] at hmem
      cases hmem
    · rw [resting_locks (h.alone j hj)] at hmem
      cases hmem

/-- Others can always go on so that the call takes its next step. -/
theorem Stopping.enabled (h : Stopping i s) : ∃ v d t,
    Execution (Others Between (own i)) s v ∧ own i d ∧ Between v d t := by
  have after {v : State ι} (run : Execution (Others Between (own i)) s v)
      (hn : ∀ l ∈ (s.pc (.client i)).needs, v.locks l = none)
      (hx : ∃ x, act v.shared (.client i) (s.pc (.client i)) .go = some x) : ∃ v d t,
      Execution (Others Between (own i)) s v ∧ own i d ∧ Between v d t := by
    obtain ⟨hv, hpc⟩ := h.run run
    obtain ⟨x, hx⟩ := hx
    exact ⟨v, _, _, run, ⟨.go, rfl⟩, hv.step (fun e he => by cases he) (hpc ▸ hn) (hpc ▸ hx)⟩
  have none {v : State ι} {p : Pc} (hp : s.pc (.client i) = p) (hn : p.needs = []) :
      ∀ l ∈ (s.pc (.client i)).needs, v.locks l = none := fun l hl => by
    rw [hp, hn] at hl
    cases hl
  rcases stops_cases h.phase with ⟨timeout, hp⟩ | hz | hz
  · refine after (.refl s) (fun l hl => ?_) ⟨_, by rw [hp]; rfl⟩
    rw [hp] at hl
    rw [List.mem_singleton.mp hl]
    exact h.lifecycle_free hp
  · rcases stopping_pcs hz with ⟨timeout, hp⟩ | ⟨timeout, workers, hp⟩ | ⟨timeout, workers, hp⟩ |
      ⟨deadline, k, rest, hp⟩ | hp
    · obtain ⟨v, run, hfree⟩ := h.free_threads
      refine after run (fun l hl => ?_) ⟨_, by rw [hp]; rfl⟩
      rw [hp] at hl
      exact List.mem_singleton.mp hl ▸ hfree
    · exact after (.refl s) (none hp rfl) ⟨_, by rw [hp]; rfl⟩
    · obtain ⟨v, run, hfree, _⟩ := h.free_condition
      refine after run (fun l hl => ?_) ⟨_, by rw [hp]; rfl⟩
      rw [hp] at hl
      exact List.mem_singleton.mp hl ▸ hfree
    · cases hw : s.shared.worker k with
      | unstarted =>
        have hj := h.steady.joinable (.client i) k
        rw [hp] at hj
        exact absurd hw (hj (List.mem_cons_self ..))
      | ended =>
        refine after (.refl s) (none hp rfl) ⟨(s.shared, joinFrom deadline rest), ?_⟩
        rw [hp]
        simp only [act, advance, hw]
      | running =>
        -- time passes until the call gives up on the thread
        have tick : Others Between (own i) s (.event (.tick deadline))
            { s with shared := { s.shared with clock := s.shared.clock + deadline } } := by
          refine ⟨?_, ⟨⟨trivial, trivial, trivial, trivial⟩, fun j k he => by cases he⟩, rfl⟩
          rintro ⟨c, he⟩
          cases he
        obtain ⟨hv, hpc⟩ := h.others tick
        refine ⟨_, _, _, .single tick, ⟨.timeout, rfl⟩, hv.step (c := .timeout)
          (x := ({ s.shared with clock := s.shared.clock + deadline }, joinFrom deadline rest))
          (fun e he => by cases he) (hpc ▸ none hp rfl) ?_⟩
        rw [hpc, hp]
        simp only [act, expire, hw, true_and]
        rw [if_pos (Nat.le_add_left ..)]
    · obtain ⟨v, run, hfree⟩ := h.free_threads
      refine after run (fun l hl => ?_) ⟨_, by rw [hp]; rfl⟩
      rw [hp] at hl
      exact List.mem_singleton.mp hl ▸ hfree
  · obtain ⟨v, run, hfree, _⟩ := h.free_condition
    obtain ⟨hx, hneeds⟩ := sweep_go v.shared (.client i) hz
    exact after run (fun l hl => hneeds l hl ▸ hfree) hx

theorem Stopping.forward (h : Stopping i s) {d : CallEvent ι} (ho : own i d)
    (hs : Between s d s') : s'.pc (.client i) = .returned .stopped ∨
      Stopping i s' ∧ Closer (stopRank (s'.pc (.client i))) (stopRank (s.pc (.client i))) := by
  obtain ⟨c, rfl⟩ := ho
  obtain ⟨⟨sane, hcall⟩, hstep⟩ := hs
  have steady := steady_call h.steady hstep sane
  obtain ⟨stage, sound⟩ := h.steady.sound
  have hstep' : Step s (.step (.client i) c) s' := hstep
  rcases step_cases hstep' with ⟨j, k, he, _, _⟩ | ⟨a, c', x, he, _, hx, rfl⟩ |
    ⟨f, o, he, _, _, _⟩ | ⟨w, he, _, _⟩ | ⟨d, he, _⟩
  · cases he
  · cases he
    have hturn := stop_turn sound h.steady.joinable sane.2.2.1 sane.2.2.2 h.phase hx
    rw [goto_pc]
    refine hturn.imp_right fun hnext => ⟨⟨steady, fun j hj => ?_, ?_, fun k hk => ?_⟩, hnext.2⟩
    · rw [goto_pc_of_ne s (by simpa using hj)]
      exact h.alone j hj
    · rw [goto_pc]
      exact hnext.1
    · have hch := turn_change hx
      refine hch.started (h.started k (listed_before hch (fun job index hp => ?_) hk))
      have hstop := h.phase
      rw [hp] at hstop
      cases hstop
  all_goals cases he

theorem Stopping.returns (h : Stopping i s) :
    Returns Between (own i) (fun s => s.pc (.client i) = .returned .stopped) s := by
  refine Returns.of_rank (B := Stopping i) closer_wf (fun s => stopRank (s.pc (.client i)))
    (fun u d v hu ho hst => ?_) (fun u hu => hu.enabled)
    (fun u d v hu ho hst => hu.forward ho hst) h
  obtain ⟨hv, hpc⟩ := hu.others ⟨ho, hst⟩
  exact ⟨hv, congrArg stopRank hpc⟩

/-! ## Runs in which a failed `Thread.start` does no harm -/

omit [DecidableEq ι] in
theorem manned_running (h : Manned s) (hc : Control s) : ∃ k, s.shared.worker k = .running := by
  rcases h with ⟨k, _, hr, _⟩ | ⟨k, hz⟩
  · exact ⟨k, hr⟩
  · have hf := hc.facts (.worker k)
    rw [hz] at hf
    exact ⟨k, hf.1⟩

/-- While a submit call is past its `start`, and has been told that the scheduler accepts
tasks, a worker thread runs; no `stop` call raises; one that is made while no other call runs
returns; and when no worker runs, no accepted task is PENDING. -/
theorem failed_start_harmless (h : ((calls ι).restrict Sane).Reachable s) :
    (∀ i, admitted (s.pc (.client i)) = true → zone (s.pc (.client i)) = .opening →
      ∃ k, s.shared.worker k = .running) ∧
    (∀ i d s', stops (s.pc (.client i)) = true → own i d → Sane s d → nextCall s d = some s' →
      ∀ r, s'.pc (.client i) ≠ .raised r) ∧
    (∀ i timeout s', 0 ≤ timeout → (∀ j, (s.pc (.client j)).resting = true) →
      (∀ k ∈ s.shared.threads, s.shared.worker k ≠ .unstarted) →
      nextCall s (.event (.call i (.stop timeout))) = some s' →
      Returns Between (own i) (fun u => u.pc (.client i) = .returned .stopped) s') ∧
    ((∀ k, s.shared.worker k ≠ .running) → ∀ t ∈ s.shared.ledger.accepted, ∀ r,
      s.shared.ledger.record t = some r → r.status ≠ .pending) := by
  have steady := reachable_steady h
  obtain ⟨stage, sound⟩ := steady.sound
  refine ⟨fun i ha hz => ?_, fun i d s' hp ho sane hstep e hraised => ?_,
    fun i timeout s' ht rest started hcall => ?_, fun hw t ha r hr hs => ?_⟩
  · have hf := steady.control.facts (.client i)
    rw [hz] at hf
    exact manned_running (steady.crew.staffed (.inr ⟨hf, i, ha⟩)) steady.control
  · obtain ⟨c, rfl⟩ := ho
    have hstep' : Step s (.step (.client i) c) s' := hstep
    rcases step_cases hstep' with ⟨j, k, he, _, _⟩ | ⟨a, c', x, he, _, hx, rfl⟩ |
      ⟨f, o, he, _, _, _⟩ | ⟨w, he, _, _⟩ | ⟨d, he, _⟩
    · cases he
    · cases he
      rw [goto_pc] at hraised
      rcases stop_turn sound steady.joinable sane.2.2.1 sane.2.2.2 hp hx with hnext | hnext
      · cases hnext.symm.trans hraised
      · rw [hraised] at hnext
        cases hnext.1
    all_goals cases he
  · have steady' := steady_call steady hcall ⟨trivial, trivial, trivial, trivial⟩
    rw [nextCall, next, if_pos (rest i)] at hcall
    cases hcall
    refine Stopping.returns ⟨steady', fun j hj => ?_, ?_, started⟩
    · rw [goto_pc_of_ne s (by simpa using hj)]
      exact rest j
    · rw [goto_pc]
      simp only [Call.enter, if_neg (Int.not_lt.mpr ht)]
      rfl
  · obtain ⟨k, hk⟩ :=
      manned_running (steady.crew.staffed (.inl ⟨t, ha, r, hr, hs⟩)) steady.control
    exact hw k hk

/-! ## A thread that was not started -/

def atStart : Pc → Bool
  | .startChecking _ => true
  | _ => false

def atSnapshot : Pc → Bool
  | .snapshotting _ => true
  | _ => false

def atClose : Pc → Bool
  | .closingStrategy _ _ | .joining _ _ _ => true
  | _ => false

instance (s : State ι) (e : Event ι) : Decidable (Startable s e) :=
  match e with
  | .step a .go =>
    decidable_of_iff (atStart (s.pc a) = true → s.shared.threads ≠ [] →
      ∃ k ∈ s.shared.threads, s.shared.worker k ≠ .unstarted) (by
        cases hp : s.pc a <;> simp [Startable, atStart, hp])
  | .step _ (.raises _) | .step _ .timeout | .call _ _ | .resolve _ _ | .fire _ | .tick _ =>
    .isTrue trivial

instance (s : State ι) (e : Event ι) : Decidable (Stoppable s e) :=
  match e with
  | .step a .go =>
    decidable_of_iff (atSnapshot (s.pc a) = true →
      ∀ k ∈ s.shared.threads, s.shared.worker k ≠ .unstarted) (by
        cases hp : s.pc a <;> simp [Stoppable, atSnapshot, hp])
  | .step a (.raises _) =>
    decidable_of_iff (atClose (s.pc a) = false) (by
      cases hp : s.pc a <;> simp [Stoppable, atClose, hp])
  | .step _ .timeout | .call _ _ | .resolve _ _ | .fire _ | .tick _ => .isTrue trivial

instance (s : State ι) (d : CallEvent ι) : Decidable (Sane s d) :=
  match d with
  | .event _ => instDecidableAnd
  | .startReturns _ => .isTrue trivial

def begun (config : Config.SchedulerConfig) : State ι :=
  begin config { maxRetainedTerminalTasks := config.maxRetainedTerminalTasks }

omit [DecidableEq ι] in
theorem begun_init (config : Config.SchedulerConfig) : Init (begun (ι := ι) config) :=
  ⟨config, _, empty_usable _, rfl⟩

/-- A call of `start`, a submit call, and a `stop` call that begins. -/
def callsInTurn : List (CallEvent Unit) :=
  (.event (.call () (.submit (sampleJob "s"))) :: (turns (.client ()) 4).map .event) ++
    [.startReturns ()] ++
    .event (.call () (.submit (sampleJob "t"))) :: (turns (.client ()) 10).map .event

theorem calls_in_turn_return : ∃ s s', ((calls Unit).restrict Sane).Reachable s ∧
    s.pc (.client ()) = .returned (.accepted "t") ∧
    nextCall s (.event (.call () (.stop 0))) = some s' ∧
    Returns Between (own ()) (fun u => u.pc (.client ()) = .returned .stopped) s' := by
  have trace : ((replay nextCall Sane callsInTurn (begun { numThreads := 1 })).bind fun s =>
      (nextCall s (.event (.call () (.stop 0)))).map fun _ => decide
        (s.pc (.client ()) = .returned (.accepted "t") ∧
          ∀ k ∈ s.shared.threads, s.shared.worker k ≠ .unstarted)) = some true := by
    decide +kernel
  obtain ⟨s, hs, hrest⟩ := Option.bind_eq_some_iff.mp trace
  obtain ⟨s', hs', hP⟩ := Option.map_eq_some_iff.mp hrest
  obtain ⟨hp, started⟩ := of_decide_eq_true hP
  have hr : ((calls Unit).restrict Sane).Reachable s := ⟨_, begun_init _, replay_execution hs⟩
  have rest : ∀ j : Unit, (s.pc (.client j)).resting = true := fun _ => by
    rw [hp]
    rfl
  exact ⟨s, s', hr, hp, hs', (failed_start_harmless hr).2.2.1 () 0 s' le_rfl rest started hs'⟩

/-- The first thread does not start; the next submit call finds it in the list. -/
def failedStart : List (CallEvent Unit) :=
  (.event (.call () (.submit (sampleJob "s"))) :: (turns (.client ()) 3).map .event) ++
    [.event (.step (.client ()) (.raises (.other "can't start new thread")))] ++
    .event (.call () (.submit (sampleJob "t"))) :: (turns (.client ()) 10).map .event

def thenStop : List (CallEvent Unit) :=
  .event (.call () (.stop 0)) :: (turns (.client ()) 5).map .event

/-- A task is accepted that no thread will ever run, and `stop` raises and leaves it pending. -/
theorem failed_start_strands : ∃ s u, (calls Unit).Reachable s ∧
    s.pc (.client ()) = .returned (.accepted "t") ∧ (∀ k, s.shared.worker k = .unstarted) ∧
    Execution (calls Unit).step s u ∧ u.pc (.client ()) = .raised joinUnstarted ∧
    (u.shared.ledger.record "t").map TaskRecord.status = some .pending := by
  have trace : ((replay nextCall (fun _ _ => True) failedStart (begun { numThreads := 1 })).bind
      fun s => (replay nextCall (fun _ _ => True) thenStop s).map fun u => decide
        (s.pc (.client ()) = .returned (.accepted "t") ∧ s.shared.nextThread = 1 ∧
          s.shared.worker 0 = .unstarted ∧ u.pc (.client ()) = .raised joinUnstarted ∧
          (u.shared.ledger.record "t").map TaskRecord.status = some .pending)) = some true := by
    decide +kernel
  obtain ⟨s, hs, hrest⟩ := Option.bind_eq_some_iff.mp trace
  obtain ⟨u, hu, hP⟩ := Option.map_eq_some_iff.mp hrest
  obtain ⟨hp, hnext, hfirst, hraised, hpending⟩ := of_decide_eq_true hP
  have run {s u : State Unit} {l : List (CallEvent Unit)}
      (h : replay nextCall (fun _ _ => True) l s = some u) :
      Execution (calls Unit).step s u := (replay_execution h).mono fun _ _ _ hst => hst.2
  have hr : (calls Unit).Reachable s := ⟨_, begun_init _, run hs⟩
  refine ⟨s, u, hr, hp, fun k => ?_, run hu, hraised, hpending⟩
  by_cases hk : k = 0
  · subst hk
    exact hfirst
  · have hnew : s.shared.nextThread ≤ k := by omega
    exact (calls_control hr).2.unused k hnew

end StopReturns
