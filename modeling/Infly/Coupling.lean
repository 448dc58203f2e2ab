import Infly.Deployment
import Infly.Holders

/-! # What the layers of a deployment share

The scheduler and the pool of a deployment each run as they do alone, so what holds of each of
them alone holds here. Then what ties them together: whose future is whose, and where the
request of a task is.
-/
namespace Coupling

open Contracts Config PoolState StaleResults CacheKey ExecutorCache WorkerProcess SchedulerState
  SchedulerLedger SchedulerStages SchedulerAccounts SchedulerFutures PoolDelivery PoolInvariant
  Holders Deployment Transitions

variable {ι : Type} [DecidableEq ι] {keys : CacheKeys} {memory : Memory}
  {s t : Deployment.State ι} {e : Deployment.Event ι}

/-! ## The components alone -/

theorem registryOf_named (definitions : List HandlerDefinition) (n : String)
    (d : HandlerDefinition) (h : (registryOf definitions).get? n = some d) :
    d.handlerName = n := by
  have all : ∀ (definitions : List HandlerDefinition) (registry : Registry),
      (∀ n d, registry.get? n = some d → d.handlerName = n) →
      ∀ n d, (definitions.foldl Registry.add registry).get? n = some d → d.handlerName = n := by
    intro definitions
    induction definitions with
    | nil => exact fun _ hr => hr
    | cons c rest ih =>
      intro registry hr
      refine ih _ fun n d hd => ?_
      rw [Registry.add, Dict.get?_set] at hd
      split at hd
      · rename_i hn
        cases hd
        exact hn.symm
      · exact hr n d hd
  exact all definitions .empty (fun _ _ hd => by cases hd) n d h

theorem registry_names {registry : Registry}
    (named : ∀ n d, registry.get? n = some d → d.handlerName = n) :
    (registry.list.map HandlerDefinition.handlerName).Nodup := by
  have keyed : registry.values.map HandlerDefinition.handlerName = registry.keys := by
    unfold Dict.values Dict.keys
    rw [List.map_map]
    refine List.map_congr_left fun entry hentry => ?_
    exact named entry.1 entry.2 (Dict.get?_eq_some.mpr hentry)
  have perm : (registry.list.map HandlerDefinition.handlerName).Perm
      (registry.values.map HandlerDefinition.handlerName) :=
    (List.perm_insertionSort _ _).map _
  rw [perm.nodup_iff, keyed]
  exact registry.keys_nodup

theorem execute_raised {p : Pool} {putRaises : List String} {request : TaskRequest}
    {f : PoolState.FutureId} {w : Raised}
    (h : (PoolState.execute p putRaises request f).2 = .raised w) : w = processClosed := by
  rw [PoolTables.execute_eq] at h
  dsimp only at h
  repeat' split at h
  all_goals cases h
  rfl

/-- The scheduler's strategy raises nothing but what a closed process handle raises. -/
abbrev schedulerAlone (ι : Type) [DecidableEq ι] :
    System (SchedulerModel.State ι) (SchedulerModel.Event ι) :=
  (SchedulerModel.system ι).restrict (Honest (· = processClosed))

abbrev deployment (keys : CacheKeys) (memory : Memory) (ι : Type) [DecidableEq ι] :
    System (Deployment.State ι) (Deployment.Event ι) :=
  (Deployment.system keys memory).restrict Deployment.Fresh

theorem scheduler_view :
    Simulation (deployment keys memory ι) (schedulerAlone ι) State.scheduler where
  init s := by
    rintro ⟨config, definitions, groups, p, pipe, logs, load, _, rfl⟩
    exact ⟨config, _, SchedulerRequests.empty_usable _, rfl⟩
  step s e t _ _ hst := by
    obtain ⟨fresh, hst⟩ := hst
    have quiet : ∀ {x : SchedulerModel.State ι} {a : Thread ι},
        SchedulerModel.Step s.scheduler (.step a .go) x →
        Execution (schedulerAlone ι).step s.scheduler x := fun hx =>
      .single (e := .step _ .go) ⟨⟨trivial, trivial⟩, hx⟩
    have resolves : ∀ {x y : SchedulerModel.State ι} {f : SchedulerState.FutureId} {o : Outcome},
        SchedulerModel.Step x (.resolve f o) y → Execution (schedulerAlone ι).step x y :=
      fun hy => .single (e := .resolve _ _) ⟨⟨trivial, trivial⟩, hy⟩
    cases next_change hst with
    | scheduler e x own hx =>
      refine .single (e := e) ⟨⟨fresh, ?_⟩, hx⟩
      unfold Throws
      split
      · rintro ⟨u, request, hp⟩
        simp [aside, hp] at own
      · trivial
    | assigned a putRaises u request r x hp hr hx => exact quiet hx
    | rejected a putRaises u request w x y hp hr hx hy => exact (quiet hx).trans (resolves hy)
    | raised a putRaises u request w x hp hr hx =>
      exact .single (e := .step a (.raises w)) ⟨⟨trivial, fun _ => execute_raised hr⟩, hx⟩
    | close | add | boot | serve | receive | lose | drop | garble => exact .refl _
    | closed i c timeout workers x hp hx =>
      refine .single (e := .step (.client i) c) ⟨⟨?_, ?_⟩, hx⟩
      · cases c <;> trivial
      · unfold Throws
        split
        · rename_i a w heq
          cases heq
          rintro ⟨u, request, hexec⟩
          cases hp.symm.trans hexec
        · trivial
    | pool b child x own hh he hc hx =>
      unfold settle at hx
      repeat' split at hx
      · cases hx
        exact .refl _
      · exact resolves hx
      · cases hx
        exact .refl _

/-- The pool and its processes make at most one step; only a thread at `strategy.execute` calls
`execute`. -/
theorem wire_step (hst : next keys memory s e = some t) : t.wire = s.wire ∨
    ∃ b, WireEnabled s.wire b ∧ t.wire = wireNext s.wire b ∧
      ∀ request putRaises, b = .step (.execute request putRaises) →
        ∃ a u, s.scheduler.pc a = .executing u request := by
  have calls : ∀ {a : Thread ι} {u : TaskId} {request : TaskRequest} {putRaises : List String}
      (q : TaskRequest) (puts : List String), s.scheduler.pc a = .executing u request →
      (WireEvent.step (.execute request putRaises) : WireEvent (User ι)) =
        .step (.execute q puts) → ∃ a u, s.scheduler.pc a = .executing u q := by
    rintro a u request putRaises q puts hp heq
    cases heq
    exact ⟨a, u, hp⟩
  cases next_change hst with
  | scheduler | closed | boot => exact .inl rfl
  | assigned a putRaises u request r x hp | rejected a putRaises u request w x y hp
  | raised a putRaises u request w x hp =>
    exact .inr ⟨.step (.execute request putRaises), trivial, rfl, fun q puts => calls q puts hp⟩
  | close i _ he =>
    exact .inr ⟨.step (.closeCall (.client i)), he, rfl, fun _ _ heq => by cases heq⟩
  | add definition =>
    exact .inr ⟨.step (.registerHandler _), trivial, rfl, fun _ _ heq => by cases heq⟩
  | serve o load handle own executor executor' request rest v hc hi hv hn he =>
    exact .inr ⟨_, he, rfl, fun _ _ heq => by cases heq⟩
  | receive o m he | lose o k request hi he | drop o m he | garble o m w he =>
    exact .inr ⟨_, he, rfl, fun _ _ heq => by cases heq⟩
  | pool b child x own hh he hc hx =>
    refine .inr ⟨.step b, ?_, rfl, fun q puts heq => ?_⟩
    · cases b <;> first
        | exact he
        | cases own
    · cases heq
      cases own

theorem wire_view : Simulation (deployment keys memory ι) (wire (User ι)) State.wire where
  init s := by
    rintro ⟨config, definitions, groups, p, pipe, logs, load, ready, rfl⟩
    exact ⟨_, ⟨_, groups, p, pipe, logs, registry_names (registryOf_named definitions),
      ready.construct, rfl⟩, rfl⟩
  step s e t _ _ hst := by
    rcases wire_step hst.2 with heq | ⟨b, hb, heq, -⟩ <;> rw [heq]
    · exact .refl _
    · exact .single ⟨hb, rfl⟩

theorem scheduler_alone (h : (deployment keys memory ι).Reachable s) :
    (schedulerAlone ι).Reachable s.scheduler := scheduler_view.reachable h

theorem wire_alone (h : (deployment keys memory ι).Reachable s) :
    (wire (User ι)).Reachable s.wire := wire_view.reachable h

theorem pool_alone (h : (deployment keys memory ι).Reachable s) :
    PoolModel.Reachable s.wire.state := wire_reachable (wire_alone h)

theorem stages (h : (schedulerAlone ι).Reachable x) : ∃ stage, Staged x stage :=
  (reachable_accounts (honest_single h)).staged

/-- A step of a deployment is a run of the scheduler. -/
theorem scheduler_run (h : (deployment keys memory ι).Reachable s)
    (hst : (deployment keys memory ι).step s e t) :
    Execution (schedulerAlone ι).step s.scheduler t.scheduler :=
  scheduler_view.step s e t h (scheduler_alone h) hst

theorem own_backend (h : (deployment keys memory ι).Reachable s) : s.ledger.foreign = ∅ := by
  refine System.invariant_reachable (P := fun s => s.ledger.foreign = ∅) ?_
    (fun u e v hr hu hst => ?_) h
  · rintro s ⟨config, definitions, groups, p, pipe, logs, load, _, rfl⟩
    rfl
  · exact (scheduler_run hr hst).preserves (P := fun x => x.shared.ledger.foreign = ∅)
      (fun x e y hx hxy => (foreign_next hxy.2).trans hx) hu

/-! ## Whose future is whose -/

structure Coupled (s : Deployment.State ι) : Prop where
  covers : ∀ f, f < s.ledger.nextFuture → ∃ g, s.launched g = some f
  injective : ∀ g g' f, s.launched g = some f → s.launched g' = some f → g = g'
  bound : ∀ g f, s.launched g = some f → f < s.ledger.nextFuture ∧ g < s.history.nextFuture
  accepted : ∀ g u, s.history.acceptedTask g = some u →
    ∃ f, s.launched g = some f ∧ (s.ledger.futures f).task = u
  outcome : ∀ g f, s.launched g = some f →
    (s.ledger.futures f).outcome = (s.history.resolutions g).head?.map outcomeOf
  refused : ∀ g f, s.launched g = some f → s.history.acceptedTask g = none →
    s.history.resolutions g ≠ []

omit [DecidableEq ι] in
/-- What is tied together is the futures of both sides. -/
theorem Coupled.frame (h : Coupled s) (hl : t.launched = s.launched)
    (hf : SameFutures s.ledger t.ledger) (hn : s.history.nextFuture ≤ t.history.nextFuture)
    (ha : t.history.acceptedTask = s.history.acceptedTask)
    (hr : t.history.resolutions = s.history.resolutions) : Coupled t where
  covers f hlt := by
    rw [hl]
    exact h.covers f (hf.1 ▸ hlt)
  injective := hl ▸ h.injective
  bound g f hg := by
    rw [hl] at hg
    rw [hf.1]
    exact ⟨(h.bound g f hg).1, Nat.lt_of_lt_of_le (h.bound g f hg).2 hn⟩
  accepted g u hu := by
    rw [ha] at hu
    obtain ⟨f, hg, ht⟩ := h.accepted g u hu
    exact ⟨f, hl ▸ hg, (hf.2 f).1.trans ht⟩
  outcome g f hg := by
    rw [hl] at hg
    rw [(hf.2 f).2.1, hr]
    exact h.outcome g f hg
  refused g f hg hu := by
    rw [hl] at hg
    rw [ha] at hu
    rw [hr]
    exact h.refused g f hg hu

/-- The same futures, whoever has taken them. -/
structure Alike (h h' : PoolModel.History (User ι)) : Prop where
  nextFuture : h'.nextFuture = h.nextFuture
  acceptedTask : h'.acceptedTask = h.acceptedTask
  received : h'.received = h.received
  resolutions : h'.resolutions = h.resolutions

/-- A step of the pool alone makes no future and receives nothing; it settles at most one
future. -/
theorem alone_history {s : PoolModel.State (User ι)} {b : PoolModel.Event (User ι)}
    (own : alone b = true) :
    settles b = none ∧ Alike s.history (PoolModel.next s b).history ∨
      ∃ g res, settles b = some g ∧
        (PoolModel.next s b).history = s.history.settle g res := by
  cases b
  case execute | receive | resultCrash | registerHandler => cases own
  case deliver f m =>
    cases f with
    | none => exact .inl ⟨rfl, rfl, rfl, rfl, rfl⟩
    | some f => exact .inr ⟨f, _, rfl, rfl⟩
  case fail i f rest w => exact .inr ⟨f, _, rfl, rfl⟩
  case closeFail i f rest => exact .inr ⟨f, _, rfl, rfl⟩
  case exitFail f rest r rd => exact .inr ⟨f, _, rfl, rfl⟩
  case shutdownFail f rest r rd => exact .inr ⟨f, _, rfl, rfl⟩
  all_goals
    refine .inl ⟨rfl, ?_⟩
    simp only [PoolModel.next, PoolModel.registerNext, PoolModel.ensureNext, PoolModel.launchNext,
      PoolModel.awaitReadyNext, PoolModel.publishNext, PoolModel.unregisterNext,
      PoolModel.disposeNext, PoolModel.closeCallNext, PoolModel.closeProbeNext,
      PoolModel.closeStopNext, PoolModel.closeTakeNext, PoolModel.joinResultNext,
      PoolModel.closeQueueNext, PoolModel.queuesClosed, PoolModel.closeLogsNext, PoolModel.waitNext,
      PoolModel.checkNext, PoolModel.inspectNext, PoolModel.handleExitNext, PoolModel.dispatchNext,
      PoolModel.recordNext, PoolModel.relaunchNext, PoolModel.awaitRestartNext,
      PoolModel.completeNext, PoolModel.stopFailedNext, PoolModel.rescheduleNext,
      PoolModel.shutdownSignalNext, PoolModel.shutdownStopNext, PoolModel.shutdownTakeNext,
      PoolModel.shutdownLogsNext]
    repeat' split
  all_goals exact ⟨rfl, rfl, rfl, rfl⟩

section Scheduler

variable {x y : SchedulerModel.State ι} {a : Thread ι} {u : TaskId} {request : TaskRequest}
  {f : SchedulerState.FutureId} {o : Outcome}

theorem resolve_step (h : SchedulerModel.Step x (.resolve f o) y) :
    f < x.shared.ledger.nextFuture ∧ (x.shared.ledger.futures f).outcome = none ∧
    y.shared.ledger = x.shared.ledger.modify f fun z => { z with outcome := some o } := by
  rcases SchedulerLocks.step_cases h with ⟨i, k, he, _⟩ | ⟨a, c, z, he, _⟩ |
    ⟨g, q, he, hf, hn, rfl⟩ | ⟨w, he, _⟩ | ⟨d, he, _⟩
  · cases he
  · cases he
  · cases he
    exact ⟨hf, hn, rfl⟩
  · cases he
  · cases he

theorem launch_step (hp : x.pc a = .executing u request)
    (h : SchedulerModel.Step x (.step a .go) y) :
    y = x.goto a ({ x.shared with ledger := x.shared.ledger.launch u },
      .addingCallback u x.shared.ledger.nextFuture) := by
  rcases SchedulerLocks.step_cases h with ⟨i, k, he, _⟩ | ⟨b, c, z, he, _, hz, rfl⟩ |
    ⟨g, q, he, _⟩ | ⟨w, he, _⟩ | ⟨d, he, _⟩
  · cases he
  · cases he
    rw [hp] at hz
    cases hz
    rfl
  · cases he
  · cases he
  · cases he

theorem aside_futures {b : SchedulerModel.Event ι} (own : aside x b = true)
    (h : SchedulerModel.Step x b y) : SameFutures x.shared.ledger y.shared.ledger := by
  rcases step_futures h with hs | ⟨a, u, request, rfl, hp, _⟩ | ⟨f, o, rfl, _⟩
  · exact hs
  · simp [aside, hp] at own
  · cases own

theorem raises_futures {w : Raised} (h : SchedulerModel.Step x (.step a (.raises w)) y) :
    SameFutures x.shared.ledger y.shared.ledger := by
  rcases step_futures h with hs | ⟨b, u, request, he, _⟩ | ⟨f, o, he, _⟩
  · exact hs
  · cases he
  · cases he

theorem closing_futures {c : SchedulerModel.Choice} {timeout : ℤ} {workers : List ℕ}
    (hp : x.pc a = .closingStrategy timeout workers)
    (h : SchedulerModel.Step x (.step a c) y) :
    SameFutures x.shared.ledger y.shared.ledger := by
  rcases step_futures h with hs | ⟨b, u, request, he, hp', _⟩ | ⟨f, o, he, _⟩
  · exact hs
  · cases he
    cases hp.symm.trans hp'
  · cases he

end Scheduler

omit [DecidableEq ι] in
theorem receive_history (p : PoolModel.State (User ι)) (m : WorkerResultMessage) :
    (PoolModel.receiveNext p m).history.nextFuture = p.history.nextFuture ∧
    (PoolModel.receiveNext p m).history.acceptedTask = p.history.acceptedTask ∧
    (PoolModel.receiveNext p m).history.resolutions = p.history.resolutions ∧
    (PoolModel.receiveNext p m).history.received = m :: p.history.received := by
  unfold PoolModel.receiveNext
  dsimp only
  split <;> exact ⟨rfl, rfl, rfl, rfl⟩

omit [DecidableEq ι] in
/-- A new future of the scheduler's is the new future of the pool's. -/
theorem Coupled.launch (h : Coupled s) (hd : Delivery s.wire.state) {u : TaskId}
    {o : Option Outcome} (hl : t.launched =
      Function.update s.launched s.history.nextFuture (some s.ledger.nextFuture))
    (hn : t.ledger.nextFuture = s.ledger.nextFuture + 1)
    (hf : ∀ f, (t.ledger.futures f).task =
        (if f = s.ledger.nextFuture then u else (s.ledger.futures f).task) ∧
      (t.ledger.futures f).outcome =
        if f = s.ledger.nextFuture then o else (s.ledger.futures f).outcome)
    (hg : t.history.nextFuture = s.history.nextFuture + 1)
    (ha : t.history.acceptedTask = s.history.acceptedTask ∧ o ≠ none ∨
      t.history.acceptedTask =
        Function.update s.history.acceptedTask s.history.nextFuture (some u))
    (hr : ∀ g, g ≠ s.history.nextFuture → t.history.resolutions g = s.history.resolutions g)
    (ho : o = (t.history.resolutions s.history.nextFuture).head?.map outcomeOf) :
    Coupled t := by
  have old : ∀ g f, s.launched g = some f →
      g ≠ s.history.nextFuture ∧ f ≠ s.ledger.nextFuture := fun g f hgf =>
    ⟨Nat.ne_of_lt (h.bound g f hgf).2, Nat.ne_of_lt (h.bound g f hgf).1⟩
  have cases_ : ∀ g f, t.launched g = some f →
      g = s.history.nextFuture ∧ f = s.ledger.nextFuture ∨
        g ≠ s.history.nextFuture ∧ s.launched g = some f := by
    intro g f hgf
    rw [hl, Function.update_apply] at hgf
    split at hgf
    · exact .inl ⟨‹_›, (Option.some.inj hgf).symm⟩
    · exact .inr ⟨‹_›, hgf⟩
  have fresh := (hd.unused s.history.nextFuture le_rfl).1
  refine ⟨fun f hlt => ?_, fun g g' f hgf hgf' => ?_, fun g f hgf => ?_, fun g v hv => ?_,
    fun g f hgf => ?_, fun g f hgf hv => ?_⟩
  · rw [hl]
    rw [hn] at hlt
    by_cases hnew : f = s.ledger.nextFuture
    · exact ⟨s.history.nextFuture, hnew ▸ Function.update_self ..⟩
    · obtain ⟨g, hgf⟩ := h.covers f (Nat.lt_of_le_of_ne (Nat.lt_succ_iff.mp hlt) hnew)
      exact ⟨g, (Function.update_of_ne (old g f hgf).1 ..).trans hgf⟩
  · rcases cases_ g f hgf with ⟨rfl, rfl⟩ | ⟨_, hs⟩
    · rcases cases_ g' _ hgf' with ⟨rfl, _⟩ | ⟨_, hs'⟩
      · rfl
      · exact absurd rfl (old g' _ hs').2
    · rcases cases_ g' f hgf' with ⟨_, rfl⟩ | ⟨_, hs'⟩
      · exact absurd rfl (old g _ hs).2
      · exact h.injective g g' f hs hs'
  · rw [hn, hg]
    rcases cases_ g f hgf with ⟨rfl, rfl⟩ | ⟨_, hs⟩
    · exact ⟨Nat.lt_succ_self _, Nat.lt_succ_self _⟩
    · exact ⟨Nat.lt_succ_of_lt (h.bound g f hs).1, Nat.lt_succ_of_lt (h.bound g f hs).2⟩
  · rcases ha with ⟨ha, _⟩ | ha <;> rw [ha] at hv
    · obtain ⟨f, hgf, ht⟩ := h.accepted g v hv
      refine ⟨f, by rw [hl, Function.update_of_ne (old g f hgf).1]; exact hgf, ?_⟩
      rw [(hf f).1, if_neg (old g f hgf).2]
      exact ht
    · rw [Function.update_apply] at hv
      split at hv
      · rename_i hnew
        refine ⟨s.ledger.nextFuture, ?_, ?_⟩
        · rw [hl, hnew, Function.update_self]
        · rw [(hf _).1, if_pos rfl]
          exact Option.some.inj hv
      · obtain ⟨f, hgf, ht⟩ := h.accepted g v hv
        refine ⟨f, by rw [hl, Function.update_of_ne (old g f hgf).1]; exact hgf, ?_⟩
        rw [(hf f).1, if_neg (old g f hgf).2]
        exact ht
  · rcases cases_ g f hgf with ⟨rfl, rfl⟩ | ⟨hne, hs⟩
    · rw [(hf _).2, if_pos rfl]
      exact ho
    · rw [(hf f).2, if_neg (old g f hs).2, hr g hne]
      exact h.outcome g f hs
  · rcases cases_ g f hgf with ⟨rfl, rfl⟩ | ⟨hne, hs⟩
    · rcases ha with ⟨_, hsome⟩ | ha
      · intro hnil
        rw [hnil] at ho
        exact hsome ho
      · rw [ha, Function.update_self] at hv
        cases hv
    · rw [hr g hne]
      refine h.refused g f hs ?_
      rcases ha with ⟨ha, _⟩ | ha
      · exact (congrFun ha g).symm.trans hv
      · rw [ha, Function.update_of_ne hne] at hv
        exact hv

/-- A future of the pool's is settled, and with it the scheduler's. -/
theorem Coupled.settled (h : Coupled s) {g : PoolState.FutureId} {res : PoolModel.Resolution}
    {w : Wire (User ι)} {x : SchedulerModel.State ι} (hl : t.launched = s.launched)
    (hs : t.scheduler = x) (hw : t.wire = w)
    (hx : settle s w (some g) = some x)
    (hh : w.state.history = s.history.settle g res) (hn : s.history.resolutions g = []) :
    Coupled t := by
  have resolved : ∀ g', t.history.resolutions g' =
      if g' = g then [res] else s.history.resolutions g' := by
    intro g'
    rw [State.history, hw, hh]
    by_cases hg : g' = g
    · subst hg
      simp [PoolModel.History.settle, hn]
    · simp [PoolModel.History.settle, hg]
  have next : t.history.nextFuture = s.history.nextFuture := by
    rw [State.history, hw, hh]
    rfl
  have accepted : t.history.acceptedTask = s.history.acceptedTask := by
    rw [State.history, hw, hh]
    rfl
  have last : (w.state.history.resolutions g).getLast? = some res := by
    have := resolved g
    rw [State.history, hw, if_pos rfl] at this
    rw [this]
    rfl
  have futures : t.ledger.nextFuture = s.ledger.nextFuture ∧ ∀ f, (t.ledger.futures f).task =
      (s.ledger.futures f).task ∧ (t.ledger.futures f).outcome =
        if s.launched g = some f then some (outcomeOf res) else (s.ledger.futures f).outcome := by
    unfold settle at hx
    dsimp only at hx
    rw [last] at hx
    cases hg : s.launched g with
    | none =>
      rw [hg] at hx
      cases hx
      rw [State.ledger, hs]
      exact ⟨rfl, fun f => ⟨rfl, rfl⟩⟩
    | some f =>
      rw [hg] at hx
      obtain ⟨_, _, hledger⟩ := resolve_step hx
      rw [State.ledger, hs, hledger]
      refine ⟨rfl, fun f' => ?_⟩
      rw [resolve_future]
      by_cases hf : f' = f
      · subst hf
        simp
      · rw [if_neg hf, if_neg fun he => hf (Option.some.inj he).symm]
        exact ⟨rfl, rfl⟩
  refine ⟨?_, hl ▸ h.injective, ?_, fun g' u hu => ?_, fun g' f hg => ?_, fun g' f hg hu => ?_⟩
  · rw [hl, futures.1]
    exact h.covers
  · rw [hl, futures.1, next]
    exact h.bound
  · rw [accepted] at hu
    obtain ⟨f, hg, ht⟩ := h.accepted g' u hu
    exact ⟨f, hl ▸ hg, (futures.2 f).1.trans ht⟩
  · rw [hl] at hg
    rw [(futures.2 f).2, resolved]
    by_cases hgg : g' = g
    · subst hgg
      rw [if_pos hg, if_pos rfl]
      rfl
    · rw [if_neg fun he => hgg (h.injective g' g f hg he), if_neg hgg]
      exact h.outcome g' f hg
  · rw [hl] at hg
    rw [accepted] at hu
    rw [resolved]
    split
    · exact List.cons_ne_nil _ _
    · exact h.refused g' f hg hu

theorem coupled_next (hr : (deployment keys memory ι).Reachable s) (h : Coupled s)
    (hst : (deployment keys memory ι).step s e t) : Coupled t := by
  have hd := reachable_delivery (pool_alone hr)
  have hd' := reachable_delivery (pool_alone (hr.next hst))
  have same := SameFutures.refl s.ledger
  cases next_change hst.2 with
  | scheduler b x own hx => exact h.frame rfl (aside_futures own hx) le_rfl rfl rfl
  | assigned a putRaises u request r x hp hx hstep =>
    obtain ⟨stage, hst⟩ := stages (scheduler_alone hr)
    have named := reachable_named (honest_single (scheduler_alone hr)) (own_backend hr)
    have hid := (executing_named hst named hp).1
    cases launch_step hp hstep
    have hist := execute_assigned (s := s.wire.state) hx
    refine h.launch hd (u := u) (o := none) rfl rfl (fun f => ?_) ?_ (.inr ?_)
      (fun g _ => ?_) ?_
    · show ((s.ledger.launch u).futures f).task = _ ∧ ((s.ledger.launch u).futures f).outcome = _
      rw [launch_future]
      split <;> exact ⟨rfl, rfl⟩
    · exact congrArg PoolModel.History.nextFuture hist
    · rw [← hid]
      exact congrArg PoolModel.History.acceptedTask hist
    · exact congrFun (congrArg PoolModel.History.resolutions hist) g
    · have none := (hd.unused s.history.nextFuture le_rfl).2.2
      have kept := congrFun (congrArg PoolModel.History.resolutions hist) s.history.nextFuture
      exact (congrArg (fun l => (List.head? l).map outcomeOf) (kept.trans none)).symm
  | rejected a putRaises u request w x y hp hx hstep hy =>
    cases launch_step hp hstep
    obtain ⟨_, _, hledger⟩ := resolve_step hy
    have hist := execute_refused (s := s.wire.state) hx
    have none := (hd.unused s.history.nextFuture le_rfl).2.2
    refine h.launch hd (u := u) (o := some (.exception (.platform w))) rfl ?_ (fun f => ?_)
      ?_ (.inl ⟨?_, by nofun⟩) (fun g hg => ?_) ?_
    · show y.shared.ledger.nextFuture = _
      rw [hledger]
      rfl
    · show (y.shared.ledger.futures f).task = _ ∧ (y.shared.ledger.futures f).outcome = _
      rw [hledger, SchedulerModel.goto_shared]
      dsimp only
      rw [resolve_future, launch_future, launch_future]
      by_cases hf : f = s.ledger.nextFuture
      · simp [hf]
      · simp [hf]
    · show (PoolModel.executeNext s.wire.state request putRaises).history.nextFuture = _
      rw [hist]
      rfl
    · show (PoolModel.executeNext s.wire.state request putRaises).history.acceptedTask = _
      rw [hist]
      rfl
    · show (PoolModel.executeNext s.wire.state request putRaises).history.resolutions g = _
      rw [hist]
      exact Function.update_of_ne hg ..
    · show _ = ((PoolModel.executeNext s.wire.state request putRaises).history.resolutions
        s.history.nextFuture).head?.map outcomeOf
      rw [hist]
      simp [PoolModel.History.settle, none, outcomeOf]
  | raised a putRaises u request w x hp hx hstep =>
    have hist := execute_thrown (s := s.wire.state) hx
    refine h.frame rfl (raises_futures hstep) ?_ ?_ ?_
    · show _ ≤ (PoolModel.executeNext s.wire.state request putRaises).history.nextFuture
      rw [hist]
      exact Nat.le_succ _
    · show (PoolModel.executeNext s.wire.state request putRaises).history.acceptedTask = _
      rw [hist]
    · show (PoolModel.executeNext s.wire.state request putRaises).history.resolutions = _
      rw [hist]
  | closed i c timeout workers x hp hx =>
    exact h.frame rfl (closing_futures hp hx) le_rfl rfl rfl
  | boot | serve | lose | drop | garble => exact h.frame rfl same le_rfl rfl rfl
  | add definition => exact h.frame rfl same le_rfl rfl rfl
  | close i open_ he =>
    have hist : (PoolModel.closeCallNext s.wire.state (.client i) .own).history = s.history := by
      unfold PoolModel.closeCallNext
      split <;> rfl
    refine h.frame rfl same ?_ ?_ ?_
    · exact (congrArg PoolModel.History.nextFuture hist).ge
    · exact congrArg PoolModel.History.acceptedTask hist
    · exact congrArg PoolModel.History.resolutions hist
  | receive o m he =>
    obtain ⟨hn, ha, hres, _⟩ := receive_history s.wire.state m
    exact h.frame rfl same hn.ge ha hres
  | pool b child x own hh he hc hx =>
    rcases alone_history (s := s.wire.state) own with ⟨hnone, alike⟩ | ⟨g, res, hsome, hist⟩
    · rw [hnone] at hx
      cases hx
      exact h.frame rfl same alike.nextFuture.ge alike.acceptedTask alike.resolutions
    · rw [hsome] at hx
      refine h.settled (w := wireNext s.wire (.step b)) rfl rfl rfl hx hist ?_
      have once : ((PoolModel.next s.wire.state b).history.resolutions g).length ≤ 1 :=
        hd'.once g
      rw [hist] at once
      simpa [PoolModel.History.settle] using once

theorem reachable_coupled (h : (deployment keys memory ι).Reachable s) : Coupled s := by
  refine System.invariant_reachable ?_ (fun _ _ _ hr hs hst => coupled_next hr hs hst) h
  rintro s ⟨config, definitions, groups, p, pipe, logs, load, _, rfl⟩
  exact ⟨fun f hf => absurd hf (Nat.not_lt_zero f), fun _ _ _ hg => (by cases hg),
    fun _ _ hg => (by cases hg), fun _ _ hu => (by cases hu), fun _ _ hg => (by cases hg),
    fun _ _ hg => (by cases hg)⟩

/-! ## A deployment of one worker -/

section Sample

def noItems : Items := ⟨[], List.nodup_nil⟩

/-- What the handler's definition refers to: an empty mapping, and the chain of it and the runtime
context of the worker. -/
def echoHeap : Heap
  | 0 => .mapping noItems
  | 1 => .mapping (chainMap (Key.text "runtime_context") (.ref 2) noItems)
  | _ => .mapping (workerContext "g" "g_R0")

/-- There is room for these alone. -/
def echoAllocate : Node → Option ℕ
  | .mapping items =>
    if items.entries = (workerContext "g" "g_R0").entries then some 2
    else if items.entries = [(Key.text "runtime_context", .ref 2)] then some 1
    else none
  | _ => none

def echo (mode : ReuseMode) : HandlerDefinition where
  handlerName := "h"
  entrypoint := "app:Echo"
  initContext := .ref 0
  initKwargs := .ref 0
  metadata := .ref 0
  reuseMode := mode

abbrev echoKeys : CacheKeys := heapKeys CacheTexts.sample_texts echoHeap 100

def echoMemory : Memory where
  heap := echoHeap
  allocate := echoAllocate
  holds node id h := by
    unfold echoAllocate at h
    split at h
    · rename_i items
      have same : ∀ other : Items, items.entries = other.entries → items = other := by
        intro other heq
        cases items
        cases other
        cases heq
        rfl
      split at h
      · rename_i heq
        cases h
        exact congrArg Node.mapping (same _ heq).symm
      · split at h
        · rename_i heq
          cases h
          exact congrArg Node.mapping (same _ heq).symm
        · cases h
    · cases h

/-- The state after `es`, with one worker, which caches the handler. -/
def deployedAfter (config : SchedulerConfig) (es : List (Deployment.Event Unit)) :
    Option (Deployment.State Unit) :=
  replay (next echoKeys echoMemory) Deployment.Fresh es
    (deployed echoKeys echoMemory config (registryOf [echo .workerCached])
      (PoolModel.constructed ["h"] [sampleGroup]) .wide {} fun _ _ => none)

/-- The worker of the sample is started, and its process gets ready. -/
theorem echo_starts : (construct ["h"] [sampleGroup]).isOk = true ∧
    (registryOf [echo .workerCached]).list.map HandlerDefinition.handlerName = ["h"] ∧
    ∀ r ∈ (PoolModel.constructed ["h"] [sampleGroup]).workers.values,
      (firstChild echoKeys echoMemory (registryOf [echo .workerCached])
        ((PoolModel.constructed ["h"] [sampleGroup]).heap r) fun _ => none).isServing = true := by
  decide +kernel

theorem echo_ready : Ready echoKeys echoMemory (registryOf [echo .workerCached]) [sampleGroup]
    (PoolModel.constructed ["h"] [sampleGroup]) fun _ _ => none where
  construct := by
    rw [echo_starts.2.1]
    unfold PoolModel.constructed
    cases hc : construct ["h"] [sampleGroup] with
    | error e =>
      have started := echo_starts.1
      rw [hc] at started
      cases started
    | ok p => rfl
  serving := echo_starts.2.2

theorem echo_spec {config : SchedulerConfig} {es : List (Deployment.Event Unit)}
    {p : Deployment.State Unit → Bool} (h : (deployedAfter config es).any p = true) :
    ∃ s, (deployment echoKeys echoMemory Unit).Reachable s ∧ p s = true := by
  obtain ⟨s, hs, hp⟩ := (Option.any_eq_true _ _).mp h
  exact ⟨s, ⟨_, ⟨_, _, _, _, _, _, _, echo_ready, rfl⟩, replay_execution hs⟩, hp⟩

def scheduled (es : List (SchedulerModel.Event Unit)) : List (Deployment.Event Unit) :=
  es.map .scheduler

/-- A task is submitted, and its request put on the queue of the worker's process. -/
def dispatched : List (Deployment.Event Unit) :=
  scheduled (SchedulerRequests.firstSubmit () (SchedulerRequests.sampleJob "t") ++
    SchedulerRequests.turns (.worker 0) 7) ++
  [.execute (.worker 0) [], .scheduler (.step (.worker 0) .go)]

def echoed : WorkerResultMessage where
  ok := true
  taskId := "t"
  workerId := "g_R0"
  generation := 1
  payload := some {
    taskId := "t"
    output := [("echo", "hello")]
    diagnostics := [("handler_name", "h")] }

/-- The process answers the request. -/
def served : List (Deployment.Event Unit) :=
  dispatched ++ [.serve (0, 1) none (.ok [("echo", "hello")]) none]

def answered : List (Deployment.Event Unit) :=
  served ++ [.receive (0, 1) echoed]

def completed : List (Deployment.Event Unit) :=
  answered ++ .pool (.deliver (some 0) echoed) ::
    scheduled (SchedulerRequests.turns (.callback 0) 9)

/-- A second task, which the same process serves after the first. -/
def again : List (Deployment.Event Unit) :=
  completed ++ scheduled (.call () (.submit (SchedulerRequests.sampleJob "u")) ::
    SchedulerRequests.turns (.client ()) 10 ++ SchedulerRequests.turns (.worker 0) 6) ++
  [.execute (.worker 0) [], .serve (0, 1) none (.ok []) none]

def overcast : Raised := .other "overcast"

def apology : WorkerResultMessage where
  ok := false
  taskId := "t"
  workerId := "g_R0"
  generation := 1
  errorCode := some .internalError
  errorMessage := some "overcast"

/-- The handler of the task raises. -/
def broken : List (Deployment.Event Unit) :=
  dispatched ++ [.serve (0, 1) none (.error overcast) none, .receive (0, 1) apology,
    .pool (.deliver (some 0) apology)] ++
  scheduled (SchedulerRequests.turns (.callback 0) 9)

/-- What the runs of the sample lead to. -/
theorem echo_runs :
    (deployedAfter { numThreads := 1 } dispatched).any (fun s => decide (
      s.pool.futures.get? "t" = some 0 ∧
      (s.ledger.record "t").any (fun r => decide (r.status = .running)) = true)) = true ∧
    (deployedAfter { numThreads := 1 } served).any (fun s => decide (
      s.services.map (fun v => (v.request.taskId, v.process)) = [("t", (0, 1))] ∧
      ((0, 1), echoed) ∈ s.wire.waiting ∧ (takeResult s.pool echoed).2 = some (some 0))) = true ∧
    (deployedAfter { numThreads := 1 } completed).any (fun s => decide (
      s.scheduler.locks .threads = none ∧
      s.ledger.backend.records.values.map TaskRecord.status = [.completed] ∧
      (s.ledger.record "t").any (fun r => decide (r.status = .completed)) = true ∧
      (s.pool.heap 0).group.name = "g" ∧ (s.pool.heap 0).workerId = "g_R0" ∧
      s.added = [echo .workerCached] ∧
      ∃ v ∈ s.services, v.process = (0, 1) ∧ v.execution.ran.isSome = true)) = true ∧
    (deployedAfter { numThreads := 1 } again).any (fun s => decide (
      s.services.map (fun v => (v.request.taskId, v.process)) = [("t", (0, 1)), ("u", (0, 1))] ∧
      ∀ v ∈ s.services, v.request.handlerName = "h" ∧
        v.execution.ran.any (fun x => decide (x.1.reuseMode = .workerCached)) = true)) = true ∧
    (deployedAfter { numThreads := 1 } broken).any (fun s => decide (
      (s.ledger.record "t").any (fun r => decide (r.status = .failed ∧
        r.errorMessage = some "Execution failed: overcast")) = true)) = true := by
  decide +kernel

end Sample

end Coupling
