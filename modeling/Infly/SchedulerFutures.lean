import Infly.TaskLife

/-! # Futures, requests and reasons

What a run keeps about the futures that the strategy returned: who attends to one that has no
outcome yet, and that no two are about one task. Then the request that a task is executed with,
and the reason that a failed record gives.
-/
namespace SchedulerFutures

open Contracts TaskBackend SchedulerState SchedulerModel SchedulerLocks SchedulerLedger
  SchedulerDuties SchedulerStages SchedulerAccounts SchedulerRequests TaskLife Transitions

variable {ι : Type} [DecidableEq ι] {s s' : State ι} {stage : TaskId → Stage ι} {a b : Thread ι}
  {p : Pc} {c : Choice} {sh : Shared ι} {x : Shared ι × Pc} {e : Event ι} {L : Ledger}
  {t u : TaskId} {f g : FutureId} {r : TaskRecord} {request : TaskRequest}

/-! ## Steps and futures -/

/-- The same futures; callbacks may have been registered. -/
def SameFutures (L L' : Ledger) : Prop :=
  L'.nextFuture = L.nextFuture ∧ ∀ f, (L'.futures f).task = (L.futures f).task ∧
    (L'.futures f).outcome = (L.futures f).outcome ∧
    ((L.futures f).registered = true → (L'.futures f).registered = true)

theorem SameFutures.refl (L : Ledger) : SameFutures L L :=
  ⟨rfl, fun _ => ⟨rfl, rfl, fun h => h⟩⟩

omit [DecidableEq ι] in
theorem store_futures (L : Ledger) (request : TaskRequest) (priority : ℤ) :
    SameFutures L (L.store request priority).2 := by
  unfold Ledger.store
  split <;> exact ⟨rfl, fun _ => ⟨rfl, rfl, fun h => h⟩⟩

/-- Only `strategy.execute` makes a future, and no thread sets an outcome. -/
theorem turn_futures (h : act sh a p c = some x) :
    (∃ t request, p = .executing t request ∧ c = .go ∧
      x = ({ sh with ledger := sh.ledger.launch t }, .addingCallback t sh.ledger.nextFuture)) ∨
    SameFutures sh.ledger x.1.ledger := by
  have same := SameFutures.refl sh.ledger
  cases p <;> cases c <;> simp only [act, advance, throwing, expire, reduceCtorEq] at h
  case executing.go t request =>
    cases h
    exact .inl ⟨t, request, rfl, rfl, rfl⟩
  case storing.go job =>
    cases h
    exact .inr (store_futures ..)
  case notifying.go n =>
    cases h
    cases n <;> exact .inr same
  case addingCallback.go t g =>
    split at h <;> cases h
    · refine .inr ⟨rfl, fun f => ?_⟩
      by_cases hf : f = g
      · subst hf
        simp [Ledger.modify]
      · simp [Ledger.modify, hf]
    · exact .inr same
  all_goals repeat' split at h
  all_goals cases h
  all_goals exact .inr same

/-- `strategy.execute` makes futures, and the strategy sets their outcomes. -/
theorem step_futures (hs : Step s e s') :
    SameFutures s.shared.ledger s'.shared.ledger ∨
    (∃ a t request, e = .step a .go ∧ s.pc a = .executing t request ∧
      s' = s.goto a ({ s.shared with ledger := s.shared.ledger.launch t },
        .addingCallback t s.shared.ledger.nextFuture)) ∨
    ∃ f o, e = .resolve f o ∧ f < s.shared.ledger.nextFuture ∧
      (s.shared.ledger.futures f).outcome = none ∧
      s' = { s with shared := { s.shared with
        ledger := s.shared.ledger.modify f fun x => { x with outcome := some o } } } := by
  have same := SameFutures.refl s.shared.ledger
  rcases step_cases hs with ⟨i, k, rfl, _, rfl⟩ | ⟨a, c, x, rfl, _, hx, rfl⟩ |
    ⟨f, o, rfl, hf, hn, rfl⟩ | ⟨w, rfl, _, rfl⟩ | ⟨d, rfl, rfl⟩
  · cases k <;> exact .inl same
  · rcases turn_futures hx with ⟨t, request, hp, rfl, rfl⟩ | hsame
    · exact .inr (.inl ⟨a, t, request, rfl, hp, rfl⟩)
    · exact .inl hsame
  · exact .inr (.inr ⟨f, o, rfl, hf, hn, rfl⟩)
  · exact .inl same
  · exact .inl same

/-! ## Who attends to a future -/

/-- A future without an outcome has its callback registered, which has not run, or a thread is
about to register it. No two futures are about one task. -/
structure Futures (s : State ι) : Prop where
  attended : ∀ f, f < s.shared.ledger.nextFuture → (s.shared.ledger.futures f).outcome = none →
    (s.shared.ledger.futures f).registered = true ∧ s.pc (.callback f) = .uncalled ∨
      ∃ a, s.pc a = .addingCallback (s.shared.ledger.futures f).task f
  distinct : ∀ f g, f < s.shared.ledger.nextFuture → g < s.shared.ledger.nextFuture →
    (s.shared.ledger.futures f).task = (s.shared.ledger.futures g).task → f = g

/-- A thread that leaves a future without an outcome has registered the callback. -/
theorem attended_turn (h : Staged s stage) (hx : act s.shared a (s.pc a) c = some x)
    (hn : (s.shared.ledger.futures f).outcome = none) :
    (s.pc a = .addingCallback (s.shared.ledger.futures f).task f →
      (x.1.ledger.futures f).registered = true ∧ s.pc (.callback f) = .uncalled ∧
        a ≠ .callback f) ∧
    ((s.shared.ledger.futures f).registered = true → s.pc (.callback f) = .uncalled →
      (x.1.ledger.futures f).registered = true ∧ a ≠ .callback f) := by
  constructor
  · intro hp
    have ran : (s.shared.ledger.futures f).registered = false :=
      (h.level (a := a) (t := (s.shared.ledger.futures f).task) (l := .ran f)
        (by rw [hp]; rfl)).2.2.2
    have uncalled : s.pc (.callback f) = .uncalled := by
      by_contra hne
      cases ran.symm.trans (h.called f hne)
    have other : a ≠ .callback f := by
      rintro rfl
      cases hp.symm.trans uncalled
    rw [hp] at hx
    cases c with
    | go =>
      simp only [act, advance, hn] at hx
      cases hx
      exact ⟨by simp [Ledger.modify], uncalled, other⟩
    | raises e | timeout => cases hx
  · intro hreg hp
    have other : a ≠ .callback f := by
      rintro rfl
      rw [hp] at hx
      cases c with
      | go => simp [act, advance, hreg, hn] at hx
      | raises e | timeout => cases hx
    refine ⟨?_, other⟩
    rcases turn_futures hx with ⟨t, request, _, _, rfl⟩ | hsame
    · have hlt : f < s.shared.ledger.nextFuture := by
        by_contra hge
        cases (h.unused f (Nat.le_of_not_lt hge)).symm.trans hreg
      simpa [Ledger.launch, Ledger.call, Nat.ne_of_lt hlt] using hreg
    · exact (hsame.2 f).2.2 hreg

omit [DecidableEq ι] in
theorem launch_future (L : Ledger) (t : TaskId) (f : FutureId) :
    (L.launch t).futures f = if f = L.nextFuture then { task := t } else L.futures f := by
  simp only [Ledger.launch, Ledger.call, Function.update_apply]

omit [DecidableEq ι] in
theorem resolve_future (L : Ledger) (f g : FutureId) (o : Outcome) :
    (L.modify f fun x => { x with outcome := some o }).futures g =
      if g = f then { L.futures f with outcome := some o } else L.futures g := by
  simp only [Ledger.modify, Function.update_apply]

theorem attended_next (h : Staged s stage) (hf : Futures s) (hs : Step s e s')
    (hlt : f < s'.shared.ledger.nextFuture) (hn : (s'.shared.ledger.futures f).outcome = none) :
    (s'.shared.ledger.futures f).registered = true ∧ s'.pc (.callback f) = .uncalled ∨
      ∃ a, s'.pc a = .addingCallback (s'.shared.ledger.futures f).task f := by
  rcases step_cases hs with ⟨i, k, rfl, hr, rfl⟩ | ⟨a, c, x, rfl, _, hx, rfl⟩ |
    ⟨g, o, rfl, _, _, rfl⟩ | ⟨w, rfl, _, rfl⟩ | ⟨d, rfl, rfl⟩
  · have same : (k.enter s.shared).1.ledger.futures = s.shared.ledger.futures ∧
        (k.enter s.shared).1.ledger.nextFuture = s.shared.ledger.nextFuture := by
      cases k <;> exact ⟨rfl, rfl⟩
    rw [goto_shared, same.1] at hn ⊢
    rw [goto_shared, same.2] at hlt
    rcases hf.attended f hlt hn with ⟨hreg, hp⟩ | ⟨b, hb⟩
    · exact .inl ⟨hreg, (goto_pc_of_ne s (by nofun) _).trans hp⟩
    · refine .inr ⟨b, (goto_pc_of_ne s ?_ _).trans hb⟩
      rintro rfl
      rw [hb] at hr
      cases hr
  · rcases turn_futures hx with ⟨t, request, hp, rfl, rfl⟩ | ⟨hnext, hsame⟩
    · rw [goto_shared] at hlt hn ⊢
      simp only [launch_future] at hn ⊢
      by_cases hnew : f = s.shared.ledger.nextFuture
      · subst hnew
        rw [if_pos rfl]
        exact .inr ⟨a, goto_pc ..⟩
      · rw [if_neg hnew] at hn ⊢
        have hlt' : f < s.shared.ledger.nextFuture :=
          Nat.lt_of_le_of_ne (Nat.lt_succ_iff.mp hlt) hnew
        rcases hf.attended f hlt' hn with ⟨hreg, hc⟩ | ⟨b, hb⟩
        · refine .inl ⟨hreg, (goto_pc_of_ne s ?_ _).trans hc⟩
          rintro rfl
          cases hp.symm.trans hc
        · refine .inr ⟨b, (goto_pc_of_ne s ?_ _).trans hb⟩
          rintro rfl
          cases hp.symm.trans hb
    · rw [goto_shared] at hlt hn ⊢
      rw [hnext] at hlt
      rw [(hsame f).2.1] at hn
      rw [(hsame f).1]
      obtain ⟨leave, stay⟩ := attended_turn h hx hn
      rcases hf.attended f hlt hn with ⟨hreg, hc⟩ | ⟨b, hb⟩
      · obtain ⟨hreg', hne⟩ := stay hreg hc
        exact .inl ⟨hreg', (goto_pc_of_ne s (Ne.symm hne) _).trans hc⟩
      · by_cases hba : b = a
        · subst hba
          obtain ⟨hreg', hc, hne⟩ := leave hb
          exact .inl ⟨hreg', (goto_pc_of_ne s (Ne.symm hne) _).trans hc⟩
        · exact .inr ⟨b, (goto_pc_of_ne s hba _).trans hb⟩
  · simp only [resolve_future] at hn ⊢
    by_cases hg : f = g
    · rw [if_pos hg] at hn
      cases hn
    · rw [if_neg hg] at hn ⊢
      exact hf.attended f hlt hn
  · exact hf.attended f hlt hn
  · exact hf.attended f hlt hn

omit [DecidableEq ι] in
/-- The strategy is called for a task of which there is no future yet. -/
theorem executing_unlaunched (h : Staged s stage) (hp : s.pc a = .executing t request) :
    Running s.shared.ledger t ∧ s.shared.ledger.executed t = 0 ∧ Unlaunched s.shared.ledger t :=
  h.level (a := a) (l := .started) (by rw [hp]; rfl)

theorem distinct_next (h : Staged s stage) (hf : Futures s) (hs : Step s e s') {g : FutureId}
    (hlt : f < s'.shared.ledger.nextFuture) (hlt' : g < s'.shared.ledger.nextFuture)
    (ht : (s'.shared.ledger.futures f).task = (s'.shared.ledger.futures g).task) : f = g := by
  rcases step_futures hs with ⟨hnext, hsame⟩ | ⟨a, t, request, rfl, hp, rfl⟩ |
    ⟨k, o, rfl, _, _, rfl⟩
  · rw [hnext] at hlt hlt'
    rw [(hsame f).1, (hsame g).1] at ht
    exact hf.distinct f g hlt hlt' ht
  · obtain ⟨_, _, unlaunched⟩ := executing_unlaunched h hp
    rw [goto_shared] at hlt hlt' ht
    simp only [launch_future] at ht
    have old : ∀ k, k < (s.shared.ledger.launch t).nextFuture → k ≠ s.shared.ledger.nextFuture →
        k < s.shared.ledger.nextFuture := fun k hk hne =>
      Nat.lt_of_le_of_ne (Nat.lt_succ_iff.mp hk) hne
    by_cases hnf : f = s.shared.ledger.nextFuture
    · by_cases hng : g = s.shared.ledger.nextFuture
      · exact hnf.trans hng.symm
      · rw [if_pos hnf, if_neg hng] at ht
        exact absurd ht.symm (unlaunched g (old g hlt' hng))
    · by_cases hng : g = s.shared.ledger.nextFuture
      · rw [if_neg hnf, if_pos hng] at ht
        exact absurd ht (unlaunched f (old f hlt hnf))
      · rw [if_neg hnf, if_neg hng] at ht
        exact hf.distinct f g (old f hlt hnf) (old g hlt' hng) ht
  · have task : ∀ k', ((s.shared.ledger.modify k fun x => { x with outcome := some o }).futures
        k').task = (s.shared.ledger.futures k').task := by
      intro k'
      rw [resolve_future]
      split
      · rename_i hk
        rw [hk]
      · rfl
    exact hf.distinct f g hlt hlt' ((task f).symm.trans (ht.trans (task g)))

theorem reachable_futures (h : ((system ι).restrict Single).Reachable s) : Futures s := by
  refine System.invariant_reachable ?_ (fun u e v hr hu hst => ?_) h
  · rintro s ⟨config, b, _, rfl⟩
    exact ⟨fun f hf => absurd hf (Nat.not_lt_zero f), fun f g hf => absurd hf (Nat.not_lt_zero f)⟩
  · obtain ⟨stage, hstaged⟩ := (reachable_accounts hr).staged
    exact ⟨fun f hlt hn => attended_next hstaged hu hst.2 hlt hn,
      fun f g hlt hlt' ht => distinct_next hstaged hu hst.2 hlt hlt' ht⟩

omit [DecidableEq ι] in
/-- A task whose future has no outcome runs, and counts as outstanding. -/
theorem unresolved_running (h : Staged s stage) (hf : Futures s)
    (hlt : f < s.shared.ledger.nextFuture) (hn : (s.shared.ledger.futures f).outcome = none) :
    Running s.shared.ledger (s.shared.ledger.futures f).task ∧
      Launched s.shared.ledger (s.shared.ledger.futures f).task f := by
  rcases hf.attended f hlt hn with ⟨hreg, hp⟩ | ⟨a, hp⟩
  · have level := h.level (a := .callback f) (t := (s.shared.ledger.futures f).task)
      (l := .awaiting f) (by rw [hp]; simp [duty, hreg])
    exact ⟨level.1, level.2.2.1⟩
  · have level := h.level (a := a) (t := (s.shared.ledger.futures f).task) (l := .ran f)
      (by rw [hp]; rfl)
    exact ⟨level.1, level.2.2.1⟩

/-! ## Records -/

/-- The update that a step is about to make. -/
def updateOf : Pc → Option (TaskId × Backend.Update)
  | .running t _ => some (t, { status := .running })
  | .updating t m _ => some (t, m.update)
  | .sweeping t _ _ => some (t, stoppedBeforeStart)
  | _ => none

omit [DecidableEq ι] in
theorem updated_record (hw : L.backend.Wellformed) {now : ℕ} {y : Backend.Update}
    (hr : (L.update now t y).2.record t = some r) :
    ∃ r₀, L.record t = some r₀ ∧ r = y.apply r₀ := by
  cases hn : L.record t with
  | none =>
    have missing := Backend.updateStatus_missing (b := L.backend) hn now y
    simp only [Ledger.update, Ledger.record, missing] at hr
    cases hn.symm.trans hr
  | some r₀ =>
    refine ⟨r₀, rfl, ?_⟩
    rcases (update_ok hw hn now y).2.2.2.1 with hu | ⟨hu, _⟩
    · exact Option.some.inj (hr.symm.trans hu)
    · cases hu.symm.trans hr

omit [DecidableEq ι] in
theorem stored_record {request : TaskRequest} {priority : ℤ}
    (hr : (L.store request priority).2.record request.taskId = some r) :
    L.record request.taskId = some r ∨ L.record request.taskId = none ∧
      r = { taskId := request.taskId, request := request } := by
  cases hn : L.record request.taskId with
  | none => exact .inr ⟨rfl, Option.some.inj (hr.symm.trans (store_ok request hn priority).2.1)⟩
  | some r₀ =>
    refine .inl ?_
    have refused : (L.backend.submit { taskId := request.taskId, request := request }
        priority).1 ≠ .ok () := by
      have known : L.backend.records.contains request.taskId = true :=
        Dict.contains_iff.mpr (Dict.mem_keys.mpr ⟨r₀, hn⟩)
      simp [Backend.submit, known]
    rw [← hn, ← hr]
    unfold Ledger.store
    split
    · rename_i e b hb
      have raised : (L.backend.submit { taskId := request.taskId, request := request }
          priority).1 = .error e := by rw [hb]
      have same := Backend.submit_raises raised
      rw [hb] at same
      exact congrArg (fun b : Backend => b.records.get? request.taskId) same.symm
    · rename_i b hb
      exact absurd (by rw [hb]) refused

/-- A record after a step is the one before it, that record updated, or a new one. -/
theorem turn_record (hw : sh.ledger.backend.Wellformed) (h : act sh a p c = some x)
    (hr : x.1.ledger.record t = some r) :
    sh.ledger.record t = some r ∨
    (∃ job, p = .storing job ∧ job.task = t ∧ sh.ledger.record t = none ∧
      r = { taskId := t, request := job.request }) ∨
    ∃ y r₀, updateOf p = some (t, y) ∧ sh.ledger.record t = some r₀ ∧ r = y.apply r₀ := by
  by_cases hp : writes p = some t
  · cases p <;> simp only [writes, updates, Option.some.injEq, reduceCtorEq] at hp <;>
      cases c <;> simp only [act, advance, throwing, expire, reduceCtorEq] at h
    case pos.storing.go job =>
      cases h
      subst hp
      rcases stored_record hr with hr | ⟨hn, he⟩
      · exact .inl hr
      · exact .inr (.inl ⟨job, rfl, rfl, hn, he⟩)
    case pos.storing.raises =>
      cases h
      exact .inl hr
    all_goals
      cases h
      subst hp
      obtain ⟨r₀, hr₀, he⟩ := updated_record hw hr
      exact .inr (.inr ⟨_, r₀, rfl, hr₀, he⟩)
  · rcases turn_fades hw h hp with hf | ⟨hf, _⟩
    · exact .inl (hf.symm.trans hr)
    · cases hf.symm.trans hr

/-- A record keeps the request that it was stored with. -/
theorem request_kept (hw : s.shared.ledger.backend.Wellformed) (hs : Step s e s')
    {r' : TaskRecord} (hr : s.shared.ledger.record t = some r)
    (hr' : s'.shared.ledger.record t = some r') : r'.request = r.request := by
  rcases step_cases hs with ⟨i, k, rfl, _, rfl⟩ | ⟨a, c, x, rfl, _, hx, rfl⟩ |
    ⟨f, o, rfl, _, _, rfl⟩ | ⟨w, rfl, _, rfl⟩ | ⟨d, rfl, rfl⟩
  · have same : (s.goto (.client i) (k.enter s.shared)).shared.ledger.record t =
        s.shared.ledger.record t := by cases k <;> rfl
    cases hr.symm.trans (same.symm.trans hr')
    rfl
  · rcases turn_record hw hx hr' with hsame | ⟨job, _, _, hn, _⟩ | ⟨y, r₀, _, hr₀, rfl⟩
    · cases hr.symm.trans hsame
      rfl
    · cases hr.symm.trans hn
    · cases hr.symm.trans hr₀
      rfl
  · cases hr.symm.trans hr'
    rfl
  · cases hr.symm.trans hr'
    rfl
  · cases hr.symm.trans hr'
    rfl

/-- No record is stored for a task that has a future. -/
theorem launched_record (h : Staged s stage) (hs : Step s e s')
    (hf : f < s.shared.ledger.nextFuture) (hr : s'.shared.ledger.record t = some r)
    (ht : (s.shared.ledger.futures f).task = t) :
    ∃ r₀, s.shared.ledger.record t = some r₀ ∧ r.request = r₀.request := by
  cases hr₀ : s.shared.ledger.record t with
  | some r₀ => exact ⟨r₀, rfl, request_kept h.wellformed hs hr₀ hr⟩
  | none =>
    rcases step_cases hs with ⟨i, k, rfl, _, rfl⟩ | ⟨a, c, x, rfl, _, hx, rfl⟩ |
      ⟨g, o, rfl, _, _, rfl⟩ | ⟨w, rfl, _, rfl⟩ | ⟨d, rfl, rfl⟩
    · have same : (s.goto (.client i) (k.enter s.shared)).shared.ledger.record =
          s.shared.ledger.record := by cases k <;> rfl
      cases hr₀.symm.trans ((congrFun same t).symm.trans hr)
    · rcases turn_record h.wellformed hx hr with hr | ⟨job, hp, rfl, _, _⟩ | ⟨y, r₀, _, hr, _⟩
      · cases hr₀.symm.trans hr
      · have entered := h.level (a := a) (t := job.task) (l := .entered) (by rw [hp]; rfl)
        exact absurd ht (entered.1.unlaunched f hf)
      · cases hr₀.symm.trans hr
    · cases hr₀.symm.trans hr
    · cases hr₀.symm.trans hr
    · cases hr₀.symm.trans hr

/-! ## The request that a task is executed with -/

/-- The request that a worker thread read in its task's record. -/
def carried : Pc → Option (TaskId × TaskRequest)
  | .running t request | .executing t request => some (t, request)
  | .reporting (.started t request) | .tracing (.started t request) _ => some (t, request)
  | _ => none

theorem onward_carries (h : onward p = true) : carried p = none := by
  cases p <;> first
    | rfl
    | cases h

theorem turn_carried (h : act sh a p c = some x) (hx : carried x.2 = some (t, request)) :
    carried p = some (t, request) ∨
      p = .checking t ∧ x.1 = sh ∧ ∃ r, sh.ledger.record t = some r ∧ r.request = request := by
  have none_of : ∀ q, onward q = true → carried q = some (t, request) → False := by
    intro q hq hc
    cases (onward_carries hq).symm.trans hc
  cases p <;> cases c <;> simp only [act, advance, throwing, expire, reduceCtorEq] at h
  case tracing.go k event =>
    cases h
    cases k with
    | started u q => exact .inl hx
    | submitted job => cases hx
    | ended u m q => cases hx
  case reporting.go k =>
    cases h
    cases k with
    | started u q => exact .inl hx
    | submitted job => cases hx
    | ended u m q => cases hx
  case checking.go u =>
    cases h
    cases hr : sh.ledger.record u with
    | none =>
      simp only [hr] at hx
      exact (none_of _ (by simp [resumed_onward]) hx).elim
    | some r =>
      simp only [hr] at hx
      split at hx
      · cases hx
        exact .inr ⟨rfl, rfl, r, hr, rfl⟩
      · exact (none_of _ (by simp [resumed_onward]) hx).elim
  case running.go u q =>
    cases h
    dsimp only at hx
    split at hx
    · exact .inl hx
    · cases hx
  case notifying.go n =>
    cases h
    exact (none_of _ (afterNotify_onward ..) hx).elim
  case waitChecking.go q d =>
    cases h
    have := look_of q sh.clock d (sh.ledger.record q.task) (P := fun p => carried p = none)
      (fun _ hp => onward_carries (resumed_onward hp)) rfl fun _ => rfl
    cases this.symm.trans hx
  all_goals repeat' split at h
  all_goals cases h
  all_goals first
    | cases hx
    | exact (none_of _ (by simp [resumed_onward]) hx).elim

/-- Records are kept under the ids of their requests, and a thread executes a task with the
request in its record. -/
structure Named (s : State ι) : Prop where
  stored : ∀ t r, s.shared.ledger.record t = some r → r.request.taskId = t
  carried : ∀ a t request r, SchedulerFutures.carried (s.pc a) = some (t, request) →
    s.shared.ledger.record t = some r → r.request = request

omit [DecidableEq ι] in
/-- What a thread carries is in a record, and belongs to the thread. -/
theorem carried_held (h : Staged s stage) (hc : carried (s.pc a) = some (t, request)) :
    (∃ r, s.shared.ledger.record t = some r) ∧ ∃ l, stage t = .held a l ∧
      (l = .checked ∨ l = .started) := by
  have checked : duty s.shared.ledger a (s.pc a) = some (t, .checked) →
      (∃ r, s.shared.ledger.record t = some r) ∧ ∃ l, stage t = .held a l ∧
        (l = .checked ∨ l = .started) := fun hd =>
    ⟨(Waiting.record (h.level hd)).imp fun _ hr => hr.1, .checked, (h.owner a t _).mp hd, .inl rfl⟩
  have started : duty s.shared.ledger a (s.pc a) = some (t, .started) →
      (∃ r, s.shared.ledger.record t = some r) ∧ ∃ l, stage t = .held a l ∧
        (l = .checked ∨ l = .started) := fun hd =>
    ⟨(h.level hd).1.record.imp fun _ hr => hr.1, .started, (h.owner a t _).mp hd, .inr rfl⟩
  cases hp : s.pc a <;> rw [hp] at hc checked started <;>
    simp only [carried, Option.some.injEq, Prod.mk.injEq, reduceCtorEq] at hc
  case running u q =>
    obtain ⟨rfl, rfl⟩ := hc
    exact checked rfl
  case executing u q =>
    obtain ⟨rfl, rfl⟩ := hc
    exact started rfl
  case reporting k | tracing k event =>
    cases k <;> simp only [Option.some.injEq, Prod.mk.injEq, reduceCtorEq] at hc
    obtain ⟨rfl, rfl⟩ := hc
    exact started rfl

/-- A thread goes on with the request that is in the record, and the record keeps it. -/
theorem named_turn (h : Staged s stage) (hn : Named s)
    (hx : act s.shared a (s.pc a) c = some x) : Named (s.goto a x) := by
  have hw := h.wellformed
  refine ⟨fun t r hr => ?_, fun b t request r hc hr => ?_⟩
  · rw [goto_shared] at hr
    rcases turn_record hw hx hr with hr | ⟨job, _, rfl, _, rfl⟩ | ⟨y, r₀, _, hr₀, rfl⟩
    · exact hn.stored t r hr
    · rfl
    · exact hn.stored t r₀ hr₀
  · have before : carried (s.pc b) = some (t, request) ∨
        b = a ∧ x.1 = s.shared ∧ ∃ r, s.shared.ledger.record t = some r ∧ r.request = request := by
      by_cases hb : b = a
      · subst hb
        rw [goto_pc] at hc
        rcases turn_carried hx hc with hc | ⟨_, hsh, hr⟩
        · exact .inl hc
        · exact .inr ⟨rfl, hsh, hr⟩
      · rw [goto_pc_of_ne s hb] at hc
        exact .inl hc
    rw [goto_shared] at hr
    rcases before with hc | ⟨_, hsh, r₀, hr₀, hreq⟩
    · rcases turn_record hw hx hr with hr | ⟨job, hp, rfl, _, _⟩ | ⟨y, r₀, _, hr₀, rfl⟩
      · exact hn.carried b t request r hc hr
      · obtain ⟨_, l, hl, hlevel⟩ := carried_held h hc
        have entered : stage job.task = .held a .entered :=
          (h.owner a job.task .entered).mp (by rw [hp]; rfl)
        cases hl.symm.trans entered
        rcases hlevel with hlevel | hlevel <;> cases hlevel
      · exact hn.carried b t request r₀ hc hr₀
    · rw [hsh, hr₀] at hr
      cases hr
      exact hreq

theorem named_next (h : Staged s stage) (hn : Named s) (hs : Step s e s') : Named s' := by
  rcases step_cases hs with ⟨i, k, rfl, _, rfl⟩ | ⟨a, c, x, rfl, _, hx, rfl⟩ |
    ⟨f, o, rfl, _, _, rfl⟩ | ⟨w, rfl, _, rfl⟩ | ⟨d, rfl, rfl⟩
  · have same : (s.goto (.client i) (k.enter s.shared)).shared.ledger.record =
        s.shared.ledger.record := by cases k <;> rfl
    refine ⟨same ▸ hn.stored, fun b t request r hc hr => ?_⟩
    rw [same] at hr
    by_cases hb : b = .client i
    · subst hb
      rw [goto_pc] at hc
      cases k with
      | stop timeout =>
        simp only [Call.enter] at hc
        split at hc <;> cases hc
      | _ => cases hc
    · rw [goto_pc_of_ne s hb] at hc
      exact hn.carried b t request r hc hr
  · exact named_turn h hn hx
  · exact ⟨hn.stored, hn.carried⟩
  · exact ⟨hn.stored, hn.carried⟩
  · exact ⟨hn.stored, hn.carried⟩

theorem foreign_next (hs : Step s e s') : s'.shared.ledger.foreign = s.shared.ledger.foreign := by
  rcases step_cases hs with ⟨i, k, rfl, _, rfl⟩ | ⟨a, c, x, rfl, _, hx, rfl⟩ |
    ⟨f, o, rfl, _, _, rfl⟩ | ⟨w, rfl, _, rfl⟩ | ⟨d, rfl, rfl⟩
  · cases k <;> rfl
  · exact (turn_asks hx).2.1
  · rfl
  · rfl
  · rfl

omit [DecidableEq ι] in
/-- A backend that is new holds no records. -/
theorem begin_own {config : Config.SchedulerConfig} {b : Backend}
    (h : (begin (ι := ι) config b).shared.ledger.foreign = ∅) (t : TaskId) :
    (begin (ι := ι) config b).shared.ledger.record t = none := by
  refine Dict.get?_eq_none.mpr fun ht => ?_
  have : t ∈ (begin (ι := ι) config b).shared.ledger.foreign :=
    Finset.mem_union_left _ (List.mem_toFinset.mpr ht)
  rw [h] at this
  exact absurd this (Finset.notMem_empty t)

theorem reachable_named (h : ((system ι).restrict Single).Reachable s)
    (own : s.shared.ledger.foreign = ∅) : Named s := by
  refine System.invariant_reachable (P := fun s => s.shared.ledger.foreign = ∅ → Named s) ?_
    (fun u e v hr hu hst hv => ?_) h own
  · rintro s ⟨config, b, _, rfl⟩ hf
    refine ⟨fun t r hr => ?_, fun a t request r _ hr => ?_⟩
    all_goals
      rw [begin_own hf] at hr
      cases hr
  · obtain ⟨stage, hstaged⟩ := (reachable_accounts hr).staged
    exact named_next hstaged (hu ((foreign_next hst.2).symm.trans hv)) hst.2

omit [DecidableEq ι] in
/-- The request of an execution is the one that was submitted under the task's id. -/
theorem executing_named (h : Staged s stage) (hn : Named s)
    (hp : s.pc a = .executing t request) :
    request.taskId = t ∧ ∀ r, s.shared.ledger.record t = some r → r.request = request := by
  have hc : carried (s.pc a) = some (t, request) := by
    rw [hp]
    rfl
  obtain ⟨⟨r, hr⟩, _⟩ := carried_held h hc
  refine ⟨?_, fun r hr => hn.carried a t request r hc hr⟩
  rw [← hn.carried a t request r hc hr]
  exact hn.stored t r hr

/-! ## The reason that a failed record gives -/

/-- An exception that `strategy.execute` raised, on its way into the record. -/
def failing : Pc → Option (TaskId × Raised)
  | .fetching t (.failTask e) | .updating t (.failTask e) _ => some (t, e)
  | _ => none

theorem onward_fails (h : onward p = true) : failing p = none := by
  cases p
  case fetching t m =>
    cases m <;> first
      | rfl
      | cases h
  case updating => cases h
  all_goals rfl

theorem turn_failing {w : Raised} (h : act sh a p c = some x) (hx : failing x.2 = some (t, w)) :
    failing p = some (t, w) ∧ x.1.ledger.executed = sh.ledger.executed ∨
      ∃ request, p = .executing t request ∧ c = .raises w ∧
        x.1 = { sh with ledger := sh.ledger.call t } := by
  have none_of : ∀ q, onward q = true → failing q = some (t, w) → False := by
    intro q hq hc
    cases (onward_fails hq).symm.trans hc
  cases p <;> cases c <;> simp only [act, advance, throwing, expire, reduceCtorEq] at h
  case executing.raises u q w' =>
    cases h
    cases hx
    exact .inr ⟨q, rfl, rfl, rfl⟩
  case tracing.go k event =>
    cases h
    cases k <;> cases hx
  case reporting.go k =>
    cases h
    cases hx
  case checking.go u =>
    cases h
    dsimp only at hx
    split at hx
    · exact (none_of _ (by simp [resumed_onward]) hx).elim
    · split at hx
      · cases hx
      · exact (none_of _ (by simp [resumed_onward]) hx).elim
  case running.go u q =>
    cases h
    dsimp only at hx
    split at hx <;> cases hx
  case fetching.go u m =>
    cases m with
    | failTask w' =>
      cases h
      cases hx
      exact .inl ⟨rfl, rfl⟩
    | workerLoop w' =>
      split at h <;> cases h
      · cases hx
      · dsimp only at hx
        split at hx <;> cases hx
      · rename_i hne hsome
        cases hr : sh.ledger.record u with
        | none => exact (hne w' rfl hr).elim
        | some r => exact (hsome w' r rfl hr).elim
    | completeTask o =>
      cases h
      cases hx
  case updating.go u m q =>
    cases h
    dsimp only at hx
    split at hx
    · exact (none_of _ (by simp) hx).elim
    · cases hx
    · cases hx
  case releasing.go u k =>
    split at h <;> cases h
    · cases hx
    · cases k <;> first
        | cases hx
        | exact (none_of _ (by simp [afterRelease, resumed_onward]) hx).elim
  case givingBack.go u k =>
    split at h <;> cases h
    · cases k <;> first
        | cases hx
        | exact (none_of _ (by simp [afterRelease, resumed_onward]) hx).elim
    · cases k with
      | finish m =>
        cases m <;> first
          | cases hx
          | exact (none_of _ (by simp [afterOverRelease, resumed_onward]) hx).elim
      | rollback w' => exact (none_of (.raised overReleased) rfl hx).elim
      | _ => exact (none_of _ (by simp [afterOverRelease, resumed_onward]) hx).elim
  case notifying.go n =>
    cases h
    exact (none_of _ (afterNotify_onward ..) hx).elim
  case waitChecking.go q d =>
    cases h
    have := look_of q sh.clock d (sh.ledger.record q.task) (P := fun p => failing p = none)
      (fun _ hp => onward_fails (resumed_onward hp)) rfl fun _ => rfl
    cases this.symm.trans hx
  all_goals repeat' split at h
  all_goals cases h
  all_goals first
    | cases hx
    | exact (none_of _ (by simp [resumed_onward]) hx).elim

/-- The strategy raises only what `thrown` allows. -/
def Throws (thrown : Raised → Prop) (s : State ι) : Event ι → Prop
  | .step a (.raises w) => (∃ t request, s.pc a = .executing t request) → thrown w
  | _ => True

/-- Requests are fresh, and the strategy raises only what `thrown` allows. -/
def Honest (thrown : Raised → Prop) (s : State ι) (e : Event ι) : Prop :=
  Fresh s e ∧ Throws thrown s e

/-- Where the exception that ends a task comes from. -/
def Reason (thrown : Raised → Prop) (L : Ledger) (t : TaskId) : Ender → Prop
  | .failTask w => thrown w ∧ L.executed t = 1
  | .workerLoop _ => True
  | .completeTask o =>
    ∃ f, f < L.nextFuture ∧ (L.futures f).task = t ∧ (L.futures f).outcome = some o

/-- Why a record says that its task has failed. -/
inductive Blamed (thrown : Raised → Prop) (L : Ledger) (t : TaskId) (r : TaskRecord) : Prop where
  | stopped (executed : L.executed t = 0) (code : r.errorCode = stoppedBeforeStart.errorCode)
      (message : r.errorMessage = stoppedBeforeStart.errorMessage)
  | ended (m : Ender) (code : r.errorCode = m.update.errorCode)
      (message : r.errorMessage = m.update.errorMessage) (reason : Reason thrown L t m)

structure Reasons (thrown : Raised → Prop) (s : State ι) : Prop where
  blamed : ∀ t r, s.shared.ledger.record t = some r → r.status = .failed →
    Blamed thrown s.shared.ledger t r
  failing : ∀ a t w, SchedulerFutures.failing (s.pc a) = some (t, w) →
    thrown w ∧ s.shared.ledger.executed t = 1

variable {thrown : Raised → Prop} {m : Ender} {L' : Ledger}

/-- Futures with an outcome stay as they are. -/
def Settled (L L' : Ledger) : Prop :=
  L.nextFuture ≤ L'.nextFuture ∧ ∀ f o, f < L.nextFuture → (L.futures f).outcome = some o →
    (L'.futures f).task = (L.futures f).task ∧ (L'.futures f).outcome = some o

theorem step_settled (hs : Step s e s') : Settled s.shared.ledger s'.shared.ledger := by
  rcases step_futures hs with ⟨hnext, hsame⟩ | ⟨a, t, request, rfl, _, rfl⟩ |
    ⟨g, o, rfl, _, hn, rfl⟩
  · exact ⟨hnext.ge, fun f o _ ho => ⟨(hsame f).1, (hsame f).2.1.trans ho⟩⟩
  · refine ⟨Nat.le_succ _, fun f o hf ho => ?_⟩
    rw [goto_shared]
    dsimp only
    rw [launch_future, if_neg (Nat.ne_of_lt hf)]
    exact ⟨rfl, ho⟩
  · refine ⟨le_rfl, fun f o hf ho => ?_⟩
    dsimp only
    rw [resolve_future, if_neg]
    · exact ⟨rfl, ho⟩
    · rintro rfl
      cases hn.symm.trans ho

omit [DecidableEq ι] in
theorem Blamed.kept (h : Blamed thrown L t r) (hs : Settled L L')
    (executed : L'.executed t = L.executed t) : Blamed thrown L' t r := by
  cases h with
  | stopped none code message => exact .stopped (executed.trans none) code message
  | ended m code message reason =>
    refine .ended m code message ?_
    cases m with
    | failTask w => exact ⟨reason.1, executed.trans reason.2⟩
    | workerLoop w => trivial
    | completeTask o =>
      obtain ⟨f, hf, ht, ho⟩ := reason
      obtain ⟨task, outcome⟩ := hs.2 f o hf ho
      exact ⟨f, Nat.lt_of_lt_of_le hf hs.1, task.trans ht, outcome⟩

theorem turn_executed (h : act sh a p c = some x) (t : TaskId) :
    x.1.ledger.executed t = sh.ledger.executed t ∨ ∃ request, p = .executing t request := by
  cases p <;> cases c <;> simp only [act, advance, throwing, expire, reduceCtorEq] at h
  case executing.go u request | executing.raises u request w =>
    cases h
    by_cases hu : t = u
    · exact .inr ⟨request, hu ▸ rfl⟩
    · refine .inl ?_
      simp [Ledger.launch, Ledger.call, hu]
  case storing.go job =>
    cases h
    refine .inl ?_
    simp only [Ledger.store]
    split <;> rfl
  case notifying.go n =>
    cases h
    cases n <;> exact .inl rfl
  all_goals repeat' split at h
  all_goals cases h
  all_goals exact .inl rfl

omit [DecidableEq ι] in
/-- The update that a thread is about to make to a record, with its reason. -/
theorem updating_blamed (h : Staged s stage) (hb : Reasons thrown s)
    (own : s.shared.ledger.foreign = ∅) {y : Backend.Update} {r₀ : TaskRecord}
    (hp : updateOf (s.pc a) = some (t, y)) (hy : (y.apply r₀).status = .failed) :
    Blamed thrown s.shared.ledger t (y.apply r₀) := by
  cases hpc : s.pc a <;> rw [hpc] at hp <;>
    simp only [updateOf, Option.some.injEq, Prod.mk.injEq, reduceCtorEq] at hp
  case running u request =>
    obtain ⟨rfl, rfl⟩ := hp
    cases hy
  case updating u m request =>
    obtain ⟨rfl, rfl⟩ := hp
    refine .ended m rfl rfl ?_
    cases m with
    | failTask w => exact hb.failing a u w (by rw [hpc]; rfl)
    | workerLoop w => trivial
    | completeTask o =>
      obtain ⟨_, _, f, hl, ho⟩ := h.level (a := a) (t := u) (l := .completing o) (by rw [hpc]; rfl)
      exact ⟨f, hl.1, hl.2.1, ho⟩
  case sweeping u done rest =>
    obtain ⟨rfl, rfl⟩ := hp
    refine .stopped ?_ rfl rfl
    have left := (h.leftover a u (by rw [hpc]; exact List.mem_cons_self)).1
    have fact := h.fact u
    rw [left] at fact
    refine (fact.2.resolve_right fun hs => ?_).executed
    have := hs.foreign
    rw [own] at this
    exact Finset.notMem_empty u this

theorem reasons_turn (h : Staged s stage) (hb : Reasons thrown s)
    (own : s.shared.ledger.foreign = ∅) (hx : act s.shared a (s.pc a) c = some x)
    (hs : Step s (.step a c) (s.goto a x)) (honest : Throws thrown s (.step a c)) :
    Reasons thrown (s.goto a x) := by
  have settled : Settled s.shared.ledger x.1.ledger := step_settled hs
  -- A task that is executed now has no failed record, and no other thread has it in hand.
  have steady : ∀ t r, s.shared.ledger.record t = some r → r.status = .failed →
      x.1.ledger.executed t = s.shared.ledger.executed t := by
    intro t r hr hf
    rcases turn_executed hx t with he | ⟨request, hp⟩
    · exact he
    · obtain ⟨r', hr', hrun⟩ := (executing_unlaunched h hp).1.record
      cases hr.symm.trans hr'
      cases hf.symm.trans hrun
  refine ⟨fun t r hr hf => ?_, fun b t w hw => ?_⟩
  · rw [goto_shared] at hr ⊢
    rcases turn_record h.wellformed hx hr with hsame | ⟨job, _, _, _, rfl⟩ | ⟨y, r₀, hp, hr₀, rfl⟩
    · exact (hb.blamed t r hsame hf).kept settled (steady t r hsame hf)
    · cases hf
    · refine (updating_blamed h hb own hp hf).kept settled ?_
      rcases turn_executed hx t with he | ⟨request, hpc⟩
      · exact he
      · rw [hpc] at hp
        cases hp
  · rw [goto_shared]
    by_cases hba : b = a
    · subst hba
      rw [goto_pc] at hw
      rcases turn_failing hx hw with ⟨hfail, he⟩ | ⟨request, hp, rfl, hx1⟩
      · rw [he]
        exact hb.failing b t w hfail
      · have zero := (executing_unlaunched h hp).2.1
        refine ⟨honest ⟨t, request, hp⟩, ?_⟩
        rw [hx1]
        simp [Ledger.call, zero]
    · rw [goto_pc_of_ne s hba] at hw
      obtain ⟨ht, he⟩ := hb.failing b t w hw
      refine ⟨ht, ?_⟩
      rcases turn_executed hx t with hsame | ⟨request, hp⟩
      · rw [hsame]
        exact he
      · have zero := (executing_unlaunched h hp).2.1
        omega

theorem reasons_next (h : Staged s stage) (hb : Reasons thrown s)
    (own : s.shared.ledger.foreign = ∅) (hs : Step s e s') (honest : Throws thrown s e) :
    Reasons thrown s' := by
  have settled := step_settled hs
  rcases step_cases hs with ⟨i, k, rfl, hr, rfl⟩ | ⟨a, c, x, rfl, _, hx, rfl⟩ |
    ⟨f, o, rfl, _, _, rfl⟩ | ⟨w, rfl, _, rfl⟩ | ⟨d, rfl, rfl⟩
  · have same : (k.enter s.shared).1.ledger.record = s.shared.ledger.record ∧
        (k.enter s.shared).1.ledger.executed = s.shared.ledger.executed := by
      cases k <;> exact ⟨rfl, rfl⟩
    refine ⟨fun t r hr hf => ?_, fun b t w hw => ?_⟩
    · rw [goto_shared, same.1] at hr
      exact (hb.blamed t r hr hf).kept settled (congrFun same.2 t)
    · rw [goto_shared, same.2]
      by_cases hbi : b = .client i
      · subst hbi
        rw [goto_pc] at hw
        cases k with
        | stop timeout =>
          simp only [Call.enter] at hw
          split at hw <;> cases hw
        | _ => cases hw
      · rw [goto_pc_of_ne s hbi] at hw
        exact hb.failing b t w hw
  · exact reasons_turn h hb own hx hs honest
  · exact ⟨fun t r hr hf => (hb.blamed t r hr hf).kept settled rfl, hb.failing⟩
  · exact ⟨hb.blamed, hb.failing⟩
  · exact ⟨hb.blamed, hb.failing⟩

theorem honest_single (h : ((system ι).restrict (Honest thrown)).Reachable s) :
    ((system ι).restrict Single).Reachable s :=
  fresh_single (System.restrict_imp (P := fun _ => True) (fun _ _ => trivial)
    (fun _ _ _ ha => ha.1) h)

theorem reachable_reasons (h : ((system ι).restrict (Honest thrown)).Reachable s)
    (own : s.shared.ledger.foreign = ∅) : Reasons thrown s := by
  refine System.invariant_reachable
    (P := fun s => s.shared.ledger.foreign = ∅ → Reasons thrown s) ?_
    (fun u e v hr hu hst hv => ?_) h own
  · rintro s ⟨config, b, _, rfl⟩ hf
    refine ⟨fun t r hr => ?_, fun a t w hw => ?_⟩
    · rw [begin_own hf] at hr
      cases hr
    · cases a <;> cases hw
  · obtain ⟨stage, hstaged⟩ := (reachable_accounts (honest_single hr)).staged
    have own' := (foreign_next hst.2).symm.trans hv
    exact reasons_next hstaged (hu own') own' hst.2 hst.1.2

end SchedulerFutures
