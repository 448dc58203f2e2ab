import Infly.WarmHandlers
import Infly.Provenance

/-! # From `submit` to the record

What a deployment guarantees as a whole: a task is executed at most once and in the process it
was sent to, a record says what became of its task there, and a running task is always with
somebody.
-/
namespace EndToEnd

open Contracts Config PoolState StaleResults CacheKey ExecutorCache WorkerProcess SchedulerState
  SchedulerLedger SchedulerStages SchedulerAccounts SchedulerFutures SchedulerDuties PoolDelivery
  PoolInvariant PoolSettling Holders Provenance Deployment Coupling Traffic WarmHandlers
  TaskBackend Transitions

variable {ι : Type} [DecidableEq ι] {keys : CacheKeys} {memory : Memory}
  {s t : Deployment.State ι} {u : TaskId}

/-! ## Ids are not reused -/

/-- Nothing that is on its way is for a task that is just being executed. -/
theorem executing_unawaited (hr : (deployment keys memory ι).Reachable s) {a : Thread ι}
    {request : TaskRequest} (hp : s.scheduler.pc a = .executing u request) :
    s.wire.awaited u = [] := by
  have h := reachable_orderly hr
  have none_ := executing_unhandled hr h hp
  refine List.eq_nil_iff_forall_not_mem.mpr fun o ho => none_ ?_
  rcases Wire.mem_awaited.mp ho with hq | ⟨m, hm, rfl⟩
  · exact List.mem_append_right _ (List.mem_map_of_mem (f := Prod.fst) hq)
  · obtain ⟨v, hv, -, rfl⟩ := h.waiting o m hm
    refine List.mem_append_left _ (List.mem_map.mpr ⟨v, hv, ?_⟩)
    exact (reply_taskId ..).symm

theorem executing_id (hr : (deployment keys memory ι).Reachable s) {a : Thread ι}
    {request : TaskRequest} (hp : s.scheduler.pc a = .executing u request) :
    request.taskId = u := by
  obtain ⟨stage, hstage⟩ := stages (scheduler_alone hr)
  exact (executing_named hstage (reachable_named (honest_single (scheduler_alone hr))
    (own_backend hr)) hp).1

/-- The scheduler calls `execute` only where no answer of an earlier request could be taken for
the new one's. -/
theorem unmixed_view :
    Simulation (deployment keys memory ι) ((wire (User ι)).restrict Unmixed) State.wire where
  init := wire_view.init
  step s e t hr _ hst := by
    rcases wire_step hst.2 with heq | ⟨b, hb, heq, calls⟩ <;> rw [heq]
    · exact .refl _
    · refine .single ⟨?_, hb, rfl⟩
      unfold Unmixed
      split
      · rename_i q puts
        obtain ⟨a, u, hp⟩ := calls q puts rfl
        split
        · rw [executing_id hr hp, executing_unawaited hr hp]
          exact fun o ho => absurd ho List.not_mem_nil
        · trivial
      · trivial

theorem unmixed_alone (hr : (deployment keys memory ι).Reachable s) :
    ((wire (User ι)).restrict Unmixed).Reachable s.wire := unmixed_view.reachable hr

/-- A message resolves a future only if it comes from the very process that the request of the
future went to, with the reply of that process to that request. -/
theorem answers_own_request (h : (deployment keys memory ι).Reachable s) {o : Incarnation}
    {m : WorkerResultMessage} {g : PoolState.FutureId} (hres : Resolves s.wire o m g) :
    s.wire.sentTo g = some o ∧ s.history.acceptedTask g = some m.taskId ∧
      ∃ v ∈ s.services, v.process = o ∧ v.request.taskId = m.taskId ∧ m = v.reply := by
  obtain ⟨hm, htake⟩ := hres
  obtain ⟨ha, hf⟩ := (takeResult_future _ m g).mp htake
  have stamped := reachable_stamped (wire_alone h)
  obtain ⟨r, hsent, -, only⟩ := reachable_traced (unmixed_alone h) m.taskId _ g ha hf
  have ho : o = (r, m.generation) :=
    only o (Wire.mem_awaited.mpr (.inr ⟨m, hm, rfl⟩)) (stamped.stamped o m hm).symm
  obtain ⟨v, hv, hp, hreply⟩ := (reachable_orderly h).waiting o m hm
  refine ⟨ho ▸ hsent, ((reachable_delivery (pool_alone h)).table _ g hf).1, v, hv, hp, ?_, hreply⟩
  rw [hreply]
  exact (reply_taskId ..).symm

theorem answers_own_request_echoed :
    ∃ s, (deployment echoKeys echoMemory Unit).Reachable s ∧ Resolves s.wire (0, 1) echoed 0 ∧
      s.wire.sentTo 0 = some (0, 1) := by
  obtain ⟨s, h, hs⟩ := echo_spec echo_runs.2.1
  have hres : Resolves s.wire (0, 1) echoed 0 := (of_decide_eq_true hs).2
  exact ⟨s, h, hres, (answers_own_request h hres).1⟩

/-! ## At most once -/

/-- No request is served twice. It is served by the process it was sent to, and no other, as it
stands in the record of its task. -/
theorem executed_at_most_once (h : (deployment keys memory ι).Reachable s) :
    (s.services.map fun v => v.request.taskId).Nodup ∧ ∀ v ∈ s.services,
      (∀ o, Sent s v.request.taskId o ↔ o = v.process) ∧
      ∀ r, s.ledger.record v.request.taskId = some r → r.request = v.request := by
  have orderly := reachable_orderly h
  refine ⟨orderly.once.sublist (List.sublist_append_left _ _), fun v hv => ⟨fun o => ?_, ?_⟩⟩
  · constructor
    · exact fun sent => sent_once h sent (orderly.served v hv)
    · rintro rfl
      exact orderly.served v hv
  · exact orderly.faithful v.request (.inr ⟨v, hv, rfl⟩)

theorem executed_at_most_once_echoed :
    ∃ s, (deployment echoKeys echoMemory Unit).Reachable s ∧
      (s.services.map fun v => v.request.taskId) = ["t"] ∧ ∀ o, Sent s "t" o ↔ o = (0, 1) := by
  obtain ⟨s, h, hs⟩ := echo_spec echo_runs.2.1
  obtain ⟨v, hv, heq⟩ := List.map_eq_singleton_iff.mp (of_decide_eq_true hs).1
  obtain ⟨hid, hp⟩ := Prod.mk.inj heq
  refine ⟨s, h, by rw [hv, List.map_singleton, hid], fun o => ?_⟩
  have sent := ((executed_at_most_once h).2 v (hv ▸ List.mem_singleton_self v)).1 o
  rwa [hid, hp] at sent

/-! ## What the pool holds -/

/-- What is in the pool's table runs and counts as outstanding. -/
theorem booked_running (h : (deployment keys memory ι).Reachable s) {g : PoolState.FutureId}
    (hf : s.pool.futures.get? u = some g) :
    InStatus s.ledger u .running ∧ u ∈ s.ledger.outstanding := by
  have coupled := reachable_coupled h
  obtain ⟨accepted, -, unresolved⟩ := (reachable_delivery (pool_alone h)).table u g hf
  obtain ⟨f, hg, rfl⟩ := coupled.accepted g u accepted
  have pending : (s.ledger.futures f).outcome = none := by
    rw [coupled.outcome g f hg, unresolved]
    rfl
  obtain ⟨stage, hstage⟩ := stages (scheduler_alone h)
  obtain ⟨running, -⟩ := unresolved_running hstage
    (reachable_futures (honest_single (scheduler_alone h))) (coupled.bound g f hg).1 pending
  refine ⟨running.status, running.owed.mpr ?_⟩
  rw [own_backend h]
  exact Finset.notMem_empty _

theorem booked_launched (h : (deployment keys memory ι).Reachable s) {g : PoolState.FutureId}
    (hf : s.pool.futures.get? u = some g) :
    ∃ f, f < s.ledger.nextFuture ∧ (s.ledger.futures f).task = u := by
  have coupled := reachable_coupled h
  obtain ⟨f, hg, ht⟩ := coupled.accepted g u
    ((reachable_delivery (pool_alone h)).table u g hf).1
  exact ⟨f, (coupled.bound g f hg).1, ht⟩

/-- The pool never holds more requests than `max_outstanding_tasks`; each of them is of a running
task, and the scheduler never submits an id that the pool would turn down as a duplicate. -/
theorem pool_within_scheduler (h : (deployment keys memory ι).Reachable s) :
    (∀ u g, s.pool.futures.get? u = some g →
      InStatus s.ledger u .running ∧ u ∈ s.ledger.outstanding) ∧
    s.pool.futures.keys.length ≤ s.scheduler.shared.config.maxOutstandingTasks ∧
    ∀ a u request, s.scheduler.pc a = .executing u request →
      s.pool.futures.get? request.taskId = none := by
  have booked : ∀ u g, s.pool.futures.get? u = some g →
      InStatus s.ledger u .running ∧ u ∈ s.ledger.outstanding := fun u g => booked_running h
  refine ⟨booked, ?_, fun a u request hp => ?_⟩
  · obtain ⟨moving, -, hsum⟩ := (reachable_accounts (honest_single (scheduler_alone h))).balanced
    have inside : s.pool.futures.keys.toFinset ⊆ s.ledger.outstanding := by
      intro u hu
      obtain ⟨g, hg⟩ := Dict.mem_keys.mp (List.mem_toFinset.mp hu)
      exact (booked u g hg).2
    have fewer := Finset.card_le_card inside
    rw [List.toFinset_card_of_nodup s.pool.futures.keys_nodup] at fewer
    refine fewer.trans ?_
    rw [← hsum]
    show s.scheduler.shared.ledger.outstanding.card ≤ _
    omega
  · rw [executing_id h hp]
    obtain ⟨stage, hstage⟩ := stages (scheduler_alone h)
    cases hg : s.pool.futures.get? u with
    | none => rfl
    | some g =>
      obtain ⟨f, hlt, ht⟩ := booked_launched h hg
      exact absurd ht ((executing_unlaunched hstage hp).2.2 f hlt)

theorem pool_within_scheduler_dispatched :
    ∃ s, (deployment echoKeys echoMemory Unit).Reachable s ∧
      s.pool.futures.get? "t" = some 0 ∧ InStatus s.ledger "t" .running := by
  obtain ⟨s, h, hs⟩ := echo_spec echo_runs.1
  have hf := (of_decide_eq_true hs).1
  exact ⟨s, h, hf, ((pool_within_scheduler h).1 "t" 0 hf).1⟩

/-! ## Running tasks -/

omit [DecidableEq ι] in
/-- A running task of the scheduler's own is in the hands of one of its threads. -/
theorem running_held {x : SchedulerModel.State ι} {stage : TaskId → Stage ι}
    (hst : Staged x stage) (own : x.shared.ledger.foreign = ∅)
    (hr : InStatus x.shared.ledger u .running) : ∃ a l, stage u = .held a l := by
  obtain ⟨r, hrec, hstatus⟩ := hr
  have other : ∀ status, InStatus x.shared.ledger u status → status = .running := by
    rintro status ⟨r', hrec', rfl⟩
    cases hrec.symm.trans hrec'
    exact hstatus
  have fact := hst.fact u
  cases hs : stage u with
  | held a l => exact ⟨a, l, rfl⟩
  | absent =>
    rw [hs] at fact
    cases hrec.symm.trans fact.1.record
  | queued =>
    rw [hs] at fact
    rcases fact.2 with waiting | stale
    · cases other _ waiting.status
    · exact absurd (own ▸ stale.foreign) (Finset.notMem_empty u)
  | spent =>
    rw [hs] at fact
    rcases fact.2 with ended | ⟨hforeign, -⟩
    · have terminal := ended.status r hrec
      rw [hstatus] at terminal
      cases terminal
    · exact absurd (own ▸ hforeign) (Finset.notMem_empty u)

/-- A running task is with a thread of the scheduler's that can go on, or its request is on its
way to its process or back, or it or its answer could not be sent or read, or that process is
gone, or a resolver has taken its future. -/
theorem running_task_held (h : (deployment keys memory ι).Reachable s)
    (hr : InStatus s.ledger u .running) :
    (∃ a l, duty s.ledger a (s.scheduler.pc a) = some (u, l) ∧
      ∀ f, l = .awaiting f → (s.ledger.futures f).outcome ≠ none) ∨
    ∃ g, s.history.acceptedTask g = some u ∧ Whereabouts s.wire u g := by
  have coupled := reachable_coupled h
  obtain ⟨stage, hst⟩ := stages (scheduler_alone h)
  obtain ⟨a, l, hstage⟩ := running_held hst (own_backend h) hr
  by_cases hl : ∀ f, l = .awaiting f → (s.ledger.futures f).outcome ≠ none
  · exact .inl ⟨a, l, (hst.owner a u l).mpr hstage, hl⟩
  · simp only [not_forall, not_not] at hl
    obtain ⟨f, rfl, pending⟩ := hl
    have fact := hst.fact u
    rw [hstage] at fact
    obtain ⟨-, -, launched, -⟩ := fact
    obtain ⟨g, hg⟩ := coupled.covers f launched.1
    have unresolved : s.history.resolutions g = [] := by
      have same := coupled.outcome g f hg
      rw [pending] at same
      cases hres : s.history.resolutions g with
      | nil => rfl
      | cons res rest =>
        rw [hres] at same
        cases same
    have accepted : s.history.acceptedTask g = some u := by
      cases hacc : s.history.acceptedTask g with
      | none => exact absurd unresolved (coupled.refused g f hg hacc)
      | some v =>
        obtain ⟨f', hg', ht⟩ := coupled.accepted g v hacc
        cases hg.symm.trans hg'
        exact congrArg some (ht.symm.trans launched.2.1)
    exact .inr ⟨g, accepted, accepted_whereabouts (unmixed_alone h) accepted unresolved⟩

theorem running_task_held_dispatched :
    ∃ s, (deployment echoKeys echoMemory Unit).Reachable s ∧ InStatus s.ledger "t" .running ∧
      ((∃ a l, duty s.ledger a (s.scheduler.pc a) = some ("t", l) ∧
        ∀ f, l = .awaiting f → (s.ledger.futures f).outcome ≠ none) ∨
      ∃ g, s.history.acceptedTask g = some "t" ∧ Whereabouts s.wire "t" g) := by
  obtain ⟨s, h, hs⟩ := echo_spec echo_runs.1
  obtain ⟨r, hr, hs⟩ := (Option.any_eq_true _ _).mp (of_decide_eq_true hs).2
  have running : InStatus s.ledger "t" .running := ⟨r, hr, of_decide_eq_true hs⟩
  exact ⟨s, h, running, running_task_held h running⟩

/-! ## What a record says -/

/-- The future of a task has an outcome for a reason. -/
theorem outcome_cause (h : (deployment keys memory ι).Reachable s)
    {f : SchedulerState.FutureId} {out : Outcome} (hlt : f < s.ledger.nextFuture)
    (ho : (s.ledger.futures f).outcome = some out) :
    ∃ g res, outcomeOf res = out ∧ Cause s.wire g res ∧
      ∀ u, s.history.acceptedTask g = some u → u = (s.ledger.futures f).task := by
  have coupled := reachable_coupled h
  obtain ⟨g, hg⟩ := coupled.covers f hlt
  have same := coupled.outcome g f hg
  rw [ho] at same
  obtain ⟨res, hhead, hout⟩ := Option.map_eq_some_iff.mp same.symm
  refine ⟨g, res, hout, ?_, fun u hu => ?_⟩
  · exact (reachable_attributed (unmixed_alone h)).resolved g res (List.mem_of_mem_head? hhead)
  · obtain ⟨f', hg', ht⟩ := coupled.accepted g u hu
    cases hg.symm.trans hg'
    exact ht.symm

/-- A message that the pool has received is the reply of a process to that task's request. -/
theorem received_reply (h : (deployment keys memory ι).Reachable s)
    {m : WorkerResultMessage} (hm : m ∈ s.history.received) :
    ∃ v ∈ s.services, v.request.taskId = m.taskId ∧ m = v.reply := by
  obtain ⟨v, hv, rfl⟩ := (reachable_orderly h).received m hm
  exact ⟨v, hv, (reply_taskId ..).symm, rfl⟩

omit [DecidableEq ι] in
/-- Whose record is terminal is over. -/
theorem ended_record {x : SchedulerModel.State ι} {stage : TaskId → Stage ι} {r : TaskRecord}
    (hst : Staged x stage) (own : x.shared.ledger.foreign = ∅)
    (hrec : x.shared.ledger.record u = some r) (ht : terminal r.status = true) :
    Ended x.shared.ledger u := by
  have other : ∀ status, InStatus x.shared.ledger u status → terminal status = true := by
    rintro status ⟨r', hrec', rfl⟩
    cases hrec.symm.trans hrec'
    exact ht
  have fact := hst.fact u
  cases hs : stage u with
  | absent =>
    rw [hs] at fact
    cases hrec.symm.trans fact.1.record
  | queued =>
    rw [hs] at fact
    rcases fact.2 with waiting | stale
    · cases other _ waiting.status
    · exact absurd (own ▸ stale.foreign) (Finset.notMem_empty u)
  | spent =>
    rw [hs] at fact
    rcases fact.2 with ended | ⟨hforeign, -⟩
    · exact ended
    · exact absurd (own ▸ hforeign) (Finset.notMem_empty u)
  | held a l =>
    rw [hs] at fact
    cases l with
    | fresh | slotted | unslotted | entered | withdrawn =>
      cases hrec.symm.trans fact.1.record
    | pulled =>
      rcases fact with waiting | stale
      · cases other _ waiting.status
      · exact absurd (own ▸ stale.foreign) (Finset.notMem_empty u)
    | checked => cases other _ (Waiting.status fact)
    | started | ran | awaiting | failing | completing => cases other _ fact.1.status
    | handling =>
      rcases fact with ⟨-, running⟩ | ⟨ended, -⟩
      · cases other _ running.status
      · exact ended
    | ended | repaying | closing => exact fact.1

/-- A result of a task's future is what an execution of its request returned. -/
theorem result_service (h : (deployment keys memory ι).Reachable s)
    {f : SchedulerState.FutureId} {payload : Option TaskResult} (hlt : f < s.ledger.nextFuture)
    (ho : (s.ledger.futures f).outcome = some (.result payload)) :
    ∃ v ∈ s.services, v.request.taskId = (s.ledger.futures f).task ∧
      ∃ result, v.execution.outcome = .ok result ∧ payload = some result := by
  obtain ⟨g, res, hout, cause, accepted⟩ := outcome_cause h hlt ho
  cases cause with
  | refused | exited | unloaded | shutDown | closed => cases hout
  | answered m hm hacc =>
    obtain ⟨v, hv, hid, rfl⟩ := received_reply h hm
    rw [Service.reply, reply_resolution] at hout
    cases hx : v.execution.outcome with
    | error e =>
      rw [hx] at hout
      cases hout
    | ok result =>
      rw [hx] at hout
      exact ⟨v, hv, hid.trans (accepted _ hacc), result, hx, (Outcome.result.inj hout).symm⟩

/-- What went wrong with the request of a task. -/
inductive Fault (s : Deployment.State ι) (u : TaskId) : PlatformError → Prop where
  | raised (v : Service) (e : Raised) (served : v ∈ s.services) (id : v.request.taskId = u)
      (sent : Sent s u v.process) (outcome : v.execution.outcome = .error e) :
      Fault s u (surfaced v.own e)
  | refused (w : PlatformError) (refusal : Refusal w) : Fault s u w
  | exited (o : Incarnation) (sent : Sent s u o) (gone : Gone s.pool o) :
      Fault s u (PoolModel.exitError (s.pool.heap o.1))
  | unloaded (o : Incarnation) (sent : Sent s u o) :
      Fault s u (unloadedError (s.pool.heap o.1).group.name)
  | shutDown (r : Ref) (known : r < s.pool.nextRef) (closing : s.pool.closing = true) :
      Fault s u (PoolModel.shutdownError (s.pool.heap r))
  | closed (closing : s.pool.closing = true) : Fault s u PoolModel.closedError

/-- The reasons that a record of a failed task can give. -/
inductive Explained (s : Deployment.State ι) (u : TaskId) (r : TaskRecord) : Prop where
  | stopped (executed : s.ledger.executed u = 0) (code : r.errorCode = some .workerUnavailable)
      (message : r.errorMessage = some "Scheduler stopped before task execution started.")
  | interrupted (e : Raised) (code : r.errorCode = some .internalError)
      (message : r.errorMessage = some ("Worker loop failed: " ++ e.text))
  | thrown (code : r.errorCode = some .internalError)
      (message : r.errorMessage = some ("Execution failed: " ++ processClosed.text))
  | fault (w : PlatformError) (what : Fault s u w)
      (code : r.errorCode =
        some (if w.code = .workerUnavailable then .workerUnavailable else .internalError))
      (message : r.errorMessage = some ("Execution failed: " ++ w.message))

/-- An exception of a task's future is a fault of its request. -/
theorem exception_fault (h : (deployment keys memory ι).Reachable s)
    {f : SchedulerState.FutureId} {x : Raised} (hlt : f < s.ledger.nextFuture)
    (ho : (s.ledger.futures f).outcome = some (.exception x)) :
    ∃ w, x = .platform w ∧ Fault s (s.ledger.futures f).task w := by
  obtain ⟨g, res, hout, cause, accepted⟩ := outcome_cause h hlt ho
  have sent : ∀ o, s.wire.sentTo g = some o → Sent s (s.ledger.futures f).task o := by
    intro o hs
    obtain ⟨u, hu⟩ := (reachable_carried (unmixed_alone h)).booked g o hs
    exact ⟨g, accepted u hu ▸ hu, hs⟩
  cases cause with
  | answered m hm hacc =>
    obtain ⟨v, hv, hid, rfl⟩ := received_reply h hm
    rw [Service.reply, reply_resolution] at hout
    cases hx : v.execution.outcome with
    | ok result =>
      rw [hx] at hout
      cases hout
    | error e =>
      rw [hx] at hout
      cases hout
      have mine := hid.trans (accepted _ hacc)
      exact ⟨_, rfl, .raised v e hv mine (mine ▸ (reachable_orderly h).served v hv) hx⟩
  | refused w refusal =>
    cases hout
    exact ⟨w, rfl, .refused w refusal⟩
  | exited o hs gone =>
    cases hout
    exact ⟨_, rfl, .exited o (sent o hs) gone⟩
  | unloaded o hs =>
    cases hout
    exact ⟨_, rfl, .unloaded o (sent o hs)⟩
  | shutDown r known closing =>
    cases hout
    exact ⟨_, rfl, .shutDown r known closing⟩
  | closed closing =>
    cases hout
    exact ⟨_, rfl, .closed closing⟩

/-- The record of a failed task tells what went wrong, and what it tells is true. -/
theorem failed_record_says_why (h : (deployment keys memory ι).Reachable s) {r : TaskRecord}
    (hrec : s.ledger.record u = some r) (hf : r.status = .failed) : Explained s u r := by
  have reasons := reachable_reasons (scheduler_alone h) (own_backend h)
  cases reasons.blamed u r hrec hf with
  | stopped executed code message => exact .stopped executed code message
  | ended m code message reason =>
    cases m with
    | failTask x =>
      obtain ⟨rfl, -⟩ := reason
      exact .thrown code message
    | workerLoop e => exact .interrupted e code message
    | completeTask out =>
      obtain ⟨f, hlt, rfl, ho⟩ := reason
      cases out with
      | result payload =>
        obtain ⟨stage, hst⟩ := stages (scheduler_alone h)
        obtain ⟨x, hx⟩ := (ended_record hst (own_backend h) hrec (by rw [hf]; rfl)).failed r hrec hf
          f hlt rfl
        cases ho.symm.trans hx
      | exception x =>
        obtain ⟨w, rfl, what⟩ := exception_fault h hlt ho
        exact .fault w what code message

theorem failed_record_says_why_broken :
    ∃ s, (deployment echoKeys echoMemory Unit).Reachable s ∧ ∃ r,
      s.ledger.record "t" = some r ∧ r.errorMessage = some "Execution failed: overcast" ∧
      Explained s "t" r := by
  obtain ⟨s, h, hs⟩ := echo_spec echo_runs.2.2.2.2
  obtain ⟨r, hr, hs⟩ := (Option.any_eq_true _ _).mp (of_decide_eq_true hs)
  obtain ⟨hf, hm⟩ := of_decide_eq_true hs
  exact ⟨s, h, r, hr, hm, failed_record_says_why h hr hf⟩

end EndToEnd
