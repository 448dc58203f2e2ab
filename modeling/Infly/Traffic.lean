import Infly.Coupling
import Infly.PoolSettling

/-! # Requests on their way

Where a request is between `strategy.execute` and the future's outcome: on the queue of one
process, in one service of that process, lost on the way to it, or gone with the process.
-/
namespace Traffic

open Contracts Config PoolState StaleResults CacheKey ExecutorCache WorkerProcess SchedulerState
  SchedulerLedger SchedulerStages SchedulerAccounts SchedulerFutures PoolDelivery PoolInvariant
  PoolSettling Holders Deployment Coupling Transitions

variable {ι : Type} [DecidableEq ι] {keys : CacheKeys} {memory : Memory}
  {s t : Deployment.State ι} {e : Deployment.Event ι} {u : TaskId} {o : Incarnation}

/-- The request of a future for `u` went to process `o`. -/
def Sent (s : Deployment.State ι) (u : TaskId) (o : Incarnation) : Prop :=
  ∃ g, s.history.acceptedTask g = some u ∧ s.wire.sentTo g = some o

/-- The tasks that processes have served or have still to serve. -/
def handled (s : Deployment.State ι) : List TaskId :=
  s.services.map (fun v => v.request.taskId) ++ s.wire.queued.map Prod.fst

/-- `inbox`: the queues hold the requests that the pool has put on them; `once`: no request is
served or waits twice; `queued`, `served`: a process has only what was sent to it; `waiting`,
`received`: messages are replies; `faithful`: a request is the one in its task's record. -/
structure Orderly (s : Deployment.State ι) : Prop where
  inbox : ∀ o, (s.wire.queued.filter fun x => decide (x.2 = o)).map Prod.fst =
    (s.inbox o).map TaskRequest.taskId
  once : (handled s).Nodup
  queued : ∀ u o, (u, o) ∈ s.wire.queued → Sent s u o
  served : ∀ v ∈ s.services, Sent s v.request.taskId v.process
  waiting : ∀ o m, (o, m) ∈ s.wire.waiting → ∃ v ∈ s.services, v.process = o ∧ m = v.reply
  received : ∀ m ∈ s.history.received, ∃ v ∈ s.services, m = v.reply
  faithful : ∀ q, (∃ o, q ∈ s.inbox o) ∨ (∃ v ∈ s.services, v.request = q) →
    ∀ r, s.ledger.record q.taskId = some r → r.request = q

omit [DecidableEq ι] in
theorem Orderly.sent (h : Orderly s) {q : TaskRequest}
    (hq : (∃ o, q ∈ s.inbox o) ∨ ∃ v ∈ s.services, v.request = q) :
    ∃ o, Sent s q.taskId o := by
  rcases hq with ⟨o, hq⟩ | ⟨v, hv, rfl⟩
  · have hmem : q.taskId ∈ (s.inbox o).map TaskRequest.taskId := List.mem_map_of_mem hq
    rw [← h.inbox o] at hmem
    obtain ⟨x, hx, heq⟩ := List.mem_map.mp hmem
    obtain ⟨hx, ho⟩ := List.mem_filter.mp hx
    refine ⟨o, h.queued _ _ ?_⟩
    rw [← heq, ← of_decide_eq_true ho]
    exact hx
  · exact ⟨v.process, h.served v hv⟩

omit [DecidableEq ι] in
/-- Whose request was sent has a future of the scheduler's. -/
theorem Sent.launched (h : Sent s u o) (hc : Coupled s) :
    ∃ f, f < s.ledger.nextFuture ∧ (s.ledger.futures f).task = u := by
  obtain ⟨g, ha, _⟩ := h
  obtain ⟨f, hg, ht⟩ := hc.accepted g u ha
  exact ⟨f, (hc.bound g f hg).1, ht⟩

/-- One future for each task. -/
theorem accepted_once (hr : (deployment keys memory ι).Reachable s) {g g' : PoolState.FutureId}
    (h : s.history.acceptedTask g = some u) (h' : s.history.acceptedTask g' = some u) :
    g = g' := by
  have hc := reachable_coupled hr
  obtain ⟨f, hg, ht⟩ := hc.accepted g u h
  obtain ⟨f', hg', ht'⟩ := hc.accepted g' u h'
  have same := (reachable_futures (honest_single (scheduler_alone hr))).distinct f f'
    (hc.bound g f hg).1 (hc.bound g' f' hg').1 (ht.trans ht'.symm)
  exact hc.injective g g' f hg (same ▸ hg')

theorem sent_once (hr : (deployment keys memory ι).Reachable s) {o' : Incarnation}
    (h : Sent s u o) (h' : Sent s u o') : o = o' := by
  obtain ⟨g, ha, ho⟩ := h
  obtain ⟨g', ha', ho'⟩ := h'
  cases accepted_once hr ha ha'
  exact Option.some.inj (ho.symm.trans ho')

/-- What was sent stays sent. -/
theorem Sent.kept (hr : (deployment keys memory ι).Reachable s) {b : WireEvent (User ι)}
    (hb : WireEnabled s.wire b) (ht : t.wire = wireNext s.wire b) (h : Sent s u o) :
    Sent t u o := by
  obtain ⟨g, ha, ho⟩ := h
  have hd := reachable_delivery (pool_alone hr)
  have old : g ≠ s.history.nextFuture := by
    rintro rfl
    cases ha.symm.trans (hd.unused _ le_rfl).1
  refine ⟨g, ?_, ?_⟩
  · rw [State.history, ht]
    rcases wire_state hb with hs | ⟨c, _, hs⟩ <;> rw [hs]
    · exact ha
    · exact accepted_frame hd ha
  · rw [ht, sent_next old]
    exact ho

/-- A record that is there after a step with its task's future before it keeps its request. -/
theorem record_run (hr : (deployment keys memory ι).Reachable s)
    (hst : (deployment keys memory ι).step s e t) {f : SchedulerState.FutureId}
    (hf : f < s.ledger.nextFuture) (ht : (s.ledger.futures f).task = u) {r : TaskRecord}
    (h : t.ledger.record u = some r) :
    ∃ r₀, s.ledger.record u = some r₀ ∧ r.request = r₀.request := by
  have run := scheduler_run hr hst
  have all := run.preserves (P := fun x => (schedulerAlone ι).Reachable x ∧
    (f < x.shared.ledger.nextFuture ∧ (x.shared.ledger.futures f).task = u) ∧
    ∀ r, x.shared.ledger.record u = some r →
      ∃ r₀, s.ledger.record u = some r₀ ∧ r.request = r₀.request)
    (fun x b y hx hxy => ?_) ⟨scheduler_alone hr, ⟨hf, ht⟩, fun r hr => ⟨r, hr, rfl⟩⟩
  · exact all.2.2 r h
  · obtain ⟨reach, ⟨hlt, htask⟩, hrec⟩ := hx
    obtain ⟨stage, hstage⟩ := stages reach
    refine ⟨reach.next hxy, ?_, fun r hr => ?_⟩
    · rcases step_futures hxy.2 with ⟨hn, hsame⟩ | ⟨a, v, request, _, _, rfl⟩ |
        ⟨g, q, _, _, _, rfl⟩
      · exact ⟨hn ▸ hlt, (hsame f).1.trans htask⟩
      · refine ⟨Nat.lt_succ_of_lt hlt, ?_⟩
        rw [SchedulerModel.goto_shared]
        dsimp only
        rw [launch_future, if_neg (Nat.ne_of_lt hlt)]
        exact htask
      · refine ⟨hlt, ?_⟩
        dsimp only
        rw [resolve_future]
        split
        · rename_i hfg
          exact hfg ▸ htask
        · exact htask
    · obtain ⟨r₁, hr₁, heq⟩ := launched_record hstage hxy.2 hlt hr htask
      obtain ⟨r₀, hr₀, heq₀⟩ := hrec r₁ hr₁
      exact ⟨r₀, hr₀, heq.trans heq₀⟩

/-- A request that is on its way stays the one in its task's record. -/
theorem Orderly.kept (h : Orderly s) (hr : (deployment keys memory ι).Reachable s)
    (hst : (deployment keys memory ι).step s e t) {q : TaskRequest}
    (hq : (∃ o, q ∈ s.inbox o) ∨ ∃ v ∈ s.services, v.request = q) {r : TaskRecord}
    (hrec : t.ledger.record q.taskId = some r) : r.request = q := by
  obtain ⟨o, sent⟩ := h.sent hq
  obtain ⟨f, hf, ht⟩ := sent.launched (reachable_coupled hr)
  obtain ⟨r₀, hr₀, heq⟩ := record_run hr hst hf ht hrec
  exact heq.trans (h.faithful q hq r₀ hr₀)

/-- Nothing is put on a queue and nothing is served. -/
theorem Orderly.frame (h : Orderly s) (hr : (deployment keys memory ι).Reachable s)
    (hst : (deployment keys memory ι).step s e t) (hq : t.wire.queued = s.wire.queued)
    (hw : ∀ x ∈ t.wire.waiting, x ∈ s.wire.waiting) (hi : t.inbox = s.inbox)
    (hv : t.services = s.services) (hsent : ∀ u o, Sent s u o → Sent t u o)
    (hrec : ∀ m ∈ t.history.received, m ∈ s.history.received ∨ ∃ o, (o, m) ∈ s.wire.waiting) :
    Orderly t where
  inbox o := by
    rw [hq, hi]
    exact h.inbox o
  once := by
    unfold handled
    rw [hq, hv]
    exact h.once
  queued u o hu := hsent u o (h.queued u o (hq ▸ hu))
  served v hvs := hsent _ _ (h.served v (hv ▸ hvs))
  waiting o m hm := by
    rw [hv]
    exact h.waiting o m (hw _ hm)
  received m hm := by
    rw [hv]
    rcases hrec m hm with hm | ⟨o, hm⟩
    · exact h.received m hm
    · obtain ⟨v, hvs, _, hreply⟩ := h.waiting o m hm
      exact ⟨v, hvs, hreply⟩
  faithful q hqs r hqr := by
    rw [hi, hv] at hqs
    exact h.kept hr hst hqs hqr

omit [DecidableEq ι] in
theorem handled_sent (h : Orderly s) (hu : u ∈ handled s) : ∃ o, Sent s u o := by
  rcases List.mem_append.mp hu with hu | hu
  · obtain ⟨v, hv, rfl⟩ := List.mem_map.mp hu
    exact ⟨v.process, h.served v hv⟩
  · obtain ⟨x, hx, rfl⟩ := List.mem_map.mp hu
    exact ⟨x.2, h.queued x.1 x.2 hx⟩

/-- The task that the strategy is called for is nowhere else. -/
theorem executing_unhandled (hr : (deployment keys memory ι).Reachable s) (h : Orderly s)
    {a : Thread ι} {request : TaskRequest} (hp : s.scheduler.pc a = .executing u request) :
    u ∉ handled s := by
  intro hu
  obtain ⟨o, sent⟩ := handled_sent h hu
  obtain ⟨f, hf, ht⟩ := sent.launched (reachable_coupled hr)
  obtain ⟨stage, hst⟩ := stages (scheduler_alone hr)
  exact (executing_unlaunched hst hp).2.2 f hf ht

/-- The request is put on the queue of the worker that the pool chose. -/
theorem orderly_assigned (hr : (deployment keys memory ι).Reachable s) (h : Orderly s)
    (hst : (deployment keys memory ι).step s e t) {a : Thread ι} {putRaises : List String}
    {request : TaskRequest} {r : Ref} (hp : s.scheduler.pc a = .executing u request)
    (hx : (PoolState.execute s.pool putRaises request s.history.nextFuture).2 = .assigned r)
    (hw : t.wire = wireNext s.wire (.step (.execute request putRaises)))
    (hi : t.inbox = Function.update s.inbox (incarnation s.pool r)
      (s.inbox (incarnation s.pool r) ++ [request]))
    (hv : t.services = s.services)
    (hl : t.ledger = s.ledger.launch u) : Orderly t := by
  obtain ⟨stage, hstage⟩ := stages (scheduler_alone hr)
  have named := reachable_named (honest_single (scheduler_alone hr)) (own_backend hr)
  obtain ⟨hid, hrecord⟩ := executing_named hstage named hp
  have queue : t.wire.queued = s.wire.queued ++ [(u, incarnation s.pool r)] := by
    rw [hw, ← hid]
    exact Wire.queue_assigned hx
  have hist : t.history = { s.history with
      nextFuture := s.history.nextFuture + 1
      acceptedTask := Function.update s.history.acceptedTask s.history.nextFuture
        (some request.taskId) } := by
    rw [State.history, hw]
    exact execute_assigned hx
  have kept : ∀ v o, Sent s v o → Sent t v o := fun v o hs =>
    hs.kept hr (b := .step (.execute request putRaises)) trivial hw
  have new : Sent t u (incarnation s.pool r) := by
    refine ⟨s.history.nextFuture, ?_, ?_⟩
    · rw [hist, ← hid]
      exact Function.update_self ..
    · rw [hw]
      exact (congrFun (Wire.sent_assigned hx) _).trans (Function.update_self ..)
  refine ⟨fun o => ?_, ?_, fun v o ho => ?_, fun v hvs => ?_, fun o m hm => ?_, fun m hm => ?_,
    fun q hq r' hr' => ?_⟩
  · rw [queue, hi, List.filter_append, List.map_append, h.inbox o]
    by_cases ho : o = incarnation s.pool r
    · subst ho
      simp [hid]
    · simp [Function.update_of_ne ho, Ne.symm ho]
  · unfold handled
    rw [hv, queue, List.map_append, ← List.append_assoc]
    refine List.nodup_append.mpr ⟨h.once, List.nodup_singleton _, ?_⟩
    rintro v hvs w hws rfl
    have heq : v = u := List.mem_singleton.mp hws
    exact executing_unhandled hr h hp (heq ▸ hvs)
  · rw [queue] at ho
    rcases List.mem_append.mp ho with ho | ho
    · exact kept v o (h.queued v o ho)
    · cases List.mem_singleton.mp ho
      exact new
  · exact kept _ _ (h.served v (hv ▸ hvs))
  · rw [hv]
    rw [hw] at hm
    exact h.waiting o m hm
  · rw [hv]
    rw [hist] at hm
    exact h.received m hm
  · rw [hi, hv] at hq
    have old : ((∃ o, q ∈ s.inbox o) ∨ ∃ v ∈ s.services, v.request = q) ∨ q = request := by
      rcases hq with ⟨o, hq⟩ | hq
      · by_cases ho : o = incarnation s.pool r
        · subst ho
          rw [Function.update_self] at hq
          rcases List.mem_append.mp hq with hq | hq
          · exact .inl (.inl ⟨_, hq⟩)
          · exact .inr (List.mem_singleton.mp hq)
        · rw [Function.update_of_ne ho] at hq
          exact .inl (.inl ⟨o, hq⟩)
      · exact .inl (.inr hq)
    rcases old with old | rfl
    · exact h.kept hr hst old hr'
    · rw [hl, hid] at hr'
      exact hrecord r' hr'

/-- A process takes the first request of its queue and answers it. -/
theorem orderly_served (hr : (deployment keys memory ι).Reachable s) (h : Orderly s)
    (hst : (deployment keys memory ι).step s e t) {v : Service} {rest : List TaskRequest}
    (hi : s.inbox v.process = v.request :: rest)
    (hb : WireEnabled s.wire (.answer v.process v.reply))
    (hw : t.wire = wireNext s.wire (.answer v.process v.reply))
    (hi' : t.inbox = Function.update s.inbox v.process rest)
    (hv : t.services = s.services ++ [v]) : Orderly t := by
  have reply : v.reply.taskId = v.request.taskId := reply_taskId ..
  have queue : t.wire.queued = s.wire.queued.erase (v.request.taskId, v.process) := by
    rw [hw, ← reply]
    rfl
  have there : (v.request.taskId, v.process) ∈ s.wire.queued := reply ▸ hb.1
  have kept : ∀ u o, Sent s u o → Sent t u o := fun u o hs => hs.kept hr hb hw
  have mine := h.inbox v.process
  rw [hi, List.map_cons] at mine
  refine ⟨fun o => ?_, ?_, fun u o ho => ?_, fun w hws => ?_, fun o m hm => ?_, fun m hm => ?_,
    fun q hq r hrec => ?_⟩
  · rw [queue, hi', ← List.erase_filter]
    by_cases ho : o = v.process
    · subst ho
      rw [Function.update_self]
      cases hf : s.wire.queued.filter fun x => decide (x.2 = v.process) with
      | nil =>
        rw [hf] at mine
        cases mine
      | cons x l =>
        rw [hf, List.map_cons] at mine
        obtain ⟨hx, hl⟩ := List.cons.inj mine
        have hx2 : x.2 = v.process := by
          have hmem : x ∈ s.wire.queued.filter fun x => decide (x.2 = v.process) := by
            rw [hf]
            exact List.mem_cons_self
          exact of_decide_eq_true (List.mem_filter.mp hmem).2
        rw [show x = (v.request.taskId, v.process) from Prod.ext hx hx2, List.erase_cons_head]
        exact hl
    · rw [Function.update_of_ne ho, List.erase_of_not_mem, h.inbox o]
      intro hmem
      exact ho (of_decide_eq_true (List.mem_filter.mp hmem).2).symm
  · unfold handled
    rw [hv, queue, List.map_append, List.append_assoc]
    have perm := (List.perm_cons_erase there).map Prod.fst
    refine (List.Perm.nodup_iff ?_).mp h.once
    exact perm.append_left _
  · rw [queue] at ho
    exact kept u o (h.queued u o (List.mem_of_mem_erase ho))
  · rw [hv] at hws
    rcases List.mem_append.mp hws with hws | hws
    · exact kept _ _ (h.served w hws)
    · cases List.mem_singleton.mp hws
      exact kept _ _ (h.queued _ _ there)
  · rw [hw] at hm
    rw [hv]
    rcases List.mem_append.mp hm with hm | hm
    · obtain ⟨w, hws, hrest⟩ := h.waiting o m hm
      exact ⟨w, List.mem_append_left _ hws, hrest⟩
    · cases List.mem_singleton.mp hm
      exact ⟨v, List.mem_append_right _ (List.mem_singleton.mpr rfl), rfl, rfl⟩
  · rw [State.history, hw] at hm
    obtain ⟨w, hws, hrest⟩ := h.received m hm
    exact ⟨w, hv ▸ List.mem_append_left _ hws, hrest⟩
  · refine h.kept hr hst ?_ hrec
    rw [hi', hv] at hq
    have head : v.request ∈ s.inbox v.process := hi ▸ List.mem_cons_self
    rcases hq with ⟨o, hq⟩ | ⟨w, hws, rfl⟩
    · refine .inl ⟨o, ?_⟩
      by_cases ho : o = v.process
      · subst ho
        rw [Function.update_self] at hq
        rw [hi]
        exact List.mem_cons_of_mem _ hq
      · rwa [Function.update_of_ne ho] at hq
    · rcases List.mem_append.mp hws with hws | hws
      · exact .inr ⟨w, hws, rfl⟩
      · cases List.mem_singleton.mp hws
        exact .inl ⟨_, head⟩

/-- A process ends, and with it what waits on its queue. -/
theorem orderly_exited (hr : (deployment keys memory ι).Reachable s) (h : Orderly s)
    (hst : (deployment keys memory ι).step s e t) {r : Ref}
    (hb : WireEnabled s.wire (.step (.processExit r)))
    (hw : t.wire = wireNext s.wire (.step (.processExit r)))
    (hi : t.inbox = Function.update s.inbox (incarnation s.pool r) [])
    (hv : t.services = s.services) : Orderly t := by
  have queue : t.wire.queued =
      s.wire.queued.filter fun x => decide (x.2 ≠ incarnation s.pool r) := by
    rw [hw]
    rfl
  have kept : ∀ u o, Sent s u o → Sent t u o := fun u o hs => hs.kept hr hb hw
  refine ⟨fun o => ?_, ?_, fun u o ho => ?_, fun v hvs => ?_, fun o m hm => ?_, fun m hm => ?_,
    fun q hq r' hr' => ?_⟩
  · rw [queue, hi, List.filter_filter]
    by_cases ho : o = incarnation s.pool r
    · subst ho
      rw [Function.update_self]
      simp
    · rw [Function.update_of_ne ho, ← h.inbox o]
      refine congrArg (List.map Prod.fst) (List.filter_congr fun x _ => ?_)
      by_cases hx : x.2 = o
      · simp [hx, ho]
      · simp [hx]
  · unfold handled
    rw [hv, queue]
    refine h.once.sublist (List.Sublist.append_left ?_ _)
    exact List.filter_sublist.map _
  · rw [queue] at ho
    exact kept u o (h.queued u o (List.mem_of_mem_filter ho))
  · exact kept _ _ (h.served v (hv ▸ hvs))
  · rw [hv]
    rw [hw] at hm
    exact h.waiting o m hm
  · rw [hv]
    rw [State.history, hw] at hm
    exact h.received m hm
  · refine h.kept hr hst ?_ hr'
    rw [hi, hv] at hq
    refine hq.imp_left fun ho => ?_
    obtain ⟨o, hq⟩ := ho
    refine ⟨o, ?_⟩
    by_cases ho : o = incarnation s.pool r
    · subst ho
      rw [Function.update_self] at hq
      cases hq
    · rwa [Function.update_of_ne ho] at hq

omit [DecidableEq ι] in
/-- The list that a queue keeps of what it holds loses the same place as the queue. -/
theorem inbox_lost (h : Orderly s) {k : ℕ} {request : TaskRequest}
    (hi : (s.inbox o)[k]? = some request) :
    ((s.wire.queued.erase (request.taskId, o)).filter fun x => decide (x.2 = o)).map Prod.fst =
      ((s.inbox o).eraseIdx k).map TaskRequest.taskId := by
  have mine := h.inbox o
  have place : ((s.wire.queued.filter fun x => decide (x.2 = o)).map Prod.fst)[k]? =
      some request.taskId := by
    rw [mine, List.getElem?_map, hi]
    rfl
  have nodup : ((s.wire.queued.filter fun x => decide (x.2 = o)).map Prod.fst).Nodup :=
    (h.once.sublist (List.sublist_append_right _ _)).sublist (List.filter_sublist.map _)
  rw [← List.eraseIdx_map, ← mine, ← List.erase_filter, List.eraseIdx_map]
  refine congrArg (List.map Prod.fst) ?_
  rw [List.getElem?_map, Option.map_eq_some_iff] at place
  obtain ⟨x, hx, hid⟩ := place
  have there := List.mem_of_getElem? hx
  have heq : x = (request.taskId, o) :=
    Prod.ext hid (of_decide_eq_true (List.mem_filter.mp there).2)
  obtain ⟨hlt, hget⟩ := List.getElem?_eq_some_iff.mp hx
  rw [← heq, ← hget, List.Nodup.erase_getElem (List.Nodup.of_map _ nodup)]

/-- The feeder of a queue drops a request. -/
theorem orderly_lost (hr : (deployment keys memory ι).Reachable s) (h : Orderly s)
    (hst : (deployment keys memory ι).step s e t) {k : ℕ} {request : TaskRequest}
    (hi : (s.inbox o)[k]? = some request) (hb : WireEnabled s.wire (.lose request.taskId o))
    (hw : t.wire = wireNext s.wire (.lose request.taskId o))
    (hi' : t.inbox = Function.update s.inbox o ((s.inbox o).eraseIdx k))
    (hv : t.services = s.services) : Orderly t := by
  have queue : t.wire.queued = s.wire.queued.erase (request.taskId, o) := by
    rw [hw]
    rfl
  have kept : ∀ u o, Sent s u o → Sent t u o := fun u o hs => hs.kept hr hb hw
  refine ⟨fun o' => ?_, ?_, fun u o' ho => ?_, fun v hvs => ?_, fun o' m hm => ?_, fun m hm => ?_,
    fun q hq r hrec => ?_⟩
  · rw [queue, hi']
    by_cases ho : o' = o
    · subst ho
      rw [Function.update_self]
      exact inbox_lost h hi
    · rw [Function.update_of_ne ho, ← List.erase_filter, List.erase_of_not_mem, h.inbox o']
      intro hmem
      exact ho (of_decide_eq_true (List.mem_filter.mp hmem).2).symm
  · unfold handled
    rw [hv, queue]
    exact h.once.sublist (List.Sublist.append_left (List.erase_sublist.map _) _)
  · rw [queue] at ho
    exact kept u o' (h.queued u o' (List.mem_of_mem_erase ho))
  · exact kept _ _ (h.served v (hv ▸ hvs))
  · rw [hv]
    rw [hw] at hm
    exact h.waiting o' m hm
  · rw [hv]
    rw [State.history, hw] at hm
    exact h.received m hm
  · rw [hi', hv] at hq
    refine h.kept hr hst (hq.imp_left fun ho => ?_) hrec
    obtain ⟨o', hq⟩ := ho
    refine ⟨o', ?_⟩
    by_cases ho : o' = o
    · subst ho
      rw [Function.update_self] at hq
      exact List.mem_of_mem_eraseIdx hq
    · rwa [Function.update_of_ne ho] at hq

omit [DecidableEq ι] in
/-- Of the steps of the pool alone only the end of a process touches the queues. -/
theorem alone_queues {b : PoolModel.Event (User ι)} (own : alone b = true) :
    (∃ r, b = .processExit r) ∨ s.wire.queue b = s.wire.queued ∧ inboxes s b = s.inbox := by
  cases b
  case execute => cases own
  case processExit r => exact .inl ⟨r, rfl⟩
  all_goals exact .inr ⟨rfl, rfl⟩

omit [DecidableEq ι] in
/-- A call that books nothing puts nothing on a queue. -/
theorem queue_unassigned {request : TaskRequest} {putRaises : List String}
    (h : ∀ r, (PoolState.execute s.pool putRaises request s.history.nextFuture).2 ≠ .assigned r) :
    s.wire.queue (.execute request putRaises) = s.wire.queued := by
  simp only [Wire.queue]
  split
  · rename_i heq
    exact absurd (congrArg Prod.snd heq) (h _)
  · rfl

theorem orderly_next (hr : (deployment keys memory ι).Reachable s) (h : Orderly s)
    (hst : (deployment keys memory ι).step s e t) : Orderly t := by
  have same : ∀ (t : Deployment.State ι), t.wire = s.wire → ∀ u o, Sent s u o → Sent t u o :=
    fun t ht u o hs => (by rw [Sent, State.history, ht]; exact hs)
  cases next_change hst.2 with
  | scheduler b x own hx =>
    exact h.frame hr hst rfl (fun _ hw => hw) rfl rfl (same _ rfl) fun _ hm => .inl hm
  | closed i c timeout workers x hp hx =>
    exact h.frame hr hst rfl (fun _ hw => hw) rfl rfl (same _ rfl) fun _ hm => .inl hm
  | boot o load registry hc =>
    exact h.frame hr hst rfl (fun _ hw => hw) rfl rfl (same _ rfl) fun _ hm => .inl hm
  | assigned a putRaises v request r x hp hx hstep =>
    cases launch_step hp hstep
    exact orderly_assigned hr h hst hp hx rfl rfl rfl rfl
  | rejected a putRaises v request w x y hp hx hstep hy =>
    refine h.frame hr hst (queue_unassigned fun r heq => ?_) (fun _ hw => hw) rfl rfl
      (fun u o hs => hs.kept hr (b := .step (.execute request putRaises)) trivial rfl)
      fun m hm => .inl ?_
    · cases hx.symm.trans heq
    · exact (congrArg PoolModel.History.received (execute_refused hx)) ▸ hm
  | raised a putRaises v request w x hp hx hstep =>
    refine h.frame hr hst (queue_unassigned fun r heq => ?_) (fun _ hw => hw) rfl rfl
      (fun u o hs => hs.kept hr (b := .step (.execute request putRaises)) trivial rfl)
      fun m hm => .inl ?_
    · cases hx.symm.trans heq
    · exact (congrArg PoolModel.History.received (execute_thrown hx)) ▸ hm
  | add definition =>
    exact h.frame hr hst rfl (fun _ hw => hw) rfl rfl
      (fun u o hs => hs.kept hr (b := .step (.registerHandler _)) trivial rfl) fun _ hm => .inl hm
  | close i open_ he =>
    have hist : (PoolModel.closeCallNext s.wire.state (.client i) .own).history = s.history := by
      unfold PoolModel.closeCallNext
      split <;> rfl
    exact h.frame hr hst rfl (fun _ hw => hw) rfl rfl
      (fun u o hs => hs.kept hr (b := .step (.closeCall (.client i))) he rfl)
      fun m hm => .inl (hist ▸ hm)
  | serve o load handle own executor executor' request rest v hc hi hv hn he =>
    subst hv
    exact orderly_served hr h hst hi he rfl rfl rfl
  | receive o m he =>
    refine h.frame hr hst rfl (fun _ hw => List.mem_of_mem_erase hw) rfl rfl
      (fun u o' hs => hs.kept hr he rfl) fun m' hm => ?_
    have hm : m' ∈ m :: s.history.received := (receive_history s.wire.state m).2.2.2 ▸ hm
    rcases List.mem_cons.mp hm with rfl | hm
    · exact .inr ⟨o, he.1⟩
    · exact .inl hm
  | lose o k request hi he => exact orderly_lost hr h hst hi he rfl rfl rfl
  | drop o m he | garble o m w he =>
    exact h.frame hr hst rfl (fun _ hw => List.mem_of_mem_erase hw) rfl rfl
      (fun u o' hs => hs.kept hr he rfl) fun _ hm => .inl hm
  | pool b child x own hh he hc hx =>
    have hb : WireEnabled s.wire (.step b) := by
      cases b <;> first
        | exact he
        | cases own
    rcases alone_queues (s := s) own with ⟨r, rfl⟩ | ⟨hq, hi⟩
    · exact orderly_exited hr h hst hb rfl rfl rfl
    · refine h.frame hr hst hq (fun _ hw => hw) hi rfl (fun u o hs => hs.kept hr hb rfl)
        fun m hm => .inl ?_
      rcases alone_history (s := s.wire.state) own with ⟨_, alike⟩ | ⟨g, res, _, hist⟩
      · exact alike.received ▸ hm
      · exact (congrArg PoolModel.History.received hist) ▸ hm

theorem reachable_orderly (h : (deployment keys memory ι).Reachable s) : Orderly s := by
  refine System.invariant_reachable ?_ (fun _ _ _ hr hs hst => orderly_next hr hs hst) h
  rintro s ⟨config, definitions, groups, p, pipe, logs, load, _, rfl⟩
  exact ⟨fun _ => rfl, List.nodup_nil, fun _ _ hu => (by cases hu), fun _ hv => (by cases hv),
    fun _ _ hm => (by cases hm), fun _ hm => (by cases hm), fun _ hq => by
      rcases hq with ⟨_, hq⟩ | ⟨_, hq, _⟩ <;> cases hq⟩

end Traffic
