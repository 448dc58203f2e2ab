import Infly.PoolRouting

/-! # Failover in `execute`

When queues refuse the request, `execute` goes on to the next live worker of a group that
hosts the handler.
-/
namespace Failover

open Contracts PoolState PoolTables PoolAccounting PoolGroups PoolModel PoolInvariant PoolRouting

/-- The live workers of the groups on the handler's route. -/
def candidates (p : Pool) (handlerName : String) : List Ref :=
  ((p.handlerGroups.get? handlerName).getD []).flatMap (aliveWorkersLocked p)

/-- The workers on whose queues `execute` calls `put_nowait`, in order. -/
def attempts (p : Pool) (putRaises : List String) (request : TaskRequest) (future : FutureId) :
    List Ref := (executeTrying p putRaises request future).2.2

/-- The request is booked on `r`, and only on `r`. -/
structure Booked (p q : Pool) (request : TaskRequest) (future : FutureId) (r : Ref) : Prop where
  futures : q.futures = p.futures.set request.taskId future
  assignments : q.assignments = p.assignments.set request.taskId (p.heap r).assignment
  heap : q.heap = Function.update p.heap r
    { p.heap r with outstanding := (p.heap r).outstanding + 1 }
  workers : q.workers = p.workers

/-- No trace of the request is left. -/
structure Unbooked (p q : Pool) : Prop where
  futures : q.futures = p.futures
  assignments : q.assignments = p.assignments
  heap : q.heap = p.heap
  workers : q.workers = p.workers

variable {ι : Type} [DecidableEq ι] {s : State ι} {p : Pool} {g handlerName : String} {r : Ref}

theorem alive_nodup (hp : Consistent p) (g : String) : (aliveWorkersLocked p g).Nodup :=
  hp.books.values_nodup.filter _

theorem ordered_perm (hg : ∃ group, p.groups.get? g = some group) :
    (orderedWorkersLocked p g).Perm (aliveWorkersLocked p g) := by
  obtain ⟨group, hg⟩ := hg
  unfold orderedWorkersLocked
  rw [hg]
  exact List.perm_insertionSort _ _

theorem route_nodup (hr : Routing p) (h : String) : ((p.handlerGroups.get? h).getD []).Nodup := by
  have := hr.listed h
  unfold routes at this
  rw [this]
  exact p.groups.keys_nodup.filter _

theorem route_registered (hr : Routing p) (h : String) :
    ∀ g ∈ (p.handlerGroups.get? h).getD [], ∃ group, p.groups.get? g = some group := by
  intro g hg
  have := hr.listed h
  unfold routes at this
  rw [this] at hg
  exact Dict.mem_keys.mp (List.mem_of_mem_filter hg)

theorem candidates_nodup (hp : Consistent p) (hr : Routing p) (h : String) :
    (candidates p h).Nodup := by
  unfold candidates
  rw [List.nodup_flatMap]
  refine ⟨fun g _ => alive_nodup hp g, ?_⟩
  apply (route_nodup hr h).imp
  intro g g' hne r hm hm'
  apply hne
  rw [← (mem_aliveWorkersLocked.mp hm).2.1, ← (mem_aliveWorkersLocked.mp hm').2.1]

/-- While the pool accepts requests, no handle raises when it is asked for liveness. -/
theorem live_handles (hp : Consistent p) (ho : p.accepting = true) (g : String) :
    livenessRaises p g = false := by
  unfold livenessRaises
  rw [List.any_eq_false]
  intro r hr hraise
  have hflag := hp.books.flags
  rw [ho] at hflag
  have hclosing : p.closing = false := by simpa using hflag
  simp only [Bool.and_eq_true, beq_iff_eq] at hraise
  obtain ⟨⟨-, halive⟩, hclosed⟩ := hraise
  obtain ⟨h, hh, hu⟩ := hp.books.handles hclosing r (inTable_values.mpr hr) halive
  rw [hclosed] at hh
  cases hh
  rcases hu with hu | hu <;> cases hu

/-- The groups that `execute` goes through have all the candidates, in some order. -/
theorem ordered_candidates (hr : Routing p) (h : String) :
    ((((p.handlerGroups.get? h).getD []).filter
      fun g => !(aliveWorkersLocked p g).isEmpty).flatMap (orderedWorkersLocked p)).Perm
      (candidates p h) := by
  have hreg := route_registered hr h
  unfold candidates
  generalize (p.handlerGroups.get? h).getD [] = hosts at hreg
  induction hosts with
  | nil => exact List.Perm.nil
  | cons g hosts ih =>
    have rest := ih fun g' hg' => hreg g' (List.mem_cons_of_mem _ hg')
    rw [List.flatMap_cons, List.filter_cons]
    by_cases he : (aliveWorkersLocked p g).isEmpty = true
    · rw [he, List.isEmpty_iff.mp he]
      exact rest
    · rw [Bool.eq_false_of_not_eq_true he]
      exact (ordered_perm (hreg g (List.mem_cons_self ..))).append rest

/-- With a route, an open pool and a new id, `execute` is its loop over the groups. -/
theorem execute_open (hp : Consistent p) (ho : p.accepting = true) {request : TaskRequest}
    (hid : request.taskId ≠ "") (hnew : p.futures.get? request.taskId = none)
    (putRaises : List String) (f : FutureId) :
    executeTrying p putRaises request f =
      let groupNames := ((p.handlerGroups.get? request.handlerName).getD []).filter
        fun g => !(aliveWorkersLocked p g).isEmpty
      let opened : Pool := { p with futures := p.futures.set request.taskId f }
      if groupNames = [] then (p, .rejected ⟨.workerUnavailable,
        "No live worker is deployed for handler '" ++ request.handlerName ++ "'"⟩, [])
      else
        match tryGroups putRaises request.taskId groupNames.length opened groupNames with
        | (p, some r, tried) => (p, .assigned r, tried)
        | (p, none, tried) => ({ p with futures := p.futures.pop request.taskId },
            .rejected ⟨.workerUnavailable, "Unable to submit request to a live worker for handler '"
              ++ request.handlerName ++ "'"⟩, tried) := by
  have hc : p.futures.contains request.taskId = false := by simp [Dict.contains, hnew]
  have hl : ((p.handlerGroups.get? request.handlerName).getD []).any (livenessRaises p) = false := by
    rw [List.any_eq_false]
    intro g _
    simp [live_handles hp ho g]
  unfold executeTrying
  rw [if_neg hid, if_neg (by simp [ho]), if_neg (by simp [hc])]
  dsimp only
  exact if_neg (by simp [hl])

/-- Every call of `execute` on an open pool with a new task id puts the request on the queue
of each candidate at most once. If some queue takes it, the request is booked on exactly one
worker and nothing else changes; if all refuse, or there is no candidate, everyone was tried,
the future fails with WORKER_UNAVAILABLE and no trace of the request is left. -/
theorem execute_fails_over (h : Reachable s) (ho : s.pool.accepting = true)
    (putRaises : List String) (request : TaskRequest) (f : FutureId) (hid : request.taskId ≠ "")
    (hnew : s.pool.futures.get? request.taskId = none) :
    (attempts s.pool putRaises request f).Nodup ∧
    (∀ r ∈ attempts s.pool putRaises request f, r ∈ candidates s.pool request.handlerName) ∧
    ((∃ r ∈ candidates s.pool request.handlerName, ¬PutFails s.pool putRaises r) →
      ∃ r q, r ∈ attempts s.pool putRaises request f ∧ ¬PutFails s.pool putRaises r ∧
        (∀ r' ∈ attempts s.pool putRaises request f, r' ≠ r → PutFails s.pool putRaises r') ∧
        execute s.pool putRaises request f = (q, .assigned r) ∧ Booked s.pool q request f r) ∧
    ((∀ r ∈ candidates s.pool request.handlerName, PutFails s.pool putRaises r) →
      ∃ q message, (attempts s.pool putRaises request f).Perm
          (candidates s.pool request.handlerName) ∧
        execute s.pool putRaises request f = (q, .rejected ⟨.workerUnavailable, message⟩) ∧
        Unbooked s.pool q) := by
  have hp := (reachable_invariant h).consistent
  have hr := (reachable_tabled h).routing
  have he := execute_open hp ho hid hnew putRaises f
  have hperm := ordered_candidates hr request.handlerName
  have hfree : s.pool.assignments.get? request.taskId = none := by
    rw [Dict.get?_eq_none] at hnew ⊢
    exact fun hk => hnew ((hp.books.keys _).mp hk)
  have hsub : ∀ g ∈ ((s.pool.handlerGroups.get? request.handlerName).getD []).filter
      (fun g => !(aliveWorkersLocked s.pool g).isEmpty),
      g ∈ (s.pool.handlerGroups.get? request.handlerName).getD [] := fun g hg =>
    List.mem_of_mem_filter hg
  dsimp only at he
  generalize ((s.pool.handlerGroups.get? request.handlerName).getD []).filter
    (fun g => !(aliveWorkersLocked s.pool g).isEmpty) = names at hperm hsub he
  have hcand := candidates_nodup hp hr request.handlerName
  rcases tryGroups_spec putRaises names.length
      { s.pool with futures := s.pool.futures.set request.taskId f } names (le_refl _) hfree with
    ⟨hall, weights, tried, htried, ht⟩ |
    ⟨g, hg, before, r, after, refused, weights, hord, hb, hfail, href, hsubp, ht⟩
  · have all : ∀ r ∈ candidates s.pool request.handlerName, PutFails s.pool putRaises r := by
      intro r hm
      obtain ⟨g, hg, hm⟩ := List.mem_flatMap.mp (hperm.mem_iff.mpr hm)
      exact hall g hg r hm
    have htried := htried.trans hperm
    obtain ⟨q, message, hq, unbooked⟩ : ∃ q message, executeTrying s.pool putRaises request f =
        (q, .rejected ⟨.workerUnavailable, message⟩, tried) ∧ Unbooked s.pool q := by
      by_cases hn : names = []
      · subst hn
        rw [if_pos rfl] at he
        cases ht
        exact ⟨s.pool, _, he, ⟨rfl, rfl, rfl, rfl⟩⟩
      · rw [if_neg hn, ht] at he
        exact ⟨_, _, he, ⟨Dict.pop_set_new hnew f, rfl, rfl, rfl⟩⟩
    unfold attempts execute
    rw [hq]
    refine ⟨htried.nodup_iff.mpr hcand, fun r hm => htried.mem_iff.mp hm, ?_, ?_⟩
    · rintro ⟨r, hm, hno⟩
      exact absurd (all r hm) hno
    · intro _
      exact ⟨q, message, htried, rfl, unbooked⟩
  · have hsubp := hsubp.trans hperm.subperm
    rw [if_neg (List.ne_nil_of_mem hg), ht] at he
    have hmem : ∀ r' ∈ refused ++ [r], r' ∈ candidates s.pool request.handlerName :=
      fun r' hm => hsubp.subset hm
    have hr_mem : r ∈ refused ++ [r] := List.mem_append_right _ (List.mem_singleton_self r)
    have hnodup : (refused ++ [r]).Nodup := by
      obtain ⟨l, hl, hs⟩ := hsubp
      exact hl.nodup_iff.mp (hcand.sublist hs)
    unfold attempts execute
    rw [he]
    refine ⟨hnodup, hmem, ?_, ?_⟩
    · intro _
      refine ⟨r, { booked { s.pool with futures := s.pool.futures.set request.taskId f }
        request.taskId g r with smoothWeights := weights }, hr_mem, hfail, ?_, rfl,
        ⟨rfl, rfl, rfl, rfl⟩⟩
      · intro r' hm hne
        rcases List.mem_append.mp hm with hm | hm
        · exact href r' hm
        · exact absurd (List.mem_singleton.mp hm) hne
    · intro all
      exact absurd (all r (hmem r hr_mem)) hfail

/-- The queue of the first of two workers refuses the request. -/
theorem first_queue_refuses : ∃ s : State Unit, Reachable s ∧
    candidates s.pool "echo" = [0, 1] ∧ PutFails s.pool ["g_R0"] 0 ∧
    ∃ r q, execute s.pool ["g_R0"] { handlerName := "echo", taskId := "t" } 0 = (q, .assigned r) ∧
      Booked s.pool q { handlerName := "echo", taskId := "t" } 0 r := by
  have hr : Reachable (started (constructed ["echo"] [restartPair]) : State Unit) :=
    Transitions.System.reachable_init (init_constructed (by decide +kernel))
  refine ⟨_, hr, by decide +kernel, by decide +kernel, ?_⟩
  obtain ⟨r, q, -, -, -, he, hb⟩ := (execute_fails_over hr (by decide +kernel) ["g_R0"]
    { handlerName := "echo", taskId := "t" } 0 (by decide) (by decide +kernel)).2.2.1
    ⟨1, by decide +kernel, by decide +kernel⟩
  exact ⟨r, q, he, hb⟩

end Failover
