import Infly.Traffic
import Infly.PoolRouting

/-! # Handlers in their processes

A process that has reported READY keeps one instance of every cached handler for as long as it
lives, and gets requests for its own handlers only.
-/
namespace WarmHandlers

open Contracts Config PoolState StaleResults CacheKey ExecutorCache WorkerProcess PoolTables
  PoolAccounting PoolGroups PoolInvariant PoolFrames PoolRouting Deployment Coupling Transitions

variable {ι : Type} [DecidableEq ι] {keys : CacheKeys} {memory : Memory}
  {s t : Deployment.State ι} {e : Deployment.Event ι} {o : Incarnation} {x : Executor}

/-- Every definition is stored under its own name. -/
def Indexed (registry : Registry) : Prop :=
  ∀ n d, registry.get? n = some d → d.handlerName = n

/-- `d` is a definition of the parent's for handler `n`, made for worker `w`. -/
def MadeFor (memory : Memory) (added : List HandlerDefinition) (w : WorkerState) (n : String)
    (d : HandlerDefinition) : Prop :=
  ∃ d₀ ∈ added, d₀.handlerName = n ∧
    withRuntimeContext memory d₀ (workerContext w.group.name w.workerId) = .ok d

theorem MadeFor.aware {added : List HandlerDefinition} {w : WorkerState} {n : String}
    {d : HandlerDefinition} (h : MadeFor memory added w n d) :
    Aware memory d (workerContext w.group.name w.workerId) := by
  obtain ⟨d₀, -, -, hmade⟩ := h
  exact withRuntimeContext_aware hmade

/-- Every definition is one of the parent's, made for the worker of process `o`. -/
def Made (memory : Memory) (added : List HandlerDefinition) (p : Pool) (o : Incarnation)
    (registry : Registry) : Prop :=
  ∀ n d, registry.get? n = some d → MadeFor memory added (p.heap o.1) n d

/-- What a process knows of its handlers, and what came of the requests it has served. -/
structure Serving (keys : CacheKeys) (memory : Memory) (s : Deployment.State ι)
    (o : Incarnation) (x : Executor) : Prop where
  made : Made memory s.added s.pool o x.registry
  sound : Sound keys x
  warm : Warm keys x
  known : ∀ n ∈ (s.pool.heap o.1).handlerNames, x.registry.get? n ≠ none
  repeats : ∀ v ∈ s.services, v.process = o → ∀ d,
    x.registry.get? v.request.handlerName = some d → d.reuseMode = .workerCached →
    ∃ i, Cached keys x v.request.handlerName d i ∧ v.execution.ran = some (d, i)
  ran : ∀ v ∈ s.services, v.process = o → ∀ d i, v.execution.ran = some (d, i) →
    x.registry.get? v.request.handlerName = some d

def Hosted (keys : CacheKeys) (memory : Memory) (s : Deployment.State ι) (o : Incarnation) :
    Child → Prop
  | .absent | .refused _ => True
  | .starting registry => Made memory s.added s.pool o registry ∧
      (∀ n ∈ (s.pool.heap o.1).handlerNames, registry.get? n ≠ none) ∧
      ∀ v ∈ s.services, v.process ≠ o
  | .serving x => Serving keys memory s o x

/-- How a service came about. -/
structure Answered (keys : CacheKeys) (memory : Memory) (added : List HandlerDefinition)
    (p : Pool) (v : Service) : Prop where
  submitted : v.request.taskId ≠ ""
  executed : ∃ x load handle d, Sound keys x ∧ Made memory added p v.process x.registry ∧
    x.registry.get? v.request.handlerName = some d ∧
    v.execution = (ExecutorCache.execute keys x v.request load handle).1

structure Hosting (keys : CacheKeys) (memory : Memory) (s : Deployment.State ι) : Prop where
  indexed : Indexed s.registry
  added : ∀ n d, s.registry.get? n = some d → d ∈ s.added
  hosted : ∀ o, Hosted keys memory s o (s.child o)
  early : ∀ o, s.child o ≠ .absent →
    o.1 < s.pool.nextRef ∧ o.2 ≤ (s.pool.heap o.1).generation
  late : ∀ v ∈ s.services, v.process.1 < s.pool.nextRef ∧
    v.process.2 ≤ (s.pool.heap v.process.1).generation
  asked : ∀ o, ∀ q ∈ s.inbox o, q.taskId ≠ "" ∧ o.1 < s.pool.nextRef ∧
    q.handlerName ∈ (s.pool.heap o.1).handlerNames
  answered : ∀ v ∈ s.services, Answered keys memory s.added s.pool v
  same : ∀ v ∈ s.services, ∀ v' ∈ s.services, v.process = v'.process →
    v.request.handlerName = v'.request.handlerName → ∀ d i, v.execution.ran = some (d, i) →
    d.reuseMode = .workerCached → v'.execution.ran = some (d, i)

/-! ## What the pool does to a worker -/

/-- What a worker is for. -/
structure SameRole (w v : WorkerState) : Prop where
  workerId : v.workerId = w.workerId
  group : v.group = w.group
  handlerNames : v.handlerNames = w.handlerNames

/-- Worker states stay, in their roles, and generations grow. -/
structure Grows (p q : Pool) : Prop where
  allocated : p.nextRef ≤ q.nextRef
  generation : ∀ r < p.nextRef, (p.heap r).generation ≤ (q.heap r).generation
  role : ∀ r < p.nextRef, SameRole (p.heap r) (q.heap r)

theorem Grows.refl (p : Pool) : Grows p p :=
  ⟨le_rfl, fun _ _ => le_rfl, fun _ _ => ⟨rfl, rfl, rfl⟩⟩

theorem Made.role {added added' : List HandlerDefinition} {p q : Pool} {registry : Registry}
    (h : Made memory added p o registry) (more : ∀ d ∈ added, d ∈ added')
    (role : SameRole (p.heap o.1) (q.heap o.1)) : Made memory added' q o registry := by
  intro n d hd
  obtain ⟨d₀, hadded, hname, hmade⟩ := h n d hd
  refine ⟨d₀, more d₀ hadded, hname, ?_⟩
  rwa [role.group, role.workerId]

theorem Made.indexed {added : List HandlerDefinition} {p : Pool} {registry : Registry}
    (h : Made memory added p o registry) : Indexed registry := by
  intro n d hd
  obtain ⟨d₀, -, hname, hmade⟩ := h n d hd
  exact (withRuntimeContext_named hmade).trans hname

theorem wire_grows (hr : (deployment keys memory ι).Reachable s) {b : WireEvent (User ι)}
    (hb : WireEnabled s.wire b) : Grows s.pool (wireNext s.wire b).state.pool := by
  have hp := (reachable_invariant (pool_alone hr)).consistent
  have same : ∀ {p : Pool}, p = s.pool → Grows s.pool p := fun h => h ▸ .refl _
  rcases wire_state hb with hs | ⟨c, -, hs⟩
  · exact same (congrArg PoolModel.State.pool hs)
  · rw [hs]
    refine ⟨nextRef_frame hp, fun r hlt => ?_, fun r hlt => ?_⟩
    swap
    · have same := worker_frame (e := c) hp hlt
      exact ⟨same.workerId, same.group, same.handlerNames⟩
    rcases (worker_frame (e := c) hp hlt).launched with ⟨h, -⟩ | h
    · exact h.ge
    · exact h.symm ▸ Nat.le_succ _

/-- A worker that the pool starts a process for is one of its own. -/
theorem starts_allocated (hr : (deployment keys memory ι).Reachable s)
    {b : PoolModel.Event (User ι)} (he : PoolModel.Enabled s.wire.state b) {r : Ref}
    (h : starts s.pool b = some r) : r < s.pool.nextRef ∧
      ((PoolModel.next s.wire.state b).pool.heap r).generation =
        (s.pool.heap r).generation + 1 := by
  have hi := reachable_invariant (pool_alone hr)
  unfold starts at h
  split at h
  · cases h
    rename_i i job rest
    have hpc : s.wire.state.user i = .launching job r rest := he
    refine ⟨(hi.outside i r ?_).1, ?_⟩
    · rw [hpc]
      have mine := (hi.jobs i job (by rw [hpc]; rfl)).pending r (by
        rw [hpc]
        exact List.mem_cons_self)
      exact mine
    · simp [PoolModel.next, PoolModel.launchNext, PoolModel.State.modify, launchWorker]
  · split at h
    · cases h
    · cases h
      rename_i rd hskips
      have hpc : s.wire.state.supervisor = .relaunching r rd := he
      refine ⟨(hi.known r (by rw [hpc]; exact List.mem_cons_self)).1, ?_⟩
      simp [PoolModel.next, PoolModel.relaunchNext, hskips, launchWorker]
  · cases h

/-- `execute` picks a worker that lists the handler. -/
theorem assigned_worker (hr : (deployment keys memory ι).Reachable s)
    {request : TaskRequest} {putRaises : List String} {r : Ref}
    (hx : (PoolState.execute s.pool putRaises request s.history.nextFuture).2 = .assigned r) :
    request.taskId ≠ "" ∧ r < s.pool.nextRef ∧
      request.handlerName ∈ (s.pool.heap r).handlerNames := by
  have hp := (reachable_invariant (pool_alone hr)).consistent
  have routing := (reachable_tabled (pool_alone hr)).routing
  refine ⟨fun hid => ?_, ?_⟩
  · rw [execute_eq, if_pos hid] at hx
    cases hx
  · rcases execute_routed putRaises request s.history.nextFuture
      (fun t => (hp.books.keys t).mp) with ⟨g, hg, r', hr', -, -, w, c, h⟩ | ⟨w, out, h, hout⟩
    · rw [h] at hx
      cases hx
      obtain ⟨hin, hname, -⟩ := mem_aliveWorkersLocked.mp hr'
      have table := inTable_values.mpr hin
      refine ⟨hp.books.allocated r table, ?_⟩
      obtain ⟨_, _, _, names⟩ := routing.placed _ r (hp.books.inTable.mp table)
      have listed := routing.listed request.handlerName ▸
        (show g ∈ routes s.pool.handlerGroups request.handlerName from hg)
      have member := of_decide_eq_true (List.mem_filter.mp listed).2
      rw [← hname, routes, names] at member
      exact member
    · rw [h] at hx
      exact absurd hx (hout r)

/-! ## Steps -/

omit [DecidableEq ι] in
theorem Hosted.frame {c : Child} (h : Hosted keys memory s o c)
    (more : ∀ d ∈ s.added, d ∈ t.added) (role : SameRole (s.pool.heap o.1) (t.pool.heap o.1))
    (hv : ∀ v ∈ t.services, v ∈ s.services ∨ v.process ≠ o) : Hosted keys memory t o c := by
  have old : ∀ v ∈ t.services, v.process = o → v ∈ s.services := fun v hvs ho =>
    (hv v hvs).resolve_right (not_not_intro ho)
  cases c with
  | absent | refused => trivial
  | starting registry =>
    refine ⟨h.1.role more role, role.handlerNames ▸ h.2.1, fun v hvs ho => ?_⟩
    exact h.2.2 v (old v hvs ho) ho
  | serving x =>
    exact ⟨h.made.role more role, h.sound, h.warm, role.handlerNames ▸ h.known,
      fun v hvs ho => h.repeats v (old v hvs ho) ho, fun v hvs ho => h.ran v (old v hvs ho) ho⟩

omit [DecidableEq ι] in
/-- Nothing is served. -/
theorem Hosting.move (h : Hosting keys memory s) (grows : Grows s.pool t.pool)
    (hv : t.services = s.services) (more : ∀ d ∈ s.added, d ∈ t.added)
    (registry : Indexed t.registry) (added : ∀ n d, t.registry.get? n = some d → d ∈ t.added)
    (child : ∀ o, t.child o = s.child o ∨ Hosted keys memory t o (t.child o) ∧
      (t.child o ≠ .absent → o.1 < t.pool.nextRef ∧ o.2 ≤ (t.pool.heap o.1).generation))
    (inbox : ∀ o, ∀ q ∈ t.inbox o, q ∈ s.inbox o ∨ q.taskId ≠ "" ∧ o.1 < s.pool.nextRef ∧
      q.handlerName ∈ (s.pool.heap o.1).handlerNames) : Hosting keys memory t := by
  have placed : ∀ o : Incarnation, o.1 < s.pool.nextRef ∧ o.2 ≤ (s.pool.heap o.1).generation →
      o.1 < t.pool.nextRef ∧ o.2 ≤ (t.pool.heap o.1).generation := fun o ho =>
    ⟨lt_of_lt_of_le ho.1 grows.allocated, ho.2.trans (grows.generation o.1 ho.1)⟩
  refine ⟨registry, added, fun o => ?_, fun o ho => ?_, fun v hvs => ?_, fun o q hq => ?_,
    fun v hvs => ?_, ?_⟩
  · rcases child o with heq | ⟨hosted, _⟩
    · rw [heq]
      by_cases habsent : s.child o = .absent
      · rw [habsent]
        trivial
      · exact (h.hosted o).frame more (grows.role o.1 (h.early o habsent).1)
          fun v hvs => .inl (hv ▸ hvs)
    · exact hosted
  · rcases child o with heq | ⟨_, early⟩
    · exact placed o (h.early o (heq ▸ ho))
    · exact early ho
  · exact placed _ (h.late v (hv ▸ hvs))
  · have known : q.taskId ≠ "" ∧ o.1 < s.pool.nextRef ∧
        q.handlerName ∈ (s.pool.heap o.1).handlerNames := by
      rcases inbox o q hq with hq | hq
      · exact h.asked o q hq
      · exact hq
    refine ⟨known.1, lt_of_lt_of_le known.2.1 grows.allocated, ?_⟩
    rw [(grows.role o.1 known.2.1).handlerNames]
    exact known.2.2
  · rw [hv] at hvs
    obtain ⟨submitted, x, load, handle, d, sound, made, hd, hx⟩ := h.answered v hvs
    exact ⟨submitted, x, load, handle, d, sound,
      made.role more (grows.role _ (h.late v hvs).1), hd, hx⟩
  · rw [hv]
    exact h.same

omit [DecidableEq ι] in
theorem Hosting.same_state (h : Hosting keys memory s) (hw : t.wire = s.wire)
    (hv : t.services = s.services) (hreg : t.registry = s.registry) (ha : t.added = s.added)
    (hc : t.child = s.child) (hi : t.inbox = s.inbox) : Hosting keys memory t := by
  refine h.move ?_ hv (fun d hd => ha ▸ hd) (hreg ▸ h.indexed) (hreg ▸ ha ▸ h.added)
    (fun o => .inl (congrFun hc o)) fun o q hq => .inl ?_
  · show Grows s.wire.state.pool t.wire.state.pool
    rw [hw]
    exact .refl _
  · exact hi ▸ hq

/-- The registry of a process holds the handlers of its worker, made for it. -/
theorem workerRegistry_made {registry result : Registry} {added : List HandlerDefinition}
    (hr : Indexed registry) (ha : ∀ n d, registry.get? n = some d → d ∈ added) {p : Pool}
    (h : workerRegistry memory registry (p.heap o.1) = .ok result) :
    Made memory added p o result ∧
      ∀ n ∈ (p.heap o.1).handlerNames, result.get? n ≠ none := by
  obtain ⟨origin, listed, -⟩ := added_handlers h hr
  refine ⟨fun n d hd => ?_, listed⟩
  rcases origin n d hd with hd | ⟨d₀, hd₀, hmade⟩
  · cases hd
  · exact ⟨d₀, ha n d₀ hd₀, hr n d₀ hd₀, hmade⟩

omit [DecidableEq ι] in
/-- A process that reports READY serves what its registry holds. -/
theorem boot_hosted {registry : Registry} (made : Made memory s.added s.pool o registry)
    (known : ∀ n ∈ (s.pool.heap o.1).handlerNames, registry.get? n ≠ none)
    (none_ : ∀ v ∈ s.services, v.process ≠ o) (load : String → Option Raised) :
    Hosted keys memory s o (WorkerProcess.boot keys registry load) := by
  cases hb : WorkerProcess.boot keys registry load with
  | absent | refused => trivial
  | starting registry =>
    unfold WorkerProcess.boot at hb
    split at hb <;> cases hb
  | serving x =>
    obtain ⟨sound, warm, hreg⟩ := boot_warm made.indexed hb
    exact ⟨hreg.symm ▸ made, sound, warm, hreg ▸ known, fun v hvs ho => absurd ho (none_ v hvs),
      fun v hvs ho => absurd ho (none_ v hvs)⟩

omit [DecidableEq ι] in
theorem ran_kept {request : TaskRequest} {r : Option (HandlerDefinition × Instance)}
    {y : Executor} (h : Ran keys x request r y) : Kept keys x y := by
  cases h <;> assumption

omit [DecidableEq ι] in
theorem ran_definition {request : TaskRequest} {d : HandlerDefinition} {i : Instance}
    {y : Executor} (h : Ran keys x request (some (d, i)) y) :
    x.registry.get? request.handlerName = some d := by
  cases h <;> assumption

omit [DecidableEq ι] in
/-- A request of a cached handler gets the instance that the process already has. -/
theorem Serving.cached (h : Serving keys memory s o x) {request : TaskRequest}
    (ht : request.taskId ≠ "") (load : Option Raised) (handle : Except Raised Mapping) {d : HandlerDefinition}
    (hd : x.registry.get? request.handlerName = some d) (hm : d.reuseMode = .workerCached) :
    ∃ i, Cached keys x request.handlerName d i ∧
      (ExecutorCache.execute keys x request load handle).1.ran = some (d, i) ∧
      (ExecutorCache.execute keys x request load handle).2.loads = x.loads := by
  obtain ⟨i, c⟩ := h.warm _ d hd hm
  obtain ⟨ran, loads⟩ := c.serves load handle ht (h.sound.registered _ d hd)
  exact ⟨i, c, ran, loads⟩

omit [DecidableEq ι] in
theorem Serving.execute (h : Serving keys memory s o x) {v : Service} (ht : v.request.taskId ≠ "")
    {load : Option Raised} {handle : Except Raised Mapping} (ho : v.process = o)
    (hv : v.execution = (ExecutorCache.execute keys x v.request load handle).1)
    (hs : t.services = s.services ++ [v]) (ha : t.added = s.added)
    (role : SameRole (s.pool.heap o.1) (t.pool.heap o.1)) :
    Serving keys memory t o (ExecutorCache.execute keys x v.request load handle).2 := by
  have ran := execute_ran h.sound v.request load handle
  have kept := ran_kept ran
  rw [← hv] at ran
  have split_ : ∀ w ∈ t.services, w ∈ s.services ∨ w = v := by
    intro w hw
    rw [hs] at hw
    exact (List.mem_append.mp hw).imp_right List.mem_singleton.mp
  refine ⟨?_, kept.sound, h.warm.execute h.sound _ load handle kept.registry, fun n hmem => ?_,
    fun w hw hwo d hd hm => ?_, fun w hw hwo d i hran => ?_⟩
  · rw [kept.registry]
    exact h.made.role (fun d hd => ha ▸ hd) role
  · rw [kept.registry]
    exact h.known n (role.handlerNames ▸ hmem)
  · rw [kept.registry] at hd
    rcases split_ w hw with hw | rfl
    · obtain ⟨i, c, hran⟩ := h.repeats w hw hwo d hd hm
      exact ⟨i, c.execute h.sound _ load handle, hran⟩
    · obtain ⟨i, c, hran, _⟩ := h.cached ht load handle hd hm
      exact ⟨i, c.execute h.sound _ load handle, hv ▸ hran⟩
  · rw [kept.registry]
    rcases split_ w hw with hw | rfl
    · exact h.ran w hw hwo d i hran
    · rw [hran] at ran
      exact ran_definition ran

omit [DecidableEq ι] in
/-- A request that is served later runs on the instance of the earlier ones. -/
theorem Serving.agree (h : Serving keys memory s o x) {v w : Service} (ht : v.request.taskId ≠ "")
    {load : Option Raised} {handle : Except Raised Mapping}
    (hv : v.execution = (ExecutorCache.execute keys x v.request load handle).1)
    (hw : w ∈ s.services) (ho : w.process = o)
    (hn : w.request.handlerName = v.request.handlerName) {d : HandlerDefinition} {i : Instance}
    (hm : d.reuseMode = .workerCached) :
    w.execution.ran = some (d, i) ↔ v.execution.ran = some (d, i) := by
  have both : x.registry.get? v.request.handlerName = some d →
      w.execution.ran = v.execution.ran := by
    intro hd
    obtain ⟨j, c, hran, _⟩ := h.cached ht load handle hd hm
    obtain ⟨j', c', hran'⟩ := h.repeats w hw ho d (hn ▸ hd) hm
    obtain ⟨k, hk, hj⟩ := c.stored
    obtain ⟨k', hk', hj'⟩ := c'.stored
    cases hk.symm.trans hk'
    cases hj.symm.trans hj'
    rw [hran', hv, hran]
  constructor
  · intro hran
    rw [← both (hn ▸ h.ran w hw ho d i hran)]
    exact hran
  · intro hran
    have ran := execute_ran h.sound v.request load handle
    rw [← hv, hran] at ran
    rw [both (ran_definition ran)]
    exact hran

theorem hosting_served (h : Hosting keys memory s) {v : Service} {load : Option Raised}
    {handle : Except Raised Mapping}
    {rest : List TaskRequest} (hc : s.child v.process = .serving x)
    (hi : s.inbox v.process = v.request :: rest)
    (hv : v.execution = (ExecutorCache.execute keys x v.request load handle).1)
    (hb : WireEnabled s.wire (.answer v.process v.reply))
    (hw : t.wire = wireNext s.wire (.answer v.process v.reply))
    (hc' : t.child = Function.update s.child v.process
      (.serving (ExecutorCache.execute keys x v.request load handle).2))
    (hi' : t.inbox = Function.update s.inbox v.process rest)
    (hs : t.services = s.services ++ [v]) (hreg : t.registry = s.registry)
    (ha : t.added = s.added) : Hosting keys memory t := by
  have pool : t.pool = s.pool := by
    show t.wire.state.pool = _
    rw [hw]
    rfl
  have serving : Serving keys memory s v.process x := by
    have hosted := h.hosted v.process
    rwa [hc] at hosted
  obtain ⟨ht, _, names⟩ := h.asked v.process v.request (hi ▸ List.mem_cons_self)
  obtain ⟨d, hd⟩ := Option.ne_none_iff_exists'.mp (serving.known _ names)
  have live : s.child v.process ≠ .absent := by
    rw [hc]
    exact Child.noConfusion
  have split_ : ∀ w ∈ t.services, w ∈ s.services ∨ w = v := by
    intro w hmem
    rw [hs] at hmem
    exact (List.mem_append.mp hmem).imp_right List.mem_singleton.mp
  refine ⟨hreg ▸ h.indexed, hreg ▸ ha ▸ h.added, fun o => ?_, fun o ho => ?_, fun w hmem => ?_,
    fun o q hq => ?_, fun w hmem => ?_, fun w hmem w' hmem' hp hn d i hran hm => ?_⟩
  · rw [hc']
    by_cases ho : o = v.process
    · subst ho
      rw [Function.update_self]
      exact serving.execute ht rfl hv hs ha (pool.symm ▸ ⟨rfl, rfl, rfl⟩)
    · rw [Function.update_of_ne ho]
      refine (h.hosted o).frame (fun d hd => ha ▸ hd) (pool.symm ▸ ⟨rfl, rfl, rfl⟩) fun w hmem => ?_
      rcases split_ w hmem with hmem | rfl
      · exact .inl hmem
      · exact .inr fun he => ho he.symm
  · rw [pool]
    rw [hc'] at ho
    by_cases he : o = v.process
    · subst he
      exact h.early _ live
    · rw [Function.update_of_ne he] at ho
      exact h.early o ho
  · rw [pool]
    rcases split_ w hmem with hmem | rfl
    · exact h.late w hmem
    · exact h.early _ live
  · rw [pool]
    rw [hi'] at hq
    by_cases ho : o = v.process
    · subst ho
      rw [Function.update_self] at hq
      exact h.asked _ q (hi ▸ List.mem_cons_of_mem _ hq)
    · rw [Function.update_of_ne ho] at hq
      exact h.asked o q hq
  · rcases split_ w hmem with hmem | rfl
    · exact pool.symm ▸ ha.symm ▸ h.answered w hmem
    · exact ⟨ht, x, load, handle, d, serving.sound, pool.symm ▸ ha.symm ▸ serving.made, hd, hv⟩
  · rcases split_ w hmem with hmem | rfl
    · rcases split_ w' hmem' with hmem' | rfl
      · exact h.same w hmem w' hmem' hp hn d i hran hm
      · exact (serving.agree ht hv hmem hp hn hm).mp hran
    · rcases split_ w' hmem' with hmem' | rfl
      · exact (serving.agree ht hv hmem' hp.symm hn.symm hm).mpr hran
      · exact hran

omit [DecidableEq ι] in
/-- The steps of the pool that a process starts or ends with. -/
theorem children_cases {b : PoolModel.Event (User ι)} {child : Incarnation → Child}
    (hc : children memory s b = .ok child) :
    (∃ r registry, starts s.pool b = some r ∧
      workerRegistry memory s.registry (s.pool.heap r) = .ok registry ∧
      child = Function.update s.child (r, (s.pool.heap r).generation + 1) (.starting registry)) ∨
    (∃ r, b = .processExit r ∧
      child = Function.update s.child (incarnation s.pool r) .absent) ∨
    child = s.child := by
  unfold children at hc
  split at hc
  · rename_i r hstarts
    cases hresult : workerRegistry memory s.registry (s.pool.heap r) with
    | error e =>
      rw [hresult] at hc
      cases hc
    | ok registry =>
      rw [hresult] at hc
      cases hc
      exact .inl ⟨r, registry, hstarts, hresult, rfl⟩
  · cases hc
    exact .inr (.inl ⟨_, rfl, rfl⟩)
  · cases hc
    exact .inr (.inr rfl)

omit [DecidableEq ι] in
theorem inboxes_shrink {b : PoolModel.Event (User ι)} {q : TaskRequest}
    (hq : q ∈ inboxes s b o) : q ∈ s.inbox o := by
  unfold inboxes at hq
  split at hq
  · rw [Function.update_apply] at hq
    split at hq
    · cases hq
    · exact hq
  · exact hq

/-- A step of the pool alone may start a process or see one end. -/
theorem hosting_pool (hr : (deployment keys memory ι).Reachable s) (h : Hosting keys memory s)
    {b : PoolModel.Event (User ι)} (hb : WireEnabled s.wire (.step b))
    (he : PoolModel.Enabled s.wire.state b) {child : Incarnation → Child}
    (hc : children memory s b = .ok child) (hw : t.wire = wireNext s.wire (.step b))
    (hc' : t.child = child) (hi : t.inbox = inboxes s b) (hv : t.services = s.services)
    (hreg : t.registry = s.registry) (ha : t.added = s.added) : Hosting keys memory t := by
  have pool : t.pool = (PoolModel.next s.wire.state b).pool := by
    show t.wire.state.pool = _
    rw [hw]
    rfl
  have grows : Grows s.pool t.pool := by
    rw [pool]
    exact wire_grows hr hb
  have more : ∀ d ∈ s.added, d ∈ t.added := fun d hd => ha ▸ hd
  refine h.move grows hv more (hreg ▸ h.indexed) (hreg ▸ ha ▸ h.added) (fun o => ?_)
    fun o q hq => .inl (inboxes_shrink (hi ▸ hq))
  rw [hc']
  rcases children_cases hc with ⟨r, registry, hstarts, hresult, rfl⟩ | ⟨r, rfl, rfl⟩ | rfl
  · by_cases ho : o = (r, (s.pool.heap r).generation + 1)
    · subst ho
      obtain ⟨hlt, hgen⟩ := starts_allocated hr he hstarts
      obtain ⟨made, known⟩ := workerRegistry_made
        (o := (r, (s.pool.heap r).generation + 1)) h.indexed h.added hresult
      rw [Function.update_self]
      refine .inr ⟨⟨made.role more (grows.role r hlt), fun n hn => ?_, fun v hvs ho => ?_⟩,
        fun _ => ⟨?_, ?_⟩⟩
      · exact known n ((grows.role r hlt).handlerNames ▸ hn)
      · have late := (h.late v (hv ▸ hvs)).2
        rw [ho] at late
        exact absurd late (Nat.not_succ_le_self _)
      · exact lt_of_lt_of_le hlt grows.allocated
      · rw [pool]
        exact hgen.ge
    · exact .inl (Function.update_of_ne ho ..)
  · by_cases ho : o = incarnation s.pool r
    · subst ho
      rw [Function.update_self]
      exact .inr ⟨trivial, fun hne => absurd rfl hne⟩
    · exact .inl (Function.update_of_ne ho ..)
  · exact .inl rfl

theorem hosting_next (hr : (deployment keys memory ι).Reachable s) (h : Hosting keys memory s)
    (hst : (deployment keys memory ι).step s e t) : Hosting keys memory t := by
  cases next_change hst.2 with
  | scheduler | closed => exact h.same_state rfl rfl rfl rfl rfl rfl
  | assigned a putRaises u request r x hp hx =>
    refine h.move (wire_grows hr (b := .step (.execute request putRaises)) trivial) rfl
      (fun _ hd => hd) h.indexed h.added (fun o => .inl rfl) fun o q hq => ?_
    obtain ⟨ht, hlt, names⟩ := assigned_worker hr hx
    have hq : q ∈ Function.update s.inbox (incarnation s.pool r)
      (s.inbox (incarnation s.pool r) ++ [request]) o := hq
    by_cases ho : o = incarnation s.pool r
    · subst ho
      rw [Function.update_self] at hq
      rcases List.mem_append.mp hq with hq | hq
      · exact .inl hq
      · cases List.mem_singleton.mp hq
        exact .inr ⟨ht, hlt, names⟩
    · rw [Function.update_of_ne ho] at hq
      exact .inl hq
  | rejected a putRaises u request | raised a putRaises u request =>
    exact h.move (wire_grows hr (b := .step (.execute request putRaises)) trivial) rfl
      (fun _ hd => hd) h.indexed h.added (fun o => .inl rfl) fun o q hq => .inl hq
  | close i _ he =>
    exact h.move (wire_grows hr (b := .step (.closeCall (.client i))) he) rfl
      (fun _ hd => hd) h.indexed h.added (fun o => .inl rfl) fun o q hq => .inl hq
  | add definition =>
    have entry : ∀ n d, (s.registry.add definition).get? n = some d →
        n = definition.handlerName ∧ d = definition ∨ s.registry.get? n = some d := by
      intro n d hd
      rw [Registry.add, Dict.get?_set] at hd
      split at hd
      · rename_i hn
        cases hd
        exact .inl ⟨hn, rfl⟩
      · exact .inr hd
    refine h.move (wire_grows hr (b := .step (.registerHandler _)) trivial) rfl
      (fun d hd => List.mem_append_left _ hd) (fun n d hd => ?_) (fun n d hd => ?_)
      (fun o => .inl rfl) fun o q hq => .inl hq
    · rcases entry n d hd with ⟨rfl, rfl⟩ | hd
      · rfl
      · exact h.indexed n d hd
    · rcases entry n d hd with ⟨rfl, rfl⟩ | hd
      · exact List.mem_append_right _ (List.mem_singleton.mpr rfl)
      · exact List.mem_append_left _ (h.added n d hd)
  | boot o load registry hc =>
    refine h.move (.refl _) rfl (fun _ hd => hd) h.indexed h.added (fun o' => ?_)
      fun o q hq => .inl hq
    dsimp only
    by_cases ho : o' = o
    · subst ho
      have starting := h.hosted o'
      rw [hc] at starting
      rw [Function.update_self]
      refine .inr ⟨?_, fun _ => h.early o' (by rw [hc]; exact Child.noConfusion)⟩
      exact (boot_hosted starting.1 starting.2.1 starting.2.2 load).frame (fun _ hd => hd)
        ⟨rfl, rfl, rfl⟩ fun v hv => .inl hv
    · exact .inl (Function.update_of_ne ho ..)
  | serve o load handle own executor executor' request rest v hc hi hv hn he =>
    subst hv hn
    exact hosting_served h hc hi rfl he rfl rfl rfl rfl rfl rfl
  | receive o m he | drop o m he | garble o m w he =>
    exact h.move (wire_grows hr he) rfl (fun _ hd => hd) h.indexed h.added (fun o => .inl rfl)
      fun o q hq => .inl hq
  | lose o k request hi he =>
    refine h.move (wire_grows hr he) rfl (fun _ hd => hd) h.indexed h.added (fun o => .inl rfl)
      fun o' q hq => .inl ?_
    dsimp only at hq
    rw [Function.update_apply] at hq
    split at hq
    · rename_i ho
      exact ho ▸ List.mem_of_mem_eraseIdx hq
    · exact hq
  | pool b child x own hh he hc hx =>
    refine hosting_pool hr h ?_ he hc rfl rfl rfl rfl rfl rfl
    cases b <;> first
      | exact he
      | cases own

theorem reachable_hosting (h : (deployment keys memory ι).Reachable s) :
    Hosting keys memory s := by
  refine System.invariant_reachable ?_ (fun _ _ _ hr hs hst => hosting_next hr hs hst) h
  rintro s ⟨config, definitions, groups, p, pipe, logs, load, ready, rfl⟩
  have prepared := construct_prepared ready.construct
  have indexed := registryOf_named definitions
  have held : ∀ n d, (registryOf definitions).get? n = some d →
      d ∈ (registryOf definitions).values := fun n d hd => Dict.mem_values.mpr ⟨n, hd⟩
  refine ⟨indexed, held, fun o => ?_, fun o ho => ?_, fun v hv => (by cases hv),
    fun o q hq => (by cases hq), fun v hv => (by cases hv), fun v hv => (by cases hv)⟩
  · show Hosted keys memory _ o (if _ then _ else _)
    split
    · unfold firstChild
      split
      · trivial
      · rename_i registry hreg
        obtain ⟨made, known⟩ := workerRegistry_made (o := o) indexed held hreg
        exact boot_hosted made known (fun v hv => by cases hv) (load o)
    · trivial
  · have first : (o.1 ∈ p.workers.values ∧ o = incarnation p o.1) := by
      by_contra hn
      exact ho (if_neg hn)
    refine ⟨prepared.consistent.books.allocated o.1 (inTable_values.mpr first.1), ?_⟩
    exact (congrArg Prod.snd first.2).le

/-! ## Main results -/

/-- Two requests of a cached handler that one process serves run on one instance, and once the
process has reported READY no request of such a handler loads anything. -/
theorem cached_handler_loaded_once (h : (deployment keys memory ι).Reachable s) :
    (∀ v ∈ s.services, ∀ v' ∈ s.services, v.process = v'.process →
      v.request.handlerName = v'.request.handlerName → ∀ d i, v.execution.ran = some (d, i) →
      d.reuseMode = .workerCached → v'.execution.ran = some (d, i)) ∧
    ∀ o load handle own t x y request rest d,
      (deployment keys memory ι).step s (.serve o load handle own) t →
      s.child o = .serving x → t.child o = .serving y → s.inbox o = request :: rest →
      x.registry.get? request.handlerName = some d → d.reuseMode = .workerCached →
      y.loads = x.loads := by
  have hosting := reachable_hosting h
  refine ⟨hosting.same, fun o load handle own t x y request rest d hst hx hy hi hd hm => ?_⟩
  have serving : Serving keys memory s o x := by
    have hosted := hosting.hosted o
    rwa [hx] at hosted
  have ht := (hosting.asked o request (hi ▸ List.mem_cons_self)).1
  obtain ⟨_, _, _, loads⟩ := serving.cached ht load handle hd hm
  cases next_change hst.2 with
  | serve _ _ _ _ executor executor' request' rest' v hc hi' hv hn he =>
    cases hc.symm.trans hx
    cases hi'.symm.trans hi
    have hy : Function.update s.child o (.serving executor') o = .serving y := hy
    rw [Function.update_self] at hy
    cases hy
    rw [hn]
    exact loads

theorem cached_handler_loaded_once_again :
    ∃ s, (deployment echoKeys echoMemory Unit).Reachable s ∧ ∃ d i,
      s.services.map (fun v => (v.request.taskId, v.process)) = [("t", (0, 1)), ("u", (0, 1))] ∧
      ∀ v ∈ s.services, v.execution.ran = some (d, i) := by
  obtain ⟨s, h, shown⟩ := echo_spec echo_runs.2.2.2.1
  obtain ⟨hs, hv⟩ := of_decide_eq_true shown
  have process : ∀ v ∈ s.services, v.process = (0, 1) := by
    intro v hv
    have hm := List.mem_map_of_mem (f := fun v => (v.request.taskId, v.process)) hv
    rw [hs] at hm
    simp only [List.mem_cons, Prod.mk.injEq, List.not_mem_nil, or_false] at hm
    rcases hm with ⟨-, hp⟩ | ⟨-, hp⟩ <;> exact hp
  obtain ⟨v, rest, heq⟩ : ∃ v rest, s.services = v :: rest := by
    cases heq : s.services with
    | nil =>
      rw [heq] at hs
      cases hs
    | cons v rest => exact ⟨v, rest, rfl⟩
  have hmem : v ∈ s.services := heq ▸ List.mem_cons_self
  obtain ⟨hname, hany⟩ := hv v hmem
  obtain ⟨⟨d, i⟩, hran, hmode⟩ := (Option.any_eq_true _ _).mp hany
  refine ⟨s, h, d, i, hs, fun w hw => ?_⟩
  exact (cached_handler_loaded_once h).1 v hmem w hw
    ((process v hmem).trans (process w hw).symm) (hname.trans (hv w hw).1.symm) d i hran
    (of_decide_eq_true hmode)

/-- A request goes to a process that knows its handler, and what runs there is a definition that
the parent's registry has held under that name, made for the worker of that process: its context
shows the group and the id of this worker. -/
theorem served_by_own_worker (h : (deployment keys memory ι).Reachable s) :
    (∀ o x, s.child o = .serving x → ∀ q ∈ s.inbox o, ∃ d,
      x.registry.get? q.handlerName = some d ∧
      MadeFor memory s.added (s.pool.heap o.1) q.handlerName d) ∧
    ∀ v ∈ s.services, ∀ d i, v.execution.ran = some (d, i) →
      MadeFor memory s.added (s.pool.heap v.process.1) v.request.handlerName d ∧
      Aware memory d (workerContext (s.pool.heap v.process.1).group.name
        (s.pool.heap v.process.1).workerId) := by
  have hosting := reachable_hosting h
  refine ⟨fun o x hx q hq => ?_, fun v hv d i hran => ?_⟩
  · have serving : Serving keys memory s o x := by
      have hosted := hosting.hosted o
      rwa [hx] at hosted
    obtain ⟨_, _, names⟩ := hosting.asked o q hq
    obtain ⟨d, hd⟩ := Option.ne_none_iff_exists'.mp (serving.known _ names)
    exact ⟨d, hd, serving.made _ d hd⟩
  · obtain ⟨_, x, load, handle, d', sound, made, hd', hx⟩ := hosting.answered v hv
    have ran := execute_ran sound v.request load handle
    rw [← hx, hran] at ran
    have mine := made _ d (ran_definition ran)
    exact ⟨mine, mine.aware⟩

/-- What serves the one task of the sample is the definition that its registry holds. -/
theorem served_by_own_worker_echo :
    ∃ s, (deployment echoKeys echoMemory Unit).Reachable s ∧ ∃ v ∈ s.services, ∃ d i,
      v.execution.ran = some (d, i) ∧
      withRuntimeContext echoMemory (echo .workerCached) (workerContext "g" "g_R0") = .ok d ∧
      Aware echoMemory d (workerContext "g" "g_R0") := by
  obtain ⟨s, h, shown⟩ := echo_spec echo_runs.2.2.1
  obtain ⟨-, -, -, group, worker, added, v, hmem, hpr, hran⟩ := of_decide_eq_true shown
  obtain ⟨⟨d, i⟩, hran⟩ := Option.isSome_iff_exists.mp hran
  obtain ⟨⟨d₀, hd₀, -, hd⟩, aware⟩ := (served_by_own_worker h).2 v hmem d i hran
  rw [hpr, group, worker] at hd aware
  rw [added, List.mem_singleton] at hd₀
  exact ⟨s, h, v, hmem, d, i, hran, hd₀ ▸ hd, aware⟩

end WarmHandlers
