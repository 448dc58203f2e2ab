import Infly.ExecutorCache
import Infly.PoolModel

/-! # Worker processes

`_worker_loop` of `infly/runtime/strategy/process_pool.py`, the registry that
`_worker_registry` builds for it with `with_runtime_context` of `infly/core/handlers.py`, and the
error codes in its messages. Logging and the environment of the process are left out.
-/
namespace WorkerProcess

open Contracts CacheKey ExecutorCache PoolState

/-! ## Error codes in messages -/

def codeValue : ErrorCode → String
  | .ok => "OK"
  | .notFound => "NOT_FOUND"
  | .handlerNotFound => "HANDLER_NOT_FOUND"
  | .overloaded => "OVERLOADED"
  | .timeout => "TIMEOUT"
  | .workerUnavailable => "WORKER_UNAVAILABLE"
  | .invalidArgument => "INVALID_ARGUMENT"
  | .invalidConfiguration => "INVALID_CONFIGURATION"
  | .invalidState => "INVALID_STATE"
  | .invalidRequest => "INVALID_REQUEST"
  | .internalError => "INTERNAL_ERROR"

def members : List ErrorCode :=
  [.ok, .notFound, .handlerNotFound, .overloaded, .timeout, .workerUnavailable, .invalidArgument,
    .invalidConfiguration, .invalidState, .invalidRequest, .internalError]

/-- The `code` attribute of an exception: a member of `ErrorCode`, a text, or anything else. -/
inductive Code where
  | member (code : ErrorCode) | text (value : String) | other
  deriving DecidableEq, Repr

def dumpErrorCode : Code → Code
  | .member code => .text (codeValue code)
  | code => code

def loadErrorCode : Code → ErrorCode
  | .member code => code
  | .text value => (members.find? fun code => codeValue code == value).getD .internalError
  | .other => .internalError

/-- `getattr(exc, "code", ErrorCode.INTERNAL_ERROR)`; `own` is the attribute that an exception of
another class may have. -/
def codeAttribute (own : Option Code) : Raised → Code
  | .platform e => .member e.code
  | _ => own.getD (.member .internalError)

/-! ## Starting up -/

variable (keys : CacheKeys)

/-- The objects that there are or will be, and where a new one is put, if there is room. -/
structure Memory where
  heap : Heap
  allocate : Node → Option ℕ
  holds : ∀ node id, allocate node = some id → heap id = node

/-- A new object; `MemoryError` has no text. -/
def Memory.create (memory : Memory) (node : Node) : Except Raised ℕ :=
  match memory.allocate node with
  | some id => .ok id
  | none => .error (.other "")

/-- The items of `ChainMap({key: value}, items)`: the keys of the second mapping come first, and
the value of the first one is what is found. -/
def chainEntries (key : Key) (value : Value) (entries : List (Key × Value)) :
    List (Key × Value) :=
  if key.held ∈ entries.map fun e => e.1.held then
    entries.map fun e => if e.1.held = key.held then (e.1, value) else e
  else entries ++ [(key, value)]

theorem chainEntries_distinct (key : Key) (value : Value) (items : Items) :
    ((chainEntries key value items.entries).map fun e => e.1.held).Nodup := by
  unfold chainEntries
  split
  · have same : ((items.entries.map fun e => if e.1.held = key.held then (e.1, value) else e).map
        fun e => e.1.held) = items.entries.map fun e => e.1.held := by
      rw [List.map_map]
      refine List.map_congr_left fun e _ => ?_
      simp only [Function.comp_apply]
      split <;> rfl
    rw [same]
    exact items.distinct
  · rename_i new
    rw [List.map_append, List.map_singleton]
    refine List.nodup_append.mpr ⟨items.distinct, List.nodup_singleton _, ?_⟩
    rintro held hmem _ hkey rfl
    exact new (List.mem_singleton.mp hkey ▸ hmem)

def chainMap (key : Key) (value : Value) (items : Items) : Items :=
  ⟨chainEntries key value items.entries, chainEntries_distinct key value items⟩

/-- `HandlerDefinition.with_runtime_context`. The copies that `dict` makes are new objects; a
context that is no mapping is no context. -/
def withRuntimeContext (memory : Memory) (definition : HandlerDefinition)
    (runtimeContext : Items) : Except Raised HandlerDefinition :=
  match definition.initContext with
  | .ref id =>
    match memory.heap id with
    | .mapping items =>
      match memory.create (.mapping runtimeContext) with
      | .error e => .error e
      | .ok context =>
        match memory.create (.mapping
          (chainMap (Key.text "runtime_context") (.ref context) items)) with
        | .error e => .error e
        | .ok chain => .ok { definition with initContext := .ref chain }
    | _ => .error (.other "init_context is not a mapping")
  | _ => .error (.other "init_context is not a mapping")

theorem context_distinct (groupName workerId : String) :
    (([(Key.text "group_name", .scalar (.str groupName)),
      (Key.text "worker_id", .scalar (.str workerId))] : List (Key × Value)).map
        fun e => e.1.held).Nodup := by
  simp [Key.text]

/-- The `context` of `_worker_registry`. -/
def workerContext (groupName workerId : String) : Items :=
  ⟨[(Key.text "group_name", .scalar (.str groupName)),
    (Key.text "worker_id", .scalar (.str workerId))], context_distinct groupName workerId⟩

/-- `_worker_registry`, from the names that are left. -/
def addHandlers (memory : Memory) (registry : Registry) (context : Items) :
    List String → Registry → Except Raised Registry
  | [], child => .ok child
  | name :: rest, child =>
    match registry.get name with
    | .error e => .error e
    | .ok definition =>
      match withRuntimeContext memory definition context with
      | .error e => .error e
      | .ok definition => addHandlers memory registry context rest (child.add definition)

def workerRegistry (memory : Memory) (registry : Registry) (w : WorkerState) :
    Except Raised Registry :=
  addHandlers memory registry (workerContext w.group.name w.workerId) w.handlerNames .empty

/-- `executor.preload()`, with the exception that ends it. -/
def preloadFrom (load : String → Option Raised) :
    List HandlerDefinition → Executor → Except Raised Executor
  | [], s => .ok s
  | definition :: rest, s =>
    match definition.reuseMode with
    | .taskTransient => preloadFrom load rest s
    | .workerCached =>
      match getOrLoad keys s definition.handlerName (load definition.handlerName) with
      | (.error e, _) => .error e
      | (.ok _, s) => preloadFrom load rest s

/-- A process that has put READY or STARTUP_FAILED into its lifecycle queue serves or is over. -/
inductive Child where
  | absent | starting (registry : Registry) | refused (message : String)
  | serving (executor : Executor)

def Child.isServing : Child → Bool
  | .serving _ => true
  | _ => false

def boot (registry : Registry) (load : String → Option Raised) : Child :=
  match preloadFrom keys load registry.list { registry } with
  | .error e => .refused e.text
  | .ok s => .serving s

/-! ## Requests -/

/-- What the process puts into the result queue. The parent reads the code with
`_load_error_code` and takes the empty text for no text. -/
def reply (workerId : String) (generation : ℕ) (taskId : TaskId) (own : Option Code) :
    Except Raised TaskResult → WorkerResultMessage
  | .ok result => {
      ok := true
      payload := some result
      taskId := taskId
      workerId := workerId
      generation := generation }
  | .error e => {
      ok := false
      errorCode := some (loadErrorCode (dumpErrorCode (codeAttribute own e)))
      errorMessage := if e.text = "" then none else some e.text
      taskId := taskId
      workerId := workerId
      generation := generation }

@[simp] theorem reply_taskId (w : String) (g : ℕ) (t : TaskId) (own : Option Code)
    (x : Except Raised TaskResult) : (reply w g t own x).taskId = t := by
  cases x <;> rfl

/-- What the parent makes of an exception in a worker process. -/
def surfaced (own : Option Code) (e : Raised) : PlatformError :=
  ⟨loadErrorCode (dumpErrorCode (codeAttribute own e)),
    if e.text = "" then "Unknown worker error" else e.text⟩

theorem reply_resolution (w : String) (g : ℕ) (t : TaskId) (own : Option Code)
    (x : Except Raised TaskResult) :
    PoolModel.resolutionOf (reply w g t own x) = match x with
      | .ok result => .result (some result)
      | .error e => .error (surfaced own e) := by
  cases x with
  | ok result => rfl
  | error e =>
    simp only [reply, PoolModel.resolutionOf, surfaced, Bool.false_eq_true, if_false,
      Option.getD_some]
    split <;> rfl

/-! ## What the registry holds -/

section Registries

variable {memory : Memory} {registry child result : Registry} {context : Items}
  {names : List String} {definition made : HandlerDefinition}

theorem found (registry : Registry) (n : String) (definition : HandlerDefinition) :
    registry.get n = .ok definition ↔ registry.get? n = some definition :=
  registry_get (s := { registry := registry })

/-- The definition made for a worker is the parent's with another context: a mapping that has the
runtime context under its key. -/
theorem withRuntimeContext_made (h : withRuntimeContext memory definition context = .ok made) :
    ∃ id chain inner items, definition.initContext = .ref id ∧
      memory.heap id = .mapping items ∧ made = { definition with initContext := .ref chain } ∧
      memory.heap inner = .mapping context ∧
      memory.heap chain = .mapping (chainMap (Key.text "runtime_context") (.ref inner) items) := by
  have created : ∀ {node : Node} {id : ℕ}, memory.create node = .ok id →
      memory.heap id = node := by
    intro node id hid
    unfold Memory.create at hid
    split at hid
    · rename_i ha
      cases hid
      exact memory.holds node _ ha
    · cases hid
  unfold withRuntimeContext at h
  split at h
  · rename_i id hid
    split at h
    · rename_i items hitems
      split at h
      · cases h
      · rename_i inner hinner
        split at h
        · cases h
        · rename_i chain hchain
          cases h
          exact ⟨id, chain, inner, items, hid, hitems, rfl, created hinner, created hchain⟩
    · cases h
  · cases h

/-- The runtime context of a worker is what a handler finds in its `init_context`. -/
def Aware (memory : Memory) (definition : HandlerDefinition) (context : Items) : Prop :=
  ∃ chain items key inner, definition.initContext = .ref chain ∧
    memory.heap chain = .mapping items ∧ (key, Value.ref inner) ∈ items.entries ∧
    key.held = .text "runtime_context" ∧ memory.heap inner = .mapping context

theorem mem_chainMap (key : Key) (value : Value) (items : Items) :
    ∃ k, (k, value) ∈ (chainMap key value items).entries ∧ k.held = key.held := by
  unfold chainMap chainEntries
  dsimp only
  split
  · rename_i old
    obtain ⟨e, he, hheld⟩ := List.mem_map.mp old
    exact ⟨e.1, List.mem_map.mpr ⟨e, he, if_pos hheld⟩, hheld⟩
  · exact ⟨key, List.mem_append_right _ (List.mem_singleton.mpr rfl), rfl⟩

theorem withRuntimeContext_aware (h : withRuntimeContext memory definition context = .ok made) :
    Aware memory made context := by
  obtain ⟨_, chain, inner, items, -, -, rfl, hinner, hchain⟩ := withRuntimeContext_made h
  obtain ⟨key, hmem, hheld⟩ := mem_chainMap (Key.text "runtime_context") (.ref inner) items
  exact ⟨chain, _, key, inner, rfl, hchain, hmem, hheld, hinner⟩

theorem withRuntimeContext_named (h : withRuntimeContext memory definition context = .ok made) :
    made.handlerName = definition.handlerName := by
  obtain ⟨_, _, _, _, -, -, rfl, -⟩ := withRuntimeContext_made h
  rfl

/-- What is in the registry of a process was there before, or is made from the parent's. -/
theorem added_handlers (h : addHandlers memory registry context names child = .ok result)
    (hr : ∀ n d, registry.get? n = some d → d.handlerName = n) :
    (∀ n d, result.get? n = some d → child.get? n = some d ∨
      ∃ d₀, registry.get? n = some d₀ ∧ withRuntimeContext memory d₀ context = .ok d) ∧
    (∀ n ∈ names, result.get? n ≠ none) ∧ ∀ n, child.get? n ≠ none → result.get? n ≠ none := by
  induction names generalizing child with
  | nil =>
    cases h
    exact ⟨fun n d hd => .inl hd, fun n hn => absurd hn List.not_mem_nil, fun n hn => hn⟩
  | cons name rest ih =>
    unfold addHandlers at h
    split at h
    · cases h
    rename_i d₀ hget
    split at h
    · cases h
    rename_i made hmade
    have known := (found registry name d₀).mp hget
    have named : made.handlerName = name :=
      (withRuntimeContext_named hmade).trans (hr name d₀ known)
    have entry : ∀ n, (child.add made).get? n = if n = name then some made else child.get? n := by
      intro n
      rw [Registry.add, Dict.get?_set, named]
    obtain ⟨origin, listed, kept⟩ := ih h
    refine ⟨fun n d hd => ?_, fun n hn => ?_, fun n hn => kept n ?_⟩
    · rcases origin n d hd with hd | hd
      · rw [entry] at hd
        split at hd
        · rename_i hn
          cases hd
          exact .inr ⟨d₀, hn ▸ known, hmade⟩
        · exact .inl hd
      · exact .inr hd
    · rcases List.mem_cons.mp hn with rfl | hn
      · refine kept n ?_
        rw [entry, if_pos rfl]
        exact Option.some_ne_none _
      · exact listed n hn
    · rw [entry]
      split
      · exact Option.some_ne_none _
      · exact hn

end Registries

/-! ## Loads after READY -/

section Warm

variable {keys : CacheKeys} {s t : Executor} {n m : String} {definition other : HandlerDefinition}
  {i j : Instance} {k : String} {load : Option Raised} {handle : Except Raised Mapping}
  {request : TaskRequest}

/-- Requests of handler `n` run on instance `i` without a load. -/
structure Cached (keys : CacheKeys) (s : Executor) (n : String) (definition : HandlerDefinition)
    (i : Instance) : Prop where
  known : s.registry.get? n = some definition
  mode : definition.reuseMode = .workerCached
  stored : ∃ k, keys.key definition = .ok k ∧ s.instances.get? k = some i

def Warm (keys : CacheKeys) (s : Executor) : Prop :=
  ∀ n definition, s.registry.get? n = some definition → definition.reuseMode = .workerCached →
    ∃ i, Cached keys s n definition i

/-- No other handler is active under the key. -/
theorem Cached.alone (h : Sound keys s) (c : Cached keys s n definition i)
    (hk : keys.key definition = .ok k) (hm : s.activeKeys.get? m = some k) : m = n := by
  obtain ⟨k', hk', hi⟩ := c.stored
  cases hk.symm.trans hk'
  have hn := h.hit c.known hk hi
  obtain ⟨o, _, unique⟩ := h.only k i hi
  exact (unique m hm).trans (unique n hn).symm

/-- Loading some handler leaves the instances of the cached ones. -/
theorem Cached.loads (h : Sound keys s) (c : Cached keys s n definition i)
    {r : Except Raised Instance} (hl : Loads keys s m r t) : Cached keys t n definition i := by
  obtain ⟨k, hk, hi⟩ := c.stored
  cases hl with
  | raised e loads _ => exact ⟨c.known, c.mode, k, hk, hi⟩
  | hit d k' i' _ _ _ => exact ⟨c.known, c.mode, k, hk, hi⟩
  | built d k' t hd hk' hnone registry _ _ instances =>
    refine ⟨registry ▸ c.known, c.mode, k, hk, ?_⟩
    have hne : k ≠ k' := by
      rintro rfl
      cases hi.symm.trans hnone
    rw [instances, if_neg hne, if_neg]
    · exact hi
    · intro hm
      cases c.alone h hk hm
      cases hd.symm.trans c.known
      exact hne (Except.ok.inj (hk.symm.trans hk'))

/-- A handler that is loaded once for all tasks is not the one whose instance a transient
request takes away. -/
theorem Cached.evict (h : Sound keys s) (c : Cached keys s n definition i)
    (hm : s.registry.get? m = some other) (transient : other.reuseMode = .taskTransient)
    (loads : ℕ) : Cached keys { evict s m with loads := loads } n definition i := by
  obtain ⟨k, hk, hi⟩ := c.stored
  obtain ⟨_, _, registry, _, instances⟩ := sound_evict h m
  refine ⟨registry ▸ c.known, c.mode, k, hk, ?_⟩
  rw [instances, if_neg]
  · exact hi
  · intro hactive
    cases c.alone h hk hactive
    cases hm.symm.trans c.known
    cases transient.symm.trans c.mode

theorem Cached.execute (h : Sound keys s) (c : Cached keys s n definition i)
    (request : TaskRequest) (load : Option Raised) (handle : Except Raised Mapping) :
    Cached keys (ExecutorCache.execute keys s request load handle).2 n definition i := by
  by_cases ht : request.taskId = ""
  · rwa [(execute_rejected keys load handle (.inl ht)).1]
  · cases hd : s.registry.get? request.handlerName with
    | none => rwa [(execute_rejected keys load handle (.inr hd)).1]
    | some d =>
      have name := h.registered _ _ hd
      cases hm : d.reuseMode with
      | workerCached =>
        rw [(execute_cached keys load handle ht hd hm).1]
        exact c.loads h (get_loads s d.handlerName load)
      | taskTransient =>
        rw [(execute_transient keys load handle ht hd hm).1]
        exact c.evict h (name.symm ▸ hd) hm _

/-- A request of a cached handler runs on its instance, and nothing is loaded. -/
theorem Cached.serves (load : Option Raised) (handle : Except Raised Mapping)
    (c : Cached keys s request.handlerName definition i) (ht : request.taskId ≠ "")
    (name : definition.handlerName = request.handlerName) :
    (ExecutorCache.execute keys s request load handle).1.ran = some (definition, i) ∧
      (ExecutorCache.execute keys s request load handle).2.loads = s.loads := by
  obtain ⟨k, hk, hi⟩ := c.stored
  have hit : getOrLoad keys s definition.handlerName load =
      (.ok i, { s with activeKeys := s.activeKeys.set definition.handlerName k }) := by
    unfold getOrLoad
    rw [name, registry_get.mpr c.known]
    dsimp only
    rw [hk]
    dsimp only
    rw [hi]
  obtain ⟨after, ran⟩ := execute_cached keys load handle ht c.known c.mode
  rw [hit] at after ran
  exact ⟨ran, by rw [after]⟩

/-- After the preload every cached handler of the list has its instance. -/
theorem preload_warms {load : String → Option Raised} {definitions : List HandlerDefinition}
    (h : Sound keys s) (known : ∀ d ∈ definitions, s.registry.get? d.handlerName = some d)
    (ht : preloadFrom keys load definitions s = .ok t) :
    Kept keys s t ∧ (∀ n d i, Cached keys s n d i → Cached keys t n d i) ∧
      ∀ d ∈ definitions, d.reuseMode = .workerCached → ∃ i, Cached keys t d.handlerName d i := by
  induction definitions generalizing s with
  | nil =>
    cases ht
    exact ⟨.refl h, fun _ _ _ c => c, fun d hd => absurd hd List.not_mem_nil⟩
  | cons d rest ih =>
    have hd := known d List.mem_cons_self
    have others : ∀ c ∈ rest, s.registry.get? c.handlerName = some c := fun c hc =>
      known c (List.mem_cons_of_mem _ hc)
    unfold preloadFrom at ht
    cases hm : d.reuseMode with
    | taskTransient =>
      rw [hm] at ht
      obtain ⟨kept, old, new⟩ := ih h others ht
      refine ⟨kept, old, fun c hc hmode => ?_⟩
      rcases List.mem_cons.mp hc with rfl | hc
      · cases hm.symm.trans hmode
      · exact new c hc hmode
    | workerCached =>
      rw [hm] at ht
      dsimp only at ht
      have loaded : Loads keys s d.handlerName _ _ := get_loads s d.handlerName (load d.handlerName)
      obtain ⟨kept, _, built⟩ := loads_sound h loaded
      rcases hg : getOrLoad keys s d.handlerName (load d.handlerName) with ⟨r, u⟩
      rw [hg] at ht kept built loaded
      cases r with
      | error e => cases ht
      | ok i =>
        obtain ⟨c, k, hc, hk, hi⟩ := built i rfl
        cases hd.symm.trans hc
        have mine : Cached keys u d.handlerName d i := ⟨kept.registry ▸ hd, hm, k, hk, hi⟩
        obtain ⟨kept', old, new⟩ := ih kept.sound (fun c hc => kept.registry ▸ others c hc) ht
        refine ⟨kept.trans kept', fun n c i hc => old n c i (hc.loads h loaded),
          fun c hc hmode => ?_⟩
        rcases List.mem_cons.mp hc with rfl | hc
        · exact ⟨i, old _ _ _ mine⟩
        · exact new c hc hmode

/-- A process that has reported READY holds an instance of every cached handler it knows. -/
theorem boot_warm {registry : Registry} {load : String → Option Raised}
    (named : ∀ n d, registry.get? n = some d → d.handlerName = n)
    (h : boot keys registry load = .serving s) :
    Sound keys s ∧ Warm keys s ∧ s.registry = registry := by
  have sound : Sound keys { registry := registry } :=
    ⟨fun _ _ hn => (by cases hn), fun _ _ hk => (by cases hk), named⟩
  have listed : ∀ d ∈ registry.list, registry.get? d.handlerName = some d := by
    intro d hd
    obtain ⟨n, hn⟩ := Dict.mem_values.mp ((List.perm_insertionSort _ _).mem_iff.mp hd)
    rw [named n d hn]
    exact hn
  unfold boot at h
  cases hp : preloadFrom keys load registry.list { registry := registry } with
  | error e =>
    rw [hp] at h
    cases h
  | ok u =>
    rw [hp] at h
    cases h
    obtain ⟨kept, _, new⟩ := preload_warms sound listed hp
    refine ⟨kept.sound, fun n d hd hm => ?_, kept.registry⟩
    have hreg : registry.get? n = some d := by
      rw [← hd, kept.registry]
    have hin : d ∈ registry.list :=
      (List.perm_insertionSort _ _).mem_iff.mpr (Dict.mem_values.mpr ⟨n, hreg⟩)
    obtain ⟨i, hi⟩ := new d hin hm
    rw [named n d hreg] at hi
    exact ⟨i, hi⟩

theorem Warm.execute (h : Sound keys s) (warm : Warm keys s) (request : TaskRequest)
    (load : Option Raised) (handle : Except Raised Mapping)
    (same : (ExecutorCache.execute keys s request load handle).2.registry = s.registry) :
    Warm keys (ExecutorCache.execute keys s request load handle).2 := by
  intro n d hd hm
  obtain ⟨i, c⟩ := warm n d (same ▸ hd) hm
  exact ⟨i, c.execute h request load handle⟩

end Warm

end WorkerProcess
