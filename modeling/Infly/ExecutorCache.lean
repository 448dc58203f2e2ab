import Infly.CacheIdentity
import Infly.Contracts
import Mathlib.Data.String.Basic

/-! # Handler instances of an executor

`infly/runtime/executor.py` and `infly/runtime/registry.py`, in one thread. What `load_handler` and
`handle` do is given with each call: they return or raise.
-/
namespace ExecutorCache

open Contracts CacheKey CacheTexts CacheIdentity

/-- `cache_key`, whose text tells the handler's name. -/
structure CacheKeys where
  key : HandlerDefinition → Except Raised String
  named : ∀ definition other k, key definition = .ok k → key other = .ok k →
    definition.handlerName = other.handlerName

/-! ## The registry -/

abbrev Registry := Dict String HandlerDefinition

namespace Registry

def add (registry : Registry) (definition : HandlerDefinition) : Registry :=
  registry.set definition.handlerName definition

def get (registry : Registry) (handlerName : String) : Except Raised HandlerDefinition :=
  match registry.get? handlerName with
  | none =>
    .error (.platform ⟨.handlerNotFound, s!"Handler '{handlerName}' not found in registry."⟩)
  | some definition => .ok definition

def list (registry : Registry) : List HandlerDefinition :=
  registry.values.insertionSort fun a b => a.handlerName ≤ b.handlerName

end Registry

/-! ## The executor -/

/-- What the load with this number has built. -/
structure Instance where
  number : ℕ
  definition : HandlerDefinition

structure Executor where
  registry : Registry := .empty
  instances : Dict String Instance := .empty
  activeKeys : Dict String String := .empty
  loads : ℕ := 0

def loadHandler (s : Executor) (definition : HandlerDefinition) (load : Option Raised) :
    Except Raised Instance × Executor :=
  match load with
  | some e => (.error e, { s with loads := s.loads + 1 })
  | none => (.ok ⟨s.loads, definition⟩, { s with loads := s.loads + 1 })

variable (keys : CacheKeys)

/-- `_get_or_load` under its lock. -/
def lockedLoad (s : Executor) (handlerName : String) (load : Option Raised) :
    Except Raised Instance × Executor :=
  match s.registry.get handlerName with
  | .error e => (.error e, s)
  | .ok definition =>
    match keys.key definition with
    | .error e => (.error e, s)
    | .ok cacheKey =>
      match s.instances.get? cacheKey with
      | some cached => (.ok cached, { s with activeKeys := s.activeKeys.set handlerName cacheKey })
      | none =>
        match loadHandler s definition load with
        | (.error e, s) => (.error e, s)
        | (.ok handler, s) =>
          let stored := { s with
            instances := s.instances.set cacheKey handler
            activeKeys := s.activeKeys.set handlerName cacheKey }
          match s.activeKeys.get? handlerName with
          | none => (.ok handler, stored)
          | some previousKey =>
            if previousKey = cacheKey then (.ok handler, stored)
            else (.ok handler, { stored with instances := stored.instances.pop previousKey })

def getOrLoad (s : Executor) (handlerName : String) (load : Option Raised) :
    Except Raised Instance × Executor :=
  match s.registry.get handlerName with
  | .error e => (.error e, s)
  | .ok definition =>
    match keys.key definition with
    | .error e => (.error e, s)
    | .ok cacheKey =>
      match s.instances.get? cacheKey with
      | some cached => (.ok cached, { s with activeKeys := s.activeKeys.set handlerName cacheKey })
      | none => lockedLoad keys s handlerName load

def evict (s : Executor) (handlerName : String) : Executor :=
  match s.activeKeys.get? handlerName with
  | none => s
  | some previousKey => { s with
      activeKeys := s.activeKeys.pop handlerName
      instances := s.instances.pop previousKey }

def loadTransient (s : Executor) (definition : HandlerDefinition) (load : Option Raised) :
    Except Raised Instance × Executor :=
  loadHandler (evict s definition.handlerName) definition load

/-- `ran` is the instance whose `handle` was called, with the definition it was called for. -/
structure Execution where
  outcome : Except Raised TaskResult
  ran : Option (HandlerDefinition × Instance) := none

def notSubmitted : Raised :=
  .platform ⟨.invalidRequest,
    "TaskRequest must be submitted through TaskScheduler before execution."⟩

def execute (s : Executor) (request : TaskRequest) (load : Option Raised)
    (handle : Except Raised Mapping) : Execution × Executor :=
  if request.taskId = "" then ({ outcome := .error notSubmitted }, s)
  else
    match s.registry.get request.handlerName with
    | .error e => ({ outcome := .error e }, s)
    | .ok definition =>
      let (loaded, s) :=
        match definition.reuseMode with
        | .taskTransient => loadTransient s definition load
        | .workerCached => getOrLoad keys s definition.handlerName load
      match loaded with
      | .error e => ({ outcome := .error e }, s)
      | .ok handler =>
        ({ outcome := handle.map fun output => {
              taskId := request.taskId
              output := output
              diagnostics := [("handler_name", definition.handlerName)] }
           ran := some (definition, handler) }, s)

/-- The first load that raises ends the preload. -/
def preloadAll (load : String → Option Raised) :
    List HandlerDefinition → Executor → Executor
  | [], s => s
  | definition :: rest, s =>
    match definition.reuseMode with
    | .taskTransient => preloadAll load rest s
    | .workerCached =>
      match getOrLoad keys s definition.handlerName (load definition.handlerName) with
      | (.error _, s) => s
      | (.ok _, s) => preloadAll load rest s

def preload (s : Executor) (load : String → Option Raised) : Executor :=
  preloadAll keys load s.registry.list s

inductive Event where
  | add (definition : HandlerDefinition)
  | execute (request : TaskRequest) (load : Option Raised) (handle : Except Raised Mapping)
  | preload (load : String → Option Raised)

/-- The executor, and the instances that were run so far. -/
structure History where
  executor : Executor := {}
  log : List (HandlerDefinition × Instance) := []

def next (h : History) : Event → History
  | .add definition =>
    { h with executor := { h.executor with registry := h.executor.registry.add definition } }
  | .execute request load handle =>
    { executor := (execute keys h.executor request load handle).2
      log := h.log ++ (execute keys h.executor request load handle).1.ran.toList }
  | .preload load => { h with executor := preload keys h.executor load }

/-! ## What the two maps hold -/

/-- One instance for each active key, stored under it and built from a definition with that key. -/
structure Sound (s : Executor) : Prop where
  active : ∀ n k, s.activeKeys.get? n = some k → ∃ i, s.instances.get? k = some i ∧
    keys.key i.definition = .ok k ∧ i.definition.handlerName = n
  only : ∀ k i, s.instances.get? k = some i → ∃ n, s.activeKeys.get? n = some k ∧
    ∀ m, s.activeKeys.get? m = some k → m = n
  registered : ∀ n definition, s.registry.get? n = some definition → definition.handlerName = n

variable {keys} {s t : Executor} {definition : HandlerDefinition} {i : Instance} {k n : String}
  {load : Option Raised} {e : Raised} {handle : Except Raised Mapping} {request : TaskRequest}

theorem registry_get : s.registry.get n = .ok definition ↔ s.registry.get? n = some definition := by
  unfold Registry.get
  cases s.registry.get? n with
  | none => simp
  | some d => simp

/-- The ways through `_get_or_load`. A new instance takes the place of the one under the handler's
previous key. -/
inductive Loads (keys : CacheKeys) (s : Executor) (n : String) :
    Except Raised Instance → Executor → Prop where
  | raised (e : Raised) (loads : ℕ) (hl : s.loads ≤ loads) :
      Loads keys s n (.error e) { s with loads := loads }
  | hit (definition : HandlerDefinition) (k : String) (i : Instance)
      (hd : s.registry.get? n = some definition) (hk : keys.key definition = .ok k)
      (hi : s.instances.get? k = some i) :
      Loads keys s n (.ok i) { s with activeKeys := s.activeKeys.set n k }
  | built (definition : HandlerDefinition) (k : String) (t : Executor)
      (hd : s.registry.get? n = some definition) (hk : keys.key definition = .ok k)
      (hi : s.instances.get? k = none) (registry : t.registry = s.registry)
      (loads : t.loads = s.loads + 1) (active : t.activeKeys = s.activeKeys.set n k)
      (instances : ∀ j, t.instances.get? j = if j = k then some ⟨s.loads, definition⟩
        else if s.activeKeys.get? n = some j then none else s.instances.get? j) :
      Loads keys s n (.ok ⟨s.loads, definition⟩) t

theorem locked_loads (s : Executor) (n : String) (load : Option Raised) :
    Loads keys s n (lockedLoad keys s n load).1 (lockedLoad keys s n load).2 := by
  unfold lockedLoad
  cases hd : s.registry.get n with
  | error e => exact .raised e s.loads (Nat.le_refl _)
  | ok definition =>
    dsimp only
    have hd := registry_get.mp hd
    cases hk : keys.key definition with
    | error e => exact .raised e s.loads (Nat.le_refl _)
    | ok k =>
      dsimp only
      cases hi : s.instances.get? k with
      | some i => exact .hit definition k i hd hk hi
      | none =>
        dsimp only [loadHandler]
        cases load with
        | some e => exact .raised e _ (Nat.le_succ _)
        | none =>
          dsimp only
          cases hp : s.activeKeys.get? n with
          | none =>
            refine .built definition k _ hd hk hi rfl rfl rfl ?_
            intro j
            rw [Dict.get?_set, hp, if_neg fun he : none = some j => by cases he]
          | some previous =>
            dsimp only
            by_cases hne : previous = k
            · rw [if_pos hne]
              refine .built definition k _ hd hk hi rfl rfl rfl ?_
              intro j
              rw [Dict.get?_set, hp, hne]
              by_cases hj : j = k
              · rw [if_pos hj, if_pos hj]
              · rw [if_neg hj, if_neg hj, if_neg fun he => hj (Option.some.inj he).symm]
            · rw [if_neg hne]
              refine .built definition k _ hd hk hi rfl rfl rfl ?_
              intro j
              rw [Dict.get?_pop, Dict.get?_set, hp]
              by_cases hj : j = previous
              · rw [if_pos hj, if_neg (hj ▸ hne), if_pos (congrArg some hj.symm)]
              · have hne' : some previous ≠ some j := fun he => hj (Option.some.inj he).symm
                rw [if_neg hj, if_neg hne']

theorem get_loads (s : Executor) (n : String) (load : Option Raised) :
    Loads keys s n (getOrLoad keys s n load).1 (getOrLoad keys s n load).2 := by
  unfold getOrLoad
  cases hd : s.registry.get n with
  | error e => exact .raised e s.loads (Nat.le_refl _)
  | ok definition =>
    dsimp only
    cases hk : keys.key definition with
    | error e => exact .raised e s.loads (Nat.le_refl _)
    | ok k =>
      dsimp only
      cases hi : s.instances.get? k with
      | some i => exact .hit definition k i (registry_get.mp hd) hk hi
      | none => exact locked_loads s n load

/-- The owner of a key is the handler it names. -/
theorem Sound.owner (h : Sound keys s) (hi : s.instances.get? k = some i) :
    s.activeKeys.get? i.definition.handlerName = some k := by
  obtain ⟨n, hn, _⟩ := h.only k i hi
  obtain ⟨j, hj, _, hname⟩ := h.active n k hn
  cases hi.symm.trans hj
  rw [hname]
  exact hn

theorem Sound.built (h : Sound keys s) (hi : s.instances.get? k = some i) :
    keys.key i.definition = .ok k := by
  obtain ⟨j, hj, hkey, _⟩ := h.active _ k (h.owner hi)
  cases hi.symm.trans hj
  exact hkey

/-- A key in use is that of its handler. -/
theorem Sound.hit (h : Sound keys s) (hd : s.registry.get? n = some definition)
    (hk : keys.key definition = .ok k) (hi : s.instances.get? k = some i) :
    s.activeKeys.get? n = some k := by
  rw [← h.registered n definition hd, ← keys.named i.definition definition k (h.built hi) hk]
  exact h.owner hi

theorem sound_stored (h : Sound keys s) (hd : s.registry.get? n = some definition)
    (hk : keys.key definition = .ok k) (hp : s.activeKeys.get? n = none) (number loads : ℕ) :
    Sound keys { s with
      instances := s.instances.set k ⟨number, definition⟩
      activeKeys := s.activeKeys.set n k
      loads := loads } := by
  have fresh : ∀ m j, s.activeKeys.get? m = some j → j ≠ k ∧ m ≠ n := by
    rintro m j hm
    have hmn : m ≠ n := by
      rintro rfl
      cases hp.symm.trans hm
    refine ⟨?_, hmn⟩
    rintro rfl
    obtain ⟨i, _, hkey, hname⟩ := h.active m j hm
    apply hmn
    rw [← hname, ← h.registered n definition hd]
    exact keys.named i.definition definition j hkey hk
  refine ⟨?_, ?_, h.registered⟩
  · intro m j hm
    rw [Dict.get?_set] at hm
    split at hm
    · rename_i hmn
      cases hm
      refine ⟨⟨number, definition⟩, ?_, hk, ?_⟩
      · exact (Dict.get?_set ..).trans (if_pos rfl)
      · rw [hmn]
        exact h.registered n definition hd
    · obtain ⟨i, hi, rest⟩ := h.active m j hm
      refine ⟨i, ?_, rest⟩
      rw [Dict.get?_set, if_neg (fresh m j hm).1]
      exact hi
  · intro j i hi
    rw [Dict.get?_set] at hi
    split at hi
    · rename_i hjk
      subst hjk
      refine ⟨n, (Dict.get?_set ..).trans (if_pos rfl), ?_⟩
      intro m hm
      rw [Dict.get?_set] at hm
      split at hm
      · assumption
      · exact absurd rfl (fresh m j hm).1
    · rename_i hjk
      obtain ⟨m, hm, unique⟩ := h.only j i hi
      refine ⟨m, ?_, ?_⟩
      · rw [Dict.get?_set, if_neg (fresh m j hm).2]
        exact hm
      · intro m' hm'
        rw [Dict.get?_set] at hm'
        split at hm'
        · cases hm'
          exact absurd rfl hjk
        · exact unique m' hm'

/-- What holds of the maps is a matter of their lookups. -/
theorem Sound.congr (h : Sound keys s) (hr : t.registry = s.registry)
    (hi : ∀ k, t.instances.get? k = s.instances.get? k)
    (ha : ∀ n, t.activeKeys.get? n = s.activeKeys.get? n) : Sound keys t where
  active n k hn := by
    rw [hi]
    exact h.active n k ((ha n).symm.trans hn)
  only k i hk := by
    obtain ⟨n, hn, unique⟩ := h.only k i ((hi k).symm.trans hk)
    exact ⟨n, (ha n).trans hn, fun m hm => unique m ((ha m).symm.trans hm)⟩
  registered n definition hn := h.registered n definition (hr ▸ hn)

/-- Taking the instance of a handler away, with its key. -/
theorem sound_evict (h : Sound keys s) (n : String) : Sound keys (evict s n) ∧
    (evict s n).activeKeys.get? n = none ∧ (evict s n).registry = s.registry ∧
    (evict s n).loads = s.loads ∧
    ∀ k, (evict s n).instances.get? k =
      if s.activeKeys.get? n = some k then none else s.instances.get? k := by
  unfold evict
  cases hp : s.activeKeys.get? n with
  | none => exact ⟨h, hp, rfl, rfl, fun k => (if_neg fun he => by cases he).symm⟩
  | some previous =>
    refine ⟨⟨?_, ?_, h.registered⟩, by simp, rfl, rfl, ?_⟩
    · intro m j hm
      rw [Dict.get?_pop] at hm
      split at hm
      · cases hm
      · rename_i hmn
        obtain ⟨i, hi, hkey, hname⟩ := h.active m j hm
        refine ⟨i, ?_, hkey, hname⟩
        rw [Dict.get?_pop, if_neg]
        · exact hi
        · rintro rfl
          obtain ⟨o, _, unique⟩ := h.only j i hi
          exact hmn ((unique m hm).trans (unique n hp).symm)
    · intro j i hi
      rw [Dict.get?_pop] at hi
      split at hi
      · cases hi
      · rename_i hj
        obtain ⟨m, hm, unique⟩ := h.only j i hi
        refine ⟨m, ?_, ?_⟩
        · rw [Dict.get?_pop, if_neg]
          · exact hm
          · rintro rfl
            cases hp.symm.trans hm
            exact hj rfl
        · intro m' hm'
          rw [Dict.get?_pop] at hm'
          split at hm'
          · cases hm'
          · exact unique m' hm'
    · intro k
      rw [Dict.get?_pop]
      by_cases hk : k = previous
      · rw [if_pos hk, hk, if_pos rfl]
      · rw [if_neg hk, if_neg]
        intro he
        exact hk (Option.some.inj he).symm

/-- An instance that the executor holds is one it held, or the new one. -/
structure Kept (keys : CacheKeys) (s t : Executor) : Prop where
  sound : Sound keys t
  registry : t.registry = s.registry
  loads : s.loads ≤ t.loads
  old : ∀ k i, t.instances.get? k = some i →
    s.instances.get? k = some i ∨ s.loads ≤ i.number ∧ i.number < t.loads

/-- Loading keeps the maps sound. It returns an instance they hold, built under the key of the
current definition; where it raises, the maps are unchanged. -/
theorem loads_sound {r : Except Raised Instance} (h : Sound keys s) (hl : Loads keys s n r t) :
    Kept keys s t ∧
    (∀ e, r = .error e → t.instances = s.instances ∧ t.activeKeys = s.activeKeys) ∧
    ∀ i, r = .ok i → ∃ definition k, s.registry.get? n = some definition ∧
      keys.key definition = .ok k ∧ t.instances.get? k = some i := by
  cases hl with
  | raised e loads hl =>
    refine ⟨⟨h.congr rfl (fun _ => rfl) (fun _ => rfl), rfl, hl, fun _ _ => .inl⟩, ?_, ?_⟩
    · intro e' _
      exact ⟨rfl, rfl⟩
    · intro i hi
      cases hi
  | hit definition k i hd hk hi =>
    have active : ∀ m, (s.activeKeys.set n k).get? m = s.activeKeys.get? m := by
      intro m
      rw [Dict.get?_set]
      split
      · rename_i hm
        rw [hm, h.hit hd hk hi]
      · exact rfl
    refine ⟨⟨h.congr rfl (fun _ => rfl) active, rfl, Nat.le_refl _, fun _ _ => .inl⟩, ?_, ?_⟩
    · intro e he
      cases he
    · intro j hj
      cases hj
      exact ⟨definition, k, hd, hk, hi⟩
  | built definition k t hd hk hi registry loads active instances =>
    obtain ⟨left, unused, hreg, _, hinst⟩ := sound_evict h n
    have stored := sound_stored left (hreg ▸ hd) hk unused s.loads t.loads
    refine ⟨⟨?_, registry, by omega, ?_⟩, ?_, ?_⟩
    · refine stored.congr (registry.trans hreg.symm) ?_ ?_
      · intro j
        rw [instances, Dict.get?_set, hinst]
      · intro m
        rw [active, Dict.get?_set, Dict.get?_set]
        split
        · exact rfl
        · rename_i hm
          unfold evict
          cases s.activeKeys.get? n with
          | none => exact rfl
          | some previous => exact ((Dict.get?_pop ..).trans (if_neg hm)).symm
    · intro j i hj
      rw [instances] at hj
      split at hj
      · cases hj
        exact .inr ⟨Nat.le_refl _, by rw [loads]; exact Nat.lt_succ_self _⟩
      · split at hj
        · cases hj
        · exact .inl hj
    · intro e he
      cases he
    · intro i hi
      cases hi
      refine ⟨definition, k, hd, hk, ?_⟩
      rw [instances, if_pos rfl]

theorem Kept.refl (h : Sound keys s) : Kept keys s s := ⟨h, rfl, Nat.le_refl _, fun _ _ => .inl⟩

theorem Kept.trans {u : Executor} (h : Kept keys s t) (k : Kept keys t u) : Kept keys s u where
  sound := k.sound
  registry := k.registry.trans h.registry
  loads := Nat.le_trans h.loads k.loads
  old j i hi := by
    rcases k.old j i hi with hj | ⟨hlow, hhigh⟩
    · rcases h.old j i hj with hj | ⟨hlow, hhigh⟩
      · exact .inl hj
      · exact .inr ⟨hlow, Nat.lt_of_lt_of_le hhigh k.loads⟩
    · exact .inr ⟨Nat.le_trans h.loads hlow, hhigh⟩

theorem preload_kept (h : Sound keys s) (load : String → Option Raised)
    (definitions : List HandlerDefinition) : Kept keys s (preloadAll keys load definitions s) := by
  induction definitions generalizing s with
  | nil => exact .refl h
  | cons definition rest ih =>
    unfold preloadAll
    cases definition.reuseMode with
    | taskTransient => exact ih h
    | workerCached =>
      dsimp only
      have loaded := (loads_sound h (get_loads s definition.handlerName
        (load definition.handlerName))).1
      rcases hg : getOrLoad keys s definition.handlerName (load definition.handlerName) with ⟨r, t⟩
      rw [hg] at loaded
      cases r with
      | error e => exact loaded
      | ok i => exact loaded.trans (ih loaded.sound)

/-! ## Requests -/

theorem execute_transient (keys : CacheKeys) (load : Option Raised)
    (handle : Except Raised Mapping) (ht : request.taskId ≠ "")
    (hd : s.registry.get? request.handlerName = some definition)
    (hm : definition.reuseMode = .taskTransient) :
    (execute keys s request load handle).2 =
      { evict s definition.handlerName with loads := (evict s definition.handlerName).loads + 1 } ∧
    (execute keys s request load handle).1.ran = if load = none then
      some (definition, ⟨(evict s definition.handlerName).loads, definition⟩) else none := by
  rw [execute, if_neg ht, registry_get.mpr hd]
  dsimp only
  rw [hm]
  cases load with
  | none => exact ⟨rfl, rfl⟩
  | some e => exact ⟨rfl, rfl⟩

theorem execute_cached (keys : CacheKeys) (load : Option Raised)
    (handle : Except Raised Mapping) (ht : request.taskId ≠ "")
    (hd : s.registry.get? request.handlerName = some definition)
    (hm : definition.reuseMode = .workerCached) :
    (execute keys s request load handle).2 = (getOrLoad keys s definition.handlerName load).2 ∧
    (execute keys s request load handle).1.ran =
      match (getOrLoad keys s definition.handlerName load).1 with
      | .error _ => none
      | .ok i => some (definition, i) := by
  rw [execute, if_neg ht, registry_get.mpr hd]
  dsimp only
  rw [hm]
  dsimp only
  rcases getOrLoad keys s definition.handlerName load with ⟨_ | _, t⟩
  · exact ⟨rfl, rfl⟩
  · exact ⟨rfl, rfl⟩

/-- A request that reaches no handler leaves the executor. -/
theorem execute_rejected (keys : CacheKeys) (load : Option Raised)
    (handle : Except Raised Mapping)
    (h : request.taskId = "" ∨ s.registry.get? request.handlerName = none) :
    (execute keys s request load handle).2 = s ∧
    (execute keys s request load handle).1.ran = none := by
  unfold execute
  by_cases ht : request.taskId = ""
  · rw [if_pos ht]
    exact ⟨rfl, rfl⟩
  · rcases h with h | h
    · exact absurd h ht
    · rw [if_neg ht, Registry.get, h]
      exact ⟨rfl, rfl⟩

theorem evict_kept (h : Sound keys s) (n : String) (loads : ℕ) (hl : s.loads ≤ loads) :
    Kept keys s { evict s n with loads := loads } := by
  obtain ⟨left, _, registry, _, instances⟩ := sound_evict h n
  refine ⟨left.congr rfl (fun _ => rfl) (fun _ => rfl), registry, hl, ?_⟩
  intro k i hi
  rw [instances] at hi
  split at hi
  · cases hi
  · exact .inl hi

/-- What became of a request. -/
inductive Ran (keys : CacheKeys) (s : Executor) (request : TaskRequest) :
    Option (HandlerDefinition × Instance) → Executor → Prop where
  | none (t : Executor) (kept : Kept keys s t) : Ran keys s request none t
  | cached (definition : HandlerDefinition) (i : Instance) (k : String) (t : Executor)
      (hd : s.registry.get? request.handlerName = some definition)
      (hm : definition.reuseMode = .workerCached) (kept : Kept keys s t)
      (hk : keys.key definition = .ok k) (hi : t.instances.get? k = some i) :
      Ran keys s request (some (definition, i)) t
  | transient (definition : HandlerDefinition) (t : Executor)
      (hd : s.registry.get? request.handlerName = some definition)
      (hm : definition.reuseMode = .taskTransient) (kept : Kept keys s t)
      (loads : t.loads = s.loads + 1)
      (old : ∀ k i, t.instances.get? k = some i → s.instances.get? k = some i) :
      Ran keys s request (some (definition, ⟨s.loads, definition⟩)) t

theorem execute_ran (h : Sound keys s) (request : TaskRequest) (load : Option Raised)
    (handle : Except Raised Mapping) : Ran keys s request
      (execute keys s request load handle).1.ran (execute keys s request load handle).2 := by
  by_cases ht : request.taskId = ""
  · obtain ⟨hs, hr⟩ := execute_rejected (s := s) keys load handle (.inl ht)
    rw [hs, hr]
    exact .none s (.refl h)
  · cases hd : s.registry.get? request.handlerName with
    | none =>
      obtain ⟨hs, hr⟩ := execute_rejected keys load handle (.inr hd)
      rw [hs, hr]
      exact .none s (.refl h)
    | some definition =>
      have name := h.registered _ _ hd
      cases hm : definition.reuseMode with
      | workerCached =>
        obtain ⟨hs, hr⟩ := execute_cached keys load handle ht hd hm
        obtain ⟨kept, _, built⟩ := loads_sound h (get_loads s definition.handlerName load)
        rw [hs, hr]
        cases hg : (getOrLoad keys s definition.handlerName load).1 with
        | error e => exact .none _ kept
        | ok i =>
          obtain ⟨current, k, hcur, hk, hi⟩ := built i hg
          rw [name] at hcur
          cases hd.symm.trans hcur
          exact .cached definition i k _ hd hm kept hk hi
      | taskTransient =>
        obtain ⟨hs, hr⟩ := execute_transient keys load handle ht hd hm
        obtain ⟨_, _, _, loads, instances⟩ := sound_evict h definition.handlerName
        have kept := evict_kept h definition.handlerName (s.loads + 1) (Nat.le_succ _)
        rw [hs, hr, loads]
        cases load with
        | some e => exact .none _ kept
        | none =>
          refine .transient definition _ hd hm kept rfl ?_
          intro k i hi
          rw [instances] at hi
          split at hi
          · cases hi
          · exact hi

/-! ## Runs -/

/-- An instance that served a transient request served no other. -/
def Alone (log : List (HandlerDefinition × Instance)) : Prop :=
  log.Pairwise fun r q => r.1.reuseMode = .taskTransient ∨ q.1.reuseMode = .taskTransient →
    r.2.number ≠ q.2.number

structure Tidy (keys : CacheKeys) (h : History) : Prop where
  sound : Sound keys h.executor
  numbered : ∀ k i, h.executor.instances.get? k = some i → i.number < h.executor.loads
  logged : ∀ r ∈ h.log, r.2.number < h.executor.loads
  apart : ∀ r ∈ h.log, r.1.reuseMode = .taskTransient →
    ∀ k i, h.executor.instances.get? k = some i → i.number ≠ r.2.number
  alone : Alone h.log

variable {h : History}

theorem Tidy.kept (tidy : Tidy keys h) (kept : Kept keys h.executor t) :
    Tidy keys { h with executor := t } where
  sound := kept.sound
  numbered k i hi := by
    rcases kept.old k i hi with hi | ⟨_, hi⟩
    · exact Nat.lt_of_lt_of_le (tidy.numbered k i hi) kept.loads
    · exact hi
  logged r hr := Nat.lt_of_lt_of_le (tidy.logged r hr) kept.loads
  apart r hr hm k i hi := by
    rcases kept.old k i hi with hi | ⟨hi, _⟩
    · exact tidy.apart r hr hm k i hi
    · have := tidy.logged r hr
      omega
  alone := tidy.alone

theorem alone_snoc {log : List (HandlerDefinition × Instance)} {r : HandlerDefinition × Instance}
    (h : Alone log) (hr : ∀ q ∈ log, q.1.reuseMode = .taskTransient ∨
      r.1.reuseMode = .taskTransient → q.2.number ≠ r.2.number) : Alone (log ++ [r]) := by
  refine List.pairwise_append.mpr ⟨h, List.pairwise_singleton _ _, ?_⟩
  intro q hq r' hr'
  cases List.mem_singleton.mp hr'
  exact hr q hq

theorem Tidy.execute (tidy : Tidy keys h) {ran : Option (HandlerDefinition × Instance)}
    (hr : Ran keys h.executor request ran t) :
    Tidy keys { executor := t, log := h.log ++ ran.toList } := by
  cases hr with
  | none t kept =>
    rw [Option.toList_none, List.append_nil]
    exact tidy.kept kept
  | cached definition i k t hd hm kept hk hi =>
    have after := tidy.kept kept
    refine ⟨after.sound, after.numbered, ?_, ?_, ?_⟩
    · intro r hr
      rcases List.mem_append.mp hr with hr | hr
      · exact after.logged r hr
      · cases List.mem_singleton.mp hr
        exact after.numbered k i hi
    · intro r hr hmode
      rcases List.mem_append.mp hr with hr | hr
      · exact after.apart r hr hmode
      · cases List.mem_singleton.mp hr
        cases hm.symm.trans hmode
    · refine alone_snoc tidy.alone ?_
      rintro q hq (hmode | hmode)
      · exact (after.apart q hq hmode k i hi).symm
      · cases hm.symm.trans hmode
  | transient definition t hd hm kept loads old =>
    have after := tidy.kept kept
    refine ⟨after.sound, after.numbered, ?_, ?_, ?_⟩
    · intro r hr
      rcases List.mem_append.mp hr with hr | hr
      · exact after.logged r hr
      · cases List.mem_singleton.mp hr
        exact loads ▸ Nat.lt_succ_self _
    · intro r hr hmode k i hi
      rcases List.mem_append.mp hr with hr | hr
      · exact after.apart r hr hmode k i hi
      · cases List.mem_singleton.mp hr
        exact Nat.ne_of_lt (tidy.numbered k i (old k i hi))
    · refine alone_snoc tidy.alone ?_
      intro q hq _
      exact Nat.ne_of_lt (tidy.logged q hq)

theorem Tidy.add (tidy : Tidy keys h) (definition : HandlerDefinition) :
    Tidy keys { h with
      executor := { h.executor with registry := h.executor.registry.add definition } } := by
  refine ⟨⟨tidy.sound.active, tidy.sound.only, ?_⟩, tidy.numbered, tidy.logged, tidy.apart,
    tidy.alone⟩
  intro n d hn
  rw [Registry.add, Dict.get?_set] at hn
  split at hn
  · rename_i hname
    cases hn
    exact hname.symm
  · exact tidy.sound.registered n d hn

theorem tidy_next (tidy : Tidy keys h) (e : Event) : Tidy keys (next keys h e) := by
  cases e with
  | add definition => exact tidy.add definition
  | execute request load handle =>
    exact tidy.execute (execute_ran tidy.sound request load handle)
  | preload load => exact tidy.kept (preload_kept tidy.sound load _)

theorem sound_begin : Sound keys {} where
  active _ _ hn := by cases hn
  only _ _ hk := by cases hk
  registered _ _ hn := by cases hn

theorem tidy_begin : Tidy keys {} where
  sound := sound_begin
  numbered _ _ hk := by cases hk
  logged _ hr := absurd hr List.not_mem_nil
  apart _ hr := absurd hr List.not_mem_nil
  alone := List.Pairwise.nil

theorem tidy_run (tidy : Tidy keys h) (es : List Event) : Tidy keys (es.foldl (next keys) h) := by
  induction es generalizing h with
  | nil => exact tidy
  | cons e es ih => exact ih (tidy_next tidy e)

/-! ## What a request gets -/

/-- `cached`: a cached request runs on an instance built under the key of the definition that is
current. `transient`: a transient one runs on what its own load built, and no instance of the
handler stays behind, whether or not the load raises. `failed`: a load for the cache that raises
leaves both maps. -/
structure Served (keys : CacheKeys) (s : Executor) : Prop where
  cached : ∀ request load handle definition i,
    (execute keys s request load handle).1.ran = some (definition, i) →
    definition.reuseMode = .workerCached →
    s.registry.get? request.handlerName = some definition ∧
      keys.key i.definition = keys.key definition
  transient : ∀ request load handle definition, request.taskId ≠ "" →
    s.registry.get? request.handlerName = some definition →
    definition.reuseMode = .taskTransient →
    (execute keys s request load handle).2.activeKeys.get? request.handlerName = none ∧
    (∀ k i, (execute keys s request load handle).2.instances.get? k = some i →
      i.definition.handlerName ≠ request.handlerName) ∧
    ∀ d i, (execute keys s request load handle).1.ran = some (d, i) →
      d = definition ∧ i = ⟨s.loads, definition⟩
  failed : ∀ n load e, (getOrLoad keys s n load).1 = .error e →
    (getOrLoad keys s n load).2.instances = s.instances ∧
      (getOrLoad keys s n load).2.activeKeys = s.activeKeys

theorem served (h : Sound keys s) : Served keys s where
  cached request load handle definition i hr hm := by
    have ran := execute_ran h request load handle
    rw [hr] at ran
    generalize (execute keys s request load handle).2 = t at ran
    cases ran with
    | cached _ _ k t hd _ kept hk hi => exact ⟨hd, (kept.sound.built hi).trans hk.symm⟩
    | transient _ t hd hmode => cases hm.symm.trans hmode
  transient request load handle definition ht hd hm := by
    obtain ⟨hs, hr⟩ := execute_transient keys load handle ht hd hm
    have name := h.registered _ _ hd
    obtain ⟨left, unused, _, loads, _⟩ := sound_evict h definition.handlerName
    rw [hs, hr, loads, ← name]
    refine ⟨unused, ?_, ?_⟩
    · intro k i hi same
      have owned := left.owner hi
      rw [same, unused] at owned
      cases owned
    · intro d i hran
      split at hran
      · cases hran
        exact ⟨rfl, rfl⟩
      · cases hran
  failed n load e he := (loads_sound h (get_loads s n load)).2.1 e he

/-! ## The keys of real definitions -/

/-- A failure of `cache_key` as the exception it is. -/
def raised : CacheKey.Failure → Raised
  | .typeError message => .other message
  | .recursionError => .other "maximum recursion depth exceeded"

theorem mapped_ok {x : Outcome String} (h : x.mapError raised = .ok k) : x = .ok k := by
  cases x with
  | error e => cases h
  | ok a =>
    cases h
    exact rfl

theorem key_names {floatstr : PyFloat → String} (texts : FloatTexts floatstr) {heap : Heap}
    {depth : ℕ} {definition other : HandlerDefinition}
    (h : (definition.cacheKey floatstr heap depth).mapError raised = .ok k)
    (h' : (other.cacheKey floatstr heap depth).mapError raised = .ok k) :
    definition.handlerName = other.handlerName := by
  have alike := cache_key_lookalike floatstr heap texts (mapped_ok h) (mapped_ok h')
  exact (alike.mp rfl).handlerName

/-- `cache_key` over a heap that stays as it is, called at one depth. -/
def heapKeys {floatstr : PyFloat → String} (texts : FloatTexts floatstr) (heap : Heap)
    (depth : ℕ) : CacheKeys where
  key definition := (definition.cacheKey floatstr heap depth).mapError raised
  named _ _ _ h h' := key_names texts h h'

/-! ## Every sequence of calls -/

/-- After any adds, requests and preloads, with loads and handlers raising or not, the executor
holds one instance for each active key and serves the next request with the right one. -/
theorem executor_sound (keys : CacheKeys) (es : List Event) :
    Sound keys (es.foldl (next keys) {}).executor ∧
    Served keys (es.foldl (next keys) {}).executor ∧ Alone (es.foldl (next keys) {}).log := by
  have tidy : Tidy keys _ := tidy_run tidy_begin es
  exact ⟨tidy.sound, served tidy.sound, tidy.alone⟩

/-- A cached handler that refers to an empty mapping. -/
def sampleHandler (entrypoint : String) : HandlerDefinition where
  handlerName := "h"
  entrypoint := entrypoint
  initContext := .ref 0
  initKwargs := .ref 0
  metadata := .ref 0

def sampleKeys : CacheKeys :=
  heapKeys CacheTexts.sample_texts (fun _ => .mapping ⟨[], List.nodup_nil⟩) 100

/-- The definition is replaced between two requests. -/
def replaced : List Event :=
  [.add (sampleHandler "app:Old"), .execute { handlerName := "h", taskId := "t" } none (.ok []),
    .add (sampleHandler "app:New"), .execute { handlerName := "h", taskId := "u" } none (.ok [])]

/-- Both definitions have been loaded, and only the instance of the new one is kept. -/
theorem executor_sound_replaced : ∃ x : Executor,
    x.loads = 2 ∧ x.instances.keys.length = 1 ∧
    x.registry.get? "h" = some (sampleHandler "app:New") ∧
    Sound sampleKeys x ∧ Served sampleKeys x := by
  obtain ⟨sound, served, -⟩ := executor_sound sampleKeys replaced
  exact ⟨_, by decide +kernel, by decide +kernel, by decide +kernel, sound, served⟩

end ExecutorCache
