import Infly.PoolAccounting

/-! # Registering, unregistering and losing workers

The sections of `register_worker_group`, `unregister_worker_group` and
`_handle_worker_exit` keep the bookkeeping and the routes.
-/
namespace PoolGroups

open Contracts Config PoolState PoolTables PoolAccounting

variable {p : Pool} {r : Ref}

/-! ## Fresh workers -/

/-- The bookkeeping sees only the workers of the table. -/
theorem heap_books (hb : Books p) {heap : Ref → WorkerState} {n : Ref} (hn : p.nextRef ≤ n)
    (h : ∀ r, InTable p r → heap r = p.heap r) :
    Books { p with heap := heap, nextRef := n } := by
  have same : ∀ {id r'}, p.workers.get? id = some r' → heap r' = p.heap r' :=
    fun hr => h _ ⟨_, hr⟩
  constructor
  · exact hb.keys
  · intro t a ht
    obtain ⟨r', hr', e⟩ := hb.owner t a ht
    exact ⟨r', hr', by simpa [same hr'] using e⟩
  · intro id r' hr'
    simpa [same hr'] using hb.counted id r' hr'
  · rintro hc r' ⟨id, hr'⟩ ha
    simpa [same hr'] using hb.idle hc r' ⟨id, hr'⟩ (by simpa [same hr'] using ha)
  · rintro hc r' ⟨id, hr'⟩ ha
    simpa [same hr'] using hb.handles hc r' ⟨id, hr'⟩ (by simpa [same hr'] using ha)
  · intro id r' hr'
    simpa [same hr'] using hb.named id r' hr'
  · exact fun r' hr' => (hb.allocated r' hr').trans_le hn
  · exact hb.flags

theorem newWorkers_heap (g : WorkerGroup) (names : List String) (hr : r < p.nextRef) :
    (newWorkers p g names).1.heap r = p.heap r := by
  have : ¬ p.nextRef ≤ r := Nat.not_le.mpr hr
  simp [newWorkers, this]

theorem newWorkers_books (hb : Books p) (g : WorkerGroup) (names : List String) :
    Books (newWorkers p g names).1 :=
  heap_books hb (Nat.le_add_right _ _) fun _ hr => newWorkers_heap g names (hb.allocated _ hr)

/-! ## Publishing a group -/

/-- The workers of a group under registration: one for each index, idle. -/
structure Fresh (p : Pool) (group : WorkerGroup) (workers : List Ref) : Prop where
  refs : ∃ base, workers = (List.range group.processCount).map (base + ·) ∧
    base + group.processCount ≤ p.nextRef ∧
    ∀ k < group.processCount, (p.heap (base + k)).workerId = workerName group.name k
  group : ∀ r ∈ workers, (p.heap r).group = group
  idle : ∀ r ∈ workers, (p.heap r).outstanding = 0

namespace Fresh

variable {group : WorkerGroup} {workers : List Ref}

theorem name (hf : Fresh p group workers) (hr : r ∈ workers) :
    ∃ k, (p.heap r).workerId = workerName group.name k := by
  obtain ⟨base, rfl, -, hid⟩ := hf.refs
  obtain ⟨k, hk, rfl⟩ := List.mem_map.mp hr
  exact ⟨k, hid k (List.mem_range.mp hk)⟩

theorem allocated (hf : Fresh p group workers) (hr : r ∈ workers) : r < p.nextRef := by
  obtain ⟨base, rfl, hle, -⟩ := hf.refs
  obtain ⟨k, hk, rfl⟩ := List.mem_map.mp hr
  have := List.mem_range.mp hk
  show base + k < p.nextRef
  omega

theorem ids_nodup (hf : Fresh p group workers) :
    (workers.map fun r => (p.heap r).workerId).Nodup := by
  obtain ⟨base, rfl, -, hid⟩ := hf.refs
  rw [List.map_map]
  refine List.Nodup.map_on ?_ List.nodup_range
  intro i hi j hj e
  rw [List.mem_range] at hi hj
  simp only [Function.comp_apply, hid i hi, hid j hj] at e
  exact (workerName_injective e).2

end Fresh

/-- A change of a worker under registration that its registration does not mind. -/
structure Kept (w v : WorkerState) : Prop where
  workerId : v.workerId = w.workerId
  group : v.group = w.group
  outstanding : w.outstanding = 0 → v.outstanding = 0
  usable : UsableHandle w → UsableHandle v

theorem Kept.rfl' (w : WorkerState) : Kept w w := ⟨rfl, rfl, fun h => h, fun h => h⟩

theorem Fresh.kept {q : Pool} {g : WorkerGroup} {l : List Ref} (h : Fresh p g l)
    (hn : p.nextRef ≤ q.nextRef) (hk : ∀ r ∈ l, Kept (p.heap r) (q.heap r)) : Fresh q g l := by
  obtain ⟨⟨base, rfl, hle, hid⟩, hg, ho⟩ := h
  have mem : ∀ k < g.processCount, base + k ∈ (List.range g.processCount).map (base + ·) :=
    fun k hlt => List.mem_map.mpr ⟨k, List.mem_range.mpr hlt, rfl⟩
  refine ⟨⟨base, rfl, hle.trans hn, fun k hlt => ?_⟩, fun r hr => ?_, fun r hr => ?_⟩
  · rw [(hk _ (mem k hlt)).workerId, hid k hlt]
  · rw [(hk r hr).group, hg r hr]
  · exact (hk r hr).outstanding (ho r hr)

/-- The ids of a group that is not registered are free. -/
theorem free_name (hg : Grouped p) {g : String} (hnew : g ∉ p.groups.keys) (k : ℕ) :
    p.workers.get? (workerName g k) = none := by
  cases h : p.workers.get? (workerName g k) with
  | none => rfl
  | some r =>
    obtain ⟨⟨j, hj⟩, hmem⟩ := hg _ r h
    rw [← (workerName_injective hj).1] at hmem
    exact absurd hmem hnew

/-- The check under the lock lets only new names through. -/
theorem ensured_unlisted {g : String} {u : Unit}
    (h : ensureGroupCanBeRegisteredLocked p g = .ok u) : g ∉ p.groups.keys := by
  intro hm
  rw [← Dict.contains_iff] at hm
  simp only [ensureGroupCanBeRegisteredLocked, hm, ↓reduceIte] at h
  split at h <;> cases h

section Publish

variable {group : WorkerGroup} {names : List String} {workers : List Ref}

variable (names) in
/-- The table of workers after a group was published. -/
theorem publish_workers (hf : Fresh p group workers) (hg : Grouped p)
    (hnew : group.name ∉ p.groups.keys) (id : String) (r : Ref) :
    (publishGroup p group names workers).workers.get? id = some r ↔
      p.workers.get? id = some r ∨ r ∈ workers ∧ (p.heap r).workerId = id := by
  by_cases hm : id ∈ workers.map fun r => (p.heap r).workerId
  · obtain ⟨r', hr', e⟩ := List.mem_map.mp hm
    obtain ⟨k, hk⟩ := hf.name hr'
    have hfree : p.workers.get? id = none := by
      rw [← e, hk]; exact free_name hg hnew k
    have hset : (publishGroup p group names workers).workers.get? id = some r' :=
      e ▸ Dict.get?_setAll_of_mem hr' hf.ids_nodup
    rw [hset, hfree]
    constructor
    · rintro ⟨⟩
      exact Or.inr ⟨hr', e⟩
    · rintro (h | ⟨h, hid⟩)
      · cases h
      · exact congrArg some (List.inj_on_of_nodup_map hf.ids_nodup hr' h (e.trans hid.symm))
  · have hset : (publishGroup p group names workers).workers.get? id = p.workers.get? id :=
      Dict.get?_setAll_of_notMem hm
    rw [hset]
    exact ⟨Or.inl, fun h => h.elim (fun h => h) fun ⟨h, e⟩ =>
      absurd (List.mem_map.mpr ⟨r, h, e⟩) hm⟩

/-- Publishing adds the group's workers to the table; nothing is assigned to them yet. -/
theorem publish_books (hb : Books p) (hg : Grouped p) (hf : Fresh p group workers)
    (hnew : group.name ∉ p.groups.keys) (hready : ∀ r ∈ workers, UsableHandle (p.heap r)) :
    Books (publishGroup p group names workers) := by
  have entry := publish_workers names hf hg hnew
  have inTable : ∀ r, InTable (publishGroup p group names workers) r ↔
      InTable p r ∨ r ∈ workers := by
    intro r
    simp only [InTable, entry]
    constructor
    · rintro ⟨id, h | h⟩
      · exact Or.inl ⟨id, h⟩
      · exact Or.inr h.1
    · rintro (⟨id, h⟩ | h)
      · exact ⟨id, Or.inl h⟩
      · exact ⟨_, Or.inr ⟨h, rfl⟩⟩
  constructor
  · exact hb.keys
  · intro t a ht
    obtain ⟨r, hr, e⟩ := hb.owner t a ht
    exact ⟨r, (entry _ _).mpr (Or.inl hr), e⟩
  · intro id r hr
    rcases (entry _ _).mp hr with hr | ⟨hr, hid⟩
    · exact hb.counted id r hr
    · -- nobody could be assigned to a name that was free
      show (p.heap r).outstanding = p.assignments.values.count (p.heap r).assignment
      rw [hf.idle r hr]
      symm
      rw [List.count_eq_zero, Dict.mem_values]
      rintro ⟨t, ht⟩
      obtain ⟨r', hr', -⟩ := hb.owner t _ ht
      obtain ⟨k, hk⟩ := hf.name hr
      simp only [WorkerState.assignment, hk, free_name hg hnew k] at hr'
      cases hr'
  · intro hc r hr ha
    rcases (inTable r).mp hr with hr | hr
    · exact hb.idle hc r hr ha
    · exact hf.idle r hr
  · intro hc r hr ha
    rcases (inTable r).mp hr with hr | hr
    · exact hb.handles hc r hr ha
    · exact hready r hr
  · intro id r hr
    rcases (entry _ _).mp hr with hr | ⟨-, hid⟩
    · exact hb.named id r hr
    · exact hid
  · intro r hr
    rcases (inTable r).mp hr with hr | hr
    · exact hb.allocated r hr
    · exact hf.allocated hr
  · exact hb.flags

theorem publish_grouped (hg : Grouped p) (hf : Fresh p group workers)
    (hnew : group.name ∉ p.groups.keys) : Grouped (publishGroup p group names workers) := by
  intro id r hr
  rcases (publish_workers names hf hg hnew id r).mp hr with hr | ⟨hr, hid⟩
  · obtain ⟨hk, hm⟩ := hg id r hr
    exact ⟨hk, Dict.mem_keys_set.mpr (Or.inr hm)⟩
  · obtain ⟨k, hk⟩ := hf.name hr
    have hgroup : ((publishGroup p group names workers).heap r).group = group := hf.group r hr
    rw [hgroup]
    exact ⟨⟨k, by rw [← hid, hk]⟩, Dict.mem_keys_set.mpr (Or.inl rfl)⟩

end Publish

/-! ## Retiring workers -/

/-- Task `t` is assigned to one of these workers. -/
def AssignedTo (p : Pool) (workers : List Ref) (t : TaskId) : Prop :=
  ∃ r ∈ workers, p.assignments.get? t = some (p.heap r).assignment

def retired (w : WorkerState) : WorkerState :=
  { w with retiring := true, alive := false, nextRestartAt := none, outstanding := 0 }

/-- What became of the pool when these workers left the table and these futures were taken. -/
structure Retired (p q : Pool) (workers : List Ref) (taken : List FutureId) : Prop where
  table : ∀ id r, q.workers.get? id = some r ↔ p.workers.get? id = some r ∧ r ∉ workers
  heap : ∀ r, q.heap r = if r ∈ workers then retired (p.heap r) else p.heap r
  futures : ∀ t f, q.futures.get? t = some f ↔
    p.futures.get? t = some f ∧ ¬ AssignedTo p workers t
  assignments : ∀ t a, q.assignments.get? t = some a ↔
    p.assignments.get? t = some a ∧ ¬ AssignedTo p workers t
  taken_iff : ∀ f, f ∈ taken ↔ ∃ t, AssignedTo p workers t ∧ p.futures.get? t = some f
  distinct : p.futures.values.Nodup → taken.Nodup ∧ q.futures.values.Nodup
  rest : ∃ heap workers futures assignments, q =
    { p with heap := heap, workers := workers, futures := futures, assignments := assignments }

/-- One turn of the loop over a group's workers. -/
def retireWorker (p : Pool) (r : Ref) : Pool × List FutureId :=
  let retired := p.modify r
    (fun w => { w with retiring := true, alive := false, nextRestartAt := none })
  let (p, taken) := takeWorkerFuturesLocked retired r
  ({ p with workers := p.workers.pop (p.heap r).workerId }, taken)

theorem retireWorkers_cons (r : Ref) (rest : List Ref) (p : Pool) (failed : List FutureId) :
    retireWorkers (r :: rest) p failed =
      retireWorkers rest (retireWorker p r).1 (failed ++ (retireWorker p r).2) := rfl

theorem retireWorker_spec (hb : Books p) (hr : InTable p r) :
    Books (retireWorker p r).1 ∧ Retired p (retireWorker p r).1 [r] (retireWorker p r).2 := by
  have same : SameBooks (p.heap r)
      { p.heap r with retiring := true, alive := false, nextRestartAt := none } :=
    ⟨rfl, rfl, rfl, rfl, rfl⟩
  have taken := hb.takeWorker
    (f := fun w => { w with retiring := true, alive := false, nextRestartAt := none }) hr same rfl
  have assigned : ∀ t, AssignedTo p [r] t ↔
      p.assignments.get? t = some (p.heap r).assignment := by
    intro t
    simp [AssignedTo]
  refine ⟨taken.popWorker hr (by simp [takeWorkerFuturesLocked]), ?_⟩
  constructor
  · intro id r'
    have hid := hb.inTable.mp hr
    simp only [retireWorker, takeWorkerFuturesLocked, modify_heap, modify_workers,
      Function.update_self, Dict.get?_pop, List.mem_singleton]
    by_cases e : id = (p.heap r).workerId
    · subst e
      simp only [↓reduceIte, reduceCtorEq, hid, Option.some.injEq, false_iff, not_and, not_not]
      exact Eq.symm
    · simp only [e, ↓reduceIte, iff_self_and]
      rintro h rfl
      exact e (hb.named id r' h).symm
  · intro r'
    by_cases e : r' = r
    · subst e; simp [retireWorker, takeWorkerFuturesLocked, retired]
    · simp [retireWorker, takeWorkerFuturesLocked, e]
  · intro t f
    have := takeWorker_futures (p := p.modify r
      (fun w => { w with retiring := true, alive := false, nextRestartAt := none })) (r := r) t
    simp only [modify_assignments, modify_futures, modify_heap, Function.update_self] at this
    rw [assigned]
    show (takeWorkerFuturesLocked _ r).1.futures.get? t = some f ↔ _
    rw [this]
    by_cases h : p.assignments.get? t = some (p.heap r).assignment
    · simp [h, WorkerState.assignment]
    · have h' : ¬ p.assignments.get? t = some ((p.heap r).workerId, (p.heap r).generation) := h
      simp [h', WorkerState.assignment]
  · intro t a
    have := takeWorker_assignments (p := p.modify r
      (fun w => { w with retiring := true, alive := false, nextRestartAt := none })) (r := r) t
    simp only [modify_assignments, modify_heap, Function.update_self] at this
    rw [assigned]
    show (takeWorkerFuturesLocked _ r).1.assignments.get? t = some a ↔ _
    rw [this]
    by_cases h : p.assignments.get? t = some (p.heap r).assignment
    · simp [h, WorkerState.assignment]
    · have h' : ¬ p.assignments.get? t = some ((p.heap r).workerId, (p.heap r).generation) := h
      simp [h', WorkerState.assignment]
  · intro f
    simp only [assigned]
    have := mem_taken (p := p.modify r
      (fun w => { w with retiring := true, alive := false, nextRestartAt := none })) (r := r)
      (f := f)
    show f ∈ (takeWorkerFuturesLocked _ r).2 ↔ _
    rw [this]
    simp [WorkerState.assignment]
  · exact fun hn => ⟨taken_nodup (p := p.modify r _) hn, Dict.values_nodup_filter hn _⟩
  · exact ⟨_, _, _, _, rfl⟩

theorem Retired.trans {q u : Pool} {l : List Ref} {first more : List FutureId}
    (h : Retired p q [r] first) (k : Retired q u l more) (hr : r ∉ l) :
    Retired p u (r :: l) (first ++ more) := by
  have same : ∀ r' ∈ l, q.heap r' = p.heap r' := by
    intro r' hr'
    have : r' ≠ r := fun e => hr (e ▸ hr')
    simp [h.heap, this]
  have split : ∀ t, AssignedTo p (r :: l) t ↔ AssignedTo p [r] t ∨ AssignedTo q l t := by
    intro t
    simp only [AssignedTo, List.mem_cons, List.not_mem_nil, or_false, exists_eq_left,
      exists_eq_or_imp]
    constructor
    · rintro (ht | ⟨r', hr', ht⟩)
      · exact Or.inl ht
      · by_cases hfirst : AssignedTo p [r] t
        · simp only [AssignedTo, List.mem_singleton, exists_eq_left] at hfirst
          exact Or.inl hfirst
        · exact Or.inr ⟨r', hr', by rw [same r' hr']; exact (h.assignments t _).mpr ⟨ht, hfirst⟩⟩
    · rintro (ht | ⟨r', hr', ht⟩)
      · exact Or.inl ht
      · rw [same r' hr'] at ht
        exact Or.inr ⟨r', hr', ((h.assignments t _).mp ht).1⟩
  constructor
  · intro id r'
    rw [k.table, h.table]
    simp only [List.mem_cons, List.not_mem_nil, or_false, not_or, and_assoc]
  · intro r'
    rw [k.heap, h.heap]
    by_cases e : r' = r
    · subst e; simp [hr]
    · simp [e]
  · intro t f
    rw [k.futures, h.futures, split, not_or, and_assoc]
  · intro t a
    rw [k.assignments, h.assignments, split, not_or, and_assoc]
  · intro f
    rw [List.mem_append, h.taken_iff, k.taken_iff]
    simp only [split, h.futures]
    constructor
    · rintro (⟨t, ht, hf⟩ | ⟨t, ht, hf, -⟩)
      · exact ⟨t, Or.inl ht, hf⟩
      · exact ⟨t, Or.inr ht, hf⟩
    · rintro ⟨t, ht | ht, hf⟩
      · exact Or.inl ⟨t, ht, hf⟩
      · by_cases hfirst : AssignedTo p [r] t
        · exact Or.inl ⟨t, hfirst, hf⟩
        · exact Or.inr ⟨t, ht, hf, hfirst⟩
  · intro hn
    obtain ⟨hfirst, hq⟩ := h.distinct hn
    obtain ⟨hmore, hu⟩ := k.distinct hq
    refine ⟨List.nodup_append.mpr ⟨hfirst, hmore, ?_⟩, hu⟩
    rintro f hf f' hf' rfl
    obtain ⟨t, ht, e⟩ := (h.taken_iff f).mp hf
    obtain ⟨t', -, e'⟩ := (k.taken_iff f).mp hf'
    obtain ⟨e', hnot⟩ := (h.futures t' f).mp e'
    exact hnot (Dict.key_unique hn e e' ▸ ht)
  · obtain ⟨_, _, _, _, rfl⟩ := h.rest
    obtain ⟨_, _, _, _, rfl⟩ := k.rest
    exact ⟨_, _, _, _, rfl⟩

/-- The loop over a group's workers. -/
theorem retireWorkers_spec (workers : List Ref) (p : Pool) (failed : List FutureId)
    (hb : Books p) (ht : ∀ r ∈ workers, InTable p r) (hn : workers.Nodup) :
    Books (retireWorkers workers p failed).1 ∧
      ∃ taken, (retireWorkers workers p failed).2 = failed ++ taken ∧
        Retired p (retireWorkers workers p failed).1 workers taken := by
  induction workers generalizing p failed with
  | nil =>
    refine ⟨hb, [], by simp [retireWorkers], ?_⟩
    constructor
    all_goals simp [retireWorkers, AssignedTo]
    exact ⟨_, _, _, _, rfl⟩
  | cons r rest ih =>
    obtain ⟨hr, hrest⟩ := List.forall_mem_cons.mp ht
    obtain ⟨hnot, hn⟩ := List.nodup_cons.mp hn
    obtain ⟨hb', hone⟩ := retireWorker_spec hb hr
    have still : ∀ r' ∈ rest, InTable (retireWorker p r).1 r' := by
      intro r' hr'
      obtain ⟨id, h⟩ := hrest r' hr'
      exact ⟨id, (hone.table id r').mpr ⟨h, by simp; rintro rfl; exact hnot hr'⟩⟩
    obtain ⟨hbooks, taken, htaken, hall⟩ :=
      ih (retireWorker p r).1 (failed ++ (retireWorker p r).2) hb' still hn
    rw [retireWorkers_cons]
    exact ⟨hbooks, _, by rw [htaken, List.append_assoc], hone.trans hall hnot⟩

/-! ## Routes -/

def routes (d : Dict String (List String)) (h : String) : List String := (d.get? h).getD []

/-- A handler's route lists each group as often as the group lists the handler. -/
structure Routed (p : Pool) : Prop where
  grouped : ∀ g, g ∈ p.groups.keys ↔ g ∈ p.groupHandlers.keys
  listed : ∀ h g, (routes p.handlerGroups h).count g = (routes p.groupHandlers g).count h

theorem routes_set (d : Dict String (List String)) (k : String) (l : List String) (h : String) :
    routes (d.set k l) h = if h = k then l else routes d h := by
  by_cases e : h = k <;> simp [routes, e]

theorem routes_pop (d : Dict String (List String)) (k h : String) :
    routes (d.pop k) h = if h = k then [] else routes d h := by
  by_cases e : h = k <;> simp [routes, e]

/-- The loop never meets a route that misses the group, and takes the group off every
route. -/
theorem removeRoutes_spec (g : String) (names : List String) (d : Dict String (List String))
    (hc : ∀ h, (routes d h).count g = names.count h) :
    (removeRoutes g names d).2 = none ∧
      ∀ h, routes (removeRoutes g names d).1 h = (routes d h).filter (fun x => decide (x ≠ g)) := by
  induction names generalizing d with
  | nil =>
    refine ⟨rfl, fun h => ?_⟩
    have hnot : g ∉ routes d h := List.count_eq_zero.mp (hc h)
    refine (List.filter_eq_self.mpr fun x hx => ?_).symm
    simpa using fun e : x = g => hnot (e ▸ hx)
  | cons n rest ih =>
    have hmem : g ∈ (d.get? n).getD [] := by
      have := hc n
      rw [List.count_cons_self] at this
      exact List.count_pos_iff.mp (this ▸ Nat.succ_pos _)
    have step : ∀ h, routes (if ((d.get? n).getD []).erase g = [] then d.pop n
        else d.set n (((d.get? n).getD []).erase g)) h =
          if h = n then (routes d h).erase g else routes d h := by
      intro h
      by_cases e : h = n
      · subst e
        split
        · rename_i h0; simp [routes, h0]
        · simp [routes]
      · split <;> simp [routes_pop, routes_set, e]
    obtain ⟨hnone, hrest⟩ := ih _ fun h => by
      rw [step]
      have := hc h
      rw [List.count_cons] at this
      by_cases e : h = n
      · subst e
        simp only [beq_self_eq_true, ↓reduceIte] at this
        simp [List.count_erase_self, this]
      · have hne : (n == h) = false := by simpa using Ne.symm e
        simpa [e, hne] using this
    simp only [removeRoutes, hmem, ↓reduceIte]
    refine ⟨hnone, fun h => ?_⟩
    rw [hrest, step]
    split
    · rw [← List.erase_filter, List.erase_of_not_mem (by simp)]
    · rfl

/-- A route that the loop empties leaves the table. -/
theorem removeRoutes_filled (g : String) (names : List String) (d : Dict String (List String))
    (hnone : (removeRoutes g names d).2 = none) (h : String)
    (hempty : (removeRoutes g names d).1.get? h = some []) : d.get? h = some [] := by
  induction names generalizing d with
  | nil => exact hempty
  | cons n rest ih =>
    by_cases hmem : g ∈ (d.get? n).getD []
    · simp only [removeRoutes, hmem, ↓reduceIte] at hnone hempty
      have hone := ih _ hnone hempty
      split at hone
      · rw [Dict.get?_pop] at hone
        split at hone
        · cases hone
        · exact hone
      · rename_i hleft
        rw [Dict.get?_set] at hone
        split at hone
        · exact absurd (Option.some.inj hone) hleft
        · exact hone
    · simp [removeRoutes, hmem] at hnone

theorem appendGroup_routes (d : Dict String (List String)) (n g h : String) :
    routes (appendGroup d n g) h = routes d h ++ if h = n then [g] else [] := by
  rw [appendGroup, routes_set]
  by_cases e : h = n
  · subst e; simp [routes]
  · simp [e]

theorem publish_routes (names : List String) (g : String) (d : Dict String (List String))
    (h : String) :
    routes (names.foldl (fun d n => appendGroup d n g) d) h =
      routes d h ++ List.replicate (names.count h) g := by
  induction names generalizing d with
  | nil => simp
  | cons n rest ih =>
    rw [List.foldl_cons, ih, appendGroup_routes, List.append_assoc, List.count_cons]
    by_cases e : h = n
    · subst e; simp [List.replicate_succ]
    · have hne : (n == h) = false := by simpa using Ne.symm e
      simp [e, hne]

theorem publish_routed {group : WorkerGroup} {names : List String} {workers : List Ref}
    (hr : Routed p) (hnew : group.name ∉ p.groups.keys) :
    Routed (publishGroup p group names workers) := by
  constructor
  · intro g
    simp only [publishGroup, Dict.mem_keys_set, hr.grouped]
  · intro h g
    have hfree : (routes p.handlerGroups h).count group.name = 0 := by
      rw [hr.listed]
      have : p.groupHandlers.get? group.name = none :=
        Dict.get?_eq_none.mpr fun hk => hnew ((hr.grouped _).mpr hk)
      simp [routes, this]
    simp only [publishGroup, publish_routes, routes_set, List.count_append, List.count_replicate]
    by_cases e : g = group.name
    · subst e; simp [hfree]
    · have hne : (group.name == g) = false := by simpa using Ne.symm e
      simpa [e, hne] using hr.listed h g

/-! ## Unregistering -/

structure Consistent (p : Pool) : Prop where
  books : Books p
  grouped : Grouped p
  routed : Routed p

namespace Consistent

variable {f : WorkerState → WorkerState}

theorem modify (hp : Consistent p) (hf : SameBooks (p.heap r) (f (p.heap r)))
    (hidle : p.closing = false → InTable p r → (f (p.heap r)).alive = false →
      (p.heap r).alive = false)
    (hhandle : p.closing = false → InTable p r → (f (p.heap r)).alive = true →
      UsableHandle (f (p.heap r))) : Consistent (p.modify r f) :=
  ⟨hp.books.modify hf hidle hhandle, hp.grouped.modify hf.group, ⟨hp.routed.grouped, hp.routed.listed⟩⟩

theorem modify_private (hp : Consistent p) (hr : ¬ InTable p r) : Consistent (p.modify r f) := by
  refine ⟨hp.books.modify_private hr, ?_, ⟨hp.routed.grouped, hp.routed.listed⟩⟩
  intro id r' hr'
  have : r' ≠ r := fun e => hr (e ▸ ⟨id, hr'⟩)
  simpa [this] using hp.grouped id r' hr'

theorem launch (hp : Consistent p) (ht : InTable p r) (hc : p.closing = false)
    (ha : (p.heap r).alive = false) (o : LaunchOutcome) :
    Consistent (p.modify r (launchWorker · o)) :=
  ⟨hp.books.launch ht hc ha o, hp.grouped.modify (launchWorker_group _ o).2.2.1,
    ⟨hp.routed.grouped, hp.routed.listed⟩⟩

/-- Closing the pool lifts what is asked of the workers' handles. -/
theorem close (hp : Consistent p) :
    Consistent { p with accepting := false, closing := true } := by
  obtain ⟨hb, hg, hr⟩ := hp
  exact ⟨⟨hb.keys, hb.owner, hb.counted, by simp, by simp, hb.named, hb.allocated, rfl⟩, hg,
    ⟨hr.grouped, hr.listed⟩⟩

/-- Changes of the heap that neither the bookkeeping nor the supervisor looks at. -/
theorem heap (hp : Consistent p) {g : Ref → WorkerState}
    (h : ∀ r, SameBooks (p.heap r) (g r) ∧ (g r).alive = (p.heap r).alive ∧
      (g r).process = (p.heap r).process) : Consistent { p with heap := g } := by
  obtain ⟨hb, hg, hr⟩ := hp
  refine ⟨⟨hb.keys, ?_, ?_, ?_, ?_, ?_, hb.allocated, hb.flags⟩, ?_, ⟨hr.grouped, hr.listed⟩⟩
  · intro t a ht
    obtain ⟨r, hr, e⟩ := hb.owner t a ht
    exact ⟨r, hr, (h r).1.assignment.trans e⟩
  · intro id r hr
    rw [(h r).1.outstanding, (h r).1.assignment]
    exact hb.counted id r hr
  · intro hc r hr ha
    rw [(h r).1.outstanding]
    exact hb.idle hc r hr ((h r).2.1 ▸ ha)
  · intro hc r hr ha
    obtain ⟨x, hx, hu⟩ := hb.handles hc r hr ((h r).2.1 ▸ ha)
    exact ⟨x, (h r).2.2.trans hx, hu⟩
  · intro id r hr
    exact (h r).1.workerId.trans (hb.named id r hr)
  · intro id r hr
    rw [(h r).1.group]
    exact hg id r hr

end Consistent

theorem mem_groupWorkers {g : String} :
    r ∈ groupWorkers p g ↔ InTable p r ∧ (p.heap r).group.name = g := by
  simp [groupWorkers, inTable_values]

/-- The pool once a group has left the routing tables. -/
def unlisted (p : Pool) (g : String) (handlerGroups : Dict String (List String)) : Pool :=
  { p with
    groups := p.groups.pop g
    groupHandlers := p.groupHandlers.pop g
    handlerGroups := handlerGroups
    groupCursors := Function.update p.groupCursors g 0
    smoothWeights := Function.update p.smoothWeights g 0 }

/-- What the locked section of `unregister_worker_group` did. -/
structure Unregistered (p q : Pool) (g : String) (failed : List FutureId) : Prop where
  consistent : Consistent q
  filled : ∀ h, q.handlerGroups.get? h = some [] → p.handlerGroups.get? h = some []
  retired : ∃ d, (∀ h, routes d h = (routes p.handlerGroups h).filter (fun x => decide (x ≠ g))) ∧
    Retired (unlisted p g d) q (groupWorkers p g) failed

/-- A refusal changes nothing; otherwise the section runs to its end. -/
theorem unregisterLocked_cases (hp : Consistent p) (g : String) :
    ((p.closing = true ∨ p.closeComplete = true ∨ g ∉ p.groups.keys) ∧
        ∃ e, unregisterLocked p g = (p, .error e)) ∨
      p.closing = false ∧ p.closeComplete = false ∧ g ∈ p.groups.keys ∧ ∃ q failed,
        unregisterLocked p g = (q, .ok (groupWorkers p g, failed)) ∧ Unregistered p q g failed := by
  obtain ⟨hb, hg, hr⟩ := hp
  by_cases hopen : p.closing = true ∨ p.closeComplete = true
  · refine Or.inl ⟨by tauto, internalError "ProcessPoolStrategy is closed", ?_⟩
    simp only [unregisterLocked, Bool.or_eq_true, hopen, ↓reduceIte]
  by_cases hm : g ∈ p.groups.keys
  swap
  · refine Or.inl ⟨Or.inr (Or.inr hm),
      .platform ⟨.notFound, "WorkerGroup '" ++ g ++ "' is not registered"⟩, ?_⟩
    have : p.groups.contains g = false := by
      rw [← Bool.not_eq_true, Dict.contains_iff]; exact hm
    simp only [unregisterLocked, Bool.or_eq_true, hopen, ↓reduceIte, this, Bool.not_false]
  obtain ⟨names, hnames⟩ := Dict.mem_keys.mp ((hr.grouped g).mp hm)
  have counts : ∀ h, (routes p.handlerGroups h).count g = names.count h := by
    intro h
    rw [hr.listed]
    simp [routes, hnames]
  obtain ⟨hnone, hroutes⟩ := removeRoutes_spec g names p.handlerGroups counts
  have hcontains : p.groups.contains g = true := Dict.contains_iff.mpr hm
  set d := (removeRoutes g names p.handlerGroups).1 with hd
  have hpair : removeRoutes g names p.handlerGroups = (d, none) := Prod.ext rfl hnone
  have same : groupWorkers (unlisted p g d) g = groupWorkers p g := rfl
  have hbooks : Books (unlisted p g d) :=
    ⟨hb.keys, hb.owner, hb.counted, hb.idle, hb.handles, hb.named, hb.allocated, hb.flags⟩
  obtain ⟨hbooks', failed, htaken, hret⟩ := retireWorkers_spec (groupWorkers p g)
    (unlisted p g d) [] hbooks (fun r h => (mem_groupWorkers.mp h).1)
    (hb.values_nodup.filter _)
  set q := (retireWorkers (groupWorkers p g) (unlisted p g d) []).1 with hq
  have hopen' : p.closing = false ∧ p.closeComplete = false := by simpa [not_or] using hopen
  have hflags : (p.closing || p.closeComplete) = false := by simp [hopen']
  refine Or.inr ⟨hopen'.1, hopen'.2, hm, q, failed, ?_, ⟨hbooks', ?_, ?_⟩, ?_, d, hroutes, hret⟩
  · simp only [unregisterLocked, hflags, Bool.false_eq_true, ↓reduceIte, hcontains, Bool.not_true,
      hnames, hpair]
    rw [List.nil_append] at htaken
    rw [hq, ← htaken]
    rfl
  · intro id r h
    obtain ⟨h, hnot⟩ := (hret.table id r).mp h
    obtain ⟨hk, hmem⟩ := hg id r h
    obtain ⟨_, _, _, _, hrest⟩ := hret.rest
    have hheap : q.heap r = p.heap r := by simp [hret.heap, hnot, unlisted]
    rw [hheap]
    refine ⟨hk, ?_⟩
    rw [hrest]
    refine Dict.mem_keys_pop.mpr ⟨?_, hmem⟩
    rintro rfl
    exact hnot (mem_groupWorkers.mpr ⟨⟨id, h⟩, rfl⟩)
  · obtain ⟨_, _, _, _, hrest⟩ := hret.rest
    rw [hrest]
    constructor
    · intro g'
      simp only [unlisted, Dict.mem_keys_pop, hr.grouped]
    · intro h g'
      simp only [unlisted, hroutes, routes_pop]
      by_cases e : g' = g
      · subst e; simp [List.count_eq_zero]
      · simp [e, List.count_filter, hr.listed]
  · obtain ⟨_, _, _, _, hrest⟩ := hret.rest
    rw [hrest]
    exact removeRoutes_filled g names p.handlerGroups hnone

/-- The heap outside the group is untouched. -/
theorem Unregistered.heap {q : Pool} {g : String} {failed : List FutureId}
    (h : Unregistered p q g failed) (hr : r ∉ groupWorkers p g) : q.heap r = p.heap r := by
  obtain ⟨d, -, hret⟩ := h.retired
  simp [hret.heap, hr, unlisted]

theorem Unregistered.inTable {q : Pool} {g : String} {failed : List FutureId}
    (h : Unregistered p q g failed) : InTable q r ↔ InTable p r ∧ r ∉ groupWorkers p g := by
  obtain ⟨d, -, hret⟩ := h.retired
  simp only [InTable, hret.table, exists_and_right]
  rfl

theorem Unregistered.nextRef {q : Pool} {g : String} {failed : List FutureId}
    (h : Unregistered p q g failed) : q.nextRef = p.nextRef ∧ q.closing = p.closing ∧
      q.closeComplete = p.closeComplete := by
  obtain ⟨d, -, hret⟩ := h.retired
  obtain ⟨_, _, _, _, hrest⟩ := hret.rest
  rw [hrest]
  exact ⟨rfl, rfl, rfl⟩

/-! ## A worker's exit -/

/-- The section past its `join`. -/
def exited (p : Pool) (r : Ref) (weights : String → ℤ) : Pool × List FutureId :=
  takeWorkerFuturesLocked
    { p.modify r (fun w => { w with alive := false }) with smoothWeights := weights } r

theorem exited_books (hb : Books p) (ht : InTable p r) (weights : String → ℤ) :
    Books (exited p r weights).1 := by
  have h := hb.takeWorker (f := fun w => { w with alive := false }) ht ⟨rfl, rfl, rfl, rfl, rfl⟩ rfl
  exact ⟨h.keys, h.owner, h.counted, h.idle, h.handles, h.named, h.allocated, h.flags⟩

/-- The section raises only when the pool is closing: before that, the handle of an alive
worker can be joined. -/
theorem handleWorkerExit_cases (hb : Books p) (ht : InTable p r) (ha : (p.heap r).alive = true) :
    ∃ weights, handleWorkerExit p r = ((exited p r weights).1, .ok (exited p r weights).2) ∨
      p.closing = true ∧ ∃ e, handleWorkerExit p r =
        ({ p.modify r (fun w => { w with alive := false }) with smoothWeights := weights },
          .error e) := by
  refine ⟨Function.update p.smoothWeights (p.heap r).group.name 0, ?_⟩
  cases hp : (p.heap r).process with
  | none =>
    refine Or.inr ⟨?_, _, by simp only [handleWorkerExit, hp]; rfl⟩
    by_contra hc
    obtain ⟨h, hh, -⟩ := hb.handles (by simpa using hc) r ht ha
    rw [hp] at hh
    cases hh
  | some h =>
    cases hj : h.join with
    | ok u => exact Or.inl (by simp only [handleWorkerExit, hp, hj]; rfl)
    | error e =>
      refine Or.inr ⟨?_, e, by simp only [handleWorkerExit, hp, hj]⟩
      by_contra hc
      obtain ⟨h', hh, husable⟩ := hb.handles (by simpa using hc) r ht ha
      rw [hp] at hh
      cases hh
      rcases husable with rfl | rfl <;> cases hj

/-! ## Construction -/

/-- The tables of a pool that has not served anything yet. -/
structure Prepared (p : Pool) : Prop where
  consistent : Consistent p
  fresh : p.futures = Dict.empty
  openFlags : p.closing = false ∧ p.closeComplete = false
  signals : p.supervisorStop = false ∧ p.resultStop = false
  handles : ∀ r, InTable p r → (p.heap r).process ≠ none

theorem emptyPool_prepared (registry : List String) : Prepared (emptyPool registry) := by
  refine ⟨⟨⟨by simp [emptyPool], ?_, ?_, ?_, ?_, ?_, ?_, rfl⟩, ?_, ⟨by simp [emptyPool], ?_⟩⟩,
    rfl, ⟨rfl, rfl⟩, ⟨rfl, rfl⟩, ?_⟩
  all_goals simp [emptyPool, InTable, Grouped, routes]

theorem modifyAll (f : WorkerState → WorkerState) (l : List Ref) (p : Pool) (hn : l.Nodup) :
    l.foldl (fun p r => p.modify r f) p =
      { p with heap := fun r => if r ∈ l then f (p.heap r) else p.heap r } := by
  induction l generalizing p with
  | nil => simp
  | cons r l ih =>
    obtain ⟨hr, hn⟩ := List.nodup_cons.mp hn
    rw [List.foldl_cons, ih _ hn]
    simp only [Pool.modify, Pool.mk.injEq, true_and, and_true]
    funext r'
    by_cases e : r' = r
    · subst e; simp [hr]
    · simp [e]

/-- The pool in which a group of the constructor's loop is published: its workers run,
outside the table. -/
structure Staffed (p ready : Pool) (group : WorkerGroup) (names : List String) : Prop where
  unlisted : group.name ∉ p.groups.keys
  resolved : resolveGroupHandlers p group = .ok names
  rest : ∃ heap, ready = { p with heap := heap, nextRef := p.nextRef + group.processCount }
  old : ∀ r < p.nextRef, ready.heap r = p.heap r
  workers : ∀ k < group.processCount, ready.heap (p.nextRef + k) =
    { launchWorker (newWorker group names k) .started with alive := true }

theorem addGroup_staffed {group : WorkerGroup} {q : Pool} (h : addGroup p group = .ok q) :
    ∃ names ready, Staffed p ready group names ∧
      q = publishGroup ready group names ((List.range group.processCount).map (p.nextRef + ·)) := by
  unfold addGroup at h
  by_cases hm : p.groups.contains group.name = true
  · rw [if_pos hm] at h; cases h
  rw [if_neg hm] at h
  obtain ⟨names, hnames, h⟩ := Traversal.bind_ok_iff.mp h
  set f : WorkerState → WorkerState := fun w => { launchWorker w .started with alive := true } with hf
  set workers := (List.range group.processCount).map (p.nextRef + ·) with hw
  have hn : workers.Nodup := List.nodup_range.map (fun i j e => Nat.add_left_cancel e)
  have hready : workers.foldl (fun p r => p.modify r f) (newWorkers p group names).1 =
      { (newWorkers p group names).1 with
        heap := fun r => if r ∈ workers then f ((newWorkers p group names).1.heap r)
          else (newWorkers p group names).1.heap r } := modifyAll f workers _ hn
  set ready := workers.foldl (fun p r => p.modify r f) (newWorkers p group names).1
  refine ⟨names, ready, ⟨by rwa [← Dict.contains_iff], hnames, ?_, ?_, ?_⟩, by cases h; rfl⟩
  · rw [hready]; exact ⟨_, rfl⟩
  · intro r hr
    have hnot : r ∉ workers := by
      intro hmem
      obtain ⟨k, -, rfl⟩ := List.mem_map.mp hmem
      exact absurd hr (by simp)
    rw [hready]
    simp only [hnot, ↓reduceIte]
    exact newWorkers_heap group names hr
  · intro k hk
    have : p.nextRef + k ∈ workers := List.mem_map.mpr ⟨k, List.mem_range.mpr hk, rfl⟩
    rw [hready]
    simp [this, newWorkers, hk, hf]

namespace Staffed

variable {ready : Pool} {group : WorkerGroup} {names : List String}

theorem fresh (hs : Staffed p ready group names) :
    Fresh ready group ((List.range group.processCount).map (p.nextRef + ·)) := by
  obtain ⟨heap, hready⟩ := hs.rest
  refine ⟨⟨p.nextRef, rfl, by rw [hready], fun k hk => by rw [hs.workers k hk]; rfl⟩, ?_, ?_⟩
  all_goals
    intro r hr
    obtain ⟨k, hk, rfl⟩ := List.mem_map.mp hr
    rw [hs.workers k (List.mem_range.mp hk)]
    rfl

theorem usable (hs : Staffed p ready group names) {r : Ref}
    (hr : r ∈ (List.range group.processCount).map (p.nextRef + ·)) :
    UsableHandle (ready.heap r) := by
  obtain ⟨k, hk, rfl⟩ := List.mem_map.mp hr
  rw [hs.workers k (List.mem_range.mp hk)]
  exact ⟨.running, rfl, Or.inl rfl⟩

theorem consistent (hs : Staffed p ready group names) (hp : Consistent p) : Consistent ready := by
  obtain ⟨hb, hg, hr⟩ := hp
  have old : ∀ r, InTable p r → ready.heap r = p.heap r := fun r h => hs.old r (hb.allocated r h)
  obtain ⟨heap, rfl⟩ := hs.rest
  refine ⟨heap_books hb (Nat.le_add_right _ _) old, ?_, ⟨hr.grouped, hr.listed⟩⟩
  intro id r hid
  rw [old r ⟨id, hid⟩]
  exact hg id r hid

end Staffed

theorem addGroup_prepared {group : WorkerGroup} {q : Pool} (hp : Prepared p)
    (h : addGroup p group = .ok q) : Prepared q := by
  obtain ⟨names, ready, hs, rfl⟩ := addGroup_staffed h
  obtain ⟨hbooks, hgrouped, hrouted⟩ := hs.consistent hp.consistent
  obtain ⟨heap, hready⟩ := hs.rest
  have hnew : group.name ∉ ready.groups.keys := by rw [hready]; exact hs.unlisted
  refine ⟨⟨publish_books hbooks hgrouped hs.fresh hnew fun _ => hs.usable,
    publish_grouped hgrouped hs.fresh hnew, publish_routed hrouted hnew⟩, ?_, ?_, ?_, ?_⟩
  · rw [hready]; exact hp.fresh
  · rw [hready]; exact hp.openFlags
  · rw [hready]; exact hp.signals
  · rintro r ⟨id, hr⟩
    show (ready.heap r).process ≠ none
    rcases (publish_workers names hs.fresh hgrouped hnew id r).mp hr with hr | ⟨hr, -⟩
    · have hin : InTable p r := ⟨id, by rw [hready] at hr; exact hr⟩
      rw [hs.old r (hp.consistent.books.allocated r hin)]
      exact hp.handles r hin
    · obtain ⟨x, hx, -⟩ := hs.usable hr
      rw [hx]
      simp

/-- What the loop over the groups keeps holds of the constructed pool. -/
theorem construct_rule {registry : List String} {groups : List WorkerGroup} {P : Pool → Prop}
    (start : P (emptyPool registry))
    (kept : ∀ p g q, Prepared p → P p → addGroup p g = .ok q → P q)
    (h : construct registry groups = .ok p) : Prepared p ∧ P p := by
  unfold construct at h
  split at h
  · cases h
  · have grown : ∀ (groups : List WorkerGroup) (q : Pool), Prepared q → P q →
        groups.foldlM addGroup q = .ok p → Prepared p ∧ P p := by
      intro groups
      induction groups with
      | nil =>
        intro q hq hP h
        cases h
        exact ⟨hq, hP⟩
      | cons g rest ih =>
        intro q hq hP h
        rw [List.foldlM_cons] at h
        obtain ⟨q', hq', h⟩ := Traversal.bind_ok_iff.mp h
        exact ih q' (addGroup_prepared hq hq') (kept q g q' hq hP hq') h
    exact grown groups _ (emptyPool_prepared registry) start h

/-- What a successful construction leaves. -/
theorem construct_prepared {registry : List String} {groups : List WorkerGroup}
    (h : construct registry groups = .ok p) : Prepared p :=
  (construct_rule (P := fun _ => True) trivial (fun _ _ _ _ _ _ => trivial) h).1

end PoolGroups
