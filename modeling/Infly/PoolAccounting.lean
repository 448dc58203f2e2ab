import Infly.PoolTables

/-! # Bookkeeping of assignments

Futures, assignments and the workers' counters agree. Each table operation keeps them
in agreement.
-/
namespace PoolAccounting

open Contracts Config PoolState PoolTables

def InTable (p : Pool) (r : Ref) : Prop := ∃ id, p.workers.get? id = some r

def UsableHandle (w : WorkerState) : Prop := ∃ h, w.process = some h ∧ h.Usable

instance (w : WorkerState) : Decidable (UsableHandle w) :=
  decidable_of_iff (∃ h ∈ w.process, h.Usable) Iff.rfl

/-- No operation on the worker's handle raises; a worker without one has nothing to stop. -/
def Manageable (w : WorkerState) : Prop := ∀ h, w.process = some h → h.Usable

instance (w : WorkerState) : Decidable (Manageable w) :=
  match h : w.process with
  | none => .isTrue fun x hx => by rw [h] at hx; cases hx
  | some x => decidable_of_iff x.Usable
      ⟨fun hu y hy => by rw [h] at hy; cases hy; exact hu, fun hm => hm x h⟩

theorem UsableHandle.manageable {w : WorkerState} (h : UsableHandle w) : Manageable w := by
  obtain ⟨x, hx, hu⟩ := h
  intro y hy
  rw [hx] at hy
  cases hy
  exact hu

/-- Only querying a handle can make `_stop_process` raise. -/
theorem stopProcess_succeeds {w : WorkerState} {k : StopStep}
    (h : k = .close ∨ k = .mark ∨ Manageable w) : ∃ v k', stopProcess w k = .ok (v, k') := by
  rcases h with rfl | rfl | h
  · exact ⟨_, _, rfl⟩
  · exact ⟨_, _, rfl⟩
  cases hp : w.process with
  | none =>
    cases k <;> simp only [stopProcess, hp] <;> exact ⟨_, _, rfl⟩
  | some x =>
    rcases h x hp with rfl | rfl <;> cases k <;> simp only [stopProcess, hp] <;> exact ⟨_, _, rfl⟩

/-- While the pool is open, a worker that is not alive has no assignment and the handle of
one that is alive can be asked. -/
structure Books (p : Pool) : Prop where
  keys : ∀ t, t ∈ p.assignments.keys ↔ t ∈ p.futures.keys
  owner : ∀ t a, p.assignments.get? t = some a →
    ∃ r, p.workers.get? a.1 = some r ∧ (p.heap r).assignment = a
  counted : ∀ id r, p.workers.get? id = some r →
    (p.heap r).outstanding = p.assignments.values.count (p.heap r).assignment
  idle : p.closing = false → ∀ r, InTable p r → (p.heap r).alive = false →
    (p.heap r).outstanding = 0
  handles : p.closing = false → ∀ r, InTable p r → (p.heap r).alive = true →
    UsableHandle (p.heap r)
  named : ∀ id r, p.workers.get? id = some r → (p.heap r).workerId = id
  allocated : ∀ r, InTable p r → r < p.nextRef
  flags : p.accepting = !p.closing

/-- Every worker of the table belongs to a registered group and is named after it. -/
def Grouped (p : Pool) : Prop :=
  ∀ id r, p.workers.get? id = some r →
    (∃ k, id = workerName (p.heap r).group.name k) ∧ (p.heap r).group.name ∈ p.groups.keys

variable {p : Pool} {r : Ref} {f : WorkerState → WorkerState}

theorem Books.inTable (hb : Books p) : InTable p r ↔ p.workers.get? (p.heap r).workerId = some r := by
  constructor
  · rintro ⟨id, h⟩
    rwa [hb.named id r h]
  · exact fun h => ⟨_, h⟩

theorem Books.ref_unique (hb : Books p) {id id' : String} (h : p.workers.get? id = some r)
    (h' : p.workers.get? id' = some r) : id = id' :=
  (hb.named id r h).symm.trans (hb.named id' r h')

theorem Books.values_nodup (hb : Books p) : p.workers.values.Nodup := by
  refine List.Nodup.map_on ?_ (List.Nodup.of_map _ p.workers.nodup)
  rintro ⟨id, r⟩ hr ⟨id', r'⟩ hr' rfl
  rw [hb.ref_unique (Dict.get?_eq_some.mpr hr) (Dict.get?_eq_some.mpr hr')]

theorem inTable_values : InTable p r ↔ r ∈ p.workers.values := Dict.mem_values.symm

/-- A worker without assignments is named by none. -/
theorem Books.unassigned (hb : Books p) {id : String} (h : p.workers.get? id = some r)
    (h0 : (p.heap r).outstanding = 0) (t : TaskId) : p.assignments.get? t ≠ some (p.heap r).assignment := by
  intro ht
  have hc := hb.counted id r h
  rw [h0] at hc
  exact List.count_eq_zero.mp hc.symm (Dict.mem_values.mpr ⟨t, ht⟩)

/-! ## Changes of one worker -/

/-- A change outside the table concerns nobody. -/
theorem Books.modify_private (hb : Books p) (hr : ¬ InTable p r) : Books (p.modify r f) := by
  have other : ∀ {r'}, InTable p r' → r' ≠ r := fun h e => hr (e ▸ h)
  constructor
  · exact hb.keys
  · intro t a ht
    obtain ⟨r', hr', ha⟩ := hb.owner t a ht
    exact ⟨r', hr', by simpa [other ⟨_, hr'⟩] using ha⟩
  · intro id r' hr'
    simpa [other ⟨_, hr'⟩] using hb.counted id r' hr'
  · intro hc r' hr' ha
    simpa [other hr'] using hb.idle hc r' hr' (by simpa [other hr'] using ha)
  · intro hc r' hr' ha
    simpa [other hr'] using hb.handles hc r' hr' (by simpa [other hr'] using ha)
  · intro id r' hr'
    simpa [other ⟨_, hr'⟩] using hb.named id r' hr'
  · exact hb.allocated
  · exact hb.flags

/-- A change that keeps the books of a worker keeps the pool's, if while the pool is open
it neither ends an assigned worker nor spoils the handle of an alive one. -/
theorem Books.modify (hb : Books p) (hf : SameBooks (p.heap r) (f (p.heap r)))
    (hidle : p.closing = false → InTable p r → (f (p.heap r)).alive = false →
      (p.heap r).alive = false)
    (hhandle : p.closing = false → InTable p r → (f (p.heap r)).alive = true →
      UsableHandle (f (p.heap r))) : Books (p.modify r f) := by
  constructor
  · exact hb.keys
  · intro t a ht
    obtain ⟨r', hr', ha⟩ := hb.owner t a ht
    refine ⟨r', hr', ?_⟩
    by_cases e : r' = r
    · subst e; simpa [hf.assignment] using ha
    · simpa [e] using ha
  · intro id r' hr'
    by_cases e : r' = r
    · subst e; simpa [hf.assignment, hf.outstanding] using hb.counted id r' hr'
    · simpa [e] using hb.counted id r' hr'
  · intro hc r' hr' ha
    by_cases e : r' = r
    · subst e
      simp only [modify_heap, Function.update_self] at ha ⊢
      rw [hf.outstanding]
      exact hb.idle hc r' hr' (hidle hc hr' ha)
    · simpa [e] using hb.idle hc r' hr' (by simpa [e] using ha)
  · intro hc r' hr' ha
    by_cases e : r' = r
    · subst e
      simp only [modify_heap, Function.update_self] at ha ⊢
      exact hhandle hc hr' ha
    · simpa [e] using hb.handles hc r' hr' (by simpa [e] using ha)
  · intro id r' hr'
    by_cases e : r' = r
    · subst e; simpa [hf.workerId] using hb.named id r' hr'
    · simpa [e] using hb.named id r' hr'
  · exact hb.allocated
  · exact hb.flags

theorem Grouped.modify (hg : Grouped p) (hf : (f (p.heap r)).group = (p.heap r).group) :
    Grouped (p.modify r f) := by
  intro id r' hr'
  by_cases e : r' = r
  · subst e; simpa [hf] using hg id r' hr'
  · simpa [e] using hg id r' hr'

theorem launchWorker_group (w : WorkerState) (o : LaunchOutcome) :
    (launchWorker w o).workerId = w.workerId ∧ (launchWorker w o).index = w.index ∧
      (launchWorker w o).group = w.group ∧ (launchWorker w o).outstanding = 0 ∧
      (launchWorker w o).alive = false ∧ (launchWorker w o).retiring = w.retiring ∧
      (launchWorker w o).generation = w.generation + 1 := by
  cases o <;> simp [launchWorker]

/-- A restart happens to a worker that nothing is assigned to, so the new generation
starts with no assignment and leaves none behind. -/
theorem Books.launch (hb : Books p) (ht : InTable p r) (hc : p.closing = false)
    (ha : (p.heap r).alive = false) (o : LaunchOutcome) :
    Books (p.modify r (launchWorker · o)) := by
  have hr := hb.inTable.mp ht
  obtain ⟨hid, -, -, hout, halive, -, hgen⟩ := launchWorker_group (p.heap r) o
  have free := hb.unassigned hr (hb.idle hc r ht ha)
  constructor
  · exact hb.keys
  · intro t a h
    obtain ⟨r', hr', e⟩ := hb.owner t a h
    refine ⟨r', hr', ?_⟩
    by_cases er : r' = r
    · subst er; exact absurd (e ▸ h) (free t)
    · simpa [er] using e
  · intro id r' hr'
    by_cases er : r' = r
    · subst er
      simp only [modify_heap, Function.update_self, modify_assignments, hout]
      symm
      rw [List.count_eq_zero, Dict.mem_values]
      rintro ⟨t, h⟩
      obtain ⟨r'', hr'', e⟩ := hb.owner t _ h
      simp only [WorkerState.assignment, hid, hgen] at hr'' e
      rw [hr] at hr''
      cases hr''
      have := (Prod.mk.inj e).2
      omega
    · simpa [er] using hb.counted id r' hr'
  · intro hc' r' hr' ha'
    by_cases er : r' = r
    · subst er; simpa using hout
    · simpa [er] using hb.idle hc' r' hr' (by simpa [er] using ha')
  · intro hc' r' hr' ha'
    by_cases er : r' = r
    · subst er; simp [halive] at ha'
    · simpa [er] using hb.handles hc' r' hr' (by simpa [er] using ha')
  · intro id r' hr'
    by_cases er : r' = r
    · subst er; simpa [hid] using hb.named id r' hr'
    · simpa [er] using hb.named id r' hr'
  · exact hb.allocated
  · exact hb.flags

/-! ## Booking a request -/

theorem Books.assigned (hb : Books p) {t : TaskId} {fut : FutureId} (ht : InTable p r)
    (hlive : (p.heap r).isLive = true) (hnew : p.futures.get? t = none)
    (weights : String → ℤ) (cursors : String → ℕ) :
    Books (PoolTables.assigned p t fut r weights cursors) := by
  have hr := hb.inTable.mp ht
  have halive : (p.heap r).alive = true := by
    simp only [WorkerState.isLive, Bool.and_eq_true] at hlive
    exact hlive.1
  have hfree : p.assignments.get? t = none :=
    Dict.get?_eq_none.mpr fun hk => (Dict.get?_eq_none.mp hnew) ((hb.keys t).mp hk)
  have heap : ∀ r', ((PoolTables.assigned p t fut r weights cursors).heap r').assignment =
      (p.heap r').assignment := by
    intro r'
    by_cases e : r' = r
    · subst e; simp [PoolTables.assigned, WorkerState.assignment]
    · simp [PoolTables.assigned, e]
  constructor
  · intro t'
    simp only [PoolTables.assigned, Dict.mem_keys_set, hb.keys]
  · intro t' a h
    simp only [PoolTables.assigned, Dict.get?_set] at h
    split at h
    · cases h; exact ⟨r, hr, heap r⟩
    · obtain ⟨r', hr', e⟩ := hb.owner t' a h
      exact ⟨r', hr', (heap r').trans e⟩
  · intro id r' hr'
    rw [heap]
    have hc := hb.counted id r' hr'
    simp only [PoolTables.assigned, Dict.count_values_set_new hfree]
    by_cases e : r' = r
    · subst e; simp [hc]
    · have hne : (p.heap r).assignment ≠ (p.heap r').assignment := by
        intro h
        have hid := (Prod.mk.inj h).1
        rw [hb.named id r' hr'] at hid
        rw [hid] at hr
        exact e (Option.some.inj (hr'.symm.trans hr))
      simp [e, hc, hne]
  · intro hc r' hr' ha
    by_cases e : r' = r
    · subst e; simp [PoolTables.assigned, halive] at ha
    · simp only [PoolTables.assigned, Function.update_of_ne e] at ha ⊢
      exact hb.idle hc r' hr' ha
  · intro hc r' hr' ha
    by_cases e : r' = r
    · subst e; simpa [PoolTables.assigned, UsableHandle] using hb.handles hc r' ht halive
    · simp only [PoolTables.assigned, Function.update_of_ne e] at ha ⊢
      exact hb.handles hc r' hr' ha
  · intro id r' hr'
    have := congrArg Prod.fst (heap r')
    exact this.trans (hb.named id r' hr')
  · exact hb.allocated
  · exact hb.flags

/-! ## Taking futures out -/

/-- A message for the current assignment finds its future, its worker and a positive
counter. -/
theorem Books.result_guards (hb : Books p) {t : TaskId} {a : Assignment}
    (h : p.assignments.get? t = some a) :
    ∃ r, p.workers.get? a.1 = some r ∧ 0 < (p.heap r).outstanding ∧
      ∃ fut, p.futures.get? t = some fut := by
  obtain ⟨r, hr, e⟩ := hb.owner t a h
  refine ⟨r, hr, ?_, Dict.mem_keys.mp ((hb.keys t).mp (Dict.mem_keys.mpr ⟨a, h⟩))⟩
  rw [hb.counted a.1 r hr, e]
  exact List.count_pos_iff.mpr (Dict.mem_values.mpr ⟨t, h⟩)

/-- A fresh message takes exactly its own future and lowers its worker's counter by one. -/
theorem Books.takeResult_eq (hb : Books p) (m : WorkerResultMessage) :
    (p.assignments.get? m.taskId ≠ some (m.workerId, m.generation) ∧ takeResult p m = (p, none)) ∨
      ∃ r fut, p.workers.get? m.workerId = some r ∧
        p.assignments.get? m.taskId = some (p.heap r).assignment ∧
        p.futures.get? m.taskId = some fut ∧
        takeResult p m = ({ p.modify r (fun w => { w with outstanding := w.outstanding - 1 }) with
          assignments := p.assignments.pop m.taskId
          futures := p.futures.pop m.taskId }, some (some fut)) := by
  by_cases h : p.assignments.get? m.taskId = some (m.workerId, m.generation)
  · obtain ⟨r, hr, hpos, fut, hfut⟩ := hb.result_guards h
    obtain ⟨r', hr', ha⟩ := hb.owner _ _ h
    have e : r' = r := Option.some.inj (hr'.symm.trans hr)
    subst e
    refine Or.inr ⟨r', fut, hr, ha ▸ h, hfut, ?_⟩
    simp only [takeResult, h, ↓reduceIte, hr, hpos, hfut]
    rfl
  · exact Or.inl ⟨h, by simp only [takeResult, h, ↓reduceIte]⟩

theorem Books.takeResult (hb : Books p) (m : WorkerResultMessage) :
    Books (PoolState.takeResult p m).1 := by
  rcases hb.takeResult_eq m with ⟨_, h⟩ | ⟨r, fut, hr, ha, hfut, h⟩
  · rw [h]; exact hb
  rw [h]
  have heap : ∀ r', (Function.update p.heap r
      { p.heap r with outstanding := (p.heap r).outstanding - 1 } r').assignment =
      (p.heap r').assignment := by
    intro r'
    by_cases e : r' = r
    · subst e; simp [WorkerState.assignment]
    · simp [e]
  constructor
  · intro t
    simp only [Dict.mem_keys_pop, hb.keys]
  · intro t a ht
    simp only [Dict.get?_pop] at ht
    split at ht
    · cases ht
    · obtain ⟨r', hr', e⟩ := hb.owner t a ht
      exact ⟨r', hr', (heap r').trans e⟩
  · intro id r' hr'
    simp only [modify_heap]
    rw [heap]
    have hc := hb.counted id r' hr'
    have hp := Dict.count_values_pop ha (p.heap r').assignment
    by_cases e : r' = r
    · subst e
      simp only [beq_self_eq_true, ↓reduceIte] at hp
      simp only [Function.update_self]
      omega
    · have hne : ((p.heap r).assignment == (p.heap r').assignment) = false := by
        rw [beq_eq_false_iff_ne]
        intro h
        have hid := (Prod.mk.inj h).1
        rw [hb.named _ r hr, hb.named id r' hr'] at hid
        rw [hid] at hr
        exact e (Option.some.inj (hr'.symm.trans hr))
      simp only [hne, Bool.false_eq_true, ↓reduceIte, Nat.add_zero] at hp
      simp only [Function.update_of_ne e]
      omega
  · intro hc r' hr' halive
    by_cases e : r' = r
    · subst e
      have := hb.idle hc r' hr' (by simpa using halive)
      simp [this]
    · simpa [e] using hb.idle hc r' hr' (by simpa [e] using halive)
  · intro hc r' hr' halive
    by_cases e : r' = r
    · subst e; simpa [UsableHandle] using hb.handles hc r' hr' (by simpa using halive)
    · simpa [e] using hb.handles hc r' hr' (by simpa [e] using halive)
  · intro id r' hr'
    exact (congrArg Prod.fst (heap r')).trans (hb.named id r' hr')
  · exact hb.allocated
  · exact hb.flags

theorem mem_owned {p : Pool} {a : Assignment} {t : TaskId} :
    t ∈ (p.assignments.entries.filter (fun e => decide (e.2 = a))).map Prod.fst ↔
      p.assignments.get? t = some a := by
  rw [Dict.get?_eq_some]
  simp

/-- The futures taken are those of the tasks assigned to the worker. -/
theorem mem_taken {p : Pool} {r : Ref} {f : FutureId} :
    f ∈ (takeWorkerFuturesLocked p r).2 ↔
      ∃ t, p.assignments.get? t = some (p.heap r).assignment ∧ p.futures.get? t = some f := by
  simp only [takeWorkerFuturesLocked, List.mem_filterMap, mem_owned]

theorem taken_nodup (hn : p.futures.values.Nodup) : (takeWorkerFuturesLocked p r).2.Nodup := by
  refine List.Nodup.filterMap ?_ ?_
  · intro t t' f h h'
    exact Dict.key_unique hn h h'
  · exact p.assignments.nodup.sublist (List.filter_sublist.map _)

/-- What is left assigned after a worker's futures were taken. -/
theorem takeWorker_assignments {p : Pool} {r : Ref} (t : TaskId) :
    (takeWorkerFuturesLocked p r).1.assignments.get? t =
      if p.assignments.get? t = some (p.heap r).assignment then none
      else p.assignments.get? t := by
  simp only [takeWorkerFuturesLocked, Dict.get?_filter]
  cases h : p.assignments.get? t with
  | none => simp
  | some a => by_cases e : a = (p.heap r).assignment <;> simp [e]

theorem takeWorker_futures {p : Pool} {r : Ref} (t : TaskId) :
    (takeWorkerFuturesLocked p r).1.futures.get? t =
      if p.assignments.get? t = some (p.heap r).assignment then none else p.futures.get? t := by
  simp only [takeWorkerFuturesLocked, Dict.get?_filter, mem_owned]
  by_cases e : p.assignments.get? t = some (p.heap r).assignment <;>
    cases p.futures.get? t <;> simp [e]

/-- Marking a worker dead and taking its futures in one section. -/
theorem Books.takeWorker (hb : Books p) (ht : InTable p r)
    (hf : SameBooks (p.heap r) (f (p.heap r))) (hdead : (f (p.heap r)).alive = false) :
    Books (takeWorkerFuturesLocked (p.modify r f) r).1 := by
  have hr := hb.inTable.mp ht
  have same : ((p.modify r f).heap r).assignment = (p.heap r).assignment := by
    simpa using hf.assignment
  have heap : (takeWorkerFuturesLocked (p.modify r f) r).1.heap =
      Function.update p.heap r { f (p.heap r) with outstanding := 0 } := by
    simp [takeWorkerFuturesLocked]
  have left : (takeWorkerFuturesLocked (p.modify r f) r).1.assignments =
      p.assignments.filter (fun _ a => decide (a ≠ (p.heap r).assignment)) := by
    simp only [takeWorkerFuturesLocked, modify_assignments, same]
  have assignment : ∀ r', ((takeWorkerFuturesLocked (p.modify r f) r).1.heap r').assignment =
      (p.heap r').assignment := by
    intro r'
    rw [heap]
    by_cases e : r' = r
    · subst e; simpa [WorkerState.assignment] using hf.assignment
    · simp [e]
  constructor
  · intro t
    simp only [Dict.mem_keys, takeWorker_assignments, takeWorker_futures, same,
      modify_assignments, modify_futures]
    have := hb.keys t
    simp only [Dict.mem_keys] at this
    split <;> simp [this]
  · intro t a h
    rw [takeWorker_assignments] at h
    split at h
    · cases h
    · obtain ⟨r', hr', e⟩ := hb.owner t a h
      exact ⟨r', hr', (assignment r').trans e⟩
  · intro id r' hr'
    rw [assignment, left, heap]
    by_cases e : r' = r
    · subst e
      simp only [Function.update_self]
      exact (Dict.count_values_filter_self _ _).symm
    · have hne : (p.heap r').assignment ≠ (p.heap r).assignment := by
        intro h
        have hid := (Prod.mk.inj h).1
        rw [hb.named id r' hr'] at hid
        rw [← hid] at hr
        exact e (Option.some.inj (hr'.symm.trans hr))
      rw [Dict.count_values_filter_of_ne _ hne]
      simp only [Function.update_of_ne e]
      exact hb.counted id r' hr'
  · intro hc r' hr' halive
    rw [heap] at halive ⊢
    by_cases e : r' = r
    · subst e; simp
    · simpa [e] using hb.idle hc r' hr' (by simpa [e] using halive)
  · intro hc r' hr' halive
    rw [heap] at halive ⊢
    by_cases e : r' = r
    · subst e; simp [hdead] at halive
    · simpa [e] using hb.handles hc r' hr' (by simpa [e] using halive)
  · intro id r' hr'
    exact (congrArg Prod.fst (assignment r')).trans (hb.named id r' hr')
  · exact hb.allocated
  · exact hb.flags

theorem Books.takeAll (hb : Books p) : Books (takeAllPending p).1 := by
  have heap : ∀ r, InTable p r →
      (takeAllPending p).1.heap r = { p.heap r with outstanding := 0 } := by
    rintro r ⟨id, hr⟩
    simp [takeAllPending, Dict.mem_values.mpr ⟨id, hr⟩]
  constructor
  · intro t
    simp [takeAllPending]
  · intro t a h
    simp [takeAllPending] at h
  · intro id r hr
    rw [heap r ⟨id, hr⟩]
    simp [takeAllPending]
  · intro hc r hr ha
    rw [heap r hr]
  · intro hc r hr ha
    rw [heap r hr] at ha ⊢
    exact hb.handles hc r hr ha
  · intro id r hr
    rw [heap r ⟨id, hr⟩]
    exact hb.named id r hr
  · exact hb.allocated
  · exact hb.flags

/-- A worker without assignments leaves the table and nothing dangles. -/
theorem Books.popWorker (hb : Books p) (ht : InTable p r) (h0 : (p.heap r).outstanding = 0) :
    Books { p with workers := p.workers.pop (p.heap r).workerId } := by
  have hr := hb.inTable.mp ht
  have free := hb.unassigned hr h0
  have still : ∀ {id r'}, (p.workers.pop (p.heap r).workerId).get? id = some r' →
      p.workers.get? id = some r' := by
    intro id r' h
    simp only [Dict.get?_pop] at h
    split at h
    · cases h
    · exact h
  constructor
  · exact hb.keys
  · intro t a h
    obtain ⟨r', hr', e⟩ := hb.owner t a h
    refine ⟨r', ?_, e⟩
    have hne : a.1 ≠ (p.heap r).workerId := by
      intro he
      rw [he, hr] at hr'
      have e' := Option.some.inj hr'
      subst e'
      exact free t (e ▸ h)
    simpa [hne] using hr'
  · exact fun id r' h => hb.counted id r' (still h)
  · rintro hc r' ⟨id, h⟩
    exact hb.idle hc r' ⟨id, still h⟩
  · rintro hc r' ⟨id, h⟩
    exact hb.handles hc r' ⟨id, still h⟩
  · exact fun id r' h => hb.named id r' (still h)
  · rintro r' ⟨id, h⟩
    exact hb.allocated r' ⟨id, still h⟩
  · exact hb.flags

end PoolAccounting
