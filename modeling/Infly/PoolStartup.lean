import Infly.RegistrationUnwind
import Mathlib.Algebra.Order.Ring.Rat

/-! # The constructor of the pool

`ProcessPoolStrategy.__init__` with everything that can go wrong in it. Nobody else has the
pool yet, so the call is a function of what the outside does to each worker.
-/
namespace PoolStartup

open Contracts Config PoolState PoolTables PoolAccounting PoolGroups PoolModel PoolFrames
open PoolInvariant PoolHandles PoolUnload RegistrationUnwind

/-! ## The call -/

/-- What happens to one worker: how its launch ends, what each turn of the wait for READY
meets and whether the process has ended by then, and by which operations of `_stop_process`
the process has ended. -/
structure Fate where
  launch : LaunchOutcome
  turns : List (Bool × AwaitOutcome)
  ended : StopStep → Bool

/-- Whether the log manager and the result queue can be made, and the fate of each worker. -/
structure World where
  logging : Bool
  resultQueue : Bool
  fate : Ref → Fate

structure Startup where
  pool : Pool
  logging : Bool
  signalled : Ref → Bool

def finds (ended : Bool) (w : WorkerState) : WorkerState :=
  if ended = true ∧ w.process = some .running then { w with process := some .exited } else w

/-- `_await_worker_ready`: the deadline ends the wait when nothing else does. -/
def awaitWorkerReady (w : WorkerState) : List (Bool × AwaitOutcome) → WorkerState × Option Raised
  | [] =>
    match awaitTurn w .timedOut with
    | .error e => (w, some e)
    | .ok _ => (w, none)
  | (ended, o) :: rest =>
    let w := finds ended w
    match awaitTurn w o with
    | .error e => (w, some e)
    | .ok true => ({ w with alive := true }, none)
    | .ok false => awaitWorkerReady w rest

def declareGroup (p : Pool) (group : WorkerGroup) : Except Raised Pool := do
  let handlerNames ← resolveGroupHandlers p group
  let (p, workers) := newWorkers p group handlerNames
  pure (publishGroup p group handlerNames workers)

/-- The loop over the groups: their tables and worker states, nothing launched. -/
def declareGroups : List WorkerGroup → Pool → Pool × Option Raised
  | [], p => (p, none)
  | group :: rest, p =>
    match declareGroup p group with
    | .error e => (p, some e)
    | .ok p => declareGroups rest p

def launchWorkers (world : World) : List Ref → Pool → Pool × Option Raised
  | [], p => (p, none)
  | r :: rest, p =>
    let o := (world.fate r).launch
    let launched := p.modify r (launchWorker · o)
    if o = .started then launchWorkers world rest launched else (launched, some launchFailed)

def awaitInitialStartup (world : World) : List Ref → Pool → Pool × Option Raised
  | [], p => (p, none)
  | r :: rest, p =>
    match awaitWorkerReady (p.heap r) (world.fate r).turns with
    | (w, some e) => (p.modify r (fun _ => w), some e)
    | (w, none) => awaitInitialStartup world rest (p.modify r (fun _ => w))

/-- `_stop_process` from one of its operations on, at most `n` of them. -/
def stopFrom (ended : StopStep → Bool) :
    ℕ → StopStep → WorkerState → Bool → Except Raised (WorkerState × Bool)
  | 0, _, w, signalled => .ok (w, signalled)
  | n + 1, k, w, signalled =>
    match stopProcess (finds (ended k) w) k with
    | .error e => .error e
    | .ok (w, none) => .ok (w, signalled || k == .terminate)
    | .ok (w, some k') => stopFrom ended n k' w (signalled || k == .terminate)

def stopWorkers (world : World) : List Ref → Startup → Startup × Option Raised
  | [], s => (s, none)
  | r :: rest, s =>
    match stopFrom (world.fate r).ended 6 .join (s.pool.heap r) false with
    | .error e => (s, some e)
    | .ok (w, signalled) => stopWorkers world rest { s with
        pool := s.pool.modify r (fun _ => w)
        signalled := Function.update s.signalled r signalled }

/-- `_close_queues`. -/
def closeQueues (p : Pool) : Pool :=
  { p with
    resultQueue := false
    heap := fun r =>
      if r ∈ p.workers.values then { p.heap r with taskQueue := false, lifecycleQueue := false }
      else p.heap r }

def abortStartup (world : World) (s : Startup) : Startup × Option Raised :=
  let closing := { s with pool := { s.pool with accepting := false, closing := true } }
  match stopWorkers world s.pool.workers.values closing with
  | (s, some e) => (s, some e)
  | (s, none) => ({ s with pool := closeQueues s.pool, logging := false }, none)

def loggingFailed : Raised := .other "the log manager could not be started"

def queueFailed : Raised := .other "the result queue could not be made"

/-- The body of the `try`. -/
def startWorkers (registry : List String) (workerGroups : List WorkerGroup)
    (startupTimeoutSeconds : ℚ) (world : World) : Startup × Option Raised :=
  let bare := { emptyPool registry with resultQueue := false }
  let with_pool (p : Pool) : Startup := ⟨p, world.logging, fun _ => false⟩
  if !world.logging then (with_pool bare, some loggingFailed)
  else if workerGroups = [] then (with_pool bare,
    some (internalError "ProcessPoolStrategy requires at least one worker group"))
  else if startupTimeoutSeconds ≤ 0 then (with_pool bare,
    some (internalError "startup_timeout_seconds must be greater than zero"))
  else if ¬(workerGroups.map WorkerGroup.name).Nodup then (with_pool bare,
    some (internalError "WorkerGroup names must be unique"))
  else
    match declareGroups workerGroups bare with
    | (p, some e) => (with_pool p, some e)
    | (p, none) =>
      if !world.resultQueue then (with_pool p, some queueFailed)
      else
        match launchWorkers world p.workers.values { p with resultQueue := true } with
        | (p, some e) => (with_pool p, some e)
        | (p, none) =>
          let (p, failure) := awaitInitialStartup world p.workers.values p
          (with_pool p, failure)

def startupError : Raised → Raised
  | .platform e => .platform e
  | e => internalError ("Worker pool startup failed: " ++ e.text)

/-- What the call leaves, and what it raises, if anything. -/
def startPool (registry : List String) (workerGroups : List WorkerGroup)
    (startupTimeoutSeconds : ℚ) (world : World) : Startup × Option Raised :=
  match startWorkers registry workerGroups startupTimeoutSeconds world with
  | (s, none) => (s, none)
  | (s, some e) =>
    match abortStartup world s with
    | (s, some e') => (s, some e')
    | (s, none) => (s, some (startupError e))

/-! ## The clean-up -/

variable {w v : WorkerState} {b c ended : Bool} {r : Ref} {l : List Ref} {world : World}
  {s t : Startup} {p q : Pool}

theorem finds_process {h : Process} (hx : (finds ended w).process = some h) :
    w.process = some h ∨ w.process = some .running ∧ h = .exited := by
  unfold finds at hx
  split at hx
  · rename_i he
    cases hx
    exact .inr ⟨he.2, rfl⟩
  · exact .inl hx

theorem finds_manageable (hm : Manageable w) : Manageable (finds ended w) := by
  intro h hx
  rcases finds_process hx with hold | ⟨-, rfl⟩
  · exact hm h hold
  · exact .inr rfl

theorem finds_stopped (hs : Stopped w b) : Stopped (finds ended w) b := by
  intro h hx
  rcases finds_process hx with hold | ⟨hold, rfl⟩
  · exact hs h hold
  · rcases hs .running hold with hc | ⟨hb, -⟩
    · cases hc
    · exact .inr ⟨hb, .inr rfl⟩

theorem finds_midway {k : DisposeStep} (hm : Midway w b k) : Midway (finds ended w) b k := by
  apply hm.kept finds_manageable finds_stopped
  intro hrun
  rcases finds_process hrun with hold | ⟨-, hc⟩
  · exact hold
  · cases hc

theorem midway_manageable {k : StopStep} (hm : Midway w b (.stop k)) :
    k = .close ∨ k = .mark ∨ Manageable w := by
  cases k with
  | close => exact .inl rfl
  | mark => exact .inr (.inl rfl)
  | rejoin => exact .inr (.inr hm.1)
  | join | probe | terminate => exact .inr (.inr hm)

theorem stopFrom_stops {n : ℕ} {k : StopStep} (ended : StopStep → Bool)
    (hm : Midway w b (.stop k)) (hn : StopStep.rank k ≤ n) :
    ∃ v c, stopFrom ended n k w b = .ok (v, c) ∧ Stopped v c := by
  induction n generalizing k w b with
  | zero =>
    cases k <;> exact absurd hn (by decide)
  | succ n ih =>
    have hm' : Midway (finds (ended k) w) b (.stop k) := finds_midway hm
    obtain ⟨v, k', hv⟩ := stopProcess_succeeds (midway_manageable hm')
    have hstop := hm'.stop hv
    cases k' with
    | none =>
      refine ⟨v, b || k == .terminate, ?_, hstop⟩
      simp only [stopFrom, hv]
    | some k' =>
      have hlt := stopProcess_rank hv
      obtain ⟨u, c, hu, hs⟩ := ih hstop (by omega)
      refine ⟨u, c, ?_, hs⟩
      simp only [stopFrom, hv]
      exact hu

theorem stopFrom_unstarted {ended : StopStep → Bool} (hp : w.process = some .unstarted) :
    stopFrom ended 6 .join w b =
      .error (.assertionError "can only join a started process") := by
  have hf : finds (ended .join) w = w := by
    unfold finds
    rw [if_neg]
    rintro ⟨-, hc⟩
    rw [hp] at hc
    cases hc
  simp only [stopFrom, hf, stopProcess, hp]
  rfl

/-- Only these workers change. -/
structure Touched (p q : Pool) (l : List Ref) : Prop where
  rest : ∃ heap, q = { p with heap := heap }
  others : ∀ r, r ∉ l → q.heap r = p.heap r

theorem Touched.refl (p : Pool) (l : List Ref) : Touched p p l := ⟨⟨_, rfl⟩, fun _ _ => rfl⟩

/-- First one worker, then the others. -/
theorem Touched.cons {f : WorkerState → WorkerState} (h : Touched (p.modify r f) q l) :
    Touched p q (r :: l) := by
  obtain ⟨⟨heap, rfl⟩, hothers⟩ := h
  refine ⟨⟨heap, rfl⟩, ?_⟩
  intro r' hr'
  obtain ⟨hne, hnot⟩ := not_or.mp fun h => hr' (List.mem_cons.mpr h)
  rw [hothers r' hnot]
  simp [hne]

theorem Touched.workers (h : Touched p q l) : q.workers = p.workers := by
  obtain ⟨⟨heap, rfl⟩, -⟩ := h
  rfl

theorem stopWorkers_stops (hn : l.Nodup) (hm : ∀ r ∈ l, Manageable (s.pool.heap r)) :
    ∃ t, stopWorkers world l s = (t, none) ∧ Touched s.pool t.pool l ∧
      ∀ r ∈ l, Stopped (t.pool.heap r) (t.signalled r) := by
  suffices all : ∃ t, stopWorkers world l s = (t, none) ∧ Touched s.pool t.pool l ∧
      (∀ r, r ∉ l → t.signalled r = s.signalled r) ∧
      ∀ r ∈ l, Stopped (t.pool.heap r) (t.signalled r) by
    obtain ⟨t, ht, htouched, -, hstopped⟩ := all
    exact ⟨t, ht, htouched, hstopped⟩
  induction l generalizing s with
  | nil =>
    refine ⟨s, rfl, Touched.refl _ _, fun r _ => rfl, ?_⟩
    intro r hr
    cases hr
  | cons r l ih =>
    obtain ⟨hr, hn⟩ := List.nodup_cons.mp hn
    obtain ⟨v, c, hv, hs⟩ := stopFrom_stops (n := 6) (k := .join) (b := false)
      (world.fate r).ended (hm r (List.mem_cons_self ..)) (by decide)
    let s' : Startup := { s with
      pool := s.pool.modify r (fun _ => v)
      signalled := Function.update s.signalled r c }
    have hm' : ∀ r' ∈ l, Manageable (s'.pool.heap r') := by
      intro r' hr'
      have hne : r' ≠ r := by
        rintro rfl
        exact hr hr'
      have := hm r' (List.mem_cons_of_mem _ hr')
      simpa [s', hne] using this
    obtain ⟨t, ht, htouched, hsignalled, hstopped⟩ := ih hn hm'
    refine ⟨t, ?_, Touched.cons (f := fun _ => v) htouched, ?_, ?_⟩
    · simp only [stopWorkers, hv]
      exact ht
    · intro r' hr'
      obtain ⟨hne, hnot⟩ := not_or.mp fun h => hr' (List.mem_cons.mpr h)
      rw [hsignalled r' hnot]
      simp [s', hne]
    · intro r' hr'
      rcases List.mem_cons.mp hr' with rfl | hr'
      · rw [htouched.others r' hr, hsignalled r' hr]
        simpa [s'] using hs
      · exact hstopped r' hr'

/-- The loop ends at a process that was never started. -/
theorem stopWorkers_raises {before after : List Ref} (hn : (before ++ r :: after).Nodup)
    (hm : ∀ r' ∈ before, Manageable (s.pool.heap r'))
    (hp : (s.pool.heap r).process = some .unstarted) :
    ∃ t, stopWorkers world (before ++ r :: after) s =
      (t, some (.assertionError "can only join a started process")) := by
  induction before generalizing s with
  | nil =>
    refine ⟨s, ?_⟩
    simp only [List.nil_append, stopWorkers, stopFrom_unstarted hp]
  | cons r' before ih =>
    obtain ⟨hr', hn⟩ := List.nodup_cons.mp hn
    obtain ⟨v, c, hv, -⟩ := stopFrom_stops (n := 6) (k := .join) (b := false)
      (world.fate r').ended (hm r' (List.mem_cons_self ..)) (by decide)
    have apart : ∀ r'' ∈ before ++ r :: after, r'' ≠ r' := by
      rintro r'' hr'' rfl
      exact hr' hr''
    simp only [List.cons_append, stopWorkers, hv]
    apply ih hn
    · intro r'' hr''
      have hne := apart r'' (List.mem_append_left _ hr'')
      have := hm r'' (List.mem_cons_of_mem _ hr'')
      simpa [hne] using this
    · have hne := apart r (List.mem_append_right _ (List.mem_cons_self ..))
      simpa [hne] using hp

/-! ## The declared pool -/

/-- The declared pool and the pool in which every worker runs and is ready. -/
structure Promoted (p q : Pool) : Prop where
  tables : ∃ heap, q = { p with heap := heap, resultQueue := true }
  heap : ∀ r < p.nextRef, q.heap r = { launchWorker (p.heap r) .started with alive := true }
  blank : ∀ r < p.nextRef, (p.heap r).process = none

variable {group : WorkerGroup} {groups : List WorkerGroup} {p' q' : Pool}

theorem declareGroup_promoted (h : Promoted p q) (hnew : group.name ∉ p.groups.keys)
    (hd : declareGroup p group = .ok p') :
    p'.groups = p.groups.set group.name group ∧ ∃ q', addGroup q group = .ok q' ∧ Promoted p' q' := by
  obtain ⟨heap, rfl⟩ := h.tables
  unfold declareGroup at hd
  obtain ⟨names, hnames, hd⟩ := Traversal.bind_ok_iff.mp hd
  cases hd
  refine ⟨rfl, ?_⟩
  set workers := (List.range group.processCount).map (p.nextRef + ·) with hw
  set ready : WorkerState → WorkerState := fun w => { launchWorker w .started with alive := true }
  set q : Pool := { p with heap := heap, resultQueue := true }
  change ∃ q', addGroup q group = .ok q' ∧
    Promoted (publishGroup (newWorkers p group names).1 group names workers) q'
  have hnodup : workers.Nodup := List.nodup_range.map fun i j e => Nat.add_left_cancel e
  have hadd : addGroup q group = .ok (publishGroup
      (workers.foldl (fun p r => p.modify r ready) (newWorkers q group names).1) group names
        workers) := by
    have hfree : q.groups.contains group.name = false := by
      rw [← Bool.not_eq_true, Dict.contains_iff]
      exact hnew
    have hres : resolveGroupHandlers q group = .ok names := hnames
    unfold addGroup
    rw [hfree, hres]
    rfl
  rw [modifyAll _ _ _ hnodup] at hadd
  refine ⟨_, hadd, ?_, ?_, ?_⟩
  · refine ⟨fun r => if r ∈ workers then ready ((newWorkers q group names).1.heap r)
      else (newWorkers q group names).1.heap r, ?_⟩
    unfold publishGroup
    congr 1
    apply Dict.setAll_congr
    intro r hr
    obtain ⟨k, hk, rfl⟩ := List.mem_map.mp hr
    simp [hr, newWorkers, List.mem_range.mp hk, newWorker, ready, launchWorker, q]
  · intro r hr
    change r < p.nextRef + group.processCount at hr
    by_cases hold : r < p.nextRef
    · have hnot : r ∉ workers := by
        intro hmem
        obtain ⟨k, -, rfl⟩ := List.mem_map.mp hmem
        exact absurd hold (by simp)
      have hq := newWorkers_heap (p := q) group names hold
      have hp := newWorkers_heap group names hold
      simp only [publishGroup, hnot, ↓reduceIte, hq, hp]
      exact h.heap r hold
    · obtain ⟨k, rfl⟩ := Nat.exists_eq_add_of_le (Nat.le_of_not_lt hold)
      have hk : k < group.processCount := Nat.lt_of_add_lt_add_left hr
      have hmem : p.nextRef + k ∈ workers := List.mem_map.mpr ⟨k, List.mem_range.mpr hk, rfl⟩
      simp [publishGroup, hmem, newWorkers, hk, ready, q]
  · intro r hr
    change r < p.nextRef + group.processCount at hr
    by_cases hold : r < p.nextRef
    · have hp := newWorkers_heap group names hold
      simp only [publishGroup, hp]
      exact h.blank r hold
    · have hin : p.nextRef ≤ r ∧ r < p.nextRef + group.processCount :=
        ⟨Nat.le_of_not_lt hold, hr⟩
      simp [publishGroup, newWorkers, hin, newWorker]

theorem declareGroups_promoted (hq : Prepared q) (h : Promoted p q)
    (hn : (groups.map WorkerGroup.name).Nodup)
    (hnew : ∀ g ∈ groups, g.name ∉ p.groups.keys) {failure : Option Raised}
    (hd : declareGroups groups p = (p', failure)) :
    ∃ q', Prepared q' ∧ Promoted p' q' ∧
      (failure = none → groups.foldlM addGroup q = .ok q') := by
  induction groups generalizing p q with
  | nil =>
    cases hd
    exact ⟨q, hq, h, fun _ => rfl⟩
  | cons g groups ih =>
    unfold declareGroups at hd
    split at hd
    · cases hd
      refine ⟨q, hq, h, ?_⟩
      intro hc
      cases hc
    · rename_i p₁ hg
      obtain ⟨hgroups, q₁, hq₁, h₁⟩ := declareGroup_promoted h (hnew g (List.mem_cons_self ..)) hg
      obtain ⟨hfirst, hrest⟩ := List.nodup_cons.mp hn
      have hnew₁ : ∀ g' ∈ groups, g'.name ∉ p₁.groups.keys := by
        intro g' hg'
        rw [hgroups, Dict.mem_keys_set]
        rintro (hc | hc)
        · exact hfirst (hc ▸ List.mem_map_of_mem hg')
        · exact hnew g' (List.mem_cons_of_mem _ hg') hc
      obtain ⟨q', hprep, hprom, hok⟩ := ih (addGroup_prepared hq hq₁) h₁ hrest hnew₁ hd
      refine ⟨q', hprep, hprom, ?_⟩
      intro hf
      rw [List.foldlM_cons, hq₁]
      exact hok hf

/-! ## The launches and the waits -/

/-- The launches in front of `r` succeed, that of `r` does not. -/
structure FirstFailure (world : World) (l before : List Ref) (r : Ref) (after : List Ref) :
    Prop where
  split : l = before ++ r :: after
  started : ∀ r' ∈ before, (world.fate r').launch = .started
  failed : (world.fate r).launch ≠ .started

theorem launchWorkers_spec (hn : l.Nodup) (p : Pool) :
    (∃ q, launchWorkers world l p = (q, none) ∧ Touched p q l ∧
      (∀ r ∈ l, (world.fate r).launch = .started) ∧
      ∀ r ∈ l, q.heap r = launchWorker (p.heap r) .started) ∨
    ∃ q before r after, launchWorkers world l p = (q, some launchFailed) ∧ Touched p q l ∧
      FirstFailure world l before r after ∧
      (∀ r' ∈ before, q.heap r' = launchWorker (p.heap r') .started) ∧
      q.heap r = launchWorker (p.heap r) (world.fate r).launch ∧
      ∀ r' ∈ after, q.heap r' = p.heap r' := by
  induction l generalizing p with
  | nil =>
    left
    refine ⟨p, rfl, Touched.refl _ _, ?_, ?_⟩ <;>
    · intro r hr
      cases hr
  | cons r l ih =>
    obtain ⟨hr, hn⟩ := List.nodup_cons.mp hn
    have apart : ∀ r' ∈ l, r' ≠ r := by
      rintro r' hr' rfl
      exact hr hr'
    by_cases ho : (world.fate r).launch = .started
    · rcases ih hn (p.modify r (launchWorker · .started)) with
        ⟨q, hq, htouched, hall, hheap⟩ |
        ⟨q, before, r₁, after, hq, htouched, hfirst, hbefore, hfailed, hafter⟩
      · left
        refine ⟨q, ?_, htouched.cons, ?_, ?_⟩
        · simp only [launchWorkers, ho, ↓reduceIte]
          exact hq
        · intro r' hr'
          rcases List.mem_cons.mp hr' with rfl | hr'
          · exact ho
          · exact hall r' hr'
        · intro r' hr'
          rcases List.mem_cons.mp hr' with rfl | hr'
          · rw [htouched.others r' hr]
            simp
          · rw [hheap r' hr']
            simp [apart r' hr']
      · right
        have hsub : ∀ r' ∈ before ++ r₁ :: after, r' ≠ r := by
          rw [← hfirst.split]
          exact apart
        refine ⟨q, r :: before, r₁, after, ?_, htouched.cons, ⟨?_, ?_, hfirst.failed⟩, ?_, ?_, ?_⟩
        · simp only [launchWorkers, ho, ↓reduceIte]
          exact hq
        · rw [hfirst.split]
          rfl
        · intro r' hr'
          rcases List.mem_cons.mp hr' with rfl | hr'
          · exact ho
          · exact hfirst.started r' hr'
        · intro r' hr'
          rcases List.mem_cons.mp hr' with rfl | hr'
          · rw [htouched.others r' hr]
            simp
          · rw [hbefore r' hr']
            simp [hsub r' (List.mem_append_left _ hr')]
        · rw [hfailed]
          simp [hsub r₁ (List.mem_append_right _ (List.mem_cons_self ..))]
        · intro r' hr'
          rw [hafter r' hr']
          simp [hsub r' (List.mem_append_right _ (List.mem_cons_of_mem _ hr'))]
    · right
      refine ⟨p.modify r (launchWorker · (world.fate r).launch), [], r, l, ?_,
        (Touched.refl _ _).cons, ⟨rfl, ?_, ho⟩, ?_, ?_, ?_⟩
      · simp only [launchWorkers, ho, ↓reduceIte]
      · intro r' hr'
        cases hr'
      · intro r' hr'
        cases hr'
      · simp
      · intro r' hr'
        simp [apart r' hr']

/-- The worker after its wait for READY: its process may have ended, and it is alive if the
message came. -/
structure Awaited (w v : WorkerState) (failure : Option Raised) : Prop where
  rest : v = { w with process := v.process, alive := v.alive }
  process : v.process = w.process ∨ w.process = some .running ∧ v.process = some .exited
  alive : failure = none → v.alive = true

theorem awaitWorkerReady_awaited (w : WorkerState) (turns : List (Bool × AwaitOutcome)) :
    Awaited w (awaitWorkerReady w turns).1 (awaitWorkerReady w turns).2 := by
  induction turns generalizing w with
  | nil =>
    refine ⟨rfl, .inl rfl, ?_⟩
    intro h
    cases h
  | cons turn turns ih =>
    obtain ⟨ended, o⟩ := turn
    have hfound : finds ended w = { w with process := (finds ended w).process } := by
      unfold finds
      split <;> rfl
    have hprocess : (finds ended w).process = w.process ∨
        w.process = some .running ∧ (finds ended w).process = some .exited := by
      unfold finds
      split
      · rename_i hw
        exact .inr ⟨hw.2, rfl⟩
      · exact .inl rfl
    unfold awaitWorkerReady
    dsimp only
    split
    · refine ⟨?_, hprocess, ?_⟩
      · rw [hfound]
      · intro h
        cases h
    · refine ⟨?_, hprocess, fun _ => rfl⟩
      rw [hfound]
    · obtain ⟨hrest, hproc, halive⟩ := ih (finds ended w)
      refine ⟨?_, ?_, halive⟩
      · rw [hrest, hfound]
      · rcases hproc with heq | ⟨hrun, hexit⟩
        · rw [heq]
          exact hprocess
        · right
          refine ⟨?_, hexit⟩
          rcases hprocess with heq | ⟨-, hc⟩
          · rw [← heq]
            exact hrun
          · rw [hc] at hrun
            cases hrun

theorem Awaited.manageable {failure : Option Raised} (h : Awaited w v failure)
    (hm : Manageable w) : Manageable v := by
  intro x hx
  rcases h.process with heq | ⟨-, hexit⟩
  · rw [heq] at hx
    exact hm x hx
  · rw [hexit] at hx
    cases hx
    exact .inr rfl

theorem awaitInitialStartup_spec (hn : l.Nodup) (p : Pool) :
    ∃ q failure, awaitInitialStartup world l p = (q, failure) ∧ Touched p q l ∧
      (∀ r ∈ l, q.heap r = p.heap r ∨ ∃ f, Awaited (p.heap r) (q.heap r) f) ∧
      (failure = none → ∀ r ∈ l, Awaited (p.heap r) (q.heap r) none) := by
  induction l generalizing p with
  | nil =>
    refine ⟨p, none, rfl, Touched.refl _ _, ?_, ?_⟩
    · intro r hr
      cases hr
    · intro _ r hr
      cases hr
  | cons r l ih =>
    obtain ⟨hr, hn⟩ := List.nodup_cons.mp hn
    have apart : ∀ r' ∈ l, r' ≠ r := by
      rintro r' hr' rfl
      exact hr hr'
    have hawait := awaitWorkerReady_awaited (p.heap r) (world.fate r).turns
    generalize hout : awaitWorkerReady (p.heap r) (world.fate r).turns = out at hawait
    obtain ⟨v, failure⟩ := out
    cases failure with
    | some e =>
      refine ⟨p.modify r (fun _ => v), some e, ?_, (Touched.refl _ _).cons, ?_, ?_⟩
      · simp only [awaitInitialStartup, hout]
      · intro r' hr'
        rcases List.mem_cons.mp hr' with rfl | hr'
        · right
          exact ⟨some e, by simpa using hawait⟩
        · left
          simp [apart r' hr']
      · intro hc
        cases hc
    | none =>
      obtain ⟨q, failure, hq, htouched, hsome, hall⟩ := ih hn (p.modify r fun _ => v)
      have hself : q.heap r = v := by
        rw [htouched.others r hr]
        simp
      have hother : ∀ r' ∈ l, (p.modify r fun _ => v).heap r' = p.heap r' := by
        intro r' hr'
        simp [apart r' hr']
      refine ⟨q, failure, ?_, htouched.cons, ?_, ?_⟩
      · simp only [awaitInitialStartup, hout]
        exact hq
      · intro r' hr'
        rcases List.mem_cons.mp hr' with rfl | hr'
        · right
          exact ⟨none, by rw [hself]; exact hawait⟩
        · have := hsome r' hr'
          rw [hother r' hr'] at this
          exact this
      · intro hnone r' hr'
        rcases List.mem_cons.mp hr' with rfl | hr'
        · rw [hself]
          exact hawait
        · have := hall hnone r' hr'
          rw [hother r' hr'] at this
          exact this

/-! ## The whole call -/

/-- The worker whose launch is the first to fail is one whose process cannot be started. -/
def StartRaises (registry : List String) (groups : List WorkerGroup)
    (startupTimeoutSeconds : ℚ) (world : World) : Prop :=
  world.logging = true ∧ groups ≠ [] ∧ 0 < startupTimeoutSeconds ∧
  (groups.map WorkerGroup.name).Nodup ∧ world.resultQueue = true ∧
  ∃ p, declareGroups groups { emptyPool registry with resultQueue := false } = (p, none) ∧
    ∃ before r after, FirstFailure world p.workers.values before r after ∧
      (world.fate r).launch = .startRaises

/-- The call returned, or it raised a platform error and left nothing behind. -/
def AllOrNothing (result : Startup × Option Raised) : Prop :=
  result.2 = none ∨ (∃ e, result.2 = some (.platform e)) ∧
    (∀ r ∈ result.1.pool.workers.values,
      Stopped (result.1.pool.heap r) (result.1.signalled r) ∧
      (result.1.pool.heap r).taskQueue = false ∧ (result.1.pool.heap r).lifecycleQueue = false) ∧
    result.1.pool.resultQueue = false ∧ result.1.logging = false

theorem startupError_platform (e : Raised) : ∃ pe, startupError e = .platform pe := by
  cases e <;> exact ⟨_, rfl⟩

theorem FirstFailure.unique {before before' after after' : List Ref} {r' : Ref}
    (h : FirstFailure world l before r after) (h' : FirstFailure world l before' r' after') :
    r = r' := by
  obtain ⟨hl, hs, hf⟩ := h
  obtain ⟨hl', hs', hf'⟩ := h'
  subst hl
  induction before generalizing before' with
  | nil =>
    cases before' with
    | nil => exact (List.cons.inj hl').1
    | cons b before' =>
      obtain ⟨rfl, -⟩ := List.cons.inj hl'
      exact absurd (hs' r (List.mem_cons_self ..)) hf
  | cons b before ih =>
    cases before' with
    | nil =>
      obtain ⟨rfl, -⟩ := List.cons.inj hl'
      exact absurd (hs b (List.mem_cons_self ..)) hf'
    | cons b' before' =>
      obtain ⟨-, hrest⟩ := List.cons.inj hl'
      exact ih (fun r hr => hs r (List.mem_cons_of_mem _ hr))
        (fun r hr => hs' r (List.mem_cons_of_mem _ hr)) hrest

theorem emptyPool_promoted (registry : List String) :
    Promoted { emptyPool registry with resultQueue := false } (emptyPool registry) := by
  refine ⟨⟨_, rfl⟩, ?_, ?_⟩
  · intro r hr
    exact absurd hr (Nat.not_lt_zero r)
  · intro r hr
    exact absurd hr (Nat.not_lt_zero r)

/-- The workers of a declared pool are distinct and have no process yet. -/
theorem Promoted.declared (h : Promoted p q) (hq : Prepared q) :
    p.workers.values.Nodup ∧ ∀ r ∈ p.workers.values, (p.heap r).process = none := by
  obtain ⟨heap, rfl⟩ := h.tables
  refine ⟨hq.consistent.books.values_nodup, ?_⟩
  intro r hr
  exact h.blank r (hq.consistent.books.allocated r (inTable_values.mpr hr))

theorem declared_blank {registry : List String} {failure : Option Raised}
    (hnames : (groups.map WorkerGroup.name).Nodup)
    (hd : declareGroups groups { emptyPool registry with resultQueue := false } = (p, failure)) :
    p.workers.values.Nodup ∧ ∀ r ∈ p.workers.values, (p.heap r).process = none := by
  obtain ⟨q, hq, hprom, -⟩ := declareGroups_promoted (emptyPool_prepared registry)
    (emptyPool_promoted registry) hnames (fun g _ hc => by cases hc) hd
  exact hprom.declared hq

/-- What the body of the `try` leaves: either every worker can be stopped, or one of them has a
process that was never started. -/
def Left (registry : List String) (groups : List WorkerGroup) (startupTimeoutSeconds : ℚ)
    (world : World) (s : Startup) (failure : Option Raised) : Prop :=
  s.pool.workers.values.Nodup ∧
    (¬StartRaises registry groups startupTimeoutSeconds world ∧
        (∀ r ∈ s.pool.workers.values, Manageable (s.pool.heap r)) ∨
      StartRaises registry groups startupTimeoutSeconds world ∧ failure ≠ none ∧
        ∃ before r after, s.pool.workers.values = before ++ r :: after ∧
          (∀ r' ∈ before, Manageable (s.pool.heap r')) ∧
          (s.pool.heap r).process = some .unstarted)

theorem manageable_blank (h : w.process = none) : Manageable w := by
  intro x hx
  rw [h] at hx
  cases hx

theorem manageable_started (w : WorkerState) : Manageable (launchWorker w .started) := by
  intro x hx
  cases hx
  exact .inl rfl

section Body

variable {registry : List String} {startupTimeoutSeconds : ℚ} {failure : Option Raised}

theorem left_blank (hno : ¬StartRaises registry groups startupTimeoutSeconds world)
    (hn : s.pool.workers.values.Nodup)
    (hb : ∀ r ∈ s.pool.workers.values, (s.pool.heap r).process = none) :
    Left registry groups startupTimeoutSeconds world s failure :=
  ⟨hn, .inl ⟨hno, fun r hr => manageable_blank (hb r hr)⟩⟩

/-- Every launch went through: no worker is unstarted, whatever came of the waits. -/
theorem left_launched
    (hd : declareGroups groups { emptyPool registry with resultQueue := false } = (p, none))
    (hn : p.workers.values.Nodup) (hworkers : s.pool.workers = p.workers)
    (hall : ∀ r ∈ p.workers.values, (world.fate r).launch = .started)
    (hm : ∀ r ∈ p.workers.values, Manageable (s.pool.heap r)) :
    Left registry groups startupTimeoutSeconds world s failure := by
  unfold Left
  rw [hworkers]
  refine ⟨hn, .inl ⟨?_, hm⟩⟩
  rintro ⟨-, -, -, -, -, p', hd', before, r, after, hfirst, -⟩
  rw [hd] at hd'
  cases hd'
  apply hfirst.failed
  apply hall r
  rw [hfirst.split]
  exact List.mem_append_right _ (List.mem_cons_self ..)

/-- The launch of `r` failed before its process was made: the workers behind it were not
reached. -/
theorem left_failed {before after : List Ref}
    (hd : declareGroups groups { emptyPool registry with resultQueue := false } = (p, none))
    (hn : p.workers.values.Nodup) (hworkers : s.pool.workers = p.workers)
    (hfirst : FirstFailure world p.workers.values before r after)
    (ho : (world.fate r).launch ≠ .startRaises)
    (hbefore : ∀ r' ∈ before, Manageable (s.pool.heap r'))
    (hfailed : (s.pool.heap r).process = none)
    (hafter : ∀ r' ∈ after, (s.pool.heap r').process = none) :
    Left registry groups startupTimeoutSeconds world s failure := by
  unfold Left
  rw [hworkers]
  refine ⟨hn, .inl ⟨?_, ?_⟩⟩
  · rintro ⟨-, -, -, -, -, p', hd', before', r', after', hfirst', ho'⟩
    rw [hd] at hd'
    cases hd'
    apply ho
    rw [hfirst.unique hfirst']
    exact ho'
  · intro r' hr'
    rw [hfirst.split] at hr'
    rcases List.mem_append.mp hr' with hr' | hr'
    · exact hbefore r' hr'
    · rcases List.mem_cons.mp hr' with rfl | hr'
      · exact manageable_blank hfailed
      · exact manageable_blank (hafter r' hr')

/-- A launch that fails in another way than in `Process.start` leaves no process behind. -/
theorem launch_no_process (hw : w.process = none) {outcome : LaunchOutcome}
    (hs : outcome ≠ .started) (hr : outcome ≠ .startRaises) :
    (launchWorker w outcome).process = none := by
  cases outcome with
  | started => exact absurd rfl hs
  | startRaises => exact absurd rfl hr
  | setupRaises => exact hw
  | queueRaises => exact hw

end Body

theorem startWorkers_spec (registry : List String) (groups : List WorkerGroup)
    (startupTimeoutSeconds : ℚ) (world : World) :
    ∃ s failure, startWorkers registry groups startupTimeoutSeconds world = (s, failure) ∧
      Left registry groups startupTimeoutSeconds world s failure := by
  unfold startWorkers
  dsimp only
  split
  · rename_i hlog
    refine ⟨_, _, rfl, left_blank ?_ List.nodup_nil (fun r hr => by cases hr)⟩
    rintro ⟨h, -⟩
    simp [h] at hlog
  rename_i hlog
  split
  · rename_i hnil
    refine ⟨_, _, rfl, left_blank ?_ List.nodup_nil (fun r hr => by cases hr)⟩
    rintro ⟨-, h, -⟩
    exact h hnil
  rename_i hne
  split
  · rename_i htime
    refine ⟨_, _, rfl, left_blank ?_ List.nodup_nil (fun r hr => by cases hr)⟩
    rintro ⟨-, -, h, -⟩
    exact absurd h (not_lt.mpr htime)
  rename_i htime
  split
  · rename_i hdup
    refine ⟨_, _, rfl, left_blank ?_ List.nodup_nil (fun r hr => by cases hr)⟩
    rintro ⟨-, -, -, h, -⟩
    exact hdup h
  rename_i hnames
  split
  · rename_i p e hd
    obtain ⟨hnodup, hblank⟩ := declared_blank (not_not.mp hnames) hd
    refine ⟨_, _, rfl, left_blank ?_ hnodup hblank⟩
    rintro ⟨-, -, -, -, -, p', hd', -⟩
    rw [hd] at hd'
    cases hd'
  rename_i p hd
  obtain ⟨hnodup, hblank⟩ := declared_blank (not_not.mp hnames) hd
  split
  · rename_i hqueue
    refine ⟨_, _, rfl, left_blank ?_ hnodup hblank⟩
    rintro ⟨-, -, -, -, h, -⟩
    simp [h] at hqueue
  rename_i hqueue
  rcases @launchWorkers_spec _ world hnodup { p with resultQueue := true } with
    ⟨q, hq, htouched, hall, hheap⟩ |
    ⟨q, before, r, after, hq, htouched, hfirst, hbefore, hfailed, hafter⟩
  · have hworkers : q.workers = p.workers := htouched.workers
    obtain ⟨q', failure, hq', htouched', hsome, -⟩ := @awaitInitialStartup_spec _ world
      (by rw [hworkers]; exact hnodup : q.workers.values.Nodup) q
    simp only [hq, hq']
    refine ⟨_, _, rfl, left_launched hd hnodup (htouched'.workers.trans hworkers) hall ?_⟩
    intro r hr
    have hm : Manageable (q.heap r) := by
      rw [hheap r hr]
      exact manageable_started _
    rcases hsome r (by rw [hworkers]; exact hr) with heq | ⟨f, hf⟩
    · rw [heq]
      exact hm
    · exact hf.manageable hm
  · have hsplit : p.workers.values = before ++ r :: after := hfirst.split
    have hbefore' : ∀ r' ∈ before, Manageable (q.heap r') := by
      intro r' hr'
      rw [hbefore r' hr']
      exact manageable_started _
    simp only [hq]
    refine ⟨_, _, rfl, ?_⟩
    by_cases ho : (world.fate r).launch = .startRaises
    · refine ⟨by rw [htouched.workers]; exact hnodup, .inr ⟨⟨by simpa using hlog, hne,
        not_le.mp htime, not_not.mp hnames, by simpa using hqueue, p, hd, before, r, after, hfirst,
        ho⟩, by simp, before, r, after, ?_, hbefore', ?_⟩⟩
      · rw [htouched.workers]
        exact hsplit
      · rw [hfailed, ho]
        rfl
    · refine left_failed hd hnodup htouched.workers hfirst ho hbefore' ?_ ?_
      · rw [hfailed]
        refine launch_no_process (hblank r ?_) hfirst.failed ho
        rw [hsplit]
        exact List.mem_append_right _ (List.mem_cons_self ..)
      · intro r' hr'
        rw [hafter r' hr']
        apply hblank r'
        rw [hsplit]
        exact List.mem_append_right _ (List.mem_cons_of_mem _ hr')

/-- With every handle in order the clean-up goes through. -/
theorem abortStartup_clean (hn : s.pool.workers.values.Nodup)
    (hm : ∀ r ∈ s.pool.workers.values, Manageable (s.pool.heap r)) :
    ∃ t, abortStartup world s = (t, none) ∧
      (∀ r ∈ t.pool.workers.values, Stopped (t.pool.heap r) (t.signalled r) ∧
        (t.pool.heap r).taskQueue = false ∧ (t.pool.heap r).lifecycleQueue = false) ∧
      t.pool.resultQueue = false ∧ t.logging = false := by
  let closing : Startup := { s with pool := { s.pool with accepting := false, closing := true } }
  obtain ⟨t, ht, htouched, hstopped⟩ := @stopWorkers_stops _ world closing hn hm
  have hworkers : t.pool.workers = s.pool.workers := htouched.workers
  refine ⟨{ t with pool := closeQueues t.pool, logging := false }, ?_, ?_, rfl, rfl⟩
  · unfold abortStartup
    simp only [closing] at ht
    simp only [ht]
  · intro r hr
    change r ∈ t.pool.workers.values at hr
    have hs := hstopped r (by rw [← hworkers]; exact hr)
    simp only [closeQueues, hr, ↓reduceIte]
    refine ⟨?_, trivial, trivial⟩
    intro x hx
    exact hs x hx

/-- The constructor is all-or-nothing, unless the first launch to fail fails in
`Process.start`. -/
theorem startPool_all_or_nothing (registry : List String) (groups : List WorkerGroup)
    (startupTimeoutSeconds : ℚ) (world : World) :
    AllOrNothing (startPool registry groups startupTimeoutSeconds world) ↔
      ¬StartRaises registry groups startupTimeoutSeconds world := by
  obtain ⟨s, failure, hs, hn, ⟨hno, hm⟩ | ⟨hraise, hf, before, r, after, hsplit, hb, hr⟩⟩ :=
    startWorkers_spec registry groups startupTimeoutSeconds world
  · simp only [hno, not_false_eq_true, iff_true]
    cases failure with
    | none =>
      left
      simp only [startPool, hs]
    | some e =>
      right
      obtain ⟨t, ht, hclean⟩ := @abortStartup_clean world _ hn hm
      obtain ⟨pe, hpe⟩ := startupError_platform e
      simp only [startPool, hs, ht]
      exact ⟨⟨pe, by rw [hpe]⟩, hclean⟩
  · simp only [hraise, not_true_eq_false, iff_false]
    obtain ⟨e, rfl⟩ := Option.ne_none_iff_exists'.mp hf
    have hn' : (before ++ r :: after).Nodup := by
      rw [← hsplit]
      exact hn
    let closing : Startup := { s with pool := { s.pool with accepting := false, closing := true } }
    obtain ⟨t, ht⟩ := @stopWorkers_raises _ world closing _ _ hn' hb hr
    have habort : abortStartup world s =
        (t, some (.assertionError "can only join a started process")) := by
      unfold abortStartup
      simp only [closing] at ht
      simp only [hsplit, ht]
    rintro (hc | ⟨⟨pe, hpe⟩, -⟩)
    · simp only [startPool, hs, habort] at hc
      cases hc
    · simp only [startPool, hs, habort] at hpe
      cases hpe

/-- A pool that has started is the constructed one; processes may have ended since READY. -/
theorem startPool_constructs {registry : List String} {startupTimeoutSeconds : ℚ}
    (h : startPool registry groups startupTimeoutSeconds world = (s, none)) :
    ∃ q heap, construct registry groups = .ok q ∧ s.pool = { q with heap := heap } ∧
      ∀ r ∈ s.pool.workers.values, s.pool.heap r = q.heap r ∨
        (q.heap r).process = some .running ∧
          s.pool.heap r = { q.heap r with process := some .exited } := by
  unfold startPool at h
  split at h
  swap
  · split at h <;> cases h
  rename_i t hstart
  cases h
  unfold startWorkers at hstart
  dsimp only at hstart
  split at hstart
  · cases hstart
  split at hstart
  · cases hstart
  rename_i hne
  split at hstart
  · cases hstart
  split at hstart
  · cases hstart
  rename_i hnames
  split at hstart
  · cases hstart
  rename_i p hd
  obtain ⟨q, hq, hprom, hok⟩ := declareGroups_promoted (emptyPool_prepared registry)
    (emptyPool_promoted registry) (not_not.mp hnames) (fun g _ hc => by cases hc) hd
  obtain ⟨hnodup, -⟩ := hprom.declared hq
  obtain ⟨qheap, hqtables⟩ := hprom.tables
  split at hstart
  · cases hstart
  rcases @launchWorkers_spec _ world hnodup { p with resultQueue := true } with
    ⟨p₁, hp₁, htouched, -, hheap⟩ | ⟨p₁, before, r, after, hp₁, -⟩
  swap
  · simp only [hp₁] at hstart
    cases hstart
  have hworkers : p₁.workers = p.workers := htouched.workers
  obtain ⟨p₂, failure, hp₂, htouched', -, hall⟩ := @awaitInitialStartup_spec _ world
    (by rw [hworkers]; exact hnodup : p₁.workers.values.Nodup) p₁
  simp only [hp₁, hp₂] at hstart
  cases hstart
  obtain ⟨heap₁, hrest₁⟩ := htouched.rest
  obtain ⟨heap₂, hrest₂⟩ := htouched'.rest
  refine ⟨q, heap₂, ?_, ?_, ?_⟩
  · unfold construct
    rw [if_neg hne]
    exact hok rfl
  · change p₂ = _
    rw [hrest₂, hrest₁, hqtables]
  · intro r hr
    change r ∈ p₂.workers.values at hr
    rw [htouched'.workers] at hr
    obtain ⟨hrest, hprocess, halive⟩ := hall rfl r hr
    have halive := halive rfl
    rw [hworkers] at hr
    have hlaunched : p₁.heap r = launchWorker (p.heap r) .started := hheap r hr
    have hin : r < p.nextRef := by
      have := hq.consistent.books.allocated r
      rw [hqtables] at this
      exact this (inTable_values.mpr hr)
    have hready := hprom.heap r hin
    change p₂.heap r = q.heap r ∨ (q.heap r).process = some .running ∧
      p₂.heap r = { q.heap r with process := some .exited }
    rw [hrest, halive, hready, hlaunched]
    rw [hlaunched] at hprocess
    rcases hprocess with heq | ⟨-, heq⟩
    · left
      rw [heq]
    · right
      rw [heq]
      exact ⟨rfl, rfl⟩

/-! ## Construction and registration -/

variable {ι : Type} [DecidableEq ι] {σ : State ι} {e : Event ι} {i : ι} {job : Registration}

/-- Every launch ends as given; nobody waits, and processes end when they are told to. -/
def worldOf (launch : Ref → LaunchOutcome) : World where
  logging := true
  resultQueue := true
  fate r := ⟨launch r, [(false, .ready)], fun k => k == .rejoin⟩

/-- Any processes that run may end one after the other. -/
theorem processes_end (l : List Ref) (hn : l.Nodup) (hr : Reachable σ)
    (hl : ∀ r ∈ l, (σ.pool.heap r).process = some .running) :
    Reachable { σ with pool := { σ.pool with heap := fun r =>
      if r ∈ l then { σ.pool.heap r with process := some .exited } else σ.pool.heap r } } := by
  induction l generalizing σ with
  | nil => simpa using hr
  | cons r rest ih =>
    obtain ⟨hnew, hn⟩ := List.nodup_cons.mp hn
    have hstep : Reachable (next σ (.processExit r)) :=
      hr.next (e := .processExit r) ⟨hl r List.mem_cons_self, rfl⟩
    have apart : ∀ r' ∈ rest, r' ≠ r := fun r' hr' he => hnew (he ▸ hr')
    have ended := ih hn hstep fun r' hr' => by
      simpa [next, State.modify, apart r' hr'] using hl r' (List.mem_cons_of_mem _ hr')
    refine (congrArg Reachable ?_).mp ended
    simp only [next, State.modify, Pool.modify, State.mk.injEq, Pool.mk.injEq, true_and, and_true]
    funext r'
    by_cases he : r' = r
    · subst he
      simp [hnew]
    · simp [he]

/-- The pool that a constructor call returns is a reachable state of a running pool: processes
may have ended since they reported READY, and nothing else has happened. -/
theorem startPool_reachable {registry : List String} {startupTimeoutSeconds : ℚ}
    (hn : registry.Nodup)
    (h : startPool registry groups startupTimeoutSeconds world = (s, none)) (pipe : Pipe)
    (logs : Logs) : ∃ t : State ι, Reachable t ∧ (∃ heap, t.pool = { s.pool with heap := heap }) ∧
      ∀ r ∈ s.pool.workers.values, t.pool.heap r = s.pool.heap r := by
  obtain ⟨q, heap, hq, hpool, hall⟩ := startPool_constructs h
  have first : Reachable (started q pipe logs : State ι) :=
    Transitions.System.reachable_init ⟨registry, groups, q, pipe, logs, hn, hq, rfl⟩
  have values : s.pool.workers = q.workers := by rw [hpool]
  -- Those whose handle differs from the one that the constructor left are the ones that ended.
  obtain ⟨gone, hgone⟩ : ∃ l, l = q.workers.values.filter fun r =>
    decide ((s.pool.heap r).process ≠ (q.heap r).process) := ⟨_, rfl⟩
  have differs : ∀ r ∈ s.pool.workers.values, (s.pool.heap r).process ≠ (q.heap r).process →
      (q.heap r).process = some .running ∧
        s.pool.heap r = { q.heap r with process := some .exited } := fun r hr hne =>
    (hall r hr).resolve_left fun he => hne (he ▸ rfl)
  have member : ∀ r, r ∈ gone ↔ r ∈ s.pool.workers.values ∧
      (s.pool.heap r).process ≠ (q.heap r).process := by
    intro r
    rw [hgone, List.mem_filter, decide_eq_true_eq, values]
  let ended : Ref → WorkerState := fun r =>
    if r ∈ gone then { q.heap r with process := some .exited } else q.heap r
  refine ⟨_, processes_end gone ?_ first fun r hr => ?_, ⟨ended, ?_⟩, fun r hr => ?_⟩
  · rw [hgone]
    exact (construct_prepared hq).consistent.books.values_nodup.filter _
  · obtain ⟨hr, hd⟩ := (member r).mp hr
    exact (differs r hr hd).1
  · show ({ q with heap := ended } : Pool) = { s.pool with heap := ended }
    rw [hpool]
  · have hr : r ∈ s.pool.workers.values := hr
    show ended r = s.pool.heap r
    simp only [ended, member]
    by_cases hd : (s.pool.heap r).process = (q.heap r).process
    · rw [if_neg fun hm => hm.2 hd]
      rcases hall r hr with he | ⟨hrun, he⟩
      · exact he.symm
      · rw [he, hrun] at hd
        cases hd
    · rw [if_pos ⟨hr, hd⟩]
      exact (differs r hr hd).2.symm

/-- A group of two workers, both of which get ready. -/
theorem startPool_reachable_pair : ∃ (s : Startup) (t : State Unit), Reachable t ∧
    startPool ["echo"] [restartPair] 300 (worldOf fun _ => .started) = (s, none) ∧
    ∀ r ∈ s.pool.workers.values, t.pool.heap r = s.pool.heap r := by
  have returned : (startPool ["echo"] [restartPair] 300 (worldOf fun _ => .started)).2 = none := by
    decide +kernel
  obtain ⟨t, hr, -, hheap⟩ := startPool_reachable (ι := Unit) (List.nodup_singleton "echo")
    (Prod.ext rfl returned) .wide {}
  exact ⟨_, t, hr, Prod.ext rfl returned, hheap⟩

/-- Whether nothing is left of a failed start. The constructor returns, or it raises a platform
error after it has stopped every process it had started, closed its queues and stopped its log
manager, exactly when the first launch to fail did not fail in `Process.start`. And a step of
`register_worker_group` leaves the tables as they are unless it publishes the group; a step
that fails, fails with a platform error, and the call goes on to stop every process it had
started and to raise that error, exactly when it is not a launch that failed in
`Process.start`. -/
theorem startup_unwinds (registry : List String) (groups : List WorkerGroup)
    (startupTimeoutSeconds : ℚ) (world : World) (h : Reachable σ)
    (hj : UserPc.job (σ.user i) = some job) (he : Enabled σ e) (ha : Event.actor e = .user i) :
    (AllOrNothing (startPool registry groups startupTimeoutSeconds world) ↔
      ¬StartRaises registry groups startupTimeoutSeconds world) ∧
    ((next σ e).user i ≠ .returned → SameTables σ.pool (next σ e).pool) ∧
    ∀ x, (next σ e).user i = disposeFrom job.workers (.raise x) →
      (∃ pe, x = .platform pe) ∧
      (Progress.Finishes Seen (unloads i) (Unwound i job x) ⟨next σ e, fun _ => false⟩ ↔
        ∀ r rest, e ≠ .launch i job r rest .startRaises) ∧
      ∀ (u : State ι) e, unloads i e → SameTables u.pool (next u e).pool :=
  ⟨startPool_all_or_nothing registry groups startupTimeoutSeconds world,
    registration_unwinds h hj he ha⟩

/-- One group of one worker whose definition cannot be pickled: the constructor raises an
`AssertionError`, and its result queue and its log manager stay. -/
theorem unpicklable_definition_leaks :
    let result := startPool ["echo"] [sampleGroup] 300 (worldOf fun _ => .startRaises)
    ¬AllOrNothing result ∧
      result.2 = some (.assertionError "can only join a started process") ∧
      result.1.pool.resultQueue = true ∧ result.1.logging = true := by
  have raised : (startPool ["echo"] [sampleGroup] 300 (worldOf fun _ => .startRaises)).2 =
      some (.assertionError "can only join a started process") := by decide +kernel
  refine ⟨?_, raised, by decide +kernel, by decide +kernel⟩
  rintro (h | ⟨⟨e, h⟩, -⟩) <;>
  · rw [raised] at h
    cases h

def rivalJob : Registration := ⟨rivalGroup, ["echo"], [1]⟩

/-- A second group is registered, and its worker started. -/
def rivalStarted : List (Event Unit) :=
  [.registerCall () rivalGroup, .ensure () rivalJob, .launch () rivalJob 1 [] .started]

/-- The queues of the second of two workers cannot be made; the worker of a group under
registration reports a failure. -/
theorem failed_starts_unwind :
    AllOrNothing (startPool ["echo"] [restartPair] 300
      (worldOf fun r => if r = 1 then .queueRaises else .started)) ∧
    ∃ (s : State Unit) (x : Raised), (∃ pe, x = .platform pe) ∧
      s.user () = .disposing .mark 1 [] (.raise x) ∧
      Progress.Finishes Seen (unloads ()) (Unwound () rivalJob x) ⟨s, fun _ => false⟩ := by
  have hr : Reachable (rivalStarted.foldl next (started (constructed ["echo"] [sampleGroup]))) :=
    reachable_replay (by decide +kernel) (by decide +kernel)
  obtain ⟨hpool, -, hfails⟩ := startup_unwinds ["echo"] [restartPair] 300
    (worldOf fun r => if r = 1 then .queueRaises else .started) hr
    (by decide +kernel : UserPc.job ((rivalStarted.foldl next
      (started (constructed ["echo"] [sampleGroup]) : State Unit)).user ()) = some rivalJob)
    (e := .awaitReady () rivalJob 1 [] (.refused none)) (by decide +kernel) rfl
  obtain ⟨hplat, hfin, -⟩ := hfails (startupFailed rivalJob
    (internalError "Worker 'h_R0' startup failed: unknown error")) (by decide +kernel)
  refine ⟨hpool.mpr ?_, _, _, hplat, by decide +kernel, hfin.mpr ?_⟩
  · rintro ⟨-, -, -, -, -, p, -, before, r, after, -, ho⟩
    simp only [worldOf] at ho
    split at ho <;> cases ho
  · intro r rest hc
    cases hc

end PoolStartup
