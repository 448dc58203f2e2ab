import Infly.RestartFlags
import Infly.PoolSupervision

/-! # `health_snapshot` while the other threads go on

The call holds the lock from its first count to its last, but `alive`, `next_restart_at`
and the processes change without the lock. A snapshot only reads, so one caller stands for
all of them.
-/
namespace HealthSnapshot

open Contracts Config PoolState PoolTables PoolAccounting PoolGroups PoolModel PoolFrames
open PoolInvariant RestartFlags

inductive HealthStatus where
  | ok | degraded | down
  deriving DecidableEq, Repr

structure GroupHealth where
  configuredProcesses : ℕ
  aliveWorkers : ℕ
  accepting : Bool
  deriving DecidableEq, Repr

/-- `StrategyHealthSnapshot` with the entries of its `detail`. -/
structure StrategyHealthSnapshot where
  name : String
  status : HealthStatus
  accepting : Bool
  totalWorkers : ℕ
  aliveWorkers : ℕ
  restartingWorkers : ℕ
  degradedWorkers : ℤ
  groups : List (String × GroupHealth)
  deriving DecidableEq, Repr

structure Counts where
  total : ℕ
  alive : ℕ
  restarting : ℕ
  deriving DecidableEq, Repr

/-- How far a call has come. Each look at a worker is a step of its own. -/
inductive Scan where
  | resting
  | counting (c : Counts) (todo : List Ref)
  | countingRestarts (c : Counts) (todo : List Ref)
  | rating (c : Counts)
  | grouping (c : Counts) (status : HealthStatus) (done : List (String × GroupHealth))
      (todo : List (String × WorkerGroup))
  | countingGroup (c : Counts) (status : HealthStatus) (done : List (String × GroupHealth))
      (name : String) (group : WorkerGroup) (alive : ℕ) (workers : List Ref)
      (todo : List (String × WorkerGroup))
  | reporting (c : Counts) (status : HealthStatus) (groups : List (String × GroupHealth))
  | returned (h : StrategyHealthSnapshot)
  | raised (e : Raised)
  deriving DecidableEq

/-- `worker.alive and worker.process is not None and worker.process.is_alive()`. -/
def looksAlive (w : WorkerState) : Except Raised Bool :=
  if w.alive then
    match w.process with
    | none => .ok false
    | some h => h.isAlive
  else .ok false

def rate (p : Pool) (c : Counts) : HealthStatus :=
  if c.total = 0 ∨ p.closeComplete = true ∨ (p.accepting = false ∧ c.alive = 0) then .down
  else if c.alive = c.total then .ok
  else .degraded

def report (p : Pool) (c : Counts) (status : HealthStatus)
    (groups : List (String × GroupHealth)) : StrategyHealthSnapshot where
  name := "process_pool"
  status := status
  accepting := p.accepting
  totalWorkers := c.total
  aliveWorkers := c.alive
  restartingWorkers := c.restarting
  degradedWorkers := max ((c.total : ℤ) - c.alive - c.restarting) 0
  groups := groups

def scanNext (p : Pool) : Scan → Scan
  | .resting | .returned _ | .raised _ =>
    .counting ⟨p.workers.values.length, 0, 0⟩ p.workers.values
  | .counting c [] => .countingRestarts c p.workers.values
  | .counting c (r :: todo) =>
    match looksAlive (p.heap r) with
    | .error e => .raised e
    | .ok b => .counting { c with alive := c.alive + b.toNat } todo
  | .countingRestarts c [] => .rating c
  | .countingRestarts c (r :: todo) =>
    .countingRestarts { c with
      restarting := c.restarting + (p.heap r).nextRestartAt.isSome.toNat } todo
  | .rating c => .grouping c (rate p c) [] p.groups.entries
  | .grouping c status done [] => .reporting c status done
  | .grouping c status done ((name, group) :: todo) =>
    .countingGroup c status done name group 0 (groupWorkers p name) todo
  | .countingGroup c status done name group alive [] todo =>
    .grouping c status (done ++ [(name, ⟨group.processCount, alive, p.accepting⟩)]) todo
  | .countingGroup c status done name group alive (r :: workers) todo =>
    match looksAlive (p.heap r) with
    | .error e => .raised e
    | .ok b => .countingGroup c status done name group (alive + b.toNat) workers todo
  | .reporting c status groups => .returned (report p c status groups)

/-- The pool that the last status was decided on. -/
def ratedNext (p rated : Pool) : Scan → Pool
  | .rating _ => p
  | _ => rated

def Scan.locked : Scan → Bool
  | .counting _ _ | .countingRestarts _ _ | .rating _ | .grouping _ _ _ _
  | .countingGroup _ _ _ _ _ _ _ _ => true
  | .resting | .reporting _ _ _ | .returned _ | .raised _ => false

/-- The workers that the call has counted once and not yet among their group. -/
def Scan.between (p : Pool) : Scan → List Ref
  | .counting _ todo => p.workers.values.filter fun r => decide (r ∉ todo)
  | .countingRestarts _ _ | .rating _ => p.workers.values
  | .grouping _ _ _ todo =>
    p.workers.values.filter fun r => decide ((p.heap r).group.name ∈ todo.map Prod.fst)
  | .countingGroup _ _ _ _ _ _ workers todo =>
    p.workers.values.filter fun r =>
      decide (r ∈ workers ∨ (p.heap r).group.name ∈ todo.map Prod.fst)
  | .resting | .reporting _ _ _ | .returned _ | .raised _ => []

variable {ι : Type}

/-- The steps that are a section under the pool's lock. -/
def Event.locks : Event ι → Bool
  | .execute _ _ | .receive _ | .ensure _ _ | .publish _ _ | .unregisterCall _ _ | .closeCall _
  | .closeCallback _ | .closeSink _ | .closeTake _ | .closeComplete _ | .check _ | .inspect _ _
  | .handleExit _ _ | .restart _ _ | .relaunch _ _ _ | .complete _ _ | .shutdownFlag _ _
  | .shutdownTake _ _ => true
  | _ => false

/-- A pool, a call of `health_snapshot`, and the pool as it was when the call last decided
on a status. -/
structure Watched (ι : Type) where
  state : State ι
  scan : Scan
  rated : Pool

inductive Watch (ι : Type) where
  | step (e : Event ι)
  | scan
  deriving DecidableEq

section

variable [DecidableEq ι]

def Watched.next (x : Watched ι) : Watch ι → Watched ι
  | .step e => { x with state := PoolModel.next x.state e }
  | .scan => { x with
      scan := scanNext x.state.pool x.scan
      rated := ratedNext x.state.pool x.rated x.scan }

def Watched.Enabled (x : Watched ι) : Watch ι → Prop
  | .step e => PoolModel.Enabled x.state e ∧ (x.scan.locked = true → Event.locks e = false)
  | .scan => True

def watched (ι : Type) [DecidableEq ι] : Transitions.System (Watched ι) (Watch ι) where
  init x := (system ι).init x.state ∧ x.scan = .resting
  step x w y := x.Enabled w ∧ y = x.next w

/-- While a snapshot is taken, no process of a worker starts, ends or is closed. -/
def LivenessFixed (x : Watched ι) : Watch ι → Prop
  | .step e => x.scan.locked = true → ∀ r ∈ x.state.pool.workers.values,
      ((next x.state e).pool.heap r).process.map Process.isAlive =
        (x.state.pool.heap r).process.map Process.isAlive
  | .scan => True

/-- No worker's `alive` is written between the two times that a snapshot reads it. -/
def FlagsKept (x : Watched ι) : Watch ι → Prop
  | .step e => ∀ r ∈ x.scan.between x.state.pool,
      ((next x.state e).pool.heap r).alive = (x.state.pool.heap r).alive
  | .scan => True

instance (x : Watched ι) (w : Watch ι) : Decidable (x.Enabled w) := by
  cases w with
  | step e => exact inferInstanceAs (Decidable (_ ∧ (_ → _)))
  | scan => exact instDecidableTrue

instance (x : Watched ι) (w : Watch ι) : Decidable (LivenessFixed x w) := by
  cases w with
  | step e => exact inferInstanceAs (Decidable (_ → ∀ r ∈ x.state.pool.workers.values, _ = _))
  | scan => exact instDecidableTrue

instance (x : Watched ι) (w : Watch ι) : Decidable (FlagsKept x w) := by
  cases w with
  | step e => exact inferInstanceAs (Decidable (∀ r ∈ x.scan.between x.state.pool, _ = _))
  | scan => exact instDecidableTrue

end

/-- What a snapshot says, against the pool its status was decided on. -/
structure Accurate (p : Pool) (h : StrategyHealthSnapshot) : Prop where
  total : h.totalWorkers = p.workers.values.length
  sum : (h.aliveWorkers : ℤ) + h.restartingWorkers + h.degradedWorkers = h.totalWorkers
  unclamped : 0 ≤ (h.totalWorkers : ℤ) - h.aliveWorkers - h.restartingWorkers
  groups : (h.groups.map fun g => g.2.aliveWorkers).sum = h.aliveWorkers
  ok : p.closeComplete = false → (h.status = .ok ↔
    0 < h.totalWorkers ∧ ∀ r ∈ p.workers.values, (p.heap r).isLive = true)

/-! ## What the counts stand for -/

/-- How many of these workers are alive and have a running process. -/
def aliveIn (p : Pool) (workers : List Ref) : ℕ := workers.countP fun r => (p.heap r).isLive

/-- The same for all workers of the groups with these names. -/
def aliveAmong (p : Pool) (names : List String) : ℕ :=
  p.workers.values.countP fun r =>
    (p.heap r).isLive && decide ((p.heap r).group.name ∈ names)

def groupsAlive (groups : List (String × GroupHealth)) : ℕ :=
  (groups.map fun g => g.2.aliveWorkers).sum

structure Rated (p : Pool) (c : Counts) (status : HealthStatus) : Prop where
  total : c.total = p.workers.values.length
  disjoint : c.alive + c.restarting ≤ c.total
  ok : p.closeComplete = false → (status = .ok ↔
    0 < c.total ∧ ∀ r ∈ p.workers.values, (p.heap r).isLive = true)

def Tallied (p rated : Pool) : Scan → Prop
  | .resting | .raised _ => True
  | .counting c todo => c.total = p.workers.values.length ∧ c.restarting = 0 ∧
      ∃ seen, p.workers.values = seen ++ todo ∧ c.alive = aliveIn p seen
  | .countingRestarts c todo => c.total = p.workers.values.length ∧
      c.alive = aliveIn p p.workers.values ∧
      ∃ seen, p.workers.values = seen ++ todo ∧
        c.restarting ≤ seen.countP fun r => !(p.heap r).alive
  | .rating c => c.total = p.workers.values.length ∧ c.alive = aliveIn p p.workers.values ∧
      c.alive + c.restarting ≤ c.total
  | .grouping c status done todo => Rated rated c status ∧ (todo.map Prod.fst).Nodup ∧
      groupsAlive done + aliveAmong p (todo.map Prod.fst) = c.alive
  | .countingGroup c status done _ _ alive workers todo => Rated rated c status ∧
      (todo.map Prod.fst).Nodup ∧ (∀ r ∈ workers, r ∈ p.workers.values) ∧
      groupsAlive done + (alive + aliveIn p workers) + aliveAmong p (todo.map Prod.fst) = c.alive
  | .reporting c status groups => Rated rated c status ∧ groupsAlive groups = c.alive
  | .returned h => Accurate rated h

theorem looksAlive_ok {w : WorkerState} {b : Bool} (h : looksAlive w = .ok b) : b = w.isLive := by
  unfold looksAlive at h
  unfold WorkerState.isLive
  split at h
  · rename_i ha
    rw [ha]
    split at h
    · rename_i hp
      cases h
      rw [hp]
      rfl
    · rename_i x hp
      rw [hp]
      cases x <;> cases h <;> rfl
  · rename_i ha
    cases h
    simp [ha]

@[simp] theorem aliveIn_nil (p : Pool) : aliveIn p [] = 0 := rfl

theorem aliveIn_cons (p : Pool) (r : Ref) (l : List Ref) :
    aliveIn p (r :: l) = (p.heap r).isLive.toNat + aliveIn p l := by
  cases h : (p.heap r).isLive <;> simp [aliveIn, h, Nat.add_comm]

theorem aliveIn_append (p : Pool) (l m : List Ref) :
    aliveIn p (l ++ m) = aliveIn p l + aliveIn p m := List.countP_append

@[simp] theorem aliveAmong_nil (p : Pool) : aliveAmong p [] = 0 := by
  simp [aliveAmong]

/-- A worker belongs to one group. -/
theorem aliveAmong_cons (p : Pool) {name : String} {names : List String} (h : name ∉ names) :
    aliveAmong p (name :: names) = aliveIn p (groupWorkers p name) + aliveAmong p names := by
  unfold aliveAmong aliveIn groupWorkers
  rw [List.countP_filter]
  induction p.workers.values with
  | nil => rfl
  | cons r l ih =>
    simp only [List.countP_cons, ih]
    by_cases hg : (p.heap r).group.name = name
    · have hn : (p.heap r).group.name ∉ names := hg ▸ h
      cases (p.heap r).isLive <;> simp [hg, h]
      omega
    · cases (p.heap r).isLive <;> simp [hg]
      omega

/-- Every worker of the table belongs to a registered group. -/
theorem aliveAmong_keys {p : Pool} (hg : Grouped p) :
    aliveAmong p p.groups.keys = aliveIn p p.workers.values := by
  apply List.countP_congr
  intro r hr
  obtain ⟨id, hid⟩ := Dict.mem_values.mp hr
  have hmem := (hg id r hid).2
  simp [hmem]

theorem groupsAlive_snoc (done : List (String × GroupHealth)) (g : String × GroupHealth) :
    groupsAlive (done ++ [g]) = groupsAlive done + g.2.aliveWorkers := by
  simp [groupsAlive]

/-! ## A step of the call -/

/-- The status is decided on counts of all workers. -/
theorem rate_rated {p : Pool} {c : Counts} (ht : c.total = p.workers.values.length)
    (ha : c.alive = aliveIn p p.workers.values) (hd : c.alive + c.restarting ≤ c.total) :
    Rated p c (rate p c) := by
  refine ⟨ht, hd, fun hopen => ?_⟩
  have full : c.alive = c.total ↔ ∀ r ∈ p.workers.values, (p.heap r).isLive = true := by
    rw [ht, ha]
    exact List.countP_eq_length
  rw [← full]
  unfold rate
  split
  · rename_i hdown
    simp only [hopen, Bool.false_eq_true, false_or] at hdown
    constructor
    · intro h
      cases h
    · intro h
      omega
  · rename_i hup
    simp only [not_or] at hup
    split
    · rename_i heq
      exact iff_of_true rfl ⟨Nat.pos_of_ne_zero hup.1, heq⟩
    · rename_i hne
      constructor
      · intro h
        cases h
      · intro h
        exact absurd h.2 hne

theorem report_accurate {p rated : Pool} {c : Counts} {status : HealthStatus}
    {groups : List (String × GroupHealth)} (hr : Rated rated c status)
    (hg : groupsAlive groups = c.alive) : Accurate rated (report p c status groups) := by
  have hd := hr.disjoint
  have unclamped : 0 ≤ (c.total : ℤ) - c.alive - c.restarting := by omega
  refine ⟨hr.total, ?_, unclamped, hg, hr.ok⟩
  simp only [report, max_eq_left unclamped]
  omega

/-- A worker counted as waiting for a restart is not alive. -/
theorem restarts_disjoint {p : Pool} {n : ℕ}
    (h : n ≤ p.workers.values.countP fun r => !(p.heap r).alive) :
    aliveIn p p.workers.values + n ≤ p.workers.values.length := by
  have hle : aliveIn p p.workers.values ≤ p.workers.values.countP fun r => (p.heap r).alive := by
    apply List.countP_mono_left
    intro r _ hr
    simp only [WorkerState.isLive, Bool.and_eq_true] at hr
    exact hr.1
  have hsplit := List.length_eq_countP_add_countP (fun r => (p.heap r).alive)
    (l := p.workers.values)
  simp only [Bool.not_eq_true] at hsplit
  have heq : (p.workers.values.countP fun r => !(p.heap r).alive) =
      p.workers.values.countP fun r => decide ((p.heap r).alive = false) := by
    apply List.countP_congr
    intro r _
    simp
  omega

/-- A look at a worker, if it does not raise, counts it when it is alive. -/
theorem tallied_scan {p rated : Pool} {scan : Scan} (hp : Consistent p)
    (hf : ∀ r ∈ p.workers.values, (p.heap r).alive = true → (p.heap r).nextRestartAt = none)
    (ht : Tallied p rated scan) :
    Tallied p (ratedNext p rated scan) (scanNext p scan) := by
  cases scan with
  | resting => exact ⟨rfl, rfl, [], rfl, rfl⟩
  | returned h => exact ⟨rfl, rfl, [], rfl, rfl⟩
  | raised e => exact ⟨rfl, rfl, [], rfl, rfl⟩
  | counting c todo =>
    obtain ⟨htotal, hrest, seen, hseen, halive⟩ := ht
    cases todo with
    | nil =>
      rw [List.append_nil] at hseen
      exact ⟨htotal, hseen ▸ halive, [], rfl, by simp [hrest]⟩
    | cons r todo =>
      simp only [scanNext]
      split
      · trivial
      · rename_i b hb
        refine ⟨htotal, hrest, seen ++ [r], by simp [hseen], ?_⟩
        change c.alive + b.toNat = _
        rw [aliveIn_append, aliveIn_cons, aliveIn_nil, looksAlive_ok hb, halive, Nat.add_zero]
  | countingRestarts c todo =>
    obtain ⟨htotal, halive, seen, hseen, hrest⟩ := ht
    cases todo with
    | nil =>
      rw [List.append_nil] at hseen
      refine ⟨htotal, halive, ?_⟩
      rw [halive, htotal]
      exact restarts_disjoint (hseen ▸ hrest)
    | cons r todo =>
      refine ⟨htotal, halive, seen ++ [r], by simp [hseen], ?_⟩
      have hr := hf r (by simp [hseen])
      rw [List.countP_append, List.countP_singleton]
      cases ha : (p.heap r).alive with
      | false =>
        have := Bool.toNat_le (p.heap r).nextRestartAt.isSome
        simp only [Bool.not_false, ↓reduceIte]
        omega
      | true => simpa [hr ha] using hrest
  | rating c =>
    obtain ⟨htotal, halive, hd⟩ := ht
    refine ⟨rate_rated htotal halive hd, p.groups.nodup, ?_⟩
    have hkeys := aliveAmong_keys hp.grouped
    simp only [groupsAlive, List.map_nil, List.sum_nil, Nat.zero_add]
    exact hkeys.trans halive.symm
  | grouping c status done todo =>
    obtain ⟨hr, hn, hsum⟩ := ht
    cases todo with
    | nil =>
      simp only [List.map_nil, aliveAmong_nil, Nat.add_zero] at hsum
      exact ⟨hr, hsum⟩
    | cons g todo =>
      obtain ⟨name, group⟩ := g
      simp only [List.map_cons, List.nodup_cons] at hn
      refine ⟨hr, hn.2, fun r hr => (List.mem_filter.mp hr).1, ?_⟩
      rw [List.map_cons, aliveAmong_cons p hn.1] at hsum
      omega
  | countingGroup c status done name group alive workers todo =>
    obtain ⟨hr, hn, hmem, hsum⟩ := ht
    cases workers with
    | nil =>
      refine ⟨hr, hn, ?_⟩
      rw [groupsAlive_snoc]
      simp only [aliveIn_nil] at hsum
      omega
    | cons r workers =>
      simp only [scanNext]
      split
      · trivial
      · rename_i b hb
        refine ⟨hr, hn, fun r hr => hmem r (List.mem_cons_of_mem _ hr), ?_⟩
        rw [aliveIn_cons] at hsum
        rw [looksAlive_ok hb]
        omega
  | reporting c status groups => exact report_accurate ht.1 ht.2

/-! ## A step of another thread -/

/-- What the call goes by stays as it is. -/
structure Steady (p q : Pool) (scan : Scan) : Prop where
  workers : q.workers = p.workers
  group : ∀ r ∈ p.workers.values, (q.heap r).group = (p.heap r).group
  alive : ∀ r ∈ scan.between p, (q.heap r).alive = (p.heap r).alive
  live : ∀ r ∈ scan.between p, (q.heap r).isLive = (p.heap r).isLive

theorem aliveIn_congr {p q : Pool} {l : List Ref}
    (h : ∀ r ∈ l, (q.heap r).isLive = (p.heap r).isLive) : aliveIn q l = aliveIn p l := by
  apply List.countP_congr
  intro r hr
  rw [h r hr]

theorem aliveAmong_congr {p q : Pool} {names : List String} (hw : q.workers = p.workers)
    (hg : ∀ r ∈ p.workers.values, (q.heap r).group = (p.heap r).group)
    (h : ∀ r ∈ p.workers.values, (p.heap r).group.name ∈ names →
      (q.heap r).isLive = (p.heap r).isLive) : aliveAmong q names = aliveAmong p names := by
  unfold aliveAmong
  rw [hw]
  apply List.countP_congr
  intro r hr
  rw [hg r hr]
  by_cases hm : (p.heap r).group.name ∈ names
  · rw [h r hr hm]
  · simp [hm]

theorem tallied_steady {p q rated : Pool} {scan : Scan} (hn : p.workers.values.Nodup)
    (hs : Steady p q scan) (ht : Tallied p rated scan) : Tallied q rated scan := by
  cases scan with
  | resting | raised e => trivial
  | reporting c status groups => exact ht
  | returned h => exact ht
  | counting c todo =>
    obtain ⟨htotal, hrest, seen, hseen, halive⟩ := ht
    refine ⟨by rw [hs.workers]; exact htotal, hrest, seen, by rw [hs.workers]; exact hseen, ?_⟩
    refine halive.trans (aliveIn_congr fun r hr => ?_).symm
    refine hs.live r (List.mem_filter.mpr ⟨by simp [hseen, hr], ?_⟩)
    rw [hseen] at hn
    exact decide_eq_true fun hr' => (List.nodup_append.mp hn).2.2 r hr r hr' rfl
  | countingRestarts c todo =>
    obtain ⟨htotal, halive, seen, hseen, hrest⟩ := ht
    refine ⟨by rw [hs.workers]; exact htotal, ?_, seen, by rw [hs.workers]; exact hseen, ?_⟩
    · rw [hs.workers]
      exact halive.trans (aliveIn_congr hs.live).symm
    · refine hrest.trans (le_of_eq (List.countP_congr fun r hr => ?_))
      have hr' : r ∈ p.workers.values := by
        rw [hseen]
        exact List.mem_append_left _ hr
      rw [hs.alive r hr']
  | rating c =>
    obtain ⟨htotal, halive, hd⟩ := ht
    refine ⟨by rw [hs.workers]; exact htotal, ?_, hd⟩
    rw [hs.workers]
    exact halive.trans (aliveIn_congr hs.live).symm
  | grouping c status done todo =>
    obtain ⟨hr, hnames, hsum⟩ := ht
    refine ⟨hr, hnames, ?_⟩
    rw [aliveAmong_congr hs.workers hs.group, hsum]
    intro r hr hm
    exact hs.live r (List.mem_filter.mpr ⟨hr, decide_eq_true hm⟩)
  | countingGroup c status done name group alive workers todo =>
    obtain ⟨hr, hnames, hmem, hsum⟩ := ht
    refine ⟨hr, hnames, by rw [hs.workers]; exact hmem, ?_⟩
    rw [aliveAmong_congr hs.workers hs.group, aliveIn_congr, hsum]
    · intro r hr
      exact hs.live r (List.mem_filter.mpr ⟨hmem r hr, decide_eq_true (.inl hr)⟩)
    · intro r hr hm
      exact hs.live r (List.mem_filter.mpr ⟨hr, decide_eq_true (.inr hm)⟩)

/-- A call that does not hold the lock goes by its own counts. -/
theorem tallied_free {p q rated : Pool} {scan : Scan} (h : scan.locked = false)
    (ht : Tallied p rated scan) : Tallied q rated scan := by
  cases scan <;> first
    | exact ht
    | cases h

theorem between_values {p : Pool} {scan : Scan} {r : Ref} (h : r ∈ scan.between p) :
    r ∈ p.workers.values := by
  cases scan with
  | resting | raised e | reporting c status groups | returned h => cases h
  | countingRestarts c todo | rating c => exact h
  | counting c todo | grouping c status done todo
    | countingGroup c status done name group alive workers todo => exact (List.mem_filter.mp h).1

/-- The flag and what the process answers tell whether a worker is live. -/
theorem isLive_congr {w v : WorkerState} (ha : v.alive = w.alive)
    (hp : v.process.map Process.isAlive = w.process.map Process.isAlive) :
    v.isLive = w.isLive := by
  have running : ∀ u : WorkerState,
      (u.process == some .running) = (u.process.map Process.isAlive == some (.ok true)) := by
    intro u
    cases u.process with
    | none => rfl
    | some h => cases h <;> rfl
  rw [WorkerState.isLive, WorkerState.isLive, ha, running v, running w, hp]

section

variable [DecidableEq ι] {x : Watched ι} {w : Watch ι}

theorem watched_reachable (h : (watched ι).Reachable x) : Reachable x.state := by
  refine Transitions.System.invariant (P := fun x => Reachable x.state) ?_ ?_ h
  · intro x hx
    exact Transitions.System.reachable_init hx.1
  · rintro x w y hx ⟨he, rfl⟩
    cases w with
    | step e => exact hx.next ⟨he.1, rfl⟩
    | scan => exact hx

/-- Under the lock the tables stay, and the conditions keep what the call has read. -/
theorem steady_step {e : Event ι} (hi : Invariant x.state) (he : x.Enabled (.step e))
    (hl : LivenessFixed x (.step e)) (hk : FlagsKept x (.step e))
    (hlocked : x.scan.locked = true) :
    Steady x.state.pool (next x.state e).pool x.scan := by
  have hgroups : Event.regroups e = false := by
    have hfree := he.2 hlocked
    cases e <;> first | rfl | cases hfree
  have ht := tables_frame hi.consistent.books hgroups
  refine ⟨ht.workers, fun r hr => ?_, hk, fun r hr => ?_⟩
  · have hlt := hi.consistent.books.allocated r (inTable_values.mpr hr)
    exact (worker_frame hi.consistent hlt).group
  · exact isLive_congr (hk r hr) (hl hlocked r (between_values hr))

theorem tallied_next (hr : Reachable x.state) (ht : Tallied x.state.pool x.rated x.scan)
    (he : x.Enabled w) (hl : LivenessFixed x w) (hk : FlagsKept x w) :
    Tallied (x.next w).state.pool (x.next w).rated (x.next w).scan := by
  have hi := reachable_invariant hr
  cases w with
  | scan => exact tallied_scan hi.consistent (fun r => unscheduled_alive hr) ht
  | step e =>
    by_cases hlocked : x.scan.locked = true
    · exact tallied_steady hi.consistent.books.values_nodup (steady_step hi he hl hk hlocked) ht
    · have hfree : x.scan.locked = false := by simpa using hlocked
      exact tallied_free hfree ht

/-- No worker is both alive and waiting for a restart; and in runs where no flag is written
between its two readings by a snapshot, every snapshot adds up. -/
theorem snapshots_accurate :
    (∀ s : State ι, Reachable s → ∀ r ∈ s.pool.workers.values,
      (s.pool.heap r).alive = true → (s.pool.heap r).nextRestartAt = none) ∧
    ∀ x : Watched ι,
      ((watched ι).restrict fun x w => LivenessFixed x w ∧ FlagsKept x w).Reachable x →
      ∀ snapshot, x.scan = .returned snapshot → Accurate x.rated snapshot := by
  refine ⟨fun s h r hr ha => unscheduled_alive h hr ha, fun x h snapshot hscan => ?_⟩
  have ht : Tallied x.state.pool x.rated x.scan := by
    refine Transitions.System.invariant_reachable
      (P := fun x : Watched ι => Tallied x.state.pool x.rated x.scan) ?_ ?_ h
    · rintro x ⟨-, hscan⟩
      rw [hscan]
      trivial
    · rintro x w y hr ht ⟨⟨hl, hk⟩, he, rfl⟩
      have hx := watched_reachable (Transitions.System.restrict_reachable hr)
      exact tallied_next hx ht he hl hk
  rw [hscan] at ht
  exact ht

end

/-! ## A worker comes back while a snapshot is taken -/

def watchedFrom (groups : List WorkerGroup) : Watched Unit :=
  ⟨started (constructed ["echo"] groups), .resting, constructed ["echo"] groups⟩

/-- The only worker was restarted, and its READY message has arrived. -/
def readied : List (Event Unit) := PoolSupervision.restarted ++ [.awaitRestart 0 ⟨1, []⟩ .ready]

/-- `_await_worker_ready` marks the worker after the first count and before its group's. -/
def markedBetween : List (Watch Unit) :=
  readied.map .step ++ List.replicate 6 .scan ++ [.step (.markReady 0 ⟨1, []⟩)] ++
    List.replicate 5 .scan

theorem snapshot_torn : ¬ ∀ x : Watched Unit,
    ((watched Unit).restrict LivenessFixed).Reachable x →
    ∀ snapshot, x.scan = .returned snapshot → Accurate x.rated snapshot := by
  intro h
  have hr : ((watched Unit).restrict LivenessFixed).Reachable
      (markedBetween.foldl Watched.next (watchedFrom [restartGroup])) :=
    Transitions.Valid.reachable (E := fun x w => LivenessFixed x w ∧ x.Enabled w)
      (by decide +kernel) ⟨init_constructed (by decide +kernel), rfl⟩ fun x w hw => ⟨hw.1, hw.2, rfl⟩
  have hsum := (h _ hr ⟨"process_pool", .degraded, true, 1, 0, 0, 1, [("g", ⟨1, 1, true⟩)]⟩
    (by decide +kernel)).groups
  cases hsum

/-- The worker is marked before the snapshot begins. -/
def markedBefore : List (Watch Unit) :=
  readied.map .step ++ [.step (.markReady 0 ⟨1, []⟩)] ++ List.replicate 11 .scan

theorem snapshot_after_restart : ∃ (x : Watched Unit) (snapshot : StrategyHealthSnapshot),
    x.scan = .returned snapshot ∧ snapshot.status = .ok ∧ Accurate x.rated snapshot := by
  have hr : ((watched Unit).restrict fun x w => LivenessFixed x w ∧ FlagsKept x w).Reachable
      (markedBefore.foldl Watched.next (watchedFrom [restartGroup])) :=
    Transitions.Valid.reachable
      (E := fun x w => (LivenessFixed x w ∧ FlagsKept x w) ∧ x.Enabled w)
      (by decide +kernel) ⟨init_constructed (by decide +kernel), rfl⟩ fun x w hw => ⟨hw.1, hw.2, rfl⟩
  have hscan : (markedBefore.foldl Watched.next (watchedFrom [restartGroup])).scan =
      .returned ⟨"process_pool", .ok, true, 1, 1, 0, 0, [("g", ⟨1, 1, true⟩)]⟩ := by
    decide +kernel
  exact ⟨_, _, hscan, rfl, snapshots_accurate.2 _ hr _ hscan⟩

end HealthSnapshot
