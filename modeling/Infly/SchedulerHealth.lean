import Infly.EndToEnd
import Infly.HealthSnapshot
import Infly.Retention

/-! # What a scheduler keeps, and what its health snapshots say of it

`health_snapshot` in `infly/runtime/scheduler.py` reads one part of the scheduler after the other,
while the scheduler goes on.
-/
namespace SchedulerHealth

open Contracts TaskBackend SchedulerState SchedulerModel SchedulerLocks SchedulerLedger
  SchedulerStages SchedulerAccounts Retention Transitions

variable {ι : Type} [DecidableEq ι] {s s' : SchedulerModel.State ι} {a : Thread ι} {p : Pc}
  {c : Choice} {sh : Shared ι} {x : Shared ι × Pc} {L : Ledger} {t : TaskId}

/-! ## The backend of a scheduler -/

/-- A turn of a thread is at most one call of the backend. -/
theorem turn_serves (h : act sh a p c = some x) :
    (x.1.clock = sh.clock ∧ x.1.config = sh.config) ∧
    (x.1.ledger.backend = sh.ledger.backend ∨
      ∃ call, x.1.ledger.backend = (serve sh.ledger.backend sh.clock call).2) := by
  cases p <;> cases c
  case reading.raises q locked e =>
    obtain ⟨_, _, rfl⟩ := reading_raises h
    exact ⟨⟨rfl, rfl⟩, .inr ⟨.read q.task q.consume copies, rfl⟩⟩
  all_goals simp only [act, advance, throwing, expire, reduceCtorEq] at h
  case storing.go job =>
    cases h
    refine ⟨⟨rfl, rfl⟩, .inr ⟨.submit
      ⟨{ taskId := job.request.taskId, request := job.request }, rfl⟩ job.priority, ?_⟩⟩
    unfold Ledger.store serve
    dsimp only
    split <;> rename_i heq <;> rw [heq]
  case running.go u request =>
    cases h
    exact ⟨⟨rfl, rfl⟩, .inr ⟨.update u { status := .running }, rfl⟩⟩
  case updating.go u m request =>
    cases h
    exact ⟨⟨rfl, rfl⟩, .inr ⟨.update u m.update, rfl⟩⟩
  case sweeping.go u done rest =>
    cases h
    exact ⟨⟨rfl, rfl⟩, .inr ⟨.update u stoppedBeforeStart, rfl⟩⟩
  case reading.go q locked =>
    cases h
    exact ⟨⟨rfl, rfl⟩, .inr ⟨.read q.task q.consume copies, rfl⟩⟩
  case pulling.go =>
    cases h
    exact ⟨⟨rfl, rfl⟩, .inr ⟨.pull, rfl⟩⟩
  case notifying.go n =>
    cases h
    cases n <;> exact ⟨⟨rfl, rfl⟩, .inl rfl⟩
  all_goals repeat' split at h
  all_goals cases h
  all_goals exact ⟨⟨rfl, rfl⟩, .inl rfl⟩

/-- The backend is the archive of what it was asked, with the scheduler's limit. -/
structure Archived (s : SchedulerModel.State ι) (m : Archive) : Prop where
  related : Matches s.shared.ledger.backend s.shared.clock m
  bounded : m.Bounded
  limit : m.limit = s.shared.config.maxRetainedTerminalTasks

theorem archived_next {m : Archive} {e : SchedulerModel.Event ι} (h : Archived s m)
    (hs : SchedulerModel.Step s e s') :
    s'.shared.config = s.shared.config ∧ ∃ m', Archived s' m' := by
  rcases step_cases hs with ⟨i, k, rfl, _, rfl⟩ | ⟨a, c, x, rfl, _, hx, rfl⟩ |
    ⟨f, o, rfl, _, _, rfl⟩ | ⟨w, rfl, _, rfl⟩ | ⟨d, rfl, rfl⟩
  · cases k <;> exact ⟨rfl, m, h.related, h.bounded, h.limit⟩
  · rw [goto_shared]
    obtain ⟨⟨clock, config⟩, same | ⟨call, hcall⟩⟩ := turn_serves hx
    · refine ⟨config, m, ?_, h.bounded, ?_⟩
      · rw [goto_shared, same, clock]
        exact h.related
      · rw [goto_shared, config]
        exact h.limit
    · have agrees := serve_agrees h.related h.bounded le_rfl call
      refine ⟨config, (m.serve call).2, ?_, agrees.bounded, ?_⟩
      · rw [goto_shared, hcall, clock]
        exact agrees.related
      · rw [goto_shared, config, serve_limit]
        exact h.limit
  · exact ⟨rfl, m, h.related, h.bounded, h.limit⟩
  · exact ⟨rfl, m, h.related, h.bounded, h.limit⟩
  · exact ⟨rfl, m, h.related.later (Nat.le_add_right ..), h.bounded, h.limit⟩

/-! ## Counting records -/

/-- `backend_status_counts`. -/
def statusCounts (records : List TaskRecord) (status : TaskStatus) : ℕ :=
  records.countP fun r => decide (r.status = status)

theorem counts_split (records : List TaskRecord) :
    statusCounts records .pending + statusCounts records .running =
        records.countP (fun r => !terminal r.status) ∧
      statusCounts records .completed + statusCounts records .failed =
        records.countP fun r => terminal r.status := by
  unfold statusCounts
  induction records with
  | nil => exact ⟨rfl, rfl⟩
  | cons r rest ih =>
    have live : terminal .pending = false ∧ terminal .running = false := ⟨rfl, rfl⟩
    have ended : terminal .completed = true ∧ terminal .failed = true := ⟨rfl, rfl⟩
    simp only [List.countP_cons]
    cases r.status <;> simp [live, ended] <;> omega

omit [DecidableEq ι] in
/-- Whose record is not terminal counts as outstanding. -/
theorem live_outstanding {stage : TaskId → Stage ι} (hst : Staged s stage)
    (own : s.shared.ledger.foreign = ∅) {r : TaskRecord}
    (hr : s.shared.ledger.record t = some r) (hl : terminal r.status = false) :
    t ∈ s.shared.ledger.outstanding := by
  have mine : t ∉ s.shared.ledger.foreign := own ▸ Finset.notMem_empty t
  have accepted := (TaskLife.stored_known hst (by rw [hr]; nofun)).resolve_right mine
  rcases (hst.fact t).phase accepted with waits | ⟨runs, -⟩ | ended
  · exact waits.owed.mpr mine
  · exact runs.owed.mpr mine
  · cases hl.symm.trans (ended.status r hr)

/-- The tasks of the records that meet a condition. -/
def idsWhere (b : Backend) (p : TaskRecord → Bool) : List TaskId :=
  (b.records.entries.filter fun e => p e.2).map Prod.fst

theorem idsWhere_length (b : Backend) (p : TaskRecord → Bool) :
    (idsWhere b p).length = b.records.values.countP p := by
  unfold idsWhere Dict.values
  rw [List.length_map, List.countP_map, List.countP_eq_length_filter]
  rfl

theorem mem_idsWhere {b : Backend} {p : TaskRecord → Bool} (h : t ∈ idsWhere b p) :
    ∃ r, b.records.get? t = some r ∧ p r = true := by
  obtain ⟨e, he, rfl⟩ := List.mem_map.mp h
  obtain ⟨hmem, hp⟩ := List.mem_filter.mp he
  exact ⟨e.2, Dict.get?_eq_some.mpr hmem, hp⟩

theorem idsWhere_nodup (b : Backend) (p : TaskRecord → Bool) : (idsWhere b p).Nodup :=
  b.records.nodup.sublist (List.filter_sublist.map _)

/-- The bounds that the configuration sets on the records. -/
structure Limited (config : Config.SchedulerConfig) (counts : TaskStatus → ℕ) : Prop where
  live : counts .pending + counts .running ≤ config.maxOutstandingTasks
  retained : 0 < config.maxRetainedTerminalTasks →
    counts .completed + counts .failed ≤ config.maxRetainedTerminalTasks

omit [DecidableEq ι] in
theorem records_limited (accounts : Accounts s) (own : s.shared.ledger.foreign = ∅)
    {m : Archive} (h : Archived s m) :
    Limited s.shared.config (statusCounts s.shared.ledger.backend.records.values) := by
  obtain ⟨stage, hst⟩ := accounts.staged
  obtain ⟨moving, -, hsum⟩ := accounts.balanced
  obtain ⟨live, ended⟩ := counts_split s.shared.ledger.backend.records.values
  refine ⟨?_, fun hpos => ?_⟩
  · rw [live, ← idsWhere_length]
    have inside : (idsWhere s.shared.ledger.backend fun r => !terminal r.status).toFinset ⊆
        s.shared.ledger.outstanding := by
      intro t ht
      obtain ⟨r, hr, hp⟩ := mem_idsWhere (List.mem_toFinset.mp ht)
      exact live_outstanding hst own hr (by simpa using hp)
    have fewer := Finset.card_le_card inside
    rw [List.toFinset_card_of_nodup (idsWhere_nodup ..)] at fewer
    omega
  · rw [ended, ← idsWhere_length, ← h.limit]
    have inside :
        idsWhere s.shared.ledger.backend (fun r => terminal r.status) ⊆ m.shelf.order := by
      intro t ht
      exact (h.related.shelved t).mpr ((h.related.wellformed.finished t).mpr (mem_idsWhere ht))
    have fewer := ((idsWhere_nodup s.shared.ledger.backend fun r =>
      terminal r.status).subperm inside).length_le
    exact fewer.trans (h.bounded (h.limit ▸ hpos))

/-! ## Health snapshots -/

section

open HealthSnapshot Deployment Coupling EndToEnd

structure SchedulerHealthSnapshot where
  status : HealthStatus
  accepting : Bool
  started : Bool
  closed : Bool
  workerThreads : ℕ
  outstandingTasks : ℕ
  maxOutstandingTasks : ℕ
  backendStatusCounts : TaskStatus → ℕ
  strategy : Option StrategyHealthSnapshot

/-- How far a call has come. -/
inductive Reading where
  | resting
  | threads (workerThreads : ℕ)
  | records (workerThreads : ℕ) (counts : TaskStatus → ℕ)
  | asked (workerThreads : ℕ) (counts : TaskStatus → ℕ) (strategy : Option StrategyHealthSnapshot)
  | rated (workerThreads : ℕ) (counts : TaskStatus → ℕ) (strategy : Option StrategyHealthSnapshot)
      (status : HealthStatus)
  | counted (workerThreads : ℕ) (counts : TaskStatus → ℕ)
      (strategy : Option StrategyHealthSnapshot) (status : HealthStatus) (outstanding : ℕ)
  | returned (snapshot : SchedulerHealthSnapshot)
  | raised (e : Raised)

def rateScheduler (s : Shared ι) (workerThreads : ℕ) :
    Option StrategyHealthSnapshot → HealthStatus
  | strategy =>
    if s.closed = true ∨ workerThreads = 0 ∧ s.accepting = false then .down
    else
      match strategy with
      | none => .ok
      | some h => h.status

/-- `answer`: what the strategy says of itself when it is asked. -/
def readNext (s : Shared ι) (answer : Option StrategyHealthSnapshot) (copying : Copying) :
    Reading → Reading
  | .resting => .threads s.threads.length
  | .threads n =>
    match s.ledger.backend.listAll copying with
    | .ok records => .records n (statusCounts records)
    | .error e => .raised e
  | .records n counts => .asked n counts answer
  | .asked n counts strategy => .rated n counts strategy (rateScheduler s n strategy)
  | .rated n counts strategy status =>
    .counted n counts strategy status s.ledger.outstanding.card
  | .counted n counts strategy status outstanding => .returned {
      status := status
      accepting := s.accepting
      started := decide (0 < n)
      closed := s.closed
      workerThreads := n
      outstandingTasks := outstanding
      maxOutstandingTasks := s.config.maxOutstandingTasks
      backendStatusCounts := counts
      strategy := strategy }
  | .returned snapshot => .returned snapshot
  | .raised e => .raised e

structure Observed (ι : Type) where
  deployed : Deployment.State ι
  reading : Reading

inductive Observation (ι : Type) where
  | step (e : Deployment.Event ι)
  | read (answer : Option StrategyHealthSnapshot) (copying : Copying)

variable {keys : ExecutorCache.CacheKeys} {memory : WorkerProcess.Memory}
  {d d' : Deployment.State ι}

/-- Whose lock it takes is free when the list of threads is read. -/
def observed (keys : ExecutorCache.CacheKeys) (memory : WorkerProcess.Memory) (ι : Type)
    [DecidableEq ι] : System (Observed ι) (Observation ι) where
  init x := (deployment keys memory ι).init x.deployed ∧ x.reading = .resting
  step x o y :=
    match o with
    | .step e => (deployment keys memory ι).step x.deployed e y.deployed ∧ y.reading = x.reading
    | .read answer copying =>
      (x.reading = .resting → x.deployed.scheduler.locks .threads = none) ∧
        y = { x with reading := readNext x.deployed.scheduler.shared answer copying x.reading }

/-- The configuration stays, and the backend is an archive of it. -/
theorem reachable_archived (h : (deployment keys memory ι).Reachable d) :
    ∃ m, Archived d.scheduler m := by
  refine System.invariant_reachable (P := fun d => ∃ m, Archived d.scheduler m) ?_
    (fun u e v hr hu hst => ?_) h
  · rintro d ⟨config, definitions, groups, p, pipe, logs, load, _, rfl⟩
    have start : Matches { maxRetainedTerminalTasks := config.maxRetainedTerminalTasks } 0
        { limit := config.maxRetainedTerminalTasks } :=
      { wellformed := Backend.empty_wellformed _
        limit := rfl, records := fun _ => rfl, pending := rfl, sequence := rfl, seen := rfl
        shelved := fun t => by simp [ItemShelf.empty]
        sorted := List.Pairwise.nil
        past := fun t k hk => by cases hk }
    exact ⟨_, start, fun _ => Nat.zero_le _, rfl⟩
  · refine (scheduler_run hr hst).preserves (P := fun x => ∃ m, Archived x m)
      (fun x e y hx hxy => ?_) hu
    obtain ⟨m, hm⟩ := hx
    exact (archived_next hm hxy.2).2

theorem config_kept (h : (deployment keys memory ι).Reachable d) {e : Deployment.Event ι}
    (hst : (deployment keys memory ι).step d e d') :
    d'.scheduler.shared.config = d.scheduler.shared.config := by
  refine ((scheduler_run h hst).preserves (P := fun x => (∃ m, Archived x m) ∧
    x.shared.config = d.scheduler.shared.config) (fun x e y hx hxy => ?_)
    ⟨reachable_archived h, rfl⟩).2
  obtain ⟨⟨m, hx⟩, hc⟩ := hx
  obtain ⟨config, archived⟩ := archived_next hx hxy.2
  exact ⟨archived, config.trans hc⟩

theorem deployment_limited (h : (deployment keys memory ι).Reachable d) :
    Limited d.scheduler.shared.config (statusCounts d.ledger.backend.records.values) ∧
      d.ledger.outstanding.card ≤ d.scheduler.shared.config.maxOutstandingTasks := by
  obtain ⟨m, archived⟩ := reachable_archived h
  have accounts := reachable_accounts (SchedulerFutures.honest_single (scheduler_alone h))
  refine ⟨records_limited accounts (own_backend h) archived, ?_⟩
  obtain ⟨moving, -, hsum⟩ := accounts.balanced
  show d.scheduler.shared.ledger.outstanding.card ≤ _
  omega

/-- What has been read so far keeps to the bounds. -/
def Reading.Limited (config : Config.SchedulerConfig) : Reading → Prop
  | .resting | .threads _ | .raised _ => True
  | .records _ counts | .asked _ counts _ | .rated _ counts _ _ =>
    SchedulerHealth.Limited config counts
  | .counted _ counts _ _ outstanding =>
    SchedulerHealth.Limited config counts ∧ outstanding ≤ config.maxOutstandingTasks
  | .returned snapshot => SchedulerHealth.Limited config snapshot.backendStatusCounts ∧
      snapshot.outstandingTasks ≤ config.maxOutstandingTasks ∧
      snapshot.maxOutstandingTasks = config.maxOutstandingTasks

theorem limited_read (h : (deployment keys memory ι).Reachable d) {reading : Reading}
    (hr : reading.Limited d.scheduler.shared.config) (answer : Option StrategyHealthSnapshot)
    (copying : Copying) :
    (readNext d.scheduler.shared answer copying reading).Limited d.scheduler.shared.config := by
  obtain ⟨limited, outstanding⟩ := deployment_limited h
  cases reading with
  | resting => trivial
  | threads n =>
    simp only [readNext]
    cases hl : d.scheduler.shared.ledger.backend.listAll copying with
    | ok records =>
      rw [Backend.listAll_ok hl]
      exact limited
    | error e => trivial
  | records n counts => exact hr
  | asked n counts strategy => exact hr
  | rated n counts strategy status => exact ⟨hr, outstanding⟩
  | counted n counts strategy status k => exact ⟨hr.1, hr.2, rfl⟩
  | returned snapshot => exact hr
  | raised e => trivial

/-- The records never outgrow the bounds of the configuration, and no health snapshot shows
otherwise, whatever happens while it is taken. -/
theorem records_bounded {x : Observed ι} (h : (observed keys memory ι).Reachable x) :
    Limited x.deployed.scheduler.shared.config
        (statusCounts x.deployed.ledger.backend.records.values) ∧
    ∀ snapshot, x.reading = .returned snapshot →
      Limited x.deployed.scheduler.shared.config snapshot.backendStatusCounts ∧
      snapshot.outstandingTasks ≤ snapshot.maxOutstandingTasks ∧
      snapshot.maxOutstandingTasks = x.deployed.scheduler.shared.config.maxOutstandingTasks := by
  have all : (deployment keys memory ι).Reachable x.deployed ∧
      x.reading.Limited x.deployed.scheduler.shared.config := by
    refine System.invariant (S := observed keys memory ι)
      (P := fun x => (deployment keys memory ι).Reachable x.deployed ∧
        x.reading.Limited x.deployed.scheduler.shared.config) ?_ (fun u o v hu hst => ?_) h
    · rintro x ⟨start, rest⟩
      rw [rest]
      exact ⟨System.reachable_init start, trivial⟩
    · obtain ⟨reach, limited⟩ := hu
      cases o with
      | step e =>
        obtain ⟨hst, same⟩ := hst
        rw [config_kept reach hst, same]
        exact ⟨reach.next hst, limited⟩
      | read answer copying =>
        obtain ⟨-, rfl⟩ := hst
        exact ⟨reach, limited_read reach limited answer copying⟩
  refine ⟨(deployment_limited all.1).1, fun snapshot hs => ?_⟩
  have limited := all.2
  rw [hs] at limited
  exact ⟨limited.1, limited.2.2 ▸ limited.2.1, limited.2.2⟩

/-- Nobody has to ask for a snapshot. -/
theorem observed_resting (h : (deployment keys memory ι).Reachable d) :
    (observed keys memory ι).Reachable ⟨d, .resting⟩ := by
  obtain ⟨d₀, start, run⟩ := h
  refine ⟨⟨d₀, .resting⟩, ⟨start, rfl⟩, ?_⟩
  induction run with
  | refl => exact .refl _
  | tail _ hst ih => exact ih.tail (e := .step _) ⟨hst, rfl⟩

theorem observed_read {x : Observed ι} (h : (observed keys memory ι).Reachable x)
    (answer : Option StrategyHealthSnapshot) (copying : Copying)
    (free : x.reading = .resting → x.deployed.scheduler.locks .threads = none) :
    (observed keys memory ι).Reachable
      { x with reading := readNext x.deployed.scheduler.shared answer copying x.reading } :=
  h.next (e := .read answer copying) ⟨free, rfl⟩

/-- A snapshot after the one task has completed. -/
theorem records_bounded_completed : ∃ (x : Observed Unit) (snapshot : SchedulerHealthSnapshot),
    (observed echoKeys echoMemory Unit).Reachable x ∧ x.reading = .returned snapshot ∧
      snapshot.backendStatusCounts .completed = 1 ∧
      snapshot.outstandingTasks ≤ snapshot.maxOutstandingTasks := by
  obtain ⟨d, h, shown⟩ := echo_spec echo_runs.2.2.1
  obtain ⟨hfree, hlist, -⟩ := of_decide_eq_true shown
  have hcount : statusCounts d.ledger.backend.records.values .completed = 1 := by
    obtain ⟨r, hr, hstatus⟩ := List.map_eq_singleton_iff.mp hlist
    rw [hr]
    simp [statusCounts, hstatus]
  have r0 := observed_resting h
  have r1 := observed_read r0 none copies fun _ => hfree
  have r2 := observed_read r1 none copies nofun
  have hread : readNext d.scheduler.shared none copies
      (.threads d.scheduler.shared.threads.length) = .records d.scheduler.shared.threads.length
        (statusCounts d.ledger.backend.records.values) := by
    simp only [readNext]
    rw [Backend.listAll_copies]
  rw [show readNext d.scheduler.shared none copies .resting =
    .threads d.scheduler.shared.threads.length from rfl, hread] at r2
  have r3 := observed_read r2 none copies nofun
  have r4 := observed_read r3 none copies nofun
  have r5 := observed_read r4 none copies nofun
  have r6 := observed_read r5 none copies nofun
  exact ⟨_, _, r6, rfl, hcount, ((records_bounded r6).2 _ rfl).2.1⟩

end

end SchedulerHealth
