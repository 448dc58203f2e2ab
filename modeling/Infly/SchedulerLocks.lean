import Infly.SchedulerModel

/-! # Locks and threads of the scheduler

A lock is held by the thread whose program counter lies in its critical section, and each
program counter belongs to the kind of thread that runs its code.
-/
namespace SchedulerLocks

open Contracts TaskBackend SchedulerState SchedulerModel

variable {ι : Type} [DecidableEq ι] {s : Shared ι} {a : Thread ι} {p : Pc} {c : Choice}
  {x : Shared ι × Pc}

omit [DecidableEq ι] in
theorem resting_locks (h : p.resting = true) : p.locks a = [] := by
  cases p <;> first | rfl | cases h

theorem respond_resting (q : Query) (r : TaskQueryResponse) : (q.respond r).resting = true := by
  unfold Query.respond
  split
  · rfl
  · split <;> rfl

theorem fail_resting (q : Query) (e : PlatformError) : (q.fail e).resting = true := by
  unfold Query.fail
  split <;> rfl

theorem escape_resting (q : Query) (e : Raised) : (q.escape e).resting = true := by
  cases e with
  | platform e => exact fail_resting q e
  | _ => rfl

/-- Where a thread goes on when its dealings with a task, or with the lifecycle, are over. -/
def resumed : Pc → Bool
  | .idle | .returned _ | .raised _ | .joining _ _ _ | .filtering | .querying _ | .registering _
  | .waitChecking _ _ | .pullChecking | .removing | .leaving | .exited => true
  | _ => false

@[simp] theorem fail_resumed (q : Query) (e : PlatformError) : resumed (q.fail e) = true := by
  unfold Query.fail
  split <;> rfl

@[simp] theorem escape_resumed (q : Query) (e : Raised) : resumed (q.escape e) = true := by
  cases e with
  | platform e => exact fail_resumed q e
  | _ => rfl

@[simp] theorem respond_resumed (q : Query) (r : TaskQueryResponse) :
    resumed (q.respond r) = true := by
  unfold Query.respond
  split
  · rfl
  · split <;> rfl

@[simp] theorem start_resumed (q : Query) (now : ℕ) : resumed (q.start now) = true := by
  unfold Query.start
  repeat' split
  all_goals first
    | rfl
    | exact fail_resumed ..

/-- After a look at its record a query fails, reads, or waits for a task that is not over. -/
theorem look_cases (q : Query) (now : ℕ) (d : Option ℕ) (r : Option TaskRecord) :
    resumed (q.look now d r) = true ∨
      (q.look now d r = .reading q true ∧ ∃ y, r = some y ∧ terminal y.status = true) ∨
      (∃ w, q.look now d r = .blocking q w) ∧ ∃ y, r = some y ∧ terminal y.status = false := by
  unfold Query.look
  split
  · exact .inl (fail_resumed ..)
  · rename_i y
    split
    · rename_i ht
      exact .inr (.inl ⟨rfl, y, rfl, ht⟩)
    · rename_i hn
      have hl : terminal y.status = false := Bool.not_eq_true _ ▸ hn
      split
      · exact .inr (.inr ⟨⟨_, rfl⟩, y, rfl, hl⟩)
      · split
        · exact .inl (fail_resumed ..)
        · exact .inr (.inr ⟨⟨_, rfl⟩, y, rfl, hl⟩)

theorem look_of {P : Pc → Prop} (q : Query) (now : ℕ) (d : Option ℕ) (r : Option TaskRecord)
    (rest : ∀ p, resumed p = true → P p) (reads : P (.reading q true))
    (blocks : ∀ w, P (.blocking q w)) : P (q.look now d r) := by
  rcases look_cases q now d r with h | ⟨h, _⟩ | ⟨⟨w, h⟩, _⟩
  · exact rest _ h
  · exact h ▸ reads
  · exact h ▸ blocks w

@[simp] theorem joinFrom_resumed (d : ℕ) (ks : List ℕ) : resumed (joinFrom d ks) = true := by
  cases ks <;> rfl

@[simp] theorem followUp_resumed (job : Job) : resumed job.followUp = true := by
  unfold Job.followUp
  split <;> rfl

omit [DecidableEq ι] in
@[simp] theorem home_resumed : resumed (home a) = true := by cases a <;> rfl

omit [DecidableEq ι] in
@[simp] theorem afterSweep_resumed : resumed (afterSweep a) = true := by cases a <;> rfl

omit [DecidableEq ι] in
@[simp] theorem abortSweep_resumed (e : Raised) : resumed (abortSweep e a) = true := by
  cases a <;> rfl

omit [DecidableEq ι] in
/-- The program counters at which `a` sweeps, or has swept. -/
theorem sweepFrom_cases (a : Thread ι) (done rest : List TaskId) :
    (done = [] ∧ rest = [] ∧ sweepFrom a done rest = afterSweep a) ∨
    (done ≠ [] ∧ rest = [] ∧ sweepFrom a done rest = .notifying (.swept done)) ∨
    ∃ t rest', rest = t :: rest' ∧ sweepFrom a done rest = .sweeping t done rest' := by
  cases rest with
  | nil =>
    by_cases h : done = []
    · exact .inl ⟨h, rfl, by simp [sweepFrom, h]⟩
    · exact .inr (.inl ⟨h, rfl, by simp [sweepFrom, h]⟩)
  | cons t rest => exact .inr (.inr ⟨t, rest, rfl, rfl⟩)

/-- These, and the program counters at which a thread goes on with a task that is over, with
the tasks it sweeps, or with its waiter. -/
def onward : Pc → Bool
  | .notifying (.swept _) | .notifying (.finished _ _) | .sweeping _ _ _
  | .fetching _ (.workerLoop _) | .releasing _ (.finish _) | .resolving _ _ | .cleaning _ _
  | .exiting => true
  | p => resumed p

theorem resumed_onward (h : resumed p = true) : onward p = true := by
  cases p <;> first
    | rfl
    | exact h
    | cases h

omit [DecidableEq ι] in
@[simp] theorem sweepFrom_onward (done rest : List TaskId) :
    onward (sweepFrom a done rest) = true := by
  rcases sweepFrom_cases a done rest with ⟨_, _, hp⟩ | ⟨_, _, hp⟩ | ⟨t, rest', _, hp⟩
  · exact hp ▸ resumed_onward afterSweep_resumed
  · exact hp ▸ rfl
  · exact hp ▸ rfl

@[simp] theorem escape_onward (e : Raised) (k : Report) : onward (k.escape e) = true := by
  cases k with
  | ended t m request => cases m <;> rfl
  | _ => rfl

@[simp] theorem ender_escape_onward (t : TaskId) (e : Raised) (m : Ender) :
    onward (m.escape t e) = true := by cases m <;> rfl

omit [DecidableEq ι] in
@[simp] theorem afterRelease_onward (t : TaskId) (k : Cont) :
    onward (afterRelease a t k) = true := by
  cases k with
  | coroutine q => exact resumed_onward home_resumed
  | _ => rfl

omit [DecidableEq ι] in
@[simp] theorem afterOverRelease_onward (t : TaskId) (k : Cont) :
    onward (afterOverRelease a t k) = true := by
  cases k with
  | rollback e => rfl
  | finish m =>
    cases m with
    | completeTask o => exact resumed_onward home_resumed
    | _ => rfl
  | sweep done rest => exact resumed_onward (abortSweep_resumed _)
  | coroutine q => exact resumed_onward home_resumed

omit [DecidableEq ι] in
@[simp] theorem afterResolve_onward (t : TaskId) (k : Cont) :
    onward (afterResolve a t k) = true := by
  cases k with
  | sweep done rest => exact sweepFrom_onward ..
  | coroutine q => rfl
  | _ => exact resumed_onward home_resumed

omit [DecidableEq ι] in
@[simp] theorem afterNotify_onward (now : ℕ) (n : Notice) :
    onward (afterNotify now a n) = true := by
  cases n with
  | submitted job => exact resumed_onward (followUp_resumed job)
  | stopping timeout workers => exact resumed_onward (joinFrom_resumed ..)
  | finished t m => rfl
  | swept done => exact resumed_onward afterSweep_resumed

omit [DecidableEq ι] in
theorem afterSweep_locks {l : Lock} (h : l ∈ (afterSweep a).locks a) : l = sweepLock a := by
  cases a <;> simp_all [afterSweep, Pc.locks, sweepLock]

omit [DecidableEq ι] in
theorem sweepFrom_locks {l : Lock} {done rest : List TaskId}
    (h : l ∈ (sweepFrom a done rest).locks a) : l = sweepLock a := by
  rcases sweepFrom_cases a done rest with ⟨_, _, hp⟩ | ⟨_, _, hp⟩ | ⟨t, rest', _, hp⟩
  · rw [hp] at h
    exact afterSweep_locks h
  · rw [hp] at h
    simpa [Pc.locks, Notice.locks] using h
  · rw [hp] at h
    simpa [Pc.locks] using h

omit [DecidableEq ι] in
@[simp] theorem fail_locks (q : Query) (e : PlatformError) : (q.fail e).locks a = [] :=
  resting_locks (fail_resting q e)

omit [DecidableEq ι] in
@[simp] theorem query_escape_locks (q : Query) (e : Raised) : (q.escape e).locks a = [] :=
  resting_locks (escape_resting q e)

omit [DecidableEq ι] in
@[simp] theorem respond_locks (q : Query) (r : TaskQueryResponse) : (q.respond r).locks a = [] :=
  resting_locks (respond_resting q r)

omit [DecidableEq ι] in
@[simp] theorem start_locks (q : Query) (now : ℕ) : (q.start now).locks a = [] := by
  unfold Query.start
  split
  · rfl
  · split
    · simp
    · rfl

omit [DecidableEq ι] in
theorem look_locks {q : Query} {now : ℕ} {d : Option ℕ} {r : Option TaskRecord} {l : Lock}
    (h : l ∈ (q.look now d r).locks a) : l = .condition := by
  unfold Query.look at h
  split at h
  · simp at h
  · split at h
    · simpa [Pc.locks] using h
    · split at h
      · simpa [Pc.locks] using h
      · split at h
        · simp at h
        · simpa [Pc.locks] using h

omit [DecidableEq ι] in
@[simp] theorem joinFrom_locks (d : ℕ) (ks : List ℕ) : (joinFrom d ks).locks a = [.lifecycle] := by
  cases ks <;> rfl

omit [DecidableEq ι] in
@[simp] theorem home_locks : (home a).locks a = [] := by cases a <;> rfl

omit [DecidableEq ι] in
@[simp] theorem abortSweep_locks (e : Raised) : (abortSweep e a).locks a = [] := by
  cases a <;> rfl

omit [DecidableEq ι] in
@[simp] theorem followUp_locks (job : Job) : job.followUp.locks a = [] := by
  unfold Job.followUp
  split <;> rfl

omit [DecidableEq ι] in
@[simp] theorem next_locks (k : Report) : k.next.locks a = k.locks := by cases k <;> rfl

omit [DecidableEq ι] in
@[simp] theorem escape_locks (e : Raised) (k : Report) : (k.escape e).locks a = [] := by
  cases k with
  | ended t m request => cases m <;> rfl
  | _ => rfl

omit [DecidableEq ι] in
@[simp] theorem ender_escape_locks (t : TaskId) (e : Raised) (m : Ender) :
    (m.escape t e).locks a = [] := by cases m <;> rfl

omit [DecidableEq ι] in
theorem afterRelease_locks {t : TaskId} {k : Cont} {l : Lock}
    (h : l ∈ (afterRelease a t k).locks a) : l ∈ k.locks a := by
  cases k with
  | rollback e => cases h
  | coroutine q => simp [afterRelease] at h
  | _ => exact h

omit [DecidableEq ι] in
@[simp] theorem afterOverRelease_locks (t : TaskId) (k : Cont) :
    (afterOverRelease a t k).locks a = [] := by
  cases k with
  | rollback e => rfl
  | finish m =>
    cases m with
    | completeTask o => exact home_locks
    | _ => rfl
  | sweep done rest => exact abortSweep_locks _
  | coroutine q => exact home_locks

omit [DecidableEq ι] in
theorem afterResolve_locks {t : TaskId} {k : Cont} {l : Lock}
    (h : l ∈ (afterResolve a t k).locks a) : l ∈ k.locks a := by
  cases k with
  | sweep done rest => exact List.mem_singleton.mpr (sweepFrom_locks h)
  | coroutine q => exact h
  | _ => simp [afterResolve] at h

omit [DecidableEq ι] in
theorem afterNotify_locks {now : ℕ} {n : Notice} {l : Lock}
    (h : l ∈ (afterNotify now a n).locks a) : l ∈ n.locks a := by
  cases n with
  | submitted job => simp [afterNotify] at h
  | stopping timeout workers => simpa [afterNotify, Notice.locks] using h
  | finished t m => exact h
  | swept done => exact List.mem_singleton.mpr (afterSweep_locks h)

/-! ## Which thread runs what -/

def isClient : Thread ι → Bool
  | .client _ => true
  | _ => false

def isWorker : Thread ι → Bool
  | .worker _ => true
  | _ => false

def mayEnd (a : Thread ι) : Ender → Bool
  | .completeTask _ => !isClient a
  | _ => isWorker a

def maySweep (a : Thread ι) : Bool := isClient a || isWorker a

def mayRelease (a : Thread ι) : Cont → Bool
  | .rollback _ => isClient a
  | .finish m => mayEnd a m
  | .sweep _ _ => maySweep a
  | .coroutine _ => false

def mayResolve (a : Thread ι) : Cont → Bool
  | .rollback _ => false
  | .finish m => mayEnd a m
  | .sweep _ _ => maySweep a
  | .coroutine _ => isClient a

def reportOn (a : Thread ι) : Report → Bool
  | .submitted _ => isClient a
  | .started _ _ => isWorker a
  | .ended _ m _ => mayEnd a m

def noticeOn (a : Thread ι) : Notice → Bool
  | .submitted _ | .stopping _ _ => isClient a
  | .finished _ m => mayEnd a m
  | .swept _ => maySweep a

/-- The program counters that a thread can have. -/
def runsOn (a : Thread ι) : Pc → Bool
  | .reporting k | .tracing k _ => reportOn a k
  | .releasing _ c | .givingBack _ c => mayRelease a c
  | .resolving _ c | .scheduling _ _ c => mayResolve a c
  | .notifying n => noticeOn a n
  | .listingIds | .listingRecords _ | .sweeping _ _ _ => maySweep a
  | .unstarted | .pullChecking | .pulling | .pullBlocking | .pullWaiting | .checking _
  | .running _ _ | .executing _ _ | .addingCallback _ _ | .exiting | .removing
  | .leaving => isWorker a
  | .uncalled => !isClient a && !isWorker a
  | .fetching _ m | .updating _ m _ => mayEnd a m
  | .exited => !isClient a
  | _ => isClient a

omit [DecidableEq ι] in
theorem resting_runsOn (i : ι) (h : p.resting = true) : runsOn (.client i) p = true := by
  cases p <;> first | rfl | cases h

omit [DecidableEq ι] in
theorem isClient_iff : isClient a = true ↔ ∃ i, a = .client i := by
  cases a <;> simp [isClient]

omit [DecidableEq ι] in
theorem resting_client (h : isClient a = true) (hr : p.resting = true) : runsOn a p = true := by
  obtain ⟨i, rfl⟩ := isClient_iff.mp h
  exact resting_runsOn i hr

omit [DecidableEq ι] in
theorem home_runsOn {m : Ender} (h : mayEnd a m = true) : runsOn a (home a) = true := by
  cases a with
  | client i => cases m <;> cases h
  | _ => rfl

omit [DecidableEq ι] in
theorem afterSweep_runsOn (h : maySweep a = true) : runsOn a (afterSweep a) = true := by
  cases a <;> first | rfl | cases h

omit [DecidableEq ι] in
theorem sweepFrom_runsOn (h : maySweep a = true) (done rest : List TaskId) :
    runsOn a (sweepFrom a done rest) = true := by
  rcases sweepFrom_cases a done rest with ⟨_, _, hp⟩ | ⟨_, _, hp⟩ | ⟨t, rest', _, hp⟩
  · exact hp ▸ afterSweep_runsOn h
  · exact hp ▸ h
  · exact hp ▸ h

omit [DecidableEq ι] in
theorem abortSweep_runsOn (h : maySweep a = true) (e : Raised) :
    runsOn a (abortSweep e a) = true := by cases a <;> first | rfl | cases h

omit [DecidableEq ι] in
theorem afterRelease_runsOn {t : TaskId} {k : Cont} (h : mayRelease a k = true) :
    runsOn a (afterRelease a t k) = true := by
  cases k with
  | coroutine q => cases h
  | _ => exact h

omit [DecidableEq ι] in
theorem afterOverRelease_runsOn {t : TaskId} {k : Cont} (h : mayRelease a k = true) :
    runsOn a (afterOverRelease a t k) = true := by
  cases k with
  | rollback e => exact h
  | finish m =>
    cases m with
    | completeTask o => exact home_runsOn (m := .completeTask o) h
    | _ => exact h
  | sweep done rest => exact abortSweep_runsOn h _
  | coroutine q => cases h

omit [DecidableEq ι] in
theorem afterResolve_runsOn {t : TaskId} {k : Cont} (h : mayResolve a k = true) :
    runsOn a (afterResolve a t k) = true := by
  cases k with
  | rollback e => cases h
  | finish m => exact home_runsOn h
  | sweep done rest => exact sweepFrom_runsOn h _ _
  | coroutine q => exact h

omit [DecidableEq ι] in
theorem followUp_runsOn (h : isClient a = true) (job : Job) : runsOn a job.followUp = true := by
  unfold Job.followUp
  split <;> exact h

omit [DecidableEq ι] in
theorem joinFrom_runsOn (h : isClient a = true) (d : ℕ) (ks : List ℕ) :
    runsOn a (joinFrom d ks) = true := by
  cases ks <;> exact h

omit [DecidableEq ι] in
theorem afterNotify_runsOn {now : ℕ} {n : Notice} (h : noticeOn a n = true) :
    runsOn a (afterNotify now a n) = true := by
  cases n with
  | submitted job => exact followUp_runsOn h job
  | stopping timeout workers => exact joinFrom_runsOn h _ _
  | finished t m => exact h
  | swept done => exact afterSweep_runsOn h

omit [DecidableEq ι] in
theorem worker_mayEnd (h : isWorker a = true) (m : Ender) : mayEnd a m = true := by
  cases a <;> cases h
  cases m <;> rfl

omit [DecidableEq ι] in
theorem report_escape_runsOn {k : Report} (h : reportOn a k = true) (e : Raised) :
    runsOn a (k.escape e) = true := by
  cases k with
  | submitted job => exact h
  | started t request => exact h
  | ended t m request => cases m <;> exact h

omit [DecidableEq ι] in
theorem report_next_runsOn {k : Report} (h : reportOn a k = true) : runsOn a k.next = true := by
  cases k <;> exact h

omit [DecidableEq ι] in
theorem ender_escape_runsOn {m : Ender} (h : mayEnd a m = true) (t : TaskId) (e : Raised) :
    runsOn a (m.escape t e) = true := by
  cases m <;> exact h

omit [DecidableEq ι] in
theorem start_runsOn (h : isClient a = true) (q : Query) (now : ℕ) :
    runsOn a (q.start now) = true := by
  unfold Query.start
  split
  · exact h
  · split
    · exact resting_client h (fail_resting ..)
    · exact h

omit [DecidableEq ι] in
theorem look_runsOn (h : isClient a = true) (q : Query) (now : ℕ) (d : Option ℕ)
    (r : Option TaskRecord) : runsOn a (q.look now d r) = true := by
  unfold Query.look
  repeat' split
  all_goals first
    | exact h
    | exact resting_client h (fail_resting ..)

theorem turn_runsOn (h : act s a p c = some x) (hp : runsOn a p = true) :
    runsOn a x.2 = true := by
  cases c with
  | go =>
    cases p <;> simp only [act, advance] at h
    case storing job =>
      cases h
      dsimp only
      split <;> exact hp
    case tracing k event => cases h; exact report_next_runsOn hp
    case releasing t k =>
      split at h <;> cases h
      · exact hp
      · exact afterRelease_runsOn hp
    case givingBack t k =>
      split at h <;> cases h
      · exact afterRelease_runsOn hp
      · exact afterOverRelease_runsOn hp
    case notifying n => cases h; exact afterNotify_runsOn hp
    case resolving t k =>
      split at h <;> cases h
      · exact afterResolve_runsOn hp
      · exact hp
    case scheduling w t k => split at h <;> cases h <;> exact afterResolve_runsOn hp
    case joining deadline k rest =>
      split at h <;> cases h
      · exact hp
      · exact joinFrom_runsOn hp _ _
    case filtering =>
      cases h
      dsimp only
      split
      · simp [runsOn, maySweep, show isClient a = true from hp]
      · exact hp
    case listingRecords ids => cases h; exact sweepFrom_runsOn hp _ _
    case sweeping t done rest =>
      cases h
      dsimp only
      split
      · exact hp
      · exact abortSweep_runsOn hp _
    case querying q =>
      repeat' split at h
      all_goals cases h
      · exact resting_client hp (fail_resting ..)
      · exact hp
      · exact start_runsOn hp _ _
      · exact resting_client hp (respond_resting ..)
    case reading q locked =>
      cases h
      dsimp only
      split
      · exact resting_client hp (fail_resting ..)
      · exact resting_client hp (respond_resting ..)
      · exact resting_client hp (escape_resting ..)
    case waitChecking q deadline => cases h; exact look_runsOn hp ..
    case checking t =>
      cases h
      have hh : runsOn a (home a) = true := home_runsOn (worker_mayEnd hp (.failTask overReleased))
      dsimp only
      repeat' split
      all_goals first
        | exact hh
        | exact hp
    case running t request =>
      cases h
      dsimp only
      split <;> exact hp
    case addingCallback t f =>
      split at h
      · cases h
        exact home_runsOn (worker_mayEnd hp (.failTask overReleased))
      · rename_i o _
        cases h
        exact worker_mayEnd hp (.completeTask o)
    case uncalled =>
      repeat' split at h
      all_goals cases h
      rfl
    case updating t m request =>
      cases h
      dsimp only
      split
      · exact ender_escape_runsOn hp t _
      · exact hp
      · exact hp
    case exiting =>
      repeat' split at h
      all_goals cases h <;> rfl
    all_goals repeat' split at h
    all_goals cases h
    all_goals exact hp
  | raises e =>
    cases p <;> simp only [act, throwing] at h
    case tracing k event => cases h; exact report_escape_runsOn hp e
    all_goals repeat' split at h
    all_goals cases h
    all_goals first
      | exact hp
      | exact abortSweep_runsOn hp _
      | exact resting_client hp (escape_resting ..)
  | timeout =>
    cases p <;> simp only [act, expire] at h
    case joining deadline k rest =>
      split at h <;> cases h
      exact joinFrom_runsOn hp _ _
    all_goals repeat' split at h
    all_goals cases h
    all_goals exact hp

/-- A step reaches only locks that it held or took. -/
theorem turn_locks {l : Lock} (h : act s a p c = some x) (hp : runsOn a p = true)
    (hl : l ∈ x.2.locks a) : l ∈ p.locks a ∨ l ∈ p.needs := by
  cases c with
  | go =>
    cases p <;> simp only [act, advance] at h
    case releasing t k =>
      split at h <;> cases h
      · exact .inl hl
      · exact .inl (afterRelease_locks hl)
    case givingBack t k =>
      split at h <;> cases h
      · exact .inl (afterRelease_locks hl)
      · simp at hl
    case resolving t k =>
      split at h <;> cases h
      · exact .inl (afterResolve_locks hl)
      · exact .inl hl
    case scheduling w t k =>
      split at h <;> cases h
      all_goals exact .inl (afterResolve_locks hl)
    case notifying n =>
      cases h
      exact .inl (afterNotify_locks hl)
    case listingRecords ids =>
      cases h
      exact .inl (List.mem_singleton.mpr (sweepFrom_locks hl))
    case waitChecking q d =>
      cases h
      exact .inr (List.mem_singleton.mpr (look_locks hl))
    case joining deadline k rest =>
      split at h <;> cases h
      · cases hl
      · exact .inl (by rwa [joinFrom_locks] at hl)
    case filtering =>
      obtain ⟨i, rfl⟩ := isClient_iff.mp hp
      split at h <;> cases h
      · exact .inl hl
      · cases hl
    all_goals repeat' split at h
    all_goals cases h
    all_goals first
      | exact .inl hl
      | exact .inr hl
      | cases hl
      | (simp at hl; done)
      | (simp at hl; exact .inl hl)
  | raises e =>
    cases p <;> simp only [act, throwing] at h
    all_goals repeat' split at h
    all_goals cases h
    all_goals first
      | exact .inl hl
      | cases hl
      | simp at hl
  | timeout =>
    cases p <;> simp only [act, expire] at h
    case joining deadline k rest =>
      split at h <;> cases h
      exact .inl (by rwa [joinFrom_locks] at hl)
    all_goals repeat' split at h
    all_goals cases h
    all_goals cases hl

/-! ## Mutual exclusion -/

section

variable {s t : State ι} {e : Event ι} {b : Thread ι} {l : Lock}

structure Exclusive (s : State ι) : Prop where
  placed : ∀ a, runsOn a (s.pc a) = true
  held : ∀ l a, s.locks l = some a ↔ l ∈ (s.pc a).locks a

omit [DecidableEq ι] in
theorem Exclusive.unique (h : Exclusive s) (ha : l ∈ (s.pc a).locks a)
    (hb : l ∈ (s.pc b).locks b) : a = b :=
  Option.some.inj (((h.held l a).mpr ha).symm.trans ((h.held l b).mpr hb))

/-- A thread that reaches only locks it held, or that were free, keeps locks exclusive. -/
theorem Exclusive.goto (h : Exclusive s) (hr : runsOn a x.2 = true)
    (hx : ∀ l ∈ x.2.locks a, l ∈ (s.pc a).locks a ∨ s.locks l = none) :
    Exclusive (s.goto a x) := by
  refine ⟨fun b => ?_, fun l b => ?_⟩
  · by_cases hb : b = a
    · subst hb
      simpa [State.goto] using hr
    · simpa [State.goto, hb] using h.placed b
  by_cases hb : b = a
  · subst hb
    by_cases hl : l ∈ x.2.locks b
    · simp [State.goto, hl]
    · simp only [State.goto, hl, ↓reduceIte, Function.update_self, iff_false]
      split
      · exact fun h => nomatch h
      · assumption
  · simp only [State.goto, Function.update_of_ne hb]
    split
    · rename_i hl
      have hne : s.locks l ≠ some b := by
        rcases hx l hl with hl | hl
        · rw [(h.held l a).mpr hl]
          exact fun he => hb (Option.some.inj he).symm
        · rw [hl]
          exact fun he => nomatch he
      rw [← h.held l b]
      exact ⟨fun he => absurd (Option.some.inj he).symm hb, fun he => absurd he hne⟩
    · rw [← h.held l b]
      split
      · rename_i hl
        rw [hl]
        exact ⟨fun he => (nomatch he), fun he => absurd (Option.some.inj he).symm hb⟩
      · rfl

omit [DecidableEq ι] in
theorem enter_locks (sh : Shared ι) (k : Call) : (k.enter sh).2.locks a = [] := by
  cases k with
  | stop timeout =>
    simp only [Call.enter]
    split <;> rfl
  | _ => rfl

omit [DecidableEq ι] in
theorem enter_runsOn (sh : Shared ι) (k : Call) (i : ι) :
    runsOn (.client i) (k.enter sh).2 = true := by
  cases k with
  | stop timeout =>
    simp only [Call.enter]
    split <;> rfl
  | _ => rfl

/-- Each event moves at most one thread, by an enabled step or a call, or none. -/
theorem step_cases (h : Step s e t) :
    (∃ i k, e = .call i k ∧ (s.pc (.client i)).resting = true ∧
      t = s.goto (.client i) (k.enter s.shared)) ∨
    (∃ a c x, e = .step a c ∧ (∀ l ∈ (s.pc a).needs, s.locks l = none) ∧
      act s.shared a (s.pc a) c = some x ∧ t = s.goto a x) ∨
    (∃ f o, e = .resolve f o ∧ f < s.shared.ledger.nextFuture ∧
      (s.shared.ledger.futures f).outcome = none ∧
      t = { s with shared := { s.shared with
        ledger := s.shared.ledger.modify f fun x => { x with outcome := some o } } }) ∨
    (∃ w, e = .fire w ∧ s.shared.waiterFuture w = .scheduled ∧
      t = { s with shared := { s.shared with
        waiterFuture := Function.update s.shared.waiterFuture w .done } }) ∨
    ∃ d, e = .tick d ∧
      t = { s with shared := { s.shared with clock := s.shared.clock + d } } := by
  unfold Step at h
  cases e with
  | call i k =>
    simp only [next] at h
    split at h
    · rename_i hr
      exact .inl ⟨i, k, rfl, hr, (Option.some.inj h).symm⟩
    · cases h
  | step a c =>
    simp only [next] at h
    split at h
    · rename_i hn
      obtain ⟨x, hx, ht⟩ := Option.map_eq_some_iff.mp h
      exact .inr (.inl ⟨a, c, x, rfl, hn, hx, ht.symm⟩)
    · cases h
  | resolve f o =>
    simp only [next] at h
    split at h
    · rename_i hf
      exact .inr (.inr (.inl ⟨f, o, rfl, hf.1, hf.2, (Option.some.inj h).symm⟩))
    · cases h
  | fire w =>
    simp only [next] at h
    split at h
    · rename_i hw
      exact .inr (.inr (.inr (.inl ⟨w, rfl, hw, (Option.some.inj h).symm⟩)))
    · cases h
  | tick d => exact .inr (.inr (.inr (.inr ⟨d, rfl, (Option.some.inj h).symm⟩)))

omit [DecidableEq ι] in
theorem exclusive_begin (config : Config.SchedulerConfig) (b : Backend) :
    Exclusive (begin (ι := ι) config b) where
  placed a := by cases a <;> rfl
  held l a := by cases a <;> simp [begin, Pc.locks]

theorem exclusive_next (h : Exclusive s) (hs : Step s e t) : Exclusive t := by
  rcases step_cases hs with ⟨i, k, rfl, _, rfl⟩ | ⟨a, c, x, rfl, hn, hx, rfl⟩ |
    ⟨f, o, rfl, _, _, rfl⟩ | ⟨w, rfl, _, rfl⟩ | ⟨d, rfl, rfl⟩
  · refine h.goto (enter_runsOn ..) fun l hl => ?_
    rw [enter_locks] at hl
    cases hl
  · exact h.goto (turn_runsOn hx (h.placed a)) fun l hl =>
      (turn_locks hx (h.placed a) hl).imp_right (hn l)
  · exact ⟨h.placed, h.held⟩
  · exact ⟨h.placed, h.held⟩
  · exact ⟨h.placed, h.held⟩

theorem reachable_exclusive (h : (system ι).Reachable s) : Exclusive s := by
  refine Transitions.System.invariant ?_ (fun _ _ _ hs hst => exclusive_next hs hst) h
  rintro s ⟨config, b, _, rfl⟩
  exact exclusive_begin config b

end

end SchedulerLocks
