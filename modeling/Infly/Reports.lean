import Infly.TaskLife
import Infly.SingleUse

/-! # Reports

What is recorded about a task, and told to the trace sinks, comes in two steps after the step
that changes the task.
-/
namespace Reports

open Contracts TaskBackend Observability SchedulerState SchedulerModel SchedulerLocks
  SchedulerLedger SchedulerDuties SchedulerStages SchedulerAccounts SchedulerRequests TaskLife
  SingleUse Transitions

def reportTask : Report → TaskId
  | .submitted job => job.task
  | .started t _ | .ended t _ _ => t

def reportName : Report → String
  | .submitted _ => "task.submitted"
  | .started _ _ => "task.started"
  | .ended _ m _ => if m.update.status = .completed then "task.completed" else "task.failed"

theorem ender_status (m : Ender) : m.update.status = .completed ∨ m.update.status = .failed := by
  cases m with
  | completeTask o => cases o <;> simp [Ender.update, executionFailed]
  | _ => exact .inr rfl

/-- The report that a thread has to record or to tell. -/
def told : Pc → Option Report
  | .reporting k | .tracing k _ => some k
  | _ => none

variable {ι : Type} {a b : Thread ι} {p : Pc} {t : TaskId} {k : Report}

theorem told_iff : told p = some k ↔ p = .reporting k ∨ ∃ event, p = .tracing k event := by
  cases p <;> simp [told]

theorem onward_told (h : onward p = true) : told p = none := by
  cases p <;> first
    | rfl
    | cases h

theorem resting_told (h : p.resting = true) : told p = none := by
  cases p <;> first
    | rfl
    | cases h

@[simp] theorem next_told (k : Report) : told k.next = none := by cases k <;> rfl

@[simp] theorem escape_told (e : Raised) (k : Report) : told (k.escape e) = none :=
  onward_told (escape_onward e k)

@[simp] theorem report_task (sh : Shared ι) (k : Report) :
    (report sh k).1.taskId = reportTask k := by
  cases k with
  | ended t m request =>
    simp only [report]
    split <;> rfl
  | _ => rfl

@[simp] theorem report_name (sh : Shared ι) (k : Report) :
    (report sh k).1.name = reportName k := by
  cases k with
  | ended t m request =>
    simp only [report, reportName]
    split <;> rfl
  | _ => rfl

section

variable [DecidableEq ι] {s s' : State ι} {stage : TaskId → Stage ι} {sh : Shared ι}
  {x : Shared ι × Pc} {c : Choice} {e : Event ι} {L : Ledger}

/-- What of the ledger a report speaks of. -/
structure Unmoved (L L' : Ledger) : Prop where
  accepted : L'.accepted = L.accepted
  foreign : L'.foreign = L.foreign
  moves : L'.moves = L.moves

theorem Unmoved.refl (L : Ledger) : Unmoved L L := ⟨rfl, rfl, rfl⟩

/-- A step records a report, tells it or loses it, changes a task and then has to report it,
fails a task without a report, or does none of this. -/
inductive Course (sh : Shared ι) (p : Pc) (c : Choice) (x : Shared ι × Pc) : Prop where
  | records (k : Report) (hp : p = .reporting k) (hx : x.2 = .tracing k (report sh k).1)
    (hs : x.1 = { sh with instrumentation := (report sh k).2 })
  | tells (k : Report) (event : TraceEvent) (hp : p = .tracing k event) (hc : c = .go)
    (hx : told x.2 = none) (hs : x.1 = { sh with trace := sh.trace ++ [event] })
  | loses (k : Report) (event : TraceEvent) (hp : p = .tracing k event)
    (hc : ∃ e, c = .raises e) (hx : told x.2 = none) (hs : x.1 = sh)
  | stores (job : Job) (hp : p = .storing job) (hx : x.2 = .reporting (.submitted job))
    (hs : x.1 = { sh with ledger := (sh.ledger.store job.request job.priority).2 })
  | starts (t : TaskId) (request : TaskRequest) (hp : p = .running t request)
    (hx : x.2 = .reporting (.started t request))
    (hs : x.1 = { sh with ledger := (sh.ledger.update sh.clock t { status := .running }).2 })
  | ends (t : TaskId) (m : Ender) (request : TaskRequest) (hp : p = .updating t m (some request))
    (hx : x.2 = .reporting (.ended t m request))
    (hs : x.1 = { sh with ledger := (sh.ledger.update sh.clock t m.update).2 })
  | sweeps (t : TaskId) (done rest : List TaskId) (hp : p = .sweeping t done rest)
    (hc : c = .go) (hx : told x.2 = none)
    (hs : x.1 = { sh with ledger := (sh.ledger.update sh.clock t stoppedBeforeStart).2 })
  | passes (hp : told p = none) (hx : told x.2 = none) (hn : ∀ t done rest,
      p ≠ .sweeping t done rest) (hL : Unmoved sh.ledger x.1.ledger)
    (ht : x.1.trace = sh.trace) (hi : x.1.instrumentation = sh.instrumentation)

theorem store_unmoved {request : TaskRequest} {priority : ℤ} {e : Raised}
    (h : (L.store request priority).1 = .error e) : Unmoved L (L.store request priority).2 := by
  unfold Ledger.store at h ⊢
  split
  · exact ⟨rfl, rfl, rfl⟩
  · rename_i hb
    rw [hb] at h
    cases h

theorem turn_course (h : act sh a p c = some x)
    (found : ∀ u, updates p = some u → ∃ r, sh.ledger.record u = some r)
    (hw : sh.ledger.backend.Wellformed) (hf : requestFound p = true) : Course sh p c x := by
  have passes (hp : told p = none) (hx : told x.2 = none)
      (hn : ∀ t done rest, p ≠ .sweeping t done rest) (hL : Unmoved sh.ledger x.1.ledger)
      (ht : x.1.trace = sh.trace) (hi : x.1.instrumentation = sh.instrumentation) :
      Course sh p c x := .passes hp hx hn hL ht hi
  cases p <;> cases c <;> simp only [act, advance, throwing, expire, reduceCtorEq] at h
  case reporting.go k =>
    cases h
    exact .records k rfl rfl rfl
  case tracing.go k event =>
    cases h
    exact .tells k event rfl rfl (next_told k) rfl
  case tracing.raises k event e =>
    cases h
    exact .loses k event rfl ⟨e, rfl⟩ (escape_told e k) rfl
  case storing.go job =>
    cases hs : (sh.ledger.store job.request job.priority).1 with
    | ok u =>
      rw [hs] at h
      cases h
      exact .stores job rfl rfl rfl
    | error e =>
      rw [hs] at h
      cases h
      exact passes rfl rfl (by simp) (store_unmoved hs) rfl rfl
  case running.go t request =>
    obtain ⟨r, hr⟩ := found t rfl
    rw [(update_ok hw hr sh.clock _).1] at h
    cases h
    exact .starts t request rfl rfl rfl
  case updating.go t m request =>
    obtain ⟨r, hr⟩ := found t rfl
    rw [(update_ok hw hr sh.clock _).1] at h
    cases request with
    | none => cases hf
    | some request =>
      cases h
      exact .ends t m request rfl rfl rfl
  case sweeping.go t done rest =>
    obtain ⟨r, hr⟩ := found t rfl
    rw [(update_ok hw hr sh.clock _).1] at h
    cases h
    exact .sweeps t done rest rfl rfl rfl rfl
  case waitChecking.go q d =>
    cases h
    exact passes rfl (look_of q _ _ _ (fun _ hp => onward_told (resumed_onward hp)) rfl
      fun _ => rfl) (by simp) (.refl _) rfl rfl
  case notifying.go n =>
    cases h
    refine passes rfl (onward_told (afterNotify_onward ..)) (by simp) ?_ rfl rfl
    cases n <;> exact ⟨rfl, rfl, rfl⟩
  all_goals repeat' split at h
  all_goals cases h
  all_goals first
    | exact passes rfl rfl (by simp) ⟨rfl, rfl, rfl⟩ rfl rfl
    | (refine passes rfl (onward_told ?_) (by simp) ⟨rfl, rfl, rfl⟩ rfl rfl; simp [resumed_onward])

theorem update_moves {r : TaskRecord} (hr : L.record t = some r) (now : ℕ) (y : Backend.Update) :
    (L.update now t y).2.moves = Function.update L.moves t (L.moves t ++ [y.status]) := by
  simp [Ledger.update, hr]

def isSubmitted : Report → Bool
  | .submitted _ => true
  | _ => false

omit [DecidableEq ι] in
/-- Of the same task two threads do not tell the same. -/
theorem told_unique {k' : Report} (hex : Exclusive s) (hst : Staged s stage)
    (ha : told (s.pc a) = some k) (hb : told (s.pc b) = some k')
    (ht : reportTask k = reportTask k') (hk : isSubmitted k = isSubmitted k') : a = b := by
  have submits {a : Thread ι} {job : Job} (ha : told (s.pc a) = some (.submitted job)) :
      posted (s.pc a) = some job.task := by
    rcases told_iff.mp ha with hp | ⟨_, hp⟩ <;> rw [hp] <;> rfl
  have owns {a : Thread ι} {k : Report} (ha : told (s.pc a) = some k)
      (hk : isSubmitted k = false) : ∃ l, duty s.shared.ledger a (s.pc a) = some (reportTask k, l) := by
    have hd : duty s.shared.ledger a (s.pc a) = reportDuty k := by
      rcases told_iff.mp ha with hp | ⟨_, hp⟩ <;> rw [hp] <;> rfl
    rw [hd]
    cases k with
    | submitted job => cases hk
    | started t request => exact ⟨_, rfl⟩
    | ended t m request => exact ⟨_, rfl⟩
  cases hs : isSubmitted k with
  | true =>
    rw [hs] at hk
    cases k <;> cases hs
    cases k' <;> cases hk
    exact hex.unique (posted_lifecycle (submits ha)) (posted_lifecycle (submits hb))
  | false =>
    obtain ⟨l, hl⟩ := owns ha hs
    obtain ⟨l', hl'⟩ := owns hb (hk ▸ hs)
    rw [ht] at hl
    cases ((hst.owner a _ l).mp hl).symm.trans ((hst.owner b _ l').mp hl')
    rfl

/-! ## What a task's statuses were before a step changes them -/

omit [DecidableEq ι] in
theorem storing_moves {job : Job} (h : Staged s stage) (hp : s.pc a = .storing job) :
    Blank s.shared.ledger job.task :=
  (h.level (a := a) (l := .entered) (by rw [hp]; rfl)).1

omit [DecidableEq ι] in
theorem running_moves {request : TaskRequest} (h : Staged s stage)
    (hp : s.pc a = .running t request) : Waiting s.shared.ledger t :=
  h.level (a := a) (l := .checked) (by rw [hp]; rfl)

omit [DecidableEq ι] in
theorem updating_moves {m : Ender} {request : Option TaskRequest} (h : Staged s stage)
    (hp : s.pc a = .updating t m request) : Running s.shared.ledger t := by
  have hl := h.level (a := a) (t := t) (l := enderLevel m) (by rw [hp]; rfl)
  cases m <;> exact hl.1

omit [DecidableEq ι] in
theorem sweeping_moves {done rest : List TaskId} (h : Staged s stage)
    (hp : s.pc a = .sweeping t done rest) :
    Waiting s.shared.ledger t ∧ t ∉ s.shared.ledger.foreign := by
  obtain ⟨hq, hf⟩ := h.leftover a t (by rw [hp]; exact List.mem_cons_self ..)
  have hfact := h.fact t
  rw [hq] at hfact
  exact ⟨hfact.2.resolve_right fun hs => hf hs.foreign, hf⟩

end

end Reports
