import Infly.Wakeups

/-! # Calls that wait for a result

`submit_and_wait` looks at the record of its task again and again until it is terminal, and
reads it then. Between the end of the task and the read the record may leave the backend.
-/
namespace WaitingCalls

open Contracts TaskBackend SchedulerState SchedulerModel SchedulerLocks SchedulerLedger
  SchedulerDuties SchedulerStages SchedulerAccounts SchedulerRequests TaskLife SingleUse Wakeups
  Transitions

def Query.waiter (q : Query) : Option TaskId := if q.caller = .query then none else some q.task

/-- The task for whose end a call waits, or will wait or has waited, from the storing of it by
the same call on. -/
def engaged : Pc → Option TaskId
  | .reporting (.submitted job) | .tracing (.submitted job) _ | .notifying (.submitted job) =>
    some job.task
  | .querying q | .reading q _ | .waitChecking q _ | .blocking q _ | .waiting q _
  | .registering q | .checkingWaiter q _ | .suspended q _ _ | .cleaning q _
  | .resolving _ (.coroutine q) | .scheduling _ _ (.coroutine q) => Query.waiter q
  | _ => none

variable {ι : Type} {a b : Thread ι} {p : Pc} {t : TaskId}

theorem resting_engaged (h : p.resting = true) : engaged p = none := by
  cases p <;> first | rfl | cases h

@[simp] theorem fail_engaged (q : Query) (e : PlatformError) : engaged (q.fail e) = none :=
  resting_engaged (fail_resting q e)

@[simp] theorem respond_engaged (q : Query) (r : TaskQueryResponse) :
    engaged (q.respond r) = none := resting_engaged (respond_resting q r)

@[simp] theorem query_escape_engaged (q : Query) (e : Raised) : engaged (q.escape e) = none :=
  resting_engaged (escape_resting q e)

theorem start_engaged (q : Query) (now : ℕ) :
    engaged (q.start now) = Query.waiter q ∨ engaged (q.start now) = none := by
  unfold Query.start
  split
  · exact .inl rfl
  · split
    · exact .inr (fail_engaged ..)
    · exact .inl rfl

theorem look_engaged (q : Query) (now : ℕ) (d : Option ℕ) (r : Option TaskRecord) :
    engaged (q.look now d r) = Query.waiter q ∨ engaged (q.look now d r) = none := by
  unfold Query.look
  repeat' split
  all_goals first
    | exact .inl rfl
    | exact .inr (fail_engaged ..)

@[simp] theorem joinFrom_engaged (d : ℕ) (ks : List ℕ) : engaged (joinFrom d ks) = none := by
  cases ks <;> rfl

@[simp] theorem home_engaged : engaged (home a) = none := by cases a <;> rfl

@[simp] theorem afterSweep_engaged : engaged (afterSweep a) = none := by cases a <;> rfl

@[simp] theorem abortSweep_engaged (e : Raised) : engaged (abortSweep e a) = none := by
  cases a <;> rfl

@[simp] theorem sweepFrom_engaged (done rest : List TaskId) :
    engaged (sweepFrom a done rest) = none := by
  rcases sweepFrom_cases a done rest with ⟨_, _, hp⟩ | ⟨_, _, hp⟩ | ⟨t, rest', _, hp⟩
  · exact hp ▸ afterSweep_engaged
  · exact hp ▸ rfl
  · exact hp ▸ rfl

theorem followUp_engaged (job : Job) :
    engaged job.followUp = some job.task ∨ engaged job.followUp = none := by
  unfold Job.followUp
  split
  · exact .inr rfl
  · exact .inl rfl
  · exact .inl rfl

theorem escape_engaged (e : Raised) (k : Report) : engaged (k.escape e) = none := by
  cases k with
  | ended t m request => cases m <;> rfl
  | _ => rfl

theorem afterRelease_engaged (t : TaskId) (k : Cont) : engaged (afterRelease a t k) = none := by
  cases k with
  | coroutine q => exact home_engaged
  | _ => rfl

theorem afterOverRelease_engaged (t : TaskId) (k : Cont) :
    engaged (afterOverRelease a t k) = none := by
  cases k with
  | rollback e => rfl
  | finish m =>
    cases m with
    | completeTask o => exact home_engaged
    | _ => rfl
  | sweep done rest => exact abortSweep_engaged _
  | coroutine q => exact home_engaged

/-! ## Conditions on a run -/

/-- Only client `i` consumes `t`. -/
def Unconsumed (i : ι) (t : TaskId) (s : State ι) : Event ι → Prop
  | .step a .go => ∀ q l, s.pc a = .reading q l → q.task = t → q.consume = true → a = .client i
  | _ => True

section

variable [DecidableEq ι] {s s' : State ι} {stage : TaskId → Stage ι} {sh : Shared ι}
  {x : Shared ι × Pc} {c : Choice} {e : Event ι} {i : ι} {L : Ledger}

/-- No update evicts the record of `t`. -/
def Unevicted (t : TaskId) (s : State ι) : Event ι → Prop
  | .step a .go => ∀ u s', updates (s.pc a) = some u → Step s (.step a .go) s' →
      s.shared.ledger.record t ≠ none → s'.shared.ledger.record t ≠ none
  | _ => True

/-- No id is submitted again after its record has left, and that of `t` leaves only when
client `i` reads it. -/
structure Retaining (i : ι) (t : TaskId) (s : State ι) (e : Event ι) : Prop where
  single : Single s e
  unconsumed : Unconsumed i t s e
  unevicted : Unevicted t s e

/-! ## What a step does to a call and to the record -/

theorem store_record (L : Ledger) (request : TaskRequest) (priority : ℤ)
    (hr : L.record t ≠ none) : (L.store request priority).2.record t = L.record t := by
  unfold Ledger.store Backend.submit
  dsimp only
  by_cases hc : L.backend.records.contains request.taskId = true
  · simp only [hc, ↓reduceIte]
  · have hne : t ≠ request.taskId := by
      rintro rfl
      exact hc (Option.isSome_iff_ne_none.mpr hr)
    simp [hc, Ledger.record, Backend.get, hne]

theorem read_removes {u : TaskId} {consume : Bool} {copying : Copying} (hr : L.record t ≠ none)
    (hn : (L.read u consume copying).2.record t = none) : u = t ∧ consume = true := by
  unfold Ledger.read Backend.read at hn
  split at hn
  · exact absurd hn hr
  · split at hn
    · cases consume with
      | false => exact absurd hn hr
      | true =>
        refine ⟨?_, rfl⟩
        by_contra hne
        refine hr ?_
        simpa [Ledger.record, Backend.get, Backend.drop, Ne.symm hne] using hn
    · exact absurd hn hr

/-- A record leaves by a consuming read or by an update. -/
theorem turn_removes (h : act sh a p c = some x) (hr : sh.ledger.record t ≠ none)
    (hn : x.1.ledger.record t = none) : c = .go ∧
      ((∃ q l, p = .reading q l ∧ q.task = t ∧ q.consume = true) ∨ ∃ u, updates p = some u) := by
  cases p <;> cases c
  case reading.raises q l e =>
    obtain ⟨hc, _, rfl⟩ := reading_raises h
    exact absurd ((read_removes hr hn).2.symm.trans hc) (by decide)
  all_goals simp only [act, advance, throwing, expire, reduceCtorEq] at h
  case storing.go job =>
    cases h
    exact absurd ((store_record _ _ _ hr).symm.trans hn) hr
  case running.go u request => exact ⟨rfl, .inr ⟨u, rfl⟩⟩
  case updating.go u m request => exact ⟨rfl, .inr ⟨u, rfl⟩⟩
  case sweeping.go u done rest => exact ⟨rfl, .inr ⟨u, rfl⟩⟩
  case reading.go q l =>
    cases h
    obtain ⟨hu, hc⟩ := read_removes hr hn
    exact ⟨rfl, .inl ⟨q, l, rfl, hu, hc⟩⟩
  case pulling.go =>
    cases h
    exact absurd (by simpa [Ledger.record, Backend.get, Ledger.pull] using hn) hr
  case notifying.go n =>
    cases h
    cases n <;> exact absurd hn hr
  all_goals repeat' split at h
  all_goals cases h
  all_goals exact absurd hn hr

theorem turn_accepted (h : act sh a p c = some x) (ht : t ∈ sh.ledger.accepted) :
    t ∈ x.1.ledger.accepted := by
  cases p <;> cases c <;> simp only [act, advance, throwing, expire, reduceCtorEq] at h
  case storing.go job =>
    cases h
    unfold Ledger.store
    split
    · exact ht
    · exact Finset.mem_insert_of_mem ht
  case notifying.go n =>
    cases h
    cases n <;> exact ht
  all_goals repeat' split at h
  all_goals cases h
  all_goals exact ht

/-- A call goes on with its task, or ends; it begins to wait when it has stored the task. -/
theorem turn_engaged (h : act sh a p c = some x) :
    engaged x.2 = engaged p ∨ engaged x.2 = none ∨
      ∃ job, p = .storing job ∧ x.2 = .reporting (.submitted job) ∧
        x.1.ledger = (sh.ledger.store job.request job.priority).2 := by
  cases p <;> cases c <;> simp only [act, advance, throwing, expire, reduceCtorEq] at h
  case storing.go job =>
    cases h
    dsimp only
    split
    · exact .inr (.inr ⟨job, rfl, rfl, rfl⟩)
    · exact .inr (.inl rfl)
  case reporting.go k | tracing.go k _ =>
    cases h
    cases k <;> exact .inl rfl
  case tracing.raises k _ e =>
    cases h
    exact .inr (.inl (escape_engaged ..))
  case notifying.go n =>
    cases h
    cases n with
    | submitted job => exact (followUp_engaged job).imp_right .inl
    | stopping timeout workers => exact .inr (.inl (joinFrom_engaged ..))
    | finished t m => exact .inl rfl
    | swept done => exact .inr (.inl afterSweep_engaged)
  case releasing.go u k =>
    split at h <;> cases h
    · exact .inr (.inl rfl)
    · exact .inr (.inl (afterRelease_engaged ..))
  case givingBack.go u k =>
    split at h <;> cases h
    · exact .inr (.inl (afterRelease_engaged ..))
    · exact .inr (.inl (afterOverRelease_engaged ..))
  case resolving.go u k =>
    split at h <;> cases h
    · cases k with
      | coroutine q => exact .inl rfl
      | sweep done rest => exact .inr (.inl (sweepFrom_engaged ..))
      | _ => exact .inr (.inl home_engaged)
    · cases k <;> exact .inl rfl
  case scheduling.go w u k =>
    split at h <;> cases h
    all_goals
      cases k with
      | coroutine q => exact .inl rfl
      | sweep done rest => exact .inr (.inl (sweepFrom_engaged ..))
      | _ => exact .inr (.inl home_engaged)
  case querying.go q =>
    repeat' split at h
    all_goals cases h
    · exact .inr (.inl (fail_engaged ..))
    · exact .inl rfl
    · exact (start_engaged q _).imp_right .inl
    · exact .inr (.inl (respond_engaged ..))
  case waitChecking.go q d =>
    cases h
    exact (look_engaged q ..).imp_right .inl
  case fetching.go u m =>
    split at h <;> cases h
    · exact .inr (.inl rfl)
    · dsimp only
      split <;> exact .inr (.inl rfl)
    · exact .inr (.inl rfl)
  case updating.go u m request =>
    cases h
    dsimp only
    split
    · cases m <;> exact .inr (.inl rfl)
    · exact .inr (.inl rfl)
    · exact .inr (.inl rfl)
  all_goals repeat' split at h
  all_goals cases h
  all_goals first
    | exact .inl rfl
    | exact .inr (.inl rfl)
    | (refine .inr (.inl ?_); simp)

theorem waiter_some {q : Query} (h : Query.waiter q = some t) : q.task = t ∧ q.caller ≠ .query := by
  unfold Query.waiter at h
  split at h
  · cases h
  · rename_i hc
    exact ⟨Option.some.inj h, hc⟩

/-- A call reads only what it has seen to be terminal. -/
theorem turn_reading {q : Query} {l : Bool} (h : act sh a p c = some x) (hx : x.2 = .reading q l) :
    x.1.ledger = sh.ledger ∧ ∃ r, sh.ledger.record q.task = some r ∧ terminal r.status = true := by
  have away (hp : onward x.2 = true) : x.1.ledger = sh.ledger ∧
      ∃ r, sh.ledger.record q.task = some r ∧ terminal r.status = true := by
    rw [hx] at hp
    cases hp
  cases p <;> cases c <;> simp only [act, advance, throwing, expire, reduceCtorEq] at h
  case querying.go q' =>
    cases hr : sh.ledger.record q'.task with
    | none =>
      simp only [hr] at h
      cases h
      exact away (resumed_onward (fail_resumed ..))
    | some r =>
      simp only [hr] at h
      split at h
      · rename_i ht
        cases h
        cases hx
        exact ⟨rfl, r, hr, ht⟩
      · split at h <;> cases h
        · exact away (resumed_onward (start_resumed ..))
        · exact away (resumed_onward (respond_resumed ..))
  case waitChecking.go q' d =>
    cases h
    rcases look_cases q' sh.clock d (sh.ledger.record q'.task) with hl | ⟨hl, r, hr, ht⟩ |
      ⟨⟨w, hl⟩, _⟩
    · exact away (resumed_onward hl)
    · dsimp only at hx
      rw [hl] at hx
      cases hx
      exact ⟨rfl, r, hr, ht⟩
    · dsimp only at hx
      rw [hl] at hx
      cases hx
  case tracing.go k event =>
    cases h
    cases k <;> cases hx
  all_goals repeat' split at h
  all_goals cases h
  all_goals first
    | cases hx
    | (refine away ?_; simp [resumed_onward])

/-- The task that client `i` waits for is accepted and its record stored, and terminal when it
is about to be read. -/
def Kept (i : ι) (t : TaskId) (s : State ι) : Prop :=
  engaged (s.pc (.client i)) = some t → t ∈ s.shared.ledger.accepted ∧
    ∃ r, s.shared.ledger.record t = some r ∧
      ∀ q l, s.pc (.client i) = .reading q l → terminal r.status = true

theorem kept_turn (hst : Staged s stage) (h : Kept i t s) (hr : Retaining i t s (.step a c))
    (hs : Step s (.step a c) (s.goto a x)) (hx : act s.shared a (s.pc a) c = some x) :
    Kept i t (s.goto a x) := by
  have stays (ha : t ∈ s.shared.ledger.accepted) {r : TaskRecord}
      (hrec : s.shared.ledger.record t = some r)
      (hn : ∀ q l, s.pc a = .reading q l → q.task = t → q.consume = true → c = .go → False) :
      t ∈ x.1.ledger.accepted ∧ ∃ r', x.1.ledger.record t = some r' ∧
        (terminal r.status = true → r' = r) := by
    refine ⟨turn_accepted hx ha, ?_⟩
    have hne : x.1.ledger.record t ≠ none := by
      intro hnone
      obtain ⟨rfl, ⟨q, l, hp, ht, hc⟩ | ⟨u, hu⟩⟩ := turn_removes hx (by rw [hrec]; nofun) hnone
      · exact hn q l hp ht hc rfl
      · exact hr.unevicted u _ hu hs (by rw [hrec]; nofun) hnone
    obtain ⟨r', hr'⟩ := Option.ne_none_iff_exists'.mp hne
    refine ⟨r', hr', fun hterm => ?_⟩
    rcases terminal_fades hst hs hrec hterm with hf | hf
    · exact Option.some.inj (hr'.symm.trans hf)
    · exact absurd hf hne
  intro he
  by_cases ha : .client i = a
  · subst ha
    rw [goto_pc] at he ⊢
    rw [goto_shared]
    rcases turn_engaged hx with heq | hnone | ⟨job, hp, hx2, hL⟩
    · rw [heq] at he
      obtain ⟨hacc, r, hrec, _⟩ := h he
      obtain ⟨hacc', r', hrec', _⟩ := stays hacc hrec fun q l hp ht hc hgo => by
        subst hgo
        rw [hp] at hx he heq
        rw [← heq] at he
        simp only [act, advance] at hx
        cases hx
        dsimp only at he
        split at he
        · simp at he
        · simp at he
        · simp at he
      refine ⟨hacc', r', hrec', fun q l hx2 => ?_⟩
      obtain ⟨hL, y, hy, hterm⟩ := turn_reading hx hx2
      have hq : q.task = t := by
        rw [← heq, hx2] at he
        exact (waiter_some he).1
      rw [hL, ← hq, hy] at hrec'
      exact Option.some.inj hrec' ▸ hterm
    · rw [hnone] at he
      cases he
    · have hb := hst.level (a := .client i) (t := job.task) (l := .entered) (by rw [hp]; rfl)
      have ht : job.task = t := by
        rw [hx2] at he
        exact Option.some.inj he
      obtain ⟨_, hrec, _, ⟨hacc, _⟩, _⟩ := store_ok _ hb.1.record job.priority
      rw [hL, ← ht]
      refine ⟨?_, _, hrec, fun q l hq => ?_⟩
      · rw [hacc]
        exact Finset.mem_insert_self ..
      · rw [hx2] at hq
        cases hq
  · rw [goto_pc_of_ne s ha] at he ⊢
    rw [goto_shared]
    obtain ⟨hacc, r, hrec, hread⟩ := h he
    obtain ⟨hacc', r', hrec', hsame⟩ := stays hacc hrec fun q l hp ht hc hgo => by
      subst hgo
      exact ha (hr.unconsumed q l hp ht hc).symm
    refine ⟨hacc', r', hrec', fun q l hp => ?_⟩
    have hterm := hread q l hp
    exact hsame hterm ▸ hterm

theorem retaining_single (h : ((system ι).restrict (Retaining i t)).Reachable s) :
    ((system ι).restrict Single).Reachable s :=
  System.restrict_imp (P := fun _ => True) (fun _ _ => trivial) (fun _ _ _ h => h.single) h

theorem reachable_kept (h : ((system ι).restrict (Retaining i t)).Reachable s) : Kept i t s := by
  refine System.invariant_reachable ?_ (fun u e v hr hu hs => ?_) h
  · rintro s ⟨config, b, _, rfl⟩
    exact nofun
  · obtain ⟨stage, hst⟩ := (reachable_accounts (retaining_single hr)).staged
    obtain ⟨retaining, hs⟩ := hs
    have hs' := hs
    rcases step_cases hs with ⟨j, k, rfl, hrest, rfl⟩ | ⟨a, c, x, rfl, _, hx, rfl⟩ |
      ⟨f, o, rfl, _, _, rfl⟩ | ⟨w, rfl, _, rfl⟩ | ⟨d, rfl, rfl⟩
    · intro he
      by_cases hij : i = j
      · subst hij
        rw [goto_pc] at he
        cases k with
        | stop timeout =>
          simp only [Call.enter] at he
          split at he <;> cases he
        | _ => cases he
      · have hne : Thread.client i ≠ .client j := fun h => hij (Thread.client.inj h)
        rw [goto_pc_of_ne u hne] at he ⊢
        cases k <;> exact hu he
    · exact kept_turn hst hu retaining hs' hx
    · exact hu
    · exact hu
    · exact hu

/-! ## The answer -/

omit [DecidableEq ι] in
/-- An accepted task with a terminal record is over. -/
theorem terminal_ended (h : Staged s stage) (ha : t ∈ s.shared.ledger.accepted) {r : TaskRecord}
    (hr : s.shared.ledger.record t = some r) (ht : terminal r.status = true) :
    Ended s.shared.ledger t := by
  have status {status : TaskStatus} (hn : terminal status = false)
      (hs : InStatus s.shared.ledger t status) : False := by
    obtain ⟨r', hr', hs⟩ := hs
    cases hr.symm.trans hr'
    rw [hs, hn] at ht
    cases ht
  rcases (h.fact t).phase ha with hw | ⟨hw, _⟩ | he
  · exact (status rfl hw.status).elim
  · exact (status rfl hw.status).elim
  · exact he

/-- What `submit_and_wait` asks for when it has no timeout. -/
def lasting (t : TaskId) (consume : Bool) : Query :=
  { task := t, wait := true, consume, caller := .submitAndWait }

/-- Each future of the task has delivered, and if it delivered a result, the call returns it. -/
def Delivers (L : Ledger) (t : TaskId) (p : Pc) : Prop :=
  ∀ f, f < L.nextFuture → (L.futures f).task = t → ∃ o, (L.futures f).outcome = some o ∧
    ∀ r, o = .result (some r) → p = .returned (.result r)

omit [DecidableEq ι] in
theorem ended_delivers (h : Ended L t) {r : TaskRecord} (hr : L.record t = some r)
    (consume : Bool) : Delivers L t ((lasting t consume).respond (.fromRecord r)) := by
  intro f hf ht
  have hover := h.status r hr
  cases hs : r.status with
  | pending | running =>
    rw [hs] at hover
    cases hover
  | completed =>
    obtain ⟨g, ⟨_, _, only⟩, ho⟩ := h.result r hr hs
    rw [only f hf ht]
    refine ⟨_, ho, fun result he => ?_⟩
    simp [Query.respond, lasting, TaskQueryResponse.fromRecord, hs, Outcome.result.inj he]
  | failed =>
    obtain ⟨e, he⟩ := h.failed r hr hs f hf ht
    exact ⟨_, he, nofun⟩

/-- The call once its task is stored, with the looks that are left when the task is over. -/
inductive Looking (q : Query) : Pc → ℕ → Prop where
  | blocking : Looking q (.blocking q none) 4
  | waiting : Looking q (.waiting q none) 3
  | checking : Looking q (.waitChecking q none) 2
  | querying : Looking q (.querying q) 2
  | reading (locked : Bool) : Looking q (.reading q locked) 1

omit [DecidableEq ι] in
theorem Looking.engaged {consume : Bool} {n : ℕ} (h : Looking (lasting t consume) p n) :
    WaitingCalls.engaged p = some t := by
  cases h <;> rfl

theorem read_record {r : TaskRecord} (hr : L.record t = some r) (ht : terminal r.status = true)
    (consume : Bool) : (L.read t consume copies).1 = .ok (some r) := by
  cases consume <;> simp [Ledger.read, Backend.read, show L.backend.records.get? t = some r from hr,
    ht, deepcopy, copies, Except.map]

/-- A step of the call is one of its looks, or ends it with the terminal record, or with what
copying that record raises. -/
theorem turn_looking {consume : Bool} {n : ℕ} {r : TaskRecord}
    (hx : act sh a p c = some x) (hp : Looking (lasting t consume) p n)
    (hr : sh.ledger.record t = some r)
    (hread : ∀ q l, p = .reading q l → terminal r.status = true) :
    (∃ m, Looking (lasting t consume) x.2 m ∧ (terminal r.status = true → m < n)) ∨
      terminal r.status = true ∧ (x.2 = (lasting t consume).respond (.fromRecord r) ∨
        consume = false ∧ ∃ e, c = .raises e ∧ x.2 = (lasting t consume).escape e) := by
  cases hp <;> cases c
  case reading.raises l e =>
    obtain ⟨hc, _, rfl⟩ := reading_raises hx
    exact .inr ⟨hread _ l rfl, .inr ⟨hc, e, rfl, rfl⟩⟩
  case querying.raises e =>
    obtain ⟨⟨_, _, _, hw⟩, _⟩ := querying_raises hx
    cases hw
  all_goals simp only [act, advance, throwing, expire, reduceCtorEq] at hx
  case blocking.go =>
    cases hx
    exact .inl ⟨3, .waiting, fun _ => by decide⟩
  case waiting.go =>
    split at hx <;> cases hx
    exact .inl ⟨2, .checking, fun _ => by decide⟩
  case checking.go =>
    cases hx
    simp only [lasting, hr, Query.look]
    split
    · exact .inl ⟨1, .reading true, fun _ => by decide⟩
    · rename_i hn
      exact .inl ⟨4, .blocking, fun ht => absurd ht hn⟩
  case querying.go =>
    simp only [lasting, hr] at hx
    split at hx <;> cases hx
    · exact .inl ⟨1, .reading false, fun _ => by decide⟩
    · rename_i hn
      exact .inl ⟨2, .checking, fun ht => absurd ht hn⟩
  case reading.go l =>
    cases hx
    have ht := hread _ l rfl
    exact .inr ⟨ht, .inl (by simp only [lasting, read_record hr ht])⟩

/-- A `submit_and_wait` call without a timeout only leaves its looks with the record of its
task, whose result it returns, or, unless it consumes, with what copying that record raises.
When the task is over each look leads closer, and the call can go on, or is asleep and another
thread is on its way to wake it. -/
theorem result_reaches_waiter (h : ((system ι).restrict (Retaining i t)).Reachable s)
    {consume : Bool} {n : ℕ} (hp : Looking (lasting t consume) (s.pc (.client i)) n) :
    (∀ c s', Step s (.step (.client i) c) s' →
      (∃ m, Looking (lasting t consume) (s'.pc (.client i)) m ∧
        (live s.shared.ledger t = false → m < n)) ∨
      (Delivers s.shared.ledger t (s'.pc (.client i)) ∧ ∃ r, s.shared.ledger.record t = some r ∧
        s'.pc (.client i) = (lasting t consume).respond (.fromRecord r)) ∨
      consume = false ∧ live s.shared.ledger t = false ∧
        ∃ e, c = .raises e ∧ s'.pc (.client i) = (lasting t consume).escape e) ∧
    (live s.shared.ledger t = false →
      (∃ x, act s.shared (.client i) (s.pc (.client i)) .go = some x) ∨
      s.shared.waiting (.client i) = true ∧ ∃ b, b ≠ .client i ∧ t ∈ owes (s.pc b)) := by
  have hs := retaining_single h
  obtain ⟨stage, hst⟩ := (reachable_accounts hs).staged
  obtain ⟨hacc, r, hr, hread⟩ := reachable_kept h hp.engaged
  refine ⟨fun c s' hstep => ?_, fun hover => ?_⟩
  · rcases step_cases hstep with ⟨_, _, he, _⟩ | ⟨a, c', x, he, _, hx, rfl⟩ | ⟨_, _, he, _⟩ |
      ⟨_, he, _⟩ | ⟨_, he, _⟩ <;> cases he
    rw [goto_pc]
    rcases turn_looking hx hp hr hread with ⟨m, hm, hlt⟩ | ⟨ht, hx2 | ⟨hc, hx2⟩⟩
    · refine .inl ⟨m, hm, fun hover => hlt ?_⟩
      by_contra hn
      exact absurd (hover.symm.trans (live_iff.mpr ⟨r, hr, Bool.not_eq_true _ ▸ hn⟩)) (by decide)
    · rw [hx2]
      exact .inr (.inl ⟨ended_delivers (terminal_ended hst hacc hr ht) hr consume, r, hr, rfl⟩)
    · refine .inr (.inr ⟨hc, ?_, hx2⟩)
      by_contra hlive
      obtain ⟨r', hr', hn⟩ := live_iff.mp (Bool.not_eq_false _ ▸ hlive)
      cases hr.symm.trans hr'
      exact absurd (ht.symm.trans hn) (by decide)
  · by_cases hw : s.shared.waiting (.client i) = true ∧
        s.pc (.client i) = .waiting (lasting t consume) none
    · obtain ⟨hw, hpc⟩ := hw
      refine .inr ⟨hw, ?_⟩
      obtain ⟨b, ho⟩ := (reachable_alert hs (.client i) t (by rw [hpc]; rfl)
        (.inl hw)).resolve_left (by rw [hover]; decide)
      refine ⟨b, ?_, ho⟩
      rintro rfl
      rw [hpc] at ho
      exact absurd ho List.not_mem_nil
    · refine .inl ?_
      cases hpc : s.pc (.client i) <;> rw [hpc] at hp hw <;> cases hp
      case waiting =>
        have hn : s.shared.waiting (.client i) = false :=
          Bool.not_eq_true _ ▸ fun h => hw ⟨h, rfl⟩
        simp [act, advance, hn]
      case querying =>
        simp only [act, advance, lasting, hr, ↓reduceIte]
        split <;> exact ⟨_, rfl⟩
      all_goals exact ⟨_, rfl⟩

/-! ## Runs -/

def readQuery : Pc → Option Query
  | .reading q _ => some q
  | _ => none

omit [DecidableEq ι] in
theorem readQuery_iff {q : Query} : readQuery p = some q ↔ ∃ l, p = .reading q l := by
  cases p <;> simp [readQuery]

instance (s : State ι) (e : Event ι) : Decidable (Unconsumed i t s e) :=
  match e with
  | .step a .go =>
    decidable_of_iff (∀ q ∈ readQuery (s.pc a), q.task = t → q.consume = true → a = .client i)
      ⟨fun h q l hp => h q (readQuery_iff.mpr ⟨l, hp⟩), fun h q hq =>
        (readQuery_iff.mp hq).elim fun l hp => h q l hp⟩
  | .step _ (.raises _) | .step _ .timeout | .call _ _ | .resolve _ _ | .fire _ | .tick _ =>
    .isTrue trivial

instance (s : State ι) (e : Event ι) : Decidable (Unevicted t s e) :=
  match e with
  | .step a .go =>
    decidable_of_iff (∀ u ∈ updates (s.pc a), ∀ s' ∈ next s (.step a .go),
      s.shared.ledger.record t ≠ none → s'.shared.ledger.record t ≠ none)
      ⟨fun h u s' hu hs => h u hu s' hs, fun h u hu s' hs => h u s' hu hs⟩
  | .step _ (.raises _) | .step _ .timeout | .call _ _ | .resolve _ _ | .fire _ | .tick _ =>
    .isTrue trivial

instance (s : State ι) (e : Event ι) : Decidable (Retaining i t s e) :=
  decidable_of_iff (Single s e ∧ Unconsumed i t s e ∧ Unevicted t s e)
    ⟨fun h => ⟨h.1, h.2.1, h.2.2⟩, fun h => ⟨h.single, h.unconsumed, h.unevicted⟩⟩

def sampleResult : TaskResult := { taskId := "t" }

/-- A waiting client's task is completed, and the client is about to read the record. -/
def waitAndRead (consume : Bool) : List (Event Bool) :=
  firstSubmit false { sampleJob "t" with after := .wait none consume } ++ turns (.client false) 3 ++
    turns (.worker 0) 9 ++ [.resolve 0 (.result (some sampleResult))] ++ turns (.callback 0) 9 ++
    turns (.client false) 2

theorem waiting_call_answered : ∃ s s', after (Retaining false "t") { numThreads := 1 }
    (waitAndRead true) = some s ∧ Step s (.step (.client false) .go) s' ∧
    Delivers s.shared.ledger "t" (s'.pc (.client false)) := by
  obtain ⟨s, hs, hr, hp, hlive, hn⟩ := after_spec (A := Retaining false "t")
    (c := { numThreads := 1 }) (l := waitAndRead true)
    (P := fun s => s.pc (.client false) = .reading (lasting "t" true) true ∧
      live s.shared.ledger "t" = false ∧
      (next s (.step (.client false) .go)).isSome = true) (by decide +kernel)
  obtain ⟨s', hs'⟩ := Option.isSome_iff_exists.mp hn
  have looking : Looking (lasting "t" true) (s.pc (.client false)) 1 := hp ▸ .reading true
  refine ⟨s, s', hs, hs', ?_⟩
  rcases (result_reaches_waiter hr looking).1 .go s' hs' with ⟨m, hm, hlt⟩ | ⟨hd, _⟩ | ⟨hc, _⟩
  · have hlt := hlt hlive
    generalize s'.pc (.client false) = p at hm
    cases hm <;> omega
  · exact hd
  · cases hc

/-- With one terminal record retained, another task's end evicts the one that is waited for. -/
def evictedBeforeRead : List (Event Bool) :=
  firstSubmit false { sampleJob "t" with after := .wait none false } ++ turns (.client false) 3 ++
    [.call true (.submit (sampleJob "u"))] ++ turns (.client true) 10 ++ turns (.worker 0) 17 ++
    [.resolve 0 (.result (some sampleResult)), .resolve 1 (.result none)] ++
    turns (.callback 0) 9 ++ turns (.callback 1) 3 ++ turns (.client false) 2

/-- The client that waits has itself consumed the record of the same request before; the worker
that failed it then, while a sink raises, fails it again. -/
def failedTwice : List (Event Bool) :=
  .call false (.submit (sampleJob "t")) :: turns (.client false) 14 ++ turns (.worker 0) 7 ++
    [.step (.worker 0) (.raises (.other "strategy"))] ++ turns (.worker 0) 3 ++
    [.step (.worker 0) (.raises (.other "sink"))] ++
    [.call false (.query { task := "t", consume := true })] ++ turns (.client false) 2 ++
    [.call false (.submit { sampleJob "t" with after := .wait none false })] ++
    turns (.client false) 13 ++ turns (.worker 1) 9 ++ turns (.worker 0) 8 ++
    turns (.client false) 3 ++ [.resolve 0 (.result (some sampleResult))]

/-- The input of the task cannot be copied. -/
def uncopyable : List (Event Bool) :=
  waitAndRead false ++ [.step (.client false) (.raises (.other "cannot pickle"))]

theorem result_misses_waiter :
    (∃ s, after Fresh { numThreads := 1, maxRetainedTerminalTasks := 1 } evictedBeforeRead = some s ∧
      (s.shared.ledger.futures 0).outcome = some (.result (some sampleResult)) ∧
      s.pc (.client false) = .raised (.platform (notFound "t"))) ∧
    (∃ s, after (Retaining false "t") { numThreads := 1 } uncopyable = some s ∧
      (s.shared.ledger.futures 0).outcome = some (.result (some sampleResult)) ∧
      s.pc (.client false) = .raised (.other "cannot pickle")) ∧
    ∃ s, after (fun s e => Unconsumed false "t" s e ∧ Unevicted "t" s e) { numThreads := 2 }
        failedTwice = some s ∧
      (s.shared.ledger.futures 0).outcome = some (.result (some sampleResult)) ∧
      s.pc (.client false) =
        .raised (.platform ⟨.internalError, "Worker loop failed: sink"⟩) := by
  refine ⟨?_, ?_, ?_⟩
  · obtain ⟨s, hs, _, hp⟩ := after_spec (A := Fresh)
      (c := { numThreads := 1, maxRetainedTerminalTasks := 1 }) (l := evictedBeforeRead)
      (P := fun s => (s.shared.ledger.futures 0).outcome = some (.result (some sampleResult)) ∧
        s.pc (.client false) = .raised (.platform (notFound "t"))) (by decide +kernel)
    exact ⟨s, hs, hp⟩
  · obtain ⟨s, hs, _, hp⟩ := after_spec (A := Retaining false "t")
      (c := { numThreads := 1 }) (l := uncopyable)
      (P := fun s => (s.shared.ledger.futures 0).outcome = some (.result (some sampleResult)) ∧
        s.pc (.client false) = .raised (.other "cannot pickle")) (by decide +kernel)
    exact ⟨s, hs, hp⟩
  · obtain ⟨s, hs, _, hp⟩ := after_spec
      (A := fun s e => Unconsumed false "t" s e ∧ Unevicted "t" s e)
      (c := { numThreads := 2 }) (l := failedTwice)
      (P := fun s => (s.shared.ledger.futures 0).outcome = some (.result (some sampleResult)) ∧
        s.pc (.client false) =
          .raised (.platform ⟨.internalError, "Worker loop failed: sink"⟩)) (by decide +kernel)
    exact ⟨s, hs, hp⟩

end

end WaitingCalls
