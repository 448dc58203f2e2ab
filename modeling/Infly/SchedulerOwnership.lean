import Infly.SchedulerStages

/-! # Every step keeps the stages

As long as a task that was accepted, or known before, is still stored when it is submitted
again, and no slot is given back above the bound.
-/
namespace SchedulerOwnership

open Contracts TaskBackend SchedulerState SchedulerModel SchedulerLocks SchedulerControl
  SchedulerLedger SchedulerDuties SchedulerStages Transitions

/-! ## Program counters without a task -/

/-- Nothing in hand, nothing left to fail. -/
structure Light {ι : Type} (a : Thread ι) (p : Pc) : Prop where
  duty : ∀ L, duty L a p = none
  todo : todo p = []
  copied : copied p = ∅
  fetched : requestFound p = true

variable {ι : Type} {a : Thread ι} {p : Pc}

theorem Light.ready (h : Light a p) (L : Ledger) (stage : TaskId → Stage ι) : Ready L stage p where
  nodup := by
    rw [h.todo]
    exact List.nodup_nil
  leftover u hu := by
    rw [h.todo] at hu
    exact absurd hu List.not_mem_nil
  listed u hu := by
    rw [h.copied] at hu
    exact absurd hu (Finset.notMem_empty u)
  fetched := h.fetched

theorem resumed_light (h : resumed p = true) : Light a p := by
  cases p <;> first
    | exact ⟨fun _ => rfl, rfl, rfl, rfl⟩
    | cases h

theorem resting_light (h : p.resting = true) : Light a p := by
  cases p <;> first
    | exact ⟨fun _ => rfl, rfl, rfl, rfl⟩
    | cases h

theorem sweepFrom_duty (L : Ledger) (done rest : List TaskId) :
    duty L a (sweepFrom a done rest) = none := by
  rcases sweepFrom_cases a done rest with ⟨_, _, hp⟩ | ⟨_, _, hp⟩ | ⟨t, rest', _, hp⟩
  · exact hp ▸ (resumed_light (a := a) afterSweep_resumed).duty L
  · exact hp ▸ rfl
  · exact hp ▸ rfl

theorem sweepFrom_todo (done rest : List TaskId) : todo (sweepFrom a done rest) = rest := by
  rcases sweepFrom_cases a done rest with ⟨_, hr, hp⟩ | ⟨_, hr, hp⟩ | ⟨t, rest', hr, hp⟩
  · rw [hp, hr]
    exact (resumed_light (a := a) afterSweep_resumed).todo
  · rw [hp, hr]
    rfl
  · rw [hp, hr]
    rfl

theorem sweepFrom_rest (done rest : List TaskId) : copied (sweepFrom a done rest) = ∅ ∧
    requestFound (sweepFrom a done rest) = true := by
  rcases sweepFrom_cases a done rest with ⟨_, _, hp⟩ | ⟨_, _, hp⟩ | ⟨t, rest', _, hp⟩
  · rw [hp]
    exact ⟨(resumed_light (a := a) afterSweep_resumed).copied, (resumed_light (a := a) afterSweep_resumed).fetched⟩
  · rw [hp]
    exact ⟨rfl, rfl⟩
  · rw [hp]
    exact ⟨rfl, rfl⟩

section

variable [DecidableEq ι] {s : State ι} {stage : TaskId → Stage ι} {x : Shared ι × Pc} {c : Choice}
  {L : Ledger} {t : TaskId} {l : Level}

/-- What is known of a step of `a` from `p` to `x`. -/
structure Turn (s : State ι) (stage : TaskId → Stage ι) (a : Thread ι) (p : Pc)
    (x : Shared ι × Pc) : Prop where
  pc : s.pc a = p
  staged : Staged s stage
  exclusive : Exclusive s
  control : Control s
  quiet : Quiet s → Quiet (s.goto a x)
  called : ∀ f, a = .callback f → (s.shared.ledger.futures f).registered = true

theorem Turn.idle (h : Turn s stage a p x) (hp : Light a p) (hx : Light a x.2)
    (spares : Spares s.shared.ledger x.1.ledger) : ∃ stage', Staged (s.goto a x) stage' := by
  obtain ⟨rfl, h, _, _, quiet, called⟩ := h
  exact ⟨stage, h.calm ((hx.duty _).trans (hp.duty _).symm) spares quiet
    (h.ready_same (hx.todo.trans hp.todo.symm) hx.copied hx.fetched) called⟩

theorem Turn.same (h : Turn s stage a p x) (hp : Light a p) (hx : Light a x.2)
    (hL : x.1.ledger = s.shared.ledger) : ∃ stage', Staged (s.goto a x) stage' :=
  h.idle hp hx (by
    rw [hL]
    exact .refl h.staged.wellformed)

/-- The task leaves the hands of `a`. -/
theorem Turn.leave (h : Turn s stage a p x) (hp : duty s.shared.ledger a p = some (t, l))
    (hx : duty s.shared.ledger a x.2 = none) (hL : x.1.ledger = s.shared.ledger)
    {g : Stage ι} (hg : g.duty t = none)
    (fact : l.Fact s.shared.ledger t → g.Fact s.shared.ledger t) (hd : todo x.2 = todo p)
    (hc : copied x.2 = ∅) (hf : requestFound x.2 = true) :
    ∃ stage', Staged (s.goto a x) stage' := by
  obtain ⟨rfl, h, _, _, quiet, called⟩ := h
  refine ⟨_, h.pass hp hL (hx.trans hg.symm) ?_ fact quiet hd hc hf called⟩
  rintro b m rfl
  cases hg

/-- `a` goes on with the task. -/
theorem Turn.keep (h : Turn s stage a p x) (hp : duty s.shared.ledger a p = some (t, l))
    {m : Level} (hx : duty x.1.ledger a x.2 = some (t, m))
    (touches : Touches s.shared.ledger x.1.ledger t)
    (queued : x.1.ledger.backend.queued = s.shared.ledger.backend.queued)
    (fact : m.Fact x.1.ledger t) (hd : todo x.2 = todo p) (hc : copied x.2 = ∅)
    (hf : requestFound x.2 = true) : ∃ stage', Staged (s.goto a x) stage' := by
  obtain ⟨rfl, h, _, _, quiet, called⟩ := h
  refine ⟨_, h.proceed (g := .held a m) hp hx ?_ fact touches queued quiet hd hc hf called⟩
  rintro b m h
  cases h
  rfl

theorem Turn.level (h : Turn s stage a p x) (hp : duty s.shared.ledger a p = some (t, l)) :
    l.Fact s.shared.ledger t := h.staged.level (h.pc ▸ hp)

/-- Only the program counter tells that `a` goes on. -/
theorem Turn.pass (h : Turn s stage a p x) (hp : duty s.shared.ledger a p = some (t, l))
    {m : Level} (hx : duty s.shared.ledger a x.2 = some (t, m))
    (hL : x.1.ledger = s.shared.ledger)
    (fact : l.Fact s.shared.ledger t → m.Fact s.shared.ledger t) (hd : todo x.2 = todo p)
    (hc : copied x.2 = ∅) (hf : requestFound x.2 = true) :
    ∃ stage', Staged (s.goto a x) stage' := by
  refine h.keep hp (hL ▸ hx) ?_ (hL ▸ rfl) (hL ▸ fact (h.level hp)) hd hc hf
  rw [hL]
  exact (Spares.refl h.staged.wellformed).touches t

/-! ## Submitting -/

/-- The levels of a task that is being submitted. -/
def opening : Level → Bool
  | .fresh | .slotted | .entered | .withdrawn | .unslotted => true
  | _ => false

theorem blank_opening (h : l.Fact L t) (hb : Blank L t) : opening l = true := by
  cases l with
  | fresh | slotted | unslotted | entered | withdrawn => rfl
  | pulled => exact h.elim (fun h => absurd h.mine hb.notMine) (fun h => absurd h.mine hb.notMine)
  | checked => exact absurd (Waiting.mine h) hb.notMine
  | handling =>
    exact h.elim (fun h => absurd h.2.mine hb.notMine) (fun h => absurd h.1.mine hb.notMine)
  | started | ran | awaiting | failing | completing | ended | repaying | closing =>
    exact absurd h.1.mine hb.notMine

omit [DecidableEq ι] in
/-- The thread that submits a task has the lifecycle lock. -/
theorem opening_lifecycle (hd : duty L a p = some (t, l)) (hl : opening l = true) :
    .lifecycle ∈ p.locks a := by
  cases p
  case reporting k | tracing k _ => cases k <;> cases hd <;> cases hl
  case releasing u k | givingBack u k =>
    cases k <;> cases hd <;> first
      | exact List.mem_singleton.mpr rfl
      | cases hl
  case resolving u k | scheduling _ u k => cases k <;> cases hd <;> cases hl
  case notifying n =>
    cases n <;> cases hd
    cases hl
  case fetching u m => cases m <;> (cases hd; cases hl)
  case updating u m _ => cases m <;> (cases hd; cases hl)
  case uncalled =>
    cases a with
    | callback f =>
      simp only [duty] at hd
      split at hd <;> cases hd
      cases hl
    | _ => cases hd
  all_goals cases hd
  all_goals first
    | exact List.mem_singleton.mpr rfl
    | cases hl

/-- A task that nobody knows is in nobody's hands when it is submitted. -/
theorem Turn.submit (h : Turn s stage a p x) (hp : Light a p) (hl : .lifecycle ∈ p.locks a)
    (ha : t ∉ s.shared.ledger.accepted) (hf : t ∉ s.shared.ledger.foreign)
    (hL : x.1.ledger = s.shared.ledger)
    (hx : duty s.shared.ledger a x.2 = some (t, .fresh)) (hd : todo x.2 = [])
    (hc : copied x.2 = ∅) (hq : requestFound x.2 = true) :
    ∃ stage', Staged (s.goto a x) stage' := by
  obtain ⟨rfl, hs, hex, _, quiet, called⟩ := h
  have hb : Blank s.shared.ledger t := (hs.fact t).blank ha hf
  have hst : stage t = .absent := by
    have hfact := hs.fact t
    cases hst : stage t with
    | absent => rfl
    | queued =>
      rw [hst] at hfact
      exact absurd hfact.1 hb.queue
    | spent =>
      rw [hst] at hfact
      exact hfact.2.elim (fun h => absurd h.mine hb.notMine) (fun h => absurd h.2.2 hb.notMine)
    | held b l =>
      rw [hst] at hfact
      have hd := (hs.owner b t l).mpr hst
      have hab : b = a := hex.unique (opening_lifecycle hd (blank_opening hfact hb)) hl
      subst hab
      rw [hp.duty] at hd
      cases hd
  have hfact := hs.fact t
  rw [hst] at hfact
  have htouch : Touches s.shared.ledger x.1.ledger t := by
    rw [hL]
    exact (Spares.refl hs.wellformed).touches t
  refine ⟨_, hs.move (t := t) (g := .held a .fresh) (.inr ⟨hp.duty _, fun b l he => ?_⟩)
    (by rw [hL, hx]; rfl) ?_ (by rw [hL]; exact hfact) htouch (by rw [hL]; exact hs.queue)
    (fun hm => ?_) quiet (fun he => ?_) ?_ (hs.ready_same (hd.trans hp.todo.symm) hc hq) called⟩
  · rw [hst] at he
    cases he
  · rintro b m h
    cases h
    rfl
  · rw [hL] at hm
    exact absurd hm hb.queue
  · rw [hst] at he
    cases he
  · rw [hd]
    exact List.not_mem_nil

theorem Turn.store {job : Job} (h : Turn s stage a (.storing job) x)
    (hL : x.1.ledger = (s.shared.ledger.store job.request job.priority).2)
    (hx : x.2 = .reporting (.submitted job)) : ∃ stage', Staged (s.goto a x) stage' := by
  obtain ⟨hpc, hs, _, _, quiet, called⟩ := h
  have hp : duty s.shared.ledger a (s.pc a) = some (job.task, .entered) := by rw [hpc]; rfl
  obtain ⟨hb, ho⟩ := hs.level hp
  have hst := (hs.owner _ _ _).mp hp
  obtain ⟨hq, hw⟩ := hb.store ho (rfl : job.request.taskId = _) job.priority
  have htodo : todo x.2 = todo (s.pc a) := by rw [hpc, hx]; rfl
  refine ⟨_, hs.move (t := job.task) (g := .queued) (.inl ⟨_, hp⟩) (by rw [hx]; rfl) (by rintro b m h; cases h)
    (by rw [hL]; exact ⟨hq, .inl hw⟩) (by rw [hL]; exact store_touches hs.wellformed hb.record _)
    ?_ (fun _ => .inl rfl) quiet (fun he => ?_) ?_
    (hs.ready_same htodo (by rw [hx]; rfl) (by rw [hx]; rfl)) called⟩
  · rw [hL]
    obtain ⟨_, _, hperm, _⟩ := store_ok _ hb.record job.priority
    exact hperm.nodup_iff.mpr (List.nodup_cons.mpr ⟨hb.queue, hs.queue⟩)
  · rw [hst] at he
    cases he
  · rw [hx]
    exact List.not_mem_nil

/-! ## Pulling -/

/-- Before the last worker ends, nobody sweeps and everything queued waits. -/
theorem Turn.pull {k : ℕ} (h : Turn s stage (.worker k) .pulling x)
    (ht : s.shared.ledger.pull.1 = some t) (hL : x.1.ledger = s.shared.ledger.pull.2)
    (hx : x.2 = .checking t) : ∃ stage', Staged (s.goto (.worker k) x) stage' := by
  obtain ⟨hpc, hs, hex, hc, quiet, called⟩ := h
  have hbusy : ¬Quiet s := fun hq => by
    have hr := hc.facts (.worker k)
    rw [hpc] at hr
    have hz := hq.workers k hr.1
    rw [hpc] at hz
    rcases hz with hz | hz | hz <;> cases hz
  have hqueue := Backend.pull_some ht
  have hst : stage t = .queued := by
    refine (hs.stray t ?_).resolve_right hbusy
    rw [hqueue]
    exact List.mem_cons_self ..
  have hfact := hs.fact t
  rw [hst] at hfact
  have hnodup := hs.queue
  rw [hqueue, List.nodup_cons] at hnodup
  refine ⟨_, hs.move (t := t) (g := .held (.worker k) .pulled) (.inr ⟨by rw [hpc]; rfl, fun b l he => ?_⟩)
    (by rw [hx]; rfl) ?_ ?_ (by rw [hL]; exact pull_touches hs.wellformed ht)
    (by rw [hL]; exact hnodup.2) (fun hm => ?_) quiet
    (fun _ b _ hb => hbusy (sweeper_quiet hex hc (todo_sweeping hb))) (by rw [hx]; exact List.not_mem_nil)
    (hs.ready_same (a := .worker k) (by rw [hx, hpc]; rfl) (by rw [hx]; rfl) (by rw [hx]; rfl)) called⟩
  · rw [hst] at he
    cases he
  · rintro b m h
    cases h
    rfl
  · rw [hL]
    exact hfact.2.imp Waiting.pull Stale.pull
  · rw [hL] at hm
    exact absurd hm hnodup.1

/-! ## Sweeping -/

theorem Turn.listIds (h : Turn s stage a .listingIds x) (hL : x.1.ledger = s.shared.ledger)
    (hx : x.2 = .listingRecords s.shared.ledger.outstanding) :
    ∃ stage', Staged (s.goto a x) stage' := by
  obtain ⟨hpc, hs, _, _, quiet, called⟩ := h
  refine ⟨stage, hs.calm (by rw [hx, hpc]; rfl) (by rw [hL]; exact .refl hs.wellformed) quiet ?_
    called⟩
  rw [hx]
  exact ⟨List.nodup_nil, fun u hu => absurd hu List.not_mem_nil, fun u hu => (hs.fact u).own hu,
    rfl⟩

omit [DecidableEq ι] in
theorem mem_pendingRecords {b : Backend} {ids : Finset TaskId} {u : TaskId} (hw : b.Wellformed)
    (h : u ∈ pendingRecords b ids) :
    u ∈ ids ∧ ∃ r, b.records.get? u = some r ∧ r.status = .pending := by
  simp only [pendingRecords, Backend.listAll_copies] at h
  obtain ⟨r, hr, rfl⟩ := List.mem_map.mp h
  obtain ⟨hr, hu⟩ := List.mem_filter.mp hr
  obtain ⟨t, ht⟩ := Dict.mem_values.mp hr
  have := hw.keyed t r ht
  obtain ⟨hi, hp⟩ := of_decide_eq_true hu
  exact ⟨hi, r, this ▸ ht, hp⟩

omit [DecidableEq ι] in
theorem pendingRecords_nodup {b : Backend} (hw : b.Wellformed) (ids : Finset TaskId) :
    (pendingRecords b ids).Nodup := by
  have hkeys : b.records.values.map TaskRecord.taskId = b.records.keys := by
    unfold Dict.values Dict.keys
    rw [List.map_map]
    refine List.map_congr_left fun e he => ?_
    exact hw.keyed e.1 e.2 (Dict.get?_eq_some.mpr he)
  simp only [pendingRecords, Backend.listAll_copies]
  refine List.Nodup.sublist (List.filter_sublist.map _) ?_
  exact hkeys ▸ b.records.keys_nodup

omit [DecidableEq ι] in
theorem pulled_worker (hd : duty L a p = some (t, l)) (hl : l = .pulled ∨ l = .checked)
    (hp : runsOn a p = true) : isWorker a = true ∧ zone p = .plain := by
  cases p
  case checking u => exact ⟨hp, rfl⟩
  case running u request => exact ⟨hp, rfl⟩
  case reporting k | tracing k _ => cases k <;> cases hd <;> rcases hl with hl | hl <;> cases hl
  case releasing u k | givingBack u k | resolving u k | scheduling _ u k =>
    cases k <;> cases hd <;> rcases hl with hl | hl <;> cases hl
  case notifying n =>
    cases n <;> cases hd
    rcases hl with hl | hl <;> cases hl
  case fetching u m | updating u m _ =>
    cases m <;> cases hd <;> rcases hl with hl | hl <;> cases hl
  case uncalled =>
    cases a with
    | callback f =>
      simp only [duty] at hd
      split at hd <;> cases hd
      rcases hl with hl | hl <;> cases hl
    | _ => cases hd
  all_goals cases hd
  all_goals rcases hl with hl | hl <;> cases hl

omit [DecidableEq ι] in
/-- A pending record of the scheduler's own is queued when no worker pulls any more. -/
theorem pending_queued {u : TaskId} {r : TaskRecord} (h : Staged s stage) (hex : Exclusive s)
    (hc : Control s) (hq : Quiet s) (hr : s.shared.ledger.record u = some r)
    (hp : r.status = .pending) (hu : u ∉ s.shared.ledger.foreign) : stage u = .queued := by
  have hfact := h.fact u
  have running : ¬Running s.shared.ledger u := fun h => by
    obtain ⟨r', hr', hs⟩ := h.status
    cases hr.symm.trans hr'
    exact absurd (hp.symm.trans hs) (by decide)
  have ended : ¬Ended s.shared.ledger u := fun h => by
    have := h.status r hr
    rw [hp] at this
    cases this
  have blank : ¬Blank s.shared.ledger u := fun h => by
    cases hr.symm.trans h.record
  cases hst : stage u with
  | queued => rfl
  | absent =>
    rw [hst] at hfact
    exact absurd hfact.1 blank
  | spent =>
    rw [hst] at hfact
    exact hfact.2.elim (fun h => absurd h ended) (fun h => absurd h.1 hu)
  | held b l =>
    have hd := (h.owner b u l).mpr hst
    have away : ¬(l = .pulled ∨ l = .checked) := fun hl => by
      obtain ⟨hw, hz⟩ := pulled_worker hd hl (hex.placed b)
      cases b with
      | worker k =>
        have hf := hc.facts (.worker k)
        rw [hz] at hf
        have := hq.workers k hf.1
        rw [hz] at this
        rcases this with h | h | h <;> cases h
      | _ => cases hw
    rw [hst] at hfact
    cases l with
    | fresh | slotted | unslotted | entered | withdrawn => exact absurd hfact.1 blank
    | pulled | checked => exact absurd (by simp) away
    | handling => exact hfact.elim (fun h => absurd h.2 running) (fun h => absurd h.1 ended)
    | started | ran | awaiting | failing | completing => exact absurd hfact.1 running
    | ended | repaying | closing => exact absurd hfact.1 ended

theorem Turn.list {ids : Finset TaskId} (h : Turn s stage a (.listingRecords ids) x)
    (hL : x.1.ledger = s.shared.ledger)
    (hx : x.2 = sweepFrom a [] (pendingRecords s.shared.ledger.backend ids)) :
    ∃ stage', Staged (s.goto a x) stage' := by
  obtain ⟨hpc, hs, hex, hc, quiet, called⟩ := h
  have hq : Quiet s := sweeper_quiet (a := a) hex hc (by rw [hpc]; rfl)
  refine ⟨stage, hs.calm (by rw [hx, hpc, sweepFrom_duty]; rfl)
    (by rw [hL]; exact .refl hs.wellformed) quiet ?_ called⟩
  rw [hx]
  refine ⟨?_, fun u hu => ?_, fun u hu => ?_, (sweepFrom_rest _ _).2⟩
  · rw [sweepFrom_todo]
    exact pendingRecords_nodup hs.wellformed ids
  · rw [sweepFrom_todo] at hu
    obtain ⟨hi, r, hr, hp⟩ := mem_pendingRecords hs.wellformed hu
    have hown : u ∉ s.shared.ledger.foreign := hs.listed a u (by rw [hpc]; exact hi)
    exact ⟨pending_queued hs hex hc hq hr hp hown, hown⟩
  · rw [(sweepFrom_rest _ _).1] at hu
    exact absurd hu (Finset.notMem_empty u)

/-- The records cannot be listed, and the thread does not sweep. -/
theorem Turn.abandon {ids : Finset TaskId} (h : Turn s stage a (.listingRecords ids) x)
    (hL : x.1.ledger = s.shared.ledger) (hx : Light a x.2) :
    ∃ stage', Staged (s.goto a x) stage' := by
  obtain ⟨hpc, hs, _, _, quiet, called⟩ := h
  refine ⟨stage, hs.calm (by rw [hx.duty, hpc]; rfl) (by rw [hL]; exact .refl hs.wellformed)
    quiet (hx.ready _ _) called⟩

theorem Turn.sweep {done rest : List TaskId} (h : Turn s stage a (.sweeping t done rest) x)
    {r : TaskRecord} (hr : s.shared.ledger.record t = some r)
    (hL : x.1.ledger = (s.shared.ledger.update s.shared.clock t stoppedBeforeStart).2)
    (hx : x.2 = .releasing t (.sweep done rest)) : ∃ stage', Staged (s.goto a x) stage' := by
  obtain ⟨hpc, hs, hex, hc, quiet, called⟩ := h
  have hz : zone (s.pc a) = .sweeping := by rw [hpc]; rfl
  have hq : Quiet s := sweeper_quiet hex hc hz
  have hnodup : (t :: rest).Nodup := by simpa [hpc, todo] using hs.nodup a
  have htodo : ∀ u ∈ t :: rest, stage u = .queued ∧ u ∉ s.shared.ledger.foreign := by
    simpa [hpc, todo] using hs.leftover a
  obtain ⟨hst, hown⟩ := htodo t (List.mem_cons_self ..)
  have hfact := hs.fact t
  rw [hst] at hfact
  have hw : Waiting s.shared.ledger t := hfact.2.resolve_right fun h => hown h.foreign
  obtain ⟨_, _, hpend, _⟩ := update_ok hs.wellformed hr s.shared.clock stoppedBeforeStart
  refine ⟨_, hs.move (t := t) (g := .held a .ended) (.inr ⟨by rw [hpc]; rfl, fun b l he => ?_⟩)
    (by rw [hx]; rfl) ?_ (by rw [hL]; exact hw.sweep hs.wellformed hr _ rfl)
    (by rw [hL]; exact update_touches hs.wellformed hr _ _) ?_ (fun _ => .inr (quiet hq)) quiet
    (fun _ b hb hm => hb (sweeper_unique hex hc (todo_sweeping hm) hz)) ?_ ?_ called⟩
  · rw [hst] at he
    cases he
  · rintro b m h
    cases h
    rfl
  · rw [hL, Backend.queued, hpend]
    exact hs.queue
  · rw [hx]
    exact (List.nodup_cons.mp hnodup).1
  · rw [hx]
    exact ⟨(List.nodup_cons.mp hnodup).2, fun u hu => htodo u (List.mem_cons_of_mem _ hu),
      fun u hu => absurd hu (Finset.notMem_empty u), rfl⟩

/-! ## Handing over -/

theorem handOver_owner {f : FutureId} (hs : Staged s stage)
    (hp : duty s.shared.ledger a (s.pc a) = some (t, .ran f)) (hne : a ≠ .callback f)
    (idle : s.pc (.callback f) = .uncalled) (hf : (s.shared.ledger.futures f).task = t)
    (hu : (s.shared.ledger.futures f).registered = false)
    (hL : x.1.ledger = s.shared.ledger.modify f fun y => { y with registered := true })
    (hx : Light a x.2) (b : Thread ι) (u : TaskId) (l : Level) :
    duty x.1.ledger b ((s.goto a x).pc b) = some (u, l) ↔
      Function.update stage t (.held (.callback f) (.awaiting f)) u = .held b l := by
  have hst := (hs.owner _ _ _).mp hp
  by_cases hb : b = a
  · subst hb
    rw [goto_pc, hx.duty]
    refine ⟨fun he => (by cases he), fun he => ?_⟩
    by_cases hu : u = t
    · subst hu
      rw [Function.update_self] at he
      cases he
      exact absurd rfl hne
    · rw [Function.update_of_ne hu] at he
      cases hp.symm.trans ((hs.owner _ _ _).mpr he)
      exact absurd rfl hu
  · rw [goto_pc_of_ne s hb, hL]
    by_cases hbf : b = .callback f
    · subst hbf
      have hnone : ∀ u l, stage u ≠ .held (.callback f) l := fun u l he => by
        have := (hs.owner _ _ _).mpr he
        rw [idle] at this
        simp [duty, hu] at this
      rw [idle, register_gives hf]
      by_cases hu : u = t
      · subst hu
        rw [Function.update_self]
        simp
      · rw [Function.update_of_ne hu]
        refine ⟨fun h => ?_, fun h => absurd h (hnone u l)⟩
        cases h
        exact absurd rfl hu
    · rw [register_duty hbf, hs.owner]
      by_cases hu : u = t
      · subst hu
        rw [Function.update_self, hst]
        refine ⟨fun h => ?_, fun h => ?_⟩
        · cases h
          exact absurd rfl hb
        · cases h
          exact absurd rfl hbf
      · rw [Function.update_of_ne hu]

/-- With its callback registered, a running task is its future's. -/
theorem Turn.handOver {f : FutureId} (h : Turn s stage a (.addingCallback t f) x)
    (hL : x.1.ledger = s.shared.ledger.modify f fun y => { y with registered := true })
    (hx : Light a x.2) : ∃ stage', Staged (s.goto a x) stage' := by
  obtain ⟨hpc, hs, hex, hc, quiet, called⟩ := h
  have hp : duty s.shared.ledger a (s.pc a) = some (t, .ran f) := by rw [hpc]; rfl
  have hst := (hs.owner _ _ _).mp hp
  obtain ⟨hrun, hexe, hlaunched, hunreg⟩ := hs.level hp
  have idle : s.pc (.callback f) = .uncalled := by
    by_contra hne
    exact absurd ((hs.called f hne).symm.trans hunreg) (by decide)
  have hne : a ≠ .callback f := by
    rintro rfl
    rw [hpc] at idle
    cases idle
  have hforeign : x.1.ledger.foreign = s.shared.ledger.foreign := by rw [hL]; rfl
  have hqueued : x.1.ledger.backend = s.shared.ledger.backend := by rw [hL]; rfl
  have hnext : x.1.ledger.nextFuture = s.shared.ledger.nextFuture := by rw [hL]; rfl
  have hmark : (x.1.ledger.futures f).registered = true := by
    rw [hL]
    simp [Ledger.modify]
  have hother : ∀ g, g ≠ f → x.1.ledger.futures g = s.shared.ledger.futures g := by
    intro g hg
    rw [hL]
    simp [Ledger.modify, hg]
  have out : ∀ b, t ∉ todo (s.pc b) := fun b ht => by
    cases hst.symm.trans (hs.leftover b t ht).1
  have fit : ∀ b, Ready x.1.ledger (Function.update stage t (.held (.callback f) (.awaiting f)))
      ((s.goto a x).pc b) :=
    ready_goto (hx.ready _ _) fun b _ => ((hs.ready b).update (out b)).ledger hforeign
  refine ⟨_, handOver_owner hs hp hne idle hlaunched.2.1 hunreg hL hx, fun u => ?_,
    by rw [goto_shared, hqueued]; exact hs.wellformed,
    by rw [goto_shared, hqueued]; exact hs.queue, fun u hu => ?_, fun b => (fit b).nodup,
    fun b => (fit b).leftover, fun b => (fit b).listed, fun b => (fit b).fetched,
    fun g hg => ?_, fun g hg => ?_⟩
  · rw [goto_shared, hL]
    by_cases hu : u = t
    · subst hu
      rw [Function.update_self]
      exact register_awaiting ⟨hrun, hexe, hlaunched, hunreg⟩
    · rw [Function.update_of_ne hu]
      exact (register_keeps (hlaunched.2.1.symm ▸ hu)).stage (hs.fact u)
  · rw [goto_shared, hqueued] at hu
    rcases hs.stray u hu with hq | hq
    · by_cases hut : u = t
      · subst hut
        cases hst.symm.trans hq
      · rw [Function.update_of_ne hut]
        exact .inl hq
    · exact .inr (quiet hq)
  · rw [goto_shared]
    by_cases hgf : g = f
    · exact hgf ▸ hmark
    · rw [hother g hgf]
      exact hs.called_goto called hg
  · rw [goto_shared] at hg ⊢
    rw [hnext] at hg
    have hgf : g ≠ f := by
      rintro rfl
      exact absurd hlaunched.1 (Nat.not_lt.mpr hg)
    rw [hother g hgf]
    exact hs.unused g hg

/-! ## Every step -/

theorem Turn.release {k : Cont} (h : Turn s stage a (.releasing t k) x)
    (hr : mayRelease a k = true) (hx : advance s.shared a (.releasing t k) = some x) :
    ∃ stage', Staged (s.goto a x) stage' := by
  simp only [advance] at hx
  have erase := erase_touches h.staged.wellformed t
  cases k with
  | rollback e =>
    obtain ⟨hb, ho⟩ := h.level rfl
    rw [if_pos ho] at hx
    cases hx
    exact h.keep rfl rfl erase rfl ⟨{ hb with }, Finset.notMem_erase t _⟩ rfl rfl rfl
  | finish m =>
    obtain ⟨hend, howed⟩ := h.level rfl
    split at hx <;> cases hx
    · rename_i ho
      exact h.keep rfl rfl erase rfl ⟨{ hend with mine := { hend.mine with } },
        Finset.notMem_erase t _, howed.mp ho⟩ rfl rfl rfl
    · rename_i ho
      exact h.pass rfl rfl rfl (fun hf => ⟨hf.1, ho⟩) rfl rfl rfl
  | sweep done rest =>
    obtain ⟨hend, howed⟩ := h.level rfl
    split at hx <;> cases hx
    · rename_i ho
      exact h.keep rfl rfl erase rfl ⟨{ hend with mine := { hend.mine with } },
        Finset.notMem_erase t _, howed.mp ho⟩ rfl rfl rfl
    · rename_i ho
      exact h.pass rfl rfl rfl (fun hf => ⟨hf.1, ho⟩) rfl rfl rfl
  | coroutine q => exact absurd hr Bool.false_ne_true

theorem Turn.giveBack {k : Cont} (h : Turn s stage a (.givingBack t k) x)
    (hr : mayRelease a k = true) (room : s.shared.free < s.shared.config.maxOutstandingTasks)
    (hx : advance s.shared a (.givingBack t k) = some x) : ∃ stage', Staged (s.goto a x) stage' := by
  simp only [advance, room, ↓reduceIte] at hx
  cases hx
  cases k with
  | rollback e => exact h.leave (g := .absent) rfl rfl rfl rfl id rfl rfl rfl
  | finish m => exact h.pass rfl rfl rfl (fun hf => ⟨hf.1, hf.2.1⟩) rfl rfl rfl
  | sweep done rest => exact h.pass rfl rfl rfl (fun hf => ⟨hf.1, hf.2.1⟩) rfl rfl rfl
  | coroutine q => exact absurd hr Bool.false_ne_true

theorem Turn.resolved {k : Cont} {p : Pc} (h : Turn s stage a p x) (hr : mayResolve a k = true)
    (hp : p = .resolving t k ∨ ∃ w, p = .scheduling w t k) (hx : x.2 = afterResolve a t k)
    (hL : x.1.ledger = s.shared.ledger) : ∃ stage', Staged (s.goto a x) stage' := by
  cases k with
  | rollback e => exact absurd hr Bool.false_ne_true
  | finish m =>
    have hl : Light a x.2 := hx ▸ (resumed_light home_resumed)
    rcases hp with rfl | ⟨w, rfl⟩
    all_goals
      exact h.leave (t := t) (g := .spent) rfl (hl.duty _) hL rfl
        (fun hf => ⟨hf.2, .inl hf.1⟩) hl.todo hl.copied hl.fetched
  | sweep done rest =>
    have hd : duty s.shared.ledger a x.2 = none := hx ▸ sweepFrom_duty ..
    have ht : todo x.2 = rest := hx ▸ sweepFrom_todo ..
    have hc : copied x.2 = ∅ ∧ requestFound x.2 = true := hx ▸ sweepFrom_rest ..
    rcases hp with rfl | ⟨w, rfl⟩
    all_goals
      exact h.leave (t := t) (g := .spent) rfl hd hL rfl
        (fun hf => ⟨hf.2, .inl hf.1⟩) ht hc.1 hc.2
  | coroutine q =>
    rcases hp with rfl | ⟨w, rfl⟩
    all_goals exact h.same ⟨fun _ => rfl, rfl, rfl, rfl⟩ (hx ▸ ⟨fun _ => rfl, rfl, rfl, rfl⟩) hL

theorem Turn.updated {m : Ender} {request : Option TaskRequest}
    (h : Turn s stage a (.updating t m request) x) (hf : request.isSome)
    (hx : advance s.shared a (.updating t m request) = some x) :
    ∃ stage', Staged (s.goto a x) stage' := by
  have hw := h.staged.wellformed
  have hrun : Running s.shared.ledger t := by
    have hl := h.level (t := t) rfl
    cases m <;> exact hl.1
  obtain ⟨r, hr, _⟩ := hrun.record
  obtain ⟨hok, _, hpend, _⟩ := update_ok hw hr s.shared.clock m.update
  have hq : ((s.shared.ledger.update s.shared.clock t m.update).2).backend.queued =
      s.shared.ledger.backend.queued := by
    rw [Backend.queued, hpend]
    rfl
  obtain ⟨request, rfl⟩ := Option.isSome_iff_exists.mp hf
  simp only [advance, hok] at hx
  cases hx
  refine h.keep (t := t) (m := .ended) rfl rfl (update_touches hw hr _ _) hq ?_ rfl rfl rfl
  have hl := h.level (t := t) rfl
  cases m with
  | failTask e => exact hl.1.fail hl.2.1 hl.2.2.excepted hw hr _ rfl
  | workerLoop e => exact hl.1.fail hl.2.1 hl.2.2.excepted hw hr _ rfl
  | completeTask o =>
    cases o with
    | exception e => exact Running.complete hl hw hr _ (.inl ⟨⟨e, rfl⟩, rfl⟩)
    | result payload => exact Running.complete hl hw hr _ (.inr ⟨payload, rfl, rfl, rfl⟩)

theorem Turn.fetched {m : Ender} (h : Turn s stage a (.fetching t m) x)
    (hx : advance s.shared a (.fetching t m) = some x) : ∃ stage', Staged (s.goto a x) stage' := by
  have found : Running s.shared.ledger t → ∃ r, s.shared.ledger.record t = some r ∧
      terminal r.status = false := by
    rintro ⟨⟨r, hr, hs⟩, _⟩
    exact ⟨r, hr, by rw [hs]; rfl⟩
  cases m with
  | workerLoop e =>
    have hl := h.level (t := t) rfl
    cases hr : s.shared.ledger.record t with
    | none =>
      simp only [advance, hr] at hx
      cases hx
      refine h.pass (m := .ended) rfl rfl rfl (fun hf => ?_) rfl rfl rfl
      refine hf.resolve_left fun hf => ?_
      obtain ⟨r, hr', _⟩ := found hf.2
      cases hr.symm.trans hr'
    | some r =>
      by_cases ht : terminal r.status = true
      · simp only [advance, hr, ht, ↓reduceIte] at hx
        cases hx
        refine h.pass (m := .ended) rfl rfl rfl (fun hf => ?_) rfl rfl rfl
        refine hf.resolve_left fun hf => ?_
        obtain ⟨r', hr', hn⟩ := found hf.2
        cases hr.symm.trans hr'
        exact absurd (ht.symm.trans hn) (by decide)
      · simp only [advance, hr, ht] at hx
        cases hx
        refine h.pass (m := .failing) rfl rfl rfl (fun hf => ?_) rfl rfl rfl
        exact (hf.resolve_right fun hf => ht (hf.1.status r hr)).symm
  | failTask e =>
    obtain ⟨r, hr, _⟩ := found (h.level (t := t) rfl).1
    simp only [advance, hr] at hx
    cases hx
    exact h.pass rfl rfl rfl id rfl rfl rfl
  | completeTask o =>
    obtain ⟨r, hr, _⟩ := found (h.level (t := t) rfl).1
    simp only [advance, hr] at hx
    cases hx
    exact h.pass rfl rfl rfl id rfl rfl rfl

theorem staged_go (h : Turn s stage a p x) (hr : runsOn a p = true)
    (single : ∀ job, p = .checkingDuplicate job → s.shared.ledger.record job.task = none →
      job.task ∉ s.shared.ledger.accepted ∧ job.task ∉ s.shared.ledger.foreign)
    (room : ∀ t k, p = .givingBack t k → s.shared.free < s.shared.config.maxOutstandingTasks)
    (hx : advance s.shared a p = some x) : ∃ stage', Staged (s.goto a x) stage' := by
  have hw := h.staged.wellformed
  cases p
  case releasing t k => exact h.release hr hx
  case givingBack t k => exact h.giveBack hr (room t k rfl) hx
  case updating t m request =>
    refine h.updated ?_ hx
    have hf := h.staged.fetched a
    rw [h.pc] at hf
    cases request with
    | none => cases hf
    | some r => rfl
  case fetching t m => exact h.fetched hx
  all_goals simp only [advance, reduceCtorEq] at hx
  case checkingDuplicate job =>
    cases hx
    by_cases hrec : (s.shared.ledger.record job.task).isSome = true
    · exact h.same ⟨fun _ => rfl, rfl, rfl, rfl⟩
        (by rw [if_pos hrec]; exact ⟨fun _ => rfl, rfl, rfl, rfl⟩) rfl
    · obtain ⟨ha, hf⟩ := single job rfl (Option.not_isSome_iff_eq_none.mp hrec)
      exact h.submit ⟨fun _ => rfl, rfl, rfl, rfl⟩ (List.mem_singleton.mpr rfl) ha hf rfl
        (by rw [if_neg hrec]; rfl) (by rw [if_neg hrec]; rfl) (by rw [if_neg hrec]; rfl)
        (by rw [if_neg hrec]; rfl)
  case acquiringSlot job =>
    split at hx <;> cases hx
    · exact h.leave (g := .absent) rfl rfl rfl rfl id rfl rfl rfl
    · exact h.pass rfl rfl rfl id rfl rfl rfl
  case addingId job =>
    obtain ⟨hb, _⟩ := h.level rfl
    cases hx
    exact h.keep rfl rfl (insert_touches hw job.task) rfl
      ⟨{ hb with }, Finset.mem_insert_self ..⟩ rfl rfl rfl
  case storing job =>
    have hok := (store_ok _ (h.level rfl).1.record job.priority).1
    rw [hok] at hx
    cases hx
    exact h.store rfl rfl
  case reporting k =>
    cases hx
    cases k with
    | submitted job =>
      exact h.same ⟨fun _ => rfl, rfl, rfl, rfl⟩ ⟨fun _ => rfl, rfl, rfl, rfl⟩ rfl
    | started t request => exact h.pass rfl rfl rfl id rfl rfl rfl
    | ended t m request => exact h.pass rfl rfl rfl id rfl rfl rfl
  case tracing k event =>
    cases hx
    cases k with
    | submitted job =>
      exact h.same ⟨fun _ => rfl, rfl, rfl, rfl⟩ ⟨fun _ => rfl, rfl, rfl, rfl⟩ rfl
    | started t request => exact h.pass rfl rfl rfl id rfl rfl rfl
    | ended t m request => exact h.pass rfl rfl rfl id rfl rfl rfl
  case notifying n =>
    cases hx
    cases n with
    | submitted job =>
      exact h.idle ⟨fun _ => rfl, rfl, rfl, rfl⟩ (resumed_light (followUp_resumed job))
        (answer_spares hw (.submitted job))
    | stopping timeout workers =>
      exact h.same ⟨fun _ => rfl, rfl, rfl, rfl⟩ (resumed_light (joinFrom_resumed ..)) rfl
    | finished t m => exact h.pass rfl rfl rfl id rfl rfl rfl
    | swept done => exact h.same ⟨fun _ => rfl, rfl, rfl, rfl⟩ (resumed_light afterSweep_resumed) rfl
  case resolving t k =>
    split at hx <;> cases hx
    · exact h.resolved hr (.inl rfl) rfl rfl
    · cases k with
      | rollback e => exact absurd hr Bool.false_ne_true
      | finish m => exact h.pass rfl rfl rfl id rfl rfl rfl
      | sweep done rest => exact h.pass rfl rfl rfl id rfl rfl rfl
      | coroutine q =>
        exact h.same ⟨fun _ => rfl, rfl, rfl, rfl⟩ ⟨fun _ => rfl, rfl, rfl, rfl⟩ rfl
  case scheduling w t k =>
    split at hx <;> cases hx
    all_goals exact h.resolved hr (.inr ⟨w, rfl⟩) rfl rfl
  case listingIds => cases hx; exact h.listIds rfl rfl
  case listingRecords ids => cases hx; exact h.list rfl rfl
  case sweeping t done rest =>
    have hleft := h.staged.leftover a t (by rw [h.pc]; exact List.mem_cons_self ..)
    have hfact := h.staged.fact t
    rw [hleft.1] at hfact
    obtain ⟨r, hrec, _⟩ := (hfact.2.resolve_right fun h => hleft.2 h.foreign).record
    rw [(update_ok hw hrec _ _).1] at hx
    cases hx
    exact h.sweep hrec rfl rfl
  case joining d k rest =>
    split at hx <;> cases hx
    · exact h.same ⟨fun _ => rfl, rfl, rfl, rfl⟩ ⟨fun _ => rfl, rfl, rfl, rfl⟩ rfl
    · exact h.same ⟨fun _ => rfl, rfl, rfl, rfl⟩ (resumed_light (joinFrom_resumed ..)) rfl
  case querying q =>
    repeat' split at hx
    all_goals cases hx
    · exact h.same ⟨fun _ => rfl, rfl, rfl, rfl⟩ (resumed_light (fail_resumed ..)) rfl
    · exact h.same ⟨fun _ => rfl, rfl, rfl, rfl⟩ ⟨fun _ => rfl, rfl, rfl, rfl⟩ rfl
    · exact h.same ⟨fun _ => rfl, rfl, rfl, rfl⟩ (resumed_light (start_resumed ..)) rfl
    · exact h.same ⟨fun _ => rfl, rfl, rfl, rfl⟩ (resumed_light (respond_resumed ..)) rfl
  case reading q locked =>
    cases hx
    refine h.idle ⟨fun _ => rfl, rfl, rfl, rfl⟩ ?_ (read_spares hw q.task q.consume copies)
    dsimp only
    split
    · exact resumed_light (fail_resumed ..)
    · exact resumed_light (respond_resumed ..)
    · exact resumed_light (escape_resumed ..)
  case waitChecking q d =>
    cases hx
    exact h.same ⟨fun _ => rfl, rfl, rfl, rfl⟩ (look_of q _ _ _ (fun _ => resumed_light)
      ⟨fun _ => rfl, rfl, rfl, rfl⟩ fun _ => ⟨fun _ => rfl, rfl, rfl, rfl⟩) rfl
  case pulling =>
    cases a with
    | worker k =>
      cases hp : s.shared.ledger.pull.1 with
      | none =>
        rw [hp] at hx
        cases hx
        exact h.same ⟨fun _ => rfl, rfl, rfl, rfl⟩ ⟨fun _ => rfl, rfl, rfl, rfl⟩ (pull_none_same hp)
      | some t =>
        rw [hp] at hx
        cases hx
        exact h.pull hp rfl rfl
    | _ => exact absurd hr Bool.false_ne_true
  case checking t =>
    rcases h.level (t := t) rfl with hl | hl
    · obtain ⟨r, hrec, hst⟩ := hl.record
      simp only [hrec, hst, ↓reduceIte] at hx
      cases hx
      exact h.pass rfl rfl rfl (fun _ => hl) rfl rfl rfl
    · have away : Light a (home a) := (resumed_light home_resumed)
      have hover : Stage.Fact (ι := ι) s.shared.ledger t .spent :=
        ⟨hl.outstanding, .inr ⟨hl.foreign, hl.executed, hl.mine⟩⟩
      have hhome : (s.shared, home a) = x := by
        split at hx
        · exact Option.some.inj hx
        · rename_i r hrec
          rw [if_neg (hl.status r hrec)] at hx
          exact Option.some.inj hx
      cases hhome
      exact h.leave (t := t) (g := .spent) rfl (away.duty _) rfl rfl (fun _ => hover) away.todo
        away.copied away.fetched
  case running t request =>
    have hwait : Waiting s.shared.ledger t := h.level (t := t) rfl
    obtain ⟨r, hrec, _⟩ := hwait.record
    obtain ⟨hok, _, hpend, _⟩ := update_ok hw hrec s.shared.clock { status := .running }
    rw [hok] at hx
    cases hx
    refine h.keep (t := t) rfl rfl (update_touches hw hrec _ _) ?_ (hwait.start hw hrec _) rfl rfl rfl
    dsimp only
    rw [Backend.queued, hpend]
    rfl
  case executing t request =>
    cases hx
    exact h.keep (t := t) rfl rfl (launch_touches hw (h.staged.unused _ le_rfl) t) rfl
      (launch_ran (h.level rfl)) rfl rfl rfl
  case addingCallback t f =>
    split at hx <;> cases hx
    · exact h.handOver rfl (resumed_light home_resumed)
    · rename_i o ho
      exact h.pass rfl rfl rfl (fun hf => ⟨hf.1, hf.2.1, f, hf.2.2.1, ho⟩) rfl rfl rfl
  case uncalled =>
    split at hx
    · rename_i f
      split at hx <;> cases hx
      rename_i o hreg ho
      have hd : duty s.shared.ledger (.callback f : Thread ι) .uncalled =
          some ((s.shared.ledger.futures f).task, .awaiting f) := by simp [duty, hreg]
      exact h.pass hd rfl rfl (fun hf => ⟨hf.1, hf.2.1, f, hf.2.2.1, ho⟩) rfl rfl rfl
    · cases hx
  all_goals repeat' split at hx
  all_goals cases hx
  all_goals try exact h.same ⟨fun _ => rfl, rfl, rfl, rfl⟩ ⟨fun _ => rfl, rfl, rfl, rfl⟩ rfl

theorem staged_raises {e : Raised} (h : Turn s stage a p x)
    (hx : act s.shared a p (.raises e) = some x) : ∃ stage', Staged (s.goto a x) stage' := by
  cases p
  case listingRecords ids =>
    obtain ⟨e', rfl⟩ := listing_raises hx
    exact h.abandon rfl (resumed_light (abortSweep_resumed _))
  case querying q =>
    obtain ⟨_, rfl⟩ := querying_raises hx
    exact h.same ⟨fun _ => rfl, rfl, rfl, rfl⟩ (resumed_light (escape_resumed ..)) rfl
  case reading q locked =>
    obtain ⟨_, _, rfl⟩ := reading_raises hx
    exact h.idle ⟨fun _ => rfl, rfl, rfl, rfl⟩ (resumed_light (escape_resumed ..))
      (read_spares h.staged.wellformed q.task q.consume copies)
  all_goals simp only [act, throwing, reduceCtorEq] at hx
  case storing job =>
    cases hx
    exact h.pass rfl rfl rfl id rfl rfl rfl
  case tracing k event =>
    cases hx
    cases k with
    | submitted job =>
      exact h.same ⟨fun _ => rfl, rfl, rfl, rfl⟩ ⟨fun _ => rfl, rfl, rfl, rfl⟩ rfl
    | started t request =>
      exact h.pass (m := .handling) rfl rfl rfl (fun hf => .inl ⟨⟨by simp [hf.2.1], hf.2.2⟩, hf.1⟩) rfl
        rfl rfl
    | ended t m request =>
      cases m with
      | failTask e => exact h.pass (m := .handling) rfl rfl rfl .inr rfl rfl rfl
      | _ => exact h.pass rfl rfl rfl id rfl rfl rfl
  case executing t request =>
    cases hx
    exact h.keep (t := t) (m := .failing) rfl rfl (call_touches h.staged.wellformed t) rfl
      (call_failing (h.level rfl)) rfl rfl rfl
  all_goals repeat' split at hx
  all_goals cases hx
  all_goals exact h.same ⟨fun _ => rfl, rfl, rfl, rfl⟩ ⟨fun _ => rfl, rfl, rfl, rfl⟩ rfl

theorem staged_expires (h : Turn s stage a p x) (hx : expire s.shared a p = some x) :
    ∃ stage', Staged (s.goto a x) stage' := by
  cases p <;> simp only [expire, reduceCtorEq] at hx
  case joining d k rest =>
    split at hx <;> cases hx
    exact h.same ⟨fun _ => rfl, rfl, rfl, rfl⟩ (resumed_light (joinFrom_resumed ..)) rfl
  all_goals repeat' split at hx
  all_goals cases hx
  all_goals exact h.same ⟨fun _ => rfl, rfl, rfl, rfl⟩ ⟨fun _ => rfl, rfl, rfl, rfl⟩ rfl

theorem called_of_act {f : FutureId} (h : Staged s stage)
    (hx : act s.shared (.callback f) (s.pc (.callback f)) c = some x) :
    (s.shared.ledger.futures f).registered = true := by
  by_cases hp : s.pc (.callback f) = .uncalled
  · rw [hp] at hx
    cases c <;> simp only [act, advance, throwing, expire, reduceCtorEq] at hx
    split at hx <;> cases hx
    assumption
  · exact h.called f hp

end

end SchedulerOwnership
