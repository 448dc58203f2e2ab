import Infly.SchedulerState

/-! # The ledger, seen from one task

A task is unknown, queued, in the hands of one thread, or over, and each stage says what
the ledger holds of it. `Keeps L L' u`: of task `u` only a terminal record may have left, and
a future may have got its outcome.
-/
namespace SchedulerLedger

open Contracts TaskBackend SchedulerState

structure Keeps (L L' : Ledger) (u : TaskId) : Prop where
  fades : L.backend.Fades L'.backend u
  queued : u ∈ L'.backend.queued ↔ u ∈ L.backend.queued
  outstanding : u ∈ L'.outstanding ↔ u ∈ L.outstanding
  foreign : u ∈ L'.foreign ↔ u ∈ L.foreign
  accepted : u ∈ L'.accepted ↔ u ∈ L.accepted
  accepts : L'.accepts u = L.accepts u
  executed : L'.executed u = L.executed u
  moves : L'.moves u = L.moves u
  later : L.nextFuture ≤ L'.nextFuture
  futures : ∀ f, f < L.nextFuture → (L.futures f).task = u →
    (L'.futures f).task = u ∧ (L'.futures f).registered = (L.futures f).registered ∧
      ∀ o, (L.futures f).outcome = some o → (L'.futures f).outcome = some o
  launched : ∀ f, f < L'.nextFuture → (L'.futures f).task = u →
    f < L.nextFuture ∧ (L.futures f).task = u

variable {L L' L'' : Ledger} {t u : TaskId} {f : FutureId}

theorem Keeps.refl (L : Ledger) (u : TaskId) : Keeps L L u where
  fades := .refl ..
  queued := .rfl
  outstanding := .rfl
  foreign := .rfl
  accepted := .rfl
  accepts := rfl
  executed := rfl
  moves := rfl
  later := le_rfl
  futures _ _ ht := ⟨ht, rfl, fun _ h => h⟩
  launched _ hf ht := ⟨hf, ht⟩

/-- Of the ledger only the backend and the outstanding ids differ, not for `u`. -/
theorem Keeps.of_backend (hL : L' = { L with backend := L'.backend, outstanding := L'.outstanding })
    (fades : L.backend.Fades L'.backend u)
    (queued : u ∈ L'.backend.queued ↔ u ∈ L.backend.queued)
    (outstanding : u ∈ L'.outstanding ↔ u ∈ L.outstanding) : Keeps L L' u := by
  rw [hL]
  exact ⟨fades, queued, outstanding, .rfl, .rfl, rfl, rfl, rfl, le_rfl,
    fun _ _ ht => ⟨ht, rfl, fun _ h => h⟩, fun _ hf ht => ⟨hf, ht⟩⟩

theorem insert_keeps (h : u ≠ t) :
    Keeps L { L with outstanding := insert t L.outstanding } u :=
  .of_backend rfl (.refl ..) .rfl (by simp [h])

theorem erase_keeps (h : u ≠ t) :
    Keeps L { L with outstanding := L.outstanding.erase t } u :=
  .of_backend rfl (.refl ..) .rfl (by simp [h])

theorem read_keeps (L : Ledger) (t : TaskId) (consume : Bool) (copying : Copying) (u : TaskId) :
    Keeps L (L.read t consume copying).2 u :=
  .of_backend rfl (Backend.read_fades ..) (by simp [Ledger.read, Backend.queued]) .rfl

theorem pull_keeps (h : L.pull.1 = some t) (hu : u ≠ t) : Keeps L L.pull.2 u := by
  refine .of_backend rfl (.inl ?_) ?_ .rfl
  · simp [Ledger.pull]
  · simp [Ledger.pull, Backend.pull_some h, hu]

theorem pull_none_same (h : L.pull.1 = none) : L.pull.2 = L := by
  simp only [Ledger.pull, (Backend.pull_none h).2]

theorem call_keeps (h : u ≠ t) : Keeps L (L.call t) u := by
  refine ⟨.refl .., .rfl, .rfl, .rfl, .rfl, rfl, ?_, rfl, le_rfl,
    fun _ _ ht => ⟨ht, rfl, fun _ h => h⟩, fun _ hf ht => ⟨hf, ht⟩⟩
  simp [Ledger.call, h]

theorem launch_keeps (h : u ≠ t) : Keeps L (L.launch t) u where
  fades := .refl ..
  queued := .rfl
  outstanding := .rfl
  foreign := .rfl
  accepted := .rfl
  accepts := rfl
  executed := by simp [Ledger.launch, Ledger.call, h]
  moves := rfl
  later := Nat.le_succ _
  futures f hf ht := by
    have hne : f ≠ L.nextFuture := Nat.ne_of_lt hf
    simp [Ledger.launch, Ledger.call, hne, ht]
  launched f hf ht := by
    by_cases hne : f = L.nextFuture
    · subst hne
      exact absurd (by simpa [Ledger.launch, Ledger.call] using ht.symm) h
    · exact ⟨Nat.lt_of_le_of_ne (Nat.le_of_lt_succ hf) hne,
        by simpa [Ledger.launch, Ledger.call, hne] using ht⟩

/-- Registering the callback of a future of another task. -/
theorem register_keeps (h : u ≠ (L.futures f).task) :
    Keeps L (L.modify f fun x => { x with registered := true }) u where
  fades := .refl ..
  queued := .rfl
  outstanding := .rfl
  foreign := .rfl
  accepted := .rfl
  accepts := rfl
  executed := rfl
  moves := rfl
  later := le_rfl
  futures g hg ht := by
    have hne : g ≠ f := fun he => h (he ▸ ht.symm)
    simp [Ledger.modify, hne, ht]
  launched g hg ht := by
    refine ⟨hg, ?_⟩
    by_cases hne : g = f
    · subst hne
      simpa [Ledger.modify] using ht
    · simpa [Ledger.modify, hne] using ht

theorem resolve_keeps (h : (L.futures f).outcome = none) (o : Outcome) (u : TaskId) :
    Keeps L (L.modify f fun x => { x with outcome := some o }) u where
  fades := .refl ..
  queued := .rfl
  outstanding := .rfl
  foreign := .rfl
  accepted := .rfl
  accepts := rfl
  executed := rfl
  moves := rfl
  later := le_rfl
  futures g hg ht := by
    by_cases hne : g = f
    · subst hne
      simp [Ledger.modify, ht, h]
    · simp [Ledger.modify, hne, ht]
  launched g hg ht := by
    refine ⟨hg, ?_⟩
    by_cases hne : g = f
    · subst hne
      simpa [Ledger.modify] using ht
    · simpa [Ledger.modify, hne] using ht

/-! ## Storing and updating -/

theorem store_ok (request : TaskRequest) (hn : L.record request.taskId = none) (priority : ℤ) :
    (L.store request priority).1 = .ok () ∧
    (L.store request priority).2.record request.taskId =
      some { taskId := request.taskId, request } ∧
    (L.store request priority).2.backend.queued.Perm (request.taskId :: L.backend.queued) ∧
    ((L.store request priority).2.accepted = insert request.taskId L.accepted ∧
      (L.store request priority).2.accepts request.taskId = L.accepts request.taskId + 1 ∧
      (L.store request priority).2.moves request.taskId = L.moves request.taskId ++ [.pending]) ∧
    ∀ u, u ≠ request.taskId → Keeps L (L.store request priority).2 u := by
  have hs := Backend.submit_new (r := { taskId := request.taskId, request }) hn priority
  have hq := Backend.submit_queued (r := { taskId := request.taskId, request }) hn priority
  unfold Ledger.store
  rw [hs] at hq ⊢
  dsimp only at hq ⊢
  refine ⟨rfl, by simp [Ledger.record, Backend.get], hq, ⟨rfl, by simp, by simp⟩, fun u hu => ?_⟩
  refine ⟨.inl (by simp [hu]), ?_, .rfl, .rfl, by simp [hu], by simp [hu], rfl, by simp [hu],
    le_rfl, fun _ _ ht => ⟨ht, rfl, fun _ h => h⟩, fun _ hf ht => ⟨hf, ht⟩⟩
  simp [hq.mem_iff, hu]

theorem store_wellformed (h : L.backend.Wellformed) (request : TaskRequest) (priority : ℤ) :
    (L.store request priority).2.backend.Wellformed := by
  have hw := h.submit (r := { taskId := request.taskId, request }) rfl priority
  unfold Ledger.store
  split <;> rename_i hb <;> rw [hb] at hw <;> exact hw

theorem update_ok (h : L.backend.Wellformed) {r : TaskRecord} (hr : L.record t = some r)
    (now : ℕ) (x : Backend.Update) :
    (L.update now t x).1 = .ok (x.apply r) ∧
    (L.update now t x).2.backend.Wellformed ∧
    (L.update now t x).2.backend.pending = L.backend.pending ∧
    ((L.update now t x).2.record t = some (x.apply r) ∨
      (L.update now t x).2.record t = none ∧ terminal x.status = true) ∧
    (L.update now t x).2.moves t = L.moves t ++ [x.status] ∧
    ∀ u, u ≠ t → Keeps L (L.update now t x).2 u := by
  obtain ⟨b', hb, hw, hq, hf, hs⟩ := Backend.updateStatus_ok h hr now x
  unfold Ledger.update
  rw [hb]
  refine ⟨rfl, hw, hq, hs, by simp [hr], fun u hu => ?_⟩
  refine ⟨hf u hu, by simp [Backend.queued, hq], .rfl, .rfl, .rfl, rfl, rfl, by simp [hr, hu],
    le_rfl, fun _ _ ht => ⟨ht, rfl, fun _ h => h⟩, fun _ hf ht => ⟨hf, ht⟩⟩

/-! ## Stages -/

inductive Level where
  | fresh | slotted | entered | withdrawn | unslotted
  | pulled | checked | started | ran (f : FutureId) | awaiting (f : FutureId)
  | failing | completing (o : Outcome) | handling | ended | repaying | closing
  deriving DecidableEq

inductive Stage (ι : Type) where
  | absent | queued | held (a : Thread ι) (l : Level) | spent
  deriving DecidableEq

def Stage.duty {ι : Type} (t : TaskId) : Stage ι → Option (TaskId × Level)
  | .held _ l => some (t, l)
  | _ => none

/-! ## What the ledger holds of a task -/

section

variable (L : Ledger) (t : TaskId)

def InStatus (status : TaskStatus) : Prop := ∃ r, L.record t = some r ∧ r.status = status

def Unlaunched : Prop := ∀ f, f < L.nextFuture → (L.futures f).task ≠ t

def Launched (f : FutureId) : Prop :=
  f < L.nextFuture ∧ (L.futures f).task = t ∧
    ∀ g, g < L.nextFuture → (L.futures g).task = t → g = f

/-- Never stored by this scheduler nor known before. -/
structure Blank : Prop where
  record : L.record t = none
  queue : t ∉ L.backend.queued
  foreign : t ∉ L.foreign
  accepted : t ∉ L.accepted
  accepts : L.accepts t = 0
  moves : L.moves t = []
  executed : L.executed t = 0
  unlaunched : Unlaunched L t

/-- A task counts as outstanding, and as accepted once, exactly if it is the scheduler's own. -/
structure Mine : Prop where
  accepted : t ∈ L.accepted ↔ t ∉ L.foreign
  accepts : L.accepts t = if t ∈ L.foreign then 0 else 1

def Owed : Prop := t ∈ L.outstanding ↔ t ∉ L.foreign

structure Waiting : Prop where
  status : InStatus L t .pending
  moves : L.moves t = [.pending]
  executed : L.executed t = 0
  unlaunched : Unlaunched L t
  mine : Mine L t
  owed : Owed L t

structure Running : Prop where
  status : InStatus L t .running
  moves : L.moves t = [.pending, .running]
  mine : Mine L t
  owed : Owed L t

def Final : Prop :=
  L.moves t = [.pending, .failed] ∧ L.executed t = 0 ∨
    L.moves t = [.pending, .running, .completed] ∨ L.moves t = [.pending, .running, .failed]

/-- Its futures delivered exceptions. -/
def Excepted : Prop := ∀ f, f < L.nextFuture → (L.futures f).task = t →
  ∃ e, (L.futures f).outcome = some (.exception e)

structure Ended : Prop where
  status : ∀ r, L.record t = some r → terminal r.status = true
  last : ∀ r, L.record t = some r → (L.moves t).getLast? = some r.status
  result : ∀ r, L.record t = some r → r.status = .completed →
    ∃ f, Launched L t f ∧ (L.futures f).outcome = some (.result r.result)
  failed : ∀ r, L.record t = some r → r.status = .failed → Excepted L t
  final : Final L t
  executed : L.executed t ≤ 1
  mine : Mine L t

/-- Left behind by another user of the backend, and not pending. -/
structure Stale : Prop where
  foreign : t ∈ L.foreign
  outstanding : t ∉ L.outstanding
  status : ∀ r, L.record t = some r → r.status ≠ .pending
  executed : L.executed t = 0
  mine : Mine L t

def Level.Fact : Level → Prop
  | .fresh | .slotted | .unslotted => Blank L t ∧ t ∉ L.outstanding
  | .entered | .withdrawn => Blank L t ∧ t ∈ L.outstanding
  | .pulled => Waiting L t ∨ Stale L t
  | .checked => Waiting L t
  | .started => Running L t ∧ L.executed t = 0 ∧ Unlaunched L t
  | .ran f => Running L t ∧ L.executed t = 1 ∧ Launched L t f ∧ (L.futures f).registered = false
  | .awaiting f =>
    Running L t ∧ L.executed t = 1 ∧ Launched L t f ∧ (L.futures f).registered = true
  | .failing => Running L t ∧ L.executed t ≤ 1 ∧ Unlaunched L t
  | .completing o =>
    Running L t ∧ L.executed t = 1 ∧ ∃ f, Launched L t f ∧ (L.futures f).outcome = some o
  | .handling =>
    (L.executed t ≤ 1 ∧ Unlaunched L t) ∧ Running L t ∨ Ended L t ∧ Owed L t
  | .ended => Ended L t ∧ Owed L t
  | .repaying => Ended L t ∧ t ∉ L.outstanding ∧ t ∉ L.foreign
  | .closing => Ended L t ∧ t ∉ L.outstanding

variable {ι : Type}

def Stage.Fact : Stage ι → Prop
  | .absent => Blank L t ∧ t ∉ L.outstanding
  | .queued => t ∈ L.backend.queued ∧ (Waiting L t ∨ Stale L t)
  | .held _ l => l.Fact L t
  | .spent => t ∉ L.outstanding ∧ (Ended L t ∨ t ∈ L.foreign ∧ L.executed t = 0 ∧ Mine L t)

end

/-! ## A step about the task itself -/

section

variable {ι : Type} {L : Ledger} {t : TaskId} {f : FutureId} {o : Outcome} {r : TaskRecord}

theorem Stage.Fact.known {g : Stage ι} (h : g.Fact L t) : Blank L t ∨ Mine L t := by
  cases g with
  | absent => exact .inl h.1
  | queued => exact .inr (h.2.elim Waiting.mine Stale.mine)
  | spent => exact .inr (h.2.elim Ended.mine fun h => h.2.2)
  | held a l =>
    cases l with
    | fresh | slotted | unslotted | entered | withdrawn => exact .inl h.1
    | pulled => exact .inr (h.elim Waiting.mine Stale.mine)
    | checked => exact .inr (Waiting.mine h)
    | handling => exact .inr (h.elim (fun h => h.2.mine) fun h => h.1.mine)
    | started | ran | awaiting | failing | completing | ended | repaying | closing =>
      exact .inr h.1.mine

/-- Nobody is the owner of a task that is neither the scheduler's nor was there before. -/
theorem Stage.Fact.blank {g : Stage ι} (h : g.Fact L t) (ha : t ∉ L.accepted)
    (hf : t ∉ L.foreign) : Blank L t :=
  h.known.resolve_right fun hm => ha (hm.accepted.mpr hf)

/-- The scheduler does not accept what was there before. -/
theorem Stage.Fact.accepted {g : Stage ι} (h : g.Fact L t) (ha : t ∈ L.accepted) :
    t ∉ L.foreign :=
  h.known.elim (fun hb => absurd ha hb.accepted) fun hm => hm.accepted.mp ha

/-- An accepted task waits, runs or is over. -/
theorem Stage.Fact.phase {g : Stage ι} (h : g.Fact L t) (ha : t ∈ L.accepted) :
    Waiting L t ∨ Running L t ∧ L.executed t ≤ 1 ∨ Ended L t := by
  have own := h.accepted ha
  cases g with
  | absent => exact absurd ha h.1.accepted
  | queued => exact .inl (h.2.resolve_right fun hs => own hs.foreign)
  | spent => exact .inr (.inr (h.2.resolve_right fun hs => own hs.1))
  | held a l =>
    cases l with
    | fresh | slotted | unslotted | entered | withdrawn => exact absurd ha h.1.accepted
    | pulled => exact .inl (h.resolve_right fun hs => own hs.foreign)
    | checked => exact .inl h
    | started => exact .inr (.inl ⟨h.1, h.2.1.le.trans (Nat.zero_le 1)⟩)
    | ran f | awaiting f | completing o => exact .inr (.inl ⟨h.1, h.2.1.le⟩)
    | failing => exact .inr (.inl ⟨h.1, h.2.1⟩)
    | handling => exact .inr (h.imp (fun h => ⟨h.2, h.1.1⟩) And.left)
    | ended | repaying | closing => exact .inr (.inr h.1)

theorem Blank.notMine (h : Blank L t) : ¬Mine L t := fun hm =>
  h.accepted (hm.accepted.mpr h.foreign)

/-- An outstanding task is not a foreign one. -/
theorem Stage.Fact.own {g : Stage ι} (h : g.Fact L t) (ho : t ∈ L.outstanding) :
    t ∉ L.foreign := by
  cases g with
  | absent => exact absurd ho h.2
  | queued => exact h.2.elim (fun h => h.owed.mp ho) (fun h => absurd ho h.outstanding)
  | spent => exact absurd ho h.1
  | held a l =>
    cases l with
    | fresh | slotted | unslotted => exact absurd ho h.2
    | entered | withdrawn => exact h.1.foreign
    | pulled => exact h.elim (fun h => h.owed.mp ho) (fun h => absurd ho h.outstanding)
    | checked => exact (Waiting.owed h).mp ho
    | started | ran | awaiting | failing | completing => exact h.1.owed.mp ho
    | handling => exact h.elim (fun h => h.2.owed.mp ho) (fun h => h.2.mp ho)
    | ended => exact h.2.mp ho
    | repaying => exact h.2.2
    | closing => exact absurd ho h.2

theorem Waiting.record (h : Waiting L t) : ∃ r, L.record t = some r ∧ r.status = .pending :=
  h.status

theorem Running.record (h : Running L t) : ∃ r, L.record t = some r ∧ r.status = .running :=
  h.status

theorem Blank.store (h : Blank L t) (ho : t ∈ L.outstanding) {request : TaskRequest}
    (hr : request.taskId = t) (priority : ℤ) :
    t ∈ (L.store request priority).2.backend.queued ∧
      Waiting (L.store request priority).2 t := by
  subst hr
  obtain ⟨_, hrec, hq, ⟨hacc, haccs, hmoves⟩, _⟩ := store_ok request h.record priority
  have rest : (L.store request priority).2.executed = L.executed ∧
      (L.store request priority).2.futures = L.futures ∧
      (L.store request priority).2.nextFuture = L.nextFuture ∧
      (L.store request priority).2.foreign = L.foreign ∧
      (L.store request priority).2.outstanding = L.outstanding := by
    unfold Ledger.store
    split <;> simp
  obtain ⟨he, hf, hn, hfo, hout⟩ := rest
  refine ⟨hq.mem_iff.mpr (List.mem_cons_self ..), ⟨_, hrec, rfl⟩, ?_, ?_, ?_, ⟨?_, ?_⟩, ?_⟩
  · rw [hmoves, h.moves]
    rfl
  · rw [he, h.executed]
  · intro f
    rw [hf, hn]
    exact h.unlaunched f
  · simp [hacc, hfo, h.foreign]
  · simp [haccs, h.accepts, hfo, h.foreign]
  · simp [Owed, hout, ho, hfo, h.foreign]

theorem Waiting.pull (h : Waiting L t) : Waiting L.pull.2 t :=
  { h with
    status := by simpa [InStatus, Ledger.record, Backend.get, Ledger.pull] using h.status
    mine := { h.mine with }
    owed := h.owed }

theorem Stale.pull (h : Stale L t) : Stale L.pull.2 t :=
  { h with
    status := by simpa [Ledger.record, Backend.get, Ledger.pull] using h.status
    mine := { h.mine with } }

theorem Waiting.start (h : Waiting L t) (hw : L.backend.Wellformed) (hr : L.record t = some r)
    (now : ℕ) : Level.started.Fact (L.update now t { status := .running }).2 t := by
  obtain ⟨_, _, _, hs, hm, _⟩ := update_ok hw hr now { status := .running }
  refine ⟨⟨?_, ?_, { h.mine with }, h.owed⟩, h.executed, h.unlaunched⟩
  · rcases hs with hs | ⟨_, hs⟩
    · exact ⟨_, hs, rfl⟩
    · cases hs
  · rw [hm, h.moves]
    rfl

theorem call_failing (h : Level.started.Fact L t) : Level.failing.Fact (L.call t) t :=
  ⟨{ h.1 with mine := { h.1.mine with } }, by simp [Ledger.call, h.2.1], h.2.2⟩

theorem launch_ran (h : Level.started.Fact L t) :
    (Level.ran L.nextFuture).Fact (L.launch t) t := by
  refine ⟨{ h.1 with mine := { h.1.mine with } }, by simp [Ledger.launch, Ledger.call, h.2.1],
    ⟨Nat.lt_succ_self _, by simp [Ledger.launch], fun g hg ht => ?_⟩, by simp [Ledger.launch]⟩
  by_contra hne
  refine h.2.2 g (Nat.lt_of_le_of_ne (Nat.le_of_lt_succ hg) hne) ?_
  simpa [Ledger.launch, Ledger.call, hne] using ht

theorem register_awaiting (h : (Level.ran f).Fact L t) :
    (Level.awaiting f).Fact (L.modify f fun x => { x with registered := true }) t := by
  obtain ⟨hr, he, ⟨hf, ht, hu⟩, _⟩ := h
  refine ⟨{ hr with mine := { hr.mine with } }, he, ⟨hf, by simpa [Ledger.modify] using ht,
    fun g hg hgt => ?_⟩, by simp [Ledger.modify]⟩
  by_cases hne : g = f
  · exact hne
  · exact hu g hg (by simpa [Ledger.modify, hne] using hgt)

theorem Unlaunched.excepted (h : Unlaunched L t) : Excepted L t :=
  fun f hf ht => absurd ht (h f hf)

theorem Running.fail (h : Running L t) (he : L.executed t ≤ 1) (hf : Excepted L t)
    (hw : L.backend.Wellformed) (hr : L.record t = some r) (now : ℕ) {x : Backend.Update}
    (hx : x.status = .failed) : Level.ended.Fact (L.update now t x).2 t := by
  obtain ⟨_, _, _, hs, hm, _⟩ := update_ok hw hr now x
  refine ⟨⟨fun r' hr' => ?_, fun r' hr' => ?_, fun r' hr' hc => ?_, fun _ _ _ => hf,
    .inr (.inr ?_), he, { h.mine with }⟩, h.owed⟩
  · rcases hs with hs | ⟨hs, _⟩
    · cases hs.symm.trans hr'
      simp [Backend.Update.apply, hx, terminal]
    · cases hs.symm.trans hr'
  · rcases hs with hs | ⟨hs, _⟩
    · cases hs.symm.trans hr'
      simp [hm, Backend.Update.apply]
    · cases hs.symm.trans hr'
  · rcases hs with hs | ⟨hs, _⟩
    · cases hs.symm.trans hr'
      exact absurd (hx.symm.trans hc) (by decide)
    · cases hs.symm.trans hr'
  · rw [hm, h.moves, hx]
    rfl

/-- `_complete_task` ends the task with what its own future holds. -/
theorem Running.complete (h : (Level.completing o).Fact L t) (hw : L.backend.Wellformed)
    (hr : L.record t = some r) (now : ℕ) {x : Backend.Update}
    (hx : (∃ e, o = .exception e) ∧ x.status = .failed ∨
      ∃ payload, o = .result payload ∧ x.status = .completed ∧ x.result = payload) :
    Level.ended.Fact (L.update now t x).2 t := by
  obtain ⟨hrun, he, f, hf, ho⟩ := h
  rcases hx with ⟨⟨e, rfl⟩, hx⟩ | ⟨payload, rfl, hx, hp⟩
  · refine hrun.fail (Nat.le_of_eq he) (fun g hg ht => ⟨e, ?_⟩) hw hr now hx
    rw [hf.2.2 g hg ht]
    exact ho
  obtain ⟨_, _, _, hs, hm, _⟩ := update_ok hw hr now x
  refine ⟨⟨fun r' hr' => ?_, fun r' hr' => ?_, fun r' hr' hc => ⟨f, hf, ?_⟩, fun r' hr' hc => ?_,
    .inr (.inl ?_), Nat.le_of_eq he, { hrun.mine with }⟩, hrun.owed⟩
  · rcases hs with hs | ⟨hs, _⟩
    · cases hs.symm.trans hr'
      simp [Backend.Update.apply, hx, terminal]
    · cases hs.symm.trans hr'
  · rcases hs with hs | ⟨hs, _⟩
    · cases hs.symm.trans hr'
      simp [hm, Backend.Update.apply]
    · cases hs.symm.trans hr'
  · rcases hs with hs | ⟨hs, _⟩
    · cases hs.symm.trans hr'
      rw [Backend.Update.apply, hp]
      exact ho
    · cases hs.symm.trans hr'
  · rcases hs with hs | ⟨hs, _⟩
    · cases hs.symm.trans hr'
      exact absurd (hx.symm.trans hc) (by decide)
    · cases hs.symm.trans hr'
  · rw [hm, hrun.moves, hx]
    rfl

theorem Waiting.sweep (h : Waiting L t) (hw : L.backend.Wellformed) (hr : L.record t = some r)
    (now : ℕ) {x : Backend.Update} (hx : x.status = .failed) :
    Level.ended.Fact (L.update now t x).2 t := by
  obtain ⟨_, _, _, hs, hm, _⟩ := update_ok hw hr now x
  refine ⟨⟨fun r' hr' => ?_, fun r' hr' => ?_, fun r' hr' hc => ?_,
    fun _ _ _ => h.unlaunched.excepted, .inl ⟨?_, h.executed⟩, h.executed.le.trans (Nat.zero_le _), { h.mine with }⟩, h.owed⟩
  · rcases hs with hs | ⟨hs, _⟩
    · cases hs.symm.trans hr'
      simp [Backend.Update.apply, hx, terminal]
    · cases hs.symm.trans hr'
  · rcases hs with hs | ⟨hs, _⟩
    · cases hs.symm.trans hr'
      simp [hm, Backend.Update.apply]
    · cases hs.symm.trans hr'
  · rcases hs with hs | ⟨hs, _⟩
    · cases hs.symm.trans hr'
      exact absurd (hx.symm.trans hc) (by decide)
    · cases hs.symm.trans hr'
  · rw [hm, h.moves, hx]
    rfl

end

/-! ## Tasks that are not finished -/

section

variable {L : Ledger} {t : TaskId}

/-- The record of `t` is PENDING or RUNNING. -/
def live (L : Ledger) (t : TaskId) : Bool := (L.record t).any fun r => !terminal r.status

theorem live_iff : live L t = true ↔ ∃ r, L.record t = some r ∧ terminal r.status = false := by
  simp [live, Option.any_eq_true]

theorem Waiting.live (h : Waiting L t) : live L t = true := by
  obtain ⟨r, hr, hs⟩ := h.status
  exact live_iff.mpr ⟨r, hr, by rw [hs]; rfl⟩

theorem Running.live (h : Running L t) : SchedulerLedger.live L t = true := by
  obtain ⟨r, hr, hs⟩ := h.status
  exact live_iff.mpr ⟨r, hr, by rw [hs]; rfl⟩

theorem Ended.not_live (h : Ended L t) : ¬SchedulerLedger.live L t = true := fun hl => by
  obtain ⟨r, hr, hn⟩ := live_iff.mp hl
  exact absurd ((h.status r hr).symm.trans hn) (by decide)

end

/-! ## Facts that a step about another task keeps -/

section

variable {ι : Type} {L L' : Ledger} {t : TaskId}

theorem Keeps.record_none (h : Keeps L L' t) (hn : L.record t = none) : L'.record t = none := by
  rcases h.fades with hf | ⟨hf, _⟩
  · exact hf.trans hn
  · exact hf

/-- What is stored now was stored before. -/
theorem Keeps.record_some (h : Keeps L L' t) {r : TaskRecord} (hr : L'.record t = some r) :
    L.record t = some r := by
  rcases h.fades with hf | ⟨hf, _⟩
  · exact hf.symm.trans hr
  · exact absurd (hf.symm.trans hr) (by simp)

theorem Keeps.live (h : Keeps L L' t) {r : TaskRecord} (hr : L.record t = some r)
    (hl : terminal r.status = false) : L'.record t = some r := h.fades.live hr hl

theorem Keeps.inStatus (h : Keeps L L' t) {status : TaskStatus} (hl : terminal status = false)
    (hs : InStatus L t status) : InStatus L' t status := by
  obtain ⟨r, hr, rfl⟩ := hs
  exact ⟨r, h.live hr hl, rfl⟩

theorem Keeps.unlaunched (h : Keeps L L' t) (hu : Unlaunched L t) : Unlaunched L' t :=
  fun f hf ht => hu f (h.launched f hf ht).1 (h.launched f hf ht).2

theorem Keeps.isLaunched (h : Keeps L L' t) {f : FutureId} (hl : Launched L t f) :
    Launched L' t f :=
  ⟨Nat.lt_of_lt_of_le hl.1 h.later, (h.futures f hl.1 hl.2.1).1, fun g hg ht =>
    hl.2.2 g (h.launched g hg ht).1 (h.launched g hg ht).2⟩

theorem Keeps.blank (h : Keeps L L' t) (hb : Blank L t) : Blank L' t where
  record := h.record_none hb.record
  queue := fun hq => hb.queue (h.queued.mp hq)
  foreign := fun hf => hb.foreign (h.foreign.mp hf)
  accepted := fun ha => hb.accepted (h.accepted.mp ha)
  accepts := h.accepts.trans hb.accepts
  moves := h.moves.trans hb.moves
  executed := h.executed.trans hb.executed
  unlaunched := h.unlaunched hb.unlaunched

theorem Keeps.mine (h : Keeps L L' t) (hm : Mine L t) : Mine L' t where
  accepted := by rw [h.accepted, h.foreign, hm.accepted]
  accepts := by simp only [h.accepts, h.foreign, hm.accepts]

theorem Keeps.owed (h : Keeps L L' t) (ho : Owed L t) : Owed L' t := by
  unfold Owed
  rw [h.outstanding, h.foreign]
  exact ho

theorem Keeps.waiting (h : Keeps L L' t) (hw : Waiting L t) : Waiting L' t where
  status := h.inStatus rfl hw.status
  moves := h.moves.trans hw.moves
  executed := h.executed.trans hw.executed
  unlaunched := h.unlaunched hw.unlaunched
  mine := h.mine hw.mine
  owed := h.owed hw.owed

theorem Keeps.running (h : Keeps L L' t) (hr : Running L t) : Running L' t where
  status := h.inStatus rfl hr.status
  moves := h.moves.trans hr.moves
  mine := h.mine hr.mine
  owed := h.owed hr.owed

theorem Keeps.excepted (h : Keeps L L' t) (he : Excepted L t) : Excepted L' t := fun f hf ht => by
  obtain ⟨hf, ht⟩ := h.launched f hf ht
  exact (he f hf ht).imp fun e ho => (h.futures f hf ht).2.2 _ ho

theorem Keeps.ended (h : Keeps L L' t) (he : Ended L t) : Ended L' t where
  status r hr := he.status r (h.record_some hr)
  last r hr := by
    rw [h.moves]
    exact he.last r (h.record_some hr)
  result r hr hc := by
    obtain ⟨f, hf, ho⟩ := he.result r (h.record_some hr) hc
    exact ⟨f, h.isLaunched hf, (h.futures f hf.1 hf.2.1).2.2 _ ho⟩
  failed r hr hs := h.excepted (he.failed r (h.record_some hr) hs)
  final := by
    unfold Final
    rw [h.moves, h.executed]
    exact he.final
  executed := h.executed.symm ▸ he.executed
  mine := h.mine he.mine

theorem Keeps.stale (h : Keeps L L' t) (hs : Stale L t) : Stale L' t where
  foreign := h.foreign.mpr hs.foreign
  outstanding := fun ho => hs.outstanding (h.outstanding.mp ho)
  status r hr := hs.status r (h.record_some hr)
  executed := h.executed.trans hs.executed
  mine := h.mine hs.mine

theorem Keeps.registered (h : Keeps L L' t) {f : FutureId} (hl : Launched L t f) :
    (L'.futures f).registered = (L.futures f).registered := (h.futures f hl.1 hl.2.1).2.1

theorem Keeps.level (h : Keeps L L' t) {l : Level} (hl : l.Fact L t) : l.Fact L' t := by
  have out := not_congr h.outstanding
  cases l with
  | fresh => exact hl.imp h.blank out.mpr
  | slotted => exact hl.imp h.blank out.mpr
  | unslotted => exact hl.imp h.blank out.mpr
  | entered => exact hl.imp h.blank h.outstanding.mpr
  | withdrawn => exact hl.imp h.blank h.outstanding.mpr
  | pulled => exact hl.imp h.waiting h.stale
  | checked => exact h.waiting hl
  | started => exact ⟨h.running hl.1, h.executed.trans hl.2.1, h.unlaunched hl.2.2⟩
  | ran f =>
    exact ⟨h.running hl.1, h.executed.trans hl.2.1, h.isLaunched hl.2.2.1,
      (h.registered hl.2.2.1).trans hl.2.2.2⟩
  | awaiting f =>
    exact ⟨h.running hl.1, h.executed.trans hl.2.1, h.isLaunched hl.2.2.1,
      (h.registered hl.2.2.1).trans hl.2.2.2⟩
  | failing => exact ⟨h.running hl.1, h.executed.symm ▸ hl.2.1, h.unlaunched hl.2.2⟩
  | completing o =>
    obtain ⟨hr, he, f, hf, ho⟩ := hl
    exact ⟨h.running hr, h.executed.trans he, f, h.isLaunched hf,
      (h.futures f hf.1 hf.2.1).2.2 o ho⟩
  | handling =>
    exact hl.imp (And.imp (And.imp (h.executed.symm ▸ ·) h.unlaunched) h.running)
      (And.imp h.ended h.owed)
  | ended => exact hl.imp h.ended h.owed
  | repaying => exact ⟨h.ended hl.1, out.mpr hl.2.1, fun hf => hl.2.2 (h.foreign.mp hf)⟩
  | closing => exact hl.imp h.ended out.mpr

theorem Keeps.stage (h : Keeps L L' t) {g : Stage ι} (hg : g.Fact L t) : g.Fact L' t := by
  have out := not_congr h.outstanding
  cases g with
  | absent => exact hg.imp h.blank out.mpr
  | queued => exact hg.imp h.queued.mpr (Or.imp h.waiting h.stale)
  | held a l => exact h.level hg
  | spent => exact hg.imp out.mpr (Or.imp h.ended
      (And.imp h.foreign.mpr (And.imp h.executed.trans h.mine)))

end

end SchedulerLedger
