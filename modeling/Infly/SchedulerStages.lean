import Infly.SchedulerDuties

/-! # One owner for each task

A task is unknown, queued, in the hands of one thread, or over, and a step moves only the
task that its thread has in hand.
-/
namespace SchedulerStages

open Contracts TaskBackend SchedulerState SchedulerModel SchedulerLocks SchedulerControl
  SchedulerLedger SchedulerDuties Transitions

/-! ## Ledgers that differ in one task -/

/-- Only `t`, and no future's callback, is touched. -/
structure Touches (L L' : Ledger) (t : TaskId) : Prop where
  keeps : ∀ u, u ≠ t → Keeps L L' u
  wellformed : L'.backend.Wellformed
  foreign : L'.foreign = L.foreign
  later : L.nextFuture ≤ L'.nextFuture
  marks : ∀ f, (L'.futures f).registered = (L.futures f).registered ∧
    ((L.futures f).registered = true → (L'.futures f).task = (L.futures f).task)

/-- No task is touched. -/
structure Spares (L L' : Ledger) : Prop where
  keeps : ∀ u, Keeps L L' u
  wellformed : L'.backend.Wellformed
  queued : L'.backend.queued = L.backend.queued
  foreign : L'.foreign = L.foreign
  later : L.nextFuture ≤ L'.nextFuture
  marks : ∀ f, (L'.futures f).registered = (L.futures f).registered ∧
    ((L.futures f).registered = true → (L'.futures f).task = (L.futures f).task)

variable {L L' : Ledger} {t u : TaskId} {f : FutureId}

theorem Spares.refl (h : L.backend.Wellformed) : Spares L L where
  keeps := Keeps.refl L
  wellformed := h
  queued := rfl
  foreign := rfl
  later := le_rfl
  marks _ := ⟨rfl, fun _ => rfl⟩

theorem Spares.touches (h : Spares L L') (t : TaskId) : Touches L L' t where
  keeps u _ := h.keeps u
  wellformed := h.wellformed
  foreign := h.foreign
  later := h.later
  marks := h.marks

theorem read_spares (h : L.backend.Wellformed) (t : TaskId) (consume : Bool)
    (copying : Copying) : Spares L (L.read t consume copying).2 where
  keeps u := read_keeps L t consume copying u
  wellformed := h.read t consume copying
  queued := by simp [Ledger.read, Backend.queued]
  foreign := rfl
  later := le_rfl
  marks _ := ⟨rfl, fun _ => rfl⟩

theorem resolve_spares (h : L.backend.Wellformed) (hn : (L.futures f).outcome = none)
    (o : Outcome) : Spares L (L.modify f fun x => { x with outcome := some o }) where
  keeps := resolve_keeps hn o
  wellformed := h
  queued := rfl
  foreign := rfl
  later := le_rfl
  marks g := by
    by_cases hg : g = f
    · subst hg
      simp [Ledger.modify]
    · simp [Ledger.modify, hg]

theorem answer_spares (h : L.backend.Wellformed) (n : Notice) : Spares L (answer L n) := by
  cases n with
  | submitted job =>
    exact ⟨fun u => { Keeps.refl L u with }, h, rfl, rfl, le_rfl, fun _ => ⟨rfl, fun _ => rfl⟩⟩
  | _ => exact .refl h

theorem insert_touches (h : L.backend.Wellformed) (t : TaskId) :
    Touches L { L with outstanding := insert t L.outstanding } t where
  keeps _ hu := insert_keeps hu
  wellformed := h
  foreign := rfl
  later := le_rfl
  marks _ := ⟨rfl, fun _ => rfl⟩

theorem erase_touches (h : L.backend.Wellformed) (t : TaskId) :
    Touches L { L with outstanding := L.outstanding.erase t } t where
  keeps _ hu := erase_keeps hu
  wellformed := h
  foreign := rfl
  later := le_rfl
  marks _ := ⟨rfl, fun _ => rfl⟩

theorem pull_touches (h : L.backend.Wellformed) (hp : L.pull.1 = some t) :
    Touches L L.pull.2 t where
  keeps _ hu := pull_keeps hp hu
  wellformed := h.pull
  foreign := rfl
  later := le_rfl
  marks _ := ⟨rfl, fun _ => rfl⟩

theorem call_touches (h : L.backend.Wellformed) (t : TaskId) : Touches L (L.call t) t where
  keeps _ hu := call_keeps hu
  wellformed := h
  foreign := rfl
  later := le_rfl
  marks _ := ⟨rfl, fun _ => rfl⟩

theorem launch_touches (h : L.backend.Wellformed)
    (hn : (L.futures L.nextFuture).registered = false) (t : TaskId) :
    Touches L (L.launch t) t where
  keeps _ hu := launch_keeps hu
  wellformed := h
  foreign := rfl
  later := Nat.le_succ _
  marks g := by
    by_cases hg : g = L.nextFuture
    · subst hg
      simp [Ledger.launch, Ledger.call, hn]
    · simp [Ledger.launch, Ledger.call, hg]

theorem store_touches (h : L.backend.Wellformed) {request : TaskRequest}
    (hn : L.record request.taskId = none) (priority : ℤ) :
    Touches L (L.store request priority).2 request.taskId := by
  refine ⟨(store_ok _ hn priority).2.2.2.2, store_wellformed h request priority, ?_, ?_, ?_⟩
  all_goals
    unfold Ledger.store
    split <;> simp

theorem update_touches (h : L.backend.Wellformed) {r : TaskRecord} (hr : L.record t = some r)
    (now : ℕ) (x : Backend.Update) : Touches L (L.update now t x).2 t where
  keeps := (update_ok h hr now x).2.2.2.2.2
  wellformed := (update_ok h hr now x).2.1
  foreign := rfl
  later := le_rfl
  marks _ := ⟨rfl, fun _ => rfl⟩

/-! ## Stages of a state -/

structure Staged {ι : Type} (s : State ι) (stage : TaskId → Stage ι) : Prop where
  owner : ∀ a t l, duty s.shared.ledger a (s.pc a) = some (t, l) ↔ stage t = .held a l
  fact : ∀ t, (stage t).Fact s.shared.ledger t
  wellformed : s.shared.ledger.backend.Wellformed
  queue : s.shared.ledger.backend.queued.Nodup
  stray : ∀ t ∈ s.shared.ledger.backend.queued, stage t = .queued ∨ Quiet s
  nodup : ∀ a, (todo (s.pc a)).Nodup
  leftover : ∀ a, ∀ u ∈ todo (s.pc a), stage u = .queued ∧ u ∉ s.shared.ledger.foreign
  listed : ∀ a, ∀ u ∈ copied (s.pc a), u ∉ s.shared.ledger.foreign
  fetched : ∀ a, requestFound (s.pc a) = true
  called : ∀ f, s.pc (.callback f) ≠ .uncalled → (s.shared.ledger.futures f).registered = true
  unused : ∀ f, s.shared.ledger.nextFuture ≤ f → (s.shared.ledger.futures f).registered = false


section

variable {ι : Type} [DecidableEq ι] {s : State ι} {stage : TaskId → Stage ι} {a b : Thread ι}
  {x : Shared ι × Pc} {g : Stage ι} {l : Level}

omit [DecidableEq ι] in
/-- What a thread has in hand depends on the ledger through its own future only. -/
theorem duty_marks {p : Pc} (h : ∀ f, a = .callback f →
    (L'.futures f).registered = (L.futures f).registered ∧
    ((L.futures f).registered = true → (L'.futures f).task = (L.futures f).task)) :
    duty L' a p = duty L a p := by
  cases p
  case uncalled =>
    cases a with
    | callback f =>
      simp only [duty, (h f rfl).1]
      split
      · rename_i hr
        rw [(h f rfl).2 hr]
      · rfl
    | _ => rfl
  case notifying n => cases n <;> rfl
  case fetching t m => cases m <;> rfl
  case resolving t c | scheduling _ t c => cases c <;> rfl
  all_goals rfl

omit [DecidableEq ι] in
theorem register_duty {p : Pc} (h : a ≠ .callback f) :
    duty (L.modify f fun x => { x with registered := true }) a p = duty L a p := by
  refine duty_marks fun g hg => ?_
  have hgf : g ≠ f := by
    rintro rfl
    exact h hg
  simp [Ledger.modify, hgf]

omit [DecidableEq ι] in
theorem register_gives (h : (L.futures f).task = t) :
    duty (L.modify f fun x => { x with registered := true }) (.callback f : Thread ι) .uncalled =
      some (t, .awaiting f) := by
  simp [duty, Ledger.modify, h]

/-- What a program counter may come with. -/
structure Ready (L : Ledger) (stage : TaskId → Stage ι) (p : Pc) : Prop where
  nodup : (todo p).Nodup
  leftover : ∀ u ∈ todo p, stage u = .queued ∧ u ∉ L.foreign
  listed : ∀ u ∈ copied p, u ∉ L.foreign
  fetched : requestFound p = true

omit [DecidableEq ι] in
theorem Staged.ready (h : Staged s stage) (b : Thread ι) :
    Ready s.shared.ledger stage (s.pc b) where
  nodup := h.nodup b
  leftover := h.leftover b
  listed := h.listed b
  fetched := h.fetched b

omit [DecidableEq ι] in
theorem Ready.ledger {p : Pc} (h : Ready L stage p) (foreign : L'.foreign = L.foreign) :
    Ready L' stage p where
  nodup := h.nodup
  leftover := foreign ▸ h.leftover
  listed := foreign ▸ h.listed
  fetched := h.fetched

omit [DecidableEq ι] in
/-- A task that is not left to do here may change its stage. -/
theorem Ready.update {p : Pc} (h : Ready L stage p) (gone : t ∉ todo p) :
    Ready L (Function.update stage t g) p where
  nodup := h.nodup
  leftover u hu := by
    have hut : u ≠ t := fun he => gone (he ▸ hu)
    rw [Function.update_of_ne hut]
    exact h.leftover u hu
  listed := h.listed
  fetched := h.fetched

theorem ready_goto (own : Ready L stage x.2)
    (others : ∀ b, b ≠ a → Ready L stage (s.pc b)) (b : Thread ι) :
    Ready L stage ((s.goto a x).pc b) := by
  by_cases hb : b = a
  · subst hb
    rw [goto_pc]
    exact own
  · rw [goto_pc_of_ne s hb]
    exact others b hb

/-- A callback that runs was registered. -/
theorem Staged.called_goto (h : Staged s stage)
    (called : ∀ f, a = .callback f → (s.shared.ledger.futures f).registered = true)
    (hf : (s.goto a x).pc (.callback f) ≠ .uncalled) :
    (s.shared.ledger.futures f).registered = true := by
  by_cases hb : .callback f = a
  · exact called f hb.symm
  · rw [goto_pc_of_ne s hb] at hf
    exact h.called f hf

theorem Staged.move (h : Staged s stage)
    (prior : (∃ l, duty s.shared.ledger a (s.pc a) = some (t, l)) ∨
      duty s.shared.ledger a (s.pc a) = none ∧ ∀ b l, stage t ≠ .held b l)
    (own : duty x.1.ledger a x.2 = g.duty t) (mine : ∀ b l, g = .held b l → b = a)
    (fact : g.Fact x.1.ledger t) (touches : Touches s.shared.ledger x.1.ledger t)
    (queue : x.1.ledger.backend.queued.Nodup)
    (stray : t ∈ x.1.ledger.backend.queued → g = .queued ∨ Quiet (s.goto a x))
    (quiet : Quiet s → Quiet (s.goto a x))
    (others : stage t = .queued → ∀ b, b ≠ a → t ∉ todo (s.pc b))
    (gone : t ∉ todo x.2) (ready : Ready s.shared.ledger stage x.2)
    (called : ∀ f, a = .callback f → (s.shared.ledger.futures f).registered = true) :
    Staged (s.goto a x) (Function.update stage t g) := by
  have only : ∀ u l, duty s.shared.ledger a (s.pc a) = some (u, l) → u = t := by
    intro u l hu
    rcases prior with ⟨m, hm⟩ | ⟨hm, _⟩
    · cases hm.symm.trans hu
      rfl
    · cases hm.symm.trans hu
  have holder : ∀ b l, stage t = .held b l → b = a := by
    intro b l hb
    rcases prior with ⟨m, hm⟩ | ⟨_, hm⟩
    · have := (h.owner a t m).mp hm
      cases this.symm.trans hb
      rfl
    · exact absurd hb (hm b l)
  have fit : ∀ b, Ready x.1.ledger (Function.update stage t g) ((s.goto a x).pc b) :=
    ready_goto ((ready.update gone).ledger touches.foreign) fun b hb =>
      ((h.ready b).update fun ht => others (h.leftover b t ht).1 b hb ht).ledger touches.foreign
  refine ⟨fun b u l => ?_, fun u => ?_, touches.wellformed, queue, fun u hu => ?_,
    fun b => (fit b).nodup, fun b => (fit b).leftover, fun b => (fit b).listed,
    fun b => (fit b).fetched, fun f hf => ?_, fun f hf => ?_⟩
  · by_cases hb : b = a
    · subst hb
      rw [goto_shared, goto_pc, own]
      by_cases hu : u = t
      · subst hu
        rw [Function.update_self]
        cases g with
        | held c m =>
          rw [mine c m rfl]
          simp [Stage.duty]
        | _ => simp [Stage.duty]
      · rw [Function.update_of_ne hu, ← h.owner]
        refine ⟨fun hg => ?_, fun hd => absurd (only u l hd) hu⟩
        cases g with
        | held c m =>
          cases hg
          exact absurd rfl hu
        | _ => cases hg
    · rw [goto_shared, goto_pc_of_ne s hb, duty_marks (fun f _ => touches.marks f), h.owner]
      by_cases hu : u = t
      · subst hu
        rw [Function.update_self]
        exact ⟨fun hd => absurd (holder b l hd) hb, fun hd => absurd (mine b l hd) hb⟩
      · rw [Function.update_of_ne hu]
  · by_cases hu : u = t
    · subst hu
      rw [Function.update_self]
      exact fact
    · rw [Function.update_of_ne hu]
      exact (touches.keeps u hu).stage (h.fact u)
  · by_cases ht : u = t
    · subst ht
      rw [Function.update_self]
      exact stray hu
    · rw [Function.update_of_ne ht]
      exact (h.stray u ((touches.keeps u ht).queued.mp hu)).imp_right quiet
  · rw [goto_shared, (touches.marks f).1]
    exact h.called_goto called hf
  · rw [goto_shared, (touches.marks f).1]
    exact h.unused f (Nat.le_trans touches.later hf)

/-- A step that leaves every task where it is. -/
theorem Staged.calm (h : Staged s stage)
    (own : duty x.1.ledger a x.2 = duty s.shared.ledger a (s.pc a))
    (spares : Spares s.shared.ledger x.1.ledger) (quiet : Quiet s → Quiet (s.goto a x))
    (ready : Ready s.shared.ledger stage x.2)
    (called : ∀ f, a = .callback f → (s.shared.ledger.futures f).registered = true) :
    Staged (s.goto a x) stage := by
  have fit : ∀ b, Ready x.1.ledger stage ((s.goto a x).pc b) :=
    ready_goto (ready.ledger spares.foreign) fun b _ => (h.ready b).ledger spares.foreign
  refine ⟨fun b u l => ?_, fun u => (spares.keeps u).stage (h.fact u), spares.wellformed,
    spares.queued.symm ▸ h.queue, fun u hu => ?_, fun b => (fit b).nodup,
    fun b => (fit b).leftover, fun b => (fit b).listed, fun b => (fit b).fetched,
    fun f hf => ?_, fun f hf => ?_⟩
  · by_cases hb : b = a
    · subst hb
      rw [goto_shared, goto_pc, own, h.owner]
    · rw [goto_shared, goto_pc_of_ne s hb, duty_marks (fun f _ => spares.marks f), h.owner]
  · rw [goto_shared, spares.queued] at hu
    exact (h.stray u hu).imp_right quiet
  · rw [goto_shared, (spares.marks f).1]
    exact h.called_goto called hf
  · rw [goto_shared, (spares.marks f).1]
    exact h.unused f (Nat.le_trans spares.later hf)

omit [DecidableEq ι] in
/-- No thread moves. -/
theorem Staged.still (h : Staged s stage) {t : State ι} (hp : t.pc = s.pc)
    (spares : Spares s.shared.ledger t.shared.ledger) (quiet : Quiet s → Quiet t) :
    Staged t stage := by
  refine ⟨fun b u l => ?_, fun u => (spares.keeps u).stage (h.fact u), spares.wellformed,
    spares.queued.symm ▸ h.queue, fun u hu => ?_, fun b => ?_, fun b => ?_, fun b => ?_,
    fun b => ?_, fun f hf => ?_, fun f hf => ?_⟩
  · rw [hp, duty_marks (fun f _ => spares.marks f), h.owner]
  · rw [spares.queued] at hu
    exact (h.stray u hu).imp_right quiet
  · exact hp ▸ h.nodup b
  · rw [hp, spares.foreign]
    exact h.leftover b
  · rw [hp, spares.foreign]
    exact h.listed b
  · exact hp ▸ h.fetched b
  · rw [(spares.marks f).1]
    exact h.called f (hp ▸ hf)
  · rw [(spares.marks f).1]
    exact h.unused f (Nat.le_trans spares.later hf)

omit [DecidableEq ι] in
theorem Staged.level (h : Staged s stage) (hp : duty s.shared.ledger a (s.pc a) = some (t, l)) :
    l.Fact s.shared.ledger t := by
  have hf := h.fact t
  rw [(h.owner a t l).mp hp] at hf
  exact hf

omit [DecidableEq ι] in
theorem Staged.ready_same (h : Staged s stage) {p : Pc} (hd : todo p = todo (s.pc a))
    (hc : copied p = ∅) (fetched : requestFound p = true) :
    Ready s.shared.ledger stage p where
  nodup := hd ▸ h.nodup a
  leftover u hu := h.leftover a u (hd ▸ hu)
  listed u hu := by
    rw [hc] at hu
    exact absurd hu (Finset.notMem_empty u)
  fetched := fetched

/-- The task in hand goes on, and the queue stays as it is. -/
theorem Staged.proceed (h : Staged s stage)
    (hp : duty s.shared.ledger a (s.pc a) = some (t, l))
    (own : duty x.1.ledger a x.2 = g.duty t) (mine : ∀ b l, g = .held b l → b = a)
    (fact : g.Fact x.1.ledger t) (touches : Touches s.shared.ledger x.1.ledger t)
    (queued : x.1.ledger.backend.queued = s.shared.ledger.backend.queued)
    (quiet : Quiet s → Quiet (s.goto a x)) (hd : todo x.2 = todo (s.pc a))
    (hc : copied x.2 = ∅) (fetched : requestFound x.2 = true)
    (called : ∀ f, a = .callback f → (s.shared.ledger.futures f).registered = true) :
    Staged (s.goto a x) (Function.update stage t g) := by
  have hst : stage t = .held a l := (h.owner a t l).mp hp
  have out : ∀ b, t ∉ todo (s.pc b) := fun b ht => by
    have := (h.leftover b t ht).1
    rw [hst] at this
    cases this
  refine h.move (.inl ⟨l, hp⟩) own mine fact touches (queued ▸ h.queue) (fun ht => ?_) quiet
    (fun _ b _ => out b) (hd ▸ out a) (h.ready_same hd hc fetched) called
  rw [queued] at ht
  rcases h.stray t ht with hq | hq
  · rw [hst] at hq
    cases hq
  · exact .inr (quiet hq)

/-- Only the program counter tells the new stage. -/
theorem Staged.pass (h : Staged s stage)
    (hp : duty s.shared.ledger a (s.pc a) = some (t, l)) (hL : x.1.ledger = s.shared.ledger)
    (own : duty s.shared.ledger a x.2 = g.duty t) (mine : ∀ b l, g = .held b l → b = a)
    (fact : l.Fact s.shared.ledger t → g.Fact s.shared.ledger t)
    (quiet : Quiet s → Quiet (s.goto a x)) (hd : todo x.2 = todo (s.pc a))
    (hc : copied x.2 = ∅) (fetched : requestFound x.2 = true)
    (called : ∀ f, a = .callback f → (s.shared.ledger.futures f).registered = true) :
    Staged (s.goto a x) (Function.update stage t g) :=
  h.proceed hp (hL ▸ own) mine (hL ▸ fact (h.level hp))
    (hL ▸ (Spares.refl h.wellformed).touches t) (hL ▸ rfl) quiet hd hc fetched called

end

end SchedulerStages
