import Infly.Reports

/-! # Metrics against the backend

What the instrumentation has counted, against the tasks that the scheduler has accepted and
ended. Two things get lost on the way: the tasks that are failed without a report, and the ends
that find the gauge at zero.
-/
namespace Metrics

open Contracts TaskBackend Observability SchedulerState SchedulerModel SchedulerLocks
  SchedulerLedger SchedulerStages SchedulerAccounts SchedulerRequests TaskLife Reports Transitions

inductive Tally where
  | submitted | completed | failed
  deriving DecidableEq

def tallied : Report → Option Tally
  | .submitted _ => some .submitted
  | .started _ _ => none
  | .ended _ m _ => some (if m.update.status = .completed then .completed else .failed)

def total (m : RuntimeInstrumentation) : Tally → ℕ
  | .submitted => m.submittedTotal
  | .completed => m.completedTotal
  | .failed => m.failedTotal

/-- The tasks, pending at first, that the scheduler has given a status as the last one. -/
def concluded (L : Ledger) (status : TaskStatus) : Finset TaskId :=
  (L.accepted ∪ L.foreign).filter fun t =>
    (L.moves t).head? = some .pending ∧ (L.moves t).getLast? = some status

def reached (L : Ledger) : Tally → Finset TaskId
  | .submitted => L.accepted
  | .completed => concluded L .completed
  | .failed => concluded L .failed

/-- The tasks that the scheduler has ended without having accepted them. -/
def adopted (L : Ledger) : Finset TaskId :=
  (concluded L .completed ∪ concluded L .failed) ∩ L.foreign

variable {ι : Type}

structure Agrees (s : Shared ι) : Prop where
  inflight : s.instrumentation.inflightTasks = 0
  totals : ∀ κ, total s.instrumentation κ = (reached s.ledger κ).card

def recording : Pc → Option Report
  | .reporting k => some k
  | _ => none

/-- A step that fails a task without a report. -/
def unreported (s : State ι) : Event ι → ℕ
  | .step a .go =>
    match s.pc a with
    | .sweeping _ _ _ => 1
    | _ => 0
  | _ => 0

/-- A step that records an end while the gauge is at zero. -/
def clamped (s : State ι) : Event ι → ℕ
  | .step a .go =>
    match s.pc a with
    | .reporting (.ended _ _ _) => if s.shared.instrumentation.inflightTasks = 0 then 1 else 0
    | _ => 0
  | _ => 0

/-- A run of fresh requests, with the number of its unreported ends and of its clamped ones. -/
inductive Metered [DecidableEq ι] : State ι → ℕ → ℕ → Prop where
  | init {s : State ι} (hs : Init s) : Metered s 0 0
  | step {s s' : State ι} {m n : ℕ} {e : Event ι} (run : Metered s m n) (fresh : Fresh s e)
    (hs : Step s e s') : Metered s' (m + unreported s e) (n + clamped s e)

/-- A thread has to record a report of a task. -/
def Recording (s : State ι) (κ : Tally) (t : TaskId) : Prop :=
  ∃ a k, recording (s.pc a) = some k ∧ tallied k = some κ ∧ reportTask k = t

/-- What is counted, what is still to be counted and what is lost make up what was reached. -/
structure Counts (s : State ι) (m n : ℕ) : Prop where
  totals : ∀ κ, ∃ R ⊆ reached s.shared.ledger κ, (∀ t, t ∈ R ↔ Recording s κ t) ∧
    total s.shared.instrumentation κ + R.card + (if κ = .failed then m else 0) =
      (reached s.shared.ledger κ).card
  gauge : s.shared.instrumentation.inflightTasks + s.shared.instrumentation.completedTotal +
    s.shared.instrumentation.failedTotal = s.shared.instrumentation.submittedTotal + n

section

variable [DecidableEq ι] {s s' : State ι} {stage : TaskId → Stage ι} {a b : Thread ι}
  {p : Pc} {k : Report} {sh : Shared ι} {x : Shared ι × Pc} {c : Choice} {e : Event ι}
  {t : TaskId} {m n : ℕ} {κ : Tally} {L L' : Ledger}

omit [DecidableEq ι] in
theorem told_recording (h : told p = none) : recording p = none := by
  cases p <;> first
    | rfl
    | cases h

omit [DecidableEq ι] in
theorem recording_told (h : recording p = some k) : told p = some k := by
  cases p <;> first
    | exact h
    | cases h

theorem recording_goto : Recording (s.goto a x) κ t ↔
    (∃ k, recording x.2 = some k ∧ tallied k = some κ ∧ reportTask k = t) ∨
      ∃ b k, b ≠ a ∧ recording (s.pc b) = some k ∧ tallied k = some κ ∧ reportTask k = t := by
  constructor
  · rintro ⟨b, k, hk, rest⟩
    by_cases hb : b = a
    · subst hb
      rw [goto_pc] at hk
      exact .inl ⟨k, hk, rest⟩
    · rw [goto_pc_of_ne s hb] at hk
      exact .inr ⟨b, k, hb, hk, rest⟩
  · rintro (⟨k, hk, rest⟩ | ⟨b, k, hb, hk, rest⟩)
    · exact ⟨a, k, by rwa [goto_pc], rest⟩
    · exact ⟨b, k, by rwa [goto_pc_of_ne s hb], rest⟩

theorem recording_none (hp : recording (s.pc a) = none) (hx : recording x.2 = none) :
    Recording (s.goto a x) κ t ↔ Recording s κ t := by
  rw [recording_goto, hx]
  constructor
  · rintro (⟨_, hk, _⟩ | ⟨b, k, _, hk⟩)
    · cases hk
    · exact ⟨b, k, hk⟩
  · rintro ⟨b, k, hk, rest⟩
    refine .inr ⟨b, k, ?_, hk, rest⟩
    rintro rfl
    cases hp.symm.trans hk

theorem recording_new (hp : recording (s.pc a) = none) (hx : recording x.2 = some k) :
    Recording (s.goto a x) κ t ↔ Recording s κ t ∨ tallied k = some κ ∧ reportTask k = t := by
  rw [recording_goto, hx]
  constructor
  · rintro (⟨k', hk, rest⟩ | ⟨b, k', _, hk⟩)
    · cases hk
      exact .inr rest
    · exact .inl ⟨b, k', hk⟩
  · rintro (⟨b, k', hk, rest⟩ | rest)
    · refine .inr ⟨b, k', ?_, hk, rest⟩
      rintro rfl
      cases hp.symm.trans hk
    · exact .inl ⟨k, rfl, rest⟩

/-- Nothing is reached and nothing recorded. -/
theorem Counts.same (h : Counts s m n) (hp : recording (s.pc a) = none)
    (hx : recording x.2 = none) (hi : x.1.instrumentation = s.shared.instrumentation)
    (hr : ∀ κ, reached x.1.ledger κ = reached s.shared.ledger κ) : Counts (s.goto a x) m n where
  totals κ := by
    obtain ⟨R, hsub, hR, hsum⟩ := h.totals κ
    rw [goto_shared, hi, hr]
    exact ⟨R, hsub, fun t => (hR t).trans (recording_none hp hx).symm, hsum⟩
  gauge := by
    rw [goto_shared, hi]
    exact h.gauge

/-- A task gets on, and that has to be recorded. -/
theorem Counts.grow (h : Counts s m n) (hp : recording (s.pc a) = none) (hx : x.2 = .reporting k)
    (hi : x.1.instrumentation = s.shared.instrumentation)
    (hr : ∀ κ, tallied k ≠ some κ → reached x.1.ledger κ = reached s.shared.ledger κ)
    (hn : ∀ κ, tallied k = some κ → reportTask k ∉ reached s.shared.ledger κ ∧
      reached x.1.ledger κ = insert (reportTask k) (reached s.shared.ledger κ)) :
    Counts (s.goto a x) m n where
  totals κ := by
    have hnew {t : TaskId} := recording_new (κ := κ) (t := t) hp (k := k) (x := x)
      (by rw [hx]; rfl)
    obtain ⟨R, hsub, hR, hsum⟩ := h.totals κ
    rw [goto_shared, hi]
    by_cases hk : tallied k = some κ
    · obtain ⟨hout, hins⟩ := hn κ hk
      rw [hins]
      refine ⟨insert (reportTask k) R, Finset.insert_subset_insert _ hsub, fun t => ?_, ?_⟩
      · rw [hnew, Finset.mem_insert, hR]
        simp [hk, or_comm, eq_comm]
      · rw [Finset.card_insert_of_notMem fun hmem => hout (hsub hmem),
          Finset.card_insert_of_notMem hout]
        omega
    · rw [hr κ hk]
      refine ⟨R, hsub, fun t => ?_, hsum⟩
      rw [hR, hnew]
      simp [hk]
  gauge := by
    rw [goto_shared, hi]
    exact h.gauge

/-- A task is failed without a report. -/
theorem Counts.lose (h : Counts s m n) (hp : recording (s.pc a) = none)
    (hx : recording x.2 = none) (hi : x.1.instrumentation = s.shared.instrumentation)
    (hr : ∀ κ, κ ≠ .failed → reached x.1.ledger κ = reached s.shared.ledger κ)
    (ht : t ∉ concluded s.shared.ledger .failed)
    (hn : concluded x.1.ledger .failed = insert t (concluded s.shared.ledger .failed)) :
    Counts (s.goto a x) (m + 1) n where
  totals κ := by
    obtain ⟨R, hsub, hR, hsum⟩ := h.totals κ
    have hR' : ∀ t, t ∈ R ↔ Recording (s.goto a x) κ t :=
      fun t => (hR t).trans (recording_none hp hx).symm
    rw [goto_shared, hi]
    by_cases hk : κ = .failed
    · subst hk
      change R ⊆ concluded s.shared.ledger .failed at hsub
      change _ = (concluded s.shared.ledger .failed).card at hsum
      refine ⟨R, ?_, hR', ?_⟩
      · exact (hsub.trans (Finset.subset_insert t _)).trans hn.superset
      · change _ = (concluded x.1.ledger .failed).card
        rw [hn, Finset.card_insert_of_notMem ht]
        simp only [if_true] at hsum ⊢
        omega
    · rw [hr κ hk]
      refine ⟨R, hsub, hR', ?_⟩
      simpa [hk] using hsum
  gauge := by
    rw [goto_shared, hi]
    exact h.gauge

omit [DecidableEq ι] in
theorem tallied_submitted (h : tallied k = some κ) : isSubmitted k = decide (κ = .submitted) := by
  cases k with
  | submitted job =>
    cases h
    rfl
  | started t request => cases h
  | ended t m request =>
    cases h
    split <;> rfl

omit [DecidableEq ι] in
theorem report_total (sh : Shared ι) (k : Report) (κ : Tally) :
    total (report sh k).2 κ =
      total sh.instrumentation κ + if tallied k = some κ then 1 else 0 := by
  cases k with
  | submitted job => cases κ <;> rfl
  | started t request => cases κ <;> rfl
  | ended t m request =>
    simp only [report, tallied]
    split <;> simp only [RuntimeInstrumentation.recordCompleted,
      RuntimeInstrumentation.recordFailed, RuntimeInstrumentation.finish] <;>
      split <;> cases κ <;> simp [total, *]

omit [DecidableEq ι] in
/-- The end of a task takes one off the gauge unless that is at zero. -/
theorem report_ended (sh : Shared ι) (t : TaskId) (m : Ender) (request : TaskRequest) :
    (report sh (.ended t m request)).2.inflightTasks = sh.instrumentation.inflightTasks - 1 ∧
    (report sh (.ended t m request)).2.submittedTotal = sh.instrumentation.submittedTotal ∧
    (report sh (.ended t m request)).2.completedTotal +
        (report sh (.ended t m request)).2.failedTotal =
      sh.instrumentation.completedTotal + sh.instrumentation.failedTotal + 1 := by
  simp only [report]
  split <;> simp only [RuntimeInstrumentation.recordCompleted,
    RuntimeInstrumentation.recordFailed, RuntimeInstrumentation.finish] <;>
    split <;> refine ⟨rfl, rfl, ?_⟩ <;> simp <;> omega

/-- A report is recorded. -/
theorem Counts.record (hex : Exclusive s) (hst : Staged s stage) (h : Counts s m n)
    (hp : s.pc a = .reporting k) (hx : recording x.2 = none)
    (hs : x.1 = { s.shared with instrumentation := (report s.shared k).2 }) :
    Counts (s.goto a x) m (n + clamped s (.step a .go)) where
  totals κ := by
    have own : recording (s.pc a) = some k := by rw [hp]; rfl
    obtain ⟨R, hsub, hR, hsum⟩ := h.totals κ
    rw [goto_shared, hs]
    by_cases hk : tallied k = some κ
    · have hmem : reportTask k ∈ R := (hR _).mpr ⟨a, k, own, hk, rfl⟩
      refine ⟨R.erase (reportTask k), (Finset.erase_subset ..).trans hsub, fun t => ?_, ?_⟩
      · rw [recording_goto, hx, Finset.mem_erase, hR]
        constructor
        · rintro ⟨hne, b, k', hb, hk', ht⟩
          refine .inr ⟨b, k', ?_, hb, hk', ht⟩
          rintro rfl
          cases hb.symm.trans own
          exact hne ht.symm
        · rintro (⟨_, hb, _⟩ | ⟨b, k', hba, hb, hk', ht⟩)
          · cases hb
          · refine ⟨?_, b, k', hb, hk', ht⟩
            rintro rfl
            exact hba (told_unique hex hst (recording_told hb) (recording_told own) ht
              ((tallied_submitted hk').trans (tallied_submitted hk).symm))
      · have := Finset.card_erase_add_one hmem
        rw [report_total, if_pos hk]
        dsimp only
        omega
    · refine ⟨R, hsub, fun t => ?_, ?_⟩
      · rw [recording_goto, hx, hR]
        constructor
        · rintro ⟨b, k', hb, hk', ht⟩
          refine .inr ⟨b, k', ?_, hb, hk', ht⟩
          rintro rfl
          cases hb.symm.trans own
          exact hk hk'
        · rintro (⟨_, hb, _⟩ | ⟨b, k', _, hb⟩)
          · cases hb
          · exact ⟨b, k', hb⟩
      · rw [report_total, if_neg hk]
        exact hsum
  gauge := by
    have hg := h.gauge
    rw [goto_shared, hs]
    cases k with
    | submitted job =>
      simp only [report, RuntimeInstrumentation.recordSubmitted, clamped, hp]
      omega
    | started t request =>
      simp only [report, RuntimeInstrumentation.recordStarted, clamped, hp]
      omega
    | ended t m request =>
      obtain ⟨hi, hsub, hsum⟩ := report_ended s.shared t m request
      simp only [clamped, hp]
      split <;> omega

/-! ## What a step reaches -/

omit [DecidableEq ι] in
theorem mem_concluded {status : TaskStatus} : t ∈ concluded L status ↔
    (t ∈ L.accepted ∨ t ∈ L.foreign) ∧ (L.moves t).head? = some .pending ∧
      (L.moves t).getLast? = some status := by
  simp [concluded]

omit [DecidableEq ι] in
theorem unmoved_reached (h : Unmoved L L') (κ : Tally) : reached L' κ = reached L κ := by
  cases κ <;> simp only [reached, concluded, h.accepted, h.foreign, h.moves]

omit [DecidableEq ι] in
theorem update_concluded (status : TaskStatus) {r : TaskRecord} (hr : L.record t = some r)
    (hk : t ∈ L.accepted ∨ t ∈ L.foreign) (hh : (L.moves t).head? = some .pending)
    (hl : (L.moves t).getLast? ≠ some status) (now : ℕ) (y : Backend.Update) :
    t ∉ concluded L status ∧ concluded (L.update now t y).2 status =
      if y.status = status then insert t (concluded L status) else concluded L status := by
  have hout : t ∉ concluded L status := fun h => hl (mem_concluded.mp h).2.2
  refine ⟨hout, Finset.ext fun u => ?_⟩
  have hm := update_moves hr now y
  have hacc : (L.update now t y).2.accepted = L.accepted := rfl
  have hfor : (L.update now t y).2.foreign = L.foreign := rfl
  rw [mem_concluded, hm, hacc, hfor]
  by_cases hu : u = t
  · subst hu
    rw [Function.update_self, List.getLast?_concat]
    have hhead : (L.moves u ++ [y.status]).head? = some .pending := by
      cases hmo : L.moves u with
      | nil =>
        rw [hmo] at hh
        cases hh
      | cons q qs => rwa [hmo] at hh
    by_cases hy : y.status = status
    · rw [if_pos hy]
      exact ⟨fun _ => Finset.mem_insert_self .., fun _ => ⟨hk, hhead, congrArg some hy⟩⟩
    · rw [if_neg hy]
      exact ⟨fun h => absurd (Option.some.inj h.2.2) hy, fun h => absurd h hout⟩
  · rw [Function.update_of_ne hu, ← mem_concluded]
    split <;> simp [hu]

omit [DecidableEq ι] in
theorem mine_known (h : Mine L t) : t ∈ L.accepted ∨ t ∈ L.foreign := by
  by_cases hf : t ∈ L.foreign
  · exact .inr hf
  · exact .inl (h.accepted.mpr hf)

omit [DecidableEq ι] in
theorem storing_reached {job : Job} (hb : Blank L job.task) :
    job.task ∉ L.accepted ∧
    (L.store job.request job.priority).2.accepted = insert job.task L.accepted ∧
    ∀ κ, κ ≠ .submitted →
      reached (L.store job.request job.priority).2 κ = reached L κ := by
  obtain ⟨_, _, _, ⟨hacc, _, hm⟩, hkeep⟩ := store_ok job.request hb.record job.priority
  refine ⟨hb.accepted, hacc, ?_⟩
  have hcon (status : TaskStatus) (hne : TaskStatus.pending ≠ status) :
      concluded (L.store job.request job.priority).2 status = concluded L status := by
    refine Finset.ext fun u => ?_
    rw [mem_concluded, mem_concluded]
    by_cases hu : u = job.request.taskId
    · subst hu
      have hnm : L.moves job.request.taskId = [] := hb.moves
      simp [hm, hnm, hne]
    · have hk := hkeep u hu
      rw [hk.moves, hk.foreign, hk.accepted]
  intro κ hκ
  cases κ with
  | submitted => exact absurd rfl hκ
  | completed => exact hcon .completed (by decide)
  | failed => exact hcon .failed (by decide)

/-- A thread that neither records a report nor fails a task without one. -/
def quiet : Pc → Bool
  | .reporting _ | .sweeping _ _ _ => false
  | _ => true

omit [DecidableEq ι] in
theorem quiet_counts (hp : quiet (s.pc a) = true) (c : Choice) :
    unreported s (.step a c) = 0 ∧ clamped s (.step a c) = 0 := by
  cases c with
  | go =>
    cases hpc : s.pc a <;> rw [hpc] at hp <;> first
      | exact absurd hp Bool.false_ne_true
      | simp [unreported, clamped, hpc]
  | _ => exact ⟨rfl, rfl⟩

theorem counts_turn (hex : Exclusive s) (hst : Staged s stage) (h : Counts s m n)
    (hx : act s.shared a (s.pc a) c = some x) :
    Counts (s.goto a x) (m + unreported s (.step a c)) (n + clamped s (.step a c)) := by
  have found : ∀ u, updates (s.pc a) = some u → ∃ r, s.shared.ledger.record u = some r :=
    fun u hu => (updates_found hst hu).imp fun _ hr => hr.1
  have none (hp : quiet (s.pc a) = true) (hc : Counts (s.goto a x) m n) :
      Counts (s.goto a x) (m + unreported s (.step a c)) (n + clamped s (.step a c)) := by
    have hu : unreported s (.step a c) = 0 ∧ clamped s (.step a c) = 0 := quiet_counts hp c
    rwa [hu.1, hu.2]
  cases turn_course hx found hst.wellformed (hst.fetched a) with
  | records k hp hx2 hs =>
    have hgo : c = .go := by
      cases c with
      | go => rfl
      | _ => rw [hp] at hx; cases hx
    subst hgo
    have hu : unreported s (.step a .go) = 0 := by simp only [unreported, hp]
    rw [hu]
    exact h.record hex hst hp (by rw [hx2]; rfl) hs
  | tells k event hp hc hx2 hs =>
    refine none (by rw [hp]; rfl) ?_
    exact h.same (by rw [hp]; rfl) (told_recording hx2) (by rw [hs]) fun κ => by rw [hs]
  | loses k event hp hc hx2 hs =>
    refine none (by rw [hp]; rfl) ?_
    exact h.same (by rw [hp]; rfl) (told_recording hx2) (by rw [hs]) fun κ => by rw [hs]
  | stores job hp hx2 hs =>
    obtain ⟨hout, hacc, hrest⟩ := storing_reached (storing_moves hst hp)
    refine none (by rw [hp]; rfl) (h.grow (k := .submitted job) (by rw [hp]; rfl) hx2 (by rw [hs])
      (fun κ hκ => ?_) fun κ hκ => ?_)
    · rw [hs]
      exact hrest κ fun he => hκ (he ▸ rfl)
    · cases hκ
      rw [hs]
      exact ⟨hout, hacc⟩
  | starts t request hp hx2 hs =>
    have hw := running_moves hst hp
    obtain ⟨r, hr⟩ := found t (by rw [hp]; rfl)
    have hcon (status : TaskStatus) (hn : terminal status = true) :
        concluded x.1.ledger status = concluded s.shared.ledger status := by
      rw [hs]
      refine (update_concluded _ hr (mine_known hw.mine) (by rw [hw.moves]; rfl) ?_ _ _).2.trans
        (if_neg ?_)
      · rw [hw.moves]
        rintro ⟨⟩
        cases hn
      · rintro rfl
        cases hn
    refine none (by rw [hp]; rfl) (h.grow (k := .started t request) (by rw [hp]; rfl) hx2
      (by rw [hs]) (fun κ _ => ?_) nofun)
    cases κ with
    | submitted => rw [hs]; rfl
    | completed => exact hcon .completed rfl
    | failed => exact hcon .failed rfl
  | ends t m request hp hx2 hs =>
    have hw := updating_moves hst hp
    obtain ⟨r, hr⟩ := found t (by rw [hp]; rfl)
    have hcon (status : TaskStatus) (hn : terminal status = true) :=
      update_concluded status hr (mine_known hw.mine) (by rw [hw.moves]; rfl)
        (by rw [hw.moves]; rintro ⟨⟩; cases hn) s.shared.clock m.update
    refine none (by rw [hp]; rfl) (h.grow (k := .ended t m request) (by rw [hp]; rfl) hx2
      (by rw [hs]) (fun κ hκ => ?_) fun κ hκ => ?_)
    · rw [hs]
      cases κ with
      | submitted => rfl
      | completed =>
        refine (hcon .completed rfl).2.trans (if_neg fun he => hκ ?_)
        simp [tallied, he]
      | failed =>
        refine (hcon .failed rfl).2.trans (if_neg fun he => hκ ?_)
        simp [tallied, he]
    · rw [hs]
      rcases ender_status m with hm | hm
      · simp only [tallied, hm, if_true, Option.some.injEq] at hκ
        subst hκ
        exact ⟨(hcon .completed rfl).1, (hcon .completed rfl).2.trans (if_pos hm)⟩
      · simp only [tallied, hm, reduceCtorEq, if_false, Option.some.injEq] at hκ
        subst hκ
        exact ⟨(hcon .failed rfl).1, (hcon .failed rfl).2.trans (if_pos hm)⟩
  | sweeps t done rest hp hc hx2 hs =>
    have hw := (sweeping_moves hst hp).1
    obtain ⟨r, hr⟩ := found t (by rw [hp]; rfl)
    have hcon (status : TaskStatus) (hn : terminal status = true) :=
      update_concluded status hr (mine_known hw.mine) (by rw [hw.moves]; rfl)
        (by rw [hw.moves]; rintro ⟨⟩; cases hn) s.shared.clock stoppedBeforeStart
    subst hc
    have hu : unreported s (.step a .go) = 1 ∧ clamped s (.step a .go) = 0 := by
      simp [unreported, clamped, hp]
    rw [hu.1, hu.2]
    refine h.lose (t := t) (by rw [hp]; rfl) (told_recording hx2) (by rw [hs]) (fun κ hκ => ?_)
      (hcon .failed rfl).1 ?_
    · rw [hs]
      cases κ with
      | submitted => rfl
      | completed => exact (hcon .completed rfl).2.trans (if_neg (by decide))
      | failed => exact absurd rfl hκ
    · rw [hs]
      exact (hcon .failed rfl).2.trans (if_pos rfl)
  | passes hp hx2 hn hL ht hi =>
    refine none ?_ (h.same (told_recording hp) (told_recording hx2) hi (unmoved_reached hL))
    cases hpc : s.pc a with
    | reporting k => rw [hpc] at hp; cases hp
    | sweeping t done rest => exact absurd hpc (hn t done rest)
    | _ => rfl

theorem Metered.fresh (run : Metered s m n) : ((system ι).restrict Fresh).Reachable s := by
  induction run with
  | init hs => exact System.reachable_init (S := (system ι).restrict Fresh) hs
  | step run fresh hs ih => exact ih.next ⟨fresh, hs⟩

omit [DecidableEq ι] in
theorem Counts.still (h : Counts s m n) (hp : s'.pc = s.pc)
    (hi : s'.shared.instrumentation = s.shared.instrumentation)
    (hL : Unmoved s.shared.ledger s'.shared.ledger) : Counts s' m n where
  totals κ := by
    obtain ⟨R, hsub, hR, hsum⟩ := h.totals κ
    rw [hi, unmoved_reached hL]
    refine ⟨R, hsub, fun t => (hR t).trans ?_, hsum⟩
    simp only [Recording, hp]
  gauge := by
    rw [hi]
    exact h.gauge

theorem Metered.counts (run : Metered s m n) : Counts s m n := by
  induction run with
  | @init s hs =>
    obtain ⟨config, b, _, rfl⟩ := hs
    have idle : ∀ a : Thread ι, recording ((begin config b).pc a) = none := by
      intro a
      cases a <;> rfl
    refine ⟨fun κ => ⟨∅, Finset.empty_subset _, fun t => ⟨fun h => absurd h (Finset.notMem_empty t),
      ?_⟩, ?_⟩, rfl⟩
    · rintro ⟨a, k, hk, _⟩
      cases (idle a).symm.trans hk
    · have hcon (status : TaskStatus) (hn : status ≠ .pending) :
          concluded (Ledger.initial b) status = ∅ := by
        refine Finset.eq_empty_of_forall_notMem fun t ht => ?_
        obtain ⟨_, hh, hl⟩ := mem_concluded.mp ht
        simp only [Ledger.initial] at hh hl
        cases hb : b.get t with
        | none => simp [hb] at hh
        | some r =>
          simp only [hb, Option.toList, List.map_cons, List.map_nil, List.head?_cons,
            List.getLast?_singleton] at hh hl
          exact hn (Option.some.inj (hl.symm.trans hh))
      cases κ with
      | submitted => rfl
      | completed =>
        change 0 + 0 + 0 = (concluded (Ledger.initial b) .completed).card
        rw [hcon .completed (by decide)]
        rfl
      | failed =>
        change 0 + 0 + 0 = (concluded (Ledger.initial b) .failed).card
        rw [hcon .failed (by decide)]
        rfl
  | @step u v m n e run fresh hs ih =>
    have hsingle := fresh_single run.fresh
    obtain ⟨stage, hst⟩ := (reachable_accounts hsingle).staged
    rcases step_cases hs with ⟨i, k, rfl, hrest, rfl⟩ | ⟨a, c, x, rfl, _, hx, rfl⟩ |
      ⟨f, o, rfl, _, _, rfl⟩ | ⟨w, rfl, _, rfl⟩ | ⟨d, rfl, rfl⟩
    · have enter : told (k.enter u.shared).2 = none := by
        cases k with
        | stop timeout =>
          simp only [Call.enter]
          split <;> rfl
        | _ => rfl
      exact ih.same (told_recording (resting_told hrest)) (told_recording enter)
        (by cases k <;> rfl) fun κ => unmoved_reached (by cases k <;> exact ⟨rfl, rfl, rfl⟩) κ
    · exact counts_turn (single_exclusive hsingle) hst ih hx
    · exact ih.still rfl rfl ⟨rfl, rfl, rfl⟩
    · exact ih.still rfl rfl (.refl _)
    · exact ih.still rfl rfl (.refl _)

/-! ## When nothing is outstanding -/

omit [DecidableEq ι] in
/-- Every accepted task is then completed or failed. -/
theorem settled_concluded (h : Staged s stage) (ho : s.shared.ledger.outstanding = ∅) :
    concluded s.shared.ledger .completed ∪ concluded s.shared.ledger .failed =
      s.shared.ledger.accepted ∪ adopted s.shared.ledger := by
  have ended {t : TaskId} (ha : t ∈ s.shared.ledger.accepted) :
      t ∈ concluded s.shared.ledger .completed ∪ concluded s.shared.ledger .failed := by
    have owed (h' : Owed s.shared.ledger t) : False := by
      have := h'.mpr ((h.fact t).accepted ha)
      rw [ho] at this
      exact absurd this (Finset.notMem_empty t)
    rcases (h.fact t).phase ha with hw | ⟨hw, _⟩ | he
    · exact (owed hw.owed).elim
    · exact (owed hw.owed).elim
    · rw [Finset.mem_union, mem_concluded, mem_concluded]
      rcases he.final with ⟨hm, _⟩ | hm | hm <;> simp [hm, ha]
  refine Finset.ext fun t => ⟨fun ht => ?_, fun ht => ?_⟩
  · rcases Finset.mem_union.mp ht with hc | hc
    all_goals
      refine (mem_concluded.mp hc).1.elim (fun ha => Finset.mem_union_left _ ha) fun hf => ?_
      exact Finset.mem_union_right _ (Finset.mem_inter.mpr ⟨ht, hf⟩)
  · exact (Finset.mem_union.mp ht).elim ended fun hd => (Finset.mem_inter.mp hd).1

omit [DecidableEq ι] in
theorem settled_cards (h : Staged s stage) (ho : s.shared.ledger.outstanding = ∅) :
    (concluded s.shared.ledger .completed).card + (concluded s.shared.ledger .failed).card =
      s.shared.ledger.accepted.card + (adopted s.shared.ledger).card := by
  rw [← Finset.card_union_of_disjoint, settled_concluded h ho, Finset.card_union_of_disjoint]
  · refine Finset.disjoint_left.mpr fun t ha hd => ?_
    exact (h.fact t).accepted ha (Finset.mem_inter.mp hd).2
  · refine Finset.disjoint_left.mpr fun t hc hf => ?_
    have hc := (mem_concluded.mp hc).2.2
    have hf := (mem_concluded.mp hf).2.2
    cases hc.symm.trans hf

/-- When no task is outstanding and no thread is about to record something, the metrics agree
with the backend exactly if no task was failed without a report, and the ends that met the gauge
at zero were as many as the tasks that the scheduler ended without having accepted them. -/
theorem metrics_agree (run : Metered s m n) (ho : s.shared.ledger.outstanding = ∅)
    (hq : ∀ a k, s.pc a ≠ .reporting k) :
    Agrees s.shared ↔ m = 0 ∧ n = (adopted s.shared.ledger).card := by
  obtain ⟨stage, hst⟩ := (reachable_accounts (fresh_single run.fresh)).staged
  have hcards := settled_cards hst ho
  obtain ⟨totals, gauge⟩ := run.counts
  have recorded (κ : Tally) : total s.shared.instrumentation κ + (if κ = .failed then m else 0) =
      (reached s.shared.ledger κ).card := by
    obtain ⟨R, _, hR, hsum⟩ := totals κ
    have hempty : R = ∅ := Finset.eq_empty_of_forall_notMem fun t ht => by
      obtain ⟨a, k, hk, _⟩ := (hR t).mp ht
      cases hpc : s.pc a with
      | reporting k => exact hq a k hpc
      | _ => rw [hpc] at hk; cases hk
    rw [hempty, Finset.card_empty] at hsum
    exact hsum
  have hs := recorded .submitted
  have hc := recorded .completed
  have hf := recorded .failed
  simp only [total, reached, reduceCtorEq, if_false, if_true, Nat.add_zero] at hs hc hf
  constructor
  · rintro ⟨hi, htot⟩
    have := htot .failed
    simp only [total, reached] at this
    omega
  · rintro ⟨rfl, rfl⟩
    refine ⟨by omega, fun κ => ?_⟩
    cases κ with
    | submitted => exact hs
    | completed => exact hc
    | failed => exact hf

/-! ## Runs -/

def meter : List (Event ι) → State ι × ℕ × ℕ → Option (State ι × ℕ × ℕ)
  | [], r => some r
  | e :: es, (s, m, n) =>
    if Fresh s e then
      (next s e).bind fun s' => meter es (s', m + unreported s e, n + clamped s e)
    else none

theorem Metered.meter {es : List (Event ι)} {m' n' : ℕ} (run : Metered s m n)
    (h : Metrics.meter es (s, m, n) = some (s', m', n')) : Metered s' m' n' := by
  induction es generalizing s m n with
  | nil =>
    cases h
    exact run
  | cons e es ih =>
    unfold Metrics.meter at h
    split at h
    · rename_i hf
      obtain ⟨u, hu, hrest⟩ := Option.bind_eq_some_iff.mp h
      exact ih (run.step hf hu) hrest
    · cases h

def actor : Event ι → Option (Thread ι)
  | .call i _ => some (.client i)
  | .step a _ => some a
  | _ => none

theorem next_untouched (h : Step s e s') (hb : actor e ≠ some b) : s'.pc b = s.pc b := by
  rcases step_cases h with ⟨i, k, rfl, _, rfl⟩ | ⟨a, c, x, rfl, _, _, rfl⟩ |
    ⟨f, o, rfl, _, _, rfl⟩ | ⟨w, rfl, _, rfl⟩ | ⟨d, rfl, rfl⟩
  · exact goto_pc_of_ne s (fun h => hb (congrArg some h.symm)) _
  · exact goto_pc_of_ne s (fun h => hb (congrArg some h.symm)) _
  · rfl
  · rfl
  · rfl

theorem meter_untouched {es : List (Event ι)} {r : ℕ × ℕ} {m' n' : ℕ}
    (h : meter es (s, r) = some (s', m', n')) (hb : ∀ e ∈ es, actor e ≠ some b) :
    s'.pc b = s.pc b := by
  induction es generalizing s r with
  | nil =>
    cases h
    rfl
  | cons e es ih =>
    unfold meter at h
    split at h
    · obtain ⟨u, hu, hrest⟩ := Option.bind_eq_some_iff.mp h
      exact (ih hrest fun e he => hb e (List.mem_cons_of_mem _ he)).trans
        (next_untouched hu (hb e (List.mem_cons_self ..)))
    · cases h

end

/-- Not inside a scheduler call, nor with a task in hand. -/
def outside : Pc → Bool
  | .idle | .returned _ | .raised _ | .unstarted | .uncalled | .pullChecking | .pullWaiting
  | .exited => true
  | _ => false

def lone : SchedulerState.Thread Unit → Bool
  | .client () | .worker 0 | .callback 0 => true
  | _ => false

/-- A run of one client, one worker and one callback, to a state in which all are outside. -/
def settle (es : List (Event Unit)) : Option (State Unit × ℕ × ℕ) :=
  meter es (begin { numThreads := 1, threads_pos := Nat.one_pos } { maxRetainedTerminalTasks := 50 }, 0, 0)

theorem settle_spec {l : List (Event Unit)} {P : State Unit × ℕ × ℕ → Prop} [DecidablePred P]
    (hes : ∀ e ∈ l, (actor e).all lone = true)
    (h : (settle l).any (fun r => decide (P r ∧ outside (r.1.pc (.client ())) = true ∧
      outside (r.1.pc (.worker 0)) = true ∧ outside (r.1.pc (.callback 0)) = true)) = true) :
    ∃ s m n, Metered s m n ∧ P (s, m, n) ∧ ∀ a, outside (s.pc a) = true := by
  obtain ⟨⟨s, m, n⟩, hs, hp⟩ := (Option.any_eq_true _ _).mp h
  obtain ⟨hp, hc, hw, hf⟩ := of_decide_eq_true hp
  refine ⟨s, m, n, Metered.meter (.init ⟨_, _, empty_usable 50, rfl⟩) hs, hp, fun a => ?_⟩
  by_cases ha : lone a = true
  · match a, ha with
    | .client (), _ => exact hc
    | .worker 0, _ => exact hw
    | .callback 0, _ => exact hf
  · have := meter_untouched hs (b := a) fun e he hb => by
      have := hes e he
      rw [hb] at this
      exact ha this
    rw [this]
    cases a <;> rfl

theorem outside_records {s : State ι} (h : ∀ a, outside (s.pc a) = true) (a : Thread ι)
    (k : Report) : s.pc a ≠ .reporting k := by
  intro hp
  have := h a
  rw [hp] at this
  cases this

theorem one_task_counted : ∃ s : State Unit, Metered s 0 0 ∧ "t" ∈ concluded s.shared.ledger .completed ∧
    Agrees s.shared := by
  obtain ⟨s, m, n, run, ⟨ht, ho, hf, rfl, rfl⟩, hout⟩ := settle_spec (l := TaskLife.oneTask)
    (P := fun r => "t" ∈ concluded r.1.shared.ledger .completed ∧
      r.1.shared.ledger.outstanding = ∅ ∧ r.1.shared.ledger.foreign = ∅ ∧ r.2.1 = 0 ∧ r.2.2 = 0)
    (by decide) (by decide +kernel)
  refine ⟨s, run, ht, (metrics_agree run ho (outside_records hout)).mpr ⟨rfl, ?_⟩⟩
  rw [adopted, hf, Finset.inter_empty]
  rfl

/-- The scheduler is stopped before its worker pulls the task. -/
def stoppedEarly : List (Event Unit) :=
  firstSubmit () (sampleJob "t") ++ [.call () (.stop 0)] ++ turns (.client ()) 4 ++
    turns (.worker 0) 12 ++ turns (.client ()) 4

/-- The task is over before the submit call records it. -/
def overBeforeRecorded : List (Event Unit) :=
  .call () (.submit (sampleJob "t")) :: turns (.client ()) 9 ++ turns (.worker 0) 9 ++
    [.resolve 0 (.result none)] ++ turns (.callback 0) 9 ++ turns (.client ()) 3

theorem metrics_drift :
    (∃ (s : State Unit) (n : ℕ), Metered s 1 n ∧ s.shared.ledger.outstanding = ∅ ∧
      (∀ a, outside (s.pc a) = true) ∧ ¬Agrees s.shared) ∧
    ∃ (s : State Unit) (m : ℕ), Metered s m 1 ∧ s.shared.ledger.outstanding = ∅ ∧
      (∀ a, outside (s.pc a) = true) ∧ ¬Agrees s.shared := by
  refine ⟨?_, ?_⟩
  · obtain ⟨s, m, n, run, ⟨rfl, ho, hi⟩, hout⟩ := settle_spec (l := stoppedEarly)
      (P := fun r => r.2.1 = 1 ∧ r.1.shared.ledger.outstanding = ∅ ∧
        r.1.shared.instrumentation.inflightTasks = 1) (by decide) (by decide +kernel)
    exact ⟨s, n, run, ho, hout, fun h => absurd (hi.symm.trans h.inflight) (by decide)⟩
  · obtain ⟨s, m, n, run, ⟨rfl, ho, hi⟩, hout⟩ := settle_spec (l := overBeforeRecorded)
      (P := fun r => r.2.2 = 1 ∧ r.1.shared.ledger.outstanding = ∅ ∧
        r.1.shared.instrumentation.inflightTasks = 1) (by decide) (by decide +kernel)
    exact ⟨s, m, run, ho, hout, fun h => absurd (hi.symm.trans h.inflight) (by decide)⟩

end Metrics
