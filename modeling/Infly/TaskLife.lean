import Infly.SchedulerRequests

/-! # The life of a task

The statuses that a task's record is given, how often the strategy is called for it, and
what happens to a record that is terminal.
-/
namespace TaskLife

open Contracts TaskBackend SchedulerState SchedulerModel SchedulerLocks SchedulerLedger
  SchedulerDuties SchedulerStages SchedulerAccounts SchedulerRequests Transitions

/-- The task whose status a step is about to change. -/
def updates : Pc → Option TaskId
  | .running t _ | .updating t _ _ | .sweeping t _ _ => some t
  | _ => none

/-- The task whose record a step is about to write. -/
def writes : Pc → Option TaskId
  | .storing job => some job.task
  | p => updates p

variable {ι : Type} [DecidableEq ι] {s s' : State ι} {stage : TaskId → Stage ι} {a : Thread ι}
  {p : Pc} {c : Choice} {sh : Shared ι} {x : Shared ι × Pc} {e : Event ι} {L : Ledger}
  {t : TaskId}

/-! ## Records -/

theorem store_fades (L : Ledger) {request : TaskRequest} (h : request.taskId ≠ t) (priority : ℤ) :
    L.backend.Fades (L.store request priority).2.backend t := by
  by_cases hn : L.record request.taskId = none
  · exact ((store_ok _ hn priority).2.2.2.2 t (Ne.symm h)).fades
  · have hc : L.backend.records.contains request.taskId = true := by
      cases hr : L.record request.taskId with
      | none => exact absurd hr hn
      | some r => simp [Dict.contains, show L.backend.records.get? request.taskId = some r from hr]
    simp [Ledger.store, Backend.submit, hc, Backend.Fades.refl]

theorem update_fades (hw : L.backend.Wellformed) {u : TaskId} (h : u ≠ t) (now : ℕ)
    (y : Backend.Update) : L.backend.Fades (L.update now u y).2.backend t := by
  cases hr : L.record u with
  | none =>
    have := Backend.updateStatus_missing (b := L.backend) hr now y
    simp only [Ledger.update, this]
    exact .refl ..
  | some r => exact ((update_ok hw hr now y).2.2.2.2.2 t (Ne.symm h)).fades

/-- A step only removes terminal records, apart from the one it writes. -/
theorem turn_fades (hw : sh.ledger.backend.Wellformed) (h : act sh a p c = some x)
    (hp : writes p ≠ some t) : sh.ledger.backend.Fades x.1.ledger.backend t := by
  have hr := Backend.Fades.refl sh.ledger.backend t
  cases p <;> cases c <;> simp only [act, advance, throwing, expire, reduceCtorEq] at h
  case storing.go job =>
    cases h
    exact store_fades _ (fun he => hp (congrArg some he)) _
  case running.go u request =>
    cases h
    exact update_fades hw (fun he => hp (congrArg some he)) _ _
  case updating.go u m request =>
    cases h
    exact update_fades hw (fun he => hp (congrArg some he)) _ _
  case sweeping.go u done rest =>
    cases h
    exact update_fades hw (fun he => hp (congrArg some he)) _ _
  case reading.go q locked =>
    cases h
    exact Backend.read_fades ..
  case pulling.go =>
    cases h
    exact .inl (by simp [Ledger.pull])
  case notifying.go n =>
    cases h
    cases n <;> exact hr
  all_goals repeat' split at h
  all_goals cases h
  all_goals first
    | exact hr
    | exact Backend.read_fades ..

theorem update_wellformed (hw : L.backend.Wellformed) (now : ℕ) (t : TaskId)
    (y : Backend.Update) : (L.update now t y).2.backend.Wellformed := by
  cases hr : L.record t with
  | none =>
    have := Backend.updateStatus_missing (b := L.backend) hr now y
    simp only [Ledger.update, this]
    exact hw
  | some r => exact (update_ok hw hr now y).2.1

theorem turn_wellformed (hw : sh.ledger.backend.Wellformed) (h : act sh a p c = some x) :
    x.1.ledger.backend.Wellformed := by
  cases p <;> cases c <;> simp only [act, advance, throwing, expire, reduceCtorEq] at h
  case storing.go job =>
    cases h
    exact store_wellformed hw ..
  case running.go u request | updating.go u m request | sweeping.go u done rest =>
    cases h
    exact update_wellformed hw ..
  case reading.go q locked =>
    cases h
    exact hw.read ..
  case pulling.go =>
    cases h
    exact hw.pull
  case notifying.go n =>
    cases h
    cases n <;> exact hw
  all_goals repeat' split at h
  all_goals cases h
  all_goals first
    | exact hw
    | exact hw.read ..

theorem reachable_wellformed (h : (system ι).Reachable s) :
    s.shared.ledger.backend.Wellformed := by
  refine System.invariant (S := system ι) (P := fun s => s.shared.ledger.backend.Wellformed) ?_
    (fun u e v hu hs => ?_) h
  · rintro s ⟨config, b, hb, rfl⟩
    exact hb.wellformed
  · rcases step_cases hs with ⟨i, k, rfl, _, rfl⟩ | ⟨a, c, x, rfl, _, hx, rfl⟩ |
      ⟨f, o, rfl, _, _, rfl⟩ | ⟨w, rfl, _, rfl⟩ | ⟨d, rfl, rfl⟩
    · cases k <;> exact hu
    · exact turn_wellformed hu hx
    · exact hu
    · exact hu
    · exact hu

omit [DecidableEq ι] in
/-- Whatever status is to be changed, the record is there and not terminal. -/
theorem updates_found (h : Staged s stage) (hp : updates (s.pc a) = some t) :
    ∃ r, s.shared.ledger.record t = some r ∧ terminal r.status = false := by
  have waiting : Waiting s.shared.ledger t → ∃ r, s.shared.ledger.record t = some r ∧
      terminal r.status = false := by
    rintro ⟨⟨r, hr, hs⟩, _⟩
    exact ⟨r, hr, by rw [hs]; rfl⟩
  have running : Running s.shared.ledger t → ∃ r, s.shared.ledger.record t = some r ∧
      terminal r.status = false := by
    rintro ⟨⟨r, hr, hs⟩, _⟩
    exact ⟨r, hr, by rw [hs]; rfl⟩
  cases hpc : s.pc a <;> rw [hpc] at hp
  case running u request =>
    cases hp
    exact waiting (h.level (a := a) (l := .checked) (by rw [hpc]; rfl))
  case updating u m request =>
    cases hp
    have hl := h.level (a := a) (t := t) (l := enderLevel m) (by rw [hpc]; rfl)
    cases m <;> exact running hl.1
  case sweeping u done rest =>
    cases hp
    obtain ⟨hst, hf⟩ := h.leftover a t (by rw [hpc]; exact List.mem_cons_self ..)
    have hfact := h.fact t
    rw [hst] at hfact
    exact waiting (hfact.2.resolve_right fun hs => hf hs.foreign)
  all_goals cases hp

omit [DecidableEq ι] in
theorem writes_live (h : Staged s stage) (hp : writes (s.pc a) = some t) {r : TaskRecord}
    (hr : s.shared.ledger.record t = some r) : terminal r.status = false := by
  by_cases hu : updates (s.pc a) = some t
  · obtain ⟨r', hr', hl⟩ := updates_found h hu
    cases hr.symm.trans hr'
    exact hl
  · cases hpc : s.pc a <;> rw [hpc] at hp hu
    case storing job =>
      have hb := (h.level (a := a) (t := job.task) (l := .entered) (by rw [hpc]; rfl)).1.record
      cases hp
      cases hr.symm.trans hb
    all_goals exact absurd hp hu

/-- A record is terminal once and for all: it stays as it is, or leaves. -/
theorem terminal_fades (h : Staged s stage) (hs : Step s e s') {r : TaskRecord}
    (hr : s.shared.ledger.record t = some r) (ht : terminal r.status = true) :
    s'.shared.ledger.record t = some r ∨ s'.shared.ledger.record t = none := by
  rcases step_cases hs with ⟨i, k, rfl, _, rfl⟩ | ⟨a, c, x, rfl, _, hx, rfl⟩ |
    ⟨f, o, rfl, _, _, rfl⟩ | ⟨w, rfl, _, rfl⟩ | ⟨d, rfl, rfl⟩
  · cases k <;> exact .inl hr
  · have hp : writes (s.pc a) ≠ some t := fun hp =>
      absurd ((writes_live h hp hr).symm.trans ht) (by decide)
    rcases turn_fades h.wellformed hx hp with hf | ⟨hf, _⟩
    · exact .inl (hf.trans hr)
    · exact .inr hf
  · exact .inl hr
  · exact .inl hr
  · exact .inl hr

/-! ## Tasks that are known -/

def Known (L : Ledger) (t : TaskId) : Prop := t ∈ L.accepted ∨ t ∈ L.foreign

theorem store_known (request : TaskRequest) (priority : ℤ) (h : Known L t) :
    Known (L.store request priority).2 t := by
  unfold Ledger.store
  split
  · exact h
  · exact h.imp_left (Finset.mem_insert_of_mem ·)

theorem turn_known (h : act sh a p c = some x) (hk : Known sh.ledger t) : Known x.1.ledger t := by
  cases p <;> cases c <;> simp only [act, advance, throwing, expire, reduceCtorEq] at h
  case storing.go job =>
    cases h
    exact store_known _ _ hk
  case notifying.go n =>
    cases h
    cases n <;> exact hk
  all_goals repeat' split at h
  all_goals cases h
  all_goals exact hk

theorem known_next (hs : Step s e s') (hk : Known s.shared.ledger t) :
    Known s'.shared.ledger t := by
  rcases step_cases hs with ⟨i, k, rfl, _, rfl⟩ | ⟨a, c, x, rfl, _, hx, rfl⟩ |
    ⟨f, o, rfl, _, _, rfl⟩ | ⟨w, rfl, _, rfl⟩ | ⟨d, rfl, rfl⟩
  · cases k <;> exact hk
  · exact turn_known hx hk
  · exact hk
  · exact hk
  · exact hk

omit [DecidableEq ι] in
theorem stored_known (h : Staged s stage) (hr : s.shared.ledger.record t ≠ none) :
    Known s.shared.ledger t := by
  by_contra hk
  obtain ⟨ha, hf⟩ := not_or.mp hk
  exact hr ((h.fact t).blank ha hf).record

/-- The record of a known task that has left does not come back. -/
theorem gone_stays (h : Staged s stage) (hs : Step s e s') (hk : Known s.shared.ledger t)
    (hn : s.shared.ledger.record t = none) : s'.shared.ledger.record t = none := by
  rcases step_cases hs with ⟨i, k, rfl, _, rfl⟩ | ⟨a, c, x, rfl, _, hx, rfl⟩ |
    ⟨f, o, rfl, _, _, rfl⟩ | ⟨w, rfl, _, rfl⟩ | ⟨d, rfl, rfl⟩
  · cases k <;> exact hn
  · have hp : writes (s.pc a) ≠ some t := by
      intro hp
      by_cases hu : updates (s.pc a) = some t
      · obtain ⟨r, hr, _⟩ := updates_found h hu
        cases hn.symm.trans hr
      · cases hpc : s.pc a <;> rw [hpc] at hp hu
        case storing job =>
          have hb := (h.level (a := a) (t := job.task) (l := .entered) (by rw [hpc]; rfl)).1
          cases hp
          exact hk.elim hb.accepted hb.foreign
        all_goals exact absurd hp hu
    rcases turn_fades h.wellformed hx hp with hf | ⟨hf, _⟩
    · exact hf.trans hn
    · exact hf
  · exact hn
  · exact hn
  · exact hn

/-- Along a run a terminal record stays as it is, or leaves for good. -/
theorem terminal_run {allow : State ι → Event ι → Prop}
    (single : ∀ u, ((system ι).restrict allow).Reachable u →
      ((system ι).restrict Single).Reachable u) (h : ((system ι).restrict allow).Reachable s)
    (run : Execution ((system ι).restrict allow).step s s') {r : TaskRecord}
    (hr : s.shared.ledger.record t = some r) (ht : terminal r.status = true) :
    s'.shared.ledger.record t = some r ∨ s'.shared.ledger.record t = none := by
  obtain ⟨stage, hst⟩ := (reachable_accounts (single s h)).staged
  have hk : Known s.shared.ledger t := stored_known hst (by rw [hr]; nofun)
  refine (run.preserves (P := fun s' => ((system ι).restrict allow).Reachable s' ∧
    Known s'.shared.ledger t ∧ (s'.shared.ledger.record t = some r ∨
      s'.shared.ledger.record t = none)) (fun u e v hu hs => ?_) ⟨h, hk, .inl hr⟩).2.2
  obtain ⟨hreach, hk, hrec⟩ := hu
  obtain ⟨stage, hst⟩ := (reachable_accounts (single u hreach)).staged
  refine ⟨hreach.next hs, known_next hs.2 hk, ?_⟩
  rcases hrec with hrec | hrec
  · exact terminal_fades hst hs.2 hrec ht
  · exact .inr (gone_stays hst hs.2 hk hrec)

/-! ## The law -/

/-- The statuses of a task, in order, as far as it got. -/
def Lifecycle (moves : List TaskStatus) : Prop :=
  moves <+: [.pending, .running, .completed] ∨ moves <+: [.pending, .running, .failed] ∨
    moves <+: [.pending, .failed]

/-- What holds of a task that the scheduler accepted. -/
structure Lawful (L : Ledger) (t : TaskId) : Prop where
  moves : L.moves t ≠ [] ∧ Lifecycle (L.moves t)
  last : ∀ r, L.record t = some r → (L.moves t).getLast? = some r.status
  once : L.executed t ≤ 1
  started : L.executed t ≠ 0 → .running ∈ L.moves t
  result : ∀ r, L.record t = some r → r.status = .completed →
    ∃ f, Launched L t f ∧ (L.futures f).outcome = some (.result r.result)

omit [DecidableEq ι] in
theorem Waiting.lawful (h : Waiting L t) : Lawful L t := by
  obtain ⟨r, hr, hs⟩ := h.status
  refine ⟨?_, fun r' hr' => ?_, h.executed.le.trans (Nat.zero_le _), fun he => absurd h.executed he,
    fun r' hr' hc => ?_⟩
  · rw [h.moves]
    exact ⟨nofun, .inl ⟨[.running, .completed], rfl⟩⟩
  · cases hr.symm.trans hr'
    rw [h.moves, hs]
    rfl
  · cases hr.symm.trans hr'
    cases hs.symm.trans hc

omit [DecidableEq ι] in
theorem Running.lawful (h : Running L t) (he : L.executed t ≤ 1) : Lawful L t := by
  obtain ⟨r, hr, hs⟩ := h.status
  refine ⟨?_, fun r' hr' => ?_, he, fun _ => ?_, fun r' hr' hc => ?_⟩
  · rw [h.moves]
    exact ⟨nofun, .inl ⟨[.completed], rfl⟩⟩
  · cases hr.symm.trans hr'
    rw [h.moves, hs]
    rfl
  · rw [h.moves]
    decide
  · cases hr.symm.trans hr'
    cases hs.symm.trans hc

omit [DecidableEq ι] in
theorem Ended.lawful (h : Ended L t) : Lawful L t := by
  refine ⟨?_, h.last, h.executed, fun he => ?_, h.result⟩
  · rcases h.final with ⟨hm, _⟩ | hm | hm
    · exact hm ▸ ⟨nofun, .inr (.inr (List.prefix_refl _))⟩
    · exact hm ▸ ⟨nofun, .inl (List.prefix_refl _)⟩
    · exact hm ▸ ⟨nofun, .inr (.inl (List.prefix_refl _))⟩
  · rcases h.final with ⟨_, h0⟩ | hm | hm
    · exact absurd h0 he
    · rw [hm]
      decide
    · rw [hm]
      decide

omit [DecidableEq ι] in
theorem accepted_lawful (h : Staged s stage) (ha : t ∈ s.shared.ledger.accepted) :
    Lawful s.shared.ledger t := by
  rcases (h.fact t).phase ha with hw | ⟨hr, he⟩ | he
  · exact Waiting.lawful hw
  · exact Running.lawful hr he
  · exact Ended.lawful he

/-- The statuses of each accepted task follow the law; the scheduler never asks to change a
record that is not there; and a terminal record does not change. -/
theorem status_law (h : ((system ι).restrict Fresh).Reachable s) :
    (∀ t ∈ s.shared.ledger.accepted, Lawful s.shared.ledger t) ∧
    (∀ a t, updates (s.pc a) = some t → s.shared.ledger.record t ≠ none) ∧
    ∀ s', Execution ((system ι).restrict Fresh).step s s' → ∀ t r,
      s.shared.ledger.record t = some r → terminal r.status = true →
      s'.shared.ledger.record t = some r ∨ s'.shared.ledger.record t = none := by
  obtain ⟨stage, hst⟩ := (reachable_accounts (fresh_single h)).staged
  refine ⟨fun t ht => accepted_lawful hst ht, fun a t hp => ?_, fun s' run t r hr ht => ?_⟩
  · obtain ⟨r, hr, _⟩ := updates_found hst hp
    rw [hr]
    nofun
  · exact terminal_run (fun _ => fresh_single) h run hr ht

/-- One worker runs one task, whose future then delivers a result. -/
def oneTask : List (Event Unit) :=
  firstSubmit () (sampleJob "t") ++ turns (.worker 0) 9 ++ [.resolve 0 (.result none)] ++
    turns (.callback 0) 9

theorem one_task_lawful : ∃ s, after Fresh { numThreads := 1 } oneTask = some s ∧
    s.shared.ledger.moves "t" = [.pending, .running, .completed] ∧
    Lawful s.shared.ledger "t" := by
  obtain ⟨s, hs, hr, ha, hm⟩ := after_spec (A := Fresh) (c := { numThreads := 1 })
    (l := oneTask) (P := fun s => "t" ∈ s.shared.ledger.accepted ∧
      s.shared.ledger.moves "t" = [.pending, .running, .completed]) (by decide +kernel)
  exact ⟨s, hs, hm, (status_law hr).1 "t" ha⟩

end TaskLife
