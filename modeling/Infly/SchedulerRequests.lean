import Infly.SchedulerAccounts

/-! # Fresh requests

If no id is submitted twice, nor one that the backend knew before, the duplicate check never
meets a task that was accepted before.
-/
namespace SchedulerRequests

open Contracts TaskBackend SchedulerState SchedulerModel SchedulerLocks SchedulerAccounts
  Transitions

/-- The task that a submit call is about to store. -/
def asking : Pc → Option TaskId
  | .starting job | .startChecking job | .spawning job _ | .launching job _ _ | .submitting job
  | .checkingDuplicate job | .acquiringSlot job | .addingId job | .storing job => some job.task
  | _ => none

variable {ι : Type} {a b : Thread ι} {p : Pc}

theorem onward_asks (h : onward p = true) : asking p = none := by
  cases p <;> first
    | rfl
    | cases h

section

variable [DecidableEq ι] {s t : State ι} {sh : Shared ι} {x : Shared ι × Pc} {c : Choice}
  {e : Event ι}

theorem store_asked (L : Ledger) (request : TaskRequest) (priority : ℤ) :
    (L.store request priority).2.foreign = L.foreign ∧
    (L.store request priority).2.requested = L.requested ∧
    ∀ u ∈ (L.store request priority).2.accepted, u ∈ L.accepted ∨ u = request.taskId := by
  unfold Ledger.store
  split
  · exact ⟨rfl, rfl, fun u hu => .inl hu⟩
  · exact ⟨rfl, rfl, fun u hu => (Finset.mem_insert.mp hu).symm⟩

/-- A call goes on asking for its task, or asks no more; only its task may be accepted. -/
theorem turn_asks (h : act sh a p c = some x) :
    (asking x.2 = asking p ∨ asking x.2 = none) ∧ x.1.ledger.foreign = sh.ledger.foreign ∧
    x.1.ledger.requested = sh.ledger.requested ∧
    ∀ u ∈ x.1.ledger.accepted, u ∈ sh.ledger.accepted ∨ asking p = some u ∧ asking x.2 = none := by
  cases p <;> cases c <;> simp only [act, advance, throwing, expire, reduceCtorEq] at h
  case storing.go job =>
    have hn : asking x.2 = none := by
      cases h
      cases (sh.ledger.store job.request job.priority).1 <;> rfl
    cases h
    obtain ⟨hf, hr, ha⟩ := store_asked sh.ledger job.request job.priority
    exact ⟨.inr hn, hf, hr, fun u hu => (ha u hu).imp_right fun he => ⟨congrArg some he.symm, hn⟩⟩
  case tracing.go k event =>
    cases h
    exact ⟨.inr (by cases k <;> rfl), rfl, rfl, fun u hu => .inl hu⟩
  case waitChecking.go q d =>
    cases h
    exact ⟨.inr (look_of q _ _ _ (fun _ hp => onward_asks (resumed_onward hp)) rfl fun _ => rfl),
      rfl, rfl, fun u hu => .inl hu⟩
  case notifying.go n =>
    cases h
    refine ⟨.inr (onward_asks (afterNotify_onward ..)), ?_⟩
    cases n <;> exact ⟨rfl, rfl, fun u hu => .inl hu⟩
  all_goals repeat' split at h
  all_goals cases h
  all_goals first
    | exact ⟨.inl rfl, rfl, rfl, fun u hu => .inl hu⟩
    | exact ⟨.inr rfl, rfl, rfl, fun u hu => .inl hu⟩
    | (refine ⟨.inr (onward_asks ?_), rfl, rfl, fun u hu => .inl hu⟩; simp [resumed_onward])

structure Requests (s : State ι) : Prop where
  foreign : ∀ t ∈ s.shared.ledger.foreign, t ∈ s.shared.ledger.requested
  accepted : ∀ t ∈ s.shared.ledger.accepted, t ∈ s.shared.ledger.requested
  asked : ∀ a t, asking (s.pc a) = some t → t ∈ s.shared.ledger.requested ∧
    t ∉ s.shared.ledger.foreign ∧ t ∉ s.shared.ledger.accepted
  alone : ∀ a b t, asking (s.pc a) = some t → asking (s.pc b) = some t → a = b

omit [DecidableEq ι] in
theorem requests_begin (config : Config.SchedulerConfig) (b : Backend) :
    Requests (begin (ι := ι) config b) := by
  have quiet : ∀ a : Thread ι, asking ((begin config b).pc a) = none := by
    intro a
    cases a <;> rfl
  refine ⟨fun t ht => ht, fun t ht => absurd ht (Finset.notMem_empty t), fun a t ha => ?_,
    fun a b t ha => ?_⟩
  all_goals
    rw [quiet a] at ha
    cases ha

omit [DecidableEq ι] in
theorem Requests.still (h : Requests s) (hp : t.pc = s.pc)
    (hf : t.shared.ledger.foreign = s.shared.ledger.foreign)
    (hr : t.shared.ledger.requested = s.shared.ledger.requested)
    (ha : t.shared.ledger.accepted = s.shared.ledger.accepted) : Requests t where
  foreign := by rw [hf, hr]; exact h.foreign
  accepted := by rw [ha, hr]; exact h.accepted
  asked := by rw [hp, hf, hr, ha]; exact h.asked
  alone := by rw [hp]; exact h.alone

theorem Requests.goto (h : Requests s) (hn : asking x.2 = asking (s.pc a) ∨ asking x.2 = none)
    (hf : x.1.ledger.foreign = s.shared.ledger.foreign)
    (hr : x.1.ledger.requested = s.shared.ledger.requested)
    (hacc : ∀ u ∈ x.1.ledger.accepted, u ∈ s.shared.ledger.accepted ∨
      asking (s.pc a) = some u ∧ asking x.2 = none) : Requests (s.goto a x) := by
  have before : ∀ b u, asking ((s.goto a x).pc b) = some u → asking (s.pc b) = some u := by
    intro b u hb
    by_cases hba : b = a
    · subst hba
      rw [goto_pc] at hb
      rcases hn with hn | hn
      · exact hn ▸ hb
      · rw [hn] at hb
        cases hb
    · rwa [goto_pc_of_ne s hba] at hb
  refine ⟨?_, fun u hu => ?_, fun b u hb => ?_, fun b b' u hb hb' =>
    h.alone b b' u (before b u hb) (before b' u hb')⟩
  · rw [goto_shared, hf, hr]
    exact h.foreign
  · rw [goto_shared, hr]
    rcases hacc u hu with hu | ⟨hu, _⟩
    · exact h.accepted u hu
    · exact (h.asked a u hu).1
  · obtain ⟨hreq, hfor, hna⟩ := h.asked b u (before b u hb)
    rw [goto_shared, hf, hr]
    refine ⟨hreq, hfor, fun hu => ?_⟩
    rcases hacc u hu with hu | ⟨hu, hx2⟩
    · exact hna hu
    · have hba : b = a := h.alone b a u (before b u hb) hu
      subst hba
      rw [goto_pc, hx2] at hb
      cases hb

theorem requests_next (h : Requests s) (hs : Step s e t) (hf : Fresh s e) : Requests t := by
  rcases step_cases hs with ⟨i, k, rfl, hr, rfl⟩ | ⟨a, c, x, rfl, _, hx, rfl⟩ |
    ⟨f, o, rfl, _, _, rfl⟩ | ⟨w, rfl, _, rfl⟩ | ⟨d, rfl, rfl⟩
  · cases k with
    | submit job =>
      have hnew : job.task ∉ s.shared.ledger.requested := hf
      have before : ∀ b u, asking ((s.goto (.client i)
          ((Call.submit job).enter s.shared)).pc b) = some u →
          b = .client i ∧ u = job.task ∨ b ≠ .client i ∧ asking (s.pc b) = some u := by
        intro b u hb
        by_cases hbi : b = .client i
        · subst hbi
          rw [goto_pc] at hb
          exact .inl ⟨rfl, (Option.some.inj hb).symm⟩
        · rw [goto_pc_of_ne s hbi] at hb
          exact .inr ⟨hbi, hb⟩
      refine ⟨fun u hu => Finset.mem_insert_of_mem (h.foreign u hu),
        fun u hu => Finset.mem_insert_of_mem (h.accepted u hu), fun b u hb => ?_,
        fun b b' u hb hb' => ?_⟩
      · rcases before b u hb with ⟨rfl, rfl⟩ | ⟨_, hb⟩
        · exact ⟨Finset.mem_insert_self .., fun hu => hnew (h.foreign _ hu),
            fun hu => hnew (h.accepted _ hu)⟩
        · obtain ⟨hreq, hrest⟩ := h.asked b u hb
          exact ⟨Finset.mem_insert_of_mem hreq, hrest⟩
      · rcases before b u hb with ⟨rfl, rfl⟩ | ⟨_, hb⟩
        · rcases before b' _ hb' with ⟨rfl, _⟩ | ⟨_, hb'⟩
          · rfl
          · exact absurd (h.asked b' _ hb').1 hnew
        · rcases before b' u hb' with ⟨rfl, rfl⟩ | ⟨_, hb'⟩
          · exact absurd (h.asked b _ hb).1 hnew
          · exact h.alone b b' u hb hb'
    | stop timeout =>
      refine h.goto (.inr ?_) rfl rfl fun u hu => .inl hu
      simp only [Call.enter]
      split <;> rfl
    | query q => exact h.goto (.inr rfl) rfl rfl fun u hu => .inl hu
  · obtain ⟨hn, hf, hr, hacc⟩ := turn_asks hx
    exact h.goto hn hf hr hacc
  · exact h.still rfl rfl rfl rfl
  · exact h.still rfl rfl rfl rfl
  · exact h.still rfl rfl rfl rfl

theorem reachable_requests (h : ((system ι).restrict Fresh).Reachable s) : Requests s := by
  refine System.invariant (S := (system ι).restrict Fresh) ?_
    (fun _ _ _ hs hst => requests_next hs hst.2 hst.1) h
  rintro s ⟨config, b, _, rfl⟩
  exact requests_begin config b

omit [DecidableEq ι] in
theorem Requests.single (h : Requests s) (e : Event ι) : Single s e := by
  match e with
  | .step a .go =>
    intro job hp hk
    obtain ⟨_, hf, ha⟩ := h.asked a job.task (by rw [hp]; rfl)
    exact absurd hk (not_or.mpr ⟨ha, hf⟩)
  | .step a (.raises _) => trivial
  | .step a .timeout => trivial
  | .call _ _ => trivial
  | .resolve _ _ => trivial
  | .fire _ => trivial
  | .tick _ => trivial

theorem fresh_single (h : ((system ι).restrict Fresh).Reachable s) :
    ((system ι).restrict Single).Reachable s :=
  System.restrict_imp (fun _ hr => reachable_requests hr) (fun _ e hr _ => hr.single e) h

/-! ## Replaying runs -/

instance (s : State ι) (e : Event ι) : Decidable (Fresh s e) := by
  unfold Fresh
  split <;> infer_instance

def checkedJob : Pc → Option Job
  | .checkingDuplicate job => some job
  | _ => none

theorem checkedJob_iff {job : Job} : checkedJob p = some job ↔ p = .checkingDuplicate job := by
  cases p <;> simp [checkedJob]

instance (s : State ι) (e : Event ι) : Decidable (Single s e) :=
  match e with
  | .step a .go =>
    decidable_of_iff (∀ job ∈ checkedJob (s.pc a), job.task ∈ s.shared.ledger.accepted ∨
      job.task ∈ s.shared.ledger.foreign → s.shared.ledger.record job.task ≠ none)
      ⟨fun h job hp => h job (checkedJob_iff.mpr hp), fun h job hp => h job (checkedJob_iff.mp hp)⟩
  | .step _ (.raises _) | .step _ .timeout | .call _ _ | .resolve _ _ | .fire _ | .tick _ =>
    .isTrue trivial

/-- The state after `es`, with the backend that the constructor makes. -/
def after (allow : State ι → Event ι → Prop) [∀ s e, Decidable (allow s e)]
    (config : Config.SchedulerConfig) (es : List (Event ι)) : Option (State ι) :=
  replay next allow es
    (begin config { maxRetainedTerminalTasks := config.maxRetainedTerminalTasks })

omit [DecidableEq ι] in
theorem empty_usable (n : ℕ) : Usable { maxRetainedTerminalTasks := n } :=
  ⟨Backend.empty_wellformed n, List.nodup_nil⟩

theorem after_reachable {allow : State ι → Event ι → Prop} [∀ s e, Decidable (allow s e)]
    {config : Config.SchedulerConfig} {es : List (Event ι)} (h : after allow config es = some s) :
    ((system ι).restrict allow).Reachable s :=
  ⟨_, ⟨config, _, empty_usable _, rfl⟩, replay_execution h⟩

theorem after_spec {A : State ι → Event ι → Prop} [∀ s e, Decidable (A s e)]
    {c : Config.SchedulerConfig} {l : List (Event ι)} {P : State ι → Prop}
    [DecidablePred P] (h : (after A c l).any (fun s => decide (P s)) = true) :
    ∃ s, after A c l = some s ∧ ((system ι).restrict A).Reachable s ∧ P s := by
  obtain ⟨s, hs, hp⟩ := (Option.any_eq_true _ _).mp h
  exact ⟨s, hs, after_reachable hs, of_decide_eq_true hp⟩

/-- The thread whose step or call an event is. -/
def mover : Event ι → Option (Thread ι)
  | .call i _ => some (.client i)
  | .step a _ => some a
  | .resolve _ _ | .fire _ | .tick _ => none

/-- A thread that has no event in a run is where it was at first. -/
theorem after_unmoved {allow : State ι → Event ι → Prop} [∀ s e, Decidable (allow s e)]
    {config : Config.SchedulerConfig} {es : List (Event ι)} (h : after allow config es = some s)
    (hb : some b ∉ es.map mover) : s.pc b = (begin config {}).pc b := by
  have kept : ∀ {u : State ι}, replay next allow es u = some s → s.pc b = u.pc b := by
    clear h
    intro u h
    induction es generalizing u with
    | nil =>
      cases h
      rfl
    | cons e es ih =>
      obtain ⟨he, hes⟩ := not_or.mp (List.mem_cons.not.mp hb)
      unfold replay at h
      split at h
      · obtain ⟨v, hv, hs⟩ := Option.bind_eq_some_iff.mp h
        refine (ih hes hs).trans ?_
        rcases step_cases hv with ⟨i, k, rfl, _, rfl⟩ | ⟨a, c, x, rfl, _, _, rfl⟩ |
          ⟨f, o, rfl, _, _, rfl⟩ | ⟨w, rfl, _, rfl⟩ | ⟨d, rfl, rfl⟩
        · exact goto_pc_of_ne u (fun hc => he (congrArg some hc)) _
        · exact goto_pc_of_ne u (fun hc => he (congrArg some hc)) _
        · rfl
        · rfl
        · rfl
      · cases h
  rw [kept h]
  cases b <;> rfl

def turns (a : Thread ι) (n : ℕ) : List (Event ι) := List.replicate n (.step a .go)

def sampleJob (t : TaskId) : Job := { request := { handlerName := "h", taskId := t } }

/-- A first submit call that starts the one worker, and returns. -/
def firstSubmit (i : ι) (job : Job) : List (Event ι) :=
  .call i (.submit job) :: turns (.client i) 12

end

end SchedulerRequests
