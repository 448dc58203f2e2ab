import Infly.AtMostOnce
import Infly.EndToEnd

/-! # A deployment performs a task at most once

What the records, the statuses and the executions of a deployment show is a run of the abstract
service, whatever its threads, processes and operators do.
-/
namespace ServiceRefinement

open Contracts TaskBackend SchedulerState SchedulerModel SchedulerLocks SchedulerLedger
  SchedulerDuties SchedulerStages SchedulerFutures TaskLife Transitions AtMostOnce

/-! ## What the scheduler shows -/

/-- The code and the message of a failed record. -/
abbrev Reason := Option ErrorCode × Option String

def recordPhase (r : TaskRecord) : Phase (Option TaskResult) Reason :=
  match r.status with
  | .pending => .waiting
  | .running => .running
  | .completed => .completed r.result
  | .failed => .failed (r.errorCode, r.errorMessage)

def phaseOf (L : Ledger) (t : TaskId) : Phase (Option TaskResult) Reason :=
  match L.record t with
  | none => if t ∈ L.accepted then .retired else .absent
  | some r => recordPhase r

abbrev Shown := AtMostOnce.State TaskId (Option TaskResult) Reason Raised

abbrev service : System Shown (AtMostOnce.Event TaskId (Option TaskResult) Reason Raised) :=
  AtMostOnce.system TaskId (Option TaskResult) Reason Raised

def shown (L : Ledger) (performed : TaskId → List (Except Raised (Option TaskResult))) :
    Shown where
  phase := phaseOf L
  begun t := .running ∈ L.moves t
  performed := performed

theorem recordPhase_ended (r : TaskRecord) : (recordPhase r).ended = terminal r.status := by
  unfold recordPhase
  cases r.status <;> rfl

variable {ι : Type} [DecidableEq ι] {s s' : SchedulerModel.State ι} {stage : TaskId → Stage ι}
  {a : Thread ι} {p : Pc} {c : Choice} {sh : Shared ι} {x : Shared ι × Pc} {L L' : Ledger}
  {t u : TaskId} {performed : TaskId → List (Except Raised (Option TaskResult))}

theorem phaseOf_record {r : TaskRecord} (h : L.record t = some r) :
    phaseOf L t = recordPhase r := by
  unfold phaseOf
  rw [h]

theorem phaseOf_status {status : TaskStatus} (h : InStatus L t status) :
    (status = .pending → phaseOf L t = .waiting) ∧
      (status = .running → phaseOf L t = .running) := by
  obtain ⟨r, hr, rfl⟩ := h
  rw [phaseOf_record hr]
  unfold recordPhase
  exact ⟨fun h => by rw [h], fun h => by rw [h]⟩

/-- A record that fades shows the same phase, or has ended and is retired. -/
theorem fades_phase (h : L.backend.Fades L'.backend t) (ha : t ∈ L'.accepted ↔ t ∈ L.accepted)
    (known : L.record t ≠ none → t ∈ L.accepted) :
    phaseOf L' t = phaseOf L t ∨ phaseOf L' t = .retired ∧ (phaseOf L t).ended = true := by
  rcases h with same | ⟨gone, r, hr, ht⟩
  · have same : L'.record t = L.record t := same
    refine .inl ?_
    unfold phaseOf
    rw [same]
    split
    · simp only [ha]
    · rfl
  · have hr : L.record t = some r := hr
    have gone : L'.record t = none := gone
    refine .inr ⟨?_, ?_⟩
    · unfold phaseOf
      rw [gone]
      exact if_pos (ha.mpr (known (by rw [hr]; nofun)))
    · rw [phaseOf_record hr, recordPhase_ended]
      exact ht

/-! ## A turn of a thread -/

/-- What a turn does to a task whose record it does not write. -/
theorem turn_unwritten (h : act sh a p c = some x) (hp : writes p ≠ some t) :
    (t ∈ x.1.ledger.accepted ↔ t ∈ sh.ledger.accepted) ∧
      x.1.ledger.moves t = sh.ledger.moves t := by
  have same : ∀ now u (y : Backend.Update), u ≠ t →
      (sh.ledger.update now u y).2.moves t = sh.ledger.moves t := by
    intro now u y hu
    unfold Ledger.update
    dsimp only
    split
    · exact Function.update_of_ne (Ne.symm hu) _ _
    · rfl
  cases p <;> cases c <;> simp only [act, advance, throwing, expire, reduceCtorEq] at h
  case storing.go job =>
    cases h
    have hu : t ≠ job.request.taskId := fun he => hp (congrArg some he.symm)
    unfold Ledger.store
    split
    · exact ⟨Iff.rfl, rfl⟩
    · refine ⟨?_, Function.update_of_ne hu _ _⟩
      exact Finset.mem_insert.trans (or_iff_right hu)
  case running.go v request | updating.go v m request | sweeping.go v done rest =>
    cases h
    exact ⟨Iff.rfl, same _ v _ fun he => hp (congrArg some he)⟩
  case notifying.go n =>
    cases h
    cases n <;> exact ⟨Iff.rfl, rfl⟩
  all_goals repeat' split at h
  all_goals cases h
  all_goals exact ⟨Iff.rfl, rfl⟩

/-- A turn that writes a record stores a job or updates a record, or changes nothing. -/
theorem turn_written (h : act sh a p c = some x) (hp : writes p = some u) :
    x.1.ledger = sh.ledger ∨
    (∃ job, p = .storing job ∧ job.task = u ∧
      x.1.ledger = (sh.ledger.store job.request job.priority).2) ∨
    ∃ y, updateOf p = some (u, y) ∧ x.1.ledger = (sh.ledger.update sh.clock u y).2 := by
  cases p <;> simp only [writes, updates, Option.some.injEq, reduceCtorEq] at hp <;> subst hp <;>
    cases c <;> simp only [act, advance, throwing, expire, reduceCtorEq] at h
  case storing.go job =>
    cases h
    exact .inr (.inl ⟨job, rfl, rfl, rfl⟩)
  case running.go request | updating.go m request | sweeping.go done rest =>
    cases h
    exact .inr (.inr ⟨_, rfl, rfl⟩)
  all_goals cases h
  all_goals exact .inl rfl

omit [DecidableEq ι] in
/-- Which update a thread is about to make, and from where it moves the task. -/
theorem update_from (h : Staged s stage) {y : Backend.Update}
    (hp : updateOf (s.pc a) = some (u, y)) :
    (y = { status := .running } ∧ Waiting s.shared.ledger u) ∨
    (y = stoppedBeforeStart ∧ Waiting s.shared.ledger u) ∨
    ∃ m request, s.pc a = .updating u m request ∧ y = m.update ∧ Running s.shared.ledger u := by
  cases hpc : s.pc a <;> rw [hpc] at hp <;>
    simp only [updateOf, Option.some.injEq, Prod.mk.injEq, reduceCtorEq] at hp
  case running v request =>
    obtain ⟨rfl, rfl⟩ := hp
    exact .inl ⟨rfl, h.level (a := a) (l := .checked) (by rw [hpc]; rfl)⟩
  case updating v m request =>
    obtain ⟨rfl, rfl⟩ := hp
    have running := h.level (a := a) (t := v) (l := enderLevel m) (by rw [hpc]; rfl)
    exact .inr (.inr ⟨m, request, rfl, rfl, by cases m <;> exact running.1⟩)
  case sweeping v done rest =>
    obtain ⟨rfl, rfl⟩ := hp
    obtain ⟨hst, hf⟩ := h.leftover a v (by rw [hpc]; exact List.mem_cons_self ..)
    have hfact := h.fact v
    rw [hst] at hfact
    exact .inr (.inl ⟨rfl, hfact.2.resolve_right fun hs => hf hs.foreign⟩)

/-- The phase that an update gives. -/
theorem update_phase (hw : L.backend.Wellformed) {r : TaskRecord} (hr : L.record u = some r)
    (known : u ∈ L.accepted) (now : ℕ) (y : Backend.Update) :
    phaseOf (L.update now u y).2 u = recordPhase (y.apply r) ∨
      phaseOf (L.update now u y).2 u = .retired ∧ (recordPhase (y.apply r)).ended = true := by
  obtain ⟨-, -, -, hstored, -, -⟩ := update_ok hw hr now y
  rcases hstored with hs | ⟨hn, ht⟩
  · exact .inl (phaseOf_record hs)
  · refine .inr ⟨?_, ?_⟩
    · unfold phaseOf
      rw [hn]
      exact if_pos known
    · rw [recordPhase_ended]
      exact ht

omit [DecidableEq ι] in
/-- Only `RUNNING` begins a task. -/
theorem update_begun (hw : L.backend.Wellformed) {r : TaskRecord} (hr : L.record u = some r)
    (now : ℕ) {y : Backend.Update} (hy : y.status ≠ .running) :
    (fun t => TaskStatus.running ∈ (L.update now u y).2.moves t) =
      fun t => TaskStatus.running ∈ L.moves t := by
  obtain ⟨-, -, -, -, hm, hk⟩ := update_ok hw hr now y
  funext t
  by_cases ht : t = u
  · subst ht
    rw [hm]
    simp [hy.symm]
  · rw [(hk t ht).moves]

/-- A turn of a thread is a run of the service, if what a task completes with was performed. -/
theorem turn_shown (hst : Staged s stage) (own : s.shared.ledger.foreign = ∅)
    (hx : act s.shared a (s.pc a) c = some x)
    (done : ∀ u result request, s.pc a = .updating u (.completeTask (.result result)) request →
      performed u = [.ok result]) :
    Execution service.step (shown s.shared.ledger performed) (shown x.1.ledger performed) := by
  have known : ∀ t, s.shared.ledger.record t ≠ none → t ∈ s.shared.ledger.accepted := by
    intro t ht
    refine (stored_known hst ht).resolve_right fun hf => ?_
    exact absurd (own ▸ hf) (Finset.notMem_empty t)
  have others : ∀ t, writes (s.pc a) ≠ some t →
      phaseOf x.1.ledger t = phaseOf s.shared.ledger t ∨
        phaseOf x.1.ledger t = .retired ∧ (phaseOf s.shared.ledger t).ended = true := fun t ht =>
    fades_phase (turn_fades hst.wellformed hx ht) (turn_unwritten hx ht).1 (known t)
  cases hw : writes (s.pc a) with
  | none =>
    refine retire_run ?_ rfl fun t => others t (by rw [hw]; nofun)
    funext t
    show (_ ∈ _) = (_ ∈ _)
    rw [(turn_unwritten hx (t := t) (by rw [hw]; nofun)).2]
  | some u =>
    have others : ∀ t, t ≠ u → phaseOf x.1.ledger t = phaseOf s.shared.ledger t ∨
        phaseOf x.1.ledger t = .retired ∧ (phaseOf s.shared.ledger t).ended = true :=
      fun t ht => others t fun he => ht (Option.some.inj (he.symm.trans hw))
    rcases turn_written hx hw with same | ⟨job, hpc, rfl, hl⟩ | ⟨y, hy, hl⟩
    · rw [same]
      exact .refl _
    · have blank := (hst.level (a := a) (t := job.task) (l := .entered) (by rw [hpc]; rfl)).1
      obtain ⟨-, hrec, -, ⟨-, -, hm⟩, hk⟩ := store_ok job.request blank.record job.priority
      rw [hl] at others ⊢
      refine moved_run (t := job.task) (p := .waiting) (.accept job.task ?_) rfl ?_ rfl
        (.inl (phaseOf_record hrec)) others
      · show phaseOf _ _ = _
        unfold phaseOf
        rw [blank.record]
        exact if_neg blank.accepted
      · funext t
        show (_ ∈ _) = (_ ∈ _)
        by_cases ht : t = job.task
        · subst ht
          show (_ ∈ (s.shared.ledger.store job.request job.priority).2.moves job.request.taskId) =
            (_ ∈ s.shared.ledger.moves job.request.taskId)
          rw [hm]
          simp
        · rw [(hk t ht).moves]
    · rw [hl] at others ⊢
      have ended : ∀ {r : TaskRecord} {e} {q : Phase (Option TaskResult) Reason},
          s.shared.ledger.record u = some r → recordPhase (y.apply r) = q → y.status ≠ .running →
          AtMostOnce.Step (shown s.shared.ledger performed) e
            ((shown s.shared.ledger performed).move u q) →
          Execution service.step (shown s.shared.ledger performed)
            (shown (s.shared.ledger.update s.shared.clock u y).2 performed) := by
        rintro r e q hr rfl hne step
        refine moved_run step rfl ?_ rfl ?_ others
        · exact update_begun hst.wellformed hr _ hne
        · exact update_phase hst.wellformed hr (known u (by rw [hr]; nofun)) _ y
      rcases update_from hst hy with ⟨rfl, waits⟩ | ⟨rfl, waits⟩ | ⟨m, request, hpc, rfl, runs⟩
      · obtain ⟨r, hr, hs⟩ := waits.status
        obtain ⟨-, -, -, -, hm, hk⟩ :=
          update_ok hst.wellformed hr s.shared.clock { status := .running }
        refine moved_run (t := u) (p := .running)
          (.begin u ((phaseOf_status waits.status).1 rfl)) rfl ?_ rfl ?_ others
        · funext t
          show (_ ∈ _) = (t = u ∨ _ ∈ _)
          by_cases ht : t = u
          · subst ht
            rw [hm]
            simp
          · rw [(hk t ht).moves]
            simp [ht]
        · exact update_phase hst.wellformed hr (known u (by rw [hr]; nofun)) _ _
      · obtain ⟨r, hr, -⟩ := waits.status
        exact ended hr rfl nofun (.fail u _ (.inl ((phaseOf_status waits.status).1 rfl)))
      · obtain ⟨r, hr, -⟩ := runs.status
        have running := (phaseOf_status runs.status).2 rfl
        cases m with
        | failTask w => exact ended hr rfl nofun (.fail u _ (.inr running))
        | workerLoop w => exact ended hr rfl nofun (.fail u _ (.inr running))
        | completeTask out =>
          cases out with
          | exception w => exact ended hr rfl nofun (.fail u _ (.inr running))
          | result result =>
            exact ended hr rfl nofun (.complete u result running (done u result request hpc))

/-- So is a step of the scheduler. -/
theorem step_shown {e : SchedulerModel.Event ι} (hst : Staged s stage)
    (own : s.shared.ledger.foreign = ∅) (hs : SchedulerModel.Step s e s')
    (done : ∀ a u result request, s.pc a = .updating u (.completeTask (.result result)) request →
      performed u = [.ok result]) :
    Execution service.step (shown s.shared.ledger performed)
      (shown s'.shared.ledger performed) := by
  rcases step_cases hs with ⟨i, k, rfl, _, rfl⟩ | ⟨a, c, x, rfl, _, hx, rfl⟩ |
    ⟨f, o, rfl, _, _, rfl⟩ | ⟨w, rfl, _, rfl⟩ | ⟨d, rfl, rfl⟩
  · cases k <;> exact .refl _
  · exact turn_shown hst own hx (done a)
  · exact .refl _
  · exact .refl _
  · exact .refl _

/-! ## Tasks with a future have begun -/

theorem begun_next {e : SchedulerModel.Event ι} (hs : SchedulerModel.Step s e s')
    (hb : TaskStatus.running ∈ s.shared.ledger.moves t) :
    TaskStatus.running ∈ s'.shared.ledger.moves t := by
  have appended : ∀ u status, TaskStatus.running ∈ Function.update s.shared.ledger.moves u
      (s.shared.ledger.moves u ++ [status]) t := by
    intro u status
    by_cases hu : t = u
    · subst hu
      rw [Function.update_self]
      exact List.mem_append_left _ hb
    · rw [Function.update_of_ne hu]
      exact hb
  rcases step_cases hs with ⟨i, k, rfl, _, rfl⟩ | ⟨a, c, x, rfl, _, hx, rfl⟩ |
    ⟨f, o, rfl, _, _, rfl⟩ | ⟨w, rfl, _, rfl⟩ | ⟨d, rfl, rfl⟩
  · cases k <;> exact hb
  · rw [goto_shared]
    by_cases hw : writes (s.pc a) = some t
    · rcases turn_written hx hw with same | ⟨job, _, _, hl⟩ | ⟨y, _, hl⟩
      · exact same ▸ hb
      · rw [hl]
        unfold Ledger.store
        split
        · exact hb
        · exact appended _ _
      · rw [hl]
        unfold Ledger.update
        dsimp only
        split
        · exact appended _ _
        · exact hb
    · rw [(turn_unwritten hx hw).2]
      exact hb
  · exact hb
  · exact hb
  · exact hb

theorem launched_begun (h : (Coupling.schedulerAlone ι).Reachable s) {f : FutureId}
    (hlt : f < s.shared.ledger.nextFuture) :
    TaskStatus.running ∈ s.shared.ledger.moves (s.shared.ledger.futures f).task := by
  refine System.invariant_reachable (S := Coupling.schedulerAlone ι) (P := fun s =>
    ∀ f, f < s.shared.ledger.nextFuture →
      TaskStatus.running ∈ s.shared.ledger.moves (s.shared.ledger.futures f).task)
    ?_ (fun s e s' hr hu hst f hlt => ?_) h f hlt
  · rintro s ⟨config, b, _, rfl⟩ f hlt
    cases hlt
  · obtain ⟨stage, hstage⟩ := Coupling.stages hr
    have before := begun_next (t := (s.shared.ledger.futures f).task) hst.2
    rcases step_futures hst.2 with ⟨hn, hsame⟩ | ⟨a, t, request, rfl, hp, rfl⟩ |
      ⟨g, o, rfl, hg, _, rfl⟩
    · rw [(hsame f).1]
      exact before (hu f (hn ▸ hlt))
    · rw [goto_shared]
      dsimp only
      rw [launch_future]
      split
      · show TaskStatus.running ∈ s.shared.ledger.moves t
        rw [(executing_unlaunched hstage hp).1.moves]
        decide
      · rename_i hne
        exact hu f (Nat.lt_of_le_of_ne (Nat.lt_succ_iff.mp hlt) hne)
    · show TaskStatus.running ∈ s.shared.ledger.moves
        ((s.shared.ledger.modify g fun x => { x with outcome := some o }).futures f).task
      rw [resolve_future]
      split
      · exact hu g hg
      · exact hu f hlt

/-! ## A deployment -/

section

open Deployment Coupling Traffic EndToEnd CacheKey ExecutorCache WorkerProcess

variable {keys : CacheKeys} {memory : Memory} {d d' : Deployment.State ι}

/-- What was performed for a task: the outcome of every execution of a request with its id. -/
def performedIn (services : List Service) (t : TaskId) :
    List (Except Raised (Option TaskResult)) :=
  (services.filter fun v => decide (v.request.taskId = t)).map fun v =>
    v.execution.outcome.map some

def serviceOf (d : Deployment.State ι) : Shown := shown d.ledger (performedIn d.services)

theorem performed_absent {services : List Service}
    (new : t ∉ services.map fun v => v.request.taskId) : performedIn services t = [] := by
  refine List.map_eq_nil_iff.mpr (List.filter_eq_nil_iff.mpr fun v hv hd => new ?_)
  exact List.mem_map.mpr ⟨v, hv, of_decide_eq_true hd⟩

theorem performed_member {services : List Service} {v : Service} (hv : v ∈ services)
    (once : (services.map fun v => v.request.taskId).Nodup) :
    performedIn services v.request.taskId = [v.execution.outcome.map some] := by
  unfold performedIn
  induction services with
  | nil => cases hv
  | cons w rest ih =>
    rw [List.map_cons, List.nodup_cons] at once
    rcases List.mem_cons.mp hv with rfl | hv
    · rw [List.filter_cons_of_pos (by exact decide_eq_true rfl), List.map_cons]
      exact congrArg _ (performed_absent once.1)
    · have hne : w.request.taskId ≠ v.request.taskId := fun he =>
        once.1 (he ▸ List.mem_map_of_mem (f := fun v => v.request.taskId) hv)
      rw [List.filter_cons_of_neg (by simpa using hne)]
      exact ih hv once.2

theorem performed_snoc (services : List Service) (v : Service) :
    performedIn (services ++ [v]) = Function.update (performedIn services) v.request.taskId
      (performedIn services v.request.taskId ++ [v.execution.outcome.map some]) := by
  funext t
  unfold performedIn
  rw [List.filter_append, List.map_append]
  by_cases ht : t = v.request.taskId
  · subst ht
    rw [Function.update_self, List.filter_cons_of_pos (by exact decide_eq_true rfl)]
    rfl
  · rw [Function.update_of_ne ht, List.filter_cons_of_neg (by simpa using Ne.symm ht)]
    exact List.append_nil _

/-- What a task is about to complete with was performed for it. -/
theorem completing_performed (h : (deployment keys memory ι).Reachable d)
    {payload : Option TaskResult} {request : Option TaskRequest}
    (hp : d.scheduler.pc a = .updating u (.completeTask (.result payload)) request) :
    performedIn d.services u = [.ok payload] := by
  obtain ⟨stage, hst⟩ := stages (scheduler_alone h)
  obtain ⟨-, -, f, launched, ho⟩ :=
    hst.level (a := a) (t := u) (l := .completing (.result payload)) (by rw [hp]; rfl)
  obtain ⟨v, hv, hid, result, hx, rfl⟩ := result_service h launched.1 ho
  have once := (reachable_orderly h).once.sublist (List.sublist_append_left _ _)
  have hperf := performed_member hv once
  rw [hid, launched.2.1, hx] at hperf
  exact hperf

theorem deployment_run (h : (deployment keys memory ι).Reachable d)
    {e : Deployment.Event ι} (hst : (deployment keys memory ι).step d e d') :
    Execution service.step (serviceOf d) (serviceOf d') := by
  obtain ⟨stage, hstage⟩ := stages (scheduler_alone h)
  have turn : ∀ {x : SchedulerModel.State ι} {e : SchedulerModel.Event ι},
      SchedulerModel.Step d.scheduler e x → Execution service.step (serviceOf d)
        (shown x.shared.ledger (performedIn d.services)) := fun hx =>
    step_shown hstage (own_backend h) hx fun _ _ _ _ hp => completing_performed h hp
  have resolves : ∀ {x y : SchedulerModel.State ι} {f : FutureId} {o : Outcome},
      SchedulerModel.Step x (.resolve f o) y →
        shown y.shared.ledger (performedIn d.services) =
          shown x.shared.ledger (performedIn d.services) := by
    intro x y f o hy
    rcases step_cases hy with ⟨_, _, he, _⟩ | ⟨_, _, _, he, _⟩ | ⟨_, _, _, _, _, rfl⟩ |
      ⟨_, he, _⟩ | ⟨_, he, _⟩
    · cases he
    · cases he
    · rfl
    · cases he
    · cases he
  cases next_change hst.2 with
  | scheduler e x own hx => exact turn hx
  | assigned a putRaises t request r x hp hr hx => exact turn hx
  | rejected a putRaises t request w x y hp hr hx hy =>
    show Execution _ _ (shown y.shared.ledger (performedIn d.services))
    rw [resolves hy]
    exact turn hx
  | raised a putRaises t request w x hp hr hx => exact turn hx
  | closed i c timeout workers x hp hx => exact turn hx
  | pool b child x own hh he hc hx =>
    show Execution _ _ (shown x.shared.ledger (performedIn d.services))
    unfold settle at hx
    split at hx
    · cases hx
      exact .refl _
    · split at hx
      · rw [resolves hx]
        exact .refl _
      · cases hx
        exact .refl _
  | close | add | boot | receive | lose | drop | garble => exact .refl _
  | serve o load handle own executor executor' request rest v hc hi hv hn he =>
    have asked : v.request ∈ d.inbox o := by
      rw [hv, hi]
      exact List.mem_cons_self
    have orderly := reachable_orderly h
    obtain ⟨o', sent⟩ := orderly.sent (.inl ⟨o, asked⟩)
    obtain ⟨f, hlt, ht⟩ := sent.launched (reachable_coupled h)
    have waits : (v.request.taskId, o) ∈ d.wire.queued := by
      have hmem : v.request.taskId ∈ (d.inbox o).map TaskRequest.taskId :=
        List.mem_map_of_mem asked
      rw [← orderly.inbox o] at hmem
      obtain ⟨q, hq, heq⟩ := List.mem_map.mp hmem
      obtain ⟨hq, ho⟩ := List.mem_filter.mp hq
      rw [← heq, ← of_decide_eq_true ho]
      exact hq
    have new : v.request.taskId ∉ d.services.map fun v => v.request.taskId := fun hm =>
      List.disjoint_of_nodup_append orderly.once hm
        (List.mem_map_of_mem (f := Prod.fst) waits)
    show Execution _ _ (shown d.ledger (performedIn (d.services ++ [v])))
    rw [performed_snoc]
    exact .single (.perform v.request.taskId _ (ht ▸ launched_begun (scheduler_alone h) hlt)
      (performed_absent new))

theorem service_view : Simulation (deployment keys memory ι) service serviceOf where
  init d := by
    rintro ⟨config, definitions, groups, p, pipe, logs, load, _, rfl⟩
    refine ⟨fun t => ?_, fun t hb => ?_, fun t => rfl⟩
    · rfl
    · cases hb
  step d e d' h _ hst := deployment_run h hst

/-- A deployment is a service that performs each task at most once: a task completes with what was
performed for it, nothing else is ever performed for it, and an outcome stands until the record is
pruned. -/
theorem deployment_refines_service :
    Simulation (deployment keys memory ι) service serviceOf ∧
    ∀ d, (deployment keys memory ι).Reachable d → Sound (serviceOf d) ∧
      ∀ d', Execution (deployment keys memory ι).step d d' → ∀ t,
        (∀ outcome, (serviceOf d).performed t = [outcome] →
          (serviceOf d').performed t = [outcome]) ∧
        ∀ p, (serviceOf d).phase t = p → p.ended = true ∨ p = .retired →
          (serviceOf d').phase t = p ∨ (serviceOf d').phase t = .retired := by
  refine ⟨service_view, fun d h => ⟨reachable_sound (service_view.reachable h),
    fun d' run t => ⟨fun outcome hp => ?_, fun p hp he => ?_⟩⟩⟩
  · exact performed_kept (service_view.run h run) hp
  · exact ended_kept (service_view.run h run) hp he

/-- The one task of the sample is performed once, and completes with what was performed. -/
theorem deployment_refines_service_completed :
    ∃ d, (deployment echoKeys echoMemory Unit).Reachable d ∧ ∃ result,
      (serviceOf d).phase "t" = .completed result ∧
      (serviceOf d).performed "t" = [.ok result] := by
  obtain ⟨d, h, shown⟩ := echo_spec echo_runs.2.2.1
  obtain ⟨-, -, hr, -⟩ := of_decide_eq_true shown
  obtain ⟨r, hr, hs⟩ := (Option.any_eq_true _ _).mp hr
  have phase : (serviceOf d).phase "t" = .completed r.result := by
    refine (phaseOf_record hr).trans ?_
    unfold recordPhase
    rw [of_decide_eq_true hs]
  exact ⟨d, h, r.result, phase,
    (deployment_refines_service.2 d h).1.completed "t" _ phase⟩

end

end ServiceRefinement
