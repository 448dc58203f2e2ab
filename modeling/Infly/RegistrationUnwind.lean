import Infly.PoolUnload

/-! # A registration that fails

When a worker of a new group does not start, `register_worker_group` disposes of all the
workers it made. A process that was made but could not be started makes the disposal raise.
-/
namespace RegistrationUnwind

open Contracts Config PoolState PoolTables PoolAccounting PoolGroups PoolModel PoolFrames
open PoolInvariant PoolHandles PoolQueues PoolUnload Progress

variable {ι : Type}

/-- The pool, and the workers whose processes were sent SIGTERM. -/
structure Watched (ι : Type) where
  state : State ι
  signalled : Ref → Bool

def signal (signalled : Ref → Bool) : Event ι → Ref → Bool
  | .dispose _ (.stop .terminate) r _ _ => Function.update signalled r true
  | _ => signalled

/-- The handle is closed, or the process was sent SIGTERM; a worker without one has nothing
to stop. -/
def Stopped (w : WorkerState) (signalled : Bool) : Prop :=
  ∀ h, w.process = some h → h = .closed ∨ signalled = true ∧ h.Usable

/-- What a disposal knows of the worker it is at. -/
def Midway (w : WorkerState) (signalled : Bool) : DisposeStep → Prop
  | .stop .rejoin => Manageable w ∧ signalled = true
  | .stop .close => Manageable w ∧ (w.process = some .running → signalled = true)
  | .stop .mark | .closeQueues => Stopped w signalled
  | _ => Manageable w

/-- How many steps the disposal has still to take, at most. -/
def UserPc.disposals : UserPc → ℕ
  | .disposing k _ rest _ => 10 * rest.length + DisposeStep.rank k
  | _ => 0

section

variable [DecidableEq ι] {s t : State ι} {e : Event ι} {i : ι} {r : Ref} {job : Registration}

def watch (w : Watched ι) (e : Event ι) : Watched ι := ⟨next w.state e, signal w.signalled e⟩

def Seen (w : Watched ι) (e : Event ι) (v : Watched ι) : Prop :=
  Enabled w.state e ∧ v = watch w e

/-! ## The workers of a registration -/

/-- Nobody but thread `i` has to do with the worker. -/
structure Secret (i : ι) (s : State ι) (r : Ref) : Prop where
  allocated : r < s.pool.nextRef
  outside : ¬ InTable s.pool r
  open_handle : SupervisorPc.mayClose s.supervisor ≠ some r
  foreign : ∀ j, j ≠ i → r ∉ UserPc.owned (s.user j)

omit [DecidableEq ι] in
theorem job_secret (hi : Invariant s) (hj : UserPc.job (s.user i) = some job)
    (hr : r ∈ job.workers) : Secret i s r := by
  have hown : r ∈ UserPc.owned (s.user i) := by
    rw [job_owned hj]
    exact hr
  obtain ⟨hlt, hout⟩ := hi.outside i r hown
  constructor
  · exact hlt
  · exact hout
  · intro hc
    exact (hi.known r (restarts_refs (mayClose_restarts hc))).2 i job hj hr
  · intro j hne hmem
    exact hne (hi.disjoint j i r hmem hown)

theorem Secret.frame (hi : Invariant s) (hs : Secret i s r) (he : Enabled s e)
    (hown : ∀ job, UserPc.job (s.user i) = some job → e ≠ .publish i job) :
    Secret i (next s e) r := by
  constructor
  · exact lt_of_lt_of_le hs.allocated (nextRef_frame hi.consistent)
  · intro hin
    rcases inTable_next hi he hin with hin | ⟨j, job, rfl, hj, hr⟩
    · exact hs.outside hin
    · by_cases hji : j = i
      · subst hji
        exact hown job hj rfl
      · apply hs.foreign j hji
        rw [job_owned hj]
        exact hr
  · intro hc
    rcases mayClose_next he hc with hold | ⟨rd, o, rfl, hskip⟩
    · exact hs.open_handle hold
    · rw [skips_outside hs.outside] at hskip
      cases hskip
  · intro j hne hmem
    rcases owned_next he hi.consistent hmem with hold | ⟨-, -, hfresh | hin⟩
    · exact hs.foreign j hne hold
    · exact absurd hs.allocated (Nat.not_lt.mpr hfresh)
    · exact hs.outside hin

/-- Others leave the handle alone. -/
theorem Secret.handle (hi : Invariant s) (hs : Secret i s r) (he : Enabled s e)
    (ha : Event.actor e ≠ .user i) {h : Process}
    (hx : ((next s e).pool.heap r).process = some h) :
    (s.pool.heap r).process = some h ∨ (s.pool.heap r).process = some .running ∧ h = .exited := by
  apply handle_frame hi he hs.allocated hs.outside _ (fun _ _ => hs.open_handle) hx
  intro j hj
  apply hs.foreign j
  rintro rfl
  exact ha hj

theorem Secret.manageable (hi : Invariant s) (hs : Secret i s r) (he : Enabled s e)
    (ha : Event.actor e ≠ .user i) (hm : Manageable (s.pool.heap r)) :
    Manageable ((next s e).pool.heap r) := by
  intro h hx
  rcases hs.handle hi he ha hx with hold | ⟨-, rfl⟩
  · exact hm h hold
  · exact .inr rfl

theorem Secret.stopped {k : Bool} (hi : Invariant s) (hs : Secret i s r) (he : Enabled s e)
    (ha : Event.actor e ≠ .user i) (hm : Stopped (s.pool.heap r) k) :
    Stopped ((next s e).pool.heap r) k := by
  intro h hx
  rcases hs.handle hi he ha hx with hold | ⟨hold, rfl⟩
  · exact hm h hold
  · rcases hm .running hold with hc | ⟨hk, -⟩
    · cases hc
    · exact .inr ⟨hk, .inr rfl⟩

/-- Until one of them fails to start, the workers of a registration have no handle or one that
answers. -/
theorem job_manageable (h : Reachable s) (hj : UserPc.job (s.user i) = some job)
    (hr : r ∈ job.workers) : Manageable (s.pool.heap r) := by
  have all : ∀ i job, UserPc.job (s.user i) = some job →
      ∀ r ∈ job.workers, Manageable (s.pool.heap r) := by
    refine Transitions.System.invariant_reachable (P := fun s : State ι => ∀ i job,
      UserPc.job (s.user i) = some job → ∀ r ∈ job.workers, Manageable (s.pool.heap r)) ?_ ?_ h
    · rintro s ⟨registry, groups, p, pipe, logs, -, -, rfl⟩ i job hj
      cases hj
    · rintro s e t hs ih ⟨he, rfl⟩ i job hj r hr
      have hi := reachable_invariant hs
      rcases job_next he hj with hold | ⟨group, names, rfl, hpc, -, rfl, hpool⟩
      · have hm := ih i job hold r hr
        by_cases ha : Event.actor e = .user i
        · cases e <;> simp only [Event.actor, Actor.user.injEq, reduceCtorEq] at ha <;> subst ha <;>
            simp only [Enabled] at he
          case ensure =>
            simp only [next, ensureNext]
            split <;> exact hm
          case launch i job' r' rest o =>
            simp only [next, launchNext] at hj ⊢
            split at hj
            · rename_i ho
              subst ho
              by_cases hr' : r = r'
              · subst hr'
                intro x hx
                simp only [↓reduceIte, setUser_pool, modify_pool, modify_heap, Function.update_self,
                  launchWorker, Option.some.injEq] at hx
                exact .inl hx.symm
              · simpa [hr'] using hm
            · simp at hj
          case awaitReady i job' r' rest o =>
            simp only [next, awaitReadyNext]
            split
            · exact hm
            · by_cases hr' : r = r'
              · subst hr'
                intro x hx
                apply hm x
                simpa using hx
              · simpa [hr'] using hm
            · exact hm
          case publish i job' =>
            simp only [next, publishNext] at hj
            split at hj <;> simp at hj
            cases hj
          all_goals
            first
              | (rw [he] at hold; cases hold)
              | (rw [he.1] at hold; cases hold)
              | (rw [resting_job he] at hold; cases hold)
              | (rw [resting_job he.1] at hold; cases hold)
        · exact (job_secret hi hold hr).manageable hi he ha hm
      · rw [hpool]
        obtain ⟨k, hk, rfl⟩ := List.mem_map.mp hr
        intro x hx
        simp [newWorkers, List.mem_range.mp hk, newWorker] at hx
  exact all i job hj r hr

/-- A worker's process has nothing to read that it was not sent as a worker of the table. -/
def Unused (s : State ι) (r : Ref) : Prop :=
  (s.pool.heap r).taskQueue = true → s.queues.unread r = []

omit [DecidableEq ι] in
theorem Unused.emptying (h : Unused s r) : Emptying s r := by
  intro hu
  rw [State.unjoined, Bool.and_eq_true] at hu
  rw [h hu.1, List.nil_append]
  unfold stopMessages
  split
  · exact s.queues.pipe.sentinel
  · exact s.queues.pipe.fewer _ _ (List.nil_sublist _) s.queues.pipe.sentinel

omit [DecidableEq ι] in
theorem Unused.kept (h : Unused s r) (hs : SameQueue s t r) : Unused t r := by
  intro ht
  refine List.sublist_nil.mp (h ?_ ▸ hs.queue.unread)
  by_contra hq
  rw [hs.shut (by simpa using hq)] at ht
  cases ht

/-- A launch gives the worker a new queue; no other step of the call puts anything on it. -/
theorem unused_own (hi : Invariant s) (hj : UserPc.job (s.user i) = some job)
    (hr : r ∈ job.workers) (he : Enabled s e) (ha : Event.actor e = .user i)
    (hu : Unused s r) : Unused (next s e) r := by
  have hs := job_secret hi hj hr
  by_cases hl : ∃ job' rest o, e = .launch i job' r rest o
  · obtain ⟨job', rest, o, rfl⟩ := hl
    intro hq
    have hheap : ((next s (.launch i job' r rest o)).pool.heap r).taskQueue =
        (launchWorker (s.pool.heap r) o).taskQueue := by
      simp only [next, launchNext]
      split <;> simp
    have hunread : (next s (.launch i job' r rest o)).queues.unread r =
        (s.queues.launch r o).unread r := by
      simp only [next, launchNext]
      split <;> rfl
    rw [hheap] at hq
    rw [hunread, TaskQueues.launch]
    split
    · rename_i ho
      subst ho
      exact hu hq
    · simp
  · refine hu.kept (same_queue hi.consistent hs.allocated (fun hin => absurd hin hs.outside) ?_ ?_)
    · rintro j job' rest o rfl
      have hji : j = i := by simpa [Event.actor] using ha
      subst hji
      exact hl ⟨job', rest, o, rfl⟩
    · intro hsig
      unfold Event.signals at hsig
      split at hsig <;> cases hsig
      · rename_i j rest
        have hji : j = i := by simpa [Event.actor] using ha
        subst hji
        rw [show s.user j = _ from he] at hj
        cases hj
      · rename_i j rest a
        have hji : j = i := by simpa [Event.actor] using ha
        subst hji
        rw [he.1] at hj
        cases hj

/-- So it is with the workers of a registration. -/
theorem job_unused (h : Reachable s) (hj : UserPc.job (s.user i) = some job)
    (hr : r ∈ job.workers) : Unused s r := by
  have all : ∀ i job, UserPc.job (s.user i) = some job → ∀ r ∈ job.workers, Unused s r := by
    refine Transitions.System.invariant_reachable (P := fun s : State ι => ∀ i job,
      UserPc.job (s.user i) = some job → ∀ r ∈ job.workers, Unused s r) ?_ ?_ h
    · rintro s ⟨registry, groups, p, pipe, logs, -, -, rfl⟩ i job hj
      cases hj
    · rintro s e t hs ih ⟨he, rfl⟩ i job hj r hr
      have hi := reachable_invariant hs
      rcases job_next he hj with hold | ⟨group, names, rfl, hpc, -, rfl, hpool⟩
      · have hown : r ∈ UserPc.owned (s.user i) := by
          rw [job_owned hold]
          exact hr
        by_cases ha : Event.actor e = .user i
        · exact unused_own hi hold hr he ha (ih i job hold r hr)
        · exact (ih i job hold r hr).kept (owned_queue hi he ha hown)
      · intro hq
        rw [hpool] at hq
        obtain ⟨k, hk, rfl⟩ := List.mem_map.mp hr
        simp [newWorkers, List.mem_range.mp hk, newWorker] at hq
  exact all i job hj r hr

/-! ## The disposal -/

/-- The disposal of the workers of a failed registration is under way. -/
structure Unwinding (i : ι) (job : Registration) (x : Raised) (w : Watched ι) : Prop where
  reachable : Reachable w.state
  distinct : job.workers.Nodup
  secret : ∀ r ∈ job.workers, Secret i w.state r
  flowing : Flowing i w.state
  midway : ∃ k r rest done, w.state.user i = .disposing k r rest (.raise x) ∧
    job.workers = done ++ r :: rest ∧
    (∀ r' ∈ done, Stopped (w.state.pool.heap r') (w.signalled r')) ∧
    Midway (w.state.pool.heap r) (w.signalled r) k ∧
    ∀ r' ∈ rest, Manageable (w.state.pool.heap r')

/-- The call has raised `x`, and every process it had started is stopped. -/
def Unwound (i : ι) (job : Registration) (x : Raised) (w : Watched ι) : Prop :=
  w.state.user i = .raised x ∧
    ∀ r ∈ job.workers, Stopped (w.state.pool.heap r) (w.signalled r)

omit [DecidableEq ι] in
theorem Midway.kept {w v : WorkerState} {k : DisposeStep} {b : Bool} (h : Midway w b k)
    (hm : Manageable w → Manageable v) (hs : Stopped w b → Stopped v b)
    (hr : v.process = some .running → w.process = some .running) : Midway v b k := by
  unfold Midway at h ⊢
  split at h
  · exact ⟨hm h.1, h.2⟩
  · exact ⟨hm h.1, fun hv => h.2 (hr hv)⟩
  · exact hs h
  · exact hs h
  · exact hm h

omit [DecidableEq ι] in
/-- One operation of `_stop_process` on the worker. -/
theorem Midway.stop {w v : WorkerState} {k : StopStep} {k' : Option StopStep} {b : Bool}
    (h : Midway w b (.stop k)) (hv : stopProcess w k = .ok (v, k')) :
    Midway v (b || k == .terminate) (k'.elim .closeQueues .stop) := by
  have gone : ∀ {c}, w.process = none → Stopped w c := by
    intro c hp x hx
    rw [hp] at hx
    cases hx
  cases k with
  | close =>
    cases hv
    intro x hx
    obtain ⟨y, hy, rfl⟩ := Option.map_eq_some_iff.mp hx
    rcases h.1 y hy with rfl | rfl
    · exact .inr ⟨by simp [h.2 hy], .inl rfl⟩
    · exact .inl rfl
  | mark =>
    cases hv
    intro x hx
    simpa using h x hx
  | join =>
    have hm : Manageable w := h
    cases hp : w.process with
    | none =>
      simp only [stopProcess, hp] at hv
      cases hv
      exact gone hp
    | some y =>
      simp only [stopProcess, hp] at hv
      rcases hm y hp with rfl | rfl <;> cases hv <;> exact hm
  | probe =>
    have hm : Manageable w := h
    cases hp : w.process with
    | none =>
      simp only [stopProcess, hp] at hv
      cases hv
      exact gone hp
    | some y =>
      simp only [stopProcess, hp] at hv
      rcases hm y hp with rfl | rfl <;> cases hv
      · exact hm
      · refine ⟨hm, ?_⟩
        intro hrun
        rw [hp] at hrun
        cases hrun
  | terminate =>
    have hm : Manageable w := h
    cases hp : w.process with
    | none =>
      simp only [stopProcess, hp] at hv
      cases hv
      exact gone hp
    | some y =>
      simp only [stopProcess, hp] at hv
      rcases hm y hp with rfl | rfl <;> cases hv <;> exact ⟨hm, by simp⟩
  | rejoin =>
    obtain ⟨hm, hb⟩ := h
    cases hp : w.process with
    | none =>
      simp only [stopProcess, hp] at hv
      cases hv
      exact gone hp
    | some y =>
      simp only [stopProcess, hp] at hv
      rcases hm y hp with rfl | rfl <;> cases hv <;> exact ⟨hm, fun _ => by simp [hb]⟩

theorem Unwinding.owned_nodup {x : Raised} {w : Watched ι} (hu : Unwinding i job x w) :
    (UserPc.owned (w.state.user i)).Nodup := by
  obtain ⟨k, r, rest, done, hpc, hjob, -⟩ := hu.midway
  have hdistinct := hu.distinct
  rw [hjob] at hdistinct
  rw [hpc]
  exact (List.nodup_append.mp hdistinct).2.1

theorem unwinding_frame {x : Raised} {w : Watched ι} (hu : Unwinding i job x w)
    (he : Enabled w.state e) (hown : ¬ unloads i e) : Unwinding i job x (watch w e) ∧
      UserPc.disposals ((watch w e).state.user i) = UserPc.disposals (w.state.user i) := by
  obtain ⟨hreach, hdistinct, hsecret, hflow, k, r, rest, done, hpc, hjob, hdone, hmid, hrest⟩ := hu
  have hi := reachable_invariant hreach
  have ha : Event.actor e ≠ .user i := by
    intro ha
    apply hown
    cases e <;> simp only [Event.actor, Actor.user.injEq, reduceCtorEq] at ha <;> subst ha <;>
      simp only [Enabled] at he <;> first
      | rfl
      | (rw [he] at hpc; cases hpc)
      | (rw [he.1] at hpc; cases hpc)
      | (rw [hpc] at he; cases he.1)
      | (rw [hpc] at he; cases he)
  have huser : (watch w e).state.user i = w.state.user i := user_frame ha
  have hsignal : ∀ r' ∈ job.workers, (watch w e).signalled r' = w.signalled r' := by
    intro r' hr'
    simp only [watch]
    unfold signal
    split
    · rename_i j r'' rest' a
      by_cases hr : r' = r''
      · subst hr
        have hne : j ≠ i := by
          rintro rfl
          exact ha rfl
        have hmem : r' ∈ UserPc.owned (w.state.user j) := by
          rw [he.1]
          exact List.mem_cons_self ..
        exact absurd hmem ((hsecret r' hr').foreign j hne)
      · simp [hr]
    · rfl
  have hmem : ∀ r', r' ∈ done ∨ r' = r ∨ r' ∈ rest → r' ∈ job.workers := by
    intro r' hr'
    rw [hjob]
    simpa using hr'
  refine ⟨⟨hreach.next (S := system ι) ⟨he, rfl⟩, hdistinct, ?_, flowing_frame hi he ha hflow,
    k, r, rest, done, huser.trans hpc, hjob, ?_, ?_, ?_⟩, by rw [huser]⟩
  · intro r' hr'
    apply (hsecret r' hr').frame hi he
    intro job' hj
    rw [hpc] at hj
    cases hj
  · intro r' hr'
    rw [hsignal r' (hmem r' (.inl hr'))]
    exact (hsecret r' (hmem r' (.inl hr'))).stopped hi he ha (hdone r' hr')
  · have hin := hmem r (.inr (.inl rfl))
    rw [hsignal r hin]
    apply hmid.kept ((hsecret r hin).manageable hi he ha) ((hsecret r hin).stopped hi he ha)
    intro hrun
    rcases (hsecret r hin).handle hi he ha hrun with hold | ⟨-, hc⟩
    · exact hold
    · cases hc
  · intro r' hr'
    exact (hsecret r' (hmem r' (.inr (.inr hr')))).manageable hi he ha (hrest r' hr')

/-- The worker at hand is none of those done or to come. -/
theorem hand_apart {done rest : List Ref} (hn : (done ++ r :: rest).Nodup) {r' : Ref}
    (hr' : r' ∈ done ∨ r' ∈ rest) : r' ≠ r := by
  obtain ⟨-, hcons, hne⟩ := List.nodup_append.mp hn
  rintro rfl
  rcases hr' with hr' | hr'
  · exact hne r' hr' r' (List.mem_cons_self ..) rfl
  · exact (List.nodup_cons.mp hcons).1 hr'

/-- A step that stays at worker `r` and changes nothing of the others. -/
theorem unwinding_stays {x : Raised} {w v : Watched ι} {k k' : DisposeStep} {rest : List Ref}
    (hu : Unwinding i job x w) (hpc : w.state.user i = .disposing k r rest (.raise x))
    (hreach : Reachable v.state) (hsecret : ∀ r' ∈ job.workers, Secret i v.state r')
    (hflow : Flowing i v.state)
    (huser : v.state.user i = .disposing k' r rest (.raise x))
    (hmid : Midway (v.state.pool.heap r) (v.signalled r) k')
    (hother : ∀ r' ≠ r, v.state.pool.heap r' = w.state.pool.heap r' ∧
      v.signalled r' = w.signalled r')
    (hlt : DisposeStep.rank k' < DisposeStep.rank k) :
    Unwinding i job x v ∧
      UserPc.disposals (v.state.user i) < UserPc.disposals (w.state.user i) := by
  obtain ⟨-, hdistinct, -, -, k₀, r₀, rest₀, done, hpc₀, hjob, hdone, -, hrest⟩ := hu
  rw [hpc] at hpc₀
  cases hpc₀
  have apart : ∀ r', r' ∈ done ∨ r' ∈ rest → r' ≠ r := by
    intro r' hr'
    rw [hjob] at hdistinct
    exact hand_apart hdistinct hr'
  refine ⟨⟨hreach, hdistinct, hsecret, hflow, k', r, rest, done, huser, hjob, ?_, hmid, ?_⟩, ?_⟩
  · intro r' hr'
    obtain ⟨hheap, hsig⟩ := hother r' (apart r' (.inl hr'))
    rw [hheap, hsig]
    exact hdone r' hr'
  · intro r' hr'
    rw [(hother r' (apart r' (.inr hr'))).1]
    exact hrest r' hr'
  · rw [huser, hpc]
    simp only [UserPc.disposals]
    omega

/-- Worker `r` is done with: the disposal goes on to the next, or the call is over. -/
theorem unwinding_moves {x : Raised} {w v : Watched ι} {k : DisposeStep} {rest : List Ref}
    (hu : Unwinding i job x w) (hpc : w.state.user i = .disposing k r rest (.raise x))
    (hreach : Reachable v.state) (hsecret : ∀ r' ∈ job.workers, Secret i v.state r')
    (hflow : Flowing i v.state)
    (huser : v.state.user i = disposeFrom rest (.raise x))
    (hstopped : Stopped (v.state.pool.heap r) (v.signalled r))
    (hother : ∀ r' ≠ r, v.state.pool.heap r' = w.state.pool.heap r' ∧
      v.signalled r' = w.signalled r') :
    Unwound i job x v ∨ Unwinding i job x v ∧
      UserPc.disposals (v.state.user i) < UserPc.disposals (w.state.user i) := by
  obtain ⟨-, hdistinct, -, -, k₀, r₀, rest₀, done, hpc₀, hjob, hdone, -, hrest⟩ := hu
  rw [hpc] at hpc₀
  cases hpc₀
  have apart : ∀ r', r' ∈ done ∨ r' ∈ rest → r' ≠ r := by
    intro r' hr'
    rw [hjob] at hdistinct
    exact hand_apart hdistinct hr'
  have hfinished : ∀ r' ∈ done ++ [r], Stopped (v.state.pool.heap r') (v.signalled r') := by
    intro r' hr'
    rcases List.mem_append.mp hr' with hr' | hr'
    · obtain ⟨hheap, hsig⟩ := hother r' (apart r' (.inl hr'))
      rw [hheap, hsig]
      exact hdone r' hr'
    · rw [List.mem_singleton.mp hr']
      exact hstopped
  cases rest with
  | nil =>
    left
    refine ⟨huser, ?_⟩
    rw [hjob]
    exact hfinished
  | cons r₂ rest =>
    right
    refine ⟨⟨hreach, hdistinct, hsecret, hflow, .mark, r₂, rest, done ++ [r], huser, ?_,
      hfinished, ?_, ?_⟩, ?_⟩
    · rw [hjob, List.append_assoc]
      rfl
    · rw [(hother r₂ (apart r₂ (.inr (List.mem_cons_self ..)))).1]
      exact hrest r₂ (List.mem_cons_self ..)
    · intro r' hr'
      rw [(hother r' (apart r' (.inr (List.mem_cons_of_mem _ hr')))).1]
      exact hrest r' (List.mem_cons_of_mem _ hr')
    · rw [huser, hpc]
      simp only [disposeFrom, UserPc.disposals, DisposeStep.rank, List.length_cons]
      omega

/-- Each step of the disposal takes it on, and the last one ends the call. -/
theorem unwinding_next {x : Raised} {w : Watched ι} (hu : Unwinding i job x w)
    (he : Enabled w.state e) (hown : unloads i e) :
    Unwound i job x (watch w e) ∨ Unwinding i job x (watch w e) ∧
      UserPc.disposals ((watch w e).state.user i) < UserPc.disposals (w.state.user i) := by
  have hreach : Reachable (watch w e).state := hu.reachable.next (S := system ι) ⟨he, rfl⟩
  obtain ⟨k, r, rest, done, hpc, -, -, hmid, -⟩ := hu.midway
  have hen := he
  have hsecret : ∀ r' ∈ job.workers, Secret i (watch w e).state r' := by
    intro r' hr'
    apply (hu.secret r' hr').frame (reachable_invariant hu.reachable) he
    intro job' hj
    rw [hpc] at hj
    cases hj
  cases e <;> simp only [unloads] at hown <;> subst hown <;> simp only [Enabled, hpc] at he
  case fail => cases he
  case dispose i k' r' rest' a =>
    cases he.1
    have hflow := hu.flowing.disposed hen hu.owned_nodup
    cases k with
    | mark =>
      right
      apply unwinding_stays hu hpc hreach hsecret hflow setUser_self
      · intro h hx
        apply hmid h
        simpa [watch, next, disposeNext] using hx
      · intro r' hr'
        simp [watch, next, disposeNext, signal, hr']
      · decide
    | probe =>
      right
      have hask : ∀ y, (w.state.pool.heap r).process.map Process.isAlive ≠ some (.error y) := by
        intro y hy
        obtain ⟨h, hp, hx⟩ := Option.map_eq_some_iff.mp hy
        rcases hmid h hp with rfl | rfl <;> cases hx
      have hstep : next w.state (.dispose i .probe r rest (.raise x)) =
          { w.state with
            queues := w.state.queues.sendStop r (w.state.pool.heap r) }.setUser i
              (.disposing (.stop .join) r rest (.raise x)) := by
        simp only [next, disposeNext]
      refine unwinding_stays hu hpc hreach hsecret hflow
        (?_ : _ = UserPc.disposing (.stop .join) r rest (.raise x)) ?_ ?_ ?_
      · simp only [watch, hstep, setUser_self]
      · simp only [watch, hstep]
        exact hmid
      · intro r' hr'
        simp [watch, hstep, signal]
      · decide
    | stop k =>
      right
      have hok : k = .close ∨ k = .mark ∨ Manageable (w.state.pool.heap r) := by
        cases k with
        | close => exact .inl rfl
        | mark => exact .inr (.inl rfl)
        | rejoin => exact .inr (.inr hmid.1)
        | join | probe | terminate => exact .inr (.inr hmid)
      obtain ⟨v, k', hv⟩ := stopProcess_succeeds hok
      have hstep : next w.state (.dispose i (.stop k) r rest (.raise x)) =
          (w.state.modify r fun _ => v).setUser i
            (.disposing (k'.elim .closeQueues .stop) r rest (.raise x)) := by
        simp only [next, disposeNext, hv]
      have hsig : ∀ r', signal w.signalled (.dispose i (.stop k) r rest (.raise x)) r' =
          if r' = r then w.signalled r || k == .terminate else w.signalled r' := by
        intro r'
        by_cases hr' : r' = r
        · subst hr'
          cases k <;> simp [signal]
        · cases k <;> simp [signal, hr']
      refine unwinding_stays hu hpc hreach hsecret hflow
        (?_ : _ = UserPc.disposing (k'.elim .closeQueues .stop) r rest (.raise x)) ?_ ?_ ?_
      · simp only [watch, hstep, setUser_self]
      · have hmid' := hmid.stop hv
        simpa [watch, hstep, hsig] using hmid'
      · intro r' hr'
        simp [watch, hstep, hsig, hr']
      · cases k' with
        | none => cases k <;> decide
        | some k' =>
          have := stopProcess_rank hv
          simp only [Option.elim_some, DisposeStep.rank]
          omega
    | closeQueues =>
      apply unwinding_moves hu hpc hreach hsecret hflow setUser_self
      · intro h hx
        apply hmid h
        simpa [watch, next, disposeNext] using hx
      · intro r' hr'
        simp [watch, next, disposeNext, signal, hr']

/-! ## A step that fails -/

omit [DecidableEq ι] in
theorem stopProcess_raises {w : WorkerState} {k : StopStep} {y : Raised}
    (h : stopProcess w k = .error y) (pe : PlatformError) : y ≠ .platform pe := by
  cases hp : w.process with
  | none => cases k <;> simp only [stopProcess, hp] at h <;> cases h
  | some x =>
    cases k <;> cases x <;> simp only [stopProcess, hp] at h <;> cases h <;> intro hc <;> cases hc

/-- The disposal raised, or will, and no platform error. -/
def Stuck (i : ι) (w : Watched ι) : Prop :=
  ((∃ x, w.state.user i = .raised x) ∨ Unanswered i w.state) ∧
    ∀ y, w.state.user i = .raised y → ∀ pe, y ≠ .platform pe

theorem stuck_next {w : Watched ι} (hd : Stuck i w) (he : Enabled w.state e) (hown : unloads i e) :
    Stuck i (watch w e) := by
  rcases hd.1 with ⟨x, hx⟩ | hs
  · cases e <;> simp only [unloads] at hown <;> subst hown <;>
      simp only [Enabled, hx, reduceCtorEq, false_and] at he
  refine ⟨unanswered_next hs he hown, ?_⟩
  obtain ⟨-, r, hr, -⟩ := hs
  cases e <;> simp only [unloads] at hown <;> subst hown <;> simp only [Enabled] at he
  case fail => rw [he] at hr; cases hr
  case dispose i k r' rest a =>
    rw [he.1] at hr
    intro y hy
    cases k with
    | mark =>
      simp only [watch, next, disposeNext, setUser_self] at hy
      cases hy
    | probe =>
      simp only [watch, next, disposeNext] at hy
      split at hy
      · rename_i z hz
        simp only [setUser_self] at hy
        cases hy
        obtain ⟨p, -, hp⟩ := Option.map_eq_some_iff.mp hz
        cases p <;> cases hp
        intro pe hc
        cases hc
      · simp only [setUser_self] at hy
        cases hy
    | stop k =>
      simp only [watch, next, disposeNext] at hy
      split at hy
      · rename_i z hz
        simp only [setUser_self] at hy
        cases hy
        exact stopProcess_raises hz
      · rename_i v k' hz
        simp only [setUser_self] at hy
        cases hy
    | closeQueues =>
      simp only [watch, next, disposeNext, setUser_self] at hy
      cases rest with
      | nil => cases hr
      | cons r₂ rest => cases hy

omit [DecidableEq ι] in
theorem registering_nodup (hi : Invariant s) (hj : UserPc.job (s.user i) = some job) :
    job.workers.Nodup ∧ job.workers ≠ [] := by
  obtain ⟨base, hw, -⟩ := (hi.jobs i job hj).fresh.refs
  rw [hw]
  constructor
  · apply List.Nodup.map _ List.nodup_range
    intro a b hab
    exact Nat.add_left_cancel hab
  · intro hnil
    have := congrArg List.length hnil
    simp at this
    have := job.group.process_pos
    omega

/-- A registration fails in a launch, in a wait for READY or at publication. -/
theorem failing_step (hi : Invariant s) (hj : UserPc.job (s.user i) = some job)
    (he : Enabled s e) (ha : Event.actor e = .user i) {x : Raised}
    (hfail : (next s e).user i = disposeFrom job.workers (.raise x)) :
    (∃ pe, x = .platform pe) ∧
    ((∃ r rest o, e = .launch i job r rest o ∧ o ≠ .started ∧ r ∈ job.workers ∧
        (next s e).pool = s.pool.modify r (launchWorker · o)) ∨
      (∃ r rest o, e = .awaitReady i job r rest o ∧ (next s e).pool = s.pool) ∨
      e = .publish i job ∧ (next s e).pool = s.pool) := by
  obtain ⟨r₀, l, hcons⟩ := List.exists_cons_of_ne_nil (registering_nodup hi hj).2
  have hdispose : ∀ y, disposeFrom job.workers (.raise y) = .disposing .mark r₀ l (.raise y) := by
    intro y
    rw [hcons]
    rfl
  have launching : ∀ m, launchFrom job m ≠ .disposing .mark r₀ l (.raise x) := by
    intro m
    cases m with
    | nil =>
      unfold launchFrom
      cases job.workers <;> intro hc <;> cases hc
    | cons => intro hc; cases hc
  have awaiting : ∀ m, awaitFrom job m ≠ .disposing .mark r₀ l (.raise x) := by
    intro m
    cases m <;> intro hc <;> cases hc
  rw [hdispose] at hfail
  cases e <;> simp only [Event.actor, Actor.user.injEq, reduceCtorEq] at ha <;> subst ha <;>
    simp only [Enabled] at he
  case ensure i job' =>
    rw [he] at hj
    cases hj
    simp only [next, ensureNext] at hfail
    split at hfail
    · rw [setUser_self] at hfail
      cases hfail
    · rw [setUser_self] at hfail
      exact absurd hfail (launching _)
  case launch i job' r rest o =>
    have hmem : r ∈ job.workers := by
      apply (hi.jobs i job hj).pending
      rw [he]
      exact List.mem_cons_self ..
    rw [he] at hj
    cases hj
    simp only [next, launchNext] at hfail ⊢
    split at hfail
    · rw [setUser_self] at hfail
      exact absurd hfail (launching _)
    · rename_i ho
      rw [setUser_self, hdispose] at hfail
      cases hfail
      refine ⟨⟨_, rfl⟩, .inl ⟨r, rest, o, rfl, ho, hmem, ?_⟩⟩
      rw [if_neg ho]
      rfl
  case awaitReady i job' r rest o =>
    obtain ⟨he, -⟩ := he
    rw [he] at hj
    cases hj
    simp only [next, awaitReadyNext] at hfail ⊢
    split at hfail
    · rename_i y hy
      rw [setUser_self, hdispose] at hfail
      cases hfail
      exact ⟨⟨_, rfl⟩, .inr (.inl ⟨r, rest, o, rfl, rfl⟩)⟩
    · rw [setUser_self] at hfail
      exact absurd hfail (awaiting _)
    · rw [he] at hfail
      cases hfail
  case publish i job' =>
    rw [he] at hj
    cases hj
    simp only [next, publishNext] at hfail ⊢
    split at hfail
    · rename_i y hy
      rw [setUser_self, hdispose] at hfail
      cases hfail
      refine ⟨?_, .inr (.inr ⟨trivial, rfl⟩)⟩
      unfold ensureGroupCanBeRegisteredLocked at hy
      split at hy
      · cases hy
        exact ⟨_, rfl⟩
      · split at hy
        · cases hy
          exact ⟨_, rfl⟩
        · cases hy
    · rw [setUser_self] at hfail
      cases hfail
  all_goals
    first
      | (rw [he] at hj; cases hj)
      | (rw [he.1] at hj; cases hj)
      | (rw [resting_job he] at hj; cases hj)
      | (rw [resting_job he.1] at hj; cases hj)

/-- Until it publishes, the call leaves the tables as they are. -/
theorem registration_tables (hi : Invariant s) (hj : UserPc.job (s.user i) = some job)
    (he : Enabled s e) (ha : Event.actor e = .user i) (hret : (next s e).user i ≠ .returned) :
    SameTables s.pool (next s e).pool := by
  cases e
  case publish j job' =>
    have hji : j = i := by simpa [Event.actor] using ha
    subst hji
    simp only [next, publishNext] at hret ⊢
    split
    · exact ⟨rfl, rfl, rfl, rfl⟩
    · rename_i hok
      rw [hok] at hret
      exact absurd setUser_self hret
  case unregisterCall j g =>
    have hji : j = i := by simpa [Event.actor] using ha
    subst hji
    rw [resting_job he] at hj
    cases hj
  all_goals exact tables_frame hi.consistent.books rfl

/-- A process that failed to start is never joined, and the call never raises its own error. -/
theorem failed_start_stuck {r : Ref} {rest : List Ref} {x : Raised} (h : Reachable s)
    (hj : UserPc.job (s.user i) = some job) (he : Enabled s (.launch i job r rest .startRaises))
    (hfail : (next s (.launch i job r rest .startRaises)).user i =
      disposeFrom job.workers (.raise x)) :
    ¬ Finishes Seen (unloads i) (Unwound i job x)
      ⟨next s (.launch i job r rest .startRaises), fun _ => false⟩ := by
  have hi := reachable_invariant h
  obtain ⟨⟨pe, rfl⟩, hstep⟩ := failing_step hi hj he rfl hfail
  obtain ⟨hnodup, hne⟩ := registering_nodup hi hj
  obtain ⟨r₀, l, hcons⟩ := List.exists_cons_of_ne_nil hne
  have hpc : (next s (.launch i job r rest .startRaises)).user i =
      .disposing .mark r₀ l (.raise (.platform pe)) := by
    rw [hfail, hcons]
    rfl
  apply Finishes.not_of_stays (D := Stuck i)
  · rintro w ⟨-, hw⟩ ⟨hr, -⟩
    exact hw _ hr pe rfl
  · rintro w e v hw hown ⟨hen, rfl⟩
    exact stuck_next hw hen hown
  · refine ⟨.inr (?_ : Unanswered i (next s (.launch i job r rest .startRaises))), ?_⟩
    · constructor <;> rw [hpc]
      · rw [hcons] at hnodup
        exact hnodup
      rcases hstep with ⟨r', rest', o, heq, -, hmem, hpool⟩ | ⟨_, _, _, heq, -⟩ | ⟨heq, -⟩
      · cases heq
        rw [hcons] at hmem
        refine ⟨r, hmem, .unstarted, ?_, ?_⟩
        · rw [hpool]
          simp [launchWorker]
        · rintro (hc | hc) <;> cases hc
      · cases heq
      · cases heq
    · intro y hy
      change (next s (.launch i job r rest .startRaises)).user i = .raised y at hy
      rw [hpc] at hy
      cases hy

/-- Any other failure leaves workers that can be stopped. -/
theorem failed_manageable (h : Reachable s) (hj : UserPc.job (s.user i) = some job)
    (he : Enabled s e) (ha : Event.actor e = .user i) {x : Raised}
    (hfail : (next s e).user i = disposeFrom job.workers (.raise x))
    (hstart : ∀ r rest, e ≠ .launch i job r rest .startRaises) {r : Ref} (hr : r ∈ job.workers) :
    Manageable ((next s e).pool.heap r) := by
  have hm := job_manageable h hj hr
  rcases (failing_step (reachable_invariant h) hj he ha hfail).2 with
    ⟨r', rest, o, rfl, ho, -, hpool⟩ | ⟨_, _, _, -, hpool⟩ | ⟨-, hpool⟩
  · rw [hpool]
    by_cases hr' : r = r'
    · subst hr'
      intro y hy
      apply hm y
      cases o with
      | started => exact absurd rfl ho
      | startRaises => exact absurd rfl (hstart r rest)
      | setupRaises | queueRaises => simpa [launchWorker] using hy
    · simpa [hr'] using hm
  · rw [hpool]
    exact hm
  · rw [hpool]
    exact hm

/-- The call's own step keeps its workers to itself. -/
theorem secret_own (hi : Invariant s) (hj : UserPc.job (s.user i) = some job) (he : Enabled s e)
    (ha : Event.actor e = .user i) (hret : (next s e).user i ≠ .returned) {r : Ref}
    (hr : r ∈ job.workers) : Secret i (next s e) r := by
  have hs := job_secret hi hj hr
  constructor
  · exact lt_of_lt_of_le hs.allocated (nextRef_frame hi.consistent)
  · rw [(registration_tables hi hj he ha hret).inTable]
    exact hs.outside
  · rw [supervisor_frame (by rw [ha]; intro hc; cases hc)]
    exact hs.open_handle
  · intro j hne
    rw [user_frame (by rw [ha]; intro hc; cases hc; exact hne rfl)]
    exact hs.foreign j hne

theorem failed_registration_unwinds (h : Reachable s) (hj : UserPc.job (s.user i) = some job)
    (he : Enabled s e) (ha : Event.actor e = .user i) {x : Raised}
    (hfail : (next s e).user i = disposeFrom job.workers (.raise x))
    (hstart : ∀ r rest, e ≠ .launch i job r rest .startRaises) :
    Finishes Seen (unloads i) (Unwound i job x) ⟨next s e, fun _ => false⟩ := by
  have hi := reachable_invariant h
  obtain ⟨hnodup, hne⟩ := registering_nodup hi hj
  obtain ⟨r₀, l, hcons⟩ := List.exists_cons_of_ne_nil hne
  have hpc : (next s e).user i = .disposing .mark r₀ l (.raise x) := by
    rw [hfail, hcons]
    rfl
  have hsecret : ∀ r ∈ job.workers, Secret i (next s e) r := fun r hr =>
    secret_own hi hj he ha (by rw [hpc]; intro hc; cases hc) hr
  have hmanage : ∀ r ∈ job.workers, Manageable ((next s e).pool.heap r) := fun r hr =>
    failed_manageable h hj he ha hfail hstart hr
  have hflow : Flowing i (next s e) := by
    have hunused : ∀ r ∈ job.workers, Unused (next s e) r := fun r hr =>
      unused_own hi hj hr he ha (job_unused h hj hr)
    intro r hr
    rw [hfail, disposeFrom_owned] at hr
    have hun : r ∈ UserPc.unprobed ((next s e).user i) := by
      rw [hcons] at hr
      rw [hpc]
      exact hr
    rw [PoolUnload.UserPc.coming, if_pos hun]
    exact (hunused r hr).emptying
  apply Finishes.of_measure (B := Unwinding i job x)
    (fun w => UserPc.disposals (w.state.user i))
  · rintro w e v hw hown ⟨hen, rfl⟩
    exact (unwinding_frame hw hen hown).imp_right Eq.le
  · intro w hw
    obtain ⟨k, r, rest, -, hk, -⟩ := hw.midway
    exact ⟨.dispose i k r rest (.raise x), _, rfl, hw.flowing.enabled hk hw.owned_nodup, rfl⟩
  · rintro w e v hw hown ⟨hen, rfl⟩
    exact unwinding_next hw hen hown
  · refine ⟨h.next (S := system ι) ⟨he, rfl⟩, hnodup, hsecret, hflow, .mark, r₀, l, [], hpc, hcons,
      ?_, ?_, ?_⟩
    · intro r hr
      cases hr
    · exact hmanage r₀ (by rw [hcons]; exact List.mem_cons_self ..)
    · intro r hr
      exact hmanage r (by rw [hcons]; exact List.mem_cons_of_mem _ hr)

/-- Each step of a registration leaves the tables as they are, unless it publishes the group.
A step that fails, fails with a platform error; from there on the call stops every process it had started and
raises that error, whatever others do, exactly when it was not `Process.start` that failed. -/
theorem registration_unwinds (h : Reachable s) (hj : UserPc.job (s.user i) = some job)
    (he : Enabled s e) (ha : Event.actor e = .user i) :
    ((next s e).user i ≠ .returned → SameTables s.pool (next s e).pool) ∧
    ∀ x, (next s e).user i = disposeFrom job.workers (.raise x) →
      (∃ pe, x = .platform pe) ∧
      (Finishes Seen (unloads i) (Unwound i job x) ⟨next s e, fun _ => false⟩ ↔
        ∀ r rest, e ≠ .launch i job r rest .startRaises) ∧
      ∀ (u : State ι) e, unloads i e → SameTables u.pool (next u e).pool := by
  have hi := reachable_invariant h
  refine ⟨registration_tables hi hj he ha, fun x hfail => ⟨(failing_step hi hj he ha hfail).1,
    ⟨?_, failed_registration_unwinds h hj he ha hfail⟩, fun u e hown => (unload_tables hown).same⟩⟩
  rintro hfin r rest rfl
  exact failed_start_stuck h hj he hfail hfin

end

end RegistrationUnwind
