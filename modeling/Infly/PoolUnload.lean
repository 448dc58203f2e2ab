import Infly.PoolSettling
import Infly.PoolQueues

/-! # Unloading a group

`unregister_worker_group` takes the group's futures first and fails them after it has
disposed of every worker. A worker whose process handle cannot be queried ends the call
early, and a task queue that its feeder cannot empty holds it; then its futures are lost.
-/
namespace PoolUnload

open Contracts Config PoolState PoolTables PoolAccounting PoolGroups PoolModel PoolFrames
open PoolInvariant PoolDelivery PoolSettling PoolHandles PoolQueues Progress

/-! ## What the call depends on -/

/-- The workers whose handles a disposal has still to query or close. -/
def UserPc.stoppable : UserPc → List Ref
  | .disposing (.stop .mark) _ rest _ | .disposing .closeQueues _ rest _ => rest
  | .disposing _ r rest _ => r :: rest
  | _ => []

/-- The workers to which a disposal has still to send the stop message. -/
def UserPc.unprobed : UserPc → List Ref
  | .disposing .mark r rest _ | .disposing .probe r rest _ => r :: rest
  | .disposing _ _ rest _ => rest
  | _ => []

/-- The message that a disposal has still to put on the worker's queue. -/
def UserPc.coming (p : Pool) (pc : UserPc) (r : Ref) : List (Option TaskRequest) :=
  if r ∈ UserPc.unprobed pc then stopMessages (p.heap r) else []

/-- The error an unload reports to the futures it took. -/
def UserPc.error : UserPc → Option PlatformError
  | .disposing _ _ _ (.failFutures _ e) | .failing _ _ e => some e
  | _ => none

def DisposeStep.rank : DisposeStep → ℕ
  | .mark => 9
  | .probe => 8
  | .stop k => StopStep.rank k + 1
  | .closeQueues => 1

/-- How many steps the unload has still to take, at most. -/
def UserPc.rank : UserPc → ℕ
  | .disposing k _ rest (.failFutures futures _) =>
    10 * rest.length + DisposeStep.rank k + futures.length
  | .failing _ rest _ => rest.length + 1
  | _ => 0

variable {ι : Type}

/-- The steps of an unload after its locked section. -/
def unloads (i : ι) : Event ι → Prop
  | .dispose j _ _ _ _ | .fail j _ _ _ => j = i
  | _ => False

/-- The worker has no handle, or one that answers and that the supervisor will not close. -/
def Answers (s : State ι) (r : Ref) : Prop :=
  ∀ h, (s.pool.heap r).process = some h →
    h.Usable ∧ SupervisorPc.mayClose s.supervisor ≠ some r

instance (s : State ι) (r : Ref) : Decidable (Answers s r) :=
  decidable_of_iff
    (∀ h ∈ (s.pool.heap r).process, h.Usable ∧ SupervisorPc.mayClose s.supervisor ≠ some r) Iff.rfl

/-- And the pipe would take what is unread in its task queue. -/
abbrev Disposable (s : State ι) (r : Ref) : Prop := Answers s r ∧ Emptying s r

/-- No task queue will hold the disposal. -/
def Flowing (i : ι) (s : State ι) : Prop :=
  ∀ r ∈ UserPc.owned (s.user i), Joinable s r (UserPc.coming s.pool (s.user i) r)

structure Unloading [DecidableEq ι] (i : ι) (futures : List FutureId) (x : PlatformError)
    (s : State ι) : Prop where
  reachable : Reachable s
  error : UserPc.error (s.user i) = some x
  distinct : (UserPc.owned (s.user i)).Nodup
  answers : ∀ r ∈ UserPc.stoppable (s.user i), Answers s r
  flowing : Flowing i s
  futures : ∀ f ∈ futures, f ∈ UserPc.holding (s.user i) ∨ s.history.resolutions f = [.error x]

theorem stoppable_owned {pc : UserPc} {r : Ref} (h : r ∈ UserPc.stoppable pc) :
    r ∈ UserPc.owned pc := by
  unfold UserPc.stoppable at h
  split at h
  · exact List.mem_cons_of_mem _ h
  · exact List.mem_cons_of_mem _ h
  · exact h
  · cases h

theorem resting_error {pc : UserPc} (h : pc.resting = true) : UserPc.error pc = none := by
  cases pc <;> first | rfl | cases h

theorem Answers.manageable {s : State ι} {r : Ref} (h : Answers s r) :
    Manageable (s.pool.heap r) := fun x hx => (h x hx).1

section

variable [DecidableEq ι] {s : State ι} {e : Event ι} {i : ι}

/-! ## Steps of the other threads -/

omit [DecidableEq ι] in
theorem unloads_of_actor (he : Enabled s e) (ha : Event.actor e = .user i)
    (hpc : UserPc.error (s.user i) ≠ none) : unloads i e := by
  cases e <;> simp only [Event.actor, Actor.user.injEq, reduceCtorEq] at ha <;> subst ha <;>
    simp only [Enabled] at he <;> first
    | rfl
    | (rw [he] at hpc; exact absurd rfl hpc)
    | (rw [he.1] at hpc; exact absurd rfl hpc)
    | exact absurd (resting_error he) hpc
    | exact absurd (resting_error he.1) hpc

/-- A worker this thread disposes of still answers while others run. -/
theorem answers_frame (hi : Invariant s) (he : Enabled s e) (ha : Event.actor e ≠ .user i)
    {r : Ref} (hown : r ∈ UserPc.owned (s.user i)) (hd : Answers s r) : Answers (next s e) r := by
  obtain ⟨hlt, hout⟩ := hi.outside i r hown
  have closes : SupervisorPc.mayClose (next s e).supervisor = some r →
      SupervisorPc.mayClose s.supervisor = some r := by
    intro h
    rcases mayClose_next he h with h | ⟨rd, o, rfl, hskip⟩
    · exact h
    · rw [skips_outside hout] at hskip
      cases hskip
  have mine : ∀ j, Event.actor e = .user j → r ∉ UserPc.owned (s.user j) := by
    intro j hj hmem
    exact ha (hj.trans (congrArg _ (hi.disjoint i j r hown hmem).symm))
  intro x hx
  rcases handle_frame hi he hlt hout mine (fun y hy => (hd y hy).2) hx with h | ⟨h, rfl⟩
  · exact ⟨(hd x h).1, fun hc => (hd x h).2 (closes hc)⟩
  · exact ⟨Or.inr rfl, fun hc => (hd _ h).2 (closes hc)⟩

omit [DecidableEq ι] in
theorem Answers.kept {t : State ι} {r : Ref} (hd : Answers s r)
    (hp : (t.pool.heap r).process = (s.pool.heap r).process)
    (hs : t.supervisor = s.supervisor) : Answers t r := by
  intro x hx
  rw [hp] at hx
  rw [hs]
  exact hd x hx

/-! ### Queues of a disposal -/

/-- Nobody else puts anything on the queue of a worker that this thread disposes of. -/
theorem owned_queue (hi : Invariant s) (he : Enabled s e) (ha : Event.actor e ≠ .user i) {r : Ref}
    (hown : r ∈ UserPc.owned (s.user i)) : SameQueue s (next s e) r := by
  obtain ⟨hlt, hout⟩ := hi.outside i r hown
  have mine : ∀ j, Event.actor e = .user j → r ∉ UserPc.owned (s.user j) := by
    intro j hj hmem
    exact ha (hj.trans (congrArg _ (hi.disjoint i j r hown hmem).symm))
  refine same_queue hi.consistent hlt (fun hin => absurd hin hout) ?_ fun hsig => ?_
  · rintro j job rest o rfl
    simp only [Enabled] at he
    have hj : UserPc.job (s.user j) = some job := by rw [he]; rfl
    refine mine j rfl ?_
    rw [job_owned hj]
    exact (hi.jobs j job hj).pending r (by rw [he]; exact List.mem_cons_self)
  · unfold Event.signals at hsig
    split at hsig <;> cases hsig
    · rename_i j rest
      have hpc : s.user j = .closeProbing r rest := he
      refine hout ((hi.closers j (by rw [hpc]; rfl)).2 r ?_)
      rw [hpc]
      exact List.mem_cons_self
    · refine mine _ rfl ?_
      rw [he.1]
      exact List.mem_cons_self

theorem flowing_frame (hi : Invariant s) (he : Enabled s e) (ha : Event.actor e ≠ .user i)
    (hf : Flowing i s) : Flowing i (next s e) := by
  have hpc : (next s e).user i = s.user i := user_frame ha
  intro r hr
  rw [hpc] at hr
  have hsame := owned_queue hi he ha hr
  refine hsame.joinable ?_ (hf r hr)
  unfold UserPc.coming
  rw [hpc]
  split
  · exact hsame.stopMessages
  · exact List.nil_sublist _

omit [DecidableEq ι] in
theorem flowing_congr {t : State ι} {pc : UserPc} (hpc : t.user i = pc)
    (howned : UserPc.owned pc = UserPc.owned (s.user i))
    (h : ∀ r ∈ UserPc.owned (s.user i),
      (Joinable t r (UserPc.coming t.pool pc r) ↔
        Joinable s r (UserPc.coming s.pool (s.user i) r))) :
    Flowing i t ↔ Flowing i s := by
  subst hpc
  unfold Flowing
  rw [howned]
  exact forall₂_congr h

omit [DecidableEq ι] in
/-- No message is to come for a worker that is being stopped. -/
theorem coming_closeQueues {r : Ref} {rest : List Ref} {a : AfterDispose} (hr : r ∉ rest)
    (hpc : s.user i = .disposing .closeQueues r rest a) :
    UserPc.coming s.pool (s.user i) r = [] := by
  rw [hpc]
  exact if_neg hr

theorem coming_congr {p q : Pool} {x y : UserPc} {r : Ref}
    (hm : r ∈ UserPc.unprobed y ↔ r ∈ UserPc.unprobed x)
    (hs : stopMessages (q.heap r) = stopMessages (p.heap r)) :
    UserPc.coming q y r = UserPc.coming p x r := if_congr hm hs rfl

/-- A disposal that goes on will be held just as before. -/
theorem flowing_dispose {k : DisposeStep} {r : Ref} {rest : List Ref} {a : AfterDispose}
    (he : Enabled s (.dispose i k r rest a)) (hn : (UserPc.owned (s.user i)).Nodup) :
    (∃ x, (next s (.dispose i k r rest a)).user i = .raised x) ∨
      (Flowing i (next s (.dispose i k r rest a)) ↔ Flowing i s) := by
  obtain ⟨hpc, hfits⟩ := he
  rw [hpc] at hn
  obtain ⟨hr, hrest⟩ := List.nodup_cons.mp hn
  cases k with
  | mark =>
    refine .inr (flowing_congr setUser_self (by rw [hpc]; rfl) fun r' _ => ?_)
    have hsame : stopMessages ((next s (.dispose i .mark r rest a)).pool.heap r') =
        stopMessages (s.pool.heap r') ∧
        (next s (.dispose i .mark r rest a)).unjoined r' = s.unjoined r' := by
      by_cases hne : r' = r
      · subst hne
        simp [next, disposeNext, stopMessages, State.unjoined]
      · simp [next, disposeNext, State.unjoined, hne]
    refine joinable_congr rfl ?_ hsame.2
    rw [hpc, coming_congr (x := .disposing .mark r rest a) (y := .disposing .probe r rest a)
      Iff.rfl hsame.1]
    rfl
  | probe =>
    simp only [next, disposeNext]
    split
    · exact .inl ⟨_, setUser_self⟩
    refine .inr (flowing_congr setUser_self (by rw [hpc]; rfl) fun r' hr' => ?_)
    refine joinable_congr (by simp) ?_ (by simp [State.unjoined])
    rw [hpc]
    by_cases hne : r' = r
    · subst hne
      simp [sendStop_unread, UserPc.coming, UserPc.unprobed, hr]
    · have hmem : r' ∈ UserPc.unprobed (.disposing (.stop .join) r rest a) ↔
          r' ∈ UserPc.unprobed (.disposing .probe r rest a) :=
        ⟨List.mem_cons_of_mem r, fun h => (List.mem_cons.mp h).resolve_left hne⟩
      rw [setUser_pool, coming_congr hmem rfl]
      simp [sendStop_unread, hne]
  | stop k =>
    simp only [next, disposeNext]
    split
    · exact .inl ⟨_, setUser_self⟩
    rename_i v k' hv
    have hun : UserPc.unprobed (.disposing (k'.elim .closeQueues .stop) r rest a) = rest := by
      cases k' <;> rfl
    refine .inr (flowing_congr setUser_self (by rw [hpc]; rfl) fun r' hr' => ?_)
    rw [hpc]
    by_cases hne : r' = r
    · subst hne
      refine joinable_congr rfl ?_ ?_
      · rw [UserPc.coming, UserPc.coming, hun, if_neg hr, UserPc.unprobed, if_neg hr]
        · rfl
        · rintro ⟨⟩
        · rintro ⟨⟩
      · simp [State.unjoined, stopProcess_taskQueue hv]
    · refine joinable_congr rfl ?_ ?_
      · rw [coming_congr (p := s.pool) (x := .disposing (.stop k) r rest a) (by rw [hun]; rfl)
          (by simp [hne])]
        rfl
      · simp [State.unjoined, hne]
  | closeQueues =>
    have hhead : Joinable s r (UserPc.coming s.pool (s.user i) r) := by
      rw [coming_closeQueues hr hpc]
      intro hu
      rw [List.append_nil]
      exact hfits rfl hu
    have htail : ∀ r' ∈ rest, (Joinable (next s (.dispose i .closeQueues r rest a)) r'
        (UserPc.coming (next s (.dispose i .closeQueues r rest a)).pool (disposeFrom rest a) r') ↔
        Joinable s r' (UserPc.coming s.pool (s.user i) r')) := by
      intro r' hr'
      have hne : r' ≠ r := fun h => hr (h ▸ hr')
      have hun : r' ∈ UserPc.unprobed (disposeFrom rest a) := by
        cases rest with
        | nil => cases hr'
        | cons _ _ => exact hr'
      refine joinable_congr rfl ?_ ?_
      · rw [hpc, coming_congr (p := s.pool) (x := .disposing .closeQueues r rest a)
          ⟨fun _ => hr', fun _ => hun⟩ (by simp [next, disposeNext, hne])]
        rfl
      · simp [next, disposeNext, State.unjoined, hne]
    have hnext : (next s (.dispose i .closeQueues r rest a)).user i = disposeFrom rest a :=
      setUser_self
    refine .inr ⟨fun h r' hr' => ?_, fun h r' hr' => ?_⟩
    · rw [hpc] at hr'
      by_cases hne : r' = r
      · exact hne ▸ hhead
      · have hmem : r' ∈ rest := (List.mem_cons.mp hr').resolve_left hne
        refine (htail r' hmem).mp ?_
        rw [← hnext]
        exact h r' (by rwa [hnext, disposeFrom_owned])
    · rw [hnext, disposeFrom_owned] at hr'
      rw [hnext]
      refine (htail r' hr').mpr (h r' ?_)
      rw [hpc]
      exact List.mem_cons_of_mem _ hr'

theorem Flowing.disposed {k : DisposeStep} {r : Ref} {rest : List Ref} {a : AfterDispose}
    (hf : Flowing i s) (he : Enabled s (.dispose i k r rest a))
    (hn : (UserPc.owned (s.user i)).Nodup) : Flowing i (next s (.dispose i k r rest a)) := by
  rcases flowing_dispose he hn with ⟨x, hx⟩ | h
  · intro r' hr'
    rw [hx] at hr'
    cases hr'
  · exact h.mpr hf

omit [DecidableEq ι] in
theorem Flowing.enabled {k : DisposeStep} {r : Ref} {rest : List Ref} {a : AfterDispose}
    (hf : Flowing i s) (hpc : s.user i = .disposing k r rest a)
    (hn : (UserPc.owned (s.user i)).Nodup) : Enabled s (.dispose i k r rest a) := by
  refine ⟨hpc, ?_⟩
  rintro rfl hu
  have hj := hf r (by rw [hpc]; exact List.mem_cons_self)
  rw [hpc] at hn
  rw [coming_closeQueues (List.nodup_cons.mp hn).1 hpc] at hj
  exact hj.drained hu

theorem unloading_frame {futures : List FutureId} {x : PlatformError}
    (hu : Unloading i futures x s) (he : Enabled s e) (hown : ¬ unloads i e) :
    Unloading i futures x (next s e) ∧
      UserPc.rank ((next s e).user i) = UserPc.rank (s.user i) := by
  have ha : Event.actor e ≠ .user i := fun ha =>
    hown (unloads_of_actor he ha (by rw [hu.error]; simp))
  have hpc : (next s e).user i = s.user i := user_frame ha
  have hi := reachable_invariant hu.reachable
  refine ⟨⟨hu.reachable.next (S := system ι) ⟨he, rfl⟩, hpc ▸ hu.error, hpc ▸ hu.distinct, ?_,
    flowing_frame hi he ha hu.flowing, ?_⟩, by rw [hpc]⟩
  · intro r hr
    rw [hpc] at hr
    exact answers_frame hi he ha (stoppable_owned hr) (hu.answers r hr)
  · intro f hf
    rw [hpc]
    exact (hu.futures f hf).imp_right fun h => resolution_kept hu.reachable he h

/-! ## The steps of the unload -/

/-- What an operation of `_stop_process` leaves to be stopped. -/
theorem stoppable_stop {w v : WorkerState} {k : StopStep} {k' : Option StopStep}
    (h : stopProcess w k = .ok (v, k')) {r r' : Ref} {rest : List Ref} {a : AfterDispose}
    (hr : r' ∈ UserPc.stoppable (.disposing (k'.elim .closeQueues .stop) r rest a)) :
    r' ∈ rest ∨ r' = r ∧ v.process = w.process ∧ k ≠ .mark := by
  have hk := stopProcess_ok h
  cases k' with
  | none => exact Or.inl hr
  | some k' =>
    cases k with
    | mark => cases h
    | close => cases h; exact Or.inl hr
    | join | probe | terminate | rejoin =>
      have hmem : r' ∈ r :: rest := by
        cases k' <;> first | exact hr | exact List.mem_cons_of_mem _ hr
      rcases List.mem_cons.mp hmem with hmem | hmem
      · exact Or.inr ⟨hmem, by simpa using hk.2.2.2, by simp⟩
      · exact Or.inl hmem

theorem rest_stoppable {k : DisposeStep} {r r' : Ref} {rest : List Ref} {a : AfterDispose}
    (h : r' ∈ rest) : r' ∈ UserPc.stoppable (.disposing k r rest a) := by
  cases k with
  | mark | probe => exact List.mem_cons_of_mem _ h
  | closeQueues => exact h
  | stop k => cases k <;> first | exact h | exact List.mem_cons_of_mem _ h

/-- A step goes on with the futures it does not resolve. -/
theorem Unloading.onward {futures : List FutureId} {x : PlatformError} {pc : UserPc}
    (hu : Unloading i futures x s) (he : Enabled s e) (hpc : (next s e).user i = pc)
    (hx : UserPc.error pc = some x) (hn : (UserPc.owned pc).Nodup)
    (hs : ∀ r ∈ UserPc.stoppable pc, Answers (next s e) r) (hf : Flowing i (next s e))
    (hh : ∀ f ∈ UserPc.holding (s.user i),
      f ∈ UserPc.holding pc ∨ (next s e).history.resolutions f = [.error x]) :
    Unloading i futures x (next s e) := by
  refine ⟨hu.reachable.next (S := system ι) ⟨he, rfl⟩, ?_, ?_, ?_, hf, fun f hf => ?_⟩ <;> rw [hpc]
  · exact hx
  · exact hn
  · exact hs
  · rcases hu.futures f hf with h | h
    · exact hh f h
    · exact Or.inr (resolution_kept hu.reachable he h)

/-- A step of the disposal changes no more than the worker it stops. -/
theorem unloading_dispose {futures fs : List FutureId} {x : PlatformError} {k : DisposeStep}
    {r : Ref} {rest : List Ref} (hu : Unloading i futures x s)
    (hen : Enabled s (.dispose i k r rest (.failFutures fs x))) :
    ((next s (.dispose i k r rest (.failFutures fs x))).user i = .returned ∧ ∀ f ∈ futures,
        (next s (.dispose i k r rest (.failFutures fs x))).history.resolutions f = [.error x]) ∨
      Unloading i futures x (next s (.dispose i k r rest (.failFutures fs x))) ∧
        UserPc.rank ((next s (.dispose i k r rest (.failFutures fs x))).user i) <
          UserPc.rank (s.user i) := by
  have he : s.user i = .disposing k r rest (.failFutures fs x) := hen.1
  have hflow := hu.flowing.disposed hen hu.distinct
  have go : ∀ pc, (next s (.dispose i k r rest (.failFutures fs x))).user i = pc →
      UserPc.error pc = some x → (UserPc.owned pc).Nodup →
      (∀ r' ∈ UserPc.stoppable pc,
        Answers (next s (.dispose i k r rest (.failFutures fs x))) r') →
      UserPc.holding pc = fs →
      Unloading i futures x (next s (.dispose i k r rest (.failFutures fs x))) := by
    intro pc hpc hx hn hs hh
    refine hu.onward hen hpc hx hn hs hflow fun f hf => Or.inl ?_
    rw [he] at hf
    exact hh ▸ hf
  have hdistinct := hu.distinct
  have hanswers := hu.answers
  rw [he] at hdistinct hanswers ⊢
  have other : ∀ (f : WorkerState → WorkerState) r', r' ∈ rest →
      ((s.pool.modify r f).heap r').process = (s.pool.heap r').process := by
    intro f r' hr'
    have : r' ≠ r := fun h => (List.nodup_cons.mp hdistinct).1 (h ▸ hr')
    simp [this]
  cases k with
  | mark =>
    have hpc : (next s (.dispose i .mark r rest (.failFutures fs x))).user i =
        .disposing .probe r rest (.failFutures fs x) := setUser_self
    refine Or.inr ⟨go _ hpc rfl hdistinct (fun r' hr' => ?_) rfl, ?_⟩
    · refine (hanswers r' hr').kept ?_ rfl
      by_cases hr : r' = r
      · subst hr; simp [next, disposeNext]
      · simp [next, disposeNext, hr]
    · rw [hpc]; simp [UserPc.rank, DisposeStep.rank]
  | probe =>
    have hask : ∀ y, (s.pool.heap r).process.map Process.isAlive ≠ some (.error y) := by
      intro y hy
      cases hp : (s.pool.heap r).process with
      | none => rw [hp] at hy; cases hy
      | some h =>
        rw [hp] at hy
        rcases (hanswers r List.mem_cons_self h hp).1 with rfl | rfl <;> cases hy
    have hnext : next s (.dispose i .probe r rest (.failFutures fs x)) =
        { s with queues := s.queues.sendStop r (s.pool.heap r) }.setUser i
          (.disposing (.stop .join) r rest (.failFutures fs x)) := by
      simp only [next, disposeNext]
    have hpc : (next s (.dispose i .probe r rest (.failFutures fs x))).user i =
        .disposing (.stop .join) r rest (.failFutures fs x) := by rw [hnext, setUser_self]
    refine Or.inr ⟨go _ hpc rfl hdistinct (fun r' hr' => ?_) rfl, ?_⟩
    · rw [hnext]
      exact (hanswers r' hr').kept rfl rfl
    · rw [hpc]; simp [UserPc.rank, DisposeStep.rank, StopStep.rank]
  | stop k =>
    have hok : k = .close ∨ k = .mark ∨ Manageable (s.pool.heap r) := by
      cases k <;> first
        | exact Or.inl rfl
        | exact Or.inr (Or.inl rfl)
        | exact Or.inr (Or.inr (hanswers r List.mem_cons_self).manageable)
    obtain ⟨v, k', hv⟩ := stopProcess_succeeds hok
    have hnext : next s (.dispose i (.stop k) r rest (.failFutures fs x)) =
        (s.modify r fun _ => v).setUser i
          (.disposing (k'.elim .closeQueues .stop) r rest (.failFutures fs x)) := by
      simp only [next, disposeNext, hv]
    have hpc : (next s (.dispose i (.stop k) r rest (.failFutures fs x))).user i =
        .disposing (k'.elim .closeQueues .stop) r rest (.failFutures fs x) := by
      rw [hnext, setUser_self]
    refine Or.inr ⟨go _ hpc rfl hdistinct (fun r' hr' => ?_) rfl, ?_⟩
    · rw [hnext]
      rcases stoppable_stop hv hr' with hmem | ⟨rfl, hp, hk⟩
      · exact (hanswers r' (rest_stoppable hmem)).kept (other (fun _ => v) r' hmem) rfl
      · refine (hanswers r' ?_).kept (by simpa using hp) rfl
        cases k <;> first | exact List.mem_cons_self | exact absurd rfl hk
    · rw [hpc]
      cases k' with
      | none => cases k <;> simp [UserPc.rank, DisposeStep.rank, StopStep.rank]
      | some k' => simpa [UserPc.rank, DisposeStep.rank] using stopProcess_rank hv
  | closeQueues =>
    have hpc : (next s (.dispose i .closeQueues r rest (.failFutures fs x))).user i =
        disposeFrom rest (.failFutures fs x) := setUser_self
    cases rest with
    | cons r' rest =>
      refine Or.inr ⟨go _ hpc rfl (List.nodup_cons.mp hdistinct).2 (fun v hv => ?_) rfl, ?_⟩
      · exact (hanswers v hv).kept
          (other (fun w => { w with taskQueue := false, lifecycleQueue := false }) v hv) rfl
      · rw [hpc]
        simp only [disposeFrom, UserPc.rank, DisposeStep.rank, List.length_cons]
        omega
    | nil =>
      cases fs with
      | nil =>
        refine Or.inl ⟨hpc, fun f hf => ?_⟩
        have hf := hu.futures f hf
        rw [he] at hf
        exact resolution_kept (e := .dispose i .closeQueues r [] (.failFutures [] x))
          hu.reachable hen (hf.resolve_left List.not_mem_nil)
      | cons f fs =>
        refine Or.inr ⟨go _ hpc rfl List.nodup_nil (fun v hv => by cases hv) rfl, ?_⟩
        rw [hpc]
        simp [disposeFrom, AfterDispose.enter, failFrom, UserPc.rank, DisposeStep.rank]

theorem unloading_fail {futures rest : List FutureId} {x : PlatformError} {f : FutureId}
    (hu : Unloading i futures x s) (he : s.user i = .failing f rest x) :
    ((next s (.fail i f rest x)).user i = .returned ∧
        ∀ g ∈ futures, (next s (.fail i f rest x)).history.resolutions g = [.error x]) ∨
      Unloading i futures x (next s (.fail i f rest x)) ∧
        UserPc.rank ((next s (.fail i f rest x)).user i) < UserPc.rank (s.user i) := by
  obtain ⟨hn, hheld⟩ := (reachable_delivery hu.reachable).held (.unregister i)
  simp only [PoolDelivery.held, he, UserPc.holding] at hn hheld
  have first : (next s (.fail i f rest x)).history.resolutions f = [.error x] := by
    simp [next, failNext, History.settle, (hheld f List.mem_cons_self).2]
  have hpc : (next s (.fail i f rest x)).user i = failFrom rest x := setUser_self
  have left : ∀ g ∈ UserPc.holding (s.user i), g ∈ rest ∨
      (next s (.fail i f rest x)).history.resolutions g = [.error x] := by
    intro g hg
    rw [he] at hg
    rcases List.mem_cons.mp hg with rfl | h
    · exact Or.inr first
    · exact Or.inl h
  cases rest with
  | nil =>
    refine Or.inl ⟨hpc, fun g hg => ?_⟩
    rcases hu.futures g hg with h | h
    · exact (left g h).resolve_left List.not_mem_nil
    · exact resolution_kept (e := .fail i f [] x) hu.reachable he h
  | cons g rest =>
    have hflow : Flowing i (next s (.fail i f (g :: rest) x)) := by
      intro r hr
      rw [hpc] at hr
      cases hr
    refine Or.inr ⟨hu.onward he hpc rfl List.nodup_nil (fun r hr => by cases hr) hflow left, ?_⟩
    rw [hpc, he]
    simp [UserPc.rank, failFrom]

/-- Each step of the unload takes it on, and the last one leaves every future failed. -/
theorem unloading_next {futures : List FutureId} {x : PlatformError}
    (hu : Unloading i futures x s) (he : Enabled s e) (hown : unloads i e) :
    ((next s e).user i = .returned ∧
        ∀ f ∈ futures, (next s e).history.resolutions f = [.error x]) ∨
      Unloading i futures x (next s e) ∧
        UserPc.rank ((next s e).user i) < UserPc.rank (s.user i) := by
  have herror := hu.error
  cases e <;> simp only [unloads] at hown <;> subst hown <;> simp only [Enabled] at he
  case dispose i k r rest a =>
    rw [he.1] at herror
    cases a with
    | raise y => cases herror
    | failFutures fs y =>
      cases herror
      exact unloading_dispose hu he
  case fail i f rest y =>
    rw [he] at herror
    cases herror
    exact unloading_fail hu he

/-! ## Calls that raise -/

/-- The workers whose handles an unload has still to ask for the first time. -/
def UserPc.unasked : UserPc → List Ref
  | .disposing .mark r rest _ | .disposing .probe r rest _ | .disposing (.stop .join) r rest _ =>
    r :: rest
  | .disposing _ _ rest _ => rest
  | _ => []

/-- A handle that the unload has still to ask will make it raise. -/
structure Unanswered (i : ι) (s : State ι) : Prop where
  distinct : (UserPc.owned (s.user i)).Nodup
  unusable : ∃ r ∈ UserPc.unasked (s.user i), ∃ h, (s.pool.heap r).process = some h ∧ ¬ h.Usable

/-- The unload has raised, or will; or a queue holds it, or will, unless somebody reads from it. -/
inductive Doomed (i : ι) (s : State ι) : Prop where
  | raised (x : Raised) (h : s.user i = .raised x)
  | unanswered (h : Unanswered i s)
  | jammed (hn : (UserPc.owned (s.user i)).Nodup) (h : ¬ Flowing i s)

omit [DecidableEq ι] in
theorem Doomed.unfinished (hd : Doomed i s) : s.user i ≠ .returned := by
  intro hret
  cases hd with
  | raised x h => rw [hret] at h; cases h
  | unanswered h =>
    obtain ⟨r, hr, -⟩ := h.unusable
    rw [hret] at hr
    cases hr
  | jammed hn h =>
    refine h fun r hr => ?_
    rw [hret] at hr
    cases hr

theorem unanswered_next (hs : Unanswered i s) (he : Enabled s e) (hown : unloads i e) :
    (∃ x, (next s e).user i = .raised x) ∨ Unanswered i (next s e) := by
  obtain ⟨hn, r, hr, h, hp, hbad⟩ := hs
  cases e <;> simp only [unloads] at hown <;> subst hown <;> simp only [Enabled] at he
  case fail i f rest y => rw [he] at hr; cases hr
  case dispose i k r' rest a =>
    rw [he.1] at hn hr
    obtain ⟨hnot, hn'⟩ := List.nodup_cons.mp hn
    have later : r ∈ rest → r ≠ r' := fun hmem e => hnot (e ▸ hmem)
    have go : ∀ {t : State ι} {pc}, t.user i = pc → (UserPc.owned pc).Nodup →
        r ∈ UserPc.unasked pc → (t.pool.heap r).process = (s.pool.heap r).process →
        (∃ x, t.user i = .raised x) ∨ Unanswered i t := by
      rintro t pc rfl hn hr hp'
      exact Or.inr ⟨hn, r, hr, h, hp'.trans hp, hbad⟩
    have rest_unasked : ∀ {k r' a}, r ∈ rest → r ∈ UserPc.unasked (.disposing k r' rest a) := by
      intro k r' a hmem
      cases k with
      | mark | probe => exact List.mem_cons_of_mem _ hmem
      | closeQueues => exact hmem
      | stop k => cases k <;> first | exact hmem | exact List.mem_cons_of_mem _ hmem
    cases k with
    | mark =>
      refine go setUser_self hn hr ?_
      by_cases e : r = r'
      · subst e; simp [next, disposeNext]
      · simp [next, disposeNext, e]
    | probe =>
      simp only [next, disposeNext]
      split
      · exact Or.inl ⟨_, setUser_self⟩
      · exact go setUser_self hn hr rfl
    | stop k =>
      simp only [next, disposeNext]
      split
      · exact Or.inl ⟨_, setUser_self⟩
      rename_i v k' hv
      have hmem : r ∈ rest := by
        cases k with
        | join =>
          refine (List.mem_cons.mp hr).resolve_left ?_
          rintro rfl
          cases h with
          | running => exact hbad (Or.inl rfl)
          | exited => exact hbad (Or.inr rfl)
          | unstarted | closed => simp only [stopProcess, hp] at hv; cases hv
        | probe | terminate | rejoin | close | mark => exact hr
      refine go setUser_self hn (rest_unasked hmem) ?_
      simp [later hmem]
    | closeQueues =>
      cases rest with
      | nil => cases hr
      | cons r'' rest =>
        refine go setUser_self hn' hr ?_
        simp [next, disposeNext, later hr]

theorem disposeFrom_sublist {k : DisposeStep} {r : Ref} {rest : List Ref} {a : AfterDispose}
    (he : Enabled s (.dispose i k r rest a)) :
    (UserPc.owned ((next s (.dispose i k r rest a)).user i)).Sublist (UserPc.owned (s.user i)) := by
  rw [he.1]
  cases k with
  | mark => rw [show (next s (.dispose i .mark r rest a)).user i = _ from setUser_self]; rfl
  | closeQueues =>
    rw [show (next s (.dispose i .closeQueues r rest a)).user i = _ from setUser_self,
      disposeFrom_owned]
    exact List.sublist_cons_self r rest
  | probe | stop k =>
    simp only [next, disposeNext]
    split <;> rw [setUser_self]
    · exact List.nil_sublist _
    · rfl

theorem doomed_next (hd : Doomed i s) (he : Enabled s e) (hown : unloads i e) :
    Doomed i (next s e) := by
  cases hd with
  | raised x hx =>
    cases e <;> simp only [unloads] at hown <;> subst hown <;>
      simp only [Enabled, hx, reduceCtorEq, false_and] at he
  | unanswered h =>
    rcases unanswered_next h he hown with ⟨x, hx⟩ | h
    · exact .raised x hx
    · exact .unanswered h
  | jammed hn h =>
    cases e <;> simp only [unloads] at hown <;> subst hown
    case fail i f rest y =>
      have hpc : s.user i = .failing f rest y := he
      refine absurd (fun r hr => ?_) h
      rw [hpc] at hr
      cases hr
    case dispose i k r rest a =>
      rcases flowing_dispose he hn with ⟨x, hx⟩ | hiff
      · exact .raised x hx
      · exact .jammed ((disposeFrom_sublist he).nodup hn) (mt hiff.mp h)

/-! ## The call -/

def unloadError (groupName : String) : PlatformError :=
  ⟨.workerUnavailable, "WorkerGroup '" ++ groupName ++ "' was unloaded"⟩

/-- The call has returned, and what was assigned to the group when it began has failed. -/
def Unloaded (i : ι) (groupName : String) (s t : State ι) : Prop :=
  t.user i = .returned ∧ ∀ r ∈ groupWorkers s.pool groupName, ∀ task f,
    s.pool.assignments.get? task = some (s.pool.heap r).assignment →
    s.pool.futures.get? task = some f →
    t.history.resolutions f = [.error (unloadError groupName)]

/-- What concerns the other groups is as it was. -/
structure OthersKept (p q : Pool) (groupName : String) : Prop where
  groups : q.groups = p.groups.pop groupName
  workers : ∀ id r, q.workers.get? id = some r ↔
    p.workers.get? id = some r ∧ r ∉ groupWorkers p groupName
  heap : ∀ r, r ∉ groupWorkers p groupName → q.heap r = p.heap r
  futures : ∀ t, ¬ AssignedTo p (groupWorkers p groupName) t → q.futures.get? t = p.futures.get? t
  assignments : ∀ t, ¬ AssignedTo p (groupWorkers p groupName) t →
    q.assignments.get? t = p.assignments.get? t
  routes : ∀ h, routes q.handlerGroups h =
    (routes p.handlerGroups h).filter (fun x => decide (x ≠ groupName))

structure TablesKept (p q : Pool) : Prop where
  same : SameTables p q
  futures : q.futures = p.futures
  assignments : q.assignments = p.assignments
  outstanding : ∀ r, (q.heap r).outstanding = (p.heap r).outstanding

omit [DecidableEq ι] in
theorem unregistered_others {p q : Pool} {g : String} {failed : List FutureId}
    (h : Unregistered p q g failed) : OthersKept p q g := by
  obtain ⟨d, hd, hret⟩ := h.retired
  obtain ⟨_, _, _, _, hrest⟩ := hret.rest
  have hsome : ∀ {κ ν : Type} [DecidableEq κ] {a b : Dict κ ν} {k : κ},
      (∀ v, a.get? k = some v ↔ b.get? k = some v) → a.get? k = b.get? k := by
    intro κ ν _ a b k hk
    exact Option.ext hk
  refine ⟨by rw [hrest]; rfl, hret.table, fun r hr => ?_, fun t ht => ?_, fun t ht => ?_, ?_⟩
  · rw [hret.heap, if_neg hr]
    rfl
  · exact hsome fun f => by rw [hret.futures]; exact and_iff_left ht
  · exact hsome fun a => by rw [hret.assignments]; exact and_iff_left ht
  · intro h
    rw [← hd h, hrest]
    rfl

/-- The steps after the locked section touch neither tables nor counters. -/
theorem unload_tables (hown : unloads i e) : TablesKept s.pool (next s e).pool := by
  have modify : ∀ (r : Ref) (f : WorkerState → WorkerState),
      (f (s.pool.heap r)).outstanding = (s.pool.heap r).outstanding →
      TablesKept s.pool (s.pool.modify r f) := by
    intro r f hf
    refine ⟨⟨rfl, rfl, rfl, rfl⟩, rfl, rfl, fun r' => ?_⟩
    by_cases e : r' = r
    · subst e; simpa using hf
    · simp [e]
  have same : TablesKept s.pool s.pool := ⟨⟨rfl, rfl, rfl, rfl⟩, rfl, rfl, fun _ => rfl⟩
  cases e <;> simp only [unloads] at hown
  case fail => exact same
  case dispose j k r rest a =>
    cases k with
    | mark => exact modify r (fun w => { w with retiring := true, nextRestartAt := none }) rfl
    | probe =>
      simp only [next, disposeNext]
      split <;> exact same
    | stop k =>
      simp only [next, disposeNext]
      split
      · exact same
      · rename_i v k' hv
        exact modify r (fun _ => v) (stopProcess_ok hv).1.outstanding
    | closeQueues =>
      exact modify r (fun w => { w with taskQueue := false, lifecycleQueue := false }) rfl

omit [DecidableEq ι] in
theorem unregistered_handle {p q : Pool} {g : String} {failed : List FutureId}
    (h : Unregistered p q g failed) (r : Ref) : (q.heap r).process = (p.heap r).process ∧
      (q.heap r).taskQueue = (p.heap r).taskQueue := by
  obtain ⟨d, -, hret⟩ := h.retired
  rw [hret.heap]
  split <;> exact ⟨rfl, rfl⟩

omit [DecidableEq ι] in
/-- The futures of the group's tasks are taken out to fail. -/
theorem unregistered_takes {q : Pool} {g : String} {failed : List FutureId}
    (h : Unregistered s.pool q g failed) {t : State ι} (ht : t.user i = .returned)
    (hall : ∀ f ∈ failed, t.history.resolutions f = [.error (unloadError g)]) :
    Unloaded i g s t := by
  obtain ⟨d, -, hret⟩ := h.retired
  refine ⟨ht, fun r hr task f ha hf => hall f ?_⟩
  exact (hret.taken_iff f).mpr ⟨task, ⟨r, hr, ha⟩, hf⟩

/-- The locked section of `unregister_worker_group`. -/
theorem unregister_enters (h : Reachable s) (hopen : s.pool.closing = false) {g : String}
    (hg : g ∈ s.pool.groups.keys) (i : ι) : ∃ q failed, Unregistered s.pool q g failed ∧
    next s (.unregisterCall i g) =
      { s with pool := q, history := s.history.take failed (.unregister i) }.setUser i
        (disposeFrom (groupWorkers s.pool g) (.failFutures failed (unloadError g))) := by
  have inv := reachable_invariant h
  rcases unregisterLocked_cases inv.consistent g with
    ⟨hno, -⟩ | ⟨-, -, -, q, failed, hu, hun⟩
  · rcases hno with hno | hno | hno
    · rw [hopen] at hno; cases hno
    · rw [inv.finished hno] at hopen; cases hopen
    · exact absurd hg hno
  · refine ⟨q, failed, hun, ?_⟩
    simp only [next, unregisterNext, hu]
    rfl

theorem doomed_raises {t : State ι} {g : String} (hd : Doomed i t) :
    ¬ Finishes Step (unloads i) (Unloaded i g s) t := by
  refine Finishes.not_of_stays (D := Doomed i) ?_ ?_ hd
  · rintro v hv ⟨hret, -⟩
    exact hv.unfinished hret
  · rintro v e t hv he ⟨hen, rfl⟩
    exact doomed_next hv hen he

omit [DecidableEq ι] in
/-- What is in the way of the disposal was so before the locked section. -/
theorem entered_joinable {q : Pool} {g : String} {failed : List FutureId}
    (hun : Unregistered s.pool q g failed) {t : State ι} (hp : t.pool = q)
    (hq : t.queues = s.queues) {a : AfterDispose}
    (hpc : t.user i = disposeFrom (groupWorkers s.pool g) a) {r : Ref}
    (hr : r ∈ groupWorkers s.pool g) :
    Joinable t r (UserPc.coming t.pool (t.user i) r) ↔ Emptying s r := by
  obtain ⟨hprocess, hqueue⟩ := unregistered_handle hun r
  have hmem : r ∈ UserPc.unprobed (t.user i) := by
    rw [hpc]
    obtain ⟨r₀, rest, hcons⟩ := List.exists_cons_of_ne_nil (List.ne_nil_of_mem hr)
    rw [hcons] at hr ⊢
    exact hr
  have hunjoined : t.unjoined r = s.unjoined r := by
    simp only [State.unjoined, hp, hq, hqueue]
  have hstop : stopMessages (t.pool.heap r) = stopMessages (s.pool.heap r) := by
    simp only [stopMessages, hp, hprocess, hqueue]
  rw [UserPc.coming, if_pos hmem]
  exact joinable_congr (by rw [hq]) (by rw [hq, hstop]) hunjoined

/-- A call that returns has a usable handle of each worker, also after the supervisor, and finds
the queues empty enough. -/
theorem returning_disposable (h : Reachable s) (hopen : s.pool.closing = false) {g : String}
    (hg : g ∈ s.pool.groups.keys)
    (hfin : Finishes Step (unloads i) (Unloaded i g s) (next s (.unregisterCall i g))) :
    ∀ r ∈ groupWorkers s.pool g, Disposable s r := by
  obtain ⟨q, failed, hun, hnext⟩ := unregister_enters h hopen hg i
  intro r hr
  have hnodup : (groupWorkers s.pool g).Nodup :=
    (reachable_invariant h).consistent.books.values_nodup.filter _
  have hpc : (next s (.unregisterCall i g)).user i =
      disposeFrom (groupWorkers s.pool g) (.failFutures failed (unloadError g)) := by
    rw [hnext, setUser_self]
  obtain ⟨r₀, rest, hcons⟩ := List.exists_cons_of_ne_nil (List.ne_nil_of_mem hr)
  have hrunning : ¬ Unloaded i g s (next s (.unregisterCall i g)) := by
    rintro ⟨hret, -⟩
    rw [hpc, hcons] at hret
    cases hret
  -- With an unusable handle the call is doomed as soon as it begins to dispose.
  have doomed : ∀ u y, u.user i = (next s (.unregisterCall i g)).user i →
      (u.pool.heap r).process = some y → ¬ y.Usable → Doomed i u := by
    intro u y hu hy hbad
    rw [hpc] at hu
    refine .unanswered ⟨by rw [hu, disposeFrom_owned]; exact hnodup, r, ?_, y, hy, hbad⟩
    rw [hcons] at hr hu
    rw [hu]
    exact hr
  refine ⟨fun x hp => ?_, ?_⟩
  · have hp' : ((next s (.unregisterCall i g)).pool.heap r).process = some x := by
      rw [hnext]
      exact (unregistered_handle hun r).1.trans hp
    by_cases hus : x.Usable
    swap
    · exact absurd hfin (doomed_raises (doomed _ x rfl hp' hus))
    refine ⟨hus, fun hm => ?_⟩
    obtain ⟨u, run, hclosed⟩ := mayClose_closes (s := next s (.unregisterCall i g))
      (by rw [hnext]; exact hm) hp' hus
    have others :
        Transitions.Execution (Others Step (unloads i)) (next s (.unregisterCall i g)) u :=
      run.mono fun s e t hst =>
        ⟨fun hown => by cases e <;> simp_all [unloads, Background, Event.actor], hst.2⟩
    refine doomed_raises (doomed u .closed (by rw [background_user run]) hclosed ?_)
      (hfin.later hrunning others)
    rintro (hc | hc) <;> cases hc
  · by_contra hfull
    refine doomed_raises (.jammed ?_ fun hflow => hfull ?_) hfin
    · rw [hpc, disposeFrom_owned]
      exact hnodup
    · refine (entered_joinable hun (by rw [hnext]; rfl) (by rw [hnext]; rfl) hpc hr).mp (hflow r ?_)
      rw [hpc, disposeFrom_owned]
      exact hr

theorem disposable_returns (h : Reachable s) (hopen : s.pool.closing = false) {g : String}
    (hg : g ∈ s.pool.groups.keys) (hi : (s.user i).resting = true)
    (hd : ∀ r ∈ groupWorkers s.pool g, Disposable s r) :
    Finishes Step (unloads i) (Unloaded i g s) (next s (.unregisterCall i g)) := by
  obtain ⟨q, failed, hun, hnext⟩ := unregister_enters h hopen hg i
  have hreach : Reachable (next s (.unregisterCall i g)) :=
    h.next (S := system ι) (e := .unregisterCall i g) ⟨hi, rfl⟩
  have hnodup : (groupWorkers s.pool g).Nodup :=
    (reachable_invariant h).consistent.books.values_nodup.filter _
  have hpc : (next s (.unregisterCall i g)).user i =
      disposeFrom (groupWorkers s.pool g) (.failFutures failed (unloadError g)) := by
    rw [hnext, setUser_self]
  by_cases hgw : groupWorkers s.pool g = []
  · have hnone : failed = [] := by
      obtain ⟨d, -, hret⟩ := hun.retired
      refine List.eq_nil_iff_forall_not_mem.mpr fun f hf => ?_
      obtain ⟨t, ⟨r, hr, -⟩, -⟩ := (hret.taken_iff f).mp hf
      rw [hgw] at hr
      cases hr
    refine .done (unregistered_takes hun ?_ fun f hf => ?_)
    · rw [hpc, hgw, hnone]; rfl
    · rw [hnone] at hf; cases hf
  obtain ⟨r₀, rest, hcons⟩ := List.exists_cons_of_ne_nil hgw
  refine Finishes.of_measure (B := Unloading i failed (unloadError g))
    (fun t => UserPc.rank (t.user i)) ?_ ?_ ?_ ?_
  · rintro t e u ht hown ⟨he, rfl⟩
    exact (unloading_frame ht he hown).imp_right Eq.le
  · intro t ht
    have herror := ht.error
    cases hu : t.user i with
    | disposing k r rest a =>
      exact ⟨.dispose i k r rest a, _, rfl, ht.flowing.enabled hu ht.distinct, rfl⟩
    | failing f rest x => exact ⟨.fail i f rest x, _, rfl, hu, rfl⟩
    | _ => rw [hu] at herror; cases herror
  · rintro t e u ht hown ⟨he, rfl⟩
    exact (unloading_next ht he hown).imp_left fun h => unregistered_takes hun h.1 h.2
  · refine ⟨hreach, ?_, ?_, fun r hr => ?_, fun r hr => ?_, fun f hf => Or.inl ?_⟩
    · rw [hpc, hcons]; rfl
    · rw [hpc, disposeFrom_owned]; exact hnodup
    · rw [hpc, hcons] at hr
      refine (hd r (hcons ▸ hr)).1.kept ?_ (by rw [hnext]; rfl)
      rw [hnext]
      exact (unregistered_handle hun r).1
    · rw [hpc, disposeFrom_owned] at hr
      exact (entered_joinable hun (by rw [hnext]; rfl) (by rw [hnext]; rfl) hpc hr).mpr (hd r hr).2
    · rw [hpc, disposeFrom_holding]; exact hf

/-- `unregister_worker_group` returns, fails every future of the group and leaves the other
groups alone exactly when each worker's handle answers and the supervisor will not close it, and
the pipe of each worker's queue would take what is unread in it. -/
theorem unregister_unloads (h : Reachable s) (hopen : s.pool.closing = false) {g : String}
    (hg : g ∈ s.pool.groups.keys) (hi : (s.user i).resting = true) :
    (Finishes Step (unloads i) (Unloaded i g s) (next s (.unregisterCall i g)) ∧
        OthersKept s.pool (next s (.unregisterCall i g)).pool g ∧
        ∀ u e, unloads i e → TablesKept u.pool (next u e : State ι).pool) ↔
      ∀ r ∈ groupWorkers s.pool g, Disposable s r := by
  constructor
  · rintro ⟨hfin, -⟩
    exact returning_disposable h hopen hg hfin
  · intro hd
    obtain ⟨q, failed, hun, hnext⟩ := unregister_enters h hopen hg i
    refine ⟨disposable_returns h hopen hg hi hd, ?_, fun u e he => unload_tables he⟩
    rw [hnext]
    exact unregistered_others hun

end

/-! ## A group with a worker that failed to restart -/

def unloadsFailed : AfterDispose := .failFutures [0] (unloadError "g")

def unloadRaises : List (Event Unit) :=
  [.unregisterCall () "g", .dispose () .mark 0 [1] unloadsFailed,
    .dispose () .probe 0 [1] unloadsFailed]

/-- The call ends in the closed handle of worker 0, and nobody resolves the future of the
task that worker 1 had. -/
theorem unload_loses_future : ∃ s t : State Unit, Reachable s ∧ s.pool.closing = false ∧
    "g" ∈ s.pool.groups.keys ∧ s.user () = .idle ∧
    s.pool.assignments.get? "t" = some ("g_R1", 1) ∧ s.pool.futures.get? "t" = some 0 ∧
    Transitions.Execution Step (next s (.unregisterCall () "g")) t ∧
    t.user () = .raised (.valueError "process object is closed") ∧
    t.history.resolutions 0 = [] ∧ t.pool.futures.get? "t" = none := by
  refine ⟨restartFailed.foldl next (started (constructed ["echo"] twoWorkers)),
    (restartFailed ++ unloadRaises).foldl next (started (constructed ["echo"] twoWorkers)),
    reachable_replay (by decide +kernel) (by decide +kernel), by decide +kernel, by decide +kernel,
    by decide +kernel, by decide +kernel, by decide +kernel, ?_, by decide +kernel,
    by decide +kernel, by decide +kernel⟩
  rw [List.foldl_append]
  exact Transitions.Valid.execution (l := unloadRaises.tail) (by decide +kernel)

/-- An unload of a healthy group finishes. -/
theorem healthy_unloads : Finishes Step (unloads ())
    (Unloaded () "g" (started (constructed ["echo"] twoWorkers)))
    (next (started (constructed ["echo"] twoWorkers)) (.unregisterCall () "g")) :=
  ((unregister_unloads ((system Unit).reachable_init (init_constructed (by decide +kernel)))
    (by decide +kernel) (by decide +kernel) rfl).mpr (by decide +kernel)).1

end PoolUnload
