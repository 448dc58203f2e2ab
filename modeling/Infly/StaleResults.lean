import Infly.PoolDelivery

/-! # Results of earlier processes

The processes of the workers answer the requests on their queues, and a result message waits
in the result queue for any length of time. Which process a message comes from is followed
beside the pool; the pool itself sees the worker id and the generation in it.
-/
namespace StaleResults

open Contracts Config PoolState PoolTables PoolAccounting PoolGroups PoolModel PoolFrames
open PoolInvariant PoolDelivery

variable {ι : Type}

/-- One process: the worker state it was launched for, and the generation then. -/
abbrev Incarnation := Ref × ℕ

def incarnation (p : Pool) (r : Ref) : Incarnation := (r, (p.heap r).generation)

/-- What a process writes into its messages. -/
def stamp (p : Pool) (o : Incarnation) : Assignment := ((p.heap o.1).workerId, o.2)

/-- The pool, the requests its processes have still to answer, the messages in the result
queue with the process each came from, the tasks whose request or answer got lost between the
processes, and the process that each future's request went to. -/
structure Wire (ι : Type) where
  state : State ι
  queued : List (TaskId × Incarnation)
  waiting : List (Incarnation × WorkerResultMessage)
  lost : List (TaskId × Incarnation)
  sentTo : FutureId → Option Incarnation

/-- `lose`: the feeder of a task queue cannot pickle the request; `drop`: the feeder in the
process cannot pickle the answer, or ends with the process before it has sent it; `garble`: the
result thread cannot unpickle the message, and ends. -/
inductive WireEvent (ι : Type) where
  | step (e : Event ι)
  | answer (o : Incarnation) (m : WorkerResultMessage)
  | receive (o : Incarnation) (m : WorkerResultMessage)
  | lose (t : TaskId) (o : Incarnation)
  | drop (o : Incarnation) (m : WorkerResultMessage)
  | garble (o : Incarnation) (m : WorkerResultMessage) (e : Raised)

namespace Wire

/-- The processes that may still answer task `t`, or whose answer waits in the queue. -/
def awaited (s : Wire ι) (t : TaskId) : List Incarnation :=
  (s.queued.filter fun x => decide (x.1 = t)).map Prod.snd ++
    (s.waiting.filter fun x => decide (x.2.taskId = t)).map Prod.fst

/-- A booked request is put on its worker's queue; a process that has ended answers nothing
more. -/
def queue (s : Wire ι) : Event ι → List (TaskId × Incarnation)
  | .execute q puts =>
    match execute s.state.pool puts q s.state.history.nextFuture with
    | (_, .assigned r) => s.queued ++ [(q.taskId, incarnation s.state.pool r)]
    | _ => s.queued
  | .processExit r => s.queued.filter fun x => decide (x.2 ≠ incarnation s.state.pool r)
  | _ => s.queued

def sent (s : Wire ι) : Event ι → FutureId → Option Incarnation
  | .execute q puts =>
    match execute s.state.pool puts q s.state.history.nextFuture with
    | (_, .assigned r) =>
      Function.update s.sentTo s.state.history.nextFuture (some (incarnation s.state.pool r))
    | _ => s.sentTo
  | _ => s.sentTo

theorem mem_awaited {s : Wire ι} {t : TaskId} {o : Incarnation} :
    o ∈ s.awaited t ↔ (t, o) ∈ s.queued ∨ ∃ m, (o, m) ∈ s.waiting ∧ m.taskId = t := by
  simp only [awaited, List.mem_append, List.mem_map, List.mem_filter, decide_eq_true_eq]
  constructor
  · rintro (⟨x, ⟨h, rfl⟩, rfl⟩ | ⟨x, ⟨h, rfl⟩, rfl⟩)
    · exact Or.inl h
    · exact Or.inr ⟨x.2, h, rfl⟩
  · rintro (h | ⟨m, h, rfl⟩)
    · exact Or.inl ⟨(t, o), ⟨h, rfl⟩, rfl⟩
    · exact Or.inr ⟨(o, m), ⟨h, rfl⟩, rfl⟩

variable {s : Wire ι} {q : TaskRequest} {puts : List String} {r : Ref}

theorem queue_assigned
    (hx : (execute s.state.pool puts q s.state.history.nextFuture).2 = .assigned r) :
    s.queue (.execute q puts) = s.queued ++ [(q.taskId, incarnation s.state.pool r)] := by
  simp only [queue]
  split
  · rename_i heq
    rw [heq] at hx
    cases hx
    rfl
  · rename_i hne
    exact (hne _ r (Prod.ext rfl hx)).elim

theorem sent_assigned
    (hx : (execute s.state.pool puts q s.state.history.nextFuture).2 = .assigned r) :
    s.sent (.execute q puts) = Function.update s.sentTo s.state.history.nextFuture
      (some (incarnation s.state.pool r)) := by
  simp only [sent]
  split
  · rename_i heq
    rw [heq] at hx
    cases hx
    rfl
  · rename_i hne
    exact (hne _ r (Prod.ext rfl hx)).elim

theorem sent_other {e : Event ι} {f : FutureId} (hf : f ≠ s.state.history.nextFuture) :
    s.sent e f = s.sentTo f := by
  cases e with
  | execute q puts =>
    rcases h : execute s.state.pool puts q s.state.history.nextFuture with ⟨p, out⟩
    cases out <;> simp [sent, h, hf]
  | _ => rfl

theorem mem_queue {e : Event ι} {x : TaskId × Incarnation} (h : x ∈ s.queue e) :
    x ∈ s.queued ∨ ∃ q puts r, e = .execute q puts ∧
      (execute s.state.pool puts q s.state.history.nextFuture).2 = .assigned r ∧
      x = (q.taskId, incarnation s.state.pool r) := by
  unfold queue at h
  split at h
  · rename_i q puts
    split at h
    · rename_i heq
      rcases List.mem_append.mp h with h | h
      · exact Or.inl h
      · exact Or.inr ⟨q, puts, _, rfl, by rw [heq], List.mem_singleton.mp h⟩
    · exact Or.inl h
  · exact Or.inl (List.mem_of_mem_filter h)
  · exact Or.inl h

end Wire

/-- The result loop receives what waits in the queue. -/
def WireEnabled (s : Wire ι) : WireEvent ι → Prop
  | .step (.receive _) | .step (.resultCrash _) => False
  | .step e => Enabled s.state e
  | .answer o m =>
    (m.taskId, o) ∈ s.queued ∧ (m.workerId, m.generation) = stamp s.state.pool o
  | .receive o m => (o, m) ∈ s.waiting ∧ Enabled s.state (.receive m)
  | .lose t o => (t, o) ∈ s.queued
  | .drop o m => (o, m) ∈ s.waiting
  | .garble o m e => (o, m) ∈ s.waiting ∧ Enabled s.state (.resultCrash e)

instance (s : Wire ι) (e : WireEvent ι) : Decidable (WireEnabled s e) := by
  unfold WireEnabled
  split <;> infer_instance

section

variable [DecidableEq ι]

def wireNext (s : Wire ι) : WireEvent ι → Wire ι
  | .step e => ⟨next s.state e, s.queue e, s.waiting, s.lost, s.sent e⟩
  | .answer o m => { s with
      queued := s.queued.erase (m.taskId, o)
      waiting := s.waiting ++ [(o, m)] }
  | .receive o m => { s with
      state := next s.state (.receive m)
      waiting := s.waiting.erase (o, m) }
  | .lose t o => { s with
      queued := s.queued.erase (t, o)
      lost := s.lost ++ [(t, o)] }
  | .drop o m => { s with
      waiting := s.waiting.erase (o, m)
      lost := s.lost ++ [(m.taskId, o)] }
  | .garble o m e => { s with
      state := next s.state (.resultCrash e)
      waiting := s.waiting.erase (o, m)
      lost := s.lost ++ [(m.taskId, o)] }

def quiet (s : State ι) : Wire ι := ⟨s, [], [], [], fun _ => none⟩

def wire (ι : Type) [DecidableEq ι] : Transitions.System (Wire ι) (WireEvent ι) where
  init s := ∃ b, (system ι).init b ∧ s = quiet b
  step s e t := WireEnabled s e ∧ t = wireNext s e

/-- When a request is booked, no other process that writes the same worker id and generation
has an answer to the task outstanding. -/
def Unmixed (s : Wire ι) : WireEvent ι → Prop
  | .step (.execute q puts) =>
    match execute s.state.pool puts q s.state.history.nextFuture with
    | (_, .assigned r) => ∀ o ∈ s.awaited q.taskId,
      stamp s.state.pool o = (s.state.pool.heap r).assignment → o = incarnation s.state.pool r
    | _ => True
  | _ => True

instance (s : Wire ι) (e : WireEvent ι) : Decidable (Unmixed s e) := by
  unfold Unmixed
  split
  · split <;> infer_instance
  · infer_instance

/-! ## The pool under the wire -/

variable {s : Wire ι} {e : WireEvent ι}

theorem wire_state (he : WireEnabled s e) :
    (wireNext s e).state = s.state ∨
      ∃ b, Enabled s.state b ∧ (wireNext s e).state = next s.state b := by
  cases e with
  | step b =>
    refine Or.inr ⟨b, ?_, rfl⟩
    cases b <;> first
      | exact he
      | exact he.elim
  | answer | lose | drop => exact Or.inl rfl
  | receive o m => exact Or.inr ⟨.receive m, he.2, rfl⟩
  | garble o m w => exact Or.inr ⟨.resultCrash w, he.2, rfl⟩

theorem wire_reachable (h : (wire ι).Reachable s) : Reachable s.state := by
  refine Transitions.System.invariant (P := fun s => Reachable s.state) ?_ ?_ h
  · rintro s ⟨b, hb, rfl⟩
    exact Transitions.System.reachable_init hb
  · rintro s e t hr ⟨he, rfl⟩
    rcases wire_state he with hs | ⟨b, hb, hs⟩ <;> rw [hs]
    · exact hr
    · exact hr.next (e := b) ⟨hb, rfl⟩

end

section

variable [DecidableEq ι] {s : State ι} {e : Event ι}

/-- Only `execute` books a task; while a task stays assigned its future stays. -/
theorem booking_next (hp : Consistent s.pool) {t : TaskId} {a : Assignment}
    (h : (next s e).pool.assignments.get? t = some a) :
    s.pool.assignments.get? t = some a ∧
        (next s e).pool.futures.get? t = s.pool.futures.get? t ∨
      ∃ q puts r, e = .execute q puts ∧ q.taskId = t ∧ a = (s.pool.heap r).assignment ∧
        InTable s.pool r ∧ (next s e).pool.futures.get? t = some s.history.nextFuture ∧
        (execute s.pool puts q s.history.nextFuture).2 = .assigned r := by
  cases e
  case execute q puts =>
    simp only [next, executeNext_pool] at h ⊢
    rcases execute_cases (p := s.pool) puts q s.history.nextFuture
      (fun t => (hp.books.keys t).mp) with
      ⟨r, hr, -, -, -, weights, cursors, hx⟩ | ⟨weights, out, hx, -⟩ <;> rw [hx] at h ⊢
    · simp only [assigned, Dict.get?_set] at h ⊢
      by_cases ht : t = q.taskId
      · simp only [ht, ↓reduceIte, Option.some.injEq] at h ⊢
        exact Or.inr ⟨q, puts, r, rfl, rfl, h.symm, inTable_values.mpr hr, trivial, by rw [hx]⟩
      · simp only [ht, ↓reduceIte] at h ⊢
        exact Or.inl ⟨h, trivial⟩
    · exact Or.inl ⟨h, rfl⟩
  all_goals left
  case receive m =>
    simp only [next, receiveNext_pool] at h ⊢
    rcases hp.books.takeResult_eq m with ⟨-, hx⟩ | ⟨r, f, -, -, -, hx⟩ <;> rw [hx] at h ⊢
    · exact ⟨h, rfl⟩
    · simp only [Dict.get?_pop] at h ⊢
      by_cases ht : t = m.taskId
      · simp [ht] at h
      · simpa [ht] using h
  case handleExit r rd =>
    simp only [next] at h ⊢
    rcases handleExitNext_pool (s := s) r rd with hx | ⟨⟨hr, halive⟩, hx⟩ <;> rw [hx] at h ⊢
    · exact ⟨h, rfl⟩
    obtain ⟨weights, hx | ⟨-, x, hx⟩⟩ := handleWorkerExit_cases hp.books hr halive <;>
      rw [hx] at h ⊢
    · simp only [exited, takeWorker_assignments, takeWorker_futures] at h ⊢
      split at h
      · cases h
      · rename_i hne
        exact ⟨h, by rw [if_neg hne]; rfl⟩
    · exact ⟨h, rfl⟩
  case unregisterCall i g =>
    simp only [next, unregisterNext_pool] at h ⊢
    rcases unregisterLocked_cases hp g with ⟨-, x, hx⟩ | ⟨-, -, -, q, failed, hx, hu⟩ <;>
      rw [hx] at h ⊢
    · exact ⟨h, rfl⟩
    obtain ⟨d, -, hret⟩ := hu.retired
    obtain ⟨h, hnot⟩ := (hret.assignments t a).mp h
    refine ⟨h, Option.ext fun f => ?_⟩
    exact (hret.futures t f).trans (and_iff_left hnot)
  case closeTake | shutdownTake =>
    simp [next, closeTakeNext, shutdownTakeNext, takeAllPending] at h
  all_goals
    simp only [next, deliverNext, registerNext, ensureNext, launchNext, publishNext, publishGroup,
      awaitReadyNext, disposeNext, failNext, closeCallNext, newWorkers, addHandler, closeProbeNext,
      closeStopNext, closeFailNext, joinResultNext, closeQueueNext, queuesClosed, closeLogsNext,
      waitNext, checkNext, inspectNext, exitFailNext, dispatchNext, recordNext, relaunchNext,
      awaitRestartNext, completeNext, stopFailedNext, rescheduleNext, shutdownSignalNext,
      shutdownStopNext, shutdownFailNext, shutdownLogsNext] at h ⊢
    revert h
    (repeat' split) <;> intro h <;> first
      | exact ⟨h, rfl⟩
      | exact ⟨h, trivial⟩

/-- A worker id names one worker state for as long as it stays in the table. -/
theorem table_next (hi : Invariant s) (he : Enabled s e) {id : String} {r r' : Ref}
    (h : s.pool.workers.get? id = some r) (h' : (next s e).pool.workers.get? id = some r') :
    r' = r := by
  by_cases hreg : Event.regroups e = false
  · rw [(tables_frame hi.consistent.books hreg).workers, h] at h'
    exact (Option.some.inj h').symm
  cases e <;> simp only [Event.regroups, not_true_eq_false] at hreg
  case publish i job =>
    simp only [Enabled] at he
    have hj : UserPc.job (s.user i) = some job := by rw [he]; rfl
    simp only [next, publishNext] at h'
    split at h'
    · rw [setUser_pool, h] at h'
      exact (Option.some.inj h').symm
    · rename_i hok
      have entry := publish_workers job.handlerNames (hi.jobs i job hj).fresh
        hi.consistent.grouped (ensured_unlisted hok) id
      have := ((entry r).mpr (Or.inl h)).symm.trans h'
      exact (Option.some.inj this).symm
  case unregisterCall i g =>
    simp only [next, unregisterNext_pool] at h'
    rcases unregisterLocked_cases hi.consistent g with
      ⟨-, x, hu⟩ | ⟨-, -, -, q, failed, hu, hq⟩ <;> rw [hu] at h'
    · exact Option.some.inj (h'.symm.trans h)
    · obtain ⟨d, -, hret⟩ := hq.retired
      exact Option.some.inj (((hret.table id r').mp h').1.symm.trans h)

end

/-! ## Following the messages -/

section

variable [DecidableEq ι] {s : Wire ι} {e : WireEvent ι}

/-- What is awaited was awaited before, or its request has just been booked. -/
theorem awaited_next (he : WireEnabled s e) {t : TaskId} {o : Incarnation}
    (ho : o ∈ (wireNext s e).awaited t) :
    o ∈ s.awaited t ∨ ∃ q puts r, e = .step (.execute q puts) ∧
      (execute s.state.pool puts q s.state.history.nextFuture).2 = .assigned r ∧
      t = q.taskId ∧ o = incarnation s.state.pool r := by
  rcases Wire.mem_awaited.mp ho with h | ⟨m, h, rfl⟩
  · cases e with
    | step b =>
      rcases Wire.mem_queue h with h | ⟨q, puts, r, rfl, hx, heq⟩
      · exact Or.inl (Wire.mem_awaited.mpr (Or.inl h))
      · exact Or.inr ⟨q, puts, r, rfl, hx, (Prod.mk.inj heq).1, (Prod.mk.inj heq).2⟩
    | answer | lose => exact Or.inl (Wire.mem_awaited.mpr (Or.inl (List.mem_of_mem_erase h)))
    | receive | drop | garble => exact Or.inl (Wire.mem_awaited.mpr (Or.inl h))
  · left
    cases e with
    | step | lose => exact Wire.mem_awaited.mpr (Or.inr ⟨m, h, rfl⟩)
    | answer o' m' =>
      rcases List.mem_append.mp h with h | h
      · exact Wire.mem_awaited.mpr (Or.inr ⟨m, h, rfl⟩)
      · cases List.mem_singleton.mp h
        exact Wire.mem_awaited.mpr (Or.inl he.1)
    | receive | drop | garble =>
      exact Wire.mem_awaited.mpr (Or.inr ⟨m, List.mem_of_mem_erase h, rfl⟩)

theorem waiting_next {o : Incarnation} {m : WorkerResultMessage}
    (h : (o, m) ∈ (wireNext s e).waiting) : (o, m) ∈ s.waiting ∨ e = .answer o m := by
  cases e with
  | step | lose => exact Or.inl h
  | answer o' m' =>
    rcases List.mem_append.mp h with h | h
    · exact Or.inl h
    · cases List.mem_singleton.mp h
      exact Or.inr rfl
  | receive | drop | garble => exact Or.inl (List.mem_of_mem_erase h)

theorem sent_next {f : FutureId} (hf : f ≠ s.state.history.nextFuture) :
    (wireNext s e).sentTo f = s.sentTo f := by
  cases e with
  | step b => exact Wire.sent_other hf
  | answer | receive | lose | drop | garble => rfl

theorem nextRef_wire (hp : Consistent s.state.pool) (he : WireEnabled s e) :
    s.state.pool.nextRef ≤ (wireNext s e).state.pool.nextRef := by
  rcases wire_state he with hs | ⟨b, -, hs⟩ <;> rw [hs]
  exact nextRef_frame hp

theorem stamp_wire (hp : Consistent s.state.pool) (he : WireEnabled s e) {o : Incarnation}
    (ho : o.1 < s.state.pool.nextRef) :
    stamp (wireNext s e).state.pool o = stamp s.state.pool o := by
  rcases wire_state he with hs | ⟨b, -, hs⟩ <;> rw [hs]
  simp only [stamp, (worker_frame (e := b) hp ho).workerId]

/-- A worker that `execute` books a request on, and the request's id. -/
theorem booked_fresh (hp : Consistent s.state.pool) {q : TaskRequest} {puts : List String}
    {r : Ref} (hx : (execute s.state.pool puts q s.state.history.nextFuture).2 = .assigned r) :
    InTable s.state.pool r ∧ s.state.pool.futures.get? q.taskId = none ∧
      (next s.state (.execute q puts)).pool.assignments.get? q.taskId =
        some (s.state.pool.heap r).assignment ∧
      (next s.state (.execute q puts)).pool.futures.get? q.taskId =
        some s.state.history.nextFuture := by
  simp only [next, executeNext_pool]
  rcases execute_cases (p := s.state.pool) puts q s.state.history.nextFuture
    (fun t => (hp.books.keys t).mp) with ⟨r', hr', -, -, hnew, w, c, h⟩ | ⟨w, out, h, hout⟩ <;>
    rw [h] at hx ⊢
  · cases hx
    exact ⟨inTable_values.mpr hr', hnew, by simp [assigned], by simp [assigned]⟩
  · exact absurd hx (hout r)

/-- Every outstanding answer is from a process of the pool and carries its stamp. -/
structure Stamped (s : Wire ι) : Prop where
  known : ∀ t, ∀ o ∈ s.awaited t, o.1 < s.state.pool.nextRef
  stamped : ∀ o m, (o, m) ∈ s.waiting → (m.workerId, m.generation) = stamp s.state.pool o

theorem stamped_next (ht : Stamped s) (hp : Consistent s.state.pool) (he : WireEnabled s e) :
    Stamped (wireNext s e) := by
  refine ⟨fun t o ho => ?_, fun o m hm => ?_⟩
  · refine lt_of_lt_of_le ?_ (nextRef_wire hp he)
    rcases awaited_next he ho with ho | ⟨q, puts, r, -, hx, -, rfl⟩
    · exact ht.known t o ho
    · exact hp.books.allocated r (booked_fresh hp hx).1
  · rcases waiting_next hm with hm | rfl
    · have ho := ht.known m.taskId o (Wire.mem_awaited.mpr (Or.inr ⟨m, hm, rfl⟩))
      rw [stamp_wire hp he ho]
      exact ht.stamped o m hm
    · exact he.2

/-- Task `t` is assigned to `a`, and only one process may still answer it under that name: the
one its future's request went to, which the table has under the worker id. -/
def Tracked (s : Wire ι) (t : TaskId) (a : Assignment) (f : FutureId) : Prop :=
  ∃ r, s.sentTo f = some (r, a.2) ∧ s.state.pool.workers.get? a.1 = some r ∧
    ∀ o ∈ s.awaited t, stamp s.state.pool o = a → o = (r, a.2)

def Traced (s : Wire ι) : Prop :=
  ∀ t a f, s.state.pool.assignments.get? t = some a →
    s.state.pool.futures.get? t = some f → Tracked s t a f

/-- A task that stays assigned keeps its process. -/
theorem Tracked.kept {t : TaskId} {a : Assignment} {f : FutureId} (h : Tracked s t a f)
    (hs : Stamped s) (hr : Reachable s.state) (he : WireEnabled s e)
    (hf : s.state.pool.futures.get? t = some f)
    (ha' : (wireNext s e).state.pool.assignments.get? t = some a) :
    Tracked (wireNext s e) t a f := by
  have hi := reachable_invariant hr
  have hp := hi.consistent
  obtain ⟨r, hsent, htab, honly⟩ := h
  have hd := reachable_delivery hr
  have hold : f ≠ s.state.history.nextFuture := by
    rintro rfl
    have := (hd.table t _ hf).1
    rw [(hd.unused _ (le_refl _)).1] at this
    cases this
  refine ⟨r, (sent_next hold).trans hsent, ?_, fun o ho hstamp => ?_⟩
  · rcases wire_state he with hst | ⟨b, hb, hst⟩ <;> rw [hst] at ha' ⊢
    · exact htab
    · obtain ⟨r', hr', -⟩ := (invariant_next hi hb).consistent.books.owner t a ha'
      rw [hr', table_next hi hb htab hr']
  · rcases awaited_next he ho with ho | ⟨q, puts, r', -, hx, rfl, -⟩
    · rw [stamp_wire hp he (hs.known t o ho)] at hstamp
      exact honly o ho hstamp
    · rw [(booked_fresh hp hx).2.1] at hf
      cases hf

/-- A request is booked while nothing is outstanding that its process could be taken for. -/
theorem tracked_booked (hs : Stamped s) (hr : Reachable s.state) {q : TaskRequest}
    {puts : List String} {r : Ref}
    (hx : (execute s.state.pool puts q s.state.history.nextFuture).2 = .assigned r)
    (hun : ∀ o ∈ s.awaited q.taskId,
      stamp s.state.pool o = (s.state.pool.heap r).assignment → o = incarnation s.state.pool r) :
    Tracked (wireNext s (.step (.execute q puts))) q.taskId (s.state.pool.heap r).assignment
      s.state.history.nextFuture := by
  have hp := (reachable_invariant hr).consistent
  have he : WireEnabled s (.step (.execute q puts)) := trivial
  obtain ⟨hin, -⟩ := booked_fresh hp hx
  have hworkers : (next s.state (.execute q puts)).pool.workers = s.state.pool.workers :=
    (tables_frame (e := .execute q puts) hp.books rfl).workers
  refine ⟨r, ?_, ?_, fun o ho hstamp => ?_⟩
  · show s.sent (.execute q puts) _ = _
    rw [Wire.sent_assigned hx, Function.update_self]
    rfl
  · show (next s.state (.execute q puts)).pool.workers.get? _ = _
    rw [hworkers]
    exact hp.books.inTable.mp hin
  · rcases awaited_next he ho with ho | ⟨q', puts', r', heq, hx', -, rfl⟩
    · rw [stamp_wire hp he (hs.known _ o ho)] at hstamp
      exact hun o ho hstamp
    · cases heq
      cases hx'.symm.trans hx
      rfl

omit [DecidableEq ι] in
theorem unmixed_booked {q : TaskRequest} {puts : List String} {r : Ref}
    (hx : (execute s.state.pool puts q s.state.history.nextFuture).2 = .assigned r) :
    Unmixed s (.step (.execute q puts)) ↔ ∀ o ∈ s.awaited q.taskId,
      stamp s.state.pool o = (s.state.pool.heap r).assignment → o = incarnation s.state.pool r := by
  simp only [Unmixed]
  split
  · rename_i heq
    rw [heq] at hx
    cases hx
    rfl
  · rename_i hne
    exact (hne _ r (Prod.ext rfl hx)).elim

theorem traced_next (ht : Traced s) (hs : Stamped s) (hr : Reachable s.state)
    (he : WireEnabled s e) (hun : Unmixed s e) : Traced (wireNext s e) := by
  have hp := (reachable_invariant hr).consistent
  intro t a f ha hf
  have old : s.state.pool.assignments.get? t = some a →
      s.state.pool.futures.get? t = some f → Tracked (wireNext s e) t a f := fun ha' hf' =>
    (ht t a f ha' hf').kept hs hr he hf' ha
  cases e with
  | answer | lose | drop | garble => exact old ha hf
  | receive o m =>
    rcases booking_next (e := .receive m) hp ha with ⟨hold, hsame⟩ | ⟨q, puts, r, heq, -⟩
    · exact old hold (hsame.symm.trans hf)
    · cases heq
  | step b =>
    rcases booking_next (e := b) hp ha with
      ⟨hold, hsame⟩ | ⟨q, puts, r, rfl, rfl, rfl, -, hfut, hx⟩
    · exact old hold (hsame.symm.trans hf)
    · cases hfut.symm.trans hf
      exact tracked_booked hs hr hx ((unmixed_booked hx).mp hun)

theorem reachable_stamped (h : (wire ι).Reachable s) : Stamped s := by
  refine Transitions.System.invariant_reachable ?_ ?_ h
  · rintro s ⟨b, -, rfl⟩
    exact ⟨fun t o ho => (by cases ho), fun o m hm => (by cases hm)⟩
  · rintro s e t hr hs ⟨he, rfl⟩
    exact stamped_next hs (reachable_invariant (wire_reachable hr)).consistent he

theorem reachable_traced (h : ((wire ι).restrict Unmixed).Reachable s) : Traced s := by
  refine Transitions.System.invariant_reachable ?_ ?_ h
  · rintro s ⟨b, ⟨registry, groups, p, pipe, logs, -, hp, rfl⟩, rfl⟩ t a f ha hf
    rw [show (quiet (started p pipe logs : State ι)).state.pool.futures = Dict.empty from
      (construct_prepared hp).fresh] at hf
    cases hf
  · rintro s e t hr ht ⟨hun, he, rfl⟩
    have hr := Transitions.System.restrict_reachable hr
    exact traced_next ht (reachable_stamped hr) (wire_reachable hr) he hun

/-! ## What a received message resolves -/

/-- Message `m` waits in the queue, and future `f` would be resolved with it if it were
received now. -/
def Resolves (s : Wire ι) (o : Incarnation) (m : WorkerResultMessage) (f : FutureId) : Prop :=
  (o, m) ∈ s.waiting ∧ (takeResult s.state.pool m).2 = some (some f)

theorem takeResult_future (p : Pool) (m : WorkerResultMessage) (f : FutureId) :
    (takeResult p m).2 = some (some f) ↔
      p.assignments.get? m.taskId = some (m.workerId, m.generation) ∧
        p.futures.get? m.taskId = some f := by
  unfold takeResult
  split
  · rename_i ha
    have taken : ∀ x : Pool × Option (Option FutureId), x.2 = some (p.futures.get? m.taskId) →
        (x.2 = some (some f) ↔ p.assignments.get? m.taskId = some (m.workerId, m.generation) ∧
          p.futures.get? m.taskId = some f) := by
      intro x hx
      rw [hx, Option.some.injEq, and_iff_right ha]
    repeat' split
    all_goals exact taken _ rfl
  · rename_i ha
    simp [ha]

/-- A booking that another process's outstanding answer fits is answered by that process: at
once, or as soon as it puts its answer into the queue. -/
theorem mixed_resolves (hr : (wire ι).Reachable s) (he : WireEnabled s e) (hmix : ¬ Unmixed s e) :
    ∃ t, Transitions.Execution (wire ι).step (wireNext s e) t ∧
      ∃ o m f, Resolves t o m f ∧ t.sentTo f ≠ some o := by
  have hp := (reachable_invariant (wire_reachable hr)).consistent
  have hs := reachable_stamped hr
  obtain ⟨q, puts, r, rfl, hx⟩ : ∃ q puts r, e = .step (.execute q puts) ∧
      (execute s.state.pool puts q s.state.history.nextFuture).2 = .assigned r := by
    unfold Unmixed at hmix
    split at hmix
    · rename_i q puts
      split at hmix
      · rename_i heq
        exact ⟨q, puts, _, rfl, by rw [heq]⟩
      · exact absurd trivial hmix
    · exact absurd trivial hmix
  rw [unmixed_booked hx] at hmix
  simp only [Classical.not_forall] at hmix
  obtain ⟨o, ho, hstamp, hne⟩ := hmix
  obtain ⟨-, -, hassigned, hfuture⟩ := booked_fresh hp hx
  have hsent : (wireNext s (.step (.execute q puts))).sentTo s.state.history.nextFuture =
      some (incarnation s.state.pool r) :=
    (congrFun (Wire.sent_assigned hx) _).trans (Function.update_self ..)
  have hother : (wireNext s (.step (.execute q puts))).sentTo s.state.history.nextFuture ≠
      some o := by
    rw [hsent]
    exact fun h => hne (Option.some.inj h).symm
  have fits : ∀ m : WorkerResultMessage, m.taskId = q.taskId →
      (m.workerId, m.generation) = stamp s.state.pool o →
      (takeResult (next s.state (.execute q puts)).pool m).2 =
        some (some s.state.history.nextFuture) := by
    intro m ht hm
    rw [takeResult_future, ht, hm, hstamp]
    exact ⟨hassigned, hfuture⟩
  rcases Wire.mem_awaited.mp ho with hq | ⟨m, hm, ht⟩
  · let m : WorkerResultMessage := ⟨true, q.taskId, (stamp s.state.pool o).1, o.2, none, none, none⟩
    have hin : (q.taskId, o) ∈ (wireNext s (.step (.execute q puts))).queued := by
      show (q.taskId, o) ∈ s.queue (.execute q puts)
      rw [Wire.queue_assigned hx]
      exact List.mem_append_left _ hq
    have hanswer : WireEnabled (wireNext s (.step (.execute q puts))) (.answer o m) :=
      ⟨hin, (stamp_wire hp he (hs.known _ o ho)).symm⟩
    exact ⟨_, .single (e := .answer o m) ⟨hanswer, rfl⟩, o, m, _,
      ⟨List.mem_append_right _ (List.mem_singleton.mpr rfl), fits m rfl rfl⟩, hother⟩
  · exact ⟨_, .refl _, o, m, _, ⟨hm, fits m ht (hs.stamped o m hm)⟩, hother⟩

/-- Where nothing is booked while another process's answer fits it, a message resolves a
future only if it comes from the process the future's request went to, which still is the
process of a registered worker; and no weaker condition does. -/
theorem results_from_assigned_process :
    (∀ s : Wire ι, ((wire ι).restrict Unmixed).Reachable s → ∀ o m f, Resolves s o m f →
      s.sentTo f = some o ∧ s.state.pool.workers.get? m.workerId = some o.1 ∧
        (s.state.pool.heap o.1).generation = o.2) ∧
    ∀ (s : Wire ι) (e : WireEvent ι), (wire ι).Reachable s → WireEnabled s e → ¬ Unmixed s e →
      ∃ t, Transitions.Execution (wire ι).step (wireNext s e) t ∧
        ∃ o m f, Resolves t o m f ∧ t.sentTo f ≠ some o := by
  refine ⟨fun s h o m f ⟨hm, hres⟩ => ?_, fun s e hr he hmix => mixed_resolves hr he hmix⟩
  have hr := Transitions.System.restrict_reachable h
  have hs := reachable_stamped hr
  obtain ⟨ha, hf⟩ := (takeResult_future _ m f).mp hres
  obtain ⟨r, hsent, htab, honly⟩ := reachable_traced h m.taskId _ f ha hf
  have ho : o = (r, m.generation) :=
    honly o (Wire.mem_awaited.mpr (Or.inr ⟨m, hm, rfl⟩)) (hs.stamped o m hm).symm
  subst ho
  refine ⟨hsent, htab, ?_⟩
  have hb := (reachable_invariant (wire_reachable hr)).consistent.books
  obtain ⟨r', hr', howner⟩ := hb.owner m.taskId _ ha
  cases hr'.symm.trans htab
  exact (Prod.mk.inj howner).2

end

/-! ## A group that is unloaded and loaded again -/

def answer (output : String) : WorkerResultMessage :=
  { ok := true, taskId := "t", workerId := "g_R0", generation := 1,
    payload := some { taskId := "t", output := [("answer", output)] } }

def request : TaskRequest := { handlerName := "echo", taskId := "t" }

/-- The only worker answers a request; nobody has received the answer yet. -/
def answeredLate : List (WireEvent Unit) :=
  [.step (.execute request []), .answer (0, 1) (answer "old")]

/-- The group is unregistered, its process stopped, and the request's future failed. -/
def unloads : List (Event Unit) :=
  let e : PlatformError := ⟨.workerUnavailable, "WorkerGroup 'g' was unloaded"⟩
  let next : AfterDispose := .failFutures [0] e
  [.unregisterCall () "g", .dispose () .mark 0 [] next, .dispose () .probe 0 [] next,
    .dispose () (.stop .join) 0 [] next, .dispose () (.stop .probe) 0 [] next,
    .dispose () (.stop .terminate) 0 [] next, .processExit 0,
    .dispose () (.stop .rejoin) 0 [] next, .dispose () (.stop .close) 0 [] next,
    .dispose () (.stop .mark) 0 [] next, .dispose () .closeQueues 0 [] next, .fail () 0 [] e]

/-- A group of the same name is registered, and the request executed again. -/
def reloads : List (Event Unit) :=
  let job : Registration := ⟨sampleGroup, ["echo"], [1]⟩
  [.registerCall () sampleGroup, .ensure () job, .launch () job 1 [] .started,
    .awaitReady () job 1 [] .ready, .publish () job, .execute request []]

def mixed : List (WireEvent Unit) :=
  answeredLate ++ (unloads ++ reloads).map .step

def pool : State Unit := started (constructed ["echo"] [sampleGroup])

/-- The answer of the process that was stopped resolves the future of the second call, which
went to the new process. -/
theorem stale_result_resolves : ∃ s : Wire Unit, (wire Unit).Reachable s ∧
    s.state.history.resolutions 0 ≠ [] ∧ s.state.pool.workers.get? "g_R0" = some 1 ∧
    s.sentTo 1 = some (1, 1) ∧ Resolves s (0, 1) (answer "old") 1 ∧
    (([.receive (0, 1) (answer "old"), .step (.deliver (some 1) (answer "old"))].foldl
      wireNext s).state.history.resolutions 1 = [.result (answer "old").payload]) := by
  have hr : (wire Unit).Reachable (mixed.foldl wireNext (quiet pool)) :=
    Transitions.Valid.reachable (E := WireEnabled) (by decide +kernel)
      ⟨_, init_constructed (by decide +kernel), rfl⟩ fun s e he => ⟨he, rfl⟩
  exact ⟨_, hr, by decide +kernel, by decide +kernel, by decide +kernel,
    ⟨by decide +kernel, by decide +kernel⟩, by decide +kernel⟩

theorem answered_by_its_process : ∃ s : Wire Unit,
    Resolves s (0, 1) (answer "old") 0 ∧ s.sentTo 0 = some (0, 1) := by
  have hr : ((wire Unit).restrict Unmixed).Reachable (answeredLate.foldl wireNext (quiet pool)) :=
    Transitions.Valid.reachable (E := fun s e => Unmixed s e ∧ WireEnabled s e)
      (by decide +kernel) ⟨_, init_constructed (by decide +kernel), rfl⟩
      fun s e h => ⟨h.1, h.2, rfl⟩
  have hres : Resolves (answeredLate.foldl wireNext (quiet pool)) (0, 1) (answer "old") 0 :=
    ⟨by decide +kernel, by decide +kernel⟩
  exact ⟨_, hres, (results_from_assigned_process.1 _ hr _ _ _ hres).1⟩

end StaleResults
