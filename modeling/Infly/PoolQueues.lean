import Infly.PoolHandles

/-! # What is unread in a task queue

A request is put on the queue of a worker that is in the table, and a worker gets a new queue when
it is launched. So the queue of a worker that has left the table, or of any worker while the pool
is closing, gets ever emptier, but for the message that has the process end.
-/
namespace PoolQueues

open Contracts Config PoolState PoolTables PoolAccounting PoolGroups PoolModel PoolFrames
open PoolInvariant

variable {ι : Type}

/-- The worker that a step sends the stop message. -/
def Event.signals : Event ι → Option Ref
  | .closeProbe _ r _ | .dispose _ .probe r _ _ => some r
  | _ => none

/-- The worker that a step launches. -/
def Event.launches : Event ι → Option Ref
  | .launch _ _ r _ _ | .relaunch r _ _ => some r
  | _ => none

/-- What `put(None)` adds to the queue of such a worker. -/
def stopMessages (w : WorkerState) : List (Option TaskRequest) :=
  if w.process = some .running ∧ w.taskQueue = true then [none] else []

/-- With this added to it, `_close_queue` gets past the worker's queue: there is none, its feeder
is joined already, or the pipe takes it all. -/
def Joinable (s : State ι) (r : Ref) (more : List (Option TaskRequest)) : Prop :=
  s.unjoined r = true → s.queues.pipe.fits (s.queues.unread r ++ more) = true

instance (s : State ι) (r : Ref) (more : List (Option TaskRequest)) :
    Decidable (Joinable s r more) := inferInstanceAs (Decidable (_ → _))

/-- `_close_queue` will get past the queue of a worker that is still to be sent the message. -/
abbrev Emptying (s : State ι) (r : Ref) : Prop := Joinable s r (stopMessages (s.pool.heap r))

/-! ## Puts -/

section Puts

variable {q : TaskQueues} {r r' : Ref} {m : Option TaskRequest} {w : WorkerState}
  {l : List (Option TaskRequest)} {o : LaunchOutcome}

@[simp] theorem keep_pipe : (q.keep r l).pipe = q.pipe := rfl
@[simp] theorem keep_joined : (q.keep r l).joined = q.joined := rfl
@[simp] theorem keep_unread : (q.keep r l).unread = Function.update q.unread r l := rfl
@[simp] theorem put_pipe : (q.put r m).pipe = q.pipe := rfl
@[simp] theorem put_joined : (q.put r m).joined = q.joined := rfl
@[simp] theorem join_pipe : (q.join r).pipe = q.pipe := rfl
@[simp] theorem join_unread : (q.join r).unread = q.unread := rfl
@[simp] theorem join_joined : (q.join r).joined = Function.update q.joined r true := rfl

theorem put_unread : (q.put r m).unread = Function.update q.unread r (q.unread r ++ [m]) := rfl

@[simp] theorem sendStop_pipe : (q.sendStop r w).pipe = q.pipe := by
  unfold TaskQueues.sendStop
  split <;> rfl

@[simp] theorem sendStop_joined : (q.sendStop r w).joined = q.joined := by
  unfold TaskQueues.sendStop
  split <;> rfl

theorem sendStop_unread :
    (q.sendStop r w).unread = Function.update q.unread r (q.unread r ++ stopMessages w) := by
  unfold TaskQueues.sendStop stopMessages
  split
  · rfl
  · rw [List.append_nil, Function.update_eq_self]

@[simp] theorem launch_pipe : (q.launch r o).pipe = q.pipe := by
  unfold TaskQueues.launch
  split <;> rfl

theorem launch_other (h : r' ≠ r) :
    (q.launch r o).unread r' = q.unread r' ∧ (q.launch r o).joined r' = q.joined r' := by
  unfold TaskQueues.launch
  split
  · exact ⟨rfl, rfl⟩
  · exact ⟨Function.update_of_ne h _ _, Function.update_of_ne h _ _⟩

end Puts

/-! ## One step -/

/-- `q'` has no more of worker `r` than `q`. -/
structure Emptier (q q' : TaskQueues) (r : Ref) : Prop where
  pipe : q'.pipe = q.pipe
  unread : (q'.unread r).Sublist (q.unread r)
  joined : q.joined r = true → q'.joined r = true

theorem Emptier.rfl' (q : TaskQueues) (r : Ref) : Emptier q q r := ⟨rfl, List.Sublist.refl _, id⟩

/-- The same queue, perhaps emptier. -/
structure SameQueue (s t : State ι) (r : Ref) : Prop where
  queue : Emptier s.queues t.queues r
  shut : (s.pool.heap r).taskQueue = false → (t.pool.heap r).taskQueue = false
  running : (t.pool.heap r).process = some .running → (s.pool.heap r).process = some .running

theorem SameQueue.unjoined {s t : State ι} {r : Ref} (h : SameQueue s t r)
    (ht : t.unjoined r = true) : s.unjoined r = true := by
  simp only [State.unjoined, Bool.and_eq_true, Bool.not_eq_true'] at ht ⊢
  refine ⟨?_, ?_⟩
  · by_contra hq
    rw [h.shut (by simpa using hq)] at ht
    cases ht.1
  · by_contra hj
    rw [h.queue.joined (by simpa using hj)] at ht
    cases ht.2

theorem SameQueue.stopMessages {s t : State ι} {r : Ref} (h : SameQueue s t r) :
    (stopMessages (t.pool.heap r)).Sublist (stopMessages (s.pool.heap r)) := by
  unfold PoolQueues.stopMessages
  split
  · rename_i ht
    rw [if_pos]
    refine ⟨h.running ht.1, ?_⟩
    by_contra hq
    rw [h.shut (by simpa using hq)] at ht
    cases ht.2
  · exact List.nil_sublist _

/-- What the pipe took, it takes of a queue that is emptier. -/
theorem SameQueue.joinable {s t : State ι} {r : Ref} {more less : List (Option TaskRequest)}
    (h : SameQueue s t r) (hl : less.Sublist more) (hs : Joinable s r more) :
    Joinable t r less := by
  intro ht
  rw [h.queue.pipe]
  exact s.queues.pipe.fewer _ _ (h.queue.unread.append hl) (hs (h.unjoined ht))

theorem SameQueue.drained {s t : State ι} {r : Ref} (h : SameQueue s t r)
    (hs : s.drained r = true) : t.drained r = true := by
  unfold State.drained
  rw [h.queue.pipe]
  exact s.queues.pipe.fewer _ _ h.queue.unread hs

theorem Joinable.drained {s : State ι} {r : Ref} (h : Joinable s r []) (hu : s.unjoined r = true) :
    s.drained r = true := by
  simpa only [State.drained, List.append_nil] using h hu

section

variable [DecidableEq ι] {s : State ι} {e : Event ι} {r : Ref}

omit [DecidableEq ι] in
theorem executeNext_queues (hp : Consistent s.pool) (q : TaskRequest) (puts : List String) :
    (executeNext s q puts).queues = s.queues ∨
      ∃ r, InTable s.pool r ∧ s.pool.accepting = true ∧
        (executeNext s q puts).queues = s.queues.put r (some q) := by
  unfold executeNext
  dsimp only
  rcases execute_cases (p := s.pool) puts q s.history.nextFuture (fun t => (hp.books.keys t).mp)
    with ⟨r, hr, -, ha, -, weights, cursors, h⟩ | ⟨weights, out, h, hout⟩ <;> rw [h]
  · exact .inr ⟨r, inTable_values.mpr hr, ha, rfl⟩
  · cases out with
    | assigned r => exact absurd rfl (hout r)
    | rejected | raised => exact .inl rfl

omit [DecidableEq ι] in
theorem joinable_congr {t : State ι} {more less : List (Option TaskRequest)}
    (hp : t.queues.pipe = s.queues.pipe)
    (hu : t.queues.unread r ++ less = s.queues.unread r ++ more)
    (hn : t.unjoined r = s.unjoined r) : Joinable t r less ↔ Joinable s r more := by
  unfold Joinable
  rw [hp, hu, hn]

theorem stopProcess_taskQueue {w v : WorkerState} {k : StopStep} {k' : Option StopStep}
    (h : stopProcess w k = .ok (v, k')) : v.taskQueue = w.taskQueue := by
  cases k with
  | close | mark => cases h; rfl
  | join | probe | terminate | rejoin =>
    cases hp : w.process with
    | none => simp only [stopProcess, hp] at h; cases h; rfl
    | some p =>
      simp only [stopProcess, hp] at h
      obtain ⟨a, _, ha⟩ := Traversal.bind_ok_iff.mp h
      first
        | (cases ha; rfl)
        | (cases a <;> (cases ha; rfl))

/-- The generation and the missing queue of a worker stay until it is launched. -/
structure Unlaunched (w v : WorkerState) : Prop where
  generation : v.generation = w.generation
  shut : w.taskQueue = false → v.taskQueue = false

theorem stopProcess_unlaunched {w v : WorkerState} {k : StopStep} {k' : Option StopStep}
    (h : stopProcess w k = .ok (v, k')) : Unlaunched w v :=
  ⟨(stopProcess_ok h).1.generation, (stopProcess_taskQueue h).trans⟩

theorem scheduleRestart_unlaunched (w : WorkerState) (now : ℚ) :
    Unlaunched w (scheduleRestart w now) := by
  refine ⟨(scheduleRestart_books w now).1.generation, ?_⟩
  simp only [scheduleRestart]
  split <;> exact id

theorem unlaunched_frame (hp : Consistent s.pool) (hr : r < s.pool.nextRef)
    (h : Event.launches e ≠ some r) :
    Unlaunched (s.pool.heap r) ((next s e).pool.heap r) := by
  have same : Unlaunched (s.pool.heap r) (s.pool.heap r) := ⟨rfl, id⟩
  have modify : ∀ (r' : Ref) (f : WorkerState → WorkerState),
      (r' = r → Unlaunched (s.pool.heap r) (f (s.pool.heap r))) →
      Unlaunched (s.pool.heap r) ((s.pool.modify r' f).heap r) := by
    intro r' f hf
    by_cases e : r = r'
    · subst e; simpa using hf rfl
    · simpa [e] using same
  have plain : ∀ (r' : Ref) (f : WorkerState → WorkerState),
      (∀ w, (f w).generation = w.generation ∧ (w.taskQueue = false → (f w).taskQueue = false)) →
      Unlaunched (s.pool.heap r) ((s.pool.modify r' f).heap r) := fun r' f hf =>
    modify r' f fun _ => ⟨(hf _).1, (hf _).2⟩
  cases e
  case execute q puts =>
    simp only [next, executeNext_pool]
    rcases execute_cases (p := s.pool) puts q s.history.nextFuture
      (fun t => (hp.books.keys t).mp) with
      ⟨r', -, -, -, -, weights, cursors, h⟩ | ⟨weights, out, h, -⟩ <;> rw [h]
    · exact plain r' (fun w => { w with outstanding := w.outstanding + 1 }) fun _ => ⟨rfl, id⟩
    · exact same
  case receive m =>
    simp only [next, receiveNext_pool]
    rcases hp.books.takeResult_eq m with ⟨-, h⟩ | ⟨r', f, -, -, -, h⟩ <;> rw [h]
    · exact same
    · exact plain r' (fun w => { w with outstanding := w.outstanding - 1 }) fun _ => ⟨rfl, id⟩
  case handleExit r' rd =>
    simp only [next]
    rcases handleExitNext_pool (s := s) r' rd with h | ⟨⟨hr', halive⟩, h⟩ <;> rw [h]
    · exact same
    obtain ⟨weights, h | ⟨-, e, h⟩⟩ := handleWorkerExit_cases hp.books hr' halive <;> rw [h]
    · by_cases e : r = r'
      · subst e
        simpa [exited, takeWorkerFuturesLocked] using
          (⟨rfl, id⟩ : Unlaunched (s.pool.heap r)
            { s.pool.heap r with alive := false, outstanding := 0 })
      · simpa [exited, takeWorkerFuturesLocked, e] using same
    · exact plain r' (fun w => { w with alive := false }) fun _ => ⟨rfl, id⟩
  case unregisterCall i g =>
    simp only [next, unregisterNext_pool]
    rcases unregisterLocked_cases hp g with ⟨-, e, h⟩ | ⟨-, -, -, q, failed, h, hu⟩ <;> rw [h]
    · exact same
    obtain ⟨d, -, hret⟩ := hu.retired
    simp only [hret.heap]
    split
    · exact ⟨rfl, id⟩
    · exact same
  case registerCall i group =>
    simp only [next, registerNext]
    split
    · exact same
    · simpa only [setUser_pool, newWorkers_heap _ _ hr] using same
  case launch i job r' rest o =>
    simp only [Event.launches, ne_eq, Option.some.injEq] at h
    simp only [next, launchNext]
    split <;> exact modify r' (launchWorker · o) fun e => absurd e h
  case relaunch r' rd o =>
    simp only [Event.launches, ne_eq, Option.some.injEq] at h
    simp only [next, relaunchNext]
    split
    · exact same
    · exact modify r' (launchWorker · o) fun e => absurd e h
  case schedule r' rd =>
    exact modify r' (scheduleRestart · rd.now) fun _ => scheduleRestart_unlaunched ..
  case reschedule r' rd =>
    simp only [next, rescheduleNext]
    split
    · exact same
    · exact modify r' (scheduleRestart · s.clock) fun _ => scheduleRestart_unlaunched ..
  case closeTake | shutdownTake =>
    simp only [next, closeTakeNext, shutdownTakeNext, takeAllPending, setUser_pool]
    split <;> exact ⟨rfl, id⟩
  case dispose | closeStop | closeQueue | joinQueue | stopFailed | shutdownStop =>
    simp only [next, disposeNext, closeStopNext, closeQueueNext, queuesClosed, stopFailedNext,
      shutdownStopNext]
    (repeat' split) <;> first
      | exact same
      | exact plain _ (fun w => { w with retiring := true, nextRestartAt := none })
          fun _ => ⟨rfl, id⟩
      | exact plain _ (fun w => { w with taskQueue := false, lifecycleQueue := false })
          fun _ => ⟨rfl, fun _ => rfl⟩
      | (rename_i w' k' heq
         refine modify _ (fun _ => w') ?_
         rintro rfl
         exact stopProcess_unlaunched heq)
  all_goals
    simp only [next, deliverNext, ensureNext, failNext, closeCallNext, addHandler, awaitReadyNext,
      closeProbeNext, joinResultNext, closeFailNext, waitNext, checkNext, inspectNext, exitFailNext,
      dispatchNext, recordNext, awaitRestartNext, completeNext, shutdownSignalNext,
      shutdownFailNext, shutdownLogsNext, publishNext, publishGroup]
    (repeat' split) <;> first
      | exact same
      | exact plain _ (fun w => { w with alive := _ }) fun _ => ⟨rfl, id⟩
      | exact plain _ (fun w => { w with process := _ }) fun _ => ⟨rfl, id⟩
      | exact plain _ (fun w => { w with nextRestartAt := _, restartTimes := _ })
          fun _ => ⟨rfl, id⟩

/-- A queue gets a message in `execute` and in the step that sends the stop message. -/
theorem queues_frame (hp : Consistent s.pool) (hs : InTable s.pool r → s.pool.closing = true)
    (hl : Event.launches e ≠ some r) (hm : Event.signals e ≠ some r) :
    Emptier s.queues (next s e).queues r := by
  have same : Emptier s.queues s.queues r := .rfl' _ _
  have keep : ∀ (r' : Ref) (l : List (Option TaskRequest)), l.Sublist (s.queues.unread r') →
      Emptier s.queues (s.queues.keep r' l) r := by
    intro r' l hl
    refine ⟨rfl, ?_, id⟩
    by_cases hr : r = r'
    · subst hr; simpa using hl
    · simp [hr]
  have apart : ∀ {r' : Ref}, some r' ≠ some r → r ≠ r' := fun h hr => h (hr ▸ rfl)
  cases e
  case execute q puts =>
    rcases executeNext_queues hp q puts with h | ⟨r', hr', ha, h⟩ <;> simp only [next, h]
    · exact same
    · have hne : r ≠ r' := by
        rintro rfl
        have hopen := hp.books.flags
        rw [hs hr', ha] at hopen
        cases hopen
      exact ⟨rfl, by simp [put_unread, hne], id⟩
  case launch i job r' rest o =>
    obtain ⟨hu, hj⟩ := launch_other (q := s.queues) (o := o) (apart hl)
    have launched : Emptier s.queues (s.queues.launch r' o) r :=
      ⟨launch_pipe, hu ▸ List.Sublist.refl _, fun h => hj ▸ h⟩
    simp only [next, launchNext]
    split <;> exact launched
  case relaunch r' rd o =>
    obtain ⟨hu, hj⟩ := launch_other (q := s.queues) (o := o) (apart hl)
    simp only [next, relaunchNext]
    split
    · exact same
    · exact ⟨launch_pipe, hu ▸ List.Sublist.refl _, fun h => hj ▸ h⟩
  case read r' => exact keep r' _ (List.tail_sublist _)
  case drop r' k => exact keep r' _ (List.eraseIdx_sublist _ _)
  case closeProbe i r' rest =>
    have hne := apart hm
    simp only [next, closeProbeNext]
    split
    · exact same
    · exact ⟨sendStop_pipe, by simp [sendStop_unread, hne], by simp⟩
  case dispose i k r' rest a =>
    cases k with
    | probe =>
      have hne := apart hm
      simp only [next, disposeNext]
      split
      · exact same
      · exact ⟨sendStop_pipe, by simp [sendStop_unread, hne], by simp⟩
    | mark | closeQueues => exact same
    | stop k =>
      simp only [next, disposeNext]
      split <;> exact same
  case closeQueue i r' rest =>
    simp only [next, closeQueueNext, queuesClosed]
    split
    · refine ⟨rfl, List.Sublist.refl _, fun h => ?_⟩
      by_cases hr : r = r'
      · subst hr; simp
      · simpa [hr] using h
    · exact same
  all_goals
    simp only [next, receiveNext, deliverNext, registerNext, ensureNext, awaitReadyNext,
      publishNext, unregisterNext, failNext, closeCallNext, closeStopNext, joinResultNext,
      closeTakeNext, closeFailNext, queuesClosed, closeLogsNext, waitNext, checkNext, inspectNext,
      handleExitNext, exitFailNext, dispatchNext, recordNext, awaitRestartNext, completeNext,
      stopFailedNext, rescheduleNext, shutdownSignalNext, shutdownStopNext, shutdownTakeNext,
      shutdownFailNext, shutdownLogsNext]
    (repeat' split) <;> exact same

/-- The queue of a worker that nobody hands requests any more. -/
theorem same_queue (hp : Consistent s.pool) (hr : r < s.pool.nextRef)
    (hs : InTable s.pool r → s.pool.closing = true)
    (hl : ∀ i job rest o, e ≠ .launch i job r rest o) (hm : Event.signals e ≠ some r) :
    SameQueue s (next s e) r := by
  by_cases hre : ∃ rd o, e = .relaunch r rd o
  · obtain ⟨rd, o, rfl⟩ := hre
    have hskip : skips s.pool r = true := by
      by_cases ht : InTable s.pool r
      · simp [skips, hs ht]
      · exact PoolHandles.skips_outside ht
    have hnext : next s (.relaunch r rd o) = { s with supervisor := rd.continue } := by
      simp only [next, relaunchNext, hskip, ↓reduceIte]
    rw [hnext]
    exact ⟨.rfl' _ _, id, id⟩
  have hlaunch : Event.launches e ≠ some r := by
    intro h
    unfold Event.launches at h
    split at h <;> cases h
    · exact hl _ _ _ _ rfl
    · exact hre ⟨_, _, rfl⟩
  have kept := unlaunched_frame hp hr hlaunch
  refine ⟨queues_frame hp hs hlaunch hm, kept.shut, fun hrun => ?_⟩
  rcases (worker_frame (e := e) hp hr).launched with ⟨-, h⟩ | h
  · exact h hrun
  · rw [kept.generation] at h
    omega

end

end PoolQueues
