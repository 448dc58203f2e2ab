import Infly.PoolDelivery
import Infly.Progress

/-! # Who takes a future settles it

Only an unload can lose the futures it took; the other resolvers hold them until they have
settled them. Once the pool is closing the table of futures only shrinks.
-/
namespace PoolSettling

open Contracts Config PoolState PoolTables PoolAccounting PoolGroups PoolModel PoolFrames
open PoolInvariant PoolDelivery Progress

variable {ι : Type}

/-- A resolver that goes straight on to settle what it took. -/
def Resolver.direct : Resolver ι → Bool
  | .unregister _ => false
  | _ => true

def Resolver.actor : Resolver ι → Actor ι
  | .resultLoop => .result
  | .exitHandler | .shutdownPending => .supervisor
  | .unregister i | .closePending i => .user i

/-- Past `_fail_all_pending`'s locked section. -/
def UserPc.emptied : UserPc → Bool
  | .closeFailing _ _ | .closeClosingQueue _ _ | .closeJoiningQueue _ _ | .closeClosingResult
  | .closeStoppingLogs | .closeCompleting => true
  | _ => false

structure Settling (s : State ι) : Prop where
  taken : ∀ f x, s.history.takenBy f = [x] → Resolver.direct x = true →
    s.history.resolutions f ≠ [] ∨ f ∈ held s x
  completed : s.pool.closeComplete = true → ∀ t, s.pool.futures.get? t = none
  emptied : ∀ i, UserPc.emptied (s.user i) = true → ∀ t, s.pool.futures.get? t = none

section

variable [DecidableEq ι] {s : State ι} {e : Event ι} {i : ι}

/-! ## Held futures -/

omit [DecidableEq ι] in
theorem enabled_delivers {g : Option FutureId} {m : WorkerResultMessage} (he : Enabled s e)
    (hpc : s.result = .holding g m) (ha : Event.actor e = .result) : e = .deliver g m := by
  cases e <;> simp only [Event.actor, reduceCtorEq] at ha <;>
    simp_all [Enabled]

omit [DecidableEq ι] in
theorem enabled_closeFails {f : FutureId} {rest : List FutureId} (he : Enabled s e)
    (hpc : s.user i = .closeFailing f rest) (ha : Event.actor e = .user i) :
    e = .closeFail i f rest := by
  cases e <;> simp only [Event.actor, Actor.user.injEq, reduceCtorEq] at ha <;> subst ha <;>
    simp_all [Enabled, UserPc.resting]

omit [DecidableEq ι] in
theorem enabled_exitFails {f : FutureId} {rest : List FutureId} {r : Ref} {rd : Round}
    (he : Enabled s e) (hpc : s.supervisor = .failing f rest r rd)
    (ha : Event.actor e = .supervisor) : e = .exitFail f rest r rd := by
  cases e <;> simp only [Event.actor, reduceCtorEq] at ha <;> simp_all [Enabled]

omit [DecidableEq ι] in
theorem enabled_shutdownFails {f : FutureId} {rest : List FutureId} {r : Ref} {rd : Round}
    (he : Enabled s e) (hpc : s.supervisor = .shutdownFailing f rest r rd)
    (ha : Event.actor e = .supervisor) : e = .shutdownFail f rest r rd := by
  cases e <;> simp only [Event.actor, reduceCtorEq] at ha <;> simp_all [Enabled]

omit [DecidableEq ι] in
theorem settle_self (h : History ι) (f : FutureId) (res : Resolution) :
    (h.settle f res).resolutions f ≠ [] := by simp [History.settle]

theorem held_idle {x : Resolver ι} (h : Event.actor e ≠ Resolver.actor x) :
    held (next s e) x = held s x := by
  cases x with
  | resultLoop => simp only [held, result_frame h]
  | exitHandler | shutdownPending => simp only [held, supervisor_frame h]
  | unregister i | closePending i => simp only [held, user_frame h]

/-- The only step of a resolver that holds futures settles the first of them. -/
theorem settles_first {x : Resolver ι} (hx : Resolver.direct x = true) {f : FutureId}
    {rest : List FutureId} (hf : held s x = f :: rest) :
    ∃ e, Enabled s e ∧ Event.actor e = Resolver.actor x ∧
      (∀ e', Enabled s e' → Event.actor e' = Resolver.actor x → e' = e) ∧
      held (next s e) x = rest ∧ ∃ res, (next s e).history = s.history.settle f res := by
  cases x with
  | unregister i => cases hx
  | resultLoop =>
    simp only [held] at hf
    cases hpc : s.result with
    | polling | stopped | crashed => rw [hpc] at hf; cases hf
    | holding g m =>
      rw [hpc] at hf
      cases g with
      | none => cases hf
      | some g =>
        cases hf
        exact ⟨.deliver (some f) m, hpc, rfl, fun e he ha => enabled_delivers he hpc ha, rfl, _, rfl⟩
  | closePending i =>
    simp only [held] at hf
    cases hpc : s.user i <;> rw [hpc] at hf <;> cases hf
    exact ⟨.closeFail i f rest, hpc, rfl, fun e he ha => enabled_closeFails he hpc ha,
      by simp [held, next, closeFailNext], _, rfl⟩
  | exitHandler =>
    simp only [held] at hf
    cases hpc : s.supervisor <;> rw [hpc] at hf <;> cases hf
    rename_i r rd
    exact ⟨.exitFail f rest r rd, hpc, rfl, fun e he ha => enabled_exitFails he hpc ha,
      by simp [held, next, exitFailNext], _, rfl⟩
  | shutdownPending =>
    simp only [held] at hf
    cases hpc : s.supervisor <;> rw [hpc] at hf <;> cases hf
    rename_i r rd
    exact ⟨.shutdownFail f rest r rd, hpc, rfl, fun e he ha => enabled_shutdownFails he hpc ha,
      by simp [held, next, shutdownFailNext], _, rfl⟩

/-- A resolver that goes straight on keeps what it holds until it settles it. -/
theorem held_kept {f : FutureId} {x : Resolver ι} (he : Enabled s e)
    (hx : Resolver.direct x = true) (hf : f ∈ held s x) :
    f ∈ held (next s e) x ∨ (next s e).history.resolutions f ≠ [] := by
  by_cases ha : Event.actor e = Resolver.actor x
  swap
  · exact Or.inl (by rwa [held_idle ha])
  obtain ⟨g, rest, hl⟩ := List.exists_cons_of_ne_nil (List.ne_nil_of_mem hf)
  obtain ⟨e', -, -, honly, hrest, res, hh⟩ := settles_first hx hl
  rw [honly e he ha, hrest, hh]
  rw [hl] at hf
  rcases List.mem_cons.mp hf with rfl | hmem
  · exact Or.inr (settle_self _ _ _)
  · exact Or.inl hmem

/-- A resolver that comes to have a future holds it; an unload gets none while the pool is
closing. -/
theorem held_of_taken {f : FutureId} {x : Resolver ι} (hp : Consistent s.pool)
    (ht : (next s e).history.takenBy f = [x]) : s.history.takenBy f = [x] ∨
      f ∈ held (next s e) x ∧ (s.pool.closing = true → Resolver.direct x = true) := by
  have take : ∀ {h : History ι} {futures y}, (h.take futures y).takenBy f = [x] →
      h.takenBy f = [x] ∨ f ∈ futures ∧ x = y := by
    intro h futures y ht
    simp only [History.take] at ht
    split at ht
    · rename_i hmem
      cases hl : h.takenBy f with
      | nil => rw [hl] at ht; cases ht; exact Or.inr ⟨hmem, rfl⟩
      | cons z l => rw [hl] at ht; simp at ht
    · exact Or.inl ht
  cases e
  case receive m =>
    simp only [next, receiveNext] at ht ⊢
    revert ht
    split <;> intro ht
    · exact Or.inl ht
    · rename_i g hg
      refine (take ht).imp_right ?_
      rintro ⟨hmem, rfl⟩
      cases g with
      | none => cases hmem
      | some g => exact ⟨hmem, fun _ => rfl⟩
  case unregisterCall i g =>
    rcases unregisterLocked_cases hp g with ⟨-, y, h⟩ | ⟨hopen, -, -, q, failed, h, -⟩
    · left
      simpa only [next, unregisterNext, h, setUser_history] using ht
    · simp only [next, unregisterNext, h] at ht ⊢
      refine (take ht).imp_right ?_
      rintro ⟨hmem, rfl⟩
      refine ⟨?_, fun hc => by rw [hopen] at hc; cases hc⟩
      simpa only [held, setUser_self, disposeFrom_holding] using hmem
  case handleExit r rd =>
    simp only [next, handleExitNext] at ht ⊢
    revert ht
    (repeat' split) <;> intro ht <;> first
      | exact Or.inl ht
      | (refine (take ht).imp_right ?_
         rintro ⟨hmem, rfl⟩
         exact ⟨by simpa only [held, exitFailFrom_exitPending] using hmem, fun _ => rfl⟩)
  case closeTake i =>
    simp only [next, closeTakeNext] at ht ⊢
    refine (take ht).imp_right ?_
    rintro ⟨hmem, rfl⟩
    exact ⟨by simpa only [held, setUser_self, closeFailFrom_closePending] using hmem, fun _ => rfl⟩
  case shutdownTake r rd =>
    simp only [next, shutdownTakeNext] at ht ⊢
    refine (take ht).imp_right ?_
    rintro ⟨hmem, rfl⟩
    exact ⟨by simpa only [held, shutdownFailFrom_shutdownPending] using hmem, fun _ => rfl⟩
  all_goals
    left
    revert ht
    simp only [next, executeNext, deliverNext, registerNext, ensureNext, launchNext, awaitReadyNext,
      publishNext, disposeNext, failNext, closeCallNext, closeProbeNext, closeStopNext,
      closeFailNext, joinResultNext, closeQueueNext, queuesClosed, closeLogsNext, waitNext,
      checkNext, inspectNext, exitFailNext, dispatchNext, recordNext, relaunchNext,
      awaitRestartNext, completeNext, stopFailedNext, rescheduleNext, shutdownSignalNext,
      shutdownStopNext, shutdownFailNext, shutdownLogsNext]
    (repeat' split) <;> exact id

/-- Resolutions are only added. -/
theorem resolutions_grow (f : FutureId) :
    s.history.resolutions f <+: (next s e).history.resolutions f := by
  have settle : ∀ (h : History ι) (g : FutureId) (res : Resolution),
      h.resolutions f <+: (h.settle g res).resolutions f := by
    intro h g res
    by_cases hg : f = g
    · subst hg; simp [History.settle]
    · simp [History.settle, hg]
  cases e <;>
    simp only [next, executeNext, receiveNext, deliverNext, registerNext, ensureNext, launchNext,
      awaitReadyNext, publishNext, unregisterNext, disposeNext, failNext, closeCallNext,
      closeProbeNext, closeStopNext, closeTakeNext, closeFailNext, joinResultNext, closeQueueNext,
      queuesClosed, closeLogsNext, waitNext, checkNext, inspectNext, handleExitNext, exitFailNext,
      dispatchNext, recordNext, relaunchNext, awaitRestartNext, completeNext, stopFailedNext,
      rescheduleNext, shutdownSignalNext, shutdownStopNext, shutdownTakeNext, shutdownFailNext,
      shutdownLogsNext] <;>
    (repeat' split) <;> first
      | exact List.prefix_refl _
      | exact settle _ _ _

/-- A future's first resolution is its only one. -/
theorem resolution_kept (h : Reachable s) (he : Enabled s e) {f : FutureId} {res : Resolution}
    (hf : s.history.resolutions f = [res]) : (next s e).history.resolutions f = [res] := by
  have hd := reachable_delivery (h.next (S := system ι) ⟨he, rfl⟩)
  have hgrow := resolutions_grow (s := s) (e := e) f
  rw [hf] at hgrow
  exact (hgrow.eq_of_length_le (hd.once f)).symm

/-! ## A closing pool -/

/-- No future enters the table of a closing pool. -/
theorem futures_frame (hi : Invariant s) (hc : s.pool.closing = true) {t : TaskId}
    {f : FutureId} (h : (next s e).pool.futures.get? t = some f) :
    s.pool.futures.get? t = some f := by
  have hp := hi.consistent
  cases e
  case execute q puts =>
    have hshut : s.pool.accepting = false := by rw [hp.books.flags, hc]; rfl
    have hsame : (execute s.pool puts q s.history.nextFuture).1 = s.pool := by
      rw [execute_eq, hshut]
      split <;> rfl
    simpa only [next, executeNext_pool, hsame] using h
  case receive m =>
    simp only [next, receiveNext_pool] at h
    rcases hp.books.takeResult_eq m with ⟨-, hr⟩ | ⟨r, g, -, -, -, hr⟩ <;> rw [hr] at h
    · exact h
    · simp only [Dict.get?_pop] at h
      split at h
      · cases h
      · exact h
  case handleExit r rd =>
    simp only [next] at h
    rcases handleExitNext_pool (s := s) r rd with hr | ⟨⟨hin, halive⟩, hr⟩ <;> rw [hr] at h
    · exact h
    obtain ⟨weights, hr | ⟨-, x, hr⟩⟩ := handleWorkerExit_cases hp.books hin halive <;> rw [hr] at h
    · simp only [exited, takeWorker_futures] at h
      split at h
      · cases h
      · exact h
    · exact h
  case unregisterCall i g =>
    simp only [next, unregisterNext_pool] at h
    rcases unregisterLocked_cases hp g with ⟨-, x, hr⟩ | ⟨ho, -⟩
    · rwa [hr] at h
    · rw [hc] at ho; cases ho
  all_goals
    revert h
    simp only [next, deliverNext, registerNext, ensureNext, launchNext, publishNext, publishGroup,
      awaitReadyNext, disposeNext, failNext, closeCallNext, addHandler, newWorkers, closeProbeNext,
      closeStopNext, closeTakeNext, closeFailNext, joinResultNext, closeQueueNext, queuesClosed,
      closeLogsNext, waitNext, checkNext, inspectNext, exitFailNext, dispatchNext, recordNext,
      relaunchNext, awaitRestartNext, completeNext, stopFailedNext, rescheduleNext,
      shutdownSignalNext, shutdownStopNext, shutdownTakeNext, shutdownFailNext, shutdownLogsNext,
      takeAllPending]
    (repeat' split) <;> first
      | exact id
      | (intro h; cases h)

omit [DecidableEq ι] in
theorem emptied_closes {pc : UserPc} (h : UserPc.emptied pc = true) : UserPc.closes pc = true := by
  cases pc <;> first | rfl | cases h

section

variable {w l : List Ref} {k : Option StopStep} {r : Ref}

omit [DecidableEq ι]

@[simp] theorem closeStopFrom_emptied : UserPc.emptied (closeStopFrom l) = false := by
  cases l <;> rfl
@[simp] theorem closeProbeFrom_emptied : UserPc.emptied (closeProbeFrom w l) = false := by
  cases l with
  | nil => exact closeStopFrom_emptied
  | cons _ _ => rfl
@[simp] theorem afterStop_emptied : UserPc.emptied (afterStop k r l) = false := by
  cases k with
  | none => exact closeStopFrom_emptied
  | some _ => rfl

end

theorem emptied_next {j : ι} (he : Enabled s e) (h : UserPc.emptied ((next s e).user j) = true) :
    UserPc.emptied (s.user j) = true ∨ e = .closeTake j := by
  by_cases ha : Event.actor e = .user j
  swap
  · exact Or.inl (user_frame (s := s) ha ▸ h)
  have hcl : UserPc.closes (s.user j) = true := by
    rcases closes_next he (emptied_closes h) with hc | ⟨-, -, hc⟩
    · exact hc
    · rw [hc] at h; cases h
  cases e <;> simp only [Event.actor, Actor.user.injEq, reduceCtorEq] at ha <;> subst ha
  case closeTake => exact Or.inr rfl
  all_goals
    left
    simp only [Enabled] at he
    first
    | (rw [he] at hcl; cases hcl; done)
    | (rw [he.1] at hcl; cases hcl; done)
    | (rw [resting_closes he] at hcl; cases hcl)
    | (rw [resting_closes he.1] at hcl; cases hcl)
    | (rw [he]; rfl)
    | (rw [he.1]; rfl)
    | (revert h
       simp only [next, closeProbeNext, closeStopNext, joinResultNext]
       (repeat' split) <;> intro h <;> simp only [setUser_self, elim_afterStop] at h <;> first
         | simp at h
         | cases h)

theorem settling_next (hi : Invariant s) (hs : Settling s) (he : Enabled s e) :
    Settling (next s e) := by
  have shrinks : s.pool.closing = true → (∀ t, s.pool.futures.get? t = none) →
      ∀ t, (next s e).pool.futures.get? t = none := by
    intro hc hnone t
    cases h : (next s e).pool.futures.get? t with
    | none => rfl
    | some f =>
      have := futures_frame hi hc h
      rw [hnone t] at this
      cases this
  constructor
  · intro f x ht hx
    rcases held_of_taken hi.consistent ht with h | ⟨h, -⟩
    · rcases hs.taken f x h hx with h | h
      · left
        intro hnil
        have := resolutions_grow (s := s) (e := e) f
        rw [hnil, List.prefix_nil] at this
        exact h this
      · exact (held_kept he hx h).symm
    · exact Or.inr h
  · intro hc
    by_cases hcomplete : ∃ i, e = .closeComplete i
    · obtain ⟨i, rfl⟩ := hcomplete
      simp only [Enabled] at he
      exact hs.emptied i (by rw [he]; rfl)
    · rw [complete_frame hi.consistent (fun i h => hcomplete ⟨i, h⟩)] at hc
      exact shrinks (hi.finished hc) (hs.completed hc)
  · intro j hj
    rcases emptied_next he hj with h | rfl
    · exact shrinks (hi.closers j (emptied_closes h)).1 (hs.emptied j h)
    · exact fun t => rfl

/-- An accepted future stays accepted for the same task. -/
theorem accepted_frame (hd : Delivery s) {f : FutureId} {t : TaskId}
    (h : s.history.acceptedTask f = some t) : (next s e).history.acceptedTask f = some t := by
  cases e
  case execute q puts =>
    have hne : f ≠ s.history.nextFuture := by
      rintro rfl
      rw [(hd.unused _ (le_refl _)).1] at h
      cases h
    simp only [next, executeNext]
    split
    · simpa [hne] using h
    all_goals exact h
  all_goals
    simp only [next, receiveNext, deliverNext, registerNext, ensureNext, launchNext, awaitReadyNext,
      publishNext, unregisterNext, disposeNext, failNext, closeCallNext, closeProbeNext,
      closeStopNext, closeTakeNext, closeFailNext, joinResultNext, closeQueueNext, queuesClosed,
      closeLogsNext, waitNext, checkNext, inspectNext, handleExitNext, exitFailNext, dispatchNext,
      recordNext, relaunchNext, awaitRestartNext, completeNext, stopFailedNext, rescheduleNext,
      shutdownSignalNext, shutdownStopNext, shutdownTakeNext, shutdownFailNext, shutdownLogsNext]
    (repeat' split) <;> exact h

theorem reachable_settling (h : Reachable s) : Settling s := by
  refine Transitions.System.invariant_reachable ?_ ?_ h
  · rintro s ⟨registry, groups, p, pipe, logs, -, hp, rfl⟩
    refine ⟨fun f x hx => by simp [started, History.empty] at hx, fun hc => ?_, fun i hi => by cases hi⟩
    rw [show (started p pipe logs : State ι).pool = p from rfl,
      (construct_prepared hp).openFlags.2] at hc
    cases hc
  · rintro s e t hr hs ⟨he, rfl⟩
    exact settling_next (reachable_invariant hr) hs he

/-- Nothing keeps a thread from settling a future it took, if it does not dispose of
workers first. -/
theorem held_settles {x : Resolver ι} (hx : Resolver.direct x = true)
    {f : FutureId} (hf : f ∈ held s x) :
    Finishes Step (fun e => Event.actor e = Resolver.actor x)
      (fun t => t.history.resolutions f ≠ []) s := by
  refine Finishes.of_measure (B := fun t => f ∈ held t x) (fun t => (held t x).length) ?_ ?_ ?_ hf
  · rintro s e t hf ha ⟨-, rfl⟩
    rw [held_idle ha]
    exact ⟨hf, le_refl _⟩
  · intro s hf
    obtain ⟨g, rest, hl⟩ := List.exists_cons_of_ne_nil (List.ne_nil_of_mem hf)
    obtain ⟨e, he, ha, -⟩ := settles_first hx hl
    exact ⟨e, _, ha, he, rfl⟩
  · rintro s e t hf ha ⟨he, rfl⟩
    obtain ⟨g, rest, hl⟩ := List.exists_cons_of_ne_nil (List.ne_nil_of_mem hf)
    obtain ⟨e', -, -, honly, hrest, -⟩ := settles_first hx hl
    rcases (held_kept he hx hf).symm with h | h
    · exact Or.inl h
    · rw [honly e he ha] at h ⊢
      exact Or.inr ⟨h, by rw [hrest, hl]; exact Nat.lt_succ_self _⟩

end

end PoolSettling
