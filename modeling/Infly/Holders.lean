import Infly.StaleResults
import Infly.PoolSettling

/-! # Where an unanswered request is

A request that has been accepted and not answered is on its way to its process or back, or it or
its answer got lost between the processes, or the process is gone, or a resolver has taken its
future.
-/
namespace Holders

open Contracts Config PoolState PoolTables PoolAccounting PoolGroups PoolModel PoolFrames
  PoolInvariant PoolDelivery PoolSettling StaleResults Transitions

variable {ι : Type}

/-- Process `o` does not run, or not any more: another generation has taken its place. -/
def Gone (p : Pool) (o : Incarnation) : Prop :=
  (p.heap o.1).process = some .running → (p.heap o.1).generation ≠ o.2

structure Carried (s : Wire ι) : Prop where
  booked : ∀ g o, s.sentTo g = some o → ∃ t, s.state.history.acceptedTask g = some t
  bound : ∀ g o, s.sentTo g = some o →
    o.1 < s.state.pool.nextRef ∧ o.2 ≤ (s.state.pool.heap o.1).generation
  table : ∀ t g o, s.state.pool.futures.get? t = some g → s.sentTo g = some o →
    o ∈ s.awaited t ∨ (t, o) ∈ s.lost ∨ Gone s.state.pool o

section Futures

variable {s : State ι} {q : TaskRequest} {puts : List String} {r : Ref} {w : PlatformError}
  {v : Raised}

theorem execute_assigned (h : (execute s.pool puts q s.history.nextFuture).2 = .assigned r) :
    (executeNext s q puts).history = { s.history with
      nextFuture := s.history.nextFuture + 1
      acceptedTask := Function.update s.history.acceptedTask s.history.nextFuture
        (some q.taskId) } := by
  unfold executeNext
  rcases hx : execute s.pool puts q s.history.nextFuture with ⟨p, out⟩
  rw [hx] at h
  dsimp only
  rw [hx]
  cases h
  rfl

theorem execute_refused (h : (execute s.pool puts q s.history.nextFuture).2 = .rejected w) :
    (executeNext s q puts).history =
      { s.history with nextFuture := s.history.nextFuture + 1 }.settle s.history.nextFuture
        (.error w) := by
  unfold executeNext
  rcases hx : execute s.pool puts q s.history.nextFuture with ⟨p, out⟩
  rw [hx] at h
  dsimp only
  rw [hx]
  cases h
  rfl

theorem execute_thrown (h : (execute s.pool puts q s.history.nextFuture).2 = .raised v) :
    (executeNext s q puts).history =
      { s.history with nextFuture := s.history.nextFuture + 1 } := by
  unfold executeNext
  rcases hx : execute s.pool puts q s.history.nextFuture with ⟨p, out⟩
  rw [hx] at h
  dsimp only
  rw [hx]
  cases h
  rfl

theorem executeNext_nextFuture (q : TaskRequest) (puts : List String) :
    (executeNext s q puts).history.nextFuture = s.history.nextFuture + 1 := by
  unfold executeNext
  dsimp only
  split <;> rfl

theorem nextFuture_frame [DecidableEq ι] {e : Event ι} :
    s.history.nextFuture ≤ (next s e).history.nextFuture := by
  cases e
  case execute q puts => exact (executeNext_nextFuture q puts).symm ▸ Nat.le_succ _
  all_goals
    simp only [next, receiveNext, deliverNext, registerNext, ensureNext, launchNext, awaitReadyNext,
      publishNext, unregisterNext, disposeNext, failNext, closeCallNext, closeProbeNext,
      closeStopNext, closeTakeNext, closeFailNext, joinResultNext, closeQueueNext, queuesClosed,
      closeLogsNext, waitNext, checkNext, inspectNext, handleExitNext, exitFailNext, dispatchNext,
      recordNext, relaunchNext, awaitRestartNext, completeNext, stopFailedNext, rescheduleNext,
      shutdownSignalNext, shutdownStopNext, shutdownTakeNext, shutdownFailNext, shutdownLogsNext]
    (repeat' split) <;> exact le_rfl

end Futures

section

variable [DecidableEq ι] {s : Wire ι} {e : WireEvent ι} {o : Incarnation}

/-- Generations grow. -/
theorem generation_wire (hp : Consistent s.state.pool) (he : WireEnabled s e) {r : Ref}
    (hr : r < s.state.pool.nextRef) :
    (s.state.pool.heap r).generation ≤ ((wireNext s e).state.pool.heap r).generation := by
  rcases wire_state he with hs | ⟨b, -, hs⟩ <;> rw [hs]
  rcases (worker_frame (e := b) hp hr).launched with ⟨h, -⟩ | h
  · exact h.ge
  · exact h.symm ▸ Nat.le_succ _

/-- A process that is gone does not come back. -/
theorem gone_wire (hp : Consistent s.state.pool) (he : WireEnabled s e)
    (ho : o.1 < s.state.pool.nextRef ∧ o.2 ≤ (s.state.pool.heap o.1).generation)
    (h : Gone s.state.pool o) : Gone (wireNext s e).state.pool o := by
  rcases wire_state he with hs | ⟨b, -, hs⟩ <;> rw [hs]
  · exact h
  · intro hrun
    rcases (worker_frame (e := b) hp ho.1).launched with ⟨hgen, hback⟩ | hgen
    · rw [hgen]
      exact h (hback hrun)
    · rw [hgen]
      exact (Nat.lt_succ_of_le ho.2).ne'

omit [DecidableEq ι] in
/-- The process of a worker in the table. -/
theorem incarnation_bound (hb : Books s.state.pool) {r : Ref} (hr : InTable s.state.pool r) :
    (incarnation s.state.pool r).1 < s.state.pool.nextRef ∧
      (incarnation s.state.pool r).2 ≤ (s.state.pool.heap r).generation :=
  ⟨hb.allocated r hr, le_rfl⟩

omit [DecidableEq ι] in
theorem sent_unassigned {q : TaskRequest} {puts : List String}
    (h : ∀ r, (execute s.state.pool puts q s.state.history.nextFuture).2 ≠ .assigned r) :
    s.sent (.execute q puts) = s.sentTo := by
  simp only [Wire.sent]
  split
  · rename_i heq
    exact absurd (congrArg Prod.snd heq) (h _)
  · rfl

/-- Where the request of a future goes to: nowhere new, or to the worker it is booked on. -/
theorem sent_cases {g : FutureId} (h : (wireNext s e).sentTo g = some o) :
    s.sentTo g = some o ∨ ∃ q puts r, e = .step (.execute q puts) ∧
      (execute s.state.pool puts q s.state.history.nextFuture).2 = .assigned r ∧
      g = s.state.history.nextFuture ∧ o = incarnation s.state.pool r := by
  by_cases hg : g = s.state.history.nextFuture
  swap
  · exact .inl ((sent_next hg).symm.trans h)
  cases e with
  | answer | receive | lose | drop | garble => exact .inl h
  | step b =>
    cases b
    case execute q puts =>
      by_cases hx : ∃ r, (execute s.state.pool puts q s.state.history.nextFuture).2 = .assigned r
      · obtain ⟨r, hx⟩ := hx
        have h : s.sent (.execute q puts) g = some o := h
        rw [Wire.sent_assigned hx, hg, Function.update_self] at h
        exact .inr ⟨q, puts, r, rfl, hx, hg, (Option.some.inj h).symm⟩
      · have h : s.sent (.execute q puts) g = some o := h
        rw [sent_unassigned fun r hr => hx ⟨r, hr⟩] at h
        exact .inl h
    all_goals exact .inl h

/-- A request that went to a process did so for good. -/
theorem Carried.sent (h : Carried s) (hd : Delivery s.state) {g : FutureId}
    (hs : s.sentTo g = some o) : (wireNext s e).sentTo g = some o := by
  refine (sent_next ?_).trans hs
  rintro rfl
  obtain ⟨t, ht⟩ := h.booked _ o hs
  cases ht.symm.trans (hd.unused _ le_rfl).1

theorem accepted_wire (hd : Delivery s.state) (he : WireEnabled s e) {t : TaskId} {g : FutureId}
    (h : s.state.history.acceptedTask g = some t) :
    (wireNext s e).state.history.acceptedTask g = some t := by
  rcases wire_state he with hs | ⟨b, -, hs⟩ <;> rw [hs]
  · exact h
  · exact accepted_frame hd h

omit [DecidableEq ι] in
theorem mem_erase_or {α : Type} [BEq α] [LawfulBEq α] {l : List α} {x : α} (y : α)
    (h : x ∈ l) : x = y ∨ x ∈ l.erase y := by
  by_cases hx : x = y
  · exact .inl hx
  · exact .inr ((List.mem_erase_of_ne hx).mpr h)

/-- What is lost stays lost. -/
theorem lost_kept {x : TaskId × Incarnation} (h : x ∈ s.lost) : x ∈ (wireNext s e).lost := by
  cases e with
  | step | answer | receive => exact h
  | lose | drop | garble => exact List.mem_append_left _ h

/-- What is awaited stays awaited until it is received or lost, or its process ends. -/
theorem awaited_kept (he : WireEnabled s e) {t : TaskId} (h : o ∈ s.awaited t) :
    o ∈ (wireNext s e).awaited t ∨ (t, o) ∈ (wireNext s e).lost ∨
      (∃ r, e = .step (.processExit r) ∧ o = incarnation s.state.pool r) ∨
      ∃ m, e = .receive o m ∧ m.taskId = t := by
  rcases Wire.mem_awaited.mp h with h | ⟨m, h, ht⟩
  · cases e with
    | step b =>
      by_cases hexit : ∃ r, b = .processExit r ∧ o = incarnation s.state.pool r
      · obtain ⟨r, rfl, ho⟩ := hexit
        exact .inr (.inr (.inl ⟨r, rfl, ho⟩))
      · refine .inl (Wire.mem_awaited.mpr (.inl ?_))
        show (t, o) ∈ s.queue b
        unfold Wire.queue
        split
        · split
          · exact List.mem_append_left _ h
          · exact h
        · rename_i r
          exact List.mem_filter.mpr ⟨h, decide_eq_true fun ho => hexit ⟨r, rfl, ho⟩⟩
        · exact h
    | answer o' m =>
      refine .inl (Wire.mem_awaited.mpr ?_)
      rcases mem_erase_or (m.taskId, o') h with hx | h
      · cases hx
        exact .inr ⟨m, List.mem_append_right _ (List.mem_singleton.mpr rfl), rfl⟩
      · exact .inl h
    | lose t' o' =>
      rcases mem_erase_or (t', o') h with hx | h
      · cases hx
        exact .inr (.inl (List.mem_append_right _ (List.mem_singleton.mpr rfl)))
      · exact .inl (Wire.mem_awaited.mpr (.inl h))
    | receive | drop | garble => exact .inl (Wire.mem_awaited.mpr (.inl h))
  · cases e with
    | step | lose => exact .inl (Wire.mem_awaited.mpr (.inr ⟨m, h, ht⟩))
    | answer o' m' =>
      exact .inl (Wire.mem_awaited.mpr (.inr ⟨m, List.mem_append_left _ h, ht⟩))
    | receive o' m' =>
      rcases mem_erase_or (o', m') h with hx | h
      · cases hx
        exact .inr (.inr (.inr ⟨m, rfl, ht⟩))
      · exact .inl (Wire.mem_awaited.mpr (.inr ⟨m, h, ht⟩))
    | drop o' m' | garble o' m' w =>
      rcases mem_erase_or (o', m') h with hx | h
      · cases hx
        exact .inr (.inl (List.mem_append_right _ (List.mem_singleton.mpr (ht ▸ rfl))))
      · exact .inl (Wire.mem_awaited.mpr (.inr ⟨m, h, ht⟩))

/-- A message that comes from the process of an assigned task takes the task out of the table. -/
theorem received_leaves (hs : Stamped s) (ht : Traced s) (hb : Books s.state.pool)
    {m : WorkerResultMessage} {g : FutureId} (hm : (o, m) ∈ s.waiting)
    (hf : s.state.pool.futures.get? m.taskId = some g) (hsent : s.sentTo g = some o) :
    (next s.state (.receive m)).pool.futures.get? m.taskId = none := by
  obtain ⟨a, ha⟩ : ∃ a, s.state.pool.assignments.get? m.taskId = some a := by
    refine Dict.mem_keys.mp ((hb.keys _).mpr ?_)
    exact Dict.mem_keys.mpr ⟨g, hf⟩
  obtain ⟨r, hsent', htab, -⟩ := ht _ a g ha hf
  cases hsent.symm.trans hsent'
  have mine : a = (m.workerId, m.generation) := by
    rw [hs.stamped _ m hm, stamp, hb.named a.1 r htab]
  simp only [next, receiveNext_pool]
  rcases hb.takeResult_eq m with ⟨hne, -⟩ | ⟨r', f, -, -, -, hx⟩
  · exact absurd (ha.trans (congrArg some mine)) hne
  · rw [hx]
    simp

theorem carried_next (h : Carried s) (hr : ((wire ι).restrict Unmixed).Reachable s)
    (he : WireEnabled s e) : Carried (wireNext s e) := by
  have reach := System.restrict_reachable hr
  have hi := reachable_invariant (wire_reachable reach)
  have hp := hi.consistent
  have hd := reachable_delivery (wire_reachable reach)
  have stamped := reachable_stamped reach
  have traced := reachable_traced hr
  have hp' : Consistent (wireNext s e).state.pool :=
    (reachable_invariant (wire_reachable (reach.next ⟨he, rfl⟩))).consistent
  refine ⟨fun g o hs => ?_, fun g o hs => ?_, fun t g o hf hs => ?_⟩
  · rcases sent_cases hs with hs | ⟨q, puts, r, rfl, hx, rfl, -⟩
    · obtain ⟨t, ht⟩ := h.booked g o hs
      exact ⟨t, accepted_wire hd he ht⟩
    · refine ⟨q.taskId, ?_⟩
      show (executeNext s.state q puts).history.acceptedTask _ = _
      rw [execute_assigned hx]
      exact Function.update_self ..
  · have kept : ∀ o : Incarnation,
        o.1 < s.state.pool.nextRef ∧ o.2 ≤ (s.state.pool.heap o.1).generation →
        o.1 < (wireNext s e).state.pool.nextRef ∧
          o.2 ≤ ((wireNext s e).state.pool.heap o.1).generation := fun o ho =>
      ⟨lt_of_lt_of_le ho.1 (nextRef_wire hp he), ho.2.trans (generation_wire hp he ho.1)⟩
    rcases sent_cases hs with hs | ⟨q, puts, r, -, hx, -, rfl⟩
    · exact kept o (h.bound g o hs)
    · exact kept _ (incarnation_bound hp.books (booked_fresh hp hx).1)
  · have old : s.state.pool.futures.get? t = some g →
        o ∈ (wireNext s e).awaited t ∨ (t, o) ∈ (wireNext s e).lost ∨
          Gone (wireNext s e).state.pool o := by
      intro hf'
      have hne : g ≠ s.state.history.nextFuture := by
        rintro rfl
        have taken := (hd.table t _ hf').1
        rw [(hd.unused _ le_rfl).1] at taken
        cases taken
      have hs' : s.sentTo g = some o := (sent_next hne).symm.trans hs
      have bound := h.bound g o hs'
      rcases h.table t g o hf' hs' with hw | hlost | hgone
      · rcases awaited_kept he hw with hw | hlost | ⟨r, rfl, rfl⟩ | ⟨m, rfl, rfl⟩
        · exact .inl hw
        · exact .inr (.inl hlost)
        · refine .inr (.inr fun hrun => ?_)
          simp [wireNext, next, PoolModel.State.modify, incarnation] at hrun
        · rw [show (wireNext s (.receive o m)).state = next s.state (.receive m) from rfl,
            received_leaves stamped traced hp.books he.1 hf' hs'] at hf
          cases hf
      · exact .inr (.inl (lost_kept hlost))
      · exact .inr (.inr (gone_wire hp he bound hgone))
    obtain ⟨a, ha⟩ : ∃ a, (wireNext s e).state.pool.assignments.get? t = some a :=
      Dict.mem_keys.mp ((hp'.books.keys _).mpr (Dict.mem_keys.mpr ⟨g, hf⟩))
    cases e with
    | answer | lose | drop | garble => exact old hf
    | receive o' m =>
      rcases booking_next (e := .receive m) hp ha with ⟨-, hsame⟩ | ⟨q, puts, r, heq, -⟩
      · exact old (hsame.symm.trans hf)
      · cases heq
    | step b =>
      rcases booking_next (e := b) hp ha with ⟨-, hsame⟩ | ⟨q, puts, r, rfl, rfl, -, -, hnew, hx⟩
      · exact old (hsame.symm.trans hf)
      · cases hnew.symm.trans hf
        left
        have hs : s.sent (.execute q puts) s.state.history.nextFuture = some o := hs
        rw [Wire.sent_assigned hx, Function.update_self] at hs
        cases hs
        refine Wire.mem_awaited.mpr (.inl ?_)
        show _ ∈ s.queue (.execute q puts)
        rw [Wire.queue_assigned hx]
        exact List.mem_append_right _ (List.mem_singleton.mpr rfl)

theorem reachable_carried (h : ((wire ι).restrict Unmixed).Reachable s) : Carried s := by
  refine System.invariant_reachable ?_ ?_ h
  · rintro s ⟨b, ⟨registry, groups, p, pipe, logs, -, hp, rfl⟩, rfl⟩
    exact ⟨fun g o hg => (by cases hg), fun g o hg => (by cases hg),
      fun t g o _ hg => (by cases hg)⟩
  · rintro s e t hr hc ⟨-, he, rfl⟩
    exact carried_next hc hr he

/-- Where the request of an accepted future without an outcome is. -/
inductive Whereabouts (s : Wire ι) (t : TaskId) (g : FutureId) : Prop where
  | moving (o : Incarnation) (booked : s.state.pool.futures.get? t = some g)
      (sent : s.sentTo g = some o) (awaited : o ∈ s.awaited t)
  | lost (o : Incarnation) (booked : s.state.pool.futures.get? t = some g)
      (sent : s.sentTo g = some o) (lost : (t, o) ∈ s.lost)
  | stranded (o : Incarnation) (booked : s.state.pool.futures.get? t = some g)
      (sent : s.sentTo g = some o) (gone : Gone s.state.pool o)
  | taken (x : Resolver ι) (by_ : s.state.history.takenBy g = [x])
      (holds : Resolver.direct x = true → g ∈ held s.state x)

theorem accepted_whereabouts (h : ((wire ι).restrict Unmixed).Reachable s) {t : TaskId}
    {g : FutureId} (ha : s.state.history.acceptedTask g = some t)
    (hn : s.state.history.resolutions g = []) : Whereabouts s t g := by
  have reach := wire_reachable (System.restrict_reachable h)
  rcases (reachable_delivery reach).taken g t ha with hf | ⟨x, hx⟩
  · have hb := (reachable_invariant reach).consistent.books
    obtain ⟨a, hassigned⟩ : ∃ a, s.state.pool.assignments.get? t = some a :=
      Dict.mem_keys.mp ((hb.keys _).mpr (Dict.mem_keys.mpr ⟨g, hf⟩))
    obtain ⟨r, hsent, -, -⟩ := reachable_traced h t a g hassigned hf
    rcases (reachable_carried h).table t g _ hf hsent with hw | hlost | hgone
    · exact .moving _ hf hsent hw
    · exact .lost _ hf hsent hlost
    · exact .stranded _ hf hsent hgone
  · exact .taken x hx fun direct =>
      ((reachable_settling reach).taken g x hx direct).resolve_left fun hne => hne hn

end

end Holders
