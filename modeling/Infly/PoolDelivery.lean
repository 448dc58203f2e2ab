import Infly.PoolInvariant

/-! # Every future has one resolver

A future is in the table or was taken out by exactly one resolver, which alone holds it
until it settles it.
-/
namespace PoolDelivery

open Contracts Config PoolState PoolTables PoolAccounting PoolGroups PoolModel PoolFrames
open PoolInvariant

variable {ι : Type}

/-! ## Who holds which futures -/

def UserPc.holding : UserPc → List FutureId
  | .disposing _ _ _ (.failFutures futures _) => futures
  | .failing f rest _ => f :: rest
  | _ => []

def UserPc.closePending : UserPc → List FutureId
  | .closeFailing f rest => f :: rest
  | _ => []

def SupervisorPc.exitPending : SupervisorPc → List FutureId
  | .failing f rest _ _ => f :: rest
  | _ => []

def SupervisorPc.shutdownPending : SupervisorPc → List FutureId
  | .shutdownFailing f rest _ _ => f :: rest
  | _ => []

def ResultPc.holding : ResultPc → List FutureId
  | .holding (some f) _ => [f]
  | _ => []

/-- The futures a resolver has taken and not settled yet. -/
def held (s : State ι) : Resolver ι → List FutureId
  | .resultLoop => ResultPc.holding s.result
  | .exitHandler => SupervisorPc.exitPending s.supervisor
  | .unregister i => UserPc.holding (s.user i)
  | .closePending i => UserPc.closePending (s.user i)
  | .shutdownPending => SupervisorPc.shutdownPending s.supervisor

structure Delivery (s : State ι) : Prop where
  unused : ∀ f, s.history.nextFuture ≤ f → s.history.acceptedTask f = none ∧
    s.history.takenBy f = [] ∧ s.history.resolutions f = []
  table : ∀ t f, s.pool.futures.get? t = some f → s.history.acceptedTask f = some t ∧
    s.history.takenBy f = [] ∧ s.history.resolutions f = []
  taken : ∀ f t, s.history.acceptedTask f = some t → s.pool.futures.get? t = some f ∨
    ∃ x, s.history.takenBy f = [x]
  held : ∀ x, (held s x).Nodup ∧ ∀ f ∈ held s x, s.history.takenBy f = [x] ∧
    s.history.resolutions f = []
  once : ∀ f, (s.history.resolutions f).length ≤ 1
  origin : ∀ f t v, s.history.acceptedTask f = some t → .result v ∈ s.history.resolutions f →
    ∃ m ∈ s.history.received, m.ok = true ∧ m.taskId = t ∧ m.payload = v
  message : ∀ f m, s.result = .holding (some f) m → m ∈ s.history.received ∧
    s.history.acceptedTask f = some m.taskId

variable {s t : State ι}

theorem Delivery.values_nodup (hd : Delivery s) : s.pool.futures.values.Nodup := by
  refine List.Nodup.map_on ?_ (List.Nodup.of_map _ s.pool.futures.nodup)
  rintro ⟨t, f⟩ h ⟨t', f'⟩ h' rfl
  have ht := (hd.table _ _ (Dict.get?_eq_some.mpr h)).1
  rw [(hd.table _ _ (Dict.get?_eq_some.mpr h')).1] at ht
  cases ht
  rfl

/-! ## The three kinds of steps -/

/-- A step that leaves tables and history alone and in which nobody gains a future. -/
theorem Delivery.quiet (hd : Delivery s) (hf : t.pool.futures = s.pool.futures)
    (hh : t.history = s.history) (hheld : ∀ x, (PoolDelivery.held t x).Sublist (PoolDelivery.held s x))
    (hm : ∀ f m, t.result = .holding (some f) m → s.result = .holding (some f) m) : Delivery t where
  unused := hh ▸ hd.unused
  table := by rw [hf, hh]; exact hd.table
  taken := by rw [hf, hh]; exact hd.taken
  held x := by
    obtain ⟨hn, hall⟩ := hd.held x
    rw [hh]
    exact ⟨hn.sublist (hheld x), fun f hf => hall f ((hheld x).mem hf)⟩
  once := hh ▸ hd.once
  origin := by rw [hh]; exact hd.origin
  message f m h := by rw [hh]; exact hd.message f m (hm f m h)

section

variable [DecidableEq ι]

/-- Resolver `x` takes `futures` out of the table. -/
theorem Delivery.take (hd : Delivery s) {x : Resolver ι} (futures : List FutureId)
    (received : List WorkerResultMessage)
    (hh : t.history = { s.history.take futures x with received := received })
    (hrec : s.history.received ⊆ received)
    (hleft : ∀ task f, t.pool.futures.get? task = some f ↔
      s.pool.futures.get? task = some f ∧ f ∉ futures)
    (hfrom : ∀ f ∈ futures, ∃ task, s.pool.futures.get? task = some f) (hn : futures.Nodup)
    (hx : PoolDelivery.held t x = futures)
    (hother : ∀ y, y ≠ x → (PoolDelivery.held t y).Sublist (PoolDelivery.held s y))
    (hm : ∀ f m, t.result = .holding (some f) m → s.result = .holding (some f) m ∨
      m ∈ received ∧ s.history.acceptedTask f = some m.taskId) : Delivery t := by
  have taken : ∀ f, t.history.takenBy f =
      if f ∈ futures then s.history.takenBy f ++ [x] else s.history.takenBy f := by
    intro f; rw [hh]; rfl
  have accepted : t.history.acceptedTask = s.history.acceptedTask := by rw [hh]; rfl
  have resolved : t.history.resolutions = s.history.resolutions := by rw [hh]; rfl
  have inTable : ∀ f ∈ futures, s.history.takenBy f = [] ∧ s.history.resolutions f = [] := by
    intro f hf
    obtain ⟨task, h⟩ := hfrom f hf
    exact (hd.table task f h).2
  constructor
  · intro f hf
    have hf' : s.history.nextFuture ≤ f := by rw [hh] at hf; exact hf
    obtain ⟨ha, ht, hr⟩ := hd.unused f hf'
    have hnot : f ∉ futures := by
      intro hmem
      obtain ⟨task, h⟩ := hfrom f hmem
      rw [(hd.table task f h).1] at ha
      cases ha
    rw [accepted, taken, resolved, if_neg hnot]
    exact ⟨ha, ht, hr⟩
  · intro task f h
    obtain ⟨h, hnot⟩ := (hleft task f).mp h
    rw [accepted, taken, resolved, if_neg hnot]
    exact hd.table task f h
  · intro f task h
    rw [accepted] at h
    rw [taken]
    by_cases hmem : f ∈ futures
    · exact Or.inr ⟨x, by rw [if_pos hmem, (inTable f hmem).1, List.nil_append]⟩
    · rw [if_neg hmem]
      rcases hd.taken f task h with h | h
      · exact Or.inl ((hleft task f).mpr ⟨h, hmem⟩)
      · exact Or.inr h
  · intro y
    by_cases hy : y = x
    · subst hy
      rw [hx]
      refine ⟨hn, fun f hf => ?_⟩
      rw [taken, if_pos hf, resolved, (inTable f hf).1]
      exact ⟨rfl, (inTable f hf).2⟩
    · obtain ⟨hnodup, hall⟩ := hd.held y
      refine ⟨hnodup.sublist (hother y hy), fun f hf => ?_⟩
      obtain ⟨ht, hr⟩ := hall f ((hother y hy).mem hf)
      have hnot : f ∉ futures := by
        intro hmem
        rw [(inTable f hmem).1] at ht
        cases ht
      rw [taken, if_neg hnot, resolved]
      exact ⟨ht, hr⟩
  · rw [resolved]
    exact hd.once
  · intro f task v ha hv
    rw [accepted] at ha
    rw [resolved] at hv
    obtain ⟨m, hmem, h⟩ := hd.origin f task v ha hv
    exact ⟨m, by rw [hh]; exact hrec hmem, h⟩
  · intro f m h
    rw [accepted, hh]
    rcases hm f m h with h | h
    · exact ⟨hrec (hd.message f m h).1, (hd.message f m h).2⟩
    · exact h

/-- Resolver `x` settles the first of its futures. -/
theorem Delivery.settle (hd : Delivery s) {x : Resolver ι} {f : FutureId} {rest : List FutureId}
    {res : Resolution} (hx : PoolDelivery.held s x = f :: rest)
    (hh : t.history = s.history.settle f res) (hf : t.pool.futures = s.pool.futures)
    (hxt : (PoolDelivery.held t x).Sublist rest)
    (hother : ∀ y, y ≠ x → (PoolDelivery.held t y).Sublist (PoolDelivery.held s y))
    (hm : ∀ f m, t.result = .holding (some f) m → s.result = .holding (some f) m)
    (horigin : ∀ v task, res = .result v → s.history.acceptedTask f = some task →
      ∃ m ∈ s.history.received, m.ok = true ∧ m.taskId = task ∧ m.payload = v) : Delivery t := by
  obtain ⟨hn, hall⟩ := hd.held x
  rw [hx] at hn hall
  obtain ⟨htaken, hnone⟩ := hall f List.mem_cons_self
  have resolved : ∀ g, t.history.resolutions g =
      if g = f then [res] else s.history.resolutions g := by
    intro g
    rw [hh]
    by_cases e : g = f
    · subst e; simp [History.settle, hnone]
    · simp [History.settle, e]
  have accepted : t.history.acceptedTask = s.history.acceptedTask := by rw [hh]; rfl
  have taken : t.history.takenBy = s.history.takenBy := by rw [hh]; rfl
  constructor
  · intro g hg
    have hg' : s.history.nextFuture ≤ g := by rw [hh] at hg; exact hg
    obtain ⟨ha, ht, hr⟩ := hd.unused g hg'
    have hne : g ≠ f := by
      rintro rfl
      rw [htaken] at ht
      cases ht
    rw [accepted, taken, resolved, if_neg hne]
    exact ⟨ha, ht, hr⟩
  · intro task g h
    rw [hf] at h
    obtain ⟨ha, ht, hr⟩ := hd.table task g h
    have hne : g ≠ f := by
      rintro rfl
      rw [htaken] at ht
      cases ht
    rw [accepted, taken, resolved, if_neg hne]
    exact ⟨ha, ht, hr⟩
  · rw [accepted, taken, hf]
    exact hd.taken
  · intro y
    by_cases hy : y = x
    · subst hy
      refine ⟨(List.nodup_cons.mp hn).2.sublist hxt, fun g hg => ?_⟩
      have hmem := hxt.mem hg
      have hne : g ≠ f := fun e => (List.nodup_cons.mp hn).1 (e ▸ hmem)
      rw [taken, resolved, if_neg hne]
      exact hall g (List.mem_cons_of_mem _ hmem)
    · obtain ⟨hnodup, hally⟩ := hd.held y
      refine ⟨hnodup.sublist (hother y hy), fun g hg => ?_⟩
      obtain ⟨ht, hr⟩ := hally g ((hother y hy).mem hg)
      have hne : g ≠ f := by
        rintro rfl
        rw [htaken] at ht
        exact hy (List.cons.inj ht).1.symm
      rw [taken, resolved, if_neg hne]
      exact ⟨ht, hr⟩
  · intro g
    rw [resolved]
    split
    · exact le_refl 1
    · exact hd.once g
  · intro g task v ha hv
    rw [accepted] at ha
    rw [resolved] at hv
    have hrec : t.history.received = s.history.received := by rw [hh]; rfl
    rw [hrec]
    split at hv
    · rename_i e
      subst e
      exact horigin v task (List.mem_singleton.mp hv).symm ha
    · exact hd.origin g task v ha hv
  · intro g m h
    rw [accepted, show t.history.received = s.history.received by rw [hh]; rfl]
    exact hd.message g m (hm g m h)

/-! ## Sections that take futures -/

omit [DecidableEq ι] in
/-- Taking the futures of some tasks. -/
theorem left_of_tasks {p q : Pool} (hn : p.futures.values.Nodup) {P : TaskId → Prop}
    {futures : List FutureId}
    (hq : ∀ t f, q.futures.get? t = some f ↔ p.futures.get? t = some f ∧ ¬ P t)
    (hf : ∀ f, f ∈ futures ↔ ∃ t, P t ∧ p.futures.get? t = some f) (t : TaskId) (f : FutureId) :
    q.futures.get? t = some f ↔ p.futures.get? t = some f ∧ f ∉ futures := by
  rw [hq, hf]
  constructor
  · rintro ⟨h, hnot⟩
    refine ⟨h, ?_⟩
    rintro ⟨t', ht', h'⟩
    exact hnot (Dict.key_unique hn h h' ▸ ht')
  · rintro ⟨h, hnot⟩
    exact ⟨h, fun ht => hnot ⟨t, ht, h⟩⟩

/-! ### Entering a loop -/

section Loops

variable {job : Registration} {l : List Ref} {fs : List FutureId} {x : PlatformError}

@[simp] theorem failFrom_holding : UserPc.holding (failFrom fs x) = fs := by cases fs <;> rfl
@[simp] theorem failFrom_closePending : UserPc.closePending (failFrom fs x) = [] := by
  cases fs <;> rfl
@[simp] theorem awaitFrom_holding : UserPc.holding (awaitFrom job l) = [] := by cases l <;> rfl
@[simp] theorem awaitFrom_closePending : UserPc.closePending (awaitFrom job l) = [] := by
  cases l <;> rfl
@[simp] theorem launchFrom_holding : UserPc.holding (launchFrom job l) = [] := by
  cases l with
  | nil => exact awaitFrom_holding
  | cons _ _ => rfl
@[simp] theorem launchFrom_closePending : UserPc.closePending (launchFrom job l) = [] := by
  cases l with
  | nil => exact awaitFrom_closePending
  | cons _ _ => rfl
@[simp] theorem disposeFrom_holding : UserPc.holding (disposeFrom l (.failFutures fs x)) = fs := by
  cases l with
  | nil => exact failFrom_holding
  | cons _ _ => rfl
@[simp] theorem disposeFrom_raise_holding {e : Raised} :
    UserPc.holding (disposeFrom l (.raise e)) = [] := by
  cases l <;> rfl
@[simp] theorem disposeFrom_closePending (a : AfterDispose) :
    UserPc.closePending (disposeFrom l a) = [] := by
  cases l with
  | nil =>
    cases a with
    | raise _ => rfl
    | failFutures fs x => exact failFrom_closePending
  | cons _ _ => rfl
@[simp] theorem closeStopFrom_holding : UserPc.holding (closeStopFrom l) = [] := by
  cases l <;> rfl
@[simp] theorem closeStopFrom_closePending : UserPc.closePending (closeStopFrom l) = [] := by
  cases l <;> rfl
@[simp] theorem closeProbeFrom_holding {w : List Ref} :
    UserPc.holding (closeProbeFrom w l) = [] := by
  cases l with
  | nil => exact closeStopFrom_holding
  | cons _ _ => rfl
@[simp] theorem closeProbeFrom_closePending {w : List Ref} :
    UserPc.closePending (closeProbeFrom w l) = [] := by
  cases l with
  | nil => exact closeStopFrom_closePending
  | cons _ _ => rfl
@[simp] theorem afterStop_holding {k : Option StopStep} {r : Ref} :
    UserPc.holding (afterStop k r l) = [] := by
  cases k with
  | none => exact closeStopFrom_holding
  | some _ => rfl
@[simp] theorem afterStop_closePending {k : Option StopStep} {r : Ref} :
    UserPc.closePending (afterStop k r l) = [] := by
  cases k with
  | none => exact closeStopFrom_closePending
  | some _ => rfl
@[simp] theorem closeQueuesFrom_holding : UserPc.holding (closeQueuesFrom l) = [] := by
  cases l <;> rfl
@[simp] theorem closeQueuesFrom_closePending :
    UserPc.closePending (closeQueuesFrom l) = [] := by
  cases l <;> rfl
@[simp] theorem closeFailFrom_holding : UserPc.holding (closeFailFrom l fs) = [] := by
  cases fs with
  | nil => exact closeQueuesFrom_holding
  | cons _ _ => rfl
@[simp] theorem closeFailFrom_closePending : UserPc.closePending (closeFailFrom l fs) = fs := by
  cases fs with
  | nil => exact closeQueuesFrom_closePending
  | cons _ _ => rfl

@[simp] theorem afterLogs_holding {x : LogStop} : UserPc.holding (afterLogs x) = [] := by
  cases x <;> rfl
@[simp] theorem afterLogs_closePending {x : LogStop} :
    UserPc.closePending (afterLogs x) = [] := by cases x <;> rfl

theorem resting_holding {c : UserPc} (h : c.resting = true) :
    UserPc.holding c = [] ∧ UserPc.closePending c = [] := by
  cases c <;> first | exact ⟨rfl, rfl⟩ | cases h

@[simp] theorem roundFrom_exitPending {now : ℚ} :
    SupervisorPc.exitPending (roundFrom now l) = [] := by cases l <;> rfl
@[simp] theorem roundFrom_shutdownPending {now : ℚ} :
    SupervisorPc.shutdownPending (roundFrom now l) = [] := by cases l <;> rfl

variable {r w : Ref} {rd : Round} {k : Option StopStep}

@[simp] theorem exitFailFrom_exitPending :
    SupervisorPc.exitPending (exitFailFrom r rd fs) = fs := by cases fs <;> rfl
@[simp] theorem exitFailFrom_shutdownPending :
    SupervisorPc.shutdownPending (exitFailFrom r rd fs) = [] := by cases fs <;> rfl
@[simp] theorem shutdownFailFrom_exitPending :
    SupervisorPc.exitPending (shutdownFailFrom r rd fs) = [] := by cases fs <;> rfl
@[simp] theorem shutdownFailFrom_shutdownPending :
    SupervisorPc.shutdownPending (shutdownFailFrom r rd fs) = fs := by cases fs <;> rfl
@[simp] theorem afterShutdown_exitPending {x : LogStop} :
    SupervisorPc.exitPending (afterShutdown rd x) = [] := by
  cases x with
  | returns => exact roundFrom_exitPending
  | raises | hangs => rfl
@[simp] theorem afterShutdown_shutdownPending {x : LogStop} :
    SupervisorPc.shutdownPending (afterShutdown rd x) = [] := by
  cases x with
  | returns => exact roundFrom_shutdownPending
  | raises | hangs => rfl
@[simp] theorem shutdownStopFrom_exitPending :
    SupervisorPc.exitPending (shutdownStopFrom r rd l) = [] := by cases l <;> rfl
@[simp] theorem shutdownStopFrom_shutdownPending :
    SupervisorPc.shutdownPending (shutdownStopFrom r rd l) = [] := by cases l <;> rfl
@[simp] theorem afterFailedStop_exitPending :
    SupervisorPc.exitPending (afterFailedStop k r rd) = [] := by cases k <;> rfl
@[simp] theorem afterFailedStop_shutdownPending :
    SupervisorPc.shutdownPending (afterFailedStop k r rd) = [] := by cases k <;> rfl
@[simp] theorem afterShutdownStop_exitPending :
    SupervisorPc.exitPending (afterShutdownStop k w l r rd) = [] := by
  cases k with
  | none => exact shutdownStopFrom_exitPending
  | some _ => rfl
@[simp] theorem afterShutdownStop_shutdownPending :
    SupervisorPc.shutdownPending (afterShutdownStop k w l r rd) = [] := by
  cases k with
  | none => exact shutdownStopFrom_shutdownPending
  | some _ => rfl

end Loops

/-! ### Whose futures a step can change -/

variable {e : Event ι} {i : ι}

theorem held_user (ha : Event.actor e = .user i) {x : Resolver ι} (hu : x ≠ .unregister i)
    (hc : x ≠ .closePending i) : held (next s e) x = held s x := by
  have other : ∀ j, j ≠ i → (next s e).user j = s.user j := fun j hj =>
    user_frame (by rw [ha]; exact fun h => hj (Actor.user.inj h).symm)
  have hsup : (next s e).supervisor = s.supervisor := supervisor_frame (by rw [ha]; simp)
  have hres : (next s e).result = s.result := result_frame (by rw [ha]; simp)
  cases x with
  | unregister j => simp only [held, other j (fun h => hu (by rw [h]))]
  | closePending j => simp only [held, other j (fun h => hc (by rw [h]))]
  | resultLoop | exitHandler | shutdownPending => simp only [held, hsup, hres]

theorem held_other (ha : ∀ i, Event.actor e ≠ .user i) {x : Resolver ι}
    (hr : Event.actor e = .result → x ≠ .resultLoop)
    (hs : Event.actor e = .supervisor → x ≠ .exitHandler ∧ x ≠ .shutdownPending) :
    held (next s e) x = held s x := by
  have huser : ∀ j, (next s e).user j = s.user j := fun j => user_frame (ha j)
  cases x with
  | unregister j => simp only [held, huser]
  | closePending j => simp only [held, huser]
  | resultLoop =>
    have : (next s e).result = s.result := result_frame fun h => hr h rfl
    simp only [held, this]
  | exitHandler =>
    have : (next s e).supervisor = s.supervisor := supervisor_frame fun h => (hs h).1 rfl
    simp only [held, this]
  | shutdownPending =>
    have : (next s e).supervisor = s.supervisor := supervisor_frame fun h => (hs h).2 rfl
    simp only [held, this]

theorem quiet_user (hd : Delivery s) (ha : Event.actor e = .user i)
    (hf : (next s e).pool.futures = s.pool.futures) (hh : (next s e).history = s.history)
    (hu : (UserPc.holding ((next s e).user i)).Sublist (UserPc.holding (s.user i)))
    (hc : (UserPc.closePending ((next s e).user i)).Sublist (UserPc.closePending (s.user i))) :
    Delivery (next s e) := by
  refine hd.quiet hf hh (fun x => ?_) fun f m h => ?_
  · by_cases hxu : x = .unregister i
    · subst hxu; exact hu
    by_cases hxc : x = .closePending i
    · subst hxc; exact hc
    rw [held_user ha hxu hxc]
  · rwa [result_frame (by rw [ha]; simp)] at h

theorem quiet_supervisor (hd : Delivery s) (ha : Event.actor e = .supervisor)
    (hf : (next s e).pool.futures = s.pool.futures) (hh : (next s e).history = s.history)
    (hx : SupervisorPc.exitPending (next s e).supervisor = [])
    (hs : SupervisorPc.shutdownPending (next s e).supervisor = []) : Delivery (next s e) := by
  refine hd.quiet hf hh (fun x => ?_) fun f m h => ?_
  · by_cases hxe : x = .exitHandler
    · subst hxe; simp [held, hx]
    by_cases hxs : x = .shutdownPending
    · subst hxs; simp [held, hs]
    rw [held_other (by rw [ha]; simp) (by rw [ha]; simp) (fun _ => ⟨hxe, hxs⟩)]
  · rwa [result_frame (by rw [ha]; simp)] at h

/-- The steps of user threads that neither take nor settle a future. -/
theorem user_next (hd : Delivery s) (he : Enabled s e) (ha : Event.actor e = .user i)
    (htake : ∀ g, e ≠ .unregisterCall i g) (hclose : e ≠ .closeTake i)
    (hfail : ∀ f rest x, e ≠ .fail i f rest x) (hcfail : ∀ f rest, e ≠ .closeFail i f rest) :
    Delivery (next s e) := by
  cases e <;> simp only [Event.actor, Actor.user.injEq, reduceCtorEq] at ha <;> subst ha
  case unregisterCall i g => exact absurd rfl (htake g)
  case closeTake i => exact absurd rfl hclose
  case fail i f rest x => exact absurd rfl (hfail f rest x)
  case closeFail i f rest => exact absurd rfl (hcfail f rest)
  case dispose i k r rest a =>
    simp only [Enabled] at he
    refine quiet_user hd rfl ?_ ?_ ?_ ?_ <;> simp only [he.1, next, disposeNext] <;>
      (repeat' split) <;> first
      | rfl
      | exact List.nil_sublist _
      | (rw [setUser_self]; first | exact List.nil_sublist _ | exact List.Sublist.refl _)
      | (cases a <;> simp only [setUser_self, disposeFrom_holding, disposeFrom_raise_holding,
            disposeFrom_closePending] <;> first
          | exact List.nil_sublist _
          | exact List.Sublist.refl _)
  all_goals
    simp only [Enabled] at he
    refine quiet_user hd rfl ?_ ?_ ?_ ?_ <;>
    simp only [next, registerNext, ensureNext, launchNext, awaitReadyNext, publishNext,
      closeCallNext, closeProbeNext, closeStopNext, joinResultNext, closeQueueNext, queuesClosed,
      closeLogsNext] <;>
    (repeat' split) <;> first
      | rfl
      | exact List.Sublist.refl _
      | (rw [setUser_self]; exact List.nil_sublist _)
      | simp

/-- The steps of the supervisor that neither take nor settle a future. -/
theorem supervisor_next (hd : Delivery s) (he : Enabled s e) (ha : Event.actor e = .supervisor)
    (hexit : ∀ r rd, e ≠ .handleExit r rd) (htake : ∀ r rd, e ≠ .shutdownTake r rd)
    (hfail : ∀ f rest r rd, e ≠ .exitFail f rest r rd)
    (hsfail : ∀ f rest r rd, e ≠ .shutdownFail f rest r rd) : Delivery (next s e) := by
  cases e <;> simp only [Event.actor, reduceCtorEq] at ha
  case handleExit r rd => exact absurd rfl (hexit r rd)
  case shutdownTake r rd => exact absurd rfl (htake r rd)
  case exitFail f rest r rd => exact absurd rfl (hfail f rest r rd)
  case shutdownFail f rest r rd => exact absurd rfl (hsfail f rest r rd)
  all_goals
    simp only [Enabled] at he
    refine quiet_supervisor hd rfl ?_ ?_ ?_ ?_ <;>
    simp only [next, waitNext, checkNext, inspectNext, dispatchNext, recordNext, relaunchNext,
      awaitRestartNext, completeNext, stopFailedNext, rescheduleNext, shutdownSignalNext,
      shutdownStopNext, shutdownLogsNext] <;>
    (repeat' split) <;> first
      | rfl
      | simp
      | (rw [he.1]; rfl)

/-! ## Booking a future -/

section

variable {u : State ι} (hd : Delivery s) (hheld : ∀ x, held u x = held s x)
  (hres : u.result = s.result)

include hd hheld hres

omit [DecidableEq ι] in
/-- A future is made and entered for the task. -/
theorem accepted_delivery {id : TaskId} (r : Ref) (weights : String → ℤ) (cursors : String → ℕ)
    (hfree : s.pool.futures.get? id = none)
    (hpool : u.pool = assigned s.pool id s.history.nextFuture r weights cursors)
    (hh : u.history = { s.history with
      nextFuture := s.history.nextFuture + 1
      acceptedTask := Function.update s.history.acceptedTask s.history.nextFuture (some id) }) :
    Delivery u := by
  have hnew := hd.unused s.history.nextFuture (le_refl _)
  have kept : ∀ f, f ≠ s.history.nextFuture →
      u.history.acceptedTask f = s.history.acceptedTask f := by
    intro f hf
    rw [hh]
    exact Function.update_of_ne hf _ _
  constructor
  · intro f hf
    have hlt : s.history.nextFuture + 1 ≤ f := by rw [hh] at hf; exact hf
    obtain ⟨ha, ht, hr⟩ := hd.unused f (Nat.le_of_succ_le hlt)
    rw [kept f (Nat.ne_of_gt hlt), hh]
    exact ⟨ha, ht, hr⟩
  · intro t f ht
    simp only [hpool, assigned, Dict.get?_set] at ht
    split at ht
    · rename_i e
      cases ht
      subst e
      rw [hh]
      exact ⟨Function.update_self _ _ _, hnew.2⟩
    · obtain ⟨ha, hrest⟩ := hd.table t f ht
      rw [kept f (fun e => by rw [e, hnew.1] at ha; cases ha), hh]
      exact ⟨ha, hrest⟩
  · intro f t ha
    by_cases e : f = s.history.nextFuture
    · subst e
      rw [hh] at ha
      simp only [Function.update_self, Option.some.injEq] at ha
      subst ha
      exact Or.inl (by simp [hpool, assigned])
    · rw [kept f e] at ha
      rcases hd.taken f t ha with ht | ht
      · refine Or.inl ?_
        have hne : t ≠ id := by
          rintro rfl
          rw [hfree] at ht
          cases ht
        simpa [hpool, assigned, hne] using ht
      · rw [hh]; exact Or.inr ht
  · intro x
    rw [hheld, hh]
    exact hd.held x
  · rw [hh]; exact hd.once
  · intro f t v ha hv
    have hv' : .result v ∈ s.history.resolutions f := by rw [hh] at hv; exact hv
    have hne : f ≠ s.history.nextFuture := by
      rintro rfl
      rw [hnew.2.2] at hv'
      cases hv'
    rw [kept f hne] at ha
    rw [hh]
    exact hd.origin f t v ha hv'
  · intro f m hm
    rw [hres] at hm
    obtain ⟨hrec, ha⟩ := hd.message f m hm
    have hne : f ≠ s.history.nextFuture := by
      rintro rfl
      rw [hnew.1] at ha
      cases ha
    rw [kept f hne, hh]
    exact ⟨hrec, ha⟩

omit [DecidableEq ι] in
/-- A future is made that no table gets. -/
theorem refused_delivery (res : List Resolution) (hpool : u.pool.futures = s.pool.futures)
    (hh : u.history = { s.history with
      nextFuture := s.history.nextFuture + 1
      resolutions := Function.update s.history.resolutions s.history.nextFuture res })
    (hlen : res.length ≤ 1) : Delivery u := by
  have hnew := hd.unused s.history.nextFuture (le_refl _)
  -- a future in anybody's hands is older than this call
  have older : ∀ x, ∀ f ∈ held s x, f ≠ s.history.nextFuture := by
    rintro x f hf rfl
    have := ((hd.held x).2 _ hf).1
    rw [hnew.2.1] at this
    cases this
  have kept : ∀ f, f ≠ s.history.nextFuture →
      u.history.resolutions f = s.history.resolutions f := by
    intro f hf
    rw [hh]
    exact Function.update_of_ne hf _ _
  constructor
  · intro f hf
    have hlt : s.history.nextFuture + 1 ≤ f := by rw [hh] at hf; exact hf
    obtain ⟨ha, ht, hr⟩ := hd.unused f (Nat.le_of_succ_le hlt)
    rw [kept f (Nat.ne_of_gt hlt), hh]
    exact ⟨ha, ht, hr⟩
  · intro t f ht
    rw [hpool] at ht
    obtain ⟨ha, hrest⟩ := hd.table t f ht
    rw [kept f (fun e => by rw [e, hnew.1] at ha; cases ha), hh]
    exact ⟨ha, hrest⟩
  · rw [hpool, hh]; exact hd.taken
  · intro x
    rw [hheld]
    obtain ⟨hn, hall⟩ := hd.held x
    refine ⟨hn, fun f hf => ?_⟩
    rw [kept f (older x f hf), hh]
    exact hall f hf
  · intro f
    by_cases e : f = s.history.nextFuture
    · subst e; rw [hh]; simpa using hlen
    · rw [kept f e]; exact hd.once f
  · intro f t v ha hv
    rw [hh] at ha
    have hne : f ≠ s.history.nextFuture := by
      rintro rfl
      rw [show s.history.acceptedTask s.history.nextFuture = some t from ha] at hnew
      cases hnew.1
    rw [kept f hne] at hv
    rw [hh]
    exact hd.origin f t v ha hv
  · intro f m hm
    rw [hres] at hm
    rw [hh]
    exact hd.message f m hm

end

theorem execute_next (hd : Delivery s) (hb : Books s.pool) (q : TaskRequest)
    (puts : List String) : Delivery (next s (.execute q puts)) := by
  have hnew := hd.unused s.history.nextFuture (le_refl _)
  have hheld : ∀ x, held (next s (.execute q puts)) x = held s x := fun x =>
    held_other (by simp [Event.actor]) (by simp [Event.actor]) (by simp [Event.actor])
  have hres : (next s (.execute q puts)).result = s.result := result_frame (by simp [Event.actor])
  rcases execute_cases (p := s.pool) puts q s.history.nextFuture (fun t => (hb.keys t).mp) with
    ⟨r, -, -, -, hfree, weights, cursors, h⟩ | ⟨weights, out, h, hout⟩
  · refine accepted_delivery hd hheld hres r weights cursors hfree ?_ ?_
    · simp only [next, executeNext_pool, h]
    · simp only [next, executeNext, h]
  · have hpool : (next s (.execute q puts)).pool.futures = s.pool.futures := by
      simp only [next, executeNext_pool, h]
    cases out with
    | assigned r => exact absurd rfl (hout r)
    | rejected x =>
      -- a rejected future is settled before anybody sees it
      refine refused_delivery hd hheld hres [.error x] hpool ?_ (le_refl 1)
      simp only [next, executeNext, h, History.settle, hnew.2.2, List.nil_append]
    | raised x =>
      refine refused_delivery hd hheld hres [] hpool ?_ (Nat.zero_le 1)
      simp only [next, executeNext, h]
      rw [← hnew.2.2, Function.update_eq_self]

/-! ## Taking futures out -/

theorem receive_next (hd : Delivery s) (hb : Books s.pool) (m : WorkerResultMessage)
    (he : Enabled s (.receive m)) : Delivery (next s (.receive m)) := by
  have hother : ∀ x, x ≠ .resultLoop → held (next s (.receive m)) x = held s x := fun x hx =>
    held_other (by simp [Event.actor]) (fun _ => hx) (by simp [Event.actor])
  have hpolling : s.result = .polling := he.1
  rcases hb.takeResult_eq m with ⟨-, h⟩ | ⟨r, f, -, -, hf, h⟩
  · have hpool : (next s (.receive m)).pool = s.pool := by simp only [next, receiveNext, h]
    have hresult : (next s (.receive m)).result = s.result := by simp only [next, receiveNext, h]
    refine Delivery.take (t := next s (.receive m)) (x := .resultLoop) hd []
      (m :: s.history.received) ?_ (List.subset_cons_self _ _) ?_ (by simp)
      List.nodup_nil ?_ (fun x hx => hother x hx ▸ List.Sublist.refl _)
      (fun f m h => Or.inl (hresult ▸ h))
    · simp [next, receiveNext, h, History.take]
    · intro t f; simp [hpool]
    · simp only [held, hresult, hpolling]; rfl
  · refine Delivery.take (t := next s (.receive m)) (x := .resultLoop) hd [f]
      (m :: s.history.received) ?_ (List.subset_cons_self _ _) ?_ ?_
      (List.nodup_singleton f) ?_ (fun x hx => hother x hx ▸ List.Sublist.refl _) ?_
    · simp [next, receiveNext, h, History.take]
    · refine left_of_tasks hd.values_nodup (P := fun t => t = m.taskId) ?_ ?_
      · intro t f'
        simp only [next, receiveNext, h, Dict.get?_pop]
        by_cases e : t = m.taskId <;> simp [e]
      · intro f'
        simp [hf, eq_comm]
    · intro f' hf'
      exact ⟨m.taskId, List.mem_singleton.mp hf' ▸ hf⟩
    · simp [held, next, receiveNext, h, ResultPc.holding]
    · intro f' m' hm'
      right
      simp only [next, receiveNext, h, ResultPc.holding.injEq, Option.some.injEq] at hm'
      obtain ⟨rfl, rfl⟩ := hm'
      exact ⟨List.mem_cons_self, (hd.table _ _ hf).1⟩

theorem deliver_next (hd : Delivery s) (f : Option FutureId) (m : WorkerResultMessage)
    (he : Enabled s (.deliver f m)) : Delivery (next s (.deliver f m)) := by
  have hother : ∀ x, x ≠ .resultLoop → held (next s (.deliver f m)) x = held s x := fun x hx =>
    held_other (by simp [Event.actor]) (fun _ => hx) (by simp [Event.actor])
  have hres : s.result = .holding f m := he
  cases f with
  | none =>
    refine hd.quiet rfl rfl (fun x => ?_) fun f m h => by cases h
    by_cases hx : x = .resultLoop
    · subst hx; exact List.nil_sublist _
    · rw [hother x hx]
  | some f =>
    have hheld : held s .resultLoop = [f] := by simp [held, hres, ResultPc.holding]
    refine hd.settle (x := .resultLoop) hheld rfl rfl (List.Sublist.refl _)
      (fun x hx => hother x hx ▸ List.Sublist.refl _) (fun f m h => by cases h) ?_
    intro v task hv ha
    obtain ⟨hrec, hacc⟩ := hd.message f m hres
    rw [hacc] at ha
    cases ha
    simp only [resolutionOf] at hv
    split at hv
    · rename_i hok
      cases hv
      exact ⟨m, hrec, hok, rfl, rfl⟩
    · cases hv

theorem unregister_next (hd : Delivery s) (hp : Consistent s.pool) (g : String)
    (he : Enabled s (.unregisterCall i g)) : Delivery (next s (.unregisterCall i g)) := by
  obtain ⟨hhold, hclose⟩ := resting_holding (c := s.user i) he
  rcases unregisterLocked_cases hp g with ⟨-, x, h⟩ | ⟨-, -, -, q, failed, h, hu⟩
  · have hnext : next s (.unregisterCall i g) = s.setUser i (.raised x) := by
      simp [next, unregisterNext, h]
    exact quiet_user hd rfl (by rw [hnext]; rfl) (by rw [hnext]; rfl)
      (by rw [hnext, setUser_self]; exact List.nil_sublist _)
      (by rw [hnext, setUser_self]; exact List.nil_sublist _)
  · obtain ⟨d, -, hret⟩ := hu.retired
    have hpc : (next s (.unregisterCall i g)).user i =
        disposeFrom (groupWorkers s.pool g) (.failFutures failed
          ⟨.workerUnavailable, "WorkerGroup '" ++ g ++ "' was unloaded"⟩) := by
      simp [next, unregisterNext, h]
    refine Delivery.take (t := next s (.unregisterCall i g)) (x := .unregister i)
      hd failed s.history.received ?_ (List.Subset.refl _) ?_ ?_
      (hret.distinct hd.values_nodup).1 ?_ ?_ ?_
    · simp [next, unregisterNext, h, History.take]
    · have hpool : (next s (.unregisterCall i g)).pool = q := by
        simp [next, unregisterNext_pool, h]
      rw [hpool]
      exact left_of_tasks hd.values_nodup hret.futures hret.taken_iff
    · intro f hf
      obtain ⟨t, -, ht⟩ := (hret.taken_iff f).mp hf
      exact ⟨t, ht⟩
    · simp only [held, hpc, disposeFrom_holding]
    · intro y hy
      by_cases hyc : y = .closePending i
      · subst hyc
        simp only [held, hpc, disposeFrom_closePending]
        exact List.nil_sublist _
      · rw [held_user rfl hy hyc]
    · exact fun f m hm => Or.inl (by rwa [result_frame (by simp [Event.actor])] at hm)

omit [DecidableEq ι] in
theorem exited_left (hd : Delivery s) (r : Ref) (weights : String → ℤ) :
    (∀ t f, (exited s.pool r weights).1.futures.get? t = some f ↔
        s.pool.futures.get? t = some f ∧ f ∉ (exited s.pool r weights).2) ∧
      (∀ f ∈ (exited s.pool r weights).2, ∃ t, s.pool.futures.get? t = some f) ∧
      (exited s.pool r weights).2.Nodup := by
  set p : Pool := { s.pool.modify r (fun w => { w with alive := false }) with
    smoothWeights := weights } with hp
  have hmem : ∀ f, f ∈ (exited s.pool r weights).2 ↔
      ∃ t, p.assignments.get? t = some (p.heap r).assignment ∧ s.pool.futures.get? t = some f :=
    fun f => mem_taken (p := p) (r := r)
  refine ⟨left_of_tasks hd.values_nodup (fun t f => ?_) hmem, fun f hf => ?_,
    taken_nodup (p := p) hd.values_nodup⟩
  · have := takeWorker_futures (p := p) (r := r) t
    rw [exited, ← hp, this]
    split <;> simp_all
  · obtain ⟨t, -, h⟩ := (hmem f).mp hf
    exact ⟨t, h⟩

theorem handleExit_next (hd : Delivery s) (hb : Books s.pool) (r : Ref) (rd : Round)
    (he : Enabled s (.handleExit r rd)) : Delivery (next s (.handleExit r rd)) := by
  have hpc : s.supervisor = .handlingExit r rd := he
  by_cases hskip : (!(s.pool.heap r).alive || (s.pool.heap r).retiring ||
      s.pool.workers.get? (s.pool.heap r).workerId != some r) = true
  · have hnext : next s (.handleExit r rd) = { s with supervisor := rd.continue } := by
      simp only [next, handleExitNext, hskip, ↓reduceIte]
    exact quiet_supervisor hd rfl (by rw [hnext]) (by rw [hnext])
      (by rw [hnext]; simp) (by rw [hnext]; simp)
  have hguard : InTable s.pool r ∧ (s.pool.heap r).alive = true := by
    simp only [Bool.or_eq_true, Bool.not_eq_true', bne_iff_ne, ne_eq, not_or, not_not,
      Bool.not_eq_false] at hskip
    exact ⟨⟨_, hskip.2⟩, hskip.1.1⟩
  obtain ⟨weights, h | ⟨-, x, h⟩⟩ := handleWorkerExit_cases hb hguard.1 hguard.2
  · have hnext : next s (.handleExit r rd) = { s with
        pool := (exited s.pool r weights).1
        supervisor := exitFailFrom r rd (exited s.pool r weights).2
        history := s.history.take (exited s.pool r weights).2 .exitHandler } := by
      simp only [next, handleExitNext, hskip, h]
      rfl
    obtain ⟨hleft, hfrom, hn⟩ := exited_left hd r weights
    refine Delivery.take (t := next s (.handleExit r rd)) (x := .exitHandler)
      hd (exited s.pool r weights).2 s.history.received ?_
      (List.Subset.refl _) ?_ hfrom hn ?_ ?_ ?_
    · rw [hnext]; rfl
    · rw [hnext]; exact hleft
    · rw [hnext]; exact exitFailFrom_exitPending
    · intro y hy
      by_cases hys : y = .shutdownPending
      · subst hys
        simp only [hnext, held, exitFailFrom_shutdownPending]
        exact List.nil_sublist _
      · rw [held_other (by simp [Event.actor]) (by simp [Event.actor]) (fun _ => ⟨hy, hys⟩)]
    · exact fun f m hm => Or.inl (by rwa [result_frame (by simp [Event.actor])] at hm)
  · have hnext : next s (.handleExit r rd) = { s with
        pool := { s.pool.modify r (fun w => { w with alive := false }) with smoothWeights := weights }
        supervisor := .crashed x } := by
      simp only [next, handleExitNext, hskip, h]
      rfl
    exact quiet_supervisor hd rfl (by rw [hnext]; rfl) (by rw [hnext])
      (by rw [hnext]; rfl) (by rw [hnext]; rfl)

omit [DecidableEq ι] in
/-- `_fail_all_pending` takes whatever is left. -/
theorem takeAll_left (hd : Delivery s) :
    (∀ t f, (takeAllPending s.pool).1.futures.get? t = some f ↔
        s.pool.futures.get? t = some f ∧ f ∉ (takeAllPending s.pool).2) ∧
      (∀ f ∈ (takeAllPending s.pool).2, ∃ t, s.pool.futures.get? t = some f) ∧
      (takeAllPending s.pool).2.Nodup := by
  refine ⟨fun t f => ?_, fun f hf => Dict.mem_values.mp hf, hd.values_nodup⟩
  simp only [takeAllPending, Dict.get?_empty, reduceCtorEq, false_iff, not_and, not_not]
  exact fun h => Dict.mem_values.mpr ⟨t, h⟩

/-! ## The invariant -/

theorem delivery_next (hd : Delivery s) (hi : Invariant s) (he : Enabled s e) :
    Delivery (next s e) := by
  have hresult : Event.actor e ≠ .result → ∀ f m, (next s e).result = .holding (some f) m →
      s.result = .holding (some f) m := fun ha f m h => by rwa [result_frame ha] at h
  cases e
  case execute q puts => exact execute_next hd hi.consistent.books q puts
  case receive m => exact receive_next hd hi.consistent.books m he
  case deliver f m => exact deliver_next hd f m he
  case unregisterCall i g => exact unregister_next hd hi.consistent g he
  case handleExit r rd => exact handleExit_next hd hi.consistent.books r rd he
  case fail i f rest x =>
    have hpc : s.user i = .failing f rest x := he
    refine hd.settle (x := .unregister i) (by simp only [held, hpc]; rfl) rfl rfl ?_ ?_
      (hresult (by simp [Event.actor])) (by rintro v task ⟨⟩)
    · simp [held, next, failNext]
    · intro y hy
      by_cases hyc : y = .closePending i
      · subst hyc; simp [held, next, failNext]
      · rw [held_user rfl hy hyc]
  case closeFail i f rest =>
    have hpc : s.user i = .closeFailing f rest := he
    refine hd.settle (x := .closePending i) (by simp only [held, hpc]; rfl) rfl rfl ?_ ?_
      (hresult (by simp [Event.actor])) (by rintro v task ⟨⟩)
    · simp [held, next, closeFailNext]
    · intro y hy
      by_cases hyu : y = .unregister i
      · subst hyu; simp [held, next, closeFailNext]
      · rw [held_user rfl hyu hy]
  case exitFail f rest r rd =>
    have hpc : s.supervisor = .failing f rest r rd := he
    refine hd.settle (x := .exitHandler) (by simp only [held, hpc]; rfl) rfl rfl ?_ ?_
      (hresult (by simp [Event.actor])) (by rintro v task ⟨⟩)
    · simp [held, next, exitFailNext]
    · intro y hy
      by_cases hys : y = .shutdownPending
      · subst hys; simp [held, next, exitFailNext]
      · rw [held_other (by simp [Event.actor]) (by simp [Event.actor]) (fun _ => ⟨hy, hys⟩)]
  case shutdownFail f rest r rd =>
    have hpc : s.supervisor = .shutdownFailing f rest r rd := he
    refine hd.settle (x := .shutdownPending) (by simp only [held, hpc]; rfl) rfl rfl ?_ ?_
      (hresult (by simp [Event.actor])) (by rintro v task ⟨⟩)
    · simp [held, next, shutdownFailNext]
    · intro y hy
      by_cases hyx : y = .exitHandler
      · subst hyx; simp [held, next, shutdownFailNext]
      · rw [held_other (by simp [Event.actor]) (by simp [Event.actor]) (fun _ => ⟨hyx, hy⟩)]
  case closeTake i =>
    obtain ⟨hleft, hfrom, hn⟩ := takeAll_left hd
    refine hd.take (x := .closePending i) _ s.history.received rfl
      (List.Subset.refl _) hleft hfrom hn ?_ ?_ (fun f m h => Or.inl
        (hresult (by simp [Event.actor]) f m h))
    · simp only [held, next, closeTakeNext, setUser_self, closeFailFrom_closePending]
      rfl
    · intro y hy
      by_cases hyu : y = .unregister i
      · subst hyu; simp [held, next, closeTakeNext]
      · rw [held_user rfl hyu hy]
  case shutdownTake r rd =>
    obtain ⟨hleft, hfrom, hn⟩ := takeAll_left hd
    refine hd.take (x := .shutdownPending) _ s.history.received rfl
      (List.Subset.refl _) hleft hfrom hn ?_ ?_ (fun f m h => Or.inl
        (hresult (by simp [Event.actor]) f m h))
    · simp only [held, next, shutdownTakeNext, shutdownFailFrom_shutdownPending]
      rfl
    · intro y hy
      by_cases hyx : y = .exitHandler
      · subst hyx; simp [held, next, shutdownTakeNext]
      · rw [held_other (by simp [Event.actor]) (by simp [Event.actor]) (fun _ => ⟨hyx, hy⟩)]
  case processExit | read | drop | tick | registerHandler =>
    refine hd.quiet ?_ rfl (fun x => ?_) (hresult (by simp [Event.actor]))
    · first | rfl | (simp only [next, addHandler]; split <;> rfl)
    · rw [held_other (by simp [Event.actor]) (by simp [Event.actor]) (by simp [Event.actor])]
  case resultStop | resultCrash =>
    have hpolling : s.result = .polling := he.1
    refine hd.quiet rfl rfl (fun x => ?_) fun f m h => by cases h
    by_cases hx : x = .resultLoop
    · subst hx; exact List.nil_sublist _
    · rw [held_other (by simp [Event.actor]) (fun _ => hx) (by simp [Event.actor])]
  all_goals first
    | exact user_next hd he rfl (by simp) (by simp) (by simp) (by simp)
    | exact supervisor_next hd he rfl (by simp) (by simp) (by simp) (by simp)

omit [DecidableEq ι] in
theorem delivery_started {p : Pool} (hp : p.futures = Dict.empty) (pipe : Pipe)
    (logs : Logs) : Delivery (started p pipe logs : State ι) where
  unused f _ := ⟨rfl, rfl, rfl⟩
  table t f h := by
    rw [show (started p pipe logs : State ι).pool.futures = Dict.empty from hp] at h
    cases h
  taken f t h := by cases h
  held x := by
    cases x <;> exact ⟨List.nodup_nil, fun f hf => by cases hf⟩
  once f := Nat.zero_le 1
  origin f t v h := by cases h
  message f m h := by cases h

theorem reachable_delivery (h : Reachable s) : Delivery s := by
  refine Transitions.System.invariant_reachable ?_ ?_ h
  · rintro s ⟨registry, groups, p, pipe, logs, -, hp, rfl⟩
    exact delivery_started (construct_prepared hp).fresh pipe logs
  · rintro s e t hr hd ⟨he, rfl⟩
    exact delivery_next hd (reachable_invariant hr) he

/-- Whatever the threads do, an accepted future is in the table or was taken out by one
resolver, is settled at most once, and gets only the value of a message about its task. -/
theorem future_resolved_once (h : Reachable s) {f : FutureId} {t : TaskId}
    (ha : s.history.acceptedTask f = some t) :
    (s.pool.futures.get? t = some f ∧ s.history.takenBy f = [] ∨
      f ∉ s.pool.futures.values ∧ ∃ x, s.history.takenBy f = [x]) ∧
    (s.history.resolutions f).length ≤ 1 ∧
    ∀ v, .result v ∈ s.history.resolutions f →
      ∃ m ∈ s.history.received, m.ok = true ∧ m.taskId = t ∧ m.payload = v := by
  have hd := reachable_delivery h
  refine ⟨?_, hd.once f, fun v => hd.origin f t v ha⟩
  by_cases hin : f ∈ s.pool.futures.values
  · obtain ⟨t', ht'⟩ := Dict.mem_values.mp hin
    obtain ⟨ha', hnone, -⟩ := hd.table t' f ht'
    rw [ha] at ha'
    cases ha'
    exact Or.inl ⟨ht', hnone⟩
  · rcases hd.taken f t ha with ht | hx
    · exact absurd (Dict.mem_values.mpr ⟨t, ht⟩) hin
    · exact Or.inr ⟨hin, hx⟩

end

/-- A task is executed, answered, and its future settled. -/
def answered : List (Event Unit) :=
  [.execute { handlerName := "echo", taskId := "t" } [], .receive ⟨true, "t", "g_R0", 1, none, none, none⟩,
    .deliver (some 0) ⟨true, "t", "g_R0", 1, none, none, none⟩]

theorem answered_once : ∃ s : State Unit, s.history.resolutions 0 = [.result none] ∧
    (s.history.resolutions 0).length ≤ 1 := by
  have hr : Reachable (answered.foldl next (started (constructed ["echo"] [sampleGroup]))) :=
    reachable_replay (by decide +kernel) (by decide +kernel)
  exact ⟨_, by decide +kernel, (future_resolved_once (t := "t") hr (by decide +kernel)).2.1⟩

end PoolDelivery
