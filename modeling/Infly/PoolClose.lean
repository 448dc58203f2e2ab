import Infly.PoolClosing

/-! # Closing the pool

`close` queries and closes the handle of every worker in the table. A handle that another
thread has closed, or closes meanwhile, ends the call early, and what was pending is lost. So
does a call from the result thread, which would have to join itself. Then `close` joins the
feeders of the task queues, and one that cannot get rid of its last message holds it for ever.
Last it stops the log manager, which may raise as well.
-/
namespace PoolClose

open Contracts Config PoolState PoolTables PoolAccounting PoolGroups PoolModel PoolFrames
open PoolInvariant PoolDelivery PoolSettling PoolHandles PoolQueues Progress

variable {ι : Type}

section

variable [DecidableEq ι] {s t : State ι} {e : Event ι} {i j : ι}

/-! ## Calls that raise -/

/-- The handles that a `close` has still to ask for the first time. -/
def UserPc.unasked (p : Pool) : UserPc → List Ref
  | .closeSignalling | .closeProbing _ _ => p.workers.values
  | .closeStopping .join r rest => r :: rest
  | .closeStopping _ _ rest => rest
  | _ => []

structure Stuck (i : ι) (s : State ι) : Prop where
  nodup : s.pool.workers.values.Nodup
  distinct : (UserPc.inspects (s.user i)).Nodup
  unusable : ∃ r ∈ UserPc.unasked s.pool (s.user i), ∃ h, (s.pool.heap r).process = some h ∧ ¬ h.Usable

/-- A queue of the table holds the `close`, or will, unless somebody reads from it. -/
structure Jammed (i : ι) (s : State ι) : Prop where
  nodup : s.pool.workers.values.Nodup
  distinct : (UserPc.inspects (s.user i)).Nodup
  full : ∃ r, (r ∈ UserPc.unclosed s.pool (s.user i) ∧
      ¬ Joinable s r (UserPc.coming s.pool (s.user i) r)) ∨
    (UserPc.joining (s.user i) = some r ∧ s.drained r = false)

/-- The `close` has raised, or is held for ever; or a handle it has still to ask will make it
raise, or a queue hold it; or it will have to join its own thread; or the log manager will not
stop. -/
inductive Doomed (i : ι) (s : State ι) : Prop where
  | raised (x : Raised) (h : s.user i = .raised x)
  | hanging (h : s.user i = .closeHanging)
  | stuck (h : Stuck i s)
  | jammed (h : Jammed i s)
  | circular (h : s.caller i = .result) (hpc : UserPc.beforeJoin (s.user i) = true)
  | logged (h : (s.logs.stop (s.caller i)).1 ≠ .returns)
      (hpc : UserPc.beforeLogs (s.user i) = true)

omit [DecidableEq ι] in
theorem closeStopFrom_unasked {p : Pool} {l : List Ref} : UserPc.unasked p (closeStopFrom l) = l := by
  cases l <;> rfl

omit [DecidableEq ι] in
theorem Doomed.unfinished (hd : Doomed i s) : s.user i ≠ .returned := by
  intro hret
  cases hd with
  | raised x h => rw [hret] at h; cases h
  | hanging h => rw [hret] at h; cases h
  | stuck h =>
    obtain ⟨r, hr, -⟩ := h.unusable
    rw [hret] at hr
    cases hr
  | jammed h =>
    obtain ⟨r, ⟨hr, -⟩ | ⟨hr, -⟩⟩ := h.full <;> rw [hret] at hr <;> cases hr
  | circular h hpc | logged h hpc => rw [hret] at hpc; cases hpc

theorem stuck_next (hs : Stuck i s) (he : Enabled s e) (hown : closes i e) :
    Doomed i (next s e) := by
  obtain ⟨hnodup, hn, r, hr, h, hp, hbad⟩ := hs
  have go : ∀ {t : State ι} {pc}, t.user i = pc → t.pool.workers = s.pool.workers →
      (UserPc.inspects pc).Nodup → r ∈ UserPc.unasked s.pool pc →
      (t.pool.heap r).process = (s.pool.heap r).process → Doomed i t := by
    rintro t pc rfl hw hn hr hp'
    refine .stuck ⟨by rw [hw]; exact hnodup, hn, r, ?_, h, hp'.trans hp, hbad⟩
    unfold UserPc.unasked at hr ⊢
    rwa [hw]
  have probes : ∀ {l}, r ∈ s.pool.workers.values →
      r ∈ UserPc.unasked s.pool (closeProbeFrom s.pool.workers.values l) := by
    intro l hmem
    cases l with
    | nil => simpa only [closeProbeFrom, closeStopFrom_unasked] using hmem
    | cons _ _ => exact hmem
  cases e <;> simp only [closes] at hown <;> subst hown <;> simp only [Enabled] at he <;>
    first | rw [he] at hn hr | rw [he.1] at hn hr
  case closeSignal i =>
    exact go setUser_self rfl (closeProbeFrom_distinct hnodup hnodup) (probes hr) rfl
  case closeProbe i r' rest =>
    simp only [next, closeProbeNext]
    split
    · exact .raised _ setUser_self
    · exact go setUser_self rfl (closeProbeFrom_distinct hnodup (List.nodup_cons.mp hn).2)
        (probes hr) rfl
  case closeStop i k r' rest =>
    simp only [next, closeStopNext]
    split
    · exact .raised _ setUser_self
    rename_i v k' hv
    have hmem : r ∈ rest := by
      cases k with
      | join =>
        refine (List.mem_cons.mp hr).resolve_left ?_
        rintro rfl
        cases h with
        | running => exact hbad (Or.inl rfl)
        | exited => exact hbad (Or.inr rfl)
        | unstarted | closed => simp only [stopProcess, hp] at hv; cases hv
      | probe | terminate | rejoin | close | mark => exact hr
    have hne : r ≠ r' := fun h => (List.nodup_cons.mp hn).1 (h ▸ hmem)
    refine go setUser_self rfl (afterStop_distinct hn) ?_ (by simp [hne])
    cases k' with
    | none => simpa only [elim_afterStop, afterStop, Option.elim, closeStopFrom_unasked] using hmem
    | some k' =>
      cases k' <;> first
        | exact hmem
        | exact List.mem_cons_of_mem _ hmem
  all_goals cases hr

/-- The `close` reaches the full queue, and cannot get past it. -/
theorem jammed_next (hs : Jammed i s) (he : Enabled s e) (hown : closes i e) :
    Doomed i (next s e) := by
  obtain ⟨hnodup, hn, r, hfull⟩ := hs
  have go : ∀ {t : State ι} {pc}, t.user i = pc → t.pool.workers = s.pool.workers →
      (UserPc.inspects pc).Nodup → r ∈ UserPc.unclosed s.pool pc →
      ¬ Joinable t r (UserPc.coming t.pool pc r) → Doomed i t := by
    rintro t pc rfl hw hn hr hbad
    refine .jammed ⟨by rw [hw]; exact hnodup, hn, r, Or.inl ⟨?_, hbad⟩⟩
    unfold UserPc.unclosed at hr ⊢
    rwa [hw]
  -- nothing is to come for the queue once the messages are sent
  have sent : ∀ {p : Pool} {pc}, UserPc.unprobed p pc = [] → UserPc.coming p pc r = [] := by
    intro p pc h
    rw [UserPc.coming, h, if_neg List.not_mem_nil]
  have stays : ∀ {t : State ι} {pc pc'}, s.user i = pc' → t.user i = pc →
      t.pool.workers = s.pool.workers → (UserPc.inspects pc).Nodup →
      (∀ p, UserPc.unprobed p pc' = []) → (∀ p, UserPc.unprobed p pc = []) →
      r ∈ UserPc.unclosed s.pool pc →
      ¬ Joinable s r (UserPc.coming s.pool pc' r) → t.queues = s.queues →
      (t.pool.heap r).taskQueue = (s.pool.heap r).taskQueue → Doomed i t := by
    intro t pc pc' hold hpc hw hn hun' hun hr hbad hq hheap
    refine go hpc hw hn hr ?_
    rw [sent (hun' _)] at hbad
    rwa [sent (hun _), joinable_congr (s := s) (by rw [hq]) (by rw [hq])
      (by simp only [State.unjoined, hheap, hq])]
  have unjoined : ∀ {more}, ¬ Joinable s r more → s.unjoined r = true := by
    intro more hbad
    by_contra hu
    exact hbad fun h => absurd h hu
  cases e <;> simp only [closes] at hown <;> subst hown <;> simp only [Enabled] at he
  case closeSignal i =>
    rw [he] at hfull
    obtain ⟨hr, hbad⟩ | ⟨hj, -⟩ := hfull
    · refine go (t := next s (.closeSignal i)) setUser_self rfl
        (closeProbeFrom_distinct hnodup hnodup) (by rwa [closeProbeFrom_unclosed]) ?_
      rwa [closeProbeFrom_coming]
    · cases hj
  case closeProbe i r' rest =>
    rw [he] at hfull hn
    obtain ⟨hr, hbad⟩ | ⟨hj, -⟩ := hfull
    swap
    · cases hj
    obtain ⟨hr', hrest⟩ := List.nodup_cons.mp hn
    simp only [next, closeProbeNext]
    split
    · exact .raised _ setUser_self
    refine go setUser_self rfl (closeProbeFrom_distinct hnodup hrest)
      (by rwa [closeProbeFrom_unclosed]) ?_
    rw [closeProbeFrom_coming]
    refine mt (fun h hu => ?_) hbad
    have hfits := h (by simpa [State.unjoined] using hu)
    by_cases hrr : r = r'
    · subst hrr
      simpa [sendStop_unread, hr', UserPc.coming, UserPc.unprobed] using hfits
    · simpa [sendStop_unread, hrr, UserPc.coming, UserPc.unprobed] using hfits
  case closeStop i k r' rest =>
    rw [he] at hfull hn
    obtain ⟨hr, hbad⟩ | ⟨hj, -⟩ := hfull
    swap
    · cases hj
    simp only [next, closeStopNext]
    split
    · exact .raised _ setUser_self
    rename_i v k' hv
    rw [elim_afterStop]
    refine stays he setUser_self rfl (afterStop_distinct hn) (fun _ => rfl) (by simp)
      (by rwa [afterStop_unclosed]) hbad rfl ?_
    by_cases hrr : r = r'
    · subst hrr
      simpa using stopProcess_taskQueue hv
    · simp [hrr]
  case closeResultStop i =>
    rw [he] at hfull
    obtain ⟨hr, hbad⟩ | ⟨hj, -⟩ := hfull
    · exact stays he setUser_self rfl List.nodup_nil (fun _ => rfl) (fun _ => rfl) hr hbad rfl rfl
    · cases hj
  case joinResult i timedOut =>
    rw [he.1] at hfull
    obtain ⟨hr, hbad⟩ | ⟨hj, -⟩ := hfull
    swap
    · cases hj
    simp only [next, joinResultNext]
    split
    · exact .raised _ setUser_self
    · exact stays he.1 setUser_self rfl List.nodup_nil (fun _ => rfl) (fun _ => rfl) hr hbad rfl rfl
  case joinSupervisor i timedOut =>
    rw [he.1] at hfull
    obtain ⟨hr, hbad⟩ | ⟨hj, -⟩ := hfull
    · exact stays he.1 setUser_self rfl List.nodup_nil (fun _ => rfl) (fun _ => rfl) hr hbad rfl rfl
    · cases hj
  case closeTake i =>
    rw [he] at hfull
    obtain ⟨hr, hbad⟩ | ⟨hj, -⟩ := hfull
    · exact stays (t := next s (.closeTake i)) he setUser_self rfl (closeFailFrom_distinct hnodup)
        (fun _ => rfl) (by simp) (by rwa [closeFailFrom_unclosed]) hbad rfl
        (by simp only [next, closeTakeNext, takeAllPending, setUser_pool]; split <;> rfl)
    · cases hj
  case closeFail i f rest =>
    rw [he] at hfull
    obtain ⟨hr, hbad⟩ | ⟨hj, -⟩ := hfull
    · exact stays (t := next s (.closeFail i f rest)) he setUser_self rfl
        (closeFailFrom_distinct hnodup) (fun _ => rfl) (by simp)
        (by rwa [closeFailFrom_unclosed]) hbad rfl rfl
    · cases hj
  case closeQueue i r' rest =>
    rw [he] at hfull hn
    obtain ⟨hr, hbad⟩ | ⟨hj, -⟩ := hfull
    swap
    · cases hj
    rw [sent rfl] at hbad
    simp only [next, closeQueueNext]
    by_cases hrr : r = r'
    · subst hrr
      rw [if_pos (unjoined hbad)]
      refine .jammed ⟨hnodup, by rw [setUser_self]; exact hn, r,
        Or.inr ⟨by rw [setUser_self]; rfl, ?_⟩⟩
      by_contra hfits
      exact hbad fun _ => by simpa [State.drained] using hfits
    have hmem : r ∈ rest := (List.mem_cons.mp hr).resolve_left hrr
    split
    · refine go setUser_self rfl hn hmem ?_
      rw [sent rfl]
      refine mt (joinable_congr ?_ ?_ ?_).mp hbad
      · rfl
      · rfl
      · simp [State.unjoined, hrr]
    · refine stays (t := queuesClosed s i r' rest) he setUser_self rfl ?_ (fun _ => rfl) (by simp)
        (by simpa using hmem) (by rwa [sent rfl]) rfl (by simp [queuesClosed, hrr])
      rw [closeQueuesFrom_inspects]
      exact (List.nodup_cons.mp hn).2
  case joinQueue i r' rest =>
    obtain ⟨hpc, hfits⟩ := he
    rw [hpc] at hfull hn
    obtain ⟨hr, hbad⟩ | ⟨hj, hstuck⟩ := hfull
    · have hrr : r ≠ r' := fun h => (List.nodup_cons.mp hn).1 (h ▸ hr)
      refine stays (t := next s (.joinQueue i r' rest)) hpc setUser_self rfl ?_ (fun _ => rfl)
        (by simp) (by rwa [closeQueuesFrom_unclosed]) hbad rfl
        (by simp [next, queuesClosed, hrr])
      rw [closeQueuesFrom_inspects]
      exact (List.nodup_cons.mp hn).2
    · cases hj
      rw [hstuck] at hfits
      cases hfits
  case closeResult | closeLogs | closeComplete =>
    rw [he] at hfull
    obtain ⟨hr, -⟩ | ⟨hj, -⟩ := hfull
    · cases hr
    · cases hj

theorem circular_next (hs : s.caller i = .result) (hpc : UserPc.beforeJoin (s.user i) = true)
    (he : Enabled s e) (hown : closes i e) : Doomed i (next s e) := by
  cases e <;> simp only [closes] at hown <;> subst hown <;> simp only [Enabled] at he <;>
    first | rw [he] at hpc | rw [he.1] at hpc
  case closeSignal i => exact .circular hs (by simp only [next, setUser_self]; simp)
  case closeProbe i r rest =>
    simp only [next, closeProbeNext]
    split
    · exact .raised _ setUser_self
    · exact .circular hs (by simp)
  case closeStop i k r rest =>
    simp only [next, closeStopNext]
    split
    · exact .raised _ setUser_self
    · exact .circular hs (by simp [elim_afterStop])
  case closeResultStop i => exact .circular hs (by simp only [next, setUser_self]; rfl)
  case joinResult i timedOut =>
    simp only [next, joinResultNext, hs, ↓reduceIte]
    exact .raised _ setUser_self
  all_goals cases hpc

theorem logged_next (hs : (s.logs.stop (s.caller i)).1 ≠ .returns)
    (hpc : UserPc.beforeLogs (s.user i) = true) (he : Enabled s e) (hown : closes i e) :
    Doomed i (next s e) := by
  have go : ∀ {t : State ι} {pc}, t.user i = pc → t.logs = s.logs → t.caller = s.caller →
      UserPc.beforeLogs pc = true → Doomed i t := by
    rintro t pc rfl hl hc hpc
    exact .logged (by rwa [hl, hc]) hpc
  cases e <;> simp only [closes] at hown <;> subst hown <;> simp only [Enabled] at he
  case closeSignal i => exact go setUser_self rfl rfl closeProbeFrom_beforeLogs
  case closeProbe i r rest =>
    simp only [next, closeProbeNext]
    split
    · exact .raised _ setUser_self
    · exact go setUser_self rfl rfl closeProbeFrom_beforeLogs
  case closeStop i k r rest =>
    simp only [next, closeStopNext]
    split
    · exact .raised _ setUser_self
    · exact go setUser_self rfl rfl afterStop_beforeLogs
  case joinResult i timedOut =>
    simp only [next, joinResultNext]
    split
    · exact .raised _ setUser_self
    · exact go setUser_self rfl rfl rfl
  case closeTake i | closeFail i f rest =>
    exact go setUser_self rfl rfl closeFailFrom_beforeLogs
  case closeQueue i r rest =>
    simp only [next, closeQueueNext]
    split
    · exact go setUser_self rfl rfl rfl
    · exact go setUser_self rfl rfl closeQueuesFrom_beforeLogs
  case joinQueue i r rest => exact go setUser_self rfl rfl closeQueuesFrom_beforeLogs
  case closeResultStop i | joinSupervisor i timedOut | closeResult i =>
    exact go setUser_self rfl rfl rfl
  case closeLogs i =>
    cases hx : (s.logs.stop (s.caller i)).1 with
    | returns => exact absurd hx hs
    | raises x => exact .raised x (by simp only [next, closeLogsNext, hx, afterLogs, setUser_self])
    | hangs => exact .hanging (by simp only [next, closeLogsNext, hx, afterLogs, setUser_self])
  case closeComplete i =>
    rw [he] at hpc
    cases hpc

theorem doomed_next (hd : Doomed i s) (he : Enabled s e) (hown : closes i e) :
    Doomed i (next s e) := by
  cases hd with
  | raised x hx =>
    cases e <;> simp only [closes] at hown <;> subst hown <;>
      simp only [Enabled, hx, reduceCtorEq, false_and] at he
  | hanging hx =>
    cases e <;> simp only [closes] at hown <;> subst hown <;>
      simp only [Enabled, hx, reduceCtorEq, false_and] at he
  | stuck h => exact stuck_next h he hown
  | jammed h => exact jammed_next h he hown
  | circular h hpc => exact circular_next h hpc he hown
  | logged h hpc => exact logged_next h hpc he hown

/-! ## Runs of other threads that close a handle -/

/-- A run of other threads from here closes a handle of the table. -/
def Breaks (R : State ι → Event ι → State ι → Prop) (s : State ι) : Prop :=
  ∃ t w, Transitions.Execution R s t ∧ w ∈ s.pool.workers.values ∧
    (t.pool.heap w).process = some .closed

omit [DecidableEq ι] in
theorem Breaks.before {R : State ι → Event ι → State ι → Prop} {t : State ι} (hst : R s e t)
    (hw : t.pool.workers = s.pool.workers) (h : Breaks R t) : Breaks R s := by
  obtain ⟨u, w, run, hmem, hp⟩ := h
  exact ⟨u, w, (Transitions.Execution.single hst).trans run, hw ▸ hmem, hp⟩

omit [DecidableEq ι] in
/-- `stop_closes`, from a usable handle. -/
theorem stop_breaks {R : State ι → Event ι → State ι → Prop} {A : StopStep → State ι → Prop}
    {w : Ref} (go : ∀ s k v k', A k s → stopProcess (s.pool.heap w) k = .ok (v, some k') →
      ∃ e t, R s e t ∧ t.pool.heap w = v ∧ A k' t)
    (exit : ∀ s k, A k s → (s.pool.heap w).process = some .running →
      ∃ e t, R s e t ∧ (t.pool.heap w).process = some .exited ∧ A k t) {k : StopStep}
    (hk : k ≠ .mark) (hs : A k s) (hu : UsableHandle (s.pool.heap w))
    (hw : w ∈ s.pool.workers.values) : Breaks R s := by
  obtain ⟨x, hx, rfl | rfl⟩ := hu
  · obtain ⟨e, t, hst, hp, ht⟩ := exit s k hs hx
    obtain ⟨u, run, hu⟩ := stop_closes go hk ht hp
    exact ⟨u, w, (Transitions.Execution.single hst).trans run, hw, hu⟩
  · obtain ⟨u, run, hu⟩ := stop_closes go hk hs hx
    exact ⟨u, w, run, hw, hu⟩

section

variable {r : Ref} {rd : Round}

theorem stopping_breaks {k : StopStep} {w : Ref} {rest : List Ref} (hk : k ≠ .mark)
    (hpc : s.supervisor = .shutdownStopping k w rest r rd) (hu : UsableHandle (s.pool.heap w))
    (hw : w ∈ s.pool.workers.values) : Breaks Background s := by
  refine stop_breaks (A := fun k s => s.supervisor = .shutdownStopping k w rest r rd)
    ?_ ?_ hk hpc hu hw
  · intro s k v k' hpc hv
    refine ⟨.shutdownStop k w rest r rd, _, ⟨Or.inl rfl, hpc, rfl⟩, ?_, ?_⟩ <;>
      simp [next, shutdownStopNext, hv]
  · intro s k hpc hp
    exact ⟨.processExit w, _, ⟨Or.inr ⟨w, rfl⟩, hp, rfl⟩, by simp [next], hpc⟩

theorem signalling_breaks (hpc : s.supervisor = .shutdownSignalling r rd)
    (hne : others s.pool r ≠ [])
    (hu : ∀ w ∈ s.pool.workers.values, UsableHandle (s.pool.heap w)) : Breaks Background s := by
  obtain ⟨w, rest, hcons⟩ := List.exists_cons_of_ne_nil hne
  have hw : w ∈ s.pool.workers.values :=
    (List.mem_filter.mp (show w ∈ others s.pool r by rw [hcons]; exact List.mem_cons_self)).1
  have hnext : (next s (.shutdownSignal r rd)).supervisor = .shutdownStopping .join w rest r rd := by
    have : shutdownStopFrom r rd (others s.pool r) = .shutdownStopping .join w rest r rd := by
      rw [hcons]; rfl
    exact this
  exact Breaks.before (e := .shutdownSignal r rd) ⟨Or.inl rfl, hpc, rfl⟩ rfl
    (stopping_breaks (by simp) hnext (hu w hw) hw)

theorem dispatching_breaks (hpc : s.supervisor = .dispatching r rd)
    (hmode : (s.pool.heap r).group.safety.mode = .shutdown) (hne : others s.pool r ≠ [])
    (hu : ∀ w ∈ s.pool.workers.values, UsableHandle (s.pool.heap w)) : Breaks Background s := by
  have hnext : next s (.dispatch r rd) = { s with supervisor := .shutdownFlagging r rd } := by
    simp only [next, dispatchNext, hmode]
  refine Breaks.before (e := .dispatch r rd) (t := { s with supervisor := .shutdownFlagging r rd })
    ⟨Or.inl rfl, hpc, hnext.symm⟩ rfl ?_
  refine Breaks.before (e := .shutdownFlag r rd) ⟨Or.inl rfl, rfl, rfl⟩ rfl ?_
  exact signalling_breaks rfl hne hu

theorem failing_breaks {f : FutureId} {rest : List FutureId}
    (hpc : s.supervisor = .failing f rest r rd)
    (hmode : (s.pool.heap r).group.safety.mode = .shutdown) (hne : others s.pool r ≠ [])
    (hu : ∀ w ∈ s.pool.workers.values, UsableHandle (s.pool.heap w)) : Breaks Background s := by
  induction rest generalizing s f with
  | nil =>
    exact Breaks.before (e := .exitFail f [] r rd) ⟨Or.inl rfl, hpc, rfl⟩ rfl
      (dispatching_breaks rfl hmode hne hu)
  | cons g rest ih =>
    exact Breaks.before (e := .exitFail f (g :: rest) r rd) ⟨Or.inl rfl, hpc, rfl⟩ rfl
      (ih rfl hmode hne hu)

theorem handling_breaks (hi : Invariant s) (hc : s.pool.closing = true)
    (hpc : s.supervisor = .handlingExit r rd) (hexits : exits s.pool r = true)
    (hmode : (s.pool.heap r).group.safety.mode = .shutdown) (hne : others s.pool r ≠ [])
    (hu : ∀ w ∈ s.pool.workers.values, UsableHandle (s.pool.heap w)) : Breaks Background s := by
  simp only [exits, Bool.and_eq_true, Bool.not_eq_true', beq_iff_eq] at hexits
  obtain ⟨⟨halive, hretiring⟩, hin⟩ := hexits
  obtain ⟨x, hx, hxu⟩ := hu r (inTable_values.mp ⟨_, hin⟩)
  have hsup : ∃ failed, (next s (.handleExit r rd)).supervisor = exitFailFrom r rd failed := by
    have hjoin : x.join = .ok () := by rcases hxu with rfl | rfl <;> rfl
    simp only [next, handleExitNext, halive, hretiring, hin, handleWorkerExit, hx, hjoin,
      Bool.not_true, bne_self_eq_false, Bool.or_self, Bool.false_eq_true, ↓reduceIte]
    exact ⟨_, rfl⟩
  have hw := (closing_frame (e := .handleExit r rd) hi.consistent hc).2.workers
  have hmode' : ((next s (.handleExit r rd)).pool.heap r).group.safety.mode = .shutdown := by
    rw [(worker_frame hi.consistent (hi.consistent.books.allocated r ⟨_, hin⟩)).group]
    exact hmode
  have hne' : others (next s (.handleExit r rd)).pool r ≠ [] := by
    simpa only [others, hw] using hne
  have hu' : ∀ w ∈ (next s (.handleExit r rd)).pool.workers.values,
      UsableHandle ((next s (.handleExit r rd)).pool.heap w) := by
    intro w hmem
    rw [hw] at hmem
    obtain ⟨y, hy, hyu⟩ := hu w hmem
    have hlt := hi.consistent.books.allocated w (inTable_values.mpr hmem)
    rcases process_frame (e := .handleExit r rd) hi.consistent hlt (by simp [Event.rehandles]) with
      h | ⟨h, -⟩
    · exact ⟨y, h.trans hy, hyu⟩
    · cases h
  refine Breaks.before (e := .handleExit r rd) ⟨Or.inl rfl, hpc, rfl⟩ hw ?_
  obtain ⟨failed, hsup⟩ := hsup
  cases failed with
  | nil => exact dispatching_breaks hsup hmode' hne' hu'
  | cons f rest => exact failing_breaks hsup hmode' hne' hu'

end

/-- A supervisor that may still close a handle of the table can do so at once. -/
theorem supervisor_breaks (hi : Invariant s) (hc : s.pool.closing = true)
    (hu : ∀ w ∈ s.pool.workers.values, UsableHandle (s.pool.heap w)) {r : Ref}
    (hr : r ∈ s.pool.workers.values) (h : r ∈ SupervisorPc.willStop s.pool s.supervisor) :
    Breaks Background s := by
  have hne : ∀ {w}, r ∈ others s.pool w → others s.pool w ≠ [] := List.ne_nil_of_mem
  have single : SupervisorPc.mayClose s.supervisor = some r → Breaks Background s := by
    intro hm
    obtain ⟨x, hx, hxu⟩ := hu r hr
    obtain ⟨t, run, hp⟩ := mayClose_closes hm hx hxu
    exact ⟨t, r, run, hr, hp⟩
  cases hpc : s.supervisor <;> rw [hpc] at h <;> try exact absurd h List.not_mem_nil
  case awaiting w rd =>
    refine single ?_
    rw [hpc, List.mem_singleton.mp h]
    rfl
  case stopping k w rd =>
    simp only [SupervisorPc.willStop] at h
    split at h
    · cases h
    · rename_i hk
      refine single ?_
      rw [hpc, List.mem_singleton.mp h, SupervisorPc.mayClose, if_neg hk]
  case handlingExit w rd =>
    simp only [SupervisorPc.willStop] at h
    split at h
    · rename_i hcond
      exact handling_breaks hi hc hpc hcond.1 hcond.2 (hne h) hu
    · cases h
  case failing f rest w rd =>
    simp only [SupervisorPc.willStop] at h
    split at h
    · rename_i hmode
      exact failing_breaks hpc hmode (hne h) hu
    · cases h
  case dispatching w rd =>
    simp only [SupervisorPc.willStop] at h
    split at h
    · rename_i hmode
      exact dispatching_breaks hpc hmode (hne h) hu
    · cases h
  case shutdownFlagging w rd =>
    exact Breaks.before (e := .shutdownFlag w rd) ⟨Or.inl rfl, hpc, rfl⟩ rfl
      (signalling_breaks rfl (hne h) hu)
  case shutdownSignalling w rd => exact signalling_breaks hpc (hne h) hu
  case shutdownStopping k w rest v rd =>
    have hstops : ∀ u ∈ w :: rest, u ∈ s.pool.workers.values := fun u hu =>
      inTable_values.mp ((hi.shutdown (by rw [hpc]; rfl)).2 u (by rw [hpc]; exact hu))
    simp only [SupervisorPc.willStop] at h
    split at h
    · rename_i hk
      subst hk
      cases rest with
      | nil => cases h
      | cons u rest =>
        have hmem := hstops u (List.mem_cons_of_mem _ List.mem_cons_self)
        refine Breaks.before (e := .shutdownStop .mark w (u :: rest) v rd) ⟨Or.inl rfl, hpc, rfl⟩
          rfl (stopping_breaks (k := .join) (by simp) rfl ?_ hmem)
        obtain ⟨x, hx, hxu⟩ := hu u hmem
        refine ⟨x, ?_, hxu⟩
        by_cases huw : u = w
        · subst huw; simpa [next, shutdownStopNext, stopProcess] using hx
        · simpa [next, shutdownStopNext, stopProcess, huw] using hx
    · rename_i hk
      exact stopping_breaks hk hpc (hu w (hstops w List.mem_cons_self)) (hstops w List.mem_cons_self)

/-- Steps of thread `j`'s `close` and exits of processes. -/
def Elsewhere (j : ι) (s : State ι) (e : Event ι) (t : State ι) : Prop :=
  (closes j e ∨ ∃ r, e = .processExit r) ∧ Step s e t

theorem closeStopping_breaks {k : StopStep} {w : Ref} {rest : List Ref} (hk : k ≠ .mark)
    (hpc : s.user j = .closeStopping k w rest) (hu : UsableHandle (s.pool.heap w))
    (hw : w ∈ s.pool.workers.values) : Breaks (Elsewhere j) s := by
  refine stop_breaks (A := fun k s => s.user j = .closeStopping k w rest) ?_ ?_ hk hpc hu hw
  · intro s k v k' hpc hv
    refine ⟨.closeStop j k w rest, _, ⟨Or.inl rfl, hpc, rfl⟩, ?_, ?_⟩ <;>
      simp [next, closeStopNext, hv]
  · intro s k hpc hp
    exact ⟨.processExit w, _, ⟨Or.inr ⟨w, rfl⟩, hp, rfl⟩, by simp [next], hpc⟩

theorem closeProbing_breaks {w : Ref} {rest : List Ref} (hpc : s.user j = .closeProbing w rest)
    (hall : ∀ v ∈ w :: rest, v ∈ s.pool.workers.values)
    (hu : ∀ v ∈ s.pool.workers.values, UsableHandle (s.pool.heap v)) :
    Breaks (Elsewhere j) s := by
  have probe : ∀ {s : State ι} {w rest}, UsableHandle (s.pool.heap w) →
      next s (.closeProbe j w rest) =
        { s with queues := s.queues.sendStop w (s.pool.heap w) }.setUser j
          (closeProbeFrom s.pool.workers.values rest) := by
    rintro s w rest ⟨x, hx, rfl | rfl⟩ <;> simp only [next, closeProbeNext, hx] <;> rfl
  induction rest generalizing s w with
  | nil =>
    have hw := hall w List.mem_cons_self
    obtain ⟨v, l, hcons⟩ := List.exists_cons_of_ne_nil (List.ne_nil_of_mem hw)
    have hv : v ∈ s.pool.workers.values := by rw [hcons]; exact List.mem_cons_self
    have hnext : next s (.closeProbe j w []) =
        { s with queues := s.queues.sendStop w (s.pool.heap w) }.setUser j
          (.closeStopping .join v l) := by
      rw [probe (hu w hw), hcons]
      rfl
    refine Breaks.before (e := .closeProbe j w []) ⟨Or.inl rfl, hpc, hnext.symm⟩ rfl ?_
    exact closeStopping_breaks (by simp) setUser_self (hu v hv) hv
  | cons v rest ih =>
    have hnext : next s (.closeProbe j w (v :: rest)) =
        { s with queues := s.queues.sendStop w (s.pool.heap w) }.setUser j (.closeProbing v rest) :=
      probe (hu w (hall w List.mem_cons_self))
    refine Breaks.before (e := .closeProbe j w (v :: rest)) ⟨Or.inl rfl, hpc, hnext.symm⟩ rfl ?_
    exact ih setUser_self (fun u hmem => hall u (List.mem_cons_of_mem _ hmem)) hu

/-- Another `close` that may still close a handle of the table can do so at once. -/
theorem user_breaks (hi : Invariant s)
    (hu : ∀ w ∈ s.pool.workers.values, UsableHandle (s.pool.heap w)) {r : Ref}
    (h : r ∈ UserPc.willStop s.pool (s.user j)) : Breaks (Elsewhere j) s := by
  have hall := (hi.closers j (willStop_closes h)).2
  have hne : s.pool.workers.values ≠ [] :=
    List.ne_nil_of_mem (inTable_values.mp (willStop_inTable hi h))
  obtain ⟨v, l, hcons⟩ := List.exists_cons_of_ne_nil hne
  cases hpc : s.user j <;> rw [hpc] at h hall <;> try exact absurd h List.not_mem_nil
  case closeSignalling =>
    have hnext : (next s (.closeSignal j)).user j = .closeProbing v l := by
      simp only [next, setUser_self]
      rw [hcons]
      rfl
    refine Breaks.before (e := .closeSignal j) ⟨Or.inl rfl, hpc, rfl⟩ rfl
      (closeProbing_breaks hnext ?_ hu)
    rw [← hcons]
    exact fun v hv => hv
  case closeProbing w rest =>
    exact closeProbing_breaks hpc (fun v hv => inTable_values.mp (hall v hv)) hu
  case closeStopping k w rest =>
    have hmem : ∀ v ∈ w :: rest, v ∈ s.pool.workers.values := fun v hv =>
      inTable_values.mp (hall v hv)
    cases k with
    | mark =>
      cases rest with
      | nil => cases h
      | cons u rest =>
        have hu' := hmem u (List.mem_cons_of_mem _ List.mem_cons_self)
        refine Breaks.before (e := .closeStop j .mark w (u :: rest)) ⟨Or.inl rfl, hpc, rfl⟩ rfl
          (closeStopping_breaks (k := .join) (by simp) setUser_self ?_ hu')
        obtain ⟨x, hx, hxu⟩ := hu u hu'
        refine ⟨x, ?_, hxu⟩
        by_cases huw : u = w
        · subst huw; simpa [next, closeStopNext, stopProcess] using hx
        · simpa [next, closeStopNext, stopProcess, huw] using hx
    | join | probe | terminate | rejoin | close =>
      exact closeStopping_breaks (by simp) hpc (hu w (hmem w List.mem_cons_self))
        (hmem w List.mem_cons_self)

/-! ## The call -/

/-- On which thread the call of `close` is made. -/
def callerOf : Event ι → Caller
  | .closeCallback _ => .result
  | .closeSink _ => .listener
  | _ => .own

/-- Nothing in the table, and nobody else, keeps the call `e` of `close` from its end: not its
own thread, nor the log manager, nor a handle, nor a queue. -/
def Closable (i : ι) (s : State ι) (e : Event ι) : Prop :=
  s.pool.closeComplete = true ∨ callerOf e ≠ .result ∧
    (s.logs.stop (callerOf e)).1 = .returns ∧ ∀ r ∈ s.pool.workers.values,
      UsableHandle (s.pool.heap r) ∧ r ∉ SupervisorPc.willStop s.pool s.supervisor ∧
      (∀ j, j ≠ i → r ∉ UserPc.willStop s.pool (s.user j)) ∧ Emptying s r

/-- The call has returned and marked the pool closed, and each future that was pending when
it began is resolved, or a thread that took it from the table first is about to resolve it. -/
def Closed (i : ι) (s t : State ι) : Prop :=
  t.user i = .returned ∧ t.pool.closeComplete = true ∧
    ∀ f ∈ s.pool.futures.values, t.history.resolutions f ≠ [] ∨
      ∃ x, Resolver.direct x = true ∧ f ∈ held t x

/-- A `close` that nothing is in the way of runs to its end. -/
theorem closing_finishes (hb : Closing i s.pool.futures.values t) :
    Finishes Alone (closes i) (Closed i s) t := by
  refine Finishes.of_measure (B := Closing i s.pool.futures.values) (work i) ?_ ?_ ?_ hb
  · rintro u e t hb hown ⟨hcall, he, rfl⟩
    have hi := reachable_invariant hb.reachable
    have hc := (hi.closers i hb.busy).1
    obtain ⟨hb', hpc⟩ := closing_others hb he hcall hown
    refine ⟨hb', ?_⟩
    rw [work, hpc, (closing_frame hi.consistent hc).2.workers]
    exact rank_mono (Dict.length_values_le fun t f hf => futures_frame hi hc hf) _
  · intro u hb
    have step : ∀ e, closes i e → Enabled u e → ∃ e t, closes i e ∧ Alone u e t := fun e hown he =>
      ⟨e, _, hown, closes_alone hown, he, rfl⟩
    have hbusy := hb.busy
    cases hu : u.user i <;> rw [hu] at hbusy <;> try exact absurd hbusy Bool.false_ne_true
    case closeSignalling => exact step (.closeSignal i) rfl hu
    case closeProbing r rest => exact step (.closeProbe i r rest) rfl hu
    case closeStopping k r rest => exact step (.closeStop i k r rest) rfl hu
    case closeResultStopping => exact step (.closeResultStop i) rfl hu
    case closeJoiningResult => exact step (.joinResult i true) rfl ⟨hu, by simp⟩
    case closeJoiningSupervisor => exact step (.joinSupervisor i true) rfl ⟨hu, by simp⟩
    case closeTaking => exact step (.closeTake i) rfl hu
    case closeFailing f rest => exact step (.closeFail i f rest) rfl hu
    case closeClosingQueue r rest => exact step (.closeQueue i r rest) rfl hu
    case closeJoiningQueue r rest =>
      exact step (.joinQueue i r rest) rfl ⟨hu, hb.clear.joining r (by rw [hu]; rfl)⟩
    case closeClosingResult => exact step (.closeResult i) rfl hu
    case closeStoppingLogs => exact step (.closeLogs i) rfl hu
    case closeCompleting => exact step (.closeComplete i) rfl hu
  · rintro u e t hb hown ⟨hcall, he, rfl⟩
    refine (closing_own hb he hown).imp_left ?_
    rintro ⟨hret, hcomplete⟩
    obtain ⟨hr, -, -, hfut⟩ := closing_keeps hb he hcall
    refine ⟨hret, hcomplete, fun f hf => ?_⟩
    obtain ⟨⟨task, hacc⟩, htaken⟩ := hfut f hf
    rcases (reachable_delivery hr).taken f task hacc with hin | ⟨x, hx⟩
    · rw [(reachable_settling hr).completed hcomplete task] at hin
      cases hin
    · have hdirect : Resolver.direct x = true := by
        cases x with
        | unregister j => exact absurd hx (htaken j)
        | resultLoop | exitHandler | closePending j | shutdownPending => rfl
      exact ((reachable_settling hr).taken f x hx hdirect).imp_right fun hheld => ⟨x, hdirect, hheld⟩

/-- The state after the first locked section of a `close`. -/
def beginClose (s : State ι) (i : ι) (c : Caller) : State ι :=
  { s with
    pool := { s.pool with accepting := false, closing := true }
    caller := Function.update s.caller i c }.setUser i .closeSignalling

variable {c : Caller}

theorem beginClose_running : ¬ Closed i s (beginClose s i c) := by
  rintro ⟨hret, -⟩
  rw [beginClose, setUser_self] at hret
  cases hret

theorem doomed_raises (hd : Doomed i t) : ¬ Finishes Alone (closes i) (Closed i s) t := by
  refine Finishes.not_of_stays (D := Doomed i) ?_ ?_ hd
  · rintro v hv ⟨hret, -⟩
    exact hv.unfinished hret
  · rintro v e t hv he ⟨-, hen, rfl⟩
    exact doomed_next hv hen he

/-- With an unusable handle in the table the call is doomed as soon as it begins. -/
theorem unusable_raises (hn : s.pool.workers.values.Nodup) (hpc : t.user i = .closeSignalling)
    (hw : t.pool.workers = s.pool.workers) {w : Ref} (hmem : w ∈ s.pool.workers.values)
    {x : Process} (hx : (t.pool.heap w).process = some x) (hbad : ¬ x.Usable) :
    ¬ Finishes Alone (closes i) (Closed i s) t := by
  refine doomed_raises (.stuck ⟨by rw [hw]; exact hn, ?_, w, ?_, x, hx, hbad⟩)
  · rw [hpc]; exact List.nodup_nil
  · rw [hpc, UserPc.unasked, hw]; exact hmem

/-- So it is with a queue that the pipe would not take whole. -/
theorem full_holds (hn : s.pool.workers.values.Nodup) {w : Ref}
    (hmem : w ∈ s.pool.workers.values) (hfull : ¬ Emptying s w) :
    ¬ Finishes Alone (closes i) (Closed i s) (beginClose s i c) := by
  have hpc : (beginClose s i c).user i = .closeSignalling := setUser_self
  refine doomed_raises (.jammed ⟨hn, by rw [hpc]; exact List.nodup_nil, w, Or.inl ⟨?_, ?_⟩⟩)
  · rw [hpc]
    exact hmem
  · have hun : w ∈ UserPc.unprobed (beginClose s i c).pool .closeSignalling := hmem
    rw [hpc, UserPc.coming, if_pos hun]
    exact hfull

/-- A `close` that others can break from its beginning does not finish. -/
theorem breaks_raises {R : State ι → Event ι → State ι → Prop}
    (h : Reachable (beginClose s i c)) (hb : Breaks R (beginClose s i c))
    (hR : ∀ s e t, R s e t → (∀ j, ¬ callsClose j e) ∧ Event.actor e ≠ .user i ∧ Step s e t) :
    ¬ Finishes Alone (closes i) (Closed i s) (beginClose s i c) := by
  intro hfin
  obtain ⟨u, w, run, hmem, hp⟩ := hb
  have hkept : u.user i = .closeSignalling ∧ Reachable u ∧ u.pool.closing = true ∧
      u.pool.workers = s.pool.workers := by
    refine run.preserves (P := fun u => u.user i = .closeSignalling ∧ Reachable u ∧
      u.pool.closing = true ∧ u.pool.workers = s.pool.workers) ?_ ⟨setUser_self, h, rfl, rfl⟩
    rintro v e t ⟨hv, hr, hc, hw⟩ hst
    obtain ⟨-, ha, he, rfl⟩ := hR _ _ _ hst
    obtain ⟨hc', htab⟩ := closing_frame (e := e) (reachable_invariant hr).consistent hc
    exact ⟨(user_frame ha).trans hv, hr.next (S := system ι) ⟨he, rfl⟩, hc', htab.workers.trans hw⟩
  obtain ⟨hpc, -, -, hw⟩ := hkept
  refine unusable_raises (reachable_invariant h).consistent.books.values_nodup hpc hw hmem hp
    (by rintro (h | h) <;> cases h) (hfin.later beginClose_running (run.mono fun s e t hst => ?_))
  obtain ⟨hcall, ha, hstep⟩ := hR _ _ _ hst
  refine ⟨fun hown => ha ?_, hcall, hstep⟩
  cases e <;> simp only [closes] at hown <;> subst hown <;> rfl

omit [DecidableEq ι] in
theorem callsClose_actor (hc : callsClose i e) : Event.actor e = .user i := by
  cases e <;> simp only [callsClose] at hc <;> rw [Event.actor, hc]

theorem close_begins (hc : callsClose i e) : next s e = closeCallNext s i (callerOf e) := by
  cases e <;> simp only [callsClose] at hc <;> subst hc <;> rfl

/-- While no other call of `close` begins, `close` runs to its end exactly when it is not called
on the result thread, the log manager can be stopped on its thread, it can use every handle it
meets, and finds no task queue that its pipe would not take whole; the futures it leaves to
others are settled by them. -/
theorem close_closes (h : Reachable s) (he : Enabled s e) (hc : callsClose i e) :
    (Finishes Alone (closes i) (Closed i s) (next s e) ↔ Closable i s e) ∧
      ∀ (t : State ι) x f, Resolver.direct x = true → f ∈ held t x →
        Finishes Step (fun e => Event.actor e = Resolver.actor x)
          (fun t => t.history.resolutions f ≠ []) t := by
  refine ⟨?_, fun t x f hx hf => held_settles hx hf⟩
  have inv := reachable_invariant h
  have hreach : Reachable (next s e) := h.next (S := system ι) ⟨he, rfl⟩
  rw [close_begins hc] at hreach ⊢
  by_cases hdone : s.pool.closeComplete = true
  · refine ⟨fun _ => Or.inl hdone, fun _ => .done ?_⟩
    simp only [closeCallNext, hdone, ↓reduceIte]
    refine ⟨setUser_self, hdone, fun f hf => ?_⟩
    obtain ⟨t, ht⟩ := Dict.mem_values.mp hf
    rw [(reachable_settling h).completed hdone t] at ht
    cases ht
  have hnext : ∀ b, closeCallNext s i b = beginClose s i b := fun b => by
    simp only [closeCallNext, hdone, Bool.false_eq_true, ↓reduceIte, beginClose]
  rw [hnext] at hreach ⊢
  have inv' := reachable_invariant hreach
  have hother : ∀ b j, j ≠ i → (beginClose s i b).user j = s.user j :=
    fun _ j hj => setUser_other hj
  constructor
  · intro hfin
    have hpc : (beginClose s i (callerOf e)).user i = .closeSignalling := setUser_self
    have hcaller : (beginClose s i (callerOf e)).caller i = callerOf e := by simp [beginClose]
    have apart : callerOf e ≠ .result := by
      intro hres
      refine doomed_raises (.circular (hcaller.trans hres) ?_) hfin
      rw [hpc]
      rfl
    have stops : (s.logs.stop (callerOf e)).1 = .returns := by
      by_contra hraises
      refine doomed_raises (.logged ?_ ?_) hfin
      · rw [hcaller]
        exact hraises
      · rw [hpc]
        rfl
    have husable : ∀ w ∈ s.pool.workers.values, UsableHandle (s.pool.heap w) := by
      intro w hw
      cases hp : (s.pool.heap w).process with
      | none => exact absurd hp (table_handled h (inTable_values.mpr hw))
      | some x =>
        refine ⟨x, hp, ?_⟩
        by_contra hbad
        exact unusable_raises (t := beginClose s i _) inv.consistent.books.values_nodup setUser_self
          rfl hw hp hbad hfin
    refine Or.inr ⟨apart, stops, fun r hr =>
      ⟨husable r hr, fun hmem => ?_, fun j hj hmem => ?_, ?_⟩⟩
    · refine breaks_raises hreach (supervisor_breaks inv' rfl husable hr hmem) ?_ hfin
      rintro s e t ⟨ha | ⟨w, rfl⟩, hst⟩
      · refine ⟨fun j hj => ?_, by rw [ha]; simp, hst⟩
        rw [callsClose_actor hj] at ha
        cases ha
      · exact ⟨fun j hj => hj, by simp [Event.actor], hst⟩
    · have hmem' : r ∈ UserPc.willStop (beginClose s i (callerOf e)).pool
          ((beginClose s i (callerOf e)).user j) := by
        rw [hother _ j hj]; exact hmem
      refine breaks_raises hreach (user_breaks inv' husable hmem') ?_ hfin
      rintro s e t ⟨hown | ⟨w, rfl⟩, hst⟩
      · refine ⟨closes_alone hown, ?_, hst⟩
        have ha : Event.actor e = .user j := by
          cases e <;> simp only [closes] at hown <;> subst hown <;> rfl
        rw [ha]
        simpa using hj
      · exact ⟨fun j hj => hj, by simp [Event.actor], hst⟩
    · by_contra hfull
      exact full_holds inv.consistent.books.values_nodup hr hfull hfin
  · intro hclose
    obtain ⟨apart, stops, hsafe⟩ := hclose.resolve_left hdone
    have hcaller : (beginClose s i (callerOf e)).caller i = callerOf e := by simp [beginClose]
    refine closing_finishes ⟨hreach, ?_, fun r hr => ?_, ⟨fun r hr => ?_, fun j hj r hr => ?_⟩, ?_,
      ⟨fun r hr => ?_, fun r hr => ?_⟩, by rwa [hcaller], by rwa [hcaller], fun f hf => ?_⟩
    · rw [beginClose, setUser_self]; rfl
    · rw [beginClose, setUser_self] at hr
      exact (hsafe r hr).1
    · exact (hsafe r (inTable_values.mp hr)).2.1
    · rw [hother _ j hj]
      exact (hsafe r (inTable_values.mp hr)).2.2.1 j hj
    · rw [beginClose, setUser_self]; exact List.nodup_nil
    · rw [UserPc.coming, if_pos (by rw [beginClose, setUser_self]; exact hr)]
      exact (hsafe r hr).2.2.2
    · rw [beginClose, setUser_self] at hr
      cases hr
    · obtain ⟨t, ht⟩ := Dict.mem_values.mp hf
      obtain ⟨hacc, hnone, -⟩ := (reachable_delivery h).table t f ht
      refine ⟨⟨t, hacc⟩, fun j hj => ?_⟩
      rw [show (beginClose s i _).history.takenBy f = [] from hnone] at hj
      cases hj

end

/-! ## A pool with a worker that failed to restart -/

def closeRaises : List (Event Unit) := [.closeCall (), .closeSignal (), .closeProbe () 0 [1]]

/-- The call ends in the closed handle of worker 0; the pool stays closing, and the future of
the task that worker 1 had stays pending. -/
theorem close_raises : ∃ s t : State Unit, Reachable s ∧ s.user () = .idle ∧
    s.pool.futures.get? "t" = some 0 ∧
    Transitions.Execution Step (next s (.closeCall ())) t ∧
    t.user () = .raised (.valueError "process object is closed") ∧
    t.pool.closeComplete = false ∧ t.history.resolutions 0 = [] := by
  refine ⟨restartFailed.foldl next (started (constructed ["echo"] twoWorkers)),
    (restartFailed ++ closeRaises).foldl next (started (constructed ["echo"] twoWorkers)),
    reachable_replay (by decide +kernel) (by decide +kernel), by decide +kernel, by decide +kernel,
    ?_, by decide +kernel, by decide +kernel, by decide +kernel⟩
  rw [List.foldl_append]
  exact Transitions.Valid.execution (l := closeRaises.tail) (by decide +kernel)

/-- A healthy pool is closed. -/
theorem healthy_closes : Finishes Alone (closes ())
    (Closed () (started (constructed ["echo"] twoWorkers)))
    (next (started (constructed ["echo"] twoWorkers)) (.closeCall ())) := by
  have hr : Reachable (started (constructed ["echo"] twoWorkers) : State Unit) :=
    Transitions.System.reachable_init (init_constructed (by decide +kernel))
  refine (close_closes hr (e := .closeCall ()) rfl rfl).1.mpr
    (Or.inr ⟨by decide, rfl, fun r hr =>
      ⟨?_, List.not_mem_nil, fun j hj => List.not_mem_nil, fun _ => rfl⟩⟩)
  revert r
  decide +kernel

end PoolClose
