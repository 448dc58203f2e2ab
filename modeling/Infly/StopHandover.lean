import Infly.Staffing
import Infly.TaskLife
import Infly.SingleUse

/-! # Handing the leftover tasks over

`stop` may give up on threads that are still running. The last of them to leave then fails
the tasks that nobody started.
-/
namespace StopHandover

open Contracts TaskBackend SchedulerState SchedulerModel SchedulerLocks SchedulerControl
  SchedulerLedger SchedulerDuties SchedulerStages SchedulerOwnership SchedulerAccounts
  SchedulerSweep SchedulerRequests TaskLife SingleUse
  ThreadList Staffing Transitions

variable {ι : Type}

def atLaunch : Pc → Bool
  | .launching _ _ _ => true
  | _ => false

/-- `Thread.start` does not raise. -/
def Starts (s : State ι) : Event ι → Prop
  | .step a (.raises _) => atLaunch (s.pc a) = false
  | _ => True

/-- A thread of the list that was not started is being started. -/
def Launching (s : State ι) : Prop :=
  ∀ k ∈ s.shared.threads, s.shared.worker k = .unstarted →
    ∃ i, zone (s.pc (.client i)) = .launching k

/-- What a client finds in `_fail_pending_tasks`. -/
def Bare (s : State ι) : Prop :=
  ∀ i, zone (s.pc (.client i)) = .sweeping →
    s.pc (.client i) = .listingIds ∨ ∃ ids, s.pc (.client i) = .listingRecords ids

section

variable [DecidableEq ι] {s s' : State ι} {stage : TaskId → Stage ι} {sh : Shared ι}
  {a b : Thread ι} {p : Pc} {c : Choice} {x : Shared ι × Pc} {e : Event ι} {k : ℕ} {t : TaskId}

theorem reachable_thorough (h : ((system ι).restrict Single).Reachable s) : Thorough s := by
  refine System.invariant_reachable ?_ (fun u e v hr hs hst => ?_) h
  · rintro s ⟨config, b, _, rfl⟩
    exact thorough_begin config b
  · obtain ⟨stage, staged⟩ := (reachable_accounts hr).staged
    exact thorough_next (single_exclusive hr) (single_control hr) staged
      (reachable_within (System.restrict_reachable hr)) hs hst.2

theorem reachable_sound (h : ((system ι).restrict Single).Reachable s) :
    ∃ stage, Sound s stage := by
  obtain ⟨stage, staged⟩ := (reachable_accounts h).staged
  exact ⟨stage, single_exclusive h, single_control h, staged,
    reachable_within (System.restrict_reachable h), reachable_thorough h⟩

omit [DecidableEq ι] in
theorem launching_pc (h : zone p = .launching k) : ∃ job index, p = .launching job index k := by
  cases p
  case launching job index j =>
    cases h
    exact ⟨job, index, rfl⟩
  case reporting r | tracing r _ | releasing _ r | givingBack _ r | resolving _ r |
      scheduling _ _ r | notifying r => cases r <;> cases h
  all_goals cases h

theorem launching_turn (hex : Exclusive s) (h : Launching s)
    (hx : act s.shared a (s.pc a) c = some x) (starts : Starts s (.step a c)) :
    Launching (s.goto a x) := by
  intro k hk hu
  rw [goto_shared] at hk hu
  have hplaced := hex.placed a
  -- whoever launches another thread is not the one that takes the step
  have stays (other : zone (s.pc a) ≠ .launching k) (hk : k ∈ s.shared.threads)
      (hu : s.shared.worker k = .unstarted) :
      ∃ i, zone ((s.goto a x).pc (.client i)) = .launching k := by
    obtain ⟨i, hi⟩ := h k hk hu
    refine ⟨i, ?_⟩
    rw [goto_pc_of_ne s fun he => ?_]
    · exact hi
    · cases he
      exact other hi
  have hch := turn_change hx
  generalize hp : s.pc a = p at hch hx stays hplaced
  cases hch with
  | still hm ht hw =>
    refine stays (fun hz => ?_) (ht ▸ hk) (hw ▸ hu)
    obtain ⟨job, index, rfl⟩ := launching_pc hz
    cases hm
  | spawn ht hw _ hpc =>
    rw [ht] at hk
    rcases List.mem_append.mp hk with hk | hk
    · exact stays (by simp [zone]) hk (hw ▸ hu)
    · obtain ⟨i, rfl⟩ := isClient_iff.mp hplaced
      refine ⟨i, ?_⟩
      rw [goto_pc, hpc, List.mem_singleton.mp hk]
      rfl
  | @launch _ job index j _ ht hw =>
    have hne : k ≠ j := fun he => by
      rw [hw, he, Function.update_self] at hu
      cases hu
    rw [hw, Function.update_of_ne hne] at hu
    refine stays (fun hz => ?_) (ht ▸ hk) hu
    cases hz
    exact hne rfl
  | @unlaunched _ job index j e _ hsh hpc =>
    cases c with
    | go =>
      cases hx
      dsimp only at hpc
      split at hpc <;> cases hpc
    | raises e' =>
      have hcalm : atLaunch (s.pc a) = false := starts
      rw [hp] at hcalm
      cases hcalm
    | timeout => cases hx
  | close ht hw => exact stays (by simp [zone]) (ht ▸ hk) (hw ▸ hu)
  | filter ht hw =>
    rw [ht] at hk
    exact stays (by simp [zone]) (List.mem_filter.mp hk).1 (hw ▸ hu)
  | last ht hw => exact stays (by simp [zone]) (ht ▸ hk) (hw ▸ hu)
  | erase hlast ht hw =>
    rw [ht] at hk
    refine stays ?_ (List.mem_of_mem_erase hk) (hw ▸ hu)
    rcases hlast with rfl | ⟨rfl, _⟩ <;> simp [zone]
  | @finish j _ ht hw =>
    have hne : k ≠ j := fun he => by
      rw [hw, he, Function.update_self] at hu
      cases hu
    rw [hw, Function.update_of_ne hne] at hu
    exact stays (by simp [zone]) (ht ▸ hk) hu

theorem launching_next (hex : Exclusive s) (h : Launching s) (hs : Step s e s')
    (starts : Starts s e) : Launching s' := by
  rcases step_cases hs with ⟨i, c, rfl, hrest, rfl⟩ | ⟨a, c, x, rfl, _, hx, rfl⟩ |
    ⟨f, o, rfl, _, _, rfl⟩ | ⟨w, rfl, _, rfl⟩ | ⟨d, rfl, rfl⟩
  · intro k hk hu
    obtain ⟨j, hj⟩ := h k (by cases c <;> exact hk) (by cases c <;> exact hu)
    refine ⟨j, ?_⟩
    rw [goto_pc_of_ne s fun he => ?_]
    · exact hj
    · cases he
      rw [resting_zone hrest] at hj
      cases hj
  · exact launching_turn hex h hx starts
  · exact h
  · exact h
  · exact h

omit [DecidableEq ι] in
/-- A call of `start` that finds threads finds them started. -/
theorem Launching.startable (hex : Exclusive s) (h : Launching s) (e : Event ι) :
    Startable s e := by
  cases e with
  | step a c =>
    cases c with
    | go =>
      intro job hp hne
      obtain ⟨k, hk⟩ := List.exists_mem_of_ne_nil _ hne
      refine ⟨k, hk, fun hu => ?_⟩
      obtain ⟨i, hi⟩ := h k hk hu
      obtain ⟨job', index, hpc⟩ := launching_pc hi
      have hai : a = .client i := by
        refine hex.unique (l := .lifecycle) ?_ ?_
        · rw [hp]
          exact List.mem_singleton.mpr rfl
        · rw [hpc]
          exact List.mem_singleton.mpr rfl
      subst hai
      cases hp.symm.trans hpc
    | _ => trivial
  | _ => trivial

/-! ## What a stop call finds -/

omit [DecidableEq ι] in
/-- When a client sweeps, nothing is left to fail. -/
theorem client_sweep_clear {i : ι} (hex : Exclusive s) (hc : Control s) (hcrew : Crew s)
    (hz : zone (s.pc (.client i)) = .sweeping) (t : TaskId) : ¬Pending s.shared.ledger t := by
  intro ht
  have hf := hc.facts (.client i)
  rw [hz] at hf
  rcases hcrew.staffed (.inl ⟨t, ht⟩) with ⟨k, hk, _⟩ | ⟨k, hk⟩
  · rw [hf.2] at hk
    exact List.not_mem_nil hk
  · cases sweeper_unique hex hc hz hk

omit [DecidableEq ι] in
/-- Every record that `_fail_pending_tasks` has collected, or will, is an accepted task's. -/
theorem collected_pending {ids : Finset TaskId} (hst : Staged s stage)
    (hp : s.pc a = .listingRecords ids)
    (ht : t ∈ pendingRecords s.shared.ledger.backend ids) : Pending s.shared.ledger t := by
  obtain ⟨hi, r, hr, hs⟩ := mem_pendingRecords hst.wellformed ht
  refine ⟨?_, r, hr, hs⟩
  refine (stored_known hst ?_).resolve_right (hst.listed a t (by rw [hp]; exact hi))
  rw [show s.shared.ledger.record t = some r from hr]
  simp

theorem bare_next (h : Sound s stage) (hcrew : Crew s) (hb : Bare s) (hs : Step s e s') :
    Bare s' := by
  rcases step_cases hs with ⟨i, c, rfl, _, rfl⟩ | ⟨a, c, x, rfl, _, hx, rfl⟩ |
    ⟨f, o, rfl, _, _, rfl⟩ | ⟨w, rfl, _, rfl⟩ | ⟨d, rfl, rfl⟩
  · intro j hz
    by_cases hj : j = i
    · subst hj
      rw [goto_pc] at hz
      cases c with
      | stop timeout =>
        simp only [Call.enter] at hz
        split at hz <;> cases hz
      | _ => cases hz
    · rw [goto_pc_of_ne s (by simpa using hj)] at hz ⊢
      exact hb j hz
  · intro j hz
    by_cases hj : .client j = a
    · subst hj
      rw [goto_pc] at hz ⊢
      rcases turn_sweeps hx (by simp [sweeps, hz]) with hold | hnew
      · have clear := client_sweep_clear h.exclusive h.control hcrew hold
        rcases hb j hold with hp | ⟨ids, hp⟩
        · rw [hp] at hx
          cases c <;> cases hx
          exact .inr ⟨_, rfl⟩
        · have hnil : pendingRecords s.shared.ledger.backend ids = [] := by
            refine List.eq_nil_iff_forall_not_mem.mpr fun t ht => ?_
            exact clear t (collected_pending h.staged hp ht)
          rw [hp] at hx
          cases c with
          | go =>
            cases hx
            dsimp only at hz
            rw [hnil] at hz
            cases hz
          | raises e =>
            obtain ⟨e', rfl⟩ := listing_raises hx
            cases hz
          | timeout => cases hx
      · exact .inl hnew
    · rw [goto_pc_of_ne s hj] at hz ⊢
      exact hb j hz
  · exact hb
  · exact hb
  · exact hb

/-! ## When everything has run -/

omit [DecidableEq ι] in
theorem client_mayEnd (i : ι) (m : Ender) : mayEnd (.client i) m ≠ true := by
  cases m <;> exact Bool.false_ne_true

omit [DecidableEq ι] in
theorem client_duty {i : ι} {L : Ledger} {d : TaskId × Level}
    (hp : runsOn (.client i) p = true) (hd : duty L (.client i) p = some d) :
    zone p = .opening ∨ zone p = .sweeping := by
  have ends := client_mayEnd i
  cases p
  case reporting r | tracing r _ | releasing _ r | givingBack _ r | resolving _ r |
      scheduling _ _ r | notifying r =>
    cases r <;> first
      | exact .inl rfl
      | exact .inr rfl
      | exact absurd hp (ends _)
      | exact absurd hp Bool.false_ne_true
      | cases hd
  all_goals first
    | exact .inl rfl
    | exact .inr rfl
    | exact absurd hp (ends _)
    | exact absurd hp Bool.false_ne_true
    | cases hd

omit [DecidableEq ι] in
theorem unstarted_pc (h : zone p = .unstarted) : p = .unstarted := by
  cases p
  case reporting r | tracing r _ | releasing _ r | givingBack _ r | resolving _ r |
      scheduling _ _ r | notifying r => cases r <;> cases h
  all_goals first
    | rfl
    | cases h

/-- No thread has anything left to do for a task. -/
structure AtRest (s : State ι) : Prop where
  closed : s.shared.closed = true
  workers : ∀ k, s.shared.worker k ≠ .running
  callbacks : ∀ f, (s.shared.ledger.futures f).registered = true → s.pc (.callback f) = .exited

omit [DecidableEq ι] in
theorem AtRest.idle (h : AtRest s) (hst : Staged s stage) (hex : Exclusive s) (hc : Control s)
    (hb : Bare s) (a : Thread ι) : duty s.shared.ledger a (s.pc a) = none := by
  have hf := hc.facts a
  have hp := hex.placed a
  cases a with
  | client i =>
    by_contra hd
    obtain ⟨d, hd⟩ := Option.ne_none_iff_exists'.mp hd
    rcases client_duty hp hd with hz | hz
    · rw [hz] at hf
      exact absurd h.closed (Bool.eq_false_iff.mp hf)
    · rcases hb i hz with hpc | ⟨ids, hpc⟩ <;> rw [hpc] at hd <;> cases hd
  | worker k =>
    obtain ⟨ho, hl, hst⟩ := worker_zone hp
    have hr := h.workers k
    cases hz : zone (s.pc (.worker k)) <;> rw [hz] at hf
    case opening => exact absurd hz ho
    case launching j => exact absurd hz (hl j)
    case stopping => exact absurd hz hst
    case unstarted =>
      rw [unstarted_pc hz]
      rfl
    case exited =>
      rw [(lone_zone _).2.2.2 hz]
      rfl
    case leaving => exact absurd hf hr
    case plain | exiting | sweeping | removing => exact absurd hf.1 hr
  | callback f =>
    by_cases hreg : (s.shared.ledger.futures f).registered = true
    · rw [h.callbacks f hreg]
      rfl
    · by_cases hpc : s.pc (.callback f) = .uncalled
      · rw [hpc]
        simp [duty, hreg]
      · exact absurd (hst.called f hpc) hreg

omit [DecidableEq ι] in
/-- Then nothing is left pending, running or outstanding. -/
theorem AtRest.settled (h : AtRest s) (hs : Sound s stage) (hcrew : Crew s) (hb : Bare s) :
    (∀ t ∈ s.shared.ledger.accepted, ∀ r, s.shared.ledger.record t = some r →
      terminal r.status = true) ∧ s.shared.ledger.outstanding = ∅ := by
  have clear : ∀ t, ¬Pending s.shared.ledger t := fun t ht => by
    rcases hcrew.staffed (.inl ⟨t, ht⟩) with ⟨k, _, hr, _⟩ | ⟨k, hz⟩
    · exact h.workers k hr
    · have hf := hs.control.facts (.worker k)
      rw [hz] at hf
      exact h.workers k hf.1
  have unheld : ∀ t a l, stage t ≠ .held a l := fun t a l ht => by
    have := (hs.staged.owner a t l).mpr ht
    rw [h.idle hs.staged hs.exclusive hs.control hb a] at this
    cases this
  have each (t : TaskId) : (t ∈ s.shared.ledger.accepted → ∀ r, s.shared.ledger.record t = some r →
      terminal r.status = true) ∧ t ∉ s.shared.ledger.outstanding := by
    have hfact := hs.staged.fact t
    cases hst : stage t with
    | held a l => exact absurd hst (unheld t a l)
    | absent =>
      rw [hst] at hfact
      exact ⟨fun ha => absurd ha hfact.1.accepted, hfact.2⟩
    | spent =>
      rw [hst] at hfact
      refine ⟨fun ha => ?_, hfact.1⟩
      rcases hfact.2 with he | hf
      · exact he.status
      · exact absurd hf.1 (hf.2.2.accepted.mp ha)
    | queued =>
      rw [hst] at hfact
      rcases hfact.2 with hw | hw
      · have away : t ∉ s.shared.ledger.accepted := fun ha => clear t ⟨ha, hw.status⟩
        have foreign := not_not.mp fun hf => away (hw.mine.accepted.mpr hf)
        exact ⟨fun ha => absurd ha away, fun ho => hw.owed.mp ho foreign⟩
      · exact ⟨fun ha => absurd hw.foreign (hw.mine.accepted.mp ha), hw.outstanding⟩
  exact ⟨fun t => (each t).1, Finset.eq_empty_of_forall_notMem fun t => (each t).2⟩

/-! ## Runs -/

/-- No id is submitted twice, nor one that the backend knew, `Thread.start` never raises, and
the stored records can be copied whenever `_fail_pending_tasks` lists them. -/
def Orderly (s : State ι) (e : Event ι) : Prop := Fresh s e ∧ Starts s e ∧ Listable s e

theorem orderly_fresh (h : ((system ι).restrict Orderly).Reachable s) :
    ((system ι).restrict Fresh).Reachable s :=
  System.restrict_imp (P := fun _ => True) (fun _ _ => trivial) (fun _ _ _ h => h.1) h

theorem orderly_sound (h : ((system ι).restrict Orderly).Reachable s) :
    ∃ stage, Sound s stage := reachable_sound (fresh_single (orderly_fresh h))

theorem reachable_launching (h : ((system ι).restrict Orderly).Reachable s) : Launching s := by
  refine System.invariant_reachable ?_ (fun u e v hr hs hst => ?_) h
  · rintro s ⟨config, b, _, rfl⟩ k hk
    exact absurd hk List.not_mem_nil
  · obtain ⟨stage, sound⟩ := orderly_sound hr
    exact launching_next sound.exclusive hs hst.2 hst.1.2.1

theorem reachable_crew (h : ((system ι).restrict Orderly).Reachable s) : Crew s := by
  refine System.invariant_reachable ?_ (fun u e v hr hs hst => ?_) h
  · rintro s ⟨config, b, _, rfl⟩
    exact crew_begin config b
  · obtain ⟨stage, sound⟩ := orderly_sound hr
    exact crew_next sound hs hst.2 ((reachable_launching hr).startable sound.exclusive e)
      hst.1.2.2

theorem reachable_bare (h : ((system ι).restrict Orderly).Reachable s) : Bare s := by
  refine System.invariant_reachable ?_ (fun u e v hr hs hst => ?_) h
  · rintro s ⟨config, b, _, rfl⟩ i hz
    cases hz
  · obtain ⟨stage, sound⟩ := orderly_sound hr
    exact bare_next sound (reachable_crew hr) hs hst.2

/-- A closed scheduler accepts nothing more, and no submit call returns an id. -/
theorem accepts_next (hex : Exclusive s) (hc : Control s) (closed : s.shared.closed = true)
    (hs : Step s e s') : s'.shared.ledger.accepts = s.shared.ledger.accepts ∧
      s'.shared.ledger.returns = s.shared.ledger.returns := by
  rcases step_cases hs with ⟨i, c, rfl, _, rfl⟩ | ⟨a, c, x, rfl, _, hx, rfl⟩ |
    ⟨f, o, rfl, _, _, rfl⟩ | ⟨w, rfl, _, rfl⟩ | ⟨d, rfl, rfl⟩
  · cases c <;> exact ⟨rfl, rfl⟩
  · have hf := hc.facts a
    have hr := hex.placed a
    rcases turn_posted hx with ⟨_, ha, hret⟩ | ⟨job, hp, _⟩ | ⟨job, hp, _⟩
    · exact ⟨ha, hret⟩
    · exact absurd closed (Bool.eq_false_iff.mp (storing_open hex hc hp))
    · rw [hp] at hf hr
      obtain ⟨i, rfl⟩ := isClient_iff.mp hr
      exact absurd closed (Bool.eq_false_iff.mp hf)
  · exact ⟨rfl, rfl⟩
  · exact ⟨rfl, rfl⟩
  · exact ⟨rfl, rfl⟩

theorem closed_next (closed : s.shared.closed = true) (hs : Step s e s') :
    s'.shared.closed = true := by
  rcases step_cases hs with ⟨i, c, rfl, _, rfl⟩ | ⟨a, c, x, rfl, _, hx, rfl⟩ |
    ⟨f, o, rfl, _, _, rfl⟩ | ⟨w, rfl, _, rfl⟩ | ⟨d, rfl, rfl⟩
  · cases c <;> exact closed
  · exact turn_closed hx closed
  · exact closed
  · exact closed
  · exact closed

theorem accepts_run (h : (system ι).Reachable s) (closed : s.shared.closed = true)
    (run : Execution Step s s') : s'.shared.ledger.accepts = s.shared.ledger.accepts ∧
      s'.shared.ledger.returns = s.shared.ledger.returns := by
  have all : (system ι).Reachable s' ∧ s'.shared.closed = true ∧
      s'.shared.ledger.accepts = s.shared.ledger.accepts ∧
      s'.shared.ledger.returns = s.shared.ledger.returns := by
    refine run.preserves (P := fun u => (system ι).Reachable u ∧ u.shared.closed = true ∧
      u.shared.ledger.accepts = s.shared.ledger.accepts ∧
      u.shared.ledger.returns = s.shared.ledger.returns) ?_ ⟨h, closed, rfl, rfl⟩
    rintro u e v ⟨hr, hcl, ha, hret⟩ hst
    obtain ⟨ha', hret'⟩ := accepts_next (reachable_exclusive hr) (reachable_control hr) hcl hst
    exact ⟨hr.next hst, closed_next hcl hst, ha'.trans ha, hret'.trans hret⟩
  exact all.2.2

/-- `_fail_pending_tasks` writes no record that was not accepted; one that is over may leave
when there are too many. -/
theorem sweep_fades (h : Sound s stage) (hz : zone (s.pc a) = .sweeping)
    (hx : act s.shared a (s.pc a) c = some x) (ht : t ∉ s.shared.ledger.accepted) :
    s.shared.ledger.backend.Fades x.1.ledger.backend t := by
  refine turn_fades h.staged.wellformed hx fun hw => ?_
  have hleft := h.staged.leftover a t
  have hfact := h.staged.fact t
  cases hp : s.pc a <;> rw [hp] at hw hz hleft
  case sweeping u done rest =>
    cases hw
    obtain ⟨hstage, hown⟩ := hleft (List.mem_cons_self ..)
    rw [hstage] at hfact
    rcases hfact.2 with hwait | hstale
    · exact ht (hwait.mine.accepted.mpr hown)
    · exact hown hstale.foreign
  all_goals first
    | (cases hw; done)
    | cases hz

/-- Once the scheduler is closed, no worker thread runs any more and the callbacks of all
futures have run, every accepted task is over, none is outstanding, and no later run accepts
another one. And `_fail_pending_tasks` leaves the records of others as they are, unless one of
them is over and has to make room. -/
theorem stop_hands_over (h : ((system ι).restrict Orderly).Reachable s) :
    (AtRest s →
      (∀ t ∈ s.shared.ledger.accepted, ∀ r, s.shared.ledger.record t = some r →
        terminal r.status = true) ∧
      s.shared.ledger.outstanding = ∅ ∧
      ∀ s', Execution Step s s' → s'.shared.ledger.accepts = s.shared.ledger.accepts ∧
        s'.shared.ledger.returns = s.shared.ledger.returns) ∧
    ∀ a c s', zone (s.pc a) = .sweeping → Step s (.step a c) s' →
      ∀ t, t ∉ s.shared.ledger.accepted →
        s.shared.ledger.backend.Fades s'.shared.ledger.backend t := by
  obtain ⟨stage, sound⟩ := orderly_sound h
  constructor
  · intro rest
    obtain ⟨settled, none⟩ := rest.settled sound (reachable_crew h) (reachable_bare h)
    exact ⟨settled, none, fun s' run =>
      accepts_run (System.restrict_reachable h) rest.closed run⟩
  · intro a c s' hz hs t ht
    rcases step_cases hs with ⟨i, c, he, _, _⟩ | ⟨b, c', x, he, _, hx, rfl⟩ |
      ⟨f, o, he, _, _, _⟩ | ⟨w, he, _, _⟩ | ⟨d, he, _⟩
    · cases he
    · cases he
      exact sweep_fades sound hz hx ht
    all_goals cases he

instance (s : State ι) (e : Event ι) : Decidable (Starts s e) :=
  match e with
  | .step a (.raises _) => inferInstanceAs (Decidable (atLaunch (s.pc a) = false))
  | .step _ .go | .step _ .timeout | .call _ _ | .resolve _ _ | .fire _ | .tick _ => .isTrue trivial

instance (s : State ι) (e : Event ι) : Decidable (Orderly s e) :=
  inferInstanceAs (Decidable (Fresh s e ∧ Starts s e ∧ Listable s e))

/-- A task that no worker has looked at when `stop` gives up on the only one, which then lists
the records. -/
def leftBehind : List (Event Unit) :=
  firstSubmit () (sampleJob "t") ++ [.call () (.stop 0)] ++ turns (.client ()) 4 ++
    [.step (.client ()) .timeout] ++ turns (.client ()) 1 ++ turns (.worker 0) 4

def toItsEnd : List (Event Unit) := leftBehind ++ turns (.worker 0) 8

/-- The only worker has ended, and no future was made. -/
structure OneEnded (s : State Unit) : Prop where
  closed : s.shared.closed = true
  ended : s.shared.worker 0 = .ended
  threads : s.shared.nextThread = 1
  futures : s.shared.ledger.nextFuture = 0

theorem OneEnded.rest {s : State Unit} (h : OneEnded s)
    (hr : ((system Unit).restrict Fresh).Reachable s) : AtRest s := by
  have hc := reachable_control (System.restrict_reachable hr)
  obtain ⟨stage, sound⟩ := reachable_sound (fresh_single hr)
  refine ⟨h.closed, fun k hk => ?_, fun f hf => ?_⟩
  · by_cases hk0 : k = 0
    · subst hk0
      cases hk.symm.trans h.ended
    · have hnew := h.threads
      cases hk.symm.trans (hc.unused k (by omega))
  · cases hf.symm.trans (sound.staged.unused f (h.futures ▸ Nat.zero_le f))

theorem left_behind_failed : ∃ s, after Orderly { numThreads := 1 } toItsEnd = some s ∧
    s.pc (.client ()) = .returned .stopped ∧ "t" ∈ s.shared.ledger.accepted ∧
    (∀ r, s.shared.ledger.record "t" = some r → terminal r.status = true) ∧
    s.shared.ledger.outstanding = ∅ := by
  obtain ⟨s, hs, hr, closed, ended, hnext, hfutures, hpc, ha⟩ := after_spec (A := Orderly)
    (c := { numThreads := 1 }) (l := toItsEnd) (P := fun s => s.shared.closed = true ∧
      s.shared.worker 0 = .ended ∧ s.shared.nextThread = 1 ∧ s.shared.ledger.nextFuture = 0 ∧
      s.pc (.client ()) = .returned .stopped ∧ "t" ∈ s.shared.ledger.accepted) (by decide +kernel)
  have rest := OneEnded.rest ⟨closed, ended, hnext, hfutures⟩ (orderly_fresh hr)
  obtain ⟨settled, none, _⟩ := (stop_hands_over hr).1 rest
  exact ⟨s, hs, hpc, ha, settled "t" ha, none⟩

/-- The record of another user's task, over since before the scheduler was made. -/
def otherTask : TaskRecord where
  taskId := "f"
  request := { handlerName := "h", taskId := "f" }

/-- A backend that keeps one record that is over, and has one. -/
def usedBackend : Backend :=
  ((Backend.submit { maxRetainedTerminalTasks := 1 } otherTask 0).2.pull.2.updateStatus 0 "f"
    { status := .completed }).2

theorem used_usable : Usable usedBackend := by
  have hw : (Backend.submit { maxRetainedTerminalTasks := 1 } otherTask 0).2.pull.2.Wellformed :=
    ((Backend.empty_wellformed 1).submit rfl 0).pull
  obtain ⟨b, hb, hwell, _⟩ := Backend.updateStatus_ok (r := otherTask) hw (t := "f")
    (by decide +kernel) 0 { status := .completed }
  refine ⟨?_, by decide +kernel⟩
  rw [usedBackend, hb]
  exact hwell

/-- The input of the task cannot be copied, so that listing the records raises. -/
def unlisted : List (Event Unit) :=
  leftBehind ++ [.step (.worker 0) (.raises (.other "cannot pickle"))] ++ turns (.worker 0) 1

/-- `_fail_pending_tasks` drives the record of another user's task out; and where it cannot
list the records, the task stays pending and outstanding. -/
theorem sweep_evicts_foreign :
    (∃ s s', ((system Unit).restrict Orderly).Reachable s ∧
      zone (s.pc (.worker 0)) = .sweeping ∧ Step s (.step (.worker 0) .go) s' ∧
      "f" ∉ s.shared.ledger.accepted ∧ s.shared.ledger.record "f" ≠ none ∧
      s'.shared.ledger.record "f" = none) ∧
    ∃ s, after (fun s e => Fresh s e ∧ Starts s e) { numThreads := 1 } unlisted = some s ∧
      AtRest s ∧ "t" ∈ s.shared.ledger.outstanding ∧
      (s.shared.ledger.record "t").map TaskRecord.status = some .pending := by
  refine ⟨?_, ?_⟩
  · have trace : ((replay next Orderly (leftBehind ++ turns (.worker 0) 1)
        (begin { numThreads := 1, maxRetainedTerminalTasks := 1 } usedBackend)).bind fun s =>
        (next s (.step (.worker 0) .go)).map fun s' => decide
          (zone (s.pc (.worker 0)) = .sweeping ∧ "f" ∉ s.shared.ledger.accepted ∧
            s.shared.ledger.record "f" ≠ none ∧ s'.shared.ledger.record "f" = none)) =
        some true := by decide +kernel
    obtain ⟨s, hs, hrest⟩ := Option.bind_eq_some_iff.mp trace
    obtain ⟨s', hs', hP⟩ := Option.map_eq_some_iff.mp hrest
    obtain ⟨hz, ha, hr, hn⟩ := of_decide_eq_true hP
    exact ⟨s, s', ⟨_, ⟨_, _, used_usable, rfl⟩, replay_execution hs⟩, hz, hs', ha, hr, hn⟩
  · obtain ⟨s, hs, hr, closed, ended, hnext, hfutures, ho, hpending⟩ :=
      after_spec (A := fun s e => Fresh s e ∧ Starts s e) (c := { numThreads := 1 })
      (l := unlisted) (P := fun s => s.shared.closed = true ∧ s.shared.worker 0 = .ended ∧
        s.shared.nextThread = 1 ∧ s.shared.ledger.nextFuture = 0 ∧
        "t" ∈ s.shared.ledger.outstanding ∧
        (s.shared.ledger.record "t").map TaskRecord.status = some .pending) (by decide +kernel)
    have fresh : ((system Unit).restrict Fresh).Reachable s :=
      System.restrict_imp (P := fun _ => True) (fun _ _ => trivial) (fun _ _ _ h => h.1) hr
    exact ⟨s, hs, OneEnded.rest ⟨closed, ended, hnext, hfutures⟩ fresh, ho, hpending⟩

end

end StopHandover
