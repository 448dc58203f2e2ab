import Infly.ThreadList

/-! # A worker for every accepted task

As long as an accepted task is PENDING some worker thread runs that has still to look whether
it is the last one, or is failing the tasks left behind.
-/
namespace Staffing

open Contracts TaskBackend SchedulerState SchedulerModel SchedulerLocks SchedulerControl
  SchedulerLedger SchedulerDuties SchedulerStages SchedulerOwnership SchedulerAccounts
  SchedulerSweep ThreadList Transitions

/-- In a submit call whose `start` has returned, up to its own return. -/
def admitted : Pc → Bool
  | .submitting _ | .checkingDuplicate _ | .acquiringSlot _ | .addingId _ | .storing _
  | .reporting (.submitted _) | .tracing (.submitted _) _ | .notifying (.submitted _) => true
  | _ => false

variable {ι : Type}

/-- Worker threads leave their loop only in a closed scheduler. -/
def Quitting (s : State ι) : Prop :=
  ∀ k, s.pc (.worker k) = .exiting → s.shared.closed = true

/-- A worker of the list runs that will look whether it is the last one, or a worker fails
the tasks left behind. -/
def Manned (s : State ι) : Prop :=
  (∃ k ∈ s.shared.threads, s.shared.worker k = .running ∧ alert (s.pc (.worker k)) = true) ∨
    ∃ k, zone (s.pc (.worker k)) = .sweeping

/-- What needs a worker: a PENDING task, or a submit call that may still make one. -/
def Needed (s : State ι) : Prop :=
  (∃ t, Pending s.shared.ledger t) ∨
    s.shared.closed = false ∧ ∃ i, admitted (s.pc (.client i)) = true

def Staffed (s : State ι) : Prop := Needed s → Manned s

/-- What is known of the worker threads. -/
structure Crew (s : State ι) : Prop where
  gone : Gone s
  quitting : Quitting s
  staffed : Staffed s

section

variable [DecidableEq ι] {s s' : State ι} {stage : TaskId → Stage ι} {sh : Shared ι}
  {a b : Thread ι} {p : Pc} {c : Choice} {x : Shared ι × Pc} {e : Event ι} {k : ℕ}

theorem quitting_next (h : Sound s stage) (hq : Quitting s) (hs : Step s e s') :
    Quitting s' := by
  rcases step_cases hs with ⟨i, c, rfl, _, rfl⟩ | ⟨a, c, x, rfl, _, hx, rfl⟩ |
    ⟨f, o, rfl, _, _, rfl⟩ | ⟨w, rfl, _, rfl⟩ | ⟨d, rfl, rfl⟩
  · intro k hz
    rw [goto_pc_of_ne s (by simp)] at hz
    have hk := hq k hz
    cases c <;> exact hk
  · intro k hz
    by_cases ha : .worker k = a
    · subst ha
      rw [goto_pc] at hz
      refine turn_closed hx ?_
      rcases turn_exiting hx hz with hstop | ⟨t, m, hp, hroom⟩
      · exact h.control.stop.symm.trans hstop
      · exact absurd (h.within.room (a := .worker k) (by rw [hp]; rfl)) hroom
    · rw [goto_pc_of_ne s ha] at hz
      exact turn_closed hx (hq k hz)
  · exact hq
  · exact hq
  · exact hq

omit [DecidableEq ι] in
/-- A running worker of the list has not looked yet whether it is the last one, or has found
that it is. -/
theorem listed_worker (hex : Exclusive s) (hg : Gone s)
    (hk : k ∈ s.shared.threads) :
    alert (s.pc (.worker k)) = true ∨ zone (s.pc (.worker k)) = .sweeping ∨
      zone (s.pc (.worker k)) = .removing := by
  obtain ⟨ho, hl, hst⟩ := worker_zone (hex.placed (.worker k))
  have hgone := hg k
  cases hz : zone (s.pc (.worker k))
  case opening => exact absurd hz ho
  case launching j => exact absurd hz (hl j)
  case stopping => exact absurd hz hst
  case sweeping => exact .inr (.inl rfl)
  case removing => exact .inr (.inr rfl)
  case leaving => exact absurd hk (hgone (.inl hz))
  case exited => exact absurd hk (hgone (.inr hz))
  case plain | unstarted | exiting => exact .inl (by simp [alert, hz])

omit [DecidableEq ι] in
theorem listed_alert (hex : Exclusive s) (hc : Control s) (hg : Gone s)
    (ho : s.shared.closed = false) (hk : k ∈ s.shared.threads) :
    alert (s.pc (.worker k)) = true := by
  have hf := hc.facts (.worker k)
  rcases listed_worker hex hg hk with ha | hz | hz
  · exact ha
  · rw [hz] at hf
    exact absurd hf.2.2.1 (Bool.eq_false_iff.mp ho)
  · rw [hz] at hf
    exact absurd hf.2.2.1 (Bool.eq_false_iff.mp ho)

omit [DecidableEq ι] in
/-- In an open scheduler every listed worker that was started runs. -/
theorem listed_running (hex : Exclusive s) (hc : Control s) (hg : Gone s)
    (ho : s.shared.closed = false) (hk : k ∈ s.shared.threads)
    (hu : s.shared.worker k ≠ .unstarted) :
    s.shared.worker k = .running ∧ alert (s.pc (.worker k)) = true := by
  have hf := hc.facts (.worker k)
  have ha := listed_alert hex hc hg ho hk
  refine ⟨?_, ha⟩
  unfold alert at ha
  split at ha
  · rename_i hz
    rw [hz] at hf
    cases hw : s.shared.worker k with
    | unstarted => exact absurd hw hu
    | running => rfl
    | ended => exact absurd hw hf.1
  · rename_i hz
    rw [hz] at hf
    exact hf.1
  · rename_i hz
    rw [hz] at hf
    exact hf.1
  · cases ha

/-- An alert worker stays one, or looks. -/
theorem alert_next (hex : Exclusive s) (hc : Control s) (hg : Gone s)
    (hq : Quitting s) (hn : ∀ l ∈ (s.pc (.worker k)).needs, s.locks l = none)
    (hx : act s.shared (.worker k) (s.pc (.worker k)) c = some x) (hk : k ∈ s.shared.threads)
    (hr : s.shared.worker k = .running) (ha : alert (s.pc (.worker k)) = true) :
    Manned (s.goto (.worker k) x) := by
  have hch := turn_change hx
  by_cases he : s.pc (.worker k) = .exiting
  · have hquit := hq k he
    rw [he] at hx hn hch
    cases hch with
    | last ht hw hcl hpc =>
      refine .inr ⟨k, ?_⟩
      rw [goto_pc, hpc]
      rfl
    | still hm => cases hm
    | erase hlast ht hw hcl hpc =>
      rcases hlast with hlast | ⟨_, hlast⟩
      · cases hlast
      obtain ⟨j, hj, hne, hrun⟩ := hlast (hc.stop.trans hquit)
      have hpcj : (s.goto (.worker k) x).pc (.worker j) = s.pc (.worker j) :=
        goto_pc_of_ne s (by simpa using hne) x
      rcases listed_worker hex hg hj with hz | hz | hz
      · refine .inl ⟨j, ?_, ?_, hpcj ▸ hz⟩
        · rw [goto_shared, ht]
          exact (List.mem_erase_of_ne hne).mpr hj
        · rw [goto_shared, hw]
          exact hrun
      · exact .inr ⟨j, hpcj ▸ hz⟩
      · have hfree : s.locks .threads = none := hn _ (List.mem_singleton.mpr rfl)
        have hheld : s.locks .threads = some (.worker j) := by
          rw [hex.held, (lone_zone _).2.1 hz]
          exact List.mem_singleton.mpr rfl
        cases hfree.symm.trans hheld
  · have halert := turn_alert hx (hex.placed _) ha he
    have hplaced := hex.placed (.worker k)
    generalize s.pc (.worker k) = p at hch he ha hplaced
    cases hch with
    | still _ ht hw =>
      refine .inl ⟨k, ht ▸ hk, hw ▸ hr, ?_⟩
      rw [goto_pc]
      exact halert
    | erase hlast =>
      rcases hlast with rfl | ⟨rfl, _⟩
      · cases ha
      · exact absurd rfl he
    | last => exact absurd rfl he
    | finish => cases ha
    | spawn | launch | unlaunched | close | filter => cases hplaced

theorem manned_next (h : Sound s stage) (hg : Gone s) (hq : Quitting s) (hm : Manned s)
    (listable : Listable s e) (hs : Step s e s') : Manned s' ∨ ¬Needed s' := by
  rcases step_cases hs with ⟨i, c, rfl, _, rfl⟩ | ⟨a, c, x, rfl, hn, hx, rfl⟩ |
    ⟨f, o, rfl, _, _, rfl⟩ | ⟨w, rfl, _, rfl⟩ | ⟨d, rfl, rfl⟩
  · refine .inl ?_
    have hpc (k : ℕ) : (s.goto (.client i) (c.enter s.shared)).pc (.worker k) =
        s.pc (.worker k) := goto_pc_of_ne s (by simp) _
    rcases hm with ⟨k, hk, hr, ha⟩ | ⟨k, hz⟩
    · refine .inl ⟨k, ?_, ?_, hpc k ▸ ha⟩
      · cases c <;> exact hk
      · cases c <;> exact hr
    · exact .inr ⟨k, hpc k ▸ hz⟩
  · rcases hm with ⟨k, hk, hr, ha⟩ | ⟨k, hz⟩
    · by_cases hak : a = .worker k
      · subst hak
        exact .inl (alert_next h.exclusive h.control hg hq hn hx hk hr ha)
      · obtain ⟨hk', hr'⟩ := (turn_change hx).kept hk hr hak
        refine .inl (.inl ⟨k, hk', hr', ?_⟩)
        rw [goto_pc_of_ne s (Ne.symm hak)]
        exact ha
    · by_cases hak : a = .worker k
      · subst hak
        obtain ⟨hnext, hcov⟩ := h.sweep listable hz hx
        rcases hnext with hnext | hnext
        · refine .inl (.inr ⟨k, ?_⟩)
          rw [goto_pc]
          exact hnext
        · refine .inr ?_
          have hclosed := (sweeper_quiet h.exclusive h.control hz).closed
          rintro (⟨t, ht⟩ | ⟨hopen, _⟩)
          · have := hcov t ht
            rw [hnext] at this
            exact List.not_mem_nil this
          · exact absurd (turn_closed hx hclosed) (Bool.eq_false_iff.mp hopen)
      · refine .inl (.inr ⟨k, ?_⟩)
        rw [goto_pc_of_ne s (Ne.symm hak)]
        exact hz
  · exact .inl hm
  · exact .inl hm
  · exact .inl hm

omit [DecidableEq ι] in
theorem onward_admitted (h : onward p = true) : admitted p = false := by
  cases p
  case notifying n => cases n <;> first
    | rfl
    | cases h
  all_goals first
    | rfl
    | cases h

/-- A call of `start` returns when it has started the last thread, or found one in the list. -/
theorem turn_admitted (h : act sh a p c = some x) (hx : admitted x.2 = true) :
    admitted p = true ∨ (∃ job, p = .startChecking job ∧ sh.threads ≠ [] ∧ x.1 = sh) ∨
      ∃ job index k, p = .launching job index k ∧ x.1.threads = sh.threads ∧
        x.1.worker k = .running := by
  have elsewhere : onward x.2 = false := by
    by_contra ho
    rw [onward_admitted (Bool.not_eq_false _ ▸ ho)] at hx
    cases hx
  cases c <;> cases p <;> simp only [act, advance, throwing, expire, reduceCtorEq] at h
  case go.startChecking job =>
    split at h <;> cases h
    · cases hx
    · exact .inr (.inl ⟨job, rfl, by assumption, rfl⟩)
  case go.launching job index k =>
    cases h
    exact .inr (.inr ⟨job, index, k, rfl, rfl, Function.update_self ..⟩)
  case go.reporting k | go.tracing k event =>
    cases h
    cases k with
    | submitted job => exact .inl rfl
    | _ => cases hx
  case go.notifying n =>
    cases h
    exact absurd (afterNotify_onward ..) (Bool.eq_false_iff.mp elsewhere)
  case go.waitChecking q d =>
    cases h
    rcases look_cases q sh.clock d (sh.ledger.record q.task) with hl | ⟨hl, _⟩ | ⟨⟨_, hl⟩, _⟩
    · exact absurd (resumed_onward hl) (Bool.eq_false_iff.mp elsewhere)
    · dsimp only at hx
      rw [hl] at hx
      cases hx
    · dsimp only at hx
      rw [hl] at hx
      cases hx
  case go.storing job | go.submitting job | go.checkingDuplicate job | go.acquiringSlot job |
      go.addingId job => exact .inl rfl
  all_goals repeat' split at h
  all_goals cases h
  all_goals first
    | cases hx
    | exact absurd (by simp [resumed_onward]) (Bool.eq_false_iff.mp elsewhere)

/-- Where a call of `start` finds threads in the list, one of them was started. -/
def Startable (s : State ι) : Event ι → Prop
  | .step a .go => ∀ job, s.pc a = .startChecking job → s.shared.threads ≠ [] →
      ∃ k ∈ s.shared.threads, s.shared.worker k ≠ .unstarted
  | _ => True

/-- What comes to need a worker has one. -/
theorem needed_next (h : Sound s stage) (hg : Gone s) (hs : Step s e s')
    (startable : Startable s e) (hold : ¬Needed s) (hnew : Needed s') : Manned s' := by
  rcases step_cases hs with ⟨i, c, rfl, _, rfl⟩ | ⟨a, c, x, rfl, hn, hx, rfl⟩ |
    ⟨f, o, rfl, _, _, rfl⟩ | ⟨w, rfl, _, rfl⟩ | ⟨d, rfl, rfl⟩
  · refine absurd (hnew.imp (fun hp => ?_) fun hopen => ?_) hold
    · cases c <;> exact hp
    · obtain ⟨hopen, j, hj⟩ := hopen
      refine ⟨by cases c <;> exact hopen, j, ?_⟩
      by_cases hji : j = i
      · subst hji
        rw [goto_pc] at hj
        cases c with
        | stop timeout =>
          simp only [Call.enter] at hj
          split at hj <;> cases hj
        | _ => cases hj
      · rwa [goto_pc_of_ne s (by simpa using hji)] at hj
  · rcases hnew with ⟨t, ht⟩ | ⟨hopen, i, hi⟩
    · refine absurd ?_ hold
      rcases turn_pending h.staged.wellformed hx ht with ht | ⟨job, hp⟩
      · exact .inl ⟨t, ht⟩
      · have hplaced := h.exclusive.placed a
        rw [hp] at hplaced
        obtain ⟨i, rfl⟩ := isClient_iff.mp hplaced
        exact .inr ⟨storing_open h.exclusive h.control hp, i, by rw [hp]; rfl⟩
    · replace hopen : s.shared.closed = false :=
        Bool.eq_false_iff.mpr fun hc => absurd (turn_closed hx hc) (Bool.eq_false_iff.mp hopen)
      by_cases hai : .client i = a
      · subst hai
        rw [goto_pc] at hi
        have hpc (k : ℕ) : (s.goto (.client i) x).pc (.worker k) = s.pc (.worker k) :=
          goto_pc_of_ne s (by simp) x
        rcases turn_admitted hx hi with hp | ⟨job, hp, hthreads, hsh⟩ |
          ⟨job, index, k, hp, hthreads, hrun⟩
        · exact absurd (.inr ⟨hopen, i, hp⟩) hold
        · cases c <;> rw [hp] at hx
          case go =>
            obtain ⟨k, hk, hu⟩ := startable job hp hthreads
            obtain ⟨hr, ha⟩ := listed_running h.exclusive h.control hg hopen hk hu
            refine .inl ⟨k, ?_, ?_, hpc k ▸ ha⟩
            · rw [goto_shared, hsh]
              exact hk
            · rw [goto_shared, hsh]
              exact hr
          all_goals cases hx
        · have hf := h.control.facts (.client i)
          rw [hp] at hf
          refine .inl ⟨k, hthreads ▸ hf.2.1, hrun, ?_⟩
          rw [hpc k]
          exact listed_alert h.exclusive h.control hg hopen hf.2.1
      · rw [goto_pc_of_ne s hai] at hi
        exact absurd (.inr ⟨hopen, i, hi⟩) hold
  · exact absurd hnew hold
  · exact absurd hnew hold
  · exact absurd hnew hold

theorem crew_next (h : Sound s stage) (hc : Crew s) (hs : Step s e s')
    (startable : Startable s e) (listable : Listable s e) : Crew s' := by
  refine ⟨h.gone hc.gone listable hs, quitting_next h hc.quitting hs, fun hnew => ?_⟩
  by_cases hold : Needed s
  · exact (manned_next h hc.gone hc.quitting (hc.staffed hold) listable hs).resolve_right
      fun hn => hn hnew
  · exact needed_next h hc.gone hs startable hold hnew

omit [DecidableEq ι] in
theorem crew_begin (config : Config.SchedulerConfig) (b : Backend) :
    Crew (begin (ι := ι) config b) := by
  refine ⟨?_, ?_, ?_⟩
  · intro k _
    exact List.not_mem_nil
  · intro k hk
    cases hk
  intro hn
  rcases hn with ⟨t, ht, _⟩ | ⟨_, i, hi⟩
  · exact absurd ht (Finset.notMem_empty t)
  · cases hi

end

end Staffing
