import Infly.SchedulerAccounts

/-! # Failing the tasks that were left behind

Whoever runs `_fail_pending_tasks` has every accepted task that is still PENDING before it.
-/
namespace SchedulerSweep

open Contracts TaskBackend SchedulerState SchedulerModel SchedulerLocks SchedulerControl
  SchedulerLedger SchedulerDuties SchedulerStages SchedulerOwnership SchedulerAccounts Transitions

/-- Accepted, and not started yet. -/
def Pending (L : Ledger) (t : TaskId) : Prop := t ∈ L.accepted ∧ InStatus L t .pending

/-- What a sweeping thread will still come to. -/
def Covered (t : TaskId) : Pc → Prop
  | .listingIds => True
  | .listingRecords ids => t ∈ ids
  | p => t ∈ todo p

variable {ι : Type} {L L' : Ledger} {t u : TaskId}

theorem Pending.fades (h : Pending L' u) (ha : L'.accepted = L.accepted)
    (hf : L.backend.Fades L'.backend u) : Pending L u := by
  obtain ⟨hacc, r, hr, hs⟩ := h
  refine ⟨ha ▸ hacc, r, ?_, hs⟩
  rcases hf with hf | ⟨hf, _⟩
  · exact hf.symm.trans hr
  · exact absurd (hf.symm.trans hr) (by simp)

/-- An update never leads back to PENDING. -/
theorem Pending.update {now : ℕ} {x : Backend.Update} (hw : L.backend.Wellformed)
    (hx : x.status ≠ .pending) (h : Pending (L.update now t x).2 u) : Pending L u ∧ u ≠ t := by
  cases hr : L.record t with
  | none =>
    have hb : (L.update now t x).2.backend = L.backend := by
      simp only [Ledger.update]
      rw [Backend.updateStatus_missing hr]
    have hp : Pending L u := h.fades rfl (.inl (by rw [hb]))
    refine ⟨hp, ?_⟩
    rintro rfl
    obtain ⟨_, r, hr', _⟩ := hp
    cases hr.symm.trans hr'
  | some r =>
    obtain ⟨_, _, _, hrec, _, keeps⟩ := update_ok hw hr now x
    by_cases hu : u = t
    · subst hu
      obtain ⟨_, r', hr', hs⟩ := h
      rcases hrec with hrec | ⟨hrec, _⟩
      · cases hrec.symm.trans hr'
        exact absurd hs hx
      · cases hrec.symm.trans hr'
    · exact ⟨h.fades rfl (keeps u hu).fades, hu⟩

theorem ender_not_pending (m : Ender) : m.update.status ≠ .pending := by
  cases m with
  | completeTask o => cases o <;> exact nofun
  | _ => exact nofun

section

variable [DecidableEq ι] {s s' : State ι} {stage : TaskId → Stage ι} {sh : Shared ι}
  {a b : Thread ι} {p : Pc} {c : Choice} {x : Shared ι × Pc} {e : Event ι}

/-- Only a submit call makes a task PENDING. -/
theorem turn_pending (hw : sh.ledger.backend.Wellformed) (h : act sh a p c = some x)
    (hu : Pending x.1.ledger u) : Pending sh.ledger u ∨ ∃ job, p = .storing job := by
  cases c <;> cases p
  case raises.reading q locked =>
    obtain ⟨_, _, rfl⟩ := reading_raises h
    exact .inl (hu.fades rfl (Backend.read_fades ..))
  all_goals simp only [act, advance, throwing, expire, reduceCtorEq] at h
  case go.storing job => exact .inr ⟨job, rfl⟩
  case go.pulling =>
    cases h
    exact .inl (hu.fades rfl (.inl (by simp [Ledger.pull])))
  case go.reading q locked =>
    cases h
    exact .inl (hu.fades rfl (Backend.read_fades ..))
  case go.notifying n =>
    cases h
    refine .inl (hu.fades ?_ ?_) <;> cases n <;> first
      | rfl
      | exact Backend.Fades.refl ..
  case go.running t request =>
    cases h
    exact .inl (hu.update hw (by simp)).1
  case go.sweeping t done rest =>
    cases h
    exact .inl (hu.update hw (by simp [stoppedBeforeStart])).1
  case go.updating t m request =>
    cases h
    exact .inl (hu.update hw (ender_not_pending m)).1
  all_goals repeat' split at h
  all_goals cases h
  all_goals exact .inl hu

omit [DecidableEq ι] in
theorem storing_open (hex : Exclusive s) (hc : Control s) {job : Job}
    (hp : s.pc a = .storing job) : s.shared.closed = false := by
  have hf := hc.facts a
  have hr := hex.placed a
  rw [hp] at hf hr
  cases a with
  | client i => exact hf
  | worker k => exact absurd hr Bool.false_ne_true
  | callback f => exact absurd hr Bool.false_ne_true

/-- A closed scheduler gets no new task. -/
theorem pending_back (hex : Exclusive s) (hc : Control s) (hst : Staged s stage)
    (closed : s.shared.closed = true) (hs : Step s e s') (hu : Pending s'.shared.ledger u) :
    Pending s.shared.ledger u := by
  rcases step_cases hs with ⟨i, k, rfl, _, rfl⟩ | ⟨a, c, x, rfl, _, hx, rfl⟩ |
    ⟨f, o, rfl, _, _, rfl⟩ | ⟨w, rfl, _, rfl⟩ | ⟨d, rfl, rfl⟩
  · cases k <;> exact hu
  · rcases turn_pending hst.wellformed hx hu with hu | ⟨job, hp⟩
    · exact hu
    · exact absurd closed (Bool.eq_false_iff.mp (storing_open hex hc hp))
  all_goals exact hu

/-! ## The sweep -/

omit [DecidableEq ι] in
theorem covered_sweepFrom {done rest : List TaskId} (h : t ∈ rest) :
    Covered t (sweepFrom a done rest) := by
  cases rest with
  | nil => exact absurd h List.not_mem_nil
  | cons v rest => exact h

omit [DecidableEq ι] in
theorem pendingRecords_mem {b : Backend} {ids : Finset TaskId} {r : TaskRecord}
    (hw : b.Wellformed) (hi : u ∈ ids) (hr : b.records.get? u = some r)
    (hp : r.status = .pending) : u ∈ pendingRecords b ids := by
  have hk := hw.keyed u r hr
  simp only [pendingRecords, Backend.listAll_copies]
  refine List.mem_map.mpr ⟨r, List.mem_filter.mpr ⟨Dict.mem_values.mpr ⟨u, hr⟩, ?_⟩, hk⟩
  exact decide_eq_true ⟨hk.symm ▸ hi, hp⟩

omit [DecidableEq ι] in
/-- A pending task of the scheduler's own is outstanding when no worker pulls any more. -/
theorem pending_outstanding (hex : Exclusive s) (hc : Control s) (hst : Staged s stage)
    (hq : Quiet s) (hu : Pending s.shared.ledger u) : u ∈ s.shared.ledger.outstanding := by
  obtain ⟨hacc, r, hr, hs⟩ := hu
  have hown := (hst.fact u).accepted hacc
  have hfact := hst.fact u
  rw [pending_queued hst hex hc hq hr hs hown] at hfact
  rcases hfact.2 with hw | hw
  · exact hw.owed.mpr hown
  · exact absurd hw.foreign hown

omit [DecidableEq ι] in
theorem sweepFrom_stays (done rest : List TaskId) :
    zone (sweepFrom a done rest) = .sweeping ∨ sweepFrom a done rest = afterSweep a := by
  rcases sweepFrom_cases a done rest with ⟨_, _, hp⟩ | ⟨_, _, hp⟩ | ⟨t, rest', _, hp⟩
  · exact .inr hp
  · exact .inl (hp ▸ rfl)
  · exact .inl (hp ▸ rfl)

def atListing : Pc → Bool
  | .listingRecords _ => true
  | _ => false

/-- The records can be copied when `_fail_pending_tasks` lists them. -/
def Listable (s : State ι) : Event ι → Prop
  | .step a (.raises _) => ∀ ids, s.pc a ≠ .listingRecords ids
  | _ => True

instance (s : State ι) (e : Event ι) : Decidable (Listable s e) :=
  match e with
  | .step a (.raises _) =>
    decidable_of_iff (atListing (s.pc a) = false) (by
      cases hp : s.pc a <;> simp [Listable, atListing, hp])
  | .step _ .go | .step _ .timeout | .call _ _ | .resolve _ _ | .fire _ | .tick _ =>
    .isTrue trivial

/-- A step of the sweep leaves nothing out, and the sweep is broken off only when the records
cannot be listed. -/
theorem sweep_turn (hex : Exclusive s) (hc : Control s) (hst : Staged s stage)
    (room : ∀ t k, s.pc a = .givingBack t k → s.shared.free < s.shared.config.maxOutstandingTasks)
    (listable : Listable s (.step a c))
    (hz : zone (s.pc a) = .sweeping)
    (hcov : ∀ t, Pending s.shared.ledger t → Covered t (s.pc a))
    (hx : act s.shared a (s.pc a) c = some x) :
    (zone x.2 = .sweeping ∨ x.2 = afterSweep a) ∧
      ∀ u, Pending x.1.ledger u → Covered u x.2 := by
  have hq : Quiet s := sweeper_quiet hex hc hz
  have old : ∀ u, Pending x.1.ledger u → Pending s.shared.ledger u ∧ Covered u (s.pc a) := by
    intro u hu
    rcases turn_pending hst.wellformed hx hu with h | ⟨job, hp⟩
    · exact ⟨h, hcov u h⟩
    · rw [hp] at hz
      cases hz
  have hleft := hst.leftover a
  cases hp : s.pc a <;> rw [hp] at hx old hz hleft
  case reporting k | tracing k _ => cases k <;> cases hz
  case notifying n =>
    cases n <;> first
      | cases hz; done
      | skip
    cases c <;> simp only [act, advance, throwing, expire, reduceCtorEq] at hx
    cases hx
    exact ⟨.inr rfl, fun u hu => absurd (old u hu).2 List.not_mem_nil⟩
  case listingIds =>
    cases c <;> simp only [act, advance, throwing, expire, reduceCtorEq] at hx
    cases hx
    exact ⟨.inl rfl, fun u hu => pending_outstanding hex hc hst hq hu⟩
  case listingRecords ids =>
    cases c
    case raises e => exact absurd hp (listable ids)
    all_goals simp only [act, advance, expire, reduceCtorEq] at hx
    cases hx
    refine ⟨sweepFrom_stays .., fun u hu => ?_⟩
    obtain ⟨⟨_, r, hr, hs⟩, own⟩ := old u hu
    exact covered_sweepFrom (pendingRecords_mem hst.wellformed own hr hs)
  case sweeping v done rest =>
    cases c <;> simp only [act, advance, throwing, expire, reduceCtorEq] at hx
    cases hx
    have hfact := hst.fact v
    obtain ⟨hstage, hown⟩ := hleft v (List.mem_cons_self ..)
    rw [hstage] at hfact
    obtain ⟨r, hr, _⟩ := (hfact.2.resolve_right fun h => hown h.foreign).status
    rw [(update_ok hst.wellformed hr _ _).1]
    refine ⟨.inl rfl, fun u hu => ?_⟩
    have hne := (hu.update hst.wellformed (by simp [stoppedBeforeStart])).2
    exact (List.mem_cons.mp (old u hu).2).resolve_left hne
  case releasing v k =>
    cases k <;> first
      | cases hz; done
      | skip
    cases c <;> simp only [act, advance, throwing, expire, reduceCtorEq] at hx
    split at hx <;> cases hx <;> exact ⟨.inl rfl, fun u hu => (old u hu).2⟩
  case givingBack v k =>
    cases k <;> first
      | cases hz; done
      | skip
    cases c <;> simp only [act, advance, throwing, expire, reduceCtorEq] at hx
    rw [if_pos (room v _ hp)] at hx
    cases hx
    exact ⟨.inl rfl, fun u hu => (old u hu).2⟩
  case resolving v k =>
    cases k <;> first
      | cases hz; done
      | skip
    cases c <;> simp only [act, advance, throwing, expire, reduceCtorEq] at hx
    split at hx <;> cases hx
    · exact ⟨sweepFrom_stays .., fun u hu => covered_sweepFrom (old u hu).2⟩
    · exact ⟨.inl rfl, fun u hu => (old u hu).2⟩
  case scheduling w v k =>
    cases k <;> first
      | cases hz; done
      | skip
    cases c <;> simp only [act, advance, throwing, expire, reduceCtorEq] at hx
    split at hx <;> cases hx <;>
      exact ⟨sweepFrom_stays .., fun u hu => covered_sweepFrom (old u hu).2⟩
  all_goals cases hz

/-- Sweeping, or done with it and still in the thread list. -/
def sweeps (p : Pc) : Bool :=
  match zone p with
  | .sweeping | .removing => true
  | _ => false

omit [DecidableEq ι] in
@[simp] theorem home_sweeps : sweeps (home a) = false := by cases a <;> rfl

@[simp] theorem joinFrom_sweeps (d : ℕ) (ks : List ℕ) : sweeps (joinFrom d ks) = false := by
  cases ks <;> rfl

omit [DecidableEq ι] in
@[simp] theorem abortSweep_sweeps (e : Raised) : sweeps (abortSweep e a) = false := by
  cases a <;> rfl

theorem plain_sweeps (h : zone p = .plain) : sweeps p = false := by simp [sweeps, h]

/-- A sweep begins with a copy of the outstanding ids. -/
theorem turn_sweeps (h : act sh a p c = some x) (hx : sweeps x.2 = true) :
    zone p = .sweeping ∨ x.2 = .listingIds := by
  have plain : zone x.2 ≠ .plain := fun hz => by
    rw [plain_sweeps hz] at hx
    cases hx
  have home : x.2 ≠ home a := fun he => by
    rw [he, home_sweeps] at hx
    cases hx
  cases c <;> cases p <;> simp only [act, advance, throwing, expire, reduceCtorEq] at h
  case go.filtering =>
    cases h
    dsimp only at hx ⊢
    split
    · exact .inr rfl
    · rename_i hne
      rw [if_neg hne] at hx
      cases hx
  case go.releasing t k | go.givingBack t k | go.resolving t k | go.scheduling w t k =>
    cases k with
    | sweep done rest => exact .inl rfl
    | finish m =>
      repeat' split at h
      all_goals cases h
      all_goals first
        | cases hx
        | exact absurd rfl home
        | (cases m <;> first | cases hx | exact absurd rfl home)
    | _ =>
      repeat' split at h
      all_goals cases h
      all_goals first
        | cases hx
        | exact absurd rfl home
  case go.notifying n =>
    cases h
    cases n with
    | swept done => exact .inl rfl
    | submitted job => exact absurd (followUp_zone job) plain
    | stopping timeout workers => simp [afterNotify] at hx
    | finished t m => cases hx
  case go.tracing k event =>
    cases h
    cases k <;> cases hx
  case go.reporting k =>
    cases h
    cases k <;> cases hx
  all_goals repeat' split at h
  all_goals cases h
  all_goals first
    | exact .inl rfl
    | exact .inr rfl
    | cases hx
    | exact absurd rfl home
    | (simp at hx; done)
    | exact absurd (by simp) plain

/-- Whoever sweeps, or has just swept, has every pending task before it. -/
def Thorough (s : State ι) : Prop :=
  ∀ a, sweeps (s.pc a) = true → ∀ t, Pending s.shared.ledger t → Covered t (s.pc a)

omit [DecidableEq ι] in
theorem sweeps_zone (h : sweeps p = true) : zone p = .sweeping ∨ zone p = .removing := by
  unfold sweeps at h
  split at h
  · exact .inl (by assumption)
  · exact .inr (by assumption)
  · cases h

/-- These zones are program counters. -/
theorem lone_zone (p : Pc) : (zone p = .exiting → p = .exiting) ∧
    (zone p = .removing → p = .removing) ∧ (zone p = .leaving → p = .leaving) ∧
    (zone p = .exited → p = .exited) := by
  cases p
  case reporting k | tracing k _ => cases k <;> simp [zone, reportZone]
  case releasing t k | givingBack t k | resolving t k | scheduling _ t k =>
    cases k <;> simp [zone, contZone]
  case notifying n => cases n <;> simp [zone, noticeZone]
  all_goals simp [zone]

omit [DecidableEq ι] in
theorem sweeps_closed (hex : Exclusive s) (hc : Control s) (h : sweeps (s.pc a) = true) :
    s.shared.closed = true := by
  rcases sweeps_zone h with hz | hz
  · exact (sweeper_quiet hex hc hz).closed
  · have hf := hc.facts a
    have hr := hex.placed a
    rw [hz] at hf
    rw [(lone_zone _).2.1 hz] at hr
    cases a with
    | worker k => exact hf.2.2.1
    | client i => exact absurd hr Bool.false_ne_true
    | callback f => exact absurd hr Bool.false_ne_true

/-- What a step does to a thread that does not take it. -/
theorem Thorough.goto (hex : Exclusive s) (hc : Control s) (hst : Staged s stage)
    (h : Thorough s) (hs : Step s e s') (hpc : ∀ b, b ≠ a → s'.pc b = s.pc b)
    (own : sweeps (s'.pc a) = true → ∀ t, Pending s'.shared.ledger t → Covered t (s'.pc a)) :
    Thorough s' := by
  intro b hb t ht
  by_cases hba : b = a
  · subst hba
    exact own hb t ht
  · rw [hpc b hba] at hb ⊢
    exact h b hb t (pending_back hex hc hst (sweeps_closed hex hc hb) hs ht)

theorem thorough_next (hex : Exclusive s) (hc : Control s) (hst : Staged s stage)
    (hw : Within s) (h : Thorough s) (hs : Step s e s') : Thorough s' := by
  rcases step_cases hs with ⟨i, k, rfl, hrest, rfl⟩ | ⟨a, c, x, rfl, _, hx, rfl⟩ |
    ⟨f, o, rfl, _, _, rfl⟩ | ⟨w, rfl, _, rfl⟩ | ⟨d, rfl, rfl⟩
  · refine h.goto (a := .client i) hex hc hst hs (fun b hb => goto_pc_of_ne s hb _) fun hsw => ?_
    rw [goto_pc] at hsw
    cases k with
    | stop timeout =>
      simp only [Call.enter] at hsw
      split at hsw <;> cases hsw
    | _ => cases hsw
  · refine h.goto (a := a) hex hc hst hs (fun b hb => goto_pc_of_ne s hb _) fun hsw t ht => ?_
    rw [goto_pc] at hsw ⊢
    rcases turn_sweeps hx hsw with hz | hlist
    · refine (sweep_turn hex hc hst (fun u k hp => ?_) ?_ hz (h a ?_) hx).2 t ht
      · exact hw.room (a := a) (by rw [hp]; rfl)
      · cases c with
        | raises e =>
          intro ids hp
          rw [hp] at hx
          obtain ⟨e', rfl⟩ := listing_raises hx
          simp at hsw
        | _ => trivial
      · simp [sweeps, hz]
    · rw [hlist]
      trivial
  · exact h
  · exact h
  · exact h

omit [DecidableEq ι] in
theorem thorough_begin (config : Config.SchedulerConfig) (b : Backend) :
    Thorough (begin (ι := ι) config b) := by
  intro a ha
  cases a <;> cases ha

end

end SchedulerSweep
