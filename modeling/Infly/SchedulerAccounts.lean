import Infly.SchedulerOwnership

/-! # Slots and stages over whole runs

A slot is free, or counted in the outstanding ids, or with a thread on its way between the
two.
-/
namespace SchedulerAccounts

open Contracts TaskBackend SchedulerState SchedulerModel SchedulerLocks SchedulerControl
  SchedulerLedger SchedulerDuties SchedulerStages SchedulerOwnership Transitions

/-- Between taking a slot and noting the id, or between forgetting the id and giving the
slot back. -/
def inTransit : Pc → Bool
  | .addingId _ | .givingBack _ _ => true
  | _ => false

variable {ι : Type} {a : Thread ι} {p : Pc}

theorem resting_settled (h : p.resting = true) : inTransit p = false := by
  cases p <;> first | rfl | cases h

theorem onward_settled (h : onward p = true) : inTransit p = false := by
  cases p <;> first
    | rfl
    | cases h

/-! ## Slots -/

section

variable [DecidableEq ι] {s t : State ι} {x : Shared ι × Pc} {c : Choice} {e : Event ι}

/-- Every slot is free, outstanding, or with one of the threads in transit. -/
def Balanced (s : State ι) : Prop :=
  ∃ moving : Finset (Thread ι), (∀ a, a ∈ moving ↔ inTransit (s.pc a) = true) ∧
    s.shared.free + s.shared.ledger.outstanding.card + moving.card =
      s.shared.config.maxOutstandingTasks

def transit (p : Pc) : ℕ := if inTransit p then 1 else 0

@[simp] theorem transit_eq_zero (h : inTransit p = false) : transit p = 0 := by
  simp [transit, h]

/-- The threads in transit after a step of `a`. -/
theorem moving_goto {moving : Finset (Thread ι)} (hm : ∀ a, a ∈ moving ↔ inTransit (s.pc a) = true)
    (a : Thread ι) (x : Shared ι × Pc) : ∃ moving' : Finset (Thread ι),
      (∀ b, b ∈ moving' ↔ inTransit ((s.goto a x).pc b) = true) ∧
      moving'.card + transit (s.pc a) = moving.card + transit x.2 := by
  have hbefore : (moving.erase a).card + transit (s.pc a) = moving.card := by
    unfold transit
    split
    · rename_i ht
      have ha : a ∈ moving := (hm a).mpr ht
      exact Finset.card_erase_add_one ha
    · rename_i ht
      rw [Finset.erase_eq_of_notMem fun ha => ht ((hm a).mp ha)]
      rfl
  have hafter : (if inTransit x.2 then insert a (moving.erase a) else moving.erase a).card =
      (moving.erase a).card + transit x.2 := by
    unfold transit
    split
    · exact Finset.card_insert_of_notMem (Finset.notMem_erase a _)
    · rfl
  refine ⟨if inTransit x.2 then insert a (moving.erase a) else moving.erase a, fun b => ?_, ?_⟩
  · by_cases hb : b = a
    · subst hb
      rw [goto_pc]
      split <;> simp_all
    · rw [goto_pc_of_ne s hb, ← hm b]
      split <;> simp [hb]
  · rw [hafter]
    omega

theorem Balanced.goto (h : Balanced s) (hc : x.1.config = s.shared.config)
    (hf : x.1.free + x.1.ledger.outstanding.card + transit x.2 =
      s.shared.free + s.shared.ledger.outstanding.card + transit (s.pc a)) :
    Balanced (s.goto a x) := by
  obtain ⟨moving, hm, hsum⟩ := h
  obtain ⟨moving', hm', hcard⟩ := moving_goto hm a x
  refine ⟨moving', hm', ?_⟩
  rw [goto_shared, hc]
  omega

omit [DecidableEq ι] in
/-- A slot that is being given back is not free yet. -/
theorem Balanced.room (h : Balanced s) (ht : inTransit (s.pc a) = true) :
    s.shared.free < s.shared.config.maxOutstandingTasks := by
  obtain ⟨moving, hm, hsum⟩ := h
  have : 0 < moving.card := Finset.card_pos.mpr ⟨a, (hm a).mpr ht⟩
  omega

/-- A step moves slots, but for one that is taken for an id which is outstanding already. -/
theorem turn_slots {sh : Shared ι} (h : act sh a p c = some x)
    (room : ∀ t k, p = .givingBack t k → sh.free < sh.config.maxOutstandingTasks) :
    x.1.config = sh.config ∧
    (x.1.free + x.1.ledger.outstanding.card + transit x.2 =
        sh.free + sh.ledger.outstanding.card + transit p ∨
      (∃ job, p = .addingId job ∧ job.task ∈ sh.ledger.outstanding) ∧
        x.1.free + x.1.ledger.outstanding.card + transit x.2 + 1 =
          sh.free + sh.ledger.outstanding.card + transit p) := by
  have quiet (hp : inTransit p = false) (hx2 : inTransit x.2 = false)
      (hf : x.1.free = sh.free) (ho : x.1.ledger.outstanding = sh.ledger.outstanding) :
      x.1.free + x.1.ledger.outstanding.card + transit x.2 =
        sh.free + sh.ledger.outstanding.card + transit p := by
    rw [hf, ho, transit_eq_zero hp, transit_eq_zero hx2]
  cases p <;> cases c <;> simp only [act, advance, throwing, expire, reduceCtorEq] at h
  case acquiringSlot.go job =>
    split at h <;> cases h
    · exact ⟨rfl, .inl (quiet rfl rfl rfl rfl)⟩
    · refine ⟨rfl, .inl ?_⟩
      simp only [transit, inTransit]
      simp
      omega
  case addingId.go job =>
    cases h
    refine ⟨rfl, ?_⟩
    by_cases ho : job.task ∈ sh.ledger.outstanding
    · exact .inr ⟨⟨job, rfl, ho⟩, by simp [transit, inTransit, ho]⟩
    · refine .inl ?_
      simp [transit, inTransit, ho]
      omega
  case storing.go job =>
    cases h
    refine ⟨rfl, .inl (quiet rfl ?_ rfl ?_)⟩
    · dsimp only
      split <;> rfl
    · unfold Ledger.store
      split <;> rfl
  case releasing.go t k =>
    split at h <;> cases h
    · rename_i ho
      refine ⟨rfl, .inl ?_⟩
      have := Finset.card_erase_add_one ho
      simp only [transit, inTransit]
      simp
      omega
    · exact ⟨rfl, .inl (quiet rfl (onward_settled (afterRelease_onward ..)) rfl rfl)⟩
  case givingBack.go t k =>
    rw [if_pos (room t k rfl)] at h
    cases h
    refine ⟨rfl, .inl ?_⟩
    have hafter : transit (afterRelease a t k) = 0 :=
      transit_eq_zero (onward_settled (afterRelease_onward ..))
    have hbefore : transit (.givingBack t k) = 1 := rfl
    rw [hbefore, hafter]
    dsimp only
    omega
  case tracing.go k event =>
    cases h
    exact ⟨rfl, .inl (quiet rfl (by cases k <;> rfl) rfl rfl)⟩
  case waitChecking.go q d =>
    cases h
    exact ⟨rfl, .inl (quiet rfl (look_of q _ _ _ (fun _ hp => onward_settled (resumed_onward hp))
      rfl fun _ => rfl) rfl rfl)⟩
  case notifying.go n =>
    cases h
    exact ⟨rfl, .inl (quiet rfl (onward_settled (afterNotify_onward ..)) rfl (by cases n <;> rfl))⟩
  all_goals repeat' split at h
  all_goals cases h
  all_goals first
    | exact ⟨rfl, .inl (quiet rfl rfl rfl rfl)⟩
    | (refine ⟨rfl, .inl (quiet rfl (onward_settled ?_) rfl rfl)⟩; simp [resumed_onward])

theorem balanced_turn (h : Balanced s) (hx : act s.shared a (s.pc a) c = some x)
    (fresh : ∀ job, s.pc a = .addingId job → job.task ∉ s.shared.ledger.outstanding) :
    Balanced (s.goto a x) := by
  obtain ⟨hc, hf | ⟨⟨job, hp, ho⟩, _⟩⟩ := turn_slots hx fun t k hp =>
    h.room (a := a) (by rw [hp]; rfl)
  · exact h.goto hc hf
  · exact absurd ho (fresh job hp)

/-- Whatever ids are submitted, slots are never given back above the bound. -/
def Within (s : State ι) : Prop :=
  ∃ moving : Finset (Thread ι), (∀ a, a ∈ moving ↔ inTransit (s.pc a) = true) ∧
    s.shared.free + s.shared.ledger.outstanding.card + moving.card ≤
      s.shared.config.maxOutstandingTasks

omit [DecidableEq ι] in
theorem Within.room (h : Within s) (ht : inTransit (s.pc a) = true) :
    s.shared.free < s.shared.config.maxOutstandingTasks := by
  obtain ⟨moving, hm, hsum⟩ := h
  have : 0 < moving.card := Finset.card_pos.mpr ⟨a, (hm a).mpr ht⟩
  omega

theorem Within.goto (h : Within s) (hc : x.1.config = s.shared.config)
    (hf : x.1.free + x.1.ledger.outstanding.card + transit x.2 ≤
      s.shared.free + s.shared.ledger.outstanding.card + transit (s.pc a)) :
    Within (s.goto a x) := by
  obtain ⟨moving, hm, hsum⟩ := h
  obtain ⟨moving', hm', hcard⟩ := moving_goto hm a x
  refine ⟨moving', hm', ?_⟩
  rw [goto_shared, hc]
  omega

omit [DecidableEq ι] in
theorem enter_settled (sh : Shared ι) (k : Call) : inTransit (k.enter sh).2 = false ∧
    (k.enter sh).1.config = sh.config ∧ (k.enter sh).1.free = sh.free ∧
    (k.enter sh).1.ledger.outstanding = sh.ledger.outstanding := by
  cases k with
  | stop timeout =>
    refine ⟨?_, rfl, rfl, rfl⟩
    simp only [Call.enter]
    split <;> rfl
  | _ => exact ⟨rfl, rfl, rfl, rfl⟩

theorem within_next (h : Within s) (hs : Step s e t) : Within t := by
  rcases step_cases hs with ⟨i, k, rfl, hr, rfl⟩ | ⟨a, c, x, rfl, _, hx, rfl⟩ |
    ⟨f, o, rfl, _, _, rfl⟩ | ⟨w, rfl, _, rfl⟩ | ⟨d, rfl, rfl⟩
  · obtain ⟨hset, hc, hf, ho⟩ := enter_settled s.shared k
    refine h.goto hc (Nat.le_of_eq ?_)
    rw [hf, ho, transit_eq_zero hset, transit_eq_zero (resting_settled hr)]
  · obtain ⟨hc, hf⟩ := turn_slots hx fun t k hp => h.room (a := a) (by rw [hp]; rfl)
    exact h.goto hc (by omega)
  · exact h
  · exact h
  · exact h

omit [DecidableEq ι] in
theorem within_begin (config : Config.SchedulerConfig) (b : Backend) :
    Within (begin (ι := ι) config b) := by
  refine ⟨∅, fun a => ?_, ?_⟩
  · cases a <;> simp [begin, inTransit]
  · simp [begin, created, Ledger.initial]

theorem reachable_within (h : (system ι).Reachable s) : Within s := by
  refine System.invariant (S := system ι) ?_ (fun _ _ _ hu hs => within_next hu hs) h
  rintro s ⟨config, b, _, rfl⟩
  exact within_begin config b

/-! ## Whole runs -/

/-- When the duplicate check runs for a task that was accepted, or known before, its record
is still stored. -/
def Single (s : State ι) : Event ι → Prop
  | .step a .go => ∀ job, s.pc a = .checkingDuplicate job →
      job.task ∈ s.shared.ledger.accepted ∨ job.task ∈ s.shared.ledger.foreign →
      s.shared.ledger.record job.task ≠ none
  | _ => True

structure Accounts (s : State ι) : Prop where
  staged : ∃ stage, Staged s stage
  balanced : Balanced s

theorem accounts_next (hex : Exclusive s) (hc : Control s) (h : Accounts s)
    (hs : Step s e t) (single : Single s e) : Accounts t := by
  obtain ⟨⟨stage, hst⟩, hb⟩ := h
  have hw := hst.wellformed
  rcases step_cases hs with ⟨i, k, rfl, hr, rfl⟩ | ⟨a, c, x, rfl, _, hx, rfl⟩ |
    ⟨f, o, rfl, _, hn, rfl⟩ | ⟨w, rfl, _, rfl⟩ | ⟨d, rfl, rfl⟩
  · have light : Light (.client i) (k.enter s.shared).2 := by
      cases k with
      | stop timeout =>
        simp only [Call.enter]
        split <;> exact ⟨fun _ => rfl, rfl, rfl, rfl⟩
      | _ => exact ⟨fun _ => rfl, rfl, rfl, rfl⟩
    obtain ⟨settled, hconf, hfree, hout⟩ := enter_settled s.shared k
    have before : Light (.client i) (s.pc (.client i)) := resting_light hr
    refine ⟨⟨stage, hst.calm ((light.duty _).trans (before.duty _).symm) ?_
      (quiet_next hex hc hs) (hst.ready_same (light.todo.trans before.todo.symm) light.copied
        light.fetched) fun _ he => (by cases he)⟩, hb.goto hconf ?_⟩
    · cases k with
      | submit job =>
        exact ⟨fun u => { Keeps.refl s.shared.ledger u with }, hw, rfl, rfl, le_rfl,
          fun _ => ⟨rfl, fun _ => rfl⟩⟩
      | _ => exact .refl hw
    · rw [hfree, hout, transit_eq_zero settled, transit_eq_zero (resting_settled hr)]
  · have turn : Turn s stage a (s.pc a) x := by
      refine ⟨rfl, hst, hex, hc, quiet_next hex hc hs, ?_⟩
      rintro f rfl
      exact called_of_act hst hx
    refine ⟨?_, balanced_turn hb hx fun job hp => ?_⟩
    · cases c with
      | go =>
        refine staged_go turn (hex.placed a) (fun job hp hr => ?_) (fun t k hp => ?_) hx
        · exact not_or.mp fun hk => single job hp hk hr
        · exact hb.room (a := a) (by rw [hp]; rfl)
      | raises e => exact staged_raises turn hx
      | timeout => exact staged_expires turn hx
    · exact (hst.level (a := a) (t := job.task) (l := .slotted) (by rw [hp]; rfl)).2
  · exact ⟨⟨stage, hst.still rfl (resolve_spares hw hn o) (quiet_next hex hc hs)⟩, hb⟩
  · exact ⟨⟨stage, hst.still rfl (.refl hw) (quiet_next hex hc hs)⟩, hb⟩
  · exact ⟨⟨stage, hst.still rfl (.refl hw) (quiet_next hex hc hs)⟩, hb⟩

/-! ## The start -/

/-- Before the scheduler does anything the backend's own tasks are queued or none of its
business. -/
def firstStage (b : Backend) (t : TaskId) : Stage ι :=
  if t ∈ b.queued then .queued
  else if t ∈ b.records.keys then .spent
  else .absent

omit [DecidableEq ι] in
theorem initial_mine {b : Backend} {u : TaskId} (h : u ∈ (Ledger.initial b).foreign) :
    Mine (Ledger.initial b) u ∧ Owed (Ledger.initial b) u := by
  refine ⟨⟨?_, ?_⟩, ?_⟩
  · exact ⟨fun ha => absurd ha (Finset.notMem_empty u), fun hf => absurd h hf⟩
  · rw [if_pos h]
    rfl
  · exact ⟨fun ha => absurd ha (Finset.notMem_empty u), fun hf => absurd h hf⟩

omit [DecidableEq ι] in
theorem firstStage_fact (b : Backend) (u : TaskId) :
    (firstStage (ι := ι) b u).Fact (Ledger.initial b) u := by
  have known : u ∈ (Ledger.initial b).foreign ↔ u ∈ b.records.keys ∨ u ∈ b.queued := by
    simp [Ledger.initial]
  have unlaunched : Unlaunched (Ledger.initial b) u := fun f hf => absurd hf (Nat.not_lt_zero f)
  unfold firstStage
  split
  · rename_i hq
    obtain ⟨mine, owed⟩ := initial_mine (known.mpr (.inr hq))
    refine ⟨hq, ?_⟩
    by_cases hp : ∃ r, b.records.get? u = some r ∧ r.status = .pending
    · obtain ⟨r, hr, hs⟩ := hp
      refine .inl ⟨⟨r, hr, hs⟩, ?_, rfl, unlaunched, mine, owed⟩
      simp [Ledger.initial, Backend.get, hr, hs]
    · exact .inr ⟨known.mpr (.inr hq), Finset.notMem_empty u, fun r hr hs => hp ⟨r, hr, hs⟩, rfl,
        mine⟩
  · rename_i hq
    split
    · rename_i hk
      exact ⟨Finset.notMem_empty u,
        .inr ⟨known.mpr (.inl hk), rfl, (initial_mine (known.mpr (.inl hk))).1⟩⟩
    · rename_i hk
      have hn : b.records.get? u = none := Dict.get?_eq_none.mpr hk
      refine ⟨⟨hn, hq, ?_, Finset.notMem_empty u, rfl, ?_, rfl, unlaunched⟩, Finset.notMem_empty u⟩
      · rw [known]
        exact not_or.mpr ⟨hk, hq⟩
      · simp [Ledger.initial, Backend.get, hn]

omit [DecidableEq ι] in
theorem accounts_begin (config : Config.SchedulerConfig) {b : Backend} (h : Usable b) :
    Accounts (begin (ι := ι) config b) := by
  have idle : ∀ a : Thread ι, duty (Ledger.initial b) a ((begin config b).pc a) = none ∧
      todo ((begin config b).pc a) = [] ∧ copied ((begin config b).pc a) = ∅ ∧
      requestFound ((begin config b).pc a) = true := by
    intro a
    cases a <;> exact ⟨rfl, rfl, rfl, rfl⟩
  refine ⟨⟨firstStage b, fun a u l => ?_, firstStage_fact b, h.wellformed, h.queued_nodup,
    fun u hu => .inl (if_pos hu), fun a => ?_, fun a u hu => ?_, fun a u hu => ?_,
    fun a => (idle a).2.2.2, fun f hf => absurd rfl hf, fun f _ => rfl⟩, ∅, fun a => ?_, ?_⟩
  · rw [show (begin config b).shared.ledger = Ledger.initial b from rfl, (idle a).1]
    refine ⟨nofun, fun hs => ?_⟩
    unfold firstStage at hs
    repeat' split at hs
    all_goals cases hs
  · rw [(idle a).2.1]
    exact List.nodup_nil
  · rw [(idle a).2.1] at hu
    exact absurd hu List.not_mem_nil
  · rw [(idle a).2.2.1] at hu
    exact absurd hu (Finset.notMem_empty u)
  · cases a <;> simp [begin, inTransit]
  · simp [begin, created, Ledger.initial]

theorem single_exclusive (h : ((system ι).restrict Single).Reachable s) : Exclusive s :=
  reachable_exclusive (System.restrict_reachable h)

theorem single_control (h : ((system ι).restrict Single).Reachable s) : Control s :=
  reachable_control (System.restrict_reachable h)

theorem reachable_accounts (h : ((system ι).restrict Single).Reachable s) : Accounts s := by
  refine System.invariant_reachable ?_ (fun _ _ _ hr hs hst =>
    accounts_next (single_exclusive hr) (single_control hr) hs hst.2 hst.1) h
  rintro s ⟨config, b, hb, rfl⟩
  exact accounts_begin config hb

end

end SchedulerAccounts
