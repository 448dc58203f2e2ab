import Infly.SchedulerLocks

/-! # Starting and stopping the scheduler

What each thread's program counter says about the flags, the thread list and the worker
threads.
-/
namespace SchedulerControl

open Contracts TaskBackend SchedulerState SchedulerModel SchedulerLocks Transitions

inductive Zone where
  | plain | opening | launching (k : ℕ) | stopping | sweeping
  | unstarted | exiting | removing | leaving | exited
  deriving DecidableEq

def contZone : Cont → Zone
  | .rollback _ => .opening
  | .sweep _ _ => .sweeping
  | _ => .plain

def reportZone : Report → Zone
  | .submitted _ => .opening
  | _ => .plain

def noticeZone : Notice → Zone
  | .submitted _ => .opening
  | .stopping _ _ => .stopping
  | .finished _ _ => .plain
  | .swept _ => .sweeping

def zone : Pc → Zone
  | .startChecking _ | .spawning _ _ | .checkingDuplicate _ | .acquiringSlot _ | .addingId _
  | .storing _ => .opening
  | .launching _ _ k => .launching k
  | .reporting k | .tracing k _ => reportZone k
  | .releasing _ c | .givingBack _ c | .resolving _ c | .scheduling _ _ c => contZone c
  | .notifying n => noticeZone n
  | .snapshotting _ | .closingStrategy _ _ | .joining _ _ _ | .filtering => .stopping
  | .listingIds | .listingRecords _ | .sweeping _ _ _ => .sweeping
  | .unstarted => .unstarted
  | .exiting => .exiting
  | .removing => .removing
  | .leaving => .leaving
  | .exited => .exited
  | _ => .plain

variable {ι : Type} {a : Thread ι}

/-- No other worker of the list is alive. -/
def Last (s : Shared ι) (k : ℕ) : Prop := ∀ j ∈ s.threads, j = k ∨ s.worker j ≠ .running

def Fact (s : Shared ι) : Thread ι → Zone → Prop
  | .client _, .opening => s.closed = false
  | .client _, .launching k => s.closed = false ∧ k ∈ s.threads ∧ s.worker k = .unstarted
  | .client _, .stopping => s.closed = true
  | .client _, .sweeping => s.closed = true ∧ s.threads = []
  | .worker k, .unstarted => s.worker k ≠ .ended ∧ (s.worker k = .running → k ∈ s.threads)
  | .worker k, .plain | .worker k, .exiting => s.worker k = .running ∧ k ∈ s.threads
  | .worker k, .sweeping | .worker k, .removing =>
    s.worker k = .running ∧ k ∈ s.threads ∧ s.closed = true ∧ Last s k
  | .worker k, .leaving => s.worker k = .running
  | .worker k, .exited => s.worker k = .ended
  | _, _ => True

structure Control (s : State ι) : Prop where
  stop : s.shared.stop = s.shared.closed
  accepting : s.shared.accepting = !s.shared.closed
  nodup : s.shared.threads.Nodup
  numbered : ∀ k ∈ s.shared.threads, k < s.shared.nextThread
  unused : ∀ k, s.shared.nextThread ≤ k → s.shared.worker k = .unstarted
  facts : ∀ a, Fact s.shared a (zone (s.pc a))

/-! ## Zones of the program counters that come next -/

theorem resting_zone {p : Pc} (h : p.resting = true) : zone p = .plain := by
  cases p <;> first | rfl | cases h

@[simp] theorem fail_zone (q : Query) (e : PlatformError) : zone (q.fail e) = .plain :=
  resting_zone (fail_resting q e)

@[simp] theorem respond_zone (q : Query) (r : TaskQueryResponse) : zone (q.respond r) = .plain :=
  resting_zone (respond_resting q r)

@[simp] theorem query_escape_zone (q : Query) (e : Raised) : zone (q.escape e) = .plain :=
  resting_zone (escape_resting q e)

@[simp] theorem start_zone (q : Query) (now : ℕ) : zone (q.start now) = .plain := by
  unfold Query.start
  repeat' split
  all_goals first
    | rfl
    | exact fail_zone ..

@[simp] theorem look_zone (q : Query) (now : ℕ) (d : Option ℕ) (r : Option TaskRecord) :
    zone (q.look now d r) = .plain := by
  unfold Query.look
  repeat' split
  all_goals first
    | rfl
    | exact fail_zone ..

@[simp] theorem joinFrom_zone (d : ℕ) (ks : List ℕ) : zone (joinFrom d ks) = .stopping := by
  cases ks <;> rfl

@[simp] theorem followUp_zone (job : Job) : zone job.followUp = .plain := by
  unfold Job.followUp
  split <;> rfl

@[simp] theorem next_zone (k : Report) : zone k.next = reportZone k := by cases k <;> rfl

@[simp] theorem report_escape_zone (e : Raised) (k : Report) : zone (k.escape e) = .plain := by
  cases k with
  | ended t m request => cases m <;> rfl
  | _ => rfl

@[simp] theorem ender_escape_zone (t : TaskId) (e : Raised) (m : Ender) :
    zone (m.escape t e) = .plain := by cases m <;> rfl

/-- Clients outside plain code hold the lifecycle lock. -/
theorem client_lifecycle {p : Pc} {i : ι} (hp : runsOn (.client i) p = true)
    (h : zone p ≠ .plain) : .lifecycle ∈ p.locks (.client i) := by
  cases p
  case reporting k | tracing k _ | releasing _ k | givingBack _ k | resolving _ k |
      scheduling _ _ k | notifying k =>
    cases k <;> first
      | exact absurd rfl h
      | exact List.mem_singleton.mpr rfl
  all_goals first
    | exact absurd rfl h
    | exact List.mem_singleton.mpr rfl
    | cases hp

theorem Fact.congr {s s' : Shared ι} {z : Zone} (hc : s'.closed = s.closed)
    (ht : s'.threads = s.threads) (hw : s'.worker = s.worker) (h : Fact s a z) : Fact s' a z := by
  cases a <;> cases z <;> simp_all [Fact, Last]

/-- What keeps the facts of worker `j` when another thread changes the list. -/
theorem Fact.worker {s s' : Shared ι} {j : ℕ} {z : Zone} (h : Fact s (.worker j) z)
    (life : s'.worker j = s.worker j)
    (listed : s.worker j = .running → j ∈ s.threads → j ∈ s'.threads)
    (last : s.closed = true → Last s j → s'.closed = true ∧ Last s' j) :
    Fact s' (.worker j) z := by
  cases z with
  | unstarted => exact ⟨life ▸ h.1, fun hr => listed (life ▸ hr) (h.2 (life ▸ hr))⟩
  | plain => exact ⟨life ▸ h.1, listed h.1 h.2⟩
  | exiting => exact ⟨life ▸ h.1, listed h.1 h.2⟩
  | sweeping => exact ⟨life ▸ h.1, listed h.1 h.2.1, last h.2.2.1 h.2.2.2⟩
  | removing => exact ⟨life ▸ h.1, listed h.1 h.2.1, last h.2.2.1 h.2.2.2⟩
  | leaving => exact life.trans h
  | exited => exact life.trans h
  | _ => trivial

/-- A worker thread that was not started waits for its start. -/
theorem Fact.start {s s' : Shared ι} {j : ℕ} {z : Zone} (h : Fact s (.worker j) z)
    (hu : s.worker j = .unstarted) (hr : s'.worker j = .running) (hj : j ∈ s'.threads) :
    Fact s' (.worker j) z := by
  cases z with
  | unstarted => exact ⟨by rw [hr]; decide, fun _ => hj⟩
  | plain => exact absurd (h.1.symm.trans hu) (by decide)
  | exiting => exact absurd (h.1.symm.trans hu) (by decide)
  | sweeping => exact absurd (h.1.symm.trans hu) (by decide)
  | removing => exact absurd (h.1.symm.trans hu) (by decide)
  | leaving => exact absurd (h.symm.trans hu) (by decide)
  | exited => exact absurd (h.symm.trans hu) (by decide)
  | _ => trivial

theorem Last.mono {s s' : Shared ι} {k : ℕ} (h : Last s k)
    (threads : ∀ j ∈ s'.threads, j ∈ s.threads)
    (life : ∀ j, s.worker j ≠ .running → s'.worker j ≠ .running) : Last s' k :=
  fun j hj => (h j (threads j hj)).imp_right (life j)

/-- Worker `k` leaves the list, or ends. -/
theorem Fact.others_of_worker {s s' : Shared ι} {k : ℕ} {z : Zone} (hr : s.worker k = .running)
    (closed : s'.closed = s.closed) (sub : ∀ j ∈ s'.threads, j ∈ s.threads)
    (kept : ∀ j, j ≠ k → j ∈ s.threads → j ∈ s'.threads)
    (life : ∀ j, j ≠ k → s'.worker j = s.worker j) (hb : a ≠ .worker k) (h : Fact s a z) :
    Fact s' a z := by
  cases a with
  | client i =>
    cases z with
    | opening => exact closed.trans h
    | launching j =>
      have hj : j ≠ k := fun he => absurd (h.2.2.symm.trans (he ▸ hr)) (by decide)
      exact ⟨closed.trans h.1, kept j hj h.2.1, (life j hj).trans h.2.2⟩
    | stopping => exact closed.trans h
    | sweeping =>
      refine ⟨closed.trans h.1, List.eq_nil_iff_forall_not_mem.mpr fun j hj => ?_⟩
      exact List.not_mem_nil (h.2 ▸ sub j hj)
    | _ => trivial
  | worker j =>
    have hj : j ≠ k := fun he => hb (he ▸ rfl)
    refine h.worker (life j hj) (fun _ => kept j hj) fun hcl hl =>
      ⟨closed.trans hcl, hl.mono sub fun m hm => ?_⟩
    rw [life m fun he => hm (he ▸ hr)]
    exact hm
  | callback f => trivial

theorem Fact.afterRelease {s : Shared ι} {t : TaskId} {k : Cont} (hm : mayRelease a k = true)
    (h : Fact s a (contZone k)) : Fact s a (zone (afterRelease a t k)) := by
  cases k with
  | rollback e =>
    obtain ⟨i, rfl⟩ := isClient_iff.mp hm
    trivial
  | coroutine q => cases hm
  | _ => exact h

theorem Fact.afterSweep {s : Shared ι} (h : Fact s a .sweeping) :
    Fact s a (zone (afterSweep a)) := by
  cases a with
  | worker k => exact h
  | _ => trivial

theorem Fact.abortSweep {s : Shared ι} (h : Fact s a .sweeping) (e : Raised) :
    Fact s a (zone (abortSweep e a)) := by
  cases a with
  | worker k => exact h.1
  | _ => trivial

theorem Fact.sweepFrom {s : Shared ι} (h : Fact s a .sweeping) (done rest : List TaskId) :
    Fact s a (zone (sweepFrom a done rest)) := by
  rcases sweepFrom_cases a done rest with ⟨_, _, hp⟩ | ⟨_, _, hp⟩ | ⟨t, rest', _, hp⟩
  · exact hp ▸ h.afterSweep
  · exact hp ▸ h
  · exact hp ▸ h

theorem Fact.home {s : Shared ι} {m : Ender} (hm : mayEnd a m = true) (h : Fact s a .plain) :
    Fact s a (zone (home a)) := by
  cases a with
  | worker k => exact h
  | _ => trivial

theorem Fact.afterOverRelease {s : Shared ι} {t : TaskId} {k : Cont}
    (hm : mayRelease a k = true) (h : Fact s a (contZone k)) :
    Fact s a (zone (afterOverRelease a t k)) := by
  cases k with
  | rollback e =>
    obtain ⟨i, rfl⟩ := isClient_iff.mp hm
    trivial
  | finish m =>
    cases m with
    | failTask e => exact h
    | workerLoop e => cases a <;> exact h
    | completeTask o => exact Fact.home (m := .completeTask o) hm h
  | sweep done rest => exact h.abortSweep _
  | coroutine q => cases hm

theorem Fact.afterResolve {s : Shared ι} {t : TaskId} {k : Cont} (hm : mayResolve a k = true)
    (h : Fact s a (contZone k)) : Fact s a (zone (afterResolve a t k)) := by
  cases k with
  | rollback e => cases hm
  | finish m => exact Fact.home hm h
  | sweep done rest => exact h.sweepFrom _ _
  | coroutine q => exact h

theorem Fact.afterNotify {s : Shared ι} {now : ℕ} {n : Notice} (hm : noticeOn a n = true)
    (h : Fact s a (noticeZone n)) : Fact s a (zone (afterNotify now a n)) := by
  cases n with
  | submitted job =>
    obtain ⟨i, rfl⟩ := isClient_iff.mp hm
    rw [SchedulerModel.afterNotify, followUp_zone]
    trivial
  | stopping timeout workers => rwa [SchedulerModel.afterNotify, joinFrom_zone]
  | finished t m => exact h
  | swept done => exact h.afterSweep

section

variable [DecidableEq ι] {s t : State ι} {e : Event ι} {c : Choice} {x : Shared ι × Pc}

theorem Control.goto (hs : x.1.stop = x.1.closed) (ha : x.1.accepting = !x.1.closed)
    (hn : x.1.threads.Nodup) (hk : ∀ k ∈ x.1.threads, k < x.1.nextThread)
    (hu : ∀ k, x.1.nextThread ≤ k → x.1.worker k = .unstarted) (own : Fact x.1 a (zone x.2))
    (others : ∀ b, b ≠ a → Fact x.1 b (zone (s.pc b))) : Control (s.goto a x) where
  stop := hs
  accepting := ha
  nodup := hn
  numbered := hk
  unused := hu
  facts b := by
    by_cases hb : b = a
    · subst hb
      simpa [State.goto] using own
    · simpa [State.goto, hb] using others b hb

/-- The same flags, list and worker threads. -/
structure Same (s s' : Shared ι) : Prop where
  stop : s'.stop = s.stop
  accepting : s'.accepting = s.accepting
  closed : s'.closed = s.closed
  threads : s'.threads = s.threads
  nextThread : s'.nextThread = s.nextThread
  worker : s'.worker = s.worker

theorem Control.quiet (h : Control s) (same : Same s.shared x.1)
    (own : Fact s.shared a (zone x.2)) : Control (s.goto a x) := by
  refine .goto ?_ ?_ ?_ ?_ ?_ (own.congr same.closed same.threads same.worker) fun b _ =>
    (h.facts b).congr same.closed same.threads same.worker
  · rw [same.stop, same.closed, h.stop]
  · rw [same.accepting, same.closed, h.accepting]
  · exact same.threads ▸ h.nodup
  · rw [same.threads, same.nextThread]
    exact h.numbered
  · rw [same.worker, same.nextThread]
    exact h.unused

omit [DecidableEq ι] in
theorem clients_plain (h : Exclusive s)
    (hl : .lifecycle ∈ (s.pc a).locks a ∨ s.locks .lifecycle = none) {j : ι}
    (hj : .client j ≠ a) : zone (s.pc (.client j)) = .plain := by
  by_contra hz
  have hm := client_lifecycle (h.placed _) hz
  rcases hl with hl | hl
  · exact hj (h.unique hm hl)
  · rw [(h.held _ _).mpr hm] at hl
    cases hl

omit [DecidableEq ι] in
/-- While one client is in the lifecycle lock the others' facts are about workers only. -/
theorem others_of_workers (h : Exclusive s) {u : Shared ι}
    (hl : .lifecycle ∈ (s.pc a).locks a ∨ s.locks .lifecycle = none)
    (workers : ∀ k, Fact u (.worker k) (zone (s.pc (.worker k)))) (b : Thread ι)
    (hb : b ≠ a) : Fact u b (zone (s.pc b)) := by
  cases b with
  | client j =>
    rw [clients_plain h hl hb]
    trivial
  | worker k => exact workers k
  | callback f => trivial

theorem control_client {i : ι} (h : Exclusive s) (hc : Control s)
    (hn : ∀ l ∈ (s.pc (.client i)).needs, s.locks l = none)
    (hx : act s.shared (.client i) (s.pc (.client i)) c = some x) :
    Control (s.goto (.client i) x) := by
  have own := hc.facts (.client i)
  have hp := h.placed (.client i)
  have workers := fun k => hc.facts (.worker k)
  have others {s' : Shared ι} := others_of_workers (a := .client i) h (u := s')
  generalize s.pc (.client i) = p at hx own hp hn others
  have open_ {q} (hz : zone q = .plain) : Fact s.shared (.client i) (zone q) := by
    rw [hz]
    trivial
  cases c with
  | go =>
    cases p <;> simp only [act, advance] at hx
    all_goals try exact absurd hp Bool.false_ne_true
    case starting job =>
      cases hx
      refine hc.quiet ⟨rfl, rfl, rfl, rfl, rfl, rfl⟩ ?_
      dsimp only
      split
      · trivial
      · rename_i hcl
        exact Bool.eq_false_iff.mpr hcl
    case startChecking job =>
      have hcl : s.shared.closed = false := own
      split at hx <;> cases hx
      · exact .goto hcl.symm hc.accepting hc.nodup hc.numbered hc.unused hcl
          (others (.inl (List.mem_singleton.mpr rfl)) fun k => (workers k).congr rfl rfl rfl)
      · exact hc.quiet ⟨rfl, rfl, rfl, rfl, rfl, rfl⟩ trivial
    case spawning job index =>
      have hcl : s.shared.closed = false := own
      cases hx
      refine .goto hc.stop hc.accepting ?_ ?_ (fun k hk => hc.unused k (Nat.le_of_succ_le hk))
        ⟨hcl, by simp, hc.unused _ le_rfl⟩
        (others (.inl (List.mem_singleton.mpr rfl)) fun j => ?_)
      · rw [List.nodup_append]
        refine ⟨hc.nodup, List.nodup_singleton _, fun j hj m hm he => ?_⟩
        rw [List.mem_singleton.mp hm] at he
        exact absurd (hc.numbered j hj) (he ▸ Nat.lt_irrefl _)
      · intro j hj
        rcases List.mem_append.mp hj with hj | hj
        · exact Nat.lt_succ_of_lt (hc.numbered j hj)
        · rw [List.mem_singleton.mp hj]
          exact Nat.lt_succ_self _
      · exact (workers j).worker rfl (fun _ hj => List.mem_append_left _ hj) fun h =>
          absurd (h.symm.trans hcl) (by decide)
    case launching job index k =>
      obtain ⟨hcl, hk, hw⟩ :
        s.shared.closed = false ∧ k ∈ s.shared.threads ∧ s.shared.worker k = .unstarted := own
      cases hx
      refine .goto hc.stop hc.accepting hc.nodup hc.numbered (fun j hj => ?_) ?_
        (others (.inl (List.mem_singleton.mpr rfl)) fun j => ?_)
      · have hne : j ≠ k := fun he => absurd (hc.numbered k hk) (he ▸ Nat.not_lt.mpr hj)
        simpa [hne] using hc.unused j hj
      · dsimp only
        split
        · exact hcl
        · trivial
      · by_cases he : j = k
        · subst he
          exact (workers j).start hw (by simp) hk
        · exact (workers j).worker (by simp [he]) (fun _ hj => hj) fun h =>
            absurd (h.symm.trans hcl) (by decide)
    case submitting job =>
      cases hx
      refine hc.quiet ⟨rfl, rfl, rfl, rfl, rfl, rfl⟩ ?_
      dsimp only
      split
      · rename_i hacc
        rw [hc.accepting] at hacc
        exact (Bool.not_eq_true' _).mp hacc
      · trivial
    case stopping timeout =>
      cases hx
      exact .goto rfl rfl hc.nodup hc.numbered hc.unused rfl
        (others (.inr (hn _ (List.mem_singleton.mpr rfl))) fun j =>
          (workers j).worker rfl (fun _ hj => hj) fun _ h => ⟨rfl, h⟩)
    case filtering =>
      have hcl : s.shared.closed = true := own
      cases hx
      refine .goto hc.stop hc.accepting (hc.nodup.filter _)
        (fun k hk => hc.numbered k (List.mem_filter.mp hk).1) hc.unused ?_
        (others (.inl (List.mem_singleton.mpr rfl)) fun j => ?_)
      · dsimp only
        split
        · rename_i he
          exact ⟨hcl, he⟩
        · trivial
      · exact (workers j).worker rfl (fun hr hj => List.mem_filter.mpr ⟨hj, by simpa using hr⟩)
          fun hcl h => ⟨hcl, h.mono (fun _ hj => (List.mem_filter.mp hj).1) fun _ h => h⟩
    case tracing k event =>
      cases hx
      exact hc.quiet ⟨rfl, rfl, rfl, rfl, rfl, rfl⟩ ((next_zone k).symm ▸ own)
    case joining deadline k rest =>
      split at hx <;> cases hx
      · exact hc.quiet ⟨rfl, rfl, rfl, rfl, rfl, rfl⟩ trivial
      · exact hc.quiet ⟨rfl, rfl, rfl, rfl, rfl, rfl⟩ ((joinFrom_zone ..).symm ▸ own)
    all_goals repeat' split at hx
    all_goals cases hx
    all_goals refine hc.quiet ⟨rfl, rfl, rfl, rfl, rfl, rfl⟩ ?_
    all_goals first
      | exact own
      | trivial
      | exact own.afterRelease hp
      | exact own.afterOverRelease hp
      | exact own.afterResolve hp
      | exact own.afterNotify hp
      | exact own.sweepFrom _ _
      | exact own.abortSweep _
      | (refine open_ ?_; simp)
  | raises e =>
    cases p <;> simp only [act, throwing] at hx
    all_goals repeat' split at hx
    all_goals cases hx
    all_goals refine hc.quiet ⟨rfl, rfl, rfl, rfl, rfl, rfl⟩ ?_
    all_goals first
      | exact own
      | trivial
      | exact own.abortSweep _
      | exact open_ (report_escape_zone ..)
      | exact open_ (query_escape_zone ..)
  | timeout =>
    cases p <;> simp only [act, expire] at hx
    all_goals repeat' split at hx
    all_goals cases hx
    all_goals refine hc.quiet ⟨rfl, rfl, rfl, rfl, rfl, rfl⟩ ?_
    all_goals first
      | trivial
      | exact (joinFrom_zone ..).symm ▸ own

theorem control_worker {k : ℕ} (h : Exclusive s) (hc : Control s)
    (hx : act s.shared (.worker k) (s.pc (.worker k)) c = some x) :
    Control (s.goto (.worker k) x) := by
  have own := hc.facts (.worker k)
  have hp := h.placed (.worker k)
  generalize s.pc (.worker k) = p at hx own hp
  cases c with
  | go =>
    cases p <;> simp only [act, advance] at hx
    all_goals try exact absurd hp Bool.false_ne_true
    case unstarted =>
      obtain ⟨_, hl⟩ : s.shared.worker k ≠ .ended ∧
        (s.shared.worker k = .running → k ∈ s.shared.threads) := own
      split at hx <;> cases hx
      rename_i hr
      exact hc.quiet ⟨rfl, rfl, rfl, rfl, rfl, rfl⟩ ⟨hr, hl hr⟩
    case tracing r event =>
      cases hx
      exact hc.quiet ⟨rfl, rfl, rfl, rfl, rfl, rfl⟩ ((next_zone r).symm ▸ own)
    case sweeping t done rest =>
      cases hx
      refine hc.quiet ⟨rfl, rfl, rfl, rfl, rfl, rfl⟩ ?_
      dsimp only
      split
      · exact own
      · exact Fact.abortSweep own _
    case updating t m request =>
      cases hx
      refine hc.quiet ⟨rfl, rfl, rfl, rfl, rfl, rfl⟩ ?_
      dsimp only
      split
      · exact (ender_escape_zone ..).symm ▸ own
      · exact own
      · exact own
    case exiting =>
      obtain ⟨hr, hk⟩ : s.shared.worker k = .running ∧ k ∈ s.shared.threads := own
      split at hx <;> cases hx
      · rename_i hl
        rw [Bool.and_eq_true, List.all_eq_true] at hl
        refine hc.quiet ⟨rfl, rfl, rfl, rfl, rfl, rfl⟩ ⟨hr, hk, hc.stop ▸ hl.1, fun j hj => ?_⟩
        simpa using hl.2 j hj
      · exact .goto hc.stop hc.accepting (hc.nodup.erase k)
          (fun j hj => hc.numbered j (List.mem_of_mem_erase hj)) hc.unused hr fun b hb =>
          (hc.facts b).others_of_worker hr rfl (fun _ => List.mem_of_mem_erase)
            (fun j hj => (List.mem_erase_of_ne hj).mpr) (fun _ _ => rfl) hb
    case removing =>
      cases hx
      exact .goto hc.stop hc.accepting (hc.nodup.erase k)
        (fun j hj => hc.numbered j (List.mem_of_mem_erase hj)) hc.unused own.1 fun b hb =>
        (hc.facts b).others_of_worker own.1 rfl (fun _ => List.mem_of_mem_erase)
          (fun j hj => (List.mem_erase_of_ne hj).mpr) (fun _ _ => rfl) hb
    case leaving =>
      have hr : s.shared.worker k = .running := own
      cases hx
      refine .goto hc.stop hc.accepting hc.nodup hc.numbered (fun j hj => ?_)
        (Function.update_self ..) fun b hb => (hc.facts b).others_of_worker hr rfl (fun _ hj => hj)
          (fun _ _ hj => hj) (fun j hj => Function.update_of_ne hj ..) hb
      have hne : j ≠ k := fun he =>
        absurd ((hc.unused j hj).symm.trans (he ▸ hr)) (by decide)
      simpa [hne] using hc.unused j hj
    all_goals repeat' split at hx
    all_goals cases hx
    all_goals refine hc.quiet ⟨rfl, rfl, rfl, rfl, rfl, rfl⟩ ?_
    all_goals first
      | exact own
      | exact own.afterRelease hp
      | exact own.afterOverRelease hp
      | exact own.afterResolve hp
      | exact own.afterNotify hp
      | exact own.sweepFrom _ _
  | raises e =>
    cases p <;> simp only [act, throwing] at hx
    all_goals try exact absurd hp Bool.false_ne_true
    all_goals repeat' split at hx
    all_goals cases hx
    all_goals refine hc.quiet ⟨rfl, rfl, rfl, rfl, rfl, rfl⟩ ?_
    case raises.tracing.refl r _ =>
      cases r with
      | submitted job => exact absurd hp Bool.false_ne_true
      | started t request => exact own
      | ended t m request => cases m <;> exact own
    all_goals first
      | exact own
      | exact own.abortSweep e
  | timeout =>
    cases p <;> simp only [act, expire, reduceCtorEq] at hx
    all_goals exact absurd hp Bool.false_ne_true

theorem enter_control {i : ι} (hc : Control s) (k : Call) :
    Control (s.goto (.client i) (k.enter s.shared)) := by
  cases k with
  | submit job => exact hc.quiet ⟨rfl, rfl, rfl, rfl, rfl, rfl⟩ trivial
  | stop timeout =>
    refine hc.quiet ⟨rfl, rfl, rfl, rfl, rfl, rfl⟩ ?_
    simp only [Call.enter]
    split <;> trivial
  | query q => exact hc.quiet ⟨rfl, rfl, rfl, rfl, rfl, rfl⟩ trivial

theorem control_callback {f : FutureId} (h : Exclusive s) (hc : Control s)
    (hx : act s.shared (.callback f) (s.pc (.callback f)) c = some x) :
    Control (s.goto (.callback f) x) := by
  have hp := h.placed (.callback f)
  refine hc.quiet ?_ trivial
  generalize s.pc (.callback f) = p at hx hp
  cases c with
  | go =>
    cases p <;> simp only [act, advance] at hx
    all_goals try exact absurd hp Bool.false_ne_true
    all_goals repeat' split at hx
    all_goals cases hx
    all_goals exact ⟨rfl, rfl, rfl, rfl, rfl, rfl⟩
  | raises e =>
    cases p <;> simp only [act, throwing] at hx
    all_goals try exact absurd hp Bool.false_ne_true
    all_goals cases hx
    all_goals exact ⟨rfl, rfl, rfl, rfl, rfl, rfl⟩
  | timeout =>
    cases p <;> simp only [act, expire, reduceCtorEq] at hx
    all_goals exact absurd hp Bool.false_ne_true

theorem control_next (h : Exclusive s) (hc : Control s) (hs : Step s e t) : Control t := by
  rcases step_cases hs with ⟨i, k, rfl, _, rfl⟩ | ⟨a, c, x, rfl, hn, hx, rfl⟩ |
    ⟨f, o, rfl, _, _, rfl⟩ | ⟨w, rfl, _, rfl⟩ | ⟨d, rfl, rfl⟩
  · exact enter_control hc k
  · cases a with
    | client i => exact control_client h hc hn hx
    | worker k => exact control_worker h hc hx
    | callback f => exact control_callback h hc hx
  all_goals
    exact ⟨hc.stop, hc.accepting, hc.nodup, hc.numbered, hc.unused,
      fun a => (hc.facts a).congr rfl rfl rfl⟩

omit [DecidableEq ι] in
theorem control_begin (config : Config.SchedulerConfig) (b : Backend) :
    Control (begin (ι := ι) config b) where
  stop := rfl
  accepting := rfl
  nodup := List.nodup_nil
  numbered := by simp [begin, created]
  unused _ _ := rfl
  facts a := by cases a <;> simp [begin, created, zone, Fact]

theorem reachable_control (h : (system ι).Reachable s) : Control s := by
  refine System.invariant_reachable ?_ (fun _ _ _ hr hs hst =>
    control_next (reachable_exclusive hr) hs hst) h
  rintro s ⟨config, b, _, rfl⟩
  exact control_begin config b

end

end SchedulerControl
