import Infly.Reports

/-! # The order of trace events

The events of a task that the sinks have seen, against those that its statuses call for. What is
missing is still with the threads that have to tell it.
-/
namespace TraceOrder

open Contracts TaskBackend Observability SchedulerState SchedulerModel SchedulerLocks
  SchedulerLedger SchedulerStages SchedulerAccounts SchedulerRequests TaskLife Reports Transitions

/-- The names of the events of a task, in the order of their delivery. -/
def heard (trace : List TraceEvent) (t : TaskId) : List String :=
  (trace.filter (fun e => decide (e.taskId = t))).map TraceEvent.name

def submission (L : Ledger) (t : TaskId) : List String :=
  if t ∈ L.accepted then ["task.submitted"] else []

def execution : List TaskStatus → List String
  | [.pending, .running] => ["task.started"]
  | [.pending, .running, .completed] => ["task.started", "task.completed"]
  | [.pending, .running, .failed] => ["task.started", "task.failed"]
  | _ => []

/-- The events that the statuses of a task call for. -/
def due (L : Ledger) (t : TaskId) : List String := submission L t ++ execution (L.moves t)

theorem heard_append (trace : List TraceEvent) (e : TraceEvent) (t : TaskId) :
    heard (trace ++ [e]) t = heard trace t ++ if e.taskId = t then [e.name] else [] := by
  by_cases h : e.taskId = t <;> simp [heard, List.filter_append, h]

theorem execution_cases (moves : List TaskStatus) : execution moves = [] ∨
    execution moves = ["task.started"] ∨ execution moves = ["task.started", "task.completed"] ∨
    execution moves = ["task.started", "task.failed"] := by
  unfold execution
  split <;> simp

/-- What comes before an event: the submission, or for an end also the start. -/
theorem due_order {L : Ledger} {t : TaskId} {before after : List String} {m n : String}
    (h : before ++ m :: after = due L t) (hn : n ∈ after) :
    m = "task.submitted" ∧ (n = "task.started" ∨ "task.started" ∈ after) ∨
      m = "task.started" ∧ n ≠ "task.submitted" ∧ n ≠ "task.started" := by
  have members : ∀ as : List String, before ++ m :: after = as → as.length ≤ 3 →
      (before = [] ∧ as = m :: after) ∨ (∃ x, before = [x] ∧ as = x :: m :: after) ∨
      ∃ x y, before = [x, y] ∧ as = x :: y :: m :: after := by
    rintro as rfl hl
    match before with
    | [] => exact .inl ⟨rfl, rfl⟩
    | [x] => exact .inr (.inl ⟨x, rfl, rfl⟩)
    | [x, y] => exact .inr (.inr ⟨x, y, rfl, rfl⟩)
    | _ :: _ :: _ :: _ =>
      have := List.length_pos_of_mem hn
      simp only [List.length_append, List.length_cons] at hl
      omega
  unfold due submission at h
  split at h <;> rcases execution_cases (L.moves t) with he | he | he | he <;> rw [he] at h <;>
    rcases members _ h (by decide) with ⟨_, ha⟩ | ⟨x, _, ha⟩ | ⟨x, y, _, ha⟩ <;>
    simp only [List.cons_append, List.nil_append, List.cons.injEq, reduceCtorEq] at ha
  all_goals grind

theorem due_nodup (L : Ledger) (t : TaskId) : (due L t).Nodup := by
  unfold due submission
  split <;> rcases execution_cases (L.moves t) with he | he | he | he <;> rw [he] <;> decide

/-! ## What is told and what is still to be told -/

variable {ι : Type}

/-- A thread has the event of a task in hand. -/
def Telling (s : State ι) (t : TaskId) (n : String) : Prop :=
  ∃ a k, told (s.pc a) = some k ∧ reportTask k = t ∧ reportName k = n

/-- The sinks have seen the first of the events that are due, and the threads have the rest in
hand. -/
structure Ordered (s : State ι) : Prop where
  split : ∀ t, ∃ rest, heard s.shared.trace t ++ rest = due s.shared.ledger t ∧
    ∀ n, n ∈ rest ↔ Telling s t n
  event : ∀ a k event, s.pc a = .tracing k event →
    event.taskId = reportTask k ∧ event.name = reportName k

section

variable [DecidableEq ι] {s s' : State ι} {stage : TaskId → Stage ι} {a b : Thread ι}
  {p : Pc} {k : Report} {sh : Shared ι} {x : Shared ι × Pc} {c : Choice} {e : Event ι}
  {t : TaskId} {n : String}

/-- Requests are fresh, sinks do not raise, and no worker tells that a task has started while
the submit call has still to tell of it. -/
structure Announced (s : State ι) (e : Event ι) : Prop where
  fresh : Fresh s e
  sinks : ∀ a r, e = .step a (.raises r) → ∀ k event, s.pc a ≠ .tracing k event
  order : ∀ a t request event, e = .step a .go → s.pc a = .tracing (.started t request) event →
    ¬Telling s t "task.submitted"

theorem announced_fresh (h : ((system ι).restrict Announced).Reachable s) :
    ((system ι).restrict Fresh).Reachable s :=
  System.restrict_imp (P := fun _ => True) (fun _ _ => trivial) (fun _ _ _ h => h.fresh) h

theorem telling_goto : Telling (s.goto a x) t n ↔
    (∃ k, told x.2 = some k ∧ reportTask k = t ∧ reportName k = n) ∨
      ∃ b k, b ≠ a ∧ told (s.pc b) = some k ∧ reportTask k = t ∧ reportName k = n := by
  constructor
  · rintro ⟨b, k, hk, rest⟩
    by_cases hb : b = a
    · subst hb
      rw [goto_pc] at hk
      exact .inl ⟨k, hk, rest⟩
    · rw [goto_pc_of_ne s hb] at hk
      exact .inr ⟨b, k, hb, hk, rest⟩
  · rintro (⟨k, hk, rest⟩ | ⟨b, k, hb, hk, rest⟩)
    · exact ⟨a, k, by rwa [goto_pc], rest⟩
    · exact ⟨b, k, by rwa [goto_pc_of_ne s hb], rest⟩

theorem telling_same (h : told x.2 = told (s.pc a)) :
    Telling (s.goto a x) t n ↔ Telling s t n := by
  rw [telling_goto, h]
  constructor
  · rintro (⟨k, hk⟩ | ⟨b, k, _, hk⟩)
    · exact ⟨a, k, hk⟩
    · exact ⟨b, k, hk⟩
  · rintro ⟨b, k, hk⟩
    by_cases hb : b = a
    · subst hb
      exact .inl ⟨k, hk⟩
    · exact .inr ⟨b, k, hb, hk⟩

theorem telling_new (hp : told (s.pc a) = none) (hx : told x.2 = some k) :
    Telling (s.goto a x) t n ↔ Telling s t n ∨ reportTask k = t ∧ reportName k = n := by
  rw [telling_goto, hx]
  constructor
  · rintro (⟨k', hk, rest⟩ | ⟨b, k', _, hk⟩)
    · cases hk
      exact .inr rest
    · exact .inl ⟨b, k', hk⟩
  · rintro (⟨b, k', hk, rest⟩ | rest)
    · refine .inr ⟨b, k', ?_, hk, rest⟩
      rintro rfl
      cases hp.symm.trans hk
    · exact .inl ⟨k, rfl, rest⟩

/-- Nothing is due that was not, and nothing is told. -/
theorem Ordered.same (h : Ordered s) (ht : x.1.trace = s.shared.trace)
    (hd : ∀ t, due x.1.ledger t = due s.shared.ledger t) (hx : told x.2 = told (s.pc a))
    (he : ∀ k event, x.2 = .tracing k event →
      event.taskId = reportTask k ∧ event.name = reportName k) : Ordered (s.goto a x) where
  split t := by
    obtain ⟨rest, hr, hm⟩ := h.split t
    refine ⟨rest, ?_, fun n => (hm n).trans (telling_same hx).symm⟩
    rw [goto_shared, ht, hd]
    exact hr
  event b k event hb := by
    by_cases hba : b = a
    · subst hba
      rw [goto_pc] at hb
      exact he k event hb
    · rw [goto_pc_of_ne s hba] at hb
      exact h.event b k event hb

/-- A task gets on, and one more event is due. -/
theorem Ordered.grow (h : Ordered s) (hp : told (s.pc a) = none) (hx : x.2 = .reporting k)
    (ht : x.1.trace = s.shared.trace)
    (hd : due x.1.ledger (reportTask k) = due s.shared.ledger (reportTask k) ++ [reportName k])
    (hn : ∀ t, t ≠ reportTask k → due x.1.ledger t = due s.shared.ledger t) :
    Ordered (s.goto a x) where
  split t := by
    have hnew {n : String} := telling_new (t := t) (n := n) hp (k := k) (x := x) (by rw [hx]; rfl)
    obtain ⟨rest, hr, hm⟩ := h.split t
    by_cases htk : t = reportTask k
    · subst htk
      refine ⟨rest ++ [reportName k], ?_, fun n => ?_⟩
      · rw [goto_shared, ht, hd, ← hr, List.append_assoc]
      · rw [List.mem_append, List.mem_singleton, hm, hnew]
        simp [eq_comm]
    · refine ⟨rest, ?_, fun n => ?_⟩
      · rw [goto_shared, ht, hn t htk]
        exact hr
      · rw [hm, hnew]
        simp [Ne.symm htk]
  event b k' event hb := by
    by_cases hba : b = a
    · subst hba
      rw [goto_pc, hx] at hb
      cases hb
    · rw [goto_pc_of_ne s hba] at hb
      exact h.event b k' event hb

theorem name_submitted (k k' : Report) (h : reportName k = reportName k') :
    isSubmitted k = isSubmitted k' := by
  cases k <;> cases k' <;> first
    | rfl
    | (simp only [reportName] at h; (repeat' split at h) <;> simp at h)

omit [DecidableEq ι] in
/-- The event that a thread delivers is the next one of its task. -/
theorem next_event (hex : Exclusive s) (hst : Staged s stage) (h : Ordered s)
    (hp : told (s.pc a) = some k)
    (order : ∀ t request, k = .started t request → ¬Telling s t "task.submitted") :
    ∃ rest, heard s.shared.trace (reportTask k) ++ reportName k :: rest =
        due s.shared.ledger (reportTask k) ∧
      ∀ n, n ∈ reportName k :: rest ↔ Telling s (reportTask k) n := by
  obtain ⟨rest, hr, hm⟩ := h.split (reportTask k)
  have hin : reportName k ∈ rest := (hm _).mpr ⟨a, k, hp, rfl, rfl⟩
  have alone {k' : Report} {b : Thread ι} (hb : told (s.pc b) = some k')
      (ht : reportTask k' = reportTask k) (hn : isSubmitted k' = isSubmitted k) : k' = k := by
    cases told_unique hex hst hb hp ht hn
    exact Option.some.inj (hb.symm.trans hp)
  -- Whoever has the start in hand has nothing else of the task in hand.
  have started (hn : "task.started" ∈ rest) (hk : isSubmitted k = false) :
      reportName k = "task.started" := by
    obtain ⟨b, k', hb, ht, hname⟩ := (hm _).mp hn
    have hk' : isSubmitted k' = false := by
      cases k' with
      | submitted job => simp [reportName] at hname
      | _ => rfl
    rw [← alone hb ht (hk'.trans hk.symm), hname]
  have first (hn : "task.submitted" ∈ rest) : reportName k ≠ "task.started" := by
    intro hname
    cases k with
    | started t request => exact order t request rfl ((hm _).mp hn)
    | submitted job => simp [reportName] at hname
    | ended t m request =>
      simp only [reportName] at hname
      split at hname <;> simp at hname
  cases rest with
  | nil => exact absurd hin List.not_mem_nil
  | cons m rest =>
    by_cases hmn : m = reportName k
    · subst hmn
      exact ⟨rest, hr, hm⟩
    · have hlater : reportName k ∈ rest := List.mem_of_ne_of_mem (Ne.symm hmn) hin
      have other (hne : reportName k ≠ "task.submitted") : isSubmitted k = false := by
        cases k with
        | submitted job => exact absurd rfl hne
        | _ => rfl
      rcases due_order hr hlater with ⟨rfl, hs | hs⟩ | ⟨rfl, hsub, hs⟩
      · exact absurd hs (first (List.mem_cons_self ..))
      · exact absurd (started (List.mem_cons_of_mem _ hs) (other (Ne.symm hmn)))
          (first (List.mem_cons_self ..))
      · exact absurd (started (List.mem_cons_self ..) (other hsub)) hs

/-- An event is delivered. -/
theorem Ordered.deliver {event : TraceEvent} (hex : Exclusive s) (hst : Staged s stage)
    (h : Ordered s) (hp : s.pc a = .tracing k event) (hx : told x.2 = none)
    (hs : x.1 = { s.shared with trace := s.shared.trace ++ [event] })
    (order : ∀ t request, k = .started t request → ¬Telling s t "task.submitted") :
    Ordered (s.goto a x) where
  split t := by
    have own : told (s.pc a) = some k := by rw [hp]; rfl
    obtain ⟨ht, hn⟩ := h.event a k event hp
    by_cases htk : t = reportTask k
    · subst htk
      obtain ⟨rest, hr, hm⟩ := next_event hex hst h own order
      have hnodup : (reportName k :: rest).Nodup :=
        (List.nodup_append.mp (hr ▸ due_nodup s.shared.ledger (reportTask k))).2.1
      refine ⟨rest, ?_, fun n => ?_⟩
      · rw [goto_shared, hs, ← hr]
        simp [heard_append, ht, hn]
      · rw [telling_goto, hx]
        constructor
        · intro hmem
          obtain ⟨b, k', hb, ht', hname⟩ := (hm n).mp (List.mem_cons_of_mem _ hmem)
          refine .inr ⟨b, k', ?_, hb, ht', hname⟩
          rintro rfl
          cases hb.symm.trans own
          exact (List.nodup_cons.mp hnodup).1 (hname ▸ hmem)
        · rintro (⟨_, hk, _⟩ | ⟨b, k', hb, hk, ht', hname⟩)
          · cases hk
          · refine List.mem_of_ne_of_mem ?_ ((hm n).mpr ⟨b, k', hk, ht', hname⟩)
            rintro rfl
            exact hb (told_unique hex hst hk own ht' (name_submitted _ _ hname))
    · obtain ⟨rest, hr, hm⟩ := h.split t
      refine ⟨rest, ?_, fun n => (hm n).trans ?_⟩
      · rw [goto_shared, hs]
        simpa [heard_append, ht, Ne.symm htk] using hr
      · rw [telling_goto, hx]
        constructor
        · rintro ⟨b, k', hb, ht', hname⟩
          refine .inr ⟨b, k', ?_, hb, ht', hname⟩
          rintro rfl
          cases hb.symm.trans own
          exact htk ht'.symm
        · rintro (⟨_, hk, _⟩ | ⟨b, k', _, hk⟩)
          · cases hk
          · exact ⟨b, k', hk⟩
  event b k' event' hb := by
    by_cases hba : b = a
    · subst hba
      rw [goto_pc] at hb
      rw [hb] at hx
      cases hx
    · rw [goto_pc_of_ne s hba] at hb
      exact h.event b k' event' hb

/-! ## Runs -/

omit [DecidableEq ι] in
theorem unmoved_due {L L' : Ledger} (h : Unmoved L L') (t : TaskId) : due L' t = due L t := by
  simp only [due, submission, h.accepted, h.moves]

omit [DecidableEq ι] in
theorem update_due {L : Ledger} {r : TaskRecord} {u : TaskId} (hr : L.record u = some r) (now : ℕ)
    (y : Backend.Update) : due (L.update now u y).2 u =
      submission L u ++ execution (L.moves u ++ [y.status]) ∧
    ∀ t, t ≠ u → due (L.update now u y).2 t = due L t := by
  have hm := update_moves hr now y
  refine ⟨?_, fun t ht => ?_⟩
  · simp only [due, hm, Function.update_self]
    rfl
  · simp only [due, hm, Function.update_of_ne ht]
    rfl

theorem ordered_turn (hex : Exclusive s) (hst : Staged s stage) (h : Ordered s)
    (allowed : Announced s (.step a c)) (hx : act s.shared a (s.pc a) c = some x) :
    Ordered (s.goto a x) := by
  have found : ∀ u, updates (s.pc a) = some u → ∃ r, s.shared.ledger.record u = some r :=
    fun u hu => (updates_found hst hu).imp fun _ hr => hr.1
  cases turn_course hx found hst.wellformed (hst.fetched a) with
  | records k hp hx2 hs =>
    refine h.same (by rw [hs]) (fun t => by rw [hs]) (by rw [hx2, hp]; rfl) fun k' event he => ?_
    cases hx2.symm.trans he
    exact ⟨report_task _ _, report_name _ _⟩
  | tells k event hp hc hx2 hs =>
    subst hc
    refine h.deliver hex hst hp hx2 hs fun t request hk => ?_
    subst hk
    exact allowed.order a t request event rfl hp
  | loses k event hp hc hx2 hs =>
    obtain ⟨r, rfl⟩ := hc
    exact absurd hp (allowed.sinks a r rfl k event)
  | stores job hp hx2 hs =>
    have hb := storing_moves hst hp
    obtain ⟨_, _, _, ⟨hacc, _, hm⟩, hkeep⟩ := store_ok job.request hb.record job.priority
    refine h.grow (k := .submitted job) (by rw [hp]; rfl) hx2 (by rw [hs]) ?_ fun t ht => ?_
    · rw [hs]
      change due _ job.request.taskId = due _ job.request.taskId ++ _
      have hna : job.request.taskId ∉ s.shared.ledger.accepted := hb.accepted
      have hnm : s.shared.ledger.moves job.request.taskId = [] := hb.moves
      simp [due, submission, hacc, hm, hna, hnm, execution, reportName]
    · rw [hs]
      have hk := hkeep t ht
      simp only [due, submission, hk.accepted, hk.moves]
  | starts t request hp hx2 hs =>
    have hw := running_moves hst hp
    obtain ⟨r, hr⟩ := found t (by rw [hp]; rfl)
    obtain ⟨hd, hn⟩ := update_due hr s.shared.clock { status := .running }
    refine h.grow (k := .started t request) (by rw [hp]; rfl) hx2 (by rw [hs]) ?_ ?_
    · rw [hs]
      refine hd.trans ?_
      simp [due, hw.moves, execution, reportName, reportTask]
    · rw [hs]
      exact hn
  | ends t m request hp hx2 hs =>
    have hw := updating_moves hst hp
    obtain ⟨r, hr⟩ := found t (by rw [hp]; rfl)
    obtain ⟨hd, hn⟩ := update_due hr s.shared.clock m.update
    refine h.grow (k := .ended t m request) (by rw [hp]; rfl) hx2 (by rw [hs]) ?_ ?_
    · rw [hs]
      refine hd.trans ?_
      rcases ender_status m with hm | hm <;> simp [due, hw.moves, hm, execution, reportName, reportTask]
    · rw [hs]
      exact hn
  | sweeps t done rest hp hc hx2 hs =>
    have hw := (sweeping_moves hst hp).1
    obtain ⟨r, hr⟩ := found t (by rw [hp]; rfl)
    obtain ⟨hd, hn⟩ := update_due hr s.shared.clock stoppedBeforeStart
    refine h.same (by rw [hs]) (fun u => ?_) (by rw [hx2, hp]; rfl) fun k event he => ?_
    · rw [hs]
      by_cases hu : u = t
      · subst hu
        refine hd.trans ?_
        simp [due, hw.moves, execution, stoppedBeforeStart]
      · exact hn u hu
    · rw [he] at hx2
      cases hx2
  | passes hp hx2 _ hL ht hi =>
    refine h.same ht (unmoved_due hL) (hx2.trans hp.symm) fun k event he => ?_
    rw [he] at hx2
    cases hx2

omit [DecidableEq ι] in
theorem Ordered.still (h : Ordered s) (hp : s'.pc = s.pc) (ht : s'.shared.trace = s.shared.trace)
    (hL : Unmoved s.shared.ledger s'.shared.ledger) : Ordered s' where
  split t := by
    rw [ht, unmoved_due hL, funext fun n => propext (Iff.of_eq (by simp only [Telling, hp]) :
      Telling s' t n ↔ Telling s t n)]
    exact h.split t
  event := by rw [hp]; exact h.event

theorem reachable_ordered (h : ((system ι).restrict Announced).Reachable s) : Ordered s := by
  refine System.invariant_reachable ?_ (fun u e v hr hu hs => ?_) h
  · rintro s ⟨config, b, _, rfl⟩
    have quiet : ∀ a : Thread ι, told ((begin config b).pc a) = none := by
      intro a
      cases a <;> rfl
    refine ⟨fun t => ⟨[], ?_, fun n => ⟨fun hn => absurd hn List.not_mem_nil, ?_⟩⟩,
      fun a k event he => ?_⟩
    · have hm : execution ((b.get t).toList.map TaskRecord.status) = [] := by
        cases b.get t with
        | none => rfl
        | some r => simp [execution]
      simp [begin, created, Ledger.initial, due, submission, heard, hm]
    · rintro ⟨a, k, hk, _⟩
      cases (quiet a).symm.trans hk
    · have hq := quiet a
      rw [he] at hq
      cases hq
  · have hsingle := fresh_single (announced_fresh hr)
    obtain ⟨stage, hst⟩ := (reachable_accounts hsingle).staged
    obtain ⟨allowed, hs⟩ := hs
    rcases step_cases hs with ⟨i, k, rfl, hrest, rfl⟩ | ⟨a, c, x, rfl, _, hx, rfl⟩ |
      ⟨f, o, rfl, _, _, rfl⟩ | ⟨w, rfl, _, rfl⟩ | ⟨d, rfl, rfl⟩
    · have enter : told (k.enter u.shared).2 = none := by
        cases k with
        | stop timeout =>
          simp only [Call.enter]
          split <;> rfl
        | _ => rfl
      refine hu.same (by cases k <;> rfl) (fun t => by cases k <;> rfl)
        (enter.trans (resting_told hrest).symm) fun k' event he => ?_
      rw [he] at enter
      cases enter
    · exact ordered_turn (single_exclusive hsingle) hst hu allowed hx
    · exact hu.still rfl rfl ⟨rfl, rfl, rfl⟩
    · exact hu.still rfl rfl (.refl _)
    · exact hu.still rfl rfl (.refl _)

/-- The events of a task in order, as far as it got: they begin with its submission unless the
backend had the task before the scheduler. -/
def InOrder (L : Ledger) (t : TaskId) (names : List String) : Prop :=
  ∃ last ∈ ["task.completed", "task.failed"],
    names <+: (if t ∈ L.foreign then [] else ["task.submitted"]) ++ ["task.started", last]

omit [DecidableEq ι] in
theorem due_inOrder (hst : Staged s stage) (t : TaskId) :
    InOrder s.shared.ledger t (due s.shared.ledger t) := by
  have execution_prefix (moves : List TaskStatus) : ∃ last ∈ ["task.completed", "task.failed"],
      execution moves <+: ["task.started", last] := by
    rcases execution_cases moves with he | he | he | he <;> rw [he]
    · exact ⟨_, List.mem_cons_self .., List.nil_prefix⟩
    · exact ⟨_, List.mem_cons_self .., by simp⟩
    · exact ⟨_, List.mem_cons_self .., List.prefix_refl _⟩
    · exact ⟨_, List.mem_cons_of_mem _ (List.mem_cons_self ..), List.prefix_refl _⟩
  obtain ⟨last, hl, hp⟩ := execution_prefix (s.shared.ledger.moves t)
  refine ⟨last, hl, ?_⟩
  unfold due submission
  by_cases hf : t ∈ s.shared.ledger.foreign
  · have ha : t ∉ s.shared.ledger.accepted := fun ha => (hst.fact t).accepted ha hf
    simpa [hf, ha] using hp
  · by_cases ha : t ∈ s.shared.ledger.accepted
    · simpa [hf, ha] using hp
    · have hb := (hst.fact t).blank ha hf
      simp [hf, ha, hb.moves, execution]

/-- In runs in which a worker tells that a task has started only when the submit call has told
of it, the events of every task come in order. -/
theorem trace_order (h : ((system ι).restrict Announced).Reachable s) (t : TaskId) :
    InOrder s.shared.ledger t (heard s.shared.trace t) := by
  obtain ⟨stage, hst⟩ := (reachable_accounts (fresh_single (announced_fresh h))).staged
  obtain ⟨rest, hr, _⟩ := (reachable_ordered h).split t
  obtain ⟨last, hl, hp⟩ := due_inOrder hst t
  exact ⟨last, hl, (hr ▸ List.prefix_append _ rest).trans hp⟩

/-- Nothing raises, and no submit call is under way when a worker tells that a task has
started. -/
def Prompt (s : State ι) : Event ι → Prop
  | .call i k => Fresh s (.call i k)
  | .step _ (.raises _) => False
  | .step a .go => (told (s.pc a)).any (fun k => !isSubmitted k) = true → s.locks .lifecycle = none
  | _ => True

instance (s : State ι) (e : Event ι) : Decidable (Prompt s e) :=
  match e with
  | .call i k => inferInstanceAs (Decidable (Fresh s (.call i k)))
  | .step _ (.raises _) => .isFalse id
  | .step _ .go => inferInstanceAs (Decidable (_ → _))
  | .step _ .timeout | .resolve _ _ | .fire _ | .tick _ => .isTrue trivial

theorem prompt_announced (h : ((system ι).restrict Prompt).Reachable s) :
    ((system ι).restrict Announced).Reachable s := by
  refine System.restrict_imp (fun _ hr => reachable_exclusive (System.restrict_reachable hr))
    (fun u e hex he => ⟨?_, ?_, ?_⟩) h
  · cases e with
    | call i k => exact he
    | _ => trivial
  · rintro a r rfl
    exact he.elim
  · rintro a t request event rfl hp ⟨b, k, hk, _, hn⟩
    have hsub : isSubmitted k = true := by
      rw [name_submitted k (.submitted (sampleJob t)) hn]
      rfl
    have hlock : .lifecycle ∈ (u.pc b).locks b := by
      cases k with
      | submitted job =>
        rcases told_iff.mp hk with hp | ⟨_, hp⟩ <;> rw [hp] <;> exact List.mem_singleton.mpr rfl
      | _ => cases hsub
    have hfree := he (by rw [hp]; rfl)
    rw [(hex.held .lifecycle b).mpr hlock] at hfree
    cases hfree

theorem one_task_in_order : ∃ s, after Prompt { numThreads := 1 } TaskLife.oneTask = some s ∧
    heard s.shared.trace "t" = ["task.submitted", "task.started", "task.completed"] ∧
    InOrder s.shared.ledger "t" (heard s.shared.trace "t") := by
  obtain ⟨s, hs, hr, hh⟩ := after_spec (A := Prompt) (c := { numThreads := 1 })
    (l := TaskLife.oneTask) (P := fun s =>
      heard s.shared.trace "t" = ["task.submitted", "task.started", "task.completed"])
    (by decide +kernel)
  exact ⟨s, hs, hh, trace_order (prompt_announced hr) "t"⟩

/-- Nothing raises. -/
def Untroubled (s : State ι) (e : Event ι) : Prop :=
  Fresh s e ∧ ∀ a r, e ≠ .step a (.raises r)

instance (s : State ι) (e : Event ι) : Decidable (Untroubled s e) :=
  match e with
  | .step a (.raises r) => .isFalse fun h => h.2 a r rfl
  | .step _ .go | .step _ .timeout | .resolve _ _ | .fire _ | .tick _ =>
    .isTrue ⟨trivial, nofun⟩
  | .call i k => decidable_of_iff (Fresh s (.call i k)) ⟨fun h => ⟨h, nofun⟩, And.left⟩

/-- The worker overtakes the submit call that has stored the task. -/
def overtaken : List (Event Unit) :=
  .call () (.submit (sampleJob "t")) :: turns (.client ()) 9 ++ turns (.worker 0) 7 ++
    turns (.client ()) 2

theorem started_before_submitted : ∃ s, after Untroubled { numThreads := 1 } overtaken = some s ∧
    heard s.shared.trace "t" = ["task.started", "task.submitted"] ∧
    ¬InOrder s.shared.ledger "t" (heard s.shared.trace "t") := by
  obtain ⟨s, hs, _, hh, hf⟩ := after_spec (A := Untroubled) (c := { numThreads := 1 })
    (l := overtaken) (P := fun s =>
      heard s.shared.trace "t" = ["task.started", "task.submitted"] ∧
      "t" ∉ s.shared.ledger.foreign) (by decide +kernel)
  refine ⟨s, hs, hh, ?_⟩
  rintro ⟨last, _, hp⟩
  rw [hh, if_neg hf] at hp
  simp at hp

end

end TraceOrder
