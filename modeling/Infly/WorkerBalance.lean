import Infly.Failover
import Infly.LeastLoaded
import Mathlib.Data.List.GetD

/-! # Load balance inside a group

As long as no queue refuses, an assignment to a group is a turn of least loaded first: the
live workers sit at their indices, and the cursor is the group's.
-/
namespace WorkerBalance

open Contracts Config PoolState PoolTables PoolAccounting PoolGroups PoolModel PoolInvariant
open PoolRouting Failover LeastLoaded

/-- Live workers hold different indices of their registered group. Counts and cursors are any. -/
structure Seated (p : Pool) : Prop where
  keys : ∀ t, t ∈ p.assignments.keys → t ∈ p.futures.keys
  placed : ∀ g, ∀ r ∈ aliveWorkersLocked p g,
    p.groups.get? g = some (p.heap r).group ∧ (p.heap r).index < (p.heap r).group.processCount
  distinct : ∀ g, ∀ r ∈ aliveWorkersLocked p g, ∀ r' ∈ aliveWorkersLocked p g,
    (p.heap r).index = (p.heap r').index → r = r'
  nodup : p.workers.values.Nodup

/-- A run of successful assignments and nothing else, the newest first. No queue of a live worker
refuses the request (`puts`); `execute` passes one by that does. -/
inductive Assigning : Pool → List Ref → Pool → Prop where
  | start (p) : Assigning p [] p
  | next {p l q putRaises request future q' r} (h : Assigning p l q)
    (puts : ∀ r' ∈ q.workers.values, (q.heap r').isLive = true → ¬PutFails q putRaises r')
    (he : execute q putRaises request future = (q', .assigned r)) : Assigning p (r :: l) q'

def seat (p : Pool) (r : Ref) : ℕ := (p.heap r).index

/-- The counts of the group's live workers and its cursor. -/
def balance (p : Pool) (g : String) : Balance Ref where
  load r := if r ∈ aliveWorkersLocked p g then (p.heap r).outstanding else 0
  cursor := p.groupCursors g

/-- The workers of group `g` among these. -/
def ofGroup (p : Pool) (g : String) (l : List Ref) : List Ref :=
  l.filter fun r => decide ((p.heap r).group.name = g)

/-- All that a successful assignment leaves as it is. -/
structure Steady (p q : Pool) : Prop where
  workers : q.workers = p.workers
  groups : q.groups = p.groups
  heap : ∀ r, ∃ count, q.heap r = { p.heap r with outstanding := count }

variable {ι : Type} [DecidableEq ι] {s : State ι} {p q q' : Pool} {g h : String} {r : Ref}
  {l : List Ref} {grp : WorkerGroup} {putRaises : List String} {request : TaskRequest}
  {future : FutureId}

theorem Steady.refl (p : Pool) : Steady p p := ⟨rfl, rfl, fun _ => ⟨_, rfl⟩⟩

theorem Steady.trans (h : Steady p q) (k : Steady q q') : Steady p q' := by
  constructor
  · rw [k.workers, h.workers]
  · rw [k.groups, h.groups]
  · intro r
    obtain ⟨n, hn⟩ := k.heap r
    obtain ⟨m, hm⟩ := h.heap r
    exact ⟨n, by rw [hn, hm]⟩

theorem Steady.index (h : Steady p q) (r : Ref) : (q.heap r).index = (p.heap r).index := by
  obtain ⟨n, hn⟩ := h.heap r
  rw [hn]

theorem Steady.group (h : Steady p q) (r : Ref) : (q.heap r).group = (p.heap r).group := by
  obtain ⟨n, hn⟩ := h.heap r
  rw [hn]

theorem Steady.alive (h : Steady p q) (g : String) :
    aliveWorkersLocked q g = aliveWorkersLocked p g := by
  unfold aliveWorkersLocked
  rw [h.workers]
  apply List.filter_congr
  intro r _
  obtain ⟨n, hn⟩ := h.heap r
  rw [hn]
  rfl

theorem alive_group (hr : r ∈ aliveWorkersLocked p g) : (p.heap r).group.name = g :=
  (mem_aliveWorkersLocked.mp hr).2.1

/-- The key of `_ordered_workers_locked`: the count, then the distance from the cursor. -/
def Before (p : Pool) (g : String) (size : ℕ) (a b : Ref) : Prop :=
  (p.heap a).outstanding < (p.heap b).outstanding ∨
  (p.heap a).outstanding = (p.heap b).outstanding ∧
    distance size (p.groupCursors g) (seat p a) ≤ distance size (p.groupCursors g) (seat p b)

instance (size : ℕ) (a b : Ref) : Decidable (Before p g size a b) :=
  inferInstanceAs (Decidable (_ < _ ∨ _ = _ ∧ _ ≤ _))

theorem ordered_sorted (hg : p.groups.get? g = some grp) :
    (orderedWorkersLocked p g).Pairwise (Before p g grp.processCount) := by
  have total : Std.Total (Before p g grp.processCount) := by
    constructor
    intro a b
    unfold Before
    omega
  have trans : IsTrans Ref (Before p g grp.processCount) := by
    constructor
    intro a b c hab hbc
    unfold Before at hab hbc ⊢
    omega
  unfold orderedWorkersLocked
  rw [hg]
  exact @List.pairwise_insertionSort _ (Before p g grp.processCount) _ total trans _

/-- A successful assignment goes to the head of a group's order. -/
theorem execute_head (hs : Seated p)
    (puts : ∀ r' ∈ p.workers.values, (p.heap r').isLive = true → ¬PutFails p putRaises r')
    (he : execute p putRaises request future = (q, .assigned r)) :
    ∃ g rest weights, orderedWorkersLocked p g = r :: rest ∧
      q = { booked { p with futures := p.futures.set request.taskId future } request.taskId g r with
        smoothWeights := weights } := by
  rw [execute_eq] at he
  split at he
  · cases he
  split at he
  · cases he
  split at he
  · cases he
  rename_i hdup
  have hnew : p.futures.get? request.taskId = none := by
    simpa [Dict.contains_iff, Dict.get?_eq_none] using hdup
  have hfree : p.assignments.get? request.taskId = none :=
    Dict.get?_eq_none.mpr fun hk => (Dict.get?_eq_none.mp hnew) (hs.keys _ hk)
  generalize (p.handlerGroups.get? request.handlerName).getD [] = hosts at he
  dsimp only at he
  split at he
  · cases he
  generalize hosts.filter (fun g => !(aliveWorkersLocked p g).isEmpty) = names at he
  split at he
  · cases he
  rcases tryGroups_spec putRaises names.length
      { p with futures := p.futures.set request.taskId future } names (le_refl _) hfree
    with ⟨-, weights, tried, -, ht⟩ | ⟨g, -, before, r', after, _, weights, ho, hb, -, -, -, ht⟩
  · rw [ht] at he
    cases he
  · rw [ht] at he
    cases he
    change orderedWorkersLocked p g = before ++ r :: after at ho
    have hnil : before = [] := by
      apply List.eq_nil_iff_forall_not_mem.mpr
      intro b hm
      have hbo : b ∈ orderedWorkersLocked p g := by
        rw [ho]
        exact List.mem_append_left _ hm
      obtain ⟨hin, -, hlive⟩ := mem_aliveWorkersLocked.mp (mem_orderedWorkersLocked hbo)
      exact puts b hin hlive (hb b hm)
    subst hnil
    exact ⟨g, after, weights, ho, rfl⟩

theorem booked_steady {weights : String → ℤ} {t : TaskId} (futures : Dict TaskId FutureId) :
    Steady p { booked { p with futures } t g r with smoothWeights := weights } := by
  refine ⟨rfl, rfl, ?_⟩
  intro r'
  by_cases he : r' = r
  · subst he
    refine ⟨(p.heap r').outstanding + 1, ?_⟩
    simp [booked, Pool.modify]
  · refine ⟨(p.heap r').outstanding, ?_⟩
    simp [booked, Pool.modify, he]

/-- One successful assignment is one turn of its group, and no other group notices. -/
theorem execute_turn (hs : Seated p)
    (puts : ∀ r' ∈ p.workers.values, (p.heap r').isLive = true → ¬PutFails p putRaises r')
    (he : execute p putRaises request future = (q, .assigned r)) :
    Steady p q ∧ Seated q ∧ r ∈ aliveWorkersLocked p (p.heap r).group.name ∧
    Turn (aliveWorkersLocked p (p.heap r).group.name) (seat p) (p.heap r).group.processCount
      (balance p (p.heap r).group.name) r (balance q (p.heap r).group.name) ∧
    ∀ h, h ≠ (p.heap r).group.name → balance q h = balance p h := by
  obtain ⟨g, rest, weights, ho, rfl⟩ := execute_head hs puts he
  have hmem : r ∈ aliveWorkersLocked p g := by
    apply mem_orderedWorkersLocked
    rw [ho]
    exact List.mem_cons_self ..
  obtain ⟨hg, -⟩ := hs.placed g r hmem
  have hname := alive_group hmem
  subst hname
  set q := { booked { p with futures := p.futures.set request.taskId future } request.taskId
    (p.heap r).group.name r with smoothWeights := weights } with hq
  have hst : Steady p q := booked_steady _
  have hload : ∀ r', (q.heap r').outstanding =
      (p.heap r').outstanding + if r' = r then 1 else 0 := by
    intro r'
    by_cases hr' : r' = r
    · subst hr'
      simp [hq, booked, Pool.modify]
    · simp [hq, booked, Pool.modify, hr']
  refine ⟨hst, ?_, hmem, ⟨hmem, ?_, ?_, ?_⟩, ?_⟩
  · constructor
    · intro t ht
      change t ∈ (p.assignments.set _ _).keys at ht
      change t ∈ (p.futures.set _ _).keys
      rw [Dict.mem_keys_set] at ht ⊢
      exact ht.imp_right (hs.keys t)
    · intro g' r' hr'
      rw [hst.alive] at hr'
      rw [hst.groups, hst.group, hst.index]
      exact hs.placed g' r' hr'
    · intro g' a ha b hb hab
      rw [hst.alive] at ha hb
      rw [hst.index, hst.index] at hab
      exact hs.distinct g' a ha b hb hab
    · rw [hst.workers]
      exact hs.nodup
  · intro b hb
    have hsorted := ordered_sorted hg
    rw [ho, List.pairwise_cons] at hsorted
    simp only [balance, hmem, hb, ↓reduceIte]
    have hb' := (ordered_perm ⟨_, hg⟩).mem_iff.mpr hb
    rw [ho] at hb'
    rcases List.mem_cons.mp hb' with rfl | hb'
    · exact .inr ⟨rfl, le_refl _⟩
    · exact hsorted.1 b hb'
  · intro b hb
    simp only [balance, hst.alive, hb, ↓reduceIte]
    exact hload b
  · simp [balance, hq, booked, seat]
  · intro h hne
    unfold balance
    rw [hst.alive]
    congr 1
    · funext r'
      by_cases hr' : r' ∈ aliveWorkersLocked p h
      · have : r' ≠ r := by
          rintro rfl
          exact hne (alive_group hr').symm
        rw [if_pos hr', if_pos hr', hload, if_neg this, Nat.add_zero]
      · rw [if_neg hr', if_neg hr']
    · simp [hq, booked, hne]

theorem seat_eq (h : Steady p q) : seat q = seat p := funext h.index

/-- In a run every group takes its own turns. -/
theorem run_turns (h : Assigning p l q) (hs : Seated p) :
    Steady p q ∧ Seated q ∧ ∀ g grp, p.groups.get? g = some grp →
      Turns (aliveWorkersLocked p g) (seat p) grp.processCount (balance p g) (ofGroup p g l)
        (balance q g) := by
  induction h with
  | start => exact ⟨Steady.refl _, hs, fun g grp _ => Turns.start _⟩
  | @next l q putRaises request future q' r h puts he ih =>
    obtain ⟨hst, hsq, hturns⟩ := ih
    obtain ⟨hst', hsq', hmem, hturn, hother⟩ := execute_turn hsq puts he
    refine ⟨hst.trans hst', hsq', ?_⟩
    intro g grp hg
    have before := hturns g grp hg
    by_cases hr : (p.heap r).group.name = g
    · have hlist : ofGroup p g (r :: l) = r :: ofGroup p g l := by
        unfold ofGroup
        rw [List.filter_cons, if_pos (by simpa using hr)]
      obtain ⟨hreg, -⟩ := hsq.placed _ r hmem
      rw [hst.group, hr, hst.groups, hg] at hreg
      rw [hst.alive, hst.group, hr, seat_eq hst] at hturn
      rw [hlist]
      apply Turns.next before
      rw [Option.some.inj hreg]
      exact hturn
    · have hlist : ofGroup p g (r :: l) = ofGroup p g l := by
        unfold ofGroup
        rw [List.filter_cons, if_neg (by simpa using hr)]
      rw [hlist, hother g (by rw [hst.group]; exact Ne.symm hr)]
      exact before

theorem Assigning.executed (h : Assigning p l q) (putRaises : List String)
    (request : TaskRequest) (future : FutureId) (r : Ref)
    (puts : ∀ r' ∈ q.workers.values, (q.heap r').isLive = true → ¬PutFails q putRaises r')
    (he : (execute q putRaises request future).2 = .assigned r) :
    Assigning p (r :: l) (execute q putRaises request future).1 :=
  h.next puts (Prod.ext rfl he)

theorem Assigning.older {newer : List Ref} (h : Assigning p (newer ++ l) q) :
    ∃ m, Assigning p l m := by
  induction newer generalizing q with
  | nil => exact ⟨q, h⟩
  | cons r newer ih =>
    cases h with
    | next h _ _ => exact ih h

/-- With equal counts the group's order is its circle from the cursor on. -/
theorem circle (hs : Seated p) (hg : p.groups.get? g = some grp)
    (hne : aliveWorkersLocked p g ≠ [])
    (heq : ∀ a ∈ aliveWorkersLocked p g, ∀ b ∈ aliveWorkersLocked p g,
      (p.heap a).outstanding = (p.heap b).outstanding) :
    Circle (aliveWorkersLocked p g) (seat p) grp.processCount (p.groupCursors g)
      (orderedWorkersLocked p g).length fun k => (orderedWorkersLocked p g).getD k 0 := by
  have hperm := ordered_perm ⟨grp, hg⟩
  have hmem : ∀ {k}, k < (orderedWorkersLocked p g).length →
      (orderedWorkersLocked p g).getD k 0 ∈ aliveWorkersLocked p g := by
    intro k hk
    rw [List.getD_eq_getElem _ _ hk]
    exact hperm.mem_iff.mp (List.getElem_mem hk)
  have hsize : ∀ a ∈ aliveWorkersLocked p g, seat p a < grp.processCount := by
    intro a ha
    obtain ⟨hreg, hlt⟩ := hs.placed g a ha
    rw [hg] at hreg
    rw [Option.some.inj hreg]
    exact hlt
  constructor
  · rw [hperm.length_eq]
    exact List.length_pos_iff.mpr hne
  · exact fun k hk => hmem hk
  · intro a ha
    obtain ⟨k, hk, rfl⟩ := List.mem_iff_getElem.mp (hperm.mem_iff.mpr ha)
    exact ⟨k, hk, List.getD_eq_getElem _ _ hk⟩
  · exact hsize
  · intro j k hjk hk
    have hj : j < (orderedWorkersLocked p g).length := by omega
    have hsorted := List.pairwise_iff_getElem.mp (ordered_sorted hg) j k hj hk hjk
    have hmj := hmem hj
    have hmk := hmem hk
    rw [List.getD_eq_getElem _ _ hj] at hmj ⊢
    rw [List.getD_eq_getElem _ _ hk] at hmk ⊢
    have hequal := heq _ hmj _ hmk
    unfold Before at hsorted
    apply lt_of_le_of_ne (by omega)
    intro he
    have hseat := distance_injective (hsize _ hmj) (hsize _ hmk) he
    have hsame := hs.distinct g _ hmj _ hmk hseat
    have hnodup := hperm.nodup_iff.mpr (hs.nodup.filter _)
    have := (hnodup.getElem_inj_iff).mp hsame
    omega

/-- The live workers of any reachable pool are seated. -/
theorem reachable_seated (h : Reachable s) : Seated s.pool := by
  have hp := (reachable_invariant h).consistent
  have hr := (reachable_tabled h).routing
  have named : ∀ g, ∀ r ∈ aliveWorkersLocked s.pool g, (s.pool.heap r).group.name = g ∧
      ∃ id, s.pool.workers.get? id = some r := by
    intro g r hm
    obtain ⟨hin, hg, -⟩ := mem_aliveWorkersLocked.mp hm
    exact ⟨hg, inTable_values.mpr hin⟩
  constructor
  · exact fun t ht => (hp.books.keys t).mp ht
  · intro g r hm
    obtain ⟨rfl, id, hid⟩ := named g r hm
    obtain ⟨hreg, hlt, -⟩ := hr.placed id r hid
    exact ⟨hreg, hlt⟩
  · intro g a ha b hb hab
    obtain ⟨hga, ia, hia⟩ := named g a ha
    obtain ⟨hgb, ib, hib⟩ := named g b hb
    obtain ⟨-, -, hna, -⟩ := hr.placed ia a hia
    obtain ⟨-, -, hnb, -⟩ := hr.placed ib b hib
    rw [hna, hga, hab, ← hgb, ← hnb, hib] at hia
    exact (Option.some.inj hia).symm
  · exact hp.books.values_nodup

/-- A run of assignments from any counts and cursors, in which no queue of a live worker refuses a
request. Each goes to a live worker with the least count, and the counts of a group's live
workers stay within the larger of one and their first difference. From equal counts the live
workers are visited in the cyclic order of their indices from the cursor on: of any `n`
assignments in a row each gets one, and of the first `m` each has got `m / n`, rounded down or
up. -/
theorem workers_balanced (hs : Seated p) (h : Assigning p l q)
    (hg : p.groups.get? g = some grp) :
    (∀ newer r older, l = newer ++ r :: older → ∃ m, Assigning p older m ∧
      r ∈ aliveWorkersLocked m (m.heap r).group.name ∧
      ∀ r' ∈ aliveWorkersLocked m (m.heap r).group.name,
        (m.heap r).outstanding ≤ (m.heap r').outstanding) ∧
    (∀ d, (∀ a ∈ aliveWorkersLocked p g, ∀ b ∈ aliveWorkersLocked p g,
        (p.heap a).outstanding ≤ (p.heap b).outstanding + d) →
      ∀ a ∈ aliveWorkersLocked q g, ∀ b ∈ aliveWorkersLocked q g,
        (q.heap a).outstanding ≤ (q.heap b).outstanding + max 1 d) ∧
    (aliveWorkersLocked p g ≠ [] → (∀ a ∈ aliveWorkersLocked p g, ∀ b ∈ aliveWorkersLocked p g,
        (p.heap a).outstanding = (p.heap b).outstanding) →
      ∃ visited : List Ref, visited.Perm (aliveWorkersLocked p g) ∧
        (visited.Pairwise fun a b =>
          distance grp.processCount (p.groupCursors g) (p.heap a).index <
            distance grp.processCount (p.groupCursors g) (p.heap b).index) ∧
        (ofGroup p g l).reverse = (List.range (ofGroup p g l).length).map
          (fun k => visited.getD (k % visited.length) 0) ∧
        (∀ newest newer older, ofGroup p g l = newest ++ (newer ++ older) →
          newer.length = visited.length → ∀ a ∈ aliveWorkersLocked p g, newer.count a = 1) ∧
        ∀ a ∈ aliveWorkersLocked p g,
          (ofGroup p g l).count a = (ofGroup p g l).length / visited.length ∨
          (ofGroup p g l).count a =
            ((ofGroup p g l).length + visited.length - 1) / visited.length) := by
  obtain ⟨hst, -, hturns⟩ := run_turns h hs
  have hgturns := hturns g grp hg
  refine ⟨?_, ?_, ?_⟩
  · intro newer r older hl
    rw [hl] at h
    obtain ⟨u, hu⟩ := h.older
    cases hu with
    | @next _ m _ _ _ _ _ hm puts he =>
      obtain ⟨-, hsm, -⟩ := run_turns hm hs
      obtain ⟨-, -, hmem, hturn, -⟩ := execute_turn hsm puts he
      refine ⟨m, hm, hmem, ?_⟩
      intro r' hr'
      have hleast := hturn.least hr'
      simp only [balance, hmem, hr', ↓reduceIte] at hleast
      exact hleast
  · intro d hd a ha b hb
    rw [hst.alive] at ha hb
    have hspread := hgturns.spread (d := d) ?_ ha hb
    · simp only [balance, hst.alive, ha, hb, ↓reduceIte] at hspread
      exact hspread
    · intro a ha b hb
      simp only [balance, ha, hb, ↓reduceIte]
      exact hd a ha b hb
  · intro hne heq
    have hc := circle hs hg hne heq
    have hload : ∀ a ∈ aliveWorkersLocked p g, ∀ b ∈ aliveWorkersLocked p g,
        (balance p g).load a = (balance p g).load b := by
      intro a ha b hb
      simp only [balance, ha, hb, ↓reduceIte]
      exact heq a ha b hb
    refine ⟨orderedWorkersLocked p g, ordered_perm ⟨grp, hg⟩, ?_, (hc.turns hload hgturns).1,
      ?_, ?_⟩
    · rw [List.pairwise_iff_getElem]
      intro j k hj hk hjk
      have hord := hc.ordered j k hjk hk
      rw [List.getD_eq_getElem _ _ hj, List.getD_eq_getElem _ _ hk] at hord
      exact hord
    · intro newest newer older hl hn a ha
      rw [hl] at hgturns
      obtain ⟨u, hu⟩ := hgturns.older
      exact hc.window hload hu hn ha
    · intro a ha
      exact hc.share hload hgturns ha

/-- Two requests on two idle workers, the cursor at index zero. -/
theorem two_workers_in_turn : ∃ p q : Pool, Assigning p [1, 0] q ∧
    ∀ a ∈ aliveWorkersLocked p "g", [1, 0].count a = 1 := by
  have hr : Reachable (started (constructed ["echo"] [restartPair]) : State Unit) :=
    Transitions.System.reachable_init (init_constructed (by decide +kernel))
  have hs : Seated (constructed ["echo"] [restartPair]) := reachable_seated hr
  have first := (Assigning.start (constructed ["echo"] [restartPair])).executed []
    { handlerName := "echo", taskId := "a" } 0 0 (by decide +kernel) (by decide +kernel)
  have second := first.executed []
    { handlerName := "echo", taskId := "b" } 1 1 (by decide +kernel) (by decide +kernel)
  obtain ⟨visited, hperm, -, -, hwindow, -⟩ := (workers_balanced hs second
    (by decide +kernel : (constructed _ _).groups.get? "g" = some restartPair)).2.2
    (by decide +kernel) (by decide +kernel)
  refine ⟨_, _, second, ?_⟩
  apply hwindow [] [1, 0] [] (by decide +kernel)
  rw [hperm.length_eq]
  decide +kernel

end WorkerBalance
