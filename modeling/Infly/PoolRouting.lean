import Infly.PoolInvariant

/-! # The routing tables

Which handlers a group resolved to, on which groups a handler's route passes, and which
workers a group has: the tables say the same in every reachable state.
-/
namespace PoolRouting

open Contracts Config PoolState PoolTables PoolAccounting PoolGroups PoolModel PoolFrames
open PoolInvariant

variable {p q : Pool} {r : Ref} {group : WorkerGroup} {names : List String}

/-! ## The tables -/

/-- The registered groups whose resolved handlers contain `h`, in the order of `_groups`. -/
def hostingGroups (p : Pool) (h : String) : List String :=
  p.groups.keys.filter fun g => decide (h ∈ routes p.groupHandlers g)

/-- `names` may be what `_resolve_group_handlers` returned for the group. -/
structure Resolved (group : WorkerGroup) (names : List String) : Prop where
  nodup : names.Nodup
  listed : group.handlers ≠ [] → names = group.handlers

structure Routing (p : Pool) : Prop where
  resolved : ∀ g group, p.groups.get? g = some group → group.name = g ∧
    ∃ names, p.groupHandlers.get? g = some names ∧ Resolved group names
  listed : ∀ h, routes p.handlerGroups h = hostingGroups p h
  filled : ∀ h, p.handlerGroups.get? h ≠ some []
  staffed : ∀ g group, p.groups.get? g = some group → ∀ k < group.processCount,
    ∃ r, p.workers.get? (workerName g k) = some r
  placed : ∀ id r, p.workers.get? id = some r →
    p.groups.get? (p.heap r).group.name = some (p.heap r).group ∧
      (p.heap r).index < (p.heap r).group.processCount ∧
      id = workerName (p.heap r).group.name (p.heap r).index ∧
      p.groupHandlers.get? (p.heap r).group.name = some (p.heap r).handlerNames

/-- Every worker state ever made is named after its group and index. -/
def Labelled (p : Pool) : Prop :=
  ∀ r < p.nextRef, (p.heap r).workerId = workerName (p.heap r).group.name (p.heap r).index

theorem resolveGroupHandlers_resolved (hn : p.registry.Nodup)
    (h : resolveGroupHandlers p group = .ok names) : Resolved group names := by
  unfold resolveGroupHandlers at h
  by_cases hg : group.handlers = []
  · simp only [hg, ↓reduceIte] at h
    split at h
    · cases h
    · cases h
      exact ⟨hn, fun hne => absurd hg hne⟩
  · simp only [hg, ↓reduceIte] at h
    split at h
    · cases h
    · cases h
      exact ⟨group.handlers_nodup, fun _ => rfl⟩

theorem newWorkers_labelled (hl : Labelled p) (group : WorkerGroup) (names : List String) :
    Labelled (newWorkers p group names).1 := by
  intro r hr
  by_cases hold : r < p.nextRef
  · rw [newWorkers_heap group names hold]
    exact hl r hold
  · have hle : p.nextRef ≤ r := Nat.le_of_not_lt hold
    have hlt : r < p.nextRef + group.processCount := hr
    simp only [newWorkers, hle, hlt, and_self, ↓reduceIte, newWorker]

namespace Routing

/-- Steps that leave the tables alone keep every worker in its place. -/
theorem frame (hr : Routing p) (ht : SameTables p q)
    (hheap : ∀ r, InTable p r → Lasting (p.heap r) (q.heap r)) : Routing q := by
  refine ⟨?_, ?_, ?_, ?_, ?_⟩
  · rw [ht.groups, ht.groupHandlers]
    exact hr.resolved
  · intro h
    rw [ht.handlerGroups, hr.listed, hostingGroups, hostingGroups, ht.groups, ht.groupHandlers]
  · rw [ht.handlerGroups]
    exact hr.filled
  · rw [ht.groups, ht.workers]
    exact hr.staffed
  · intro id r hid
    rw [ht.workers] at hid
    have hl := hheap r ⟨id, hid⟩
    rw [ht.groups, ht.groupHandlers, hl.group, hl.index, hl.handlerNames]
    exact hr.placed id r hid

end Routing

/-! ## Publishing a group -/

private theorem appendGroups_filled (g : String) (names : List String)
    (d : Dict String (List String)) (h : String)
    (hempty : (names.foldl (fun d n => appendGroup d n g) d).get? h = some []) :
    d.get? h = some [] := by
  induction names generalizing d with
  | nil => exact hempty
  | cons n rest ih =>
    have hone : (appendGroup d n g).get? h = some [] := ih _ hempty
    rw [appendGroup, Dict.get?_set] at hone
    split at hone
    · simp at hone
    · exact hone

theorem publish_routing {workers : List Ref} (hp : Consistent p) (hr : Routing p)
    (hl : Labelled p) (hf : Fresh p group workers) (hnew : group.name ∉ p.groups.keys)
    (hres : Resolved group names) (hnames : ∀ r ∈ workers, (p.heap r).handlerNames = names) :
    Routing (publishGroup p group names workers) := by
  have hnone : p.groups.get? group.name = none := Dict.get?_eq_none.mpr hnew
  have entry := publish_workers names hf hp.grouped hnew
  have heap : (publishGroup p group names workers).heap = p.heap := rfl
  have other : ∀ {g grp}, p.groups.get? g = some grp → g ≠ group.name := by
    rintro g grp hg rfl
    rw [hnone] at hg
    cases hg
  refine ⟨?_, ?_, ?_, ?_, ?_⟩
  · intro g grp hg
    simp only [publishGroup, Dict.get?_set] at hg ⊢
    by_cases e : g = group.name
    · subst e
      simp only [↓reduceIte, Option.some.injEq] at hg ⊢
      subst hg
      exact ⟨rfl, names, rfl, hres⟩
    · simp only [e, ↓reduceIte] at hg ⊢
      exact hr.resolved g grp hg
  · intro h
    have old : (p.groups.keys.filter fun g =>
        decide (h ∈ routes (p.groupHandlers.set group.name names) g)) = hostingGroups p h := by
      refine List.filter_congr fun g hg => ?_
      have e : g ≠ group.name := fun e => hnew (e ▸ hg)
      rw [routes_set, if_neg e]
    show routes (names.foldl (fun d n => appendGroup d n group.name) p.handlerGroups) h =
      (p.groups.set group.name group).keys.filter fun g =>
        decide (h ∈ routes (p.groupHandlers.set group.name names) g)
    rw [publish_routes, Dict.keys_set_new hnone, List.filter_append, old, hr.listed]
    congr 1
    by_cases hm : h ∈ names
    · simp [routes_set, hm, List.count_eq_one_of_mem hres.nodup hm]
    · simp [routes_set, hm, List.count_eq_zero.mpr hm]
  · intro h hempty
    exact hr.filled h (appendGroups_filled _ _ _ h hempty)
  · intro g grp hg k hk
    simp only [publishGroup, Dict.get?_set] at hg
    by_cases e : g = group.name
    · subst e
      simp only [↓reduceIte, Option.some.injEq] at hg
      subst hg
      obtain ⟨base, hw, -, hid⟩ := hf.refs
      exact ⟨base + k, (entry _ _).mpr (Or.inr ⟨by
        rw [hw]
        exact List.mem_map.mpr ⟨k, List.mem_range.mpr hk, rfl⟩, hid k hk⟩)⟩
    · simp only [e, ↓reduceIte] at hg
      obtain ⟨r, hr⟩ := hr.staffed g grp hg k hk
      exact ⟨r, (entry _ _).mpr (Or.inl hr)⟩
  · intro id r hid
    rw [heap]
    rcases (entry id r).mp hid with hid | ⟨hmem, rfl⟩
    · obtain ⟨hgroup, hindex, hname, hhandlers⟩ := hr.placed id r hid
      have e := other hgroup
      refine ⟨?_, hindex, hname, ?_⟩
      · simp only [publishGroup, Dict.get?_set, e, ↓reduceIte]
        exact hgroup
      · simp only [publishGroup, Dict.get?_set, e, ↓reduceIte]
        exact hhandlers
    · have hgrp := hf.group r hmem
      have hlabel := hl r (hf.allocated hmem)
      obtain ⟨base, hw, -, hidk⟩ := hf.refs
      rw [hw] at hmem
      obtain ⟨k, hk, rfl⟩ := List.mem_map.mp hmem
      have hk' := List.mem_range.mp hk
      have hindex : (p.heap (base + k)).index = k := by
        have := hlabel.symm.trans (hidk k hk')
        exact (workerName_injective this).2
      refine ⟨?_, ?_, hlabel, ?_⟩
      · simp [publishGroup, hgrp]
      · rw [hindex, hgrp]
        exact hk'
      · rw [hgrp, hnames _ (hw ▸ hmem)]
        simp [publishGroup]

/-! ## Unregistering a group -/

theorem unregister_routing {g : String} {failed : List FutureId} (hr : Routing p)
    (hu : Unregistered p q g failed) : Routing q := by
  obtain ⟨d, hroutes, hret⟩ := hu.retired
  obtain ⟨heap, workers, futures, assignments, hrest⟩ := hret.rest
  have hgroups : q.groups = p.groups.pop g := by rw [hrest]; rfl
  have hhandlers : q.groupHandlers = p.groupHandlers.pop g := by rw [hrest]; rfl
  have hlisted : q.handlerGroups = d := by rw [hrest]; rfl
  have stays : ∀ {id r}, q.workers.get? id = some r →
      p.workers.get? id = some r ∧ (p.heap r).group.name ≠ g ∧ q.heap r = p.heap r := by
    intro id r hid
    obtain ⟨hid', hnot⟩ := (hret.table id r).mp hid
    exact ⟨hid', fun e => hnot (mem_groupWorkers.mpr ⟨⟨id, hid'⟩, e⟩), hu.heap hnot⟩
  refine ⟨?_, ?_, fun h hempty => hr.filled h (hu.filled h hempty), ?_, ?_⟩
  · intro g' grp hg
    rw [hgroups, Dict.get?_pop] at hg
    rw [hhandlers, Dict.get?_pop]
    by_cases e : g' = g
    · simp [e] at hg
    · simp only [e, ↓reduceIte] at hg ⊢
      exact hr.resolved g' grp hg
  · intro h
    rw [hlisted, hroutes, hr.listed, hostingGroups, hostingGroups, hgroups, hhandlers,
      Dict.keys_pop, List.filter_comm]
    refine List.filter_congr fun g' hg => ?_
    have e : g' ≠ g := by simpa using (List.mem_filter.mp hg).2
    rw [routes_pop, if_neg e]
  · intro g' grp hg k hk
    rw [hgroups, Dict.get?_pop] at hg
    by_cases e : g' = g
    · simp [e] at hg
    simp only [e, ↓reduceIte] at hg
    obtain ⟨r, hr'⟩ := hr.staffed g' grp hg k hk
    refine ⟨r, (hret.table _ r).mpr ⟨hr', fun hm => e ?_⟩⟩
    rw [← (mem_groupWorkers.mp hm).2]
    exact (workerName_injective (hr.placed _ r hr').2.2.1).1
  · intro id r hid
    obtain ⟨hid', hne, hheap⟩ := stays hid
    rw [hheap, hgroups, hhandlers, Dict.get?_pop, Dict.get?_pop, if_neg hne, if_neg hne]
    exact hr.placed id r hid'

/-! ## Construction -/

theorem addGroup_routing (hp : Prepared p) (hn : p.registry.Nodup) (hl : Labelled p)
    (hr : Routing p) (h : addGroup p group = .ok q) :
    q.registry.Nodup ∧ Labelled q ∧ Routing q := by
  obtain ⟨names, ready, hs, rfl⟩ := addGroup_staffed h
  have hlabel : Labelled ready := by
    intro r hlt
    by_cases hold : r < p.nextRef
    · rw [hs.old r hold]
      exact hl r hold
    · obtain ⟨heap, hready⟩ := hs.rest
      obtain ⟨k, rfl⟩ := Nat.exists_eq_add_of_le (Nat.le_of_not_lt hold)
      have hk : k < group.processCount := by
        rw [hready] at hlt
        exact Nat.lt_of_add_lt_add_left hlt
      rw [hs.workers k hk]
      rfl
  have hrouting : Routing ready := by
    have old : ∀ r, InTable p r → Lasting (p.heap r) (ready.heap r) := fun r hr => by
      rw [hs.old r (hp.consistent.books.allocated r hr)]
      exact .rfl' _
    obtain ⟨heap, rfl⟩ := hs.rest
    exact hr.frame ⟨rfl, rfl, rfl, rfl⟩ old
  have hregistry : ready.registry = p.registry := by
    obtain ⟨heap, rfl⟩ := hs.rest
    rfl
  have hnew : group.name ∉ ready.groups.keys := by
    obtain ⟨heap, rfl⟩ := hs.rest
    exact hs.unlisted
  refine ⟨hregistry ▸ hn, hlabel, publish_routing (hs.consistent hp.consistent) hrouting hlabel
    hs.fresh hnew (resolveGroupHandlers_resolved hn hs.resolved) fun r hm => ?_⟩
  obtain ⟨k, hk, rfl⟩ := List.mem_map.mp hm
  rw [hs.workers k (List.mem_range.mp hk)]
  rfl

theorem emptyPool_routing (registry : List String) : Routing (emptyPool registry) := by
  refine ⟨?_, ?_, ?_, ?_, ?_⟩ <;> simp [emptyPool, routes, hostingGroups]

theorem construct_routing {registry : List String} {groups : List WorkerGroup}
    (hn : registry.Nodup) (h : construct registry groups = .ok p) :
    p.registry.Nodup ∧ Labelled p ∧ Routing p := by
  apply (construct_rule (P := fun p => p.registry.Nodup ∧ Labelled p ∧ Routing p) _ _ h).2
  · refine ⟨hn, ?_, emptyPool_routing registry⟩
    exact fun r hr => absurd hr (Nat.not_lt_zero r)
  · intro p g q hp hq h
    exact addGroup_routing hp hq.1 hq.2.1 hq.2.2 h

/-! ## Every reachable state -/

variable {ι : Type}

/-- The workers of a registration carry the handler names its group resolved to. -/
structure Drafted (p : Pool) (job : Registration) : Prop where
  resolved : Resolved job.group job.handlerNames
  handlerNames : ∀ r ∈ job.workers, (p.heap r).handlerNames = job.handlerNames

structure Tabled (s : State ι) : Prop where
  registry : s.pool.registry.Nodup
  labelled : Labelled s.pool
  drafted : ∀ i job, UserPc.job (s.user i) = some job → Drafted s.pool job
  routing : Routing s.pool

section

variable [DecidableEq ι] {s : State ι} {e : Event ι} {i : ι}

theorem registry_next (hi : Invariant s) (ht : Tabled s) : (next s e).pool.registry.Nodup := by
  by_cases h : ∃ name, e = .registerHandler name
  · obtain ⟨name, rfl⟩ := h
    simp only [next, addHandler]
    split
    · exact ht.registry
    · rename_i hnew
      exact (List.perm_orderedInsert _ _ _).nodup_iff.mpr (List.nodup_cons.mpr ⟨hnew, ht.registry⟩)
  · push Not at h
    rw [registry_frame hi.consistent h]
    exact ht.registry

theorem labelled_next (hi : Invariant s) (ht : Tabled s) : Labelled (next s e).pool := by
  by_cases h : ∃ i group, e = .registerCall i group
  · obtain ⟨i, group, rfl⟩ := h
    rcases registerNext_pool (s := s) i group with hpool | ⟨names, -, hpool⟩ <;>
      simp only [next, hpool]
    · exact ht.labelled
    · exact newWorkers_labelled ht.labelled group names
  · push Not at h
    intro r hr
    rw [allocated_frame hi.consistent h] at hr
    have hl := worker_frame (e := e) hi.consistent hr
    rw [hl.workerId, hl.group, hl.index]
    exact ht.labelled r hr

theorem drafted_next (hi : Invariant s) (ht : Tabled s) (he : Enabled s e) {job : Registration}
    (h : UserPc.job ((next s e).user i) = some job) : Drafted (next s e).pool job := by
  rcases job_next he h with hold | ⟨group, names, rfl, -, hnames, rfl, hpool⟩
  · obtain ⟨hres, hnames⟩ := ht.drafted i job hold
    refine ⟨hres, fun r hr => ?_⟩
    rw [(worker_frame hi.consistent ((hi.jobs i job hold).fresh.allocated hr)).handlerNames]
    exact hnames r hr
  · rw [hpool]
    refine ⟨resolveGroupHandlers_resolved ht.registry hnames, fun r hr => ?_⟩
    obtain ⟨k, hk, rfl⟩ := List.mem_map.mp hr
    simp [newWorkers, List.mem_range.mp hk, newWorker]

theorem routing_next (hi : Invariant s) (ht : Tabled s) (he : Enabled s e) :
    Routing (next s e).pool := by
  by_cases hreg : Event.regroups e = false
  · exact ht.routing.frame (tables_frame hi.consistent.books hreg) fun r hr =>
      worker_frame hi.consistent (hi.consistent.books.allocated r hr)
  cases e <;> simp only [Event.regroups, not_true_eq_false] at hreg
  case publish i job =>
    simp only [Enabled] at he
    have hj : UserPc.job (s.user i) = some job := by rw [he]; rfl
    obtain ⟨hres, hnames⟩ := ht.drafted i job hj
    simp only [next, publishNext]
    split
    · exact ht.routing
    · rename_i hok
      exact publish_routing hi.consistent ht.routing ht.labelled (hi.jobs i job hj).fresh
        (ensured_unlisted hok) hres hnames
  case unregisterCall i g =>
    simp only [next, unregisterNext_pool]
    rcases unregisterLocked_cases hi.consistent g with
      ⟨-, e, hu⟩ | ⟨-, -, -, q, failed, hu, hq⟩ <;> rw [hu]
    · exact ht.routing
    · exact unregister_routing ht.routing hq

theorem reachable_tabled (h : Reachable s) : Tabled s := by
  refine Transitions.System.invariant_reachable ?_ ?_ h
  · rintro s ⟨registry, groups, p, pipe, logs, hn, hp, rfl⟩
    obtain ⟨hregistry, hl, hr⟩ := construct_routing hn hp
    exact ⟨hregistry, hl, fun i job h => (by cases h), hr⟩
  · rintro s e t hr ht ⟨he, rfl⟩
    have hi := reachable_invariant hr
    exact ⟨registry_next hi ht, labelled_next hi ht, fun i job => drafted_next hi ht he,
      routing_next hi ht he⟩

/-! ## What the tables say -/

/-- The indices of a registered group's workers are `0` to `process_count - 1`, each once. -/
theorem Routing.indices {p : Pool} (hr : Routing p) (hp : Consistent p) {g : String}
    {group : WorkerGroup} (hg : p.groups.get? g = some group) :
    ((groupWorkers p g).map fun r => (p.heap r).index).Perm (List.range group.processCount) := by
  have hname := (hr.resolved g group hg).1
  have own : ∀ r ∈ groupWorkers p g, p.workers.get? (workerName g (p.heap r).index) = some r ∧
      (p.heap r).group = group := by
    intro r hm
    obtain ⟨⟨id, hid⟩, e⟩ := mem_groupWorkers.mp hm
    obtain ⟨hgroup, -, hidname, -⟩ := hr.placed id r hid
    rw [e] at hgroup hidname
    rw [hg] at hgroup
    exact ⟨hidname ▸ hid, (Option.some.inj hgroup).symm⟩
  refine (List.perm_ext_iff_of_nodup ?_ List.nodup_range).mpr fun k => ?_
  · refine List.Nodup.map_on ?_ (hp.books.values_nodup.filter _)
    intro r hm r' hm' e
    have := (own r hm).1
    rw [e, (own r' hm').1] at this
    exact (Option.some.inj this).symm
  · rw [List.mem_range, List.mem_map]
    constructor
    · rintro ⟨r, hm, rfl⟩
      obtain ⟨hid, hgroup⟩ := own r hm
      exact hgroup ▸ (hr.placed _ r hid).2.1
    · intro hk
      obtain ⟨r, hid⟩ := hr.staffed g group hg k hk
      obtain ⟨-, -, hidname, -⟩ := hr.placed _ r hid
      obtain ⟨e, ek⟩ := workerName_injective hidname
      exact ⟨r, mem_groupWorkers.mpr ⟨⟨_, hid⟩, e.symm⟩, ek.symm⟩

/-- What the six tables promise to each other and to `execute`. -/
structure TablesAgree (p : Pool) : Prop where
  routes : ∀ h, p.handlerGroups.get? h =
    if hostingGroups p h = [] then none else some (hostingGroups p h)
  registered : ∀ g, g ∈ p.groups.keys ↔ g ∈ p.groupHandlers.keys
  resolved : ∀ g group, p.groups.get? g = some group → group.name = g ∧
    ∃ names, p.groupHandlers.get? g = some names ∧ Resolved group names
  staffed : ∀ g group, p.groups.get? g = some group →
    ((groupWorkers p g).map fun r => (p.heap r).index).Perm (List.range group.processCount)
  placed : ∀ id r, p.workers.get? id = some r →
    p.groups.get? (p.heap r).group.name = some (p.heap r).group ∧
      id = workerName (p.heap r).group.name (p.heap r).index ∧ (p.heap r).workerId = id
  lookups : ∀ h, ∀ g ∈ (p.handlerGroups.get? h).getD [],
    (∃ group, p.groups.get? g = some group) ∧ p.groups.keys.idxOf g < p.groups.keys.length
  execute : ∀ puts request f q r, execute p puts request f = (q, .assigned r) →
    r ∈ p.workers.values ∧ (p.heap r).isLive = true ∧
      p.groups.get? (p.heap r).group.name = some (p.heap r).group ∧
      (p.heap r).group.name ∈ hostingGroups p request.handlerName ∧
      request.handlerName ∈ (p.heap r).handlerNames

/-- The tables agree in every reachable state, and ids of workers of different groups
differ. -/
theorem routing_tables_agree (h : Reachable s) :
    TablesAgree s.pool ∧
      ∀ g g' i j, workerName g i = workerName g' j → g = g' ∧ i = j := by
  have hp := (reachable_invariant h).consistent
  have hr := (reachable_tabled h).routing
  have hosts : ∀ hd, ∀ g ∈ (s.pool.handlerGroups.get? hd).getD [],
      g ∈ hostingGroups s.pool hd := fun hd g hg => hr.listed hd ▸ hg
  refine ⟨⟨fun hd => ?_, hp.routed.grouped, hr.resolved, fun g group => hr.indices hp,
    fun id r hid => ?_, fun hd g hg => ?_, fun puts request f q r hex => ?_⟩,
    fun _ _ _ _ => workerName_injective⟩
  · rw [← hr.listed hd, routes]
    cases hget : s.pool.handlerGroups.get? hd with
    | none => rfl
    | some l =>
      have hne : l ≠ [] := fun e => hr.filled hd (e ▸ hget)
      simp [hne]
  · obtain ⟨hgroup, -, hname, -⟩ := hr.placed id r hid
    exact ⟨hgroup, hname, hp.books.named id r hid⟩
  · have hm := List.mem_of_mem_filter (hosts hd g hg)
    exact ⟨Dict.mem_keys.mp hm, List.idxOf_lt_length_of_mem hm⟩
  · rcases execute_routed puts request f (fun t => (hp.books.keys t).mp) with
      ⟨g, hg, r', hr', -, -, weights, cursors, hcase⟩ | ⟨weights, out, hcase, hout⟩
    · rw [hcase] at hex
      cases hex
      obtain ⟨hin, hname, hlive⟩ := mem_aliveWorkersLocked.mp hr'
      obtain ⟨id, hid⟩ := inTable_values.mpr hin
      obtain ⟨hgroup, -, -, hnames⟩ := hr.placed id r hid
      have hhost := hosts _ g hg
      rw [← hname] at hhost
      refine ⟨hin, hlive, hgroup, hhost, ?_⟩
      have := (List.mem_filter.mp hhost).2
      simpa only [PoolGroups.routes, hnames, Option.getD_some, decide_eq_true_eq] using this
    · rw [hcase] at hex
      exact absurd (Prod.mk.inj hex).2 (hout r)

end

/-- Two calls register the name `h` at once; the one that publishes second is refused. -/
def rivals : List (Event Bool) :=
  let job (r : Ref) : Registration := ⟨rivalGroup, ["echo"], [r]⟩
  [.registerCall false rivalGroup, .registerCall true rivalGroup,
    .ensure false (job 1), .ensure true (job 2),
    .launch false (job 1) 1 [] .started, .launch true (job 2) 2 [] .started,
    .awaitReady false (job 1) 1 [] .ready, .awaitReady true (job 2) 2 [] .ready,
    .publish true (job 2), .publish false (job 1)]

theorem rivals_routed : ∃ s : State Bool, (s.user false).resting = false ∧
    s.user true = .returned ∧ s.pool.handlerGroups.get? "echo" = some ["g", "h"] := by
  have hr : Reachable (rivals.foldl next (started (constructed ["echo"] [sampleGroup]))) :=
    reachable_replay (by decide +kernel) (by decide +kernel)
  refine ⟨_, ?_, ?_, ((routing_tables_agree hr).1.routes "echo").trans ?_⟩ <;> decide +kernel

end PoolRouting
