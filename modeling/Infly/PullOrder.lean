import Infly.BackendHistory

/-! # The order in which tasks are pulled

The accepted submissions that nobody has pulled wait in line: the queue is their stable sort
by descending priority.
-/
namespace PullOrder

open Contracts TaskBackend Retention BackendHistory Transitions

/-- Priority and task id. -/
abbrev Submission := ℤ × TaskId

/-- The accepted submissions, in the order in which they were accepted. -/
def submissions (log : List Movement) : List Submission :=
  log.reverse.filterMap fun | .accepted r priority => some (priority, r.taskId) | _ => none

def sequenceOf (e : Entry) : ℕ := (ofLex (ofLex e).2).1

def priorityOf (e : Entry) : ℤ := -(ofLex e).1

/-- The sequence numbers of the pulled entries, in the order of the pulls. -/
def pulls (log : List Movement) : List ℕ :=
  log.reverse.filterMap fun | .pulled e => some (sequenceOf e) | _ => none

/-- Those that were not pulled, each with its position. -/
def waiting (log : List Movement) : List (Submission × ℕ) :=
  (submissions log).zipIdx.filter fun w => decide (w.2 ∉ pulls log)

def entry (w : Submission × ℕ) : Entry := toLex (-w.1.1, toLex (w.2, w.1.2))

/-- A stable sort by descending priority. -/
def inLine (line : List (Submission × ℕ)) : List (Submission × ℕ) :=
  line.insertionSort fun v w => w.1.1 ≤ v.1.1

variable {ι : Type} {s : State} {e : Event ι} {log : List Movement} {m : Movement}
  {v w : Submission × ℕ} {i : ℕ}

theorem entry_taskId (w : Submission × ℕ) : (entry w).taskId = w.1.2 := rfl

theorem entry_sequence (w : Submission × ℕ) : sequenceOf (entry w) = w.2 := rfl

theorem entry_priority (w : Submission × ℕ) : priorityOf (entry w) = w.1.1 :=
  Int.neg_neg w.1.1

theorem entry_le (hp : w.1.1 ≤ v.1.1) (ht : v.1.1 ≤ w.1.1 → v.2 < w.2) : entry v ≤ entry w := by
  unfold entry
  rw [Prod.Lex.toLex_le_toLex]
  rcases lt_or_eq_of_le hp with hlt | heq
  · left
    dsimp only
    omega
  · right
    refine ⟨congrArg Neg.neg heq.symm, ?_⟩
    rw [Prod.Lex.toLex_le_toLex]
    exact .inl (ht heq.ge)

theorem submissions_lt (h : ∃ p, (submissions log)[i]? = some p) : i < (submissions log).length := by
  obtain ⟨p, hp⟩ := h
  exact (List.getElem?_eq_some_iff.mp hp).1

theorem mem_waiting :
    w ∈ waiting log ↔ (submissions log)[w.2]? = some w.1 ∧ w.2 ∉ pulls log := by
  unfold waiting
  rw [List.mem_filter, List.mem_zipIdx_iff_getElem?, decide_eq_true_iff]

theorem zipIdx_increasing {α : Type} (l : List α) (n : ℕ) :
    (l.zipIdx n).Pairwise fun a b => a.2 < b.2 := by
  induction l generalizing n with
  | nil => exact List.Pairwise.nil
  | cons a l ih =>
    rw [List.zipIdx_cons, List.pairwise_cons]
    refine ⟨?_, ih (n + 1)⟩
    intro b hb
    have := (List.mem_zipIdx hb).1
    dsimp only
    omega

theorem waiting_increasing (log : List Movement) : (waiting log).Pairwise fun v w => v.2 < w.2 :=
  (zipIdx_increasing (submissions log) 0).sublist List.filter_sublist

/-- A member of the line is known by its position. -/
theorem waiting_unique (hv : v ∈ waiting log) (hw : w ∈ waiting log) (h : v.2 = w.2) : v = w := by
  have h₁ := (mem_waiting.mp hv).1
  have h₂ := (mem_waiting.mp hw).1
  rw [h, h₂] at h₁
  exact Prod.ext (Option.some.inj h₁).symm h

/-! ## The queue holds the line -/

structure Queued (s : State) : Prop where
  sequence : s.backend.sequence = (submissions s.log).length
  entries : s.backend.pending.entries.Perm ((waiting s.log).map entry)
  pulled : (pulls s.log).Nodup
  known : ∀ i ∈ pulls s.log, i < (submissions s.log).length

theorem Queued.position (h : Queued s) (hi : i ∈ pulls s.log) : i ≠ (submissions s.log).length := by
  have := h.known i hi
  omega

/-- What neither accepts nor pulls leaves the queue as it is. -/
theorem Queued.still {s' : State} (h : Queued s) (hb : s'.backend.pending = s.backend.pending)
    (hs : s'.backend.sequence = s.backend.sequence)
    (hsub : submissions s'.log = submissions s.log) (hp : pulls s'.log = pulls s.log) :
    Queued s' := by
  have hw : waiting s'.log = waiting s.log := by rw [waiting, hsub, hp, waiting]
  constructor
  · rw [hs, hsub, h.sequence]
  · rw [hb, hw]
    exact h.entries
  · rw [hp]
    exact h.pulled
  · rw [hp, hsub]
    exact h.known

theorem submissions_accept (log : List Movement) (r : TaskRecord) (priority : ℤ) :
    submissions (.accepted r priority :: log) = submissions log ++ [(priority, r.taskId)] := by
  simp [submissions, List.filterMap_append]

theorem pulls_accept (log : List Movement) (r : TaskRecord) (priority : ℤ) :
    pulls (.accepted r priority :: log) = pulls log := by
  simp [pulls, List.filterMap_append]

theorem waiting_accept (h : Queued s) (r : TaskRecord) (priority : ℤ) :
    waiting (.accepted r priority :: s.log) =
      waiting s.log ++ [((priority, r.taskId), s.backend.sequence)] := by
  have hn : (submissions s.log).length ∉ pulls s.log := fun hi => h.position hi rfl
  simp [waiting, submissions_accept, pulls_accept, List.zipIdx_append, List.filter_append, hn,
    h.sequence]

theorem submissions_pull (log : List Movement) (e : Entry) :
    submissions (.pulled e :: log) = submissions log := by
  simp [submissions, List.filterMap_append]

theorem pulls_pull (log : List Movement) (e : Entry) :
    pulls (.pulled e :: log) = pulls log ++ [sequenceOf e] := by
  simp [pulls, List.filterMap_append]

theorem waiting_pull (log : List Movement) (e : Entry) :
    waiting (.pulled e :: log) = (waiting log).filter fun w => decide (w.2 ≠ sequenceOf e) := by
  rw [waiting, waiting, submissions_pull, pulls_pull, List.filter_filter]
  apply List.filter_congr
  intro w _
  simp [Bool.and_comm]

/-- Pulling takes one member out of the line. -/
theorem waiting_perm (hw : w ∈ waiting log) :
    (waiting log).Perm (w :: (waiting log).filter fun v => decide (v.2 ≠ w.2)) := by
  have hn : (waiting log).Nodup := (waiting_increasing log).imp fun hlt he => by
    rw [he] at hlt
    exact absurd hlt (Nat.lt_irrefl _)
  rw [List.perm_ext_iff_of_nodup hn]
  · intro v
    simp only [List.mem_cons, List.mem_filter, decide_eq_true_iff]
    constructor
    · intro hv
      by_cases he : v.2 = w.2
      · exact .inl (waiting_unique hv hw he)
      · exact .inr ⟨hv, he⟩
    · rintro (rfl | ⟨hv, _⟩)
      · exact hw
      · exact hv
  · rw [List.nodup_cons]
    refine ⟨?_, hn.filter _⟩
    simp

theorem Queued.accept (h : Queued s) (r : TaskRecord) (priority : ℤ) (now : ℕ)
    (records : Dict TaskId TaskRecord) :
    Queued ⟨{ s.backend with
      records
      pending := s.backend.pending.push (toLex (-priority, toLex (s.backend.sequence, r.taskId)))
      sequence := s.backend.sequence + 1 }, now, .accepted r priority :: s.log⟩ := by
  constructor
  · simp [submissions_accept, h.sequence]
  · dsimp only
    rw [waiting_accept h, List.map_append, List.map_singleton]
    exact PriorityQueue.push_perm.trans
      ((List.Perm.cons _ h.entries).trans (List.perm_append_singleton _ _).symm)
  · dsimp only
    rw [pulls_accept]
    exact h.pulled
  · dsimp only
    rw [pulls_accept, submissions_accept, List.length_append]
    intro i hi
    exact Nat.lt_add_right _ (h.known i hi)

/-- The popped entry is the entry of someone in the line. -/
theorem Queued.popped {e : Entry} {rest : PriorityQueue Entry} (h : Queued s)
    (hp : s.backend.pending.pop = some (e, rest)) : ∃ w ∈ waiting s.log, entry w = e := by
  have hm : e ∈ s.backend.pending.entries := by
    rw [PriorityQueue.pop_eq_some hp]
    exact List.mem_cons_self ..
  exact List.mem_map.mp (h.entries.mem_iff.mp hm)

theorem Queued.pull {e : Entry} {rest : PriorityQueue Entry} (h : Queued s) (now : ℕ)
    (hp : s.backend.pending.pop = some (e, rest)) :
    Queued ⟨{ s.backend with pending := rest }, now, .pulled e :: s.log⟩ := by
  obtain ⟨w, hw, rfl⟩ := h.popped hp
  have hperm := h.entries
  rw [PriorityQueue.pop_eq_some hp] at hperm
  constructor
  · dsimp only
    rw [submissions_pull, h.sequence]
  · dsimp only
    rw [waiting_pull, entry_sequence]
    exact (hperm.trans ((waiting_perm hw).map entry)).cons_inv
  · dsimp only
    rw [pulls_pull, List.nodup_append]
    refine ⟨h.pulled, List.nodup_singleton _, ?_⟩
    intro i hi j hj
    rw [List.mem_singleton.mp hj]
    rintro rfl
    exact (mem_waiting.mp hw).2 hi
  · dsimp only
    rw [pulls_pull, submissions_pull]
    intro i hi
    rcases List.mem_append.mp hi with hi | hi
    · exact h.known i hi
    · rw [List.mem_singleton.mp hi]
      exact submissions_lt ⟨_, (mem_waiting.mp hw).1⟩

theorem evict_sequence (ids : List TaskId) (b : Backend) :
    (Backend.evict ids b).2.sequence = b.sequence := by
  induction ids generalizing b with
  | nil => rfl
  | cons t ids ih =>
    unfold Backend.evict
    cases b.records.get? t with
    | none => rfl
    | some r => exact ih (b.drop t)

theorem prune_sequence (b : Backend) : b.pruneTerminalRecords.2.sequence = b.sequence := by
  unfold Backend.pruneTerminalRecords
  by_cases hz : b.maxRetainedTerminalTasks = 0
  · simp [hz]
  · rw [if_neg hz]
    cases b.terminalTaskIds.mapM fun t => (b.pruneKey t).map fun k => (k, t) with
    | error e => rfl
    | ok keyed => exact evict_sequence _ b

theorem update_sequence (b : Backend) (now : ℕ) (t : TaskId) (x : Backend.Update) :
    (b.updateStatus now t x).2.sequence = b.sequence := by
  unfold Backend.updateStatus
  cases b.records.get? t with
  | none => rfl
  | some r =>
    dsimp only
    split
    · have hs : ({ b with records := b.records.set t (x.apply r) }.markFinished now t).sequence =
          b.sequence := by
        unfold Backend.markFinished
        split <;> rfl
      have hp := prune_sequence ({ b with records := b.records.set t (x.apply r) }.markFinished now t)
      rw [hs] at hp
      split <;> rename_i heq <;> rw [heq] at hp <;> exact hp
    · rfl

theorem next_queued (h : Queued s) : Queued (next s e) := by
  obtain ⟨client, now, operation⟩ := e
  cases operation with
  | listAll copying => exact h.still rfl rfl rfl rfl
  | call c =>
    cases c with
    | submit record priority =>
      simp only [next, perform, serve, moved, Backend.submit]
      by_cases hc : s.backend.records.contains record.1.taskId = true
      · simp only [if_pos hc]
        exact h.still rfl rfl rfl rfl
      · simp only [if_neg hc]
        exact h.accept record.1 priority now _
    | pull =>
      simp only [next, perform, serve, moved, Backend.pull]
      cases hp : s.backend.pending.pop with
      | none => exact h.still rfl rfl rfl rfl
      | some p => exact h.pull now hp
    | get t => exact h.still rfl rfl rfl rfl
    | getCopy t copying => exact h.still rfl rfl rfl rfl
    | read t consume copying =>
      apply h.still
      · exact Backend.read_pending ..
      · simp only [next, perform, serve, Backend.read]
        cases s.backend.records.get? t with
        | none => rfl
        | some r => cases consume <;> dsimp only <;> split <;> rfl
      · cases consume
        · rfl
        · simp only [next, moved]
          split <;> simp [submissions, List.filterMap_append]
      · cases consume
        · rfl
        · simp only [next, moved]
          split <;> simp [pulls, List.filterMap_append]
    | update t x =>
      apply h.still
      · exact Backend.updateStatus_pending ..
      · exact update_sequence ..
      · simp [next, moved, submissions, List.filterMap_append]
      · simp [next, moved, pulls, List.filterMap_append]

theorem reachable_queued (h : Reachable ι s) : Queued s := by
  apply System.invariant (S := system ι) (P := Queued) _ _ h
  · rintro s ⟨limit, now, rfl⟩
    exact ⟨rfl, List.Perm.nil, List.nodup_nil, fun i hi => absurd hi List.not_mem_nil⟩
  · rintro s e t hq ⟨_, rfl⟩
    exact next_queued hq

/-- The queue is the line, in order. -/
theorem Queued.sorted (h : Queued s) :
    s.backend.pending.entries = (inLine (waiting s.log)).map entry := by
  have hperm : ((inLine (waiting s.log)).map entry).Perm ((waiting s.log).map entry) :=
    (List.perm_insertionSort _ _).map entry
  apply (h.entries.trans hperm.symm).eq_of_pairwise' s.backend.pending.sorted
  rw [List.pairwise_map]
  have total : Std.Total fun v w : Submission × ℕ => w.1.1 ≤ v.1.1 :=
    ⟨fun v w => le_total w.1.1 v.1.1⟩
  have trans : IsTrans (Submission × ℕ) fun v w => w.1.1 ≤ v.1.1 :=
    ⟨fun _ _ _ h k => le_trans k h⟩
  apply (PriorityQueue.insertionSort_stable (waiting_increasing s.log)).imp
  rintro v w ⟨hp, ht⟩
  exact entry_le hp ht

/-- The queue is the stable sort of the accepted submissions not yet pulled, by descending
priority; no two entries tie on priority and sequence. A pull returns `None` only when none
is left, and else the submission of the highest priority, the earliest accepted of these;
each is pulled once. -/
theorem pull_order (h : Reachable ι s) :
    s.backend.queued = (inLine (waiting s.log)).map (fun w => w.1.2) ∧
    (s.backend.pending.entries.map fun e => (priorityOf e, sequenceOf e)).Nodup ∧
    (pulls s.log).Nodup ∧ (∀ i ∈ pulls s.log, i < (submissions s.log).length) ∧
    (s.backend.pull.1 = none ↔ waiting s.log = []) ∧
    ∀ t, s.backend.pull.1 = some t → ∃ priority i, ((priority, t), i) ∈ waiting s.log ∧
      (∀ e : Event ι, e.operation = .call .pull → pulls (next s e).log = pulls s.log ++ [i]) ∧
      ∀ p u j, ((p, u), j) ∈ waiting s.log → j ≠ i → p < priority ∨ p = priority ∧ i < j := by
  have hq := reachable_queued h
  have hs := hq.sorted
  refine ⟨?_, ?_, hq.pulled, hq.known, ?_, ?_⟩
  · rw [Backend.queued, hs, List.map_map]
    rfl
  · have hn : ((waiting s.log).map fun w => (w.1.1, w.2)).Nodup := by
      rw [List.Nodup, List.pairwise_map]
      apply (waiting_increasing s.log).imp
      intro v w hlt he
      have := congrArg Prod.snd he
      dsimp only at this
      omega
    apply (hq.entries.map _).nodup_iff.mpr
    rw [List.map_map]
    simpa [Function.comp_def, entry_priority, entry_sequence] using hn
  · unfold Backend.pull
    cases hp : s.backend.pending.pop with
    | none =>
      rw [PriorityQueue.pop_eq_none] at hp
      have := hq.entries.length_eq
      rw [hp, List.length_map, List.length_nil] at this
      simpa using List.length_eq_zero_iff.mp this.symm
    | some p =>
      obtain ⟨w, hw, _⟩ := hq.popped hp
      simpa using List.ne_nil_of_mem hw
  · intro t ht
    unfold Backend.pull at ht
    cases hp : s.backend.pending.pop with
    | none =>
      rw [hp] at ht
      cases ht
    | some p =>
      obtain ⟨w, hw, he⟩ := hq.popped hp
      rw [hp] at ht
      have hid : w.1.2 = t := by
        rw [← entry_taskId, he]
        exact Option.some.inj ht
      refine ⟨w.1.1, w.2, hid ▸ hw, ?_, ?_⟩
      · intro e hop
        have hlog : (next s e).log = .pulled p.1 :: s.log := by
          simp [next, hop, moved, hp]
        rw [hlog, pulls_pull, ← he, entry_sequence]
      · intro priority u j hj hne
        have hm : entry ((priority, u), j) ∈ s.backend.pending.entries :=
          hq.entries.mem_iff.mpr (List.mem_map_of_mem hj)
        have hle := PriorityQueue.pop_least hp hm
        rw [← he, entry, entry, Prod.Lex.toLex_le_toLex] at hle
        rcases hle with hlt | ⟨heq, hle⟩
        · left
          dsimp only at hlt
          omega
        · right
          dsimp only at heq
          rw [Prod.Lex.toLex_le_toLex] at hle
          refine ⟨by omega, ?_⟩
          rcases hle with hlt | ⟨hji, _⟩
          · exact hlt
          · exact absurd hji.symm hne

/-- Two of one priority and one of a higher, which is pulled in between. -/
def threeSubmissions : List (Event Unit) :=
  [.submit (pendingRecord "a") 1, .submit (pendingRecord "b") 2, .pull,
    .submit (pendingRecord "a") 3, .submit (pendingRecord "c") 1].map fun c => ⟨(), 0, .call c⟩

theorem three_submissions_in_line : ∃ s, Reachable Unit s ∧ pulls s.log = [1] ∧
    waiting s.log = [((1, "a"), 0), ((1, "c"), 2)] ∧
    s.backend.queued = (inLine (waiting s.log)).map (fun w => w.1.2) := by
  have hr : Reachable Unit (threeSubmissions.foldl next (begin 50 0)) :=
    reachable_replay (by decide +kernel)
  exact ⟨_, hr, by decide +kernel, by decide +kernel, (pull_order hr).1⟩

end PullOrder
