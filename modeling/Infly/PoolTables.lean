import Infly.PoolState
import Infly.Traversal

/-! # What each table operation does

One lemma for each operation, for callers that never look inside it.
-/
namespace PoolTables

open Contracts Config PoolState

/-- The fields that the bookkeeping reads. -/
structure SameBooks (w v : WorkerState) : Prop where
  workerId : v.workerId = w.workerId
  index : v.index = w.index
  group : v.group = w.group
  generation : v.generation = w.generation
  outstanding : v.outstanding = w.outstanding

theorem SameBooks.assignment {w v : WorkerState} (h : SameBooks w v) :
    v.assignment = w.assignment := by
  simp [WorkerState.assignment, h.workerId, h.generation]

theorem SameBooks.rfl' (w : WorkerState) : SameBooks w w := ⟨rfl, rfl, rfl, rfl, rfl⟩

theorem scheduleRestart_books (w : WorkerState) (now : ℚ) :
    SameBooks w (scheduleRestart w now) ∧ (scheduleRestart w now).alive = w.alive ∧
      (scheduleRestart w now).process = w.process := by
  simp only [scheduleRestart]
  split <;> exact ⟨⟨rfl, rfl, rfl, rfl, rfl⟩, rfl, rfl⟩

/-- A stop operation that does not raise: only `close` touches the handle, only `mark`
the `alive` flag. -/
theorem stopProcess_ok {w v : WorkerState} {k : StopStep} {k' : Option StopStep}
    (h : stopProcess w k = .ok (v, k')) :
    SameBooks w v ∧ v.retiring = w.retiring ∧
      v.alive = (if k = .mark then false else w.alive) ∧
      v.process = (if k = .close then w.process.map Process.close else w.process) := by
  cases k with
  | close | mark => cases h; exact ⟨⟨rfl, rfl, rfl, rfl, rfl⟩, rfl, rfl, rfl⟩
  | join | probe | terminate | rejoin =>
    cases hp : w.process with
    | none => simp only [stopProcess, hp] at h; cases h; simp [SameBooks.rfl', hp]
    | some p =>
      simp only [stopProcess, hp] at h
      obtain ⟨a, _, ha⟩ := Traversal.bind_ok_iff.mp h
      first
        | (cases ha; simp [SameBooks.rfl', hp])
        | (cases a <;> (cases ha; simp [SameBooks.rfl', hp]))

/-! ## Worker names -/

private theorem split_last_unique {α : Type} {x : α} {l₁ l₂ s₁ s₂ : List α} (h₁ : x ∉ s₁)
    (h₂ : x ∉ s₂) (h : l₁ ++ x :: s₁ = l₂ ++ x :: s₂) : l₁ = l₂ ∧ s₁ = s₂ := by
  rcases List.append_eq_append_iff.mp h with ⟨m, hl, hs⟩ | ⟨m, hl, hs⟩
  · cases m with
    | nil => simp at hl hs; exact ⟨hl.symm, hs⟩
    | cons a m =>
      have hs' : s₁ = m ++ x :: s₂ := (List.cons.inj hs).2
      exact absurd (hs' ▸ List.mem_append_right _ (List.mem_cons_self)) h₁
  · cases m with
    | nil => simp at hl hs; exact ⟨hl, hs.symm⟩
    | cons a m =>
      have hs' : s₂ = m ++ x :: s₁ := (List.cons.inj hs).2
      exact absurd (hs' ▸ List.mem_append_right _ (List.mem_cons_self)) h₂

private theorem toDigits_injective {m n : ℕ} (h : Nat.toDigits 10 m = Nat.toDigits 10 n) :
    m = n := by
  have := congrArg (Nat.ofDigitChars 10 · 0) h
  simpa [Nat.ofDigitChars_toDigits] using this

/-- Worker ids of different groups, or of one group at different indices, differ: the
digits after the last `R` are the index. -/
theorem workerName_injective {g h : String} {i j : ℕ} (e : workerName g i = workerName h j) :
    g = h ∧ i = j := by
  have e' := congrArg String.toList e
  simp only [workerName, String.toList_append, Nat.toString_eq_repr, Nat.toList_repr] at e'
  have digits : ∀ n, 'R' ∉ Nat.toDigits 10 n := by
    intro n hn
    have := Nat.isDigit_of_mem_toDigits (by decide) (by decide) hn
    exact absurd this (by decide)
  have split : ∀ (g : String) (n : ℕ), g.toList ++ "_R".toList ++ Nat.toDigits 10 n =
      (g.toList ++ ['_']) ++ 'R' :: Nat.toDigits 10 n := by
    intro g n
    simp
  rw [split, split] at e'
  obtain ⟨hg, hd⟩ := split_last_unique (digits i) (digits j) e'
  exact ⟨String.toList_inj.mp (List.append_cancel_right hg), toDigits_injective hd⟩

/-! ## `execute` -/

theorem mem_aliveWorkersLocked {p : Pool} {g : String} {r : Ref} :
    r ∈ aliveWorkersLocked p g ↔
      r ∈ p.workers.values ∧ (p.heap r).group.name = g ∧ (p.heap r).isLive = true := by
  simp [aliveWorkersLocked]

theorem mem_orderedWorkersLocked {p : Pool} {g : String} {r : Ref}
    (h : r ∈ orderedWorkersLocked p g) : r ∈ aliveWorkersLocked p g := by
  unfold orderedWorkersLocked at h
  cases hg : p.groups.get? g with
  | none => simp [hg] at h
  | some group =>
    simp only [hg] at h
    exact (List.perm_insertionSort _ _).mem_iff.mp h

/-- The pool after request `t` was booked on worker `r`. -/
def assigned (p : Pool) (t : TaskId) (f : FutureId) (r : Ref) (weights : String → ℤ)
    (cursors : String → ℕ) : Pool :=
  { p with
    futures := p.futures.set t f
    assignments := p.assignments.set t (p.heap r).assignment
    heap := Function.update p.heap r
      { p.heap r with outstanding := (p.heap r).outstanding + 1 }
    smoothWeights := weights
    groupCursors := cursors }

private theorem booking_undone {p : Pool} {t : TaskId} {r : Ref}
    (h : p.assignments.get? t = none) (a : Assignment) :
    { ({ p.modify r (fun w => { w with outstanding := w.outstanding + 1 }) with
        assignments := p.assignments.set t a } : Pool).modify r
          (fun w => { w with outstanding := w.outstanding - 1 }) with
      assignments := (p.assignments.set t a).pop t } = p := by
  rw [Dict.pop_set_new h]
  simp [Pool.modify]

/-- `put_nowait` raises: the queue refuses, or there is none. -/
def PutFails (p : Pool) (putRaises : List String) (r : Ref) : Prop :=
  (p.heap r).workerId ∈ putRaises ∨ (p.heap r).taskQueue = false

instance (p : Pool) (putRaises : List String) (r : Ref) : Decidable (PutFails p putRaises r) :=
  inferInstanceAs (Decidable (_ ∨ _))

/-- Request `t` on worker `r`, as the loops of `execute` leave the tables. -/
def booked (p : Pool) (t : TaskId) (g : String) (r : Ref) : Pool :=
  { p.modify r (fun w => { w with outstanding := w.outstanding + 1 }) with
    assignments := p.assignments.set t (p.heap r).assignment
    groupCursors := Function.update p.groupCursors g
      (((p.heap r).index + 1) % (p.heap r).group.processCount) }

/-- The worker loop ends at the first worker that takes the request, or has tried all. -/
theorem assignTo_spec {p : Pool} (putRaises : List String) {t : TaskId} {g : String}
    (h : p.assignments.get? t = none) (workers : List Ref) :
    ((∀ r ∈ workers, PutFails p putRaises r) ∧
      assignTo p putRaises t g workers = (p, none, workers)) ∨
    ∃ before r after, workers = before ++ r :: after ∧ (∀ b ∈ before, PutFails p putRaises b) ∧
      ¬PutFails p putRaises r ∧
      assignTo p putRaises t g workers = (booked p t g r, some r, before ++ [r]) := by
  induction workers with
  | nil => exact .inl ⟨fun r hr => absurd hr List.not_mem_nil, rfl⟩
  | cons r rest ih =>
    unfold assignTo
    by_cases hput : PutFails p putRaises r
    · have hput' := hput
      unfold PutFails at hput'
      simp only [hput', ↓reduceIte, booking_undone h]
      rcases ih with ⟨hall, ha⟩ | ⟨before, r', after, rfl, hb, hr', ha⟩
      · refine .inl ⟨?_, by rw [ha]⟩
        intro b hb
        rcases List.mem_cons.mp hb with rfl | hb
        · exact hput
        · exact hall b hb
      · refine .inr ⟨r :: before, r', after, rfl, ?_, hr', by rw [ha]; rfl⟩
        intro b hm
        rcases List.mem_cons.mp hm with rfl | hm
        · exact hput
        · exact hb b hm
    · have hput' := hput
      unfold PutFails at hput'
      simp only [hput', ↓reduceIte]
      exact .inr ⟨[], r, rest, rfl, fun b hb => absurd hb List.not_mem_nil, hput, rfl⟩

private theorem foldl_choice_mem {α : Type} (c : α → α → Bool) (rest : List α) (first : α) :
    rest.foldl (fun best g => if c best g then g else best) first ∈ first :: rest := by
  induction rest generalizing first with
  | nil => exact List.mem_cons_self
  | cons g rest ih =>
    rw [List.foldl_cons]
    by_cases h : c first g = true
    · rw [if_pos h]
      exact List.mem_cons_of_mem _ (ih g)
    · rw [if_neg h]
      rcases List.mem_cons.mp (ih first) with e | hm
      · rw [e]
        exact List.mem_cons_self
      · exact List.mem_cons_of_mem _ (List.mem_cons_of_mem _ hm)

theorem selectGroupLocked_mem (p : Pool) (first : String) (rest : List String) :
    (selectGroupLocked p first rest).1 ∈ first :: rest :=
  foldl_choice_mem _ rest first

private theorem selectGroupLocked_pool (p : Pool) (first : String) (rest : List String) :
    ∃ weights, (selectGroupLocked p first rest).2 = { p with smoothWeights := weights } :=
  ⟨_, rfl⟩

theorem tryGroups_succ {p q : Pool} {putRaises : List String} {t : TaskId} {n : ℕ}
    {first g : String} {rest : List String} (hs : selectGroupLocked p first rest = (g, q)) :
    tryGroups putRaises t (n + 1) p (first :: rest) =
      match assignTo q putRaises t g (orderedWorkersLocked q g) with
      | (p, some r, tried) => (p, some r, tried)
      | (p, none, tried) =>
        let (p, out, more) := tryGroups putRaises t n p ((first :: rest).erase g)
        (p, out, tried ++ more) := by
  have opened := tryGroups.eq_3 putRaises t p n first rest
  rw [hs] at opened
  exact opened

/-- Every worker of every group was tried and refused, or one took the request: those tried
before it refused. Nobody is tried twice. -/
theorem tryGroups_spec (putRaises : List String) {t : TaskId} (n : ℕ) (p : Pool)
    (names : List String) (hn : names.length ≤ n) (h : p.assignments.get? t = none) :
    ((∀ g ∈ names, ∀ r ∈ orderedWorkersLocked p g, PutFails p putRaises r) ∧
      ∃ weights tried, tried.Perm (names.flatMap (orderedWorkersLocked p)) ∧
        tryGroups putRaises t n p names = ({ p with smoothWeights := weights }, none, tried)) ∨
    ∃ g ∈ names, ∃ before r after refused weights,
      orderedWorkersLocked p g = before ++ r :: after ∧
      (∀ b ∈ before, PutFails p putRaises b) ∧ ¬PutFails p putRaises r ∧
      (∀ b ∈ refused, PutFails p putRaises b) ∧
      (refused ++ [r]).Subperm (names.flatMap (orderedWorkersLocked p)) ∧
      tryGroups putRaises t n p names =
        ({ booked p t g r with smoothWeights := weights }, some r, refused ++ [r]) := by
  induction n generalizing p names with
  | zero =>
    have hnil : names = [] := List.length_eq_zero_iff.mp (Nat.le_zero.mp hn)
    subst hnil
    exact .inl ⟨fun g hg => absurd hg List.not_mem_nil, p.smoothWeights, [], List.Perm.nil, rfl⟩
  | succ n ih =>
    cases names with
    | nil =>
      exact .inl ⟨fun g hg => absurd hg List.not_mem_nil, p.smoothWeights, [], List.Perm.nil, rfl⟩
    | cons first rest =>
      have hmem := selectGroupLocked_mem p first rest
      obtain ⟨weights, hw⟩ := selectGroupLocked_pool p first rest
      obtain ⟨g, q, hs⟩ : ∃ g q, selectGroupLocked p first rest = (g, q) := ⟨_, _, rfl⟩
      rw [hs] at hmem hw
      change g ∈ _ at hmem
      change q = _ at hw
      subst hw
      have split : ((first :: rest).flatMap (orderedWorkersLocked p)).Perm
          (orderedWorkersLocked p g ++ ((first :: rest).erase g).flatMap (orderedWorkersLocked p)) :=
        (List.perm_cons_erase hmem).flatMap_right _
      rw [tryGroups_succ hs]
      rcases assignTo_spec (p := { p with smoothWeights := weights }) (g := g) putRaises h
        (orderedWorkersLocked { p with smoothWeights := weights } g)
        with ⟨hall, ha⟩ | ⟨before, r, after, ho, hb, hr, ha⟩
      · rw [ha]
        have hlen : ((first :: rest).erase g).length ≤ n := by
          rw [List.length_erase_of_mem hmem]
          simp only [List.length_cons] at hn ⊢
          omega
        rcases ih { p with smoothWeights := weights } ((first :: rest).erase g) hlen h with
          ⟨hrest, weights', more, hperm, he⟩ |
          ⟨g', hg', before, r, after, refused, weights', ho, hb, hr, href, hsub, he⟩
        · refine .inl ⟨?_, weights', orderedWorkersLocked p g ++ more,
            (hperm.append_left _).trans split.symm, ?_⟩
          · intro g' hg' r hr
            by_cases hgg : g' = g
            · subst hgg
              exact hall r hr
            · exact hrest g' ((List.mem_erase_of_ne hgg).mpr hg') r hr
          · dsimp only
            rw [he]
            rfl
        · refine .inr ⟨g', List.mem_of_mem_erase hg', before, r, after,
            orderedWorkersLocked p g ++ refused, weights', ho, hb, hr, ?_, ?_, ?_⟩
          · intro b hm
            rcases List.mem_append.mp hm with hm | hm
            · exact hall b hm
            · exact href b hm
          · rw [List.append_assoc]
            exact ((List.subperm_append_left _).mpr hsub).trans split.symm.subperm
          · dsimp only
            rw [he, List.append_assoc]
            rfl
      · rw [ha]
        refine .inr ⟨g, hmem, before, r, after, before, weights, ho, hb, hr, hb, ?_, rfl⟩
        apply List.Subperm.trans _ split.symm.subperm
        apply List.Sublist.subperm
        change orderedWorkersLocked p g = before ++ r :: after at ho
        rw [ho, List.append_assoc]
        apply List.Sublist.append (List.Sublist.refl _)
        rw [List.cons_append]
        exact List.Sublist.cons_cons _ (List.nil_sublist _)

/-- The steps of `execute`, without the workers it tried. -/
theorem execute_eq (p : Pool) (putRaises : List String) (request : TaskRequest)
    (future : FutureId) : execute p putRaises request future =
      if request.taskId = "" then
        (p, .rejected ⟨.invalidRequest,
          "TaskRequest must be submitted through TaskScheduler before execution."⟩)
      else if !p.accepting then (p, .rejected ⟨.internalError, "ProcessPoolStrategy is closed"⟩)
      else if p.futures.contains request.taskId then
        (p, .rejected ⟨.internalError, "Duplicate task_id: " ++ request.taskId⟩)
      else
        let hosts := (p.handlerGroups.get? request.handlerName).getD []
        if hosts.any (livenessRaises p) then (p, .raised processClosed)
        else
          let groupNames := hosts.filter fun g => !(aliveWorkersLocked p g).isEmpty
          if groupNames = [] then
            (p, .rejected ⟨.workerUnavailable,
              "No live worker is deployed for handler '" ++ request.handlerName ++ "'"⟩)
          else
            let opened := { p with futures := p.futures.set request.taskId future }
            match tryGroups putRaises request.taskId groupNames.length opened groupNames with
            | (p, some r, _) => (p, .assigned r)
            | (p, none, _) =>
              ({ p with futures := p.futures.pop request.taskId },
                .rejected ⟨.workerUnavailable,
                  "Unable to submit request to a live worker for handler '"
                    ++ request.handlerName ++ "'"⟩) := by
  unfold execute executeTrying
  dsimp only
  iterate 5
    split
    · rfl
  generalize tryGroups _ _ _ _ _ = ended
  obtain ⟨q, out, tried⟩ := ended
  cases out <;> rfl

/-- Either the request is booked on a live worker of a group on the handler's route, or only
smooth weights changed. -/
theorem execute_routed {p : Pool} (putRaises : List String) (request : TaskRequest)
    (f : FutureId) (hkeys : ∀ t, t ∈ p.assignments.keys → t ∈ p.futures.keys) :
    (∃ g ∈ (p.handlerGroups.get? request.handlerName).getD [], ∃ r ∈ aliveWorkersLocked p g,
        p.accepting = true ∧ p.futures.get? request.taskId = none ∧ ∃ weights cursors,
        execute p putRaises request f =
          (assigned p request.taskId f r weights cursors, .assigned r)) ∨
      ∃ weights out, execute p putRaises request f = ({ p with smoothWeights := weights }, out) ∧
        ∀ r, out ≠ .assigned r := by
  rw [execute_eq]
  split
  · exact Or.inr ⟨p.smoothWeights, _, rfl, by simp⟩
  split
  · exact Or.inr ⟨p.smoothWeights, _, rfl, by simp⟩
  rename_i hacc
  split
  · exact Or.inr ⟨p.smoothWeights, _, rfl, by simp⟩
  rename_i hdup
  have hnew : p.futures.get? request.taskId = none := by
    simpa [Dict.contains_iff, Dict.get?_eq_none] using hdup
  have hfree : p.assignments.get? request.taskId = none :=
    Dict.get?_eq_none.mpr fun hk => (Dict.get?_eq_none.mp hnew) (hkeys _ hk)
  generalize (p.handlerGroups.get? request.handlerName).getD [] = hosts
  dsimp only
  split
  · exact Or.inr ⟨p.smoothWeights, _, rfl, by simp⟩
  have hsub : ∀ g ∈ hosts.filter (fun g => !(aliveWorkersLocked p g).isEmpty), g ∈ hosts :=
    fun g hg => List.mem_of_mem_filter hg
  generalize hosts.filter (fun g => !(aliveWorkersLocked p g).isEmpty) = names at hsub
  split
  · exact Or.inr ⟨p.smoothWeights, _, rfl, by simp⟩
  rcases tryGroups_spec putRaises names.length
      { p with futures := p.futures.set request.taskId f } names (le_refl _) hfree
    with ⟨-, weights, tried, -, ht⟩ | ⟨g, hg, before, r, after, _, weights, ho, -, -, -, -, ht⟩
  · rw [ht]
    dsimp only
    rw [Dict.pop_set_new hnew]
    exact Or.inr ⟨weights, _, rfl, by simp⟩
  · rw [ht]
    have hr : r ∈ orderedWorkersLocked p g := by
      change orderedWorkersLocked p g = _ at ho
      rw [ho]
      exact List.mem_append_right _ (List.mem_cons_self ..)
    exact Or.inl ⟨g, hsub g hg, r, mem_orderedWorkersLocked hr, by simpa using hacc, hnew, weights,
      _, rfl⟩

/-- Either the request is booked on one live worker, or only smooth weights changed. -/
theorem execute_cases {p : Pool} (putRaises : List String) (request : TaskRequest)
    (f : FutureId) (hkeys : ∀ t, t ∈ p.assignments.keys → t ∈ p.futures.keys) :
    (∃ r ∈ p.workers.values, (p.heap r).isLive = true ∧ p.accepting = true ∧
        p.futures.get? request.taskId = none ∧ ∃ weights cursors,
        execute p putRaises request f =
          (assigned p request.taskId f r weights cursors, .assigned r)) ∨
      ∃ weights out, execute p putRaises request f = ({ p with smoothWeights := weights }, out) ∧
        ∀ r, out ≠ .assigned r := by
  rcases execute_routed putRaises request f hkeys with ⟨g, -, r, hr, h⟩ | h
  · obtain ⟨hin, -, hlive⟩ := mem_aliveWorkersLocked.mp hr
    exact Or.inl ⟨r, hin, hlive, h⟩
  · exact Or.inr h

end PoolTables
