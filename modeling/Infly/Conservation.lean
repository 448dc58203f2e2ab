import Infly.BackendHistory

/-! # Conservation of task records

A record that the backend has accepted is stored, or it has left once: a consuming reader got
it or it was evicted.
-/
namespace Conservation

open Contracts TaskBackend Retention BackendHistory Transitions

/-- The movement puts a record of `t` into the backend or takes it out. -/
def concerns (t : TaskId) : Movement → Bool
  | .accepted r _ | .consumed r => decide (r.taskId = t)
  | .evicted u => decide (u = t)
  | .pulled _ => false

def leaves (t : TaskId) : Movement → Bool
  | .consumed r => decide (r.taskId = t)
  | .evicted u => decide (u = t)
  | .accepted _ _ | .pulled _ => false

def accepted (log : List Movement) (t : TaskId) : ℕ :=
  log.countP fun | .accepted r _ => decide (r.taskId = t) | _ => false

def consumed (log : List Movement) (t : TaskId) : ℕ :=
  log.countP fun | .consumed r => decide (r.taskId = t) | _ => false

def evicted (log : List Movement) (t : TaskId) : ℕ :=
  log.countP fun | .evicted u => decide (u = t) | _ => false

/-- In the log the records of `t` come and go in turn, one at a time; the last argument is
what was asked for in the one that is there. -/
inductive Passage (t : TaskId) : List Movement → Option TaskRequest → Prop where
  | start : Passage t [] none
  | enters {l} (r : TaskRecord) (priority : ℤ) (hr : r.taskId = t) (h : Passage t l none) :
    Passage t (.accepted r priority :: l) (some r.request)
  | taken {l} (r : TaskRecord) (hr : r.taskId = t) (h : Passage t l (some r.request)) :
    Passage t (.consumed r :: l) none
  | dropped {l q} (h : Passage t l (some q)) : Passage t (.evicted t :: l) none
  | passes {l o} (m : Movement) (hm : concerns t m = false) (h : Passage t l o) :
    Passage t (m :: l) o

variable {ι : Type} {s : State} {e : Event ι} {t u : TaskId} {l l' : List Movement}
  {o : Option TaskRequest} {q : TaskRequest} {m : Movement} {b : Backend} {r : TaskRecord}

/-- The balance of a passage. -/
theorem Passage.balance (h : Passage t l o) :
    accepted l t = consumed l t + evicted l t + if o.isSome then 1 else 0 := by
  induction h with
  | start => rfl
  | enters r priority hr h ih =>
    simp only [accepted, consumed, evicted, List.countP_cons] at ih ⊢
    simp [hr] at ih ⊢
    omega
  | taken r hr h ih =>
    simp only [accepted, consumed, evicted, List.countP_cons] at ih ⊢
    simp [hr] at ih ⊢
    omega
  | dropped h ih =>
    simp only [accepted, consumed, evicted, List.countP_cons] at ih ⊢
    simp at ih ⊢
    omega
  | passes m hm h ih =>
    simp only [accepted, consumed, evicted, List.countP_cons] at ih ⊢
    cases m <;> simp_all [concerns]

theorem Passage.older (h : Passage t (l ++ l') o) : ∃ o', Passage t l' o' := by
  induction l generalizing o with
  | nil => exact ⟨o, h⟩
  | cons m l ih =>
    cases h with
    | enters _ _ _ h => exact ih h
    | taken _ _ h => exact ih h
    | dropped h => exact ih h
    | passes _ _ h => exact ih h

/-- Whatever is there was accepted, and nothing of `t` moved since. -/
theorem Passage.source (h : Passage t l (some q)) : ∃ newer r priority older,
    l = newer ++ .accepted r priority :: older ∧ r.taskId = t ∧ r.request = q ∧
    ∀ m ∈ newer, concerns t m = false := by
  generalize ho : some q = o at h
  induction h with
  | start => cases ho
  | @enters l r priority hr h ih =>
    cases ho
    exact ⟨[], r, priority, l, rfl, hr, rfl, fun m hm => absurd hm List.not_mem_nil⟩
  | taken r hr h ih => cases ho
  | dropped h ih => cases ho
  | passes m hm h ih =>
    obtain ⟨newer, r, priority, older, rfl, hr, hq, hn⟩ := ih ho
    refine ⟨m :: newer, r, priority, older, rfl, hr, hq, ?_⟩
    intro m' hm'
    rcases List.mem_cons.mp hm' with rfl | hm'
    · exact hm
    · exact hn m' hm'

/-- What leaves is the record that was accepted last. -/
theorem Passage.leaves (h : Passage t (m :: l) o) (hm : leaves t m = true) :
    ∃ q, Passage t l (some q) ∧ ∀ r, m = .consumed r → r.request = q := by
  cases h with
  | enters => cases hm
  | taken r hr h =>
    refine ⟨_, h, ?_⟩
    rintro r' he
    cases he
    rfl
  | dropped h => exact ⟨_, h, fun r he => by cases he⟩
  | passes _ hn h =>
    cases m <;> simp_all [concerns, Conservation.leaves]

theorem Passage.evict {ids : List TaskId} (h : Passage t l o) (hn : ids.Nodup)
    (hs : t ∈ ids → o.isSome) :
    Passage t ((ids.map Movement.evicted).reverse ++ l) (if t ∈ ids then none else o) := by
  induction ids generalizing l o with
  | nil => simpa using h
  | cons u ids ih =>
    rw [List.nodup_cons] at hn
    rw [List.map_cons, List.reverse_cons, List.append_assoc, List.singleton_append]
    by_cases hu : u = t
    · subst hu
      obtain ⟨q, rfl⟩ := Option.isSome_iff_exists.mp (hs (List.mem_cons_self ..))
      have := ih (Passage.dropped h) hn.2 (fun ht => absurd ht hn.1)
      simpa [hn.1] using this
    · have := ih (.passes (.evicted u) (by simpa [concerns] using hu) h) hn.2
        fun ht => hs (List.mem_cons_of_mem _ ht)
      simpa [Ne.symm hu] using this

/-! ## The log of a run -/

/-- The log of every task agrees with what the backend stores. -/
def Booked (s : State) : Prop :=
  ∀ t, Passage t s.log ((s.backend.records.get? t).map TaskRecord.request)

/-- A read finds nothing, or it takes a terminal record out, or it marks and copies one. -/
theorem read_result (b : Backend) (t : TaskId) (consume : Bool) (copying : Copying) :
    (b.read t consume copying).1 = .ok none ∧ (b.read t consume copying).2 = b ∨
    ∃ r, b.records.get? t = some r ∧ terminal r.status = true ∧
      (b.read t consume copying).1 =
        (if consume then .ok (some r) else (deepcopy copying r).map some) ∧
      (b.read t consume copying).2.records =
        if consume then b.records.pop t else b.records := by
  unfold Backend.read
  cases hr : b.records.get? t with
  | none => exact .inl ⟨rfl, rfl⟩
  | some r =>
    by_cases ht : terminal r.status = true
    · refine .inr ⟨r, rfl, ht, ?_, ?_⟩
      · cases consume <;> simp [ht]
      · cases consume <;> simp [ht, Backend.drop]
    · simp [ht]

theorem next_booked (hw : s.backend.Wellformed) (h : Booked s) : Booked (next s e) := by
  obtain ⟨client, now, operation⟩ := e
  intro t
  have ht := h t
  cases operation with
  | listAll copying => exact ht
  | call c =>
    cases c with
    | submit record priority =>
      simp only [next, perform, serve, moved, Backend.submit]
      by_cases hc : s.backend.records.contains record.1.taskId = true
      · rw [if_pos hc]
        exact ht
      · rw [if_neg hc]
        by_cases hk : t = record.1.taskId
        · subst hk
          have hnone : s.backend.records.get? record.1.taskId = none := by
            simpa [Dict.contains] using hc
          rw [hnone] at ht
          simpa using Passage.enters record.1 priority rfl ht
        · have := Passage.passes (.accepted record.1 priority)
            (by simpa [concerns] using Ne.symm hk) ht
          simpa [hk] using this
    | pull =>
      simp only [next, perform, serve, moved, Backend.pull_records]
      cases s.backend.pending.pop with
      | none => exact ht
      | some p => exact .passes _ rfl ht
    | get u => exact ht
    | getCopy u copying => exact ht
    | read u consume copying =>
      simp only [next, perform, serve]
      rcases read_result s.backend u consume copying with ⟨hn, hb⟩ | ⟨r, hr, _, hs, hb⟩
      · cases consume <;> simpa [moved, hn, hb] using ht
      · cases consume with
        | false => simpa [moved, hb] using ht
        | true =>
          have hid : r.taskId = u := hw.keyed u r hr
          simp only [moved, hs, hb, List.reverse_singleton, List.singleton_append, ↓reduceIte,
            Dict.get?_pop]
          by_cases hk : t = u
          · subst hk
            rw [hr] at ht
            simpa using Passage.taken r hid ht
          · rw [if_neg hk]
            apply Passage.passes _ _ ht
            simpa [concerns, hid] using Ne.symm hk
    | update u x =>
      simp only [next, perform, serve, moved]
      cases hr : s.backend.records.get? u with
      | none => simpa [Backend.updateStatus_missing hr, evictions, hr] using ht
      | some r =>
        obtain ⟨hn, hs, hg⟩ := evictions_spec ⟨r, hr⟩ now x
        have hsome : t ∈ evictions s.backend now u x →
            ((s.backend.records.get? t).map TaskRecord.request).isSome := by
          intro hm
          rw [Option.isSome_map]
          exact Option.ne_none_iff_isSome.mp (hs t hm)
        have := ht.evict hn hsome
        rw [hg t]
        by_cases hm : t ∈ evictions s.backend now u x
        · simpa [hm] using this
        · by_cases hk : t = u
          · subst hk
            simpa [hm, hr, Backend.Update.apply] using this
          · simpa [hm, hk] using this

theorem reachable_booked (h : Reachable ι s) : Booked s := by
  apply System.invariant_reachable (S := system ι) (P := Booked) _ _ h
  · rintro s ⟨limit, now, rfl⟩ t
    exact .start
  · rintro s e t hr hb ⟨_, rfl⟩
    obtain ⟨m, hm⟩ := reachable_archived hr
    exact next_booked hm.1.wellformed hb

/-! ## One call -/

/-- The call reads the terminal record of `t`, whose copy raises. It leaves the read mark of
`t` and changes no more. -/
def CopyRaised (s : State) (e : Event ι) (t : TaskId) : Prop :=
  (∃ r copying x, s.backend.get t = some r ∧ terminal r.status = true ∧
    e.operation = .call (.read t false copying) ∧ copying r = some x ∧
    reply s e = .answer (.found (.error x))) ∧
  (next s e).backend =
    { s.backend with readTerminalTasks := insert t s.backend.readTerminalTasks }

/-- A call that returns `None` or raises changes nothing, apart from the mark that a read
sets before it copies. -/
theorem fruitless_unchanged (hw : s.backend.Wellformed) (h : (reply s e).fruitless = true) :
    (next s e).backend = s.backend ∨ ∃ t, CopyRaised s e t := by
  obtain ⟨client, now, operation⟩ := e
  simp only [CopyRaised, reply, next] at h ⊢
  cases operation with
  | listAll copying => exact .inl rfl
  | call c =>
    cases c with
    | submit record priority =>
      left
      simp only [perform, serve] at h ⊢
      cases hr : (s.backend.submit record.1 priority).1 with
      | ok u => simp [hr, Reply.fruitless] at h
      | error e => exact Backend.submit_raises hr
    | pull =>
      left
      simp only [perform, serve] at h ⊢
      cases hr : s.backend.pull.1 with
      | some t => simp [hr, Reply.fruitless] at h
      | none => exact (Backend.pull_none hr).2
    | get t => exact .inl rfl
    | getCopy t copying => exact .inl rfl
    | read t consume copying =>
      simp only [perform, serve] at h ⊢
      cases hr : (s.backend.read t consume copying).1 with
      | error x =>
        obtain ⟨rfl, ⟨r, hg, ht, hc⟩, hb⟩ := Backend.read_raises hr
        exact .inr ⟨t, ⟨r, copying, x, hg, ht, rfl, hc, rfl⟩, hb⟩
      | ok found =>
        rcases read_result s.backend t consume copying with ⟨_, hb⟩ | ⟨r, _, _, hs, _⟩
        · exact .inl hb
        · rw [hr] at h hs
          cases consume with
          | true => simp [Reply.fruitless, hs] at h
          | false =>
            cases hc : copying r with
            | none => simp [Reply.fruitless, hs, deepcopy, hc, Except.map] at h
            | some x => simp [deepcopy, hc, Except.map] at hs
    | update t x =>
      left
      simp only [perform, serve] at h ⊢
      cases hr : s.backend.records.get? t with
      | none => rw [Backend.updateStatus_missing hr]
      | some r =>
        obtain ⟨b', hb, _⟩ := Backend.updateStatus_ok hw hr now x
        simp [hb, Reply.fruitless] at h

/-- A record that a call takes away was terminal before the call. -/
theorem live_stays {m : Archive} (h : Archived s m) (hn : s.now ≤ e.now)
    (hr : s.backend.records.get? t = some r) (hl : terminal r.status = false) :
    (next s e).backend.records.get? t ≠ none := by
  obtain ⟨client, now, operation⟩ := e
  simp only [next]
  cases operation with
  | listAll copying => simp [perform, hr]
  | call c =>
    simp only [perform]
    cases c with
    | submit record priority =>
      simp only [serve, Backend.submit]
      split
      · simp [hr]
      · by_cases hk : t = record.1.taskId <;> simp [hk, hr]
    | pull => simp [serve, hr]
    | get u => simp [serve, hr]
    | getCopy u copying => simp [serve, hr]
    | read u consume copying =>
      have := (Backend.read_fades s.backend u consume copying t).live hr hl
      simp [serve, this]
    | update u x =>
      have ha := (update_agrees h.1 h.2 hn u x).related.records t
      simp only [serve]
      rw [ha]
      intro hgone
      have hm : m.records t ≠ none := by
        rw [← h.1.records t, hr]
        simp
      have hne := (update_evicts h.2 hm hgone).1
      cases hu : s.backend.records.get? u with
      | none =>
        rw [Backend.updateStatus_missing hu, hr] at ha
        rw [← ha] at hgone
        cases hgone
      | some r' =>
        obtain ⟨b', hb, _, _, hf, _⟩ := Backend.updateStatus_ok h.1.wellformed hu now x
        have := (hf t hne).live hr hl
        rw [hb, this] at ha
        rw [← ha] at hgone
        cases hgone

/-- For every task id the successful submits are the consuming reads that returned a record,
the evictions and what is stored. A record leaves once: between any leaving and the newest
acceptance before it nothing of that task moved, and a reader gets what was accepted there.
No call takes a record away that is not terminal. One that returns `None` or raises changes
nothing, except that a read whose copy of a terminal record raises leaves that record's read
mark. -/
theorem records_conserved (h : Reachable ι s) :
    (∀ t, accepted s.log t = consumed s.log t + evicted s.log t +
      if (s.backend.get t).isSome then 1 else 0) ∧
    (∀ newer m older t, s.log = newer ++ m :: older → leaves t m = true →
      ∃ since r priority before, older = since ++ .accepted r priority :: before ∧ r.taskId = t ∧
        (∀ r', m = .consumed r' → r'.request = r.request) ∧
        ∀ m' ∈ since, concerns t m' = false) ∧
    ∀ e : Event ι, s.now ≤ e.now →
      (∀ t r, s.backend.get t = some r → terminal r.status = false →
        (next s e).backend.get t ≠ none) ∧
      ((reply s e).fruitless = true → (next s e).backend = s.backend ∨
        ∃ t, CopyRaised s e t) := by
  obtain ⟨m, hm⟩ := reachable_archived h
  have hb := reachable_booked h
  refine ⟨?_, ?_, ?_⟩
  · intro t
    rw [(hb t).balance, Option.isSome_map]
    rfl
  · intro newer m older t hl hm
    have passage := hb t
    rw [hl] at passage
    obtain ⟨o, passage⟩ := passage.older
    obtain ⟨q, passage, hq⟩ := passage.leaves hm
    obtain ⟨since, r, priority, before, he, hr, rfl, hs⟩ := passage.source
    exact ⟨since, r, priority, before, he, hr, hq, hs⟩
  · intro e hn
    exact ⟨fun t r hr hl => live_stays hm hn hr hl, fruitless_unchanged hm.1.wellformed⟩

/-- With room for one terminal record: `a` is consumed and submitted again, then evicted by
the end of `b`. -/
def twoTasks : List (Event Unit) :=
  [.submit (pendingRecord "a") 0, .submit (pendingRecord "b") 0, .update "a" { status := .failed },
    .read "a" true copies, .submit (pendingRecord "a") 0, .update "a" { status := .completed },
    .update "b" { status := .completed }].map fun c => ⟨(), 0, .call c⟩

theorem two_tasks_conserved : ∃ s, Reachable Unit s ∧ accepted s.log "a" = 2 ∧
    accepted s.log "a" = consumed s.log "a" + evicted s.log "a" +
      if (s.backend.get "a").isSome then 1 else 0 := by
  have hr : Reachable Unit (twoTasks.foldl next (begin 1 0)) := reachable_replay (by decide +kernel)
  exact ⟨_, hr, by decide +kernel, (records_conserved hr).1 "a"⟩

def finishedTask : List (Event Unit) :=
  [.submit (pendingRecord "a") 0, .update "a" { status := .completed }].map
    fun c => ⟨(), 0, .call c⟩

/-- The input of a finished task holds a closed stream. -/
def closedStream : Copying := fun _ => some (.valueError "I/O operation on closed file.")

/-- A read that raises `ValueError` has marked the record. -/
theorem raising_read_marks : ∃ s : State, Reachable Unit s ∧ ∃ e : Event Unit, s.now ≤ e.now ∧
    reply s e = .answer (.found (.error (.valueError "I/O operation on closed file."))) ∧
    (next s e).backend.readTerminalTasks ≠ s.backend.readTerminalTasks := by
  have hr : Reachable Unit (finishedTask.foldl next (begin 1 0)) :=
    reachable_replay (by decide +kernel)
  refine ⟨_, hr, ⟨(), 0, .call (.read "a" false closedStream)⟩, Nat.le_refl 0, rfl, ?_⟩
  decide +kernel

end Conservation
