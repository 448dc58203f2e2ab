import Infly.Retention
import Infly.Transitions

/-! # What enters and leaves the task backend

Clients call the in-memory backend, each call one step. The history holds what a call moved:
records that were accepted, handed to a consuming reader or evicted, and queue entries that
were pulled.
-/
namespace BackendHistory

open Contracts TaskBackend Retention Transitions

inductive Operation where
  | call (c : Call)
  | listAll (copying : Copying)

inductive Reply where
  | answer (a : Answer)
  | listed (records : Except Raised (List TaskRecord))

def perform (b : Backend) (now : ℕ) : Operation → Reply × Backend
  | .call c => (.answer (serve b now c).1, (serve b now c).2)
  | .listAll copying => (.listed (b.listAll copying), b)

/-- The call returned `None` or raised. -/
def Reply.fruitless : Reply → Bool
  | .answer (.submitted (.error _)) | .answer (.pulled none) | .answer (.found (.ok none))
  | .answer (.found (.error _)) | .answer (.updated (.error _)) | .listed (.error _) => true
  | _ => false

/-- The ids that the loop of `_prune_terminal_records_locked` pops. -/
def popped : List TaskId → Backend → List TaskId
  | [], _ => []
  | t :: ts, b =>
    match b.records.get? t with
    | none => []
    | some _ => t :: popped ts (b.drop t)

def pruned (b : Backend) : List TaskId :=
  if b.maxRetainedTerminalTasks = 0 then []
  else
    match b.terminalTaskIds.mapM (fun t => (b.pruneKey t).map (fun k => (k, t))) with
    | .error _ => []
    | .ok keyed =>
      let ordered := (keyed.insertionSort (fun x y => x.1 ≤ y.1)).map Prod.snd
      popped (ordered.take (ordered.length - b.maxRetainedTerminalTasks)) b

/-- The ids that `update_status` evicts. -/
def evictions (b : Backend) (now : ℕ) (t : TaskId) (x : Backend.Update) : List TaskId :=
  match b.records.get? t with
  | none => []
  | some record =>
    if terminal x.status then
      pruned ({ b with records := b.records.set t (x.apply record) }.markFinished now t)
    else []

inductive Movement where
  | accepted (record : TaskRecord) (priority : ℤ)
  | pulled (e : Entry)
  | consumed (record : TaskRecord)
  | evicted (t : TaskId)

def moved (b : Backend) (now : ℕ) : Operation → List Movement
  | .call (.submit record priority) =>
    match (b.submit record.1 priority).1 with
    | .ok () => [.accepted record.1 priority]
    | .error _ => []
  | .call .pull =>
    match b.pending.pop with
    | some (e, _) => [.pulled e]
    | none => []
  | .call (.read t true copying) =>
    match (b.read t true copying).1 with
    | .ok (some record) => [.consumed record]
    | _ => []
  | .call (.update t x) => (evictions b now t x).map .evicted
  | .call (.get _) | .call (.getCopy _ _) | .call (.read _ false _) | .listAll _ => []

structure Event (ι : Type) where
  client : ι
  now : ℕ
  operation : Operation

/-- `now`: the last clock reading. The newest movement stands first in the log. -/
structure State where
  backend : Backend
  now : ℕ
  log : List Movement

def next {ι : Type} (s : State) (e : Event ι) : State where
  backend := (perform s.backend e.now e.operation).2
  now := e.now
  log := (moved s.backend e.now e.operation).reverse ++ s.log

def reply {ι : Type} (s : State) (e : Event ι) : Reply :=
  (perform s.backend e.now e.operation).1

def begin (limit now : ℕ) : State := ⟨{ maxRetainedTerminalTasks := limit }, now, []⟩

/-- Any clients, with clock readings that do not decrease. -/
def system (ι : Type) : System State (Event ι) where
  init s := ∃ limit now, s = begin limit now
  step s e t := s.now ≤ e.now ∧ t = next s e

def Reachable (ι : Type) (s : State) : Prop := (system ι).Reachable s

variable {ι : Type} {s : State} {e : Event ι} {b : Backend} {m : Archive} {t u : TaskId}
  {now : ℕ} {x : Backend.Update}

theorem reachable_replay {limit now : ℕ} {es : List (Event ι)}
    (h : Valid (fun s e => s.now ≤ e.now) next (begin limit now) es) :
    Reachable ι (es.foldl next (begin limit now)) :=
  h.reachable ⟨limit, now, rfl⟩ fun _ _ he => ⟨he, rfl⟩

theorem pending_default (t : TaskId) (request : TaskRequest) :
    (TaskRecord.mk t request .pending none none none).status = .pending := rfl

def pendingRecord (t : TaskId) : {r : TaskRecord // r.status = .pending} :=
  ⟨{ taskId := t, request := { handlerName := "h", taskId := t } }, pending_default t _⟩

/-! ## The backend agrees with an archive -/

def Archived (s : State) (m : Archive) : Prop := Matches s.backend s.now m ∧ m.Bounded

theorem begin_archived (limit now : ℕ) : Archived (begin limit now) { limit } := by
  refine ⟨?_, fun _ => Nat.zero_le _⟩
  exact
    { wellformed := Backend.empty_wellformed limit
      limit := rfl, records := fun _ => rfl, pending := rfl, sequence := rfl, seen := rfl
      shelved := fun t => by simp [begin, ItemShelf.empty]
      sorted := List.Pairwise.nil
      past := fun t k hk => by cases hk }

theorem next_archived (h : Archived s m) (hn : s.now ≤ e.now) :
    ∃ m', Archived (next s e) m' := by
  obtain ⟨client, now, operation⟩ := e
  cases operation with
  | call c =>
    have ha := serve_agrees h.1 h.2 hn c
    exact ⟨_, ha.related, ha.bounded⟩
  | listAll copying => exact ⟨m, h.1.later hn, h.2⟩

theorem reachable_archived (h : Reachable ι s) : ∃ m, Archived s m := by
  apply System.invariant (S := system ι) (P := fun s => ∃ m, Archived s m) _ _ h
  · rintro s ⟨limit, now, rfl⟩
    exact ⟨_, begin_archived limit now⟩
  · rintro s e t ⟨m, hm⟩ ⟨hn, rfl⟩
    exact next_archived hm hn

/-! ## What pruning takes away -/

theorem popped_spec (ids : List TaskId) (b : Backend) :
    (popped ids b).Nodup ∧ (∀ u ∈ popped ids b, b.records.get? u ≠ none) ∧
    ∀ u, (Backend.evict ids b).2.records.get? u =
      if u ∈ popped ids b then none else b.records.get? u := by
  induction ids generalizing b with
  | nil => simp [popped, Backend.evict]
  | cons t ids ih =>
    unfold popped Backend.evict
    cases hr : b.records.get? t with
    | none => simp
    | some r =>
      obtain ⟨hn, hs, hg⟩ := ih (b.drop t)
      have fresh : t ∉ popped ids (b.drop t) := by
        intro ht
        apply hs t ht
        simp [Backend.drop]
      refine ⟨List.nodup_cons.mpr ⟨fresh, hn⟩, ?_, ?_⟩
      · intro u hu
        rcases List.mem_cons.mp hu with rfl | hu
        · simp [hr]
        · have := hs u hu
          intro hnone
          simp [Backend.drop, hnone] at this
      · intro u
        rw [hg u]
        by_cases hu : u = t
        · subst hu
          simp [Backend.drop]
        · simp [Backend.drop, hu]

theorem pruned_spec (b : Backend) :
    (pruned b).Nodup ∧ (∀ u ∈ pruned b, b.records.get? u ≠ none) ∧
    ∀ u, b.pruneTerminalRecords.2.records.get? u =
      if u ∈ pruned b then none else b.records.get? u := by
  unfold pruned Backend.pruneTerminalRecords
  by_cases hz : b.maxRetainedTerminalTasks = 0
  · simp [hz]
  · cases hk : b.terminalTaskIds.mapM fun t => (b.pruneKey t).map fun k => (k, t) with
    | error e => simp [hz]
    | ok keyed =>
      rw [if_neg hz, if_neg hz]
      exact popped_spec _ b

theorem evictions_spec (hr : ∃ r, b.records.get? t = some r) (now : ℕ) (x : Backend.Update) :
    (evictions b now t x).Nodup ∧ (∀ u ∈ evictions b now t x, b.records.get? u ≠ none) ∧
    ∀ u, (b.updateStatus now t x).2.records.get? u =
      if u ∈ evictions b now t x then none
      else if u = t then (b.records.get? t).map x.apply else b.records.get? u := by
  obtain ⟨r, hr⟩ := hr
  unfold evictions Backend.updateStatus
  rw [hr]
  dsimp only
  split
  · obtain ⟨hn, hs, hg⟩ :=
      pruned_spec ({ b with records := b.records.set t (x.apply r) }.markFinished now t)
    refine ⟨hn, ?_, ?_⟩
    · intro u hu hnone
      have := hs u hu
      by_cases he : u = t
      · subst he
        simp [hr] at hnone
      · simp [he, hnone] at this
    · intro u
      have hu := hg u
      simp only [Backend.markFinished_records, Dict.get?_set] at hu
      split <;> rename_i heq <;> rw [heq] at hu <;> exact hu
  · simp [Backend.unmark]

/-! ## The indices over any run -/

/-- Pruning finds what it looks up and what it pops, and no two of its sort keys are equal. -/
structure PruneSafe (b : Backend) : Prop where
  found : ∀ t ∈ b.terminalTaskIds, ∃ k, b.pruneKey t = .ok k
  untied : ∀ t u k, b.pruneKey t = .ok k → b.pruneKey u = .ok k → t = u
  popped : b.pruneTerminalRecords.1 = none

theorem key_finished {k : ℕ ×ₗ ℕ ×ₗ ℕ} (h : b.pruneKey t = .ok k) :
    b.terminalFinishedAt.get? t = some (ofLex k).2 := by
  unfold Backend.pruneKey at h
  cases hf : b.terminalFinishedAt.get? t with
  | none =>
    rw [hf] at h
    cases h
  | some place =>
    rw [hf] at h
    cases h
    exact rfl

theorem wellformed_pruneSafe (h : b.Wellformed) : PruneSafe b where
  found t ht := by
    obtain ⟨k, hk⟩ := Dict.mem_keys.mp ((h.finished t).mpr (Backend.mem_terminalTaskIds.mp ht))
    exact ⟨toLex (if t ∈ b.readTerminalTasks then 0 else 1, k), by rw [Backend.pruneKey, hk]⟩
  untied t u k ht hu := h.distinct t u _ _ (key_finished ht) (key_finished hu) rfl
  popped := by
    obtain ⟨b', hp, _⟩ := Backend.prune_ok h
    rw [hp]

theorem perform_wellformed (h : b.Wellformed) (now : ℕ) (operation : Operation) :
    (perform b now operation).2.Wellformed := by
  cases operation with
  | listAll copying => exact h
  | call c =>
    cases c with
    | submit record priority =>
      apply h.submit
      rw [record.2]
      exact rfl
    | pull => exact h.pull
    | get t => exact h
    | getCopy t copying => exact h
    | read t consume copying => exact h.read t consume copying
    | update t x =>
      cases hr : b.records.get? t with
      | none =>
        have hu := Backend.updateStatus_missing hr now x
        simp only [perform, serve, hu]
        exact h
      | some r =>
        obtain ⟨b', hu, hw, _⟩ := Backend.updateStatus_ok h hr now x
        simp only [perform, serve, hu]
        exact hw

theorem run_wellformed (h : s.backend.Wellformed) (es : List (Event ι)) :
    (es.foldl next s).backend.Wellformed := by
  induction es generalizing s with
  | nil => exact h
  | cons e es ih => exact ih (perform_wellformed h e.now e.operation)

/-- After any calls, whatever the clock says, the indices agree with the records, and the
pruning that an update comes to is safe. -/
theorem indices_consistent (limit start : ℕ) (es : List (Event ι)) :
    (es.foldl next (begin limit start)).backend.Wellformed ∧
    ∀ t r now x, (es.foldl next (begin limit start)).backend.records.get? t = some r →
      terminal x.status = true →
      PruneSafe ({ (es.foldl next (begin limit start)).backend with
        records := (es.foldl next (begin limit start)).backend.records.set t
          (Backend.Update.apply x r) }.markFinished now t) := by
  have h := run_wellformed (s := begin limit start) (Backend.empty_wellformed limit) es
  refine ⟨h, ?_⟩
  intro t r now x hr hx
  apply wellformed_pruneSafe
  exact h.finish (r := Backend.Update.apply x r) (h.keyed t r hr) hx now

end BackendHistory
