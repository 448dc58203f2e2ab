import Infly.BinaryHeap
import Infly.TaskBackend

/-! # A submission that raises

`submit` and `pull` of `infly/runtime/task_backend.py` over the heap they keep in a list.
Priorities are any values: negating one or comparing two may raise.
-/
namespace SubmitRollback

open Contracts TaskBackend BinaryHeap

/-- What Python does with priorities. `same`: they are one object or equal. -/
structure Priorities (π ν ε : Type) where
  neg : π → Except ε ν
  same : ν → ν → Except ε Bool
  less : ν → ν → Except ε Bool

/-- The order of two tuples is that of the first items that are not the same. -/
structure Entry (ν : Type) where
  key : ν
  sequence : ℕ
  taskId : TaskId
  deriving DecidableEq

structure Backend (ν : Type) where
  records : Dict TaskId TaskRecord := .empty
  pending : Array (Entry ν) := #[]
  sequence : ℕ := 0

inductive Failure (ε : Type) where
  | duplicate (t : TaskId)
  | priority (e : ε)
  deriving DecidableEq

variable {π ν ε : Type} (P : Priorities π ν ε)

def Entry.less (a b : Entry ν) : Except ε Bool :=
  match P.same a.key b.key with
  | .error e => .error e
  | .ok false => P.less a.key b.key
  | .ok true =>
    if a.sequence = b.sequence then .ok (decide (a.taskId < b.taskId))
    else .ok (decide (a.sequence < b.sequence))

def submit (b : Backend ν) (record : TaskRecord) (priority : π) :
    Except (Failure ε) Unit × Backend ν :=
  if b.records.contains record.taskId then (.error (.duplicate record.taskId), b)
  else
    let stored := { b with records := b.records.set record.taskId record }
    match P.neg priority with
    | .error e =>
      (.error (.priority e), { stored with records := stored.records.pop record.taskId })
    | .ok key =>
      match heappush (Entry.less P) stored.pending ⟨key, b.sequence, record.taskId⟩ with
      | (.error e, pending) => (.error (.priority e),
          { stored with pending, records := stored.records.pop record.taskId })
      | (.ok (), pending) => (.ok (), { stored with pending, sequence := b.sequence + 1 })

def pull (b : Backend ν) : Except ε (Option TaskId) × Backend ν :=
  match heappop (Entry.less P) b.pending with
  | (none, _) => (.ok none, b)
  | (some (.error e), pending) => (.error e, { b with pending })
  | (some (.ok entry), pending) => (.ok (some entry.taskId), { b with pending })

/-- A submission that raises changes nothing. -/
def Atomic (b : Backend ν) (record : TaskRecord) (priority : π) : Prop :=
  ∀ e, (submit P b record priority).1 = .error e → (submit P b record priority).2 = b

/-- The id is taken, the priority has no negation, or the new entry can be compared with those
above its place in the heap until it is not less than one. -/
def Orderly (b : Backend ν) (record : TaskRecord) (priority : π) : Prop :=
  record.taskId ∈ b.records.keys ∨ (∃ e, P.neg priority = .error e) ∨
    ∃ key, P.neg priority = .ok key ∧ Comparable (Entry.less P)
      ⟨key, b.sequence, record.taskId⟩ (ancestors b.pending b.pending.size)

variable {P} {b : Backend ν} {record : TaskRecord} {priority : π} {key : ν} {e : ε}

theorem submit_taken (h : record.taskId ∈ b.records.keys) :
    submit P b record priority = (.error (.duplicate record.taskId), b) := by
  rw [submit, if_pos (Dict.contains_iff.mpr h)]

theorem submit_unsigned (h : record.taskId ∉ b.records.keys) (hn : P.neg priority = .error e) :
    submit P b record priority = (.error (.priority e), b) := by
  rw [submit, if_neg fun hc => h (Dict.contains_iff.mp hc), hn]
  dsimp only
  rw [Dict.pop_set_new (Dict.get?_eq_none.mpr h)]

theorem submit_pushed (h : record.taskId ∉ b.records.keys) (hn : P.neg priority = .ok key)
    {pending : Array (Entry ν)}
    (hp : heappush (Entry.less P) b.pending ⟨key, b.sequence, record.taskId⟩ =
      (.ok (), pending)) :
    (submit P b record priority).1 = .ok () := by
  rw [submit, if_neg fun hc => h (Dict.contains_iff.mp hc), hn]
  dsimp only
  rw [hp]

/-- The record is taken back, the entry is not. -/
theorem submit_stuck (h : record.taskId ∉ b.records.keys) (hn : P.neg priority = .ok key)
    {pending : Array (Entry ν)}
    (hp : heappush (Entry.less P) b.pending ⟨key, b.sequence, record.taskId⟩ =
      (.error e, pending)) :
    submit P b record priority = (.error (.priority e), { b with pending }) := by
  rw [submit, if_neg fun hc => h (Dict.contains_iff.mp hc), hn]
  dsimp only
  rw [hp]
  dsimp only
  rw [Dict.pop_set_new (Dict.get?_eq_none.mpr h)]

/-- A submission is atomic exactly when no comparison of its heap push raises. -/
theorem submit_atomic (P : Priorities π ν ε) (b : Backend ν) (record : TaskRecord)
    (priority : π) : Atomic P b record priority ↔ Orderly P b record priority := by
  by_cases ht : record.taskId ∈ b.records.keys
  · refine iff_of_true ?_ (.inl ht)
    intro e _
    rw [submit_taken ht]
  · cases hn : P.neg priority with
    | error e =>
      refine iff_of_true ?_ (.inr (.inl ⟨e, hn⟩))
      intro e' _
      rw [submit_unsigned ht hn]
    | ok key =>
      have pushed := heappush_ok_iff (Entry.less P) b.pending ⟨key, b.sequence, record.taskId⟩
      have size := heappush_size (Entry.less P) b.pending ⟨key, b.sequence, record.taskId⟩
      rcases hp : heappush (Entry.less P) b.pending ⟨key, b.sequence, record.taskId⟩ with
        ⟨outcome, pending⟩
      rw [hp] at pushed size
      cases outcome with
      | ok u =>
        refine iff_of_true ?_ (.inr (.inr ⟨key, hn, pushed.mp rfl⟩))
        intro e he
        cases (submit_pushed ht hn hp).symm.trans he
      | error e =>
        refine iff_of_false ?_ ?_
        · intro h
          have same := h (.priority e) (by rw [submit_stuck ht hn hp])
          rw [submit_stuck ht hn hp] at same
          have := congrArg (fun c => c.pending.size) same
          dsimp only at this size
          omega
        · rintro (h | ⟨e', h⟩ | ⟨key', h, clear⟩)
          · exact ht h
          · cases hn.symm.trans h
          · cases hn.symm.trans h
            cases pushed.mpr clear

/-! ## A complex number among integers -/

/-- Integers, and a value that has a negation but no order. -/
def mixedPriorities : Priorities (Option ℤ) (Option ℤ) String where
  neg p := .ok (p.map (- ·))
  same a b := .ok (decide (a = b))
  less
    | some a, some b => .ok (decide (a < b))
    | _, _ => .error "TypeError"

def sampleRecord (t : TaskId) : TaskRecord where
  taskId := t
  request := { handlerName := "h", taskId := t }

def afterFirst : Backend (Option ℤ) :=
  (submit mixedPriorities {} (sampleRecord "a") (some 0)).2

def afterRaise : Backend (Option ℤ) :=
  (submit mixedPriorities afterFirst (sampleRecord "b") none).2

def afterThird : Backend (Option ℤ) :=
  (submit mixedPriorities afterRaise (sampleRecord "c") (some 0)).2

/-- The entry of a task that was refused stays in the heap. A pull that has to move it raises, and
the task that was to be pulled is gone. -/
theorem refused_entry_stays :
    ¬Atomic mixedPriorities afterFirst (sampleRecord "b") none ∧
    (submit mixedPriorities afterRaise (sampleRecord "c") (some 0)).1 = .ok () ∧
    (pull mixedPriorities afterThird).1 = .error "TypeError" ∧
    "a" ∈ (pull mixedPriorities afterThird).2.records.keys ∧
    "a" ∉ (pull mixedPriorities afterThird).2.pending.toList.map Entry.taskId := by
  refine ⟨?_, ?_, ?_, ?_, ?_⟩
  · intro h
    have same := h (.priority "TypeError") (by decide +kernel)
    have := congrArg (fun b => b.pending.size) same
    revert this
    decide +kernel
  · decide +kernel
  · decide +kernel
  · decide +kernel
  · decide +kernel

end SubmitRollback
