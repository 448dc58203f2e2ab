import Infly.Dict
import Infly.PriorityQueue
import Infly.Contracts
import Mathlib.Data.Prod.Lex
import Mathlib.Data.String.Basic
import Mathlib.Data.Finset.Basic

/-! # The in-memory task backend

`infly/runtime/task_backend.py`. Every method runs under one lock, so it is one function
on the backend. A method that raises keeps what it had changed before.
-/
namespace TaskBackend

open Contracts

/-- What the heap is ordered by: the negated priority, the sequence number, the id. -/
abbrev Entry := ℤ ×ₗ ℕ ×ₗ TaskId

def Entry.taskId (e : Entry) : TaskId := (ofLex (ofLex e).2).2

structure Backend where
  maxRetainedTerminalTasks : ℕ := 50
  records : Dict TaskId TaskRecord := .empty
  pending : PriorityQueue Entry := .empty
  terminalFinishedAt : Dict TaskId (ℕ ×ₗ ℕ) := .empty
  readTerminalTasks : Finset TaskId := ∅
  terminalSequence : ℕ := 0
  sequence : ℕ := 0

def terminal : TaskStatus → Bool
  | .completed | .failed => true
  | _ => false

/-- What `copy.deepcopy` of a record raises, if a value in it cannot be copied. -/
abbrev Copying := TaskRecord → Option Raised

/-- A copy that ends is equal to the record. -/
def deepcopy (copying : Copying) (record : TaskRecord) : Except Raised TaskRecord :=
  match copying record with
  | none => .ok record
  | some e => .error e

/-- No copy raises. -/
def copies : Copying := fun _ => none

namespace Backend

def queued (b : Backend) : List TaskId := b.pending.entries.map Entry.taskId

def submit (b : Backend) (record : TaskRecord) (priority : ℤ) : Except Raised Unit × Backend :=
  if b.records.contains record.taskId then
    (.error (.valueError s!"Task '{record.taskId}' already exists."), b)
  else
    (.ok (), { b with
      records := b.records.set record.taskId record
      pending := b.pending.push (toLex (-priority, toLex (b.sequence, record.taskId)))
      sequence := b.sequence + 1 })

def pull (b : Backend) : Option TaskId × Backend :=
  match b.pending.pop with
  | none => (none, b)
  | some (e, rest) => (some e.taskId, { b with pending := rest })

/-- `get` without `copy`. -/
def get (b : Backend) (t : TaskId) : Option TaskRecord := b.records.get? t

/-- `get` with `copy`. -/
def getCopy (b : Backend) (t : TaskId) (copying : Copying) : Except Raised (Option TaskRecord) :=
  match b.records.get? t with
  | none => .ok none
  | some record => (deepcopy copying record).map some

/-- Takes the finish position and the read mark of `t` away. -/
def unmark (b : Backend) (t : TaskId) : Backend :=
  { b with
    terminalFinishedAt := b.terminalFinishedAt.pop t
    readTerminalTasks := b.readTerminalTasks.erase t }

def drop (b : Backend) (t : TaskId) : Backend := { b.unmark t with records := b.records.pop t }

/-- A record is marked as read before it is copied; a consumed one is not copied. -/
def read (b : Backend) (t : TaskId) (consume : Bool) (copying : Copying) :
    Except Raised (Option TaskRecord) × Backend :=
  match b.records.get? t with
  | none => (.ok none, b)
  | some record =>
    if terminal record.status then
      if consume then (.ok (some record), b.drop t)
      else ((deepcopy copying record).map some,
        { b with readTerminalTasks := insert t b.readTerminalTasks })
    else (.ok none, b)

def terminalTaskIds (b : Backend) : List TaskId :=
  (b.records.entries.filter (fun e => terminal e.2.status)).map Prod.fst

/-- Read records go first, then those that finished earlier. -/
def pruneKey (b : Backend) (t : TaskId) : Except Raised (ℕ ×ₗ ℕ ×ₗ ℕ) :=
  match b.terminalFinishedAt.get? t with
  | none => .error (.keyError t)
  | some at_ => .ok (toLex (if t ∈ b.readTerminalTasks then 0 else 1, at_))

def evict : List TaskId → Backend → Option Raised × Backend
  | [], b => (none, b)
  | t :: ts, b =>
    match b.records.get? t with
    | none => (some (.keyError t), b)
    | some _ => evict ts (b.drop t)

def pruneTerminalRecords (b : Backend) : Option Raised × Backend :=
  if b.maxRetainedTerminalTasks = 0 then (none, b)
  else
    match b.terminalTaskIds.mapM (fun t => (b.pruneKey t).map (fun k => (k, t))) with
    | .error e => (some e, b)
    | .ok keyed =>
      let ordered := (keyed.insertionSort (fun x y => x.1 ≤ y.1)).map Prod.snd
      evict (ordered.take (ordered.length - b.maxRetainedTerminalTasks)) b

def markFinished (b : Backend) (now : ℕ) (t : TaskId) : Backend :=
  if b.terminalFinishedAt.contains t then b
  else { b with
    terminalFinishedAt := b.terminalFinishedAt.set t (toLex (now, b.terminalSequence))
    terminalSequence := b.terminalSequence + 1 }

/-- The fields of `update_status` besides the task id. -/
structure Update where
  status : TaskStatus
  result : Option TaskResult := none
  errorCode : Option ErrorCode := none
  errorMessage : Option String := none
  deriving DecidableEq

def Update.apply (u : Update) (r : TaskRecord) : TaskRecord :=
  { r with status := u.status, result := u.result, errorCode := u.errorCode, errorMessage := u.errorMessage }

def updateStatus (b : Backend) (now : ℕ) (t : TaskId) (u : Update) :
    Except Raised TaskRecord × Backend :=
  match b.records.get? t with
  | none => (.error (.keyError t), b)
  | some record =>
    let updated := u.apply record
    let stored := { b with records := b.records.set t updated }
    if terminal u.status then
      match (stored.markFinished now t).pruneTerminalRecords with
      | (some e, b') => (.error e, b')
      | (none, b') => (.ok updated, b')
    else (.ok updated, stored.unmark t)

def listAll (b : Backend) (copying : Copying) : Except Raised (List TaskRecord) :=
  b.records.values.mapM (deepcopy copying)

/-! ## The indices agree with the records -/

structure Wellformed (b : Backend) : Prop where
  keyed : ∀ t r, b.records.get? t = some r → r.taskId = t
  finished : ∀ t, t ∈ b.terminalFinishedAt.keys ↔
    ∃ r, b.records.get? t = some r ∧ terminal r.status = true
  marked : ∀ t ∈ b.readTerminalTasks, t ∈ b.terminalFinishedAt.keys
  sequenced : ∀ t k, b.terminalFinishedAt.get? t = some k → (ofLex k).2 < b.terminalSequence
  distinct : ∀ t u k l, b.terminalFinishedAt.get? t = some k →
    b.terminalFinishedAt.get? u = some l → (ofLex k).2 = (ofLex l).2 → t = u

theorem empty_wellformed (n : ℕ) : Wellformed { maxRetainedTerminalTasks := n } := by
  refine ⟨fun t r h => ?_, fun t => ?_, fun t h => ?_, fun t k h => ?_, fun t u k l h => ?_⟩
  · cases h
  · simp
  · exact absurd h (Finset.notMem_empty t)
  · cases h
  · cases h

/-- The record of `t` stays, or it was terminal and has left. -/
def Fades (b b' : Backend) (t : TaskId) : Prop :=
  b'.records.get? t = b.records.get? t ∨
    b'.records.get? t = none ∧ ∃ r, b.records.get? t = some r ∧ terminal r.status = true

variable {b b' b'' : Backend} {t u : TaskId} {r : TaskRecord}

theorem Fades.refl (b : Backend) (t : TaskId) : b.Fades b t := .inl rfl

theorem Fades.trans (h : b.Fades b' t) (k : b'.Fades b'' t) : b.Fades b'' t := by
  rcases h with h | ⟨h, r, hr, ht⟩
  · rcases k with k | ⟨k, r, hr, ht⟩
    · exact .inl (k.trans h)
    · exact .inr ⟨k, r, h ▸ hr, ht⟩
  · rcases k with k | ⟨_, r', hr', _⟩
    · exact .inr ⟨k.trans h, r, hr, ht⟩
    · rw [h] at hr'
      cases hr'

theorem Fades.live (h : b.Fades b' t) (hr : b.records.get? t = some r)
    (hl : terminal r.status = false) : b'.records.get? t = some r := by
  rcases h with h | ⟨_, r', hr', ht⟩
  · exact h.trans hr
  · rw [hr] at hr'
    cases hr'
    rw [hl] at ht
    cases ht

theorem Wellformed.drop (h : b.Wellformed) (t : TaskId) : (b.drop t).Wellformed where
  keyed u r hr := by
    simp only [Backend.drop, Dict.get?_pop] at hr
    split at hr
    · cases hr
    · exact h.keyed u r hr
  finished u := by
    by_cases hu : u = t <;> simp [Backend.drop, unmark, hu, h.finished]
  marked u hu := by
    simp only [Backend.drop, unmark, Finset.mem_erase] at hu
    simpa [Backend.drop, unmark, hu.1] using h.marked u hu.2
  sequenced u k hk := by
    simp only [Backend.drop, unmark, Dict.get?_pop] at hk
    split at hk
    · cases hk
    · exact h.sequenced u k hk
  distinct u v k l hk hl := by
    simp only [Backend.drop, unmark, Dict.get?_pop] at hk hl
    split at hk
    · cases hk
    · split at hl
      · cases hl
      · exact h.distinct u v k l hk hl

theorem drop_fades (hr : b.records.get? t = some r) (ht : terminal r.status = true)
    (u : TaskId) : b.Fades (b.drop t) u := by
  by_cases hu : u = t
  · subst hu
    exact .inr ⟨by simp [drop], r, hr, ht⟩
  · exact .inl (by simp [drop, hu])

theorem mem_terminalTaskIds :
    t ∈ b.terminalTaskIds ↔ ∃ r, b.records.get? t = some r ∧ terminal r.status = true := by
  simp [terminalTaskIds, List.mem_map, List.mem_filter, Dict.get?_eq_some]

theorem terminalTaskIds_nodup (b : Backend) : b.terminalTaskIds.Nodup :=
  b.records.nodup.sublist (List.filter_sublist.map _)

/-- Evicting distinct terminal records cannot fail. -/
theorem evict_terminal {ids : List TaskId} (h : b.Wellformed) (hn : ids.Nodup)
    (hids : ∀ t ∈ ids, t ∈ b.terminalTaskIds) :
    ∃ b', evict ids b = (none, b') ∧ b'.Wellformed ∧ (∀ t, b.Fades b' t) ∧
      b'.pending = b.pending := by
  induction ids generalizing b with
  | nil => exact ⟨b, rfl, h, Fades.refl b, rfl⟩
  | cons t ids ih =>
    obtain ⟨r, hr, ht⟩ := mem_terminalTaskIds.mp (hids t (List.mem_cons_self ..))
    rw [List.nodup_cons] at hn
    have others : ∀ u ∈ ids, u ∈ (b.drop t).terminalTaskIds := by
      intro u hu
      have hne : u ≠ t := fun he => hn.1 (he ▸ hu)
      rw [mem_terminalTaskIds]
      simpa [drop, hne] using mem_terminalTaskIds.mp (hids u (List.mem_cons_of_mem _ hu))
    obtain ⟨b', he, hw, hf, hp⟩ := ih (h.drop t) hn.2 others
    exact ⟨b', by simpa [evict, hr] using he, hw, fun u => (drop_fades hr ht u).trans (hf u), hp⟩

/-- With agreeing indices every sort key is found. -/
theorem pruneKeys_ok (h : b.Wellformed) {ids : List TaskId}
    (hids : ∀ t ∈ ids, t ∈ b.terminalTaskIds) :
    ∃ keyed, ids.mapM (fun t => (b.pruneKey t).map (fun k => (k, t))) = .ok keyed ∧
      keyed.map Prod.snd = ids ∧ ∀ e ∈ keyed, b.pruneKey e.2 = .ok e.1 := by
  induction ids with
  | nil => exact ⟨[], rfl, rfl, fun _ h => absurd h List.not_mem_nil⟩
  | cons t ids ih =>
    obtain ⟨keyed, hk, hm, hkeys⟩ := ih fun u hu => hids u (List.mem_cons_of_mem _ hu)
    obtain ⟨k, hf⟩ := Dict.mem_keys.mp
      ((h.finished t).mpr (mem_terminalTaskIds.mp (hids t (List.mem_cons_self ..))))
    have hkey : b.pruneKey t = .ok (toLex (if t ∈ b.readTerminalTasks then 0 else 1, k)) := by
      rw [pruneKey, hf]
    refine ⟨(toLex (if t ∈ b.readTerminalTasks then 0 else 1, k), t) :: keyed, ?_, ?_, ?_⟩
    · rw [List.mapM_cons, hk, hkey]
      rfl
    · rw [List.map_cons, hm]
    · intro e he
      rcases List.mem_cons.mp he with rfl | he
      · exact hkey
      · exact hkeys e he

/-- So pruning never raises. -/
theorem prune_ok (h : b.Wellformed) :
    ∃ b', b.pruneTerminalRecords = (none, b') ∧ b'.Wellformed ∧ (∀ t, b.Fades b' t) ∧
      b'.pending = b.pending := by
  unfold pruneTerminalRecords
  split
  · exact ⟨b, rfl, h, Fades.refl b, rfl⟩
  · obtain ⟨keyed, hk, hm, _⟩ := pruneKeys_ok h fun t ht => ht
    rw [hk]
    have perm : ((keyed.insertionSort (fun x y => x.1 ≤ y.1)).map Prod.snd).Perm
        b.terminalTaskIds := hm ▸ (List.perm_insertionSort _ _).map _
    refine evict_terminal h ?_ fun t ht => perm.mem_iff.mp (List.mem_of_mem_take ht)
    exact (perm.nodup_iff.mpr b.terminalTaskIds_nodup).sublist (List.take_sublist ..)

theorem Wellformed.restart (h : b.Wellformed) (hk : r.taskId = t)
    (hl : terminal r.status = false) :
    ({ b with records := b.records.set t r }.unmark t).Wellformed where
  keyed u r' hr' := by
    simp only [unmark, Dict.get?_set] at hr'
    split at hr'
    · cases hr'
      subst_vars
      rfl
    · exact h.keyed u r' hr'
  finished u := by
    by_cases hu : u = t <;> simp [unmark, hu, h.finished, hl]
  marked u hu := by
    simp only [unmark, Finset.mem_erase] at hu
    simpa [unmark, hu.1] using h.marked u hu.2
  sequenced u k hf := by
    simp only [unmark, Dict.get?_pop] at hf
    split at hf
    · cases hf
    · exact h.sequenced u k hf
  distinct u v k l hf hg := by
    simp only [unmark, Dict.get?_pop] at hf hg
    split at hf
    · cases hf
    · split at hg
      · cases hg
      · exact h.distinct u v k l hf hg

theorem Wellformed.finish (h : b.Wellformed) (hk : r.taskId = t)
    (ht : terminal r.status = true) (now : ℕ) :
    ({ b with records := b.records.set t r }.markFinished now t).Wellformed := by
  have keyed : ∀ u r', (b.records.set t r).get? u = some r' → r'.taskId = u := by
    intro u r' hr'
    rw [Dict.get?_set] at hr'
    split at hr'
    · cases hr'
      subst_vars
      rfl
    · exact h.keyed u r' hr'
  unfold markFinished
  split
  · rename_i hc
    have hc : t ∈ b.terminalFinishedAt.keys := Dict.contains_iff.mp hc
    refine ⟨keyed, fun u => ?_, h.marked, h.sequenced, h.distinct⟩
    by_cases hu : u = t
    · subst hu
      simp [hc, ht]
    · simpa [hu] using h.finished u
  · rename_i hc
    refine ⟨keyed, fun u => ?_, fun u hu => ?_, fun u k hf => ?_, fun u v k l hf hg he => ?_⟩
    · by_cases hu : u = t <;> simp [hu, ht, h.finished]
    · exact Dict.mem_keys_set.mpr (.inr (h.marked u hu))
    · simp only [Dict.get?_set] at hf
      split at hf
      · cases hf
        exact Nat.lt_succ_self _
      · exact Nat.lt_succ_of_lt (h.sequenced u k hf)
    · simp only [Dict.get?_set] at hf hg
      split at hf
      · split at hg
        · subst_vars
          rfl
        · cases hf
          exact absurd (h.sequenced v l hg) (by rw [← he]; exact Nat.lt_irrefl _)
      · split at hg
        · cases hg
          exact absurd (h.sequenced u k hf) (by rw [he]; exact Nat.lt_irrefl _)
        · exact h.distinct u v k l hf hg he

@[simp] theorem markFinished_records (b : Backend) (now : ℕ) (t : TaskId) :
    (b.markFinished now t).records = b.records := by
  unfold markFinished
  split <;> rfl

@[simp] theorem markFinished_pending (b : Backend) (now : ℕ) (t : TaskId) :
    (b.markFinished now t).pending = b.pending := by
  unfold markFinished
  split <;> rfl

theorem evict_pending (ids : List TaskId) (b : Backend) :
    (evict ids b).2.pending = b.pending := by
  induction ids generalizing b with
  | nil => rfl
  | cons t ids ih =>
    unfold evict
    split
    · rfl
    · exact ih _

@[simp] theorem prune_pending (b : Backend) : b.pruneTerminalRecords.2.pending = b.pending := by
  unfold pruneTerminalRecords
  split
  · rfl
  · split
    · rfl
    · exact evict_pending ..

theorem updateStatus_missing (h : b.records.get? t = none) (now : ℕ) (x : Update) :
    b.updateStatus now t x = (.error (.keyError t), b) := by simp [updateStatus, h]

@[simp] theorem updateStatus_pending (b : Backend) (now : ℕ) (t : TaskId) (x : Update) :
    (b.updateStatus now t x).2.pending = b.pending := by
  unfold updateStatus
  split
  · rfl
  · dsimp only
    split
    · have hp := ({ b with records := b.records.set t (x.apply ‹_›) }.markFinished now t).prune_pending
      split <;> rename_i heq <;> rw [heq] at hp <;> simpa using hp
    · rfl

/-- An update of a stored record succeeds. Besides it, terminal records may leave, and even
the updated one if it is terminal now. -/
theorem updateStatus_ok (h : b.Wellformed) (hr : b.records.get? t = some r) (now : ℕ)
    (x : Update) : ∃ b', b.updateStatus now t x = (.ok (x.apply r), b') ∧ b'.Wellformed ∧
      b'.pending = b.pending ∧ (∀ u, u ≠ t → b.Fades b' u) ∧
      (b'.records.get? t = some (x.apply r) ∨
        b'.records.get? t = none ∧ terminal x.status = true) := by
  have hk : (x.apply r).taskId = t := h.keyed t r hr
  unfold updateStatus
  rw [hr]
  dsimp only
  by_cases ht : terminal x.status = true
  · obtain ⟨b', hp, hw, hf, hq⟩ := prune_ok (h.finish hk (show terminal (x.apply r).status = true from ht) now)
    rw [if_pos ht, hp]
    refine ⟨b', rfl, hw, hq.trans (by simp), fun u hu => ?_, ?_⟩
    · simpa [Fades, hu] using hf u
    · rcases hf t with hs | ⟨hs, _⟩
      · exact .inl (by simpa using hs)
      · exact .inr ⟨hs, ht⟩
  · rw [if_neg ht]
    refine ⟨_, rfl, h.restart hk (Bool.not_eq_true _ ▸ ht), rfl, fun u hu => .inl ?_, .inl ?_⟩
    · simp [unmark, hu]
    · simp [unmark]

/-- What copying raises does not change what a read leaves. -/
theorem read_leaves (b : Backend) (t : TaskId) (consume : Bool) (copying copying' : Copying) :
    (b.read t consume copying).2 = (b.read t consume copying').2 := by
  unfold read
  cases b.records.get? t with
  | none => rfl
  | some r =>
    dsimp only
    split
    · cases consume <;> rfl
    · rfl

theorem read_fades (b : Backend) (t : TaskId) (consume : Bool) (copying : Copying) (u : TaskId) :
    b.Fades (b.read t consume copying).2 u := by
  unfold read
  split
  · exact Fades.refl b u
  · rename_i r hr
    split
    · rename_i ht
      cases consume
      · exact .inl rfl
      · exact drop_fades hr ht u
    · exact Fades.refl b u

@[simp] theorem read_pending (b : Backend) (t : TaskId) (consume : Bool) (copying : Copying) :
    (b.read t consume copying).2.pending = b.pending := by
  unfold read
  split
  · rfl
  · split
    · cases consume <;> rfl
    · rfl

/-- A read raises when the copy of a terminal record does, and then it leaves the mark. -/
theorem read_raises {consume : Bool} {copying : Copying} {e : Raised}
    (h : (b.read t consume copying).1 = .error e) :
    consume = false ∧ (∃ r, b.records.get? t = some r ∧ terminal r.status = true ∧
      copying r = some e) ∧
    (b.read t consume copying).2 =
      { b with readTerminalTasks := insert t b.readTerminalTasks } := by
  unfold read at h ⊢
  cases hr : b.records.get? t with
  | none => simp [hr] at h
  | some r =>
    by_cases ht : terminal r.status = true
    · cases consume with
      | true => simp [hr, ht] at h
      | false =>
        refine ⟨rfl, ⟨r, rfl, ht, ?_⟩, by simp [ht]⟩
        cases hc : copying r with
        | none => simp [hr, ht, deepcopy, hc, Except.map] at h
        | some e' => simpa [hr, ht, deepcopy, hc, Except.map] using h
    · simp [hr, ht] at h

/-- What is listed is what is stored. -/
theorem listAll_ok {copying : Copying} {records : List TaskRecord}
    (h : b.listAll copying = .ok records) : records = b.records.values := by
  unfold listAll at h
  generalize b.records.values = stored at h ⊢
  induction stored generalizing records with
  | nil =>
    cases h
    rfl
  | cons r rest ih =>
    rw [List.mapM_cons] at h
    unfold deepcopy at h ih
    cases hc : copying r with
    | some e =>
      rw [hc] at h
      cases h
    | none =>
      rw [hc] at h
      cases hl : rest.mapM fun record => deepcopy copying record with
      | error e =>
        unfold deepcopy at hl
        rw [hl] at h
        cases h
      | ok copied =>
        unfold deepcopy at hl
        rw [hl] at h
        cases h
        rw [ih hl]

theorem listAll_copies (b : Backend) : b.listAll copies = .ok b.records.values := by
  unfold listAll
  induction b.records.values with
  | nil => rfl
  | cons r rest ih =>
    rw [List.mapM_cons, ih]
    rfl

theorem Wellformed.read (h : b.Wellformed) (t : TaskId) (consume : Bool) (copying : Copying) :
    (b.read t consume copying).2.Wellformed := by
  unfold Backend.read
  split
  · exact h
  · rename_i r hr
    split
    · rename_i ht
      cases consume
      · refine ⟨h.keyed, h.finished, fun u hu => ?_, h.sequenced, h.distinct⟩
        rcases Finset.mem_insert.mp hu with rfl | hu
        · exact (h.finished u).mpr ⟨r, hr, ht⟩
        · exact h.marked u hu
      · exact h.drop t
    · exact h

theorem submit_new (hn : b.records.get? r.taskId = none) (priority : ℤ) :
    b.submit r priority = (.ok (), { b with
      records := b.records.set r.taskId r
      pending := b.pending.push (toLex (-priority, toLex (b.sequence, r.taskId)))
      sequence := b.sequence + 1 }) := by
  simp [submit, Dict.contains, hn]

theorem submit_raises {e : Raised} (h : (b.submit r priority).1 = .error e) :
    (b.submit r priority).2 = b := by
  unfold submit at h ⊢
  split
  · rfl
  · rename_i hc
    rw [if_neg hc] at h
    cases h

theorem Wellformed.submit (h : b.Wellformed) (hl : terminal r.status = false) (priority : ℤ) :
    (b.submit r priority).2.Wellformed := by
  unfold Backend.submit
  split
  · exact h
  · rename_i hc
    have hn : r.taskId ∉ b.records.keys := fun hm => hc (Dict.contains_iff.mpr hm)
    have hnf : r.taskId ∉ b.terminalFinishedAt.keys := fun hm => by
      obtain ⟨r', hr', _⟩ := (h.finished _).mp hm
      exact hn (Dict.mem_keys.mpr ⟨r', hr'⟩)
    refine ⟨fun u r' hr' => ?_, fun u => ?_, h.marked, h.sequenced, h.distinct⟩
    · rw [Dict.get?_set] at hr'
      split at hr'
      · cases hr'
        subst_vars
        rfl
      · exact h.keyed u r' hr'
    · by_cases hu : u = r.taskId
      · subst hu
        simp [hnf, hl]
      · simpa [hu] using h.finished u

theorem Wellformed.pull (h : b.Wellformed) : (b.pull).2.Wellformed := by
  unfold Backend.pull
  split
  · exact h
  · exact ⟨h.keyed, h.finished, h.marked, h.sequenced, h.distinct⟩

@[simp] theorem pull_records (b : Backend) : b.pull.2.records = b.records := by
  unfold pull
  split <;> rfl

theorem pull_some (h : b.pull.1 = some t) : b.queued = t :: b.pull.2.queued := by
  unfold pull at h ⊢
  split at h
  · cases h
  · rename_i e rest hp
    cases h
    simp [queued, PriorityQueue.pop_eq_some hp]

theorem pull_none (h : b.pull.1 = none) : b.queued = [] ∧ b.pull.2 = b := by
  unfold pull at h ⊢
  split at h
  · rename_i hp
    exact ⟨by simp [queued, PriorityQueue.pop_eq_none.mp hp], rfl⟩
  · cases h

theorem submit_queued (hn : b.records.get? r.taskId = none) (priority : ℤ) :
    (b.submit r priority).2.queued.Perm (r.taskId :: b.queued) := by
  rw [submit_new hn]
  exact (PriorityQueue.push_perm).map Entry.taskId

end Backend
end TaskBackend
