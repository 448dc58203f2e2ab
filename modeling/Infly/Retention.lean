import Infly.TaskBackend
import Infly.ItemShelf

/-! # Retention of terminal records

An archive keeps the terminal records on a shelf, in the order in which they finished, and
reads no clock. The in-memory backend answers every sequence of calls as the archive does.
-/
namespace Retention

open Contracts TaskBackend

structure Archive where
  limit : ℕ
  records : TaskId → Option TaskRecord := fun _ => none
  pending : PriorityQueue Entry := .empty
  sequence : ℕ := 0
  shelf : ItemShelf TaskId := .empty

namespace Archive

def submit (m : Archive) (record : TaskRecord) (priority : ℤ) : Except Raised Unit × Archive :=
  match m.records record.taskId with
  | some _ => (.error (.valueError s!"Task '{record.taskId}' already exists."), m)
  | none => (.ok (), { m with
      records := Function.update m.records record.taskId (some record)
      pending := m.pending.push (toLex (-priority, toLex (m.sequence, record.taskId)))
      sequence := m.sequence + 1 })

def pull (m : Archive) : Option TaskId × Archive :=
  match m.pending.pop with
  | none => (none, m)
  | some (e, rest) => (some e.taskId, { m with pending := rest })

def drop (m : Archive) (t : TaskId) : Archive :=
  { m with records := Function.update m.records t none, shelf := m.shelf.remove t }

def getCopy (m : Archive) (t : TaskId) (copying : Copying) : Except Raised (Option TaskRecord) :=
  match m.records t with
  | none => .ok none
  | some record => (deepcopy copying record).map some

def read (m : Archive) (t : TaskId) (consume : Bool) (copying : Copying) :
    Except Raised (Option TaskRecord) × Archive :=
  match m.records t with
  | none => (.ok none, m)
  | some record =>
    if terminal record.status then
      if consume then (.ok (some record), m.drop t)
      else ((deepcopy copying record).map some, { m with shelf := m.shelf.look t })
    else (.ok none, m)

def trim (m : Archive) : Archive :=
  match m.shelf.surplus m.limit with
  | none => m
  | some t => m.drop t

def update (m : Archive) (t : TaskId) (x : Backend.Update) : Except Raised TaskRecord × Archive :=
  match m.records t with
  | none => (.error (.keyError t), m)
  | some record =>
    let stored := { m with records := Function.update m.records t (some (x.apply record)) }
    (.ok (x.apply record), if terminal x.status then { stored with shelf := m.shelf.place t }.trim
      else { stored with shelf := m.shelf.remove t })

end Archive

inductive Call where
  | submit (record : {r : TaskRecord // r.status = .pending}) (priority : ℤ)
  | pull
  | get (t : TaskId)
  | getCopy (t : TaskId) (copying : Copying)
  | read (t : TaskId) (consume : Bool) (copying : Copying)
  | update (t : TaskId) (x : Backend.Update)

inductive Answer where
  | submitted (r : Except Raised Unit)
  | pulled (t : Option TaskId)
  | found (r : Except Raised (Option TaskRecord))
  | updated (r : Except Raised TaskRecord)

def serve (b : Backend) (now : ℕ) : Call → Answer × Backend
  | .submit record priority =>
    (.submitted (b.submit record.1 priority).1, (b.submit record.1 priority).2)
  | .pull => (.pulled b.pull.1, b.pull.2)
  | .get t => (.found (.ok (b.get t)), b)
  | .getCopy t copying => (.found (b.getCopy t copying), b)
  | .read t consume copying =>
    (.found (b.read t consume copying).1, (b.read t consume copying).2)
  | .update t x => (.updated (b.updateStatus now t x).1, (b.updateStatus now t x).2)

def Archive.serve (m : Archive) : Call → Answer × Archive
  | .submit record priority =>
    (.submitted (m.submit record.1 priority).1, (m.submit record.1 priority).2)
  | .pull => (.pulled m.pull.1, m.pull.2)
  | .get t => (.found (.ok (m.records t)), m)
  | .getCopy t copying => (.found (m.getCopy t copying), m)
  | .read t consume copying =>
    (.found (m.read t consume copying).1, (m.read t consume copying).2)
  | .update t x => (.updated (m.update t x).1, (m.update t x).2)

/-- The answers to timed calls, and the backend after them. -/
def run (b : Backend) : List (ℕ × Call) → List Answer × Backend
  | [] => ([], b)
  | (now, c) :: rest =>
    ((serve b now c).1 :: (run (serve b now c).2 rest).1, (run (serve b now c).2 rest).2)

def Archive.run (m : Archive) : List Call → List Answer × Archive
  | [] => ([], m)
  | c :: rest => ((m.serve c).1 :: ((m.serve c).2.run rest).1, ((m.serve c).2.run rest).2)

/-! ## The archive of a backend -/

/-- `now`: the last clock reading. -/
structure Matches (b : Backend) (now : ℕ) (m : Archive) : Prop where
  wellformed : b.Wellformed
  limit : b.maxRetainedTerminalTasks = m.limit
  records : ∀ t, b.records.get? t = m.records t
  pending : b.pending = m.pending
  sequence : b.sequence = m.sequence
  seen : b.readTerminalTasks = m.shelf.seen
  shelved : ∀ t, t ∈ m.shelf.order ↔ t ∈ b.terminalFinishedAt.keys
  sorted : m.shelf.order.Pairwise fun t u => ∀ k l, b.terminalFinishedAt.get? t = some k →
    b.terminalFinishedAt.get? u = some l → k < l
  past : ∀ t k, b.terminalFinishedAt.get? t = some k → (ofLex k).1 ≤ now

variable {b : Backend} {now now' : ℕ} {m : Archive} {t : TaskId}

theorem Matches.later (h : Matches b now m) (hn : now ≤ now') : Matches b now' m :=
  { h with past := fun t k hk => (h.past t k hk).trans hn }

theorem Matches.drop (h : Matches b now m) (t : TaskId) : Matches (b.drop t) now (m.drop t) where
  wellformed := h.wellformed.drop t
  limit := h.limit
  records u := by
    by_cases hu : u = t <;> simp [Backend.drop, Archive.drop, hu, h.records]
  pending := h.pending
  sequence := h.sequence
  seen := by
    simp [Backend.drop, Backend.unmark, Archive.drop, ItemShelf.remove, h.seen]
  shelved u := by
    simp only [Archive.drop, ItemShelf.mem_remove, Backend.drop, Backend.unmark, Dict.mem_keys_pop,
      h.shelved]
  sorted := by
    refine (h.sorted.sublist List.erase_sublist).imp fun hk k l hf hg => hk k l ?_ ?_
    all_goals
      simp only [Backend.drop, Backend.unmark, Dict.get?_pop] at hf hg
      split at hf
      · cases hf
      · split at hg
        · cases hg
        · assumption
  past u k hk := by
    simp only [Backend.drop, Backend.unmark, Dict.get?_pop] at hk
    split at hk
    · cases hk
    · exact h.past u k hk

/-- The records that pruning goes through, in the order of the sort, are the shelf. -/
theorem Matches.ordered (h : Matches b now m) {keyed : List ((ℕ ×ₗ ℕ ×ₗ ℕ) × TaskId)}
    (hm : keyed.map Prod.snd = b.terminalTaskIds)
    (hkeys : ∀ e ∈ keyed, b.pruneKey e.2 = .ok e.1) :
    (keyed.insertionSort (fun x y => x.1 ≤ y.1)).map Prod.snd = m.shelf.ranked := by
  have key {t k} (hk : b.pruneKey t = .ok k) : ∃ at_, b.terminalFinishedAt.get? t = some at_ ∧
      k = toLex (if t ∈ b.readTerminalTasks then 0 else 1, at_) := by
    unfold Backend.pruneKey at hk
    split at hk
    · cases hk
    · rename_i at_ ha
      exact ⟨at_, ha, (Except.ok.inj hk).symm⟩
  have shelf_perm : m.shelf.order.Perm b.terminalTaskIds :=
    (List.perm_ext_iff_of_nodup m.shelf.nodup b.terminalTaskIds_nodup).mpr fun t => by
      rw [h.shelved, h.wellformed.finished, Backend.mem_terminalTaskIds]
  have perm := List.perm_insertionSort (fun x y : (ℕ ×ₗ ℕ ×ₗ ℕ) × TaskId => x.1 ≤ y.1) keyed
  let before : TaskId → TaskId → Prop := fun t u =>
    ∀ k l, b.pruneKey t = .ok k → b.pruneKey u = .ok l → k ≤ l
  refine @List.Perm.eq_of_pairwise _ before _ _ (fun t u ht hu htu hut => ?_) ?_ ?_ ?_
  · obtain ⟨⟨k, t'⟩, hte, rfl⟩ := List.mem_map.mp ht
    obtain ⟨⟨l, u'⟩, hue, rfl⟩ := List.mem_map.mp
      ((hm ▸ perm.map Prod.snd).mem_iff.mpr (shelf_perm.mem_iff.mp (m.shelf.ranked_perm.mem_iff.mp hu)))
    have hk := hkeys _ (perm.mem_iff.mp hte)
    have hl := hkeys _ (perm.mem_iff.mp hue)
    obtain ⟨at₁, ha₁, hk₁⟩ := key hk
    obtain ⟨at₂, ha₂, hl₂⟩ := key hl
    have heq : k = l := le_antisymm (htu k l hk hl) (hut l k hl hk)
    have hat : at₁ = at₂ :=
      congrArg (fun x => (ofLex x).2) (hk₁.symm.trans (heq.trans hl₂))
    exact h.wellformed.distinct _ _ _ _ ha₁ ha₂ (by rw [hat])
  · rw [List.pairwise_map]
    refine (List.pairwise_insertionSort _ keyed).imp_of_mem fun {x y} hx hy hxy k l hk hl => ?_
    rw [hkeys x (perm.mem_iff.mp hx)] at hk
    rw [hkeys y (perm.mem_iff.mp hy)] at hl
    cases hk
    cases hl
    exact hxy
  · rw [ItemShelf.ranked, List.pairwise_append]
    refine ⟨?_, ?_, fun t ht u hu k l hk hl => ?_⟩
    · refine (h.sorted.sublist List.filter_sublist).imp_of_mem fun {t u} ht hu hlt k l hk hl => ?_
      obtain ⟨at₁, ha₁, rfl⟩ := key hk
      obtain ⟨at₂, ha₂, rfl⟩ := key hl
      have ht := of_decide_eq_true (List.mem_filter.mp ht).2
      have hu := of_decide_eq_true (List.mem_filter.mp hu).2
      rw [← h.seen] at ht hu
      simpa [ht, hu, Prod.Lex.toLex_le_toLex] using (hlt _ _ ha₁ ha₂).le
    · refine (h.sorted.sublist List.filter_sublist).imp_of_mem fun {t u} ht hu hlt k l hk hl => ?_
      obtain ⟨at₁, ha₁, rfl⟩ := key hk
      obtain ⟨at₂, ha₂, rfl⟩ := key hl
      have ht := of_decide_eq_true (List.mem_filter.mp ht).2
      have hu := of_decide_eq_true (List.mem_filter.mp hu).2
      rw [← h.seen] at ht hu
      simpa [ht, hu, Prod.Lex.toLex_le_toLex] using (hlt _ _ ha₁ ha₂).le
    · obtain ⟨at₁, ha₁, rfl⟩ := key hk
      obtain ⟨at₂, ha₂, rfl⟩ := key hl
      have ht := of_decide_eq_true (List.mem_filter.mp ht).2
      have hu := of_decide_eq_true (List.mem_filter.mp hu).2
      rw [← h.seen] at ht hu
      simp [ht, hu, Prod.Lex.toLex_le_toLex]
  · exact (hm ▸ perm.map Prod.snd).trans (shelf_perm.symm.trans m.shelf.ranked_perm.symm)

/-- With at most one record too many, pruning takes away the surplus of the shelf. -/
theorem Matches.prune (h : Matches b now m)
    (hl : 0 < m.limit → m.shelf.order.length ≤ m.limit + 1) :
    ∃ b', b.pruneTerminalRecords = (none, b') ∧ Matches b' now m.trim := by
  unfold Backend.pruneTerminalRecords Archive.trim
  rw [h.limit]
  split
  · rename_i hz
    refine ⟨b, rfl, ?_⟩
    rw [show m.shelf.surplus m.limit = none from if_pos (.inl hz)]
    exact h
  · rename_i hz
    obtain ⟨keyed, hk, hm, hkeys⟩ := Backend.pruneKeys_ok h.wellformed fun t ht => ht
    rw [hk]
    dsimp only
    rw [h.ordered hm hkeys]
    have hlen := m.shelf.ranked_perm.length_eq
    have hle := hl (Nat.pos_of_ne_zero hz)
    cases hs : m.shelf.surplus m.limit with
    | none =>
      have hle := (ItemShelf.surplus_none hs).resolve_left hz
      rw [show m.shelf.ranked.length - m.limit = 0 by omega]
      exact ⟨b, rfl, h⟩
    | some v =>
      obtain ⟨hv, _, hlt⟩ := ItemShelf.surplus_some hs
      have hmem := ItemShelf.victim_mem hv
      rw [ItemShelf.victim_eq_head, List.head?_eq_some_iff] at hv
      obtain ⟨after, ha⟩ := hv
      rw [show m.shelf.ranked.length - m.limit = 1 by omega, ha]
      obtain ⟨r, hr, _⟩ := (h.wellformed.finished v).mp ((h.shelved v).mp hmem)
      refine ⟨b.drop v, ?_, h.drop v⟩
      simp [Backend.evict, hr]

theorem Matches.finish {r : TaskRecord} (h : Matches b now m) (hn : now ≤ now')
    (hk : r.taskId = t) (ht : terminal r.status = true) :
    Matches ({ b with records := b.records.set t r }.markFinished now' t) now'
      { m with records := Function.update m.records t (some r), shelf := m.shelf.place t } := by
  have hw := h.wellformed.finish hk ht now'
  have hrec : ∀ u, (b.records.set t r).get? u = Function.update m.records t (some r) u := by
    intro u
    by_cases hu : u = t <;> simp [hu, h.records]
  unfold Backend.markFinished at hw ⊢
  split at hw
  · rename_i hc
    rw [if_pos hc]
    have hm : t ∈ m.shelf.order := (h.shelved t).mpr (Dict.contains_iff.mp hc)
    have hplace : (m.shelf.place t).order = m.shelf.order := if_pos hm
    exact ⟨hw, h.limit, hrec, h.pending, h.sequence, h.seen, by rw [hplace]; exact h.shelved,
      by rw [hplace]; exact h.sorted, (h.later hn).past⟩
  · rename_i hc
    rw [if_neg hc]
    have hk : t ∉ b.terminalFinishedAt.keys := fun hk => hc (Dict.contains_iff.mpr hk)
    have hm : t ∉ m.shelf.order := fun hm => hk ((h.shelved t).mp hm)
    have hplace : (m.shelf.place t).order = m.shelf.order ++ [t] := if_neg hm
    refine ⟨hw, h.limit, hrec, h.pending, h.sequence, h.seen, fun u => ?_, ?_, fun u k hf => ?_⟩
    · simp only [ItemShelf.mem_place, Dict.mem_keys_set, h.shelved]
    · rw [hplace, List.pairwise_append]
      refine ⟨h.sorted.imp_of_mem fun {u v} hu hv hlt k l hf hg => ?_, List.pairwise_singleton .., ?_⟩
      · rw [Dict.get?_set, if_neg fun he : u = t => hm (he ▸ hu)] at hf
        rw [Dict.get?_set, if_neg fun he : v = t => hm (he ▸ hv)] at hg
        exact hlt k l hf hg
      · intro u hu v hv k l hf hg
        rw [List.mem_singleton.mp hv, Dict.get?_set, if_pos rfl] at hg
        rw [Dict.get?_set, if_neg fun he : u = t => hm (he ▸ hu)] at hf
        cases hg
        -- The clock may stand still; then the sequence number decides.
        rw [Prod.Lex.lt_iff]
        rcases Nat.lt_or_eq_of_le ((h.past u k hf).trans hn) with hlt | heq
        · exact .inl hlt
        · exact .inr ⟨heq, h.wellformed.sequenced u k hf⟩
    · rw [Dict.get?_set] at hf
      split at hf
      · cases hf
        exact le_refl _
      · exact (h.past u k hf).trans hn

theorem Matches.restart {r : TaskRecord} (h : Matches b now m) (hk : r.taskId = t)
    (hl : terminal r.status = false) :
    Matches ({ b with records := b.records.set t r }.unmark t) now
      { m with records := Function.update m.records t (some r), shelf := m.shelf.remove t } where
  wellformed := h.wellformed.restart hk hl
  limit := h.limit
  records u := by
    by_cases hu : u = t <;> simp [Backend.unmark, hu, h.records]
  pending := h.pending
  sequence := h.sequence
  seen := (h.drop t).seen
  shelved := (h.drop t).shelved
  sorted := (h.drop t).sorted
  past := (h.drop t).past

/-- No more records are retained than the limit says. -/
def Archive.Bounded (m : Archive) : Prop := 0 < m.limit → m.shelf.order.length ≤ m.limit

theorem Archive.Bounded.drop (h : m.Bounded) (t : TaskId) : (m.drop t).Bounded := fun hl =>
  (List.erase_sublist.length_le : (m.shelf.order.erase t).length ≤ _).trans (h hl)

theorem length_place (s : ItemShelf TaskId) (t : TaskId) :
    (s.place t).order.length ≤ s.order.length + 1 := by
  unfold ItemShelf.place
  dsimp only
  split <;> simp

@[simp] theorem trim_limit (m : Archive) : m.trim.limit = m.limit := by
  unfold Archive.trim
  split <;> rfl

theorem trim_bounded (hl : 0 < m.limit → m.shelf.order.length ≤ m.limit + 1) : m.trim.Bounded := by
  intro hz
  rw [trim_limit] at hz ⊢
  have hle := hl hz
  unfold Archive.trim
  cases hs : m.shelf.surplus m.limit with
  | none => exact (ItemShelf.surplus_none hs).resolve_left (Nat.ne_of_gt hz)
  | some v =>
    have := ItemShelf.length_remove (ItemShelf.victim_mem (ItemShelf.surplus_some hs).1)
    show (m.shelf.remove v).order.length ≤ m.limit
    omega

/-! ## Calls -/

/-- The same answer, and the archive of the backend afterwards. -/
structure Agrees {α : Type} (x : α × Backend) (now : ℕ) (y : α × Archive) : Prop where
  answer : x.1 = y.1
  related : Matches x.2 now y.2
  bounded : y.2.Bounded

theorem submit_agrees {r : TaskRecord} (h : Matches b now m) (hb : m.Bounded)
    (hp : r.status = .pending) (priority : ℤ) :
    Agrees (b.submit r priority) now (m.submit r priority) := by
  have hrec := h.records r.taskId
  unfold Archive.submit
  cases hr : m.records r.taskId with
  | some old =>
    rw [hr] at hrec
    have hc : b.records.contains r.taskId = true := by simp [Dict.contains, hrec]
    rw [Backend.submit, if_pos hc]
    exact ⟨rfl, h, hb⟩
  | none =>
    rw [hr] at hrec
    have hw := h.wellformed.submit (r := r) (by rw [hp]; rfl) priority
    rw [Backend.submit_new hrec] at hw ⊢
    refine ⟨rfl, ⟨hw, h.limit, fun u => ?_, ?_, ?_, h.seen, h.shelved, h.sorted, h.past⟩, hb⟩
    · by_cases hu : u = r.taskId <;> simp [hu, h.records]
    · rw [h.pending, h.sequence]
    · rw [h.sequence]

theorem pull_agrees (h : Matches b now m) (hb : m.Bounded) : Agrees b.pull now m.pull := by
  have hw := h.wellformed.pull
  unfold Archive.pull Backend.pull at *
  rw [← h.pending]
  cases hp : b.pending.pop with
  | none => exact ⟨rfl, h, hb⟩
  | some e =>
    rw [hp] at hw
    exact ⟨rfl, { h with wellformed := hw, pending := rfl }, hb⟩

theorem read_agrees (h : Matches b now m) (hb : m.Bounded) (t : TaskId) (consume : Bool)
    (copying : Copying) : Agrees (b.read t consume copying) now (m.read t consume copying) := by
  have hw := h.wellformed.read t consume copying
  unfold Archive.read Backend.read at *
  rw [← h.records t]
  cases hr : b.records.get? t with
  | none => exact ⟨rfl, h, hb⟩
  | some r =>
    rw [hr] at hw
    dsimp only at hw ⊢
    by_cases ht : terminal r.status = true
    · rw [if_pos ht] at hw ⊢
      rw [if_pos ht]
      cases consume with
      | true => exact ⟨rfl, h.drop t, hb.drop t⟩
      | false =>
        have hm : t ∈ m.shelf.order := (h.shelved t).mpr ((h.wellformed.finished t).mpr ⟨r, hr, ht⟩)
        exact ⟨rfl, { h with wellformed := hw, seen := by simp [ItemShelf.look, hm, h.seen] }, hb⟩
    · rw [if_neg ht, if_neg ht]
      exact ⟨rfl, h, hb⟩

theorem update_agrees (h : Matches b now m) (hb : m.Bounded) (hn : now ≤ now') (t : TaskId)
    (x : Backend.Update) : Agrees (b.updateStatus now' t x) now' (m.update t x) := by
  unfold Archive.update Backend.updateStatus
  rw [← h.records t]
  cases hr : b.records.get? t with
  | none => exact ⟨rfl, h.later hn, hb⟩
  | some r =>
    have hk : (x.apply r).taskId = t := h.wellformed.keyed t r hr
    dsimp only
    by_cases ht : terminal x.status = true
    · rw [if_pos ht, if_pos ht]
      have hroom : 0 < m.limit → (m.shelf.place t).order.length ≤ m.limit + 1 := fun hl =>
        (length_place m.shelf t).trans (Nat.succ_le_succ (hb hl))
      obtain ⟨b', hp, hm⟩ := (h.finish hn hk ht).prune hroom
      rw [hp]
      exact ⟨rfl, hm, trim_bounded hroom⟩
    · rw [if_neg ht, if_neg ht]
      exact ⟨rfl, (h.later hn).restart hk (Bool.not_eq_true _ ▸ ht), hb.drop t⟩

theorem serve_agrees (h : Matches b now m) (hb : m.Bounded) (hn : now ≤ now') (c : Call) :
    Agrees (serve b now' c) now' (m.serve c) := by
  cases c with
  | submit record priority =>
    have ha := submit_agrees (h.later hn) hb record.2 priority
    exact ⟨congrArg Answer.submitted ha.answer, ha.related, ha.bounded⟩
  | pull =>
    have ha := pull_agrees (h.later hn) hb
    exact ⟨congrArg Answer.pulled ha.answer, ha.related, ha.bounded⟩
  | get t => exact ⟨congrArg (Answer.found ∘ Except.ok) (h.records t), h.later hn, hb⟩
  | getCopy t copying =>
    refine ⟨congrArg Answer.found ?_, h.later hn, hb⟩
    have hrec := h.records t
    cases hr : m.records t <;> rw [hr] at hrec <;>
      simp only [Backend.getCopy, Archive.getCopy, hr, hrec]
  | read t consume copying =>
    have ha := read_agrees (h.later hn) hb t consume copying
    exact ⟨congrArg Answer.found ha.answer, ha.related, ha.bounded⟩
  | update t x =>
    have ha := update_agrees h hb hn t x
    exact ⟨congrArg Answer.updated ha.answer, ha.related, ha.bounded⟩

/-- A sequence of calls, with clock readings that do not decrease. -/
theorem run_agrees {calls : List (ℕ × Call)} (h : Matches b now m) (hb : m.Bounded)
    (clock : (now :: calls.map Prod.fst).Pairwise (· ≤ ·)) :
    (run b calls).1 = (m.run (calls.map Prod.snd)).1 ∧
    ∃ now', (now' = now ∨ ∃ call ∈ calls, call.1 = now') ∧
      Matches (run b calls).2 now' (m.run (calls.map Prod.snd)).2 ∧
      (m.run (calls.map Prod.snd)).2.Bounded := by
  induction calls generalizing b now m with
  | nil => exact ⟨rfl, now, .inl rfl, h, hb⟩
  | cons call calls ih =>
    obtain ⟨now', c⟩ := call
    rw [List.map_cons, List.pairwise_cons] at clock
    have ha := serve_agrees h hb (clock.1 now' (List.mem_cons_self ..)) c
    obtain ⟨hans, last, hl, hrest⟩ := ih ha.related ha.bounded clock.2
    refine ⟨?_, last, .inr ?_, hrest⟩
    · simp only [run, Archive.run, List.map_cons, ha.answer, hans]
    · rcases hl with rfl | ⟨call, hcall, hlast⟩
      · exact ⟨(last, c), List.mem_cons_self .., rfl⟩
      · exact ⟨call, List.mem_cons_of_mem _ hcall, hlast⟩

/-! ## Eviction -/

/-- `v` is the first of the shelf that was read, or nothing was read and it is the first. -/
def Foremost (s : ItemShelf TaskId) (v : TaskId) : Prop :=
  ∃ before after, s.order = before ++ v :: after ∧
    (v ∈ s.seen ∧ (∀ u ∈ before, u ∉ s.seen) ∨ before = [] ∧ ∀ u ∈ s.order, u ∉ s.seen)

/-- A record that an update removes stood first, and is not the updated one. -/
theorem update_evicts (hb : m.Bounded) {x : Backend.Update} {v : TaskId}
    (hv : m.records v ≠ none) (hn : (m.update t x).2.records v = none) :
    v ≠ t ∧ 0 < m.limit ∧ Foremost m.shelf v := by
  unfold Archive.update at hn
  cases hr : m.records t with
  | none =>
    rw [hr] at hn
    exact absurd hn hv
  | some r =>
    rw [hr] at hn
    have stored : Function.update m.records t (some (x.apply r)) v ≠ none := by
      by_cases he : v = t <;> simp [he, hv]
    dsimp only at hn
    split at hn
    · unfold Archive.trim at hn
      dsimp only at hn
      split at hn
      · exact absurd hn stored
      · rename_i w hw
        obtain ⟨hvic, hl, hlt⟩ := ItemShelf.surplus_some hw
        have hvw : v = w := by
          by_contra hne
          simp only [Archive.drop, Function.update_of_ne hne] at hn
          exact stored hn
        subst hvw
        have hnew : t ∉ m.shelf.order := fun hm => by
          have hp : (m.shelf.place t).order = m.shelf.order := if_pos hm
          rw [hp] at hlt
          exact absurd (hb hl) (Nat.not_le.mpr hlt)
        have hlen := length_place m.shelf t
        have hne : m.shelf.order ≠ [] := fun he => by
          rw [he, List.length_nil] at hlen
          omega
        refine ⟨?_, hl, ItemShelf.victim_first (ItemShelf.victim_place hnew hne ▸ hvic)⟩
        rintro rfl
        exact ItemShelf.victim_not_placed hnew hne hvic
    · exact absurd hn stored

theorem serve_limit (m : Archive) (c : Call) : (m.serve c).2.limit = m.limit := by
  cases c with
  | submit record priority =>
    simp only [Archive.serve, Archive.submit]
    split <;> rfl
  | pull =>
    simp only [Archive.serve, Archive.pull]
    split <;> rfl
  | get t => rfl
  | getCopy t copying => rfl
  | read t consume copying =>
    simp only [Archive.serve, Archive.read]
    split
    · rfl
    · split
      · cases consume <;> rfl
      · rfl
  | update t x =>
    simp only [Archive.serve, Archive.update]
    split
    · rfl
    · dsimp only
      split
      · exact trim_limit _
      · rfl

theorem run_limit (calls : List Call) (m : Archive) : (m.run calls).2.limit = m.limit := by
  induction calls generalizing m with
  | nil => rfl
  | cons c calls ih => exact (ih _).trans (serve_limit m c)

/-! ## From an empty backend on -/

def served (limit : ℕ) (calls : List (ℕ × Call)) : List Answer × Backend :=
  run { maxRetainedTerminalTasks := limit } calls

def archived (limit : ℕ) (calls : List (ℕ × Call)) : List Answer × Archive :=
  Archive.run { limit } (calls.map Prod.snd)

/-- The backend answers every sequence of calls as the archive, which reads no clock, and
retains the same records. At most `limit` of them are terminal. What an update evicts is
terminal and not the updated record: the first to finish of those that were read, or the
first of all if none was. With a limit of zero nothing is evicted. -/
theorem retention_refines (limit : ℕ) (calls : List (ℕ × Call))
    (clock : (calls.map Prod.fst).Pairwise (· ≤ ·)) :
    (served limit calls).1 = (archived limit calls).1 ∧
    (∀ t, (served limit calls).2.get t = (archived limit calls).2.records t) ∧
    (∀ t, t ∈ (archived limit calls).2.shelf.order ↔
      ∃ r, (served limit calls).2.get t = some r ∧ terminal r.status = true) ∧
    (0 < limit → (served limit calls).2.terminalTaskIds.length ≤ limit) ∧
    ∀ now, (∀ call ∈ calls, call.1 ≤ now) → ∀ t x v, (served limit calls).2.get v ≠ none →
      ((served limit calls).2.updateStatus now t x).2.get v = none →
      v ≠ t ∧ 0 < limit ∧ Foremost (archived limit calls).2.shelf v := by
  have start : Matches { maxRetainedTerminalTasks := limit } 0 { limit } :=
    { wellformed := Backend.empty_wellformed limit
      limit := rfl, records := fun _ => rfl, pending := rfl, sequence := rfl, seen := rfl
      shelved := fun t => by simp [ItemShelf.empty]
      sorted := List.Pairwise.nil
      past := fun t k hk => by cases hk }
  obtain ⟨hans, last, hlast, h, hb⟩ := run_agrees start (fun _ => Nat.zero_le _)
    (List.pairwise_cons.mpr ⟨fun _ _ => Nat.zero_le _, clock⟩)
  have hlim : (archived limit calls).2.limit = limit := run_limit _ _
  have shelved : ∀ t, t ∈ (archived limit calls).2.shelf.order ↔
      ∃ r, (served limit calls).2.get t = some r ∧ terminal r.status = true :=
    fun t => (h.shelved t).trans (h.wellformed.finished t)
  refine ⟨hans, h.records, shelved, fun hl => ?_, fun now hn t x v hv hev => ?_⟩
  · have perm : (archived limit calls).2.shelf.order.Perm (served limit calls).2.terminalTaskIds :=
      (List.perm_ext_iff_of_nodup (ItemShelf.nodup _) (Backend.terminalTaskIds_nodup _)).mpr fun t =>
        (shelved t).trans Backend.mem_terminalTaskIds.symm
    have hroom := hb (by rw [run_limit]; exact hl)
    rw [run_limit] at hroom
    rw [← perm.length_eq]
    exact hroom
  · have hle : last ≤ now := by
      rcases hlast with rfl | ⟨call, hcall, rfl⟩
      · exact Nat.zero_le _
      · exact hn call hcall
    have ha := update_agrees h hb hle t x
    have hm : ((archived limit calls).2.update t x).2.records v = none :=
      (ha.related.records v).symm.trans hev
    have hv' : (archived limit calls).2.records v ≠ none := fun he => hv ((h.records v).trans he)
    obtain ⟨hne, hl, hf⟩ := update_evicts hb hv' hm
    exact ⟨hne, hlim ▸ hl, hf⟩

/-- Two tasks finish at the same reading of the clock and the second is read, then a third
finishes: the read one goes. -/
def threeTasks : List (ℕ × Call) :=
  let pending (t : TaskId) : {r : TaskRecord // r.status = .pending} :=
    ⟨{ taskId := t, request := { handlerName := "h", taskId := t } }, rfl⟩
  [(0, .submit (pending "a") 0), (1, .submit (pending "b") 0), (1, .submit (pending "c") 0),
    (5, .update "a" { status := .completed }), (5, .update "b" { status := .failed }),
    (6, .read "b" false fun _ => none), (6, .update "c" { status := .completed })]

theorem three_tasks_retained : (served 2 threeTasks).2.terminalTaskIds = ["a", "c"] ∧
    (served 2 threeTasks).2.terminalTaskIds.length ≤ 2 :=
  ⟨by decide +kernel, (retention_refines 2 threeTasks (by decide)).2.2.2.1 (by decide)⟩

end Retention
