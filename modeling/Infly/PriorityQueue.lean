import Mathlib.Data.List.Sort

/-! # Priority queues

A heap seen through its order: the entries from least to greatest.
-/

universe u

structure PriorityQueue (α : Type u) [LinearOrder α] where
  entries : List α
  sorted : entries.Pairwise (· ≤ ·)

namespace PriorityQueue

variable {α : Type u} [LinearOrder α]

def empty : PriorityQueue α := ⟨[], List.Pairwise.nil⟩

instance : Inhabited (PriorityQueue α) := ⟨empty⟩

def push (q : PriorityQueue α) (a : α) : PriorityQueue α where
  entries := q.entries.orderedInsert (· ≤ ·) a
  sorted := q.sorted.orderedInsert a _

/-- The least entry and the rest. -/
def pop (q : PriorityQueue α) : Option (α × PriorityQueue α) :=
  match h : q.entries with
  | [] => none
  | a :: rest => some (a, ⟨rest, (h ▸ q.sorted).of_cons⟩)

variable {q p : PriorityQueue α} {a b : α}

@[simp] theorem entries_empty : (empty : PriorityQueue α).entries = [] := rfl

@[simp] theorem mem_push : b ∈ (q.push a).entries ↔ b = a ∨ b ∈ q.entries :=
  List.mem_orderedInsert _

theorem push_perm : (q.push a).entries.Perm (a :: q.entries) := List.perm_orderedInsert _ _ _

theorem pop_eq_some (h : q.pop = some (a, p)) : q.entries = a :: p.entries := by
  unfold pop at h
  split at h
  · cases h
  · rename_i heq
    cases h
    exact heq

theorem pop_eq_none : q.pop = none ↔ q.entries = [] := by
  constructor
  · intro h
    unfold pop at h
    split at h
    · assumption
    · cases h
  · intro h
    unfold pop
    split
    · rfl
    · rename_i heq
      rw [h] at heq
      cases heq

/-- What is popped is a least entry. -/
theorem pop_least (h : q.pop = some (a, p)) (hb : b ∈ q.entries) : a ≤ b := by
  have hs := q.sorted
  rw [pop_eq_some h] at hs hb
  rcases List.mem_cons.mp hb with rfl | hb
  · exact le_refl _
  · exact List.rel_of_pairwise_cons hs hb

section Stable

variable {β : Type u} {r s : β → β → Prop} [DecidableRel r] [Std.Total r] [IsTrans β r]

/-- `a` stands before what it ties with. -/
theorem orderedInsert_stable {a : β} {l : List β}
    (h : l.Pairwise fun b c => r b c ∧ (r c b → s b c)) (ha : ∀ b ∈ l, s a b) :
    (l.orderedInsert r a).Pairwise fun b c => r b c ∧ (r c b → s b c) := by
  induction l with
  | nil => exact List.pairwise_singleton _ _
  | cons b l ih =>
    obtain ⟨hb, hl⟩ := List.pairwise_cons.mp h
    by_cases hab : r a b
    · rw [List.orderedInsert_cons_of_le r l hab, List.pairwise_cons]
      refine ⟨?_, h⟩
      intro c hc
      refine ⟨?_, fun _ => ha c hc⟩
      rcases List.mem_cons.mp hc with rfl | hc
      · exact hab
      · exact IsTrans.trans a b c hab (hb c hc).1
    · rw [List.orderedInsert_of_not_le r l hab, List.pairwise_cons]
      refine ⟨?_, ih hl fun c hc => ha c (List.mem_cons_of_mem _ hc)⟩
      intro c hc
      rcases (List.mem_orderedInsert r).mp hc with rfl | hc
      · exact ⟨(Std.Total.total c b).resolve_left hab, fun h => absurd h hab⟩
      · exact hb c hc

/-- The sort keeps the order of what ties. -/
theorem insertionSort_stable {l : List β} (h : l.Pairwise s) :
    (l.insertionSort r).Pairwise fun b c => r b c ∧ (r c b → s b c) := by
  induction l with
  | nil => exact List.Pairwise.nil
  | cons a l ih =>
    obtain ⟨ha, hl⟩ := List.pairwise_cons.mp h
    rw [List.insertionSort_cons]
    apply orderedInsert_stable (ih hl)
    intro b hb
    exact ha b ((List.mem_insertionSort r).mp hb)

end Stable

end PriorityQueue
