import Mathlib.Data.List.Nodup
import Mathlib.Data.Finset.Basic

/-! # Shelves with a bounded number of items

Items stand in the order in which they were placed, and some have been looked at. When there
are too many, the first of those looked at has to go, or else the first of all.
-/

universe u

structure ItemShelf (α : Type u) [DecidableEq α] where
  order : List α
  seen : Finset α
  nodup : order.Nodup
  marked : ∀ a ∈ seen, a ∈ order

namespace ItemShelf

variable {α : Type u} [DecidableEq α]

def empty : ItemShelf α := ⟨[], ∅, List.nodup_nil, fun a h => absurd h (Finset.notMem_empty a)⟩

/-- Placing an item that is there already does not move it. -/
def place (s : ItemShelf α) (a : α) : ItemShelf α where
  order := if a ∈ s.order then s.order else s.order ++ [a]
  seen := s.seen
  nodup := by
    split
    · exact s.nodup
    · rename_i h
      rw [List.nodup_append]
      refine ⟨s.nodup, List.nodup_singleton a, fun b hb c hc he => h ?_⟩
      rw [← List.mem_singleton.mp hc, ← he]
      exact hb
  marked b hb := by
    split
    · exact s.marked b hb
    · exact List.mem_append_left _ (s.marked b hb)

def look (s : ItemShelf α) (a : α) : ItemShelf α where
  order := s.order
  seen := if a ∈ s.order then insert a s.seen else s.seen
  nodup := s.nodup
  marked b hb := by
    split at hb
    · rename_i ha
      rcases Finset.mem_insert.mp hb with rfl | hb
      · exact ha
      · exact s.marked b hb
    · exact s.marked b hb

def remove (s : ItemShelf α) (a : α) : ItemShelf α where
  order := s.order.erase a
  seen := s.seen.erase a
  nodup := s.nodup.erase a
  marked b hb := by
    rw [Finset.mem_erase] at hb
    exact (List.mem_erase_of_ne hb.1).mpr (s.marked b hb.2)

/-- The items in the order in which they would have to go. -/
def ranked (s : ItemShelf α) : List α :=
  s.order.filter (fun a => decide (a ∈ s.seen)) ++ s.order.filter (fun a => decide (a ∉ s.seen))

def victim (s : ItemShelf α) : Option α :=
  (s.order.find? fun a => decide (a ∈ s.seen)).or s.order.head?

/-- The item that has to go if there are too many; a limit of zero means none. -/
def surplus (s : ItemShelf α) (limit : ℕ) : Option α :=
  if limit = 0 ∨ s.order.length ≤ limit then none else s.victim

variable {s : ItemShelf α} {a b : α} {limit : ℕ}

theorem mem_place : b ∈ (s.place a).order ↔ b = a ∨ b ∈ s.order := by
  unfold place
  dsimp only
  split
  · rename_i h
    exact ⟨.inr, fun hb => hb.elim (fun he => he ▸ h) id⟩
  · simp [or_comm]

theorem mem_remove : b ∈ (s.remove a).order ↔ b ≠ a ∧ b ∈ s.order := s.nodup.mem_erase_iff

theorem ranked_perm (s : ItemShelf α) : s.ranked.Perm s.order := by
  have h := List.filter_append_perm (fun a => decide (a ∈ s.seen)) s.order
  simpa only [ranked, decide_not] using h

theorem victim_eq_head (s : ItemShelf α) : s.victim = s.ranked.head? := by
  unfold victim ranked
  rw [List.head?_append, List.head?_filter]
  cases hf : s.order.find? fun a => decide (a ∈ s.seen) with
  | some a => rfl
  | none =>
    have hn := List.find?_eq_none.mp hf
    rw [Option.none_or, Option.none_or, List.filter_eq_self.mpr fun a ha => ?_]
    simpa using hn a ha

/-- Before the item that has to go stand only items that were not looked at, and none if
neither was it; then nothing was looked at. -/
theorem victim_first (h : s.victim = some a) : ∃ before after, s.order = before ++ a :: after ∧
    (a ∈ s.seen ∧ (∀ b ∈ before, b ∉ s.seen) ∨ before = [] ∧ ∀ b ∈ s.order, b ∉ s.seen) := by
  unfold victim at h
  cases hf : s.order.find? fun a => decide (a ∈ s.seen) with
  | some c =>
    rw [hf] at h
    cases h
    obtain ⟨hc, before, after, ho, hb⟩ := List.find?_eq_some_iff_append.mp hf
    refine ⟨before, after, ho, .inl ⟨of_decide_eq_true hc, fun b hm hs => ?_⟩⟩
    simpa [hs] using hb b hm
  | none =>
    rw [hf, Option.none_or] at h
    obtain ⟨after, ho⟩ := List.head?_eq_some_iff.mp h
    exact ⟨[], after, ho, .inr ⟨rfl, fun b hb => by simpa using List.find?_eq_none.mp hf b hb⟩⟩

theorem victim_mem (h : s.victim = some a) : a ∈ s.order := by
  obtain ⟨before, after, ho, _⟩ := victim_first h
  rw [ho]
  exact List.mem_append_right _ (List.mem_cons_self ..)

/-- An item that was just placed does not have to go as long as there is another. -/
theorem victim_not_placed (hn : a ∉ s.order) (hs : s.order ≠ []) : (s.place a).victim ≠ some a := by
  intro h
  have ho : (s.place a).order = s.order ++ [a] := if_neg hn
  obtain ⟨before, after, he, hv | ⟨rfl, _⟩⟩ := victim_first h
  · exact hn (s.marked a hv.1)
  · rw [ho] at he
    cases hl : s.order with
    | nil => exact hs hl
    | cons b l =>
      rw [hl] at he hn
      cases he
      exact hn (List.mem_cons_self ..)

theorem victim_place (hn : a ∉ s.order) (hs : s.order ≠ []) : (s.place a).victim = s.victim := by
  have ho : (s.place a).order = s.order ++ [a] := if_neg hn
  have hseen : (s.place a).seen = s.seen := rfl
  have ha : a ∉ s.seen := fun h => hn (s.marked a h)
  unfold victim
  rw [ho, hseen, List.find?_append, List.head?_append]
  obtain ⟨b, hb⟩ := Option.ne_none_iff_exists'.mp (mt List.head?_eq_none_iff.mp hs)
  simp [ha, hb]

theorem surplus_some (h : s.surplus limit = some a) :
    s.victim = some a ∧ 0 < limit ∧ limit < s.order.length := by
  unfold surplus at h
  split at h
  · cases h
  · rename_i hc
    exact ⟨h, by omega, by omega⟩

theorem surplus_none (h : s.surplus limit = none) : limit = 0 ∨ s.order.length ≤ limit := by
  unfold surplus at h
  split at h
  · assumption
  · rw [victim_eq_head, List.head?_eq_none_iff] at h
    have := (h ▸ s.ranked_perm).length_eq
    rw [← this]
    exact .inr (Nat.zero_le _)

theorem length_remove (h : a ∈ s.order) : (s.remove a).order.length + 1 = s.order.length := by
  have := List.length_erase_of_mem h
  have := List.length_pos_of_mem h
  simp only [remove]
  omega

end ItemShelf
