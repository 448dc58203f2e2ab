import Mathlib.Algebra.BigOperators.Group.Finset.Piecewise
import Mathlib.Algebra.BigOperators.Ring.Finset
import Mathlib.Algebra.Order.BigOperators.Group.Finset
import Mathlib.Tactic.Linarith
import Mathlib.Tactic.Ring

/-! # Smooth weighted round robin

In each turn the credit of every member grows by its weight, and one with the most credit is
chosen and pays the total weight.
-/

universe u

namespace SmoothRoundRobin

variable {α : Type u} [DecidableEq α]

def total (members : Finset α) (weight : α → ℕ) : ℕ := ∑ a ∈ members, weight a

structure Turn (members : Finset α) (weight : α → ℕ) (credit : α → ℤ) (chosen : α)
    (credit' : α → ℤ) : Prop where
  member : chosen ∈ members
  most : ∀ a ∈ members, credit a + weight a ≤ credit chosen + weight chosen
  paid : ∀ a ∈ members,
    credit' a = credit a + weight a - if a = chosen then (total members weight : ℤ) else 0

/-- Turns from no credit on, with what was chosen in them, the newest first. -/
inductive Turns (members : Finset α) (weight : α → ℕ) : List α → (α → ℤ) → Prop where
  | start {credit} (h : ∀ a ∈ members, credit a = 0) : Turns members weight [] credit
  | next {l credit a credit'} (h : Turns members weight l credit)
    (ht : Turn members weight credit a credit') : Turns members weight (a :: l) credit'

variable {members : Finset α} {weight : α → ℕ} {credit credit' : α → ℤ} {a b : α} {l : List α}

theorem Turns.member (h : Turns members weight l credit) (ha : a ∈ l) : a ∈ members := by
  induction h with
  | start => exact absurd ha List.not_mem_nil
  | next h ht ih =>
    rcases List.mem_cons.mp ha with rfl | ha
    · exact ht.member
    · exact ih ha

/-- What a member has got and what it has paid. -/
theorem Turns.credit_eq (h : Turns members weight l credit) (ha : a ∈ members) :
    credit a = l.length * weight a - total members weight * l.count a := by
  induction h with
  | start h => simp [h a ha]
  | @next l credit b credit' h ht ih =>
    rw [ht.paid a ha, ih, List.length_cons, List.count_cons]
    by_cases he : a = b
    · subst he
      simp only [↓reduceIte, beq_self_eq_true]
      push_cast
      ring
    · have hne : (b == a) = false := by simpa using Ne.symm he
      simp only [he, hne, Bool.false_eq_true, ↓reduceIte]
      push_cast
      ring

theorem Turn.sum_kept (ht : Turn members weight credit a credit') :
    ∑ b ∈ members, credit' b = ∑ b ∈ members, credit b := by
  have hpaid : ∑ b ∈ members, (if b = a then (total members weight : ℤ) else 0) =
      total members weight := by
    rw [Finset.sum_ite_eq', if_pos ht.member]
  rw [Finset.sum_congr rfl ht.paid, Finset.sum_sub_distrib, Finset.sum_add_distrib, hpaid, total]
  push_cast
  ring

theorem Turns.sum_zero (h : Turns members weight l credit) : ∑ a ∈ members, credit a = 0 := by
  induction h with
  | start h => exact Finset.sum_eq_zero h
  | next h ht ih => rw [ht.sum_kept, ih]

/-- Of a sum above zero the greatest summand is above zero, so nobody falls below the total. -/
theorem Turns.above (h : Turns members weight l credit) (hw : 0 < total members weight)
    (ha : a ∈ members) : -(total members weight : ℤ) < credit a := by
  induction h generalizing a with
  | start h =>
    rw [h a ha]
    omega
  | @next l credit b credit' h ht ih =>
    have hpos : 0 < credit b + weight b := by
      by_contra hneg
      have hle : ∑ c ∈ members, (credit c + weight c) ≤ 0 :=
        Finset.sum_nonpos fun c hc => (ht.most c hc).trans (not_lt.mp hneg)
      rw [Finset.sum_add_distrib, h.sum_zero, zero_add, ← Nat.cast_sum] at hle
      change ((total members weight : ℕ) : ℤ) ≤ 0 at hle
      omega
    have := ih ha
    rw [ht.paid a ha]
    by_cases he : a = b
    · subst he
      rw [if_pos rfl]
      omega
    · rw [if_neg he]
      omega

theorem sum_count (h : ∀ a ∈ l, a ∈ members) : ∑ a ∈ members, l.count a = l.length := by
  induction l with
  | nil => simp
  | cons b l ih =>
    have hb := h b (List.mem_cons_self ..)
    simp only [List.count_cons, Finset.sum_add_distrib, List.length_cons, beq_iff_eq]
    rw [ih fun a ha => h a (List.mem_cons_of_mem _ ha), Finset.sum_ite_eq, if_pos hb]

/-- After whole cycles everyone was chosen as often as its weight says, and is even. -/
theorem Turns.exact {k : ℕ} (h : Turns members weight l credit) (hw : 0 < total members weight)
    (hl : l.length = k * total members weight) (ha : a ∈ members) :
    l.count a = k * weight a ∧ credit a = 0 := by
  have atMost : ∀ b ∈ members, l.count b ≤ k * weight b := by
    intro b hb
    have hlow := h.above hw hb
    rw [h.credit_eq hb, hl] at hlow
    push_cast at hlow
    by_contra hgt
    have hgt : (k * weight b : ℤ) + 1 ≤ l.count b := by exact_mod_cast not_le.mp hgt
    have := mul_le_mul_of_nonneg_left hgt (Int.natCast_nonneg (total members weight))
    linarith
  have equal : ∑ b ∈ members, l.count b = ∑ b ∈ members, k * weight b := by
    rw [sum_count fun b hb => h.member hb, hl, total, Finset.mul_sum]
  have hcount := (Finset.sum_eq_sum_iff_of_le atMost).mp equal a ha
  refine ⟨hcount, ?_⟩
  rw [h.credit_eq ha, hl, hcount]
  push_cast
  ring

end SmoothRoundRobin
