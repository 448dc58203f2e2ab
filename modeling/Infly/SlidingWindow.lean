import Mathlib.Algebra.Order.Group.Defs
import Mathlib.Data.List.TakeWhile

/-! # A limit over a sliding window

Times of events, at most `limit` of them in any interval of length `width`. The queue keeps the
latest times; those before a cutoff are dropped for good.
-/

universe u

namespace SlidingWindow

variable {τ : Type u} [AddCommGroup τ] [LinearOrder τ]

/-- Any closed interval of this length has at most `limit` of the times. -/
def Within (limit : ℕ) (width : τ) (times : List τ) : Prop :=
  ∀ a, times.countP (fun t => decide (a ≤ t ∧ t ≤ a + width)) ≤ limit

def prune (cutoff : τ) (queue : List τ) : List τ := queue.dropWhile fun t => decide (t < cutoff)

/-- The queue lacks only times that are out of the window for good. -/
structure Kept (width clock : τ) (times queue : List τ) : Prop where
  past : ∀ t ∈ times, t ≤ clock
  suffix : ∃ dropped, times = dropped ++ queue ∧ ∀ t ∈ dropped, t < clock - width

variable {limit : ℕ} {width clock now : τ} {times queue : List τ}

theorem Within.nil : Within limit width ([] : List τ) := by
  intro a
  exact Nat.zero_le _

theorem Kept.nil : Kept width clock ([] : List τ) [] := by
  constructor
  · intro t ht
    cases ht
  · refine ⟨[], rfl, ?_⟩
    intro t ht
    cases ht

variable [IsOrderedAddMonoid τ]

theorem Kept.later (h : Kept width clock times queue) (hc : clock ≤ now) :
    Kept width now times queue := by
  obtain ⟨dropped, heq, hd⟩ := h.suffix
  constructor
  · intro t ht
    exact le_trans (h.past t ht) hc
  · refine ⟨dropped, heq, ?_⟩
    intro t ht
    exact lt_of_lt_of_le (hd t ht) (sub_le_sub_right hc width)

/-- An old reading of the clock drops no time too many. -/
theorem Kept.prune (h : Kept width clock times queue) (hc : now ≤ clock) :
    Kept width clock times (prune (now - width) queue) := by
  obtain ⟨dropped, heq, hd⟩ := h.suffix
  refine ⟨h.past, dropped ++ queue.takeWhile (fun t => decide (t < now - width)), ?_, ?_⟩
  · rw [heq, List.append_assoc]
    congr 1
    exact List.takeWhile_append_dropWhile.symm
  · intro t ht
    rcases List.mem_append.mp ht with ht | ht
    · exact hd t ht
    · have hlt := List.mem_takeWhile_imp ht
      exact lt_of_lt_of_le (of_decide_eq_true hlt) (sub_le_sub_right hc width)

/-- With room in the queue, the event of now fits into every window. -/
theorem Kept.record (h : Kept width clock times queue) (hroom : queue.length < limit)
    (hw : Within limit width times) :
    Kept width clock (times ++ [clock]) (queue ++ [clock]) ∧
    Within limit width (times ++ [clock]) := by
  obtain ⟨dropped, heq, hd⟩ := h.suffix
  refine ⟨⟨?_, dropped, by rw [heq, List.append_assoc], hd⟩, ?_⟩
  · intro t ht
    rcases List.mem_append.mp ht with ht | ht
    · exact h.past t ht
    · rw [List.mem_singleton.mp ht]
  · intro a
    rw [List.countP_append]
    by_cases hin : a ≤ clock ∧ clock ≤ a + width
    · have hold : dropped.countP (fun t => decide (a ≤ t ∧ t ≤ a + width)) = 0 := by
        apply List.countP_eq_zero.mpr
        intro t ht hat
        have hlt := hd t ht
        have hge := (of_decide_eq_true hat).1
        have hcut : clock - width ≤ a := sub_le_iff_le_add.mpr hin.2
        exact absurd (lt_of_lt_of_le hlt hcut) (not_lt.mpr hge)
      have hqueue : queue.countP (fun t => decide (a ≤ t ∧ t ≤ a + width)) ≤ queue.length :=
        List.countP_le_length
      have hone : [clock].countP (fun t => decide (a ≤ t ∧ t ≤ a + width)) ≤ [clock].length :=
        List.countP_le_length
      rw [heq, List.countP_append, hold]
      simp only [List.length_cons, List.length_nil] at hone
      omega
    · have hnone : [clock].countP (fun t => decide (a ≤ t ∧ t ≤ a + width)) = 0 := by
        apply List.countP_eq_zero.mpr
        intro t ht hat
        rw [List.mem_singleton.mp ht] at hat
        exact hin (of_decide_eq_true hat)
      rw [hnone]
      exact hw a

end SlidingWindow
