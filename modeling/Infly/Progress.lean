import Infly.Transitions
import Mathlib.Data.Nat.Init

/-! # A call among other threads

A call finishes when, whatever the other threads do between its steps, it can always take
the next one, and after finitely many of them it has returned. It returns when others may hold
it up, but never for good.
-/

universe u v

namespace Progress

open Transitions

variable {σ : Type u} {ε : Type v}

/-- Steps of everybody else. -/
def Others (step : σ → ε → σ → Prop) (own : ε → Prop) (s : σ) (e : ε) (t : σ) : Prop :=
  ¬ own e ∧ step s e t

inductive Finishes (step : σ → ε → σ → Prop) (own : ε → Prop) (P : σ → Prop) : σ → Prop where
  | done {s} : P s → Finishes step own P s
  | turn {s} : (∀ u, Execution (Others step own) s u → ∃ e t, own e ∧ step u e t) →
      (∀ u e t, Execution (Others step own) s u → own e → step u e t →
        Finishes step own P t) → Finishes step own P s

/-- Whatever others do, they can go on so that the call takes its next step, and after
finitely many of these it is over. -/
inductive Returns (step : σ → ε → σ → Prop) (own : ε → Prop) (P : σ → Prop) : σ → Prop where
  | done {s} : P s → Returns step own P s
  | turn {s} : (∀ u, Execution (Others step own) s u →
      ∃ v e t, Execution (Others step own) u v ∧ own e ∧ step v e t) →
      (∀ u e t, Execution (Others step own) s u → own e → step u e t →
        Returns step own P t) → Returns step own P s

variable {step : σ → ε → σ → Prop} {own : ε → Prop} {P : σ → Prop} {s : σ}

/-- The rule for calls: `Busy` holds while the call runs, others keep it and do not raise the
measure, and each of the call's own steps lowers the measure or ends the call. -/
theorem Finishes.of_measure {B : σ → Prop} (μ : σ → ℕ)
    (others : ∀ s e t, B s → ¬ own e → step s e t → B t ∧ μ t ≤ μ s)
    (enabled : ∀ s, B s → ∃ e t, own e ∧ step s e t)
    (forward : ∀ s e t, B s → own e → step s e t → P t ∨ B t ∧ μ t < μ s)
    (hs : B s) : Finishes step own P s := by
  induction hn : μ s using Nat.strong_induction_on generalizing s with
  | _ n ih =>
    have kept : ∀ u, Execution (Others step own) s u → B u ∧ μ u ≤ n := by
      intro u hu
      refine hu.preserves (P := fun u => B u ∧ μ u ≤ n) ?_ ⟨hs, Nat.le_of_eq hn⟩
      rintro s e t ⟨hb, hm⟩ ⟨hown, hst⟩
      obtain ⟨hb', hm'⟩ := others s e t hb hown hst
      exact ⟨hb', Nat.le_trans hm' hm⟩
    refine .turn (fun u hu => enabled u (kept u hu).1) fun u e t hu he hst => ?_
    obtain ⟨hb, hm⟩ := kept u hu
    rcases forward u e t hb he hst with hp | ⟨hb', hlt⟩
    · exact .done hp
    · exact ih (μ t) (Nat.lt_of_lt_of_le hlt hm) hb' rfl

/-- What others do before the call's next step keeps it a call that finishes. -/
theorem Finishes.later (h : Finishes step own P s) (hs : ¬ P s) {u : σ}
    (run : Execution (Others step own) s u) : Finishes step own P u := by
  cases h with
  | done hp => exact absurd hp hs
  | turn can go => exact .turn (fun v hv => can v (run.trans hv)) fun v e t hv => go v e t (run.trans hv)

/-- A call that its own steps keep from its end does not finish. -/
theorem Finishes.not_of_stays {D : σ → Prop} (unfinished : ∀ s, D s → ¬ P s)
    (stays : ∀ s e t, D s → own e → step s e t → D t) (hs : D s) :
    ¬ Finishes step own P s := by
  intro h
  induction h with
  | done hp => exact unfinished _ hs hp
  | turn can _ ih =>
    obtain ⟨e, t, he, hst⟩ := can _ (.refl _)
    exact ih _ e t (.refl _) he hst (stays _ e t hs he hst)

variable {α : Type*} {r : α → α → Prop}

/-- The rule for calls that wait: others keep `Busy` and the rank, and can let the call go
on; each of its own steps lowers the rank or ends the call. -/
theorem Returns.of_rank {B : σ → Prop} (wf : WellFounded r) (μ : σ → α)
    (others : ∀ s e t, B s → ¬ own e → step s e t → B t ∧ μ t = μ s)
    (enabled : ∀ s, B s → ∃ v e t, Execution (Others step own) s v ∧ own e ∧ step v e t)
    (forward : ∀ s e t, B s → own e → step s e t → P t ∨ B t ∧ r (μ t) (μ s))
    (hs : B s) : Returns step own P s := by
  induction hn : μ s using wf.induction generalizing s with
  | _ n ih =>
    have kept : ∀ u, Execution (Others step own) s u → B u ∧ μ u = n := by
      intro u hu
      refine hu.preserves (P := fun u => B u ∧ μ u = n) ?_ ⟨hs, hn⟩
      rintro s e t ⟨hb, hm⟩ ⟨hown, hst⟩
      obtain ⟨hb', hm'⟩ := others s e t hb hown hst
      exact ⟨hb', hm'.trans hm⟩
    refine .turn (fun u hu => enabled u (kept u hu).1) fun u e t hu he hst => ?_
    obtain ⟨hb, hm⟩ := kept u hu
    rcases forward u e t hb he hst with hp | ⟨hb', hlt⟩
    · exact .done hp
    · exact ih (μ t) (hm ▸ hlt) hb' rfl

/-- A run that lowers a rank again and again gets there. -/
theorem reaches_of_rank {B Q : σ → Prop} (wf : WellFounded r) (μ : σ → α)
    (forward : ∀ s, B s → ∃ t, Execution step s t ∧ (Q t ∨ B t ∧ r (μ t) (μ s)))
    (hs : B s) : ∃ t, Execution step s t ∧ Q t := by
  induction hn : μ s using wf.induction generalizing s with
  | _ n ih =>
    obtain ⟨t, run, hq | ⟨hb, hlt⟩⟩ := forward s hs
    · exact ⟨t, run, hq⟩
    · obtain ⟨u, run', hq⟩ := ih (μ t) (hn ▸ hlt) hb rfl
      exact ⟨u, run.trans run', hq⟩

end Progress
