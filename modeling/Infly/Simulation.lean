import Infly.Transitions

/-! # Simulation of one system by another along a view

A view shows of each state of a system what a second system knows of it. Every step is then
matched by any number of steps of the second system, possibly by none, so a component of a
composed system is simulated by the component alone, and keeps its invariants.
-/

universe u v w x

namespace Transitions

variable {σ : Type u} {ε : Type v} {τ : Type w} {δ : Type x}

/-- The second system may be known to reach the state that the view shows before the step. -/
structure Simulation (S : System σ ε) (T : System τ δ) (view : σ → τ) : Prop where
  init : ∀ s, S.init s → T.init (view s)
  step : ∀ s e t, S.Reachable s → T.Reachable (view s) → S.step s e t →
    Execution T.step (view s) (view t)

theorem System.Reachable.run {S : System σ ε} {s t : σ} (h : S.Reachable s)
    (run : Execution S.step s t) : S.Reachable t := by
  obtain ⟨s₀, h₀, before⟩ := h
  exact ⟨s₀, h₀, before.trans run⟩

namespace Simulation

variable {S : System σ ε} {T : System τ δ} {view : σ → τ}

theorem reachable (h : Simulation S T view) {s : σ} (hs : S.Reachable s) :
    T.Reachable (view s) := by
  refine System.invariant_reachable (P := fun s => T.Reachable (view s)) ?_ ?_ hs
  · intro s hs
    exact System.reachable_init (h.init s hs)
  · intro s e t hr hv hst
    exact hv.run (h.step s e t hr hv hst)

/-- A run of the first system shows a run of the second. -/
theorem run (h : Simulation S T view) {s t : σ} (hs : S.Reachable s)
    (run : Execution S.step s t) : Execution T.step (view s) (view t) := by
  induction run with
  | refl => exact .refl _
  | tail before hst ih =>
    exact ih.trans (h.step _ _ _ (hs.run before) (h.reachable (hs.run before)) hst)

end Simulation

end Transitions
