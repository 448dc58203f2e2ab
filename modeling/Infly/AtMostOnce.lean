import Infly.Simulation

/-! # A service that performs a task at most once

What a client can count on, whatever the service is made of. A task is accepted once and begun at
most once, it may fail at any time, and what it completes with is what was performed for it.
-/

namespace AtMostOnce

open Transitions

inductive Phase (ω φ : Type) where
  | absent | waiting | running
  | completed (result : ω)
  | failed (reason : φ)
  | retired

def Phase.ended {ω φ : Type} : Phase ω φ → Bool
  | .completed _ | .failed _ => true
  | _ => false

def Phase.isRetired {ω φ : Type} : Phase ω φ → Bool
  | .retired => true
  | _ => false

/-- `performed`: every outcome of the task so far, in order. -/
structure State (τ ω φ ε : Type) where
  phase : τ → Phase ω φ
  begun : τ → Prop
  performed : τ → List (Except ε ω)

/-- `retire`: the service forgets all of these at once. -/
inductive Event (τ ω φ ε : Type) where
  | accept (t : τ) | begin (t : τ)
  | perform (t : τ) (outcome : Except ε ω)
  | complete (t : τ) (result : ω)
  | fail (t : τ) (reason : φ)
  | retire (gone : τ → Bool)

variable {τ ω φ ε : Type} [DecidableEq τ] {s s' : State τ ω φ ε} {t u : τ}

def State.move (s : State τ ω φ ε) (t : τ) (p : Phase ω φ) : State τ ω φ ε :=
  { s with phase := Function.update s.phase t p }

/-- A task can be performed after it has failed: it may be on its way when it is given up. -/
inductive Step (s : State τ ω φ ε) : Event τ ω φ ε → State τ ω φ ε → Prop where
  | accept (t : τ) (new : s.phase t = .absent) : Step s (.accept t) (s.move t .waiting)
  | begin (t : τ) (waits : s.phase t = .waiting) :
      Step s (.begin t) { s.move t .running with begun := fun u => u = t ∨ s.begun u }
  | perform (t : τ) (outcome : Except ε ω) (begun : s.begun t) (once : s.performed t = []) :
      Step s (.perform t outcome)
        { s with performed := Function.update s.performed t (s.performed t ++ [outcome]) }
  | complete (t : τ) (result : ω) (runs : s.phase t = .running)
      (done : s.performed t = [.ok result]) :
      Step s (.complete t result) (s.move t (.completed result))
  | fail (t : τ) (reason : φ) (live : s.phase t = .waiting ∨ s.phase t = .running) :
      Step s (.fail t reason) (s.move t (.failed reason))
  | retire (gone : τ → Bool) (ended : ∀ t, gone t = true → (s.phase t).ended = true) :
      Step s (.retire gone) { s with phase := fun t => if gone t then .retired else s.phase t }

def system (τ ω φ ε : Type) [DecidableEq τ] : System (State τ ω φ ε) (Event τ ω φ ε) where
  init s := (∀ t, s.phase t = .absent) ∧ (∀ t, ¬ s.begun t) ∧ ∀ t, s.performed t = []
  step := Step

/-! ## What its runs keep -/

structure Sound (s : State τ ω φ ε) : Prop where
  early : ∀ t, s.begun t → s.phase t ≠ .absent ∧ s.phase t ≠ .waiting
  performed : ∀ t, s.performed t ≠ [] → s.begun t
  once : ∀ t, (s.performed t).length ≤ 1
  completed : ∀ t result, s.phase t = .completed result → s.performed t = [.ok result]

theorem Sound.move (h : Sound s) {p : Phase ω φ} (hp : p ≠ .absent ∧ (p = .waiting → ¬ s.begun t))
    (hc : ∀ result, p = .completed result → s.performed t = [.ok result]) :
    Sound (s.move t p) where
  early u hu := by
    show Function.update s.phase t p u ≠ .absent ∧ Function.update s.phase t p u ≠ .waiting
    by_cases hut : u = t
    · subst hut
      rw [Function.update_self]
      exact ⟨hp.1, fun hw => hp.2 hw hu⟩
    · rw [Function.update_of_ne hut]
      exact h.early u hu
  performed := h.performed
  once := h.once
  completed u result hu := by
    have hu : Function.update s.phase t p u = .completed result := hu
    by_cases hut : u = t
    · subst hut
      rw [Function.update_self] at hu
      exact hc result hu
    · rw [Function.update_of_ne hut] at hu
      exact h.completed u result hu

theorem sound_step {e : Event τ ω φ ε} (h : Sound s) (hs : Step s e s') : Sound s' := by
  cases hs with
  | accept t new =>
    refine h.move ⟨nofun, fun _ hb => (h.early t hb).1 new⟩ nofun
  | begin t waits =>
    have moved : Sound (s.move t .running) := h.move ⟨nofun, nofun⟩ nofun
    refine ⟨fun u hu => ?_, fun u hu => .inr (h.performed u hu), h.once, moved.completed⟩
    rcases hu with rfl | hu
    · show Function.update s.phase u .running u ≠ .absent ∧
        Function.update s.phase u .running u ≠ .waiting
      rw [Function.update_self]
      exact ⟨nofun, nofun⟩
    · exact moved.early u hu
  | perform t outcome begun once =>
    have others : ∀ u, u ≠ t → Function.update s.performed t (s.performed t ++ [outcome]) u =
        s.performed u := fun u hut => Function.update_of_ne hut ..
    refine ⟨h.early, fun u hu => ?_, fun u => ?_, fun u result hu => ?_⟩
    · by_cases hut : u = t
      · exact hut ▸ begun
      · exact h.performed u (others u hut ▸ hu)
    · show (Function.update s.performed t (s.performed t ++ [outcome]) u).length ≤ 1
      by_cases hut : u = t
      · rw [hut, Function.update_self, once]
        exact Nat.le_refl _
      · rw [others u hut]
        exact h.once u
    · have done := h.completed u result hu
      have hut : u ≠ t := by
        rintro rfl
        cases once.symm.trans done
      exact (others u hut).trans done
  | complete t result runs done =>
    refine h.move ⟨nofun, nofun⟩ fun result' he => ?_
    cases he
    exact done
  | fail t reason live => exact h.move ⟨nofun, nofun⟩ nofun
  | retire gone ended =>
    refine ⟨fun u hu => ?_, h.performed, h.once, fun u result hu => ?_⟩
    · show (if gone u then Phase.retired else s.phase u) ≠ .absent ∧
        (if gone u then Phase.retired else s.phase u) ≠ .waiting
      split
      · exact ⟨nofun, nofun⟩
      · exact h.early u hu
    · have hu : (if gone u then Phase.retired else s.phase u) = .completed result := hu
      split at hu
      · cases hu
      · exact h.completed u result hu

theorem reachable_sound (h : (system τ ω φ ε).Reachable s) : Sound s := by
  refine System.invariant (S := system τ ω φ ε) ?_ (fun _ _ _ hu hs => sound_step hu hs) h
  rintro s ⟨absent, unbegun, unperformed⟩
  refine ⟨fun t hb => absurd hb (unbegun t), fun t hn => absurd (unperformed t) hn, fun t => ?_,
    fun t result hc => ?_⟩
  · rw [unperformed t]
    exact Nat.zero_le _
  · cases (absent t).symm.trans hc

/-- What has been performed for a task is never performed again. -/
theorem performed_kept (run : Execution (system τ ω φ ε).step s s') {outcome : Except ε ω}
    (h : s.performed t = [outcome]) : s'.performed t = [outcome] := by
  refine run.preserves (P := fun s => s.performed t = [outcome]) (fun u e v hu hs => ?_) h
  cases hs with
  | accept | begin | complete | fail | retire => exact hu
  | perform w x begun once =>
    have hne : t ≠ w := by
      rintro rfl
      cases once.symm.trans hu
    exact (Function.update_of_ne hne ..).trans hu

/-- An outcome stands until the task is retired, and a retired task stays retired. -/
theorem ended_kept (run : Execution (system τ ω φ ε).step s s') {p : Phase ω φ}
    (h : s.phase t = p) (he : p.ended = true ∨ p = .retired) :
    s'.phase t = p ∨ s'.phase t = .retired := by
  refine run.preserves (P := fun s => s.phase t = p ∨ s.phase t = .retired)
    (fun u e v hu hs => ?_) (.inl h)
  have settled : (u.phase t).ended = true ∨ u.phase t = .retired := by
    rcases hu with rfl | hr
    · exact he
    · exact .inr hr
  have still : ∀ w q, (u.phase w).ended = false → u.phase w ≠ .retired →
      (u.move w q).phase t = p ∨ (u.move w q).phase t = .retired := by
    intro w q live kept
    have hne : t ≠ w := by
      rintro rfl
      rcases settled with hs | hs
      · cases live.symm.trans hs
      · exact kept hs
    show Function.update u.phase w q t = p ∨ Function.update u.phase w q t = .retired
    rw [Function.update_of_ne hne]
    exact hu
  cases hs with
  | perform => exact hu
  | accept w new => exact still w _ (by rw [new]; rfl) (by rw [new]; nofun)
  | begin w waits => exact still w _ (by rw [waits]; rfl) (by rw [waits]; nofun)
  | complete w result runs => exact still w _ (by rw [runs]; rfl) (by rw [runs]; nofun)
  | fail w reason live =>
    rcases live with hw | hw
    · exact still w _ (by rw [hw]; rfl) (by rw [hw]; nofun)
    · exact still w _ (by rw [hw]; rfl) (by rw [hw]; nofun)
  | retire gone =>
    show (if gone t then Phase.retired else u.phase t) = p ∨
      (if gone t then Phase.retired else u.phase t) = .retired
    split
    · exact .inr rfl
    · exact hu

/-! ## Many tasks at once -/

/-- Where every task stays as it is or is retired when it has ended, one step retires them. -/
theorem retire_run (begun : s'.begun = s.begun) (performed : s'.performed = s.performed)
    (h : ∀ t, s'.phase t = s.phase t ∨ s'.phase t = .retired ∧ (s.phase t).ended = true) :
    Execution (system τ ω φ ε).step s s' := by
  have step := Step.retire (s := s) (fun t => (s.phase t).ended && (s'.phase t).isRetired)
    fun t ht => (Bool.and_eq_true_iff.mp ht).1
  have same : s'.phase = fun t =>
      if (s.phase t).ended && (s'.phase t).isRetired then .retired else s.phase t := by
    funext t
    rcases h t with heq | ⟨hr, he⟩
    · rw [heq]
      cases s.phase t <;> rfl
    · rw [hr, he]
      rfl
  rw [← same, ← begun, ← performed] at step
  exact .single step

/-- One task is moved, others may be retired at once, and so may the moved one if it has ended. -/
theorem moved_run {e : Event τ ω φ ε} {m : State τ ω φ ε} {p : Phase ω φ} (hs : Step s e m)
    (moved : m.phase = Function.update s.phase t p) (begun : s'.begun = m.begun)
    (performed : s'.performed = m.performed)
    (own : s'.phase t = p ∨ s'.phase t = .retired ∧ p.ended = true)
    (others : ∀ u, u ≠ t → s'.phase u = s.phase u ∨
      s'.phase u = .retired ∧ (s.phase u).ended = true) :
    Execution (system τ ω φ ε).step s s' := by
  refine (Execution.single hs).trans (retire_run begun performed fun u => ?_)
  rw [moved]
  by_cases hu : u = t
  · subst hu
    rw [Function.update_self]
    exact own
  · rw [Function.update_of_ne hu]
    exact others u hu

end AtMostOnce
