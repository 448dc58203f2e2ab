import Mathlib.Logic.Function.Basic

/-! # Labelled transition systems

Runs, invariants over runs, and runs all of whose steps meet a condition.
-/

universe u v

namespace Transitions

variable {σ : Type u} {ε : Type v}

inductive Execution (step : σ → ε → σ → Prop) : σ → σ → Prop where
  | refl (s) : Execution step s s
  | tail {s t u e} : Execution step s t → step t e u → Execution step s u

structure System (σ : Type u) (ε : Type v) where
  init : σ → Prop
  step : σ → ε → σ → Prop

def System.Reachable (S : System σ ε) (s : σ) : Prop :=
  ∃ s₀, S.init s₀ ∧ Execution S.step s₀ s

/-- The same system, with only the steps that meet a condition on the state before the
step and on the label. -/
def System.restrict (S : System σ ε) (allow : σ → ε → Prop) : System σ ε where
  init := S.init
  step s e t := allow s e ∧ S.step s e t

variable {step : σ → ε → σ → Prop} {s t u : σ}

namespace Execution

theorem trans (h : Execution step s t) (k : Execution step t u) :
    Execution step s u := by
  induction k with
  | refl => exact h
  | tail _ hs ih => exact .tail ih hs

theorem single {e : ε} (h : step s e t) : Execution step s t := .tail (.refl s) h

theorem mono {step' : σ → ε → σ → Prop}
    (sub : ∀ s e t, step s e t → step' s e t) (h : Execution step s t) :
    Execution step' s t := by
  induction h with
  | refl => exact .refl _
  | tail _ hs ih => exact .tail ih (sub _ _ _ hs)

/-- The run rule: what one step preserves, a run preserves. -/
theorem preserves {P : σ → Prop} (kept : ∀ s e t, P s → step s e t → P t)
    (h : Execution step s t) (hs : P s) : P t := by
  induction h with
  | refl => exact hs
  | tail _ hs ih => exact kept _ _ _ ih hs

end Execution

namespace System

variable {S : System σ ε}

theorem reachable_init (h : S.init s) : S.Reachable s := ⟨s, h, .refl s⟩

theorem Reachable.next {e : ε} (h : S.Reachable s) (hs : S.step s e t) : S.Reachable t := by
  obtain ⟨s₀, h₀, run⟩ := h
  exact ⟨s₀, h₀, .tail run hs⟩

theorem invariant {P : σ → Prop} (start : ∀ s, S.init s → P s)
    (kept : ∀ s e t, P s → S.step s e t → P t) (h : S.Reachable s) : P s := by
  obtain ⟨s₀, h₀, run⟩ := h
  exact run.preserves kept (start s₀ h₀)

/-- The step case may use that the state before the step is reachable, so invariants
proved earlier are at hand. -/
theorem invariant_reachable {P : σ → Prop} (start : ∀ s, S.init s → P s)
    (kept : ∀ s e t, S.Reachable s → P s → S.step s e t → P t) (h : S.Reachable s) : P s := by
  obtain ⟨s₀, h₀, run⟩ := h
  have both : S.Reachable s ∧ P s :=
    run.preserves (P := fun s => S.Reachable s ∧ P s)
      (fun s e t hs hstep => ⟨hs.1.next hstep, kept s e t hs.1 hs.2 hstep⟩)
      ⟨reachable_init h₀, start s₀ h₀⟩
  exact both.2

theorem restrict_reachable {allow : σ → ε → Prop} (h : (S.restrict allow).Reachable s) :
    S.Reachable s := by
  obtain ⟨s₀, h₀, run⟩ := h
  exact ⟨s₀, h₀, run.mono fun _ _ _ hs => hs.2⟩

/-- Runs under one condition are runs under another that it implies where an invariant
holds. -/
theorem restrict_imp {allow B : σ → ε → Prop} {P : σ → Prop}
    (holds : ∀ s, (S.restrict allow).Reachable s → P s)
    (imp : ∀ s e, P s → allow s e → B s e) (h : (S.restrict allow).Reachable s) :
    (S.restrict B).Reachable s := by
  refine invariant_reachable (S := S.restrict allow) (P := (S.restrict B).Reachable)
    (fun s hs => reachable_init (S := S.restrict B) hs) (fun s e t hr hs hst => ?_) h
  exact hs.next (e := e) ⟨imp s e (holds s hr) hst.1, hst.2⟩

end System

/-! ## Replaying a list of labels -/

section Replay

variable (enabled : σ → ε → Prop) (next : σ → ε → σ)

def Valid : σ → List ε → Prop
  | _, [] => True
  | s, e :: es => enabled s e ∧ Valid (next s e) es

def decidableValid [∀ s e, Decidable (enabled s e)] :
    (s : σ) → (es : List ε) → Decidable (Valid enabled next s es)
  | _, [] => .isTrue trivial
  | s, e :: es => @instDecidableAnd _ _ _ (decidableValid (next s e) es)

instance [∀ s e, Decidable (enabled s e)] (s : σ) (es : List ε) :
    Decidable (Valid enabled next s es) := decidableValid enabled next s es

theorem Valid.execution {E : σ → ε → Prop} {next : σ → ε → σ} {s : σ} {l : List ε}
    (h : Valid E next s l) :
    Execution (fun s e t => E s e ∧ t = next s e) s (l.foldl next s) := by
  induction l generalizing s with
  | nil => exact .refl s
  | cons e l ih => exact (Execution.single ⟨h.1, rfl⟩).trans (ih h.2)

theorem Valid.reachable {E : σ → ε → Prop} {next : σ → ε → σ} {S : System σ ε} {s : σ}
    {l : List ε} (h : Valid E next s l) (hs : S.init s)
    (hstep : ∀ s e, E s e → S.step s e (next s e)) : S.Reachable (l.foldl next s) :=
  ⟨s, hs, h.execution.mono fun s e _ ⟨he, ht⟩ => ht ▸ hstep s e he⟩

/-- `P` holds of every state that the labels lead through. -/
def Throughout (P : σ → Prop) : σ → List ε → Prop
  | s, [] => P s
  | s, e :: es => P s ∧ Throughout P (next s e) es

/-- A property holds throughout a run that starts in it exactly when each step keeps it, given
what holds along the run anyway. -/
theorem throughout_iff {E keeps : σ → ε → Prop} {next : σ → ε → σ} {I P : σ → Prop}
    (kept : ∀ s e, I s → E s e → I (next s e))
    (exact : ∀ s e, I s → P s → E s e → (P (next s e) ↔ keeps s e)) {s : σ} {es : List ε}
    (hi : I s) (hp : P s) (valid : Valid E next s es) :
    Throughout next P s es ↔ Valid keeps next s es := by
  induction es generalizing s with
  | nil => exact iff_of_true hp trivial
  | cons e es ih =>
    obtain ⟨he, valid⟩ := valid
    have step := exact s e hi hp he
    constructor
    · rintro ⟨-, rest⟩
      have hp' : P (next s e) := by
        cases es with
        | nil => exact rest
        | cons e' es => exact rest.1
      exact ⟨step.mp hp', (ih (kept s e hi he) hp' valid).mp rest⟩
    · rintro ⟨hk, rest⟩
      have hp' := step.mpr hk
      exact ⟨hp, (ih (kept s e hi he) hp' valid).mpr rest⟩

end Replay

section Partial

variable (next : σ → ε → Option σ) (allow : σ → ε → Prop) [∀ s e, Decidable (allow s e)]

/-- The state after a list of labels, if each of them is allowed and enabled. -/
def replay : List ε → σ → Option σ
  | [], s => some s
  | e :: es, s => if allow s e then (next s e).bind (replay es) else none

variable {next allow}

theorem replay_execution {es : List ε} {s t : σ} (h : replay next allow es s = some t) :
    Execution (fun s e t => allow s e ∧ next s e = some t) s t := by
  induction es generalizing s with
  | nil =>
    cases h
    exact .refl _
  | cons e es ih =>
    unfold replay at h
    split at h
    · rename_i ha
      obtain ⟨u, hu, ht⟩ := Option.bind_eq_some_iff.mp h
      exact (Execution.single (e := e) ⟨ha, hu⟩).trans (ih ht)
    · cases h

end Partial

end Transitions
