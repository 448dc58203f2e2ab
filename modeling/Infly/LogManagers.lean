import Infly.Transitions
import Mathlib.Data.List.Basic

/-! # Log managers that overlap

`_install_queue_handler`, `setup_main_logging` and `MainLogManager.stop` in
`infly/runtime/log.py`, as they change the logger `infly` of one process.
-/
namespace LogManagers

open Transitions

/-- A handler of the logger: the queue handler that a manager has installed, or any other. -/
inductive Handler (η : Type) where
  | queue (manager : ℕ)
  | other (h : η)

structure Logger (η : Type) where
  handlers : List (Handler η)
  level : ℕ
  propagate : Bool

/-- What `setup_main_logging` found, and whether `stop` was called. -/
structure MainLogManager (η : Type) where
  rootHandlers : List (Handler η)
  rootLevel : ℕ
  rootPropagate : Bool
  stopped : Bool := false

/-- The managers with a number below `count` have been set up. -/
structure State (η : Type) where
  logger : Logger η
  count : ℕ := 0
  manager : ℕ → MainLogManager η

inductive Event where
  | setup
  | stop (manager : ℕ)
  deriving DecidableEq

variable {η : Type}

def debugLevel : ℕ := 10
def notsetLevel : ℕ := 0

def setupMainLogging (s : State η) : State η where
  logger := { handlers := [.queue s.count], level := debugLevel, propagate := false }
  count := s.count + 1
  manager := Function.update s.manager s.count {
    rootHandlers := s.logger.handlers
    rootLevel := s.logger.level
    rootPropagate := s.logger.propagate }

def stop (s : State η) (k : ℕ) : State η :=
  if (s.manager k).stopped then s
  else { s with
    logger := {
      handlers := (s.manager k).rootHandlers
      level := notsetLevel
      propagate := (s.manager k).rootPropagate }
    manager := Function.update s.manager k { s.manager k with stopped := true } }

def next (s : State η) : Event → State η
  | .setup => setupMainLogging s
  | .stop k => stop s k

/-- A manager is stopped by those to whom it was returned. -/
def Known (s : State η) : Event → Prop
  | .setup => True
  | .stop k => k < s.count

def begin (found : List η) (level : ℕ) (propagate : Bool) : State η where
  logger := { handlers := found.map .other, level, propagate }
  manager _ := { rootHandlers := [], rootLevel := level, rootPropagate := propagate }

section

variable {s : State η} {e : Event} {found : List η} {propagate : Bool} {j k : ℕ}

theorem stop_live (hs : (s.manager k).stopped = false) : stop s k = { s with
    logger := {
      handlers := (s.manager k).rootHandlers
      level := notsetLevel
      propagate := (s.manager k).rootPropagate }
    manager := Function.update s.manager k { s.manager k with stopped := true } } := by
  simp [stop, hs]

theorem stop_again (hs : (s.manager k).stopped = true) : stop s k = s := by simp [stop, hs]

/-! ## The handlers on the logger -/

/-- The logger as it was before the first call, or as one of the managers has set it up. -/
inductive Installed (found : List η) (propagate : Bool) (bound : ℕ) :
    List (Handler η) → Bool → Prop where
  | found : Installed found propagate bound (found.map .other) propagate
  | queue {j : ℕ} (h : j < bound) : Installed found propagate bound [.queue j] false

theorem Installed.mono {handlers : List (Handler η)} {b : Bool} {m n : ℕ}
    (h : Installed found propagate m handlers b) (hmn : m ≤ n) :
    Installed found propagate n handlers b := by
  cases h with
  | found => exact .found
  | queue h => exact .queue (Nat.lt_of_lt_of_le h hmn)

theorem found_no_queue (found : List η) (k : ℕ) : Handler.queue k ∉ found.map Handler.other := by
  intro h
  obtain ⟨_, _, hx⟩ := List.mem_map.mp h
  cases hx

structure Shape (found : List η) (propagate : Bool) (s : State η) : Prop where
  logger : Installed found propagate s.count s.logger.handlers s.logger.propagate
  saved : ∀ k, k < s.count →
    Installed found propagate k (s.manager k).rootHandlers (s.manager k).rootPropagate

theorem shape_next (h : Shape found propagate s) (he : Known s e) :
    Shape found propagate (next s e) := by
  cases e with
  | setup =>
    refine ⟨.queue (Nat.lt_succ_self _), ?_⟩
    intro k hk
    by_cases hc : k = s.count
    · subst hc
      simp only [next, setupMainLogging, Function.update_self]
      exact h.logger
    · simp only [next, setupMainLogging, Function.update_of_ne hc]
      exact h.saved k (Nat.lt_of_le_of_ne (Nat.le_of_lt_succ hk) hc)
  | stop k =>
    by_cases hs : (s.manager k).stopped = true
    · simp only [next, stop_again hs]
      exact h
    · simp only [next, stop_live (Bool.not_eq_true _ ▸ hs)]
      refine ⟨(h.saved k he).mono (Nat.le_of_lt he), ?_⟩
      intro j hj
      dsimp only
      by_cases hjk : j = k
      · subst hjk
        rw [Function.update_self]
        exact h.saved j hj
      · rw [Function.update_of_ne hjk]
        exact h.saved j hj

/-! ## Stops in order -/

/-- Once all managers are stopped the logger is as it was found. Until then it holds the queue
handler of one that is not stopped, and never that of one that is. -/
structure Sound (found : List η) (propagate : Bool) (s : State η) : Prop where
  restored : (∀ k, k < s.count → (s.manager k).stopped = true) →
    s.logger.handlers = found.map .other ∧ s.logger.propagate = propagate
  gone : ∀ k, k < s.count → (s.manager k).stopped = true → .queue k ∉ s.logger.handlers
  served : (∃ k, k < s.count ∧ (s.manager k).stopped = false) →
    ∃ k, k < s.count ∧ (s.manager k).stopped = false ∧ .queue k ∈ s.logger.handlers

/-- A manager is stopped while the manager whose queue handler it found is not, and, if it found
none, after all others. -/
def InOrder (s : State η) : Event → Prop
  | .setup => True
  | .stop k => (s.manager k).stopped = false →
      (∀ j, .queue j ∈ (s.manager k).rootHandlers → (s.manager j).stopped = false) ∧
      ((∀ j, .queue j ∉ (s.manager k).rootHandlers) →
        ∀ j, j < s.count → j ≠ k → (s.manager j).stopped = true)

theorem sound_found {t : State η} (handlers : t.logger.handlers = found.map .other)
    (flag : t.logger.propagate = propagate) :
    Sound found propagate t ↔ ∀ k, k < t.count → (t.manager k).stopped = true := by
  constructor
  · intro h k hk
    by_contra hs
    obtain ⟨j, _, _, hj⟩ := h.served ⟨k, hk, Bool.not_eq_true _ ▸ hs⟩
    rw [handlers] at hj
    exact found_no_queue found j hj
  · intro h
    refine ⟨fun _ => ⟨handlers, flag⟩, ?_, ?_⟩
    · intro k _ _
      rw [handlers]
      exact found_no_queue found k
    · rintro ⟨k, hk, hs⟩
      cases (h k hk).symm.trans hs

theorem sound_queue {t : State η} (handlers : t.logger.handlers = [.queue j])
    (hj : j < t.count) : Sound found propagate t ↔ (t.manager j).stopped = false := by
  constructor
  · intro h
    by_contra hs
    apply h.gone j hj (Bool.not_eq_false _ ▸ hs)
    rw [handlers]
    exact List.mem_singleton.mpr rfl
  · intro h
    refine ⟨?_, ?_, ?_⟩
    · intro hall
      cases (hall j hj).symm.trans h
    · intro k _ hs hk
      rw [handlers] at hk
      cases List.mem_singleton.mp hk
      cases hs.symm.trans h
    · intro _
      refine ⟨j, hj, h, ?_⟩
      rw [handlers]
      exact List.mem_singleton.mpr rfl

theorem sound_setup (s : State η) : Sound found propagate (setupMainLogging s) := by
  refine (sound_queue rfl (Nat.lt_succ_self _)).mpr ?_
  simp [setupMainLogging]

/-- A stop keeps the logger sound exactly when it is in order. -/
theorem sound_stop (shape : Shape found propagate s) (hk : k < s.count)
    (hs : (s.manager k).stopped = false) :
    Sound found propagate (stop s k) ↔ InOrder s (.stop k) := by
  have hstop := stop_live hs
  have saved := shape.saved k hk
  generalize hroot : (s.manager k).rootHandlers = handlers at saved
  generalize hflag : (s.manager k).rootPropagate = flag at saved
  cases saved with
  | found =>
    rw [sound_found (by rw [hstop]; exact hroot) (by rw [hstop]; exact hflag)]
    have bare : ∀ j, Handler.queue j ∉ (s.manager k).rootHandlers := by
      rw [hroot]
      exact found_no_queue found
    constructor
    · intro h _
      refine ⟨fun j hj => absurd hj (bare j), ?_⟩
      intro _ j hj hne
      have := h j (by rw [hstop]; exact hj)
      simpa [hstop, hne] using this
    · intro h j hj
      rw [hstop] at hj ⊢
      by_cases hne : j = k
      · subst hne
        simp
      · simpa [hne] using (h hs).2 bare j hj hne
  | @queue j hjk =>
    rw [sound_queue (by rw [hstop]; exact hroot) (by rw [hstop]; exact Nat.lt_trans hjk hk)]
    have hne : j ≠ k := Nat.ne_of_lt hjk
    have same : ((stop s k).manager j).stopped = (s.manager j).stopped := by
      rw [hstop]
      simp [hne]
    rw [same]
    constructor
    · intro h _
      refine ⟨?_, ?_⟩
      · intro i hi
        rw [hroot] at hi
        cases List.mem_singleton.mp hi
        exact h
      · intro bare
        exact absurd (by rw [hroot]; exact List.mem_singleton.mpr rfl) (bare j)
    · intro h
      apply (h hs).1 j
      rw [hroot]
      exact List.mem_singleton.mpr rfl

theorem sound_next (shape : Shape found propagate s) (sound : Sound found propagate s)
    (he : Known s e) : Sound found propagate (next s e) ↔ InOrder s e := by
  cases e with
  | setup => exact iff_of_true (sound_setup s) trivial
  | stop k =>
    by_cases hs : (s.manager k).stopped = true
    · simp only [next, stop_again hs]
      refine iff_of_true sound ?_
      intro hn
      cases hs.symm.trans hn
    · exact sound_stop shape he (Bool.not_eq_true _ ▸ hs)

/-- However many managers are set up, and whenever they are stopped: the logger is sound
throughout exactly when every manager is stopped in order. -/
theorem managers_nest (found : List η) (level : ℕ) (propagate : Bool) {es : List Event}
    (known : Valid Known next (begin found level propagate) es) :
    Throughout next (Sound found propagate) (begin found level propagate) es ↔
      Valid InOrder next (begin found level propagate) es := by
  refine throughout_iff (I := Shape found propagate) ?_ ?_ ?_ ?_ known
  · intro s e shape he
    exact shape_next shape he
  · intro s e shape sound he
    exact sound_next shape sound he
  · refine ⟨.found, ?_⟩
    intro k hk
    exact absurd hk (Nat.not_lt_zero k)
  · refine (sound_found (t := begin found level propagate) rfl rfl).mpr ?_
    intro k hk
    exact absurd hk (Nat.not_lt_zero k)

end

instance (s : State η) (e : Event) : Decidable (Known s e) := by
  cases e <;> unfold Known <;> infer_instance

/-- Of two overlapping managers the second is stopped first. -/
theorem reverse_order_nests :
    Throughout next (Sound [()] true) (begin [()] 20 true) [.setup, .setup, .stop 1, .stop 0] := by
  refine (managers_nest [()] 20 true (by decide)).mpr ⟨trivial, trivial, ?_, ?_, trivial⟩
  · intro _
    constructor
    · intro j hj
      cases List.mem_singleton.mp hj
      rfl
    · intro bare
      exact absurd (List.mem_singleton.mpr rfl) (bare 0)
  · intro _
    constructor
    · intro j hj
      cases List.mem_singleton.mp hj
    · intro _ j hj hne
      obtain rfl : j = 1 := by
        change j < 2 at hj
        omega
      rfl

/-- The first of two overlapping managers is stopped first. -/
theorem first_stopped_first :
    let s := [Event.setup, .setup, .stop 0, .stop 1].foldl next (begin [()] 20 true)
    (s.manager 0).stopped = true ∧ (s.manager 1).stopped = true ∧ s.count = 2 ∧
      s.logger.handlers = [.queue 0] ∧ s.logger.propagate = false := by
  refine ⟨rfl, rfl, rfl, rfl, rfl⟩

end LogManagers
