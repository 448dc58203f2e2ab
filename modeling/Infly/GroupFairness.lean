import Infly.PoolTables
import Infly.PoolModel
import Infly.SmoothRoundRobin
import Mathlib.Data.Finset.Dedup

/-! # Fairness across groups

Selecting a group is a turn of the smooth weighted round robin in which a group weighs as
much as it has live workers.
-/
namespace GroupFairness

open Config PoolState SmoothRoundRobin

def weight (p : Pool) (g : String) : ℕ := (aliveWorkersLocked p g).length

/-- `W`: the live workers of all these groups. -/
def totalWeight (p : Pool) (first : String) (rest : List String) : ℕ :=
  ((first :: rest).dedup.map (weight p)).sum

/-- What `n` calls select, in order, and the pool after them. -/
def selections (p : Pool) (first : String) (rest : List String) : ℕ → List String × Pool
  | 0 => ([], p)
  | n + 1 =>
    let (chosen, q) := selections p first rest n
    let (g, q') := selectGroupLocked q first rest
    (chosen ++ [g], q')

variable {p q : Pool} {first g : String} {rest names : List String} {s : String → ℤ} {n k : ℕ}

theorem precedes_weight {h : String} (hp : precedes p s g h = true) : s g ≤ s h := by
  unfold precedes at hp
  simp only [Bool.or_eq_true, Bool.and_eq_true, decide_eq_true_eq, beq_iff_eq] at hp
  omega

theorem not_precedes_weight {h : String} (hp : ¬precedes p s g h = true) : s h ≤ s g := by
  unfold precedes at hp
  simp only [Bool.or_eq_true, Bool.and_eq_true, decide_eq_true_eq, beq_iff_eq] at hp
  omega

/-- The scan of `max` ends at a group of the greatest weight. -/
theorem greatest_weight (p : Pool) (s : String → ℤ) (first : String) (rest : List String) :
    ∀ g ∈ first :: rest,
      s g ≤ s (rest.foldl (fun best g => if precedes p s best g then g else best) first) := by
  induction rest generalizing first with
  | nil =>
    intro g hg
    rw [List.mem_singleton.mp hg]
    exact le_refl _
  | cons h rest ih =>
    intro g hg
    rw [List.foldl_cons]
    by_cases hp : precedes p s first h = true
    · rw [if_pos hp]
      rcases List.mem_cons.mp hg with rfl | hg
      · exact (precedes_weight hp).trans (ih h h (List.mem_cons_self ..))
      · exact ih h g hg
    · rw [if_neg hp]
      rcases List.mem_cons.mp hg with rfl | hg
      · exact ih g g (List.mem_cons_self ..)
      · rcases List.mem_cons.mp hg with rfl | hg
        · exact (not_precedes_weight hp).trans (ih first first (List.mem_cons_self ..))
        · exact ih first g (List.mem_cons_of_mem _ hg)

/-- The weights between the two updates of a selection. -/
def raised (p : Pool) (first : String) (rest : List String) : String → ℤ :=
  (first :: rest).dedup.foldl
    (fun s g => Function.update s g (s g + (weight p g : ℤ))) p.smoothWeights

theorem foldl_raise (w : String → ℤ) (hn : names.Nodup) (s : String → ℤ) (g : String) :
    names.foldl (fun s g => Function.update s g (s g + w g)) s g =
      if g ∈ names then s g + w g else s g := by
  induction names generalizing s with
  | nil => simp
  | cons h names ih =>
    rw [List.nodup_cons] at hn
    rw [List.foldl_cons, ih hn.2]
    by_cases he : g = h
    · subst he
      simp [hn.1]
    · simp [he]

theorem raised_eq (hg : g ∈ first :: rest) :
    raised p first rest g = p.smoothWeights g + weight p g := by
  unfold raised
  rw [foldl_raise (fun g => (weight p g : ℤ)) (List.nodup_dedup _), if_pos (List.mem_dedup.mpr hg)]

theorem select_weights (p : Pool) (first : String) (rest : List String) :
    (selectGroupLocked p first rest).2.smoothWeights =
      Function.update (raised p first rest) (selectGroupLocked p first rest).1
        (raised p first rest (selectGroupLocked p first rest).1 - (totalWeight p first rest : ℤ)) :=
  rfl

theorem dedup_toFinset (names : List String) : names.dedup.toFinset = names.toFinset := by
  ext g
  rw [List.mem_toFinset, List.mem_toFinset, List.mem_dedup]

theorem totalWeight_eq (p : Pool) (first : String) (rest : List String) :
    totalWeight p first rest = total (first :: rest).toFinset (weight p) := by
  unfold totalWeight total
  rw [← List.sum_toFinset _ (List.nodup_dedup _), dedup_toFinset]

/-- One selection is one turn. -/
theorem select_turn (p : Pool) (first : String) (rest : List String) :
    Turn (first :: rest).toFinset (weight p) p.smoothWeights
      (selectGroupLocked p first rest).1 (selectGroupLocked p first rest).2.smoothWeights := by
  have hs := PoolTables.selectGroupLocked_mem p first rest
  constructor
  · rw [List.mem_toFinset]
    exact hs
  · intro g hg
    rw [List.mem_toFinset] at hg
    rw [← raised_eq hg, ← raised_eq hs]
    exact greatest_weight p (raised p first rest) first rest g hg
  · intro g hg
    rw [List.mem_toFinset] at hg
    rw [select_weights, ← totalWeight_eq, ← raised_eq hg]
    by_cases he : g = (selectGroupLocked p first rest).1
    · rw [if_pos he, he, Function.update_self]
    · rw [if_neg he, Function.update_of_ne he, sub_zero]

/-! ## Runs of selections -/

theorem selections_succ (p : Pool) (first : String) (rest : List String) (n : ℕ) :
    selections p first rest (n + 1) =
      ((selections p first rest n).1 ++ [(selectGroupLocked (selections p first rest n).2 first rest).1],
        (selectGroupLocked (selections p first rest n).2 first rest).2) := rfl

theorem selections_weight (n : ℕ) : weight (selections p first rest n).2 = weight p := by
  induction n with
  | zero => rfl
  | succ n ih =>
    rw [← ih]
    rfl

theorem selections_length (n : ℕ) : (selections p first rest n).1.length = n := by
  induction n with
  | zero => rfl
  | succ n ih =>
    rw [selections_succ, List.length_append, ih]
    rfl

theorem selections_turns (start : ∀ g ∈ first :: rest, p.smoothWeights g = 0) (n : ℕ) :
    Turns (first :: rest).toFinset (weight p) (selections p first rest n).1.reverse
      (selections p first rest n).2.smoothWeights := by
  induction n with
  | zero =>
    apply Turns.start
    intro g hg
    exact start g (List.mem_toFinset.mp hg)
  | succ n ih =>
    rw [selections_succ, List.reverse_append]
    apply Turns.next ih
    rw [← selections_weight n]
    exact select_turn ..

/-- More calls select more groups after those selected before. -/
theorem selections_longer (m n : ℕ) :
    (selections p first rest m).1 <+: (selections p first rest (m + n)).1 := by
  induction n with
  | zero => exact List.prefix_refl _
  | succ n ih =>
    rw [← Nat.add_assoc, selections_succ]
    exact ih.trans (List.prefix_append _ _)

/-- After `k` rounds of `W` calls. -/
theorem selections_exact (start : ∀ g ∈ first :: rest, p.smoothWeights g = 0)
    (hw : 0 < totalWeight p first rest) (k : ℕ) (hg : g ∈ first :: rest) :
    (selections p first rest (k * totalWeight p first rest)).1.count g = k * weight p g ∧
    (selections p first rest (k * totalWeight p first rest)).2.smoothWeights g = 0 := by
  rw [totalWeight_eq] at hw ⊢
  have ht := selections_turns start (k * total (first :: rest).toFinset (weight p))
  have := ht.exact (k := k) hw (by rw [List.length_reverse, selections_length])
    (List.mem_toFinset.mpr hg)
  rwa [List.count_reverse] at this

theorem totalWeight_pos (live : ∀ g ∈ first :: rest, 1 ≤ weight p g) :
    0 < totalWeight p first rest := by
  rw [totalWeight_eq]
  apply Finset.sum_pos
  · intro g hg
    exact live g (List.mem_toFinset.mp hg)
  · exact ⟨first, List.mem_toFinset.mpr (List.mem_cons_self ..)⟩

/-- From smooth weights of zero on, each round of `W` calls selects every group as often as it
has live workers and leaves its weight at zero; at every point the weights are above `-W` and
sum up to zero. -/
theorem selections_fair (start : ∀ g ∈ first :: rest, p.smoothWeights g = 0)
    (live : ∀ g ∈ first :: rest, 1 ≤ weight p g) :
    (∀ k, ∀ g ∈ first :: rest,
      ((selections p first rest ((k + 1) * totalWeight p first rest)).1.drop
        (k * totalWeight p first rest)).count g = weight p g ∧
      (selections p first rest (k * totalWeight p first rest)).1.count g = k * weight p g ∧
      (selections p first rest (k * totalWeight p first rest)).2.smoothWeights g = 0) ∧
    (∀ n, ∀ g ∈ (selections p first rest n).1, g ∈ first :: rest) ∧
    ∀ n, (∀ g ∈ first :: rest,
        -(totalWeight p first rest : ℤ) < (selections p first rest n).2.smoothWeights g) ∧
      ((first :: rest).dedup.map (selections p first rest n).2.smoothWeights).sum = 0 := by
  have hw := totalWeight_pos live
  refine ⟨?_, ?_, ?_⟩
  · intro k g hg
    obtain ⟨hk, hz⟩ := selections_exact start hw k hg
    refine ⟨?_, hk, hz⟩
    have hk' := (selections_exact start hw (k + 1) hg).1
    rw [Nat.succ_mul] at hk' ⊢
    obtain ⟨later, hl⟩ := @selections_longer p first rest
      (k * totalWeight p first rest) (totalWeight p first rest)
    rw [← hl, List.count_append, hk] at hk'
    rw [← hl]
    have hdrop := @List.drop_left _ (selections p first rest (k * totalWeight p first rest)).1
      later
    rw [selections_length] at hdrop
    rw [hdrop]
    rw [Nat.add_mul] at hk'
    omega
  · intro n g hg
    have := (selections_turns start n).member (List.mem_reverse.mpr hg)
    exact List.mem_toFinset.mp this
  · intro n
    have ht := selections_turns start n
    refine ⟨?_, ?_⟩
    · intro g hg
      rw [totalWeight_eq] at hw ⊢
      exact ht.above hw (List.mem_toFinset.mpr hg)
    · rw [← List.sum_toFinset _ (List.nodup_dedup _), dedup_toFinset]
      exact ht.sum_zero

/-- Two groups, of one and of two processes. -/
def twoGroups : Pool := PoolModel.constructed ["echo"] [rivalGroup, restartPair]

theorem two_groups_fair : weight twoGroups "h" = 1 ∧ totalWeight twoGroups "h" ["g"] = 3 ∧
    ∀ g ∈ ["h", "g"], (selections twoGroups "h" ["g"] (5 * 3)).1.count g = 5 * weight twoGroups g :=
  ⟨by decide +kernel, by decide +kernel, fun g hg =>
    ((selections_fair (by decide +kernel) (by decide +kernel)).1 5 g hg).2.1⟩

end GroupFairness
