import Mathlib.Data.Int.ModEq
import Mathlib.Tactic.Ring

/-! # Least loaded first, ties in cyclic order

Members sit on a circle of `size` seats. Each turn gives one unit to a member with the least
load, of these to the first from the cursor on, and moves the cursor behind its seat.
-/

universe u

namespace LeastLoaded

variable {α : Type u}

/-- How far the seat is from the cursor. -/
def distance (size cursor seat : ℕ) : ℤ := ((seat : ℤ) - cursor) % size

structure Balance (α : Type u) where
  load : α → ℕ
  cursor : ℕ

variable [DecidableEq α]

structure Turn (members : List α) (seat : α → ℕ) (size : ℕ) (s : Balance α) (a : α)
    (t : Balance α) : Prop where
  member : a ∈ members
  first : ∀ b ∈ members, s.load a < s.load b ∨
    s.load a = s.load b ∧ distance size s.cursor (seat a) ≤ distance size s.cursor (seat b)
  load : ∀ b ∈ members, t.load b = s.load b + if b = a then 1 else 0
  cursor : t.cursor = (seat a + 1) % size

/-- Turns, with those that got a unit, the newest first. -/
inductive Turns (members : List α) (seat : α → ℕ) (size : ℕ) :
    Balance α → List α → Balance α → Prop where
  | start (s) : Turns members seat size s [] s
  | next {s l t a u} (h : Turns members seat size s l t) (ht : Turn members seat size t a u) :
    Turns members seat size s (a :: l) u

variable {members : List α} {seat : α → ℕ} {size c : ℕ} {s t u : Balance α} {a b : α} {l : List α}

theorem Turn.least (h : Turn members seat size s a t) (hb : b ∈ members) :
    s.load a ≤ s.load b := by
  rcases h.first b hb with hlt | ⟨heq, _⟩
  · exact le_of_lt hlt
  · exact le_of_eq heq

theorem Turns.load_eq (h : Turns members seat size s l t) (ha : a ∈ members) :
    t.load a = s.load a + l.count a := by
  induction h with
  | start => simp
  | @next l t b u h ht ih =>
    rw [ht.load a ha, ih, List.count_cons]
    by_cases he : a = b
    · subst he
      simp
      omega
    · have hne : ¬b = a := Ne.symm he
      simp [he, hne]

theorem Turns.older {newer : List α} (h : Turns members seat size s (newer ++ l) t) :
    ∃ u, Turns members seat size s l u := by
  induction newer generalizing t with
  | nil => exact ⟨t, h⟩
  | cons a newer ih =>
    cases h with
    | next h _ => exact ih h

/-- No difference of loads grows beyond one. -/
theorem Turns.spread {d : ℕ} (h : Turns members seat size s l t)
    (hd : ∀ a ∈ members, ∀ b ∈ members, s.load a ≤ s.load b + d) (ha : a ∈ members)
    (hb : b ∈ members) : t.load a ≤ t.load b + max 1 d := by
  induction h generalizing a b with
  | start =>
    have := hd a ha b hb
    omega
  | @next l t c u h ht ih =>
    rw [ht.load a ha, ht.load b hb]
    have hab := ih ha hb
    by_cases he : a = c
    · subst he
      have := ht.least hb
      rw [if_pos rfl]
      split <;> omega
    · rw [if_neg he]
      split <;> omega

/-! ## From equal loads on -/

/-- The members, in the order of the seats from `c` on. -/
structure Circle (members : List α) (seat : α → ℕ) (size c n : ℕ) (visit : ℕ → α) : Prop where
  pos : 0 < n
  member : ∀ k < n, visit k ∈ members
  visited : ∀ a ∈ members, ∃ k < n, visit k = a
  seated : ∀ a ∈ members, seat a < size
  ordered : ∀ j k, j < k → k < n →
    distance size c (seat (visit j)) < distance size c (seat (visit k))

theorem distance_nonneg (hn : 0 < size) (c i : ℕ) : 0 ≤ distance size c i :=
  Int.emod_nonneg _ (by omega)

theorem distance_lt (hn : 0 < size) (c i : ℕ) : distance size c i < size :=
  Int.emod_lt_of_pos _ (by omega)

/-- Two seats of the circle have different distances. -/
theorem distance_injective {x y : ℕ} (hx : x < size) (hy : y < size)
    (h : distance size c x = distance size c y) : x = y := by
  have hmod : (x : ℤ) ≡ y [ZMOD size] := by
    have hsub : (x : ℤ) - c ≡ y - c [ZMOD size] := h
    simpa using hsub.add_right (c : ℤ)
  have := Int.natCast_modEq_iff.mp hmod
  exact Nat.ModEq.eq_of_lt_of_lt this hx hy

/-- Distances from the seat behind `z`. -/
theorem distance_behind (size c z i : ℕ) :
    distance size ((z + 1) % size) i = (distance size c i - distance size c z - 1) % size := by
  unfold distance
  have h : ((i : ℤ) - ((z + 1) % size : ℕ)) ≡ (i - c) % size - (z - c) % size - 1 [ZMOD size] := by
    push_cast
    calc ((i : ℤ) - (z + 1) % size) ≡ i - (z + 1) [ZMOD size] :=
          Int.ModEq.sub_left _ (Int.mod_modEq _ _)
      _ = (i - c) - (z - c) - 1 := by ring
      _ ≡ (i - c) % size - (z - c) % size - 1 [ZMOD size] :=
          ((Int.mod_modEq _ _).symm.sub (Int.mod_modEq _ _).symm).sub_right _
  exact h

/-- Behind `z` come those farther than `z`, then the others; each part keeps its order. -/
theorem distance_rotate {x y z : ℕ} (hn : 0 < size) (hxy : distance size c x < distance size c y)
    (hz : distance size c z < distance size c x ∨ distance size c y ≤ distance size c z) :
    distance size ((z + 1) % size) x < distance size ((z + 1) % size) y := by
  have hx := distance_nonneg hn c x
  have hy := distance_lt hn c y
  have hz0 := distance_nonneg hn c z
  have hz1 := distance_lt hn c z
  rw [distance_behind size c z x, distance_behind size c z y]
  rcases hz with hz | hz
  · rw [Int.emod_eq_of_lt (by omega) (by omega), Int.emod_eq_of_lt (by omega) (by omega)]
    omega
  · rw [← Int.add_emod_right (distance size c x - distance size c z - 1),
      ← Int.add_emod_right (distance size c y - distance size c z - 1),
      Int.emod_eq_of_lt (by omega) (by omega), Int.emod_eq_of_lt (by omega) (by omega)]
    omega

variable {n m : ℕ} {visit : ℕ → α}

/-- After `m` turns from equal loads the members up to `m` on the circle, counted around,
have had theirs. -/
structure Even (size n : ℕ) (seat : α → ℕ) (visit : ℕ → α) (s : Balance α) (m : ℕ)
    (t : Balance α) : Prop where
  load : ∀ k < n, t.load (visit k) = s.load (visit k) + m / n + if k < m % n then 1 else 0
  cursor : m = 0 ∧ t.cursor = s.cursor ∨
    0 < m ∧ t.cursor = (seat (visit ((m - 1) % n)) + 1) % size

omit [DecidableEq α] in
/-- The next member on the circle is strictly before every other. -/
theorem Circle.foremost {k : ℕ} (hc : Circle members seat size s.cursor n visit)
    (heq : ∀ a ∈ members, ∀ b ∈ members, s.load a = s.load b)
    (he : Even size n seat visit s m t) (hk : k < n) (hne : k ≠ m % n) :
    t.load (visit (m % n)) < t.load (visit k) ∨
    t.load (visit (m % n)) = t.load (visit k) ∧
      distance size t.cursor (seat (visit (m % n))) < distance size t.cursor (seat (visit k)) := by
  have hm := Nat.mod_lt m hc.pos
  have hsize : 0 < size := by
    have := hc.seated _ (hc.member k hk)
    omega
  have hload := heq _ (hc.member _ hm) _ (hc.member k hk)
  rw [he.load _ hm, he.load k hk, hload, if_neg (Nat.lt_irrefl _)]
  by_cases hlt : k < m % n
  · left
    rw [if_pos hlt]
    omega
  · right
    have hgt : m % n < k := by omega
    refine ⟨by rw [if_neg hlt], ?_⟩
    have hord := hc.ordered _ _ hgt hk
    rcases he.cursor with ⟨hz, hcur⟩ | ⟨hpos, hcur⟩
    · rw [hcur]
      exact hord
    · rw [hcur]
      apply distance_rotate hsize hord
      by_cases hzero : m % n = 0
      · right
        have hlast : (m - 1) % n = n - 1 := by
          obtain ⟨q, rfl⟩ := Nat.dvd_of_mod_eq_zero hzero
          obtain ⟨q, rfl⟩ : ∃ j, q = j + 1 := by
            cases q with
            | zero => simp at hpos
            | succ j => exact ⟨j, rfl⟩
          have : n * (q + 1) - 1 = (n - 1) + n * q := by
            rw [Nat.mul_succ]
            omega
          rw [this, Nat.add_mul_mod_self_left, Nat.mod_eq_of_lt (by omega)]
        rw [hlast]
        rcases Nat.lt_or_ge k (n - 1) with hkl | hkl
        · exact le_of_lt (hc.ordered k (n - 1) hkl (by omega))
        · rw [show k = n - 1 by omega]
      · left
        have hprev : (m - 1) % n = m % n - 1 := by
          have hdiv := Nat.div_add_mod m n
          have : m - 1 = (m % n - 1) + n * (m / n) := by omega
          rw [this, Nat.add_mul_mod_self_left, Nat.mod_eq_of_lt (by omega)]
        rw [hprev]
        exact hc.ordered _ _ (by omega) hm

omit [DecidableEq α] in
theorem Circle.injective {j k : ℕ} (hc : Circle members seat size c n visit) (hj : j < n)
    (hk : k < n) (h : visit j = visit k) : j = k := by
  rcases Nat.lt_trichotomy j k with hlt | heq | hgt
  · have := hc.ordered j k hlt hk
    rw [h] at this
    omega
  · exact heq
  · have := hc.ordered k j hgt hj
    rw [h] at this
    omega

/-- Passing from `m` to its successor, for the quotient and for who is before the remainder. -/
theorem around (hn : 0 < n) (m : ℕ) {k : ℕ} (hk : k < n) :
    m / n + (if k < m % n then 1 else 0) + (if k = m % n then 1 else 0) =
      (m + 1) / n + if k < (m + 1) % n then 1 else 0 := by
  have hm := Nat.mod_lt m hn
  have hd := Nat.div_add_mod m n
  by_cases hlast : m % n + 1 < n
  · obtain ⟨hq, hr⟩ := (Nat.div_mod_unique hn (a := m + 1) (d := m / n) (c := m % n + 1)).mpr
      ⟨by omega, hlast⟩
    rw [hq, hr]
    split <;> split <;> split <;> omega
  · obtain ⟨hq, hr⟩ := (Nat.div_mod_unique hn (a := m + 1) (d := m / n + 1) (c := 0)).mpr
      ⟨by rw [Nat.mul_succ]; omega, hn⟩
    rw [hq, hr]
    split <;> split <;> split <;> omega

theorem Circle.turn (hc : Circle members seat size s.cursor n visit)
    (heq : ∀ a ∈ members, ∀ b ∈ members, s.load a = s.load b)
    (he : Even size n seat visit s m t) (ht : Turn members seat size t a u) :
    a = visit (m % n) ∧ Even size n seat visit s (m + 1) u := by
  have hm := Nat.mod_lt m hc.pos
  have ha : a = visit (m % n) := by
    obtain ⟨k, hk, rfl⟩ := hc.visited a ht.member
    by_contra hne
    have hkm : k ≠ m % n := fun h => hne (by rw [h])
    have hfirst := ht.first _ (hc.member _ hm)
    have hbefore := hc.foremost heq he hk hkm
    omega
  subst ha
  refine ⟨rfl, ?_, ?_⟩
  · intro k hk
    have hk_iff : (visit k = visit (m % n)) = (k = m % n) := by
      apply propext
      constructor
      · exact hc.injective hk hm
      · rintro rfl
        rfl
    rw [ht.load _ (hc.member k hk), he.load k hk, Nat.add_assoc _ (m / n), Nat.add_assoc]
    simp only [hk_iff]
    rw [Nat.add_assoc (s.load (visit k)), ← around hc.pos m hk]
  · right
    refine ⟨Nat.succ_pos m, ?_⟩
    rw [ht.cursor, Nat.add_sub_cancel]

/-- From equal loads on the members get their units in the order of the circle, around and
around. -/
theorem Circle.turns (hc : Circle members seat size s.cursor n visit)
    (heq : ∀ a ∈ members, ∀ b ∈ members, s.load a = s.load b)
    (h : Turns members seat size s l t) :
    l.reverse = (List.range l.length).map (fun k => visit (k % n)) ∧
    Even size n seat visit s l.length t := by
  induction h with
  | start =>
    refine ⟨rfl, ?_, .inl ⟨rfl, rfl⟩⟩
    intro k _
    simp
  | @next l t a u h ht ih =>
    obtain ⟨hl, he⟩ := ih
    obtain ⟨rfl, hu⟩ := hc.turn heq he ht
    refine ⟨?_, hu⟩
    rw [List.reverse_cons, hl, List.length_cons, List.range_succ, List.map_append]
    rfl

theorem Circle.count (hc : Circle members seat size s.cursor n visit)
    (heq : ∀ a ∈ members, ∀ b ∈ members, s.load a = s.load b)
    (h : Turns members seat size s l t) {k : ℕ} (hk : k < n) :
    l.count (visit k) = l.length / n + if k < l.length % n then 1 else 0 := by
  have hl := (hc.turns heq h).2.load k hk
  rw [h.load_eq (hc.member k hk)] at hl
  omega

/-- Of any `n` turns in a row everyone gets one. -/
theorem Circle.window {newer : List α} (hc : Circle members seat size s.cursor n visit)
    (heq : ∀ a ∈ members, ∀ b ∈ members, s.load a = s.load b)
    (h : Turns members seat size s (newer ++ l) t) (hn : newer.length = n) (ha : a ∈ members) :
    newer.count a = 1 := by
  obtain ⟨k, hk, rfl⟩ := hc.visited a ha
  obtain ⟨u, hu⟩ := h.older
  have hall := hc.count heq h hk
  have hold := hc.count heq hu hk
  rw [List.count_append, List.length_append, hn, Nat.add_div_left _ hc.pos,
    Nat.add_mod_left] at hall
  omega

/-- After `m` turns everyone has got `m / n` units, rounded down or up. -/
theorem Circle.share (hc : Circle members seat size s.cursor n visit)
    (heq : ∀ a ∈ members, ∀ b ∈ members, s.load a = s.load b)
    (h : Turns members seat size s l t) (ha : a ∈ members) :
    l.count a = l.length / n ∨ l.count a = (l.length + n - 1) / n := by
  obtain ⟨k, hk, rfl⟩ := hc.visited a ha
  have hcount := hc.count heq h hk
  by_cases hlt : k < l.length % n
  · right
    rw [if_pos hlt] at hcount
    have hd := Nat.div_add_mod l.length n
    have hm := Nat.mod_lt l.length hc.pos
    have hup := ((Nat.div_mod_unique hc.pos (a := l.length + n - 1) (d := l.length / n + 1)
      (c := l.length % n - 1)).mpr ⟨by rw [Nat.mul_succ]; omega, by omega⟩).1
    rw [hcount, hup]
  · left
    rw [if_neg hlt] at hcount
    exact hcount

end LeastLoaded
