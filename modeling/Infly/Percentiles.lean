import Infly.DoubleRounding
import Infly.Observability
import Mathlib.Data.List.Sort

/-! # Percentiles of the latencies

`_percentile` and the latencies of `metrics_snapshot`. The index is worked out in doubles; it
stays within the list, and the percentiles mean what their names say.
-/
namespace Percentiles

open Contracts Observability DoubleRounding

/-- `sequence[i]`: a negative index counts from the end. -/
def item {α : Type} (sequence : List α) (i : ℤ) : Option α :=
  if 0 ≤ i then sequence[i.toNat]?
  else if -(sequence.length : ℤ) ≤ i then sequence[(sequence.length + i).toNat]? else none

def indexError : Raised := .other "list index out of range"

/-- `round((n - 1) * quantile)`: the integer becomes a double, and the product is one. -/
def rank (n : ℕ) (quantile : ℚ) : ℤ := nearestEven (toDouble (toDouble ((n : ℚ) - 1) * quantile))

def percentile {α : Type} (sortedValues : List α) (quantile : ℚ) : Except Raised (Option α) :=
  match sortedValues with
  | [] => .ok none
  | [value] => .ok (some value)
  | _ =>
    match item sortedValues (rank sortedValues.length quantile) with
    | some value => .ok (some value)
    | none => .error indexError

/-- The double `0.50`. -/
def half : ℚ := 1 / 2

/-- The double `0.95`. -/
def most : ℚ := 8556839292003942 / 2 ^ 53

structure LatencySnapshot where
  last : Option ℕ
  p50 : Option ℕ
  p95 : Option ℕ
  max : Option ℕ
  deriving DecidableEq

/-- The latencies' part of `metrics_snapshot`. -/
def latencySnapshot (m : RuntimeInstrumentation) : Except Raised LatencySnapshot := do
  let latencies := m.latencies.insertionSort (· ≤ ·)
  let p50 ← percentile latencies half
  let p95 ← percentile latencies most
  return { last := m.lastLatency, p50, p95, max := latencies.getLast? }

variable {n : ℕ} {q r : ℚ}

/-! ## Ranks -/

theorem count_nonneg (hn : 0 < n) : (0 : ℚ) ≤ n - 1 := by
  have : (1 : ℚ) ≤ n := by exact_mod_cast hn
  linarith

theorem count_exact (hn : 0 < n) (h : n ≤ 2 ^ 53) : toDouble ((n : ℚ) - 1) = n - 1 := by
  have := double_exact (m := n - 1) (k := 0) (by omega) (by omega)
  rwa [zpow_zero, mul_one, Nat.cast_sub hn, Nat.cast_one] at this

theorem rank_nonneg (hn : 0 < n) (hq : 0 ≤ q) : 0 ≤ rank n q := by
  have := nearest_mono (double_nonneg (mul_nonneg (double_nonneg (count_nonneg hn)) hq))
  rwa [← Int.cast_zero, nearest_int] at this

theorem rank_mono (hn : 0 < n) (hq : 0 ≤ q) (h : q ≤ r) : rank n q ≤ rank n r := by
  have count := double_nonneg (count_nonneg hn)
  exact nearest_mono (double_mono (mul_nonneg count hq) (mul_le_mul_of_nonneg_left h count))

/-- What the three roundings of a rank may add up to. -/
theorem rank_close (hn : 0 < n) (hq : 0 ≤ q) (h1 : q ≤ 1) :
    |(rank n q : ℚ) - q * (n - 1)| ≤ 1 / 2 + (n - 1) / 2 ^ 51 + 4 * 2 ^ (-1075 : ℤ) := by
  have count := count_nonneg hn
  have step : (0 : ℚ) < 2 ^ (-1075 : ℤ) := zpow_pos two_pos _
  have start := double_nonneg count
  have first := double_close count
  have second := double_close (mul_nonneg start hq)
  have third := nearest_close (toDouble (toDouble ((n : ℚ) - 1) * q))
  have scaled : |toDouble ((n : ℚ) - 1) * q - q * (n - 1)| ≤
      |toDouble ((n : ℚ) - 1) - (n - 1)| := by
    rw [show toDouble ((n : ℚ) - 1) * q - q * (n - 1) = q * (toDouble ((n : ℚ) - 1) - (n - 1)) by
      ring, abs_mul, abs_of_nonneg hq]
    exact mul_le_of_le_one_left (abs_nonneg _) h1
  have below : toDouble ((n : ℚ) - 1) * q ≤ toDouble ((n : ℚ) - 1) :=
    mul_le_of_le_one_right start h1
  unfold rank
  generalize (2 : ℚ) ^ (-1075 : ℤ) = e at *
  generalize toDouble (toDouble ((n : ℚ) - 1) * q) = c at *
  have off := scaled.trans first
  rw [abs_le] at first second third off ⊢
  constructor <;> linarith

/-- The index stays within the list: the doubles of a longer one may be larger than its length,
but not by as much as the quantile is short of one. -/
theorem rank_bound (hn : 0 < n) (hq : 0 ≤ q) (h1 : q ≤ 1) (h : n ≤ 2 ^ 53 ∨ q ≤ 24 / 25) :
    rank n q ≤ n - 1 := by
  have count := count_nonneg hn
  by_cases short : n ≤ 2 ^ 53
  · have product : toDouble (((n : ℚ) - 1) * q) ≤ ((n - 1 : ℤ) : ℚ) := by
      have := double_mono (mul_nonneg count hq) (mul_le_of_le_one_right count h1)
      rw [count_exact hn short] at this
      push_cast
      exact this
    have := nearest_mono product
    rwa [nearest_int, ← count_exact hn short] at this
  · have less : q * ((n : ℚ) - 1) ≤ 24 / 25 * (n - 1) :=
      mul_le_mul_of_nonneg_right (h.resolve_left short) count
    have long : (2 : ℚ) ^ 53 ≤ n - 1 := by
      have : ((2 ^ 53 + 1 : ℕ) : ℚ) ≤ n := by exact_mod_cast Nat.lt_of_not_le short
      push_cast at this
      linarith
    have close := (abs_le.mp (rank_close hn hq h1)).2
    have step : (2 : ℚ) ^ (-1075 : ℤ) ≤ 1 := zpow_le_one_of_nonpos₀ one_le_two (by decide)
    generalize (2 : ℚ) ^ (-1075 : ℤ) = e at *
    have : (rank n q : ℚ) ≤ n - 1 := by linarith
    exact_mod_cast this

/-! ## Percentiles -/

section

variable {α : Type} {l : List α} {v : α} {i : ℕ}

theorem percentile_item (hne : l ≠ []) (hq : 0 ≤ q) (h1 : q ≤ 1)
    (h : l.length ≤ 2 ^ 53 ∨ q ≤ 24 / 25) :
    ∃ (i : ℕ) (v : α), percentile l q = .ok (some v) ∧ l[i]? = some v ∧
      (i : ℤ) = rank l.length q := by
  have hn : 0 < l.length := List.length_pos_iff.mpr hne
  have least := rank_nonneg hn hq
  have most := rank_bound hn hq h1 h
  have hlt : (rank l.length q).toNat < l.length := by omega
  refine ⟨(rank l.length q).toNat, l[(rank l.length q).toNat], ?_, List.getElem?_eq_getElem hlt,
    Int.toNat_of_nonneg least⟩
  match l with
  | [] => exact absurd rfl hne
  | [x] =>
    have : (rank [x].length q).toNat = 0 := by
      rw [List.length_singleton] at hlt ⊢
      omega
    simp only [this]
    rfl
  | x :: y :: rest =>
    have found : item (x :: y :: rest) (rank (x :: y :: rest).length q) =
        some (x :: y :: rest)[(rank (x :: y :: rest).length q).toNat] := by
      rw [item, if_pos least, List.getElem?_eq_getElem hlt]
    simp only [percentile, found]

theorem sorted_le [LinearOrder α] {w : α} {j : ℕ} (hs : l.Pairwise (· ≤ ·)) (hij : i ≤ j)
    (hv : l[i]? = some v) (hw : l[j]? = some w) : v ≤ w := by
  obtain ⟨hi, rfl⟩ := List.getElem?_eq_some_iff.mp hv
  obtain ⟨hj, rfl⟩ := List.getElem?_eq_some_iff.mp hw
  rcases hij.lt_or_eq with less | rfl
  · exact List.pairwise_iff_getElem.mp hs i j hi hj less
  · exact le_rfl

/-- How many values of a sorted list are at most the one at an index, and how many at least. -/
theorem counts_at [LinearOrder α] (hs : l.Pairwise (· ≤ ·)) (hv : l[i]? = some v) :
    i + 1 ≤ l.countP (fun x => decide (x ≤ v)) ∧
      l.length ≤ l.countP (fun x => decide (v ≤ x)) + i := by
  obtain ⟨hi, rfl⟩ := List.getElem?_eq_some_iff.mp hv
  constructor
  · have all : (l.take (i + 1)).countP (fun x => decide (x ≤ l[i])) = (l.take (i + 1)).length := by
      refine List.countP_eq_length.mpr fun x hx => ?_
      obtain ⟨j, hj, rfl⟩ := List.mem_take_iff_getElem.mp hx
      exact decide_eq_true (sorted_le hs (by omega) (List.getElem?_eq_getElem _) hv)
    have some := (List.take_sublist (i + 1) l).countP_le (p := fun x => decide (x ≤ l[i]))
    rw [all, List.length_take] at some
    omega
  · have all : (l.drop i).countP (fun x => decide (l[i] ≤ x)) = (l.drop i).length := by
      refine List.countP_eq_length.mpr fun x hx => ?_
      obtain ⟨j, hj, rfl⟩ := List.mem_drop_iff_getElem.mp hx
      exact decide_eq_true (sorted_le hs (by omega) hv (List.getElem?_eq_getElem _))
    have some := (List.drop_sublist i l).countP_le (p := fun x => decide (l[i] ≤ x))
    rw [all, List.length_drop] at some
    omega

end

/-! ## The latencies of a snapshot -/

/-- What the median, the 95th percentile and the maximum say of the latencies. -/
structure Summary (latencies : List ℕ) (p50 p95 max : ℕ) : Prop where
  observed : p50 ∈ latencies ∧ p95 ∈ latencies ∧ max ∈ latencies
  ordered : p50 ≤ p95 ∧ p95 ≤ max
  greatest : ∀ x ∈ latencies, x ≤ max
  halves : latencies.length ≤ 2 ^ 49 →
    latencies.length ≤ 2 * latencies.countP (fun x => decide (x ≤ p50)) ∧
    latencies.length ≤ 2 * latencies.countP (fun x => decide (p50 ≤ x))
  twentieths : latencies.length ≤ 2 ^ 49 →
    19 * (latencies.length - 1) ≤ 20 * latencies.countP (fun x => decide (x ≤ p95)) ∧
    latencies.length - 1 ≤ 20 * latencies.countP (fun x => decide (p95 ≤ x))

/-- Up to this length the roundings of a rank move it by less than three quarters. -/
theorem rank_near (hn : 0 < n) (hlen : n ≤ 2 ^ 49) (hq : 0 ≤ q) (h1 : q ≤ 1) :
    q * (n - 1) - 25 / 32 ≤ rank n q ∧ (rank n q : ℚ) ≤ q * (n - 1) + 25 / 32 := by
  have close := abs_le.mp (rank_close hn hq h1)
  have step : (2 : ℚ) ^ (-1075 : ℤ) ≤ 2 ^ (-7 : ℤ) := zpow_le_zpow_right₀ one_le_two (by decide)
  have bound : (2 : ℚ) ^ (-7 : ℤ) = 1 / 128 := by norm_num
  have short : (n : ℚ) ≤ 2 ^ 49 := by exact_mod_cast hlen
  rw [bound] at step
  generalize (2 : ℚ) ^ (-1075 : ℤ) = e at *
  constructor <;> linarith [close.1, close.2]

theorem half_counts {l : List ℕ} {a i : ℕ} (hs : l.Pairwise (· ≤ ·)) (hlen : l.length ≤ 2 ^ 49)
    (ha : l[i]? = some a) (hi : (i : ℤ) = rank l.length half) :
    l.length ≤ 2 * l.countP (fun x => decide (x ≤ a)) ∧
      l.length ≤ 2 * l.countP (fun x => decide (a ≤ x)) := by
  have hn : 0 < l.length := Nat.zero_lt_of_lt (List.getElem?_eq_some_iff.mp ha).1
  obtain ⟨least, most⟩ := rank_near (q := half) hn hlen (by norm_num [half]) (by norm_num [half])
  obtain ⟨below, above⟩ := counts_at hs ha
  rw [← hi, half] at least most
  push_cast at least most
  have low : (l.length : ℚ) - 3 < 2 * i := by linarith
  have high : 2 * (i : ℚ) < l.length + 1 := by linarith
  have low' : l.length < 2 * i + 3 := by
    have : (l.length : ℚ) < 2 * i + 3 := by linarith
    exact_mod_cast this
  have high' : 2 * i < l.length + 1 := by exact_mod_cast high
  omega

theorem most_counts {l : List ℕ} {b i : ℕ} (hs : l.Pairwise (· ≤ ·)) (hlen : l.length ≤ 2 ^ 49)
    (hb : l[i]? = some b) (hi : (i : ℤ) = rank l.length most) :
    19 * (l.length - 1) ≤ 20 * l.countP (fun x => decide (x ≤ b)) ∧
      l.length - 1 ≤ 20 * l.countP (fun x => decide (b ≤ x)) := by
  have hn : 0 < l.length := Nat.zero_lt_of_lt (List.getElem?_eq_some_iff.mp hb).1
  obtain ⟨least, greatest⟩ :=
    rank_near (q := most) hn hlen (by norm_num [most]) (by norm_num [most])
  obtain ⟨below, above⟩ := counts_at hs hb
  have short : (l.length : ℚ) ≤ 2 ^ 49 := by exact_mod_cast hlen
  rw [← hi, most] at least greatest
  push_cast at least greatest
  have low : 19 * (l.length : ℚ) < 20 * i + 39 := by linarith
  have high : 20 * (i : ℚ) < 19 * l.length + 1 := by linarith
  have low' : 19 * l.length < 20 * i + 39 := by exact_mod_cast low
  have high' : 20 * i < 19 * l.length + 1 := by exact_mod_cast high
  omega

/-- The snapshot never fails on the latencies, and what it calls their median, their 95th
percentile and their maximum is just that. -/
theorem latencies_summarised (m : RuntimeInstrumentation) :
    ∃ s, latencySnapshot m = .ok s ∧ s.last = m.lastLatency ∧
      (m.latencies = [] → s.p50 = none ∧ s.p95 = none ∧ s.max = none) ∧
      (m.latencies ≠ [] → ∃ a b c, s.p50 = some a ∧ s.p95 = some b ∧ s.max = some c ∧
        Summary m.latencies a b c) := by
  by_cases hne : m.latencies = []
  · refine ⟨{ last := m.lastLatency, p50 := none, p95 := none, max := none }, ?_, rfl,
      fun _ => ⟨rfl, rfl, rfl⟩, fun h => absurd hne h⟩
    unfold latencySnapshot
    rw [hne]
    rfl
  · have perm := List.perm_insertionSort (· ≤ ·) m.latencies
    have sorted : (m.latencies.insertionSort (· ≤ ·)).Pairwise (· ≤ ·) :=
      List.pairwise_insertionSort (· ≤ ·) m.latencies
    have length := perm.length_eq
    have unchanged (p : ℕ → Bool) := perm.countP_eq p
    have found : latencySnapshot m = (do
        let p50 ← percentile (m.latencies.insertionSort (· ≤ ·)) half
        let p95 ← percentile (m.latencies.insertionSort (· ≤ ·)) most
        return ⟨m.lastLatency, p50, p95, (m.latencies.insertionSort (· ≤ ·)).getLast?⟩) := rfl
    have inside {k x : ℕ} (h : (m.latencies.insertionSort (· ≤ ·))[k]? = some x) :
        x ∈ m.latencies := perm.mem_iff.mp (List.mem_of_getElem? h)
    have nonempty : m.latencies.insertionSort (· ≤ ·) ≠ [] := fun h =>
      hne (List.nil_perm.mp (h ▸ perm))
    have outside : ∀ x ∈ m.latencies, ∃ k, (m.latencies.insertionSort (· ≤ ·))[k]? = some x :=
      fun x hx => List.mem_iff_getElem?.mp (perm.mem_iff.mpr hx)
    generalize m.latencies.insertionSort (· ≤ ·) = l at *
    have pos : 0 < l.length := List.length_pos_iff.mpr nonempty
    obtain ⟨i, a, ha, hai, hi⟩ := percentile_item (q := half) nonempty (by norm_num [half])
      (by norm_num [half]) (.inr (by norm_num [half]))
    obtain ⟨j, b, hb, hbj, hj⟩ := percentile_item (q := most) nonempty (by norm_num [most])
      (by norm_num [most]) (.inr (by norm_num [most]))
    have ranks : i ≤ j := by
      have := rank_mono (q := half) (r := most) pos (by norm_num [half]) (by norm_num [half, most])
      omega
    have hc : l[l.length - 1]? = some (l.getLast nonempty) := by
      rw [← List.getLast?_eq_getElem?, List.getLast?_eq_some_getLast nonempty]
    have last : ∀ {k x : ℕ}, l[k]? = some x → k ≤ l.length - 1 := fun h => by
      have := (List.getElem?_eq_some_iff.mp h).1
      omega
    rw [ha, hb, List.getLast?_eq_some_getLast nonempty] at found
    refine ⟨_, found, rfl, fun h => absurd h hne, fun _ =>
      ⟨a, b, l.getLast nonempty, rfl, rfl, rfl, ?_⟩⟩
    exact {
      observed := ⟨inside hai, inside hbj, inside hc⟩
      ordered := ⟨sorted_le sorted ranks hai hbj, sorted_le sorted (last hbj) hbj hc⟩
      greatest := fun x hx => by
        obtain ⟨k, hk⟩ := outside x hx
        exact sorted_le sorted (last hk) hk hc
      halves := fun hlen => by
        rw [← length, ← unchanged, ← unchanged]
        exact half_counts sorted (length ▸ hlen) hai hi
      twentieths := fun hlen => by
        rw [← length, ← unchanged, ← unchanged]
        exact most_counts sorted (length ▸ hlen) hbj hj }

end Percentiles
