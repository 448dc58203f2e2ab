import Mathlib.Data.Nat.Notation

/-! # Binary heaps whose comparisons may fail

The entries stand in an array, the parent of each at half its position, and are moved by swaps.
A comparison that fails ends the operation and leaves the array as far as it got.
-/

universe u v

namespace BinaryHeap

variable {α : Type u} {ε : Type v} (less : α → α → Except ε Bool)

def parent (pos : ℕ) : ℕ := (pos - 1) / 2

theorem parent_lt {pos : ℕ} (h : 0 < pos) : parent pos < pos := by
  unfold parent
  omega

/-- `newitem`, which stands at `pos`, moves up while it is less than its parent. -/
def siftdown (newitem : α) (heap : Array α) (pos : ℕ) : Except ε Unit × Array α :=
  if _h : 0 < pos then
    match heap[parent pos]? with
    | none => (.ok (), heap)
    | some above =>
      match less newitem above with
      | .error e => (.error e, heap)
      | .ok false => (.ok (), heap)
      | .ok true => siftdown newitem (heap.swapIfInBounds (parent pos) pos) (parent pos)
  else (.ok (), heap)
termination_by pos
decreasing_by exact parent_lt ‹0 < pos›

def heappush (heap : Array α) (a : α) : Except ε Unit × Array α :=
  siftdown less a (heap.push a) heap.size

/-- The entry at `pos` moves down to a leaf, the lesser child moving up each time, and from there
up to its place. -/
def siftup (newitem : α) (heap : Array α) (pos : ℕ) : Except ε Unit × Array α :=
  if 2 * pos + 1 < heap.size then
    match heap[2 * pos + 1]?, heap[2 * pos + 2]? with
    | some left, some right =>
      match less left right with
      | .error e => (.error e, heap)
      | .ok true => siftup newitem (heap.swapIfInBounds (2 * pos + 1) pos) (2 * pos + 1)
      | .ok false => siftup newitem (heap.swapIfInBounds (2 * pos + 2) pos) (2 * pos + 2)
    | _, _ => siftup newitem (heap.swapIfInBounds (2 * pos + 1) pos) (2 * pos + 1)
  else siftdown less newitem heap pos
termination_by heap.size - pos
decreasing_by all_goals (rw [Array.size_swapIfInBounds]; omega)

/-- The least entry, unless a comparison fails: then it is lost. -/
def heappop (heap : Array α) : Option (Except ε α) × Array α :=
  match heap.back? with
  | none => (none, heap)
  | some last =>
    match heap.pop[0]? with
    | none => (some (.ok last), heap.pop)
    | some least =>
      match siftup less last (heap.pop.setIfInBounds 0 last) 0 with
      | (.error e, rest) => (some (.error e), rest)
      | (.ok (), rest) => (some (.ok least), rest)

/-! ## The comparisons of a push -/

/-- The entries from the parent of `pos` up to the root. -/
def ancestors (heap : Array α) (pos : ℕ) : List α :=
  if _h : 0 < pos then (heap[parent pos]?).toList ++ ancestors heap (parent pos) else []
termination_by pos
decreasing_by exact parent_lt ‹0 < pos›

/-- `a` can be compared with each of these until it is not less than one. -/
def Comparable (a : α) : List α → Prop
  | [] => True
  | above :: rest => ∃ b, less a above = .ok b ∧ (b = true → Comparable a rest)

variable {less} {a : α} {heap cur : Array α} {pos : ℕ}

theorem siftdown_root : siftdown less a heap 0 = (.ok (), heap) := by
  rw [siftdown, dif_neg (Nat.lt_irrefl 0)]

theorem ancestors_root : ancestors heap 0 = [] := by
  rw [ancestors, dif_neg (Nat.lt_irrefl 0)]

theorem ancestors_above {above : α} (hp : 0 < pos) (ha : heap[parent pos]? = some above) :
    ancestors heap pos = above :: ancestors heap (parent pos) := by
  rw [ancestors, dif_pos hp, ha]
  exact rfl

/-- The swaps stay below the entries still to be compared. -/
theorem swap_above {i j : ℕ} (hj : j < i) (hi : i ≤ pos) :
    (cur.swapIfInBounds i pos)[j]? = cur[j]? := by
  by_cases hc : j < cur.size
  · rw [Array.getElem?_eq_getElem (by simpa using hc), Array.getElem?_eq_getElem hc,
      Array.getElem_swapIfInBounds]
    rw [dif_neg (by omega), dif_neg (by omega)]
  · rw [Array.getElem?_eq_none (by simpa using hc), Array.getElem?_eq_none (by simpa using hc)]

theorem siftdown_ok_iff (same : ∀ j, j < pos → cur[j]? = heap[j]?) (hs : pos ≤ heap.size) :
    (siftdown less a cur pos).1 = .ok () ↔ Comparable less a (ancestors heap pos) := by
  induction pos using Nat.strongRecOn generalizing cur with
  | ind pos ih =>
    by_cases hp : 0 < pos
    · have hlt := parent_lt hp
      obtain ⟨above, ha⟩ : ∃ above, heap[parent pos]? = some above :=
        ⟨heap[parent pos], Array.getElem?_eq_getElem (by omega)⟩
      rw [ancestors_above hp ha, siftdown, dif_pos hp, same _ hlt, ha]
      dsimp only
      cases hc : less a above with
      | error e => simp [Comparable, hc]
      | ok b =>
        cases b with
        | false => simp [Comparable, hc]
        | true =>
          have rest : ∀ j, j < parent pos →
              (cur.swapIfInBounds (parent pos) pos)[j]? = heap[j]? := by
            intro j hj
            rw [swap_above hj (Nat.le_of_lt hlt), same j (by omega)]
          simp [Comparable, hc, ih _ hlt rest (by omega)]
    · have hz : pos = 0 := by omega
      subst hz
      rw [siftdown_root, ancestors_root]
      exact iff_of_true rfl trivial

theorem siftdown_size : (siftdown less a heap pos).2.size = heap.size := by
  induction pos using Nat.strongRecOn generalizing heap with
  | ind pos ih =>
    rw [siftdown]
    split
    · rename_i hp
      split
      · exact rfl
      · split
        · exact rfl
        · exact rfl
        · rw [ih _ (parent_lt hp), Array.size_swapIfInBounds]
    · exact rfl

theorem heappush_ok_iff (less : α → α → Except ε Bool) (heap : Array α) (a : α) :
    (heappush less heap a).1 = .ok () ↔ Comparable less a (ancestors heap heap.size) := by
  apply siftdown_ok_iff _ (Nat.le_refl _)
  intro j hj
  rw [Array.getElem?_push, if_neg (by omega)]

/-- Whatever the comparisons do, the entry is in the array afterwards. -/
theorem heappush_size (less : α → α → Except ε Bool) (heap : Array α) (a : α) :
    (heappush less heap a).2.size = heap.size + 1 := by
  rw [heappush, siftdown_size, Array.size_push]

end BinaryHeap
