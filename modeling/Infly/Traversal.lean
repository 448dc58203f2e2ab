import Mathlib.Data.List.Perm.Basic

/-! # Traversals that may raise

What `mapM` in `Except` returns, and facts about lists related item by item.
-/
namespace Traversal

variable {ε α β γ : Type}

theorem bind_ok_iff {x : Except ε α} {f : α → Except ε β} {b : β} :
    x >>= f = .ok b ↔ ∃ a, x = .ok a ∧ f a = .ok b := by
  cases x with
  | error e =>
    constructor
    · intro h
      cases h
    · intro h
      obtain ⟨_, h, _⟩ := h
      cases h
  | ok a =>
    constructor
    · intro h
      exact ⟨a, rfl, h⟩
    · intro h
      obtain ⟨_, e, h⟩ := h
      cases e
      exact h

theorem map_error {x : Except ε α} {f : α → β} {e : ε}
    (h : (x >>= fun a => .ok (f a)) = .error e) : x = .error e := by
  cases x with
  | error _ =>
    cases h
    rfl
  | ok a => cases h

theorem mapM_ok_iff {f : α → Except ε β} {xs : List α} {ys : List β} :
    xs.mapM f = .ok ys ↔ List.Forall₂ (fun x y => f x = .ok y) xs ys := by
  induction xs generalizing ys with
  | nil =>
    rw [List.mapM_nil, List.forall₂_nil_left_iff]
    constructor
    · intro h
      cases h
      rfl
    · intro h
      rw [h]
      rfl
  | cons x xs ih =>
    rw [List.mapM_cons, bind_ok_iff, List.forall₂_cons_left_iff]
    constructor
    · intro h
      obtain ⟨y, hy, h⟩ := h
      obtain ⟨rest, hrest, h⟩ := bind_ok_iff.mp h
      cases h
      exact ⟨y, rest, hy, ih.mp hrest, rfl⟩
    · intro h
      obtain ⟨y, rest, hy, hrest, rfl⟩ := h
      exact ⟨y, hy, bind_ok_iff.mpr ⟨rest, ih.mpr hrest, rfl⟩⟩

/-- A traversal that raises raises what one of its items does. -/
theorem mapM_error {f : α → Except ε β} {xs : List α} {e : ε} (h : xs.mapM f = .error e) :
    ∃ x ∈ xs, f x = .error e := by
  induction xs with
  | nil => cases h
  | cons x xs ih =>
    rw [List.mapM_cons] at h
    cases hx : f x with
    | error raised =>
      rw [hx] at h
      cases h
      exact ⟨x, List.mem_cons_self, hx⟩
    | ok y =>
      rw [hx] at h
      cases hxs : xs.mapM f with
      | error raised =>
        change xs.mapM f >>= _ = _ at h
        rw [hxs] at h
        cases h
        obtain ⟨z, hz, e⟩ := ih hxs
        exact ⟨z, List.mem_cons_of_mem _ hz, e⟩
      | ok ys =>
        change xs.mapM f >>= _ = _ at h
        rw [hxs] at h
        cases h

/-- Two lists related to a third are related to each other. -/
theorem join {S : β → γ → Prop} {T : α → β → Prop} {xs : List α} {ys : List β} {zs : List γ}
    (h : List.Forall₂ (fun x z => ∀ y, S y z → T x y) xs zs) (hy : List.Forall₂ S ys zs) :
    List.Forall₂ T xs ys := by
  induction h generalizing ys with
  | nil =>
    cases hy
    exact List.Forall₂.nil
  | cons h _ ih =>
    cases hy with
    | cons hyz hy => exact List.Forall₂.cons (h _ hyz) (ih hy)

/-- Two lists a third is related to are one, when its items determine theirs. -/
theorem agree {S : α → γ → Prop} {xs : List α} {as bs : List γ}
    (h : List.Forall₂ (fun x a => ∀ b, S x b → a = b) xs as) (hb : List.Forall₂ S xs bs) :
    as = bs := by
  induction h generalizing bs with
  | nil =>
    cases hb
    rfl
  | cons h _ ih =>
    cases hb with
    | cons hxb hb => rw [h _ hxb, ih hb]

/-- Related lists have related lists that agree, when related items do. -/
theorem carry {S : α → γ → Prop} {S' : β → γ → Prop} {xs : List α} {ys : List β} {as bs : List γ}
    (h : List.Forall₂ (fun x y => ∀ a b, S x a → S' y b → a = b) xs ys)
    (ha : List.Forall₂ S xs as) (hb : List.Forall₂ S' ys bs) : as = bs := by
  induction h generalizing as bs with
  | nil =>
    cases ha
    cases hb
    rfl
  | cons h _ ih =>
    cases ha with
    | cons hxa ha =>
      cases hb with
      | cons hyb hb => rw [h _ _ hxa hyb, ih ha hb]

/-- A list related to another is related, rearranged, to its rearrangements. -/
theorem rearrange {R : α → β → Prop} {xs : List α} {ys zs : List β} (h : List.Forall₂ R xs ys)
    (perm : ys.Perm zs) : ∃ ws, xs.Perm ws ∧ List.Forall₂ R ws zs := by
  have flipped : List.Forall₂ (flip R) ys xs := h.flip
  obtain ⟨ws, hws, hperm⟩ := List.perm_comp_forall₂ perm.symm flipped
  exact ⟨ws, hperm.symm, hws.flip⟩

/-- What holds of each item from some number on holds of all of them from some number on. -/
theorem enough_for_all {P : α → ℕ → Prop} {xs : List α}
    (h : ∀ x ∈ xs, ∃ enough, ∀ n, enough ≤ n → P x n) :
    ∃ enough, ∀ n, enough ≤ n → ∀ x ∈ xs, P x n := by
  induction xs with
  | nil => exact ⟨0, fun n _ x hx => absurd hx List.not_mem_nil⟩
  | cons x xs ih =>
    obtain ⟨a, ha⟩ := h x List.mem_cons_self
    obtain ⟨b, hb⟩ := ih (fun y hy => h y (List.mem_cons_of_mem _ hy))
    refine ⟨max a b, ?_⟩
    intro n hn y hy
    rcases List.mem_cons.mp hy with rfl | hy
    · exact ha n (Nat.le_trans (Nat.le_max_left a b) hn)
    · exact hb n (Nat.le_trans (Nat.le_max_right a b) hn) y hy

/-- What the items of one list have, related items of the other have alike. -/
theorem lift {S : α → γ → Prop} {S' : β → γ → Prop} {E : γ → γ → Prop} {xs : List α} {ys : List β}
    {as : List γ} (h : List.Forall₂ (fun x y => ∀ a, S x a → ∃ b, S' y b ∧ E a b) xs ys)
    (ha : List.Forall₂ S xs as) : ∃ bs, List.Forall₂ S' ys bs ∧ List.Forall₂ E as bs := by
  induction h generalizing as with
  | nil =>
    cases ha
    exact ⟨[], List.Forall₂.nil, List.Forall₂.nil⟩
  | cons h _ ih =>
    cases ha with
    | cons hxa ha =>
      obtain ⟨b, hb, e⟩ := h _ hxa
      obtain ⟨bs, hbs, es⟩ := ih ha
      exact ⟨b :: bs, List.Forall₂.cons hb hbs, List.Forall₂.cons e es⟩

end Traversal
