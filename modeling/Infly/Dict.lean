import Mathlib.Data.List.Basic
import Mathlib.Data.List.Nodup
import Mathlib.Data.List.Perm.Subperm

/-! # Insertion-ordered dictionaries

Assignment to a present key keeps its position, assignment to a new key appends.
Keys are unique by construction, so lookups and the entry list say the same thing.
-/

universe u v

structure Dict (κ : Type u) (ν : Type v) where
  entries : List (κ × ν)
  nodup : (entries.map Prod.fst).Nodup

namespace Dict

variable {κ : Type u} {ν : Type v}

def keys (d : Dict κ ν) : List κ := d.entries.map Prod.fst
def values (d : Dict κ ν) : List ν := d.entries.map Prod.snd
def empty : Dict κ ν := ⟨[], List.nodup_nil⟩

instance : Inhabited (Dict κ ν) := ⟨empty⟩

theorem ext_entries {d e : Dict κ ν} (h : d.entries = e.entries) : d = e := by
  cases d; cases e; cases h; rfl

theorem keys_nodup (d : Dict κ ν) : d.keys.Nodup := d.nodup

def filter (d : Dict κ ν) (p : κ → ν → Bool) : Dict κ ν where
  entries := d.entries.filter (fun e => p e.1 e.2)
  nodup := d.nodup.sublist (List.filter_sublist.map _)

@[simp] theorem entries_empty : (empty : Dict κ ν).entries = [] := rfl
@[simp] theorem keys_empty : (empty : Dict κ ν).keys = [] := rfl
@[simp] theorem values_empty : (empty : Dict κ ν).values = [] := rfl

theorem entries_filter (d : Dict κ ν) (p : κ → ν → Bool) :
    (d.filter p).entries = d.entries.filter (fun e => p e.1 e.2) := rfl

private theorem nodup_append_new (d : Dict κ ν) {k : κ} (h : k ∉ d.keys) (v : ν) :
    ((d.entries ++ [(k, v)]).map Prod.fst).Nodup := by
  rw [List.map_append, List.nodup_append]
  refine ⟨d.nodup, List.nodup_singleton _, ?_⟩
  intro a ha b hb
  have hbk : b = k := by simpa using hb
  subst hbk
  exact fun he => h (he ▸ ha)

variable [DecidableEq κ]

private theorem map_fst_replace (l : List (κ × ν)) (k : κ) (v : ν) :
    (l.map (fun e => if e.1 = k then (k, v) else e)).map Prod.fst = l.map Prod.fst := by
  rw [List.map_map]
  apply List.map_congr_left
  intro e _
  by_cases h : e.1 = k <;> simp [h]

def get? (d : Dict κ ν) (k : κ) : Option ν :=
  (d.entries.find? (fun e => decide (e.1 = k))).map Prod.snd

def contains (d : Dict κ ν) (k : κ) : Bool := (d.get? k).isSome

def pop (d : Dict κ ν) (k : κ) : Dict κ ν := d.filter (fun j _ => decide (j ≠ k))

def set (d : Dict κ ν) (k : κ) (v : ν) : Dict κ ν :=
  if h : k ∈ d.keys then
    ⟨d.entries.map (fun e => if e.1 = k then (k, v) else e), by
      rw [map_fst_replace]; exact d.nodup⟩
  else ⟨d.entries ++ [(k, v)], nodup_append_new d h v⟩

theorem get?_eq_some {d : Dict κ ν} {k : κ} {v : ν} :
    d.get? k = some v ↔ (k, v) ∈ d.entries := by
  constructor
  · intro h
    obtain ⟨e, he, rfl⟩ := Option.map_eq_some_iff.mp h
    have hk : e.1 = k := by simpa using List.find?_some he
    subst hk
    exact List.mem_of_find?_eq_some he
  · intro h
    unfold get?
    cases hf : d.entries.find? (fun e => decide (e.1 = k)) with
    | none =>
      have := List.find?_eq_none.mp hf (k, v) h
      simp at this
    | some e =>
      have hk : e.1 = k := by simpa using List.find?_some hf
      have he : e = (k, v) :=
        List.inj_on_of_nodup_map d.nodup (List.mem_of_find?_eq_some hf) h hk
      simp [he]

theorem mem_keys {d : Dict κ ν} {k : κ} : k ∈ d.keys ↔ ∃ v, d.get? k = some v := by
  simp only [keys, List.mem_map, get?_eq_some, Prod.exists, exists_and_right, exists_eq_right]

theorem mem_values {d : Dict κ ν} {v : ν} : v ∈ d.values ↔ ∃ k, d.get? k = some v := by
  simp only [values, List.mem_map, get?_eq_some, Prod.exists, exists_eq_right]

theorem get?_eq_none {d : Dict κ ν} {k : κ} : d.get? k = none ↔ k ∉ d.keys := by
  rw [mem_keys, ← Option.not_isSome_iff_eq_none, Option.isSome_iff_exists]

theorem contains_iff {d : Dict κ ν} {k : κ} : d.contains k = true ↔ k ∈ d.keys := by
  rw [contains, Option.isSome_iff_exists, mem_keys]

@[simp] theorem get?_empty (k : κ) : (empty : Dict κ ν).get? k = none := rfl

theorem get?_filter (d : Dict κ ν) (p : κ → ν → Bool) (k : κ) :
    (d.filter p).get? k = (d.get? k).filter (p k) := by
  ext v
  rw [get?_eq_some, entries_filter, List.mem_filter, ← get?_eq_some, Option.mem_def.symm,
    Option.mem_def, Option.filter_eq_some_iff]

@[simp] theorem get?_pop (d : Dict κ ν) (k j : κ) :
    (d.pop k).get? j = if j = k then none else d.get? j := by
  rw [pop, get?_filter]
  by_cases h : j = k
  · cases hd : d.get? j <;> simp [h]
  · cases hd : d.get? j <;> simp [h]

@[simp] theorem get?_set (d : Dict κ ν) (k : κ) (v : ν) (j : κ) :
    (d.set k v).get? j = if j = k then some v else d.get? j := by
  ext w
  rw [get?_eq_some]
  by_cases hk : k ∈ d.keys
  · simp only [set, hk, ↓reduceDIte, List.mem_map]
    by_cases hj : j = k
    · subst hj
      obtain ⟨u, hu⟩ := mem_keys.mp hk
      simp only [↓reduceIte, Option.some.injEq]
      constructor
      · rintro ⟨e, _, he⟩
        split at he
        · exact (Prod.mk.inj he).2
        · rename_i hne
          exact absurd (congrArg Prod.fst he) hne
      · rintro rfl
        exact ⟨(j, u), get?_eq_some.mp hu, by simp⟩
    · rw [if_neg hj, get?_eq_some]
      constructor
      · rintro ⟨e, hm, he⟩
        split at he
        · exact absurd (Prod.mk.inj he).1.symm hj
        · exact he ▸ hm
      · intro h
        exact ⟨(j, w), h, by simp [hj]⟩
  · simp only [set, hk, ↓reduceDIte, List.mem_append, List.mem_singleton, Prod.mk.injEq,
      ← get?_eq_some]
    by_cases hj : j = k
    · subst hj
      simp [get?_eq_none.mpr hk, eq_comm]
    · simp [hj]

theorem set_entries_new {d : Dict κ ν} {k : κ} (h : d.get? k = none) (v : ν) :
    (d.set k v).entries = d.entries ++ [(k, v)] := by
  simp [set, get?_eq_none.mp h]

theorem keys_set_new {d : Dict κ ν} {k : κ} (h : d.get? k = none) (v : ν) :
    (d.set k v).keys = d.keys ++ [k] := by simp [keys, set_entries_new h]

theorem values_set_new {d : Dict κ ν} {k : κ} (h : d.get? k = none) (v : ν) :
    (d.set k v).values = d.values ++ [v] := by simp [values, set_entries_new h]

theorem keys_pop (d : Dict κ ν) (k : κ) :
    (d.pop k).keys = d.keys.filter (fun j => decide (j ≠ k)) := by
  simp only [keys, pop, filter, List.filter_map]
  rfl

/-- Undoing the assignment of a new key restores the dictionary. -/
theorem pop_set_new {d : Dict κ ν} {k : κ} (h : d.get? k = none) (v : ν) :
    (d.set k v).pop k = d := by
  apply ext_entries
  have hk := get?_eq_none.mp h
  have kept : d.entries.filter (fun e => decide (e.1 ≠ k)) = d.entries :=
    List.filter_eq_self.mpr fun e he => by
      simpa using fun hek : e.1 = k => hk (hek ▸ List.mem_map_of_mem he)
  rw [pop, entries_filter, set_entries_new h, List.filter_append, kept]
  simp

@[simp] theorem mem_keys_set {d : Dict κ ν} {k : κ} {v : ν} {j : κ} :
    j ∈ (d.set k v).keys ↔ j = k ∨ j ∈ d.keys := by
  simp only [mem_keys, get?_set]
  by_cases h : j = k <;> simp [h]

@[simp] theorem mem_keys_pop {d : Dict κ ν} {k j : κ} :
    j ∈ (d.pop k).keys ↔ j ≠ k ∧ j ∈ d.keys := by
  simp only [mem_keys, get?_pop]
  by_cases h : j = k <;> simp [h]

/-- With distinct values, a value belongs to one key. -/
theorem length_values_le {d e : Dict κ ν} (h : ∀ k v, e.get? k = some v → d.get? k = some v) :
    e.values.length ≤ d.values.length := by
  have hn : e.entries.Nodup := List.Nodup.of_map _ e.nodup
  have hsub : e.entries ⊆ d.entries := by
    rintro ⟨k, v⟩ hm
    exact get?_eq_some.mp (h k v (get?_eq_some.mpr hm))
  simpa [values] using (List.subperm_of_subset hn hsub).length_le

theorem key_unique {d : Dict κ ν} (hn : d.values.Nodup) {k j : κ} {v : ν}
    (hk : d.get? k = some v) (hj : d.get? j = some v) : k = j :=
  congrArg Prod.fst
    (List.inj_on_of_nodup_map hn (get?_eq_some.mp hk) (get?_eq_some.mp hj) rfl)

omit [DecidableEq κ] in
theorem values_nodup_filter {d : Dict κ ν} (hn : d.values.Nodup) (p : κ → ν → Bool) :
    (d.filter p).values.Nodup :=
  hn.sublist (List.filter_sublist.map _)

section SetAll

variable {α : Type*} (key : α → κ) (val : α → ν)

/-- Assigning one entry after another, as `dict.update` does. -/
def setAll (d : Dict κ ν) (l : List α) : Dict κ ν := l.foldl (fun d a => d.set (key a) (val a)) d

variable {key val}

theorem setAll_congr {key' : α → κ} {l : List α} (h : ∀ a ∈ l, key a = key' a) (d : Dict κ ν) :
    d.setAll key val l = d.setAll key' val l := by
  induction l generalizing d with
  | nil => rfl
  | cons a l ih =>
    rw [setAll, setAll, List.foldl_cons, List.foldl_cons, h a (List.mem_cons_self ..)]
    exact ih (fun b hb => h b (List.mem_cons_of_mem _ hb)) _

theorem get?_setAll_of_notMem {d : Dict κ ν} {l : List α} {k : κ} (h : k ∉ l.map key) :
    (d.setAll key val l).get? k = d.get? k := by
  induction l generalizing d with
  | nil => rfl
  | cons a l ih =>
    simp only [List.map_cons, List.mem_cons, not_or] at h
    rw [setAll, List.foldl_cons]
    exact (ih h.2).trans (by simp [h.1])

theorem get?_setAll_of_mem {d : Dict κ ν} {l : List α} {a : α} (h : a ∈ l)
    (hn : (l.map key).Nodup) : (d.setAll key val l).get? (key a) = some (val a) := by
  induction l generalizing d with
  | nil => cases h
  | cons b l ih =>
    simp only [List.map_cons, List.nodup_cons] at hn
    rcases List.mem_cons.mp h with rfl | h
    · rw [setAll, List.foldl_cons]
      exact (get?_setAll_of_notMem hn.1).trans (by simp)
    · exact ih h hn.2

theorem get?_setAll_some {d : Dict κ ν} {l : List α} {k : κ} {v : ν}
    (h : (d.setAll key val l).get? k = some v) :
    d.get? k = some v ∨ ∃ a ∈ l, key a = k ∧ val a = v := by
  induction l generalizing d with
  | nil => exact Or.inl h
  | cons a l ih =>
    rw [setAll, List.foldl_cons] at h
    rcases ih h with h | ⟨b, hb, e⟩
    · rw [get?_set] at h
      split_ifs at h with e
      · cases h
        exact Or.inr ⟨a, List.mem_cons_self, e.symm, rfl⟩
      · exact Or.inl h
    · exact Or.inr ⟨b, List.mem_cons_of_mem _ hb, e⟩

theorem mem_keys_setAll {d : Dict κ ν} {l : List α} {k : κ}
    (h : k ∈ d.keys ∨ k ∈ l.map key) : k ∈ (d.setAll key val l).keys := by
  induction l generalizing d with
  | nil =>
    rcases h with h | h
    · exact h
    · exact absurd h List.not_mem_nil
  | cons a l ih =>
    rw [setAll, List.foldl_cons]
    apply ih
    rw [mem_keys_set]
    rw [List.map_cons, List.mem_cons] at h
    tauto

theorem entries_setAll_new {d : Dict κ ν} {l : List α} (hn : (l.map key).Nodup)
    (h : ∀ a ∈ l, key a ∉ d.keys) :
    (d.setAll key val l).entries = d.entries ++ l.map (fun a => (key a, val a)) := by
  induction l generalizing d with
  | nil => exact (List.append_nil _).symm
  | cons a l ih =>
    rw [List.map_cons, List.nodup_cons] at hn
    have absent : d.get? (key a) = none := get?_eq_none.mpr (h a List.mem_cons_self)
    rw [setAll, List.foldl_cons]
    refine (ih hn.2 ?_).trans ?_
    · intro b hb hk
      rcases mem_keys_set.mp hk with e | hk
      · exact hn.1 (e ▸ List.mem_map_of_mem hb)
      · exact h b (List.mem_cons_of_mem _ hb) hk
    · rw [set_entries_new absent, List.append_assoc]
      rfl

end SetAll

section Related

variable {μ : Type*} {R : ν → μ → Prop}

/-- The same keys in the same order, with related values. -/
def Related (R : ν → μ → Prop) (d : Dict κ ν) (e : Dict κ μ) : Prop :=
  List.Forall₂ (fun a b => a.1 = b.1 ∧ R a.2 b.2) d.entries e.entries

omit [DecidableEq κ] in
theorem Related.keys {d : Dict κ ν} {e : Dict κ μ} (h : Related R d e) : d.keys = e.keys := by
  unfold Related at h
  unfold Dict.keys
  generalize d.entries = l at h
  generalize e.entries = m at h
  induction h with
  | nil => rfl
  | cons h _ ih => rw [List.map_cons, List.map_cons, h.1, ih]

theorem Related.set {d : Dict κ ν} {e : Dict κ μ} (h : Related R d e) {k : κ} {v : ν} {w : μ}
    (hv : R v w) : Related R (d.set k v) (e.set k w) := by
  have keys := h.keys
  unfold Dict.set
  by_cases hk : k ∈ d.keys
  · rw [dif_pos hk, dif_pos (keys ▸ hk)]
    refine List.forall₂_map_left_iff.mpr (List.forall₂_map_right_iff.mpr (h.imp ?_))
    intro a b hab
    rw [← hab.1]
    by_cases e : a.1 = k
    · rw [if_pos e, if_pos e]
      exact ⟨rfl, hv⟩
    · rw [if_neg e, if_neg e]
      exact hab
  · rw [dif_neg hk, dif_neg (keys ▸ hk)]
    exact List.rel_append h (List.Forall₂.cons ⟨rfl, hv⟩ List.Forall₂.nil)

theorem related_setAll {α β : Type*} {key : α → κ} {val : α → ν} {key' : β → κ} {val' : β → μ}
    {l : List α} {m : List β} {d : Dict κ ν} {e : Dict κ μ}
    (h : List.Forall₂ (fun a b => key a = key' b ∧ R (val a) (val' b)) l m) (hd : Related R d e) :
    Related R (d.setAll key val l) (e.setAll key' val' m) := by
  induction h generalizing d e with
  | nil => exact hd
  | cons hab _ ih =>
    rw [setAll, setAll, List.foldl_cons, List.foldl_cons, ← hab.1]
    exact ih (hd.set hab.2)

theorem Related.get? {d : Dict κ ν} {e : Dict κ μ} (h : Related R d e) {k : κ} {v : ν} {w : μ}
    (hv : d.get? k = some v) (hw : e.get? k = some w) : R v w := by
  have hv := get?_eq_some.mp hv
  have hw := get?_eq_some.mp hw
  have hd := d.nodup
  have he := e.nodup
  unfold Related at h
  revert hv hw hd he
  generalize d.entries = l at h
  generalize e.entries = m at h
  intro hv hw hd he
  induction h with
  | nil => exact absurd hv List.not_mem_nil
  | @cons a b l m hab rest ih =>
    rw [List.map_cons, List.nodup_cons] at hd he
    rcases List.mem_cons.mp hv with rfl | hv
    · rcases List.mem_cons.mp hw with rfl | hw
      · exact hab.2
      · exact absurd (List.mem_map.mpr ⟨_, hw, hab.1⟩) he.1
    · rcases List.mem_cons.mp hw with rfl | hw
      · exact absurd (List.mem_map.mpr ⟨_, hv, hab.1.symm⟩) hd.1
      · exact ih hv hw hd.2 he.2

end Related

section Counting

variable [BEq ν]

theorem count_values_set_new {d : Dict κ ν} {k : κ} (h : d.get? k = none) (v a : ν) :
    (d.set k v).values.count a = d.values.count a + if v == a then 1 else 0 := by
  rw [values_set_new h, List.count_append, List.count_singleton]

theorem count_values_pop {d : Dict κ ν} {k : κ} {v : ν} (h : d.get? k = some v) (a : ν) :
    (d.pop k).values.count a + (if v == a then 1 else 0) = d.values.count a := by
  obtain ⟨l₁, l₂, hl⟩ := List.append_of_mem (get?_eq_some.mp h)
  have hn := d.nodup
  rw [hl] at hn
  simp only [List.map_append, List.map_cons, List.nodup_append, List.nodup_cons, List.mem_map,
    List.mem_cons] at hn
  have side : ∀ l : List (κ × ν), (∀ e ∈ l, e.1 ≠ k) →
      l.filter (fun e => decide (e.1 ≠ k)) = l := fun l hl =>
    List.filter_eq_self.mpr fun e he => by simpa using hl e he
  have h₁ := side l₁ fun e he hk => hn.2.2 e.1 ⟨e, he, rfl⟩ k (Or.inl rfl) hk
  have h₂ := side l₂ fun e he hk => hn.2.1.1 ⟨e, he, hk⟩
  simp only [values, pop, filter, hl, List.filter_append, List.filter_cons, h₁, h₂]
  simp only [ne_eq, not_true_eq_false, decide_false, Bool.false_eq_true, ↓reduceIte,
    List.map_append, List.map_cons, List.count_append, List.count_cons]
  omega

variable [LawfulBEq ν] [DecidableEq ν]

theorem count_values_filter_self (d : Dict κ ν) (a : ν) :
    (d.filter (fun _ v => decide (v ≠ a))).values.count a = 0 := by
  rw [List.count_eq_zero, mem_values]
  rintro ⟨k, hk⟩
  rw [get?_filter, Option.filter_eq_some_iff] at hk
  simp at hk

omit [DecidableEq κ] in
theorem count_values_filter_of_ne (d : Dict κ ν) {a b : ν} (h : b ≠ a) :
    (d.filter (fun _ v => decide (v ≠ a))).values.count b = d.values.count b := by
  simp only [values, entries_filter]
  induction d.entries with
  | nil => rfl
  | cons e l ih =>
    by_cases he : e.2 = a
    · have hb : ¬ e.2 = b := fun hb => h (hb ▸ he)
      simpa [he, Ne.symm h] using ih
    · simp only [List.filter_cons, ne_eq, he, not_false_eq_true, decide_true, ↓reduceIte,
        List.map_cons, List.count_cons] at ih ⊢
      rw [ih]

end Counting

end Dict
