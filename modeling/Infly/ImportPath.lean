import Mathlib.Data.List.Basic

/-! # The import path of a worker process

`_restore_parent_import_path` in `infly/runtime/strategy/process_pool.py`. What the child's
`sys.path` lacks of the parent's is put in front of it.
-/
namespace ImportPath

/-! ## Which entry comes first -/

/-- The first occurrence of `a` comes before that of `b`. -/
def Precedes {α : Type} [DecidableEq α] (l : List α) (a b : α) : Prop := l.idxOf a < l.idxOf b

section Precedence

variable {α : Type} [DecidableEq α] {a b c : α} {l m : List α}

instance : Decidable (Precedes l a b) := inferInstanceAs (Decidable (l.idxOf a < l.idxOf b))

theorem precedes_mem (h : Precedes l a b) : a ∈ l :=
  List.idxOf_lt_length_iff.mp (Nat.lt_of_lt_of_le h List.idxOf_le_length)

theorem Precedes.asymm (h : Precedes l a b) : ¬Precedes l b a := by
  unfold Precedes at *
  omega

theorem precedes_cons (hc : c ≠ a) (hd : c ≠ b) : Precedes (c :: l) a b ↔ Precedes l a b := by
  unfold Precedes
  rw [List.idxOf_cons_ne l hc, List.idxOf_cons_ne l hd]
  omega

theorem precedes_head (hab : a ≠ b) : Precedes (a :: l) a b := by
  unfold Precedes
  rw [List.idxOf_cons_self, List.idxOf_cons_ne l hab]
  omega

theorem precedes_left (ha : a ∈ l) (hb : b ∈ l) : Precedes (l ++ m) a b ↔ Precedes l a b := by
  unfold Precedes
  rw [List.idxOf_append_of_mem ha, List.idxOf_append_of_mem hb]

theorem precedes_across (ha : a ∈ l) (hb : b ∉ l) : Precedes (l ++ m) a b := by
  unfold Precedes
  rw [List.idxOf_append_of_mem ha, List.idxOf_append_of_notMem hb]
  have := List.idxOf_lt_length_of_mem ha
  omega

theorem precedes_right (ha : a ∉ l) (hb : b ∉ l) : Precedes (l ++ m) a b ↔ Precedes m a b := by
  unfold Precedes
  rw [List.idxOf_append_of_notMem ha, List.idxOf_append_of_notMem hb]
  omega

/-- A filter keeps the order of what it keeps. -/
theorem precedes_filter {p : α → Bool} (ha : p a = true) (hb : p b = true) :
    Precedes (l.filter p) a b ↔ Precedes l a b := by
  induction l with
  | nil => rfl
  | cons c l ih =>
    by_cases hca : c = a
    · subst hca
      rw [List.filter_cons_of_pos ha]
      by_cases hcb : c = b
      · subst hcb
        simp [Precedes]
      · exact iff_of_true (precedes_head hcb) (precedes_head hcb)
    · by_cases hcb : c = b
      · subst hcb
        rw [List.filter_cons_of_pos hb]
        have before : ∀ k : List α, ¬Precedes (c :: k) a c := by
          intro k h
          exact h.asymm (precedes_head hca)
        exact iff_of_false (before _) (before _)
      · rw [precedes_cons hca hcb, ← ih]
        by_cases hc : p c = true
        · rw [List.filter_cons_of_pos hc, precedes_cons hca hcb]
        · rw [List.filter_cons_of_neg hc]

end Precedence

/-! ## The function -/

def absoluteEntry (parentCwd entry : String) : String := if entry = "" then parentCwd else entry

def missing (parentCwd : String) (sysPath : List String) : List String → List String
  | [] => []
  | entry :: rest =>
    if absoluteEntry parentCwd entry ∉ sysPath then
      absoluteEntry parentCwd entry :: missing parentCwd sysPath rest
    else missing parentCwd sysPath rest

def restoreParentImportPath (parentSysPath : List String) (parentCwd : String)
    (sysPath : List String) : List String :=
  if missing parentCwd sysPath parentSysPath ≠ [] then
    missing parentCwd sysPath parentSysPath ++ sysPath
  else sysPath

variable {parentSysPath child : List String} {parentCwd : String}

theorem restored (parentSysPath child : List String) (parentCwd : String) :
    restoreParentImportPath parentSysPath parentCwd child =
      missing parentCwd child parentSysPath ++ child := by
  unfold restoreParentImportPath
  split
  · rfl
  · rename_i h
    rw [not_not.mp h]
    rfl

theorem missing_filter (parentSysPath child : List String) (parentCwd : String) :
    missing parentCwd child parentSysPath =
      (parentSysPath.map (absoluteEntry parentCwd)).filter (fun e => decide (e ∉ child)) := by
  induction parentSysPath with
  | nil => rfl
  | cons entry rest ih =>
    unfold missing
    rw [List.map_cons]
    split
    · rename_i h
      rw [List.filter_cons_of_pos (by simpa using h), ih]
    · rename_i h
      rw [List.filter_cons_of_neg (by simpa using h), ih]

theorem mem_missing {e : String} : e ∈ missing parentCwd child parentSysPath ↔
    e ∈ parentSysPath.map (absoluteEntry parentCwd) ∧ e ∉ child := by
  rw [missing_filter, List.mem_filter, decide_eq_true_iff]

theorem mem_restored {e : String} :
    e ∈ restoreParentImportPath parentSysPath parentCwd child ↔
      e ∈ parentSysPath.map (absoluteEntry parentCwd) ∨ e ∈ child := by
  rw [restored, List.mem_append, mem_missing]
  by_cases h : e ∈ child <;> simp [h]

/-- Of two parent entries the first one comes first if the child lacked it; otherwise the child
has to have both, in that order. -/
theorem restored_precedes {e f : String}
    (hf : f ∈ parentSysPath.map (absoluteEntry parentCwd))
    (h : Precedes (parentSysPath.map (absoluteEntry parentCwd)) e f) :
    Precedes (restoreParentImportPath parentSysPath parentCwd child) e f ↔
      (e ∈ child → f ∈ child ∧ Precedes child e f) := by
  rw [restored]
  by_cases he : e ∈ child
  · have heFront : e ∉ missing parentCwd child parentSysPath := fun hm => (mem_missing.mp hm).2 he
    by_cases hfc : f ∈ child
    · have hfFront : f ∉ missing parentCwd child parentSysPath :=
        fun hm => (mem_missing.mp hm).2 hfc
      rw [precedes_right heFront hfFront]
      simp [he, hfc]
    · have hfFront : f ∈ missing parentCwd child parentSysPath := mem_missing.mpr ⟨hf, hfc⟩
      apply iff_of_false
      · exact (precedes_across hfFront heFront).asymm
      · intro hc
        exact hfc (hc he).1
  · have heFront : e ∈ missing parentCwd child parentSysPath :=
      mem_missing.mpr ⟨precedes_mem h, he⟩
    apply iff_of_true
    · by_cases hfc : f ∈ child
      · have hfFront : f ∉ missing parentCwd child parentSysPath :=
          fun hm => (mem_missing.mp hm).2 hfc
        exact precedes_across heFront hfFront
      · have hfFront : f ∈ missing parentCwd child parentSysPath := mem_missing.mpr ⟨hf, hfc⟩
        rw [precedes_left heFront hfFront, missing_filter]
        exact (precedes_filter (by simpa using he) (by simpa using hfc)).mpr h
    · intro hc
      exact absurd hc he

theorem restored_others (parentSysPath child : List String) (parentCwd : String) :
    (restoreParentImportPath parentSysPath parentCwd child).filter
        (fun e => decide (e ∉ parentSysPath.map (absoluteEntry parentCwd))) =
      child.filter (fun e => decide (e ∉ parentSysPath.map (absoluteEntry parentCwd))) := by
  rw [restored, List.filter_append]
  have front : (missing parentCwd child parentSysPath).filter
      (fun e => decide (e ∉ parentSysPath.map (absoluteEntry parentCwd))) = [] := by
    rw [List.filter_eq_nil_iff]
    intro e he
    simpa using (mem_missing.mp he).1
  rw [front, List.nil_append]

theorem restored_again (parentSysPath child : List String) (parentCwd : String) :
    restoreParentImportPath parentSysPath parentCwd
        (restoreParentImportPath parentSysPath parentCwd child) =
      restoreParentImportPath parentSysPath parentCwd child := by
  have front : missing parentCwd (restoreParentImportPath parentSysPath parentCwd child)
      parentSysPath = [] := by
    rw [missing_filter, List.filter_eq_nil_iff]
    intro e he
    simpa using mem_restored.mpr (.inl he)
  rw [restored, front, List.nil_append]

/-- Every parent entry gets into the child's path, those that the child lacked in front of the
others and in the parent's order; the child's own entries keep their order, and a second call
changes nothing. -/
theorem import_path_restored (parentSysPath child : List String) (parentCwd : String) :
    (∀ e ∈ parentSysPath.map (absoluteEntry parentCwd),
      e ∈ restoreParentImportPath parentSysPath parentCwd child) ∧
    (∀ e f, e ≠ f → f ∈ parentSysPath.map (absoluteEntry parentCwd) →
      Precedes (parentSysPath.map (absoluteEntry parentCwd)) e f →
      (Precedes (restoreParentImportPath parentSysPath parentCwd child) e f ↔
        (e ∈ child → f ∈ child ∧ Precedes child e f))) ∧
    (restoreParentImportPath parentSysPath parentCwd child).filter
        (fun e => decide (e ∉ parentSysPath.map (absoluteEntry parentCwd))) =
      child.filter (fun e => decide (e ∉ parentSysPath.map (absoluteEntry parentCwd))) ∧
    restoreParentImportPath parentSysPath parentCwd
        (restoreParentImportPath parentSysPath parentCwd child) =
      restoreParentImportPath parentSysPath parentCwd child := by
  refine ⟨?_, ?_, restored_others parentSysPath child parentCwd,
    restored_again parentSysPath child parentCwd⟩
  · intro e he
    exact mem_restored.mpr (.inl he)
  · intro e f _ hf h
    exact restored_precedes hf h

/-- The child has the parent's second entry already. -/
theorem second_entry_first :
    Precedes (["a", "b"].map (absoluteEntry "/")) "a" "b" ∧
      Precedes (restoreParentImportPath ["a", "b"] "/" ["a", "c"]) "b" "a" := by decide

end ImportPath
