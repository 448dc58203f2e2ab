import Infly.CacheKey

/-! # The texts of scalars

`json.dumps` writes no two scalars alike, given that floats have texts of their own; so it tells
trees with their keys in order apart.
-/
namespace CacheTexts

open CacheKey
open JsonText (Json Ordered Follows Delimited Tokens quote quoteMark)

abbrev IntChar (c : Char) : Prop := c.isDigit = true ∨ c = '-'

/-- How `float.__repr__` and `json` write floats: no two alike, none like an integer, in digits,
signs, a point, an exponent or the letters of `Infinity` and `NaN`. -/
structure FloatTexts (floatstr : PyFloat → String) : Prop where
  injective : ∀ x y, floatstr x = floatstr y → x = y
  characters : ∀ x, ∀ c ∈ (floatstr x).toList,
    IntChar c ∨ c ∈ ['+', '.', 'e', 'I', 'n', 'f', 'i', 't', 'y', 'N', 'a']
  pointed : ∀ x, ∃ c ∈ (floatstr x).toList, ¬ IntChar c

/-! ## Integers -/

theorem nat_text_chars {n : ℕ} {c : Char} (h : c ∈ n.repr.toList) : c.isDigit = true := by
  rw [Nat.toList_repr] at h
  exact Nat.isDigit_of_mem_toDigits (by decide) (by decide) h

theorem nat_text_injective {m n : ℕ} (h : m.repr.toList = n.repr.toList) : m = n := by
  rw [Nat.toList_repr, Nat.toList_repr] at h
  rw [← Nat.ofDigitChars_toDigits (b := 10) (n := m) (by decide) (by decide), h,
    Nat.ofDigitChars_toDigits (by decide) (by decide)]

theorem negative_text (n : ℕ) : (Int.negSucc n).repr.toList = '-' :: (n + 1).repr.toList := by
  change ("-" ++ (n + 1).repr).toList = _
  rw [String.toList_append]
  rfl

theorem int_text_chars {n : ℤ} {c : Char} (h : c ∈ n.repr.toList) : IntChar c := by
  cases n with
  | ofNat m => exact Or.inl (nat_text_chars h)
  | negSucc m =>
    rw [negative_text] at h
    rcases List.mem_cons.mp h with h | h
    · exact Or.inr h
    · exact Or.inl (nat_text_chars h)

theorem int_text_nonempty (n : ℤ) : n.repr.toList ≠ [] := by
  cases n with
  | ofNat m =>
    change m.repr.toList ≠ []
    rw [Nat.toList_repr]
    exact Nat.toDigits_ne_nil
  | negSucc m =>
    rw [negative_text]
    exact List.cons_ne_nil _ _

theorem nat_text_not_negative {m : ℕ} {rest : List Char} : m.repr.toList ≠ '-' :: rest := by
  intro h
  have digit := nat_text_chars (n := m) (c := '-') (by rw [h]; exact List.mem_cons_self)
  exact absurd digit (by decide)

theorem int_text_injective {m n : ℤ} (h : m.repr.toList = n.repr.toList) : m = n := by
  cases m with
  | ofNat a =>
    cases n with
    | ofNat b => rw [nat_text_injective h]
    | negSucc b => exact absurd (h.trans (negative_text b)) nat_text_not_negative
  | negSucc a =>
    cases n with
    | ofNat b => exact absurd (h.symm.trans (negative_text a)) nat_text_not_negative
    | negSucc b =>
      rw [negative_text, negative_text] at h
      rw [Nat.succ.inj (nat_text_injective (List.cons.inj h).2)]

/-! ## Tokens -/

/-- Two texts that hold no delimiter are told apart by what they begin. -/
theorem token_split {u v s t : List Char} (hu : ∀ c ∈ u, c ∉ [',', ']', '}'])
    (hv : ∀ c ∈ v, c ∉ [',', ']', '}']) (hs : Follows s) (ht : Follows t) (h : u ++ s = v ++ t) :
    u = v ∧ s = t := by
  induction u generalizing v with
  | nil =>
    cases v with
    | nil => exact ⟨rfl, h⟩
    | cons d v => exact absurd (hs d _ h) (hv d List.mem_cons_self)
  | cons c u ih =>
    cases v with
    | nil => exact absurd (ht c _ h.symm) (hu c List.mem_cons_self)
    | cons d v =>
      obtain ⟨rfl, after⟩ := List.cons.inj h
      obtain ⟨rfl, e⟩ := ih (fun c hc => hu c (List.mem_cons_of_mem _ hc))
        (fun c hc => hv c (List.mem_cons_of_mem _ hc)) after
      exact ⟨rfl, e⟩

/-- Written without quotes. -/
def Bare (value : Scalar) : Prop := ∀ s, value ≠ .str s

theorem not_bare {value : Scalar} (h : ¬ Bare value) : ∃ s, value = .str s := by
  unfold Bare at h
  push Not at h
  exact h

def structural : List Char := [',', ']', '}', '[', '{', quoteMark]

/-- A check of each character of a text. -/
theorem each_char {l : List Char} {P : Char → Prop} [DecidablePred P]
    (h : l.all (fun c => decide (P c)) = true) : ∀ c ∈ l, P c :=
  fun c hc => of_decide_eq_true (List.all_eq_true.mp h c hc)

theorem int_char_bare {c : Char} (h : IntChar c) : c ∉ structural := by
  have structure_no_int : ∀ c ∈ structural, ¬ IntChar c := each_char (by decide)
  intro k
  exact structure_no_int c k h

theorem int_text_word {n : ℤ} {word : String} {c : Char} (hc : c ∈ word.toList)
    (hno : ¬ IntChar c) : n.repr.toList ≠ word.toList := by
  intro h
  rw [← h] at hc
  exact hno (int_text_chars hc)

section Texts

variable {floatstr : PyFloat → String} (texts : FloatTexts floatstr)

include texts

theorem bare_chars {value : Scalar} (bare : Bare value) :
    ∀ c ∈ Scalar.text floatstr value, c ∉ structural := by
  cases value with
  | none => exact (each_char (by decide) : ∀ c ∈ "null".toList, c ∉ structural)
  | bool value =>
    cases value with
    | false => exact (each_char (by decide) : ∀ c ∈ "false".toList, c ∉ structural)
    | true => exact (each_char (by decide) : ∀ c ∈ "true".toList, c ∉ structural)
  | int n =>
    intro c h
    exact int_char_bare (int_text_chars h)
  | float x =>
    intro c h
    rcases texts.characters x c h with k | k
    · exact int_char_bare k
    · exact (each_char (by decide) : ∀ c ∈ ['+', '.', 'e', 'I', 'n', 'f', 'i', 't', 'y', 'N', 'a'],
        c ∉ structural) c k
  | str s => exact absurd rfl (bare s)

theorem bare_nonempty {value : Scalar} (bare : Bare value) : Scalar.text floatstr value ≠ [] := by
  cases value with
  | none => exact (by decide : "null".toList ≠ [])
  | bool value =>
    cases value with
    | false => exact (by decide : "false".toList ≠ [])
    | true => exact (by decide : "true".toList ≠ [])
  | int n => exact int_text_nonempty n
  | float x =>
    obtain ⟨c, hc, _⟩ := texts.pointed x
    exact List.ne_nil_of_mem hc
  | str s => exact absurd rfl (bare s)

theorem float_text_word {x : PyFloat} {word : String} {c : Char} (hc : c ∈ word.toList)
    (hno : ¬ IntChar c)
    (letter : c ∉ ['+', '.', 'e', 'I', 'n', 'f', 'i', 't', 'y', 'N', 'a']) :
    (floatstr x).toList ≠ word.toList := by
  intro h
  rw [← h] at hc
  rcases texts.characters x c hc with k | k
  · exact hno k
  · exact letter k

theorem float_text_not_int {x : PyFloat} {n : ℤ} : (floatstr x).toList ≠ n.repr.toList := by
  intro h
  obtain ⟨c, hc, hno⟩ := texts.pointed x
  rw [h] at hc
  exact hno (int_text_chars hc)

theorem bare_text_injective {a b : Scalar} (ha : Bare a) (hb : Bare b)
    (h : Scalar.text floatstr a = Scalar.text floatstr b) : a = b := by
  have int_none : ∀ n : ℤ, n.repr.toList ≠ "null".toList :=
    fun n => int_text_word (c := 'u') (by decide) (by decide)
  have int_bool : ∀ (n : ℤ) (v : Bool), n.repr.toList ≠ Scalar.text floatstr (.bool v) := by
    intro n v
    cases v with
    | false => exact int_text_word (c := 'l') (by decide : 'l' ∈ "false".toList) (by decide)
    | true => exact int_text_word (c := 'r') (by decide : 'r' ∈ "true".toList) (by decide)
  have float_none : ∀ x, (floatstr x).toList ≠ "null".toList :=
    fun x => float_text_word texts (c := 'u') (by decide) (by decide) (by decide)
  have float_bool : ∀ x (v : Bool), (floatstr x).toList ≠ Scalar.text floatstr (.bool v) := by
    intro x v
    cases v with
    | false =>
      exact float_text_word texts (by decide : 'l' ∈ "false".toList) (by decide) (by decide)
    | true =>
      exact float_text_word texts (by decide : 'r' ∈ "true".toList) (by decide) (by decide)
  have none_bool : ∀ v : Bool, Scalar.text floatstr .none ≠ Scalar.text floatstr (.bool v) := by
    intro v
    cases v with
    | false => exact (by decide : "null".toList ≠ "false".toList)
    | true => exact (by decide : "null".toList ≠ "true".toList)
  cases a with
  | str s => exact absurd rfl (ha s)
  | none =>
    cases b with
    | str s => exact absurd rfl (hb s)
    | none => rfl
    | bool v => exact absurd h (none_bool v)
    | int n => exact absurd h.symm (int_none n)
    | float x => exact absurd h.symm (float_none x)
  | bool u =>
    cases b with
    | str s => exact absurd rfl (hb s)
    | none => exact absurd h.symm (none_bool u)
    | bool v =>
      cases u <;> cases v
      · rfl
      · exact absurd h (by decide : "false".toList ≠ "true".toList)
      · exact absurd h (by decide : "true".toList ≠ "false".toList)
      · rfl
    | int n => exact absurd h.symm (int_bool n u)
    | float x => exact absurd h.symm (float_bool x u)
  | int m =>
    cases b with
    | str s => exact absurd rfl (hb s)
    | none => exact absurd h (int_none m)
    | bool v => exact absurd h (int_bool m v)
    | int n => rw [int_text_injective h]
    | float x => exact absurd h.symm (float_text_not_int texts)
  | float x =>
    cases b with
    | str s => exact absurd rfl (hb s)
    | none => exact absurd h (float_none x)
    | bool v => exact absurd h (float_bool x v)
    | int n => exact absurd h (float_text_not_int texts)
    | float y => rw [texts.injective x y (String.toList_injective h)]

theorem bare_head {value : Scalar} (bare : Bare value) {s t : List Char} {c : Char}
    (h : Scalar.text floatstr value ++ s = c :: t) : c ∉ structural := by
  cases text : Scalar.text floatstr value with
  | nil => exact absurd text (bare_nonempty texts bare)
  | cons d rest =>
    rw [text] at h
    obtain ⟨rfl, -⟩ := List.cons.inj h
    exact bare_chars texts bare d (by rw [text]; exact List.mem_cons_self)

theorem scalar_tokens : Tokens (Scalar.text floatstr) := by
  have quoted : ∀ {a : String} {value : Scalar} {s t : List Char}, Bare value →
      Scalar.text floatstr (.str a) ++ s ≠ Scalar.text floatstr value ++ t := by
    intro a value s t bare h
    exact bare_head texts bare h.symm (by decide)
  constructor
  · intro value other s t hs ht h
    by_cases hv : Bare value
    · by_cases ho : Bare other
      · have no_delimiter : ∀ {v : Scalar}, Bare v → ∀ c ∈ Scalar.text floatstr v,
            c ∉ [',', ']', '}'] := by
          intro v bare c hc k
          apply bare_chars texts bare c hc
          exact List.mem_append_left ['[', '{', quoteMark] k
        obtain ⟨e, after⟩ := token_split (no_delimiter hv) (no_delimiter ho) hs ht h
        exact ⟨bare_text_injective texts hv ho e, after⟩
      · obtain ⟨b, rfl⟩ := not_bare ho
        exact absurd h.symm (quoted hv)
    · obtain ⟨a, rfl⟩ := not_bare hv
      by_cases ho : Bare other
      · exact absurd h (quoted ho)
      · obtain ⟨b, rfl⟩ := not_bare ho
        obtain ⟨rfl, after⟩ := JsonText.quote_split h
        exact ⟨rfl, after⟩
  · intro value s c t h k
    by_cases hv : Bare value
    · have brackets : ∀ c ∈ ['[', '{', ']', '}'], c ∈ structural :=
        each_char (by decide)
      exact bare_head texts hv h (brackets c k)
    · obtain ⟨a, rfl⟩ := not_bare hv
      rw [← (List.cons.inj h).1] at k
      exact absurd k (by decide)

/-- `json.dumps` is injective on trees with their keys in order. -/
theorem dumps_injective {tree other : Json Scalar} (ordered : Ordered tree)
    (ordered' : Ordered other) (h : dumps floatstr tree = dumps floatstr other) : tree = other :=
  JsonText.text_injective (scalar_tokens texts) ordered ordered' (String.ofList_injective h)

end Texts

/-! ## A way to write floats -/

/-- For samples that hold no fractions; those it writes as numerator and denominator. -/
def sampleFloats : PyFloat → String
  | .finite value => String.ofList (value.num.repr.toList ++ 'e' :: value.den.repr.toList)
  | .negativeZero => "-0.0"
  | .infinity => "Infinity"
  | .negativeInfinity => "-Infinity"
  | .nan => "NaN"

theorem finite_text (value : ℚ) : (sampleFloats (.finite value)).toList =
    value.num.repr.toList ++ 'e' :: value.den.repr.toList := String.toList_ofList

theorem finite_text_injective {x y : ℚ}
    (h : (sampleFloats (.finite x)).toList = (sampleFloats (.finite y)).toList) : x = y := by
  have no_e : ∀ n : ℤ, 'e' ∉ n.repr.toList := fun n h =>
    absurd (int_text_chars h) (by decide)
  have no_e' : ∀ n : ℕ, 'e' ∉ n.repr.toList := fun n h => absurd (nat_text_chars h) (by decide)
  rw [finite_text, finite_text, List.append_cons_inj_of_notMem (no_e _) (no_e' _)] at h
  exact Rat.ext (int_text_injective h.1) (nat_text_injective h.2.2)

theorem finite_text_e (value : ℚ) : 'e' ∈ (sampleFloats (.finite value)).toList := by
  rw [finite_text]
  exact List.mem_append_right _ List.mem_cons_self

theorem sample_texts : FloatTexts sampleFloats := by
  have special : ∀ {x : ℚ} {word : String}, 'e' ∉ word.toList →
      (sampleFloats (.finite x)).toList ≠ word.toList := by
    intro x word no_e h
    rw [← h] at no_e
    exact no_e (finite_text_e x)
  have words : ∀ word ∈ ["-0.0", "Infinity", "-Infinity", "NaN"], ∀ c ∈ word.toList,
      IntChar c ∨ c ∈ ['+', '.', 'e', 'I', 'n', 'f', 'i', 't', 'y', 'N', 'a'] := by
    simp only [List.forall_mem_cons]
    exact ⟨each_char (by decide), each_char (by decide), each_char (by decide),
      each_char (by decide), List.forall_mem_nil _⟩
  constructor
  · intro x y h
    have h := congrArg String.toList h
    cases x with
    | finite a =>
      cases y with
      | finite b => rw [finite_text_injective h]
      | negativeZero | infinity | negativeInfinity | nan =>
        exact absurd h (special (by decide))
    | negativeZero | infinity | negativeInfinity | nan =>
      cases y with
      | finite b => exact absurd h.symm (special (by decide))
      | negativeZero | infinity | negativeInfinity | nan =>
        first | rfl | exact absurd h (by decide)
  · intro x c hc
    cases x with
    | finite a =>
      rw [finite_text] at hc
      rcases List.mem_append.mp hc with hc | hc
      · exact Or.inl (int_text_chars hc)
      · rcases List.mem_cons.mp hc with rfl | hc
        · exact Or.inr (by decide)
        · exact Or.inl (Or.inl (nat_text_chars hc))
    | negativeZero | infinity | negativeInfinity | nan => exact words _ (by decide) c hc
  · intro x
    cases x with
    | finite a => exact ⟨'e', finite_text_e a, by decide⟩
    | negativeZero => exact ⟨'.', by decide, by decide⟩
    | infinity => exact ⟨'I', by decide, by decide⟩
    | negativeInfinity => exact ⟨'I', by decide, by decide⟩
    | nan => exact ⟨'N', by decide, by decide⟩

end CacheTexts
