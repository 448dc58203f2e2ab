import Mathlib.Data.List.Sort
import Mathlib.Data.String.Basic

/-! # Compact JSON text with sorted keys

Trees of atoms, arrays and objects and their text: no blanks, members sorted by key, no
character escaped that need not be. A tree whose keys are in order is read off its text.
-/
namespace JsonText

inductive Json (α : Type) where
  | atom (value : α)
  | array (items : List (Json α))
  | object (members : List (String × Json α))

variable {α β : Type}

/-- Induction on trees: the items and the members of a tree come before it. -/
@[elab_as_elim] theorem Json.induct {P : Json α → Prop} (atom : ∀ value, P (.atom value))
    (array : ∀ items, (∀ item ∈ items, P item) → P (.array items))
    (object : ∀ members, (∀ m ∈ members, P m.2) → P (.object members)) (tree : Json α) :
    P tree := by
  refine @Json.rec α P (fun items => ∀ item ∈ items, P item) (fun members => ∀ m ∈ members, P m.2)
    (fun m => P m.2) atom array object ?_ ?_ ?_ ?_ ?_ tree
  · intro item h
    exact absurd h List.not_mem_nil
  · intro first rest hfirst hrest item h
    rcases List.mem_cons.mp h with rfl | h
    · exact hfirst
    · exact hrest item h
  · intro m h
    exact absurd h List.not_mem_nil
  · intro first rest hfirst hrest m h
    rcases List.mem_cons.mp h with rfl | h
    · exact hfirst
    · exact hrest m h
  · intro key value h
    exact h

/-! ## String literals -/

def quoteMark : Char := Char.ofNat 34
def backslash : Char := Char.ofNat 92

/-- The letter of a two-character escape, by code point. -/
def shortEscape : ℕ → Option Char
  | 34 => some quoteMark
  | 92 => some backslash
  | 8 => some 'b'
  | 9 => some 't'
  | 10 => some 'n'
  | 12 => some 'f'
  | 13 => some 'r'
  | _ => none

def hexDigit (n : ℕ) : Char := "0123456789abcdef".toList.getD n '0'

def escape (c : Char) : List Char :=
  match shortEscape c.toNat with
  | some letter => [backslash, letter]
  | none =>
    if c.toNat < 32 then
      [backslash, 'u', '0', '0', hexDigit (c.toNat / 16), hexDigit (c.toNat % 16)]
    else [c]

def quote (s : String) : List Char := quoteMark :: s.toList.flatMap escape ++ [quoteMark]

theorem short_escape_injective {m n : ℕ} {letter : Char} (hm : shortEscape m = some letter)
    (hn : shortEscape n = some letter) : m = n := by
  revert hm hn
  fun_cases shortEscape m <;> fun_cases shortEscape n <;> simp_all [quoteMark, backslash] <;>
    (intro e; subst e; decide)

theorem short_escape_not_u (n : ℕ) : shortEscape n ≠ some 'u' := by
  fun_cases shortEscape n <;> simp [quoteMark, backslash]

theorem hex_digit_injective : ∀ m < 16, ∀ n < 16, hexDigit m = hexDigit n → m = n := by decide

/-- What an escape is: two characters, six, or the character itself. -/
inductive Escaped (c : Char) : List Char → Prop where
  | short (letter : Char) (h : shortEscape c.toNat = some letter) : Escaped c [backslash, letter]
  | control (h : c.toNat < 32) : Escaped c
      [backslash, 'u', '0', '0', hexDigit (c.toNat / 16), hexDigit (c.toNat % 16)]
  | plain (h : shortEscape c.toNat = none) : Escaped c [c]

theorem escape_escaped (c : Char) : Escaped c (escape c) := by
  unfold escape
  split
  · rename_i letter h
    exact Escaped.short letter h
  · rename_i h
    split_ifs with k
    · exact Escaped.control k
    · exact Escaped.plain h

theorem plain_not_backslash {c : Char} (h : shortEscape c.toNat = none) : backslash ≠ c := by
  intro e
  rw [← e] at h
  exact absurd h (by decide)

theorem escape_no_quote {c : Char} {s t : List Char} : escape c ++ s ≠ quoteMark :: t := by
  intro h
  have k := escape_escaped c
  generalize escape c = text at h k
  cases k with
  | short letter _ => exact absurd (List.cons.inj h).1 (by decide)
  | control _ => exact absurd (List.cons.inj h).1 (by decide)
  | plain plain =>
    rw [(List.cons.inj h).1] at plain
    exact absurd plain (by decide)

/-- No escape begins another: a character is read off any text its escape begins. -/
theorem escape_split {c d : Char} {s t : List Char} (h : escape c ++ s = escape d ++ t) :
    c = d ∧ s = t := by
  have hc := escape_escaped c
  have hd := escape_escaped d
  generalize escape c = first at h hc
  generalize escape d = second at h hd
  cases hc with
  | short letter hc =>
    cases hd with
    | short other hd =>
      simp only [List.cons_append, List.nil_append, List.cons.injEq, true_and] at h
      obtain ⟨rfl, rfl⟩ := h
      exact ⟨Char.toNat_inj.mp (short_escape_injective hc hd), rfl⟩
    | control _ =>
      simp only [List.cons_append, List.nil_append, List.cons.injEq, true_and] at h
      exact absurd (h.1 ▸ hc) (short_escape_not_u _)
    | plain hd => exact absurd (List.cons.inj h).1 (plain_not_backslash hd)
  | control hc =>
    cases hd with
    | short other hd =>
      simp only [List.cons_append, List.nil_append, List.cons.injEq, true_and] at h
      exact absurd (h.1 ▸ hd) (short_escape_not_u _)
    | control hd =>
      simp only [List.cons_append, List.nil_append, List.cons.injEq, true_and] at h
      obtain ⟨high, low, rfl⟩ := h
      have high := hex_digit_injective _ (by omega) _ (by omega) high
      have low := hex_digit_injective _ (by omega) _ (by omega) low
      exact ⟨Char.toNat_inj.mp (by omega), rfl⟩
    | plain hd => exact absurd (List.cons.inj h).1 (plain_not_backslash hd)
  | plain hc =>
    cases hd with
    | short other hd => exact absurd (List.cons.inj h).1.symm (plain_not_backslash hc)
    | control hd => exact absurd (List.cons.inj h).1.symm (plain_not_backslash hc)
    | plain hd => exact List.cons.inj h

theorem quote_split {s t : String} {u v : List Char} (h : quote s ++ u = quote t ++ v) :
    s = t ∧ u = v := by
  suffices inner : ∀ xs ys : List Char, xs.flatMap escape ++ quoteMark :: u =
      ys.flatMap escape ++ quoteMark :: v → xs = ys ∧ u = v by
    have h := inner s.toList t.toList (by simpa [quote] using h)
    exact ⟨String.toList_injective h.1, h.2⟩
  intro xs
  induction xs with
  | nil =>
    intro ys h
    cases ys with
    | nil => simpa using h
    | cons y ys =>
      simp only [List.flatMap_nil, List.nil_append, List.flatMap_cons, List.append_assoc] at h
      exact absurd h.symm escape_no_quote
  | cons x xs ih =>
    intro ys h
    cases ys with
    | nil =>
      simp only [List.flatMap_nil, List.nil_append, List.flatMap_cons, List.append_assoc] at h
      exact absurd h escape_no_quote
    | cons y ys =>
      simp only [List.flatMap_cons, List.append_assoc] at h
      obtain ⟨rfl, after⟩ := escape_split h
      obtain ⟨rfl, e⟩ := ih ys after
      exact ⟨rfl, e⟩

/-! ## Lists closed by a bracket -/

/-- What may come after a value. -/
def Follows (s : List Char) : Prop := ∀ c rest, s = c :: rest → c ∈ [',', ']', '}']

theorem follows_nil : Follows [] := by
  intro c rest h
  cases h

theorem follows_cons {c : Char} {rest : List Char} (h : c ∈ [',', ']', '}']) :
    Follows (c :: rest) := by
  intro d more e
  cases e
  exact h

/-- `code` tells `x` and `y` apart by any texts they begin. -/
def Delimited (code : β → List Char) (x y : β) : Prop :=
  ∀ s t, Follows s → Follows t → code x ++ s = code y ++ t → x = y ∧ s = t

def separated : List (List Char) → List Char
  | [] => []
  | first :: rest => first ++ rest.flatMap (fun text => ',' :: text)

/-- A bracketed list is read off its text when each of its items is. -/
theorem separated_split {code : β → List Char} {close : Char} (closes : close ∈ [']', '}'])
    (opens : ∀ x s t, code x ++ s ≠ close :: t) {xs ys : List β} {s t : List Char}
    (items : ∀ x ∈ xs, ∀ y ∈ ys, Delimited code x y)
    (h : separated (xs.map code) ++ close :: s = separated (ys.map code) ++ close :: t) :
    xs = ys ∧ s = t := by
  have comma : ',' ≠ close := by
    intro e
    rw [← e] at closes
    exact absurd closes (by decide)
  have follows : ∀ (zs : List (List Char)) (u : List Char),
      Follows (zs.flatMap (fun text => ',' :: text) ++ close :: u) := by
    intro zs u
    cases zs with
    | nil => exact follows_cons (List.mem_cons_of_mem _ closes)
    | cons z zs => exact follows_cons List.mem_cons_self
  have tails : ∀ xs ys : List β, (∀ x ∈ xs, ∀ y ∈ ys, Delimited code x y) →
      (xs.map code).flatMap (fun text => ',' :: text) ++ close :: s =
        (ys.map code).flatMap (fun text => ',' :: text) ++ close :: t → xs = ys ∧ s = t := by
    intro xs
    induction xs with
    | nil =>
      intro ys _ h
      cases ys with
      | nil => simpa using h
      | cons y ys => exact absurd (List.cons.inj h).1.symm comma
    | cons x xs ih =>
      intro ys items h
      cases ys with
      | nil => exact absurd (List.cons.inj h).1 comma
      | cons y ys =>
        simp only [List.map_cons, List.flatMap_cons, List.cons_append, List.cons.injEq, true_and,
          List.append_assoc] at h
        obtain ⟨rfl, after⟩ := items x List.mem_cons_self y List.mem_cons_self _ _
          (follows _ _) (follows _ _) h
        obtain ⟨rfl, e⟩ := ih ys (fun z hz w hw =>
          items z (List.mem_cons_of_mem _ hz) w (List.mem_cons_of_mem _ hw)) after
        exact ⟨rfl, e⟩
  cases xs with
  | nil =>
    cases ys with
    | nil => simpa [separated] using h
    | cons y ys =>
      simp only [List.map_nil, separated, List.nil_append, List.map_cons, List.append_assoc] at h
      exact absurd h.symm (opens _ _ _)
  | cons x xs =>
    cases ys with
    | nil =>
      simp only [List.map_nil, separated, List.nil_append, List.map_cons, List.append_assoc] at h
      exact absurd h (opens _ _ _)
    | cons y ys =>
      simp only [List.map_cons, separated, List.append_assoc] at h
      obtain ⟨rfl, after⟩ := items x List.mem_cons_self y List.mem_cons_self _ _
          (follows _ _) (follows _ _) h
      obtain ⟨rfl, e⟩ := tails xs ys (fun z hz w hw =>
          items z (List.mem_cons_of_mem _ hz) w (List.mem_cons_of_mem _ hw)) after
      exact ⟨rfl, e⟩

/-! ## Trees -/

/-- The members in the order of their keys; members of one key keep theirs. -/
def sortedByKey (members : List (String × β)) : List (String × β) :=
  members.insertionSort (fun m n => m.1 ≤ n.1)

def member (m : String × List Char) : List Char := quote m.1 ++ ':' :: m.2

section Text

variable (render : α → List Char)

mutual

def text : Json α → List Char
  | .atom value => render value
  | .array items => '[' :: separated (texts items) ++ [']']
  | .object members => '{' :: separated ((sortedByKey (rendered members)).map member) ++ ['}']

def texts : List (Json α) → List (List Char)
  | [] => []
  | item :: rest => text item :: texts rest

def rendered : List (String × Json α) → List (String × List Char)
  | [] => []
  | (key, value) :: rest => (key, text value) :: rendered rest

end

theorem texts_map (items : List (Json α)) : texts render items = items.map (text render) := by
  induction items with
  | nil => simp [texts]
  | cons item rest ih => simp [texts, ih]

theorem rendered_map (members : List (String × Json α)) :
    rendered render members = members.map (fun m => (m.1, text render m.2)) := by
  induction members with
  | nil => simp [rendered]
  | cons m rest ih => simp [rendered, ih]

theorem text_array (items : List (Json α)) : text render (.array items) =
    '[' :: separated (items.map (text render)) ++ [']'] := by
  rw [text, texts_map]

theorem text_object (members : List (String × Json α)) : text render (.object members) =
    '{' :: separated ((sortedByKey (members.map (fun m => (m.1, text render m.2)))).map member) ++
      ['}'] := by
  rw [text, rendered_map]

end Text

/-- Every object of the tree has its members in the order of their keys, no key twice. -/
inductive Ordered : Json α → Prop where
  | atom (value : α) : Ordered (.atom value)
  | array {items : List (Json α)} (h : ∀ item ∈ items, Ordered item) : Ordered (.array items)
  | object {members : List (String × Json α)} (keys : members.Pairwise (fun m n => m.1 < n.1))
      (h : ∀ m ∈ members, Ordered m.2) : Ordered (.object members)

theorem sorted_by_key_ordered {members : List (String × β)}
    (keys : members.Pairwise (fun m n => m.1 < n.1)) : sortedByKey members = members :=
  (keys.imp le_of_lt).insertionSort_eq

theorem sorted_by_key_map {γ : Type} (f : β → γ) (members : List (String × β)) :
    (sortedByKey members).map (fun m => (m.1, f m.2)) =
      sortedByKey (members.map (fun m => (m.1, f m.2))) :=
  List.map_insertionSort _ _ _ _ (fun _ _ _ _ => Iff.rfl)

theorem text_object_ordered {members : List (String × Json α)} (render : α → List Char)
    (keys : members.Pairwise (fun m n => m.1 < n.1)) : text render (.object members) =
      '{' :: separated (members.map (fun m => member (m.1, text render m.2))) ++ ['}'] := by
  rw [text_object, ← sorted_by_key_map, sorted_by_key_ordered keys, List.map_map]
  rfl

/-- What the texts of atoms owe: each is read off what it begins, and none opens or closes a
bracket. -/
structure Tokens (render : α → List Char) : Prop where
  delimited : ∀ value other, Delimited render value other
  opens : ∀ value s c t, render value ++ s = c :: t → c ∉ ['[', '{', ']', '}']

namespace Tokens

variable {render : α → List Char} (tokens : Tokens render)

include tokens

theorem text_opens {tree : Json α} {s t : List Char} {close : Char} (closes : close ∈ [']', '}']) :
    text render tree ++ s ≠ close :: t := by
  intro h
  cases tree with
  | atom value =>
    rw [text] at h
    exact tokens.opens value s close t h (List.mem_cons_of_mem _ (List.mem_cons_of_mem _ closes))
  | array items =>
    rw [text_array] at h
    rw [← (List.cons.inj h).1] at closes
    exact absurd closes (by decide)
  | object members =>
    rw [text_object] at h
    rw [← (List.cons.inj h).1] at closes
    exact absurd closes (by decide)

theorem atom_not_array {value : α} {items : List (Json α)} {s t : List Char} :
    text render (.atom value) ++ s ≠ text render (.array items) ++ t := by
  rw [text, text_array]
  intro h
  exact tokens.opens value s _ _ h (by decide)

theorem atom_not_object {value : α} {members : List (String × Json α)} {s t : List Char} :
    text render (.atom value) ++ s ≠ text render (.object members) ++ t := by
  rw [text, text_object]
  intro h
  exact tokens.opens value s _ _ h (by decide)

end Tokens

theorem array_not_object {render : α → List Char} {items : List (Json α)}
    {members : List (String × Json α)} {s t : List Char} :
    text render (.array items) ++ s ≠ text render (.object members) ++ t := by
  rw [text_array, text_object]
  intro h
  exact absurd (List.cons.inj h).1 (by decide)

theorem member_delimited {render : α → List Char} {m n : String × Json α}
    (h : Delimited (text render) m.2 n.2) :
    Delimited (fun m : String × Json α => member (m.1, text render m.2)) m n := by
  intro s t hs ht e
  simp only [member, List.append_assoc, List.cons_append] at e
  obtain ⟨key, e⟩ := quote_split e
  obtain ⟨value, e⟩ := h s t hs ht (List.cons.inj e).2
  exact ⟨Prod.ext key value, e⟩

theorem text_delimited {render : α → List Char} (tokens : Tokens render) {tree : Json α} :
    ∀ {other : Json α}, Ordered tree → Ordered other → Delimited (text render) tree other := by
  induction tree using Json.induct with
  | atom value =>
    intro other _ _ s t hs ht e
    cases other with
    | atom value' =>
      rw [text, text] at e
      obtain ⟨rfl, after⟩ := tokens.delimited value value' s t hs ht e
      exact ⟨rfl, after⟩
    | array items => exact absurd e tokens.atom_not_array
    | object members => exact absurd e tokens.atom_not_object
  | array items ih =>
    intro other ordered ordered' s t hs ht e
    cases other with
    | atom value => exact absurd e.symm tokens.atom_not_array
    | object members => exact absurd e array_not_object
    | array items' =>
      cases ordered with
      | array ordered =>
        cases ordered' with
        | array ordered' =>
          simp only [text_array, List.cons_append, List.append_assoc, List.cons.injEq, true_and] at e
          obtain ⟨rfl, after⟩ := separated_split (by decide)
            (fun _ _ _ => tokens.text_opens (by decide))
            (fun x hx y hy => ih x hx (ordered x hx) (ordered' y hy)) e
          exact ⟨rfl, after⟩
  | object members ih =>
    intro other ordered ordered' s t hs ht e
    cases other with
    | atom value => exact absurd e.symm tokens.atom_not_object
    | array items => exact absurd e.symm array_not_object
    | object members' =>
      cases ordered with
      | object keys ordered =>
        cases ordered' with
        | object keys' ordered' =>
          rw [text_object_ordered render keys, text_object_ordered render keys'] at e
          simp only [List.cons_append, List.append_assoc, List.cons.injEq, true_and] at e
          obtain ⟨rfl, after⟩ := separated_split (by decide)
            (fun m _ _ h => absurd (List.cons.inj h).1 (by decide))
            (fun m hm n hn => member_delimited (ih m hm (ordered m hm) (ordered' n hn))) e
          exact ⟨rfl, after⟩

/-- Trees with their keys in order have different texts when they differ. -/
theorem text_injective {render : α → List Char} (tokens : Tokens render) {tree other : Json α}
    (ordered : Ordered tree) (ordered' : Ordered other) (h : text render tree = text render other) :
    tree = other := by
  have e := text_delimited tokens ordered ordered' [] [] follows_nil follows_nil
    (by rw [List.append_nil, List.append_nil, h])
  exact e.1

end JsonText
