import Mathlib.Data.List.TakeWhile
import Mathlib.Data.String.Basic

/-! # The text of metric families

A family of metrics is announced by its help and its type and then has one sample, three lines in
all. What is written can be read back where names are words and no line breaks stand in the rest.
-/
namespace Exposition

inductive Kind where
  | counter | gauge
  deriving DecidableEq, Repr

def Kind.text : Kind → String
  | .counter => "counter"
  | .gauge => "gauge"

def Kind.ofText (text : String) : Option Kind :=
  if text = "counter" then some .counter else if text = "gauge" then some .gauge else none

structure Family where
  name : String
  help : String
  kind : Kind
  value : String
  deriving DecidableEq, Repr

/-! ## Writing -/

def Family.lines (f : Family) : List String :=
  ["# HELP " ++ f.name ++ " " ++ f.help, "# TYPE " ++ f.name ++ " " ++ f.kind.text,
    f.name ++ " " ++ f.value]

def text (families : List Family) : String :=
  "\n".intercalate (families.flatMap Family.lines) ++ "\n"

/-! ## Reading -/

/-- The first word and what comes after the blank. -/
def cutWord (line : List Char) : String × String :=
  (String.ofList (line.takeWhile (· ≠ ' ')), String.ofList ((line.dropWhile (· ≠ ' ')).drop 1))

def marked (mark : String) (line : List Char) : Option (String × String) :=
  if mark.toList <+: line then some (cutWord (line.drop mark.length)) else none

def readFamily (help kind sample : List Char) : Option Family := do
  let (name, help) ← marked "# HELP " help
  let (typed, kind) ← marked "# TYPE " kind
  let (sampled, value) := cutWord sample
  let kind ← Kind.ofText kind
  if typed = name ∧ sampled = name then return { name, help, kind, value } else none

def readLines : List (List Char) → Option (List Family)
  | [] => some []
  | help :: kind :: sample :: rest => do
    let f ← readFamily help kind sample
    let families ← readLines rest
    return f :: families
  | _ => none

/-- The last line, too, ends with a line break. -/
def parse (text : String) : Option (List Family) :=
  let lines := text.toList.splitOn '\n'
  if lines.getLast? = some [] then readLines lines.dropLast else none

/-! ## What is written is read back -/

/-- The name is a word, and the rest stays on its line. -/
structure Family.Clean (f : Family) : Prop where
  name : ∀ c ∈ f.name.toList, c ≠ ' ' ∧ c ≠ '\n'
  help : '\n' ∉ f.help.toList
  value : '\n' ∉ f.value.toList

section Lines

variable {α : Type} [DecidableEq α] {a : α}

theorem split_lines {lines : List (List α)} (h : ∀ l ∈ lines, a ∉ l) (hne : lines ≠ []) :
    ([a].intercalate lines ++ [a]).splitOn a = lines ++ [[]] := by
  induction lines with
  | nil => exact absurd rfl hne
  | cons l rest ih =>
    have clean := List.splitOn_eq_singleton (h l List.mem_cons_self)
    cases rest with
    | nil =>
      have single : [a].intercalate [l] ++ [a] = l ++ a :: [] := by simp [List.intercalate]
      rw [single, List.splitOn_append_cons_self, clean]
      rfl
    | cons m rest =>
      have more : [a].intercalate (l :: m :: rest) ++ [a] =
          l ++ a :: ([a].intercalate (m :: rest) ++ [a]) := by
        simp [List.intercalate]
      rw [more, List.splitOn_append_cons_self, clean,
        ih (fun x hx => h x (List.mem_cons_of_mem _ hx)) (List.cons_ne_nil m rest)]
      rfl

end Lines

theorem kind_read (k : Kind) : Kind.ofText k.text = some k := by
  cases k <;> rfl

theorem cut_word {name rest : String} (h : ∀ c ∈ name.toList, c ≠ ' ') :
    cutWord (name.toList ++ ' ' :: rest.toList) = (name, rest) := by
  have all : ∀ c ∈ name.toList, (decide (c ≠ ' ')) = true := fun c hc => decide_eq_true (h c hc)
  unfold cutWord
  rw [List.takeWhile_append_of_pos all, List.dropWhile_append_of_pos all]
  simp

theorem marked_word {mark name rest : String} (h : ∀ c ∈ name.toList, c ≠ ' ') :
    marked mark ((mark ++ name ++ " " ++ rest).toList) = some (name, rest) := by
  have chars : (mark ++ name ++ " " ++ rest).toList =
      mark.toList ++ (name.toList ++ ' ' :: rest.toList) := by
    simp
  unfold marked
  rw [chars, if_pos (List.prefix_append _ _), ← String.length_toList, List.drop_left, cut_word h]

theorem family_read {f : Family} (h : f.Clean) :
    readFamily ("# HELP " ++ f.name ++ " " ++ f.help).toList
      ("# TYPE " ++ f.name ++ " " ++ f.kind.text).toList (f.name ++ " " ++ f.value).toList =
      some f := by
  have word : ∀ c ∈ f.name.toList, c ≠ ' ' := fun c hc => (h.name c hc).1
  have sample : (f.name ++ " " ++ f.value).toList = f.name.toList ++ ' ' :: f.value.toList := by
    simp
  unfold readFamily
  rw [marked_word word, marked_word word, sample, cut_word word]
  simp [kind_read]

theorem lines_read {families : List Family} (h : ∀ f ∈ families, f.Clean) :
    readLines ((families.flatMap Family.lines).map String.toList) = some families := by
  induction families with
  | nil => rfl
  | cons f rest ih =>
    rw [List.flatMap_cons]
    simp only [Family.lines, List.cons_append, List.nil_append, List.map_cons, readLines]
    rw [family_read (h f List.mem_cons_self)]
    have tail := ih fun g hg => h g (List.mem_cons_of_mem _ hg)
    rw [tail]
    rfl

theorem line_unbroken {f : Family} (h : f.Clean) : ∀ l ∈ f.lines, '\n' ∉ l.toList := by
  have name : '\n' ∉ f.name.toList := fun hc => (h.name _ hc).2 rfl
  have kind : '\n' ∉ f.kind.text.toList := by cases f.kind <;> decide
  intro l hl
  simp only [Family.lines, List.mem_cons, List.not_mem_nil, or_false] at hl
  rcases hl with rfl | rfl | rfl <;> simp [name, kind, h.help, h.value]

/-- Clean families are read back from their text. -/
theorem parse_text {families : List Family} (h : ∀ f ∈ families, f.Clean) (hne : families ≠ []) :
    parse (text families) = some families := by
  have lines : ((families.flatMap Family.lines).map String.toList) ≠ [] := by
    obtain ⟨f, rest, rfl⟩ := List.exists_cons_of_ne_nil hne
    simp [Family.lines]
  have unbroken : ∀ l ∈ (families.flatMap Family.lines).map String.toList, '\n' ∉ l := by
    intro l hl
    obtain ⟨line, hline, rfl⟩ := List.mem_map.mp hl
    obtain ⟨f, hf, hin⟩ := List.mem_flatMap.mp hline
    exact line_unbroken (h f hf) line hin
  have whole : (text families).toList.splitOn '\n' =
      (families.flatMap Family.lines).map String.toList ++ [[]] := by
    unfold text
    rw [String.toList_append, String.toList_intercalate]
    exact split_lines unbroken lines
  unfold parse
  rw [whole]
  simp only [List.getLast?_append, List.getLast?_singleton, Option.some_or, if_true,
    List.dropLast_concat]
  exact lines_read h

end Exposition
