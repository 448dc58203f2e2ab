import Infly.CacheTexts
import Infly.CacheWriting

/-! # Which definitions share a cache key

Equal cache keys say that two definitions look alike level by level. They may still differ, in the
ways a `Clash` lists; without one, definitions of one cache key are equal.
-/
namespace CacheIdentity

open CacheKey CacheWriting CacheTexts
open JsonText (Json Ordered)
open Traversal (agree carry join rearrange)

/-! ## Equality -/

def PyFloat.asNumber : PyFloat → PyFloat
  | .negativeZero => .finite 0
  | value => value

def number : Scalar → Option PyFloat
  | .bool value => some (.finite (if value then 1 else 0))
  | .int value => some (.finite value)
  | .float value => some (PyFloat.asNumber value)
  | .none | .str _ => none

/-- `==` on scalars: numbers by value whatever their type, `NaN` equal to nothing. -/
def ScalarEqual (a b : Scalar) : Prop :=
  match number a, number b with
  | some x, some y => x = y ∧ x ≠ .nan
  | none, none => a = b
  | _, _ => False

theorem scalar_equal_refl {a : Scalar} (h : a ≠ .float .nan) : ScalarEqual a a := by
  cases a with
  | none | str s => rfl
  | bool b => exact ⟨rfl, by simp⟩
  | int n => exact ⟨rfl, by simp⟩
  | float x =>
    refine ⟨rfl, ?_⟩
    cases x <;> simp_all [PyFloat.asNumber]

variable (floatstr : PyFloat → String) (heap : Heap)

/-- `==` on values, lists taken for tuples and `bytes` for `bytearray`s, objects compared by class
and state. -/
inductive Equal : Value → Value → Prop where
  | scalar {v w : Value} {a b : Scalar} (hv : view heap v = .scalar a) (hw : view heap w = .scalar b)
      (equal : ScalarEqual a b) : Equal v w
  | enum {v w x y : Value} {cls : PyClass} {member : String}
      (hv : view heap v = .enum cls member x) (hw : view heap w = .enum cls member y) : Equal v w
  | path {v w : Value} {text : String} (hv : view heap v = .path text)
      (hw : view heap w = .path text) : Equal v w
  | bytes {v w : Value} {data : List UInt8} (hv : view heap v = .bytes data)
      (hw : view heap w = .bytes data) : Equal v w
  | dataclass {v w x y : Value} {cls : PyClass} (hv : view heap v = .dataclass cls x)
      (hw : view heap w = .dataclass cls y) (fields : Equal x y) : Equal v w
  | mapping {v w : Value} {items items' : Items} (hv : view heap v = .mapping items)
      (hw : view heap w = .mapping items')
      (keys : ∀ e ∈ items.entries, ∃ e' ∈ items'.entries, e'.1.held = e.1.held)
      (keys' : ∀ e' ∈ items'.entries, ∃ e ∈ items.entries, e.1.held = e'.1.held)
      (values : ∀ e ∈ items.entries, ∀ e' ∈ items'.entries, e.1.held = e'.1.held →
        Equal e.2 e'.2) : Equal v w
  | sequence {v w : Value} {items items' : List Value} (hv : view heap v = .sequence items)
      (hw : view heap w = .sequence items') (length : items.length = items'.length)
      (values : ∀ {x y}, (x, y) ∈ items.zip items' → Equal x y) : Equal v w
  | set {v w : Value} {items items' : List Value} (hv : view heap v = .set items)
      (hw : view heap w = .set items') (there back : Value → Value)
      (contained : ∀ x ∈ items, there x ∈ items') (same : ∀ x ∈ items, Equal x (there x))
      (contains : ∀ y ∈ items', back y ∈ items) (same' : ∀ y ∈ items', Equal (back y) y) :
      Equal v w
  | object {v w x y : Value} {cls : PyClass} {outside : ℕ}
      (hv : view heap v = .object cls x outside) (hw : view heap w = .object cls y outside)
      (state : Equal x y) : Equal v w

/-! ## Looking alike -/

/-- The items in an order in which their texts ascend. -/
def Ascending (items : List Value) : Prop :=
  ∃ trees, List.Forall₂ (Spelled floatstr heap) items trees ∧
    trees.Pairwise (fun a b => dumps floatstr a ≤ dumps floatstr b)

/-- What an array is read as: the items of a list or tuple in their order, those of a set in the
order of their texts. -/
def Reads (v : Value) (items : List Value) : Prop :=
  form heap v = some (.row items) ∨
    ∃ held, form heap v = some (.bag held) ∧ held.Perm items ∧ Ascending floatstr heap items

/-- Level by level nothing tells the two apart: equal scalars, the same texts for keys and tags
with lookalikes under them, lookalike items in the order in which they are read. -/
inductive Lookalike : Value → Value → Prop where
  | atom {v w : Value} {value : Scalar} (hv : form heap v = some (.atom value))
      (hw : form heap w = some (.atom value)) : Lookalike v w
  | table {v w : Value} {entries entries' : List (String × Value)}
      (hv : form heap v = some (.table entries)) (hw : form heap w = some (.table entries'))
      (keys : entries.map Prod.fst = entries'.map Prod.fst)
      (values : ∀ {e e'}, (e, e') ∈ entries.zip entries' → Lookalike e.2 e'.2) : Lookalike v w
  | array {v w : Value} {items items' : List Value} (hv : Reads floatstr heap v items)
      (hw : Reads floatstr heap w items') (length : items.length = items'.length)
      (values : ∀ {x y}, (x, y) ∈ items.zip items' → Lookalike x y) : Lookalike v w

section Alike

variable {floatstr heap}

theorem sorted_by_text (trees : List (Json Scalar)) :
    (sortedByText floatstr trees).Pairwise (fun a b => dumps floatstr a ≤ dumps floatstr b) :=
  List.pairwise_insertionSort (fun a b => dumps floatstr a ≤ dumps floatstr b) trees

theorem bag_reads {v : Value} {held : List Value} {trees : List (Json Scalar)}
    {R : Value → Json Scalar → Prop} (written : form heap v = some (.bag held))
    (spelled : ∀ x j, R x j → Spelled floatstr heap x j) (h : List.Forall₂ R held trees) :
    ∃ items, Reads floatstr heap v items ∧ List.Forall₂ R items (sortedByText floatstr trees) := by
  have sort : trees.Perm (sortedByText floatstr trees) := (List.perm_insertionSort _ trees).symm
  obtain ⟨items, perm, sorted⟩ := rearrange h sort
  exact ⟨items, Or.inr ⟨held, written, perm, _, sorted.imp spelled, sorted_by_text trees⟩, sorted⟩

theorem array_reads {v : Value} {trees : List (Json Scalar)}
    (h : Spelled floatstr heap v (.array trees)) :
    ∃ items, Reads floatstr heap v items ∧ List.Forall₂ (Spelled floatstr heap) items trees := by
  cases h with
  | row written length values =>
    exact ⟨_, Or.inl written, List.forall₂_iff_zip.mpr ⟨length, values⟩⟩
  | bag written length values =>
    exact bag_reads written (fun _ _ h => h) (List.forall₂_iff_zip.mpr ⟨length, values⟩)

theorem lookalike_array {v w : Value} {items : List Value} {trees : List (Json Scalar)}
    (reads : Reads floatstr heap v items) (spelled : Spelled floatstr heap w (.array trees))
    (alike : List.Forall₂ (fun x j => ∀ y, Spelled floatstr heap y j → Lookalike floatstr heap x y)
      items trees) : Lookalike floatstr heap v w := by
  obtain ⟨items', reads', h'⟩ := array_reads spelled
  have joined := List.forall₂_iff_zip.mp (join alike h')
  exact Lookalike.array reads reads' joined.1 joined.2

/-- Values written as one tree look alike. -/
theorem spelled_lookalike {v : Value} {tree : Json Scalar} (h : Spelled floatstr heap v tree) :
    ∀ {w : Value}, Spelled floatstr heap w tree → Lookalike floatstr heap v w := by
  induction h with
  | atom written =>
    intro w k
    cases k with
    | atom written' => exact Lookalike.atom written written'
  | table written keys _ ih =>
    intro w k
    cases k with
    | table written' keys' values' =>
      have alike : List.Forall₂ (fun (e : String × Value) (m : String × Json Scalar) =>
          ∀ f : String × Value, Spelled floatstr heap f.2 m.2 → Lookalike floatstr heap e.2 f.2)
          _ _ := List.forall₂_iff_zip.mpr ⟨length_of_keys keys, fun hem _ hf => ih hem hf⟩
      have joined := List.forall₂_iff_zip.mp (join alike
        (List.forall₂_iff_zip.mpr ⟨length_of_keys keys', values'⟩))
      exact Lookalike.table written written' (keys.trans keys'.symm) joined.2
  | row written length _ ih =>
    intro w k
    exact lookalike_array (Or.inl written) k
      (List.forall₂_iff_zip.mpr ⟨length, fun hxj _ hy => ih hxj hy⟩)
  | bag written length values ih =>
    intro w k
    obtain ⟨items, reads, alike⟩ := bag_reads written (fun _ _ h => h.1)
      (List.forall₂_iff_zip.mpr ⟨length, fun hxj => And.intro (values hxj) (fun y => @ih _ _ hxj y)⟩)
    exact lookalike_array reads k (alike.imp (fun _ _ h => h.2))

/-- What a value is read as is what its tree lists, when no two trees have one text. -/
theorem reads_spelled (texts : FloatTexts floatstr) {v : Value} {items : List Value}
    {tree : Json Scalar} (reads : Reads floatstr heap v items)
    (h : Spelled floatstr heap v tree) :
    ∃ trees, tree = .array trees ∧ List.Forall₂ (Spelled floatstr heap) items trees := by
  rcases reads with written | ⟨held, written, perm, trees', h', ascending⟩
  · exact spelled_row_items written h
  · obtain ⟨trees, rfl, k⟩ := spelled_bag_items written h
    obtain ⟨listed, hlisted, hperm⟩ := List.perm_comp_forall₂ perm.symm k
    have same : trees' = listed := agree (h'.imp fun _ _ hx _ hy => spelled_unique hx hy) hlisted
    subst same
    have ordered : ∀ j ∈ trees', Ordered j := by
      intro j hj
      obtain ⟨x, hx⟩ := zip_left h'.length_eq hj
      exact spelled_ordered ((List.forall₂_iff_zip.mp h').2 hx)
    have sort : (sortedByText floatstr trees).Perm trees' :=
      (List.perm_insertionSort _ trees).trans hperm.symm
    refine ⟨trees', ?_, h'⟩
    rw [sort.eq_of_pairwise ?_ (sorted_by_text trees) ascending]
    intro a b ha hb hab hba
    exact dumps_injective texts (ordered a (sort.mem_iff.mp ha)) (ordered b hb)
      (le_antisymm hab hba)

/-- Lookalikes are written as one tree. -/
theorem lookalike_spelled (texts : FloatTexts floatstr) {v w : Value}
    (h : Lookalike floatstr heap v w) : ∀ {tree other : Json Scalar},
    Spelled floatstr heap v tree → Spelled floatstr heap w other → tree = other := by
  induction h with
  | atom hv hw =>
    intro tree other k k'
    rw [spelled_scalar_only (k.congr hv), spelled_scalar_only (k'.congr hw)]
  | table hv hw keys _ ih =>
    intro tree other k k'
    obtain ⟨members, rfl, h⟩ := spelled_entries hv k
    obtain ⟨members', rfl, h'⟩ := spelled_entries hw k'
    have entries : List.Forall₂ (fun (e e' : String × Value) => ∀ m m' : String × Json Scalar,
        e.1 = m.1 ∧ Spelled floatstr heap e.2 m.2 → e'.1 = m'.1 ∧ Spelled floatstr heap e'.2 m'.2 →
        m = m') _ _ := List.forall₂_iff_zip.mpr ⟨length_of_keys keys, fun hee' m m' hm hm' =>
          Prod.ext ((hm.1.symm.trans (zip_key keys hee')).trans hm'.1) (ih hee' hm.2 hm'.2)⟩
    rw [carry entries h h']
  | array hv hw length _ ih =>
    intro tree other k k'
    obtain ⟨trees, rfl, h⟩ := reads_spelled texts hv k
    obtain ⟨trees', rfl, h'⟩ := reads_spelled texts hw k'
    have items : List.Forall₂ (fun x y => ∀ a b, Spelled floatstr heap x a →
        Spelled floatstr heap y b → a = b) _ _ :=
      List.forall₂_iff_zip.mpr ⟨length, fun hxy _ _ hx hy => ih hxy hx hy⟩
    rw [carry items h h']

end Alike

/-! ## Clashes -/

inductive Kind where
  | scalar | enum | path | bytes | dataclass | mapping | sequence | set | object | unsupported
  deriving DecidableEq

def kind : View → Kind
  | .scalar _ => .scalar
  | .enum _ _ _ => .enum
  | .path _ => .path
  | .bytes _ => .bytes
  | .dataclass _ _ => .dataclass
  | .mapping _ => .mapping
  | .sequence _ => .sequence
  | .set _ => .set
  | .object _ _ _ => .object
  | .unsupported _ => .unsupported

/-- The two entries stand for one text. -/
def Opposite (items items' : Items) (e e' : Key × Value) : Prop :=
  ∃ s, (textTable items).get? s = some e ∧ (textTable items').get? s = some e'

/-- How values that look alike come to differ. -/
inductive Clash : Value → Value → Prop where
  | nan {v w : Value} (hv : view heap v = .scalar (.float .nan))
      (hw : view heap w = .scalar (.float .nan)) : Clash v w
  /-- A list opposite a set, a mapping opposite what it spells out, tag and all. -/
  | kinds {v w : Value} (h : kind (view heap v) ≠ kind (view heap w)) : Clash v w
  /-- Members, or classes, that share a name. -/
  | enum {v w x y : Value} {cls cls' : PyClass} {member member' : String}
      (hv : view heap v = .enum cls member x) (hw : view heap w = .enum cls' member' y)
      (h : ¬ (cls = cls' ∧ member = member')) : Clash v w
  | dataclass {v w x y : Value} {cls cls' : PyClass} (hv : view heap v = .dataclass cls x)
      (hw : view heap w = .dataclass cls' y) (h : cls ≠ cls') : Clash v w
  | object {v w x y : Value} {cls cls' : PyClass} {outside outside' : ℕ}
      (hv : view heap v = .object cls x outside) (hw : view heap w = .object cls' y outside')
      (h : ¬ (cls = cls' ∧ outside = outside')) : Clash v w
  | fields {v w x y : Value} {cls cls' : PyClass} (hv : view heap v = .dataclass cls x)
      (hw : view heap w = .dataclass cls' y) (h : Clash x y) : Clash v w
  | state {v w x y : Value} {cls cls' : PyClass} {outside outside' : ℕ}
      (hv : view heap v = .object cls x outside) (hw : view heap w = .object cls' y outside')
      (h : Clash x y) : Clash v w
  | item {v w x y : Value} {items items' : List Value} (hv : view heap v = .sequence items)
      (hw : view heap w = .sequence items') (hxy : (x, y) ∈ items.zip items') (h : Clash x y) :
      Clash v w
  | entry {v w : Value} {items items' : Items} {e e' : Key × Value}
      (hv : view heap v = .mapping items) (hw : view heap w = .mapping items')
      (opposite : Opposite items items' e e') (key : e.1.held = e'.1.held) (h : Clash e.2 e'.2) :
      Clash v w
  /-- A key that the other mapping has not, whatever it has under its text. -/
  | key {v w : Value} {items items' : Items} {e : Key × Value}
      (hv : view heap v = .mapping items) (hw : view heap w = .mapping items')
      (he : e ∈ items.entries) (h : ∀ e' ∈ items'.entries, e'.1.held ≠ e.1.held) : Clash v w
  | key' {v w : Value} {items items' : Items} {e' : Key × Value}
      (hv : view heap v = .mapping items) (hw : view heap w = .mapping items')
      (he' : e' ∈ items'.entries) (h : ∀ e ∈ items.entries, e.1.held ≠ e'.1.held) : Clash v w
  /-- Entries of one key that are not opposite each other, another key having taken the text. -/
  | hidden {v w : Value} {items items' : Items} {e e' : Key × Value}
      (hv : view heap v = .mapping items) (hw : view heap w = .mapping items')
      (he : e ∈ items.entries) (he' : e' ∈ items'.entries) (key : e.1.held = e'.1.held)
      (apart : ¬ Opposite items items' e e') (h : ¬ Equal heap e.2 e'.2) : Clash v w
  /-- Sets of lookalike items, one of which has an item that the other has not. -/
  | lacks {v w x : Value} {items items' : List Value} (hv : view heap v = .set items)
      (hw : view heap w = .set items') (hx : x ∈ items) (h : ∀ y ∈ items', ¬ Equal heap x y) :
      Clash v w
  | lacks' {v w y : Value} {items items' : List Value} (hv : view heap v = .set items)
      (hw : view heap w = .set items') (hy : y ∈ items') (h : ∀ x ∈ items, ¬ Equal heap x y) :
      Clash v w

variable {heap}

theorem Equal.kinds {v w : Value} (h : Equal heap v w) :
    kind (view heap v) = kind (view heap w) := by
  cases h with
  | _ hv hw => exact (congrArg kind hv).trans (congrArg kind hw).symm

theorem nan_not_equal : ¬ ScalarEqual (.float .nan) (.float .nan) := fun h => h.2 rfl

theorem Equal.mappings {v w : Value} {items items' : Items} (hv : view heap v = .mapping items)
    (hw : view heap w = .mapping items') (h : Equal heap v w) :
    (∀ e ∈ items.entries, ∃ e' ∈ items'.entries, e'.1.held = e.1.held) ∧
      (∀ e' ∈ items'.entries, ∃ e ∈ items.entries, e.1.held = e'.1.held) ∧
      ∀ e ∈ items.entries, ∀ e' ∈ items'.entries, e.1.held = e'.1.held → Equal heap e.2 e'.2 := by
  cases h with
  | mapping hv' hw' keys keys' values =>
    cases hv.symm.trans hv'
    cases hw.symm.trans hw'
    exact ⟨keys, keys', values⟩
  | _ hv' => cases hv.symm.trans hv'

theorem Equal.sequences {v w : Value} {items items' : List Value}
    (hv : view heap v = .sequence items) (hw : view heap w = .sequence items')
    (h : Equal heap v w) {x y : Value} (hxy : (x, y) ∈ items.zip items') : Equal heap x y := by
  cases h with
  | sequence hv' hw' _ values =>
    cases hv.symm.trans hv'
    cases hw.symm.trans hw'
    exact values hxy
  | _ hv' => cases hv.symm.trans hv'

theorem Equal.sets {v w : Value} {items items' : List Value} (hv : view heap v = .set items)
    (hw : view heap w = .set items') (h : Equal heap v w) :
    (∀ x ∈ items, ∃ y ∈ items', Equal heap x y) ∧ ∀ y ∈ items', ∃ x ∈ items, Equal heap x y := by
  cases h with
  | set hv' hw' there back contained same contains same' =>
    cases hv.symm.trans hv'
    cases hw.symm.trans hw'
    exact ⟨fun x hx => ⟨there x, contained x hx, same x hx⟩,
      fun y hy => ⟨back y, contains y hy, same' y hy⟩⟩
  | _ hv' => cases hv.symm.trans hv'

theorem equal_sets {v w : Value} {items items' : List Value} (hv : view heap v = .set items)
    (hw : view heap w = .set items') (there : ∀ x ∈ items, ∃ y ∈ items', Equal heap x y)
    (back : ∀ y ∈ items', ∃ x ∈ items, Equal heap x y) : Equal heap v w := by
  have there : ∀ x, ∃ y, x ∈ items → y ∈ items' ∧ Equal heap x y := by
    intro x
    by_cases hx : x ∈ items
    · obtain ⟨y, hy⟩ := there x hx
      exact ⟨y, fun _ => hy⟩
    · exact ⟨x, fun h => absurd h hx⟩
  have back : ∀ y, ∃ x, y ∈ items' → x ∈ items ∧ Equal heap x y := by
    intro y
    by_cases hy : y ∈ items'
    · obtain ⟨x, hx⟩ := back y hy
      exact ⟨x, fun _ => hx⟩
    · exact ⟨y, fun h => absurd h hy⟩
  choose f hf using there
  choose g hg using back
  exact Equal.set hv hw f g (fun x hx => (hf x hx).1) (fun x hx => (hf x hx).2)
    (fun y hy => (hg y hy).1) (fun y hy => (hg y hy).2)

theorem opposite_entries {items items' : Items} {e e' : Key × Value}
    (h : Opposite items items' e e') : e ∈ items.entries ∧ e' ∈ items'.entries := by
  obtain ⟨s, he, he'⟩ := h
  exact ⟨(table_item he).1, (table_item he').1⟩

theorem Equal.scalars {v w : Value} {a b : Scalar} (hv : view heap v = .scalar a)
    (hw : view heap w = .scalar b) (h : Equal heap v w) : ScalarEqual a b := by
  cases h with
  | scalar hv' hw' equal =>
    cases hv.symm.trans hv'
    cases hw.symm.trans hw'
    exact equal
  | _ hv' => cases hv.symm.trans hv'

theorem Equal.enums {v w x y : Value} {cls cls' : PyClass} {member member' : String}
    (hv : view heap v = .enum cls member x) (hw : view heap w = .enum cls' member' y)
    (h : Equal heap v w) : cls = cls' ∧ member = member' := by
  cases h with
  | enum hv' hw' =>
    cases hv.symm.trans hv'
    cases hw.symm.trans hw'
    exact ⟨rfl, rfl⟩
  | _ hv' => cases hv.symm.trans hv'

theorem Equal.dataclasses {v w x y : Value} {cls cls' : PyClass}
    (hv : view heap v = .dataclass cls x) (hw : view heap w = .dataclass cls' y)
    (h : Equal heap v w) : cls = cls' ∧ Equal heap x y := by
  cases h with
  | dataclass hv' hw' fields =>
    cases hv.symm.trans hv'
    cases hw.symm.trans hw'
    exact ⟨rfl, fields⟩
  | _ hv' => cases hv.symm.trans hv'

theorem Equal.objects {v w x y : Value} {cls cls' : PyClass} {outside outside' : ℕ}
    (hv : view heap v = .object cls x outside) (hw : view heap w = .object cls' y outside')
    (h : Equal heap v w) : (cls = cls' ∧ outside = outside') ∧ Equal heap x y := by
  cases h with
  | object hv' hw' state =>
    cases hv.symm.trans hv'
    cases hw.symm.trans hw'
    exact ⟨⟨rfl, rfl⟩, state⟩
  | _ hv' => cases hv.symm.trans hv'

theorem clash_not_equal {v w : Value} (h : Clash heap v w) : ¬ Equal heap v w := by
  induction h with
  | nan hv hw =>
    intro k
    exact nan_not_equal (k.scalars hv hw)
  | kinds h =>
    intro k
    exact h k.kinds
  | enum hv hw h =>
    intro k
    exact h (k.enums hv hw)
  | dataclass hv hw h =>
    intro k
    exact h (k.dataclasses hv hw).1
  | object hv hw h =>
    intro k
    exact h (k.objects hv hw).1
  | fields hv hw _ ih =>
    intro k
    exact ih (k.dataclasses hv hw).2
  | state hv hw _ ih =>
    intro k
    exact ih (k.objects hv hw).2
  | item hv hw hxy _ ih =>
    intro k
    exact ih (k.sequences hv hw hxy)
  | entry hv hw opposite key _ ih =>
    intro k
    obtain ⟨he, he'⟩ := opposite_entries opposite
    exact ih ((k.mappings hv hw).2.2 _ he _ he' key)
  | key hv hw he h =>
    intro k
    obtain ⟨e', he', held⟩ := (k.mappings hv hw).1 _ he
    exact h e' he' held
  | key' hv hw he' h =>
    intro k
    obtain ⟨e, he, held⟩ := (k.mappings hv hw).2.1 _ he'
    exact h e he held
  | hidden hv hw he he' key _ h =>
    intro k
    exact h ((k.mappings hv hw).2.2 _ he _ he' key)
  | lacks hv hw hx h =>
    intro k
    obtain ⟨y, hy, equal⟩ := (k.sets hv hw).1 _ hx
    exact h y hy equal
  | lacks' hv hw hy h =>
    intro k
    obtain ⟨x, hx, equal⟩ := (k.sets hv hw).2 _ hy
    exact h x hx equal

/-- Views of one kind. -/
inductive SameKind : View → View → Prop where
  | scalar (a b : Scalar) : SameKind (.scalar a) (.scalar b)
  | enum (cls cls' : PyClass) (member member' : String) (x y : Value) :
      SameKind (.enum cls member x) (.enum cls' member' y)
  | path (text text' : String) : SameKind (.path text) (.path text')
  | bytes (data data' : List UInt8) : SameKind (.bytes data) (.bytes data')
  | dataclass (cls cls' : PyClass) (x y : Value) : SameKind (.dataclass cls x) (.dataclass cls' y)
  | mapping (items items' : Items) : SameKind (.mapping items) (.mapping items')
  | sequence (items items' : List Value) : SameKind (.sequence items) (.sequence items')
  | set (items items' : List Value) : SameKind (.set items) (.set items')
  | object (cls cls' : PyClass) (x y : Value) (outside outside' : ℕ) :
      SameKind (.object cls x outside) (.object cls' y outside')
  | unsupported (cls cls' : PyClass) : SameKind (.unsupported cls) (.unsupported cls')

theorem same_kind {a b : View} (h : kind a = kind b) : SameKind a b := by
  cases a <;> cases b <;> first | constructor | cases h

section Differ

variable {floatstr}

theorem form_atom {v : Value} {value : Scalar} (h : form heap v = some (.atom value)) :
    view heap v = .scalar value := by
  unfold form at h
  cases seen : view heap v <;> rw [seen] at h <;> cases h
  rfl

theorem lookalike_scalars {a b : Scalar}
    (h : Lookalike floatstr heap (.scalar a) (.scalar b)) : a = b := by
  cases h with
  | atom hv hw =>
    cases hv
    cases hw
    rfl
  | table hv _ _ _ => cases hv
  | array hv _ _ _ =>
    rcases hv with hv | ⟨_, hv, _⟩
    · cases hv
    · cases hv

theorem table_clash {v w : Value} {items items' : Items} (hv : view heap v = .mapping items)
    (hw : view heap w = .mapping items')
    (opposite : ∀ {e e'}, Opposite items items' e e' → ¬ Equal heap e.2 e'.2 →
      Clash heap e.2 e'.2) (differ : ¬ Equal heap v w) : Clash heap v w := by
  by_contra none
  refine differ (Equal.mapping hv hw ?_ ?_ ?_)
  · intro e he
    by_contra lost
    push Not at lost
    exact none (Clash.key hv hw he lost)
  · intro e' he'
    by_contra lost
    push Not at lost
    exact none (Clash.key' hv hw he' lost)
  · intro e he e' he' key
    by_contra unequal
    by_cases facing : Opposite items items' e e'
    · exact none (Clash.entry hv hw facing key (opposite facing unequal))
    · exact none (Clash.hidden hv hw he he' key facing unequal)

theorem set_clash {v w : Value} {items items' : List Value} (hv : view heap v = .set items)
    (hw : view heap w = .set items') (differ : ¬ Equal heap v w) : Clash heap v w := by
  by_contra none
  refine differ (equal_sets hv hw ?_ ?_)
  · intro x hx
    by_contra lost
    push Not at lost
    exact none (Clash.lacks hv hw hx lost)
  · intro y hy
    by_contra lost
    push Not at lost
    exact none (Clash.lacks' hv hw hy lost)

theorem sequence_reads {v : Value} {items read : List Value} (seen : view heap v = .sequence items)
    (h : Reads floatstr heap v read) : read = items := by
  rcases h with h | ⟨_, h, _⟩
  · cases (form_view seen).symm.trans h
    rfl
  · cases (form_view seen).symm.trans h

/-- Lookalikes that differ clash somewhere. -/
theorem lookalike_clash {v w : Value} (h : Lookalike floatstr heap v w) :
    ¬ Equal heap v w → Clash heap v w := by
  induction h with
  | @atom v w value hv hw =>
    intro differ
    have hv := form_atom hv
    have hw := form_atom hw
    by_cases nan : value = .float .nan
    · subst nan
      exact Clash.nan hv hw
    · exact absurd (Equal.scalar hv hw (scalar_equal_refl nan)) differ
  | @table v w entries entries' hv hw keys values ih =>
    intro differ
    by_cases same : kind (view heap v) = kind (view heap w)
    · have same := same_kind same
      generalize seen : view heap v = a at same
      generalize seen' : view heap w = b at same
      rw [form_view seen] at hv
      rw [form_view seen'] at hw
      cases same with
      | scalar | sequence | set | unsupported => cases hv
      | enum cls cls' member member' x y =>
        by_cases names : cls = cls' ∧ member = member'
        · obtain ⟨rfl, rfl⟩ := names
          exact absurd (Equal.enum seen seen') differ
        · exact Clash.enum seen seen' names
      | path text text' =>
        cases hv
        cases hw
        cases lookalike_scalars (values List.mem_cons_self)
        exact absurd (Equal.path seen seen') differ
      | bytes data data' =>
        cases hv
        cases hw
        have e := lookalike_scalars (values List.mem_cons_self)
        rw [Base64.b64encode_injective (String.ofList_injective (Scalar.str.inj e))] at seen
        exact absurd (Equal.bytes seen seen') differ
      | dataclass cls cls' x y =>
        cases hv
        cases hw
        by_cases names : cls = cls'
        · subst names
          refine Clash.fields seen seen' (ih (List.mem_cons_of_mem _ List.mem_cons_self) ?_)
          intro fields
          exact differ (Equal.dataclass seen seen' fields)
        · exact Clash.dataclass seen seen' names
      | object cls cls' x y outside outside' =>
        cases hv
        cases hw
        by_cases names : cls = cls' ∧ outside = outside'
        · obtain ⟨rfl, rfl⟩ := names
          refine Clash.state seen seen' (ih (List.mem_cons_of_mem _ List.mem_cons_self) ?_)
          intro state
          exact differ (Equal.object seen seen' state)
        · exact Clash.object seen seen' names
      | mapping items items' =>
        cases hv
        cases hw
        have related : Dict.Related (fun e e' => ¬ Equal heap e.2 e'.2 → Clash heap e.2 e'.2)
            (textTable items) (textTable items') := by
          have zipped := List.forall₂_iff_zip.mpr ⟨length_of_keys keys, fun {e e'} h =>
            And.intro (zip_key keys h) (@ih e e' h)⟩
          exact List.forall₂_map_left_iff.mp (List.forall₂_map_right_iff.mp zipped)
        refine table_clash seen seen' ?_ differ
        intro e e' opposite unequal
        obtain ⟨s, he, he'⟩ := opposite
        exact related.get? he he' unequal
    · exact Clash.kinds same
  | @array v w items items' hv hw length values ih =>
    intro differ
    by_cases same : kind (view heap v) = kind (view heap w)
    · have same := same_kind same
      generalize seen : view heap v = a at same
      generalize seen' : view heap w = b at same
      cases same with
      | sequence held held' =>
        cases sequence_reads seen hv
        cases sequence_reads seen' hw
        by_contra none
        refine differ (Equal.sequence seen seen' length ?_)
        intro x y hxy
        by_contra unequal
        exact none (Clash.item seen seen' hxy (ih hxy unequal))
      | set held held' => exact set_clash seen seen' differ
      | _ =>
        rcases hv with hv | ⟨_, hv, _⟩
        · cases (form_view seen).symm.trans hv
        · cases (form_view seen).symm.trans hv
    · exact Clash.kinds same

end Differ

/-! ## Definitions -/

variable (heap)

/-- The six fields pairwise equal. -/
structure SameDefinition (definition other : HandlerDefinition) : Prop where
  handlerName : definition.handlerName = other.handlerName
  entrypoint : definition.entrypoint = other.entrypoint
  initContext : Equal heap definition.initContext other.initContext
  initKwargs : Equal heap definition.initKwargs other.initKwargs
  metadata : Equal heap definition.metadata other.metadata
  reuseMode : definition.reuseMode = other.reuseMode

structure LookalikeDefinition (definition other : HandlerDefinition) : Prop where
  handlerName : definition.handlerName = other.handlerName
  entrypoint : definition.entrypoint = other.entrypoint
  initContext : Lookalike floatstr heap definition.initContext other.initContext
  initKwargs : Lookalike floatstr heap definition.initKwargs other.initKwargs
  metadata : Lookalike floatstr heap definition.metadata other.metadata
  reuseMode : definition.reuseMode = other.reuseMode

def ClashingDefinition (definition other : HandlerDefinition) : Prop :=
  Clash heap definition.initContext other.initContext ∨
    Clash heap definition.initKwargs other.initKwargs ∨
    Clash heap definition.metadata other.metadata

theorem reuse_text_injective {mode other : ReuseMode} (h : mode.text = other.text) :
    mode = other := by
  cases mode <;> cases other <;> first | rfl | exact absurd h (by decide)

/-- Two definitions have one cache key exactly when they look alike. -/
theorem cache_key_lookalike (texts : FloatTexts floatstr) {definition other : HandlerDefinition}
    {depth depth' : ℕ} {key key' : String} (h : definition.cacheKey floatstr heap depth = .ok key)
    (h' : other.cacheKey floatstr heap depth' = .ok key') :
    key = key' ↔ LookalikeDefinition floatstr heap definition other := by
  obtain ⟨context, kwargs, metadata, hc, hk, hm, rfl⟩ := cache_key_ok h
  obtain ⟨context', kwargs', metadata', hc', hk', hm', rfl⟩ := cache_key_ok h'
  constructor
  · intro same
    have tree := dumps_injective texts
      (definition_tree_ordered (spelled_ordered hc) (spelled_ordered hk) (spelled_ordered hm))
      (definition_tree_ordered (spelled_ordered hc') (spelled_ordered hk') (spelled_ordered hm'))
      same
    simp only [definitionTree, Json.object.injEq, List.cons.injEq, Prod.mk.injEq, true_and,
      Json.atom.injEq, Scalar.str.injEq, and_true] at tree
    obtain ⟨entrypoint, handlerName, rfl, rfl, rfl, reuseMode⟩ := tree
    exact ⟨handlerName, entrypoint, spelled_lookalike hc hc', spelled_lookalike hk hk',
      spelled_lookalike hm hm', reuse_text_injective reuseMode⟩
  · intro alike
    rw [lookalike_spelled texts alike.initContext hc hc',
      lookalike_spelled texts alike.initKwargs hk hk',
      lookalike_spelled texts alike.metadata hm hm', definitionTree, definitionTree,
      alike.entrypoint, alike.handlerName, alike.reuseMode]

/-- Equal cache keys mean equal definitions, except for definitions that look alike and clash. -/
theorem key_identifies_definition (texts : FloatTexts floatstr)
    (definition other : HandlerDefinition) (depth depth' : ℕ) (key key' : String)
    (h : definition.cacheKey floatstr heap depth = .ok key)
    (h' : other.cacheKey floatstr heap depth' = .ok key') :
    (key = key' → SameDefinition heap definition other) ↔
      ¬ (LookalikeDefinition floatstr heap definition other ∧
        ClashingDefinition heap definition other) := by
  rw [cache_key_lookalike floatstr heap texts h h']
  constructor
  · intro identifies both
    obtain ⟨alike, clash⟩ := both
    have same := identifies alike
    rcases clash with clash | clash | clash
    · exact clash_not_equal clash same.initContext
    · exact clash_not_equal clash same.initKwargs
    · exact clash_not_equal clash same.metadata
  · intro apart alike
    have equal : ∀ {v w : Value}, Lookalike floatstr heap v w →
        (Clash heap v w → ClashingDefinition heap definition other) → Equal heap v w := by
      intro v w looks clashing
      by_contra differ
      exact apart ⟨alike, clashing (lookalike_clash looks differ)⟩
    exact ⟨alike.handlerName, alike.entrypoint, equal alike.initContext Or.inl,
      equal alike.initKwargs (fun clash => Or.inr (Or.inl clash)),
      equal alike.metadata (fun clash => Or.inr (Or.inr clash)), alike.reuseMode⟩

/-! Two handlers that want the sizes 1 and 2, as a list (`listed`, and `relisted` with a list of
its own) and as a set. -/

def sampleHeap : Heap
  | 0 => .mapping ⟨[], List.nodup_nil⟩
  | 1 => .sequence false [.scalar (.int 1), .scalar (.int 2)]
  | 2 => .sequence false [.scalar (.int 1), .scalar (.int 2)]
  | 3 => .set false [.scalar (.int 2), .scalar (.int 1)]
  | 4 => .mapping ⟨[(Key.text "sizes", .ref 1)], List.nodup_singleton _⟩
  | 5 => .mapping ⟨[(Key.text "sizes", .ref 2)], List.nodup_singleton _⟩
  | 6 => .mapping ⟨[(Key.text "sizes", .ref 3)], List.nodup_singleton _⟩
  | _ => .unsupported ⟨"builtins.slice", 0⟩

def sampleDefinition (kwargs : Value) : HandlerDefinition :=
  { handlerName := "echo", entrypoint := "app:Echo", initContext := .ref 0, initKwargs := kwargs,
    metadata := .ref 0 }

def listed : HandlerDefinition := sampleDefinition (.ref 4)
def relisted : HandlerDefinition := sampleDefinition (.ref 5)
def gathered : HandlerDefinition := sampleDefinition (.ref 6)

theorem sample_key_identifies :
    (listed.cacheKey sampleFloats sampleHeap 3 = relisted.cacheKey sampleFloats sampleHeap 3) ∧
    ∀ key, listed.cacheKey sampleFloats sampleHeap 3 = .ok key →
      ((key = key → SameDefinition sampleHeap listed relisted) ↔
        ¬ (LookalikeDefinition sampleFloats sampleHeap listed relisted ∧
          ClashingDefinition sampleHeap listed relisted)) := by
  have same : listed.cacheKey sampleFloats sampleHeap 3 =
      relisted.cacheKey sampleFloats sampleHeap 3 := by decide +kernel
  exact ⟨same, fun key h => key_identifies_definition sampleFloats sampleHeap sample_texts
    listed relisted 3 3 key key h (same.symm.trans h)⟩

theorem set_shares_list_key :
    (∃ key, listed.cacheKey sampleFloats sampleHeap 3 = .ok key ∧
      gathered.cacheKey sampleFloats sampleHeap 3 = .ok key) ∧
    ¬ SameDefinition sampleHeap listed gathered := by
  constructor
  · refine ⟨"\x7b\"entrypoint\":\"app:Echo\",\"handler_name\":\"echo\",\"init_context\":\x7b\x7d," ++
        "\"init_kwargs\":\x7b\"sizes\":[1,2]\x7d,\"metadata\":\x7b\x7d," ++
        "\"reuse_mode\":\"worker_cached\"\x7d", ?_, ?_⟩
    · decide +kernel
    · decide +kernel
  · intro same
    have values := (same.initKwargs.mappings rfl rfl).2.2 (Key.text "sizes", .ref 1)
      List.mem_cons_self (Key.text "sizes", .ref 3) List.mem_cons_self rfl
    exact absurd values.kinds (by decide)

end CacheIdentity
