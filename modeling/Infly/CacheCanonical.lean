import Infly.CacheTexts
import Infly.CacheWriting

/-! # Cache keys do not depend on order

Neither the order of mapping entries or of set items nor the identity of objects shows in a cache
key, as long as the values are acyclic and their mappings have string keys.
-/
namespace CacheCanonical

open CacheKey CacheWriting
open JsonText (Json)
open Traversal (bind_ok_iff enough_for_all lift map_error mapM_error mapM_ok_iff)

variable (floatstr : PyFloat → String) (heap : Heap)

/-- The values that normalising a value goes on to. -/
def parts : View → List Value
  | .enum _ _ value => [value]
  | .dataclass _ fields => [fields]
  | .mapping items => items.entries.map Prod.snd
  | .sequence items | .set items => items
  | .object _ state _ => [state]
  | .scalar _ | .path _ | .bytes _ | .unsupported _ => []

def Part (x v : Value) : Prop := x ∈ parts (view heap v)

def TextKeys (items : Items) : Prop := ∀ e ∈ items.entries, e.1.held = .text e.1.shown

/-- A finite acyclic value whose mappings have string keys. -/
inductive Plain : Value → Prop where
  | intro {v : Value} (keys : ∀ items, view heap v = .mapping items → TextKeys items)
      (parts : ∀ x, Part heap x v → Plain x) : Plain v

/-- The one value is the other but for the order of mapping entries, the order of set items and the
identity of objects. -/
inductive Rearranged : Value → Value → Prop where
  | scalar {v w : Value} {value : Scalar} (hv : view heap v = .scalar value)
      (hw : view heap w = .scalar value) : Rearranged v w
  | path {v w : Value} {text : String} (hv : view heap v = .path text)
      (hw : view heap w = .path text) : Rearranged v w
  | bytes {v w : Value} {data : List UInt8} (hv : view heap v = .bytes data)
      (hw : view heap w = .bytes data) : Rearranged v w
  | unsupported {v w : Value} {cls : PyClass} (hv : view heap v = .unsupported cls)
      (hw : view heap w = .unsupported cls) : Rearranged v w
  | enum {v w x y : Value} {cls : PyClass} {member : String}
      (hv : view heap v = .enum cls member x) (hw : view heap w = .enum cls member y)
      (value : Rearranged x y) : Rearranged v w
  | dataclass {v w x y : Value} {cls : PyClass} (hv : view heap v = .dataclass cls x)
      (hw : view heap w = .dataclass cls y) (fields : Rearranged x y) : Rearranged v w
  | mapping {v w : Value} {items items' : Items} {pairs : List ((Key × Value) × (Key × Value))}
      (hv : view heap v = .mapping items) (hw : view heap w = .mapping items')
      (left : (pairs.map Prod.fst).Perm items.entries)
      (right : (pairs.map Prod.snd).Perm items'.entries) (keys : ∀ p ∈ pairs, p.1.1 = p.2.1)
      (values : ∀ p ∈ pairs, Rearranged p.1.2 p.2.2) : Rearranged v w
  | sequence {v w : Value} {pairs : List (Value × Value)}
      (hv : view heap v = .sequence (pairs.map Prod.fst))
      (hw : view heap w = .sequence (pairs.map Prod.snd))
      (values : ∀ p ∈ pairs, Rearranged p.1 p.2) : Rearranged v w
  | set {v w : Value} {items items' : List Value} {pairs : List (Value × Value)}
      (hv : view heap v = .set items) (hw : view heap w = .set items')
      (left : (pairs.map Prod.fst).Perm items) (right : (pairs.map Prod.snd).Perm items')
      (values : ∀ p ∈ pairs, Rearranged p.1 p.2) : Rearranged v w
  | object {v w x y : Value} {cls : PyClass} {outside : ℕ}
      (hv : view heap v = .object cls x outside) (hw : view heap w = .object cls y outside)
      (state : Rearranged x y) : Rearranged v w

variable {floatstr heap}

theorem Rearranged.symm {v w : Value} (h : Rearranged heap v w) : Rearranged heap w v := by
  induction h with
  | scalar hv hw => exact Rearranged.scalar hw hv
  | path hv hw => exact Rearranged.path hw hv
  | bytes hv hw => exact Rearranged.bytes hw hv
  | unsupported hv hw => exact Rearranged.unsupported hw hv
  | enum hv hw _ ih => exact Rearranged.enum hw hv ih
  | dataclass hv hw _ ih => exact Rearranged.dataclass hw hv ih
  | object hv hw _ ih => exact Rearranged.object hw hv ih
  | @mapping v w items items' pairs hv hw left right keys _ ih =>
    refine @Rearranged.mapping heap w v items' items (pairs.map Prod.swap) hw hv ?_ ?_ ?_ ?_
    · rwa [List.map_map]
    · rwa [List.map_map]
    · intro p hp
      obtain ⟨q, hq, rfl⟩ := List.mem_map.mp hp
      exact (keys q hq).symm
    · intro p hp
      obtain ⟨q, hq, rfl⟩ := List.mem_map.mp hp
      exact ih q hq
  | @sequence v w pairs hv hw _ ih =>
    refine @Rearranged.sequence heap w v (pairs.map Prod.swap) ?_ ?_ ?_
    · rwa [List.map_map]
    · rwa [List.map_map]
    · intro p hp
      obtain ⟨q, hq, rfl⟩ := List.mem_map.mp hp
      exact ih q hq
  | @set v w items items' pairs hv hw left right _ ih =>
    refine @Rearranged.set heap w v items' items (pairs.map Prod.swap) hw hv ?_ ?_ ?_
    · rwa [List.map_map]
    · rwa [List.map_map]
    · intro p hp
      obtain ⟨q, hq, rfl⟩ := List.mem_map.mp hp
      exact ih q hq

/-! ## Settling -/

theorem part_of {x v : Value} {a : View} (seen : view heap v = a) (hx : x ∈ parts a) :
    Part heap x v := by
  rw [← seen] at hx
  exact hx

theorem Plain.parts {v x : Value} (h : Plain heap v) (hx : Part heap x v) : Plain heap x := by
  cases h with
  | intro _ parts => exact parts x hx

theorem Plain.keys {v : Value} {items : Items} (h : Plain heap v)
    (seen : view heap v = .mapping items) : TextKeys items := by
  cases h with
  | intro keys _ => exact keys items seen

theorem Plain.acc {v : Value} (h : Plain heap v) : Acc (Part heap) v := by
  induction h with
  | intro _ _ ih => exact Acc.intro _ ih

theorem acc_irrefl {α : Type} {r : α → α → Prop} {a : α} (h : Acc r a) : ¬ r a a := by
  induction h with
  | intro a _ ih =>
    intro loop
    exact ih a loop loop

/-- No object whose id is in `seen` is met from `v` on. -/
def OffPath (heap : Heap) (seen : List ℕ) (v : Value) : Prop :=
  ∀ id ∈ seen, ¬ Relation.ReflTransGen (Part heap) (.ref id) v

theorem OffPath.part {seen : List ℕ} {v x : Value} (h : OffPath heap seen v)
    (hx : Part heap x v) : OffPath heap seen x := by
  intro id hid reached
  exact h id hid (reached.tail hx)

theorem OffPath.enter {seen : List ℕ} {id : ℕ} {x : Value} (h : OffPath heap seen (.ref id))
    (plain : Plain heap (.ref id)) (hx : Part heap x (.ref id)) :
    OffPath heap (id :: seen) x := by
  intro other hother reached
  rcases List.mem_cons.mp hother with rfl | hother
  · exact acc_irrefl plain.acc.transGen (Relation.TransGen.tail' reached hx)
  · exact h other hother (reached.tail hx)

theorem OffPath.fresh {seen : List ℕ} {id : ℕ} (h : OffPath heap seen (.ref id)) : id ∉ seen :=
  fun hid => h id hid Relation.ReflTransGen.refl

/-- Either a tree that `v` is written as, or a `TypeError` and `v` is written as nothing. -/
def Settles (floatstr : PyFloat → String) (heap : Heap) (v : Value)
    (outcome : Outcome (Json Scalar)) : Prop :=
  (∃ tree, outcome = .ok tree ∧ Spelled floatstr heap v tree) ∨
    ((∃ message, outcome = .error (.typeError message)) ∧ ∀ tree, ¬ Spelled floatstr heap v tree)

theorem Settles.ok {v : Value} {tree : Json Scalar}
    {outcome : Outcome (Json Scalar)} (h : Settles floatstr heap v outcome)
    (k : outcome = .ok tree) : Spelled floatstr heap v tree := by
  rcases h with ⟨_, e, h⟩ | ⟨⟨_, e⟩, _⟩
  · cases k.symm.trans e
    exact h
  · cases k.symm.trans e

theorem Settles.error {v : Value} {failure : Failure} {outcome : Outcome (Json Scalar)}
    (h : Settles floatstr heap v outcome) (k : outcome = .error failure) :
    (∃ message, failure = .typeError message) ∧ ∀ tree, ¬ Spelled floatstr heap v tree := by
  rcases h with ⟨_, e, _⟩ | ⟨⟨message, e⟩, h⟩
  · cases k.symm.trans e
  · cases k.symm.trans e
    exact ⟨⟨message, rfl⟩, h⟩

theorem settles_bind {v x : Value} {tag label rest : String} {outcome : Outcome (Json Scalar)}
    (written : form heap v = some (.tagged tag label rest x))
    (h : Settles floatstr heap x outcome) :
    Settles floatstr heap v (outcome >>= fun tree => .ok (tagged tag label rest tree)) := by
  rcases h with ⟨tree, rfl, h⟩ | ⟨⟨message, rfl⟩, h⟩
  · exact Or.inl ⟨_, rfl, spelled_tagged written h⟩
  · refine Or.inr ⟨⟨message, rfl⟩, ?_⟩
    intro tree k
    obtain ⟨members, _, entries⟩ := spelled_entries written k
    rcases entries with _ | ⟨_, _ | ⟨⟨_, value⟩, _⟩⟩
    exact h _ value

theorem settles_list {normalize : Value → Outcome (Json Scalar)} {xs : List Value}
    (h : ∀ x ∈ xs, Settles floatstr heap x (normalize x)) :
    (∃ trees, xs.mapM normalize = .ok trees ∧ List.Forall₂ (Spelled floatstr heap) xs trees) ∨
      ((∃ message, xs.mapM normalize = .error (.typeError message)) ∧
        ∀ trees, ¬ List.Forall₂ (Spelled floatstr heap) xs trees) := by
  cases k : xs.mapM normalize with
  | ok trees =>
    have each := List.forall₂_iff_zip.mp (mapM_ok_iff.mp k)
    refine Or.inl ⟨trees, rfl, List.forall₂_iff_zip.mpr ⟨each.1, ?_⟩⟩
    intro x j hxj
    exact (h x (List.of_mem_zip hxj).1).ok (each.2 hxj)
  | error failure =>
    obtain ⟨x, hx, raised⟩ := mapM_error k
    obtain ⟨⟨message, rfl⟩, none⟩ := (h x hx).error raised
    refine Or.inr ⟨⟨message, rfl⟩, ?_⟩
    intro trees spelled
    obtain ⟨j, hj⟩ := zip_right spelled.length_eq hx
    exact none j ((List.forall₂_iff_zip.mp spelled).2 hj)

theorem text_keys_shown {items : Items} (texts : TextKeys items) :
    (items.entries.map (fun e => e.1.shown)).Nodup := by
  have held : items.entries.map (fun e => e.1.held) =
      (items.entries.map (fun e => e.1.shown)).map Hashed.text := by
    rw [List.map_map]
    exact List.map_congr_left texts
  exact List.Nodup.of_map Hashed.text (held ▸ items.distinct)

/-- With string keys every item stands for its text. -/
theorem text_keys_table {items : Items} (texts : TextKeys items) {e : Key × Value}
    (he : e ∈ items.entries) : (textTable items).get? e.1.shown = some e := by
  have nodup : (items.sorted.map (fun e => e.1.shown)).Nodup :=
    ((List.perm_insertionSort _ items.entries).map _).nodup_iff.mpr (text_keys_shown texts)
  exact Dict.get?_setAll_of_mem (mem_sorted.mpr he) nodup

theorem settles_items {normalize : Value → Outcome (Json Scalar)} {v : Value} {items : Items}
    (written : form heap v = some (tableForm items)) (texts : TextKeys items)
    (h : ∀ e ∈ items.entries, Settles floatstr heap e.2 (normalize e.2)) :
    Settles floatstr heap v (normalizeItems normalize items) := by
  cases k : normalizeItems normalize items with
  | ok tree =>
    obtain ⟨members, rfl, related⟩ := normalize_items_ok k
    refine Or.inl ⟨_, rfl, spelled_items written (List.forall₂_iff_zip.mpr ⟨related.length_eq, ?_⟩)⟩
    intro e m hem
    obtain ⟨key, value⟩ := (List.forall₂_iff_zip.mp related).2 hem
    have member := Dict.get?_eq_some.mpr (List.of_mem_zip hem).1
    exact ⟨key, (h e.2 (table_item member).1).ok value⟩
  | error failure =>
    obtain ⟨e, he, raised⟩ := mapM_error (map_error k)
    have he := mem_sorted.mp he
    obtain ⟨⟨message, rfl⟩, none⟩ := (h e he).error (map_error raised)
    refine Or.inr ⟨⟨message, rfl⟩, ?_⟩
    intro tree spelled
    obtain ⟨members, _, each⟩ := spelled_entries written spelled
    have entry : (e.1.shown, e.2) ∈ (textTable items).entries.map (fun e => (e.1, e.2.2)) :=
      List.mem_map.mpr ⟨_, Dict.get?_eq_some.mp (text_keys_table texts he), rfl⟩
    obtain ⟨m, hm⟩ := zip_right each.length_eq entry
    exact none m.2 ((List.forall₂_iff_zip.mp each).2 hm).2

theorem settles_row {v : Value} {xs : List Value} {normalize : Value → Outcome (Json Scalar)}
    (written : form heap v = some (.row xs))
    (h : ∀ x ∈ xs, Settles floatstr heap x (normalize x)) :
    Settles floatstr heap v (xs.mapM normalize >>= fun trees => .ok (.array trees)) := by
  rcases settles_list h with ⟨trees, k, spelled⟩ | ⟨⟨message, k⟩, none⟩
  · rw [k]
    exact Or.inl ⟨_, rfl, spelled_row written spelled⟩
  · rw [k]
    refine Or.inr ⟨⟨message, rfl⟩, ?_⟩
    intro tree spelled
    obtain ⟨trees, _, spelled⟩ := spelled_row_items written spelled
    exact none trees spelled

theorem settles_bag {v : Value} {xs : List Value} {normalize : Value → Outcome (Json Scalar)}
    (written : form heap v = some (.bag xs))
    (h : ∀ x ∈ xs, Settles floatstr heap x (normalize x)) :
    Settles floatstr heap v
      (xs.mapM normalize >>= fun trees => .ok (.array (sortedByText floatstr trees))) := by
  rcases settles_list h with ⟨trees, k, spelled⟩ | ⟨⟨message, k⟩, none⟩
  · rw [k]
    exact Or.inl ⟨_, rfl, spelled_bag written spelled⟩
  · rw [k]
    refine Or.inr ⟨⟨message, rfl⟩, ?_⟩
    intro tree spelled
    obtain ⟨trees, _, spelled⟩ := spelled_bag_items written spelled
    exact none trees spelled

theorem settles_entering {v : Value} {seen : List ℕ} {id : ℕ}
    {branch : List ℕ → Outcome (Json Scalar)} (fresh : id ∉ seen)
    (h : Settles floatstr heap v (branch (id :: seen))) :
    Settles floatstr heap v (entering seen id branch) := by
  unfold entering
  rwa [if_neg fresh]

/-- The recursion over a plain value settles once it may go deep enough. -/
theorem plain_settles {v : Value} (plain : Plain heap v) : ∃ enough, ∀ depth, enough ≤ depth →
    ∀ seen, OffPath heap seen v →
      Settles floatstr heap v (normalizeCacheValue floatstr heap depth seen v) := by
  induction plain with
  | @intro v keys plain ih =>
    obtain ⟨enough, settles⟩ := @enough_for_all _ _ (parts (view heap v)) (fun x hx => ih x hx)
    refine ⟨enough + 1, ?_⟩
    intro depth hdepth seen off
    obtain ⟨depth, rfl⟩ := Nat.exists_eq_add_of_le' (Nat.le_of_add_left_le hdepth)
    have settles := settles depth (by omega)
    cases v with
    | scalar value => exact Or.inl ⟨_, rfl, spelled_scalar value⟩
    | fieldsOf id =>
      refine settles_items rfl (keys _ rfl) ?_
      intro e he
      have hx : Part heap e.2 (.fieldsOf id) := List.mem_map_of_mem he
      exact settles e.2 hx seen (off.part hx)
    | ref id =>
      have entered : ∀ {x : Value}, Part heap x (.ref id) → Settles floatstr heap x
          (normalizeCacheValue floatstr heap depth (id :: seen) x) :=
        fun hx => settles _ hx _ (off.enter (Plain.intro keys plain) hx)
      rw [normalizeCacheValue]
      cases node : heap id with
      | enum cls member x =>
        have hx := part_of (view_ref node) List.mem_cons_self
        exact settles_bind (form_view (view_ref node)) (settles x hx seen (off.part hx))
      | path text =>
        exact Or.inl ⟨_, rfl, spelled_table (form_view (view_ref node))
          (List.Forall₂.cons ⟨rfl, spelled_scalar _⟩ List.Forall₂.nil)⟩
      | bytes array data =>
        exact Or.inl ⟨_, rfl, spelled_table (form_view (view_ref node))
          (List.Forall₂.cons ⟨rfl, spelled_scalar _⟩ List.Forall₂.nil)⟩
      | dataclass cls fields =>
        have hx := part_of (view_ref node) List.mem_cons_self
        exact settles_bind (form_view (view_ref node)) (settles _ hx seen (off.part hx))
      | mapping items =>
        rw [normalizeNode]
        refine settles_entering off.fresh ?_
        refine settles_items (form_view (view_ref node)) (keys _ (view_ref node)) ?_
        intro e he
        exact entered (part_of (view_ref node) (List.mem_map_of_mem he))
      | sequence tuple items =>
        rw [normalizeNode]
        refine settles_entering off.fresh ?_
        exact settles_row (form_view (view_ref node))
          (fun x hx => entered (part_of (view_ref node) hx))
      | set frozen items =>
        rw [normalizeNode]
        refine settles_entering off.fresh ?_
        exact settles_bag (form_view (view_ref node))
          (fun x hx => entered (part_of (view_ref node) hx))
      | object cls state outside =>
        rw [normalizeNode]
        refine settles_entering off.fresh ?_
        exact settles_bind (form_view (view_ref node))
          (entered (part_of (view_ref node) List.mem_cons_self))
      | unsupported cls =>
        rw [normalizeNode]
        refine settles_entering off.fresh (Or.inr ⟨⟨_, rfl⟩, ?_⟩)
        intro tree spelled
        have written := form_view (view_ref node)
        cases spelled with
        | atom h => cases written.symm.trans h
        | table h _ _ => cases written.symm.trans h
        | row h _ _ => cases written.symm.trans h
        | bag h _ _ => cases written.symm.trans h

/-! ## Texts of rearranged values -/

def SameText (floatstr : PyFloat → String) (tree other : Json Scalar) : Prop :=
  dumps floatstr tree = dumps floatstr other

theorem text_of_dumps (tree : Json Scalar) :
    JsonText.text (Scalar.text floatstr) tree = (dumps floatstr tree).toList :=
  String.toList_ofList.symm

theorem same_array {trees others : List (Json Scalar)}
    (h : trees.map (dumps floatstr) = others.map (dumps floatstr)) :
    SameText floatstr (.array trees) (.array others) := by
  have texts : trees.map (JsonText.text (Scalar.text floatstr)) =
      others.map (JsonText.text (Scalar.text floatstr)) := by
    have h := congrArg (List.map String.toList) h
    rw [List.map_map, List.map_map] at h
    rw [List.map_congr_left (fun tree _ => text_of_dumps tree),
      List.map_congr_left (fun tree _ => text_of_dumps tree)]
    exact h
  unfold SameText dumps
  rw [JsonText.text_array, JsonText.text_array, texts]

theorem same_object {members others : List (String × Json Scalar)}
    (h : List.Forall₂ (fun m n => m.1 = n.1 ∧ SameText floatstr m.2 n.2) members others) :
    SameText floatstr (.object members) (.object others) := by
  have texts : members.map (fun m => (m.1, JsonText.text (Scalar.text floatstr) m.2)) =
      others.map (fun m => (m.1, JsonText.text (Scalar.text floatstr) m.2)) := by
    induction h with
    | nil => rfl
    | cons h _ ih =>
      rw [List.map_cons, List.map_cons, ih, h.1, text_of_dumps, text_of_dumps, h.2]
  unfold SameText dumps
  rw [JsonText.text_object, JsonText.text_object, texts]

theorem same_texts {trees others : List (Json Scalar)}
    (h : List.Forall₂ (SameText floatstr) trees others) :
    trees.map (dumps floatstr) = others.map (dumps floatstr) := by
  rw [← List.forall₂_eq_eq_eq]
  exact List.forall₂_map_left_iff.mpr (List.forall₂_map_right_iff.mpr h)

theorem sorted_texts (trees : List (Json Scalar)) : (sortedByText floatstr trees).map
    (dumps floatstr) = (trees.map (dumps floatstr)).insertionSort (· ≤ ·) :=
  List.map_insertionSort _ _ _ _ (fun _ _ _ _ => Iff.rfl)

/-- The order in which a set is iterated is erased by the sort, ties and all. -/
theorem same_bag {trees others : List (Json Scalar)}
    (h : (trees.map (dumps floatstr)).Perm (others.map (dumps floatstr))) :
    SameText floatstr (.array (sortedByText floatstr trees))
      (.array (sortedByText floatstr others)) := by
  apply same_array
  rw [sorted_texts, sorted_texts]
  have perm := ((List.perm_insertionSort (· ≤ ·) _).trans h).trans
    (List.perm_insertionSort (· ≤ ·) _).symm
  exact perm.eq_of_pairwise (fun _ _ _ _ => le_antisymm) (List.pairwise_insertionSort _ _)
    (List.pairwise_insertionSort _ _)

/-- What stands for a text in one mapping is paired with what stands for it in the other. -/
theorem rearranged_tables {items items' : Items} {pairs : List ((Key × Value) × (Key × Value))}
    (left : (pairs.map Prod.fst).Perm items.entries)
    (right : (pairs.map Prod.snd).Perm items'.entries) (keys : ∀ p ∈ pairs, p.1.1 = p.2.1)
    (texts : TextKeys items') :
    Dict.Related (fun e e' => (e, e') ∈ pairs) (textTable items) (textTable items') := by
  have partner : ∀ {e}, e ∈ items.entries → ∃ e', (e, e') ∈ pairs ∧ e' ∈ items'.entries := by
    intro e he
    obtain ⟨p, hp, rfl⟩ := List.mem_map.mp (left.mem_iff.mpr he)
    exact ⟨p.2, hp, right.mem_iff.mp (List.mem_map_of_mem hp)⟩
  have same : (textTable items).keys = (textTable items').keys := by
    have perm : ((textTable items).keys).Perm (textTable items').keys := by
      refine (List.perm_ext_iff_of_nodup (Dict.keys_nodup _) (Dict.keys_nodup _)).mpr ?_
      intro s
      constructor
      · intro h
        obtain ⟨e, he⟩ := Dict.mem_keys.mp h
        obtain ⟨mem, rfl⟩ := table_item he
        obtain ⟨e', hp, he'⟩ := partner mem
        rw [keys _ hp]
        exact Dict.mem_keys.mpr (table_covers he')
      · intro h
        obtain ⟨e', he'⟩ := Dict.mem_keys.mp h
        obtain ⟨mem, rfl⟩ := table_item he'
        obtain ⟨p, hp, rfl⟩ := List.mem_map.mp (right.mem_iff.mpr mem)
        rw [← keys p hp]
        exact Dict.mem_keys.mpr (table_covers (left.mem_iff.mp (List.mem_map_of_mem hp)))
    have ascending : ∀ items, (textTable items).keys.Pairwise (· < ·) :=
      fun items => List.pairwise_map.mpr (table_ascending items)
    exact perm.eq_of_pairwise (fun _ _ _ _ h k => absurd h (lt_asymm k)) (ascending items)
      (ascending items')
  refine List.forall₂_iff_zip.mpr ⟨length_of_keys same, ?_⟩
  intro a b hab
  have key := zip_key same hab
  have ha := table_item (Dict.get?_eq_some.mpr (List.of_mem_zip hab).1)
  have hb := Dict.get?_eq_some.mpr (List.of_mem_zip hab).2
  obtain ⟨e', hp, he'⟩ := partner ha.1
  have found := text_keys_table texts he'
  rw [← keys _ hp, ha.2, key, hb] at found
  cases found
  exact ⟨key, hp⟩

theorem rearranged_tagged {v w x y : Value} {tag label rest : String} {tree : Json Scalar}
    (hv : form heap v = some (.tagged tag label rest x))
    (hw : form heap w = some (.tagged tag label rest y))
    (h : ∀ {j}, Spelled floatstr heap x j → ∃ k, Spelled floatstr heap y k ∧ SameText floatstr j k)
    (spelled : Spelled floatstr heap v tree) :
    ∃ other, Spelled floatstr heap w other ∧ SameText floatstr tree other := by
  obtain ⟨members, rfl, entries⟩ := spelled_entries hv spelled
  rcases entries with _ | ⟨⟨first, named⟩, _ | ⟨⟨second, value⟩, _ | _⟩⟩
  obtain ⟨k, hk, same⟩ := h value
  refine ⟨_, spelled_tagged hw hk, same_object ?_⟩
  refine List.Forall₂.cons ⟨first.symm, ?_⟩ (List.Forall₂.cons ⟨second.symm, same⟩ List.Forall₂.nil)
  rw [spelled_scalar_only named]
  rfl

theorem rearranged_items {pairs : List (Value × Value)}
    (h : ∀ p ∈ pairs, ∀ j, Spelled floatstr heap p.1 j →
      ∃ k, Spelled floatstr heap p.2 k ∧ SameText floatstr j k) :
    List.Forall₂ (fun x y => ∀ j, Spelled floatstr heap x j →
      ∃ k, Spelled floatstr heap y k ∧ SameText floatstr j k) (pairs.map Prod.fst)
      (pairs.map Prod.snd) := by
  refine List.forall₂_map_left_iff.mpr (List.forall₂_map_right_iff.mpr ?_)
  exact List.forall₂_same.mpr h

/-- A rearranged value is written as a tree of the same text. -/
theorem rearranged_spelled {v w : Value} (h : Rearranged heap v w) : ∀ {tree : Json Scalar},
    Plain heap w → Spelled floatstr heap v tree →
    ∃ other, Spelled floatstr heap w other ∧ SameText floatstr tree other := by
  induction h with
  | scalar hv hw | path hv hw | bytes hv hw | unsupported hv hw =>
    intro tree _ spelled
    exact ⟨tree, spelled.congr ((form_view hv).trans (form_view hw).symm), rfl⟩
  | enum hv hw _ ih =>
    intro tree plain spelled
    have plain := plain.parts (part_of hw List.mem_cons_self)
    exact rearranged_tagged (form_view hv) (form_view hw) (fun hj => ih plain hj) spelled
  | dataclass hv hw _ ih =>
    intro tree plain spelled
    have plain := plain.parts (part_of hw List.mem_cons_self)
    exact rearranged_tagged (form_view hv) (form_view hw) (fun hj => ih plain hj) spelled
  | object hv hw _ ih =>
    intro tree plain spelled
    have plain := plain.parts (part_of hw List.mem_cons_self)
    exact rearranged_tagged (form_view hv) (form_view hw) (fun hj => ih plain hj) spelled
  | @mapping v w items items' pairs hv hw left right keys _ ih =>
    intro tree plain spelled
    obtain ⟨members, rfl, entries⟩ := spelled_entries (form_view hv) spelled
    have related : List.Forall₂ (fun a b : String × (Key × Value) => ∀ m : String × Json Scalar,
        a.1 = m.1 ∧ Spelled floatstr heap a.2.2 m.2 →
        ∃ n : String × Json Scalar, (b.1 = n.1 ∧ Spelled floatstr heap b.2.2 n.2) ∧
          (m.1 = n.1 ∧ SameText floatstr m.2 n.2)) (textTable items).entries
        (textTable items').entries := by
      refine (rearranged_tables left right keys (plain.keys hw)).imp ?_
      intro a b hab m hm
      have part : b.2.2 ∈ parts (.mapping items') :=
        List.mem_map_of_mem (right.mem_iff.mp (List.mem_map_of_mem hab.2))
      obtain ⟨k, hk, same⟩ := ih _ hab.2 (plain.parts (part_of hw part)) hm.2
      exact ⟨(b.1, k), ⟨rfl, hk⟩, hm.1.symm.trans hab.1, same⟩
    obtain ⟨others, spelled', same⟩ := lift related (List.forall₂_map_left_iff.mp entries)
    exact ⟨_, spelled_table (form_view hw) (List.forall₂_map_left_iff.mpr spelled'),
      same_object same⟩
  | @sequence v w pairs hv hw _ ih =>
    intro tree plain spelled
    obtain ⟨trees, rfl, items⟩ := spelled_row_items (form_view hv) spelled
    have related := rearranged_items (fun p hp _ hj =>
      ih p hp (plain.parts (part_of hw (List.mem_map_of_mem hp))) hj)
    obtain ⟨others, spelled', same⟩ := lift related items
    exact ⟨_, spelled_row (form_view hw) spelled', same_array (same_texts same)⟩
  | @set v w items items' pairs hv hw left right _ ih =>
    intro tree plain spelled
    obtain ⟨trees, rfl, held⟩ := spelled_bag_items (form_view hv) spelled
    have related := rearranged_items (fun p hp _ hj =>
      ih p hp (plain.parts (part_of hw (right.mem_iff.mp (List.mem_map_of_mem hp)))) hj)
    obtain ⟨trees', hfirst, perm⟩ := List.perm_comp_forall₂ left held
    obtain ⟨others', hsecond, same⟩ := lift related hfirst
    obtain ⟨others, hothers, perm'⟩ := List.perm_comp_forall₂ right.symm hsecond
    refine ⟨_, spelled_bag (form_view hw) hothers, same_bag ?_⟩
    have texts := (perm.map (dumps floatstr)).symm
    rw [same_texts same] at texts
    exact texts.trans (perm'.map (dumps floatstr)).symm

/-! ## Definitions -/

/-- Both raise `TypeError`, or both return trees of one text. -/
def Agree (floatstr : PyFloat → String) (outcome other : Outcome (Json Scalar)) : Prop :=
  (∃ tree tree', outcome = .ok tree ∧ other = .ok tree' ∧ SameText floatstr tree tree') ∨
    ∃ message message', outcome = .error (.typeError message) ∧
      other = .error (.typeError message')

theorem rearranged_agree {v w : Value} (h : Rearranged heap v w) (hv : Plain heap v)
    (hw : Plain heap w) : ∃ enough, ∀ depth depth', enough ≤ depth → enough ≤ depth' →
      Agree floatstr (normalizeCacheValue floatstr heap depth [] v)
        (normalizeCacheValue floatstr heap depth' [] w) := by
  obtain ⟨a, ha⟩ := @plain_settles floatstr heap v hv
  obtain ⟨b, hb⟩ := @plain_settles floatstr heap w hw
  have off : ∀ v, OffPath heap [] v := fun v id hid => absurd hid List.not_mem_nil
  refine ⟨max a b, ?_⟩
  intro depth depth' hd hd'
  have hv' := ha depth (le_trans (le_max_left a b) hd) [] (off v)
  have hw' := hb depth' (le_trans (le_max_right a b) hd') [] (off w)
  rcases hv' with ⟨tree, ok, spelled⟩ | ⟨⟨message, error⟩, none⟩
  · obtain ⟨other, spelled', same⟩ := rearranged_spelled h hw spelled
    rcases hw' with ⟨tree', ok', spelled''⟩ | ⟨_, none⟩
    · cases spelled_unique spelled' spelled''
      exact Or.inl ⟨_, _, ok, ok', same⟩
    · exact absurd spelled' (none _)
  · rcases hw' with ⟨tree', _, spelled'⟩ | ⟨⟨message', error'⟩, _⟩
    · obtain ⟨other, spelled, _⟩ := rearranged_spelled h.symm hv spelled'
      exact absurd spelled (none _)
    · exact Or.inr ⟨_, _, error, error'⟩

variable (heap)

structure PlainDefinition (definition : HandlerDefinition) : Prop where
  initContext : Plain heap definition.initContext
  initKwargs : Plain heap definition.initKwargs
  metadata : Plain heap definition.metadata

structure RearrangedDefinition (definition other : HandlerDefinition) : Prop where
  handlerName : definition.handlerName = other.handlerName
  entrypoint : definition.entrypoint = other.entrypoint
  initContext : Rearranged heap definition.initContext other.initContext
  initKwargs : Rearranged heap definition.initKwargs other.initKwargs
  metadata : Rearranged heap definition.metadata other.metadata
  reuseMode : definition.reuseMode = other.reuseMode

variable {heap}

theorem definition_same_text {definition other : HandlerDefinition}
    (same : RearrangedDefinition heap definition other) {c c' k k' m m' : Json Scalar}
    (hc : SameText floatstr c c') (hk : SameText floatstr k k') (hm : SameText floatstr m m') :
    SameText floatstr (definitionTree definition c k m) (definitionTree other c' k' m') := by
  refine same_object ?_
  rw [same.entrypoint, same.handlerName, same.reuseMode]
  exact .cons ⟨rfl, rfl⟩ (.cons ⟨rfl, rfl⟩ (.cons ⟨rfl, hc⟩ (.cons ⟨rfl, hk⟩
    (.cons ⟨rfl, hm⟩ (.cons ⟨rfl, rfl⟩ .nil)))))

variable (heap)

/-- Deep enough recursion allowed, the cache keys of rearranged definitions are one text, or neither
has one. -/
theorem rearranged_definition_same_key (floatstr : PyFloat → String)
    {definition other : HandlerDefinition} (plain : PlainDefinition heap definition)
    (plain' : PlainDefinition heap other) (same : RearrangedDefinition heap definition other) :
    ∃ enough, ∀ depth depth', enough ≤ depth → enough ≤ depth' →
      (∃ message message',
        definition.cacheKey floatstr heap depth = .error (.typeError message) ∧
        other.cacheKey floatstr heap depth' = .error (.typeError message')) ∨
      ∃ key, definition.cacheKey floatstr heap depth = .ok key ∧
        other.cacheKey floatstr heap depth' = .ok key := by
  obtain ⟨a, context⟩ := @rearranged_agree floatstr heap _ _ same.initContext plain.initContext
    plain'.initContext
  obtain ⟨b, kwargs⟩ := @rearranged_agree floatstr heap _ _ same.initKwargs plain.initKwargs
    plain'.initKwargs
  obtain ⟨c, metadata⟩ := @rearranged_agree floatstr heap _ _ same.metadata plain.metadata
    plain'.metadata
  refine ⟨max a (max b c) + 1, ?_⟩
  intro depth depth' hd hd'
  obtain ⟨depth, rfl⟩ := Nat.exists_eq_add_of_le' (Nat.le_of_add_left_le hd)
  obtain ⟨depth', rfl⟩ := Nat.exists_eq_add_of_le' (Nat.le_of_add_left_le hd')
  have context := context (depth + 1) (depth' + 1) (by omega) (by omega)
  have kwargs := kwargs (depth + 1) (depth' + 1) (by omega) (by omega)
  have metadata := metadata (depth + 1) (depth' + 1) (by omega) (by omega)
  rw [cache_key_eq, cache_key_eq]
  rcases context with ⟨c, c', hc, hc', context⟩ | ⟨m, m', hc, hc'⟩
  · rcases kwargs with ⟨k, k', hk, hk', kwargs⟩ | ⟨m, m', hk, hk'⟩
    · rcases metadata with ⟨t, t', ht, ht', metadata⟩ | ⟨m, m', ht, ht'⟩
      · rw [hc, hc', hk, hk', ht, ht']
        refine Or.inr ⟨_, rfl, congrArg Except.ok ?_⟩
        exact (definition_same_text same context kwargs metadata).symm
      · rw [hc, hc', hk, hk', ht, ht']
        exact Or.inl ⟨m, m', rfl, rfl⟩
    · rw [hc, hc', hk, hk']
      exact Or.inl ⟨m, m', rfl, rfl⟩
  · rw [hc, hc']
    exact Or.inl ⟨m, m', rfl, rfl⟩

/-! Keyword arguments `{"sizes": {1, 2}, "point": Point(x=5)}`, and another `Point(x=5)` and another
set of the sizes entered in the other order. -/

def sizesFirst : List (Key × Value) := [(Key.text "sizes", .ref 2), (Key.text "point", .ref 3)]
def pointFirst : List (Key × Value) := [(Key.text "point", .ref 6), (Key.text "sizes", .ref 5)]

theorem sizes_first_distinct : (sizesFirst.map (fun e => e.1.held)).Nodup := by decide
theorem point_first_distinct : (pointFirst.map (fun e => e.1.held)).Nodup := by decide

def sampleHeap : Heap
  | 0 => .mapping ⟨[], List.nodup_nil⟩
  | 1 => .mapping ⟨sizesFirst, sizes_first_distinct⟩
  | 2 => .set false [.scalar (.int 1), .scalar (.int 2)]
  | 3 => .dataclass ⟨"app.Point", 0⟩ ⟨[("x", .scalar (.int 5))], List.nodup_singleton _⟩
  | 4 => .mapping ⟨pointFirst, point_first_distinct⟩
  | 5 => .set false [.scalar (.int 2), .scalar (.int 1)]
  | 6 => .dataclass ⟨"app.Point", 0⟩ ⟨[("x", .scalar (.int 5))], List.nodup_singleton _⟩
  | _ => .unsupported ⟨"builtins.slice", 0⟩

def sampleDefinition (kwargs : Value) : HandlerDefinition :=
  { handlerName := "echo", entrypoint := "app:Echo", initContext := .ref 0, initKwargs := kwargs,
    metadata := .ref 0 }

variable {heap}

theorem plain_of {v : Value} {a : View} (seen : view heap v = a)
    (keys : ∀ items, a = .mapping items → TextKeys items) (h : ∀ x ∈ parts a, Plain heap x) :
    Plain heap v := by
  refine Plain.intro (fun items k => keys items (seen.symm.trans k)) ?_
  intro x hx
  unfold Part at hx
  rw [seen] at hx
  exact h x hx

theorem plain_scalar (value : Scalar) : Plain heap (.scalar value) := by
  refine plain_of rfl ?_ ?_
  · intro _ h
    cases h
  · intro _ h
    exact absurd h List.not_mem_nil

theorem plain_mapping {v : Value} {items : Items} (seen : view heap v = .mapping items)
    (keys : TextKeys items) (h : ∀ e ∈ items.entries, Plain heap e.2) : Plain heap v := by
  refine plain_of seen ?_ ?_
  · intro _ e
    cases e
    exact keys
  · intro x hx
    obtain ⟨e, he, rfl⟩ := List.mem_map.mp hx
    exact h e he

theorem plain_set {v : Value} {items : List Value} (seen : view heap v = .set items)
    (h : ∀ x ∈ items, Plain heap x) : Plain heap v := by
  refine plain_of seen ?_ h
  intro _ e
  cases e

theorem plain_dataclass {v fields : Value} {cls : PyClass}
    (seen : view heap v = .dataclass cls fields) (h : Plain heap fields) : Plain heap v := by
  refine plain_of seen ?_ ?_
  · intro _ e
    cases e
  · intro x hx
    rw [List.mem_singleton.mp hx]
    exact h

theorem plain_definition {kwargs : Value} (h : Plain sampleHeap kwargs) :
    PlainDefinition sampleHeap (sampleDefinition kwargs) := by
  have empty : Plain sampleHeap (.ref 0) := plain_mapping rfl
    (fun _ h => absurd h List.not_mem_nil) (fun _ h => absurd h List.not_mem_nil)
  exact ⟨empty, h, empty⟩

theorem plain_sizes {id : ℕ} {a b : Scalar}
    (seen : view sampleHeap (.ref id) = .set [.scalar a, .scalar b]) :
    Plain sampleHeap (.ref id) :=
  plain_set seen (List.forall_mem_cons.mpr
    ⟨plain_scalar a, List.forall_mem_singleton.mpr (plain_scalar b)⟩)

theorem point_view {id : ℕ} (h : id ∈ [3, 6]) :
    view sampleHeap (.ref id) = .dataclass ⟨"app.Point", 0⟩ (.fieldsOf id) ∧
      view sampleHeap (.fieldsOf id) =
        .mapping ⟨[(Key.text "x", .scalar (.int 5))], List.nodup_singleton _⟩ := by
  simp only [List.mem_cons, List.not_mem_nil, or_false] at h
  rcases h with rfl | rfl
  · exact ⟨rfl, rfl⟩
  · exact ⟨rfl, rfl⟩

theorem plain_point {id : ℕ} (h : id ∈ [3, 6]) : Plain sampleHeap (.ref id) := by
  obtain ⟨seen, fields⟩ := point_view h
  refine plain_dataclass seen (plain_mapping fields ?_ ?_)
  · exact List.forall_mem_singleton.mpr rfl
  · exact List.forall_mem_singleton.mpr (plain_scalar _)

theorem plain_sizes_first : Plain sampleHeap (.ref 1) := by
  refine @plain_mapping _ _ ⟨sizesFirst, sizes_first_distinct⟩ rfl ?_ ?_
  · exact List.forall_mem_cons.mpr ⟨rfl, List.forall_mem_singleton.mpr rfl⟩
  · exact List.forall_mem_cons.mpr ⟨plain_sizes rfl,
      List.forall_mem_singleton.mpr (plain_point (by decide))⟩

theorem plain_point_first : Plain sampleHeap (.ref 4) := by
  refine @plain_mapping _ _ ⟨pointFirst, point_first_distinct⟩ rfl ?_ ?_
  · exact List.forall_mem_cons.mpr ⟨rfl, List.forall_mem_singleton.mpr rfl⟩
  · exact List.forall_mem_cons.mpr ⟨plain_point (by decide),
      List.forall_mem_singleton.mpr (plain_sizes rfl)⟩

theorem rearranged_scalar (value : Scalar) :
    Rearranged sampleHeap (.scalar value) (.scalar value) := Rearranged.scalar rfl rfl

theorem rearranged_sizes : Rearranged sampleHeap (.ref 2) (.ref 5) := by
  refine @Rearranged.set _ _ _ _ _ [(.scalar (.int 1), .scalar (.int 1)),
    (.scalar (.int 2), .scalar (.int 2))] rfl rfl (List.Perm.refl _) (List.Perm.swap _ _ _) ?_
  exact List.forall_mem_cons.mpr ⟨rearranged_scalar _,
    List.forall_mem_singleton.mpr (rearranged_scalar _)⟩

theorem rearranged_point : Rearranged sampleHeap (.ref 3) (.ref 6) := by
  obtain ⟨seen, fields⟩ := point_view (show 3 ∈ [3, 6] by decide)
  obtain ⟨seen', fields'⟩ := point_view (show 6 ∈ [3, 6] by decide)
  refine Rearranged.dataclass seen seen' ?_
  refine @Rearranged.mapping _ _ _ _ _ [((Key.text "x", .scalar (.int 5)),
    (Key.text "x", .scalar (.int 5)))] fields fields' (List.Perm.refl _) (List.Perm.refl _) ?_ ?_
  · exact List.forall_mem_singleton.mpr rfl
  · exact List.forall_mem_singleton.mpr (rearranged_scalar _)

theorem rearranged_kwargs : Rearranged sampleHeap (.ref 1) (.ref 4) := by
  refine @Rearranged.mapping _ _ _ ⟨sizesFirst, sizes_first_distinct⟩
    ⟨pointFirst, point_first_distinct⟩ [((Key.text "sizes", .ref 2), (Key.text "sizes", .ref 5)),
      ((Key.text "point", .ref 3), (Key.text "point", .ref 6))] rfl rfl (List.Perm.refl _)
    (List.Perm.swap _ _ _) ?_ ?_
  · exact List.forall_mem_cons.mpr ⟨rfl, List.forall_mem_singleton.mpr rfl⟩
  · exact List.forall_mem_cons.mpr ⟨rearranged_sizes,
      List.forall_mem_singleton.mpr rearranged_point⟩

theorem rearranged_definition : RearrangedDefinition sampleHeap (sampleDefinition (.ref 1))
    (sampleDefinition (.ref 4)) := by
  have empty : Rearranged sampleHeap (.ref 0) (.ref 0) := by
    refine @Rearranged.mapping _ _ _ ⟨[], List.nodup_nil⟩ ⟨[], List.nodup_nil⟩ [] rfl rfl
      (List.Perm.refl _) (List.Perm.refl _) ?_ ?_
    · intro _ h
      exact absurd h List.not_mem_nil
    · intro _ h
      exact absurd h List.not_mem_nil
  exact ⟨rfl, rfl, empty, rearranged_kwargs, empty, rfl⟩

theorem sample_same_key : ∃ enough, ∀ depth depth', enough ≤ depth → enough ≤ depth' →
    (∃ message message',
      (sampleDefinition (.ref 1)).cacheKey CacheTexts.sampleFloats sampleHeap depth =
        .error (.typeError message) ∧
      (sampleDefinition (.ref 4)).cacheKey CacheTexts.sampleFloats sampleHeap depth' =
        .error (.typeError message')) ∨
    ∃ key, (sampleDefinition (.ref 1)).cacheKey CacheTexts.sampleFloats sampleHeap depth = .ok key ∧
      (sampleDefinition (.ref 4)).cacheKey CacheTexts.sampleFloats sampleHeap depth' = .ok key :=
  rearranged_definition_same_key sampleHeap CacheTexts.sampleFloats
    (plain_definition plain_sizes_first) (plain_definition plain_point_first)
    rearranged_definition

end CacheCanonical
