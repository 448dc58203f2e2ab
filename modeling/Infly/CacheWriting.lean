import Infly.CacheKey
import Infly.Traversal

/-! # What a value is written as

One level of a normalised value is an atom, a table of texts, a row, or a bag whose items are put
in the order of their own text. A successful normalisation writes every level so, whatever `_seen`
and the depth.
-/
namespace CacheWriting

open CacheKey
open JsonText (Json Ordered)
open Traversal (agree bind_ok_iff mapM_ok_iff)

/-! ## The tables of mappings -/

theorem set_all_ascending {κ ν α : Type} [LinearOrder κ] {key : α → κ} {val : α → ν} {l : List α}
    {d : Dict κ ν} (sorted : l.Pairwise (fun a b => key a ≤ key b))
    (ascending : d.entries.Pairwise (fun a b => a.1 < b.1))
    (below : ∀ k ∈ d.keys, ∀ a ∈ l, k ≤ key a) :
    (d.setAll key val l).entries.Pairwise (fun a b => a.1 < b.1) := by
  induction l generalizing d with
  | nil => exact ascending
  | cons a l ih =>
    rw [List.pairwise_cons] at sorted
    rw [Dict.setAll, List.foldl_cons]
    apply ih sorted.2
    · unfold Dict.set
      by_cases h : key a ∈ d.keys
      · rw [dif_pos h]
        refine List.pairwise_map.mpr (ascending.imp ?_)
        intro x y hxy
        by_cases hx : x.1 = key a <;> by_cases hy : y.1 = key a <;> simp_all
      · rw [dif_neg h]
        refine List.pairwise_append.mpr ⟨ascending, List.pairwise_singleton _ _, ?_⟩
        intro x hx y hy
        rw [List.mem_singleton] at hy
        subst hy
        have hx : x.1 ∈ d.keys := List.mem_map_of_mem hx
        exact lt_of_le_of_ne (below _ hx a List.mem_cons_self) (fun e => h (by rwa [e] at hx))
    · intro k hk b hb
      rcases Dict.mem_keys_set.mp hk with rfl | hk
      · exact sorted.1 b hb
      · exact below k hk b (List.mem_cons_of_mem _ hb)

/-- The item that stands for each text: of several, the one sorted last. -/
def textTable (items : Items) : Dict String (Key × Value) :=
  Dict.empty.setAll (fun e => e.1.shown) id items.sorted

theorem mem_sorted {items : Items} {e : Key × Value} : e ∈ items.sorted ↔ e ∈ items.entries :=
  List.mem_insertionSort _

theorem table_item {items : Items} {s : String} {e : Key × Value}
    (h : (textTable items).get? s = some e) : e ∈ items.entries ∧ e.1.shown = s := by
  rcases Dict.get?_setAll_some h with h | ⟨a, ha, rfl, rfl⟩
  · rw [Dict.get?_empty] at h
    cases h
  · exact ⟨mem_sorted.mp ha, rfl⟩

theorem table_covers {items : Items} {e : Key × Value} (h : e ∈ items.entries) :
    ∃ winner, (textTable items).get? e.1.shown = some winner := by
  apply Dict.mem_keys.mp
  apply Dict.mem_keys_setAll
  exact Or.inr (List.mem_map_of_mem (mem_sorted.mpr h))

theorem table_ascending (items : Items) :
    (textTable items).entries.Pairwise (fun a b => a.1 < b.1) := by
  apply set_all_ascending
  · exact List.pairwise_insertionSort (fun a b : Key × Value => a.1.shown ≤ b.1.shown) _
  · exact List.Pairwise.nil
  · intro k h
    exact absurd h List.not_mem_nil

/-! ## One level -/

inductive Form where
  | atom (value : Scalar)
  | table (entries : List (String × Value))
  | row (items : List Value)
  | bag (items : List Value)

def tableForm (items : Items) : Form :=
  .table ((textTable items).entries.map (fun e => (e.1, e.2.2)))

def Form.tagged (tag label rest : String) (value : Value) : Form :=
  .table [(tag, .scalar (.str label)), (rest, value)]

/-- What `==` and the normalisation see of a value: no list differs from a tuple, no `bytes` from
a `bytearray`, no set from a frozen one. -/
inductive View where
  | scalar (value : Scalar)
  | enum (cls : PyClass) (member : String) (value : Value)
  | path (text : String)
  | bytes (data : List UInt8)
  | dataclass (cls : PyClass) (fields : Value)
  | mapping (items : Items)
  | sequence (items : List Value)
  | set (items : List Value)
  | object (cls : PyClass) (state : Value) (outside : ℕ)
  | unsupported (cls : PyClass)

def nodeView (id : ℕ) : Node → View
  | .enum cls member value => .enum cls member value
  | .path text => .path text
  | .bytes _ data => .bytes data
  | .dataclass cls _ => .dataclass cls (.fieldsOf id)
  | .mapping items => .mapping items
  | .sequence _ items => .sequence items
  | .set _ items => .set items
  | .object cls state outside => .object cls state outside
  | .unsupported cls => .unsupported cls

def view (heap : Heap) : Value → View
  | .scalar value => .scalar value
  | .fieldsOf id => .mapping (fieldItems (heap.fields id))
  | .ref id => nodeView id (heap id)

theorem view_ref {heap : Heap} {id : ℕ} {node : Node} (h : heap id = node) :
    view heap (.ref id) = nodeView id node := by
  rw [← h]
  rfl

def View.form : View → Option Form
  | .scalar value => some (.atom value)
  | .enum cls _ value => some (.tagged "__enum__" cls.name "value" value)
  | .path text => some (.table [("__path__", .scalar (.str text))])
  | .bytes data =>
    some (.table [("__bytes__", .scalar (.str (String.ofList (Base64.b64encode data))))])
  | .dataclass cls fields => some (.tagged "__dataclass__" cls.name "fields" fields)
  | .mapping items => some (tableForm items)
  | .sequence items => some (.row items)
  | .set items => some (.bag items)
  | .object cls state _ => some (.tagged "__object__" cls.name "state" state)
  | .unsupported _ => none

def form (heap : Heap) (v : Value) : Option Form := (view heap v).form

theorem form_view {heap : Heap} {v : Value} {seen : View} (h : view heap v = seen) :
    form heap v = seen.form := by
  rw [← h]
  rfl

variable (floatstr : PyFloat → String) (heap : Heap)

/-- The trees a value is written as, level by level. -/
inductive Spelled : Value → Json Scalar → Prop where
  | atom {v : Value} {value : Scalar} (written : form heap v = some (.atom value)) :
      Spelled v (.atom value)
  | table {v : Value} {entries : List (String × Value)} {members : List (String × Json Scalar)}
      (written : form heap v = some (.table entries))
      (keys : entries.map Prod.fst = members.map Prod.fst)
      (values : ∀ {e m}, (e, m) ∈ entries.zip members → Spelled e.2 m.2) :
      Spelled v (.object members)
  | row {v : Value} {items : List Value} {trees : List (Json Scalar)}
      (written : form heap v = some (.row items)) (length : items.length = trees.length)
      (values : ∀ {x j}, (x, j) ∈ items.zip trees → Spelled x j) : Spelled v (.array trees)
  | bag {v : Value} {items : List Value} {trees : List (Json Scalar)}
      (written : form heap v = some (.bag items)) (length : items.length = trees.length)
      (values : ∀ {x j}, (x, j) ∈ items.zip trees → Spelled x j) :
      Spelled v (.array (sortedByText floatstr trees))

variable {floatstr heap}

theorem Spelled.congr {v w : Value} {tree : Json Scalar} (h : Spelled floatstr heap v tree)
    (same : form heap v = form heap w) : Spelled floatstr heap w tree := by
  cases h with
  | atom written => exact Spelled.atom (same ▸ written)
  | table written keys values => exact Spelled.table (same ▸ written) keys values
  | row written length values => exact Spelled.row (same ▸ written) length values
  | bag written length values => exact Spelled.bag (same ▸ written) length values

theorem spelled_scalar (value : Scalar) :
    Spelled floatstr heap (.scalar value) (.atom value) := Spelled.atom rfl

theorem spelled_scalar_only {value : Scalar} {tree : Json Scalar}
    (h : Spelled floatstr heap (.scalar value) tree) : tree = .atom value := by
  cases h with
  | atom written =>
    cases written
    rfl
  | table written _ _ => cases written
  | row written _ _ => cases written
  | bag written _ _ => cases written

/-- A table is spelled by the members of its entries. -/
theorem spelled_table {v : Value} {entries : List (String × Value)}
    {members : List (String × Json Scalar)} (written : form heap v = some (.table entries))
    (h : List.Forall₂ (fun e m => e.1 = m.1 ∧ Spelled floatstr heap e.2 m.2) entries members) :
    Spelled floatstr heap v (.object members) := by
  refine Spelled.table written ?_ ?_
  · clear written
    induction h with
    | nil => rfl
    | cons h _ ih => rw [List.map_cons, List.map_cons, h.1, ih]
  · intro e m hem
    exact ((List.forall₂_iff_zip.mp h).2 hem).2

theorem spelled_tagged {v value : Value} {tag label rest : String} {tree : Json Scalar}
    (written : form heap v = some (.tagged tag label rest value))
    (h : Spelled floatstr heap value tree) :
    Spelled floatstr heap v (tagged tag label rest tree) :=
  spelled_table written (List.Forall₂.cons ⟨rfl, spelled_scalar _⟩
    (List.Forall₂.cons ⟨rfl, h⟩ List.Forall₂.nil))

theorem spelled_row {v : Value} {items : List Value} {trees : List (Json Scalar)}
    (written : form heap v = some (.row items))
    (h : List.Forall₂ (Spelled floatstr heap) items trees) :
    Spelled floatstr heap v (.array trees) :=
  Spelled.row written h.length_eq (fun hxj => (List.forall₂_iff_zip.mp h).2 hxj)

theorem spelled_bag {v : Value} {items : List Value} {trees : List (Json Scalar)}
    (written : form heap v = some (.bag items))
    (h : List.Forall₂ (Spelled floatstr heap) items trees) :
    Spelled floatstr heap v (.array (sortedByText floatstr trees)) :=
  Spelled.bag written h.length_eq (fun hxj => (List.forall₂_iff_zip.mp h).2 hxj)

theorem entering_ok {seen : List ℕ} {id : ℕ} {branch : List ℕ → Outcome (Json Scalar)}
    {tree : Json Scalar} (h : entering seen id branch = .ok tree) :
    id ∉ seen ∧ branch (id :: seen) = .ok tree := by
  unfold entering at h
  split_ifs at h with k
  exact ⟨k, h⟩

/-- What a successful normalisation of a mapping returns. -/
theorem normalize_items_ok {normalize : Value → Outcome (Json Scalar)} {items : Items}
    {tree : Json Scalar} (h : normalizeItems normalize items = .ok tree) :
    ∃ members : Dict String (Json Scalar), tree = .object members.entries ∧
      Dict.Related (fun e j => normalize e.2 = .ok j) (textTable items) members := by
  obtain ⟨entries, hentries, h⟩ := bind_ok_iff.mp h
  cases h
  refine ⟨_, rfl, Dict.related_setAll ?_ List.Forall₂.nil⟩
  refine (mapM_ok_iff.mp hentries).imp ?_
  intro e m hem
  obtain ⟨j, hj, hem⟩ := bind_ok_iff.mp hem
  cases hem
  exact ⟨rfl, hj⟩

theorem spelled_items {v : Value} {items : Items} {members : Dict String (Json Scalar)}
    (written : form heap v = some (tableForm items))
    (h : Dict.Related (fun e j => Spelled floatstr heap e.2 j) (textTable items) members) :
    Spelled floatstr heap v (.object members.entries) :=
  spelled_table written (List.forall₂_map_left_iff.mpr h)

/-- Whatever `_seen` holds and however deep the recursion may go, what it returns is what the value
is written as. -/
theorem normalize_spelled {depth : ℕ} : ∀ {seen : List ℕ} {v : Value} {tree : Json Scalar},
    normalizeCacheValue floatstr heap depth seen v = .ok tree → Spelled floatstr heap v tree := by
  induction depth with
  | zero =>
    intro seen v tree h
    cases h
  | succ depth ih =>
    intro seen v tree h
    have items : ∀ {seen : List ℕ} {items : Items} {tree : Json Scalar},
        form heap v = some (tableForm items) →
        normalizeItems (normalizeCacheValue floatstr heap depth seen) items = .ok tree →
        Spelled floatstr heap v tree := by
      intro seen items tree written h
      obtain ⟨members, rfl, related⟩ := normalize_items_ok h
      exact spelled_items written (related.imp (fun _ _ hem => ⟨hem.1, ih hem.2⟩))
    have trees : ∀ {seen : List ℕ} {items : List Value} {trees : List (Json Scalar)},
        items.mapM (normalizeCacheValue floatstr heap depth seen) = .ok trees →
        List.Forall₂ (Spelled floatstr heap) items trees :=
      fun h => (mapM_ok_iff.mp h).imp (fun _ _ hxj => ih hxj)
    cases v with
    | scalar value =>
      cases h
      exact spelled_scalar value
    | fieldsOf id => exact items rfl h
    | ref id =>
      rw [normalizeCacheValue] at h
      cases node : heap id with
      | enum cls member value =>
        rw [node] at h
        obtain ⟨value, hvalue, h⟩ := bind_ok_iff.mp h
        cases h
        exact spelled_tagged (form_view (view_ref node)) (ih hvalue)
      | path text =>
        rw [node] at h
        cases h
        exact spelled_table (form_view (view_ref node)) (List.Forall₂.cons ⟨rfl, spelled_scalar _⟩ .nil)
      | bytes array data =>
        rw [node] at h
        cases h
        exact spelled_table (form_view (view_ref node)) (List.Forall₂.cons ⟨rfl, spelled_scalar _⟩ .nil)
      | dataclass cls fields =>
        rw [node] at h
        obtain ⟨fields, hfields, h⟩ := bind_ok_iff.mp h
        cases h
        exact spelled_tagged (form_view (view_ref node)) (ih hfields)
      | mapping entries =>
        rw [node, normalizeNode] at h
        exact items (form_view (view_ref node)) (entering_ok h).2
      | sequence tuple values =>
        rw [node, normalizeNode] at h
        obtain ⟨j, hj, h⟩ := bind_ok_iff.mp (entering_ok h).2
        cases h
        exact spelled_row (form_view (view_ref node)) (trees hj)
      | set frozen values =>
        rw [node, normalizeNode] at h
        obtain ⟨j, hj, h⟩ := bind_ok_iff.mp (entering_ok h).2
        cases h
        exact spelled_bag (form_view (view_ref node)) (trees hj)
      | object cls state outside =>
        rw [node, normalizeNode] at h
        obtain ⟨state, hstate, h⟩ := bind_ok_iff.mp (entering_ok h).2
        cases h
        exact spelled_tagged (form_view (view_ref node)) (ih hstate)
      | unsupported cls =>
        rw [node, normalizeNode] at h
        cases (entering_ok h).2

/-! ## The trees written -/

theorem form_ascending {v : Value} {entries : List (String × Value)}
    (written : form heap v = some (.table entries)) :
    entries.Pairwise (fun a b => a.1 < b.1) := by
  unfold form at written
  cases seen : view heap v with
  | mapping items =>
    rw [seen] at written
    cases written
    exact List.pairwise_map.mpr (table_ascending items)
  | path text | bytes data =>
    rw [seen] at written
    cases written
    exact List.pairwise_singleton _ _
  | enum cls member value =>
    rw [seen] at written
    cases written
    exact List.pairwise_pair.mpr (show "__enum__" < "value" by decide)
  | dataclass cls fields =>
    rw [seen] at written
    cases written
    exact List.pairwise_pair.mpr (show "__dataclass__" < "fields" by decide)
  | object cls state outside =>
    rw [seen] at written
    cases written
    exact List.pairwise_pair.mpr (show "__object__" < "state" by decide)
  | scalar value | sequence items | set items | unsupported cls =>
    rw [seen] at written
    cases written

theorem pairwise_keys {α β : Type} {xs : List (String × α)} {ys : List (String × β)}
    (keys : xs.map Prod.fst = ys.map Prod.fst) (h : xs.Pairwise (fun a b => a.1 < b.1)) :
    ys.Pairwise (fun a b => a.1 < b.1) := by
  have ascending : (xs.map Prod.fst).Pairwise (· < ·) := List.pairwise_map.mpr h
  rw [keys] at ascending
  exact List.pairwise_map.mp ascending

/-- Every member and every item of a spelled tree was spelled for some value. -/
theorem zip_left {α β : Type} {xs : List α} {ys : List β} (length : xs.length = ys.length) {y : β}
    (h : y ∈ ys) : ∃ x, (x, y) ∈ xs.zip ys := by
  obtain ⟨i, hi, rfl⟩ := List.mem_iff_getElem.mp h
  exact ⟨xs[i], List.mem_iff_getElem.mpr ⟨i, by simp [length, hi], by simp⟩⟩

theorem zip_right {α β : Type} {xs : List α} {ys : List β} (length : xs.length = ys.length) {x : α}
    (h : x ∈ xs) : ∃ y, (x, y) ∈ xs.zip ys := by
  obtain ⟨i, hi, rfl⟩ := List.mem_iff_getElem.mp h
  exact ⟨ys[i], List.mem_iff_getElem.mpr ⟨i, by simp [← length, hi], by simp⟩⟩

theorem length_of_keys {α β : Type} {xs : List (String × α)} {ys : List (String × β)}
    (keys : xs.map Prod.fst = ys.map Prod.fst) : xs.length = ys.length := by
  have h := congrArg List.length keys
  rwa [List.length_map, List.length_map] at h

theorem zip_key {α β : Type} : ∀ {xs : List (String × α)} {ys : List (String × β)},
    xs.map Prod.fst = ys.map Prod.fst → ∀ {x y}, (x, y) ∈ xs.zip ys → x.1 = y.1 := by
  intro xs
  induction xs with
  | nil =>
    intro ys _ x y h
    exact absurd h List.not_mem_nil
  | cons x xs ih =>
    intro ys keys a b h
    cases ys with
    | nil => exact absurd h List.not_mem_nil
    | cons y ys =>
      obtain ⟨key, keys⟩ := List.cons.inj keys
      rcases List.mem_cons.mp h with e | h
      · cases e
        exact key
      · exact ih keys h

theorem spelled_ordered {v : Value} {tree : Json Scalar} (h : Spelled floatstr heap v tree) :
    Ordered tree := by
  induction h with
  | atom _ => exact Ordered.atom _
  | table written keys _ ih =>
    refine Ordered.object (pairwise_keys keys (form_ascending written)) ?_
    intro m hm
    obtain ⟨e, he⟩ := zip_left (length_of_keys keys) hm
    exact ih he
  | row _ length _ ih =>
    refine Ordered.array ?_
    intro j hj
    obtain ⟨x, hx⟩ := zip_left length hj
    exact ih hx
  | bag _ length _ ih =>
    refine Ordered.array ?_
    intro j hj
    obtain ⟨x, hx⟩ := zip_left length ((List.mem_insertionSort _).mp hj)
    exact ih hx

theorem spelled_entries {v : Value} {entries : List (String × Value)} {tree : Json Scalar}
    (written : form heap v = some (.table entries)) (h : Spelled floatstr heap v tree) :
    ∃ members, tree = .object members ∧
      List.Forall₂ (fun e m => e.1 = m.1 ∧ Spelled floatstr heap e.2 m.2) entries members := by
  cases h with
  | atom written' => cases written.symm.trans written'
  | row written' _ _ => cases written.symm.trans written'
  | bag written' _ _ => cases written.symm.trans written'
  | @table _ entries' members written' keys values =>
    cases written.symm.trans written'
    refine ⟨members, rfl, List.forall₂_iff_zip.mpr ⟨length_of_keys keys, ?_⟩⟩
    intro e m hem
    exact ⟨zip_key keys hem, values hem⟩

theorem spelled_row_items {v : Value} {items : List Value} {tree : Json Scalar}
    (written : form heap v = some (.row items)) (h : Spelled floatstr heap v tree) :
    ∃ trees, tree = .array trees ∧ List.Forall₂ (Spelled floatstr heap) items trees := by
  cases h with
  | atom written' => cases written.symm.trans written'
  | table written' _ _ => cases written.symm.trans written'
  | bag written' _ _ => cases written.symm.trans written'
  | row written' length values =>
    cases written.symm.trans written'
    exact ⟨_, rfl, List.forall₂_iff_zip.mpr ⟨length, values⟩⟩

theorem spelled_bag_items {v : Value} {items : List Value} {tree : Json Scalar}
    (written : form heap v = some (.bag items)) (h : Spelled floatstr heap v tree) :
    ∃ trees, tree = .array (sortedByText floatstr trees) ∧
      List.Forall₂ (Spelled floatstr heap) items trees := by
  cases h with
  | atom written' => cases written.symm.trans written'
  | table written' _ _ => cases written.symm.trans written'
  | row written' _ _ => cases written.symm.trans written'
  | bag written' length values =>
    cases written.symm.trans written'
    exact ⟨_, rfl, List.forall₂_iff_zip.mpr ⟨length, values⟩⟩

/-- A value is written one way only. -/
theorem spelled_unique {v : Value} {tree : Json Scalar} (h : Spelled floatstr heap v tree) :
    ∀ {other : Json Scalar}, Spelled floatstr heap v other → tree = other := by
  induction h with
  | atom written =>
    intro other k
    rw [spelled_scalar_only (k.congr written)]
  | table written keys _ ih =>
    intro other k
    obtain ⟨members', rfl, h'⟩ := spelled_entries written k
    have entries : List.Forall₂ (fun (e : String × Value) m => ∀ n : String × Json Scalar,
        e.1 = n.1 ∧ Spelled floatstr heap e.2 n.2 → m = n) _ _ :=
      List.forall₂_iff_zip.mpr ⟨length_of_keys keys, fun hem _ hn =>
        Prod.ext ((zip_key keys hem).symm.trans hn.1) (ih hem hn.2)⟩
    rw [agree entries h']
  | row written length _ ih =>
    intro other k
    obtain ⟨trees', rfl, h'⟩ := spelled_row_items written k
    rw [agree (List.forall₂_iff_zip.mpr ⟨length, fun hxj _ hb => ih hxj hb⟩) h']
  | bag written length _ ih =>
    intro other k
    obtain ⟨trees', rfl, h'⟩ := spelled_bag_items written k
    rw [agree (List.forall₂_iff_zip.mpr ⟨length, fun hxj _ hb => ih hxj hb⟩) h']

/-! ## Definitions -/

/-- The tree of a definition, over those of its three mappings. -/
def definitionTree (definition : HandlerDefinition) (context kwargs metadata : Json Scalar) :
    Json Scalar :=
  .object [
    ("entrypoint", .atom (.str definition.entrypoint)),
    ("handler_name", .atom (.str definition.handlerName)),
    ("init_context", context),
    ("init_kwargs", kwargs),
    ("metadata", metadata),
    ("reuse_mode", .atom (.str definition.reuseMode.text))]

theorem definition_sorted (definition : HandlerDefinition) :
    (fieldItems definition.table).sorted = [
      (Key.text "entrypoint", .scalar (.str definition.entrypoint)),
      (Key.text "handler_name", .scalar (.str definition.handlerName)),
      (Key.text "init_context", definition.initContext),
      (Key.text "init_kwargs", definition.initKwargs),
      (Key.text "metadata", definition.metadata),
      (Key.text "reuse_mode", .scalar (.str definition.reuseMode.text))] := by
  have rest : ([
      (Key.text "entrypoint", .scalar (.str definition.entrypoint)),
      (Key.text "init_context", definition.initContext),
      (Key.text "init_kwargs", definition.initKwargs),
      (Key.text "metadata", definition.metadata),
      (Key.text "reuse_mode", .scalar (.str definition.reuseMode.text))] :
      List (Key × Value)).Pairwise (fun a b => a.1.shown ≤ b.1.shown) :=
    List.pairwise_map.mp (by decide : ["entrypoint", "init_context", "init_kwargs", "metadata",
      "reuse_mode"].Pairwise (· ≤ ·))
  -- only the first two entries are out of order
  have first : ¬ "handler_name" ≤ "entrypoint" := by decide
  have second : "handler_name" ≤ "init_context" := by decide
  refine (congrArg (List.orderedInsert _ _) rest.insertionSort_eq).trans ?_
  exact (if_neg first).trans (congrArg (List.cons _) (if_pos second))

theorem cache_key_eq (definition : HandlerDefinition) (depth : ℕ) :
    definition.cacheKey floatstr heap (depth + 1) = (do
      let context ← normalizeCacheValue floatstr heap (depth + 1) [] definition.initContext
      let kwargs ← normalizeCacheValue floatstr heap (depth + 1) [] definition.initKwargs
      let metadata ← normalizeCacheValue floatstr heap (depth + 1) [] definition.metadata
      return dumps floatstr (definitionTree definition context kwargs metadata)) := by
  have scalar : ∀ value, normalizeCacheValue floatstr heap (depth + 1) [] (.scalar value) =
      .ok (.atom value) := fun _ => rfl
  unfold HandlerDefinition.cacheKey normalizeItems
  rw [definition_sorted]
  simp only [List.mapM_cons, List.mapM_nil, scalar]
  cases normalizeCacheValue floatstr heap (depth + 1) [] definition.initContext with
  | error e => rfl
  | ok context =>
    cases normalizeCacheValue floatstr heap (depth + 1) [] definition.initKwargs with
    | error e => rfl
    | ok kwargs =>
      cases normalizeCacheValue floatstr heap (depth + 1) [] definition.metadata with
      | error e => rfl
      | ok metadata =>
        have keys : ["entrypoint", "handler_name", "init_context", "init_kwargs", "metadata",
          "reuse_mode"].Nodup := by decide
        refine congrArg (fun entries => Except.ok (dumps floatstr (.object entries))) ?_
        exact Dict.entries_setAll_new keys (fun _ _ h => absurd h List.not_mem_nil)

theorem cache_key_ok {definition : HandlerDefinition} {depth : ℕ} {key : String}
    (h : definition.cacheKey floatstr heap depth = .ok key) : ∃ context kwargs metadata,
      Spelled floatstr heap definition.initContext context ∧
      Spelled floatstr heap definition.initKwargs kwargs ∧
      Spelled floatstr heap definition.metadata metadata ∧
      key = dumps floatstr (definitionTree definition context kwargs metadata) := by
  cases depth with
  | zero =>
    obtain ⟨tree, normalized, _⟩ := bind_ok_iff.mp h
    obtain ⟨entries, traversed, _⟩ := bind_ok_iff.mp normalized
    rw [definition_sorted] at traversed
    obtain ⟨_, _, first, _, _⟩ := List.forall₂_cons_left_iff.mp (mapM_ok_iff.mp traversed)
    obtain ⟨_, raised, _⟩ := bind_ok_iff.mp first
    cases raised
  | succ depth =>
    rw [cache_key_eq] at h
    obtain ⟨context, hc, h⟩ := bind_ok_iff.mp h
    obtain ⟨kwargs, hk, h⟩ := bind_ok_iff.mp h
    obtain ⟨metadata, hm, h⟩ := bind_ok_iff.mp h
    exact ⟨context, kwargs, metadata, normalize_spelled hc, normalize_spelled hk,
      normalize_spelled hm, (Except.ok.inj h).symm⟩

theorem definition_tree_ordered {definition : HandlerDefinition}
    {context kwargs metadata : Json Scalar} (hc : Ordered context) (hk : Ordered kwargs)
    (hm : Ordered metadata) : Ordered (definitionTree definition context kwargs metadata) := by
  refine Ordered.object (List.pairwise_map.mp (by decide : ["entrypoint", "handler_name",
    "init_context", "init_kwargs", "metadata", "reuse_mode"].Pairwise (· < ·))) ?_
  simp only [List.forall_mem_cons]
  exact ⟨Ordered.atom _, Ordered.atom _, hc, hk, hm, Ordered.atom _, by simp⟩

end CacheWriting
