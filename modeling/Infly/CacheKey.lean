import Infly.Base64
import Infly.Dict
import Infly.JsonText
import Mathlib.Data.Rat.Defs

/-! # Cache keys of handler definitions

`infly/core/handlers.py`. Values live in a heap, so that sharing and cycles are values like any
other; a node is tagged with the first type check of the source that the value passes.
-/
namespace CacheKey

open JsonText (Json)

inductive PyFloat where
  | finite (value : ℚ) | negativeZero | infinity | negativeInfinity | nan
  deriving DecidableEq, Repr

inductive Scalar where
  | none | bool (value : Bool) | int (value : ℤ) | float (value : PyFloat) | str (value : String)
  deriving DecidableEq, Repr

/-- A class: `__module__` and `__qualname__` name it, but need not tell it from another. -/
structure PyClass where
  name : String
  identity : ℕ
  deriving DecidableEq, Repr

/-- What `==` sees of a hashable object. -/
inductive Hashed where
  | text (value : String) | other (identity : ℕ)
  deriving DecidableEq, Repr

/-- A mapping key: what `==` sees of it, and its `str()`. -/
structure Key where
  held : Hashed
  shown : String
  deriving DecidableEq, Repr

def Key.text (value : String) : Key := ⟨.text value, value⟩

/-- A value: a scalar, an object by its `id`, or the dict built on the spot from the fields of a
dataclass instance, whose own `id` no other value can have. -/
inductive Value where
  | scalar (value : Scalar) | ref (id : ℕ) | fieldsOf (id : ℕ)
  deriving DecidableEq, Repr

structure Items where
  entries : List (Key × Value)
  distinct : (entries.map (fun e => e.1.held)).Nodup

inductive Node where
  | enum (cls : PyClass) (member : String) (value : Value)
  | path (text : String)
  | bytes (array : Bool) (data : List UInt8)
  | dataclass (cls : PyClass) (fields : Dict String Value)
  | mapping (items : Items)
  | sequence (tuple : Bool) (items : List Value)
  | set (frozen : Bool) (items : List Value)
  /-- `state` is `vars(value)`, `outside` what the object holds besides. -/
  | object (cls : PyClass) (state : Value) (outside : ℕ)
  | unsupported (cls : PyClass)

abbrev Heap := ℕ → Node

inductive Failure where
  | typeError (message : String) | recursionError
  deriving DecidableEq, Repr

abbrev Outcome (α : Type) := Except Failure α

theorem field_keys_distinct (fields : Dict String Value) :
    ((fields.entries.map (fun f => (Key.text f.1, f.2))).map (fun e => e.1.held)).Nodup := by
  rw [List.map_map]
  exact List.Nodup.of_map (fun held => match held with | .text value => value | .other _ => "")
    (by rw [List.map_map]; exact fields.nodup)

/-- The dict of field names and values. -/
def fieldItems (fields : Dict String Value) : Items :=
  ⟨fields.entries.map (fun f => (Key.text f.1, f.2)), field_keys_distinct fields⟩

def Heap.fields (heap : Heap) (id : ℕ) : Dict String Value :=
  match heap id with
  | .dataclass _ fields => fields
  | _ => Dict.empty

section Normalize

/-! `json.dumps` and `_normalize_cache_value`, over how floats are written. -/

variable (floatstr : PyFloat → String)

def Scalar.text : Scalar → List Char
  | .none => "null".toList
  | .bool true => "true".toList
  | .bool false => "false".toList
  | .int value => value.repr.toList
  | .float value => (floatstr value).toList
  | .str value => JsonText.quote value

def dumps (tree : Json Scalar) : String := String.ofList (JsonText.text (Scalar.text floatstr) tree)

def sortedByText (items : List (Json Scalar)) : List (Json Scalar) :=
  items.insertionSort (fun a b => dumps floatstr a ≤ dumps floatstr b)

def Items.sorted (items : Items) : List (Key × Value) :=
  items.entries.insertionSort (fun a b => a.1.shown ≤ b.1.shown)

/-- The dict comprehension of the mapping branch: a later item of the same text wins. -/
def normalizeItems (normalize : Value → Outcome (Json Scalar)) (items : Items) :
    Outcome (Json Scalar) := do
  let entries ← items.sorted.mapM (fun e => do
    let value ← normalize e.2
    return (e.1.shown, value))
  return .object (Dict.empty.setAll Prod.fst Prod.snd entries).entries

/-- The check of `_seen` and the branch under it, with the id of the value put in. -/
def entering (seen : List ℕ) (id : ℕ) (branch : List ℕ → Outcome (Json Scalar)) :
    Outcome (Json Scalar) :=
  if id ∈ seen then .error (.typeError "cache_key does not support recursive values")
  else branch (id :: seen)

def tagged (tag label rest : String) (value : Json Scalar) : Json Scalar :=
  .object [(tag, .atom (.str label)), (rest, value)]

/-- The branches of `_normalize_cache_value` for the object `id`, over the calls it makes. `_seen` is
passed down: a branch that puts the id in takes it out again, also when it raises. -/
def normalizeNode (normalize : List ℕ → Value → Outcome (Json Scalar)) (seen : List ℕ) (id : ℕ) :
    Node → Outcome (Json Scalar)
  | .enum cls _ value => do
    let value ← normalize seen value
    return tagged "__enum__" cls.name "value" value
  | .path text => .ok (.object [("__path__", .atom (.str text))])
  | .bytes _ data =>
    .ok (.object [("__bytes__", .atom (.str (String.ofList (Base64.b64encode data))))])
  | .dataclass cls _ => do
    let fields ← normalize seen (.fieldsOf id)
    return tagged "__dataclass__" cls.name "fields" fields
  | .mapping items => entering seen id fun seen => normalizeItems (normalize seen) items
  | .sequence _ items => entering seen id fun seen => do
    let items ← items.mapM (normalize seen)
    return .array items
  | .set _ items => entering seen id fun seen => do
    let items ← items.mapM (normalize seen)
    return .array (sortedByText floatstr items)
  | .object cls state _ => entering seen id fun seen => do
    let state ← normalize seen state
    return tagged "__object__" cls.name "state" state
  | .unsupported cls => entering seen id fun _ =>
    .error (.typeError ("Unsupported cache_key value type: " ++ cls.name))

/-- `_normalize_cache_value`, `depth` calls deep at most. -/
def normalizeCacheValue (heap : Heap) : ℕ → List ℕ → Value → Outcome (Json Scalar)
  | 0, _, _ => .error .recursionError
  | _ + 1, _, .scalar value => .ok (.atom value)
  | depth + 1, seen, .fieldsOf id =>
    normalizeItems (normalizeCacheValue heap depth seen) (fieldItems (heap.fields id))
  | depth + 1, seen, .ref id =>
    normalizeNode floatstr (normalizeCacheValue heap depth) seen id (heap id)

inductive ReuseMode where
  | workerCached | taskTransient
  deriving DecidableEq, Repr

def ReuseMode.text : ReuseMode → String
  | .workerCached => "worker_cached"
  | .taskTransient => "task_transient"

structure HandlerDefinition where
  handlerName : String
  entrypoint : String
  initContext : Value
  initKwargs : Value
  metadata : Value
  reuseMode : ReuseMode := .workerCached
  deriving DecidableEq

def HandlerDefinition.entries (definition : HandlerDefinition) : List (String × Value) := [
  ("handler_name", .scalar (.str definition.handlerName)),
  ("entrypoint", .scalar (.str definition.entrypoint)),
  ("init_context", definition.initContext),
  ("init_kwargs", definition.initKwargs),
  ("metadata", definition.metadata),
  ("reuse_mode", .scalar (.str definition.reuseMode.text))]

theorem definition_keys_nodup (definition : HandlerDefinition) :
    (definition.entries.map Prod.fst).Nodup :=
  (by decide : ["handler_name", "entrypoint", "init_context", "init_kwargs", "metadata",
    "reuse_mode"].Nodup)

def HandlerDefinition.table (definition : HandlerDefinition) : Dict String Value :=
  ⟨definition.entries, definition_keys_nodup definition⟩

def HandlerDefinition.cacheKey (heap : Heap) (depth : ℕ) (definition : HandlerDefinition) :
    Outcome String := do
  let normalized ← normalizeItems (normalizeCacheValue floatstr heap depth [])
    (fieldItems definition.table)
  return dumps floatstr normalized

end Normalize

end CacheKey
