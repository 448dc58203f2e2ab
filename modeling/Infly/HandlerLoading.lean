import Infly.CacheKey
import Infly.Contracts

/-! # Loading a handler from its entrypoint

`infly/runtime/handler_loader.py`. What the import system finds and what the factory returns is
up to them.
-/
namespace HandlerLoading

open Contracts CacheKey

/-! ## Names in parts -/

/-- `text.split(separator)`. -/
def split (separator : Char) (text : String) : List String :=
  (text.toList.splitOn separator).map String.ofList

section Parts

variable {α : Type} [DecidableEq α] {a : α} {k m : List α}

omit [DecidableEq α] in
theorem intercalate_append {r s : List (List α)} (hr : r ≠ []) (hs : s ≠ []) :
    [a].intercalate (r ++ s) = [a].intercalate r ++ a :: [a].intercalate s := by
  induction r with
  | nil => exact absurd rfl hr
  | cons x r ih =>
    cases r with
    | nil =>
      cases s with
      | nil => exact absurd rfl hs
      | cons y s => simp [List.intercalate]
    | cons y r =>
      have tail := ih (List.cons_ne_nil y r)
      simp only [List.intercalate, List.cons_append] at tail ⊢
      simp only [List.intersperse_cons_cons, List.flatten_cons] at tail ⊢
      rw [tail]
      simp only [List.append_assoc]

/-- A text goes on after another and a separator exactly if its parts go on after the other's. -/
theorem parts_go_on : k ++ [a] <+: m ↔ k.splitOn a <+: m.splitOn a ∧ k ≠ m := by
  constructor
  · rintro ⟨rest, rfl⟩
    rw [List.append_assoc, List.singleton_append, List.splitOn_append_cons_self]
    refine ⟨List.prefix_append _ _, fun h => ?_⟩
    have length := congrArg List.length h
    simp at length
  · rintro ⟨⟨rest, h⟩, hne⟩
    have more : rest ≠ [] := by
      rintro rfl
      rw [List.append_nil] at h
      apply hne
      rw [← (List.intercalate_splitOn a : [a].intercalate (k.splitOn a) = k), h,
        List.intercalate_splitOn]
    refine ⟨[a].intercalate rest, ?_⟩
    have whole : [a].intercalate (m.splitOn a) = m := List.intercalate_splitOn a
    rw [← h, intercalate_append (List.splitOn_ne_nil a k) more, List.intercalate_splitOn] at whole
    rw [List.append_assoc]
    exact whole

theorem parts_clean (l : List α) : ∀ p ∈ l.splitOn a, a ∉ p := by
  induction l with
  | nil =>
    intro p hp
    rw [List.splitOn_nil, List.mem_singleton] at hp
    exact hp ▸ List.not_mem_nil
  | cons x l ih =>
    intro p hp
    rw [List.splitOn_cons_eq_if_modifyHead] at hp
    split at hp
    · rcases List.mem_cons.mp hp with rfl | hp
      · exact List.not_mem_nil
      · exact ih p hp
    · rename_i hx
      obtain ⟨first, rest, hsplit⟩ := List.exists_cons_of_ne_nil (List.splitOn_ne_nil a l)
      rw [hsplit] at hp ih
      rcases List.mem_cons.mp hp with rfl | hp
      · intro ha
        rcases List.mem_cons.mp ha with rfl | ha
        · exact hx (beq_self_eq_true _)
        · exact ih first List.mem_cons_self ha
      · exact ih p (List.mem_cons_of_mem _ hp)

end Parts

/-! ## The function -/

/-- `notFound`: `ModuleNotFoundError` with the name of what was not found. -/
inductive Imported (μ : Type) where
  | module (m : μ)
  | notFound (name : Option String)
  | raised (e : Raised)

inductive Attribute (φ : Type) where
  | found (f : φ)
  | missing
  | raised (e : Raised)

/-- The modules, their attributes and what these do. `isHandler`: `handle` is there and callable. -/
structure World (μ φ η : Type) where
  importModule : String → Imported μ
  getattr : μ → String → Attribute φ
  callable : φ → Bool
  call : φ → Value → Value → Except Raised η
  isHandler : η → Bool

section Load

variable {μ φ η : Type} (w : World μ φ η) (definition : HandlerDefinition)

def invalid (message : String) : Raised := .platform ⟨.invalidConfiguration, message⟩

def malformed : Raised :=
  invalid ("Malformed entrypoint: '" ++ definition.entrypoint ++
    "'. Expected format 'module:SymbolName'.")

def moduleNotFound (module : String) : Raised :=
  .platform ⟨.notFound, "Module '" ++ module ++ "' not found for entrypoint '" ++
    definition.entrypoint ++ "'."⟩

def dependencyNotFound (module missing : String) : Raised :=
  .platform ⟨.internalError, "Module '" ++ module ++
    "' could not be imported because dependency '" ++
    (if missing = "" then "unknown" else missing) ++ "' was not found."⟩

def attributeNotFound (module symbol : String) : Raised :=
  .platform ⟨.notFound, "Attribute '" ++ symbol ++ "' not found in module '" ++ module ++
    "' for entrypoint '" ++ definition.entrypoint ++ "'."⟩

def notCallable (module symbol : String) : Raised :=
  invalid ("Attribute '" ++ symbol ++ "' in module '" ++ module ++ "' for entrypoint '" ++
    definition.entrypoint ++ "' must be a callable that returns HandlerProtocol.")

def notInitialized (e : Raised) : Raised :=
  .platform ⟨.internalError, "Handler '" ++ definition.handlerName ++ "' failed to initialize: " ++
    e.text⟩

def notHandler (module symbol : String) : Raised :=
  invalid ("Callable '" ++ symbol ++ "' in module '" ++ module ++ "' for entrypoint '" ++
    definition.entrypoint ++ "' must return an object with a callable handle(input) method.")

/-- `module_name.startswith(f"{missing_name}.")`. -/
def startsWithin (module missing : String) : Bool :=
  (missing.toList ++ ['.']).isPrefixOf module.toList

def build (module symbol : String) (factory : φ) : Except Raised η :=
  if w.callable factory then
    match w.call factory definition.initContext definition.initKwargs with
    | .error e => .error (notInitialized definition e)
    | .ok handler =>
      if w.isHandler handler then .ok handler else .error (notHandler definition module symbol)
  else .error (notCallable definition module symbol)

def loadFrom (module symbol : String) : Except Raised η :=
  match w.importModule module with
  | .raised e => .error e
  | .notFound name =>
    if name.getD "" ≠ module ∧ startsWithin module (name.getD "") = false then
      .error (dependencyNotFound module (name.getD ""))
    else .error (moduleNotFound definition module)
  | .module m =>
    match w.getattr m symbol with
    | .raised e => .error e
    | .missing => .error (attributeNotFound definition module symbol)
    | .found factory => build w definition module symbol factory

def loadHandler : Except Raised η :=
  match split ':' definition.entrypoint with
  | [module, symbol] =>
    if module = "" ∨ symbol = "" then .error (malformed definition)
    else loadFrom w definition module symbol
  | _ => .error (malformed definition)

/-! ## Its outcome -/

/-- `module:Symbol`, with one colon. -/
structure Entrypoint (text module symbol : String) : Prop where
  text : text = module ++ ":" ++ symbol
  module : module ≠ "" ∧ ':' ∉ module.toList
  symbol : symbol ≠ "" ∧ ':' ∉ symbol.toList

theorem split_entrypoint {text module symbol : String} :
    Entrypoint text module symbol ↔
      split ':' text = [module, symbol] ∧ module ≠ "" ∧ symbol ≠ "" := by
  have parts : split ':' text = [module, symbol] ↔
      text.toList.splitOn ':' = [module.toList, symbol.toList] := by
    unfold split
    constructor
    · intro h
      have back := congrArg (List.map String.toList) h
      simpa [List.map_map, Function.comp_def] using back
    · intro h
      rw [h]
      simp
  rw [parts]
  constructor
  · rintro ⟨rfl, ⟨hm, cm⟩, hs, cs⟩
    refine ⟨?_, hm, hs⟩
    have chars : (module ++ ":" ++ symbol).toList = module.toList ++ ':' :: symbol.toList := by
      simp
    rw [chars, List.splitOn_append_cons_self, List.splitOn_eq_singleton cm,
      List.splitOn_eq_singleton cs]
    rfl
  · rintro ⟨h, hm, hs⟩
    have clean := parts_clean (a := ':') text.toList
    rw [h] at clean
    have whole : [':'].intercalate (text.toList.splitOn ':') = text.toList :=
      List.intercalate_splitOn ':'
    rw [h] at whole
    refine ⟨?_, ⟨hm, clean _ List.mem_cons_self⟩, hs,
      clean _ (List.mem_cons_of_mem _ List.mem_cons_self)⟩
    apply String.toList_injective
    rw [← whole]
    simp [List.intercalate]

/-- What is not found is the module itself or a package that it is in. -/
theorem within_packages (module missing : String) :
    (missing ≠ module ∧ startsWithin module missing = false) ↔
      ¬ split '.' missing <+: split '.' module := by
  have chars : split '.' missing <+: split '.' module ↔
      missing.toList.splitOn '.' <+: module.toList.splitOn '.' :=
    List.prefix_map_iff_of_injective fun _ _ h => String.ofList_inj.mp h
  have later := parts_go_on (a := '.') (k := missing.toList) (m := module.toList)
  rw [chars]
  unfold startsWithin
  constructor
  · rintro ⟨hne, hs⟩ hp
    have within := later.mpr ⟨hp, fun he => hne (String.toList_injective he)⟩
    rw [List.isPrefixOf_iff_prefix.mpr within] at hs
    cases hs
  · intro hp
    constructor
    · rintro rfl
      exact hp (List.prefix_refl _)
    · refine Bool.eq_false_iff.mpr fun hs => hp ?_
      exact (later.mp (List.isPrefixOf_iff_prefix.mp hs)).1

theorem load_entrypoint {module symbol : String}
    (h : Entrypoint definition.entrypoint module symbol) :
    loadHandler w definition = loadFrom w definition module symbol := by
  obtain ⟨hs, hm, hn⟩ := split_entrypoint.mp h
  unfold loadHandler
  rw [hs]
  exact if_neg (not_or.mpr ⟨hm, hn⟩)

theorem load_malformed (h : ¬ ∃ module symbol, Entrypoint definition.entrypoint module symbol) :
    loadHandler w definition = .error (malformed definition) := by
  unfold loadHandler
  split
  · rename_i module symbol hs
    refine if_pos ?_
    by_contra hn
    exact h ⟨module, symbol, split_entrypoint.mpr ⟨hs, not_or.mp hn⟩⟩
  · rfl

theorem build_ok {module symbol : String} {factory : φ} {handler : η} :
    build w definition module symbol factory = .ok handler ↔ w.callable factory = true ∧
      w.call factory definition.initContext definition.initKwargs = .ok handler ∧
      w.isHandler handler = true := by
  unfold build
  constructor
  · intro h
    split at h
    · rename_i hc
      split at h
      · cases h
      · rename_i built hb
        split at h
        · rename_i hi
          cases h
          exact ⟨hc, hb, hi⟩
        · cases h
    · cases h
  · rintro ⟨hc, hb, hi⟩
    rw [if_pos hc, hb]
    exact if_pos hi

theorem load_from_ok {module symbol : String} {handler : η} :
    loadFrom w definition module symbol = .ok handler ↔ ∃ m factory,
      w.importModule module = .module m ∧ w.getattr m symbol = .found factory ∧
        build w definition module symbol factory = .ok handler := by
  unfold loadFrom
  constructor
  · intro h
    split at h
    · cases h
    · split at h <;> cases h
    · rename_i m hm
      split at h
      · cases h
      · cases h
      · rename_i factory hf
        exact ⟨m, factory, hm, hf, h⟩
  · rintro ⟨m, factory, hm, hf, h⟩
    rw [hm]
    dsimp only
    rw [hf]
    exact h

/-- A handler is loaded exactly from a well-formed entrypoint whose factory is there and makes a
handler. Of a module that is not found, the entrypoint is to blame where the module itself or one
of its packages is missing, and the module where something else is. -/
theorem load_handler_outcome :
    (∀ handler, loadHandler w definition = .ok handler ↔
      ∃ module symbol m factory, Entrypoint definition.entrypoint module symbol ∧
        w.importModule module = .module m ∧ w.getattr m symbol = .found factory ∧
        w.callable factory = true ∧
        w.call factory definition.initContext definition.initKwargs = .ok handler ∧
        w.isHandler handler = true) ∧
    ((¬ ∃ module symbol, Entrypoint definition.entrypoint module symbol) →
      loadHandler w definition = .error (malformed definition)) ∧
    ∀ module symbol name, Entrypoint definition.entrypoint module symbol →
      w.importModule module = .notFound name → loadHandler w definition = .error
        (if split '.' (name.getD "") <+: split '.' module then moduleNotFound definition module
        else dependencyNotFound module (name.getD "")) := by
  refine ⟨fun handler => ?_, load_malformed w definition, fun module symbol name he hm => ?_⟩
  · constructor
    · intro h
      by_cases he : ∃ module symbol, Entrypoint definition.entrypoint module symbol
      · obtain ⟨module, symbol, he⟩ := he
        rw [load_entrypoint w definition he] at h
        obtain ⟨m, factory, hm, hf, hb⟩ := (load_from_ok w definition).mp h
        exact ⟨module, symbol, m, factory, he, hm, hf, (build_ok w definition).mp hb⟩
      · rw [load_malformed w definition he] at h
        cases h
    · rintro ⟨module, symbol, m, factory, he, hm, hf, hb⟩
      rw [load_entrypoint w definition he]
      exact (load_from_ok w definition).mpr ⟨m, factory, hm, hf, (build_ok w definition).mpr hb⟩
  · rw [load_entrypoint w definition he]
    unfold loadFrom
    rw [hm]
    dsimp only
    by_cases hp : split '.' (name.getD "") <+: split '.' module
    · rw [if_pos hp, if_neg fun hn => (within_packages module (name.getD "")).mp hn hp]
    · rw [if_neg hp, if_pos ((within_packages module (name.getD "")).mpr hp)]

/-- A module `app` with a handler class `Echo`; another one needs a package that is missing. -/
def sampleWorld : World Unit Unit Unit where
  importModule name :=
    if name = "app" then .module () else .notFound (some (if name = "lib" then "yaml" else name))
  getattr _ symbol := if symbol = "Echo" then .found () else .missing
  callable _ := true
  call _ _ _ := .ok ()
  isHandler _ := true

def sampleDefinition (entrypoint : String) : HandlerDefinition where
  handlerName := "h"
  entrypoint := entrypoint
  initContext := .ref 0
  initKwargs := .ref 0
  metadata := .ref 0

/-- One handler is loaded, one depends on what is missing, and one entrypoint has no symbol. -/
theorem load_handler_outcome_echo :
    loadHandler sampleWorld (sampleDefinition "app:Echo") = .ok () ∧
    loadHandler sampleWorld (sampleDefinition "lib:Echo") =
      .error (dependencyNotFound "lib" "yaml") ∧
    loadHandler sampleWorld (sampleDefinition "app") =
      .error (malformed (sampleDefinition "app")) := by
  have named : ∀ module, module ≠ "" ∧ ':' ∉ module.toList →
      Entrypoint (module ++ ":" ++ "Echo") module "Echo" := fun module hm =>
    ⟨rfl, hm, by decide⟩
  have outcome := fun d => load_handler_outcome sampleWorld (sampleDefinition d)
  refine ⟨?_, ?_, ?_⟩
  · exact ((outcome "app:Echo").1 ()).mpr
      ⟨"app", "Echo", (), (), named "app" (by decide), rfl, rfl, rfl, rfl, rfl⟩
  · exact (outcome "lib:Echo").2.2 "lib" "Echo" (some "yaml") (named "lib" (by decide)) rfl
  · refine (outcome "app").2.1 ?_
    rintro ⟨module, symbol, he⟩
    have colon : ':' ∈ ("app" : String).toList := by
      rw [show ("app" : String) = _ from he.text]
      simp
    exact absurd colon (by decide)

end Load

end HandlerLoading
