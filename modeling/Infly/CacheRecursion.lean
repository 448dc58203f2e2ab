import Infly.CacheCanonical
import Infly.PathWalk

/-! # Where the normalisation of a cache key ends

`_normalize_cache_value` is a walk that marks the objects on its path by their ids, dataclass
instances and enum members apart.
-/
namespace CacheRecursion

open CacheKey CacheWriting CacheCanonical PathWalk Relation
open JsonText (Json)

variable (floatstr : PyFloat → String) (heap : Heap)

/-- The values a value goes on to, in that order. -/
def successors : View → List Value
  | .mapping items => items.sorted.map Prod.snd
  | seen => parts seen

/-- The id that a value puts in `_seen`. -/
def nodeMark (id : ℕ) : Node → Option ℕ
  | .enum .. | .path _ | .bytes .. | .dataclass .. => none
  | .mapping _ | .sequence .. | .set .. | .object .. | .unsupported _ => some id

def mark : Value → Option ℕ
  | .scalar _ | .fieldsOf _ => none
  | .ref id => nodeMark id (heap id)

def unsupported : View → Bool
  | .unsupported _ => true
  | _ => false

theorem mark_ref {v : Value} {id : ℕ} (h : mark heap v = some id) : v = .ref id := by
  cases v with
  | scalar value => cases h
  | fieldsOf id => cases h
  | ref j =>
    rw [mark] at h
    cases node : heap j with
    | enum | path | bytes | dataclass =>
      rw [node] at h
      cases h
    | mapping | sequence | set | object | unsupported =>
      rw [node] at h
      cases h
      exact rfl

theorem marks_apart (v w : Value) (id : ℕ) (h : mark heap v = some id)
    (k : mark heap w = some id) : v = w := (mark_ref heap h).trans (mark_ref heap k).symm

def graph : MarkedGraph Value ℕ where
  next v := successors (view heap v)
  mark := mark heap
  refused v := unsupported (view heap v)
  marks := marks_apart heap

def recursive : Failure := .typeError "cache_key does not support recursive values"

def unsupportedType (cls : PyClass) : Failure :=
  .typeError ("Unsupported cache_key value type: " ++ cls.name)

/-- What a verdict of the walk says of an outcome. -/
def Matches {α : Type} (outcome : Outcome α) : Verdict Value → Prop
  | .done => ∃ result, outcome = .ok result
  | .deep => outcome = .error .recursionError
  | .repeated => outcome = .error recursive
  | .refused x => ∃ cls, view heap x = .unsupported cls ∧ outcome = .error (unsupportedType cls)

variable {floatstr heap} {α β : Type} {verdict : Verdict Value} {outcome : Outcome α}

theorem matches_map (h : Matches heap outcome verdict) (f : α → β) :
    Matches heap (outcome >>= fun a => .ok (f a)) verdict := by
  cases verdict with
  | done =>
    obtain ⟨a, rfl⟩ := h
    exact ⟨f a, rfl⟩
  | deep =>
    cases h
    exact rfl
  | repeated =>
    cases h
    exact rfl
  | refused x =>
    obtain ⟨cls, seen, rfl⟩ := h
    exact ⟨cls, seen, rfl⟩

theorem matches_list {walk : Value → Verdict Value} {f : α → Outcome β} {g : α → Value}
    {xs : List α} (h : ∀ x ∈ xs, Matches heap (f x) (walk (g x))) :
    Matches heap (xs.mapM f) (walkAll walk (xs.map g)) := by
  induction xs with
  | nil => exact ⟨[], rfl⟩
  | cons x xs ih =>
    have hx := h x List.mem_cons_self
    have rest := ih fun y hy => h y (List.mem_cons_of_mem _ hy)
    rw [List.mapM_cons, List.map_cons, walkAll]
    cases hw : walk (g x) with
    | done =>
      rw [hw] at hx
      obtain ⟨y, hy⟩ := hx
      rw [hy]
      exact matches_map rest fun ys => y :: ys
    | deep =>
      rw [hw] at hx
      rw [show f x = _ from hx]
      exact rfl
    | repeated =>
      rw [hw] at hx
      rw [show f x = _ from hx]
      exact rfl
    | refused z =>
      rw [hw] at hx
      obtain ⟨cls, seen, hf⟩ := hx
      rw [hf]
      exact ⟨cls, seen, rfl⟩

theorem matches_one {walk : Value → Verdict Value} {x : Value} (h : Matches heap outcome (walk x)) :
    Matches heap outcome (walkAll walk [x]) := by
  rw [walkAll]
  cases hw : walk x with
  | done =>
    rw [hw] at h
    exact h
  | _ =>
    rw [hw] at h
    exact h

theorem matches_items {walk : Value → Verdict Value} {normalize : Value → Outcome (Json Scalar)}
    {items : Items} (h : ∀ v, Matches heap (normalize v) (walk v)) :
    Matches heap (normalizeItems normalize items) (walkAll walk (items.sorted.map Prod.snd)) := by
  refine matches_map (matches_list ?_) _
  intro e _
  exact matches_map (h e.2) _

/-- A branch that puts its id in agrees with a walk from a marked node. -/
theorem matches_entering {depth id : ℕ} {seen : List ℕ} {branch : List ℕ → Outcome (Json Scalar)}
    {next : List Value} (hm : (graph heap).mark (.ref id) = some id)
    (hu : (graph heap).refused (.ref id) = false) (hn : (graph heap).next (.ref id) = next)
    (h : Matches heap (branch (id :: seen)) (walkAll (walk (graph heap) depth (id :: seen)) next)) :
    Matches heap (entering seen id branch) (walk (graph heap) (depth + 1) seen (.ref id)) := by
  unfold entering
  by_cases hs : id ∈ seen
  · rw [if_pos hs, walk, enter_again hm hs]
    exact rfl
  · rw [if_neg hs, walk_entered (enter_fresh hm hs) hu, hn]
    exact h

theorem walk_unmarked {depth : ℕ} {seen : List ℕ} {v : Value} {next : List Value}
    (hm : (graph heap).mark v = none) (hu : (graph heap).refused v = false)
    (hn : (graph heap).next v = next) :
    walk (graph heap) (depth + 1) seen v = walkAll (walk (graph heap) depth seen) next := by
  rw [walk_entered (enter_unmarked hm) hu, hn]

theorem node_graph {id : ℕ} {node : Node} (h : heap id = node) :
    (graph heap).mark (.ref id) = nodeMark id node ∧
    (graph heap).refused (.ref id) = unsupported (nodeView id node) ∧
    (graph heap).next (.ref id) = successors (nodeView id node) := by
  subst h
  exact ⟨rfl, rfl, rfl⟩

/-- The normalisation ends as the walk does. -/
theorem normalize_walks (floatstr : PyFloat → String) (heap : Heap) (depth : ℕ) (seen : List ℕ)
    (v : Value) :
    Matches heap (normalizeCacheValue floatstr heap depth seen v)
      (walk (graph heap) depth seen v) := by
  induction depth generalizing seen v with
  | zero => exact rfl
  | succ depth ih =>
    cases v with
    | scalar value =>
      have hn : (graph heap).next (.scalar value) = [] := rfl
      rw [walk_unmarked rfl rfl hn]
      exact ⟨_, rfl⟩
    | fieldsOf id =>
      have hn : (graph heap).next (.fieldsOf id) =
          (fieldItems (heap.fields id)).sorted.map Prod.snd := rfl
      rw [walk_unmarked rfl rfl hn]
      exact matches_items (ih seen)
    | ref id =>
      rw [normalizeCacheValue]
      obtain ⟨hm, hu, hn⟩ := (node_graph rfl : _ ∧ (graph heap).refused (.ref id) = _ ∧ _)
      cases node : heap id with
      | enum cls member x =>
        rw [node] at hm hu hn
        rw [walk_unmarked hm hu hn]
        exact matches_map (matches_one (ih seen x)) _
      | path text =>
        rw [node] at hm hu hn
        rw [walk_unmarked hm hu hn]
        exact ⟨_, rfl⟩
      | bytes array data =>
        rw [node] at hm hu hn
        rw [walk_unmarked hm hu hn]
        exact ⟨_, rfl⟩
      | dataclass cls fields =>
        rw [node] at hm hu hn
        rw [walk_unmarked hm hu hn]
        exact matches_map (matches_one (ih seen (.fieldsOf id))) _
      | mapping items =>
        rw [node] at hm hu hn
        rw [normalizeNode]
        have hn : (graph heap).next (.ref id) = items.sorted.map Prod.snd := hn
        exact matches_entering hm hu hn (matches_items (ih (id :: seen)))
      | sequence tuple items =>
        rw [node] at hm hu hn
        rw [normalizeNode]
        refine matches_entering hm hu (hn.trans (List.map_id' items).symm) ?_
        exact matches_map (matches_list fun x _ => ih (id :: seen) x) _
      | set frozen items =>
        rw [node] at hm hu hn
        rw [normalizeNode]
        refine matches_entering hm hu (hn.trans (List.map_id' items).symm) ?_
        exact matches_map (matches_list fun x _ => ih (id :: seen) x) _
      | object cls state outside =>
        rw [node] at hm hu hn
        rw [normalizeNode]
        have hn : (graph heap).next (.ref id) = [state] := hn
        exact matches_entering hm hu hn (matches_map (matches_one (ih (id :: seen) state)) _)
      | unsupported cls =>
        rw [node] at hm hu
        rw [normalizeNode, entering]
        by_cases hs : id ∈ seen
        · rw [if_pos hs, walk, enter_again hm hs]
          exact rfl
        · rw [if_neg hs, walk, enter_fresh hm hs]
          dsimp only
          rw [hu]
          exact ⟨cls, view_ref node, rfl⟩

/-! ## Outcomes -/

/-- A cycle is met from `v` on. -/
def Cyclic (heap : Heap) (v : Value) : Prop :=
  ∃ x, ReflTransGen (Edge (graph heap)) v x ∧ TransGen (Edge (graph heap)) x x

def Supported (heap : Heap) (v : Value) : Prop :=
  ∀ x, ReflTransGen (Edge (graph heap)) v x → ∀ cls, view heap x ≠ .unsupported cls

/-- The complaint about recursion is made about cycles only, every cycle meets a `TypeError`, and
what is acyclic and supported has a tree. -/
structure Answers (heap : Heap) (v : Value) (outcome : Outcome (Json Scalar)) : Prop where
  recursive : outcome = .error recursive → Cyclic heap v
  cyclic : Cyclic heap v → ∃ message, outcome = .error (.typeError message)
  acyclic : ¬Cyclic heap v → Supported heap v → ∃ tree, outcome = .ok tree

theorem matches_deep (h : Matches heap outcome verdict) :
    outcome = .error .recursionError ↔ verdict = .deep := by
  cases verdict with
  | done =>
    obtain ⟨a, rfl⟩ := h
    simp
  | deep => exact iff_of_true h rfl
  | repeated =>
    cases h
    simp [recursive]
  | refused x =>
    obtain ⟨cls, _, rfl⟩ := h
    simp [unsupportedType]

theorem complaints_differ (cls : PyClass) : unsupportedType cls ≠ recursive := by
  intro h
  have chars := congrArg String.toList (Failure.typeError.inj h)
  rw [String.toList_append] at chars
  have first := congrArg List.head? chars
  revert first
  simp

theorem walk_answers {v : Value} {depth : ℕ} {tree : Outcome (Json Scalar)}
    (h : Matches heap tree (walk (graph heap) depth [] v))
    (hd : walk (graph heap) depth [] v ≠ .deep) : Answers heap v tree := by
  have start : Above (graph heap) [] v := fun i hi => absurd hi List.not_mem_nil
  cases hw : walk (graph heap) depth [] v with
  | deep => exact absurd hw hd
  | done =>
    rw [hw] at h
    obtain ⟨t, rfl⟩ := h
    have clean := walk_clean hw
    refine ⟨?_, ?_, ?_⟩
    · intro he
      cases he
    · rintro ⟨x, hx, cycle⟩
      exact absurd cycle (clean.reach hx).acyclic
    · intro _ _
      exact ⟨t, rfl⟩
  | repeated =>
    rw [hw] at h
    have cycle := repeated_cycle hw start
    exact ⟨fun _ => cycle, fun _ => ⟨_, h⟩, fun free => absurd cycle free⟩
  | refused x =>
    rw [hw] at h
    obtain ⟨cls, seen, rfl⟩ := h
    refine ⟨?_, fun _ => ⟨_, rfl⟩, ?_⟩
    · intro he
      exact absurd (Except.error.inj he) (complaints_differ cls)
    · intro _ supported
      exact absurd seen (supported x (refused_reach hw).1 cls)

/-- Two outcomes of one verdict are one outcome, as a tree is written in one way. -/
theorem matches_unique {v : Value} {depth deeper : ℕ} {verdict : Verdict Value}
    (h : Matches heap (normalizeCacheValue floatstr heap depth [] v) verdict)
    (k : Matches heap (normalizeCacheValue floatstr heap deeper [] v) verdict) :
    normalizeCacheValue floatstr heap deeper [] v =
      normalizeCacheValue floatstr heap depth [] v := by
  cases verdict with
  | done =>
    obtain ⟨t, ht⟩ := h
    obtain ⟨u, hu⟩ := k
    rw [ht, hu, spelled_unique (normalize_spelled hu) (normalize_spelled ht)]
  | deep => exact k.trans h.symm
  | repeated => exact k.trans h.symm
  | refused x =>
    obtain ⟨cls, seen, hf⟩ := h
    obtain ⟨cls', seen', hf'⟩ := k
    cases seen.symm.trans seen'
    exact hf'.trans hf.symm

/-- On a finite graph of values the normalisation ends, with the right answer, exactly when it is
not led into a cycle of dataclass instances and enum members alone. -/
theorem normalize_ends_iff (floatstr : PyFloat → String) (heap : Heap) (v : Value)
    (finite : {x | ReflTransGen (Edge (graph heap)) v x}.Finite) :
    (∃ depth outcome, outcome ≠ .error .recursionError ∧
      (∀ deeper, depth ≤ deeper → normalizeCacheValue floatstr heap deeper [] v = outcome) ∧
      Answers heap v outcome) ↔ ¬Trapped (graph heap) v := by
  rw [← walk_ends_iff finite]
  constructor
  · rintro ⟨depth, outcome, hout, same, -⟩
    refine ⟨depth, ?_⟩
    intro hd
    have walks := normalize_walks floatstr heap depth [] v
    rw [same depth (Nat.le_refl _)] at walks
    exact hout ((matches_deep walks).mpr hd)
  · rintro ⟨depth, hd⟩
    have walks := normalize_walks floatstr heap depth [] v
    refine ⟨depth, _, fun hout => hd ((matches_deep walks).mp hout), ?_, walk_answers walks hd⟩
    · intro deeper hle
      have later := normalize_walks floatstr heap deeper [] v
      rw [walk_mono hd hle] at later
      exact matches_unique walks later

/-! ## A shared list, and a node that is its own successor -/

def sharedHeap : Heap
  | 0 => .sequence false [.ref 1, .ref 1]
  | 1 => .sequence false []
  | _ => .unsupported ⟨"builtins.slice", 0⟩

theorem shared_reach {x : Value} (h : ReflTransGen (Edge (graph sharedHeap)) (.ref 0) x) :
    x = .ref 0 ∨ x = .ref 1 := by
  induction h with
  | refl => exact .inl rfl
  | tail _ edge ih =>
    rcases ih with rfl | rfl
    · have edge : _ ∈ [Value.ref 1, Value.ref 1] := edge
      simp only [List.mem_cons, List.not_mem_nil, or_false, or_self] at edge
      exact .inr edge
    · exact absurd edge List.not_mem_nil

theorem shared_finite : {x | ReflTransGen (Edge (graph sharedHeap)) (.ref 0) x}.Finite := by
  refine (Set.toFinite ({.ref 0, .ref 1} : Set Value)).subset ?_
  intro x hx
  exact shared_reach hx

theorem shared_free : ¬Trapped (graph sharedHeap) (.ref 0) := by
  rintro ⟨w, hw, loop⟩
  obtain ⟨y, ⟨hm, _⟩, _⟩ := loop_next loop
  rcases shared_reach (leads_reach hw) with rfl | rfl
  · cases hm
  · cases hm

theorem shared_list_ends : ∃ depth outcome, outcome ≠ .error .recursionError ∧
    (∀ deeper, depth ≤ deeper →
      normalizeCacheValue CacheTexts.sampleFloats sharedHeap deeper [] (.ref 0) = outcome) ∧
    Answers sharedHeap (.ref 0) outcome :=
  (normalize_ends_iff CacheTexts.sampleFloats sharedHeap (.ref 0) shared_finite).mpr shared_free

def nextField : Dict String Value := ⟨[("next", .ref 0)], List.nodup_singleton _⟩

def ringHeap : Heap := fun _ => .dataclass ⟨"app.Node", 0⟩ nextField

theorem ring_trapped : Trapped (graph ringHeap) (.ref 0) := by
  have down : Bare (graph ringHeap) (.ref 0) (.fieldsOf 0) :=
    ⟨rfl, rfl, [], [], rfl, fun _ hz => absurd hz List.not_mem_nil⟩
  have back : Bare (graph ringHeap) (.fieldsOf 0) (.ref 0) :=
    ⟨rfl, rfl, [], [], rfl, fun _ hz => absurd hz List.not_mem_nil⟩
  exact ⟨.ref 0, .refl, .tail (.single down) back⟩

/-- A dataclass instance that holds itself: the recursion has no end and no `TypeError` is raised,
although a cycle is met. -/
theorem ring_never_ends : Cyclic ringHeap (.ref 0) ∧
    ∀ depth, normalizeCacheValue CacheTexts.sampleFloats ringHeap depth [] (.ref 0) =
      .error .recursionError := by
  constructor
  · exact ring_trapped.cycle
  · intro depth
    have walks := normalize_walks CacheTexts.sampleFloats ringHeap depth [] (.ref 0)
    exact (matches_deep walks).mpr (trapped_endless ring_trapped depth)

end CacheRecursion
