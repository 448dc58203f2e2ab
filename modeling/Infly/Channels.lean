import Mathlib.Data.List.Basic
import Mathlib.Logic.Function.Basic

/-! # A channel with one buffer for each sender

Senders put items into buffers of their own, from where they go into one pipe that has one reader.
Items of different senders overtake each other on the way, those of one sender do not.
-/

namespace Channels

variable {ι α : Type} [DecidableEq ι]

/-- The items of one sender, in order. -/
def sentBy (i : ι) (l : List (ι × α)) : List α :=
  (l.filter fun x => decide (x.1 = i)).map Prod.snd

@[simp] theorem sentBy_append (i : ι) (l m : List (ι × α)) :
    sentBy i (l ++ m) = sentBy i l ++ sentBy i m := by
  simp [sentBy]

@[simp] theorem sentBy_own (i : ι) (a : α) : sentBy i [(i, a)] = [a] := by simp [sentBy]

theorem sentBy_other {i j : ι} (h : j ≠ i) (a : α) : sentBy i [(j, a)] = [] := by simp [sentBy, h]

theorem mem_sentBy {i : ι} {a : α} {l : List (ι × α)} : a ∈ sentBy i l ↔ (i, a) ∈ l := by
  simp [sentBy]

/-- `put` and `got`: everything that was ever put, and that was read. -/
structure Channel (ι α : Type) where
  buffer : ι → List α := fun _ => []
  pipe : List (ι × α) := []
  put : ι → List α := fun _ => []
  got : List (ι × α) := []

def Channel.send (c : Channel ι α) (i : ι) (a : α) : Channel ι α := { c with
  buffer := Function.update c.buffer i (c.buffer i ++ [a])
  put := Function.update c.put i (c.put i ++ [a]) }

/-- The first item of a buffer goes into the pipe. -/
def Channel.feed (c : Channel ι α) (i : ι) : Channel ι α :=
  match c.buffer i with
  | [] => c
  | a :: rest => { c with
      buffer := Function.update c.buffer i rest
      pipe := c.pipe ++ [(i, a)] }

def Channel.take (c : Channel ι α) : Option ((ι × α) × Channel ι α) :=
  match c.pipe with
  | [] => none
  | x :: rest => some (x, { c with pipe := rest, got := c.got ++ [x] })

/-- Nothing is lost, comes twice, or overtakes an item of the same sender. -/
def Channel.Ordered (c : Channel ι α) : Prop :=
  ∀ i, sentBy i c.got ++ sentBy i c.pipe ++ c.buffer i = c.put i

variable {c d : Channel ι α} {i : ι} {a : α} {x : ι × α}

theorem ordered_empty : ({} : Channel ι α).Ordered := fun _ => rfl

theorem Channel.Ordered.send (h : c.Ordered) (i : ι) (a : α) : (c.send i a).Ordered := by
  intro j
  have hj := h j
  by_cases hij : j = i
  · subst hij
    simp [Channel.send, ← hj]
  · simp [Channel.send, hij, hj]

theorem Channel.Ordered.feed (h : c.Ordered) (i : ι) : (c.feed i).Ordered := by
  intro j
  have hj := h j
  unfold Channel.feed
  split
  · exact hj
  · rename_i a rest hb
    by_cases hij : j = i
    · subst hij
      rw [hb] at hj
      simpa using hj
    · simpa [Function.update_of_ne hij, sentBy_other (Ne.symm hij)] using hj

omit [DecidableEq ι] in
theorem take_some (h : c.take = some (x, d)) :
    c.pipe = x :: d.pipe ∧ d.got = c.got ++ [x] ∧ d.put = c.put ∧ d.buffer = c.buffer := by
  unfold Channel.take at h
  split at h
  · cases h
  · rename_i y rest hp
    cases h
    exact ⟨hp, rfl, rfl, rfl⟩

theorem Channel.Ordered.take (h : c.Ordered) (ht : c.take = some (x, d)) : d.Ordered := by
  obtain ⟨hp, hg, hput, hb⟩ := take_some ht
  intro j
  have hj := h j
  have split : sentBy j (x :: d.pipe) = sentBy j [x] ++ sentBy j d.pipe :=
    sentBy_append j [x] d.pipe
  rw [hp, split] at hj
  rw [hg, hput, hb, ← hj, sentBy_append]
  simp only [List.append_assoc]

/-- What the reader has of a sender is what that sender put first. -/
theorem Channel.Ordered.got_prefix (h : c.Ordered) (i : ι) : sentBy i c.got <+: c.put i := by
  rw [← h i, List.append_assoc]
  exact List.prefix_append _ _

@[simp] theorem send_put : (c.send i a).put = Function.update c.put i (c.put i ++ [a]) := rfl

@[simp] theorem feed_got : (c.feed i).got = c.got := by
  unfold Channel.feed
  split <;> rfl

@[simp] theorem feed_put : (c.feed i).put = c.put := by
  unfold Channel.feed
  split <;> rfl

/-! ## What is in front of a mark -/

/-- Where a mark comes once on both sides, the same is in front of it. -/
theorem front_unique {β : Type} {m : β} {p q x y : List β} (hp : m ∉ p) (hq : m ∉ q)
    (h : p ++ m :: x = q ++ m :: y) : p = q := by
  induction p generalizing q with
  | nil =>
    cases q with
    | nil => rfl
    | cons b q =>
      obtain ⟨rfl, -⟩ := List.cons.inj h
      exact absurd List.mem_cons_self hq
  | cons b p ih =>
    cases q with
    | nil =>
      obtain ⟨rfl, -⟩ := List.cons.inj h
      exact absurd List.mem_cons_self hp
    | cons c q =>
      obtain ⟨rfl, rest⟩ := List.cons.inj h
      rw [ih (fun hm => hp (List.mem_cons_of_mem _ hm)) (fun hm => hq (List.mem_cons_of_mem _ hm))
        rest]

/-- A prefix that ends in the mark has in front of it all that was put there. -/
theorem marked_prefix {β : Type} {m : β} {p q y : List β} (hp : m ∉ p) (hq : m ∉ q)
    (h : p ++ [m] <+: q ++ m :: y) : p = q := by
  obtain ⟨rest, h⟩ := h
  rw [List.append_assoc, List.singleton_append] at h
  exact front_unique hp hq h

end Channels
