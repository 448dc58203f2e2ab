import Mathlib.Data.Finset.Card
import Mathlib.Data.Set.Finite.Basic
import Mathlib.Logic.Relation

/-! # Walks that remember their path

A depth-first walk over a graph some of whose nodes are marked. It notices a mark that is on its
path already; an unmarked node leaves no trace. The walk ends unless it is led into a cycle of
unmarked nodes.
-/
namespace PathWalk

open Relation

/-- `refused`: the walk stops there with a complaint. No two nodes have one mark. -/
structure MarkedGraph (α ι : Type) where
  next : α → List α
  mark : α → Option ι
  refused : α → Bool
  marks : ∀ x y i, mark x = some i → mark y = some i → x = y

inductive Verdict (α : Type) where
  | done | deep | repeated | refused (x : α)
  deriving DecidableEq

variable {α ι : Type}

def walkAll (walk : α → Verdict α) : List α → Verdict α
  | [] => .done
  | x :: xs =>
    match walk x with
    | .done => walkAll walk xs
    | verdict => verdict

def enter [DecidableEq ι] (G : MarkedGraph α ι) (seen : List ι) (x : α) : Option (List ι) :=
  match G.mark x with
  | none => some seen
  | some i => if i ∈ seen then none else some (i :: seen)

/-- The walk from `x`, `depth` steps deep at most, with the marks of the path in `seen`. -/
def walk [DecidableEq ι] (G : MarkedGraph α ι) : ℕ → List ι → α → Verdict α
  | 0, _, _ => .deep
  | depth + 1, seen, x =>
    match enter G seen x with
    | none => .repeated
    | some seen => if G.refused x then .refused x else walkAll (walk G depth seen) (G.next x)

section Lists

variable {f g : α → Verdict α} {x y : α} {xs before after : List α}

theorem walkAll_done : walkAll f xs = .done ↔ ∀ x ∈ xs, f x = .done := by
  induction xs with
  | nil => simp [walkAll]
  | cons x xs ih =>
    rw [walkAll, List.forall_mem_cons]
    cases hx : f x with
    | done => simp [ih]
    | _ => simp

/-- A verdict other than `done` is that of some node. -/
theorem walkAll_some {verdict : Verdict α} (h : walkAll f xs = verdict) (hv : verdict ≠ .done) :
    ∃ x ∈ xs, f x = verdict := by
  induction xs with
  | nil => exact absurd h.symm hv
  | cons x xs ih =>
    rw [walkAll] at h
    cases hx : f x with
    | done =>
      rw [hx] at h
      obtain ⟨y, hy, hf⟩ := ih h
      exact ⟨y, List.mem_cons_of_mem _ hy, hf⟩
    | _ =>
      rw [hx] at h
      exact ⟨x, List.mem_cons_self, hx.trans h⟩

theorem walkAll_mono (hfg : ∀ x ∈ xs, f x ≠ .deep → g x = f x) (h : walkAll f xs ≠ .deep) :
    walkAll g xs = walkAll f xs := by
  induction xs with
  | nil => exact rfl
  | cons x xs ih =>
    rw [walkAll] at h ⊢
    rw [walkAll]
    have hx := hfg x List.mem_cons_self
    cases hf : f x with
    | deep =>
      rw [hf] at h
      exact absurd rfl h
    | done =>
      rw [hf] at h hx
      rw [hx (by simp)]
      exact ih (fun y hy => hfg y (List.mem_cons_of_mem _ hy)) h
    | _ =>
      rw [hf] at hx
      rw [hx (by simp)]

theorem walkAll_deep (hb : ∀ z ∈ before, f z = .done ∨ f z = .deep) (hy : f y = .deep) :
    walkAll f (before ++ y :: after) = .deep := by
  induction before with
  | nil => rw [List.nil_append, walkAll, hy]
  | cons z before ih =>
    rw [List.cons_append, walkAll]
    rcases hb z List.mem_cons_self with hz | hz
    · rw [hz]
      exact ih fun w hw => hb w (List.mem_cons_of_mem _ hw)
    · rw [hz]

theorem walkAll_clear (h : ∀ x ∈ xs, f x = .done ∨ f x = .deep) :
    walkAll f xs = .done ∨ walkAll f xs = .deep := by
  induction xs with
  | nil => exact .inl rfl
  | cons x xs ih =>
    rw [walkAll]
    rcases h x List.mem_cons_self with hx | hx
    · rw [hx]
      exact ih fun y hy => h y (List.mem_cons_of_mem _ hy)
    · rw [hx]
      exact .inr rfl

end Lists

variable (G : MarkedGraph α ι)

def Edge (x y : α) : Prop := y ∈ G.next x

/-- No cycle and no refused node is met from here on. -/
inductive Clean : α → Prop where
  | intro (x : α) (ok : G.refused x = false) (rest : ∀ y ∈ G.next x, Clean y) : Clean x

/-- The walk goes from `x` to `y`, whatever it meets further on. -/
def Leads (x y : α) : Prop :=
  G.refused x = false ∧ ∃ before after, G.next x = before ++ y :: after ∧ ∀ z ∈ before, Clean G z

def Bare (x y : α) : Prop := G.mark x = none ∧ Leads G x y

/-- The walk is led into a cycle of unmarked nodes. -/
def Trapped (x : α) : Prop := ∃ w, ReflTransGen (Leads G) x w ∧ TransGen (Bare G) w w

/-- The marks of the path belong to nodes above `x`. -/
def Above (seen : List ι) (x : α) : Prop :=
  ∀ i ∈ seen, ∃ a, G.mark a = some i ∧ TransGen (Edge G) a x

variable {G} {seen seen' : List ι} {x y w : α} {depth : ℕ}

theorem Clean.reach (h : Clean G x) (hr : ReflTransGen (Edge G) x y) : Clean G y := by
  induction hr with
  | refl => exact h
  | tail _ edge ih =>
    cases ih with
    | intro _ _ rest => exact rest _ edge

theorem Clean.acyclic (h : Clean G x) : ¬TransGen (Edge G) x x := by
  induction h with
  | intro x ok rest ih =>
    intro cycle
    obtain ⟨y, hy, back⟩ := TransGen.head'_iff.mp cycle
    exact ih y hy (TransGen.tail' back hy)

theorem Leads.edge (h : Leads G x y) : y ∈ G.next x := by
  obtain ⟨_, before, after, hnext, _⟩ := h
  rw [hnext]
  exact List.mem_append_right _ List.mem_cons_self

theorem leads_reach (h : ReflTransGen (Leads G) x y) : ReflTransGen (Edge G) x y :=
  ReflTransGen.mono (fun _ _ (lead : Leads G _ _) => lead.edge) _ _ h

theorem Trapped.cycle (h : Trapped G x) :
    ∃ w, ReflTransGen (Edge G) x w ∧ TransGen (Edge G) w w := by
  obtain ⟨w, hw, loop⟩ := h
  exact ⟨w, leads_reach hw, TransGen.mono (fun _ _ (bare : Bare G _ _) => bare.2.edge) _ _ loop⟩

/-- The cycle seen from its next node. -/
theorem loop_next (h : TransGen (Bare G) x x) : ∃ y, Bare G x y ∧ TransGen (Bare G) y y := by
  obtain ⟨y, hy, back⟩ := TransGen.head'_iff.mp h
  exact ⟨y, hy, TransGen.tail' back hy⟩

variable [DecidableEq ι]

theorem enter_unmarked (h : G.mark x = none) : enter G seen x = some seen := by rw [enter, h]

theorem enter_again {i : ι} (h : G.mark x = some i) (hi : i ∈ seen) : enter G seen x = none := by
  rw [enter, h]
  exact if_pos hi

theorem enter_fresh {i : ι} (h : G.mark x = some i) (hi : i ∉ seen) :
    enter G seen x = some (i :: seen) := by
  rw [enter, h]
  exact if_neg hi

theorem enter_cases (G : MarkedGraph α ι) (seen : List ι) (x : α) :
    (enter G seen x = some seen ∧ G.mark x = none) ∨
    (∃ i, G.mark x = some i ∧ i ∈ seen ∧ enter G seen x = none) ∨
    ∃ i, G.mark x = some i ∧ i ∉ seen ∧ enter G seen x = some (i :: seen) := by
  cases hm : G.mark x with
  | none => exact .inl ⟨enter_unmarked hm, rfl⟩
  | some i =>
    by_cases hi : i ∈ seen
    · exact .inr (.inl ⟨i, rfl, hi, enter_again hm hi⟩)
    · exact .inr (.inr ⟨i, rfl, hi, enter_fresh hm hi⟩)

theorem walk_entered (he : enter G seen x = some seen') (hr : G.refused x = false) :
    walk G (depth + 1) seen x = walkAll (walk G depth seen') (G.next x) := by
  rw [walk, he]
  simp [hr]

theorem Above.next (h : Above G seen x) (he : enter G seen x = some seen') (hy : y ∈ G.next x) :
    Above G seen' y := by
  intro i hi
  have old : i ∈ seen → ∃ a, G.mark a = some i ∧ TransGen (Edge G) a y := by
    intro hi
    obtain ⟨a, ha, hx⟩ := h i hi
    exact ⟨a, ha, hx.tail hy⟩
  rcases enter_cases G seen x with ⟨hs, _⟩ | ⟨_, _, _, hs⟩ | ⟨j, hj, _, hs⟩
  · cases hs.symm.trans he
    exact old hi
  · cases hs.symm.trans he
  · cases hs.symm.trans he
    rcases List.mem_cons.mp hi with rfl | hi
    · exact ⟨x, hj, .single hy⟩
    · exact old hi

/-! ## Verdicts -/

theorem walk_clean (h : walk G depth seen x = .done) : Clean G x := by
  induction depth generalizing seen x with
  | zero => cases h
  | succ depth ih =>
    rw [walk] at h
    split at h
    · cases h
    · split at h
      · cases h
      · rename_i hr
        exact .intro x (Bool.not_eq_true _ ▸ hr) fun y hy => ih (walkAll_done.mp h y hy)

/-- Over a clean node the walk gets through, unless it is too deep. -/
theorem Clean.walk (h : Clean G x) (above : Above G seen x) :
    walk G depth seen x = .done ∨ walk G depth seen x = .deep := by
  induction h generalizing seen depth with
  | intro x ok rest ih =>
    cases depth with
    | zero => exact .inr rfl
    | succ depth =>
      have clear : ∀ {seen'}, enter G seen x = some seen' →
          PathWalk.walk G (depth + 1) seen x = .done ∨
            PathWalk.walk G (depth + 1) seen x = .deep := by
        intro seen' he
        rw [walk_entered he ok]
        exact walkAll_clear fun y hy => ih y hy (above.next he hy)
      rcases enter_cases G seen x with ⟨he, _⟩ | ⟨i, hi, hs, _⟩ | ⟨i, _, _, he⟩
      · exact clear he
      · obtain ⟨a, ha, cycle⟩ := above i hs
        rw [G.marks a x i ha hi] at cycle
        exact absurd cycle (Clean.intro x ok rest).acyclic
      · exact clear he

theorem walk_succ (h : walk G depth seen x ≠ .deep) :
    walk G (depth + 1) seen x = walk G depth seen x := by
  induction depth generalizing seen x with
  | zero => exact absurd rfl h
  | succ depth ih =>
    rw [walk] at h
    rw [walk, walk]
    cases he : enter G seen x with
    | none => exact rfl
    | some seen' =>
      rw [he] at h
      dsimp only at h ⊢
      split
      · exact rfl
      · rename_i hr
        rw [if_neg hr] at h
        exact walkAll_mono (fun y _ hy => ih hy) h

theorem walk_mono {deeper : ℕ} (h : walk G depth seen x ≠ .deep) (hd : depth ≤ deeper) :
    walk G deeper seen x = walk G depth seen x := by
  induction hd with
  | refl => exact rfl
  | step _ ih => rw [walk_succ (ih ▸ h), ih]

/-- A mark is repeated only on a cycle. -/
theorem repeated_cycle (h : walk G depth seen x = .repeated) (above : Above G seen x) :
    ∃ c, ReflTransGen (Edge G) x c ∧ TransGen (Edge G) c c := by
  induction depth generalizing seen x with
  | zero => cases h
  | succ depth ih =>
    rw [PathWalk.walk] at h
    cases he : enter G seen x with
    | none =>
      rcases enter_cases G seen x with ⟨hs, _⟩ | ⟨i, hi, hs, _⟩ | ⟨_, _, _, hs⟩
      · cases hs.symm.trans he
      · obtain ⟨a, ha, cycle⟩ := above i hs
        rw [G.marks a x i ha hi] at cycle
        exact ⟨x, .refl, cycle⟩
      · cases hs.symm.trans he
    | some seen' =>
      rw [he] at h
      dsimp only at h
      split at h
      · cases h
      · obtain ⟨y, hy, hw⟩ := walkAll_some h (by simp)
        obtain ⟨c, hc, cycle⟩ := ih hw (above.next he hy)
        exact ⟨c, .head hy hc, cycle⟩

theorem refused_reach (h : walk G depth seen x = .refused y) :
    ReflTransGen (Edge G) x y ∧ G.refused y = true := by
  induction depth generalizing seen x with
  | zero => cases h
  | succ depth ih =>
    rw [PathWalk.walk] at h
    split at h
    · cases h
    · split at h
      · rename_i hr
        cases h
        exact ⟨.refl, hr⟩
      · obtain ⟨z, hz, hw⟩ := walkAll_some h (by simp)
        obtain ⟨hy, hr⟩ := ih hw
        exact ⟨.head hz hy, hr⟩

/-! ## Cycles that leave no trace -/

/-- A walk that is too deep, however deep it may go. -/
def Endless (G : MarkedGraph α ι) (seen : List ι) (x : α) : Prop :=
  ∀ depth, walk G depth seen x = .deep

theorem leads_deep (above : Above G seen x) (he : enter G seen x = some seen') (h : Leads G x y)
    (hy : walk G depth seen' y = .deep) : walk G (depth + 1) seen x = .deep := by
  obtain ⟨ok, before, after, hnext, clean⟩ := h
  rw [walk_entered he ok, hnext]
  apply walkAll_deep _ hy
  intro z hz
  refine (clean z hz).walk (above.next he ?_)
  rw [hnext]
  exact List.mem_append_left _ hz

theorem loop_endless (h : TransGen (Bare G) x x) (above : Above G seen x) : Endless G seen x := by
  intro depth
  induction depth generalizing x with
  | zero => exact rfl
  | succ depth ih =>
    obtain ⟨y, ⟨hm, hy⟩, loop⟩ := loop_next h
    have he : enter G seen x = some seen := enter_unmarked hm
    exact leads_deep above he hy (ih loop (above.next he hy.edge))

/-- A way of that many steps into a bare cycle, past no mark in `seen`. -/
inductive Way (G : MarkedGraph α ι) (seen : List ι) : ℕ → α → Prop where
  | loop (x : α) (h : TransGen (Bare G) x x) : Way G seen 0 x
  | step {n : ℕ} (x y : α) (h : Leads G x y) (fresh : ∀ i, G.mark x = some i → i ∉ seen)
      (rest : Way G seen n y) : Way G seen (n + 1) x

/-- A way past `seen` avoids one more mark, or it is no shorter than one from that mark's node. -/
theorem Way.avoids {n : ℕ} (h : Way G seen n y) {i : ι} (hx : G.mark x = some i) :
    Way G (i :: seen) n y ∨ ∃ m, m ≤ n ∧ Way G seen m x := by
  induction h with
  | loop z loop => exact .inl (.loop z loop)
  | @step n z y hz fresh rest ih =>
    by_cases hm : G.mark z = some i
    · rw [G.marks x z i hx hm]
      exact .inr ⟨n + 1, Nat.le_refl _, .step z y hz fresh rest⟩
    · rcases ih with way | ⟨m, hmn, way⟩
      · refine .inl (.step z y hz ?_ way)
        intro j hj
        rw [List.mem_cons]
        rintro (rfl | hs)
        · exact hm hj
        · exact fresh j hj hs
      · exact .inr ⟨m, Nat.le_succ_of_le hmn, way⟩

theorem way_endless {n : ℕ} (h : Way G seen n x) (above : Above G seen x) :
    Endless G seen x := by
  induction n using Nat.strongRecOn generalizing seen x with
  | ind n ih =>
    cases h with
    | loop _ loop => exact loop_endless loop above
    | @step n _ y hy fresh rest =>
      have onward : ∀ {seen'}, enter G seen x = some seen' → Way G seen' n y →
          Endless G seen x := by
        intro seen' he way depth
        cases depth with
        | zero => exact rfl
        | succ depth =>
          exact leads_deep above he hy
            (ih n (Nat.lt_succ_self _) way (above.next he hy.edge) depth)
      rcases enter_cases G seen x with ⟨he, _⟩ | ⟨i, hi, hs, _⟩ | ⟨i, hi, _, he⟩
      · exact onward he rest
      · exact absurd hs (fresh i hi)
      · rcases rest.avoids hi with way | ⟨m, hm, way⟩
        · exact onward he way
        · exact ih m (Nat.lt_succ_of_le hm) way above

theorem trapped_endless (h : Trapped G x) : Endless G [] x := by
  obtain ⟨w, hw, loop⟩ := h
  have way : ∃ n, Way G [] n x := by
    induction hw using ReflTransGen.head_induction_on with
    | refl => exact ⟨0, .loop w loop⟩
    | head hy _ ih =>
      obtain ⟨n, way⟩ := ih
      exact ⟨n + 1, .step _ _ hy (fun _ _ => List.not_mem_nil) way⟩
  obtain ⟨n, way⟩ := way
  exact way_endless way fun i hi => absurd hi List.not_mem_nil

/-! ## Every other walk ends -/

/-- An endless walk over a list gets through to a node from which it is endless. -/
theorem endless_list {xs : List α} (h : ∀ depth, walkAll (walk G depth seen) xs = .deep) :
    ∃ before y after, xs = before ++ y :: after ∧ (∀ z ∈ before, Clean G z) ∧
      Endless G seen y := by
  induction xs with
  | nil => cases h 0
  | cons x xs ih =>
    by_cases hx : Endless G seen x
    · exact ⟨[], x, xs, rfl, fun z hz => absurd hz List.not_mem_nil, hx⟩
    · obtain ⟨d, hd⟩ := not_forall.mp hx
      have done : walk G d seen x = .done := by
        by_contra hne
        have hall := h d
        rw [walkAll] at hall
        split at hall
        · contradiction
        · exact hd hall
      have rest : ∀ depth, walkAll (walk G depth seen) xs = .deep := by
        intro depth
        by_contra hne
        have later := walkAll_mono (g := walk G (max d depth) seen)
          (fun y _ hy => walk_mono hy (Nat.le_max_right d depth)) hne
        have hall := h (max d depth)
        rw [walkAll, walk_mono hd (Nat.le_max_left d depth), done] at hall
        exact hne (later ▸ hall)
      obtain ⟨before, y, after, rfl, clean, hy⟩ := ih rest
      refine ⟨x :: before, y, after, rfl, ?_, hy⟩
      intro z hz
      rcases List.mem_cons.mp hz with rfl | hz
      · exact walk_clean done
      · exact clean z hz

/-- An endless walk goes on endlessly from some next node. -/
theorem endless_next (h : Endless G seen x) : ∃ seen' y, enter G seen x = some seen' ∧
    Leads G x y ∧ Endless G seen' y := by
  have first := h 1
  cases he : enter G seen x with
  | none =>
    rw [walk, he] at first
    cases first
  | some seen' =>
    have ok : G.refused x = false := by
      by_contra hr
      rw [walk, he] at first
      dsimp only at first
      rw [if_pos (Bool.not_eq_false _ ▸ hr)] at first
      cases first
    have list : ∀ depth, walkAll (walk G depth seen') (G.next x) = .deep := by
      intro depth
      rw [← walk_entered he ok]
      exact h (depth + 1)
    obtain ⟨before, y, after, hnext, clean, hy⟩ := endless_list list
    exact ⟨seen', y, rfl, ⟨ok, before, after, hnext, clean⟩, hy⟩

/-- The marks that a path may still meet in `F`. -/
noncomputable def unseen (G : MarkedGraph α ι) (F : Finset α) (seen : List ι) : Finset α :=
  open Classical in F.filter fun a => ∃ i, G.mark a = some i ∧ i ∉ seen

theorem unseen_enter {F : Finset α} {i : ι} (hF : x ∈ F) (hx : G.mark x = some i)
    (hi : i ∉ seen) : (unseen G F (i :: seen)).card < (unseen G F seen).card := by
  classical
  apply Finset.card_lt_card
  refine Finset.ssubset_iff_of_subset ?_ |>.mpr ⟨x, ?_, ?_⟩
  · intro a ha
    obtain ⟨hF, j, hj, hs⟩ := Finset.mem_filter.mp ha
    exact Finset.mem_filter.mpr ⟨hF, j, hj, fun hm => hs (List.mem_cons_of_mem _ hm)⟩
  · exact Finset.mem_filter.mpr ⟨hF, i, hx, hi⟩
  · intro hm
    obtain ⟨_, j, hj, hs⟩ := Finset.mem_filter.mp hm
    cases hx.symm.trans hj
    exact hs List.mem_cons_self

/-- An endless walk over finitely many nodes is trapped. Each mark is met once. Between two marks
the path runs over unmarked nodes, here `trail`, until it meets one of them again. -/
theorem endless_trapped {F : Finset α} (closed : ∀ x ∈ F, ∀ y ∈ G.next x, y ∈ F) {k m : ℕ}
    {trail : Finset α} (hk : (unseen G F seen).card = k) (hm : F.card - trail.card = m)
    (hF : x ∈ F) (ht : trail ⊆ F) (loop : ∀ t ∈ trail, TransGen (Bare G) t x)
    (h : Endless G seen x) : Trapped G x := by
  classical
  induction k using Nat.strongRecOn generalizing m trail seen x with
  | ind k outer =>
    induction m using Nat.strongRecOn generalizing trail x with
    | ind m inner =>
      by_cases hx : x ∈ trail
      · exact ⟨x, .refl, loop x hx⟩
      · obtain ⟨seen', y, he, lead, hy⟩ := endless_next h
        have onward : Trapped G y → Trapped G x := by
          rintro ⟨w, hw, cycle⟩
          exact ⟨w, .head lead hw, cycle⟩
        have hyF := closed x hF y lead.edge
        rcases enter_cases G seen x with ⟨hs, hmark⟩ | ⟨_, _, _, hs⟩ | ⟨i, hi, fresh, hs⟩
        · cases hs.symm.trans he
          have bare : Bare G x y := ⟨hmark, lead⟩
          have longer : insert x trail ⊆ F := Finset.insert_subset hF ht
          have size := Finset.card_le_card longer
          rw [Finset.card_insert_of_notMem hx] at size
          refine onward (inner (F.card - (insert x trail).card) ?_ rfl hyF longer ?_ hy)
          · rw [Finset.card_insert_of_notMem hx]
            omega
          · intro t hts
            rcases Finset.mem_insert.mp hts with rfl | hts
            · exact .single bare
            · exact (loop t hts).tail bare
        · cases hs.symm.trans he
        · cases hs.symm.trans he
          have start : ∀ t ∈ (∅ : Finset α), TransGen (Bare G) t y := by
            intro t hts
            exact absurd hts (Finset.notMem_empty t)
          exact onward (outer _ (hk ▸ unseen_enter hF hi fresh) rfl rfl hyF
            (Finset.empty_subset F) start hy)

/-- A walk over finitely many nodes ends exactly when it is not trapped. -/
theorem walk_ends_iff (finite : {y | ReflTransGen (Edge G) x y}.Finite) :
    (∃ depth, walk G depth [] x ≠ .deep) ↔ ¬Trapped G x := by
  constructor
  · rintro ⟨depth, h⟩ trapped
    exact h (trapped_endless trapped depth)
  · intro free
    by_contra h
    have endless : Endless G [] x := by
      intro depth
      by_contra hd
      exact h ⟨depth, hd⟩
    have mem : ∀ {y}, y ∈ finite.toFinset ↔ ReflTransGen (Edge G) x y := finite.mem_toFinset
    refine free (endless_trapped (F := finite.toFinset) ?_ rfl rfl (mem.mpr .refl)
      (Finset.empty_subset _) (fun t ht => absurd ht (Finset.notMem_empty t)) endless)
    intro y hy z hz
    exact mem.mpr ((mem.mp hy).tail hz)

end PathWalk
