import Infly.Channels
import Infly.Dict
import Infly.Transitions
import Mathlib.Data.Int.Notation
import Mathlib.Data.List.ReduceOption

/-! # From a logger to its sinks

The queue between the processes that log and the thread of `RoutingQueueListener` in
`infly/runtime/log.py`, and how `MainLogManager` starts and stops it. What the factories, the
handlers and the sinks do is up to them: they may raise.
-/
namespace LogPipeline

open Transitions Channels

/-! ## State -/

/-- The levels of the settings and of the console handler, and what the listener asks of a
record. -/
structure Routing (ρ : Type) where
  logLevel : ℤ
  consoleLevel : ℤ
  levelno : ρ → ℤ
  routingKey : ρ → String

/-- `number` says which object it is. -/
structure FileHandler where
  number : ℕ
  level : ℤ
  deriving DecidableEq

/-- Where the listener's thread is with a record that it has taken from the queue. -/
inductive Pc (χ σ : Type) where
  | unstarted | getting
  | routing (x : χ)
  | writing (x : χ) (handler : FileHandler)
  | showing (x : χ)
  | notifying (x : χ)
  | telling (x : χ) (sinks : List σ)
  | ended
  | dead (x : χ)
  deriving DecidableEq

inductive StopPc where
  | idle | checking | joining | closing | restoring | done
  deriving DecidableEq

/-- Process `none` is the manager's own. `finished` are the records for which `handle` has
returned, and `notified` those for which it has copied the sinks; `sent` is what the manager's
process had logged when the sentinel was put. -/
structure State (ι ρ σ : Type) where
  queue : Channel (Option ι) (Option ρ) := {}
  queueOpen : Bool := true
  thread : Pc (Option ι × ρ) σ := .unstarted
  handlers : Dict String FileHandler := .empty
  built : ℕ := 0
  closed : List ℕ := []
  sinks : List σ := []
  started : Bool := false
  stopping : StopPc := .idle
  sent : Option (List ρ) := none
  finished : List (Option ι × ρ) := []
  notified : List ρ := []
  told : List (σ × ρ) := []

/-- `timeout`: the listener's thread has not ended in time; `closeRaises`: handler `n` of the table
raises when it is closed; `route`: the level of the handler that the factory builds, or `none` if
it raises. -/
inductive Event (ι ρ σ : Type) where
  | log (i : Option ι) (r : ρ)
  | feed (i : Option ι)
  | addSink (k : σ) | removeSink (k : σ)
  | start | stop | stopStep | timeout
  | closeRaises (n : ℕ)
  | take
  | route (level : Option ℤ)
  | write (raises : Bool)
  | toConsole (raises : Bool)
  | copySinks
  | tell
  deriving DecidableEq

variable {ι ρ σ : Type}

def Pc.alive {χ : Type} : Pc χ σ → Bool
  | .unstarted | .ended | .dead _ => false
  | _ => true

/-! ## Steps -/

section

variable [DecidableEq ι] [DecidableEq σ] (cfg : Routing ρ)

/-- The record has been handled. -/
def State.finish (s : State ι ρ σ) (x : Option ι × ρ) : State ι ρ σ :=
  { s with thread := .getting, finished := s.finished ++ [x] }

def State.tellFrom (s : State ι ρ σ) (x : Option ι × ρ) : List σ → State ι ρ σ
  | [] => s.finish x
  | sinks => { s with thread := .telling x sinks }

def takeNext (s : State ι ρ σ) : Option (State ι ρ σ) :=
  match s.thread, s.queue.take with
  | .getting, some ((_, none), queue) => some { s with queue := queue, thread := .ended }
  | .getting, some ((i, some r), queue) =>
    if cfg.levelno r < cfg.logLevel then some ({ s with queue := queue }.finish (i, r))
    else some { s with queue := queue, thread := .routing (i, r) }
  | _, _ => none

def routeNext (s : State ι ρ σ) (level : Option ℤ) : Option (State ι ρ σ) :=
  match s.thread, level with
  | .routing x, none => some { s with thread := .dead x }
  | .routing x, some level =>
    match s.handlers.get? (cfg.routingKey x.2) with
    | some handler => some { s with thread := .writing x handler }
    | none => some { s with
        thread := .writing x ⟨s.built, level⟩
        handlers := s.handlers.set (cfg.routingKey x.2) ⟨s.built, level⟩
        built := s.built + 1 }
  | _, _ => none

def writeNext (s : State ι ρ σ) (raises : Bool) : Option (State ι ρ σ) :=
  match s.thread with
  | .writing x handler =>
    if handler.level ≤ cfg.levelno x.2 ∧ raises = true then some { s with thread := .dead x }
    else some { s with thread := .showing x }
  | _ => none

def consoleNext (s : State ι ρ σ) (raises : Bool) : Option (State ι ρ σ) :=
  match s.thread with
  | .showing x =>
    if cfg.consoleLevel ≤ cfg.levelno x.2 then
      some { s with thread := if raises then .dead x else .notifying x }
    else some (s.finish x)
  | _ => none

/-- `MainLogManager.stop` and `RoutingQueueListener.stop`. -/
def stopNext (s : State ι ρ σ) : Option (State ι ρ σ) :=
  match s.stopping with
  | .checking =>
    if s.thread.alive then some { s with
      queue := s.queue.send none none
      sent := some (s.queue.put none).reduceOption
      stopping := .joining }
    else some { s with stopping := .closing }
  | .joining => if s.thread.alive then none else some { s with stopping := .closing }
  | .closing => some { s with
      closed := s.closed ++ s.handlers.values.map FileHandler.number
      handlers := .empty
      stopping := .restoring }
  | .restoring => some { s with queueOpen := false, stopping := .done }
  | .idle | .done => none

/-- A call of the logger in the manager's process finds the queue handler, or has found it. -/
def next (s : State ι ρ σ) : Event ι ρ σ → Option (State ι ρ σ)
  | .log none r =>
    if s.queueOpen = true ∧ cfg.logLevel ≤ cfg.levelno r then
      some { s with queue := s.queue.send none (some r) }
    else none
  | .log (some i) r => some { s with queue := s.queue.send (some i) (some r) }
  | .feed i => some { s with queue := s.queue.feed i }
  | .addSink k => some { s with sinks := s.sinks ++ [k] }
  | .removeSink k => some { s with sinks := s.sinks.filter fun j => decide (j ≠ k) }
  | .start =>
    if s.started = true ∨ s.stopping ≠ .idle then some s
    else some { s with started := true, thread := .getting }
  | .stop =>
    if s.stopping = .idle then
      some { s with stopping := if s.started then .checking else .restoring }
    else some s
  | .stopStep => stopNext s
  | .closeRaises n =>
    if s.stopping = .closing ∧ n < s.handlers.values.length then some { s with
      closed := s.closed ++ (s.handlers.values.take n).map FileHandler.number
      stopping := .restoring }
    else none
  | .timeout => if s.stopping = .joining then some { s with stopping := .closing } else none
  | .take => takeNext cfg s
  | .route level => routeNext cfg s level
  | .write raises => writeNext cfg s raises
  | .toConsole raises => consoleNext cfg s raises
  | .copySinks =>
    match s.thread with
    | .notifying x => some ({ s with notified := s.notified ++ [x.2] }.tellFrom x s.sinks)
    | _ => none
  | .tell =>
    match s.thread with
    | .telling x (k :: rest) => some ({ s with told := s.told ++ [(k, x.2)] }.tellFrom x rest)
    | _ => none

def system : System (State ι ρ σ) (Event ι ρ σ) where
  init s := s = {}
  step s e t := next cfg s e = some t

/-- The listener's thread ends in time, and no handler raises when it is closed. -/
def smooth : Event ι ρ σ → Bool
  | .timeout | .closeRaises _ => false
  | _ => true

/-! ## What a step does -/

/-- The steps, each with what it needs and what it leaves. -/
inductive Change (s : State ι ρ σ) : Event ι ρ σ → State ι ρ σ → Prop where
  | none (e : Event ι ρ σ) (idle : e = .start ∨ e = .stop) : Change s e s
  | log (i : Option ι) (r : ρ) (opened : i = .none → s.queueOpen = true) :
      Change s (.log i r) { s with queue := s.queue.send i (some r) }
  | feed (i : Option ι) : Change s (.feed i) { s with queue := s.queue.feed i }
  | addSink (k : σ) : Change s (.addSink k) { s with sinks := s.sinks ++ [k] }
  | removeSink (k : σ) :
      Change s (.removeSink k) { s with sinks := s.sinks.filter fun j => decide (j ≠ k) }
  | start (fresh : s.started = false) (early : s.stopping = .idle) :
      Change s .start { s with started := true, thread := .getting }
  | stop (first : s.stopping = .idle) :
      Change s .stop { s with stopping := if s.started then .checking else .restoring }
  | ask (at_ : s.stopping = .checking) (alive : s.thread.alive = true) :
      Change s .stopStep { s with
        queue := s.queue.send .none .none
        sent := some (s.queue.put .none).reduceOption
        stopping := .joining }
  | joined (at_ : s.stopping = .checking ∨ s.stopping = .joining) (over_ : s.thread.alive = false) :
      Change s .stopStep { s with stopping := .closing }
  | expire (at_ : s.stopping = .joining) : Change s .timeout { s with stopping := .closing }
  | close (at_ : s.stopping = .closing) : Change s .stopStep { s with
      closed := s.closed ++ s.handlers.values.map FileHandler.number
      handlers := .empty
      stopping := .restoring }
  | closeRaises (n : ℕ) (at_ : s.stopping = .closing) : Change s (.closeRaises n) { s with
      closed := s.closed ++ (s.handlers.values.take n).map FileHandler.number
      stopping := .restoring }
  | restore (at_ : s.stopping = .restoring) :
      Change s .stopStep { s with queueOpen := false, stopping := .done }
  | end_ (i : Option ι) (queue : Channel (Option ι) (Option ρ)) (free : s.thread = .getting)
      (ht : s.queue.take = some ((i, .none), queue)) :
      Change s .take { s with queue := queue, thread := .ended }
  | drop (i : Option ι) (r : ρ) (queue : Channel (Option ι) (Option ρ))
      (free : s.thread = .getting) (ht : s.queue.take = some ((i, some r), queue))
      (low : cfg.levelno r < cfg.logLevel) :
      Change s .take ({ s with queue := queue }.finish (i, r))
  | take (i : Option ι) (r : ρ) (queue : Channel (Option ι) (Option ρ))
      (free : s.thread = .getting) (ht : s.queue.take = some ((i, some r), queue))
      (high : cfg.logLevel ≤ cfg.levelno r) :
      Change s .take { s with queue := queue, thread := .routing (i, r) }
  | route (level : ℤ) (x : Option ι × ρ) (handler : FileHandler) (at_ : s.thread = .routing x)
      (known : s.handlers.get? (cfg.routingKey x.2) = some handler) :
      Change s (.route (some level)) { s with thread := .writing x handler }
  | build (level : ℤ) (x : Option ι × ρ) (at_ : s.thread = .routing x)
      (new : s.handlers.get? (cfg.routingKey x.2) = .none) : Change s (.route (some level)) { s with
        thread := .writing x ⟨s.built, level⟩
        handlers := s.handlers.set (cfg.routingKey x.2) ⟨s.built, level⟩
        built := s.built + 1 }
  | die (e : Event ι ρ σ) (x : Option ι × ρ)
      (at_ : s.thread = .routing x ∨ (∃ handler, s.thread = .writing x handler) ∨
        s.thread = .showing x) (high : e = .route .none ∨ e = .write true ∨ e = .toConsole true) :
      Change s e { s with thread := .dead x }
  | write (raises : Bool) (x : Option ι × ρ) (handler : FileHandler)
      (at_ : s.thread = .writing x handler) :
      Change s (.write raises) { s with thread := .showing x }
  | toConsole (x : Option ι × ρ) (at_ : s.thread = .showing x)
      (high : cfg.consoleLevel ≤ cfg.levelno x.2) :
      Change s (.toConsole false) { s with thread := .notifying x }
  | unseen (raises : Bool) (x : Option ι × ρ) (at_ : s.thread = .showing x)
      (low : cfg.levelno x.2 < cfg.consoleLevel) : Change s (.toConsole raises) (s.finish x)
  | copySinks (x : Option ι × ρ) (at_ : s.thread = .notifying x) :
      Change s .copySinks ({ s with notified := s.notified ++ [x.2] }.tellFrom x s.sinks)
  | tell (x : Option ι × ρ) (k : σ) (rest : List σ) (at_ : s.thread = .telling x (k :: rest)) :
      Change s .tell ({ s with told := s.told ++ [(k, x.2)] }.tellFrom x rest)

variable {cfg : Routing ρ} {s t : State ι ρ σ} {e : Event ι ρ σ}

theorem next_change (h : next cfg s e = some t) : Change cfg s e t := by
  cases e with
  | log i r =>
    cases i with
    | none =>
      simp only [next] at h
      split at h
      · rename_i hc
        cases h
        exact .log .none r fun _ => hc.1
      · cases h
    | some i =>
      cases h
      exact .log (some i) r nofun
  | feed i =>
    cases h
    exact .feed i
  | addSink k =>
    cases h
    exact .addSink k
  | removeSink k =>
    cases h
    exact .removeSink k
  | start =>
    simp only [next] at h
    split at h
    · cases h
      exact .none _ (.inl rfl)
    · rename_i hc
      cases h
      obtain ⟨hs, hi⟩ := not_or.mp hc
      exact .start (Bool.eq_false_iff.mpr hs) (not_not.mp hi)
  | stop =>
    simp only [next] at h
    split at h
    · rename_i hc
      cases h
      exact .stop hc
    · cases h
      exact .none _ (.inr rfl)
  | stopStep =>
    simp only [next, stopNext] at h
    split at h
    · rename_i hs
      split at h
      · rename_i ha
        cases h
        exact .ask hs ha
      · rename_i ha
        cases h
        exact .joined (.inl hs) (Bool.eq_false_iff.mpr ha)
    · rename_i hs
      split at h
      · cases h
      · rename_i ha
        cases h
        exact .joined (.inr hs) (Bool.eq_false_iff.mpr ha)
    · rename_i hs
      cases h
      exact .close hs
    · rename_i hs
      cases h
      exact .restore hs
    · cases h
    · cases h
  | timeout =>
    simp only [next] at h
    split at h
    · rename_i hc
      cases h
      exact .expire hc
    · cases h
  | closeRaises n =>
    simp only [next] at h
    split at h
    · rename_i hc
      cases h
      exact .closeRaises n hc.1
    · cases h
  | take =>
    simp only [next, takeNext] at h
    split at h
    · rename_i i queue free ht
      cases h
      exact .end_ i queue free ht
    · rename_i i r queue free ht
      split at h
      · rename_i low
        cases h
        exact .drop i r queue free ht low
      · rename_i high
        cases h
        exact .take i r queue free ht (Int.not_lt.mp high)
    · cases h
  | route level =>
    simp only [next, routeNext] at h
    split at h
    · rename_i x hp
      cases h
      exact .die _ x (.inl hp) (.inl rfl)
    · rename_i x level hp
      split at h
      · rename_i handler hk
        cases h
        exact .route level x handler hp hk
      · rename_i hk
        cases h
        exact .build level x hp hk
    · cases h
  | write raises =>
    simp only [next, writeNext] at h
    split at h
    · rename_i x handler hp
      split at h
      · rename_i hc
        cases h
        exact .die _ x (.inr (.inl ⟨handler, hp⟩)) (.inr (.inl (by rw [hc.2])))
      · cases h
        exact .write raises x handler hp
    · cases h
  | toConsole raises =>
    simp only [next, consoleNext] at h
    split at h
    · rename_i x hp
      split at h
      · rename_i high
        cases h
        cases raises with
        | true => exact .die _ x (.inr (.inr hp)) (.inr (.inr rfl))
        | false => exact .toConsole x hp high
      · rename_i low
        cases h
        exact .unseen raises x hp (Int.not_le.mp low)
    · cases h
  | copySinks =>
    simp only [next] at h
    split at h
    · rename_i x hp
      cases h
      exact .copySinks x hp
    · cases h
  | tell =>
    simp only [next] at h
    split at h
    · rename_i x k rest hp
      cases h
      exact .tell x k rest hp
    · cases h

end

/-! ## A run -/

section Sample

/-- Records that are their own level, of the manager's process and of one worker. -/
def sampleRouting : Routing ℕ where
  logLevel := 20
  consoleLevel := 30
  levelno r := r
  routingKey _ := ":infly"

def sampleNext : State Unit ℕ Unit → Event Unit ℕ Unit → Option (State Unit ℕ Unit) :=
  next sampleRouting

/-- The thread takes a record of level 30 or more, and tells the one sink of it. -/
def handled : List (Event Unit ℕ Unit) :=
  [.take, .route (some 20), .write false, .toConsole false, .copySinks, .tell]

def listening : List (Event Unit ℕ Unit) := [.start, .addSink ()]

/-- Both processes log, and the manager is stopped. -/
def stopped : List (Event Unit ℕ Unit) :=
  [.log none 40, .log (some ()) 30, .feed none, .feed (some ())] ++ handled ++
    [.stop, .stopStep, .feed none] ++ handled ++ [.take, .stopStep, .stopStep, .stopStep]

def smoothly (es : List (Event Unit ℕ Unit)) : Option (State Unit ℕ Unit) :=
  replay sampleNext (fun _ e => smooth e = true) es {}

theorem smoothly_spec (es : List (Event Unit ℕ Unit)) {P : State Unit ℕ Unit → Prop}
    [DecidablePred P] (h : (smoothly es).any (fun s => decide (P s)) = true) :
    ∃ s, ((system sampleRouting).restrict fun _ (e : Event Unit ℕ Unit) =>
      smooth e = true).Reachable s ∧ P s := by
  obtain ⟨s, hs, hp⟩ := (Option.any_eq_true _ _).mp h
  exact ⟨s, ⟨{}, rfl, replay_execution hs⟩, of_decide_eq_true hp⟩

end Sample

section

variable [DecidableEq ι] [DecidableEq σ] {cfg : Routing ρ} {s t : State ι ρ σ} {e : Event ι ρ σ}

/-! ## Records -/

/-- The record that the thread has in hand. -/
def Pc.current {χ : Type} : Pc χ σ → List χ
  | .routing x | .writing x _ | .showing x | .notifying x | .telling x _ | .dead x => [x]
  | _ => []

/-- The records among what has been read from the queue. -/
def records (l : List (Option ι × Option ρ)) : List (Option ι × ρ) :=
  l.filterMap fun x => x.2.map fun r => (x.1, r)

/-- What a process has logged so far, and what of it is still on its way to the listener. -/
def logged (s : State ι ρ σ) (i : Option ι) : List ρ := (s.queue.put i).reduceOption

def underway (s : State ι ρ σ) (i : Option ι) : List ρ :=
  (sentBy i s.queue.pipe ++ s.queue.buffer i).reduceOption

omit [DecidableEq σ] in
theorem sentBy_records (i : Option ι) (l : List (Option ι × Option ρ)) :
    sentBy i (records l) = (sentBy i l).reduceOption := by
  induction l with
  | nil => rfl
  | cons x l ih =>
    obtain ⟨j, r⟩ := x
    have split : ∀ m : List (Option ι × ρ), sentBy i (m ++ records l) =
        sentBy i m ++ (sentBy i l).reduceOption := by
      intro m
      rw [sentBy_append, ih]
    have whole : sentBy i ((j, r) :: l) = sentBy i [(j, r)] ++ sentBy i l :=
      sentBy_append i [(j, r)] l
    rw [whole, List.reduceOption_append]
    cases r with
    | none =>
      have skipped : (sentBy i [(j, (none : Option ρ))]).reduceOption = [] := by
        by_cases hj : j = i
        · subst hj
          rw [sentBy_own]
          rfl
        · rw [sentBy_other hj]
          rfl
      rw [skipped]
      exact split []
    | some r =>
      have kept : (sentBy i [(j, some r)]).reduceOption = sentBy i [(j, r)] := by
        by_cases hj : j = i
        · subst hj
          rw [sentBy_own, sentBy_own]
          rfl
        · rw [sentBy_other hj, sentBy_other hj]
          rfl
      rw [kept]
      exact split [(j, r)]

omit [DecidableEq ι] [DecidableEq σ] in
theorem tellFrom_in_hand (s : State ι ρ σ) (x : Option ι × ρ) (sinks : List σ) :
    (s.tellFrom x sinks).finished ++ (s.tellFrom x sinks).thread.current = s.finished ++ [x] ∧
      (s.tellFrom x sinks).thread ≠ .ended := by
  cases sinks with
  | nil => exact ⟨List.append_nil _, nofun⟩
  | cons k rest => exact ⟨rfl, nofun⟩

omit [DecidableEq ι] [DecidableEq σ] in
/-- What telling the sinks leaves alone. -/
theorem tellFrom_frame (s : State ι ρ σ) (x : Option ι × ρ) (sinks : List σ) :
    (s.tellFrom x sinks).queue = s.queue ∧ (s.tellFrom x sinks).sent = s.sent ∧
      (s.tellFrom x sinks).stopping = s.stopping ∧ (s.tellFrom x sinks).handlers = s.handlers ∧
      (s.tellFrom x sinks).built = s.built ∧ (s.tellFrom x sinks).closed = s.closed ∧
      (s.tellFrom x sinks).sinks = s.sinks ∧ (s.tellFrom x sinks).started = s.started ∧
      (s.tellFrom x sinks).notified = s.notified ∧ (s.tellFrom x sinks).told = s.told := by
  cases sinks <;> exact ⟨rfl, rfl, rfl, rfl, rfl, rfl, rfl, rfl, rfl, rfl⟩

theorem all_records {l : List (Option ρ)} (h : none ∉ l) : l.reduceOption.map some = l := by
  induction l with
  | nil => rfl
  | cons x l ih =>
    cases x with
    | none => exact absurd List.mem_cons_self h
    | some r =>
      rw [List.reduceOption_cons_of_some, List.map_cons,
        ih fun hm => h (List.mem_cons_of_mem _ hm)]

/-- `taken`: what was read is finished or in hand; `running`, `ended`: the sentinel is the last
item that is read; `workers`, `unsent`, `sent`: the manager's process puts it, once. -/
structure Intact (s : State ι ρ σ) : Prop where
  ordered : s.queue.Ordered
  taken : records s.queue.got = s.finished ++ s.thread.current
  running : s.thread ≠ .ended → ∀ i, (i, none) ∉ s.queue.got
  ended : s.thread = .ended → ∃ l i, s.queue.got = l ++ [(i, none)] ∧ ∀ j, (j, none) ∉ l
  fresh : s.started = false → s.thread = .unstarted
  workers : ∀ i, none ∉ s.queue.put (some i)
  unsent : s.sent = none → none ∉ s.queue.put none
  sent : ∀ before, s.sent = some before →
    (∃ after : List ρ, s.queue.put none = before.map some ++ none :: after.map some) ∧
      s.stopping ≠ .idle ∧ s.stopping ≠ .checking

omit [DecidableEq σ] in
/-- A step that leaves the queue alone. -/
theorem Intact.frame (h : Intact s) (hq : t.queue = s.queue) (hs : t.sent = s.sent)
    (hand : t.finished ++ t.thread.current = s.finished ++ s.thread.current)
    (he : t.thread = .ended ↔ s.thread = .ended)
    (hf : t.started = false → t.thread = .unstarted)
    (stop : s.stopping ≠ .idle ∧ s.stopping ≠ .checking →
      t.stopping ≠ .idle ∧ t.stopping ≠ .checking) : Intact t where
  ordered := hq ▸ h.ordered
  taken := by rw [hq, hand]; exact h.taken
  running hn := by rw [hq]; exact h.running fun hs => hn (he.mpr hs)
  ended ht := by rw [hq]; exact h.ended (he.mp ht)
  fresh := hf
  workers := by rw [hq]; exact h.workers
  unsent hn := by rw [hq]; exact h.unsent (hs ▸ hn)
  sent before hb := by
    rw [hq]
    obtain ⟨hput, hstop⟩ := h.sent before (hs ▸ hb)
    exact ⟨hput, stop hstop⟩

omit [DecidableEq ι] [DecidableEq σ] in
theorem records_snoc (l : List (Option ι × Option ρ)) (i : Option ι) (r : ρ) :
    records (l ++ [(i, some r)]) = records l ++ [(i, r)] := by
  simp [records]

omit [DecidableEq σ] in
/-- A process logs a record. -/
theorem Intact.log (h : Intact s) (i : Option ι) (r : ρ) :
    Intact { s with queue := s.queue.send i (some r) } where
  ordered := h.ordered.send i (some r)
  taken := h.taken
  running := h.running
  ended := h.ended
  fresh := h.fresh
  workers j := by
    show none ∉ Function.update s.queue.put i (s.queue.put i ++ [some r]) (some j)
    by_cases hj : some j = i
    · subst hj
      simpa using h.workers j
    · simpa [Function.update_of_ne hj] using h.workers j
  unsent hn := by
    show none ∉ Function.update s.queue.put i (s.queue.put i ++ [some r]) none
    by_cases hj : none = i
    · subst hj
      simpa using h.unsent hn
    · simpa [Function.update_of_ne hj] using h.unsent hn
  sent before hb := by
    obtain ⟨⟨after, hput⟩, hstop⟩ := h.sent before hb
    refine ⟨?_, hstop⟩
    show ∃ after : List ρ, Function.update s.queue.put i (s.queue.put i ++ [some r]) none = _
    by_cases hj : none = i
    · subst hj
      refine ⟨after ++ [r], ?_⟩
      rw [Function.update_self, hput]
      simp
    · exact ⟨after, by rw [Function.update_of_ne hj, hput]⟩

omit [DecidableEq σ] in
/-- The thread reads a record. -/
theorem Intact.read (h : Intact s) {i : Option ι} {r : ρ} {queue : Channel (Option ι) (Option ρ)}
    (free : s.thread = .getting) (ht : s.queue.take = some ((i, some r), queue))
    (hq : t.queue = queue) (hs : t.sent = s.sent) (hstart : t.started = s.started)
    (hstop : t.stopping = s.stopping)
    (hand : t.finished ++ t.thread.current = s.finished ++ [(i, r)]) (he : t.thread ≠ .ended) :
    Intact t where
  ordered := hq ▸ h.ordered.take ht
  taken := by
    rw [hq, (take_some ht).2.1, records_snoc, h.taken, hand, free]
    simp [Pc.current]
  running _ j := by
    rw [hq, (take_some ht).2.1]
    simpa using h.running (by rw [free]; nofun) j
  ended hend := absurd hend he
  fresh hn := by
    cases free.symm.trans (h.fresh (hstart ▸ hn))
  workers j := by
    rw [hq, (take_some ht).2.2.1]
    exact h.workers j
  unsent hn := by
    rw [hq, (take_some ht).2.2.1]
    exact h.unsent (hs ▸ hn)
  sent before hb := by
    rw [hq, (take_some ht).2.2.1, hstop]
    exact h.sent before (hs ▸ hb)

omit [DecidableEq σ] in
/-- The thread goes on to tell sinks of the record that it has in hand. -/
theorem Intact.tellFrom (h : Intact s) {u : State ι ρ σ} {x : Option ι × ρ}
    (hq : u.queue = s.queue) (hs : u.sent = s.sent) (hstart : u.started = s.started)
    (hstop : u.stopping = s.stopping) (hf : u.finished = s.finished)
    (hx : s.thread.current = [x]) (sinks : List σ) : Intact (u.tellFrom x sinks) := by
  obtain ⟨queue, sent, stopping, -, -, -, -, started, -, -⟩ := tellFrom_frame u x sinks
  obtain ⟨hand, live⟩ := tellFrom_in_hand u x sinks
  refine h.frame (queue.trans hq) (sent.trans hs) ?_ (iff_of_false live ?_) ?_ ?_
  · rw [hand, hf, hx]
  · intro hend
    rw [hend] at hx
    cases hx
  · intro hn
    rw [h.fresh (hstart ▸ started ▸ hn)] at hx
    cases hx
  · rw [stopping, hstop]
    exact id

theorem intact_next (h : Intact s) (hc : Change cfg s e t) : Intact t := by
  have kept : s.stopping ≠ .idle ∧ s.stopping ≠ .checking →
      s.stopping ≠ .idle ∧ s.stopping ≠ .checking := id
  cases hc with
  | none => exact h
  | log i r opened => exact h.log i r
  | feed i =>
    exact ⟨h.ordered.feed i, by simpa using h.taken, by simpa using h.running,
      by simpa using h.ended, h.fresh, by simpa using h.workers, by simpa using h.unsent,
      by simpa using h.sent⟩
  | addSink k => exact h.frame rfl rfl rfl Iff.rfl h.fresh kept
  | removeSink k => exact h.frame rfl rfl rfl Iff.rfl h.fresh kept
  | start fresh early =>
    have unstarted := h.fresh fresh
    refine h.frame rfl rfl ?_ ?_ nofun kept
    · rw [unstarted]
      rfl
    · rw [unstarted]
      exact ⟨nofun, nofun⟩
  | stop first => exact h.frame rfl rfl rfl Iff.rfl h.fresh fun hs => absurd first hs.1
  | ask at_ alive =>
    have unsent : s.sent = none := by
      cases hs : s.sent with
      | none => rfl
      | some before => exact absurd at_ (h.sent before hs).2.2
    refine ⟨h.ordered.send none none, h.taken, h.running, h.ended, h.fresh, fun j => ?_,
      nofun, fun before hb => ⟨⟨[], ?_⟩, nofun, nofun⟩⟩
    · simpa [Function.update_of_ne] using h.workers j
    · cases hb
      rw [all_records (h.unsent unsent)]
      simp
  | joined at_ ended => exact h.frame rfl rfl rfl Iff.rfl h.fresh fun _ => ⟨nofun, nofun⟩
  | expire at_ => exact h.frame rfl rfl rfl Iff.rfl h.fresh fun _ => ⟨nofun, nofun⟩
  | close at_ => exact h.frame rfl rfl rfl Iff.rfl h.fresh fun _ => ⟨nofun, nofun⟩
  | closeRaises n at_ => exact h.frame rfl rfl rfl Iff.rfl h.fresh fun _ => ⟨nofun, nofun⟩
  | restore at_ => exact h.frame rfl rfl rfl Iff.rfl h.fresh fun _ => ⟨nofun, nofun⟩
  | end_ i queue free ht =>
    obtain ⟨-, hgot, hput, -⟩ := take_some ht
    have clean := h.running (by rw [free]; nofun)
    refine ⟨h.ordered.take ht, ?_, fun hn => absurd rfl hn, fun _ => ⟨_, i, hgot, clean⟩,
      fun hn => ?_, ?_, ?_, ?_⟩
    · have same : records (s.queue.got ++ [(i, none)]) = records s.queue.got := by
        simp [records]
      show records queue.got = _
      rw [hgot, same, h.taken, free]
      rfl
    · cases free.symm.trans (h.fresh hn)
    · exact fun j => hput ▸ h.workers j
    · exact fun hn => hput ▸ h.unsent hn
    · exact fun before hb => hput ▸ h.sent before hb
  | drop i r queue free ht low =>
    refine h.read free ht rfl rfl rfl rfl ?_ nofun
    exact List.append_nil _
  | take i r queue free ht high => exact h.read free ht rfl rfl rfl rfl rfl nofun
  | route level x handler at_ known =>
    exact h.frame rfl rfl (by rw [at_]; rfl) (by rw [at_]; exact ⟨nofun, nofun⟩)
      (fun hn => by cases at_.symm.trans (h.fresh hn)) kept
  | build level x at_ new =>
    exact h.frame rfl rfl (by rw [at_]; rfl) (by rw [at_]; exact ⟨nofun, nofun⟩)
      (fun hn => by cases at_.symm.trans (h.fresh hn)) kept
  | die e x at_ high =>
    rcases at_ with at_ | ⟨handler, at_⟩ | at_ <;>
    exact h.frame rfl rfl (by rw [at_]; rfl) (by rw [at_]; exact ⟨nofun, nofun⟩)
      (fun hn => by cases at_.symm.trans (h.fresh hn)) kept
  | write raises x handler at_ =>
    exact h.frame rfl rfl (by rw [at_]; rfl) (by rw [at_]; exact ⟨nofun, nofun⟩)
      (fun hn => by cases at_.symm.trans (h.fresh hn)) kept
  | toConsole x at_ high =>
    exact h.frame rfl rfl (by rw [at_]; rfl) (by rw [at_]; exact ⟨nofun, nofun⟩)
      (fun hn => by cases at_.symm.trans (h.fresh hn)) kept
  | unseen raises x at_ low =>
    exact h.frame rfl rfl (by rw [at_]; exact List.append_nil _)
      (by rw [at_]; exact ⟨nofun, nofun⟩)
      (fun hn => by cases at_.symm.trans (h.fresh hn)) kept
  | copySinks x at_ =>
    exact h.tellFrom (u := { s with notified := s.notified ++ [x.2] }) rfl rfl rfl rfl rfl
      (by rw [at_]; rfl) s.sinks
  | tell x k rest at_ =>
    exact h.tellFrom (u := { s with told := s.told ++ [(k, x.2)] }) rfl rfl rfl rfl rfl
      (by rw [at_]; rfl) rest

theorem reachable_intact (h : (system (ι := ι) (σ := σ) cfg).Reachable s) : Intact s := by
  refine System.invariant (S := system cfg) ?_
    (fun _ _ _ hu hs => intact_next hu (next_change hs)) h
  rintro s rfl
  exact ⟨ordered_empty, rfl, fun _ _ => List.not_mem_nil, nofun, fun _ => rfl,
    fun _ => List.not_mem_nil, fun _ => List.not_mem_nil, nofun⟩

/-- What a process has logged is finished, in the thread's hand or on its way, in the order in
which it was logged; and when the thread has ended, it has finished what the manager's process
logged before the sentinel, and nothing that came later. -/
theorem records_in_order (h : (system (ι := ι) (σ := σ) cfg).Reachable s) :
    (∀ i, logged s i =
      sentBy i s.finished ++ sentBy i s.thread.current ++ underway s i) ∧
    (s.thread = .ended → s.sent = some (sentBy none s.finished)) := by
  have intact := reachable_intact h
  refine ⟨fun i => ?_, fun hend => ?_⟩
  · unfold logged underway
    rw [← intact.ordered i, List.append_assoc, List.reduceOption_append, ← sentBy_records,
      intact.taken, sentBy_append]
  · obtain ⟨l, i, hgot, clean⟩ := intact.ended hend
    have arrived : ∀ j, sentBy j s.queue.got = sentBy j l ++ sentBy j [(i, none)] := fun j => by
      rw [hgot, sentBy_append]
    have mine : i = none := by
      cases i with
      | none => rfl
      | some i =>
        refine absurd ?_ (intact.workers i)
        refine (intact.ordered.got_prefix (some i)).subset ?_
        rw [arrived, sentBy_own]
        exact List.mem_append_right _ List.mem_cons_self
    subst mine
    have before := intact.ordered.got_prefix none
    rw [arrived, sentBy_own] at before
    have finished : sentBy none s.finished = (sentBy none l).reduceOption := by
      have taken := intact.taken
      rw [hend, hgot] at taken
      have same : records (l ++ [((none : Option ι), (none : Option ρ))]) = records l := by
        simp [records]
      rw [← sentBy_records, ← same, taken]
      simp [Pc.current]
    have unmarked : none ∉ sentBy none l := fun hm => clean none (mem_sentBy.mp hm)
    cases hs : s.sent with
    | none =>
      refine absurd (before.subset ?_) (intact.unsent hs)
      exact List.mem_append_right _ List.mem_cons_self
    | some records_ =>
      obtain ⟨⟨after, hput⟩, -⟩ := intact.sent records_ hs
      rw [hput] at before
      have same := marked_prefix unmarked (by simp) before
      rw [finished, same]
      have back : (records_.map some).reduceOption = records_ := by
        simp [List.reduceOption]
      rw [back]

theorem records_in_order_stopped : ∃ s : State Unit ℕ Unit, (system sampleRouting).Reachable s ∧
    s.thread = .ended ∧ s.sent = some (sentBy none s.finished) ∧ s.finished.length = 2 := by
  obtain ⟨s, h, hended, hlength⟩ := smoothly_spec (listening ++ stopped)
    (P := fun s => s.thread = .ended ∧ s.finished.length = 2) (by decide +kernel)
  have reach := System.restrict_reachable h
  exact ⟨s, reach, hended, (records_in_order reach).2 hended, hlength⟩

/-! ## Sinks -/

/-- The records that the sinks are to be told of. -/
def passes (cfg : Routing ρ) (x : Option ι × ρ) : Bool :=
  decide (cfg.logLevel ≤ cfg.levelno x.2 ∧ cfg.consoleLevel ≤ cfg.levelno x.2)

/-- The record for which the sinks have been copied but not all been told. -/
def Pc.announced {χ : Type} : Pc χ σ → List χ
  | .telling x _ => [x]
  | _ => []

/-- What sink `k` has been told, and is still to be told of the record in hand. -/
def heard (k : σ) (s : State ι ρ σ) : List ρ :=
  sentBy k s.told ++
    match s.thread with
    | .telling x rest => List.replicate (rest.count k) x.2
    | _ => []

/-- What the level checks so far have found of the record in hand. -/
def Pc.Checked (cfg : Routing ρ) : Pc (Option ι × ρ) σ → Prop
  | .routing x | .writing x _ | .showing x => cfg.logLevel ≤ cfg.levelno x.2
  | .notifying x | .telling x _ => passes cfg x = true
  | _ => True

structure Announced (cfg : Routing ρ) (s : State ι ρ σ) : Prop where
  notified : s.notified = (s.finished.filter (passes cfg) ++ s.thread.announced).map Prod.snd
  checked : s.thread.Checked cfg

section

variable {u : State ι ρ σ} {x : Option ι × ρ}

omit [DecidableEq ι] [DecidableEq σ] in
theorem Announced.still (h : Announced cfg s) (ht : t.thread = s.thread)
    (hf : t.finished = s.finished) (hn : t.notified = s.notified) : Announced cfg t where
  notified := by rw [hn, hf, ht]; exact h.notified
  checked := by rw [ht]; exact h.checked

omit [DecidableEq ι] [DecidableEq σ] in
/-- The thread goes on with what it has in hand, or has nothing in hand. -/
theorem Announced.move (h : Announced cfg s) {p : Pc (Option ι × ρ) σ}
    (ha : p.announced = s.thread.announced) (hp : p.Checked cfg) (ht : t.thread = p)
    (hf : t.finished = s.finished) (hn : t.notified = s.notified) : Announced cfg t where
  notified := by rw [hn, hf, ht, ha]; exact h.notified
  checked := by rw [ht]; exact hp

omit [DecidableEq ι] [DecidableEq σ] in
/-- A record for which no sinks are copied is finished. -/
theorem Announced.skip (h : Announced cfg s) (low : passes cfg x = false)
    (ha : s.thread.announced = []) (hf : u.finished = s.finished)
    (hn : u.notified = s.notified) : Announced cfg (u.finish x) where
  notified := by
    show u.notified = ((u.finished ++ [x]).filter (passes cfg) ++ []).map Prod.snd
    have skipped : [x].filter (passes cfg) = [] := List.filter_cons_of_neg (by rw [low]; nofun)
    rw [hf, hn, h.notified, ha, List.filter_append, skipped, List.append_nil, List.append_nil]
  checked := trivial

omit [DecidableEq ι] [DecidableEq σ] in
theorem Announced.tellFrom (hp : passes cfg x = true)
    (hn : u.notified = (u.finished.filter (passes cfg) ++ [x]).map Prod.snd) (sinks : List σ) :
    Announced cfg (u.tellFrom x sinks) := by
  cases sinks with
  | nil =>
    refine ⟨?_, trivial⟩
    show u.notified = ((u.finished ++ [x]).filter (passes cfg) ++ []).map Prod.snd
    have kept : [x].filter (passes cfg) = [x] := List.filter_cons_of_pos hp
    rw [hn, List.filter_append, kept, List.append_nil]
  | cons k rest => exact ⟨hn, hp⟩

end

theorem announced_next (hi : Intact s) (h : Announced cfg s) (hc : Change cfg s e t) :
    Announced cfg t := by
  have checked := h.checked
  cases hc with
  | none => exact h
  | log | feed | addSink | removeSink | stop | ask | joined | expire | close | closeRaises |
    restore => exact h.still rfl rfl rfl
  | start fresh early =>
    exact h.move (p := .getting) (by rw [hi.fresh fresh]; rfl) trivial rfl rfl rfl
  | end_ i queue at_ ht => exact h.move (p := .ended) (by rw [at_]; rfl) trivial rfl rfl rfl
  | drop i r queue at_ ht low =>
    refine h.skip (u := { s with queue := queue }) (decide_eq_false fun hp => ?_)
      (by rw [at_]; rfl) rfl rfl
    exact absurd hp.1 (Int.not_le.mpr low)
  | take i r queue at_ ht high =>
    exact h.move (p := .routing (i, r)) (by rw [at_]; rfl) high rfl rfl rfl
  | route level x handler at_ known =>
    rw [at_] at checked
    exact h.move (p := .writing x handler) (by rw [at_]; rfl) checked rfl rfl rfl
  | build level x at_ new =>
    rw [at_] at checked
    exact h.move (p := .writing x _) (by rw [at_]; rfl) checked rfl rfl rfl
  | die e x at_ =>
    rcases at_ with at_ | ⟨handler, at_⟩ | at_ <;>
    exact h.move (p := .dead x) (by rw [at_]; rfl) trivial rfl rfl rfl
  | write raises x handler at_ =>
    rw [at_] at checked
    exact h.move (p := .showing x) (by rw [at_]; rfl) checked rfl rfl rfl
  | toConsole x at_ high =>
    rw [at_] at checked
    exact h.move (p := .notifying x) (by rw [at_]; rfl) (decide_eq_true ⟨checked, high⟩) rfl rfl rfl
  | unseen raises x at_ low =>
    refine h.skip (u := s) (decide_eq_false fun hp => ?_) (by rw [at_]; rfl) rfl rfl
    exact absurd hp.2 (Int.not_le.mpr low)
  | copySinks x at_ =>
    rw [at_] at checked
    refine Announced.tellFrom checked ?_ s.sinks
    show s.notified ++ [x.2] = _
    rw [h.notified, at_]
    simp [Pc.announced]
  | tell x k rest at_ =>
    rw [at_] at checked
    refine Announced.tellFrom checked ?_ rest
    show s.notified = _
    rw [h.notified, at_]
    rfl

theorem reachable_announced (h : (system (ι := ι) (σ := σ) cfg).Reachable s) :
    Announced cfg s := by
  refine System.invariant_reachable (S := system cfg) ?_
    (fun _ _ _ hr hu hs => announced_next (reachable_intact hr) hu (next_change hs)) h
  rintro s rfl
  exact ⟨rfl, trivial⟩

/-- A step that neither adds nor removes sink `k` tells it of what is newly announced, as often as
it is among the sinks. -/
theorem heard_next {k : σ} (hi : Intact s) (hc : Change cfg s e t)
    (hk : e ≠ .addSink k ∧ e ≠ .removeSink k) :
    t.sinks.count k = s.sinks.count k ∧ ∃ new, t.notified = s.notified ++ new ∧
      heard k t = heard k s ++ new.flatMap (List.replicate (s.sinks.count k)) := by
  have nothing : t.sinks = s.sinks → t.notified = s.notified → heard k t = heard k s →
      t.sinks.count k = s.sinks.count k ∧ ∃ new, t.notified = s.notified ++ new ∧
        heard k t = heard k s ++ new.flatMap (List.replicate (s.sinks.count k)) := by
    intro hs hn hh
    refine ⟨by rw [hs], [], by rw [hn, List.append_nil], by rw [hh]; exact (List.append_nil _).symm⟩
  have quiet : t.sinks = s.sinks → t.notified = s.notified → t.told = s.told →
      t.thread.announced = [] → s.thread.announced = [] →
      t.sinks.count k = s.sinks.count k ∧ ∃ new, t.notified = s.notified ++ new ∧
        heard k t = heard k s ++ new.flatMap (List.replicate (s.sinks.count k)) := by
    intro hs hn ht ha hb
    refine nothing hs hn ?_
    have none_ : ∀ u : State ι ρ σ, u.thread.announced = [] → heard k u = sentBy k u.told := by
      intro u hu
      unfold heard
      split
      · rename_i x rest hp
        rw [hp] at hu
        cases hu
      · exact List.append_nil _
    rw [none_ t ha, none_ s hb, ht]
  have told : ∀ (u : State ι ρ σ) (x : Option ι × ρ) (sinks : List σ),
      heard k (u.tellFrom x sinks) = sentBy k u.told ++ List.replicate (sinks.count k) x.2 := by
    intro u x sinks
    cases sinks <;> rfl
  cases hc with
  | none | log | feed | stop | ask | joined | expire | close | closeRaises | restore =>
    exact nothing rfl rfl rfl
  | addSink j =>
    have hj : j ≠ k := fun he => hk.1 (he ▸ rfl)
    refine ⟨?_, [], (List.append_nil _).symm, (List.append_nil _).symm⟩
    simp [List.count_append, hj]
  | removeSink j =>
    have hj : k ≠ j := fun he => hk.2 (he ▸ rfl)
    refine ⟨List.count_filter (decide_eq_true hj), [], (List.append_nil _).symm,
      (List.append_nil _).symm⟩
  | start fresh early => exact quiet rfl rfl rfl rfl (by rw [hi.fresh fresh]; rfl)
  | end_ i queue at_ ht => exact quiet rfl rfl rfl rfl (by rw [at_]; rfl)
  | drop i r queue at_ ht low => exact quiet rfl rfl rfl rfl (by rw [at_]; rfl)
  | take i r queue at_ ht high => exact quiet rfl rfl rfl rfl (by rw [at_]; rfl)
  | route level x handler at_ known => exact quiet rfl rfl rfl rfl (by rw [at_]; rfl)
  | build level x at_ new => exact quiet rfl rfl rfl rfl (by rw [at_]; rfl)
  | die e x at_ =>
    rcases at_ with at_ | ⟨handler, at_⟩ | at_ <;>
    exact quiet rfl rfl rfl rfl (by rw [at_]; rfl)
  | write raises x handler at_ => exact quiet rfl rfl rfl rfl (by rw [at_]; rfl)
  | toConsole x at_ high => exact quiet rfl rfl rfl rfl (by rw [at_]; rfl)
  | unseen raises x at_ low => exact quiet rfl rfl rfl rfl (by rw [at_]; rfl)
  | copySinks x at_ =>
    obtain ⟨-, -, -, -, -, -, sinks, -, notified, -⟩ :=
      tellFrom_frame { s with notified := s.notified ++ [x.2] } x s.sinks
    refine ⟨by rw [sinks], [x.2], notified, ?_⟩
    have before : heard k s = sentBy k s.told := by
      unfold heard
      rw [at_]
      exact List.append_nil _
    rw [told, before]
    simp
  | tell x j rest at_ =>
    obtain ⟨-, -, -, -, -, -, sinks, -, notified, -⟩ :=
      tellFrom_frame { s with told := s.told ++ [(j, x.2)] } x rest
    refine nothing sinks notified ?_
    have before : heard k s = sentBy k s.told ++ List.replicate ((j :: rest).count k) x.2 := by
      unfold heard
      rw [at_]
    rw [told, before, sentBy_append, List.append_assoc]
    congr 1
    by_cases hj : j = k
    · subst hj
      rw [sentBy_own, List.count_cons_self, List.replicate_succ, List.singleton_append]
    · rw [sentBy_other hj, List.count_cons_of_ne hj, List.nil_append]

/-- The sinks are told of the finished records that pass both levels, in order. While nobody adds
or removes a sink, it is told of all of them, as often as it was added, whatever it raises. -/
theorem sinks_hear (h : (system (ι := ι) (σ := σ) cfg).Reachable s) :
    s.notified = (s.finished.filter (passes cfg) ++ s.thread.announced).map Prod.snd ∧
    ∀ k t, Execution ((system cfg).restrict fun _ e => e ≠ .addSink k ∧ e ≠ .removeSink k).step
      s t → ∃ new, t.notified = s.notified ++ new ∧
        heard k t = heard k s ++ new.flatMap (List.replicate (s.sinks.count k)) := by
  refine ⟨(reachable_announced h).notified, fun k t run => ?_⟩
  have all := run.preserves (P := fun u => (system cfg).Reachable u ∧
    u.sinks.count k = s.sinks.count k ∧ ∃ new, u.notified = s.notified ++ new ∧
      heard k u = heard k s ++ new.flatMap (List.replicate (s.sinks.count k)))
    (fun u e v hu hs => ?_) ⟨h, rfl, [], (List.append_nil _).symm, (List.append_nil _).symm⟩
  · exact all.2.2
  · obtain ⟨reach, count, new, hn, hh⟩ := hu
    obtain ⟨count', more, hn', hh'⟩ :=
      heard_next (reachable_intact reach) (next_change hs.2) hs.1
    refine ⟨reach.next hs.2, count'.trans count, new ++ more, ?_, ?_⟩
    · rw [hn', hn, List.append_assoc]
    · rw [hh', hh, count, List.flatMap_append, List.append_assoc]

/-- A sink that is added before anything is logged is told of the records of both processes. -/
theorem sinks_hear_stopped : ∃ s t : State Unit ℕ Unit, (system sampleRouting).Reachable s ∧
    heard () s = [] ∧ s.sinks = [()] ∧ t.notified = [40, 30] ∧ heard () t = [40, 30] := by
  obtain ⟨s, h, hsinks, hnone, htold, hthread, hrun⟩ := smoothly_spec listening
    (P := fun s => s.sinks = [()] ∧ s.notified = [] ∧ s.told = [] ∧ s.thread = .getting ∧
      (replay sampleNext (fun _ e => e ≠ .addSink () ∧ e ≠ .removeSink ()) stopped s).any
        (fun t => decide (t.notified = [40, 30])) = true) (by decide +kernel)
  obtain ⟨t, ht, hn⟩ := (Option.any_eq_true _ _).mp hrun
  have hn := of_decide_eq_true hn
  have silent : heard () s = [] := by
    unfold heard
    rw [htold, hthread]
    rfl
  obtain ⟨new, hnew, hheard⟩ :=
    (sinks_hear (System.restrict_reachable h)).2 () t (replay_execution ht)
  have all : new = [40, 30] := by
    rw [hnone, hn] at hnew
    exact hnew.symm
  refine ⟨s, t, System.restrict_reachable h, silent, hsinks, hn, ?_⟩
  rw [hheard, silent, all, hsinks]
  rfl

/-! ## File handlers -/

/-- `all`: the handlers that have been closed and those in the table are all that were built. -/
structure Tidy (s : State ι ρ σ) : Prop where
  all : s.closed ++ s.handlers.values.map FileHandler.number = List.range s.built
  fresh : s.started = false → s.handlers = .empty
  quiet : s.stopping = .closing ∨ s.stopping = .restoring ∨ s.stopping = .done →
    s.thread.alive = false
  gone : s.stopping = .restoring ∨ s.stopping = .done → s.handlers = .empty

omit [DecidableEq ι] [DecidableEq σ] in
theorem Tidy.frame (h : Tidy s) (hc : t.closed = s.closed) (hh : t.handlers = s.handlers)
    (hb : t.built = s.built) (hs : t.started = s.started) (hstop : t.stopping = s.stopping)
    (alive : t.thread.alive = true → s.thread.alive = true) : Tidy t where
  all := by rw [hc, hh, hb]; exact h.all
  fresh hn := hh ▸ h.fresh (hs ▸ hn)
  quiet hq := by
    cases ha : t.thread.alive with
    | false => rfl
    | true => exact absurd (alive ha) (by rw [h.quiet (hstop ▸ hq)]; nofun)
  gone hg := hh ▸ h.gone (hstop ▸ hg)

omit [DecidableEq ι] [DecidableEq σ] in
theorem Tidy.tellFrom (h : Tidy s) {u : State ι ρ σ} (hc : u.closed = s.closed)
    (hh : u.handlers = s.handlers) (hb : u.built = s.built) (hs : u.started = s.started)
    (hstop : u.stopping = s.stopping) (alive : s.thread.alive = true) (x : Option ι × ρ)
    (sinks : List σ) : Tidy (u.tellFrom x sinks) := by
  obtain ⟨-, -, stopping, handlers, built, closed, -, started, -, -⟩ := tellFrom_frame u x sinks
  exact h.frame (closed.trans hc) (handlers.trans hh) (built.trans hb) (started.trans hs)
    (stopping.trans hstop) fun _ => alive

theorem tidy_next (hi : Intact s) (h : Tidy s) (hc : Change cfg s e t) (ok : smooth e = true) :
    Tidy t := by
  have all := h.all
  have live : ∀ {p : Pc (Option ι × ρ) σ}, s.thread = p → p.alive = true →
      s.thread.alive = true := fun hp ha => hp ▸ ha
  cases hc with
  | none => exact h
  | log | feed | addSink | removeSink => exact h.frame rfl rfl rfl rfl rfl id
  | start fresh early =>
    refine ⟨all, nofun, fun hq => ?_, h.gone⟩
    rw [early] at hq
    rcases hq with hq | hq | hq <;> cases hq
  | stop first =>
    by_cases hs : s.started = true
    · have checks : (if s.started then StopPc.checking else .restoring) = .checking := if_pos hs
      refine ⟨all, h.fresh, fun hq => ?_, fun hg => ?_⟩
      · rcases hq with hq | hq | hq <;> cases checks.symm.trans hq
      · rcases hg with hg | hg <;> cases checks.symm.trans hg
    · have hs := Bool.eq_false_iff.mpr hs
      refine ⟨all, h.fresh, fun _ => ?_, fun _ => h.fresh hs⟩
      show s.thread.alive = false
      rw [hi.fresh hs]
      rfl
  | ask at_ alive =>
    refine ⟨all, h.fresh, fun hq => ?_, fun hg => ?_⟩
    · rcases hq with hq | hq | hq <;> cases hq
    · rcases hg with hg | hg <;> cases hg
  | joined at_ ended =>
    refine ⟨all, h.fresh, fun _ => ended, fun hg => ?_⟩
    rcases hg with hg | hg <;> cases hg
  | expire | closeRaises => cases ok
  | close at_ =>
    refine ⟨?_, fun _ => rfl, fun _ => h.quiet (.inl at_), fun _ => rfl⟩
    show (s.closed ++ s.handlers.values.map FileHandler.number) ++ [] = List.range s.built
    rw [List.append_nil, all]
  | restore at_ =>
    have gone := h.gone (.inl at_)
    exact ⟨all, h.fresh, fun _ => h.quiet (.inr (.inl at_)), fun _ => gone⟩
  | end_ | die => exact h.frame rfl rfl rfl rfl rfl nofun
  | drop i r queue at_ => exact h.frame rfl rfl rfl rfl rfl fun _ => live at_ rfl
  | take i r queue at_ => exact h.frame rfl rfl rfl rfl rfl fun _ => live at_ rfl
  | route level x handler at_ => exact h.frame rfl rfl rfl rfl rfl fun _ => live at_ rfl
  | build level x at_ new =>
    have alive := live at_ rfl
    have early : ∀ {p : Prop}, (p → s.thread.alive = false) → ¬p := fun hq hp => by
      cases alive.symm.trans (hq hp)
    refine ⟨?_, fun hn => ?_, fun hq => absurd hq (early h.quiet), fun hg => ?_⟩
    · show s.closed ++ (s.handlers.set _ _).values.map FileHandler.number = List.range (s.built + 1)
      rw [Dict.values_set_new new, List.map_append, ← List.append_assoc, all, List.range_succ]
      rfl
    · cases at_.symm.trans (hi.fresh hn)
    · exact absurd (.inr hg) (early h.quiet)
  | write raises x handler at_ => exact h.frame rfl rfl rfl rfl rfl fun _ => live at_ rfl
  | toConsole x at_ => exact h.frame rfl rfl rfl rfl rfl fun _ => live at_ rfl
  | unseen raises x at_ => exact h.frame rfl rfl rfl rfl rfl fun _ => live at_ rfl
  | copySinks x at_ =>
    exact h.tellFrom (u := { s with notified := s.notified ++ [x.2] }) rfl rfl rfl rfl rfl
      (live at_ rfl) x s.sinks
  | tell x k rest at_ =>
    exact h.tellFrom (u := { s with told := s.told ++ [(k, x.2)] }) rfl rfl rfl rfl rfl
      (live at_ rfl) x rest

/-- When `stop` has returned, each file handler that was ever built has been closed once, and the
thread builds no more. -/
theorem handlers_closed
    (h : ((system (ι := ι) (σ := σ) cfg).restrict fun _ e => smooth e = true).Reachable s)
    (hs : s.stopping = .done) : s.thread.alive = false ∧ s.closed = List.range s.built := by
  have tidy : Tidy s := by
    refine System.invariant_reachable
      (S := (system (ι := ι) (σ := σ) cfg).restrict fun _ e => smooth e = true) ?_
      (fun _ _ _ hr hu hst => tidy_next (reachable_intact (System.restrict_reachable hr)) hu
        (next_change hst.2) hst.1) h
    rintro s rfl
    exact ⟨rfl, fun _ => rfl, fun _ => rfl, fun _ => rfl⟩
  refine ⟨tidy.quiet (.inr (.inr hs)), ?_⟩
  have all := tidy.all
  rw [tidy.gone (.inr hs)] at all
  exact (List.append_nil _).symm.trans all

theorem handlers_closed_stopped : ∃ s : State Unit ℕ Unit,
    ((system sampleRouting).restrict fun _ (e : Event Unit ℕ Unit) =>
      smooth e = true).Reachable s ∧ s.built = 1 ∧ s.closed = [0] := by
  obtain ⟨s, h, hdone, hbuilt⟩ := smoothly_spec (listening ++ stopped)
    (P := fun s => s.stopping = .done ∧ s.built = 1) (by decide +kernel)
  refine ⟨s, h, hbuilt, ?_⟩
  rw [(handlers_closed h hdone).2, hbuilt]
  rfl

end

end LogPipeline
