import Infly.Exposition
import Infly.Percentiles
import Infly.CacheTexts
import Infly.Simulation
import Infly.TaskLife

/-! # The metrics as text

`render_prometheus_text`, and what a reader of two texts of one run can rely on. How a latency
becomes a float is a parameter.
-/
namespace MetricsText

open Contracts Observability CacheKey CacheTexts Exposition Percentiles SchedulerState
  SchedulerModel SchedulerLocks SchedulerRequests Transitions

section Text

variable (floatstr : PyFloat → String) (milliseconds : ℕ → PyFloat)

/-- The families that are there from the start. -/
def counts (m : RuntimeInstrumentation) : List Family :=
  [{ name := "infly_tasks_submitted_total", help := "Total submitted tasks."
     kind := .counter, value := m.submittedTotal.repr },
   { name := "infly_tasks_started_total", help := "Total started tasks."
     kind := .counter, value := m.startedTotal.repr },
   { name := "infly_tasks_completed_total", help := "Total completed tasks."
     kind := .counter, value := m.completedTotal.repr },
   { name := "infly_tasks_failed_total", help := "Total failed tasks."
     kind := .counter, value := m.failedTotal.repr },
   { name := "infly_tasks_inflight", help := "Current inflight tasks."
     kind := .gauge, value := m.inflightTasks.repr }]

/-- A family that is left out while there is no latency. -/
def latency (name help : String) (value : Option ℕ) : List Family :=
  value.toList.map fun x =>
    { name := name, help := help, kind := .gauge, value := floatstr (milliseconds x) }

def families (m : RuntimeInstrumentation) (s : LatencySnapshot) : List Family :=
  counts m ++
  latency floatstr milliseconds "infly_task_latency_last_milliseconds"
    "Last observed task latency." s.last ++
  latency floatstr milliseconds "infly_task_latency_p50_milliseconds"
    "Median task latency." s.p50 ++
  latency floatstr milliseconds "infly_task_latency_p95_milliseconds" "P95 task latency." s.p95

def renderPrometheusText (m : RuntimeInstrumentation) : Except Raised String := do
  let s ← latencySnapshot m
  return text (families floatstr milliseconds m s)

variable {floatstr} {milliseconds}

theorem float_unbroken (hf : FloatTexts floatstr) (x : PyFloat) : '\n' ∉ (floatstr x).toList := by
  intro h
  rcases hf.characters x _ h with digit | other
  · exact absurd digit (by decide)
  · exact absurd other (by decide)

theorem nat_unbroken (n : ℕ) : '\n' ∉ n.repr.toList := by
  intro h
  exact absurd (nat_text_chars h) (by decide)

theorem count_clean {name help : String} {kind : Kind} {n : ℕ}
    (hn : ∀ c ∈ name.toList, c ≠ ' ' ∧ c ≠ '\n') (hh : '\n' ∉ help.toList) :
    Family.Clean { name := name, help := help, kind := kind, value := n.repr } :=
  ⟨hn, hh, nat_unbroken n⟩

theorem counts_clean {m : RuntimeInstrumentation} : ∀ f ∈ counts m, f.Clean := by
  intro f hf
  simp only [counts, List.mem_cons, List.not_mem_nil, or_false] at hf
  rcases hf with rfl | rfl | rfl | rfl | rfl <;> exact count_clean (by simp) (by simp)

theorem latency_clean (hf : FloatTexts floatstr) {name help : String} {value : Option ℕ}
    (hn : ∀ c ∈ name.toList, c ≠ ' ' ∧ c ≠ '\n') (hh : '\n' ∉ help.toList) :
    ∀ f ∈ latency floatstr milliseconds name help value, f.Clean := by
  intro f hmem
  obtain ⟨x, -, rfl⟩ := List.mem_map.mp hmem
  exact ⟨hn, hh, float_unbroken hf _⟩

theorem families_clean (hf : FloatTexts floatstr) {m : RuntimeInstrumentation}
    {s : LatencySnapshot} : ∀ f ∈ families floatstr milliseconds m s, f.Clean := by
  intro f hmem
  simp only [families, List.mem_append] at hmem
  rcases hmem with ((hmem | hmem) | hmem) | hmem
  · exact counts_clean f hmem
  all_goals exact latency_clean hf (by simp) (by simp) f hmem

variable (floatstr milliseconds)

/-- The text is there and reads as the families. -/
def Shows (m : RuntimeInstrumentation) (F : List Family) : Prop :=
  ∃ text, renderPrometheusText floatstr milliseconds m = .ok text ∧ parse text = some F

variable {floatstr milliseconds}

variable (milliseconds) in
theorem text_shows (hf : FloatTexts floatstr) (m : RuntimeInstrumentation) :
    ∃ s, latencySnapshot m = .ok s ∧
      Shows floatstr milliseconds m (families floatstr milliseconds m s) := by
  obtain ⟨s, hs, -⟩ := latencies_summarised m
  refine ⟨s, hs, _, ?_, parse_text (families_clean hf) (by simp [families, counts])⟩
  unfold renderPrometheusText
  rw [hs]
  rfl

end Text

/-! ## Two texts of one run -/

/-- What an instrumentation that goes on recording keeps. -/
structure Grows (m m' : RuntimeInstrumentation) : Prop where
  submitted : m.submittedTotal ≤ m'.submittedTotal
  started : m.startedTotal ≤ m'.startedTotal
  completed : m.completedTotal ≤ m'.completedTotal
  failed : m.failedTotal ≤ m'.failedTotal
  latencies : m.latencies <+: m'.latencies

theorem Grows.refl (m : RuntimeInstrumentation) : Grows m m :=
  ⟨le_rfl, le_rfl, le_rfl, le_rfl, List.prefix_rfl⟩

theorem Grows.trans {m m' m'' : RuntimeInstrumentation} (h : Grows m m') (h' : Grows m' m'') :
    Grows m m'' where
  submitted := h.submitted.trans h'.submitted
  started := h.started.trans h'.started
  completed := h.completed.trans h'.completed
  failed := h.failed.trans h'.failed
  latencies := h.latencies.trans h'.latencies

/-- The last latency is the last of the list. -/
def Latest (m : RuntimeInstrumentation) : Prop := m.lastLatency = m.latencies.getLast?

theorem finish_grows (m : RuntimeInstrumentation) (now : ℕ) (t : TaskId) (completed : Bool) :
    Grows m (m.finish now t completed).2 := by
  cases hg : m.submittedAt.get? t <;> cases completed <;>
    constructor <;> simp [RuntimeInstrumentation.finish, hg]

theorem finish_latest {m : RuntimeInstrumentation} (h : Latest m) (now : ℕ) (t : TaskId)
    (completed : Bool) : Latest (m.finish now t completed).2 := by
  cases hg : m.submittedAt.get? t with
  | none =>
    rw [RuntimeInstrumentation.finish, hg]
    exact h
  | some started =>
    rw [RuntimeInstrumentation.finish, hg]
    exact List.getLast?_concat.symm

section

variable {ι : Type} {sh : Shared ι} {k : Report}

theorem report_grows (sh : Shared ι) (k : Report) : Grows sh.instrumentation (report sh k).2 := by
  cases k with
  | submitted job => exact ⟨Nat.le_succ _, le_rfl, le_rfl, le_rfl, List.prefix_rfl⟩
  | started t request => exact ⟨le_rfl, Nat.le_succ _, le_rfl, le_rfl, List.prefix_rfl⟩
  | ended t m request =>
    simp only [report]
    split <;> exact finish_grows ..

theorem report_latest (h : Latest sh.instrumentation) : Latest (report sh k).2 := by
  cases k with
  | submitted job => exact h
  | started t request => exact h
  | ended t m request =>
    simp only [report]
    split <;> exact finish_latest h ..

variable [DecidableEq ι] {s t : State ι} {e : Event ι} {a : Thread ι} {p : Pc} {c : Choice}
  {x : Shared ι × Pc}

theorem turn_records (h : act sh a p c = some x) :
    x.1.instrumentation = sh.instrumentation ∨
      ∃ k, x.1.instrumentation = (report sh k).2 := by
  cases p <;> cases c <;> simp only [act, advance, throwing, expire, reduceCtorEq] at h
  case reporting.go k =>
    cases h
    exact .inr ⟨k, rfl⟩
  all_goals refine .inl ?_
  all_goals repeat' split at h
  all_goals cases h
  all_goals rfl

theorem step_records (h : Step s e t) :
    t.shared.instrumentation = s.shared.instrumentation ∨
      ∃ k, t.shared.instrumentation = (report s.shared k).2 := by
  obtain ⟨i, k, rfl, _, rfl⟩ | ⟨a, c, x, rfl, _, hx, rfl⟩ | ⟨f, o, rfl, _, _, rfl⟩ |
    ⟨w, rfl, _, rfl⟩ | ⟨d, rfl, rfl⟩ := step_cases h
  · refine .inl ?_
    rw [goto_shared]
    cases k <;> rfl
  · rw [goto_shared]
    exact turn_records hx
  all_goals exact .inl rfl

theorem run_grows (h : Execution (system ι).step s t) :
    Grows s.shared.instrumentation t.shared.instrumentation := by
  refine h.preserves (P := fun t => Grows s.shared.instrumentation t.shared.instrumentation)
    (fun u e v hu hst => ?_) (.refl _)
  rcases step_records hst with same | ⟨k, hk⟩
  · rwa [same]
  · rw [hk]
    exact hu.trans (report_grows _ k)

theorem reachable_latest (h : (system ι).Reachable s) : Latest s.shared.instrumentation := by
  refine System.invariant (S := system ι) (P := fun s => Latest s.shared.instrumentation) ?_
    (fun u e v hu hst => ?_) h
  · rintro _ ⟨config, b, -, rfl⟩
    rfl
  · show Latest v.shared.instrumentation
    rcases step_records hst with same | ⟨k, hk⟩
    · rwa [same]
    · rw [hk]
      exact report_latest hu

end

/-- A family is in the later text as well, and a counter has not gone down. -/
structure Follows (f f' : Family) : Prop where
  name : f'.name = f.name
  help : f'.help = f.help
  kind : f'.kind = f.kind
  counter : f.kind = .counter → ∃ n n' : ℕ, f.value = n.repr ∧ f'.value = n'.repr ∧ n ≤ n'

section

variable {floatstr : PyFloat → String} {milliseconds : ℕ → PyFloat}
  {m m' : RuntimeInstrumentation}

theorem counts_follow (h : Grows m m') : ∀ f ∈ counts m, ∃ f' ∈ counts m', Follows f f' := by
  intro f hf
  simp only [counts, List.mem_cons, List.not_mem_nil, or_false] at hf
  rcases hf with rfl | rfl | rfl | rfl | rfl
  · exact ⟨_, .head _, rfl, rfl, rfl, fun _ => ⟨_, _, rfl, rfl, h.submitted⟩⟩
  · exact ⟨_, .tail _ (.head _), rfl, rfl, rfl, fun _ => ⟨_, _, rfl, rfl, h.started⟩⟩
  · exact ⟨_, .tail _ (.tail _ (.head _)), rfl, rfl, rfl, fun _ => ⟨_, _, rfl, rfl, h.completed⟩⟩
  · exact ⟨_, .tail _ (.tail _ (.tail _ (.head _))), rfl, rfl, rfl,
      fun _ => ⟨_, _, rfl, rfl, h.failed⟩⟩
  · exact ⟨_, .tail _ (.tail _ (.tail _ (.tail _ (.head _)))), rfl, rfl, rfl, nofun⟩

variable (floatstr milliseconds) in
/-- The families of the latencies, which come together. -/
def timings (last p50 p95 : ℕ) : List Family :=
  latency floatstr milliseconds "infly_task_latency_last_milliseconds"
    "Last observed task latency." (some last) ++
  latency floatstr milliseconds "infly_task_latency_p50_milliseconds"
    "Median task latency." (some p50) ++
  latency floatstr milliseconds "infly_task_latency_p95_milliseconds" "P95 task latency."
    (some p95)

variable (floatstr milliseconds) in
theorem families_shape (h : Latest m) {s : LatencySnapshot} (hs : latencySnapshot m = .ok s) :
    m.latencies = [] ∧ families floatstr milliseconds m s = counts m ∨
      m.latencies ≠ [] ∧ ∃ a b c, families floatstr milliseconds m s =
        counts m ++ timings floatstr milliseconds a b c := by
  obtain ⟨s', hs', last, empty, some⟩ := latencies_summarised m
  cases hs.symm.trans hs'
  by_cases hne : m.latencies = []
  · obtain ⟨p50, p95, -⟩ := empty hne
    have none : s.last = none := by rw [last, h, hne]; rfl
    exact .inl ⟨hne, by simp [families, latency, none, p50, p95]⟩
  · obtain ⟨b, c, -, p50, p95, -, -⟩ := some hne
    have last : s.last = Option.some (m.latencies.getLast hne) := by
      rw [last, h, List.getLast?_eq_some_getLast hne]
    exact .inr ⟨hne, m.latencies.getLast hne, b, c, by simp [families, timings, last, p50, p95]⟩

theorem timings_follow {a b c a' b' c' : ℕ} : ∀ f ∈ timings floatstr milliseconds a b c,
    ∃ f' ∈ timings floatstr milliseconds a' b' c', Follows f f' := by
  intro f hf
  simp only [timings, latency, Option.toList_some, List.map_cons, List.map_nil, List.cons_append,
    List.nil_append, List.mem_cons, List.not_mem_nil, or_false] at hf ⊢
  rcases hf with rfl | rfl | rfl
  · exact ⟨_, .inl rfl, rfl, rfl, rfl, nofun⟩
  · exact ⟨_, .inr (.inl rfl), rfl, rfl, rfl, nofun⟩
  · exact ⟨_, .inr (.inr rfl), rfl, rfl, rfl, nofun⟩

variable (floatstr milliseconds m) in
theorem names_distinct (a b c : ℕ) :
    ((counts m ++ timings floatstr milliseconds a b c).map Family.name).Nodup := by
  have names : (counts m ++ timings floatstr milliseconds a b c).map Family.name =
      ["infly_tasks_submitted_total", "infly_tasks_started_total", "infly_tasks_completed_total",
        "infly_tasks_failed_total", "infly_tasks_inflight",
        "infly_task_latency_last_milliseconds", "infly_task_latency_p50_milliseconds",
        "infly_task_latency_p95_milliseconds"] := rfl
  rw [names]
  decide

variable {ι : Type} [DecidableEq ι] {s t : State ι}

variable (milliseconds) in
/-- Of two texts of one run the later one has all the families of the earlier one, in the same
order and under the same names, no name is there twice, and no counter has gone down. -/
theorem scrapes_follow (hf : FloatTexts floatstr) (h : (system ι).Reachable s)
    (run : Execution (system ι).step s t) :
    ∃ F F', Shows floatstr milliseconds s.shared.instrumentation F ∧
      Shows floatstr milliseconds t.shared.instrumentation F' ∧
      (F'.map Family.name).Nodup ∧ F.map Family.name <+: F'.map Family.name ∧
      ∀ f ∈ F, ∃ f' ∈ F', Follows f f' := by
  have grows := run_grows run
  obtain ⟨x, hx, shows⟩ := text_shows milliseconds hf s.shared.instrumentation
  obtain ⟨y, hy, shows'⟩ := text_shows milliseconds hf t.shared.instrumentation
  have shape := families_shape floatstr milliseconds (reachable_latest h) hx
  have shape' := families_shape floatstr milliseconds (reachable_latest (h.run run)) hy
  have follow := counts_follow grows
  refine ⟨_, _, shows, shows', ?_⟩
  rcases shape' with ⟨none, shape'⟩ | ⟨_, a', b', c', shape'⟩
  · -- The latencies only grow, so there are none in the earlier text either.
    have before : s.shared.instrumentation.latencies = [] :=
      List.prefix_nil.mp (none ▸ grows.latencies)
    rcases shape with ⟨_, shape⟩ | ⟨some, _⟩
    · rw [shape, shape']
      have distinct := names_distinct floatstr milliseconds t.shared.instrumentation 0 0 0
      rw [List.map_append] at distinct
      exact ⟨distinct.of_append_left, List.prefix_rfl, follow⟩
    · exact absurd before some
  · rw [shape']
    refine ⟨names_distinct .., ?_, ?_⟩
    · rcases shape with ⟨_, shape⟩ | ⟨_, a, b, c, shape⟩
      · rw [shape, List.map_append]
        exact List.prefix_append ..
      · rw [shape]
        exact List.prefix_rfl
    · intro f hf
      rcases shape with ⟨_, shape⟩ | ⟨_, a, b, c, shape⟩
      · rw [shape] at hf
        obtain ⟨f', hmem, hfol⟩ := follow f hf
        exact ⟨f', List.mem_append_left _ hmem, hfol⟩
      · rw [shape] at hf
        rcases List.mem_append.mp hf with hf | hf
        · obtain ⟨f', hmem, hfol⟩ := follow f hf
          exact ⟨f', List.mem_append_left _ hmem, hfol⟩
        · obtain ⟨f', hmem, hfol⟩ := timings_follow f hf
          exact ⟨f', List.mem_append_right _ hmem, hfol⟩

end

/-- A text from before the first task and one from after its end. -/
theorem scrapes_follow_completed : ∃ (s t : State Unit) (F F' : List Family),
    s.shared.instrumentation.latencies = [] ∧ t.shared.instrumentation.completedTotal = 1 ∧
    t.shared.instrumentation.latencies.length = 1 ∧
    Shows sampleFloats (fun x => .finite x) s.shared.instrumentation F ∧
    Shows sampleFloats (fun x => .finite x) t.shared.instrumentation F' ∧
    F.map Family.name <+: F'.map Family.name := by
  obtain ⟨t, ht, -, completed, length⟩ := after_spec (A := Fresh) (c := { numThreads := 1 })
    (l := TaskLife.oneTask) (P := fun t => t.shared.instrumentation.completedTotal = 1 ∧
      t.shared.instrumentation.latencies.length = 1) (by decide +kernel)
  have run := (replay_execution ht).mono (fun _ _ _ hst => hst.2)
  obtain ⟨F, F', shows, shows', -, names, -⟩ := scrapes_follow (fun x => .finite x) sample_texts
    (System.reachable_init ⟨_, _, empty_usable _, rfl⟩) run
  exact ⟨_, t, F, F', rfl, completed, length, shows, shows', names⟩

end MetricsText
