import Infly.Dict
import Mathlib.Data.Int.Notation

/-! # Which file a log record goes to

`RoutingQueueListener` in `infly/runtime/log.py` with its default factories. A record is routed
by its category and name. Paths are those of POSIX, read as their parts below the root.
-/
namespace LogStreams

/-! ## Paths -/

def replaceChar (c : Char) (s : String) : String :=
  String.ofList (s.toList.map fun d => if d = c then '_' else d)

def safeFilename (name : String) : String :=
  replaceChar ':' (replaceChar '\\' (replaceChar '/' name))

/-- `pathlib` drops empty parts and single dots. -/
def parts (path : String) : List String :=
  ((path.toList.splitOn '/').map String.ofList).filter fun part => part ≠ "" ∧ part ≠ "."

/-- An absolute right side replaces the left one. -/
def joinPath (base : List String) (path : String) : List String :=
  if path.toList.head? = some '/' then parts path else base ++ parts path

def collapse (path : List String) : List String :=
  path.foldl (fun done part => if part = ".." then done.dropLast else done ++ [part]) []

/-! ## Handlers and records -/

structure LoggingSettings where
  logRoot : String
  logLevel : ℤ

/-- `number` says which object it is. -/
structure FileHandler where
  number : ℕ
  path : List String
  level : ℤ
  deriving DecidableEq

structure LogRecord where
  levelno : ℤ
  logCategory : Option String := none
  logName : Option String := none
  deriving DecidableEq

def appLoggerName : String := "infly"

def LogRecord.category (record : LogRecord) : String := record.logCategory.getD ""
def LogRecord.name (record : LogRecord) : String := record.logName.getD appLoggerName

/-- The parts of `abspath(log_root / category)` in the working directory `cwd`. -/
def logDir (settings : LoggingSettings) (cwd category : String) : List String :=
  joinPath (joinPath (parts cwd) settings.logRoot) category

def buildFileHandler (settings : LoggingSettings) (cwd : String) (number : ℕ)
    (category name : String) : FileHandler where
  number := number
  path := collapse (joinPath (logDir settings cwd category) (safeFilename name ++ ".log"))
  level := settings.logLevel

/-- `built` handlers have been built so far. -/
structure Listener where
  settings : LoggingSettings
  cwd : String
  handlers : Dict String FileHandler := .empty
  built : ℕ := 0

/-- The file handler that handled a record, and whether console and sinks got it. -/
structure Delivery where
  file : Option FileHandler
  console : Bool
  deriving DecidableEq

def defaultRoutingKey (record : LogRecord) : String := record.category ++ ":" ++ record.name

def defaultFileHandler (s : Listener) (record : LogRecord) : FileHandler :=
  buildFileHandler s.settings s.cwd s.built record.category record.name

def getFileHandler (s : Listener) (record : LogRecord) : Listener × FileHandler :=
  match s.handlers.get? (defaultRoutingKey record) with
  | some handler => (s, handler)
  | none =>
    let handler := defaultFileHandler s record
    ({ s with
      handlers := s.handlers.set (defaultRoutingKey record) handler
      built := s.built + 1 }, handler)

/-- The default console handler has the level of the settings. -/
def handle (s : Listener) (record : LogRecord) : Listener × Delivery :=
  if record.levelno < s.settings.logLevel then (s, { file := none, console := false })
  else
    let (t, handler) := getFileHandler s record
    (t, { file := if handler.level ≤ record.levelno then some handler else none
          console := decide (s.settings.logLevel ≤ record.levelno) })

/-- The listener after some records, and what became of each. -/
structure History where
  listener : Listener
  log : List (LogRecord × Delivery) := []

def History.handle (h : History) (record : LogRecord) : History where
  listener := (LogStreams.handle h.listener record).1
  log := h.log ++ [(record, (LogStreams.handle h.listener record).2)]

def History.handleAll (h : History) (records : List LogRecord) : History :=
  records.foldl History.handle h

/-- The streams of a run: one file handler for each pair, one path for each file handler. -/
structure Apart (h : History) : Prop where
  routed : ∀ p d f q e g, (p, d) ∈ h.log → (q, e) ∈ h.log → d.file = some f → e.file = some g →
    (f.number = g.number ↔ p.category = q.category ∧ p.name = q.name)
  paths : ∀ k f j g, h.listener.handlers.get? k = some f → h.listener.handlers.get? j = some g →
    f.number ≠ g.number → f.path ≠ g.path

/-! ## When two pairs are mixed up -/

/-- The category of one is that of the other, a colon and `m`, and the other's name is `m`, a
colon and its own. -/
def Shifted (p q : LogRecord) : Prop :=
  ∃ m, p.category = q.category ++ ":" ++ m ∧ q.name = m ++ ":" ++ p.name

def SameFile (settings : LoggingSettings) (cwd : String) (p q : LogRecord) : Prop :=
  collapse (logDir settings cwd p.category) = collapse (logDir settings cwd q.category) ∧
    safeFilename p.name = safeFilename q.name

/-- No two pairs that are logged are mixed up. -/
def Distinguishable (settings : LoggingSettings) (cwd : String) (records : List LogRecord) :
    Prop :=
  ∀ p ∈ records, ∀ q ∈ records, settings.logLevel ≤ p.levelno → settings.logLevel ≤ q.levelno →
    ¬(p.category = q.category ∧ p.name = q.name) →
    ¬Shifted p q ∧ ¬Shifted q p ∧ ¬SameFile settings cwd p q

section Keys

variable {p q : LogRecord} {settings : LoggingSettings} {cwd : String}

theorem split_at_colon {a b c d : List Char} (h : a ++ ':' :: b = c ++ ':' :: d) :
    (a = c ∧ b = d) ∨ (∃ m, c = a ++ ':' :: m ∧ b = m ++ ':' :: d) ∨
      ∃ m, a = c ++ ':' :: m ∧ d = m ++ ':' :: b := by
  have split : ∀ {a b c d : List Char} (t : List Char), c = a ++ t → ':' :: b = t ++ ':' :: d →
      (a = c ∧ b = d) ∨ ∃ m, c = a ++ ':' :: m ∧ b = m ++ ':' :: d := by
    intro a b c d t hc hb
    cases t with
    | nil => exact .inl ⟨by simpa using hc.symm, by simpa using hb⟩
    | cons x m =>
      obtain ⟨rfl, hm⟩ := List.cons.inj hb
      exact .inr ⟨m, hc, hm⟩
  rcases List.append_eq_append_iff.mp h with ⟨t, hc, hb⟩ | ⟨t, ha, hd⟩
  · rcases split t hc hb with same | shifted
    · exact .inl same
    · exact .inr (.inl shifted)
  · rcases split t ha hd with same | shifted
    · exact .inl ⟨same.1.symm, same.2.symm⟩
    · exact .inr (.inr shifted)

theorem key_chars (p : LogRecord) :
    (defaultRoutingKey p).toList = p.category.toList ++ ':' :: p.name.toList := by
  simp [defaultRoutingKey]

theorem shifted_chars {m : List Char} (hc : p.category.toList = q.category.toList ++ ':' :: m)
    (hn : q.name.toList = m ++ ':' :: p.name.toList) : Shifted p q := by
  refine ⟨String.ofList m, ?_, ?_⟩
  · apply String.toList_inj.mp
    simpa using hc
  · apply String.toList_inj.mp
    simpa using hn

theorem Shifted.key (h : Shifted p q) : defaultRoutingKey p = defaultRoutingKey q := by
  obtain ⟨m, hc, hn⟩ := h
  simp only [defaultRoutingKey, hc, hn, String.append_assoc]

/-- Two keys are equal for equal pairs and for shifted ones. -/
theorem key_eq_iff : defaultRoutingKey p = defaultRoutingKey q ↔
    (p.category = q.category ∧ p.name = q.name) ∨ Shifted p q ∨ Shifted q p := by
  constructor
  · intro h
    have chars := congrArg String.toList h
    rw [key_chars, key_chars] at chars
    rcases split_at_colon chars with ⟨hc, hn⟩ | ⟨m, hc, hn⟩ | ⟨m, hc, hn⟩
    · exact .inl ⟨String.toList_inj.mp hc, String.toList_inj.mp hn⟩
    · exact .inr (.inr (shifted_chars hc hn))
    · exact .inr (.inl (shifted_chars hc hn))
  · rintro (⟨hc, hn⟩ | h | h)
    · rw [defaultRoutingKey, defaultRoutingKey, hc, hn]
    · exact h.key
    · exact h.key.symm

end Keys

/-! ## The path of a handler -/

section Files

variable {p q : LogRecord} {settings : LoggingSettings} {cwd : String} {m n : ℕ}

theorem replaced_char {c d : Char} {s : String} (hc : c ≠ '_') (hd : d ∈ (replaceChar c s).toList) :
    d ≠ c := by
  simp only [replaceChar, String.toList_ofList] at hd
  obtain ⟨e, _, rfl⟩ := List.mem_map.mp hd
  by_cases he : e = c
  · simp [he, hc.symm]
  · simp [he]

theorem kept_char {c d : Char} {s : String} (hd : d ∈ (replaceChar c s).toList) :
    d = '_' ∨ d ∈ s.toList := by
  simp only [replaceChar, String.toList_ofList] at hd
  obtain ⟨e, he, rfl⟩ := List.mem_map.mp hd
  by_cases hec : e = c
  · exact .inl (if_pos hec)
  · exact .inr ((if_neg hec).symm ▸ he)

theorem safe_no_slash (name : String) : '/' ∉ (safeFilename name).toList := by
  intro h
  have under : '/' ≠ '_' := by decide
  rcases kept_char h with h | h
  · exact under h
  rcases kept_char h with h | h
  · exact under h
  exact replaced_char under h rfl

/-- The file name of a handler is one part, and not the parent directory. -/
theorem file_parts (name : String) : parts (safeFilename name ++ ".log") =
    [safeFilename name ++ ".log"] := by
  have slash : ∀ c ∈ (safeFilename name ++ ".log").toList, (c == '/') = false := by
    intro c hc
    rw [String.toList_append, List.mem_append] at hc
    rw [beq_eq_false_iff_ne]
    rintro rfl
    rcases hc with hc | hc
    · exact safe_no_slash name hc
    · revert hc
      decide
  have long : 4 ≤ (safeFilename name ++ ".log").toList.length := by simp
  rw [parts, List.splitOn_eq_singleton_of_beq_eq_false slash, List.map_singleton,
    String.ofList_toList, List.filter_cons_of_pos, List.filter_nil]
  simp only [decide_eq_true_eq]
  constructor <;> intro h <;> rw [h] at long <;> simp at long

theorem file_not_parent (name : String) : safeFilename name ++ ".log" ≠ ".." := by
  intro h
  have := congrArg (fun s => s.toList.length) h
  simp at this

theorem collapse_file {l : List String} {file : String} (hf : file ≠ "..") :
    collapse (l ++ [file]) = collapse l ++ [file] := by
  rw [collapse, collapse, List.foldl_append, List.foldl_cons, List.foldl_nil, if_neg hf]

theorem handler_path (category name : String) :
    (buildFileHandler settings cwd n category name).path =
      collapse (logDir settings cwd category) ++ [safeFilename name ++ ".log"] := by
  have relative : (safeFilename name ++ ".log").toList.head? ≠ some '/' := by
    intro h
    have hm := List.mem_of_mem_head? h
    rw [String.toList_append, List.mem_append] at hm
    rcases hm with hm | hm
    · exact safe_no_slash name hm
    · revert hm
      decide
  simp only [buildFileHandler, joinPath, if_neg relative, file_parts]
  exact collapse_file (file_not_parent name)

theorem same_path_iff : (buildFileHandler settings cwd m p.category p.name).path =
      (buildFileHandler settings cwd n q.category q.name).path ↔ SameFile settings cwd p q := by
  rw [handler_path, handler_path, SameFile]
  constructor
  · intro h
    obtain ⟨hd, hf⟩ := List.append_inj' h (List.length_singleton.trans List.length_singleton.symm)
    refine ⟨hd, ?_⟩
    have chars := congrArg String.toList (List.cons.inj hf).1
    rw [String.toList_append, String.toList_append] at chars
    exact String.toList_inj.mp (List.append_cancel_right chars)
  · rintro ⟨hd, hf⟩
    rw [hd, hf]

end Files

/-! ## Runs -/

section Runs

variable {settings : LoggingSettings} {cwd : String} {h : History} {p q : LogRecord} {d e : Delivery}
  {k j : String} {f g : FileHandler}

def begin (settings : LoggingSettings) (cwd : String) : History where
  listener := { settings, cwd }

/-- What the table of handlers says about the records so far. -/
structure Table (settings : LoggingSettings) (cwd : String) (h : History) : Prop where
  fixed : h.listener.settings = settings ∧ h.listener.cwd = cwd
  ignored : ∀ p d, (p, d) ∈ h.log → p.levelno < settings.logLevel → d.file = none
  routed : ∀ p d, (p, d) ∈ h.log → settings.logLevel ≤ p.levelno →
    ∃ f, d.file = some f ∧ h.listener.handlers.get? (defaultRoutingKey p) = some f
  built : ∀ k f, h.listener.handlers.get? k = some f → ∃ p d, (p, d) ∈ h.log ∧
    settings.logLevel ≤ p.levelno ∧ defaultRoutingKey p = k ∧
      f = buildFileHandler settings cwd f.number p.category p.name
  number : ∀ k f, h.listener.handlers.get? k = some f → f.number < h.listener.built
  unique : ∀ k f j g, h.listener.handlers.get? k = some f →
    h.listener.handlers.get? j = some g → f.number = g.number → k = j

theorem table_begin : Table settings cwd (begin settings cwd) where
  fixed := ⟨rfl, rfl⟩
  ignored _ _ hm := absurd hm List.not_mem_nil
  routed _ _ hm := absurd hm List.not_mem_nil
  built _ _ hk := by cases hk
  number _ _ hk := by cases hk
  unique _ _ _ _ hk := by cases hk

/-- A record goes to a handler that is in the table under its key afterwards; the table has
that handler already, or it is the one that the record builds. -/
theorem get_cases (s : Listener) (p : LogRecord) :
    (∃ f, s.handlers.get? (defaultRoutingKey p) = some f ∧ getFileHandler s p = (s, f)) ∨
    (s.handlers.get? (defaultRoutingKey p) = none ∧ getFileHandler s p = ({ s with
      handlers := s.handlers.set (defaultRoutingKey p) (defaultFileHandler s p)
      built := s.built + 1 }, defaultFileHandler s p)) := by
  unfold getFileHandler
  cases hk : s.handlers.get? (defaultRoutingKey p) with
  | some f => exact .inl ⟨f, rfl, rfl⟩
  | none => exact .inr ⟨rfl, rfl⟩

theorem handle_low (hp : p.levelno < h.listener.settings.logLevel) : h.handle p =
    { h with log := h.log ++ [(p, { file := none, console := false })] } := by
  simp [History.handle, LogStreams.handle, hp]

theorem handle_logged (hp : h.listener.settings.logLevel ≤ p.levelno)
    (hl : (getFileHandler h.listener p).2.level = h.listener.settings.logLevel) : h.handle p =
    { listener := (getFileHandler h.listener p).1
      log := h.log ++ [(p, { file := some (getFileHandler h.listener p).2, console := true })] } := by
  simp [History.handle, LogStreams.handle, Int.not_lt.mpr hp, hl, hp]

/-- The table after a record that went to a handler `f` of it. -/
theorem table_routed {s : Listener} (t : Table settings cwd h)
    (hs : s.settings = settings ∧ s.cwd = cwd)
    (old : ∀ k f, h.listener.handlers.get? k = some f → s.handlers.get? k = some f)
    (hf : s.handlers.get? (defaultRoutingKey p) = some f) (hp : settings.logLevel ≤ p.levelno)
    (only : ∀ k g, s.handlers.get? k = some g → h.listener.handlers.get? k = some g ∨
      (k = defaultRoutingKey p ∧ g = buildFileHandler settings cwd g.number p.category p.name))
    (number : ∀ k f, s.handlers.get? k = some f → f.number < s.built)
    (unique : ∀ k f j g, s.handlers.get? k = some f → s.handlers.get? j = some g →
      f.number = g.number → k = j) :
    Table settings cwd
      { listener := s, log := h.log ++ [(p, { file := some f, console := true })] } := by
  refine ⟨hs, ?_, ?_, ?_, number, unique⟩
  · intro q d hq low
    rcases List.mem_append.mp hq with hq | hq
    · exact t.ignored q d hq low
    · cases List.mem_singleton.mp hq
      exact absurd hp (Int.not_le.mpr low)
  · intro q d hq hl
    rcases List.mem_append.mp hq with hq | hq
    · obtain ⟨g, hd, hg⟩ := t.routed q d hq hl
      exact ⟨g, hd, old _ g hg⟩
    · cases List.mem_singleton.mp hq
      exact ⟨f, rfl, hf⟩
  · intro k g hg
    rcases only k g hg with hg | ⟨rfl, hb⟩
    · obtain ⟨q, d, hq, rest⟩ := t.built k g hg
      exact ⟨q, d, List.mem_append_left _ hq, rest⟩
    · exact ⟨p, _, List.mem_append_right _ (List.mem_singleton.mpr rfl), hp, rfl, hb⟩

theorem table_handle (t : Table settings cwd h) : Table settings cwd (h.handle p) := by
  obtain ⟨hset, hcwd⟩ := t.fixed
  by_cases hp : p.levelno < settings.logLevel
  · rw [handle_low (hset ▸ hp)]
    refine ⟨t.fixed, ?_, ?_, ?_, t.number, t.unique⟩
    · intro q d hq low
      rcases List.mem_append.mp hq with hq | hq
      · exact t.ignored q d hq low
      · cases List.mem_singleton.mp hq
        exact rfl
    · intro q d hq hl
      rcases List.mem_append.mp hq with hq | hq
      · exact t.routed q d hq hl
      · cases List.mem_singleton.mp hq
        exact absurd hp (Int.not_lt.mpr hl)
    · intro k f hf
      obtain ⟨q, d, hq, rest⟩ := t.built k f hf
      exact ⟨q, d, List.mem_append_left _ hq, rest⟩
  · have hp := Int.not_lt.mp hp
    rcases get_cases h.listener p with ⟨f, hf, hg⟩ | ⟨hn, hg⟩
    · have level : f.level = settings.logLevel := by
        obtain ⟨_, _, _, _, _, hb⟩ := t.built _ f hf
        rw [hb]
        exact rfl
      rw [handle_logged (hset ▸ hp) (by rw [hg, level, hset]), hg]
      exact table_routed t t.fixed (fun _ _ hk => hk) hf hp (fun _ _ hk => .inl hk) t.number
        t.unique
    · rw [handle_logged (hset ▸ hp) (by rw [hg]; exact rfl), hg]
      refine table_routed t t.fixed ?_ ?_ hp ?_ ?_ ?_
      · intro k f hf
        rw [Dict.get?_set, if_neg]
        · exact hf
        · rintro rfl
          cases hn.symm.trans hf
      · rw [Dict.get?_set, if_pos rfl]
      · intro k g hk
        rw [Dict.get?_set] at hk
        split at hk
        · rename_i hkey
          cases hk
          refine .inr ⟨hkey, ?_⟩
          rw [defaultFileHandler, hset, hcwd]
          exact rfl
        · exact .inl hk
      · intro k g hk
        rw [Dict.get?_set] at hk
        split at hk
        · cases hk
          exact Nat.lt_succ_self _
        · exact Nat.lt_succ_of_lt (t.number k g hk)
      · intro k g j g' hk hj same
        rw [Dict.get?_set] at hk hj
        split at hk <;> split at hj
        · rename_i hk' hj'
          exact hk'.trans hj'.symm
        · cases hk
          exact absurd (same ▸ t.number j g' hj) (Nat.lt_irrefl _)
        · cases hj
          exact absurd (same.symm ▸ t.number k g hk) (Nat.lt_irrefl _)
        · exact t.unique k g j g' hk hj same

theorem table_all (t : Table settings cwd h) (records : List LogRecord) :
    Table settings cwd (h.handleAll records) := by
  induction records generalizing h with
  | nil => exact t
  | cons p records ih => exact ih (table_handle t)

theorem log_all (records : List LogRecord) :
    ((h.handleAll records).log).map Prod.fst = h.log.map Prod.fst ++ records := by
  induction records generalizing h with
  | nil => exact (List.append_nil _).symm
  | cons p records ih =>
    have hlog : ((h.handle p).log).map Prod.fst = h.log.map Prod.fst ++ [p] := by
      simp [History.handle]
    rw [History.handleAll, List.foldl_cons]
    exact (ih (h := h.handle p)).trans (by rw [hlog, List.append_assoc, List.singleton_append])

theorem Table.logged (t : Table settings cwd h) (hp : (p, d) ∈ h.log) (hd : d.file = some f) :
    settings.logLevel ≤ p.levelno ∧ h.listener.handlers.get? (defaultRoutingKey p) = some f := by
  have hl : settings.logLevel ≤ p.levelno := by
    by_contra low
    cases (t.ignored p d hp (Int.not_le.mp low)).symm.trans hd
  obtain ⟨g, hg, hk⟩ := t.routed p d hp hl
  cases hg.symm.trans hd
  exact ⟨hl, hk⟩

/-- Where streams are apart, the handler of a record has the path it would build itself. -/
theorem Table.path (t : Table settings cwd h) (apart : Apart h) (hp : (p, d) ∈ h.log)
    (hd : d.file = some f) :
    f.path = (buildFileHandler settings cwd 0 p.category p.name).path := by
  -- another record of the same pair may have built it
  obtain ⟨q, e, hq, hl, hk, hb⟩ := t.built _ f (t.logged hp hd).2
  obtain ⟨g, he, hg⟩ := t.routed q e hq hl
  rw [hk] at hg
  cases hg.symm.trans (t.logged hp hd).2
  obtain ⟨hcat, hname⟩ := (apart.routed q e f p d f hq hp he hd).mp rfl
  rw [hb]
  exact same_path_iff.mpr ⟨by rw [hcat], by rw [hname]⟩

theorem Table.distinguished (t : Table settings cwd h) (apart : Apart h) (hp : (p, d) ∈ h.log)
    (hq : (q, e) ∈ h.log) (hpl : settings.logLevel ≤ p.levelno)
    (hql : settings.logLevel ≤ q.levelno) (hpq : ¬(p.category = q.category ∧ p.name = q.name)) :
    ¬Shifted p q ∧ ¬Shifted q p ∧ ¬SameFile settings cwd p q := by
  obtain ⟨f, hf, hpk⟩ := t.routed p d hp hpl
  obtain ⟨g, hg, hqk⟩ := t.routed q e hq hql
  have numbers : f.number ≠ g.number := by
    intro same
    exact hpq ((apart.routed p d f q e g hp hq hf hg).mp same)
  have keys : defaultRoutingKey p ≠ defaultRoutingKey q := by
    intro same
    rw [same] at hpk
    cases hpk.symm.trans hqk
    exact numbers rfl
  refine ⟨fun shifted => keys shifted.key, fun shifted => keys shifted.key.symm, ?_⟩
  intro file
  apply apart.paths _ f _ g hpk hqk numbers
  rw [t.path apart hp hf, t.path apart hq hg]
  exact same_path_iff.mpr file

theorem Table.apart (t : Table settings cwd h)
    (clear : Distinguishable settings cwd (h.log.map Prod.fst)) : Apart h := by
  have mem : ∀ {p d}, (p, d) ∈ h.log → p ∈ h.log.map Prod.fst := List.mem_map_of_mem
  refine ⟨?_, ?_⟩
  · intro p d f q e g hp hq hf hg
    obtain ⟨hpl, hpk⟩ := t.logged hp hf
    obtain ⟨hql, hqk⟩ := t.logged hq hg
    constructor
    · intro same
      by_contra different
      obtain ⟨hpq, hqp, -⟩ := clear p (mem hp) q (mem hq) hpl hql different
      rcases key_eq_iff.mp (t.unique _ f _ g hpk hqk same) with equal | shifted | shifted
      · exact different equal
      · exact hpq shifted
      · exact hqp shifted
    · intro equal
      rw [key_eq_iff.mpr (.inl equal)] at hpk
      cases hpk.symm.trans hqk
      exact rfl
  · intro k f j g hf hg numbers paths
    obtain ⟨p, d, hp, hpl, hpk, hpb⟩ := t.built k f hf
    obtain ⟨q, e, hq, hql, hqk, hqb⟩ := t.built j g hg
    have different : ¬(p.category = q.category ∧ p.name = q.name) := by
      intro equal
      rw [← hpk, key_eq_iff.mpr (.inl equal), hqk] at hf
      cases hf.symm.trans hg
      exact numbers rfl
    obtain ⟨-, -, file⟩ := clear p (mem hp) q (mem hq) hpl hql different
    rw [hpb, hqb] at paths
    exact file (same_path_iff.mp paths)

/-- The streams of a run are apart exactly when no two pairs that it logs are mixed up. -/
theorem streams_apart (settings : LoggingSettings) (cwd : String) (records : List LogRecord) :
    Apart ((begin settings cwd).handleAll records) ↔ Distinguishable settings cwd records := by
  have t : Table settings cwd _ := table_all table_begin records
  have all := log_all (h := begin settings cwd) records
  rw [begin, List.map_nil, List.nil_append] at all
  constructor
  · intro apart p hp q hq hpl hql different
    rw [← all] at hp hq
    obtain ⟨⟨_, d⟩, hpd, rfl⟩ := List.mem_map.mp hp
    obtain ⟨⟨_, e⟩, hqe, rfl⟩ := List.mem_map.mp hq
    exact t.distinguished apart hpd hqe hpl hql different
  · intro clear
    rw [← all] at clear
    exact t.apart clear

end Runs

/-! ## Two streams in one -/

def sampleSettings : LoggingSettings := { logRoot := "logs/infly", logLevel := 20 }

def record (category name : String) : LogRecord where
  levelno := 20
  logCategory := some category
  logName := some name

/-- The colons of a category and a name are not told from the one between them, and a slash of
a name is not told from an underscore. -/
theorem streams_joined :
    ¬Apart ((begin sampleSettings "/srv").handleAll [record "a:b" "c", record "a" "b:c"]) ∧
    ¬Apart ((begin sampleSettings "/srv").handleAll [record "task" "a/b", record "task" "a_b"]) := by
  constructor
  · intro h
    have log : ((begin sampleSettings "/srv").handleAll [record "a:b" "c", record "a" "b:c"]).log =
        [(record "a:b" "c", ⟨some ⟨0, ["srv", "logs", "infly", "a:b", "c.log"], 20⟩, true⟩),
          (record "a" "b:c", ⟨some ⟨0, ["srv", "logs", "infly", "a:b", "c.log"], 20⟩, true⟩)] := by
      decide +kernel
    have routed := h.routed (record "a:b" "c") _ _ (record "a" "b:c") _ _
      (by rw [log]; exact List.mem_cons_self)
      (by rw [log]; exact List.mem_cons_of_mem _ List.mem_cons_self) rfl rfl
    exact absurd (routed.mp rfl) (by decide +kernel)
  · intro h
    refine h.paths "task:a/b" ⟨0, ["srv", "logs", "infly", "task", "a_b.log"], 20⟩ "task:a_b"
      ⟨1, ["srv", "logs", "infly", "task", "a_b.log"], 20⟩ ?_ ?_ ?_ rfl
    · decide +kernel
    · decide +kernel
    · decide

end LogStreams
