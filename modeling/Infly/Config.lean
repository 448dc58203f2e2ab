import Mathlib.Data.Rat.Defs
import Mathlib.Data.List.Nodup

/-! # Configuration records

`infly/runtime/config.py`. Each `__post_init__` check is a field, so a value that the
constructor would refuse cannot be built. Seconds are exact rationals.
-/
namespace Config

inductive SafetyMode where
  | shutdown | degrade | restart
  deriving DecidableEq, Repr

structure WorkerSafetyPolicy where
  mode : SafetyMode := .degrade
  restartLimit : ℕ := 3
  restartWindowSeconds : ℚ := 60
  restartBackoffSeconds : ℚ := 1
  window_pos : 0 < restartWindowSeconds := by decide
  backoff_nonneg : 0 ≤ restartBackoffSeconds := by decide
  deriving DecidableEq

/-- The characters that `str.strip` takes away. -/
def isSpace (c : Char) : Bool :=
  let n := c.toNat
  (0x09 ≤ n && n ≤ 0x0D) || (0x1C ≤ n && n ≤ 0x20) || n == 0x85 || n == 0xA0 || n == 0x1680 ||
    (0x2000 ≤ n && n ≤ 0x200A) || n == 0x2028 || n == 0x2029 || n == 0x202F || n == 0x205F ||
    n == 0x3000

def nonemptyText (value : String) : Bool := value.toList.any (fun c => !isSpace c)

structure WorkerGroup where
  name : String
  processCount : ℕ := 1
  handlers : List String := []
  safety : WorkerSafetyPolicy := {}
  name_nonempty : nonemptyText name = true := by decide
  process_pos : 1 ≤ processCount := by decide
  handlers_nonempty : ∀ h ∈ handlers, nonemptyText h = true := by decide
  handlers_nodup : handlers.Nodup := by decide
  deriving DecidableEq

structure SchedulerConfig where
  maxOutstandingTasks : ℕ := 50
  numThreads : ℕ := 2
  maxRetainedTerminalTasks : ℕ := 50
  outstanding_pos : 1 ≤ maxOutstandingTasks := by decide
  threads_pos : 1 ≤ numThreads := by decide
  deriving DecidableEq

end Config
