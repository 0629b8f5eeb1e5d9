import Mathlib.Algebra.Group.Nat.Defs

/-! # Engine options

`EngineOptions::validate` checks every limit in turn and names the first it rejects.  The
limits the engine's progress rests on are the fields of `Accepted`.
-/

namespace Dtdb.Storage

/-- The storage errors the modelled functions return. -/
inductive StorageError where
  | serialization (msg : String)
  | corruption (msg : String)
  | invalidOptions (msg : String)
deriving DecidableEq

instance decidableEqExcept {ε α : Type} [DecidableEq ε] [DecidableEq α] : DecidableEq (Except ε α)
  | .ok a, .ok b => decidable_of_iff (a = b) ⟨congrArg _, Except.ok.inj⟩
  | .error a, .error b => decidable_of_iff (a = b) ⟨congrArg _, Except.error.inj⟩
  | .ok _, .error _ | .error _, .ok _ => .isFalse nofun

inductive CompressionType where
  | uncompressed
  | lz4
deriving DecidableEq

inductive FsyncMethod where
  | fsync
  | fullfsync
deriving DecidableEq

structure EngineOptions where
  compression : CompressionType := .lz4
  memtableSizeLimit : Nat := 8 * 1024 * 1024
  blockSizeLimit : Nat := 4096
  walSizeLimit : Nat := 32 * 1024 * 1024
  l0CompactionThreshold : Nat := 4
  sstableTargetSize : Nat := 2 * 1024 * 1024
  baseLevelSizeLimit : Nat := 10 * 1024 * 1024
  levelSizeMultiplier : Nat := 10
  blockCacheCapacity : Nat := 1000
  maxLevel : Nat := 7
  walSyncIntervalMs : Option Nat := none
  fsyncMethod : FsyncMethod := .fsync
  maxWriteBufferNumber : Nat := 4
  l0SlowdownWritesTrigger : Nat := 8
  l0StopWritesTrigger : Nat := 16
  l0SlowdownMaxSleepMs : Nat := 16
deriving DecidableEq

namespace EngineOptions

def maxLevels : Nat := 64

def maxLevelSizeMultiplier : Nat := 1024

/-- `require` inside `validate`. -/
def require (cond : Bool) (msg : String) : Except StorageError Unit :=
  if cond then .ok () else .error (.invalidOptions msg)

def validate (o : EngineOptions) : Except StorageError Unit := do
  require (0 < o.memtableSizeLimit) "memtable_size_limit must be > 0"
  require (0 < o.blockSizeLimit) "block_size_limit must be > 0"
  require (0 < o.walSizeLimit) "wal_size_limit must be > 0"
  require (0 < o.sstableTargetSize) "sstable_target_size must be > 0"
  require (0 < o.baseLevelSizeLimit) "base_level_size_limit must be > 0"
  require (0 < o.l0CompactionThreshold) "l0_compaction_threshold must be > 0"
  require (o.l0CompactionThreshold ≤ o.l0SlowdownWritesTrigger)
    "l0_compaction_threshold must be <= l0_slowdown_writes_trigger"
  require (o.l0SlowdownWritesTrigger < o.l0StopWritesTrigger)
    "l0_slowdown_writes_trigger must be < l0_stop_writes_trigger"
  require (0 < o.l0SlowdownMaxSleepMs) "l0_slowdown_max_sleep_ms must be > 0"
  require (2 ≤ o.maxWriteBufferNumber) "max_write_buffer_number must be >= 2"
  require (1 ≤ o.maxLevel ∧ o.maxLevel ≤ maxLevels)
    s!"max_level must be between 1 and {maxLevels}"
  require (1 ≤ o.levelSizeMultiplier ∧ o.levelSizeMultiplier ≤ maxLevelSizeMultiplier)
    s!"level_size_multiplier must be between 1 and {maxLevelSizeMultiplier}"

/-- What `validate` accepts, one field per check. -/
structure Accepted (o : EngineOptions) : Prop where
  memtable : 0 < o.memtableSizeLimit
  block : 0 < o.blockSizeLimit
  wal : 0 < o.walSizeLimit
  target : 0 < o.sstableTargetSize
  base : 0 < o.baseLevelSizeLimit
  threshold : 0 < o.l0CompactionThreshold
  slowdown : o.l0CompactionThreshold ≤ o.l0SlowdownWritesTrigger
  stop : o.l0SlowdownWritesTrigger < o.l0StopWritesTrigger
  sleep : 0 < o.l0SlowdownMaxSleepMs
  buffers : 2 ≤ o.maxWriteBufferNumber
  levels : 1 ≤ o.maxLevel ∧ o.maxLevel ≤ maxLevels
  multiplier : 1 ≤ o.levelSizeMultiplier ∧ o.levelSizeMultiplier ≤ maxLevelSizeMultiplier

theorem require_bind {c : Bool} {m : String} {f : Unit → Except StorageError Unit} :
    (require c m >>= f) = .ok () ↔ c = true ∧ f () = .ok () := by
  cases c
  · exact ⟨nofun, fun h => nomatch h.1⟩
  · exact ⟨fun h => ⟨rfl, h⟩, fun h => h.2⟩

theorem require_ok {c : Bool} {m : String} : require c m = .ok () ↔ c = true := by
  unfold require
  cases c <;> simp

theorem validate_ok {o : EngineOptions} : o.validate = .ok () ↔ o.Accepted := by
  unfold validate
  simp only [require_bind, require_ok, decide_eq_true_eq]
  exact ⟨fun ⟨a, b, c, d, e, f, g, h, i, j, k, l⟩ => ⟨a, b, c, d, e, f, g, h, i, j, k, l⟩,
    fun ⟨a, b, c, d, e, f, g, h, i, j, k, l⟩ => ⟨a, b, c, d, e, f, g, h, i, j, k, l⟩⟩

/-- The defaults pass their own check. -/
theorem default_accepted : ({} : EngineOptions).Accepted := by
  constructor <;> decide

/-! ## Slowing writers down -/

/-- `maybe_slowdown_writes` sleeps while level 0 is between the two triggers. -/
def slows (o : EngineOptions) (l0Count : Nat) : Prop :=
  o.l0SlowdownWritesTrigger ≤ l0Count ∧ l0Count < o.l0StopWritesTrigger

/-- The distance that `1u64` is shifted by. -/
def slowdownShift (o : EngineOptions) (l0Count : Nat) : Nat := l0Count - o.l0SlowdownWritesTrigger

/-- A shift by 64 or more panics where overflow is checked, and is taken modulo 64 otherwise. -/
def slowdownSleepMs (o : EngineOptions) (l0Count : Nat) : Nat :=
  min (2 ^ (o.slowdownShift l0Count % 64)) o.l0SlowdownMaxSleepMs

/-- **The delay of a writer** grows with level 0, as the powers of two up to its limit, exactly if
the triggers are at most 64 files apart. -/
theorem slowdown_exact (o : EngineOptions) :
    ((∀ n, o.slows n → o.slowdownShift n < 64) ∧
      (∀ m n, o.slows m → o.slows n → m ≤ n → o.slowdownSleepMs m ≤ o.slowdownSleepMs n) ∧
      ∀ n, o.slows n → o.slowdownSleepMs n
        = min (2 ^ (n - o.l0SlowdownWritesTrigger)) o.l0SlowdownMaxSleepMs) ↔
    o.l0StopWritesTrigger ≤ o.l0SlowdownWritesTrigger + 64 := by
  simp only [slows]
  constructor
  · rintro ⟨hshift, -, -⟩
    have hfar := hshift (o.l0SlowdownWritesTrigger + 64)
    simpa [slowdownShift] using hfar
  · intro hnear
    have hsleep : ∀ n, o.slows n → o.slowdownSleepMs n
        = min (2 ^ (n - o.l0SlowdownWritesTrigger)) o.l0SlowdownMaxSleepMs := by
      rintro n ⟨hlo, hhi⟩
      rw [slowdownSleepMs, slowdownShift, Nat.mod_eq_of_lt (by omega)]
    refine ⟨fun n hn => ?_, fun m n hm hn hle => ?_, hsleep⟩
    · simp [slowdownShift]
      omega
    · rw [hsleep m hm, hsleep n hn]
      have hpow := Nat.pow_le_pow_right Nat.two_pos (Nat.sub_le_sub_right hle o.l0SlowdownWritesTrigger)
      omega

/-- Accepted options with triggers 92 files apart: the 65th file makes the writer faster. -/
theorem slowdown_farTriggers :
    let o : EngineOptions := { l0StopWritesTrigger := 100 }
    o.validate = .ok () ∧ o.slows 72 ∧ o.slowdownShift 72 = 64 ∧ o.slowdownSleepMs 71 = 16 ∧
      o.slowdownSleepMs 72 = 1 := by
  refine ⟨validate_ok.2 (by constructor <;> decide), ?_⟩
  simp [slows, slowdownShift, slowdownSleepMs]

end EngineOptions

end Dtdb.Storage
