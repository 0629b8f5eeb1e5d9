import Dtdb.Storage.Options
import Dtdb.Storage.Sstable

/-! # The storage engine: state, reads, sealing and flushing

The in-memory state of `EngineInner`: the active memtable, the queue of sealed ones (front newest),
the SSTables by level and the id counters.  A flush is claimed, registered and retired in steps of
their own. -/

namespace Dtdb.Storage

open Dtdb.Lib

variable {K V Λ : Type} [LinearOrder K] [ByteSize K] [ByteSize V]

inductive SlotState where
  | pending
  | inFlight
  | completed
deriving DecidableEq

structure ImmMemtable (K V : Type) [LinearOrder K] [ByteSize K] [ByteSize V] where
  table : MemTable K V
  nonempty : table.isEmpty = false
  walId : Nat
  sstId : Nat
  flush : SlotState

/-- `FramedLog`'s header, the size of a fresh WAL segment. -/
def headerLen : Nat := 8

/-- `fileSize` and `frameSize` are the sizes of the block encoding and the WAL framing. -/
structure Config (K V Λ : Type) [LinearOrder K] where
  options : EngineOptions
  rewriter : Option Λ → Option Λ → V → Except StorageError V
  fileSize : Reader K V Λ → Nat
  frameSize : List (WalEntry K V) → Nat

def passthrough : Option Λ → Option Λ → V → Except StorageError V := fun _ _ v => .ok v

/-- Bringing a value to the empty layout leaves it as it is. -/
def Config.KeepsPlain (cfg : Config K V Λ) : Prop := ∀ layout v, cfg.rewriter layout none v = .ok v

structure Engine (K V Λ : Type) [LinearOrder K] [ByteSize K] [ByteSize V] where
  active : MemTable K V
  immutable : List (ImmMemtable K V)
  activeWalId : Nat
  walSize : Nat
  nextWalId : Nat
  nextSstId : Nat
  immutableCount : Nat
  sstables : SortedMap Nat (List (Reader K V Λ))
  targetLayout : Option Λ
  lastCompactedKeys : Nat → Option K

namespace Engine

def fresh : Engine K V Λ where
  active := .new
  immutable := []
  activeWalId := 0
  walSize := headerLen
  nextWalId := 1
  nextSstId := 1
  immutableCount := 0
  sstables := .empty
  targetLayout := none
  lastCompactedKeys := fun _ => none

def level (e : Engine K V Λ) (n : Nat) : List (Reader K V Λ) := (e.sstables.get n).getD []

def setTargetLayout (e : Engine K V Λ) (layout : Option Λ) : Engine K V Λ :=
  { e with targetLayout := layout }

/-! ## Reads -/

def memHit (e : Engine K V Λ) (k : K) : Option (Option V) :=
  match e.active.get k with
  | some slot => some slot
  | none => e.immutable.findSome? fun imm => imm.table.get k

/-- The SSTables' answer: level 0 newest first, then the deeper levels in order. -/
def probe (e : Engine K V Λ) (k : K) : Option (Hit V Λ) :=
  match (e.level 0).findSome? fun r => r.hit k with
  | some h => some h
  | none => e.sstables.entries.findSome? fun x =>
    if x.1 = 0 then none else if x.2.isEmpty then none else probeLevel x.2 k

/-- A found slot's value, brought to the target layout. -/
def resolve [DecidableEq Λ] (cfg : Config K V Λ) (e : Engine K V Λ) :
    Hit V Λ → Except StorageError (Option V)
  | (_, none) => .ok none
  | (layout, some v) =>
    if layout ≠ e.targetLayout then (cfg.rewriter layout e.targetLayout v).map some
    else .ok (some v)

def get [DecidableEq Λ] (cfg : Config K V Λ) (e : Engine K V Λ) (k : K) :
    Except StorageError (Option V) :=
  match e.memHit k with
  | some slot => .ok slot
  | none =>
    match e.probe k with
    | some h => e.resolve cfg h
    | none => .ok none

/-! ## Writes -/

/-- The WAL append and memtable apply of `commit_coalesced`. -/
def commit (cfg : Config K V Λ) (e : Engine K V Λ) (entries : List (WalEntry K V)) :
    Engine K V Λ :=
  { e with
    active := e.active.applyDrain entries
    walSize := e.walSize + cfg.frameSize entries }

/-- Whether a commit leaves the active memtable or its segment full. -/
def triggerFlush (cfg : Config K V Λ) (e : Engine K V Λ) : Bool :=
  decide ((cfg.options.memtableSizeLimit : Int) ≤ e.active.byteSize) ||
    decide (cfg.options.walSizeLimit ≤ e.walSize)

/-- Queue the active memtable under a fresh L0 id and start a new segment. -/
def sealActive (e : Engine K V Λ) : Engine K V Λ :=
  if h : e.active.isEmpty = false then
    { e with
      active := .new
      immutable := ⟨e.active, h, e.activeWalId, e.nextSstId, .pending⟩ :: e.immutable
      activeWalId := e.nextWalId
      walSize := headerLen
      nextWalId := e.nextWalId + 1
      nextSstId := e.nextSstId + 1
      immutableCount := e.immutableCount + 1 }
  else e

/-! ## Flushing -/

/-- The queue with the flush state of segment `w`'s memtable replaced. -/
def setSlot (q : List (ImmMemtable K V)) (w : Nat) (s : SlotState) : List (ImmMemtable K V) :=
  q.map fun i => if i.walId = w then { i with flush := s } else i

def claimFlush (e : Engine K V Λ) (w : Nat) : Option (Engine K V Λ) :=
  match e.immutable.find? fun i => i.walId = w with
  | some i =>
    if i.flush = .pending then some { e with immutable := setSlot e.immutable w .inFlight }
    else none
  | none => none

/-- The L0 SSTable of a sealed memtable, under its pre-allocated id and the target layout. -/
def immReader (e : Engine K V Λ) (i : ImmMemtable K V) : Reader K V Λ where
  id := i.sstId
  level := 0
  layout := e.targetLayout
  entries := i.table.entries
  nonempty := fun h => by
    have := i.nonempty
    rw [MemTable.isEmpty, SortedMap.isEmpty, show i.table.map.entries = [] from h] at this
    cases this
  ascending := i.table.map.ascending

/-- `write_immutable_sstable`: register the memtable's SSTable at level 0. -/
def writeImmutableSstable (e : Engine K V Λ) (i : ImmMemtable K V) : Engine K V Λ :=
  { e with sstables := e.sstables.insert 0 (insertL0Sorted (e.level 0) (e.immReader i)) }

/-- The flush of segment `w`'s memtable completes. -/
def finishFlush (e : Engine K V Λ) (w : Nat) : Option (Engine K V Λ) :=
  match e.immutable.find? fun i => i.walId = w with
  | some i =>
    if i.flush = .inFlight then
      some { e.writeImmutableSstable i with immutable := setSlot e.immutable w .completed }
    else none
  | none => none

/-- One turn of the `retire_durable_prefix` loop; `none` when it stops. -/
def retireOldest (e : Engine K V Λ) : Option (Engine K V Λ) :=
  match e.immutable.getLast? with
  | some i =>
    if i.flush = .completed then
      some { e with
        immutable := e.immutable.dropLast
        immutableCount := e.immutableCount - 1 }
    else none
  | none => none

/-- `retire_durable_prefix`, which turns at most once per queued memtable. -/
def retireDurablePrefix (e : Engine K V Λ) : Engine K V Λ := go e.immutable.length e
where
  go : Nat → Engine K V Λ → Engine K V Λ
    | 0, e => e
    | n + 1, e => match e.retireOldest with
      | some e' => go n e'
      | none => e

end Engine

end Dtdb.Storage
