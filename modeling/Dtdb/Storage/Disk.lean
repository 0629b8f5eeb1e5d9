import Mathlib.Data.Finset.Basic
import Mathlib.Data.Nat.Log
import Dtdb.Lib.SnapshotLog
import Dtdb.Storage.Compaction
import Dtdb.Storage.FramedLog

/-! # The engine's directory

The manifest, the SSTables and the WAL segments.  `openPlan` is `EngineInner::open` as its file
operations, in order.  Removing a file survives a crash only after the directory is synced. -/

namespace Dtdb.Storage

open Dtdb.Lib

/-! ## The manifest -/

inductive ManifestEdit where
  | addSstable (level id : Nat)
  | removeSstable (level id : Nat)
deriving DecidableEq

abbrev Manifest := Finset (Nat × Nat)

instance : Snapshotable Manifest ManifestEdit where
  default := ∅
  apply m
    | .addSstable level id => insert (level, id) m
    | .removeSstable level id => m.erase (level, id)

def manifestCompactThreshold : Nat := 1024 * 1024

def varintLen (n : Nat) : Nat := Nat.log2 n / 7 + 1

def ManifestEdit.size : ManifestEdit → Nat
  | .addSstable level id | .removeSstable level id => 1 + varintLen level + varintLen id

def editBytes (edits : List ManifestEdit) : Nat :=
  headerLen + varintLen edits.length + (edits.map ManifestEdit.size).sum

variable {K V Λ : Type} [LinearOrder K]

def Reader.name (r : Reader K V Λ) : Nat × Nat := (r.level, r.id)

/-! ## The directory -/

abbrev Segment (K V : Type) := List (List (WalEntry K V))

/-- The directory; `unsynced` are the removed segments a crash may bring back. -/
structure Disk (K V Λ : Type) [LinearOrder K] where
  manifest : SnapshotDir Manifest ManifestEdit
  files : List (Reader K V Λ)
  segments : SortedMap Nat (Segment K V)
  unsynced : List (Nat × Segment K V)

inductive DiskOp (K V Λ : Type) [LinearOrder K] where
  | manifest (op : SnapshotOp Manifest ManifestEdit)
  | writeFile (file : Reader K V Λ)
  | removeFile (name : Nat × Nat)
  | createSegment (id : Nat)
  | appendSegment (id : Nat) (batch : List (WalEntry K V))
  | removeSegment (id : Nat)
  | syncDir

namespace Disk

def empty : Disk K V Λ := ⟨.empty, [], .empty, []⟩

/-- An SSTable appears whole; opening a segment keeps what it holds. -/
def exec (d : Disk K V Λ) : DiskOp K V Λ → Disk K V Λ
  | .manifest op => { d with manifest := d.manifest.exec op }
  | .writeFile f => { d with files := f :: d.files.filter fun g => g.name ≠ f.name }
  | .removeFile name => { d with files := d.files.filter fun g => g.name ≠ name }
  | .createSegment id => { d with segments := d.segments.insert id ((d.segments.get id).getD []) }
  | .appendSegment id batch =>
    { d with segments := d.segments.insert id ((d.segments.get id).getD [] ++ [batch]) }
  | .removeSegment id =>
    match d.segments.get id with
    | some seg => { d with
        segments := d.segments.erase id
        unsynced := (id, seg) :: d.unsynced }
    | none => d
  | .syncDir => { d with unsynced := [] }

theorem foldl_manifest (ops : List (SnapshotOp Manifest ManifestEdit)) (d : Disk K V Λ) :
    (ops.map DiskOp.manifest).foldl exec d
      = { d with manifest := ops.foldl SnapshotDir.exec d.manifest } := by
  induction ops generalizing d with
  | nil => rfl
  | cons op ops ih => exact ih (d.exec (.manifest op))

/-- The directory a crash leaves: the segments in `back` reappear. -/
def crash (d : Disk K V Λ) (back : List Nat) : Disk K V Λ :=
  { d with
    segments := (d.unsynced.filter fun x => x.1 ∈ back).foldl (fun m x => m.insert x.1 x.2) d.segments
    unsynced := [] }

theorem crash_of_synced {d : Disk K V Λ} (h : d.unsynced = []) (back : List Nat) :
    d.crash back = d := by
  obtain ⟨_, _, _, unsynced⟩ := d
  cases h
  rfl

/-- The removals a crash undoes are the newest ones. -/
def CrashOk (d : Disk K V Λ) (back : List Nat) : Prop :=
  ∀ x ∈ d.unsynced, x.1 ∉ back → ∀ id ∈ back, x.1 < id

instance (d : Disk K V Λ) (back : List Nat) : Decidable (d.CrashOk back) :=
  inferInstanceAs (Decidable (∀ x ∈ d.unsynced, x.1 ∉ back → ∀ id ∈ back, x.1 < id))

end Disk

/-! ## Recovery -/

/-- Whether recovery accepts the frame of a batch. -/
def Config.fits (cfg : Config K V Λ) (batch : List (WalEntry K V)) : Bool :=
  decide (cfg.frameSize batch ≤ headerLen + maxFrameBytes)

def recoverFrames (cfg : Config K V Λ) (seg : Segment K V) : Segment K V := seg.takeWhile cfg.fits

/-- Level `n`'s read order. -/
def sortLevel (n : Nat) (files : List (Reader K V Λ)) : List (Reader K V Λ) :=
  if n = 0 then files.insertionSort fun a b => b.id ≤ a.id
  else files.insertionSort fun a b => a.firstKey ≤ b.firstKey

def discover (live : List (Reader K V Λ)) : SortedMap Nat (List (Reader K V Λ)) :=
  live.foldl (fun m f => m.insert f.level (sortLevel f.level (live.filter fun g => g.level = f.level)))
    .empty

def maxId (live : List (Reader K V Λ)) : Nat := (live.map Reader.id).foldl max 0

theorem le_maxId {live : List (Reader K V Λ)} {f : Reader K V Λ} (h : f ∈ live) :
    f.id ≤ maxId live := by
  suffices ∀ (l : List Nat) (a : Nat), a ≤ l.foldl max a ∧ ∀ x ∈ l, x ≤ l.foldl max a from
    (this _ _).2 _ (List.mem_map_of_mem h)
  intro l
  induction l with
  | nil => exact fun a => ⟨le_rfl, nofun⟩
  | cons y l ih =>
    intro a
    have := ih (max a y)
    refine ⟨(le_max_left a y).trans this.1, fun x hx => ?_⟩
    rcases List.mem_cons.1 hx with rfl | hx
    · exact (le_max_right a x).trans this.1
    · exact this.2 x hx

variable [ByteSize K] [ByteSize V]

/-- The memtable the segments replay to, oldest segment first. -/
def replay (cfg : Config K V Λ) (segments : SortedMap Nat (Segment K V)) : MemTable K V :=
  segments.entries.foldl (fun m x =>
    (recoverFrames cfg x.2).foldl (fun m batch => m.applyEntryRecursive (.batch batch)) m) .new

/-- The SSTable of replayed writes, under the empty layout. -/
def recoveredReader (m : MemTable K V) (h : 0 < m.byteSize) (id : Nat) : Reader K V Λ where
  id
  level := 0
  layout := none
  entries := m.entries
  nonempty hnil := by
    rw [MemTable.byteSize, m.size_eq, show m.map.entries = [] from hnil] at h
    exact absurd h (by simp [totalSize])
  ascending := m.map.ascending

structure Live (K V Λ : Type) [LinearOrder K] [ByteSize K] [ByteSize V] where
  engine : Engine K V Λ
  manifest : SnapshotHandle Manifest

/-- Without a manifest the active set is rebuilt from the file names. -/
def openManifest (d : Disk K V Λ) :
    Option (List (SnapshotOp Manifest ManifestEdit) × SnapshotHandle Manifest) := do
  let (ops, handle) ← d.manifest.openOps editBytes
  let edits := if d.manifest.current.isSome then []
    else d.files.map fun f => ManifestEdit.addSstable f.level f.id
  if edits.isEmpty then return (ops, handle)
  let (ops', handle') := (ops.foldl SnapshotDir.exec d.manifest).appendOps editBytes
    manifestCompactThreshold handle edits
  return (ops ++ ops', handle')

def Disk.liveFiles (d : Disk K V Λ) (m : Manifest) : List (Reader K V Λ) :=
  d.files.filter fun f => f.name ∈ m

def nextSegment (segments : SortedMap Nat (Segment K V)) : Nat :=
  match (segments.entries.map Prod.fst).getLast? with
  | some id => id + 1
  | none => 0

/-- The engine as discovered, with the replayed writes in its memtable. -/
def discoveredEngine (cfg : Config K V Λ) (d : Disk K V Λ) (m : Manifest) : Engine K V Λ where
  active := replay cfg d.segments
  immutable := []
  activeWalId := nextSegment d.segments
  walSize := headerLen
  nextWalId := nextSegment d.segments + 1
  nextSstId := maxId (d.liveFiles m) + 1
  immutableCount := 0
  sstables := discover (d.liveFiles m)
  targetLayout := none
  lastCompactedKeys := fun _ => none

/-- The replayed writes go to a new level-0 SSTable. -/
def Engine.flushRecovered (e : Engine K V Λ) (f : Reader K V Λ) : Engine K V Λ :=
  { e with
    active := .new
    nextSstId := e.nextSstId + 1
    sstables := e.sstables.insert 0 (insertL0Sorted (e.level 0) f) }

def flushOps (dir : SnapshotDir Manifest ManifestEdit) (handle : SnapshotHandle Manifest)
    (f : Reader K V Λ) : List (DiskOp K V Λ) × SnapshotHandle Manifest :=
  let x := dir.appendOps editBytes manifestCompactThreshold handle [.addSstable f.level f.id]
  (.writeFile f :: x.1.map .manifest, x.2)

/-- The manifest's operations, then the removal of the files it does not list. -/
def headOps (d : Disk K V Λ) (ops : List (SnapshotOp Manifest ManifestEdit)) (m : Manifest) :
    List (DiskOp K V Λ) :=
  ops.map .manifest ++ (d.files.filter fun f => f.name ∉ m).map fun f => .removeFile f.name

/-- The retired segments and the fresh one. -/
def segmentOps (segments : SortedMap Nat (Segment K V)) : List (DiskOp K V Λ) :=
  (segments.entries.map fun x => DiskOp.removeSegment x.1) ++
    (if segments.isEmpty then [] else [.syncDir]) ++
    [.createSegment (nextSegment segments), .syncDir]

/-- `EngineInner::open`; `none` when the manifest cannot be read. -/
def openPlan (cfg : Config K V Λ) (d : Disk K V Λ) :
    Option (List (DiskOp K V Λ) × Live K V Λ) := do
  let (ops, handle) ← openManifest d
  let e := discoveredEngine cfg d handle.state
  if h : 0 < e.active.byteSize then
    let f := recoveredReader e.active h e.nextSstId
    let x := flushOps (ops.foldl SnapshotDir.exec d.manifest) handle f
    return (headOps d ops handle.state ++ x.1 ++ segmentOps d.segments, ⟨e.flushRecovered f, x.2⟩)
  else return (headOps d ops handle.state ++ segmentOps d.segments, ⟨e, handle⟩)

/-! ## The running engine's file operations -/

def Compaction.edits (c : Compaction K V Λ) : List ManifestEdit :=
  (c.sources ++ c.overlapping).map (fun f => .removeSstable f.level f.id) ++
    c.outs.map fun f => .addSstable f.level f.id

def compactOps (dir : SnapshotDir Manifest ManifestEdit) (handle : SnapshotHandle Manifest)
    (c : Compaction K V Λ) : List (DiskOp K V Λ) × SnapshotHandle Manifest :=
  let x := dir.appendOps editBytes manifestCompactThreshold handle c.edits
  (c.outs.map .writeFile ++ x.1.map .manifest ++
    (c.sources ++ c.overlapping).map fun f => .removeFile f.name, x.2)

end Dtdb.Storage
