import Dtdb.Lib.Merge
import Dtdb.Storage.Levels
import Mathlib.Data.List.Sort

/-! # Compaction

`compactLevel` merges the chosen files of one level with those they overlap one level down: newest
entry per key, values in the target layout, tombstones dropped that hide nothing. -/

namespace Dtdb.Storage

open Dtdb.Lib List Option

variable {K V Λ : Type}

/-! ## Selecting and merging files -/

section

variable [LinearOrder K]

/-- One turn of the selection loop over `min_key` and `max_key`. -/
def widenRange (acc : Option (K × K)) (f : Reader K V Λ) : Option (K × K) :=
  match acc with
  | none => some (f.firstKey, f.lastKey)
  | some (lo, hi) =>
    some (if f.firstKey < lo then f.firstKey else lo, if hi < f.lastKey then f.lastKey else hi)

def keyRange (files : List (Reader K V Λ)) : Option (K × K) := files.foldl widenRange none

/-- Level-0 files by recency, then the others in their order. -/
def mergeSources (files : List (Reader K V Λ)) : List (Source K (Option V) (Reader K V Λ)) :=
  let l0 := (files.filter fun f => f.level = 0).insertionSort fun a b => a.id ≤ b.id
  let others := files.filter fun f => f.level ≠ 0
  (others.zipIdx.map fun x => ⟨l0.length + x.2, x.1, x.1.entries⟩) ++
    l0.zipIdx.reverse.map fun x => ⟨l0.length - 1 - x.2, x.1, x.1.entries⟩

/-- A merged slot, brought from its file's layout to the target layout. -/
def rewriteSlot [DecidableEq Λ] (cfg : Config K V Λ) (T : Option Λ) (f : Reader K V Λ) :
    Option V → Except StorageError (Option V)
  | none => .ok none
  | some v => if f.layout ≠ T then (cfg.rewriter f.layout T v).map some else .ok (some v)

def rewriteAll [DecidableEq Λ] (cfg : Config K V Λ) (T : Option Λ) :
    List (K × Option V × Reader K V Λ) → Except StorageError (List (K × Option V))
  | [] => .ok []
  | (k, s, f) :: rest => do
    let s' ← rewriteSlot cfg T f s
    let rest' ← rewriteAll cfg T rest
    return (k, s') :: rest'

end

/-! ## Writing the output files -/

section

variable [ByteSize K] [ByteSize V]

/-- Close the current file once it holds `limit` bytes; `cur` is reversed. -/
def cutRuns (limit : Nat) : List (K × Option V) → Nat → List (K × Option V) →
    List (List (K × Option V))
  | cur, _, [] => if cur.isEmpty then [] else [cur.reverse]
  | cur, bytes, x :: l =>
    if limit ≤ bytes + entrySize x then (x :: cur).reverse :: cutRuns limit [] 0 l
    else cutRuns limit (x :: cur) (bytes + entrySize x) l

theorem flatten_cutRuns (limit : Nat) (cur : List (K × Option V)) (bytes : Nat)
    (l : List (K × Option V)) : (cutRuns limit cur bytes l).flatten = cur.reverse ++ l := by
  induction l generalizing cur bytes with
  | nil =>
    simp only [cutRuns]
    split
    · next h => rw [isEmpty_iff.1 h]; rfl
    · simp
  | cons x l ih =>
    simp only [cutRuns]
    split <;> simp [ih]

theorem ne_nil_of_mem_cutRuns {limit : Nat} {cur : List (K × Option V)} {bytes : Nat}
    {l r : List (K × Option V)} (h : r ∈ cutRuns limit cur bytes l) : r ≠ [] := by
  induction l generalizing cur bytes with
  | nil =>
    simp only [cutRuns] at h
    split at h
    · cases h
    · next hc =>
      rw [mem_singleton.1 h]
      simpa using hc
  | cons x l ih =>
    simp only [cutRuns] at h
    split at h
    · rcases mem_cons.1 h with rfl | h
      · simp
      · exact ih h
    · exact ih h

variable [LinearOrder K]

/-- The merged rows as files of the target level, with fresh ids. -/
def outputFiles (limit firstId target : Nat) (T : Option Λ) (rows : List (K × Option V))
    (h : Ascending rows) : List (Reader K V Λ) :=
  (cutRuns limit [] 0 rows).attach.zipIdx.map fun x =>
    { id := firstId + x.2
      level := target
      layout := T
      entries := x.1.1
      nonempty := ne_nil_of_mem_cutRuns x.1.2
      ascending := by
        have hflat : Ascending (cutRuns limit [] 0 rows).flatten := by
          rw [flatten_cutRuns]
          exact h
        exact (pairwise_flatten.mp hflat).1 x.1.1 x.1.2 }

end

variable [LinearOrder K]

theorem rewriteAll_keys [DecidableEq Λ] {cfg : Config K V Λ} {T : Option Λ}
    {ms : List (K × Option V × Reader K V Λ)} {rows : List (K × Option V)}
    (h : rewriteAll cfg T ms = .ok rows) : rows.map Prod.fst = ms.map Prod.fst := by
  induction ms generalizing rows with
  | nil => cases h; rfl
  | cons x ms ih =>
    obtain ⟨k, s, f⟩ := x
    simp only [rewriteAll] at h
    cases hs : rewriteSlot cfg T f s with
    | error err => rw [hs] at h; cases h
    | ok s' =>
      rw [hs] at h
      cases hr : rewriteAll cfg T ms with
      | error err => rw [hr] at h; cases h
      | ok rest =>
        rw [hr] at h
        cases h
        rw [map_cons, map_cons, ih hr]

theorem exists_of_mem_mergeSources {files : List (Reader K V Λ)}
    {s : Source K (Option V) (Reader K V Λ)} (h : s ∈ mergeSources files) :
    ∃ f ∈ files, s.rest = f.entries := by
  rcases mem_append.1 h with h | h
  · obtain ⟨x, hx, rfl⟩ := mem_map.1 h
    exact ⟨x.1, mem_of_mem_filter (fst_mem_of_mem_zipIdx hx), rfl⟩
  · obtain ⟨x, hx, rfl⟩ := mem_map.1 h
    have hmem := fst_mem_of_mem_zipIdx (mem_reverse.1 hx)
    exact ⟨x.1, mem_of_mem_filter ((mem_insertionSort _).1 hmem), rfl⟩

theorem mergeSources_sorted (files : List (Reader K V Λ)) : Sorted (mergeSources files) := by
  intro s hs
  obtain ⟨f, -, hrest⟩ := exists_of_mem_mergeSources hs
  rw [hrest]
  exact f.ascending

theorem rewriteAll_ascending [DecidableEq Λ] {cfg : Config K V Λ} {T : Option Λ}
    {files : List (Reader K V Λ)} {rows : List (K × Option V)}
    (h : rewriteAll cfg T (merge (mergeSources files)) = .ok rows) : Ascending rows := by
  have hmap := pairwise_map.2 (merge_ascending (mergeSources_sorted files))
  rw [← rewriteAll_keys h] at hmap
  exact pairwise_map.1 hmap

/-! ## Compacting a level -/

structure Compaction (K V Λ : Type) [LinearOrder K] where
  sources : List (Reader K V Λ)
  overlapping : List (Reader K V Λ)
  outs : List (Reader K V Λ)

namespace Engine

variable [ByteSize K] [ByteSize V]

/-- All of level 0, else the next file in turn. -/
def sourceFiles (e : Engine K V Λ) (n : Nat) : List (Reader K V Λ) :=
  if n = 0 then e.level 0
  else match e.level n with
    | [] => []
    | r :: rest =>
      match e.lastCompactedKeys n with
      | some key => [((r :: rest).find? fun s => key < s.firstKey).getD r]
      | none => [r]

/-- The files of level `m` that overlap the key range of `sources`. -/
def overlappingFiles (e : Engine K V Λ) (m : Nat) (sources : List (Reader K V Λ)) :
    List (Reader K V Λ) :=
  match keyRange sources with
  | some (lo, hi) => (e.level m).filter fun s => s.firstKey ≤ hi ∧ lo ≤ s.lastKey
  | none => []

/-- The key ranges of every file below level `target`. -/
def lowerLevelRanges (e : Engine K V Λ) (target : Nat) : List (K × K) :=
  ((e.sstables.entries.filter fun x => target < x.1).flatMap fun x => x.2).map fun s =>
    (s.firstKey, s.lastKey)

/-- Every value is written, and a tombstone some deeper file may still need. -/
def keepRow (cfg : Config K V Λ) (e : Engine K V Λ) (target : Nat) (x : K × Option V) : Bool :=
  x.2.isSome || (decide (target < cfg.options.maxLevel) &&
    (e.lowerLevelRanges target).any fun r => r.1 ≤ x.1 && x.1 ≤ r.2)

/-- Swap the compacted files for the new ones in the SSTable map. -/
def install (e : Engine K V Λ) (n : Nat) (sources overlapping outs : List (Reader K V Λ)) :
    Engine K V Λ :=
  let m := match e.sstables.get n with
    | some l => e.sstables.insert n (l.filter fun f => f.id ∉ sources.map Reader.id)
    | none => e.sstables
  let rest := ((m.get (n + 1)).getD []).filter fun f => f.id ∉ overlapping.map Reader.id
  { e with
    sstables := m.insert (n + 1) ((rest ++ outs).insertionSort fun a b => a.firstKey ≤ b.firstKey)
    nextSstId := e.nextSstId + outs.length
    lastCompactedKeys := match sources.getLast? with
      | some f => if 0 < n then Function.update e.lastCompactedKeys n (some f.lastKey)
        else e.lastCompactedKeys
      | none => e.lastCompactedKeys }

/-- The files `compact_level` reads and writes; `none` when there is nothing to compact. -/
def compaction [DecidableEq Λ] (cfg : Config K V Λ) (e : Engine K V Λ) (n : Nat) :
    Except StorageError (Option (Compaction K V Λ)) :=
  let target := n + 1
  if cfg.options.maxLevel < target then .ok none
  else
    let sources := e.sourceFiles n
    if sources.isEmpty then .ok none
    else
      let overlapping := e.overlappingFiles target sources
      match h : rewriteAll cfg e.targetLayout (merge (mergeSources (sources ++ overlapping))) with
      | .error err => .error err
      | .ok rows => .ok (some {
          sources
          overlapping
          outs := outputFiles cfg.options.sstableTargetSize e.nextSstId target e.targetLayout
            (rows.filter (e.keepRow cfg target)) ((rewriteAll_ascending h).filter _) })

def compactLevel [DecidableEq Λ] (cfg : Config K V Λ) (e : Engine K V Λ) (n : Nat) :
    Except StorageError (Engine K V Λ) :=
  (e.compaction cfg n).map fun c => match c with
    | some c => e.install n c.sources c.overlapping c.outs
    | none => e

end Engine

end Dtdb.Storage
