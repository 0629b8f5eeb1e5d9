import Dtdb.Lib.Blocks
import Dtdb.Lib.Bloom
import Dtdb.Lib.Run
import Dtdb.Storage.Compaction

/-! # Inside an SSTable file

A reader's entries are stored as blocks, an index of their first keys and a Bloom filter.  `get`,
`scan_raw` and the block iterator each return what the entries as a whole hold. -/

namespace Dtdb.Storage

open Dtdb.Lib List

/-- What a file's writer was created with. -/
structure FileFormat (K V Λ : Type) [LinearOrder K] where
  blockSizeLimit : Reader K V Λ → Nat
  expectedEntries : Reader K V Λ → Nat
  hash : K → Bloom.Digest
  filterBytes : Nat → Nat
  filterBytes_pos : ∀ n, 0 < n → 0 < filterBytes n
  numHashes : Nat → Nat

/-- An open file: its blocks under their first keys and its filter. -/
structure SstableReader (K V : Type) where
  blocks : List (Block K (Option V))
  bloomFilter : Option Bloom

def maxNumHashes : Nat := 30

variable {K V Λ : Type} [LinearOrder K]

namespace SstableReader

def get (hash : K → Bloom.Digest) (f : SstableReader K V) (k : K) : Option (Option V) :=
  if f.blocks.isEmpty then none
  else if f.bloomFilter.any fun b => !b.contains (hash k) then none
  else findInBlocks f.blocks k

def scanRaw (f : SstableReader K V) (lo hi : K) : List (K × Option V) :=
  if f.blocks.isEmpty then [] else scanBlocks f.blocks lo hi

theorem get_eq {hash : K → Bloom.Digest} {f : SstableReader K V}
    (hasc : Ascending (Block.contents f.blocks))
    (hfilter : ∀ b, f.bloomFilter = some b → ∀ x ∈ Block.contents f.blocks,
      b.contains (hash x.1) = true) (k : K) :
    f.get hash k = (Block.contents f.blocks).lookup k := by
  unfold get
  split
  · next hnil =>
    rw [isEmpty_iff.1 hnil]
    rfl
  · split
    · next hbloom =>
      obtain ⟨b, hb, hno⟩ := (Option.any_eq_true ..).1 hbloom
      by_contra hne
      obtain ⟨s, hs⟩ := Option.ne_none_iff_exists'.1 (Ne.symm hne)
      rw [hfilter b hb (k, s) (mem_of_lookup hs)] at hno
      cases hno
    · exact findInBlocks_eq hasc k

theorem scanRaw_eq {f : SstableReader K V} (hasc : Ascending (Block.contents f.blocks))
    (lo hi : K) : f.scanRaw lo hi = (Block.contents f.blocks).filter (inRange lo hi) := by
  unfold scanRaw
  split
  · next hnil =>
    rw [isEmpty_iff.1 hnil]
    rfl
  · exact scanBlocks_eq hasc lo hi

end SstableReader

namespace Reader

/-- The filter `SstableWriter` fills, if it was given a number of entries to expect. -/
def bloomFilter (fmt : FileFormat K V Λ) (r : Reader K V Λ) : Option Bloom :=
  let n := fmt.expectedEntries r
  if 0 < n then
    some ((r.entries.map fun x => fmt.hash x.1).foldl Bloom.insert
      ⟨replicate (8 * fmt.filterBytes n) false, min (fmt.numHashes n) maxNumHashes⟩)
  else none

variable [ByteSize K] [ByteSize V]

/-- The blocks `SstableWriter::append` cuts the entries into. -/
def blocks (fmt : FileFormat K V Λ) (r : Reader K V Λ) : List (Block K (Option V)) :=
  (cutRuns (fmt.blockSizeLimit r) [] 0 r.entries).attach.map fun b =>
    ⟨b.1, ne_nil_of_mem_cutRuns b.2⟩

def file (fmt : FileFormat K V Λ) (r : Reader K V Λ) : SstableReader K V where
  blocks := r.blocks fmt
  bloomFilter := r.bloomFilter fmt

variable {fmt : FileFormat K V Λ}

theorem contents_blocks (r : Reader K V Λ) : Block.contents (r.blocks fmt) = r.entries := by
  have hmap : (r.blocks fmt).map Block.entries = cutRuns (fmt.blockSizeLimit r) [] 0 r.entries := by
    simp [blocks]
  rw [Block.contents, flatMap_def, hmap, flatten_cutRuns]
  rfl

theorem ascending_blocks (r : Reader K V Λ) : Ascending (Block.contents (r.blocks fmt)) := by
  rw [contents_blocks]
  exact r.ascending

theorem file_get (r : Reader K V Λ) (k : K) : (r.file fmt).get fmt.hash k = r.get k := by
  have hget := SstableReader.get_eq r.ascending_blocks (fun b hb x hx => by
    rw [show Block.contents (r.file fmt).blocks = r.entries from r.contents_blocks] at hx
    obtain ⟨hn, hb⟩ := Option.ite_none_right_eq_some.1 hb
    cases hb
    refine Bloom.contains_foldl_insert ?_ (mem_map_of_mem hx)
    have := fmt.filterBytes_pos _ hn
    simp only [length_replicate]
    omega) k
  rw [hget, show Block.contents (r.file fmt).blocks = r.entries from r.contents_blocks]
  rfl

/-- What `peek` and `advance` of a `SstableBlockIterator` yield, under its priority. -/
def blockIterator (fmt : FileFormat K V Λ) (r : Reader K V Λ) (lo hi : K) (prio : Nat) :
    Source K (Option V) (Reader K V Λ) where
  prio := prio
  tag := r
  rest := Cursor.drain r.entries.length (Cursor.newWithEnd (r.file fmt).blocks (some lo) (some hi))

theorem blockIterator_rest (r : Reader K V Λ) (lo hi : K) (prio : Nat) :
    (r.blockIterator fmt lo hi prio).rest = r.entries.filter (inRange lo hi) := by
  have hasc : Ascending (Block.contents (r.blocks fmt)) := r.ascending_blocks
  have hdrain := Cursor.drain_newWithEnd hasc (some lo) (some hi)
  rw [contents_blocks] at hdrain
  exact hdrain

end Reader

end Dtdb.Storage
