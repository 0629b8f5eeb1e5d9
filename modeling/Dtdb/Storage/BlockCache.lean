import Dtdb.Lib.Lru
import Dtdb.Storage.Compaction

/-! # The block cache

`BlockCache` spreads the decoded blocks of all SSTables over sixteen least-recently-used caches, by
the id of the table and the number of the block.
-/

namespace Dtdb.Storage

open Dtdb.Lib List Option

variable {K V : Type}

/-- Decoded blocks under `(sst id, block number)`. -/
structure BlockCache (K V : Type) where
  shards : List (Lru (Nat × Nat) (List (K × Option V)))

namespace BlockCache

def numShards : Nat := 16

/-- `none` where `LruCache::new` refuses a capacity of zero. -/
def new (capacity : Nat) : Option (BlockCache K V) :=
  let shardCapacity := (capacity + (numShards - 1)) / numShards
  if 0 < shardCapacity then some ⟨replicate numShards (Lru.new shardCapacity)⟩ else none

def getShard (c : BlockCache K V) (key : Nat × Nat) : Nat := (key.1 ^^^ key.2) % c.shards.length

def get (c : BlockCache K V) (key : Nat × Nat) : Option (List (K × Option V)) × BlockCache K V :=
  match c.shards[c.getShard key]? with
  | none => (none, c)
  | some shard =>
    let x := shard.get key
    (x.1, ⟨c.shards.set (c.getShard key) x.2⟩)

variable [ByteSize K] [ByteSize V]

def blockByteSize (block : List (K × Option V)) : Nat := (block.map entrySize).sum

def insert (c : BlockCache K V) (key : Nat × Nat) (block : List (K × Option V)) : BlockCache K V :=
  ⟨c.shards.modify (c.getShard key) fun shard => shard.insert key block (blockByteSize block)⟩

/-! ## What is cached -/

/-- Some shard holds `block` under `key`. -/
def Holds (c : BlockCache K V) (key : Nat × Nat) (block : List (K × Option V)) : Prop :=
  ∃ shard ∈ c.shards, ∃ e ∈ shard.entries, e.key = key ∧ e.value = block

omit [ByteSize K] [ByteSize V] in
theorem not_holds_new {capacity : Nat} {c : BlockCache K V} (h : new capacity = some c)
    (key : Nat × Nat) (block : List (K × Option V)) : ¬ c.Holds key block := by
  obtain ⟨-, h⟩ := ite_none_right_eq_some.1 h
  cases h
  rintro ⟨shard, hs, e, he, -⟩
  rw [eq_of_mem_replicate hs] at he
  cases he

omit [ByteSize K] [ByteSize V] in
theorem holds_of_get {c : BlockCache K V} {key : Nat × Nat} {block : List (K × Option V)}
    (h : (c.get key).1 = some block) : c.Holds key block := by
  unfold get at h
  split at h
  · cases h
  · next shard hs =>
    obtain ⟨e, he, hkey, hval⟩ := (shard.get_spec key).1 block h
    exact ⟨shard, mem_of_getElem? hs, e, he, hkey, hval⟩

omit [ByteSize K] [ByteSize V] in
theorem Holds.of_get {c : BlockCache K V} {key key' : Nat × Nat} {block : List (K × Option V)}
    (h : (c.get key).2.Holds key' block) : c.Holds key' block := by
  unfold get at h
  split at h
  · exact h
  · next shard hs =>
    obtain ⟨s, hmem, e, he, hval⟩ := h
    rcases mem_or_eq_of_mem_set hmem with hmem | rfl
    · exact ⟨s, hmem, e, he, hval⟩
    · exact ⟨shard, mem_of_getElem? hs, e, (shard.get_spec key).2 e he, hval⟩

theorem Holds.of_insert {c : BlockCache K V} {key key' : Nat × Nat}
    {block block' : List (K × Option V)} (h : (c.insert key block).Holds key' block') :
    (key' = key ∧ block' = block) ∨ c.Holds key' block' := by
  obtain ⟨s, hmem, e, he, rfl, rfl⟩ := h
  obtain ⟨i, hi⟩ := mem_iff_getElem?.1 hmem
  simp only [insert, getElem?_modify] at hi
  obtain ⟨shard, hs, rfl⟩ := map_eq_some_iff.1 hi
  split at he
  · rcases Lru.mem_insert he with h | ⟨-, he⟩
    · exact .inl h
    · exact .inr ⟨shard, mem_of_getElem? hs, e, he, rfl, rfl⟩
  · exact .inr ⟨shard, mem_of_getElem? hs, e, he, rfl, rfl⟩

end BlockCache

end Dtdb.Storage
