import Dtdb.Lib.Bytes
import Dtdb.Storage.BlockCache
import Dtdb.Storage.SstableFile

/-! # SSTable files byte by byte

`SstableWriter` writes blocks as they fill and ends the file with an index and a footer;
`SstableReader` finds the blocks through them.  The writer's invariant is `Wrote`; `Describes` says
that a reader has the blocks of a run. -/

namespace Dtdb.Storage.OnDisk

open Dtdb.Lib

variable {K V : Type}

def footerSize : Nat := 28

def magicNumber : Bytes := [68, 84, 68, 66, 95, 83, 83, 84]

structure IndexEntry (K : Type) where
  firstKey : K
  offset : Nat
  size : Nat
  checksum : UInt32

structure StatsBlock (K : Type) where
  numEntries : Nat
  numTombstones : Nat
  totalUncompressedBytes : Nat
  minKey : Option K
  maxKey : Option K

structure IndexBlock (K : Type) where
  entries : List (IndexEntry K)
  compression : CompressionType
  stats : StatsBlock K
  bloomFilter : Option Bloom
  layout : Bytes

/-- The serialisation and the compression, which round-trip, the hashes, and the size of a filter.
-/
structure Encoding (K V : Type) where
  encodeBlock : List (K × Option V) → Bytes
  decodeBlock : Bytes → Option (List (K × Option V))
  encodeIndex : IndexBlock K → Bytes
  decodeIndex : Bytes → Option (IndexBlock K)
  compress : Bytes → Bytes
  decompress : Bytes → Option Bytes
  xxh32 : Bytes → UInt32
  hash : K → Bloom.Digest
  filterBytes : Nat → Nat
  numHashes : Nat → Nat
  /-- `DbKey::Int(0)`, the last key of a file without entries. -/
  placeholder : K
  decodeBlock_encodeBlock : ∀ b, decodeBlock (encodeBlock b) = some b
  decodeIndex_encodeIndex : ∀ b, decodeIndex (encodeIndex b) = some b
  decompress_compress : ∀ bs, decompress (compress bs) = some bs
  filterBytes_pos : ∀ n, 0 < n → 0 < filterBytes n

def Encoding.blockBytes (enc : Encoding K V) (compression : CompressionType)
    (block : List (K × Option V)) : Bytes :=
  match compression with
  | .lz4 => enc.compress (enc.encodeBlock block)
  | .uncompressed => enc.encodeBlock block

def Encoding.rawBytes (enc : Encoding K V) (compression : CompressionType) (bytes : Bytes) :
    Option Bytes :=
  match compression with
  | .lz4 => enc.decompress bytes
  | .uncompressed => some bytes

/-! ## The writer -/

structure SstableWriter (K V : Type) where
  file : Bytes
  offset : Nat
  blockSizeLimit : Nat
  currentBlock : List (K × Option V)
  currentBlockUncompressedBytes : Nat
  index : List (IndexEntry K)
  compression : CompressionType
  numEntries : Nat
  numTombstones : Nat
  totalUncompressedBytes : Nat
  minKey : Option K
  maxKey : Option K
  bloomFilter : Option Bloom
  layout : Bytes

namespace SstableWriter

def create (enc : Encoding K V) (blockSizeLimit : Nat) (compression : CompressionType)
    (expectedEntries : Nat) (layout : Bytes) : SstableWriter K V where
  file := []
  offset := 0
  blockSizeLimit := blockSizeLimit
  currentBlock := []
  currentBlockUncompressedBytes := 0
  index := []
  compression := compression
  numEntries := 0
  numTombstones := 0
  totalUncompressedBytes := 0
  minKey := none
  maxKey := none
  bloomFilter :=
    if 0 < expectedEntries then
      some ⟨List.replicate (8 * enc.filterBytes expectedEntries) false,
        min (enc.numHashes expectedEntries) maxNumHashes⟩
    else none
  layout := layout

/-- The last index entry gets the extent and the checksum of its block. -/
def sealLast (size : Nat) (checksum : UInt32) (index : List (IndexEntry K)) : List (IndexEntry K) :=
  match index.getLast? with
  | none => index
  | some e => index.dropLast ++ [{ e with size := size, checksum := checksum }]

def flushBlock (enc : Encoding K V) (w : SstableWriter K V) : SstableWriter K V :=
  match w.currentBlock.getLast? with
  | none => w
  | some last =>
    let bytes := enc.blockBytes w.compression w.currentBlock
    { w with
      maxKey := some last.1
      file := w.file ++ bytes
      index := sealLast bytes.length (enc.xxh32 bytes) w.index
      offset := w.offset + bytes.length
      currentBlock := []
      currentBlockUncompressedBytes := 0 }

variable [ByteSize K] [ByteSize V]

/-- The part of `append` before a full block is flushed. -/
def push (enc : Encoding K V) (w : SstableWriter K V) (x : K × Option V) : SstableWriter K V :=
  { w with
    bloomFilter := w.bloomFilter.map fun filter => filter.insert (enc.hash x.1)
    numEntries := w.numEntries + 1
    numTombstones := if x.2.isNone then w.numTombstones + 1 else w.numTombstones
    totalUncompressedBytes := w.totalUncompressedBytes + entrySize x
    minKey := w.minKey.or (some x.1)
    index := if w.currentBlock.isEmpty then w.index ++ [⟨x.1, w.offset, 0, 0⟩] else w.index
    currentBlock := w.currentBlock ++ [x]
    currentBlockUncompressedBytes := w.currentBlockUncompressedBytes + entrySize x }

def append (enc : Encoding K V) (w : SstableWriter K V) (x : K × Option V) : SstableWriter K V :=
  let w := w.push enc x
  if w.blockSizeLimit ≤ w.currentBlockUncompressedBytes then w.flushBlock enc else w

def appendAll (enc : Encoding K V) (w : SstableWriter K V) (es : List (K × Option V)) :
    SstableWriter K V :=
  es.foldl (append enc) w

omit [ByteSize K] [ByteSize V] in
def indexBlock (w : SstableWriter K V) : IndexBlock K where
  entries := w.index
  compression := w.compression
  stats := ⟨w.numEntries, w.numTombstones, w.totalUncompressedBytes, w.minKey, w.maxKey⟩
  bloomFilter := w.bloomFilter
  layout := w.layout

def footer (enc : Encoding K V) (offset : Nat) (index : Bytes) : Bytes :=
  leBytes 8 offset ++ leBytes 8 index.length ++ leBytes 4 (enc.xxh32 index).toNat ++ magicNumber

def finish (enc : Encoding K V) (w : SstableWriter K V) : Bytes :=
  let w := w.flushBlock enc
  let index := enc.encodeIndex w.indexBlock
  w.file ++ index ++ footer enc w.offset index

end SstableWriter

/-! ## The reader -/

inductive SstableError where
  | fileTooSmall
  | invalidMagic
  | footerOutsideFile (fileLen indexOffset indexLen : Nat)
  | indexChecksum (expected actual : Nat)
  | indexSerialization
  | maxKeyMissing
  | blockOutOfRange (idx : Nat)
  | blockOutsideFile (id idx offset size fileSize : Nat)
  | blockChecksum (id idx : Nat) (expected actual : UInt32)
  | compression
  | blockSerialization
deriving DecidableEq

structure SstableReader (K : Type) where
  file : Bytes
  index : List (IndexEntry K)
  compression : CompressionType
  id : Nat
  lastKey : K
  stats : StatsBlock K
  bloomFilter : Option Bloom
  fileSize : Nat
  layout : Bytes

namespace SstableReader

/-- `SstableReader::open`. -/
def openFile (enc : Encoding K V) (file : Bytes) (id : Nat) :
    Except SstableError (SstableReader K) :=
  if file.length < footerSize then .error .fileTooSmall
  else
    let footerStart := file.length - footerSize
    let footer := file.drop footerStart
    let indexOffset := ofLeBytes (footer.take 8)
    let indexLen := ofLeBytes ((footer.drop 8).take 8)
    let indexChecksum := ofLeBytes ((footer.drop 16).take 4)
    if footer.drop 20 ≠ magicNumber then .error .invalidMagic
    else if footerStart < indexOffset ∨ footerStart - indexOffset < indexLen then
      .error (.footerOutsideFile file.length indexOffset indexLen)
    else
      let indexBytes := (file.drop indexOffset).take indexLen
      if (enc.xxh32 indexBytes).toNat ≠ indexChecksum then
        .error (.indexChecksum indexChecksum (enc.xxh32 indexBytes).toNat)
      else match enc.decodeIndex indexBytes with
        | none => .error .indexSerialization
        | some block =>
          match if block.entries.isEmpty then some enc.placeholder else block.stats.maxKey with
          | none => .error .maxKeyMissing
          | some lastKey => .ok
            { file := file
              index := block.entries
              compression := block.compression
              id := id
              lastKey := lastKey
              stats := block.stats
              bloomFilter := block.bloomFilter
              fileSize := file.length
              layout := block.layout }

def firstKey (r : SstableReader K) : Option K := r.index.head?.map IndexEntry.firstKey

/-- `read_block` past the cache: the bytes of the extent, checked and decoded. -/
def loadBlock (enc : Encoding K V) (r : SstableReader K) (idx : Nat) :
    Except SstableError (List (K × Option V)) :=
  match r.index[idx]? with
  | none => .error (.blockOutOfRange idx)
  | some entry =>
    if r.fileSize < entry.offset ∨ r.fileSize - entry.offset < entry.size then
      .error (.blockOutsideFile r.id idx entry.offset entry.size r.fileSize)
    else
      let bytes := (r.file.drop entry.offset).take entry.size
      -- a zero checksum stands for none
      if entry.checksum ≠ 0 ∧ enc.xxh32 bytes ≠ entry.checksum then
        .error (.blockChecksum r.id idx entry.checksum (enc.xxh32 bytes))
      else
        match enc.rawBytes r.compression bytes with
        | none => .error .compression
        | some raw => match enc.decodeBlock raw with
          | none => .error .blockSerialization
          | some block => .ok block

variable [ByteSize K] [ByteSize V]

def readBlock (enc : Encoding K V) (r : SstableReader K) (cache : Option (BlockCache K V))
    (idx : Nat) : Except SstableError (List (K × Option V)) × Option (BlockCache K V) :=
  let hit := cache.map fun c => c.get (r.id, idx)
  let cache := hit.map Prod.snd
  match hit.bind Prod.fst with
  | some block => (.ok block, cache)
  | none => match r.loadBlock enc idx with
    | .error e => (.error e, cache)
    | .ok block => (.ok block, cache.map fun c => c.insert (r.id, idx) block)

variable [LinearOrder K]

omit [ByteSize K] in
/-- The last block that starts at or before `k`. -/
def blockIdx (r : SstableReader K) (k : K) : Option Nat :=
  match binarySearchBy (fun e : IndexEntry K => compare e.firstKey k) r.index with
  | .ok i => some i
  | .error 0 => none
  | .error (i + 1) => some i

def get (enc : Encoding K V) (r : SstableReader K) (cache : Option (BlockCache K V)) (k : K) :
    Except SstableError (Option (Option V)) × Option (BlockCache K V) :=
  if r.index.isEmpty then (.ok none, cache)
  else if r.bloomFilter.any fun b => !b.contains (enc.hash k) then (.ok none, cache)
  else match r.blockIdx k with
    | none => (.ok none, cache)
    | some i => match r.readBlock enc cache i with
      | (.error e, cache) => (.error e, cache)
      | (.ok block, cache) => (.ok (searchEntries block k), cache)

/-- The scan loop from block `i` on. -/
def scanFrom (enc : Encoding K V) (r : SstableReader K) (lo hi : K) :
    List (IndexEntry K) → Nat → Option (BlockCache K V) → List (K × Option V) →
      Except SstableError (List (K × Option V)) × Option (BlockCache K V)
  | [], _, cache, results => (.ok results, cache)
  | entry :: entries, i, cache, results =>
    if hi < entry.firstKey then (.ok results, cache)
    else match r.readBlock enc cache i with
      | (.error e, cache) => (.error e, cache)
      | (.ok block, cache) =>
        scanFrom enc r lo hi entries (i + 1) cache (results ++ block.filter (inRange lo hi))

def scanRaw (enc : Encoding K V) (r : SstableReader K) (cache : Option (BlockCache K V))
    (lo hi : K) : Except SstableError (List (K × Option V)) × Option (BlockCache K V) :=
  if r.index.isEmpty then (.ok [], cache)
  else
    let start := (r.blockIdx lo).getD 0
    r.scanFrom enc lo hi (r.index.drop start) start cache []

end SstableReader

end Dtdb.Storage.OnDisk
