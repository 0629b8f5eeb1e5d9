import Mathlib.Data.UInt
import Dtdb.Lib.Wire
import Dtdb.Storage.SstableBytes

/-! # What an SSTable file was written with is read back

A reader that has the blocks of a run answers as the run does, whatever its cache holds; after any
appends the file holds the blocks written so far and the index describes them. -/

namespace Dtdb.Storage.OnDisk

open Dtdb.Lib List Option

variable {K V : Type}

/-! ## Reading the blocks of a run -/

/-- The reader's index names the blocks, and each is loaded from the file. -/
structure Describes (enc : Encoding K V) (r : SstableReader K) (bs : List (Block K (Option V))) :
    Prop where
  index : r.index.map IndexEntry.firstKey = bs.map Block.firstKey
  load : ∀ i b, bs[i]? = some b → r.loadBlock enc i = .ok b.entries

/-- What the cache holds under the reader's id are its blocks. -/
def Cached (r : SstableReader K) (bs : List (Block K (Option V)))
    (cache : Option (BlockCache K V)) : Prop :=
  ∀ c ∈ cache, ∀ i block, c.Holds (r.id, i) block → ∃ b, bs[i]? = some b ∧ block = b.entries

namespace SstableReader

variable {enc : Encoding K V} {r : SstableReader K} {bs : List (Block K (Option V))}
  {cache : Option (BlockCache K V)}

section

variable [ByteSize K] [ByteSize V]

theorem readBlock_spec (hr : Describes enc r bs) (hc : Cached r bs cache) {i : Nat}
    {b : Block K (Option V)} (hb : bs[i]? = some b) :
    ∃ cache', r.readBlock enc cache i = (.ok b.entries, cache') ∧ Cached r bs cache' := by
  cases cache with
  | none =>
    refine ⟨none, ?_, nofun⟩
    simp [readBlock, hr.load i b hb]
  | some c =>
    -- looking a block up adds nothing to what is held
    have hget : ∀ j block, (c.get (r.id, i)).2.Holds (r.id, j) block →
        ∃ b, bs[j]? = some b ∧ block = b.entries :=
      fun j block h => hc c rfl j block h.of_get
    cases hhit : (c.get (r.id, i)).1 with
    | some block =>
      obtain ⟨b', hb', rfl⟩ := hc c rfl i block (BlockCache.holds_of_get hhit)
      rw [hb] at hb'
      cases hb'
      refine ⟨some (c.get (r.id, i)).2, by simp [readBlock, hhit], ?_⟩
      rintro c' ⟨rfl⟩
      exact hget
    | none =>
      refine ⟨some ((c.get (r.id, i)).2.insert (r.id, i) b.entries), ?_, ?_⟩
      · simp [readBlock, hhit, hr.load i b hb]
      · rintro c' ⟨rfl⟩ j block h
        rcases h.of_insert with ⟨hkey, rfl⟩ | h
        · cases hkey
          exact ⟨b, hb, rfl⟩
        · exact hget j block h

end

theorem isEmpty_index (hr : Describes enc r bs) : r.index.isEmpty = bs.isEmpty := by
  have := congrArg isEmpty hr.index
  simpa using this

theorem firstKey_eq (hr : Describes enc r bs) {es : List (K × Option V)}
    (hes : Block.contents bs = es) :
    r.firstKey = es.head?.map Prod.fst := by
  have hhead := congrArg head? hr.index
  rw [head?_map] at hhead
  rw [firstKey, hhead, ← hes]
  cases bs with
  | nil => rfl
  | cons b bs =>
    obtain ⟨a, l, hb⟩ := b.exists_entries_eq
    simp [hb]

variable [LinearOrder K]

theorem blockIdx_eq (hr : Describes enc r bs) (k : K) : r.blockIdx k = blockIndex bs k := by
  have hsearch : binarySearchBy (fun e : IndexEntry K => compare e.firstKey k) r.index
      = binarySearchBy (fun b : Block K (Option V) => compare b.firstKey k) bs := by
    rw [← binarySearchBy_map (fun j => compare j k), hr.index, binarySearchBy_map]
  unfold blockIdx
  exact hsearch ▸ rfl

variable [ByteSize K] [ByteSize V]

theorem get_spec (hr : Describes enc r bs) (hasc : Ascending (Block.contents bs))
    (hc : Cached r bs cache) (k : K) :
    ∃ cache', r.get enc cache k
        = (.ok ((⟨bs, r.bloomFilter⟩ : Storage.SstableReader K V).get enc.hash k), cache') ∧
      Cached r bs cache' := by
  unfold get Storage.SstableReader.get
  rw [isEmpty_index hr, blockIdx_eq hr]
  split
  · exact ⟨cache, rfl, hc⟩
  split
  · exact ⟨cache, rfl, hc⟩
  unfold findInBlocks
  cases hi : blockIndex bs k with
  | none => exact ⟨cache, rfl, hc⟩
  | some i =>
    obtain ⟨pre, b, post, hbs, hlen, -⟩ := blockIndex_some hasc hi
    have hb : bs[i]? = some b := by rw [hbs, ← hlen]; simp
    obtain ⟨cache', hread, hc'⟩ := readBlock_spec hr hc hb
    refine ⟨cache', ?_, hc'⟩
    simp [hread, hb]

theorem scanFrom_spec (hr : Describes enc r bs) (hc : Cached r bs cache) (lo hi : K) {i : Nat}
    {entries : List (IndexEntry K)} {suffix : List (Block K (Option V))}
    (hsuffix : bs.drop i = suffix)
    (hkeys : entries.map IndexEntry.firstKey = suffix.map Block.firstKey)
    (results : List (K × Option V)) :
    ∃ cache', r.scanFrom enc lo hi entries i cache results
        = (.ok (results ++ (suffix.takeWhile fun b => decide (b.firstKey ≤ hi)).flatMap
            fun b => b.entries.filter (inRange lo hi)), cache') ∧
      Cached r bs cache' := by
  induction suffix generalizing i entries cache results with
  | nil =>
    rw [map_nil, map_eq_nil_iff] at hkeys
    subst hkeys
    exact ⟨cache, by simp [scanFrom], hc⟩
  | cons b suffix ih =>
    obtain ⟨entry, entries, rfl, hkey, hkeys⟩ := map_eq_cons_iff.1 hkeys
    rw [scanFrom, hkey]
    by_cases hpast : hi < b.firstKey
    · exact ⟨cache, by simp [hpast], hc⟩
    · have hb : bs[i]? = some b := by rw [← head?_drop, hsuffix]; rfl
      obtain ⟨cache₁, hread, hc₁⟩ := readBlock_spec hr hc hb
      obtain ⟨cache', hrest, hc'⟩ := ih hc₁ (i := i + 1)
        (by rw [← drop_drop, hsuffix]; rfl) hkeys (results ++ b.entries.filter (inRange lo hi))
      refine ⟨cache', ?_, hc'⟩
      rw [hread]
      dsimp only
      rw [hrest]
      simp [not_lt.1 hpast]

theorem scanRaw_spec (hr : Describes enc r bs) (hc : Cached r bs cache) (lo hi : K) :
    ∃ cache', r.scanRaw enc cache lo hi
        = (.ok ((⟨bs, r.bloomFilter⟩ : Storage.SstableReader K V).scanRaw lo hi), cache') ∧
      Cached r bs cache' := by
  unfold scanRaw Storage.SstableReader.scanRaw
  rw [isEmpty_index hr, blockIdx_eq hr]
  split
  · exact ⟨cache, rfl, hc⟩
  · have hkeys : (r.index.drop ((blockIndex bs lo).getD 0)).map IndexEntry.firstKey
        = (bs.drop ((blockIndex bs lo).getD 0)).map Block.firstKey := by
      rw [map_drop, map_drop, hr.index]
    obtain ⟨cache', hscan, hc'⟩ := scanFrom_spec hr hc lo hi rfl hkeys []
    exact ⟨cache', by rw [hscan]; rfl, hc'⟩

end SstableReader

/-! ## Writing the blocks of a run -/

def blocksBytes (enc : Encoding K V) (comp : CompressionType) (bs : List (Block K (Option V))) :
    Bytes :=
  bs.flatMap fun b => enc.blockBytes comp b.entries

def indexOf (enc : Encoding K V) (comp : CompressionType) :
    Nat → List (Block K (Option V)) → List (IndexEntry K)
  | _, [] => []
  | offset, b :: bs =>
    let bytes := enc.blockBytes comp b.entries
    ⟨b.firstKey, offset, bytes.length, enc.xxh32 bytes⟩ :: indexOf enc comp (offset + bytes.length) bs

variable {enc : Encoding K V} {comp : CompressionType}

theorem indexOf_append (offset : Nat) (as bs : List (Block K (Option V))) :
    indexOf enc comp offset (as ++ bs) = indexOf enc comp offset as
      ++ indexOf enc comp (offset + (blocksBytes enc comp as).length) bs := by
  induction as generalizing offset with
  | nil => rfl
  | cons b as ih =>
    simp only [cons_append, indexOf, ih, blocksBytes, flatMap_cons, length_append,
      Nat.add_assoc]

theorem map_firstKey_indexOf (offset : Nat) (bs : List (Block K (Option V))) :
    (indexOf enc comp offset bs).map IndexEntry.firstKey = bs.map Block.firstKey := by
  induction bs generalizing offset with
  | nil => rfl
  | cons b bs ih => simp only [indexOf, map_cons, ih]

/-- After the entries `es`: the blocks written, and the block under way. -/
structure Wrote (enc : Encoding K V) (comp : CompressionType) (w : SstableWriter K V)
    (es : List (K × Option V)) (bs : List (Block K (Option V))) : Prop where
  compression : w.compression = comp
  entries : es = Block.contents bs ++ w.currentBlock
  file : w.file = blocksBytes enc comp bs
  offset : w.offset = w.file.length
  index : w.index = indexOf enc comp 0 bs
    ++ (w.currentBlock.head?.map fun x => ⟨x.1, w.offset, 0, 0⟩).toList
  maxKey : w.maxKey = (Block.contents bs).getLast?.map Prod.fst

namespace Wrote

variable {w : SstableWriter K V} {es : List (K × Option V)} {bs : List (Block K (Option V))}

theorem flushBlock (h : Wrote enc comp w es bs) :
    ∃ bs', Wrote enc comp (w.flushBlock enc) es bs' ∧ (w.flushBlock enc).currentBlock = [] := by
  unfold SstableWriter.flushBlock
  cases hlast : w.currentBlock.getLast? with
  | none => exact ⟨bs, h, getLast?_eq_none_iff.1 hlast⟩
  | some last =>
    have hne : w.currentBlock ≠ [] := by
      rintro hnil
      simp [hnil] at hlast
    have hcontents : Block.contents (bs ++ [⟨w.currentBlock, hne⟩]) = es := by
      rw [h.entries]
      simp
    refine ⟨bs ++ [⟨w.currentBlock, hne⟩], ⟨h.compression, ?_, ?_, ?_, ?_, ?_⟩, rfl⟩
    · rw [hcontents, append_nil]
    · simp [h.file, blocksBytes, h.compression]
    · simp [h.offset]
    · have hhead : w.currentBlock.head? = some (w.currentBlock.head hne) :=
        head?_eq_some_head hne
      dsimp only
      rw [h.index, hhead, map_some, toList_some, indexOf_append, ← h.file, Nat.zero_add, ← h.offset,
        h.compression]
      simp [SstableWriter.sealLast, indexOf, Block.firstKey]
    · rw [hcontents, h.entries, getLast?_append, hlast]
      rfl

variable [ByteSize K] [ByteSize V]

theorem push (h : Wrote enc comp w es bs) (x : K × Option V) :
    Wrote enc comp (w.push enc x) (es ++ [x]) bs := by
  refine ⟨h.compression, ?_, h.file, h.offset, ?_, h.maxKey⟩
  · rw [h.entries, append_assoc]
    rfl
  · simp [SstableWriter.push, h.index]
    cases hcur : w.currentBlock with
    | nil => simp
    | cons y l => simp

theorem append (h : Wrote enc comp w es bs) (x : K × Option V) :
    ∃ bs', Wrote enc comp (w.append enc x) (es ++ [x]) bs' := by
  simp only [SstableWriter.append]
  split
  · obtain ⟨bs', h', -⟩ := (h.push x).flushBlock
    exact ⟨bs', h'⟩
  · exact ⟨bs, h.push x⟩

theorem appendAll (h : Wrote enc comp w es bs) (new : List (K × Option V)) :
    ∃ bs', Wrote enc comp (w.appendAll enc new) (es ++ new) bs' := by
  induction new generalizing w es bs with
  | nil => exact ⟨bs, by rwa [append_nil]⟩
  | cons x new ih =>
    obtain ⟨bs₁, h₁⟩ := h.append x
    rw [append_cons]
    exact ih h₁

end Wrote

/-! ## The filter -/

namespace SstableWriter

theorem bloomFilter_flushBlock (w : SstableWriter K V) :
    (w.flushBlock enc).bloomFilter = w.bloomFilter := by
  unfold flushBlock
  split <;> rfl

variable [ByteSize K] [ByteSize V]

theorem bloomFilter_appendAll (w : SstableWriter K V) (es : List (K × Option V)) :
    (w.appendAll enc es).bloomFilter
      = w.bloomFilter.map fun b => (es.map fun x => enc.hash x.1).foldl Bloom.insert b := by
  induction es generalizing w with
  | nil => exact map_id'.symm
  | cons x es ih =>
    rw [appendAll, foldl_cons, ← appendAll, ih]
    simp only [append]
    split
    · rw [bloomFilter_flushBlock]
      exact Option.map_map ..
    · exact Option.map_map ..

theorem contains_bloomFilter {limit expected : Nat} {layout : Bytes} {es : List (K × Option V)}
    {b : Bloom} (hb : ((create enc limit comp expected layout).appendAll enc es).bloomFilter = some b)
    {x : K × Option V} (hx : x ∈ es) : b.contains (enc.hash x.1) = true := by
  rw [bloomFilter_appendAll] at hb
  obtain ⟨b₀, hb₀, rfl⟩ := map_eq_some_iff.1 hb
  obtain ⟨hpos, hb₀⟩ := ite_none_right_eq_some.1 hb₀
  cases hb₀
  refine Bloom.contains_foldl_insert ?_ (mem_map_of_mem hx)
  have := enc.filterBytes_pos _ hpos
  simp only [length_replicate]
  omega

end SstableWriter

/-! ## Opening what was written -/

theorem Encoding.rawBytes_blockBytes (enc : Encoding K V) (comp : CompressionType)
    (block : List (K × Option V)) :
    enc.rawBytes comp (enc.blockBytes comp block) = some (enc.encodeBlock block) := by
  cases comp with
  | lz4 => exact enc.decompress_compress _
  | uncompressed => rfl

theorem describes {r : SstableReader K} {bs : List (Block K (Option V))}
    (hfile : blocksBytes enc r.compression bs <+: r.file) (hsize : r.fileSize = r.file.length)
    (hindex : r.index = indexOf enc r.compression 0 bs) : Describes enc r bs where
  index := by rw [hindex, map_firstKey_indexOf]
  load := by
    intro i b hb
    obtain ⟨rest, hfile⟩ := hfile
    obtain ⟨pre, post, rfl, rfl⟩ := split_of_getElem? hb
    set bytes := enc.blockBytes r.compression b.entries with hbytes
    have hentry : r.index[pre.length]?
        = some ⟨b.firstKey, (blocksBytes enc r.compression pre).length, bytes.length,
            enc.xxh32 bytes⟩ := by
      have hkeys : (indexOf enc r.compression 0 pre).map IndexEntry.firstKey
          = pre.map Block.firstKey := map_firstKey_indexOf 0 pre
      have hlen : (indexOf enc r.compression 0 pre).length = pre.length := by
        simpa using congrArg length hkeys
      rw [hindex, indexOf_append, getElem?_append_right hlen.le, hlen, Nat.sub_self, indexOf,
        Nat.zero_add]
      rfl
    have hsplit : r.file = blocksBytes enc r.compression pre
        ++ (bytes ++ (blocksBytes enc r.compression post ++ rest)) := by
      rw [← hfile]
      simp [blocksBytes, hbytes]
    have hextent : (r.file.drop (blocksBytes enc r.compression pre).length).take bytes.length
        = bytes := by
      rw [hsplit, drop_left, take_left]
    have hfits : (blocksBytes enc r.compression pre).length + bytes.length ≤ r.fileSize := by
      rw [hsize, hsplit]
      simp only [length_append]
      omega
    unfold SstableReader.loadBlock
    simp only [hentry, hextent]
    rw [if_neg (by omega), enc.rawBytes_blockBytes]
    simp [enc.decodeBlock_encodeBlock]

theorem openFile_footer (data : Bytes) (block : IndexBlock K) (id : Nat) {file : Bytes}
    (hfile : data ++ enc.encodeIndex block
      ++ SstableWriter.footer enc data.length (enc.encodeIndex block) = file)
    (hlen : file.length < 2 ^ 64)
    {lastKey : K} (hlast : (if block.entries.isEmpty then some enc.placeholder
      else block.stats.maxKey) = some lastKey) :
    SstableReader.openFile enc file id = .ok
      { file := file
        index := block.entries
        compression := block.compression
        id := id
        lastKey := lastKey
        stats := block.stats
        bloomFilter := block.bloomFilter
        fileSize := file.length
        layout := block.layout } := by
  subst hfile
  set index := enc.encodeIndex block with hindex
  set footer := SstableWriter.footer enc data.length index with hfooter
  have hfoot : footer.length = footerSize := by
    simp [hfooter, SstableWriter.footer, footerSize, magicNumber]
  have htotal : (data ++ index ++ footer).length = data.length + index.length + footerSize := by
    rw [length_append, length_append, hfoot]
  have hdrop : (data ++ index ++ footer).drop ((data ++ index ++ footer).length - footerSize)
      = footer := by
    rw [htotal, Nat.add_sub_cancel, ← length_append, drop_left]
  have hoffset : ofLeBytes (footer.take 8) = data.length := by
    have htake : footer.take 8 = leBytes 8 data.length := by
      simp [hfooter, SstableWriter.footer]
    rw [htake, ofLeBytes_leBytes_of_lt (by omega)]
  have hlength : ofLeBytes ((footer.drop 8).take 8) = index.length := by
    have htake : (footer.drop 8).take 8 = leBytes 8 index.length := by
      simp [hfooter, SstableWriter.footer]
    rw [htake, ofLeBytes_leBytes_of_lt (by omega)]
  have hsum : ofLeBytes ((footer.drop 16).take 4) = (enc.xxh32 index).toNat := by
    have htake : (footer.drop 16).take 4 = leBytes 4 (enc.xxh32 index).toNat := by
      rw [hfooter, SstableWriter.footer, append_assoc, drop_left' (by simp),
        take_left' (by simp)]
    rw [htake, ofLeBytes_leBytes_of_lt (UInt32.toNat_lt _)]
  have hmagic : footer.drop 20 = magicNumber := drop_left' (by simp)
  have hbytes : ((data ++ index ++ footer).drop data.length).take index.length = index := by
    rw [append_assoc, drop_left, take_left]
  unfold SstableReader.openFile
  rw [if_neg (by omega)]
  simp only [hdrop, hoffset, hlength, hsum, hmagic, hbytes]
  rw [if_neg (by simp), if_neg (by omega), if_neg (by simp), enc.decodeIndex_encodeIndex]
  simp only [hlast]

/-- **What finish wrote opens** as a reader of the blocks. -/
theorem openFile_finish [ByteSize K] [ByteSize V] (limit expected : Nat) (layout : Bytes)
    (es : List (K × Option V)) (id : Nat) {w₀ : SstableWriter K V}
    (hw : (SstableWriter.create enc limit comp expected layout).appendAll enc es = w₀)
    (hlen : (w₀.finish enc).length < 2 ^ 64) :
    ∃ r bs, SstableReader.openFile enc (w₀.finish enc) id = .ok r ∧
      r.id = id ∧ Describes enc r bs ∧ Block.contents bs = es ∧ r.bloomFilter = w₀.bloomFilter ∧
      ∀ x, es.getLast? = some x → r.lastKey = x.1 := by
  have hcreate : Wrote enc comp (.create enc limit comp expected layout) [] [] :=
    ⟨rfl, rfl, rfl, rfl, rfl, rfl⟩
  obtain ⟨_, hall⟩ := hcreate.appendAll es
  obtain ⟨bs, h, hcur⟩ := hall.flushBlock
  rw [hw] at h hcur
  have hfilter : (w₀.flushBlock enc).bloomFilter = w₀.bloomFilter :=
    SstableWriter.bloomFilter_flushBlock _
  set w := w₀.flushBlock enc
  have hes : Block.contents bs = es := by
    rw [← nil_append es, h.entries, hcur, append_nil]
  have hindex : w.index = indexOf enc comp 0 bs := by
    rw [h.index, hcur]
    exact append_nil _
  obtain ⟨lastKey, hlast, hends⟩ : ∃ lastKey, (if w.index.isEmpty then some enc.placeholder
      else w.maxKey) = some lastKey ∧ ∀ x, es.getLast? = some x → lastKey = x.1 := by
    rw [h.maxKey, hes, hindex]
    cases bs with
    | nil => exact ⟨enc.placeholder, rfl, by simp [← hes]⟩
    | cons b bs =>
      have hne : es ≠ [] := by
        rw [← hes]
        exact append_ne_nil_of_left_ne_nil b.nonempty _
      obtain ⟨x, hx⟩ : ∃ x, es.getLast? = some x := ⟨_, getLast?_eq_some_getLast hne⟩
      refine ⟨x.1, by simp [indexOf, hx], fun y hy => ?_⟩
      rw [hx] at hy
      cases hy
      rfl
  have hopen := openFile_footer w.file w.indexBlock id (by rw [← h.offset]; rfl) hlen hlast
  refine ⟨_, bs, hopen, rfl, describes ?_ rfl ?_, hes, hfilter, hends⟩
  · show blocksBytes enc w.compression bs <+: w.file ++ _ ++ _
    rw [h.file, h.compression, append_assoc]
    exact prefix_append ..
  · show w.index = indexOf enc w.compression 0 bs
    rw [hindex, h.compression]

/-! ## Reading through a cache -/

/-- The reader's own calls, and other readers' uses of the cache. -/
inductive Call (K V : Type) where
  | get (k : K)
  | scanRaw (lo hi : K)
  | elsewhere (id idx : Nat) (block : List (K × Option V))

inductive Answer (K V : Type) where
  | entry (e : Option (Option V))
  | entries (es : List (K × Option V))
  | unit

def answer [LinearOrder K] (es : List (K × Option V)) : Call K V → Answer K V
  | .get k => .entry (es.lookup k)
  | .scanRaw lo hi => .entries (es.filter (inRange lo hi))
  | .elsewhere .. => .unit

namespace SstableReader

variable [LinearOrder K] [ByteSize K] [ByteSize V]

def call (enc : Encoding K V) (r : SstableReader K) (cache : Option (BlockCache K V)) :
    Call K V → Except SstableError (Answer K V) × Option (BlockCache K V)
  | .get k => let x := r.get enc cache k; (x.1.map .entry, x.2)
  | .scanRaw lo hi => let x := r.scanRaw enc cache lo hi; (x.1.map .entries, x.2)
  | .elsewhere id idx block =>
    (.ok .unit, cache.map fun c => (c.get (id, idx)).2.insert (id, idx) block)

def calls (enc : Encoding K V) (r : SstableReader K) :
    Option (BlockCache K V) → List (Call K V) → List (Except SstableError (Answer K V))
  | _, [] => []
  | cache, c :: cs => let x := r.call enc cache c; x.1 :: calls enc r x.2 cs

variable {enc : Encoding K V} {r : SstableReader K} {bs : List (Block K (Option V))}
  {es : List (K × Option V)} {cache : Option (BlockCache K V)}

/-- What holds between calls of a reader of `es`. -/
structure Serves (enc : Encoding K V) (r : SstableReader K) (bs : List (Block K (Option V)))
    (es : List (K × Option V)) : Prop where
  describes : Describes enc r bs
  contents : Block.contents bs = es
  ascending : Ascending es
  filter : ∀ b, r.bloomFilter = some b → ∀ x ∈ es, b.contains (enc.hash x.1) = true

theorem call_spec (h : Serves enc r bs es) (hc : Cached r bs cache) (c : Call K V)
    (hid : ∀ id idx block, c = .elsewhere id idx block → id ≠ r.id) :
    ∃ cache', r.call enc cache c = (.ok (answer es c), cache') ∧ Cached r bs cache' := by
  have hasc : Ascending (Block.contents bs) := h.contents.symm ▸ h.ascending
  cases c with
  | get k =>
    obtain ⟨cache', hget, hc'⟩ := get_spec h.describes hasc hc k
    refine ⟨cache', ?_, hc'⟩
    have hlookup : (⟨bs, r.bloomFilter⟩ : Storage.SstableReader K V).get enc.hash k
        = (Block.contents bs).lookup k :=
      Storage.SstableReader.get_eq hasc (fun b hb x hx => h.filter b hb x (h.contents ▸ hx)) k
    simp [call, hget, hlookup, h.contents, answer, Except.map]
  | scanRaw lo hi =>
    obtain ⟨cache', hscan, hc'⟩ := scanRaw_spec h.describes hc lo hi
    refine ⟨cache', ?_, hc'⟩
    have hfilter := Storage.SstableReader.scanRaw_eq (f := ⟨bs, r.bloomFilter⟩) hasc lo hi
    simp [call, hscan, hfilter, h.contents, answer, Except.map]
  | elsewhere id idx block =>
    refine ⟨_, rfl, ?_⟩
    intro c' hc' i block' hholds
    obtain ⟨c, rfl, rfl⟩ := map_eq_some_iff.1 hc'
    rcases hholds.of_insert with ⟨hkey, -⟩ | hholds
    · exact absurd (congrArg Prod.fst hkey).symm (hid id idx block rfl)
    · exact hc c rfl i block' hholds.of_get

theorem calls_eq (h : Serves enc r bs es) (hc : Cached r bs cache) (cs : List (Call K V))
    (hid : ∀ id idx block, .elsewhere id idx block ∈ cs → id ≠ r.id) :
    r.calls enc cache cs = cs.map fun c => .ok (answer es c) := by
  induction cs generalizing cache with
  | nil => rfl
  | cons c cs ih =>
    obtain ⟨cache', hcall, hc'⟩ := call_spec h hc c
      fun id idx block hc => hid id idx block (by rw [hc]; exact mem_cons_self)
    rw [calls, hcall, map_cons]
    rw [ih hc' fun id idx block hm => hid id idx block (mem_cons_of_mem c hm)]

end SstableReader

/-- **Round trip.**  The file that was written from ascending entries opens, its ends are theirs, and
it answers every sequence of calls as they do, without a cache or with any that holds nothing under
the file's id yet. -/
theorem written_file_answers [LinearOrder K] [ByteSize K] [ByteSize V] (enc : Encoding K V)
    (es : List (K × Option V)) (hasc : Ascending es) (limit : Nat) (comp : CompressionType)
    (expected : Nat) (layout : Bytes) (id : Nat)
    (hlen : (((SstableWriter.create enc limit comp expected layout).appendAll enc es).finish
      enc).length < 2 ^ 64) :
    ∃ r, SstableReader.openFile enc
        (((SstableWriter.create enc limit comp expected layout).appendAll enc es).finish enc) id
          = .ok r ∧
      r.firstKey = es.head?.map Prod.fst ∧ (∀ x, es.getLast? = some x → r.lastKey = x.1) ∧
      ∀ cache : Option (BlockCache K V), (∀ c ∈ cache, ∀ idx block, ¬ c.Holds (id, idx) block) →
        ∀ cs : List (Call K V), (∀ i idx block, .elsewhere i idx block ∈ cs → i ≠ id) →
          r.calls enc cache cs = cs.map fun c => .ok (answer es c) := by
  obtain ⟨r, bs, hopen, rfl, hdesc, hes, hfilter, hlast⟩ :=
    openFile_finish limit expected layout es id rfl hlen
  refine ⟨r, hopen, SstableReader.firstKey_eq hdesc hes, hlast, fun cache hcache cs hid => ?_⟩
  have hserves : SstableReader.Serves enc r bs es :=
    ⟨hdesc, hes, hasc, fun b hb x hx => SstableWriter.contains_bloomFilter (hfilter ▸ hb) hx⟩
  refine SstableReader.calls_eq hserves (fun c hc idx block hholds => ?_) cs hid
  exact absurd hholds (hcache c hc idx block)

section

local instance smallNumber : ByteSize Nat := ⟨fun _ => 1⟩

def wireIndex : Wire (IndexBlock Nat) :=
  let entry : Wire (IndexEntry Nat) :=
    (Wire.nat.pair (Wire.nat.pair (Wire.nat.pair Wire.nat))).iso
      (fun e => (e.firstKey, e.offset, e.size, e.checksum.toNat))
      (fun x => ⟨x.1, x.2.1, x.2.2.1, UInt32.ofNat x.2.2.2⟩) (fun e => by simp)
  let bit : Wire Bool := Wire.nat.iso Bool.toNat (· == 1) (fun b => by cases b <;> rfl)
  let filter : Wire Bloom :=
    (bit.list.pair Wire.nat).iso (fun b => (b.bits, b.rounds)) (fun x => ⟨x.1, x.2⟩) (fun _ => rfl)
  let byte : Wire UInt8 := Wire.nat.iso UInt8.toNat UInt8.ofNat (fun b => by simp)
  let stats : Wire (StatsBlock Nat) :=
    (Wire.nat.pair (Wire.nat.pair (Wire.nat.pair (Wire.nat.option.pair Wire.nat.option)))).iso
      (fun t => (t.numEntries, t.numTombstones, t.totalUncompressedBytes, t.minKey, t.maxKey))
      (fun x => ⟨x.1, x.2.1, x.2.2.1, x.2.2.2.1, x.2.2.2.2⟩) (fun _ => rfl)
  let compression : Wire CompressionType :=
    Wire.nat.iso (fun | .uncompressed => 0 | .lz4 => 1) (fun | 0 => .uncompressed | _ => .lz4)
      (fun t => by cases t <;> rfl)
  (entry.list.pair (compression.pair (stats.pair (filter.option.pair byte.list)))).iso
    (fun b => (b.entries, b.compression, b.stats, b.bloomFilter, b.layout))
    (fun x => ⟨x.1, x.2.1, x.2.2.1, x.2.2.2.1, x.2.2.2.2⟩) (fun _ => rfl)

def wireEncoding : Encoding Nat Nat where
  encodeBlock := (Wire.nat.pair Wire.nat.option).list.encode
  decodeBlock := (Wire.nat.pair Wire.nat.option).list.fromBytes
  encodeIndex := wireIndex.encode
  decodeIndex := wireIndex.fromBytes
  compress := reverse
  decompress bs := some bs.reverse
  xxh32 bs := (bs.map UInt8.toUInt32).sum
  hash k := (UInt64.ofNat k, 7)
  filterBytes n := n
  numHashes _ := 2
  placeholder := 0
  decodeBlock_encodeBlock := Wire.fromBytes_encode _
  decodeIndex_encodeIndex := Wire.fromBytes_encode _
  decompress_compress bs := by rw [reverse_reverse]
  filterBytes_pos _ h := h

/-- Three entries in two blocks, read twice through a cache. -/
theorem small_file_answers :
    ∃ r, SstableReader.openFile wireEncoding
        (((SstableWriter.create wireEncoding 4 .lz4 3 []).appendAll wireEncoding
          [(2, some 20), (4, none), (9, some 90)]).finish wireEncoding) 5 = .ok r ∧
      r.firstKey = some 2 ∧ r.lastKey = 9 ∧
      ∀ c, BlockCache.new 64 = some c →
        r.calls wireEncoding (some c) [.get 4, .scanRaw 3 9, .get 3, .get 4]
          = [.ok (.entry (some none)), .ok (.entries [(4, none), (9, some 90)]),
            .ok (.entry none), .ok (.entry (some none))] := by
  obtain ⟨r, hopen, hfirst, hlast, hcalls⟩ := written_file_answers wireEncoding
    [(2, some 20), (4, none), (9, some 90)] (by simp [Ascending]) 4 .lz4 3 [] 5 (by decide +kernel)
  refine ⟨r, hopen, hfirst, hlast _ rfl, fun c hc => ?_⟩
  refine hcalls (some c) ?_ _ (by simp)
  rintro c' ⟨rfl⟩ idx block
  exact BlockCache.not_holds_new hc (5, idx) block

end

end Dtdb.Storage.OnDisk
