import Dtdb.Storage.MultiGet

/-! # Range scans

`scan_iter` merges the memtables' range and a block iterator per SSTable lazily; `filtered_scan`
walks the same sources newest first.  Both return, in key order, the live values `get` returns. -/

namespace Dtdb.Storage

open Dtdb.Lib List Option Function

variable {K V Λ : Type} [LinearOrder K]

/-! ## The memtables' range -/

def mergeSortedMemVectors (newest oldest : List (K × Option V)) : List (K × Option V) :=
  mergeTwo (newest.length + oldest.length) newest oldest

section

variable [ByteSize K] [ByteSize V]

/-- `none` is the panic on an inverted range, which an empty map returns before. -/
def MemTable.scanRangeRaw (m : MemTable K V) (lo hi : K) : Option (List (K × Option V)) :=
  if m.isEmpty then some []
  else if hi < lo then none
  else some (m.entries.filter (inRange lo hi))

theorem MemTable.scanRangeRaw_eq (m : MemTable K V) {lo hi : K} (h : lo ≤ hi) :
    m.scanRangeRaw lo hi = some (m.entries.filter (inRange lo hi)) := by
  unfold scanRangeRaw
  split
  · next hnil => rw [entries, SortedMap.isEmpty_iff.1 hnil]; rfl
  · rw [if_neg (not_lt.2 h)]

def Engine.snapshotMemRange (e : Engine K V Λ) (lo hi : K) : Option (List (K × Option V)) :=
  if e.immutable.isEmpty then e.active.scanRangeRaw lo hi
  else do
    let active ← e.active.scanRangeRaw lo hi
    let imms ← e.immutable.mapM fun imm => imm.table.scanRangeRaw lo hi
    some (imms.foldl mergeSortedMemVectors active)

end

/-- `l` lists, in key order, the slots that `f` gives the keys of a range. -/
structure RangeSlots (lo hi : K) (f : K → Option (Option V)) (l : List (K × Option V)) : Prop where
  ascending : Ascending l
  range : ∀ x ∈ l, lo ≤ x.1 ∧ x.1 ≤ hi
  lookup : ∀ k, lo ≤ k ∧ k ≤ hi → l.lookup k = f k

variable {k : K}

namespace RangeSlots

variable {lo hi : K} {f g : K → Option (Option V)} {l r : List (K × Option V)}

theorem filter (h : Ascending l) : RangeSlots lo hi (l.lookup ·) (l.filter (inRange lo hi)) where
  ascending := h.filter _
  range x hx := inRange_iff.1 (of_mem_filter hx)
  lookup k hk := by
    rw [h.lookup_filter]
    cases l.lookup k with
    | none => rfl
    | some s => exact filter_some_pos (by simpa using hk)

theorem merge (hl : RangeSlots lo hi f l) (hr : RangeSlots lo hi g r) :
    RangeSlots lo hi (fun k => (f k).or (g k)) (mergeSortedMemVectors l r) where
  ascending := ascending_mergeTwo hl.ascending hr.ascending
  range x hx := (mem_mergeTwo hx).elim (hl.range x) (hr.range x)
  lookup k hk := by
    rw [mergeSortedMemVectors, lookup_mergeTwo hl.ascending hr.ascending le_rfl, hl.lookup k hk,
      hr.lookup k hk]

theorem lookup_eq_none (h : RangeSlots lo hi f l) (hk : ¬ (lo ≤ k ∧ k ≤ hi)) :
    l.lookup k = none :=
  Lib.lookup_eq_none.2 fun x hx heq => hk (heq ▸ h.range x hx)

end RangeSlots

section

variable [ByteSize K] [ByteSize V]

theorem MemTable.rangeSlots (m : MemTable K V) (lo hi : K) :
    RangeSlots lo hi m.get (m.entries.filter (inRange lo hi)) :=
  RangeSlots.filter m.map.ascending

theorem RangeSlots.foldl {lo hi : K} {f : K → Option (Option V)} {acc : List (K × Option V)}
    (h : RangeSlots lo hi f acc) (q : List (ImmMemtable K V)) :
    RangeSlots lo hi (fun k => (f k).or (q.findSome? fun i => i.table.get k))
      ((q.map fun i => i.table.entries.filter (inRange lo hi)).foldl mergeSortedMemVectors acc) := by
  induction q generalizing f acc with
  | nil => simpa using h
  | cons i q ih =>
    have hnext := ih (h.merge (i.table.rangeSlots lo hi))
    refine ⟨hnext.ascending, hnext.range, fun k hk => (hnext.lookup k hk).trans ?_⟩
    rw [Option.or_assoc, findSome?_cons]
    cases i.table.get k <;> rfl

theorem Engine.snapshotMemRange_eq (e : Engine K V Λ) {lo hi : K} (h : lo ≤ hi) :
    ∃ mem, e.snapshotMemRange lo hi = some mem ∧ RangeSlots lo hi e.memHit mem := by
  have hslots := (e.active.rangeSlots lo hi).foldl e.immutable
  refine ⟨_, ?_, hslots.ascending, hslots.range, fun k hk => (hslots.lookup k hk).trans ?_⟩
  · unfold snapshotMemRange
    rw [e.active.scanRangeRaw_eq h]
    split
    · next hnil => rw [isEmpty_iff.1 hnil]; rfl
    · have himms : (e.immutable.mapM fun imm => imm.table.scanRangeRaw lo hi)
          = some (e.immutable.map fun i => i.table.entries.filter (inRange lo hi)) := by
        simp only [MemTable.scanRangeRaw_eq _ h]
        exact mapM_pure
      rw [himms]
      rfl
  · unfold memHit
    cases e.active.get k <;> rfl

end

/-! ## The files of a range -/

/-- Bisect to the first file that ends at or after `lo`, stop at the first that starts past `hi`. -/
def levelFiles (lo hi : K) (list : List (Reader K V Λ)) : List (Reader K V Λ) :=
  (list.drop (partitionPoint (fun s => decide (s.lastKey < lo)) list)).takeWhile
    fun s => !decide (hi < s.firstKey)

/-- Level-0 files are skipped one by one. -/
def overlapsRange (lo hi : K) (r : Reader K V Λ) : Bool :=
  decide (r.firstKey ≤ hi) && decide (lo ≤ r.lastKey)

theorem Reader.hit_eq_none_of_range {r : Reader K V Λ} (h : k < r.firstKey ∨ r.lastKey < k) :
    r.hit k = none := by
  rw [hit_eq_none]
  by_contra hne
  obtain ⟨h₁, h₂⟩ := mem_range_of_get hne
  rcases h with h | h
  · exact absurd h (not_lt.2 h₁)
  · exact absurd h (not_lt.2 h₂)

theorem KeyOrdered.levelFiles_hit {list : List (Reader K V Λ)} (h : KeyOrdered list) {lo hi : K}
    (hk : lo ≤ k ∧ k ≤ hi) :
    (levelFiles lo hi list).findSome? (fun r => r.hit k) = list.findSome? fun r => r.hit k := by
  set n := partitionPoint (fun s : Reader K V Λ => decide (s.lastKey < lo)) list with hn
  have hbelow : ∀ r ∈ list.take n, r.hit k = none := by
    intro r hr
    have hlast := (partitionPoint_spec
      (h.imp fun {a b} hab hb => by
        simp only [decide_eq_true_eq] at hb ⊢
        exact (hab.trans_le b.firstKey_le_lastKey).trans hb)).1 r hr
    exact Reader.hit_eq_none_of_range (.inr ((of_decide_eq_true hlast).trans_le hk.1))
  have habove : ∀ l : List (Reader K V Λ), KeyOrdered l →
      (l.takeWhile fun s => !decide (hi < s.firstKey)).findSome? (fun r => r.hit k)
        = l.findSome? fun r => r.hit k := by
    intro l hl
    induction l with
    | nil => rfl
    | cons r l ih =>
      obtain ⟨hr, hl⟩ := pairwise_cons.1 hl
      rw [takeWhile_cons]
      split
      · rw [findSome?_cons, findSome?_cons, ih hl]
      · next hgt =>
        have hgt : hi < r.firstKey := by simpa using hgt
        refine (findSome?_eq_none_iff.2 fun x hx => ?_).symm
        refine Reader.hit_eq_none_of_range (.inl (hk.2.trans_lt ?_))
        rcases mem_cons.1 hx with rfl | hx
        · exact hgt
        · exact (hgt.trans_le r.firstKey_le_lastKey).trans (hr x hx)
  rw [levelFiles, habove _ (List.Pairwise.drop h)]
  conv_rhs => rw [← take_append_drop n list, findSome?_append,
    findSome?_eq_none_iff.2 hbelow, none_or]

theorem filter_overlapsRange_hit (list : List (Reader K V Λ)) {lo hi : K} (hk : lo ≤ k ∧ k ≤ hi) :
    (list.filter (overlapsRange lo hi)).findSome? (fun r => r.hit k)
      = list.findSome? fun r => r.hit k := by
  induction list with
  | nil => rfl
  | cons r l ih =>
    rw [filter_cons, findSome?_cons]
    split
    · rw [findSome?_cons, ih]
    · next hno =>
      have hout : k < r.firstKey ∨ r.lastKey < k := by
        by_contra hin
        push Not at hin
        exact hno (by simp [overlapsRange, hin.1.trans hk.2, hk.1.trans hin.2])
      rw [Reader.hit_eq_none_of_range hout, ih]

/-! ## The lazy merge -/

/-- Each source is what its block iterator still yields, and the heap holds the sources' heads. -/
structure ScanIterator (K V Λ : Type) [LinearOrder K] where
  mem : List (K × Option V)
  sources : List (Source K (Option V) (Reader K V Λ))
  lastKey : Option K
  stop : K

/-- How one turn of the loop in `next` ends. -/
inductive Turn (K V Λ : Type) [LinearOrder K] where
  | done
  | again (it : ScanIterator K V Λ)
  | item (key : K) (value : V) (it : ScanIterator K V Λ)

namespace ScanIterator

/-- Take the memtable entry `x`. -/
def takeMem (it : ScanIterator K V Λ) (x : K × Option V) (mem : List (K × Option V)) :
    Turn K V Λ :=
  if it.stop < x.1 then .done
  else if it.lastKey = some x.1 then .again { it with mem := mem }
  else match x.2 with
    | none => .again { it with mem := mem, lastKey := some x.1 }
    | some v => .item x.1 v { it with mem := mem, lastKey := some x.1 }

/-- A source past the end is dropped. -/
def takeHeap (resolve : Hit V Λ → Except StorageError (Option V)) (it : ScanIterator K V Λ)
    (x : K × Option V × Nat × Reader K V Λ)
    (sources : List (Source K (Option V) (Reader K V Λ))) : Except StorageError (Turn K V Λ) :=
  if it.stop < x.1 then
    .ok (.again { it with
      sources := sources.map fun s => if s.prio = x.2.2.1 then { s with rest := [] } else s })
  else if it.lastKey = some x.1 then .ok (.again { it with sources := sources })
  else (resolve (x.2.2.2.layout, x.2.1)).map fun
    | none => .again { it with sources := sources, lastKey := some x.1 }
    | some v => .item x.1 v { it with sources := sources, lastKey := some x.1 }

/-- One turn of the loop in `ScanIterator::next`. -/
def turn (resolve : Hit V Λ → Except StorageError (Option V)) (it : ScanIterator K V Λ) :
    Except StorageError (Turn K V Λ) :=
  match it.mem, popMin it.sources with
  | [], none => .ok .done
  | x :: mem, none => .ok (it.takeMem x mem)
  | [], some (y, sources) => it.takeHeap resolve y sources
  | x :: mem, some (y, sources) =>
    if x.1 ≤ y.1 then .ok (it.takeMem x mem) else it.takeHeap resolve y sources

def next (resolve : Hit V Λ → Except StorageError (Option V)) : Nat → ScanIterator K V Λ →
    Except StorageError (Option ((K × V) × ScanIterator K V Λ))
  | 0, _ => .ok none
  | n + 1, it =>
    match it.turn resolve with
    | .error err => .error err
    | .ok .done => .ok none
    | .ok (.again it') => next resolve n it'
    | .ok (.item k v it') => .ok (some ((k, v), it'))

def left (it : ScanIterator K V Λ) : Nat := it.mem.length + remaining it.sources

/-- Call `next` until it returns nothing. -/
def drain (resolve : Hit V Λ → Except StorageError (Option V)) : Nat → ScanIterator K V Λ →
    Except StorageError (List (K × V))
  | 0, _ => .ok []
  | n + 1, it =>
    match it.next resolve (it.left + 1) with
    | .error err => .error err
    | .ok none => .ok []
    | .ok (some (x, it')) => (drain resolve n it').map (x :: ·)

/-! ### The iterator as a merge -/

/-- The memtable vector as the source of highest priority, the files behind it. -/
def cursors (it : ScanIterator K V Λ) : List (Source K (Option V) (Option (Reader K V Λ))) :=
  ⟨0, none, it.mem⟩ :: it.sources.map (Source.rename (· + 1) some)

theorem remaining_cursors (it : ScanIterator K V Λ) : remaining it.cursors = it.left := by
  simp [remaining, cursors, left, Source.rename, comp_def]

/-- Nothing left lies past the end. -/
def Bounded (it : ScanIterator K V Λ) : Prop :=
  (∀ x ∈ it.mem, x.1 ≤ it.stop) ∧ ∀ s ∈ it.sources, ∀ x ∈ s.rest, x.1 ≤ it.stop

/-- The value of a merged slot: a memtable's as it is, a file's under its layout. -/
def slotValue (val : Hit V Λ → Option V) (x : Option V × Option (Reader K V Λ)) : Option V :=
  match x.2 with
  | none => x.1
  | some r => val (r.layout, x.1)

def rows (val : Hit V Λ → Option V) (it : ScanIterator K V Λ) : List (K × V) :=
  (upcoming it.lastKey it.cursors).filterMap fun x => (slotValue val x.2).map (x.1, ·)

/-- What the turn yields of the rows to come. -/
def Yields (val : Hit V Λ → Option V) (it : ScanIterator K V Λ) : Turn K V Λ → Prop
  | .done => it.rows val = []
  | .again it' => it'.Bounded ∧ it'.left + 1 = it.left ∧ it'.rows val = it.rows val
  | .item k v it' => it'.Bounded ∧ it'.left + 1 = it.left ∧ (k, v) :: it'.rows val = it.rows val

variable {resolve : Hit V Λ → Except StorageError (Option V)} {val : Hit V Λ → Option V}
variable {it : ScanIterator K V Λ}

theorem rows_of_pop (val : Hit V Λ → Option V) (it' : ScanIterator K V Λ) {s : Option V} {q : Nat}
    {tag : Option (Reader K V Λ)} (hpop : popMin it.cursors = some ((k, s, q, tag), it'.cursors))
    (hlast : it'.lastKey = some k) :
    it'.left + 1 = it.left ∧ it.rows val = if it.lastKey = some k then it'.rows val
      else (slotValue val (s, tag)).toList.map (k, ·) ++ it'.rows val := by
  obtain ⟨pre, src, rest, post, p⟩ := popMin_some hpop
  refine ⟨?_, ?_⟩
  · rw [← remaining_cursors, ← remaining_cursors, p.remaining_eq]
  · rw [rows, upcoming_some hpop, rows, hlast]
    split
    · next h => rw [h]
    · rw [filterMap_cons]
      cases slotValue val (s, tag) <;> rfl

theorem takeMem_yields {x : K × Option V} {mem : List (K × Option V)} (hb : it.Bounded)
    (hmem : it.mem = x :: mem) (hpop : popMin it.cursors = some ((x.1, x.2, 0, none),
      ({ it with mem := mem } : ScanIterator K V Λ).cursors)) :
    it.Yields val (it.takeMem x mem) := by
  have hin : ¬ it.stop < x.1 := not_lt.2 (hb.1 x (by rw [hmem]; exact mem_cons_self))
  have hb' : ∀ last, ({ it with mem := mem, lastKey := last } : ScanIterator K V Λ).Bounded :=
    fun _ => ⟨fun y hy => hb.1 y (by rw [hmem]; exact mem_cons_of_mem _ hy), hb.2⟩
  obtain ⟨hleft, hrows⟩ := rows_of_pop val
    { it with mem := mem, lastKey := some x.1 } hpop rfl
  unfold takeMem
  rw [if_neg hin]
  split
  · next hl =>
    rw [if_pos hl] at hrows
    exact ⟨hb' it.lastKey, hleft, by rw [hrows, ← hl]⟩
  · next hl =>
    rw [if_neg hl] at hrows
    obtain ⟨k, s⟩ := x
    cases s with
    | none | some v => exact ⟨hb' _, hleft, hrows.symm⟩

theorem takeHeap_yields (hres : ∀ h, resolve h = .ok (val h))
    {x : K × Option V × Nat × Reader K V Λ} {sources : List (Source K (Option V) (Reader K V Λ))}
    (hb : it.Bounded) (hheap : popMin it.sources = some (x, sources))
    (hpop : popMin it.cursors = some ((x.1, x.2.1, x.2.2.1 + 1, some x.2.2.2),
      ({ it with sources := sources } : ScanIterator K V Λ).cursors)) :
    ∃ t, it.takeHeap resolve x sources = .ok t ∧ it.Yields val t := by
  obtain ⟨pre, src, rest, post, p⟩ := popMin_some hheap
  have hin : ¬ it.stop < x.1 := not_lt.2
    (hb.2 src (by rw [p.eq]; simp) (x.1, x.2.1) (by rw [p.head]; exact mem_cons_self))
  have hb' : ∀ last, ({ it with sources := sources, lastKey := last } : ScanIterator K V Λ).Bounded := by
    refine fun _ => ⟨hb.1, fun s hs y hy => ?_⟩
    obtain ⟨r, hr, hsub⟩ := p.mem_rest s hs
    exact hb.2 r hr y (hsub y hy)
  obtain ⟨hleft, hrows⟩ := rows_of_pop val
    { it with sources := sources, lastKey := some x.1 } hpop rfl
  unfold takeHeap
  rw [if_neg hin, hres]
  split
  · next hl =>
    rw [if_pos hl] at hrows
    exact ⟨_, rfl, hb' it.lastKey, hleft, by rw [hrows, ← hl]⟩
  · next hl =>
    rw [if_neg hl] at hrows
    simp only [slotValue] at hrows
    cases hv : val (x.2.2.2.layout, x.2.1) with
    | none | some v =>
      rw [hv] at hrows
      exact ⟨_, rfl, hb' _, hleft, hrows.symm⟩

theorem turn_yields (hres : ∀ h, resolve h = .ok (val h)) (hb : it.Bounded) :
    ∃ t, it.turn resolve = .ok t ∧ it.Yields val t := by
  have hren := popMin_rename (fun a b => Nat.add_le_add_iff_right (n := 1))
    (some : Reader K V Λ → Option (Reader K V Λ)) it.sources
  unfold turn
  cases hmem : it.mem with
  | nil =>
    cases hheap : popMin it.sources with
    | none =>
      have hpop : popMin it.cursors = none := by
        rw [cursors, popMin, hren, hheap, hmem]
        rfl
      exact ⟨_, rfl, congrArg _ (upcoming_none hpop)⟩
    | some z =>
      refine takeHeap_yields hres hb hheap ?_
      simp [cursors, popMin, hren, hheap, hmem]
  | cons x mem =>
    cases hheap : popMin it.sources with
    | none =>
      refine ⟨_, rfl, takeMem_yields hb hmem ?_⟩
      rw [cursors, popMin, hren, hheap, hmem]
      rfl
    | some z =>
      dsimp only
      split
      · next hle =>
        have hfirst : x.1 < z.1.1 ∨ x.1 = z.1.1 ∧ 0 ≤ z.1.2.2.1 + 1 :=
          hle.lt_or_eq.imp_right (⟨·, Nat.zero_le _⟩)
        refine ⟨_, rfl, takeMem_yields hb hmem ?_⟩
        rw [cursors, popMin, hren, hheap, hmem]
        exact if_pos hfirst
      · next hgt =>
        have hlater : ¬ (x.1 < z.1.1 ∨ x.1 = z.1.1 ∧ 0 ≤ z.1.2.2.1 + 1) := by
          rintro (h | h)
          · exact hgt h.le
          · exact hgt h.1.le
        refine takeHeap_yields hres hb hheap ?_
        simp only [cursors, popMin, hren, hheap, hmem]
        exact if_neg hlater

theorem next_yields (hres : ∀ h, resolve h = .ok (val h)) {n : Nat} (hb : it.Bounded)
    (hn : it.left < n) : match it.rows val with
      | [] => it.next resolve n = .ok none
      | x :: xs => ∃ it', it.next resolve n = .ok (some (x, it')) ∧ it'.Bounded ∧
        it'.left < it.left ∧ it'.rows val = xs := by
  induction n generalizing it with
  | zero => cases hn
  | succ n ih =>
    obtain ⟨t, ht, hy⟩ := turn_yields hres hb
    simp only [next, ht]
    cases t with
    | done => rw [show it.rows val = [] from hy]
    | again it' =>
      obtain ⟨hb', hleft, hrows⟩ := hy
      have := ih hb' (by omega)
      rw [← hrows]
      cases hr : it'.rows val with
      | nil => rwa [hr] at this
      | cons x xs =>
        rw [hr] at this
        obtain ⟨it'', hnext, hb'', hlt, hxs⟩ := this
        exact ⟨it'', hnext, hb'', by omega, hxs⟩
    | item k v it' =>
      obtain ⟨hb', hleft, hrows⟩ := hy
      rw [← hrows]
      exact ⟨it', rfl, hb', by omega, rfl⟩

/-- **Draining.** The iterator yields the merge's live values. -/
theorem drain_eq (hres : ∀ h, resolve h = .ok (val h)) {n : Nat} (hb : it.Bounded)
    (hn : it.left < n) : it.drain resolve n = .ok (it.rows val) := by
  induction n generalizing it with
  | zero => cases hn
  | succ n ih =>
    have hnext := next_yields hres hb (Nat.lt_succ_self it.left)
    simp only [drain]
    cases hr : it.rows val with
    | nil =>
      rw [hr] at hnext
      rw [hnext]
    | cons x xs =>
      rw [hr] at hnext
      obtain ⟨it', hit, hb', hlt, hxs⟩ := hnext
      rw [hit]
      dsimp only
      rw [ih hb' (by omega), hxs]
      rfl

end ScanIterator

/-! ## `scan_iter` -/

section

variable [ByteSize K] [ByteSize V]

/-- The levels below 0 are in key order. -/
def Engine.DeeperOrdered (e : Engine K V Λ) : Prop :=
  ∀ x ∈ e.sstables.entries, x.1 ≠ 0 → KeyOrdered x.2

theorem LevelsOk.deeperOrdered {maxLevel : Nat} {e : Engine K V Λ}
    (h : LevelsOk maxLevel e) : e.DeeperOrdered := by
  intro x hx h0
  have hord := h.keyOrdered x.1 (Nat.pos_of_ne_zero h0)
  rwa [Engine.level, SortedMap.mem_entries.1 hx] at hord

end

namespace Engine

variable [ByteSize K] [ByteSize V]

def deeperFiles (e : Engine K V Λ) (lo hi : K) : List (Reader K V Λ) :=
  (e.sstables.entries.filter fun x => decide (x.1 ≠ 0)).flatMap fun x => levelFiles lo hi x.2

/-- A level-0 file's priority is its place in the level, the deeper files follow. -/
def scanSources (fmt : FileFormat K V Λ) (e : Engine K V Λ) (lo hi : K) :
    List (Source K (Option V) (Reader K V Λ)) :=
  ((e.level 0).zipIdx.filter fun x => overlapsRange lo hi x.1).map
      (fun x => x.1.blockIterator fmt lo hi x.2) ++
    ((e.deeperFiles lo hi).zipIdx (e.level 0).length).map
      fun x => x.1.blockIterator fmt lo hi x.2

/-- The iterator over a memtable snapshot and the files of the engine. -/
def openScan (fmt : FileFormat K V Λ) (e : Engine K V Λ) (lo hi : K)
    (mem : List (K × Option V)) : ScanIterator K V Λ :=
  ⟨mem, e.scanSources fmt lo hi, none, hi⟩

/-- `EngineInner::scan_iter`; `none` is a panic. -/
def scanIter (fmt : FileFormat K V Λ) (e : Engine K V Λ) (lo hi : K) :
    Option (ScanIterator K V Λ) :=
  (e.snapshotMemRange lo hi).map (e.openScan fmt lo hi)

def drainScan [DecidableEq Λ] (cfg : Config K V Λ) (e : Engine K V Λ) (it : ScanIterator K V Λ) :
    Except StorageError (List (K × V)) :=
  it.drain (e.resolve cfg) (it.left + 1)

variable {e : Engine K V Λ} {lo hi : K}

theorem deeperFiles_hit (h : e.DeeperOrdered) (hk : lo ≤ k ∧ k ≤ hi) :
    (e.deeperFiles lo hi).findSome? (fun r => r.hit k)
      = e.deeperLevels.findSome? fun l => probeLevel l k := by
  rw [deeperFiles, findSome?_flatMap, deeperLevels, findSome?_map]
  revert h
  unfold DeeperOrdered
  induction e.sstables.entries with
  | nil => exact fun _ => rfl
  | cons x l ih =>
    intro h
    have ih := ih fun y hy => h y (mem_cons_of_mem _ hy)
    rw [filter_cons, filter_cons]
    by_cases h0 : x.1 = 0
    · simpa [h0] using ih
    · have hord := h x mem_cons_self h0
      rw [if_pos (by simpa using h0), findSome?_cons, hord.levelFiles_hit hk, ih]
      by_cases hnil : x.2.isEmpty
      · rw [if_neg (by simp [hnil]), isEmpty_iff.1 hnil]
        rfl
      · rw [if_pos (by simp [h0, hnil]), findSome?_cons, comp_apply,
          hord.probeLevel_eq]

theorem levels_hit (h : e.DeeperOrdered) (hk : lo ≤ k ∧ k ≤ hi) :
    (e.level 0 ++ e.deeperFiles lo hi).findSome? (fun r => r.hit k) = e.probe k := by
  rw [findSome?_append, deeperFiles_hit h hk, probe_eq_searches, searches,
    findSome?_append, findSome?_map, findSome?_map]
  rfl

def scanFiles (e : Engine K V Λ) (lo hi : K) : List (Reader K V Λ) :=
  (e.level 0).filter (overlapsRange lo hi) ++ e.deeperFiles lo hi

theorem scanFiles_hit (h : e.DeeperOrdered) (hk : lo ≤ k ∧ k ≤ hi) :
    (e.scanFiles lo hi).findSome? (fun r => r.hit k) = e.probe k := by
  rw [scanFiles, findSome?_append, filter_overlapsRange_hit _ hk, ← findSome?_append,
    levels_hit h hk]

variable {fmt : FileFormat K V Λ}

theorem scanSources_tags (e : Engine K V Λ) (lo hi : K) :
    (e.scanSources fmt lo hi).map Source.tag = e.scanFiles lo hi := by
  rw [scanSources, map_append, List.map_map, List.map_map]
  show _ ++ ((e.deeperFiles lo hi).zipIdx (e.level 0).length).map Prod.fst = _
  rw [zipIdx_map_fst]
  refine congrArg (· ++ _) ?_
  conv_rhs => rw [← zipIdx_map_fst 0 (e.level 0), List.filter_map]
  rfl

theorem scanSources_rest {s : Source K (Option V) (Reader K V Λ)}
    (hs : s ∈ e.scanSources fmt lo hi) : RangeSlots lo hi s.tag.get s.rest := by
  obtain ⟨x, rfl⟩ : ∃ x : Reader K V Λ × Nat, s = x.1.blockIterator fmt lo hi x.2 := by
    rcases mem_append.1 hs with hs | hs
    · obtain ⟨x, -, rfl⟩ := mem_map.1 hs
      exact ⟨x, rfl⟩
    · obtain ⟨x, -, rfl⟩ := mem_map.1 hs
      exact ⟨x, rfl⟩
  rw [Reader.blockIterator_rest]
  exact RangeSlots.filter x.1.ascending

theorem scanSources_prio (e : Engine K V Λ) (lo hi : K) :
    (e.scanSources fmt lo hi).Pairwise fun a b => a.prio < b.prio := by
  have hsub : ((e.level 0).zipIdx.filter (fun x => overlapsRange lo hi x.1) ++
      (e.deeperFiles lo hi).zipIdx (e.level 0).length).Sublist
        (e.level 0 ++ e.deeperFiles lo hi).zipIdx := by
    rw [zipIdx_append, Nat.zero_add]
    exact filter_sublist.append (.refl _)
  rw [scanSources, ← map_append]
  refine pairwise_map.2 (List.Pairwise.sublist hsub ?_)
  refine pairwise_iff_getElem.2 fun i j hi hj hij => ?_
  simp only [getElem_zipIdx, Reader.blockIterator]
  omega

section

variable {f : K → Option (Option V)} {mem : List (K × Option V)} (hmem : RangeSlots lo hi f mem)
include hmem

theorem sorted_openScan : Sorted (e.openScan fmt lo hi mem).cursors := by
  refine forall_mem_cons.2 ⟨hmem.ascending, fun s hs => ?_⟩
  obtain ⟨s', hs', rfl⟩ := mem_map.1 hs
  exact (scanSources_rest hs').ascending

theorem bounded_openScan : (e.openScan fmt lo hi mem).Bounded :=
  ⟨fun x hx => (hmem.range x hx).2, fun _ hs x hx => ((scanSources_rest hs).range x hx).2⟩

theorem lookup_merge_openScan (k : K) :
    (merge (e.openScan fmt lo hi mem).cursors).lookup k
      = ((mem.lookup k).map (·, none)).or ((e.scanSources fmt lo hi).findSome? fun s =>
          (s.rest.lookup k).map (·, some s.tag)) := by
  have hprio : (e.openScan fmt lo hi mem).cursors.Pairwise fun a b => a.prio < b.prio := by
    refine pairwise_cons.2 ⟨fun s hs => ?_, ?_⟩
    · obtain ⟨s', -, rfl⟩ := mem_map.1 hs
      exact Nat.succ_pos _
    · exact pairwise_map.2 ((scanSources_prio e lo hi).imp fun h => Nat.succ_lt_succ h)
  rw [merge_lookup (sorted_openScan hmem) (.refl _) hprio, ScanIterator.cursors,
    findSome?_cons, findSome?_map]
  simp only [openScan]
  cases mem.lookup k <;> rfl

theorem lookup_merge_openScan_of_range (h : e.DeeperOrdered) (hk : lo ≤ k ∧ k ≤ hi)
    (val : Hit V Λ → Option V) :
    ((merge (e.openScan fmt lo hi mem).cursors).lookup k).map (ScanIterator.slotValue val)
      = (f k).or ((e.probe k).map val) := by
  have htags : (e.scanSources fmt lo hi).map Source.tag = e.scanFiles lo hi :=
    scanSources_tags e lo hi
  have hfiles : ((e.scanSources fmt lo hi).findSome? fun s =>
      (s.rest.lookup k).map (·, some s.tag)).map (ScanIterator.slotValue val)
        = (e.probe k).map val := by
    rw [← scanFiles_hit h hk, ← htags, findSome?_map, map_findSome?,
      map_findSome?]
    refine findSome?_congr fun s hs => ?_
    simp only [comp_apply, Reader.hit, (scanSources_rest hs).lookup k hk]
    cases s.tag.get k <;> rfl
  rw [lookup_merge_openScan hmem, ← hfiles, ← hmem.lookup k hk]
  cases mem.lookup k <;> rfl

theorem lookup_merge_openScan_of_not_range (hk : ¬ (lo ≤ k ∧ k ≤ hi)) :
    (merge (e.openScan fmt lo hi mem).cursors).lookup k = none := by
  rw [lookup_merge_openScan hmem, hmem.lookup_eq_none hk, map_none, none_or,
    findSome?_eq_none_iff]
  intro s hs
  rw [(scanSources_rest hs).lookup_eq_none hk, map_none]

/-- **The lazy scan** returns, in key order, what the snapshot and the files hold. -/
theorem drainScan_openScan [DecidableEq Λ] {cfg : Config K V Λ} {val : Hit V Λ → Option V}
    (hres : e.Resolves cfg val) (h : e.DeeperOrdered) :
    ∃ rows, e.drainScan cfg (e.openScan fmt lo hi mem) = .ok rows ∧ Ascending rows ∧
      ∀ k, rows.lookup k
        = if lo ≤ k ∧ k ≤ hi then ((f k).or ((e.probe k).map val)).join else none := by
  have hsorted : Sorted (e.openScan fmt lo hi mem).cursors := sorted_openScan hmem
  have hasc := merge_ascending hsorted
  refine ⟨_, ScanIterator.drain_eq hres (bounded_openScan hmem) (Nat.lt_succ_self _),
    hasc.filterMap fun x => ScanIterator.slotValue val x.2, fun k => ?_⟩
  have hlook := lookup_filterMap hasc.nodup (fun x => ScanIterator.slotValue val x.2) k
  refine hlook.trans ?_
  split
  · next hk =>
    have hslot : ((merge (e.openScan fmt lo hi mem).cursors).lookup k).map
        (ScanIterator.slotValue val) = _ := lookup_merge_openScan_of_range hmem h hk val
    rw [← hslot]
    cases (merge (e.openScan fmt lo hi mem).cursors).lookup k <;> rfl
  · next hk => rw [lookup_merge_openScan_of_not_range hmem hk, bind_none]

end

end Engine

/-! ## `filtered_scan` -/

/-- `seen.insert`, then the rewriter, the filter and `results.insert`. -/
def visit (resolve : Option V → Except StorageError (Option V)) (p : K → V → Bool)
    (acc : List K × SortedMap K V) (x : K × Option V) :
    Except StorageError (List K × SortedMap K V) :=
  if x.1 ∈ acc.1 then .ok acc
  else (resolve x.2).map fun
    | none => (x.1 :: acc.1, acc.2)
    | some v => (x.1 :: acc.1, if p x.1 v then acc.2.insert x.1 v else acc.2)

/-- The entries `l`, resolved, have been visited. -/
structure Visited (p : K → V → Bool) (l : List (K × Option V)) (acc : List K × SortedMap K V) :
    Prop where
  seen : ∀ k, k ∈ acc.1 ↔ l.lookup k ≠ none
  results : ∀ k, acc.2.get k = (l.lookup k).join.filter (p k)

theorem Visited.nil (p : K → V → Bool) : Visited p [] ([], .empty) :=
  ⟨fun k => by simp, fun k => rfl⟩

variable {acc : List K × SortedMap K V}

theorem Visited.visit {p : K → V → Bool} {l : List (K × Option V)} (h : Visited p l acc)
    {resolve : Option V → Except StorageError (Option V)} {g : Option V → Option V}
    (hg : ∀ s, resolve s = .ok (g s)) (x : K × Option V) :
    ∃ acc', Storage.visit resolve p acc x = .ok acc' ∧ Visited p (l ++ [(x.1, g x.2)]) acc' := by
  have hlook : ∀ k, (l ++ [(x.1, g x.2)]).lookup k
      = (l.lookup k).or (if k = x.1 then some (g x.2) else none) := by
    intro k
    rw [lookup_append, lookup_cons_eq_ite, lookup_nil]
  unfold Storage.visit
  split
  · next hin =>
    have hsome := (h.seen x.1).1 hin
    have hsame : ∀ k, (l ++ [(x.1, g x.2)]).lookup k = l.lookup k := by
      intro k
      rw [hlook]
      split
      · next hk =>
        obtain ⟨s, hs⟩ := ne_none_iff_exists'.1 hsome
        rw [hk, hs, some_or]
      · exact or_none
    exact ⟨acc, rfl, fun k => by rw [hsame, h.seen], fun k => by rw [hsame, h.results]⟩
  · next hin =>
    have hnone : l.lookup x.1 = none := by
      by_contra hne
      exact hin ((h.seen x.1).2 hne)
    rw [hg]
    refine ⟨_, rfl, fun k => ?_, fun k => ?_⟩
    · by_cases hk : k = x.1
      · cases g x.2 <;> simp [hk]
      · cases g x.2 <;> simp [hk, h.seen]
    · rw [hlook]
      have hk' := h.results k
      by_cases hk : k = x.1
      · subst hk
        rw [hnone] at hk' ⊢
        cases hv : g x.2 with
        | none => simpa using hk'
        | some v =>
          by_cases hp : p x.1 v
          · simp [hp, Option.filter]
          · simpa [hp, Option.filter] using hk'
      · cases hv : g x.2 with
        | none => simpa [hk] using hk'
        | some v =>
          by_cases hp : p x.1 v
          · simpa [hk, hp, SortedMap.get_insert_of_ne _ _ hk] using hk'
          · simpa [hk, hp] using hk'

theorem Visited.visitAll {p : K → V → Bool} {l : List (K × Option V)} (h : Visited p l acc)
    {resolve : Option V → Except StorageError (Option V)} {g : Option V → Option V}
    (hg : ∀ s, resolve s = .ok (g s)) (xs : List (K × Option V)) :
    ∃ acc', xs.foldlM (Storage.visit resolve p) acc = .ok acc' ∧
      Visited p (l ++ xs.map fun x => (x.1, g x.2)) acc' := by
  induction xs generalizing l acc with
  | nil => exact ⟨acc, rfl, by simpa using h⟩
  | cons x xs ih =>
    obtain ⟨acc₁, h₁, hv₁⟩ := h.visit hg x
    obtain ⟨acc₂, h₂, hv₂⟩ := ih hv₁
    refine ⟨acc₂, ?_, by simpa using hv₂⟩
    rw [foldlM_cons, h₁]
    exact h₂

namespace Engine

variable [ByteSize K] [ByteSize V]

def memPass (e : Engine K V Λ) (lo hi : K) (p : K → V → Bool) :
    Option (Except StorageError (List K × SortedMap K V)) :=
  (e.memtables.mapM fun m : MemTable K V => m.scanRangeRaw lo hi).map fun parts =>
    parts.flatten.foldlM (visit .ok p) ([], .empty)

variable [DecidableEq Λ]

/-- Every level-0 file, then the deeper files of the range. -/
def filePass (fmt : FileFormat K V Λ) (cfg : Config K V Λ) (e : Engine K V Λ) (lo hi : K)
    (p : K → V → Bool) (acc : List K × SortedMap K V) :
    Except StorageError (List K × SortedMap K V) :=
  (e.level 0 ++ e.deeperFiles lo hi).foldlM (fun acc r =>
    ((r.file fmt).scanRaw lo hi).foldlM (visit (fun s => e.resolve cfg (r.layout, s)) p) acc) acc

/-- `EngineInner::filtered_scan`; `none` is a panic. -/
def filteredScan (fmt : FileFormat K V Λ) (cfg : Config K V Λ) (e : Engine K V Λ) (lo hi : K)
    (p : K → V → Bool) : Option (Except StorageError (List (K × V))) :=
  (e.memPass lo hi p).map fun acc => do
    let acc ← acc
    let acc ← e.filePass fmt cfg lo hi p acc
    return acc.2.entries

def memEntries (e : Engine K V Λ) (lo hi : K) : List (K × Option V) :=
  e.memtables.flatMap fun m => m.entries.filter (inRange lo hi)

omit [DecidableEq Λ] in
theorem memPass_eq (e : Engine K V Λ) {lo hi : K} (h : lo ≤ hi) (p : K → V → Bool) :
    ∃ acc, e.memPass lo hi p = some (.ok acc) ∧ Visited p (e.memEntries lo hi) acc := by
  have hparts : (e.memtables.mapM fun m : MemTable K V => m.scanRangeRaw lo hi)
      = some (e.memtables.map fun m => m.entries.filter (inRange lo hi)) := by
    simp only [MemTable.scanRangeRaw_eq _ h]
    exact mapM_pure
  have hplain : ∀ s : Option V, (Except.ok s : Except StorageError (Option V)) = .ok (id s) :=
    fun _ => rfl
  obtain ⟨acc, hacc, hv⟩ := (Visited.nil p).visitAll hplain (e.memEntries lo hi)
  refine ⟨acc, ?_, by simpa using hv⟩
  rw [memPass, hparts]
  exact congrArg some hacc

omit [DecidableEq Λ] in
theorem lookup_memEntries (e : Engine K V Λ) {lo hi : K} (hk : lo ≤ k ∧ k ≤ hi) :
    (e.memEntries lo hi).lookup k = e.memHit k := by
  rw [memEntries, flatMap_def, lookup_flatten, findSome?_map, memHit_eq_findSome?]
  exact findSome?_congr fun m _ => (m.rangeSlots lo hi).lookup k hk

def fileEntries (e : Engine K V Λ) (val : Hit V Λ → Option V) (lo hi : K) : List (K × Option V) :=
  (e.level 0 ++ e.deeperFiles lo hi).flatMap fun r =>
    (r.entries.filter (inRange lo hi)).map fun x => (x.1, val (r.layout, x.2))

variable {fmt : FileFormat K V Λ} {cfg : Config K V Λ} {e : Engine K V Λ}
variable {val : Hit V Λ → Option V} {lo hi : K}

theorem Resolves.filePass (hres : e.Resolves cfg val) {p : K → V → Bool} {l : List (K × Option V)}
    (h : Visited p l acc) :
    ∃ acc', e.filePass fmt cfg lo hi p acc = .ok acc' ∧
      Visited p (l ++ e.fileEntries val lo hi) acc' := by
  unfold Engine.filePass fileEntries
  induction e.level 0 ++ e.deeperFiles lo hi generalizing l acc with
  | nil => exact ⟨acc, rfl, by simpa using h⟩
  | cons r rs ih =>
    obtain ⟨acc₁, h₁, hv₁⟩ := h.visitAll (fun s => hres (r.layout, s))
      (r.entries.filter (inRange lo hi))
    obtain ⟨acc₂, h₂, hv₂⟩ := ih hv₁
    refine ⟨acc₂, ?_, by simpa using hv₂⟩
    rw [foldlM_cons, SstableReader.scanRaw_eq r.ascending_blocks,
      show Block.contents (r.file fmt).blocks = r.entries from r.contents_blocks, h₁]
    exact h₂

omit [DecidableEq Λ] in
theorem lookup_fileEntries (h : e.DeeperOrdered) (hk : lo ≤ k ∧ k ≤ hi) :
    (e.fileEntries val lo hi).lookup k = (e.probe k).map val := by
  rw [fileEntries, flatMap_def, lookup_flatten, findSome?_map, ← levels_hit h hk,
    map_findSome?]
  refine findSome?_congr fun r _ => ?_
  simp only [comp_apply, Reader.hit, Option.map_map]
  rw [lookup_map_snd _ fun s => val (r.layout, s), (RangeSlots.filter r.ascending).lookup k hk]
  rfl

omit [DecidableEq Λ] in
theorem lookup_entries_of_not_range (e₀ e : Engine K V Λ) (hk : ¬ (lo ≤ k ∧ k ≤ hi)) :
    (e₀.memEntries lo hi ++ e.fileEntries val lo hi).lookup k = none := by
  refine lookup_eq_none.2 fun x hx heq => hk ?_
  rcases mem_append.1 hx with hx | hx
  · obtain ⟨m, -, hm⟩ := mem_flatMap.1 hx
    exact heq ▸ inRange_iff.1 (of_mem_filter hm)
  · obtain ⟨r, -, hr⟩ := mem_flatMap.1 hx
    obtain ⟨y, hy, rfl⟩ := mem_map.1 hr
    exact heq ▸ inRange_iff.1 (of_mem_filter (a := y) hy)

/-- **The eager scan** holds what the memtables of `e₀` and the files of `e` hold. -/
theorem Resolves.filePass_rows (hres : e.Resolves cfg val) (h : e.DeeperOrdered)
    {e₀ : Engine K V Λ} {p : K → V → Bool} (hacc : Visited p (e₀.memEntries lo hi) acc) :
    ∃ acc', e.filePass fmt cfg lo hi p acc = .ok acc' ∧ ∀ k, acc'.2.entries.lookup k
      = if lo ≤ k ∧ k ≤ hi then ((e₀.memHit k).or ((e.probe k).map val)).join.filter (p k)
        else none := by
  obtain ⟨acc', hpass, hv⟩ := hres.filePass hacc
  refine ⟨acc', hpass, fun k => (hv.results k).trans ?_⟩
  split
  · next hk => rw [lookup_append, e₀.lookup_memEntries hk, lookup_fileEntries h hk]
  · next hk =>
    rw [lookup_entries_of_not_range e₀ e hk]
    rfl

end Engine

end Dtdb.Storage
