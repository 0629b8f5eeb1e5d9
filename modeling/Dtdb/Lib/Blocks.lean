import Dtdb.Lib.Search
import Dtdb.Lib.SortedMap

/-! # Sorted runs cut into blocks

A sorted run stored as non-empty blocks is read through the first keys of its blocks, by lookups,
range scans and cursors.  Each reader returns what the whole run holds. -/

namespace Dtdb.Lib

variable {K A : Type*} [LinearOrder K]

structure Block (K A : Type*) where
  entries : List (K × A)
  nonempty : entries ≠ []

variable {bs : List (Block K A)}

namespace Block

def firstKey (b : Block K A) : K := (b.entries.head b.nonempty).1

def contents (bs : List (Block K A)) : List (K × A) := bs.flatMap entries

omit [LinearOrder K] in
@[simp] theorem contents_nil : contents ([] : List (Block K A)) = [] := rfl

omit [LinearOrder K] in
@[simp] theorem contents_cons (b : Block K A) (bs : List (Block K A)) :
    contents (b :: bs) = b.entries ++ contents bs := List.flatMap_cons

omit [LinearOrder K] in
@[simp] theorem contents_append (as bs : List (Block K A)) :
    contents (as ++ bs) = contents as ++ contents bs := List.flatMap_append

omit [LinearOrder K] in
theorem exists_entries_eq (b : Block K A) : ∃ a l, b.entries = (b.firstKey, a) :: l := by
  unfold firstKey
  match h : b.entries, b.nonempty with
  | x :: l, _ => exact ⟨x.2, l, rfl⟩

theorem firstKey_le {b : Block K A} (h : Ascending b.entries) {x : K × A} (hx : x ∈ b.entries) :
    b.firstKey ≤ x.1 := by
  obtain ⟨a, l, hb⟩ := b.exists_entries_eq
  rw [hb] at h hx
  rcases List.mem_cons.mp hx with rfl | hx
  · exact le_rfl
  · exact ((ascending_cons.1 h).1 x hx).le

theorem lt_of_mem_contents (h : Ascending (contents bs)) {k : K} (hk : ∀ b ∈ bs, k < b.firstKey)
    {x : K × A} (hx : x ∈ contents bs) : k < x.1 := by
  obtain ⟨b, hb, hxb⟩ := List.mem_flatMap.mp hx
  have hasc : Ascending b.entries := (List.pairwise_flatMap.mp h).1 b hb
  exact (hk b hb).trans_le (b.firstKey_le hasc hxb)

theorem rising_firstKey (h : Ascending (contents bs)) (k : K) :
    Rising (fun b : Block K A => compare b.firstKey k) bs := by
  refine (List.pairwise_flatMap.mp h).2.imp fun {a b} hab => ?_
  have hlt : a.firstKey < b.firstKey := by
    obtain ⟨x, l, ha⟩ := a.exists_entries_eq
    obtain ⟨y, r, hb⟩ := b.exists_entries_eq
    exact hab (a.firstKey, x) (by rw [ha]; exact List.mem_cons_self) (b.firstKey, y)
      (by rw [hb]; exact List.mem_cons_self)
  simp only [compare_gt_iff_gt, compare_lt_iff_lt]
  exact ⟨fun hk => lt_trans hk hlt, fun hk => lt_trans hlt hk⟩

end Block

open Block List Option

/-! ## The block of a key -/

/-- The last block that starts at or before `k`, by bisecting the first keys. -/
def blockIndex (bs : List (Block K A)) (k : K) : Option Nat :=
  match binarySearchBy (fun b : Block K A => compare b.firstKey k) bs with
  | .ok i => some i
  | .error 0 => none
  | .error (i + 1) => some i

theorem blockIndex_none (h : Ascending (contents bs)) {k : K} (hi : blockIndex bs k = none) :
    ∀ x ∈ contents bs, k < x.1 := by
  unfold blockIndex at hi
  split at hi
  · cases hi
  · next hs =>
    have hgt := (binarySearchBy_error (rising_firstKey h k) hs).2.2
    exact fun x => lt_of_mem_contents h fun b hb => compare_gt_iff_gt.1 (hgt b hb)
  · cases hi

theorem blockIndex_some (h : Ascending (contents bs)) {k : K} {i : Nat}
    (hi : blockIndex bs k = some i) : ∃ pre b post, bs = pre ++ b :: post ∧ pre.length = i ∧
      b.firstKey ≤ k ∧ (∀ x ∈ contents pre, x.1 < k) ∧ ∀ x ∈ contents post, k < x.1 := by
  -- once the block is placed, the order of the run does the rest
  have key : ∀ (pre : List (Block K A)) (b : Block K A) (post : List (Block K A)),
      bs = pre ++ b :: post → b.firstKey ≤ k → ∀ x ∈ contents pre, x.1 < k := by
    rintro pre b post rfl hle x hx
    rw [contents_append, contents_cons] at h
    obtain ⟨a, l, hb⟩ := b.exists_entries_eq
    have := (ascending_append.1 h).2.2 x hx (b.firstKey, a) (by rw [hb]; simp)
    exact this.trans_le hle
  unfold blockIndex at hi
  split at hi
  · next j hs =>
    cases hi
    obtain ⟨pre, b, post, rfl, hlen, he⟩ := binarySearchBy_split hs
    have hk : b.firstKey = k := compare_eq_iff_eq.1 he
    refine ⟨pre, b, post, rfl, hlen, hk.le, key pre b post rfl hk.le, fun x hx => ?_⟩
    rw [contents_append] at h
    obtain ⟨a, l, hb⟩ := b.exists_entries_eq
    have := (ascending_append.1 (ascending_append.1 h).2.1).2.2 (b.firstKey, a)
      (by rw [hb]; simp) x hx
    exact hk ▸ this
  · cases hi
  · next j hs =>
    cases hi
    obtain ⟨hj, hlt, hgt⟩ := binarySearchBy_error (rising_firstKey h k) hs
    have hmem : bs[i] ∈ bs.take (i + 1) := by
      rw [take_succ_eq_append_getElem hj]
      exact mem_append_right _ (mem_singleton_self _)
    have hle : bs[i].firstKey ≤ k := (compare_lt_iff_lt.1 (hlt _ hmem)).le
    have heq : bs = bs.take i ++ bs[i] :: bs.drop (i + 1) := by
      rw [getElem_cons_drop, take_append_drop]
    refine ⟨bs.take i, bs[i], bs.drop (i + 1), heq, by simp; omega, hle, key _ _ _ heq hle, ?_⟩
    intro x hx
    rw [heq, contents_append] at h
    exact lt_of_mem_contents (ascending_append.1 (ascending_append.1 h).2.1).2.1
      (fun b hb => compare_gt_iff_gt.1 (hgt b hb)) hx

/-! ## Point lookups -/

variable {l : List (K × A)}

theorem Ascending.rising (h : Ascending l) (k : K) :
    Rising (fun x : K × A => compare x.1 k) l := by
  refine h.imp fun {a b} hab => ?_
  simp only [compare_gt_iff_gt, compare_lt_iff_lt]
  exact ⟨fun hk => lt_trans hk hab, fun hk => lt_trans hab hk⟩

def searchEntries (l : List (K × A)) (k : K) : Option A :=
  match binarySearchBy (fun x : K × A => compare x.1 k) l with
  | .ok i => l[i]?.map Prod.snd
  | .error _ => none

theorem searchEntries_eq (h : Ascending l) (k : K) :
    searchEntries l k = l.lookup k := by
  unfold searchEntries
  split
  · next i hs =>
    obtain ⟨x, hx, he⟩ := binarySearchBy_ok hs
    have hk : x.1 = k := compare_eq_iff_eq.1 he
    rw [hx, map_some, h.lookup_of_mem]
    exact hk ▸ mem_of_getElem? hx
  · next i hs =>
    refine (lookup_eq_none.2 fun x hx hk => ?_).symm
    obtain ⟨j, hj⟩ := exists_binarySearchBy (h.rising k) hx (compare_eq_iff_eq.2 hk)
    rw [hs] at hj
    cases hj

/-- The slot of `k`, through the block index. -/
def findInBlocks (bs : List (Block K A)) (k : K) : Option A :=
  match blockIndex bs k with
  | none => none
  | some i => bs[i]?.bind fun b => searchEntries b.entries k

theorem findInBlocks_eq (h : Ascending (contents bs)) (k : K) :
    findInBlocks bs k = (contents bs).lookup k := by
  unfold findInBlocks
  cases hi : blockIndex bs k with
  | none => exact (lookup_eq_none.2 fun x hx => ne_of_gt (blockIndex_none h hi x hx)).symm
  | some i =>
    obtain ⟨pre, b, post, rfl, rfl, -, hpre, hpost⟩ := blockIndex_some h hi
    have hasc : Ascending b.entries := (pairwise_flatMap.1 h).1 b (by simp)
    simp only [getElem?_append_right le_rfl, Nat.sub_self, getElem?_cons_zero,
      bind_some, searchEntries_eq hasc]
    rw [contents_append, contents_cons, lookup_append,
      lookup_eq_none.2 fun x hx => ne_of_lt (hpre x hx), none_or,
      lookup_append, lookup_eq_none.2 fun x hx => ne_of_gt (hpost x hx), or_none]

/-! ## Range scans -/

def inRange (lo hi : K) (x : K × A) : Bool := decide (lo ≤ x.1) && decide (x.1 ≤ hi)

@[simp] theorem inRange_iff {lo hi : K} {x : K × A} :
    inRange lo hi x = true ↔ lo ≤ x.1 ∧ x.1 ≤ hi := by
  simp [inRange]

/-- From the block of `lo` on, up to the first block past `hi`. -/
def scanBlocks (bs : List (Block K A)) (lo hi : K) : List (K × A) :=
  ((bs.drop ((blockIndex bs lo).getD 0)).takeWhile fun b => decide (b.firstKey ≤ hi)).flatMap
    fun b => b.entries.filter (inRange lo hi)

theorem flatMap_takeWhile_filter (h : Ascending (contents bs)) (lo hi : K) :
    ((bs.takeWhile fun b => decide (b.firstKey ≤ hi)).flatMap
      fun b => b.entries.filter (inRange lo hi)) = (contents bs).filter (inRange lo hi) := by
  induction bs with
  | nil => rfl
  | cons b bs ih =>
    rw [contents_cons] at h
    rw [takeWhile_cons, contents_cons, filter_append]
    split
    · rw [flatMap_cons, ih (ascending_append.1 h).2.1]
    · next hgt =>
      have hlt : hi < b.firstKey := by simpa using hgt
      have hnone : ∀ x ∈ b.entries ++ contents bs, ¬ inRange lo hi x = true := by
        intro x hx hin
        obtain ⟨a, l, hb⟩ := b.exists_entries_eq
        have hle : b.firstKey ≤ x.1 := by
          rw [hb] at h hx
          rcases mem_cons.1 hx with rfl | hx
          · exact le_rfl
          · exact ((ascending_cons.1 h).1 x hx).le
        exact absurd (inRange_iff.1 hin).2 (not_le.2 (hlt.trans_le hle))
      rw [← filter_append, filter_eq_nil_iff.2 hnone]
      rfl

theorem scanBlocks_eq (h : Ascending (contents bs)) (lo hi : K) :
    scanBlocks bs lo hi = (contents bs).filter (inRange lo hi) := by
  unfold scanBlocks
  cases hi' : blockIndex bs lo with
  | none => rw [getD_none, drop_zero, flatMap_takeWhile_filter h]
  | some i =>
    obtain ⟨pre, b, post, rfl, rfl, -, hpre, -⟩ := blockIndex_some h hi'
    rw [contents_append] at h
    rw [getD_some, drop_left, flatMap_takeWhile_filter (ascending_append.1 h).2.1,
      contents_append, filter_append]
    have hbelow : (contents pre).filter (inRange lo hi) = [] := filter_eq_nil_iff.2
      fun x hx hin => absurd (inRange_iff.1 hin).1 (not_le.2 (hpre x hx))
    rw [hbelow, nil_append]

/-! ## Cursors -/

/-- Where the entries at or above `k` start in a block. -/
def lowerBound (l : List (K × A)) (k : K) : Nat :=
  match binarySearchBy (fun x : K × A => compare x.1 k) l with
  | .ok i => i
  | .error i => i

/-- A position in a run of blocks, one block loaded. -/
structure Cursor (K A : Type*) where
  blocks : List (Block K A)
  blockIdx : Nat
  current : List (K × A)
  entryIdx : Nat
  stop : Option K
  exhausted : Bool

namespace Cursor

def past (c : Cursor K A) (k : K) : Bool :=
  match c.stop with
  | none => false
  | some hi => decide (hi < k)

def checkEndBound (c : Cursor K A) : Cursor K A :=
  if c.exhausted then c
  else match c.current[c.entryIdx]? with
    | none => c
    | some x => if c.past x.1 then { c with exhausted := true } else c

def peek (c : Cursor K A) : Option (K × A) :=
  if c.exhausted then none else c.current[c.entryIdx]?

/-- Load blocks until an entry is at the position, up to the bound. -/
def load : Nat → Cursor K A → Cursor K A
  | 0, c => c
  | n + 1, c =>
    if c.entryIdx < c.current.length then c
    else match c.blocks[c.blockIdx + 1]? with
      | none => { c with blockIdx := c.blockIdx + 1 }
      | some b =>
        if c.past b.firstKey then { c with blockIdx := c.blockIdx + 1, exhausted := true }
        else load n { c with blockIdx := c.blockIdx + 1, current := b.entries, entryIdx := 0 }

def advance (c : Cursor K A) : Cursor K A :=
  if c.exhausted then c
  else (load (c.blocks.length + 1) { c with entryIdx := c.entryIdx + 1 }).checkEndBound

/-- The first position at or above `lo`. -/
def opened (bs : List (Block K A)) (lo hi : Option K) : Cursor K A :=
  let idx := match lo with
    | none => 0
    | some k => (blockIndex bs k).getD 0
  let current := match bs[idx]? with
    | none => []
    | some b => b.entries
  let entryIdx := match lo with
    | none => 0
    | some k => lowerBound current k
  ⟨bs, idx, current, entryIdx, hi, false⟩

/-- A cursor over the inclusive range from `lo` to `hi`. -/
def newWithEnd (bs : List (Block K A)) (lo hi : Option K) : Cursor K A :=
  let c := opened bs lo hi
  (if !bs.isEmpty && decide (c.current.length ≤ c.entryIdx) then c.advance else c).checkEndBound

/-- What repeated `peek` and `advance` yield. -/
def drain : Nat → Cursor K A → List (K × A)
  | 0, _ => []
  | n + 1, c =>
    match c.peek with
    | none => []
    | some x => x :: drain n c.advance

def upcoming (c : Cursor K A) : List (K × A) :=
  c.current.drop c.entryIdx ++ contents (c.blocks.drop (c.blockIdx + 1))

def rest (c : Cursor K A) : List (K × A) :=
  if c.exhausted then [] else c.upcoming.takeWhile fun x => !c.past x.1

/-- The position is on an entry, or nothing is left. -/
def Placed (c : Cursor K A) : Prop :=
  c.exhausted = true ∨ c.upcoming = [] ∨ c.entryIdx < c.current.length

/-- The position is on an entry inside the bound, or nothing is left. -/
def Settled (c : Cursor K A) : Prop :=
  c.exhausted = true ∨ c.upcoming = [] ∨
    ∃ x l, c.current.drop c.entryIdx = x :: l ∧ c.past x.1 = false

variable {c : Cursor K A}

theorem peek_eq (h : c.Settled) : c.peek = c.rest.head? := by
  unfold peek rest
  rcases h with he | hnil | ⟨x, l, hx, hp⟩
  · simp [he]
  · have hcur : c.current.drop c.entryIdx = [] := (append_eq_nil_iff.1 hnil).1
    simp [hnil, getElem?_eq_none (drop_eq_nil_iff.1 hcur)]
  · have hget : c.current[c.entryIdx]? = some x := by
      rw [← head?_drop, hx]
      rfl
    by_cases he : c.exhausted
    · simp [he]
    · simp [he, hget, upcoming, hx, hp]

theorem rest_checkEndBound (c : Cursor K A) (hpos : c.Placed) :
    c.checkEndBound.rest = c.rest ∧ c.checkEndBound.Settled := by
  unfold checkEndBound
  split
  · next he => exact ⟨rfl, .inl he⟩
  · next he =>
    rcases hpos with hex | hnil | hlt
    · exact absurd hex he
    · have hcur : c.current.drop c.entryIdx = [] := (append_eq_nil_iff.1 hnil).1
      rw [getElem?_eq_none (drop_eq_nil_iff.1 hcur)]
      exact ⟨rfl, .inr (.inl hnil)⟩
    · obtain ⟨l, hdrop⟩ : ∃ l, c.current.drop c.entryIdx = c.current[c.entryIdx] :: l :=
        ⟨_, (getElem_cons_drop hlt).symm⟩
      rw [getElem?_eq_getElem hlt]
      dsimp only
      split
      · next hp =>
        refine ⟨?_, .inl rfl⟩
        simp [rest, upcoming, hdrop, hp]
      · next hp => exact ⟨rfl, .inr (.inr ⟨_, l, hdrop, by simpa using hp⟩)⟩

theorem rest_load (he : c.exhausted = false) :
    (load (c.blocks.length + 1) c).rest = c.rest ∧ (load (c.blocks.length + 1) c).Placed := by
  simp only [load]
  split
  · next hlt => exact ⟨rfl, .inr (.inr hlt)⟩
  · next hge =>
    have hcur : c.current.drop c.entryIdx = [] := drop_eq_nil_iff.2 (by omega)
    split
    · next hb =>
      have hnil : c.blocks.drop (c.blockIdx + 1) = [] :=
        drop_eq_nil_iff.2 (getElem?_eq_none_iff.1 hb)
      have hnil' : c.blocks.drop (c.blockIdx + 1 + 1) = [] := by
        rw [← drop_drop, hnil, drop_nil]
      refine ⟨?_, .inr (.inl ?_)⟩
      · simp [rest, upcoming, past, hnil, hnil']
      · simp [upcoming, hcur, hnil']
    · next b hb =>
      obtain ⟨hidx, rfl⟩ := List.getElem?_eq_some_iff.mp hb
      obtain ⟨bs, hdrop, hbs⟩ : ∃ bs, c.blocks.drop (c.blockIdx + 1)
          = c.blocks[c.blockIdx + 1] :: bs ∧ c.blocks.drop (c.blockIdx + 1 + 1) = bs :=
        ⟨_, (getElem_cons_drop hidx).symm, rfl⟩
      obtain ⟨a, l, hent⟩ := Block.exists_entries_eq c.blocks[c.blockIdx + 1]
      split
      · next hp =>
        refine ⟨?_, .inl rfl⟩
        simp [rest, upcoming, hcur, hdrop, hent, he, hp]
      · have hpos : 0 < c.blocks[c.blockIdx + 1].entries.length := by simp [hent]
        obtain ⟨n, hn⟩ : ∃ n, c.blocks.length = n + 1 := ⟨c.blocks.length - 1, by omega⟩
        rw [hn]
        rw [load, if_pos hpos]
        refine ⟨?_, .inr (.inr hpos)⟩
        simp [rest, upcoming, past, hcur, hdrop, hbs]

theorem rest_advance (he : c.exhausted = false) :
    c.advance.rest = ({ c with entryIdx := c.entryIdx + 1 } : Cursor K A).rest ∧
      c.advance.Settled := by
  obtain ⟨hrest, hpos⟩ := rest_load (c := { c with entryIdx := c.entryIdx + 1 }) he
  obtain ⟨hcheck, hset⟩ := rest_checkEndBound _ hpos
  unfold advance
  rw [if_neg (by simp [he])]
  exact ⟨hcheck.trans hrest, hset⟩

theorem rest_of_advance (h : c.Settled) {x : K × A} (hr : c.rest = x :: l) :
    c.advance.rest = l ∧ c.advance.Settled := by
  have he : c.exhausted = false := by
    by_contra hex
    rw [rest, if_pos (by simpa using hex)] at hr
    cases hr
  obtain ⟨hadv, hset⟩ := rest_advance he
  refine ⟨hadv.trans ?_, hset⟩
  rcases h with hex | hnil | ⟨y, m, hy, hp⟩
  · rw [he] at hex
    cases hex
  · simp [rest, hnil] at hr
  · have hnext : c.current.drop (c.entryIdx + 1) = m := by
      rw [← drop_drop, hy]
      rfl
    simp only [rest, he, upcoming, hy, cons_append, takeWhile_cons, hp, Bool.not_false,
      if_true, Bool.false_eq_true, if_false, cons.injEq] at hr
    simp only [rest, he, upcoming, hnext]
    exact hr.2

theorem drain_eq {n : Nat} (h : c.Settled) (hn : c.rest.length ≤ n) :
    drain n c = c.rest := by
  induction n generalizing c with
  | zero => exact (eq_nil_of_length_eq_zero (Nat.le_zero.1 hn)).symm
  | succ n ih =>
    simp only [drain, peek_eq h]
    cases hr : c.rest with
    | nil => rfl
    | cons x l =>
      obtain ⟨hadv, hset⟩ := rest_of_advance h hr
      rw [hr, length_cons] at hn
      exact congrArg (x :: ·) ((ih hset (by rw [hadv]; omega)).trans hadv)

end Cursor

/-! ## What a cursor yields -/

theorem drop_lowerBound (h : Ascending l) (k : K) :
    l.drop (lowerBound l k) = l.filter fun x => decide (k ≤ x.1) := by
  obtain ⟨hlt, hge⟩ : (∀ x ∈ l.take (lowerBound l k), x.1 < k) ∧
      ∀ x ∈ l.drop (lowerBound l k), k ≤ x.1 := by
    unfold lowerBound
    cases hs : binarySearchBy (fun x : K × A => compare x.1 k) l with
    | ok i =>
      obtain ⟨pre, x, post, rfl, rfl, he⟩ := binarySearchBy_split hs
      obtain rfl : x.1 = k := compare_eq_iff_eq.1 he
      obtain ⟨-, hpost, hpre⟩ := ascending_append.1 h
      rw [take_left, drop_left]
      refine ⟨fun y hy => hpre y hy x mem_cons_self, fun y hy => ?_⟩
      rcases mem_cons.1 hy with rfl | hy
      · exact le_rfl
      · exact ((ascending_cons.1 hpost).1 y hy).le
    | error i =>
      obtain ⟨-, hlt, hgt⟩ := binarySearchBy_error (h.rising k) hs
      exact ⟨fun x hx => compare_lt_iff_lt.1 (hlt x hx),
        fun x hx => (compare_gt_iff_gt.1 (hgt x hx)).le⟩
  conv_rhs => rw [← take_append_drop (lowerBound l k) l]
  have hnil : (l.take (lowerBound l k)).filter (fun x => decide (k ≤ x.1)) = [] :=
    filter_eq_nil_iff.2 fun x hx => by simpa using hlt x hx
  rw [filter_append, hnil]
  exact (filter_eq_self.2 fun x hx => by simpa using hge x hx).symm

theorem Ascending.takeWhile_eq_filter (h : Ascending l) {p : K → Bool}
    (hp : ∀ a b, a < b → p b = true → p a = true) :
    l.takeWhile (fun x => p x.1) = l.filter fun x => p x.1 := by
  induction l with
  | nil => rfl
  | cons x l ih =>
    obtain ⟨hlt, hl⟩ := ascending_cons.1 h
    rw [takeWhile_cons, filter_cons, ih hl]
    split
    · rfl
    · next hx =>
      refine (filter_eq_nil_iff.2 fun y hy hpy => ?_).symm
      exact hx (hp x.1 y.1 (hlt y hy) hpy)

def inBounds (lo hi : Option K) (x : K × A) : Bool :=
  lo.all (fun k => decide (k ≤ x.1)) && hi.all fun k => decide (x.1 ≤ k)

namespace Cursor

theorem upcoming_opened (h : Ascending (contents bs)) (lo hi : Option K) :
    (opened bs lo hi).upcoming
      = (contents bs).filter fun x => lo.all fun k => decide (k ≤ x.1) := by
  cases lo with
  | none =>
    simp only [opened, upcoming]
    cases bs <;> simp
  | some k =>
    simp only [opened, upcoming, all_some]
    cases hi' : blockIndex bs k with
    | none =>
      have hall := blockIndex_none h hi'
      rw [filter_eq_self.2 fun x hx => by simpa using (hall x hx).le]
      cases bs with
      | nil => simp
      | cons b bs =>
        have hasc : Ascending b.entries := (pairwise_flatMap.1 h).1 b (by simp)
        simp only [getD_none, getElem?_cons_zero, drop_lowerBound hasc,
          drop_succ_cons, drop_zero, contents_cons]
        rw [filter_eq_self.2 fun x hx => by simpa using (hall x (by simp [hx])).le]
    | some i =>
      obtain ⟨pre, b, post, rfl, rfl, -, hpre, hpost⟩ := blockIndex_some h hi'
      have hasc : Ascending b.entries := (pairwise_flatMap.1 h).1 b (by simp)
      have hbelow : (contents pre).filter (fun x => decide (k ≤ x.1)) = [] :=
        filter_eq_nil_iff.2 fun x hx => by simpa using hpre x hx
      have habove : (contents post).filter (fun x => decide (k ≤ x.1)) = contents post :=
        filter_eq_self.2 fun x hx => by simpa using (hpost x hx).le
      have hdrop : (pre ++ b :: post).drop (pre.length + 1) = post := by
        rw [← drop_drop, drop_left]
        rfl
      simp only [getD_some, getElem?_append_right le_rfl, Nat.sub_self,
        getElem?_cons_zero, drop_lowerBound hasc, hdrop, contents_append, contents_cons,
        filter_append, hbelow, habove, nil_append]

theorem rest_newWithEnd (h : Ascending (contents bs)) (lo hi : Option K) :
    (newWithEnd bs lo hi).rest = (contents bs).filter (inBounds lo hi) ∧
      (newWithEnd bs lo hi).Settled := by
  set c := opened bs lo hi with hc
  have hup := upcoming_opened h lo hi
  have hrest : c.rest = (contents bs).filter (inBounds lo hi) := by
    have hasc : Ascending c.upcoming := by rw [hup]; exact h.filter _
    have hpast : c.past = fun k => !hi.all fun j => decide (k ≤ j) := by
      funext k
      cases hi with
      | none => rfl
      | some j =>
        show decide (j < k) = !decide (k ≤ j)
        by_cases hk : k ≤ j
        · simp [hk]
        · simp [not_le.1 hk]
    have hdown : ∀ a b, a < b → (!c.past b) = true → (!c.past a) = true := by
      intro a b hab
      rw [hpast]
      cases hi with
      | none => simp
      | some j => simpa using fun hb => hab.le.trans hb
    simp only [rest]
    rw [hasc.takeWhile_eq_filter hdown, hup, List.filter_filter, hpast]
    refine filter_congr fun x _ => ?_
    simp [inBounds, Bool.and_comm]
  unfold newWithEnd
  rw [← hc]
  dsimp only
  split
  · next hadv =>
    simp only [Bool.and_eq_true, decide_eq_true_eq] at hadv
    obtain ⟨hr, hset⟩ := rest_advance (c := c) rfl
    -- nothing was left in the first block, so the skipped position held no entry
    have hsame : ({ c with entryIdx := c.entryIdx + 1 } : Cursor K A).rest = c.rest := by
      have h₁ : c.current.drop c.entryIdx = [] := drop_eq_nil_iff.2 hadv.2
      have h₂ : c.current.drop (c.entryIdx + 1) = [] := drop_eq_nil_iff.2 (by omega)
      simp [rest, upcoming, h₁, h₂, past]
    have hpos : c.advance.Placed := by
      rcases hset with he | hnil | ⟨x, l, hx, -⟩
      · exact .inl he
      · exact .inr (.inl hnil)
      · refine .inr (.inr ?_)
        by_contra hge
        rw [drop_eq_nil_iff.2 (by omega)] at hx
        cases hx
    obtain ⟨hcheck, hset'⟩ := rest_checkEndBound _ hpos
    exact ⟨hcheck.trans (hr.trans (hsame.trans hrest)), hset'⟩
  · next hadv =>
    have hpos : c.Placed := by
      simp only [Bool.and_eq_true, decide_eq_true_eq, not_and, not_le] at hadv
      cases hbs : bs with
      | nil => exact .inr (.inl (by rw [hup, hbs]; rfl))
      | cons b l => exact .inr (.inr (hadv (by rw [hbs]; rfl)))
    obtain ⟨hcheck, hset'⟩ := rest_checkEndBound _ hpos
    exact ⟨hcheck.trans hrest, hset'⟩

/-- **Cursor.** A fresh cursor yields the entries of the run inside its bounds. -/
theorem drain_newWithEnd (h : Ascending (contents bs)) (lo hi : Option K) :
    drain (contents bs).length (newWithEnd bs lo hi) = (contents bs).filter (inBounds lo hi) := by
  obtain ⟨hrest, hset⟩ := rest_newWithEnd h lo hi
  rw [drain_eq hset (by rw [hrest]; exact length_filter_le ..), hrest]

end Cursor

end Dtdb.Lib
