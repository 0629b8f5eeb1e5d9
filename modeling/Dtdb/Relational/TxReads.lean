import Dtdb.Lib.Overlay
import Dtdb.Relational.DdlTable
import Dtdb.Relational.Projection

/-! # Reading inside a transaction

A buffered row replaces the committed one and a buffered delete hides it.  The four overlays show
what the engines hold as long as the range is not inverted and the rows can be read back by column
names. -/

namespace Dtdb.Relational

open Dtdb.Lib Dtdb.Storage List Option

structure TransactionScanIterator where
  tableIter : TableScanIterator
  writeBufferEntries : List (DbKey × Option Row)
  seen : List DbKey
  dedup : Bool

namespace TransactionScanIterator

def new (tableIter : TableScanIterator) (writeBufferEntries : List (DbKey × Option Row)) :
    TransactionScanIterator :=
  ⟨tableIter, writeBufferEntries, [], !writeBufferEntries.isEmpty⟩

/-- How a turn of the loop of `next` ends. -/
inductive Turn where
  | done
  | skip (it : TransactionScanIterator)
  | yield (key : DbKey) (row : Row) (it : TransactionScanIterator)

/-- A buffered row is returned, a buffered delete is not. -/
def Turn.ofChange (key : DbKey) : Option Row → TransactionScanIterator → Turn
  | some row, it => .yield key row it
  | none, it => .skip it

/-- `!self.dedup || self.seen.insert(key)`. -/
def markSeen (it : TransactionScanIterator) (key : DbKey) : Option TransactionScanIterator :=
  if it.dedup then
    if key ∈ it.seen then none else some { it with seen := key :: it.seen }
  else some it

def takeWrite (it : TransactionScanIterator) (key : DbKey) (v : Option Row)
    (rest : List (DbKey × Option Row)) : Turn :=
  let it := { it with writeBufferEntries := rest }
  match it.markSeen key with
  | some it => .ofChange key v it
  | none => .skip it

def takeStorage (it : TransactionScanIterator) : Turn :=
  match it.tableIter.takeNext with
  | (none, tableIter) => .skip { it with tableIter }
  | (some (key, row), tableIter) =>
    let it := { it with tableIter }
    match it.markSeen key with
    | some it => .yield key row it
    | none => .skip it

def turn (it : TransactionScanIterator) : Turn :=
  match it.writeBufferEntries, it.tableIter.peeked with
  | [], none => .done
  | (key, v) :: rest, none => it.takeWrite key v rest
  | (key, v) :: rest, some (storageKey, _) =>
    if key ≤ storageKey then it.takeWrite key v rest else it.takeStorage
  | [], some _ => it.takeStorage

/-- The rows of at most `n` turns of the loop of `next`. -/
def drain : Nat → TransactionScanIterator → List (DbKey × Row)
  | 0, _ => []
  | n + 1, it => match it.turn with
    | .done => []
    | .skip it => drain n it
    | .yield key row it => (key, row) :: drain n it

def rows (it : TransactionScanIterator) : List Row :=
  (it.drain (it.writeBufferEntries.length + pendingEntries it.tableIter.slots + 1)).map Prod.snd

end TransactionScanIterator

structure TxTable where
  table : OpenTable
  buffer : SortedMap DbKey (Option Row)

namespace TxTable

def getProjected (tx : TxTable) (key : DbKey) (columns : Option (List String)) : Option Row :=
  match tx.buffer.get key with
  | some v => v
  | none => tx.table.get key columns

def multiGetProjected (tx : TxTable) (keys : List DbKey) (columns : Option (List String)) :
    List (Option Row) :=
  let results := keys.map fun key => (tx.buffer.get key).getD none
  let storage := keys.zipIdx.filter fun x => (tx.buffer.get x.1).isNone
  if storage.isEmpty then results
  else
    let storageResults := tx.table.multiGet (storage.map Prod.fst) columns
    ((storage.map Prod.snd).zip storageResults).foldl (fun results x => results.set x.1 x.2) results

def bufferRange (tx : TxTable) (lo hi : DbKey) : List (DbKey × Option Row) :=
  tx.buffer.entries.filter fun x => lo ≤ x.1 ∧ x.1 ≤ hi

/-- `filtered_scan_projected`; `none` is a panic. -/
def filteredScanProjected (tx : TxTable) (lo hi : DbKey) (columns : Option (List String))
    (filter : Row → Bool) : Option (List Row) :=
  let merged := (tx.bufferRange lo hi).foldl (fun merged x => match x.2 with
    | some row => merged.insert x.1 row
    | none => merged) SortedMap.empty
  let seen := (tx.bufferRange lo hi).map Prod.fst
  (tx.table.filteredScan lo hi columns).map fun engineEntries =>
    let merged := engineEntries.foldl (fun merged x =>
      if x.1 ∈ seen then merged else merged.insert x.1 x.2) merged
    (merged.entries.map Prod.snd).filter filter

/-- `scan_iter`; `none` is a panic. -/
def scanIter (tx : TxTable) (lo hi : DbKey) (columns : Option (List String)) :
    Option TransactionScanIterator :=
  (tx.table.scanIter lo hi columns).map fun tableIter => .new tableIter (tx.bufferRange lo hi)

end TxTable

/-! ## What is committed -/

def Schema.ownIndex (s : Schema) (i : Nat) (c : Column) : Nat :=
  ((s.columns.take i).filter fun d => d.group = c.group).length

namespace OpenTable

def committedRow (t : OpenTable) (key : DbKey) : Option Row :=
  if t.schema.localityGroups.any fun g => (t.part key g).isSome then
    some (t.schema.columns.zipIdx.map fun x =>
      ((t.part key x.1.group).bind fun r => r[t.schema.ownIndex x.2 x.1]?).getD x.1.default)
  else none

/-- A column and the first of its name in its group hold the same. -/
def ReadsOwn (t : OpenTable) (key : DbKey) : Prop :=
  ∀ (i : Nat) (c : Column), t.schema.columns[i]? = some c →
    ((t.part key c.group).bind fun r => r[t.schema.relativeIndex c]?).getD c.default
      = ((t.part key c.group).bind fun r => r[t.schema.ownIndex i c]?).getD c.default

end OpenTable

namespace TxTable

def view (tx : TxTable) (key : DbKey) : Option Row :=
  (tx.buffer.get key).getD (tx.table.committedRow key)

/-- All reads show the view, the scans in key order and without duplicates. -/
structure ReadsView (tx : TxTable) (lo hi : DbKey) : Prop where
  get : ∀ key, tx.getProjected key none = tx.view key
  multiGet : ∀ keys, tx.multiGetProjected keys none = keys.map tx.view
  scans : ∃ entries : List (DbKey × Row), Ascending entries ∧
    (∀ key row, (key, row) ∈ entries ↔ (lo ≤ key ∧ key ≤ hi) ∧ tx.view key = some row) ∧
    (∀ p, tx.filteredScanProjected lo hi none p = some ((entries.map Prod.snd).filter p)) ∧
    (tx.scanIter lo hi none).map TransactionScanIterator.rows = some (entries.map Prod.snd)

end TxTable

/-! ## The lazy merge -/

variable {key : DbKey}

namespace TransactionScanIterator

variable {it : TransactionScanIterator} {ti : TableScanIterator}

/-- What was seen comes before the buffer's entries and not after the table's rows. -/
structure Inv (it : TransactionScanIterator) (ti : TableScanIterator) : Prop where
  tableIter : it.tableIter = ti.advance
  changes : Ascending it.writeBufferEntries
  stored : Ascending ti.upcoming
  plain : it.dedup = false → it.writeBufferEntries = [] ∧ it.seen = []
  seenWrites : ∀ key ∈ it.seen, ∀ x ∈ it.writeBufferEntries, key < x.1
  seenRows : ∀ key ∈ it.seen, ∀ x ∈ ti.upcoming, key ≤ x.1

def fresh (seen : List DbKey) (rows : List (DbKey × Row)) : List (DbKey × Row) :=
  rows.filter fun x => x.1 ∉ seen

theorem fresh_cons_seen (key : DbKey) (seen : List DbKey) (rows : List (DbKey × Row)) :
    fresh (key :: seen) rows = (fresh seen rows).filter fun x => x.1 ≠ key := by
  unfold fresh
  rw [List.filter_filter]
  refine filter_congr fun x _ => ?_
  simp [not_or]

theorem Inv.takeWrite (h : it.Inv ti) {v : Option Row} {rest : List (DbKey × Option Row)}
    (hw : it.writeBufferEntries = (key, v) :: rest) (hle : ∀ x ∈ ti.upcoming, key ≤ x.1) :
    ∃ it' : TransactionScanIterator, it'.Inv ti ∧ it'.writeBufferEntries = rest ∧
      it'.seen = key :: it.seen ∧ it.takeWrite key v rest = .ofChange key v it' := by
  have hdedup : it.dedup = true := by
    by_contra hne
    have hnil := (h.plain (by simpa using hne)).1
    rw [hw] at hnil
    cases hnil
  have hnew : key ∉ it.seen := fun hmem =>
    lt_irrefl _ (h.seenWrites key hmem (key, v) (hw ▸ mem_cons_self))
  obtain ⟨hfirst, hrest⟩ := ascending_cons.1 (hw ▸ h.changes)
  refine ⟨{ it with writeBufferEntries := rest, seen := key :: it.seen }, ?_, rfl, rfl, ?_⟩
  · refine ⟨h.tableIter, hrest, h.stored, fun hfalse => ?_, fun j hj x hx => ?_, fun j hj => ?_⟩
    · exact absurd (hdedup.symm.trans hfalse) nofun
    · rcases mem_cons.1 hj with rfl | hj
      · exact hfirst x hx
      · exact h.seenWrites j hj x (hw ▸ mem_cons_of_mem _ hx)
    · rcases mem_cons.1 hj with rfl | hj
      · exact hle
      · exact h.seenRows j hj
  · unfold TransactionScanIterator.takeWrite markSeen
    simp only [hdedup, if_true, if_neg hnew]

theorem Inv.takeStorage (h : it.Inv ti) {x : DbKey × Row} {rows : List (DbKey × Row)}
    (hs : ti.upcoming = x :: rows) (hlt : ∀ y ∈ it.writeBufferEntries, x.1 < y.1) :
    ∃ it' : TransactionScanIterator, it'.Inv ti.advance ∧
      it'.writeBufferEntries = it.writeBufferEntries ∧
      fresh it'.seen rows = fresh it.seen rows ∧
      it.takeStorage = if x.1 ∈ it.seen then .skip it' else .yield x.1 x.2 it' := by
  obtain ⟨hpeek, hup⟩ := ti.advance_spec
  rw [hs, head?_cons] at hpeek
  rw [hs] at hup
  obtain ⟨hfirst, hrows⟩ := ascending_cons.1 (hs ▸ h.stored)
  have hnext : it.tableIter.takeNext = (some x, ti.advance.advance) := by
    rw [h.tableIter, TableScanIterator.takeNext, hpeek]
  have hold : ∀ key ∈ it.seen, ∀ y ∈ rows, key ≤ y.1 := fun key hkey y hy =>
    h.seenRows key hkey y (hs ▸ mem_cons_of_mem _ hy)
  have hkeep : { it with tableIter := ti.advance.advance }.Inv ti.advance :=
    ⟨rfl, h.changes, hup ▸ hrows, h.plain, h.seenWrites, hup ▸ hold⟩
  by_cases hseen : x.1 ∈ it.seen
  · refine ⟨_, hkeep, rfl, rfl, ?_⟩
    have hdedup : it.dedup = true := by
      by_contra hne
      rw [(h.plain (by simpa using hne)).2] at hseen
      cases hseen
    rw [TransactionScanIterator.takeStorage, hnext]
    simp only [markSeen, hdedup, if_true, if_pos hseen]
  · by_cases hdedup : it.dedup = true
    · refine ⟨{ it with tableIter := ti.advance.advance, seen := x.1 :: it.seen }, ?_, rfl, ?_, ?_⟩
      · refine ⟨rfl, h.changes, hup ▸ hrows, fun hfalse => ?_, fun key hkey => ?_, fun key hkey => ?_⟩
        · cases hdedup.symm.trans hfalse
        · rcases mem_cons.1 hkey with rfl | hkey
          · exact hlt
          · exact h.seenWrites key hkey
        · rw [hup]
          rcases mem_cons.1 hkey with rfl | hkey
          · exact fun y hy => le_of_lt (hfirst y hy)
          · exact hold key hkey
      · rw [fresh_cons_seen]
        exact filter_eq_self.2 fun y hy =>
          decide_eq_true (ne_of_gt (hfirst y (mem_of_mem_filter hy)))
      · rw [TransactionScanIterator.takeStorage, hnext]
        simp only [markSeen, hdedup, if_true, if_neg hseen]
    · refine ⟨_, hkeep, rfl, rfl, ?_⟩
      rw [if_neg hseen, TransactionScanIterator.takeStorage, hnext]
      simp only [hdedup]
      rfl

theorem turn_eq (h : it.tableIter = ti.advance) :
    it.turn = match it.writeBufferEntries, ti.upcoming with
      | [], [] => .done
      | (key, v) :: rest, [] => it.takeWrite key v rest
      | (key, v) :: rest, x :: _ =>
        if key ≤ x.1 then it.takeWrite key v rest else it.takeStorage
      | [], _ :: _ => it.takeStorage := by
  unfold turn
  rw [h, ti.advance_spec.1]
  cases it.writeBufferEntries <;> cases ti.upcoming <;> rfl

/-- **The lazy merge is the overlay**, whatever was taken before. -/
theorem Inv.overlays (h : it.Inv ti) {n : Nat}
    (hn : it.writeBufferEntries.length + ti.upcoming.length ≤ n) :
    Overlays it.writeBufferEntries (fresh it.seen ti.upcoming) (it.drain n) := by
  induction n generalizing it ti with
  | zero =>
    rw [eq_nil_of_length_eq_zero (by omega : it.writeBufferEntries.length = 0),
      eq_nil_of_length_eq_zero (by omega : ti.upcoming.length = 0)]
    exact .nil
  | succ n ih =>
    have hup := ti.advance_spec.2
    have hturn := turn_eq h.tableIter
    -- the buffer's first entry is taken
    have hwrite : ∀ {key v rest}, it.writeBufferEntries = (key, v) :: rest →
        (∀ x ∈ ti.upcoming, key ≤ x.1) → it.turn = it.takeWrite key v rest →
        Overlays it.writeBufferEntries (fresh it.seen ti.upcoming) (it.drain (n + 1)) := by
      intro key v rest hw hle hturn
      obtain ⟨it', hinv, hw', hs', htake⟩ := h.takeWrite hw hle
      have hout := ih hinv (by rw [hw']; rw [hw, length_cons] at hn; omega)
      rw [hw', hs', fresh_cons_seen] at hout
      have hall := hout.change (hw ▸ h.changes) fun x hx => hle x (mem_of_mem_filter hx)
      rw [drain, hturn, htake, hw]
      cases v <;> exact hall
    -- the table's next row is taken
    have hstorage : ∀ {x rows}, ti.upcoming = x :: rows →
        (∀ y ∈ it.writeBufferEntries, x.1 < y.1) → it.turn = it.takeStorage →
        Overlays it.writeBufferEntries (fresh it.seen ti.upcoming) (it.drain (n + 1)) := by
      intro x rows hs hlt hturn
      obtain ⟨it', hinv, hw', hfresh, htake⟩ := h.takeStorage hs hlt
      rw [hs, tail_cons] at hup
      have hout := ih hinv (by rw [hw', hup]; rw [hs, length_cons] at hn; omega)
      rw [hw', hup, hfresh] at hout
      have hasc : Ascending (fresh it.seen (x :: rows)) := (hs ▸ h.stored).filter _
      rw [drain, hturn, htake, hs]
      by_cases hseen : x.1 ∈ it.seen
      · rw [if_pos hseen, fresh, filter_cons_of_neg (by simpa using hseen)]
        exact hout
      · rw [fresh, filter_cons_of_pos (by simpa using hseen)] at hasc
        rw [if_neg hseen, fresh, filter_cons_of_pos (by simpa using hseen)]
        exact hout.keep hasc hlt
    match hw : it.writeBufferEntries, hs : ti.upcoming with
    | [], [] =>
      rw [hw, hs] at hturn
      rw [drain, hturn]
      exact .nil
    | (key, v) :: rest, [] =>
      rw [← hw, ← hs]
      refine hwrite hw (by rw [hs]; nofun) ?_
      rw [hturn, hw, hs]
    | [], x :: rows =>
      rw [← hw, ← hs]
      refine hstorage hs (by rw [hw]; nofun) ?_
      rw [hturn, hw, hs]
    | (key, v) :: rest, x :: rows =>
      obtain ⟨hfirst, -⟩ := ascending_cons.1 (hw ▸ h.changes)
      obtain ⟨hrows, -⟩ := ascending_cons.1 (hs ▸ h.stored)
      rw [hw, hs] at hturn
      dsimp only at hturn
      rw [← hw, ← hs]
      by_cases hle : key ≤ x.1
      · rw [if_pos hle] at hturn
        refine hwrite hw (fun y hy => ?_) hturn
        rcases mem_cons.1 (hs ▸ hy) with rfl | hy
        · exact hle
        · exact hle.trans (le_of_lt (hrows y hy))
      · rw [if_neg hle] at hturn
        refine hstorage hs (fun y hy => ?_) hturn
        rcases mem_cons.1 (hw ▸ hy) with rfl | hy
        · exact not_le.1 hle
        · exact (not_le.1 hle).trans (hfirst y hy)

theorem rows_new {changes : List (DbKey × Option Row)} (hc : Ascending changes)
    (hs : Ascending ti.upcoming) :
    ∃ entries, Overlays changes ti.upcoming entries ∧
      (new ti.advance changes).rows = entries.map Prod.snd := by
  have hinv : (new ti.advance changes).Inv ti := by
    refine ⟨rfl, hc, hs, fun hplain => ⟨?_, rfl⟩, nofun, nofun⟩
    simpa [new] using hplain
  have hlen : ti.upcoming.length ≤ pendingEntries ti.advance.slots + 1 := by
    have hle := ti.advance.length_upcoming_le
    rw [ti.advance_spec.2, length_tail] at hle
    omega
  have hout := hinv.overlays (n := changes.length + pendingEntries ti.advance.slots + 1)
    (by show changes.length + _ ≤ _; omega)
  have hfresh : fresh (new ti.advance changes).seen ti.upcoming = ti.upcoming :=
    filter_eq_self.2 fun _ _ => rfl
  rw [hfresh] at hout
  exact ⟨_, hout, rfl⟩

end TransactionScanIterator

/-! ## The other overlays -/

theorem getElem?_foldl_set {A : Type} (f : Nat → A) (is : List Nat) (l : List A) (j : Nat) :
    (is.foldl (fun l i => l.set i (f i)) l)[j]?
      = if j ∈ is then l[j]?.map fun _ => f j else l[j]? := by
  induction is generalizing l with
  | nil => simp
  | cons i is ih =>
    rw [foldl_cons, ih]
    by_cases hij : i = j
    · subst hij
      by_cases hlt : i < l.length
      · simp [hlt]
      · simp [hlt]
    · simp [getElem?_set_ne hij, Ne.symm hij]

namespace TxTable

variable {tx : TxTable} {lo hi : DbKey} {columns : Option (List String)}

theorem getProjected_eq (key : DbKey) :
    tx.getProjected key columns = (tx.buffer.get key).getD (tx.table.get key columns) := by
  unfold getProjected
  cases tx.buffer.get key <;> rfl

theorem multiGetProjected_eq (tx : TxTable) (keys : List DbKey) (columns : Option (List String)) :
    tx.multiGetProjected keys columns = keys.map fun key => tx.getProjected key columns := by
  set storage := keys.zipIdx.filter fun x => (tx.buffer.get x.1).isNone with hstorage
  have hmem : ∀ x ∈ storage, keys[x.2]? = some x.1 ∧ tx.buffer.get x.1 = none := by
    intro x hx
    obtain ⟨hx, hnone⟩ := mem_filter.1 hx
    exact ⟨mem_zipIdx_iff_getElem?.1 hx, isNone_iff_eq_none.1 hnone⟩
  -- a position is fetched exactly if its key is not buffered
  have hpos : ∀ i key, keys[i]? = some key → (i ∈ storage.map Prod.snd ↔ tx.buffer.get key = none) := by
    intro i key hi
    constructor
    · intro h
      obtain ⟨x, hx, rfl⟩ := mem_map.1 h
      obtain ⟨hkey, hnone⟩ := hmem x hx
      rwa [some.inj (hi.symm.trans hkey)]
    · intro hnone
      exact mem_map.2 ⟨(key, i), mem_filter.2
        ⟨mem_zipIdx_iff_getElem?.2 hi, by simp [hnone]⟩, rfl⟩
  have hfold : ((storage.map Prod.snd).zip (tx.table.multiGet (storage.map Prod.fst) columns)).foldl
      (fun results x => results.set x.1 x.2) (keys.map fun key => (tx.buffer.get key).getD none)
      = (storage.map Prod.snd).foldl (fun results i => results.set i
        (keys[i]?.bind fun key => tx.table.get key columns))
          (keys.map fun key => (tx.buffer.get key).getD none) := by
    rw [OpenTable.multiGet_eq, List.map_map, List.zip_map', List.foldl_map, List.foldl_map]
    refine foldl_ext _ _ _ fun results x hx => ?_
    simp [(hmem x hx).1]
  have hresult : tx.multiGetProjected keys columns = (storage.map Prod.snd).foldl
      (fun results i => results.set i (keys[i]?.bind fun key => tx.table.get key columns))
        (keys.map fun key => (tx.buffer.get key).getD none) := by
    unfold multiGetProjected
    dsimp only
    rw [← hstorage]
    split
    · next hnil =>
      rw [isEmpty_iff.1 hnil]
      rfl
    · exact hfold
  rw [hresult]
  refine ext_getElem? fun i => ?_
  rw [getElem?_foldl_set, getElem?_map, getElem?_map]
  cases hi : keys[i]? with
  | none => simp
  | some key =>
    simp only [map_some, getProjected_eq]
    split
    · next hin => simp [(hpos i key hi).1 hin]
    · next hout =>
      cases hb : tx.buffer.get key with
      | none => exact absurd ((hpos i key hi).2 hb) hout
      | some v => rfl

theorem ascending_bufferRange (tx : TxTable) (lo hi : DbKey) : Ascending (tx.bufferRange lo hi) :=
  tx.buffer.ascending.filter _

theorem lookup_bufferRange (key : DbKey) : (tx.bufferRange lo hi).lookup key
    = if lo ≤ key ∧ key ≤ hi then tx.buffer.get key else none := by
  unfold bufferRange
  rw [tx.buffer.ascending.lookup_filter]
  show (tx.buffer.get key).filter _ = _
  cases tx.buffer.get key with
  | none => simp
  | some v =>
    by_cases hk : lo ≤ key ∧ key ≤ hi
    · simp [Option.filter]
    · simp [Option.filter]

theorem filteredScanProjected_eq {rows : List (DbKey × Row)} (hasc : Ascending rows)
    (hscan : tx.table.filteredScan lo hi columns = some rows) :
    ∃ entries, Overlays (tx.bufferRange lo hi) rows entries ∧
      ∀ p, tx.filteredScanProjected lo hi columns p = some ((entries.map Prod.snd).filter p) := by
  let buffered := (tx.bufferRange lo hi).foldl (fun merged x => match x.2 with
    | some row => merged.insert x.1 row
    | none => merged) (SortedMap.empty : SortedMap DbKey Row)
  let seen := (tx.bufferRange lo hi).map Prod.fst
  let merged := rows.foldl (fun merged x =>
    if x.1 ∈ seen then merged else merged.insert x.1 x.2) buffered
  have hbuffered : ∀ key, buffered.get key = ((tx.bufferRange lo hi).lookup key).bind id := by
    intro key
    have hget := SortedMap.get_foldl_keep (tx.ascending_bufferRange lo hi).nodup (fun x => x.2)
      (SortedMap.empty : SortedMap DbKey Row) key
    rw [SortedMap.get_empty, or_none] at hget
    rw [← show _ = ((tx.bufferRange lo hi).lookup key).bind id from hget]
    refine congrArg (fun f => SortedMap.get ((tx.bufferRange lo hi).foldl f .empty) key) ?_
    funext m x
    cases x.2 <;> rfl
  have hmerged : ∀ key, merged.get key = ((rows.lookup key).bind fun row =>
      if key ∈ seen then none else some row).or (buffered.get key) := by
    intro key
    rw [← SortedMap.get_foldl_keep hasc.nodup (fun x => if x.1 ∈ seen then none else some x.2)]
    congr 1
    refine congrArg (fun f => rows.foldl f buffered) ?_
    funext m x
    by_cases hx : x.1 ∈ seen
    · simp [if_pos hx]
    · simp [if_neg hx]
  refine ⟨merged.entries, ⟨merged.ascending, fun key => (hmerged key).trans ?_⟩, fun p => ?_⟩
  · rw [hbuffered]
    cases hlook : (tx.bufferRange lo hi).lookup key with
    | none =>
      have hnot : key ∉ seen := fun hmem => by
        obtain ⟨x, hx, rfl⟩ := mem_map.1 hmem
        exact lookup_eq_none.1 hlook x hx rfl
      simp [hnot]
    | some v =>
      have hin : key ∈ seen := mem_map_of_mem (mem_of_lookup hlook)
      simp [hin]
  · rw [filteredScanProjected, hscan]
    rfl

end TxTable

/-! ## Reading back what is committed -/

namespace OpenTable

variable {t : OpenTable}

theorem getElem?_committedRow {row : Row} (h : t.committedRow key = some row) {i : Nat}
    {c : Column} (hc : t.schema.columns[i]? = some c) : row[i]?
      = some (((t.part key c.group).bind fun r => r[t.schema.ownIndex i c]?).getD c.default) := by
  obtain ⟨-, h⟩ := ite_none_right_eq_some.1 h
  cases h
  rw [getElem?_map, getElem?_zipIdx, hc, Nat.zero_add]
  rfl

theorem committedRow_isSome (key : DbKey) :
    (t.committedRow key).isSome = (t.get key none).isSome := by
  unfold committedRow get
  rw [show t.schema.neededGroups none = t.schema.localityGroups from rfl, mergeNeeded]
  split <;> rfl

theorem length_committedRow {row : Row} (h : t.committedRow key = some row) :
    row.length = t.schema.columns.length := by
  obtain ⟨-, h⟩ := ite_none_right_eq_some.1 h
  cases h
  simp

theorem length_get {columns : Option (List String)} {row : Row} (h : t.get key columns = some row) :
    row.length = t.schema.columns.length := by
  obtain ⟨-, h⟩ := ite_none_right_eq_some.1 h
  cases h
  exact Schema.length_mergeRows ..

/-- **Reading by names** returns what is committed where no column hides another. -/
theorem get_eq_committedRow_iff (key : DbKey) :
    t.get key none = t.committedRow key ↔ t.ReadsOwn key := by
  have hsome := t.committedRow_isSome key
  cases hget : t.get key none with
  | none =>
    rw [hget, isSome_none, Bool.eq_false_iff, ne_eq, not_isSome_iff_eq_none] at hsome
    refine iff_of_true hsome.symm fun i c hc => ?_
    have hpart : t.part key c.group = none := by
      have hnot : ¬ t.Holds (t.schema.neededGroups none) key := fun hheld => by
        have := (get_isSome key).2 hheld
        rw [hget] at this
        cases this
      by_contra hne
      exact hnot ⟨_, Schema.group_mem_localityGroups (mem_of_getElem? hc),
        isSome_iff_ne_none.2 hne⟩
    rw [hpart]
    rfl
  | some row =>
    rw [hget] at hsome
    obtain ⟨row', hrow'⟩ := isSome_iff_exists.1 hsome
    rw [hrow', some.injEq]
    constructor
    · rintro rfl i c hc
      exact some.inj ((getElem?_get_none hget hc).symm.trans (getElem?_committedRow hrow' hc))
    · intro hown
      refine ext_getElem? fun i => ?_
      cases hc : t.schema.columns[i]? with
      | none =>
        have hlen := getElem?_eq_none_iff.1 hc
        rw [getElem?_eq_none (length_get hget ▸ hlen),
          getElem?_eq_none (length_committedRow hrow' ▸ hlen)]
      | some c =>
        rw [getElem?_get_none hget hc, getElem?_committedRow hrow' hc, ← hown i c hc]
        rfl

theorem iterRow_of_single {g : String} (hg : t.schema.localityGroups = [g]) (key : DbKey) :
    t.iterRow none key = t.committedRow key := by
  have hnone : t.schema.neededGroups none = [g] := hg
  have hown : ∀ x ∈ t.schema.columns.zipIdx, x.1.group = g ∧ t.schema.ownIndex x.2 x.1 = x.2 := by
    intro x hx
    have hc := mem_zipIdx_iff_getElem?.1 hx
    have hgroup : ∀ d ∈ t.schema.columns, d.group = g := fun d hd =>
      mem_singleton.1 (hg ▸ Schema.group_mem_localityGroups hd)
    refine ⟨hgroup _ (mem_of_getElem? hc), ?_⟩
    obtain ⟨hlt, -⟩ := List.getElem?_eq_some_iff.mp hc
    unfold Schema.ownIndex
    rw [filter_eq_self.2 fun d hd => decide_eq_true ((hgroup d (mem_of_mem_take hd)).trans
      (hgroup _ (mem_of_getElem? hc)).symm), length_take, min_eq_left hlt.le]
  unfold iterRow committedRow
  simp only [hg, hnone, projectedPart_none, any_cons]
  cases hpart : t.part key g with
  | none => rfl
  | some r =>
    refine congrArg some (map_congr_left fun x hx => ?_)
    obtain ⟨hgroup, hidx⟩ := hown x hx
    rw [hgroup, hpart, hidx]
    rfl

theorem iterRow_eq_committedRow (h : t.ReadsOwn key) :
    t.iterRow none key = t.committedRow key := by
  by_cases hone : ∃ g, t.schema.localityGroups = [g]
  · obtain ⟨g, hg⟩ := hone
    exact iterRow_of_single hg key
  · rw [iterRow_of_many fun g hg => hone ⟨g, hg⟩, projectedPart_none]
    exact (get_eq_committedRow_iff key).2 h

end OpenTable

/-! ## All reads -/

namespace TxTable

variable {tx : TxTable} {lo hi : DbKey}

theorem mem_of_overlays {rows entries : List (DbKey × Row)} {f : DbKey → Option Row}
    (h : Overlays (tx.bufferRange lo hi) rows entries) (hasc : Ascending rows)
    (hrows : ∀ k row, (k, row) ∈ rows ↔ (lo ≤ k ∧ k ≤ hi) ∧ f k = some row)
    (hf : ∀ key, tx.buffer.get key = none → f key = tx.table.committedRow key) (key : DbKey)
    (row : Row) : (key, row) ∈ entries ↔ (lo ≤ key ∧ key ≤ hi) ∧ tx.view key = some row := by
  rw [h.ascending.mem_iff, h.lookup, lookup_bufferRange, view]
  by_cases hk : lo ≤ key ∧ key ≤ hi
  · rw [if_pos hk, and_iff_right hk]
    cases hb : tx.buffer.get key with
    | some v => rfl
    | none =>
      rw [getD_none, getD_none, ← hf key hb, ← hasc.mem_iff, hrows, and_iff_right hk]
  · rw [if_neg hk, getD_none, ← hasc.mem_iff, hrows]
    exact iff_of_false (fun h => hk h.1) fun h => hk h.1

/-- **Reads inside a transaction** show the committed rows with the buffer over them, exactly if
the range is not inverted over a memtable that holds something and every committed row that shows
can be read back by names. -/
theorem readsView_iff (tx : TxTable) (lo hi : DbKey) :
    tx.ReadsView lo hi ↔ tx.table.Calm tx.table.schema.localityGroups lo hi ∧
      ∀ key, tx.buffer.get key = none → tx.table.ReadsOwn key := by
  constructor
  · intro h
    refine ⟨?_, fun key hkey => ?_⟩
    · by_contra hcalm
      obtain ⟨entries, -, -, hscan, -⟩ := h.scans
      have hscan := hscan fun _ => true
      have hnone : tx.table.filteredScan lo hi none = none := OpenTable.filteredScan_eq_none hcalm
      rw [filteredScanProjected, hnone] at hscan
      cases hscan
    · have hget := h.get key
      rw [getProjected_eq, view, hkey] at hget
      exact (OpenTable.get_eq_committedRow_iff key).1 hget
  · rintro ⟨hcalm, hown⟩
    have hget : ∀ key, tx.buffer.get key = none →
        tx.table.get key none = tx.table.committedRow key :=
      fun key hkey => (OpenTable.get_eq_committedRow_iff key).2 (hown key hkey)
    have hview : ∀ key, tx.getProjected key none = tx.view key := by
      intro key
      rw [getProjected_eq, view]
      cases hb : tx.buffer.get key with
      | some v => rfl
      | none => exact hget key hb
    have hcalm : tx.table.Calm (tx.table.schema.neededGroups none) lo hi := hcalm
    obtain ⟨rows, hrows, hasc, hmem⟩ := OpenTable.filteredScan_rows hcalm
    obtain ⟨entries, hover, hscan⟩ := filteredScanProjected_eq hasc hrows
    obtain ⟨ti, hti, hasc', hmem'⟩ := OpenTable.scanIter_upcoming hcalm
    obtain ⟨entries', hover', hiter⟩ :=
      TransactionScanIterator.rows_new (tx.ascending_bufferRange lo hi) hasc'
    have hentries := mem_of_overlays hover hasc hmem hget
    have hentries' := mem_of_overlays hover' hasc' hmem' fun key hkey =>
      OpenTable.iterRow_eq_committedRow (hown key hkey)
    obtain rfl : entries = entries' := hover.ascending.ext_mem hover'.ascending fun x => by
      rw [hentries x.1 x.2, hentries' x.1 x.2]
    refine ⟨hview, fun keys => ?_, entries, hover.ascending, hentries, hscan, ?_⟩
    · rw [multiGetProjected_eq]
      exact map_congr_left fun key _ => hview key
    · rw [scanIter, hti]
      exact congrArg some hiter

def repeatedTable : OpenTable where
  schema := ⟨[⟨0, "k", .bool, true, false, none, none, false⟩, ⟨1, "a", .bool, false, true, none, none, false⟩,
    ⟨2, "a", .bool, false, true, none, none, false⟩], 3, []⟩
  engines g := if g = "" then some ⟨SortedMap.empty.insert (.bool true)
    (.row [.bool true, .bool true, .bool false]), true⟩ else none
  indexEngines _ := none
  nodupIds := by decide
  rowsOnly g v hv x hx := by
    split at hv
    · cases hv
      obtain rfl : x = (.bool true, .row [.bool true, .bool true, .bool false]) :=
        mem_singleton.mp hx
      rfl
    · cases hv

/-- Point reads return the first column's value twice, the iterator returns the row; and a scan of
an inverted range panics. -/
theorem reads_repeatedTable :
    let tx : TxTable := ⟨repeatedTable, .empty⟩
    tx.view (.bool true) = some [.bool true, .bool true, .bool false] ∧
      tx.getProjected (.bool true) none = some [.bool true, .bool true, .bool true] ∧
      tx.filteredScanProjected (.bool false) (.bool true) none (fun _ => true)
        = some [[.bool true, .bool true, .bool true]] ∧
      (tx.scanIter (.bool false) (.bool true) none).map TransactionScanIterator.rows
        = some [[.bool true, .bool true, .bool false]] ∧
      tx.filteredScanProjected (.bool true) (.bool false) none (fun _ => true) = none ∧
      ¬ tx.ReadsView (.bool false) (.bool true) := by
  refine ⟨by decide +kernel, by decide +kernel, by decide +kernel, by decide +kernel,
    by decide +kernel, fun h => ?_⟩
  exact absurd (h.get (.bool true)) (by decide +kernel)

end TxTable

end Dtdb.Relational
