import Mathlib.Data.Option.Basic
import Dtdb.Lib.Find
import Dtdb.Relational.Fit
import Dtdb.Relational.TableScan
import Dtdb.Storage.ReadPaths

/-! # Reading an open table

`get`, `multi_get`, `filtered_scan` and `scan_iter` of a table with the columns that are asked for,
which decide the groups' engines that are opened.  A scan of an inverted range panics if a memtable
holds something. -/

namespace Dtdb.Relational

open Dtdb.Lib Dtdb.Storage List Option

/-! ## Engines as readers see them -/

structure EngineView where
  store : Store
  inMemory : Bool

namespace EngineView

/-- `filtered_scan` and a drained `scan_iter`; `none` is a panic. -/
def scan (v : EngineView) (lo hi : DbKey) : Option (List (DbKey × Stored)) :=
  if v.inMemory ∧ hi < lo then none
  else some (v.store.entries.filter fun x => lo ≤ x.1 ∧ x.1 ≤ hi)

/-- A view is what a storage engine answers. -/
structure Shows {Λ : Type} [ByteSize DbKey] [ByteSize Stored] [DecidableEq Λ]
    (cfg : Config DbKey Stored Λ) (e : Engine DbKey Stored Λ) (v : EngineView) : Prop where
  get : ∀ k, e.get cfg k = .ok (v.store.get k)
  inMemory : v.inMemory = e.memtables.any fun m => !m.isEmpty

theorem scan_eq {v : EngineView} {lo hi : DbKey} (h : v.inMemory = false ∨ lo ≤ hi) :
    v.scan lo hi = some (v.store.entries.filter fun x => lo ≤ x.1 ∧ x.1 ≤ hi) := by
  refine if_neg fun ⟨hmem, hlt⟩ => ?_
  rcases h with h | h
  · rw [hmem] at h
    cases h
  · exact not_lt.2 h hlt

theorem scan_eq_none {v : EngineView} {lo hi : DbKey} :
    v.scan lo hi = none ↔ v.inMemory = true ∧ hi < lo := by
  unfold scan
  split
  · next h => exact iff_of_true rfl h
  · next h => exact iff_of_false nofun h

section

variable {Λ : Type} [ByteSize DbKey] [ByteSize Stored] [DecidableEq Λ]
variable {cfg : Config DbKey Stored Λ} {e : Engine DbKey Stored Λ} {v : EngineView}
variable {val : Hit Stored Λ → Option Stored} {lo hi : DbKey}

theorem Shows.rows_eq (h : Shows cfg e v) {rows : List (DbKey × Stored)}
    (hrows : RangeRows cfg e lo hi rows) :
    rows = v.store.entries.filter fun x => lo ≤ x.1 ∧ x.1 ≤ hi := by
  refine hrows.ascending.ext_mem (v.store.ascending.filter _) fun x => ?_
  rw [hrows.mem_iff, h.get, mem_filter]
  simp only [Except.ok.injEq, decide_eq_true_eq]
  rw [← SortedMap.mem_entries]
  tauto

/-- **The view's scan is the engine's.** -/
theorem Shows.filteredScan_eq (h : Shows cfg e v) (hres : e.Resolves cfg val)
    (hord : e.DeeperOrdered) (fmt : FileFormat DbKey Stored Λ) (hle : lo ≤ hi) :
    e.filteredScan fmt cfg lo hi (fun _ _ => true) = (v.scan lo hi).map .ok := by
  obtain ⟨rows, hscan, hrows⟩ := hres.filteredScan_rows fmt hord hle
  rw [hscan, scan_eq (.inr hle), h.rows_eq hrows]
  rfl

theorem Shows.scanIter_eq (h : Shows cfg e v) (hres : e.Resolves cfg val) (hord : e.DeeperOrdered)
    (fmt : FileFormat DbKey Stored Λ) (hle : lo ≤ hi) :
    (e.scanIter fmt lo hi).map (e.drainScan cfg) = (v.scan lo hi).map .ok := by
  obtain ⟨it, rows, hit, hdrain, hrows⟩ := hres.scanIter_rows fmt hord hle
  rw [hit, scan_eq (.inr hle), map_some, hdrain, h.rows_eq hrows]
  rfl

theorem Shows.filteredScan_inverted (h : Shows cfg e v) (fmt : FileFormat DbKey Stored Λ)
    (hlt : hi < lo) (hmem : v.inMemory = true) :
    e.filteredScan fmt cfg lo hi (fun _ _ => true) = none ∧ v.scan lo hi = none := by
  refine ⟨?_, scan_eq_none.2 ⟨hmem, hlt⟩⟩
  obtain ⟨m, hm, hne⟩ := any_eq_true.1 (h.inMemory ▸ hmem)
  have hnone : (e.memtables.mapM fun m : MemTable DbKey Stored => m.scanRangeRaw lo hi) = none := by
    cases hparts : e.memtables.mapM fun m : MemTable DbKey Stored => m.scanRangeRaw lo hi with
    | none => rfl
    | some parts =>
      obtain ⟨y, -, hy⟩ := exists_of_mapM hparts hm
      rw [MemTable.scanRangeRaw, if_neg (by simpa using hne), if_pos hlt] at hy
      cases hy
  rw [Engine.filteredScan, Engine.memPass, hnone]
  rfl

end

end EngineView

/-! ## Columns that are asked for -/

def endsWithDotSuffix (full suffix : String) : Bool := ('.' :: suffix.toList).isSuffixOf full.toList

def columnNamesMatch (a b : String) : Bool :=
  a == b || endsWithDotSuffix a b || endsWithDotSuffix b a

def Column.matchesName (c : Column) (queryName : String) : Bool := columnNamesMatch c.name queryName

def Column.Requested (cols : List String) (c : Column) : Prop :=
  cols.any (fun name => c.matchesName name) = true

instance (cols : List String) (c : Column) : Decidable (c.Requested cols) :=
  inferInstanceAs (Decidable (_ = _))

def Schema.neededGroups (s : Schema) : Option (List String) → List String
  | none => s.localityGroups
  | some cols =>
    let groups := ((cols.filterMap fun name => s.columns.find? fun c => c.matchesName name).map
      Column.group).dedup
    if groups.isEmpty then [""] else groups

/-- `from_bytes_projected`: the values at other positions are not decoded. -/
def projectRow (projection : Option (List Nat)) (row : Row) : Row :=
  match projection with
  | none => row
  | some projected => row.zipIdx.map fun x => if x.2 ∈ projected then x.1 else .null

def Schema.reconcileRowWithLayout (s : Schema) (row : Row) (layout : List Nat) : Row :=
  layout.zipIdx.foldl (fun values x =>
    match row[x.2]?, s.columns.findIdx? fun c => c.id = x.1 with
    | some v, some p => values.set p v
    | _, _ => values) s.defaultRowValues

def Schema.reconcileRow (s : Schema) (row : Row) : Row :=
  if row.length = s.columns.length then row
  else s.reconcileRowWithLayout row ((s.columns.take row.length).map Column.id)

/-! ## The iterator of a table -/

/-- A slot holds what its group's iterator has yet to return. -/
structure TableScanIterator where
  schema : Schema
  slots : List (List (DbKey × Stored))
  columnMapping : List (Option Nat × Nat)
  peeked : Option (DbKey × Row)
  singleGroup : Bool
  groupProjections : List (Option (List Nat))

def Schema.groupProjection (s : Schema) (cols : List String) (group : String) : List Nat :=
  ((s.groupColumns group).zipIdx.filter fun x => x.1.Requested cols).map Prod.snd

namespace TableScanIterator

def singleRow (it : TableScanIterator) : Stored → Row
  | .row r => it.schema.reconcileRow (projectRow (it.groupProjections.headD none) r)
  | _ => replicate it.schema.columns.length .null

def rowParts (it : TableScanIterator) (values : List (Option Stored)) : List (Option Row) :=
  (values.zip it.groupProjections).map fun x => (x.1.bind Stored.row?).map (projectRow x.2)

def mergedRow (it : TableScanIterator) (values : List (Option Stored)) : Row :=
  (it.schema.columns.zip it.columnMapping).map fun x =>
    ((x.2.1.bind fun slot => ((it.rowParts values)[slot]?).join).bind fun sub =>
      sub[x.2.2]?).getD x.1.default

def advance (it : TableScanIterator) : TableScanIterator :=
  if it.singleGroup then
    match it.slots with
    | (x :: rest) :: slots =>
      { it with slots := rest :: slots, peeked := some (x.1, it.singleRow x.2) }
    | _ => { it with peeked := none }
  else
    match leastHead it.slots with
    | none => { it with peeked := none }
    | some k => { it with
        slots := it.slots.map (skipAt k)
        peeked := some (k, it.mergedRow (it.slots.map (headAt k))) }

def prime (s : Schema) (neededGroups : List String) (groupIters : List (List (DbKey × Stored)))
    (columns : Option (List String)) : TableScanIterator where
  schema := s
  slots := groupIters
  columnMapping := s.columns.map fun c =>
    (neededGroups.findIdx? fun g => g = c.group, s.relativeIndex c)
  peeked := none
  singleGroup := s.localityGroups.length = 1 ∧ groupIters.length = 1
  groupProjections := neededGroups.map fun g => columns.map fun cols => s.groupProjection cols g

def new (s : Schema) (neededGroups : List String) (groupIters : List (List (DbKey × Stored)))
    (columns : Option (List String)) : TableScanIterator :=
  (prime s neededGroups groupIters columns).advance

def takeNext (it : TableScanIterator) : Option (DbKey × Row) × TableScanIterator :=
  match it.peeked with
  | some x => (some x, it.advance)
  | none => (none, it)

/-- The rows of an iterator that is called at most `n` times. -/
def drain : Nat → TableScanIterator → List (DbKey × Row)
  | 0, _ => []
  | n + 1, it => match it.takeNext with
    | (some x, it) => x :: drain n it
    | (none, _) => []

def rows (it : TableScanIterator) : List (DbKey × Row) :=
  it.drain (pendingEntries it.slots + 1)

end TableScanIterator

/-! ## The table -/

/-- Column ids are distinct, and a group's engine stores rows only. -/
structure OpenTable where
  schema : Schema
  engines : String → Option EngineView
  indexEngines : String → Option EngineView
  nodupIds : (schema.columns.map Column.id).Nodup
  rowsOnly : ∀ g v, engines g = some v → ∀ x ∈ v.store.entries, x.2.row?.isSome = true

namespace OpenTable

def part (t : OpenTable) (key : DbKey) (group : String) : Option Row :=
  (t.engines group).bind fun v => (v.store.get key).bind Stored.row?

def mergeNeeded (t : OpenTable) (needed : List String) (groupRows : String → Option Row) :
    Option Row :=
  if needed.any fun g => (groupRows g).isSome then
    some (t.schema.mergeRows fun g => if g ∈ needed then groupRows g else none)
  else none

def get (t : OpenTable) (key : DbKey) (columns : Option (List String)) : Option Row :=
  t.mergeNeeded (t.schema.neededGroups columns) (t.part key)

/-- Every engine answers all keys, then the answers are merged key by key. -/
def multiGet (t : OpenTable) (keys : List DbKey) (columns : Option (List String)) :
    List (Option Row) :=
  let groupResults (g : String) : Option (List (Option Row)) :=
    (t.engines g).map fun v => keys.map fun k => (v.store.get k).bind Stored.row?
  (range keys.length).map fun i =>
    t.mergeNeeded (t.schema.neededGroups columns) fun g => (groupResults g).bind (·[i]?.join)

def groupScan (t : OpenTable) (lo hi : DbKey) (group : String) : Option (List (DbKey × Stored)) :=
  match t.engines group with
  | some v => v.scan lo hi
  | none => some []

/-- `filtered_scan`; `none` is a panic. -/
def filteredScan (t : OpenTable) (lo hi : DbKey) (columns : Option (List String)) :
    Option (List (DbKey × Row)) := do
  let needed := t.schema.neededGroups columns
  let groupScans ← needed.mapM fun g => (t.groupScan lo hi g).map fun entries =>
    entries.filterMap fun x => x.2.row?.map (x.1, ·)
  return (join groupScans).map fun x => (x.1, t.schema.mergeRows (slotRow needed x.2))

/-- `scan_iter`; `none` is a panic. -/
def scanIter (t : OpenTable) (lo hi : DbKey) (columns : Option (List String)) :
    Option TableScanIterator :=
  let needed := t.schema.neededGroups columns
  (needed.mapM (t.groupScan lo hi)).map fun groupIters =>
    .new t.schema needed groupIters columns

end OpenTable

/-! ## Rows of the current width -/

namespace Schema

variable {s : Schema}

theorem getElem?_reconcileRowWithLayout (hids : (s.columns.map Column.id).Nodup) (row : Row) {n : Nat}
    (hn : n ≤ s.columns.length) (i : Nat) :
    (s.reconcileRowWithLayout row ((s.columns.take n).map Column.id))[i]?
      = s.columns[i]?.map fun c => if i < n then row[i]?.getD c.default else c.default := by
  induction n with
  | zero => simp [reconcileRowWithLayout, defaultRowValues]
  | succ n ih =>
    have ih := ih (by omega)
    obtain ⟨c, hc⟩ : ∃ c, s.columns[n]? = some c := ⟨_, getElem?_eq_getElem hn⟩
    have hidx : s.columns.findIdx? (fun d => d.id = c.id) = some n := findIdx?_of_nodup_map hids hc
    have hlen : ((s.columns.take n).map Column.id).length = n := by
      rw [length_map, length_take, min_eq_left (by omega)]
    -- the id at position `n` comes last
    have hlast : s.reconcileRowWithLayout row ((s.columns.take (n + 1)).map Column.id)
        = match row[n]? with
          | some v => (s.reconcileRowWithLayout row ((s.columns.take n).map Column.id)).set n v
          | none => s.reconcileRowWithLayout row ((s.columns.take n).map Column.id) := by
      unfold reconcileRowWithLayout
      rw [take_add_one, hc, toList_some, map_append, zipIdx_append,
        foldl_append, hlen]
      simp only [map_cons, map_nil, zipIdx_cons, zipIdx_nil, foldl_cons,
        foldl_nil, Nat.zero_add, hidx]
      cases row[n]? <;> rfl
    rw [hlast]
    by_cases hi : i = n
    · subst hi
      cases hv : row[i]? with
      | none =>
        rw [ih]
        simp
      | some v =>
        rw [hc] at ih
        obtain ⟨hlt, -⟩ := List.getElem?_eq_some_iff.mp ih
        rw [getElem?_set_self hlt, hc, map_some, if_pos (Nat.lt_succ_self i)]
        rfl
    · have hiff : i < n ↔ i < n + 1 := by omega
      simp only [← hiff, ← ih]
      cases row[n]? with
      | none => rfl
      | some v => exact getElem?_set_ne (Ne.symm hi)

theorem reconcileRow_eq (hids : (s.columns.map Column.id).Nodup) (row : Row) :
    s.reconcileRow row = fit s.columns row := by
  unfold reconcileRow
  split
  · next h => exact (fit_of_length h).symm
  · refine ext_getElem? fun i => ?_
    have hmin : s.columns.take row.length = s.columns.take (min row.length s.columns.length) := by
      rw [take_eq_take_min]
    rw [hmin, getElem?_reconcileRowWithLayout hids row (min_le_right _ _), getElem?_fit]
    refine map_congr fun c hc => ?_
    obtain ⟨hlt, -⟩ := List.getElem?_eq_some_iff.mp hc
    by_cases hi : i < row.length
    · rw [if_pos (lt_min hi hlt)]
    · rw [if_neg fun h => hi (h.trans_le (min_le_left _ _)), getElem?_eq_none (not_lt.1 hi)]
      rfl

end Schema

/-! ## What the iterator returns -/

namespace TableScanIterator

variable {it : TableScanIterator}

def upcoming (it : TableScanIterator) : List (DbKey × Row) :=
  if it.singleGroup then (it.slots.headD []).map fun x => (x.1, it.singleRow x.2)
  else (join it.slots).map fun x => (x.1, it.mergedRow x.2)

theorem advance_spec (it : TableScanIterator) :
    it.advance.peeked = it.upcoming.head? ∧ it.advance.upcoming = it.upcoming.tail := by
  unfold advance
  cases hsingle : it.singleGroup with
  | true =>
    match hslots : it.slots with
    | [] | [] :: slots => simp [upcoming, hsingle, hslots]
    | (x :: rest) :: slots =>
      simp only [upcoming, hsingle, hslots, if_true, headD_cons, map_cons,
        head?_cons, tail_cons, true_and]
      rfl
  | false =>
    cases hleast : leastHead it.slots with
    | none => simp [upcoming, hsingle, join_eq_nil hleast]
    | some k =>
      simp only [upcoming, hsingle, join_eq_of_leastHead hleast, Bool.false_eq_true, if_false,
        map_cons, head?_cons, tail_cons, true_and]
      rfl

theorem drain_advance (n : Nat) (it : TableScanIterator) :
    it.advance.drain n = it.upcoming.take n := by
  induction n generalizing it with
  | zero => rfl
  | succ n ih =>
    obtain ⟨hpeek, hup⟩ := it.advance_spec
    rw [drain, takeNext, hpeek]
    cases hrows : it.upcoming with
    | nil => rfl
    | cons x rows =>
      rw [head?_cons]
      dsimp only
      rw [ih, hup, hrows]
      rfl

theorem length_upcoming_le (it : TableScanIterator) :
    it.upcoming.length ≤ pendingEntries it.slots := by
  unfold upcoming
  split
  · cases hslots : it.slots with
    | nil => simp
    | cons l slots => simp [pendingEntries]
  · rw [length_map]
    exact length_joinLoop_le ..

theorem rows_advance (it : TableScanIterator) : it.advance.rows = it.upcoming := by
  obtain ⟨-, hup⟩ := it.advance_spec
  have hle := it.advance.length_upcoming_le
  rw [hup, length_tail] at hle
  rw [rows, drain_advance]
  exact take_of_length_le (by omega)

end TableScanIterator

/-! ## What the reads return -/

theorem slotRow_eq (groups : List String) (f : String → Option Row) :
    slotRow groups (groups.map f) = fun g => if g ∈ groups then f g else none := by
  funext g
  split
  · next hg => exact Table.slotRow_map f hg
  · next hg =>
    have hnone : (groups.zip (groups.map f)).lookup g = none :=
      lookup_eq_none.2 fun x hx heq => hg (heq ▸ (of_mem_zip hx).1)
    rw [slotRow, hnone]
    rfl

namespace OpenTable

variable {t : OpenTable} {lo hi : DbKey} {columns : Option (List String)}

theorem multiGet_eq (t : OpenTable) (keys : List DbKey) (columns : Option (List String)) :
    t.multiGet keys columns = keys.map fun k => t.get k columns := by
  unfold multiGet
  refine ext_getElem (by simp) fun i hi hi' => ?_
  rw [length_map] at hi'
  simp only [getElem_map]
  congr 1
  funext g
  unfold part
  cases t.engines g with
  | none => rfl
  | some v => simp [hi']

/-- The range does not make a scan of these groups panic. -/
def Calm (t : OpenTable) (groups : List String) (lo hi : DbKey) : Prop :=
  lo ≤ hi ∨ ∀ g ∈ groups, ∀ v, t.engines g = some v → v.inMemory = false

def groupRange (t : OpenTable) (lo hi : DbKey) (group : String) : List (DbKey × Stored) :=
  ((t.engines group).map fun v => v.store.entries.filter fun x => lo ≤ x.1 ∧ x.1 ≤ hi).getD []

theorem ascending_groupRange (t : OpenTable) (lo hi : DbKey) (g : String) :
    Ascending (t.groupRange lo hi g) := by
  unfold groupRange
  cases t.engines g with
  | none => exact .nil
  | some v => exact v.store.ascending.filter _

theorem lookup_groupRange (t : OpenTable) (lo hi k : DbKey) (g : String) :
    (t.groupRange lo hi g).lookup k
      = if lo ≤ k ∧ k ≤ hi then (t.part k g).map .row else none := by
  unfold groupRange part
  cases hv : t.engines g with
  | none => simp
  | some v =>
    have hfilter := v.store.ascending.lookup_filter (fun x => decide (lo ≤ x.1 ∧ x.1 ≤ hi)) k
    rw [map_some, getD_some, bind_some, hfilter]
    show (v.store.get k).filter _ = _
    cases hget : v.store.get k with
    | none => simp
    | some x =>
      have hrow := t.rowsOnly g v hv _ (SortedMap.mem_entries.2 hget)
      obtain ⟨r, rfl⟩ : ∃ r, x = .row r := by
        cases x with
        | row r => exact ⟨r, rfl⟩
        | null | positions ps => cases hrow
      by_cases hk : lo ≤ k ∧ k ≤ hi
      · simp [Option.filter, Stored.row?]
      · simp [hk]

theorem isSome_lookup_groupRange {k : DbKey} {g : String} :
    ((t.groupRange lo hi g).lookup k).isSome = true ↔
      (lo ≤ k ∧ k ≤ hi) ∧ (t.part k g).isSome = true := by
  rw [lookup_groupRange]
  split
  · next h => simp [h]
  · next h => simp [h]

theorem mapM_groupScan {groups : List String} (h : t.Calm groups lo hi) :
    groups.mapM (t.groupScan lo hi) = some (groups.map (t.groupRange lo hi)) := by
  rw [mapM_eq_some_iff, List.map_map]
  refine map_congr_left fun g hg => ?_
  show t.groupScan lo hi g = some (t.groupRange lo hi g)
  unfold groupScan groupRange
  cases hv : t.engines g with
  | none => rfl
  | some v => exact EngineView.scan_eq (h.symm.imp (fun h => h g hg v hv) id)

theorem mapM_groupScan_eq_none {groups : List String} (h : ¬ t.Calm groups lo hi) :
    groups.mapM (t.groupScan lo hi) = none := by
  unfold Calm at h
  push Not at h
  obtain ⟨hlt, g, hg, v, hv, hmem⟩ := h
  cases hscan : groups.mapM (t.groupScan lo hi) with
  | none => rfl
  | some l =>
    obtain ⟨y, -, hy⟩ := exists_of_mapM hscan hg
    have hpanic : v.scan lo hi = none := EngineView.scan_eq_none.2 ⟨by simpa using hmem, hlt⟩
    simp only [groupScan, hv, hpanic] at hy
    cases hy

theorem filteredScan_eq (t : OpenTable) (lo hi : DbKey) (columns : Option (List String)) :
    t.filteredScan lo hi columns
      = ((t.schema.neededGroups columns).mapM (t.groupScan lo hi)).map fun scans =>
        (join (scans.map fun entries => entries.filterMap fun x => x.2.row?.map (x.1, ·))).map
          fun x => (x.1, t.schema.mergeRows (slotRow (t.schema.neededGroups columns) x.2)) := by
  unfold filteredScan
  dsimp only
  rw [mapM_map]
  cases (t.schema.neededGroups columns).mapM (t.groupScan lo hi) <;> rfl

/-- **`filtered_scan` returns the rows of the range**, in key order. -/
theorem filteredScan_rows (h : t.Calm (t.schema.neededGroups columns) lo hi) :
    ∃ rows, t.filteredScan lo hi columns = some rows ∧ Ascending rows ∧
      ∀ k row, (k, row) ∈ rows ↔ (lo ≤ k ∧ k ≤ hi) ∧ t.get k columns = some row := by
  set needed := t.schema.neededGroups columns with hneeded
  let runs (g : String) : List (DbKey × Row) :=
    (t.groupRange lo hi g).filterMap fun x => x.2.row?.map (x.1, ·)
  have hasc : ∀ g, Ascending (runs g) := fun g => (t.ascending_groupRange lo hi g).filterMap _
  have hlookup : ∀ k g, (runs g).lookup k = if lo ≤ k ∧ k ≤ hi then t.part k g else none := by
    intro k g
    have hlook := lookup_filterMap (t.ascending_groupRange lo hi g).nodup (fun x => x.2.row?) k
    refine hlook.trans ?_
    rw [lookup_groupRange]
    split
    · cases t.part k g <;> rfl
    · rfl
  have hscan : t.filteredScan lo hi columns = some ((join (needed.map runs)).map fun x =>
      (x.1, t.schema.mergeRows (slotRow needed x.2))) := by
    rw [filteredScan_eq, mapM_groupScan h, map_some, List.map_map]
    rfl
  refine ⟨_, hscan, pairwise_map.2 (ascending_join_map needed hasc), fun k row => ?_⟩
  rw [List.mem_map]
  unfold get mergeNeeded
  constructor
  · rintro ⟨x, hx, heq⟩
    obtain ⟨rfl, rfl⟩ := Prod.mk.inj heq
    obtain ⟨hparts, g, hg, hsome⟩ := (mem_join_map hasc).1 hx
    have hk : lo ≤ x.1 ∧ x.1 ≤ hi := by
      by_contra hk
      rw [hlookup, if_neg hk] at hsome
      cases hsome
    simp only [hlookup, if_pos hk] at hparts hsome
    refine ⟨hk, ?_⟩
    rw [if_pos (any_eq_true.2 ⟨g, hg, hsome⟩), hparts, slotRow_eq]
  · rintro ⟨hk, hget⟩
    obtain ⟨hany, hget⟩ := ite_none_right_eq_some.1 hget
    obtain ⟨g, hg, hsome⟩ := any_eq_true.1 hany
    refine ⟨(k, needed.map (t.part k)), (mem_join_map hasc).2 ⟨?_, g, hg, ?_⟩, ?_⟩
    · simp [hlookup, if_pos hk]
    · rw [hlookup, if_pos hk]
      exact hsome
    · rw [← some.inj hget, slotRow_eq]

theorem filteredScan_eq_none (h : ¬ t.Calm (t.schema.neededGroups columns) lo hi) :
    t.filteredScan lo hi columns = none := by
  rw [filteredScan_eq, mapM_groupScan_eq_none h]
  rfl

def projectedPart (t : OpenTable) (columns : Option (List String)) (key : DbKey) (g : String) :
    Option Row :=
  (t.part key g).map (projectRow (columns.map fun cols => t.schema.groupProjection cols g))

def iterRow (t : OpenTable) (columns : Option (List String)) (key : DbKey) : Option Row :=
  match t.schema.localityGroups, t.schema.neededGroups columns with
  | [_], [g] => (t.projectedPart columns key g).map (fit t.schema.columns)
  | _, needed => t.mergeNeeded needed (t.projectedPart columns key)

theorem rowParts_prime (s : Schema) (needed : List String) (iters : List (List (DbKey × Stored)))
    (columns : Option (List String)) (f : String → Option Stored) :
    (TableScanIterator.prime s needed iters columns).rowParts (needed.map f)
      = needed.map fun g => ((f g).bind Stored.row?).map
        (projectRow (columns.map fun cols => s.groupProjection cols g)) := by
  unfold TableScanIterator.rowParts TableScanIterator.prime
  rw [List.zip_map', List.map_map]
  rfl

theorem mergedRow_prime (s : Schema) (needed : List String) (iters : List (List (DbKey × Stored)))
    (columns : Option (List String)) (f : String → Option Stored) :
    (TableScanIterator.prime s needed iters columns).mergedRow (needed.map f)
      = s.mergeRows fun g => if g ∈ needed then ((f g).bind Stored.row?).map
        (projectRow (columns.map fun cols => s.groupProjection cols g)) else none := by
  have hzip : s.columns.zip (s.columns.map fun c =>
      (needed.findIdx? fun g => g = c.group, s.relativeIndex c))
        = s.columns.map fun c => (c, needed.findIdx? fun g => g = c.group, s.relativeIndex c) := by
    conv_lhs => rw [← map_id' s.columns]
    rw [List.map_map, List.zip_map']
    rfl
  unfold TableScanIterator.mergedRow
  rw [rowParts_prime]
  show (s.columns.zip (s.columns.map fun c =>
    (needed.findIdx? fun g => g = c.group, s.relativeIndex c))).map _ = _
  rw [hzip, List.map_map]
  refine map_congr_left fun c _ => ?_
  simp only [Function.comp_apply]
  cases hslot : needed.findIdx? fun g => g = c.group with
  | none =>
    have hnot : c.group ∉ needed := fun hmem => by
      simpa using findIdx?_eq_none_iff.1 hslot _ hmem
    rw [if_neg hnot]
    rfl
  | some slot =>
    obtain ⟨hlt, hg, -⟩ := findIdx?_eq_some_iff_getElem.1 hslot
    have hg : needed[slot] = c.group := by simpa using hg
    have hmem : c.group ∈ needed := hg ▸ getElem_mem hlt
    rw [if_pos hmem, bind_some, getElem?_map, getElem?_eq_getElem hlt, hg]
    rfl

theorem mem_groupRange {k : DbKey} {v : Stored} {g : String} :
    (k, v) ∈ t.groupRange lo hi g ↔ (lo ≤ k ∧ k ≤ hi) ∧ (t.part k g).map .row = some v := by
  rw [(t.ascending_groupRange lo hi g).mem_iff, lookup_groupRange]
  split
  · next hk => exact (and_iff_right hk).symm
  · next hk => exact iff_of_false nofun fun h => hk h.1

theorem upcoming_single {s : String} (hs : t.schema.localityGroups = [s]) (g : String) (k : DbKey)
    (row : Row) :
    (k, row) ∈ (TableScanIterator.prime t.schema [g] [t.groupRange lo hi g] columns).upcoming ↔
      (lo ≤ k ∧ k ≤ hi) ∧ (t.projectedPart columns k g).map (fit t.schema.columns) = some row := by
  set it := TableScanIterator.prime t.schema [g] [t.groupRange lo hi g] columns with hit
  have hsingle : it.singleGroup = true := by
    rw [hit]
    simp [TableScanIterator.prime, hs]
  have hrow : ∀ r, it.singleRow (.row r) = fit t.schema.columns
      (projectRow (columns.map fun cols => t.schema.groupProjection cols g) r) :=
    fun r => Schema.reconcileRow_eq t.nodupIds _
  unfold TableScanIterator.upcoming
  rw [if_pos hsingle, List.mem_map]
  unfold projectedPart
  constructor
  · rintro ⟨⟨j, v⟩, hx, heq⟩
    obtain ⟨rfl, rfl⟩ := Prod.mk.inj heq
    obtain ⟨hk, hv⟩ := mem_groupRange.1 hx
    obtain ⟨r, hr, rfl⟩ := map_eq_some_iff.1 hv
    refine ⟨hk, ?_⟩
    rw [hr, hrow]
    rfl
  · rintro ⟨hk, heq⟩
    rw [Option.map_map] at heq
    obtain ⟨r, hr, rfl⟩ := map_eq_some_iff.1 heq
    refine ⟨(k, .row r), mem_groupRange.2 ⟨hk, by rw [hr]; rfl⟩, ?_⟩
    rw [hrow]
    rfl

theorem upcoming_merged {needed : List String}
    (hmany : ¬(t.schema.localityGroups.length = 1 ∧ needed.length = 1)) (k : DbKey) (row : Row) :
    (k, row) ∈ (TableScanIterator.prime t.schema needed (needed.map (t.groupRange lo hi))
        columns).upcoming ↔
      (lo ≤ k ∧ k ≤ hi) ∧ t.mergeNeeded needed (t.projectedPart columns k) = some row := by
  have hsingle : (TableScanIterator.prime t.schema needed (needed.map (t.groupRange lo hi))
      columns).singleGroup = false := by
    simpa [TableScanIterator.prime] using hmany
  have hbind : ∀ j g, lo ≤ j ∧ j ≤ hi →
      ((t.groupRange lo hi g).lookup j).bind Stored.row? = t.part j g := by
    intro j g hj
    rw [lookup_groupRange, if_pos hj]
    cases t.part j g <;> rfl
  have hany : ∀ g, (t.projectedPart columns k g).isSome = (t.part k g).isSome :=
    fun g => isSome_map
  unfold TableScanIterator.upcoming mergeNeeded
  rw [hsingle, if_neg nofun, List.mem_map]
  constructor
  · rintro ⟨x, hx, heq⟩
    obtain ⟨rfl, rfl⟩ := Prod.mk.inj heq
    obtain ⟨hparts, g, hg, hsome⟩ := (mem_join_map (t.ascending_groupRange lo hi)).1 hx
    obtain ⟨hk, hsome⟩ := isSome_lookup_groupRange.1 hsome
    refine ⟨hk, ?_⟩
    rw [if_pos (any_eq_true.2 ⟨g, hg, (hany g).trans hsome⟩), hparts, mergedRow_prime]
    simp only [hbind _ _ hk]
    rfl
  · rintro ⟨hk, heq⟩
    obtain ⟨hfound, heq⟩ := ite_none_right_eq_some.1 heq
    obtain ⟨g, hg, hsome⟩ := any_eq_true.1 hfound
    rw [hany] at hsome
    refine ⟨(k, needed.map fun g => (t.groupRange lo hi g).lookup k),
      (mem_join_map (t.ascending_groupRange lo hi)).2
        ⟨rfl, g, hg, isSome_lookup_groupRange.2 ⟨hk, hsome⟩⟩, ?_⟩
    rw [mergedRow_prime, ← some.inj heq]
    simp only [hbind _ _ hk]
    rfl

theorem ascending_upcoming (needed : List String) (columns : Option (List String)) :
    Ascending (TableScanIterator.prime t.schema needed (needed.map (t.groupRange lo hi))
      columns).upcoming := by
  unfold TableScanIterator.upcoming
  split
  · refine pairwise_map.2 ?_
    cases needed with
    | nil => exact .nil
    | cons g needed => exact t.ascending_groupRange lo hi g
  · exact pairwise_map.2 (ascending_join_map needed (t.ascending_groupRange lo hi))

theorem scanIter_upcoming (h : t.Calm (t.schema.neededGroups columns) lo hi) :
    ∃ ti : TableScanIterator, t.scanIter lo hi columns = some ti.advance ∧ Ascending ti.upcoming ∧
      ∀ k row, (k, row) ∈ ti.upcoming ↔ (lo ≤ k ∧ k ≤ hi) ∧ t.iterRow columns k = some row := by
  refine ⟨TableScanIterator.prime t.schema (t.schema.neededGroups columns)
    ((t.schema.neededGroups columns).map (t.groupRange lo hi)) columns,
    by rw [scanIter, mapM_groupScan h]; rfl, ascending_upcoming _ _, fun k row => ?_⟩
  unfold iterRow
  split
  · next s g hs hg =>
    rw [hg]
    exact upcoming_single hs g k row
  · next hmany =>
    refine upcoming_merged (fun ⟨hone, hlen⟩ => ?_) k row
    obtain ⟨s, hs⟩ := length_eq_one_iff.1 hone
    obtain ⟨g, hg⟩ := length_eq_one_iff.1 hlen
    exact hmany s g hs hg

/-- **A drained `scan_iter` returns the rows of the range**, in key order. -/
theorem scanIter_rows (h : t.Calm (t.schema.neededGroups columns) lo hi) :
    ∃ it, t.scanIter lo hi columns = some it ∧ Ascending it.rows ∧
      ∀ k row, (k, row) ∈ it.rows ↔ (lo ≤ k ∧ k ≤ hi) ∧ t.iterRow columns k = some row := by
  obtain ⟨ti, hti, hasc, hmem⟩ := scanIter_upcoming h
  refine ⟨_, hti, ?_⟩
  rw [ti.rows_advance]
  exact ⟨hasc, hmem⟩

theorem scanIter_eq_none (h : ¬ t.Calm (t.schema.neededGroups columns) lo hi) :
    t.scanIter lo hi columns = none := by
  unfold scanIter
  dsimp only
  rw [mapM_groupScan_eq_none h]
  rfl

end OpenTable

/-! ## The table as a map -/

namespace Table

variable {t : Table} {e : Engines}

def opened (t : Table) (e : Engines) (inMemory : EngineName → Bool)
    (hids : (t.schema.columns.map Column.id).Nodup)
    (hrows : ∀ g ∈ t.groups, ∀ x ∈ (e (.group g)).entries, x.2.row?.isSome = true) : OpenTable where
  schema := t.schema
  engines g := if g ∈ t.groups then some ⟨e (.group g), inMemory (.group g)⟩ else none
  indexEngines i := if i ∈ t.schema.indexes.map IndexDefinition.name then
    some ⟨e (.index i), inMemory (.index i)⟩ else none
  nodupIds := hids
  rowsOnly g v hv x hx := by
    split at hv
    · next hg =>
      cases hv
      exact hrows g hg x hx
    · cases hv

variable {inMemory : EngineName → Bool} {hids : (t.schema.columns.map Column.id).Nodup}
variable {hrows : ∀ g ∈ t.groups, ∀ x ∈ (e (.group g)).entries, x.2.row?.isSome = true}

theorem part_opened {g : String} (hg : g ∈ t.groups) (key : DbKey) :
    (t.opened e inMemory hids hrows).part key g = groupRow e key g := by
  simp [OpenTable.part, opened, if_pos hg, bind_row?]

theorem get_opened (key : DbKey) :
    (t.opened e inMemory hids hrows).get key none = t.get e key := by
  have hpart : ∀ g ∈ t.schema.localityGroups,
      (t.opened e inMemory hids hrows).part key g = groupRow e key g :=
    fun g hg => part_opened (t.covers g hg) key
  unfold OpenTable.get get
  rw [← mergeParts_congr hpart]
  have hrow : ∀ parts, t.schema.mergeRows (fun g => if g ∈ t.schema.localityGroups then parts g
      else none) = t.schema.mergeRows parts := fun parts =>
    map_congr_left fun c hc => by simp only [if_pos (Schema.group_mem_localityGroups hc)]
  exact if_congr .rfl (congrArg some (hrow _)) rfl

end Table

def OpenTable.ofRows (schema : Schema) (nodupIds : (schema.columns.map Column.id).Nodup)
    (rows : SortedMap DbKey Row) (indexEngines : String → Option EngineView) : OpenTable where
  schema := schema
  engines g := if g = "" then some ⟨rows.mapValues fun _ row => .row row, true⟩ else none
  indexEngines := indexEngines
  nodupIds := nodupIds
  rowsOnly g v hv x hx := by
    split at hv
    · cases hv
      obtain ⟨y, -, rfl⟩ := mem_map.mp hx
      rfl
    · cases hv

end Dtdb.Relational
