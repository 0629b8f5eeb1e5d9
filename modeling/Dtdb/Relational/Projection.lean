import Dtdb.Relational.OpenTable

/-! # Reading some columns of a table

A read of some columns opens the engines of their groups only, and infers from these alone which
rows exist. -/

namespace Dtdb.Relational

open Dtdb.Lib Dtdb.Storage List Option

/-- Two rows agree on the columns that are asked for. -/
def Schema.SameOn (s : Schema) (cols : List String) (row row' : Row) : Prop :=
  ∀ (i : Nat) (c : Column), s.columns[i]? = some c → c.Requested cols → row[i]? = row'[i]?

/-- The same keys, with rows that agree on the columns that are asked for. -/
structure Schema.SameRows (s : Schema) (cols : List String)
    (scan scan' : Option (List (DbKey × Row))) : Prop where
  keys : ∀ k, k ∈ (scan.getD []).map Prod.fst ↔ k ∈ (scan'.getD []).map Prod.fst
  rows : ∀ k row row', (k, row) ∈ scan.getD [] → (k, row') ∈ scan'.getD [] → s.SameOn cols row row'

namespace OpenTable

/-- Each way of reading finds with `Some(cols)` what it finds with `None`. -/
structure ProjectionAgrees (t : OpenTable) (cols : List String) : Prop where
  get : ∀ key, Option.Rel (t.schema.SameOn cols) (t.get key (some cols)) (t.get key none)
  multiGet : ∀ keys, List.Forall₂ (Option.Rel (t.schema.SameOn cols))
    (t.multiGet keys (some cols)) (t.multiGet keys none)
  filteredScan : ∀ lo hi, t.schema.SameRows cols (t.filteredScan lo hi (some cols))
    (t.filteredScan lo hi none)
  scanIter : ∀ lo hi, t.schema.SameRows cols
    ((t.scanIter lo hi (some cols)).map TableScanIterator.rows)
    ((t.scanIter lo hi none).map TableScanIterator.rows)

def Holds (t : OpenTable) (groups : List String) (key : DbKey) : Prop :=
  ∃ g ∈ groups, (t.part key g).isSome = true

def value (t : OpenTable) (key : DbKey) (c : Column) : DbValue :=
  ((t.part key c.group).bind fun r => r[t.schema.relativeIndex c]?).getD c.default

/-- The groups that are opened for `cols` hold all keys, and a column of `cols` is in one of them,
or holds its default. -/
structure Covers (t : OpenTable) (cols : List String) : Prop where
  keys : ∀ key, t.Holds (t.schema.neededGroups (some cols)) key ↔ t.Holds t.schema.localityGroups key
  columns : ∀ c ∈ t.schema.columns, c.Requested cols → ∀ key,
    c.group ∈ t.schema.neededGroups (some cols) ∨ t.value key c = c.default

variable {t : OpenTable} {cols : List String} {columns : Option (List String)}

/-! ## Rows under a key -/

theorem rel_iff {A B : Type} {R : A → B → Prop} {p : Option A} {q : Option B} :
    Option.Rel R p q ↔ (p.isSome = true ↔ q.isSome = true) ∧
      ∀ a b, p = some a → q = some b → R a b := by
  constructor
  · rintro (hr | _)
    · refine ⟨Iff.rfl, fun a b ha hb => ?_⟩
      cases ha
      cases hb
      assumption
    · exact ⟨Iff.rfl, nofun⟩
  · rintro ⟨hsome, hr⟩
    cases p with
    | none =>
      cases q with
      | none => exact .none
      | some b => cases hsome.2 rfl
    | some a =>
      cases q with
      | none => cases hsome.1 rfl
      | some b => exact .some (hr a b rfl rfl)

theorem get_isSome (key : DbKey) :
    (t.get key columns).isSome = true ↔ t.Holds (t.schema.neededGroups columns) key := by
  unfold get mergeNeeded Holds
  rw [← List.any_eq_true]
  split
  · next h => exact iff_of_true rfl h
  · next h => exact iff_of_false nofun h

theorem getElem?_get {key : DbKey} {row : Row} (h : t.get key columns = some row) {i : Nat}
    {c : Column} (hc : t.schema.columns[i]? = some c) :
    row[i]? = some (if c.group ∈ t.schema.neededGroups columns then t.value key c else c.default) := by
  obtain ⟨-, h⟩ := ite_none_right_eq_some.1 h
  cases h
  rw [Schema.mergeRows, getElem?_map, hc, map_some]
  split
  · rfl
  · rfl

theorem getElem?_get_none {key : DbKey} {row : Row} (h : t.get key none = some row) {i : Nat}
    {c : Column} (hc : t.schema.columns[i]? = some c) : row[i]? = some (t.value key c) := by
  rw [getElem?_get h hc]
  exact congrArg some (if_pos (Schema.group_mem_localityGroups (mem_of_getElem? hc)))

theorem value_eq_default {key : DbKey} (h : ¬ t.Holds t.schema.localityGroups key) {c : Column}
    (hc : c ∈ t.schema.columns) : t.value key c = c.default := by
  have hpart : t.part key c.group = none := by
    by_contra hne
    exact h ⟨c.group, Schema.group_mem_localityGroups hc, isSome_iff_ne_none.2 hne⟩
  rw [value, hpart]
  rfl

theorem covers_iff_get : t.Covers cols ↔
    ∀ key, Option.Rel (t.schema.SameOn cols) (t.get key (some cols)) (t.get key none) := by
  have hall (key : DbKey) : (t.get key none).isSome = true ↔ t.Holds t.schema.localityGroups key :=
    get_isSome key
  constructor
  · intro h key
    refine rel_iff.2 ⟨(get_isSome key).trans ((h.keys key).trans (hall key).symm), ?_⟩
    intro row row' hrow hrow' i c hc hreq
    rw [getElem?_get hrow hc, getElem?_get_none hrow' hc]
    split
    · rfl
    · next hnot => rw [(h.columns c (mem_of_getElem? hc) hreq key).resolve_left hnot]
  · intro h
    have hkeys : ∀ key, t.Holds (t.schema.neededGroups (some cols)) key ↔
        t.Holds t.schema.localityGroups key := fun key =>
      (get_isSome key).symm.trans ((rel_iff.1 (h key)).1.trans (hall key))
    refine ⟨hkeys, fun c hc hreq key => ?_⟩
    by_cases hheld : t.Holds t.schema.localityGroups key
    · obtain ⟨row', hrow'⟩ := isSome_iff_exists.1 ((hall key).2 hheld)
      obtain ⟨row, hrow⟩ := isSome_iff_exists.1 ((get_isSome key).2 ((hkeys key).2 hheld))
      obtain ⟨i, hi⟩ := mem_iff_getElem?.1 hc
      have hsame := (rel_iff.1 (h key)).2 row row' hrow hrow' i c hi hreq
      rw [getElem?_get hrow hi, getElem?_get_none hrow' hi, some.injEq] at hsame
      split at hsame
      · next hmem => exact .inl hmem
      · exact .inr hsame.symm
    · exact .inr (value_eq_default hheld hc)

/-! ## Scans -/

theorem sameRows_of {scan scan' : Option (List (DbKey × Row))} {lo hi : DbKey}
    {f f' : DbKey → Option Row}
    (hrel : ∀ k, Option.Rel (t.schema.SameOn cols) (f k) (f' k))
    (hscan : ∀ k row, (k, row) ∈ scan.getD [] ↔ (lo ≤ k ∧ k ≤ hi) ∧ f k = some row)
    (hscan' : ∀ k row, (k, row) ∈ scan'.getD [] ↔ (lo ≤ k ∧ k ≤ hi) ∧ f' k = some row) :
    t.schema.SameRows cols scan scan' where
  keys k := by
    have hkey : ∀ {l : List (DbKey × Row)} {g : DbKey → Option Row},
        (∀ k row, (k, row) ∈ l ↔ (lo ≤ k ∧ k ≤ hi) ∧ g k = some row) →
        (k ∈ l.map Prod.fst ↔ (lo ≤ k ∧ k ≤ hi) ∧ (g k).isSome = true) := by
      intro l g hl
      rw [List.mem_map, isSome_iff_exists]
      constructor
      · rintro ⟨x, hx, rfl⟩
        obtain ⟨hk, hrow⟩ := (hl x.1 x.2).1 hx
        exact ⟨hk, x.2, hrow⟩
      · rintro ⟨hk, row, hrow⟩
        exact ⟨(k, row), (hl k row).2 ⟨hk, hrow⟩, rfl⟩
    rw [hkey hscan, hkey hscan', (rel_iff.1 (hrel k)).1]
  rows k row row' hrow hrow' :=
    (rel_iff.1 (hrel k)).2 row row' ((hscan k row).1 hrow).2 ((hscan' k row').1 hrow').2

theorem mem_filteredScan (lo hi : DbKey) (k : DbKey) (row : Row) :
    (k, row) ∈ (t.filteredScan lo hi columns).getD [] ↔
      (lo ≤ k ∧ k ≤ hi) ∧ t.get k columns = some row := by
  by_cases h : t.Calm (t.schema.neededGroups columns) lo hi
  · obtain ⟨rows, hrows, -, hmem⟩ := filteredScan_rows h
    rw [hrows]
    exact hmem k row
  · rw [filteredScan_eq_none h]
    exact iff_of_false not_mem_nil fun hk => h (.inl (hk.1.1.trans hk.1.2))

theorem mem_scanIter (lo hi : DbKey) (k : DbKey) (row : Row) :
    (k, row) ∈ ((t.scanIter lo hi columns).map TableScanIterator.rows).getD [] ↔
      (lo ≤ k ∧ k ≤ hi) ∧ t.iterRow columns k = some row := by
  by_cases h : t.Calm (t.schema.neededGroups columns) lo hi
  · obtain ⟨it, hit, -, hmem⟩ := scanIter_rows h
    rw [hit]
    exact hmem k row
  · rw [scanIter_eq_none h]
    exact iff_of_false not_mem_nil fun hk => h (.inl (hk.1.1.trans hk.1.2))

variable {g : String}

theorem mem_groupProjection {s : Schema} {p : Nat} :
    p ∈ s.groupProjection cols g ↔ ∃ d, (s.groupColumns g)[p]? = some d ∧ d.Requested cols := by
  unfold Schema.groupProjection
  simp only [List.mem_map, List.mem_filter, decide_eq_true_eq, Prod.exists, exists_eq_right,
    mem_zipIdx_iff_getElem?]

theorem getElem?_projectRow {s : Schema} {p : Nat} {d : Column}
    (hd : (s.groupColumns g)[p]? = some d) (hreq : d.Requested cols) (r : Row) :
    (projectRow (some (s.groupProjection cols g)) r)[p]? = r[p]? := by
  have hp : p ∈ s.groupProjection cols g := mem_groupProjection.2 ⟨d, hd, hreq⟩
  simp only [projectRow, getElem?_map, getElem?_zipIdx, Option.map_map]
  cases r[p]? with
  | none => rfl
  | some v => simp [hp]

theorem requested_of_name {c d : Column} (h : d.name = c.name) (hreq : c.Requested cols) :
    d.Requested cols := by
  unfold Column.Requested Column.matchesName at *
  rwa [h]

theorem neededGroups_of_requested {s : Schema} {c : Column} (hc : c ∈ s.columns)
    (hreq : c.Requested cols) (hg : g ∈ s.neededGroups (some cols)) :
    g ∈ s.localityGroups := by
  obtain ⟨name, hname, hmatch⟩ := any_eq_true.1 hreq
  obtain ⟨d, hd⟩ : ∃ d, s.columns.find? (fun c => c.matchesName name) = some d :=
    isSome_iff_exists.1 (find?_isSome.2 ⟨c, hc, hmatch⟩)
  simp only [Schema.neededGroups] at hg
  split at hg
  · next hnil =>
    have hmem : d.group ∈ (map Column.group (filterMap (fun name =>
        s.columns.find? fun c => c.matchesName name) cols)).dedup :=
      mem_dedup.2 (mem_map_of_mem (mem_filterMap.2 ⟨name, hname, hd⟩))
    rw [isEmpty_iff.1 hnil] at hmem
    cases hmem
  · obtain ⟨d', hd', rfl⟩ := mem_map.1 (mem_dedup.1 hg)
    obtain ⟨name', -, hfind⟩ := mem_filterMap.1 hd'
    exact Schema.group_mem_localityGroups (mem_of_find?_eq_some hfind)

theorem neededGroups_single {s : Schema} (h : s.localityGroups = [g]) (cols : List String) :
    ∃ g', s.neededGroups (some cols) = [g'] := by
  simp only [Schema.neededGroups]
  split
  · exact ⟨_, rfl⟩
  · next hne =>
    refine ⟨g, eq_singleton_of_nodup (nodup_dedup _) (by simpa using hne) fun x hx => ?_⟩
    obtain ⟨d, hd, rfl⟩ := mem_map.1 (mem_dedup.1 hx)
    obtain ⟨name, -, hfind⟩ := mem_filterMap.1 hd
    exact mem_singleton.1 (h ▸ Schema.group_mem_localityGroups (mem_of_find?_eq_some hfind))

theorem groupColumns_of_single {s : Schema} (h : s.localityGroups = [g]) :
    s.groupColumns g = s.columns :=
  filter_eq_self.2 fun _ hc =>
    decide_eq_true (mem_singleton.1 (h ▸ Schema.group_mem_localityGroups hc))

theorem rel_projected (t : OpenTable) (cols : List String) (key : DbKey) : Option.Rel (t.schema.SameOn cols)
    (t.mergeNeeded (t.schema.neededGroups (some cols)) (t.projectedPart (some cols) key))
    (t.get key (some cols)) := by
  have hsome : ∀ g, (t.projectedPart (some cols) key g).isSome = (t.part key g).isSome :=
    fun g => isSome_map
  unfold get mergeNeeded
  simp only [hsome]
  split
  · refine .some fun i c hc hreq => ?_
    simp only [Schema.mergeRows, getElem?_map, hc, map_some]
    split
    · obtain ⟨d, hd, hname⟩ := Schema.relativeIndex_spec (mem_of_getElem? hc)
      unfold projectedPart
      cases t.part key c.group with
      | none => rfl
      | some r =>
        rw [map_some, bind_some, bind_some, map_some,
          getElem?_projectRow hd (requested_of_name hname hreq)]
    · rfl
  · exact .none

theorem iterRow_of_many (h : ∀ g, t.schema.localityGroups ≠ [g]) (key : DbKey) :
    t.iterRow columns key
      = t.mergeNeeded (t.schema.neededGroups columns) (t.projectedPart columns key) := by
  unfold iterRow
  split
  · next g _ hg _ => exact absurd hg (h g)
  · rfl

theorem projectedPart_none (key : DbKey) : t.projectedPart none key = t.part key := by
  funext g
  exact map_id'

theorem Covers.rel_iterRow (h : t.Covers cols) (key : DbKey) :
    Option.Rel (t.schema.SameOn cols) (t.iterRow (some cols) key) (t.iterRow none key) := by
  by_cases hone : ∃ g, t.schema.localityGroups = [g]
  · obtain ⟨g, hg⟩ := hone
    obtain ⟨g', hg'⟩ := neededGroups_single hg cols
    have hnone : t.schema.neededGroups none = [g] := hg
    have hkeys := h.keys key
    simp only [Holds, hg, hg', mem_singleton] at hkeys
    simp only [iterRow, hg, hg', hnone, projectedPart, Option.map_map]
    refine rel_iff.2 ⟨by simpa using hkeys, fun row row' hrow hrow' i c hc hreq => ?_⟩
    obtain ⟨r, hr, rfl⟩ := map_eq_some_iff.1 hrow
    obtain ⟨r', hr', rfl⟩ := map_eq_some_iff.1 hrow'
    have hsame : g' = g := mem_singleton.1 (hg ▸ neededGroups_of_requested
      (mem_of_getElem? hc) hreq (hg' ▸ mem_singleton.2 rfl))
    subst hsame
    obtain rfl : r = r' := some.inj (hr.symm.trans hr')
    have hcol : (t.schema.groupColumns g')[i]? = some c := by rw [groupColumns_of_single hg, hc]
    simp only [Function.comp_apply, getElem?_fit, map_some, map_none, projectRow.eq_1,
      getElem?_projectRow hcol hreq]
  · have hmany : ∀ g, t.schema.localityGroups ≠ [g] := fun g hg => hone ⟨g, hg⟩
    rw [iterRow_of_many hmany, iterRow_of_many hmany, projectedPart_none]
    obtain ⟨hsome, hrow⟩ := rel_iff.1 (rel_projected t cols key)
    obtain ⟨hsome', hrow'⟩ := rel_iff.1 (covers_iff_get.1 h key)
    refine rel_iff.2 ⟨hsome.trans hsome', fun a b ha hb i c hc hreq => ?_⟩
    obtain ⟨m, hm⟩ := isSome_iff_exists.1 (hsome.1 (ha ▸ rfl))
    exact (hrow a m ha hm i c hc hreq).trans (hrow' m b hm hb i c hc hreq)

/-! ## All reads -/

/-- **Reading some columns.** All four ways of reading find with some columns what they find with
all columns, exactly if the groups that are opened hold the table's keys and the columns that are
asked for. -/
theorem projectionAgrees_iff (t : OpenTable) (cols : List String) :
    t.ProjectionAgrees cols ↔ t.Covers cols := by
  refine ⟨fun h => covers_iff_get.2 h.get, fun h => ?_⟩
  have hget := covers_iff_get.1 h
  refine ⟨hget, fun keys => ?_, fun lo hi => ?_, fun lo hi => ?_⟩
  · rw [multiGet_eq, multiGet_eq, forall₂_map_left_iff, forall₂_map_right_iff]
    exact forall₂_same.2 fun key _ => hget key
  · exact sameRows_of hget (mem_filteredScan lo hi) (mem_filteredScan lo hi)
  · exact sameRows_of h.rel_iterRow (mem_scanIter lo hi) (mem_scanIter lo hi)

/-- A key column, its only group `g`, and one row. -/
def groupedTable : OpenTable where
  schema := ⟨[⟨0, "k", .bool, true, false, some "g", none, false⟩], 1, []⟩
  engines g := if g = "g" then
    some ⟨SortedMap.empty.insert (.bool true) (.row [.bool true]), true⟩ else none
  indexEngines _ := none
  nodupIds := by decide
  rowsOnly g v hv x hx := by
    split at hv
    · cases hv
      obtain rfl : x = (.bool true, .row [.bool true]) := mem_singleton.mp hx
      rfl
    · cases hv

/-- With no columns asked for, the default group is opened, which has no engine. -/
theorem projection_groupedTable :
    groupedTable.get (.bool true) none = some [.bool true] ∧
      groupedTable.get (.bool true) (some []) = none ∧
      (groupedTable.scanIter (.bool false) (.bool true) none).map TableScanIterator.rows
        = some [(.bool true, [.bool true])] ∧
      (groupedTable.scanIter (.bool false) (.bool true) (some [])).map TableScanIterator.rows
        = some [] ∧
      ¬ groupedTable.ProjectionAgrees [] := by
  refine ⟨by decide +kernel, by decide +kernel, by decide +kernel, by decide +kernel, fun h => ?_⟩
  have hrel := (rel_iff.1 (h.get (.bool true))).1.2 (by decide +kernel)
  exact absurd hrel (by decide +kernel)

end OpenTable

end Dtdb.Relational
