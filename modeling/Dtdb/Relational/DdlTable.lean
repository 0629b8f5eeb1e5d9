import Dtdb.Relational.Ddl

/-! # One table between commits and changes of the catalog

Filled up to the present columns, each log record carries exactly the rows it replaced, and the
engines hold the rows after all records. -/

namespace Dtdb.Relational

open Dtdb.Lib Dtdb.Storage List Option Function

/-! ## Logs that carry the rows they replace -/

/-- The record of a commit on these rows. -/
structure Exact (n : Nat) (rows : DbKey → Option Row) (w : TableWrites) : Prop where
  nodup : (w.writes.map Prod.fst).Nodup
  width : ∀ x ∈ w.writes, ∀ row, x.2 = some row → row.length = n
  old : ∀ x ∈ w.writes, w.oldRow x.1 = rows x.1

def ExactLog (n : Nat) : (DbKey → Option Row) → List TableWrites → Prop
  | _, [] => True
  | rows, w :: log => Exact n rows w ∧ ExactLog n (overwrite rows w.writes) log

def Wide (n : Nat) (rows : DbKey → Option Row) : Prop := ∀ pk row, rows pk = some row → row.length = n

section

variable {n : Nat} {rows : DbKey → Option Row} {w : TableWrites} {log : List TableWrites}

theorem Wide.overwrite (h : Wide n rows) (hw : Exact n rows w) : Wide n (overwrite rows w.writes) := by
  intro pk row hrow
  unfold Relational.overwrite at hrow
  cases hl : w.writes.lookup pk with
  | none =>
    rw [hl] at hrow
    exact h pk row hrow
  | some r =>
    rw [hl] at hrow
    exact hw.width _ (mem_of_lookup hl) row hrow

theorem ExactLog.wide (h : ExactLog n rows log) (hwide : Wide n rows) : Wide n (rowsAfter log rows) := by
  induction log generalizing rows with
  | nil => exact hwide
  | cons w log ih => exact ih h.2 (hwide.overwrite h.1)

theorem ExactLog.append (h : ExactLog n rows log) (hw : Exact n (rowsAfter log rows) w) :
    ExactLog n rows (log ++ [w]) := by
  induction log generalizing rows with
  | nil => exact ⟨hw, trivial⟩
  | cons x log ih => exact ⟨h.1, ih h.2 hw⟩

theorem ExactLog.faithful {tok : Tokenizers} {t : Table}
    (h : ExactLog t.schema.columns.length rows log) (hwide : Wide t.schema.columns.length rows) :
    FaithfulLog tok t rows log := by
  induction log generalizing rows with
  | nil => trivial
  | cons w log ih =>
    refine ⟨⟨h.1.nodup, fun pk row hmem => h.1.width _ hmem row rfl, fun x hx row hrow => ?_,
      fun x hx idx key hentry => ?_⟩, ih h.2 (hwide.overwrite h.1)⟩
    · exact hwide x.1 row ((h.1.old x hx).symm.trans hrow)
    · rw [h.1.old x hx]
      exact hentry

theorem overwrite_map (g : Row → Row) (rows : DbKey → Option Row) (ws : List (DbKey × Option Row)) :
    overwrite (fun pk => (rows pk).map g) (ws.map fun x => (x.1, x.2.map g))
      = fun pk => (overwrite rows ws pk).map g := by
  funext pk
  unfold overwrite
  rw [lookup_map_snd]
  cases ws.lookup pk <;> rfl

theorem rowsAfter_map (g : Row → Row) (log : List TableWrites) (rows : DbKey → Option Row) :
    rowsAfter (log.map (·.map g)) (fun pk => (rows pk).map g)
      = fun pk => (rowsAfter log rows pk).map g := by
  induction log generalizing rows with
  | nil => rfl
  | cons w log ih =>
    show rowsAfter (log.map (·.map g)) (overwrite _ (w.writes.map fun x => (x.1, x.2.map g))) = _
    rw [overwrite_map, ih]
    rfl

theorem ExactLog.map {m : Nat} {g : Row → Row} (hg : ∀ row, row.length = n → (g row).length = m)
    (h : ExactLog n rows log) : ExactLog m (fun pk => (rows pk).map g) (log.map (·.map g)) := by
  induction log generalizing rows with
  | nil => trivial
  | cons w log ih =>
    refine ⟨⟨?_, fun x hx row hrow => ?_, fun x hx => ?_⟩, ?_⟩
    · show ((w.writes.map fun x => (x.1, x.2.map g)).map Prod.fst).Nodup
      rw [List.map_map]
      exact h.1.nodup
    · obtain ⟨y, hy, rfl⟩ := mem_map.1 hx
      obtain ⟨r, hr, rfl⟩ := map_eq_some_iff.1 hrow
      exact hg r (h.1.width y hy r hr)
    · obtain ⟨y, hy, rfl⟩ := mem_map.1 hx
      rw [TableWrites.oldRow_map, h.1.old y hy]
    · show ExactLog m (overwrite _ (w.writes.map fun x => (x.1, x.2.map g))) _
      rw [overwrite_map]
      exact ih h.2

end

/-! ## Columns by name -/

namespace Schema

variable {s : Schema}

theorem columnIndex_of_getElem? (hnames : (s.columns.map Column.name).Nodup) {c : Column} {i : Nat}
    (hi : s.columns[i]? = some c) : s.columnIndex c.name = some i :=
  findIdx?_of_nodup_map hnames hi

theorem lt_of_columnIndex {name : String} {i : Nat} (h : s.columnIndex name = some i) :
    i < s.columns.length := by
  obtain ⟨hlt, -, -⟩ := findIdx?_eq_some_iff_getElem.1 h
  exact hlt

theorem localityGroups_of_covers {groups : List String} (hone : groups.length = 1)
    (h : ∀ g ∈ s.localityGroups, g ∈ groups) : groups = s.localityGroups := by
  obtain ⟨g, rfl⟩ := length_eq_one_iff.1 hone
  obtain ⟨g', hg'⟩ := s.exists_mem_localityGroups
  exact (eq_singleton_of_nodup s.nodup_localityGroups (ne_nil_of_mem hg')
    fun x hx => mem_singleton.1 (h x hx)).symm

/-- **Splitting and merging.** The sub-rows of all groups merge to the row; those of some groups to
the row with its other columns at their defaults. -/
theorem mergeRows_splitRow (hnames : (s.columns.map Column.name).Nodup) {row : Row}
    (hlen : row.length = s.columns.length) :
    (∀ g, (s.splitRow row g).isSome = true) ∧
      s.mergeRows (fun g => if g ∈ s.localityGroups then s.splitRow row g else none) = row ∧
      ∀ kept : List String, s.mergeRows (fun g => if g ∈ kept then s.splitRow row g else none)
        = zipWith (fun c v => if c.group ∈ kept then v else c.default) s.columns row := by
  have hmerge : ∀ kept : List String,
      s.mergeRows (fun g => if g ∈ kept then s.splitRow row g else none)
        = zipWith (fun c v => if c.group ∈ kept then v else c.default) s.columns row := by
    intro kept
    refine ext_getElem (by simp [hlen]) fun i hi _ => ?_
    have hlt : i < s.columns.length := by simpa using hi
    have hc := getElem_mem hlt
    obtain ⟨sub, hsub⟩ := exists_splitRow hlen s.columns[i].group
    have hval := getElem?_splitRow hsub hc
    rw [columnIndex_of_getElem? hnames (getElem?_eq_getElem hlt), bind_some,
      getElem?_eq_getElem (l := row) (hlen ▸ hlt)] at hval
    rw [getElem_zipWith]
    simp only [mergeRows, getElem_map]
    split
    · rw [hsub, bind_some, hval, getD_some]
    · rfl
  refine ⟨fun g => isSome_iff_exists.2 (exists_splitRow hlen g), ?_, hmerge⟩
  rw [hmerge]
  refine ext_getElem (by simp [hlen]) fun i hi _ => ?_
  rw [getElem_zipWith, if_pos (group_mem_localityGroups (getElem_mem _))]

/-- Two groups, one of them missing. -/
theorem mergeRows_splitRow_twoGroups :
    let s : Schema := ⟨[⟨0, "k", .bool, true, false, none, none, false⟩,
      ⟨1, "v", .bool, false, true, some "g", some (.bool false), false⟩], 2, []⟩
    s.mergeRows (fun g => if g ∈ [""] then s.splitRow [.bool true, .bool true] g else none)
      = [.bool true, .bool false] :=
  (mergeRows_splitRow (by decide) rfl).2.2 [""]

end Schema

theorem Table.readBack_eq {t : Table} (hnames : (t.schema.columns.map Column.name).Nodup) {row : Row}
    (hlen : row.length = t.schema.columns.length) : t.readBack row = row := by
  refine ext_getElem? fun i => ?_
  by_cases hi : i < t.schema.columns.length
  · have hidx := Schema.columnIndex_of_getElem? hnames (getElem?_eq_getElem hi)
    exact Schema.getElem?_mergeRows (fun c hc => Table.getElem?_subRow hlen hc) hlen hidx
  · have hpast := not_lt.1 hi
    have hback : (t.readBack row).length ≤ i := (Schema.length_mergeRows ..).trans_le hpast
    rw [getElem?_eq_none hback, getElem?_eq_none (hlen ▸ hpast)]

theorem Represents.get_norm {tok : Tokenizers} {t : Table} {e : Engines} {rows : DbKey → Option Row}
    (h : Represents tok t (t.norm e) rows) (hnames : (t.schema.columns.map Column.name).Nodup)
    (pk : DbKey) : t.get e pk = rows pk := by
  rw [← t.get_norm hnames, h.get_eq]
  cases hrow : rows pk with
  | none => rfl
  | some row => rw [map_some, Table.readBack_eq hnames (h.width pk row hrow)]

/-! ## Stored rows, filled up -/

/-- A row in a memtable is read as it is. -/
def Place.layout : Place → Option StoredLayout
  | .memtable => none
  | .sstable layout => layout

/-- A stored row of a table that was not closed. -/
structure Table.Placed (t : Table) (g : String) (p : Place) (r : Row) : Prop where
  layout : p ≠ .sstable none
  one : t.groups.length = 1 → t.schema.RowOk p.layout r
  many : t.groups.length ≠ 1 → r.length = (t.schema.groupColumns g).length ∧
    ∀ l, p = .sstable l → l = some t.schema.currentLayout

namespace Schema

variable {s : Schema}

theorem getElem?_values (hf : s.Fresh) (row : Row) (i : Nat) :
    (s.values none row)[i]? = s.columns[i]?.map fun c => row[i]?.getD c.default := by
  unfold values
  rw [getElem?_map]
  cases hi : s.columns[i]? with
  | none => rfl
  | some c => exact congrArg some (read_at hf hi row)

theorem fit_eq_values (hf : s.Fresh) (row : Row) : fit s.columns row = s.values none row :=
  ext_getElem? fun i => by rw [getElem?_fit, getElem?_values hf]

theorem rewrite_eq_values {layout : Option StoredLayout} (h : layout ≠ some s.currentLayout)
    (row : Row) : rewrite layout (some s.currentLayout) row = s.values layout row := by
  unfold rewrite
  rw [if_neg h]
  show (s.columns.map _).map _ = _
  rw [List.map_map]
  refine map_congr_left fun c _ => ?_
  cases layout with
  | some l => rfl
  | none => exact read_take ..

theorem fit_read (hf : s.Fresh) (p : Place) (r : Row) :
    Stored.fit s.columns (p.read s.currentLayout (.row r)) = .row (s.values p.layout r) := by
  cases p with
  | memtable => exact congrArg Stored.row (fit_eq_values hf r)
  | sstable layout =>
    refine congrArg Stored.row ?_
    by_cases hl : layout = some s.currentLayout
    · subst hl
      rw [rewrite, if_pos rfl]
      exact fit_eq_values hf r
    · rw [rewrite_eq_values hl]
      exact fit_of_length (by simp [values])

end Schema

namespace Table

variable {t : Table} {g : String} {p : Place} {r : Row}

theorem Placed.read_many (h : t.Placed g p r) (hmany : t.groups.length ≠ 1) :
    p.read t.schema.currentLayout (.row r) = .row r := by
  cases p with
  | memtable => rfl
  | sstable layout =>
    rw [(h.many hmany).2 layout rfl]
    exact congrArg Stored.row (if_pos rfl)

theorem Placed.fit_unload (h : t.Placed g p r) (hf : t.schema.Fresh) (hg : g ∈ t.groups) :
    Stored.fit (t.schema.groupColumns g)
        ((TableData.Place.unload none (p, .row r)).1.read t.schema.currentLayout
          (TableData.Place.unload none (p, .row r)).2)
      = Stored.fit (t.schema.groupColumns g) (p.read t.schema.currentLayout (.row r)) := by
  cases p with
  | sstable layout => rfl
  | memtable =>
    show Stored.row (fit _ (rewrite none (some t.schema.currentLayout) r)) = .row (fit _ r)
    have hnone : none ≠ some t.schema.currentLayout := nofun
    rw [Schema.rewrite_eq_values hnone]
    by_cases hone : t.groups.length = 1
    · rw [groupColumns_of_mem hone hg, ← Schema.fit_eq_values hf, fit_of_length (length_fit ..)]
    · -- a sub-row is in front of the columns' defaults
      refine congrArg Stored.row (ext_getElem? fun i => ?_)
      obtain ⟨hlen, -⟩ := h.many hone
      rw [getElem?_fit, getElem?_fit, Schema.getElem?_values hf]
      cases hc : (t.schema.groupColumns g)[i]? with
      | none => rfl
      | some c =>
        have hi : i < r.length := hlen ▸ (List.getElem?_eq_some_iff.mp hc).1
        have hi' : i < t.schema.columns.length :=
          hi.trans_le (hlen ▸ (length_filter_le ..))
        rw [getElem?_eq_getElem hi', getElem?_eq_getElem hi]
        rfl

end Table

/-! ## The invariant of a table -/

/-- What holds of a table, its data and its part of the log. -/
structure TableOk (tok : Tokenizers) (t : Table) (d : TableData) (log : List TableWrites) : Prop where
  groups : t.groups = t.schema.localityGroups
  names : (t.schema.columns.map Column.name).Nodup
  fresh : t.schema.Fresh
  placed : ∀ g ∈ t.groups, ∀ k p r, (d (.group g)).get k = some (p, .row r) → t.Placed g p r
  loggable : ∀ w ∈ log, ∀ row ∈ w.rows, t.Loggable row
  exact : ∃ base, Wide t.schema.columns.length base ∧
    ExactLog t.schema.columns.length base (log.map (·.map (fit t.schema.columns))) ∧
    Represents tok t (t.norm (d.engines t.schema))
      (rowsAfter (log.map (·.map (fit t.schema.columns))) base)

namespace TableData

theorem get_engines_group (d : TableData) (s : Schema) (g : String) (k : DbKey) :
    (d.engines s (.group g)).get k
      = ((d (.group g)).get k).map fun x => x.1.read s.currentLayout x.2 :=
  SortedMap.get_mapValues ..

theorem get_norm_group (d : TableData) (t : Table) (g : String) (k : DbKey) :
    (t.norm (d.engines t.schema) (.group g)).get k = ((d (.group g)).get k).map fun x =>
      Stored.fit (t.schema.groupColumns g) (x.1.read t.schema.currentLayout x.2) := by
  show ((d.engines t.schema (.group g)).mapValues _).get k = _
  rw [SortedMap.get_mapValues, get_engines_group, Option.map_map]
  rfl

theorem engines_index {d d' : TableData} {i : String} (h : d' (.index i) = d (.index i))
    (s s' : Schema) : d'.engines s' (.index i) = d.engines s (.index i) :=
  congrArg (fun m : SortedMap DbKey (Place × Stored) => m.mapValues fun _ x => x.2) h

theorem engines_write (d : TableData) (s : Schema) (bs : List (EngineName × Batch)) :
    (d.write bs).engines s = (d.engines s).write bs := by
  -- what is written is read back as it is
  have hbatch : ∀ f : Place × Stored → Stored, (∀ v, f (.memtable, v) = v) → ∀ n,
      ((batchFor bs n).map fun m => (m.1, m.2.map (Place.memtable, ·))).map
        (fun x => (x.1, x.2.map f)) = batchFor bs n := by
    intro f hf n
    rw [List.map_map]
    refine map_id'' (fun m => ?_) _
    simp only [comp_apply, Option.map_map]
    exact Prod.ext rfl ((Option.map_congr fun v _ => hf v).trans (congrFun Option.map_id m.2))
  funext n
  cases n with
  | group g =>
    have hwrite := SortedMap.mapValues_applyAll (d (.group g))
      (fun x => x.1.read s.currentLayout x.2)
      ((batchFor bs (.group g)).map fun m => (m.1, m.2.map (Place.memtable, ·)))
    rw [hbatch _ fun _ => rfl] at hwrite
    exact hwrite
  | index i =>
    have hwrite := SortedMap.mapValues_applyAll (d (.index i)) Prod.snd
      ((batchFor bs (.index i)).map fun m => (m.1, m.2.map (Place.memtable, ·)))
    rw [hbatch _ fun _ => rfl] at hwrite
    exact hwrite

end TableData

/-! ## Commits and flushes -/

namespace TableOk

variable {tok : Tokenizers} {t t' : Table} {d d' : TableData} {log : List TableWrites}

theorem quietLog {n : Nat} {rows : DbKey → Option Row} (h : ∀ w ∈ log, w.writes = []) :
    ExactLog n rows log ∧ rowsAfter log rows = rows := by
  induction log with
  | nil => exact ⟨trivial, rfl⟩
  | cons w log ih =>
    obtain ⟨hlog, hrows⟩ := ih fun x hx => h x (.tail _ hx)
    have hw : w.writes = [] := h w (.head _)
    have hsame : overwrite rows w.writes = rows := by
      rw [hw]
      rfl
    refine ⟨⟨⟨by rw [hw]; exact .nil, by rw [hw]; nofun, by rw [hw]; nofun⟩, ?_⟩, ?_⟩
    · rw [hsame]
      exact hlog
    · show rowsAfter log (overwrite rows w.writes) = rows
      rw [hsame, hrows]

theorem create {columns : List Column} (hnames : (columns.map Column.name).Nodup)
    (hlog : ∀ w ∈ log, w.writes = [] ∧ w.old = none) :
    TableOk tok (.create columns) .empty log := by
  have hquiet : ∀ w ∈ log.map (·.map (fit (Schema.new columns).columns)), w.writes = [] := by
    intro w hw
    obtain ⟨x, hx, rfl⟩ := mem_map.1 hw
    show x.writes.map _ = []
    rw [(hlog x hx).1]
    rfl
  have hlogs : ExactLog (Schema.new columns).columns.length (fun _ => none) _ ∧
      rowsAfter _ (fun _ => none) = fun _ => none := quietLog hquiet
  obtain ⟨hexact, hrows⟩ := hlogs
  have hempty : (Table.create columns).norm (TableData.empty.engines (Schema.new columns))
      = fun _ => .empty := by
    funext n
    cases n <;> rfl
  refine ⟨rfl, ?_, Schema.fresh_new columns, nofun, fun w hw row hrow => ?_,
    fun _ => none, nofun, hexact, ?_⟩
  · show ((columns.zipIdx.map _).map Column.name).Nodup
    rw [List.map_map]
    have hfst : columns.zipIdx.map (Column.name ∘ fun x => { x.1 with id := x.2 })
        = (columns.zipIdx.map Prod.fst).map Column.name := by
      rw [List.map_map]
      rfl
    rw [hfst, zipIdx_map_fst]
    exact hnames
  · unfold TableWrites.rows at hrow
    rw [(hlog w hw).1, (hlog w hw).2] at hrow
    cases hrow
  · rw [show (Table.create columns).schema = Schema.new columns from rfl, hrows, hempty]
    exact .empty tok _

theorem append (h : TableOk tok t d log) {w : TableWrites}
    (hlog : ∀ row ∈ w.rows, t.Loggable row)
    (hplaced : ∀ g ∈ t.groups, ∀ k p r, (d' (.group g)).get k = some (p, .row r) → t.Placed g p r)
    (hexact : ∀ rows, Represents tok t (t.norm (d.engines t.schema)) rows →
      Exact t.schema.columns.length rows (w.map (fit t.schema.columns)) ∧
        Represents tok t (t.norm (d'.engines t.schema))
          (overwrite rows (w.map (fit t.schema.columns)).writes)) :
    TableOk tok t d' (log ++ [w]) := by
  obtain ⟨base, hwide, hbase, hrep⟩ := h.exact
  obtain ⟨hw, hrep'⟩ := hexact _ hrep
  refine ⟨h.groups, h.names, h.fresh, hplaced, fun x hx => ?_, base, hwide, ?_, ?_⟩
  · rcases mem_append.1 hx with hx | hx
    · exact h.loggable x hx
    · cases mem_singleton.1 hx
      exact hlog
  · rw [map_append]
    exact hbase.append hw
  · rw [map_append, map_singleton, rowsAfter, foldl_append]
    exact hrep'

theorem quiet (h : TableOk tok t d log) {w : TableWrites} (hw : w.writes = []) (hold : w.old = none) :
    TableOk tok t d (log ++ [w]) := by
  have hwrites : (w.map (fit t.schema.columns)).writes = [] := by
    show w.writes.map _ = []
    rw [hw]
    rfl
  refine h.append (fun row hrow => ?_) h.placed fun rows hrep => ⟨⟨?_, ?_, ?_⟩, ?_⟩
  · unfold TableWrites.rows at hrow
    rw [hw, hold] at hrow
    cases hrow
  · rw [hwrites]
    exact .nil
  · rw [hwrites]
    nofun
  · rw [hwrites]
    nofun
  · rw [hwrites]
    exact hrep

/-- **A commit**: its record carries the rows it replaces. -/
theorem commit (h : TableOk tok t d log) {w : TableWrites} (hnd : (w.writes.map Prod.fst).Nodup)
    (hwidth : ∀ row ∈ w.rows, row.length = t.schema.columns.length)
    (hold : ∀ x ∈ w.writes, w.oldRow x.1 = t.get (d.engines t.schema) x.1)
    {bs : List (EngineName × Batch)} (hbs : t.batches tok w.writes w.oldRow = some bs) :
    TableOk tok t (d.write bs) (log ++ [w]) := by
  have hloggable : ∀ row ∈ w.rows, t.Loggable row := fun row hrow => .of_length (hwidth row hrow)
  have hfitted : ∀ row, row.length = t.schema.columns.length → fit t.schema.columns row = row :=
    fun row hlen => fit_of_length hlen
  refine h.append hloggable (fun g hg k p r hget => ?_) fun rows hrep => ?_
  · -- a row of the batch is in a memtable
    unfold TableData.write at hget
    rw [SortedMap.get_applyAll, ← map_reverse, lookup_map_snd] at hget
    have hlast := Table.lastWrite_group hnd hbs hg k
    unfold lastWrite at hlast
    rw [hlast] at hget
    cases hw : w.writes.lookup k with
    | none =>
      rw [hw] at hget
      exact h.placed g hg k p r hget
    | some x =>
      rw [hw] at hget
      obtain ⟨v, hv, heq⟩ := map_eq_some_iff.1 hget
      cases heq
      obtain ⟨sub, hsub, heq⟩ := map_eq_some_iff.1 hv
      cases heq
      obtain ⟨row, rfl, hrow⟩ := bind_eq_some_iff.1 hsub
      unfold Table.subRow at hrow
      have hlen := hwidth row (TableWrites.mem_rows_of_write (mem_of_lookup hw) rfl)
      refine ⟨nofun, fun hone => ?_, fun hmany => ⟨?_, nofun⟩⟩
      · rw [if_pos hone] at hrow
        cases hrow
        exact hlen.le
      · rw [if_neg hmany] at hrow
        exact Table.length_splitRow hrow
  · have hrows : ∀ x ∈ w.writes, w.oldRow x.1 = rows x.1 := fun x hx =>
      (hold x hx).trans (hrep.get_norm h.names x.1)
    have hbatches : t.batches tok (w.map (fit t.schema.columns)).writes w.oldRow
        = (t.batches tok w.writes w.oldRow).map (map t.normBatch) :=
      Table.batches_fit
        (fun x hx row hrow => hloggable row (TableWrites.mem_rows_of_write hx hrow))
        fun _ _ _ _ => rfl
    rw [hbs] at hbatches
    have hkeys : ((w.map (fit t.schema.columns)).writes.map Prod.fst).Nodup := by
      show ((w.writes.map _).map Prod.fst).Nodup
      rw [List.map_map]
      exact hnd
    refine ⟨⟨hkeys, fun x hx row hrow => ?_, fun x hx => ?_⟩, ?_⟩
    · obtain ⟨y, -, rfl⟩ := mem_map.1 hx
      obtain ⟨r, -, rfl⟩ := map_eq_some_iff.1 hrow
      exact length_fit ..
    · obtain ⟨y, hy, rfl⟩ := mem_map.1 hx
      rw [TableWrites.oldRow_map, hrows y hy]
      cases hrow : rows y.1 with
      | none => rfl
      | some row => rw [map_some, hfitted row (hrep.width _ row hrow)]
    · rw [TableData.engines_write, ← t.write_norm]
      refine hrep.write hkeys (fun pk row hmem => ?_) hbatches fun x hx idx key hentry => ?_
      · obtain ⟨y, -, heq⟩ := mem_map.1 hmem
        obtain ⟨r, -, rfl⟩ := map_eq_some_iff.1 (congrArg Prod.snd heq)
        exact length_fit ..
      · obtain ⟨y, hy, rfl⟩ := mem_map.1 hx
        rw [hrows y hy]
        exact hentry

theorem checkpoint (h : TableOk tok t d log) : TableOk tok t d [] := by
  obtain ⟨base, hwide, hbase, hrep⟩ := h.exact
  exact ⟨h.groups, h.names, h.fresh, h.placed, nofun, _, hbase.wide hwide, trivial, hrep⟩

theorem Place.read_read (T : StoredLayout) (p : Place) (v : Stored) :
    (Place.sstable (some T)).read T (p.read T v) = p.read T v := by
  have hsame : ∀ v : Stored, (Place.sstable (some T)).read T v = v := by
    intro v
    cases v with
    | row r => exact congrArg Stored.row (if_pos rfl)
    | null => rfl
    | positions ps => rfl
  exact hsame _

theorem moved (h : TableOk tok t d log) (hindex : ∀ i, d' (.index i) = d (.index i))
    (hgroup : ∀ g k, (d' (.group g)).get k = (d (.group g)).get k ∨
      ∃ p v, (d (.group g)).get k = some (p, v) ∧ (d' (.group g)).get k
        = some (.sstable (some t.schema.currentLayout), p.read t.schema.currentLayout v)) :
    TableOk tok t d' log := by
  have hengines : d'.engines t.schema = d.engines t.schema := by
    funext n
    cases n with
    | group g =>
      ext k : 1
      rw [TableData.get_engines_group, TableData.get_engines_group]
      rcases hgroup g k with heq | ⟨p, v, hold, hnew⟩
      · rw [heq]
      · rw [hold, hnew, map_some, map_some, Place.read_read]
    | index i => exact TableData.engines_index (hindex i) ..
  refine ⟨h.groups, h.names, h.fresh, fun g hg k p r hget => ?_, h.loggable, ?_⟩
  · rcases hgroup g k with heq | ⟨q, v, hold, hnew⟩
    · exact h.placed g hg k p r (heq ▸ hget)
    · rw [hnew] at hget
      cases hv : v with
      | row r' =>
        rw [hv] at hold hget
        have hplaced := h.placed g hg k q r' hold
        have heq : q.read t.schema.currentLayout (.row r') = .row r :=
          congrArg Prod.snd (some.inj hget)
        obtain rfl : Place.sstable (some t.schema.currentLayout) = p :=
          congrArg Prod.fst (some.inj hget)
        refine ⟨nofun, fun _ => h.fresh.rowOk r, fun hmany => ⟨?_, fun l hl => ?_⟩⟩
        · rw [hplaced.read_many hmany] at heq
          cases heq
          exact (hplaced.many hmany).1
        · cases hl
          rfl
      | null | positions ps =>
        rw [hv] at hget
        cases q <;> cases hget
  · rw [hengines]
    exact h.exact

theorem flush (h : TableOk tok t d log) (group : String) (keys : List DbKey) :
    TableOk tok t (d.flush t.schema group keys) log := by
  refine h.moved (fun i => ?_) fun g k => ?_
  · have hne : EngineName.index i ≠ .group group := nofun
    exact update_of_ne hne ..
  · unfold TableData.flush
    by_cases hg : g = group
    · subst hg
      rw [update_self, SortedMap.get_mapValues]
      cases hget : (d (.group g)).get k with
      | none => exact .inl rfl
      | some x =>
        by_cases hk : k ∈ keys
        · exact .inr ⟨x.1, x.2, rfl, by rw [map_some, if_pos hk]⟩
        · exact .inl (by rw [map_some, if_neg hk])
    · exact .inl (by rw [update_of_ne fun heq => hg (EngineName.group.inj heq)])

theorem unload (h : TableOk tok t d log) : TableOk tok t (d.unload (some t.schema.currentLayout)) log := by
  refine h.moved (fun i => rfl) fun g k => ?_
  have hget : (d.unload (some t.schema.currentLayout) (.group g)).get k
      = ((d (.group g)).get k).map (TableData.Place.unload (some t.schema.currentLayout)) :=
    SortedMap.get_mapValues ..
  rw [hget]
  cases hd : (d (.group g)).get k with
  | none => exact .inl rfl
  | some x =>
    obtain ⟨p, v⟩ := x
    cases p with
    | memtable => exact .inr ⟨.memtable, v, rfl, rfl⟩
    | sstable layout => exact .inl rfl

end TableOk

end Dtdb.Relational
