import Dtdb.Relational.DdlTable

/-! # What a change of the catalog does to a table

Adding a column gives every row one more default, dropping one takes its value out.  Each change
keeps the invariant as long as the rows in the log can be changed in the same way. -/

namespace Dtdb.Relational

open Dtdb.Lib Dtdb.Storage List Option Function

variable {tok : Tokenizers} {t t' : Table} {d d' : TableData} {log : List TableWrites}

theorem Represents.change {e e' : Engines} {rows : DbKey → Option Row} (h : Represents tok t e rows)
    {f : Row → Row}
    (hlen : ∀ row, row.length = t.schema.columns.length → (f row).length = t'.schema.columns.length)
    (hgroups : ∀ g ∈ t'.groups, ∀ pk,
      (e' (.group g)).get pk = ((rows pk).bind fun row => t'.subRow (f row) g).map .row)
    (hindexes : ∀ idx' ∈ t'.schema.indexes, e' (.index idx'.name) = e (.index idx'.name) ∧
      ∃ idx ∈ t.schema.indexes, idx.name = idx'.name ∧
        ∀ row, row.length = t.schema.columns.length →
          Schema.SameValues t.schema idx row t'.schema idx' (f row)) :
    Represents tok t' e' fun pk => (rows pk).map f where
  width pk row hrow := by
    obtain ⟨r, hr, rfl⟩ := map_eq_some_iff.1 hrow
    exact hlen r (h.width pk r hr)
  groups g hg pk := by
    rw [hgroups g hg pk]
    cases rows pk <;> rfl
  indexes idx' hidx' key := by
    obtain ⟨hsame, idx, hidx, hname, hvalues⟩ := hindexes idx' hidx'
    rw [hsame, ← hname, h.indexes idx hidx key]
    cases owner key with
    | none => rfl
    | some pk =>
      rw [bind_some, bind_some]
      cases hrow : rows pk with
      | none => rfl
      | some row => exact ((hvalues row (h.width pk row hrow)).entry_eq key).symm

namespace TableOk

theorem change (h : TableOk tok t d log) {f : Row → Row}
    (hgroups : t'.groups = t'.schema.localityGroups)
    (hnames : (t'.schema.columns.map Column.name).Nodup) (hfresh : t'.schema.Fresh)
    (hplaced : ∀ g ∈ t'.groups, ∀ k p r, (d' (.group g)).get k = some (p, .row r) → t'.Placed g p r)
    (hlen : ∀ row, row.length = t.schema.columns.length → (f row).length = t'.schema.columns.length)
    (hlog : ∀ w ∈ log, ∀ row ∈ w.rows,
      t'.Loggable row ∧ fit t'.schema.columns row = f (fit t.schema.columns row))
    (hrep : ∀ rows, Represents tok t (t.norm (d.engines t.schema)) rows →
      Represents tok t' (t'.norm (d'.engines t'.schema)) fun pk => (rows pk).map f) :
    TableOk tok t' d' log := by
  obtain ⟨base, hwide, hbase, hbaseRep⟩ := h.exact
  have hfit : log.map (·.map (fit t'.schema.columns))
      = (log.map (·.map (fit t.schema.columns))).map (·.map f) := by
    rw [List.map_map]
    refine map_congr_left fun w hw => ?_
    rw [comp_apply, TableWrites.map_map]
    exact TableWrites.map_congr fun row hrow => (hlog w hw row hrow).2
  refine ⟨hgroups, hnames, hfresh, hplaced, fun w hw row hrow => (hlog w hw row hrow).1,
    fun pk => (base pk).map f, fun pk row hrow => ?_, ?_, ?_⟩
  · obtain ⟨r, hr, rfl⟩ := map_eq_some_iff.1 hrow
    exact hlen r (hwide pk r hr)
  · rw [hfit]
    exact hbase.map hlen
  · rw [hfit, rowsAfter_map]
    exact hrep _ hbaseRep

theorem view_one (hone : t.groups.length = 1) (hgroups : t'.groups = t.groups)
    (hfresh : t.schema.Fresh) (hfresh' : t'.schema.Fresh) {f : Row → Row}
    (hvalues : ∀ g ∈ t.groups, ∀ k p r, (d (.group g)).get k = some (p, .row r) →
      t'.schema.values p.layout r = f (t.schema.values p.layout r))
    {rows : DbKey → Option Row} (hrep : Represents tok t (t.norm (d.engines t.schema)) rows) :
    ∀ g ∈ t'.groups, ∀ pk, (t'.norm (d.engines t'.schema) (.group g)).get pk
      = ((rows pk).bind fun row => t'.subRow (f row) g).map .row := by
  intro g hg pk
  have hg' : g ∈ t.groups := hgroups ▸ hg
  have hone' : t'.groups.length = 1 := hgroups ▸ hone
  have hsub : ∀ row, t.subRow row g = some row := fun row => if_pos hone
  have hsub' : ∀ row, t'.subRow row g = some row := fun row => if_pos hone'
  have hold := hrep.groups g hg' pk
  rw [TableData.get_norm_group, Table.groupColumns_of_mem hone hg'] at hold
  rw [TableData.get_norm_group, Table.groupColumns_of_mem hone' hg]
  simp only [hsub, hsub'] at hold ⊢
  cases hrow : rows pk with
  | none =>
    rw [hrow] at hold
    rw [map_eq_none_iff.1 hold]
    rfl
  | some row =>
    rw [hrow] at hold
    obtain ⟨⟨p, v⟩, hget, hv⟩ := map_eq_some_iff.1 hold
    rw [hget]
    cases v with
    | row r =>
      have hstored := Schema.fit_read hfresh p r
      have hstored' := Schema.fit_read hfresh' p r
      rw [hstored] at hv
      cases hv
      rw [map_some, hstored', hvalues g hg' pk p r hget]
      rfl
    | null | positions ps => cases p <;> cases hv

end TableOk

/-! ## Adding a column -/

namespace Schema

variable {s : Schema} {name : String} {i : Nat}

end Schema

theorem TableOk.addColumn (h : TableOk tok t d log) (hone : t.groups.length = 1) {c : Column}
    (hname : ∀ b ∈ t.schema.columns, b.name ≠ c.name) (hgroup : c.group = "")
    (hschema : t'.schema = t.schema.withColumn c) (hgroups : t'.groups = t.groups) :
    TableOk tok t' d log := by
  have hone' : t'.groups.length = 1 := hgroups ▸ hone
  have hfresh : (t.schema.withColumn c).Fresh := h.fresh.altered (.add c hname hgroup)
  have hindex : ∀ idx ∈ t.schema.indexes, ∀ name ∈ idx.columns, ∃ i,
      t.schema.columnIndex name = some i ∧ t'.schema.columnIndex name = some i := by
    intro idx hidx name hname
    obtain ⟨i, hi⟩ := isSome_iff_exists.1 ((t.indexable idx hidx).1 name hname)
    refine ⟨i, hi, ?_⟩
    rw [hschema]
    unfold Schema.columnIndex at hi ⊢
    show (t.schema.columns ++ [_]).findIdx? _ = _
    rw [findIdx?_append, hi]
    rfl
  have hindexes : t'.schema.indexes = t.schema.indexes := by rw [hschema]; rfl
  have hcolumns : t'.schema.columns.length = t.schema.columns.length + 1 := by
    rw [hschema]
    exact length_append ..
  refine h.change (f := fun row => row ++ [c.default])
    (Schema.localityGroups_of_covers hone' t'.covers) ?_ (hschema ▸ hfresh)
    (fun g hg k p r hget => ?_) (fun row hlen => ?_) (fun w hw row hrow => ?_) fun rows hrep => ?_
  · rw [hschema]
    exact Schema.nodup_names_withColumn h.names hname
  · have hplaced := h.placed g (hgroups ▸ hg) k p r hget
    refine ⟨hplaced.layout, fun _ => ?_, fun hmany => absurd hone' hmany⟩
    have hrow := hplaced.one hone
    rw [hschema]
    cases hl : p.layout with
    | none =>
      rw [hl] at hrow
      show r.length ≤ (t.schema.columns ++ [_]).length
      rw [length_append]
      exact hrow.trans (Nat.le_succ _)
    | some l =>
      rw [hl] at hrow
      exact fun b hb => (hrow b hb).trans (Nat.lt_succ_self _)
  · rw [hcolumns, length_append, hlen]
    rfl
  · have hlog := h.loggable w hw row hrow
    refine ⟨⟨?_, fun hmany => absurd hone' hmany, fun idx hidx name hname j hj => ?_⟩, ?_⟩
    · rw [hcolumns]
      exact hlog.le.trans (Nat.le_succ _)
    · rw [hindexes] at hidx
      obtain ⟨i, hi, hi'⟩ := hindex idx hidx name hname
      cases hj.symm.trans hi'
      exact hlog.wide idx hidx name hname _ hi
    · rw [hschema]
      show fit (t.schema.columns ++ [_]) row = _
      unfold fit
      rw [zipIdx_append]
      simp [getElem?_eq_none hlog.le, Column.default]
  · refine hrep.change (fun row hlen => ?_) (TableOk.view_one hone hgroups h.fresh (hschema ▸ hfresh)
      (fun g hg k p r hget => ?_) hrep) fun idx hidx => ?_
    · rw [hcolumns, length_append, hlen]
      rfl
    · rw [hschema]
      exact h.fresh.values_withColumn hfresh ((h.placed g hg k p r hget).one hone)
    · rw [hindexes] at hidx
      refine ⟨rfl, idx, hidx, rfl, fun row hlen => ⟨rfl, rfl, map_congr_left fun name hname => ?_⟩⟩
      obtain ⟨i, hi, hi'⟩ := hindex idx hidx name hname
      unfold Schema.columnValue
      rw [hi, hi']
      exact getElem?_append_left (hlen ▸ Schema.lt_of_columnIndex hi)

/-! ## Dropping a column -/

theorem TableOk.dropColumn (h : TableOk tok t d log) (hone : t.groups.length = 1) {p : Nat}
    (hschema : t'.schema = t.schema.withoutColumn p) (hgroups : t'.groups = t.groups)
    (hlog : ∀ w ∈ log, ∀ row ∈ w.rows, row.length ≤ p)
    (hplace : ∀ g k q r, (d (.group g)).get k = some (q, .row r) → q ≠ .memtable) :
    TableOk tok t' d log := by
  have hone' : t'.groups.length = 1 := hgroups ▸ hone
  have hfresh : (t.schema.withoutColumn p).Fresh := h.fresh.altered (.drop p)
  have hindexes : t'.schema.indexes = t.schema.indexes := by rw [hschema]; rfl
  have hindex : ∀ {name j}, t'.schema.columnIndex name = some j →
      t.schema.columnIndex name = some (if j < p then j else j + 1) := by
    intro name j hj
    rw [hschema] at hj
    obtain ⟨c, hc, rfl, -⟩ := Schema.getElem?_of_columnIndex hj
    refine Schema.columnIndex_of_getElem? h.names ?_
    rw [← hc]
    show _ = (t.schema.columns.eraseIdx p)[j]?
    rw [getElem?_eraseIdx]
    split <;> rfl
  have hlen : ∀ row : Row, row.length = t.schema.columns.length →
      (row.eraseIdx p).length = t'.schema.columns.length := by
    intro row hlen
    rw [hschema]
    show _ = (t.schema.columns.eraseIdx p).length
    rw [length_eraseIdx, length_eraseIdx, hlen]
  have hstored : ∀ g ∈ t.groups, ∀ k q r, (d (.group g)).get k = some (q, .row r) →
      ∃ l, q = .sstable (some l) ∧ t.schema.RowOk (some l) r := by
    intro g hg k q r hget
    have hplaced := h.placed g hg k q r hget
    cases q with
    | memtable => exact absurd rfl (hplace g k _ r hget)
    | sstable layout =>
      cases layout with
      | none => exact absurd rfl hplaced.layout
      | some l => exact ⟨l, rfl, hplaced.one hone⟩
  refine h.change
    (Schema.localityGroups_of_covers hone' t'.covers) ?_ (hschema ▸ hfresh)
    (fun g hg k q r hget => ?_) hlen (fun w hw row hrow => ?_) fun rows hrep => ?_
  · rw [hschema]
    exact h.names.sublist ((eraseIdx_sublist ..).map _)
  · obtain ⟨l, rfl, hrow⟩ := hstored g (hgroups ▸ hg) k q r hget
    refine ⟨nofun, fun _ => ?_, fun hmany => absurd hone' hmany⟩
    rw [hschema]
    exact hrow
  · have hshort := hlog w hw row hrow
    have hloggable := h.loggable w hw row hrow
    refine ⟨⟨?_, fun hmany => absurd hone' hmany, fun idx hidx name hname j hj => ?_⟩, ?_⟩
    · -- the dropped column is behind the row, or there was none
      rw [hschema]
      show _ ≤ (t.schema.columns.eraseIdx p).length
      rw [length_eraseIdx]
      have hle := hloggable.le
      split <;> omega
    · rw [hindexes] at hidx
      have hwide := hloggable.wide idx hidx name hname _ (hindex hj)
      split at hwide
      · exact hwide
      · omega
    · rw [hschema]
      exact fit_eraseIdx hshort
  · refine hrep.change hlen (TableOk.view_one hone hgroups h.fresh (hschema ▸ hfresh)
      (fun g hg k q r hget => ?_) hrep) fun idx hidx => ?_
    · obtain ⟨l, rfl, -⟩ := hstored g hg k q r hget
      rw [hschema]
      exact h.fresh.values_withoutColumn hfresh nofun
    · obtain ⟨hcols, -⟩ := t'.indexable idx hidx
      rw [hindexes] at hidx
      refine ⟨rfl, idx, hidx, rfl, fun row _ => ⟨rfl, rfl, map_congr_left fun name hname => ?_⟩⟩
      obtain ⟨j, hj⟩ := isSome_iff_exists.1 (hcols name hname)
      unfold Schema.columnValue
      rw [hj, hindex hj, bind_some, getElem?_eraseIdx]
      split <;> rfl

/-! ## Renaming a column -/

namespace Schema

variable {s : Schema} {old new : String}

theorem columnIndex_withName (hnew : old = new ∨ ∀ c ∈ s.columns, c.name ≠ new) {c : Column}
    (hc : c ∈ s.columns) :
    (s.withName old new).columnIndex (renamed old new c.name) = s.columnIndex c.name := by
  have hne : ∀ b ∈ s.columns, old = new ∨ b.name ≠ new := fun b hb =>
    hnew.imp_right fun hall => hall b hb
  show (s.columns.map _).findIdx? _ = _
  rw [findIdx?_map]
  refine findIdx?_congr fun b hb => ?_
  rw [comp_apply, decide_eq_decide]
  exact ⟨renamed_inj (hne b hb) (hne c hc), fun heq => by rw [heq]⟩

theorem groupColumns_withName (s : Schema) (old new g : String) :
    (s.withName old new).groupColumns g
      = (s.groupColumns g).map fun c => { c with name := renamed old new c.name } := by
  show (s.columns.map _).filter _ = _
  rw [List.filter_map]
  rfl

theorem localityGroups_withName (s : Schema) (old new : String) :
    (s.withName old new).localityGroups = s.localityGroups := by
  show (if (s.columns.map _).isEmpty then _ else ((s.columns.map _).map Column.group).dedup) = _
  rw [List.isEmpty_map, List.map_map]
  rfl

theorem splitRow_withName (hnew : old = new ∨ ∀ c ∈ s.columns, c.name ≠ new) (row : Row) (g : String) :
    (s.withName old new).splitRow row g = s.splitRow row g := by
  unfold splitRow
  rw [groupColumns_withName, List.mapM_map]
  refine mapM_congr fun c hc => ?_
  rw [comp_apply, columnIndex_withName hnew (mem_of_mem_filter hc)]

end Schema

theorem TableOk.renameColumn (h : TableOk tok t d log) {old new : String}
    (hnew : old = new ∨ ∀ c ∈ t.schema.columns, c.name ≠ new)
    (hschema : t'.schema = t.schema.withName old new) (hgroups : t'.groups = t.groups) :
    TableOk tok t' d log := by
  have hcolumns : t'.schema.columns.length = t.schema.columns.length := by
    rw [hschema]
    exact length_map ..
  have hlayout : t'.schema.currentLayout = t.schema.currentLayout := by
    rw [hschema]
    exact currentLayout_withName ..
  have hgroupColumns : ∀ g, t'.schema.groupColumns g
      = (t.schema.groupColumns g).map fun c => { c with name := Schema.renamed old new c.name } := by
    intro g
    rw [hschema]
    exact Schema.groupColumns_withName ..
  -- each index is one of before, with the column's new name
  have hindex : ∀ idx' ∈ t'.schema.indexes, ∃ idx ∈ t.schema.indexes,
      idx' = { idx with columns := idx.columns.map (Schema.renamed old new) } := by
    intro idx' hidx'
    rw [hschema] at hidx'
    obtain ⟨idx, hidx, rfl⟩ := mem_map.1 hidx'
    exact ⟨idx, hidx, rfl⟩
  have hposition : ∀ idx ∈ t.schema.indexes, ∀ name ∈ idx.columns,
      t'.schema.columnIndex (Schema.renamed old new name) = t.schema.columnIndex name := by
    intro idx hidx name hname
    obtain ⟨i, hi⟩ := isSome_iff_exists.1 ((t.indexable idx hidx).1 name hname)
    obtain ⟨c, hc, rfl, -⟩ := Schema.getElem?_of_columnIndex hi
    rw [hschema]
    exact Schema.columnIndex_withName hnew (mem_of_getElem? hc)
  have hsub : ∀ row g, t'.subRow row g = t.subRow row g := by
    intro row g
    unfold Table.subRow
    rw [hgroups, hschema, Schema.splitRow_withName hnew]
  have hnorm : t'.norm (d.engines t'.schema) = t.norm (d.engines t.schema) := by
    funext n
    cases n with
    | group g =>
      ext k : 1
      rw [TableData.get_norm_group, TableData.get_norm_group, hlayout, hgroupColumns]
      refine map_congr fun x _ => ?_
      cases x.1.read t.schema.currentLayout x.2 with
      | row r => exact congrArg Stored.row (fit_map (f := fun c =>
          { c with name := Schema.renamed old new c.name }) (fun _ => rfl) r)
      | null => rfl
      | positions ps => rfl
    | index i => rfl
  refine h.change (f := id) ?_ ?_ ?_ (fun g hg k p r hget => ?_) (fun row hlen => ?_)
    (fun w hw row hrow => ?_) fun rows hrep => ?_
  · rw [hgroups, h.groups, hschema, Schema.localityGroups_withName]
  · rw [hschema]
    exact Schema.nodup_names_withName h.names hnew
  · rw [hschema]
    exact h.fresh.altered (.rename old new hnew)
  · have hplaced := h.placed g (hgroups ▸ hg) k p r hget
    refine ⟨hplaced.layout, fun hone => ?_, fun hmany => ?_⟩
    · have hrow := hplaced.one (hgroups ▸ hone)
      unfold Schema.RowOk at hrow ⊢
      rw [hcolumns, hschema]
      exact hrow
    · rw [hgroupColumns, length_map, hlayout]
      exact hplaced.many (hgroups ▸ hmany)
  · exact hlen.trans hcolumns.symm
  · have hloggable := h.loggable w hw row hrow
    refine ⟨⟨?_, fun hmany => ?_, fun idx' hidx' name' hname' i hi => ?_⟩, ?_⟩
    · rw [hcolumns]
      exact hloggable.le
    · rw [hcolumns]
      exact hloggable.split (hgroups ▸ hmany)
    · obtain ⟨idx, hidx, rfl⟩ := hindex idx' hidx'
      obtain ⟨name, hname, rfl⟩ := mem_map.1 hname'
      rw [hposition idx hidx name hname] at hi
      exact hloggable.wide idx hidx name hname i hi
    · rw [hschema]
      exact fit_map (f := fun c => { c with name := Schema.renamed old new c.name }) (fun _ => rfl) row
  · refine hrep.change (fun row hlen => hlen.trans hcolumns.symm) (fun g hg pk => ?_) fun idx' hidx' => ?_
    · rw [hnorm, hrep.groups g (hgroups ▸ hg) pk]
      simp [hsub]
    · obtain ⟨idx, hidx, rfl⟩ := hindex idx' hidx'
      refine ⟨by rw [hnorm], idx, hidx, rfl, fun row _ => ⟨rfl, rfl, ?_⟩⟩
      rw [List.map_map]
      refine map_congr_left fun name hname => ?_
      unfold Schema.columnValue
      rw [comp_apply, hposition idx hidx name hname]
      rfl

/-! ## Indexes -/

namespace Schema

variable {s : Schema} {idx : IndexDefinition} {row : Row} {pk : DbKey} {es : List (DbKey × Stored)}

theorem indexEntries_of_backfill (h : s.backfillEntries tok idx row pk = some es) :
    s.indexEntries tok idx row pk = some es := by
  unfold backfillEntries at h
  unfold indexEntries
  cases hty : idx.indexType with
  | fullText =>
    rw [hty] at h
    exact h
  | btree =>
    rw [hty] at h
    obtain ⟨values, hvalues, h⟩ := bind_eq_some_iff.1 h
    split at h
    · cases h
      show Option.map _ (Option.bind (idx.columns.mapM (s.columnValue row)) _) = _
      rw [hvalues]
      refine congrArg some ?_
      split <;> rfl
    · cases h

end Schema

theorem lastWrite_backfilled {s : Schema} {idx : IndexDefinition} {scan : List (DbKey × Row)}
    (hnd : (scan.map Prod.fst).Nodup) {ess : List (List (DbKey × Stored))}
    (hes : scan.mapM (fun x => s.backfillEntries tok idx x.2 x.1) = some ess) (key : DbKey) :
    lastWrite (ess.flatten.map fun x => (x.1, some x.2)) key
      = ((owner key).bind fun pk => s.entry tok idx pk (scan.lookup pk) key).map some := by
  set puts : DbKey × Row → Batch := fun x =>
    ((s.backfillEntries tok idx x.2 x.1).getD []).map fun y => (y.1, some y.2) with hputs
  have hflat : (ess.flatten.map fun x => (x.1, some x.2)) = scan.flatMap puts := by
    rw [eq_map_of_mapM hes [], List.map_flatten, List.map_map]
    rfl
  have hlast : ∀ x ∈ scan, lastWrite (puts x) key = (s.entry tok idx x.1 (some x.2) key).map some := by
    intro x hx
    obtain ⟨es, -, hx⟩ := exists_of_mapM hes hx
    have hentries := Schema.indexEntries_of_backfill hx
    rw [hputs]
    dsimp only
    rw [hx, getD_some, lastWrite_puts (Schema.nodup_indexEntries hentries)]
    show _ = Option.map some (Option.bind _ _)
    rw [bind_some, hentries, bind_some]
  have hothers : ∀ x ∈ scan, owner key ≠ some x.1 → lastWrite (puts x) key = none := by
    intro x hx hne
    rw [hlast x hx, Schema.entry_of_owner_ne hne]
    rfl
  rw [hflat, lastWrite_flatMap hnd (a := (owner key).getD key)]
  · cases howner : owner key with
    | none =>
      cases hrow : scan.lookup key with
      | none => simp [hrow]
      | some row => simpa [hrow] using hothers _ (mem_of_lookup hrow) (by rw [howner]; nofun)
    | some pk =>
      rw [getD_some, bind_some]
      cases hrow : scan.lookup pk with
      | none => rfl
      | some row => rw [bind_some, hlast _ (mem_of_lookup hrow)]
  · exact fun x hx hne => hothers x hx fun heq => hne (by rw [heq]; rfl)

/-- Indexes that stay keep their engines, a new one gets its own entries. -/
theorem TableOk.reindex (h : TableOk tok t d log) {is : List IndexDefinition} {name : String}
    {store : SortedMap DbKey (Place × Stored)} (hschema : t'.schema = { t.schema with indexes := is })
    (hgroups : t'.groups = t.groups)
    (hnew : ∀ idx ∈ is, idx ∈ t.schema.indexes ∧ idx.name ≠ name ∨ idx.name = name ∧
      (∀ col ∈ idx.columns, ∀ i, t.schema.columnIndex col = some i →
        ∀ w ∈ log, ∀ row ∈ w.rows, i < row.length) ∧
      ∀ rows, Represents tok t (t.norm (d.engines t.schema)) rows → ∀ key,
        (store.get key).map Prod.snd
          = (owner key).bind fun pk => t.schema.entry tok idx pk (rows pk) key) :
    TableOk tok t' (update d (.index name) store) log := by
  obtain ⟨s', groups', hcovers, hnodup, hnodup', hindexable⟩ := t'
  cases hschema
  cases hgroups
  refine ⟨h.groups, h.names, ⟨h.fresh.nodup, h.fresh.lt⟩, fun g hg k p r hget => ?_,
    fun w hw row hrow => ?_, ?_⟩
  · obtain ⟨hlayout, hone, hmany⟩ := h.placed g hg k p r hget
    exact ⟨hlayout, hone, hmany⟩
  · obtain ⟨hle, hsplit, hold⟩ := h.loggable w hw row hrow
    refine ⟨hle, hsplit, fun idx hidx => ?_⟩
    rcases hnew idx hidx with ⟨hmem, -⟩ | ⟨-, hwide, -⟩
    · exact hold idx hmem
    · exact fun col hcol i hi => hwide col hcol i hi w hw row hrow
  · obtain ⟨base, hbase, hexact, hrep⟩ := h.exact
    refine ⟨base, hbase, hexact, ⟨hrep.width, fun g hg pk => ?_, fun idx hidx key => ?_⟩⟩
    · rw [TableData.get_norm_group]
      exact (TableData.get_norm_group ..).symm.trans (hrep.groups g hg pk)
    · rcases hnew idx hidx with ⟨hmem, hne⟩ | ⟨rfl, -, hentries⟩
      · have hname : EngineName.index idx.name ≠ .index name := fun heq =>
          hne (EngineName.index.inj heq)
        have hengine : TableData.engines (update d (.index name) store)
            { t.schema with indexes := is } (.index idx.name)
            = d.engines t.schema (.index idx.name) :=
          TableData.engines_index (update_of_ne hname ..) ..
        exact (congrArg (SortedMap.get · key) hengine).trans (hrep.indexes idx hmem key)
      · refine (SortedMap.get_mapValues ..).trans ?_
        rw [update_self]
        exact hentries _ hrep key

theorem TableOk.createIndex (h : TableOk tok t d log) {idx : IndexDefinition}
    (hschema : t'.schema = { t.schema with indexes := t.schema.indexes ++ [idx] })
    (hgroups : t'.groups = t.groups) {lo hi : DbKey} {ess : List (List (DbKey × Stored))}
    (hes : (t.filteredScan (d.engines t.schema) lo hi).mapM
      (fun x => t.schema.backfillEntries tok idx x.2 x.1) = some ess)
    (hwide : ∀ name ∈ idx.columns, ∀ i, t.schema.columnIndex name = some i →
      ∀ w ∈ log, ∀ row ∈ w.rows, i < row.length)
    (hbounds : ∀ g ∈ t.groups, ∀ x ∈ (d (.group g)).entries, lo ≤ x.1 ∧ x.1 ≤ hi) :
    TableOk tok t' (update d (.index idx.name) (DdlDb.indexStore ess.flatten)) log := by
  have hnd := t'.nodupIndexes
  rw [hschema, map_append, nodup_append] at hnd
  refine h.reindex hschema hgroups fun i hmem => ?_
  rcases mem_append.1 hmem with hmem | hmem
  · exact .inl ⟨hmem, hnd.2.2 i.name (mem_map_of_mem hmem) idx.name (by simp)⟩
  cases mem_singleton.1 hmem
  refine .inr ⟨rfl, hwide, fun rows hrep key => ?_⟩
  have hscan : ∀ pk, (t.filteredScan (d.engines t.schema) lo hi).lookup pk = rows pk := by
    intro pk
    rw [Table.lookup_filteredScan, hrep.get_norm h.names]
    split
    · rfl
    · next hout =>
      cases hrow : rows pk with
      | none => rfl
      | some row =>
        -- a row there is is stored under its key
        obtain ⟨g, hg⟩ := t.schema.exists_mem_localityGroups
        have hget := hrep.groups g (t.covers g hg) pk
        obtain ⟨sub, hsub⟩ := Table.exists_subRow (hrep.width pk row hrow) g
        rw [hrow, bind_some, hsub, TableData.get_norm_group] at hget
        obtain ⟨x, hx, -⟩ := map_eq_some_iff.1 hget
        exact absurd (hbounds g (t.covers g hg) _ (mem_of_lookup hx)) hout
  unfold DdlDb.indexStore
  rw [SortedMap.get_mapValues, Option.map_map]
  refine (congrFun map_id _).trans ?_
  rw [SortedMap.get_applyAll]
  show (lastWrite _ _).getD _ = _
  rw [lastWrite_backfilled (Table.ascending_filteredScan ..).nodup hes]
  simp only [hscan]
  cases (owner key).bind fun pk => t.schema.entry tok idx pk (rows pk) key <;> rfl

theorem TableOk.dropIndex (h : TableOk tok t d log) {index : String}
    (hschema : t'.schema = { t.schema with
      indexes := t.schema.indexes.eraseP fun idx => idx.name = index })
    (hgroups : t'.groups = t.groups) :
    TableOk tok t' (update d (.index index) .empty) log := by
  refine h.reindex hschema hgroups fun i hi => .inl ⟨mem_of_mem_eraseP hi, fun heq => ?_⟩
  have hnd := t.nodupIndexes
  obtain ⟨a, l, r, -, ha, hl, hr⟩ := exists_of_eraseP
    (p := fun idx : IndexDefinition => idx.name = index) (mem_of_mem_eraseP hi)
    (decide_eq_true heq)
  rw [hr] at hi
  rw [hl, map_append, map_cons, nodup_append, nodup_cons] at hnd
  rcases mem_append.1 hi with hi | hi
  · exact hnd.2.2 _ (mem_map_of_mem hi) _ (by simp) (heq.trans (of_decide_eq_true ha).symm)
  · exact hnd.2.1.1 (mem_map.2 ⟨i, hi, heq.trans (of_decide_eq_true ha).symm⟩)

end Dtdb.Relational
