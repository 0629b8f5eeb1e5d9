import Dtdb.Relational.TxLog

/-! # Rows of an older width

A row written before a column was added is short, and stands for itself filled up with defaults.
`Table.norm` fills up what the engines hold; readers see no difference. -/

namespace Dtdb.Relational

open Dtdb.Lib Dtdb.Storage List Option Function

/-! ## Filling up a row -/

/-- A missing value is the column's default. -/
def fit (cols : List Column) (row : Row) : Row :=
  cols.zipIdx.map fun x => row[x.2]?.getD x.1.default

variable {cols : List Column} {row : Row}

@[simp] theorem length_fit (cols : List Column) (row : Row) : (fit cols row).length = cols.length := by
  simp [fit]

theorem getElem?_fit (cols : List Column) (row : Row) (i : Nat) :
    (fit cols row)[i]? = cols[i]?.map fun c => row[i]?.getD c.default := by
  simp [fit, comp_def]

theorem fit_of_length (h : row.length = cols.length) : fit cols row = row := by
  refine ext_getElem? fun i => ?_
  rw [getElem?_fit]
  by_cases hi : i < cols.length
  · rw [getElem?_eq_getElem hi, getElem?_eq_getElem (h ▸ hi)]
    rfl
  · rw [getElem?_eq_none (not_lt.1 hi), getElem?_eq_none (h ▸ not_lt.1 hi)]
    rfl

theorem fit_eraseIdx {p : Nat} (h : row.length ≤ p) :
    fit (cols.eraseIdx p) row = (fit cols row).eraseIdx p := by
  have hpast : ∀ n, p ≤ n → row[n]? = none := fun n hn => getElem?_eq_none (h.trans hn)
  refine ext_getElem? fun i => ?_
  rw [getElem?_fit, getElem?_eraseIdx, getElem?_eraseIdx]
  split
  · rw [getElem?_fit]
  · next hi => rw [getElem?_fit, hpast i (not_lt.1 hi), hpast (i + 1) (by omega)]

theorem fit_map {f : Column → Column} (h : ∀ c, (f c).default = c.default) (row : Row) :
    fit (cols.map f) row = fit cols row := by
  refine ext_getElem? fun i => ?_
  rw [getElem?_fit, getElem?_fit, getElem?_map]
  simp [comp_def, h]

def Stored.fit (cols : List Column) : Stored → Stored
  | .row r => .row (Relational.fit cols r)
  | v => v

namespace Table

variable {tok : Tokenizers} {t : Table} {e : Engines}

def norm (t : Table) (e : Engines) : Engines
  | .group g => (e (.group g)).mapValues fun _ => Stored.fit (t.schema.groupColumns g)
  | .index i => e (.index i)

theorem groupRow_norm (e : Engines) (pk : DbKey) (g : String) :
    groupRow (t.norm e) pk g = (groupRow e pk g).map (fit (t.schema.groupColumns g)) := by
  unfold groupRow norm
  rw [SortedMap.get_mapValues]
  cases (e (.group g)).get pk with
  | none => rfl
  | some v => cases v <;> rfl

end Table

theorem Schema.getElem?_relativeIndex {s : Schema} (hnames : (s.columns.map Column.name).Nodup)
    {c : Column} (hc : c ∈ s.columns) :
    (s.groupColumns c.group)[s.relativeIndex c]? = some c := by
  obtain ⟨d, hd, hname⟩ := Schema.relativeIndex_spec hc
  have hmem : d ∈ s.columns := mem_of_mem_filter (mem_of_getElem? hd)
  rw [hd, inj_on_of_nodup_map hnames hmem hc hname]

/-- **Readers see no difference.** -/
theorem Table.get_norm {t : Table} (hnames : (t.schema.columns.map Column.name).Nodup) (e : Engines)
    (pk : DbKey) : t.get (t.norm e) pk = t.get e pk := by
  have hany : (t.schema.localityGroups.any fun g => (groupRow (t.norm e) pk g).isSome)
      = t.schema.localityGroups.any fun g => (groupRow e pk g).isSome := by
    simp [groupRow_norm, isSome_map]
  have hmerge : t.schema.mergeRows (groupRow (t.norm e) pk) = t.schema.mergeRows (groupRow e pk) := by
    refine map_congr_left fun c hc => ?_
    rw [groupRow_norm]
    cases groupRow e pk c.group with
    | none => rfl
    | some r =>
      simp only [map_some, bind_some, getElem?_fit,
        Schema.getElem?_relativeIndex hnames hc, getD_some]
  unfold Table.get Table.mergeParts
  rw [hany, hmerge]

/-! ## Index keys of two rows -/

namespace Schema

variable {s s' : Schema} {tok : Tokenizers} {idx idx' : IndexDefinition} {row row' : Row} {pk : DbKey}

structure SameValues (s : Schema) (idx : IndexDefinition) (row : Row) (s' : Schema)
    (idx' : IndexDefinition) (row' : Row) : Prop where
  indexType : idx'.indexType = idx.indexType
  tokenizer : idx'.tokenizer = idx.tokenizer
  values : idx'.columns.map (s'.columnValue row') = idx.columns.map (s.columnValue row)

theorem mapM_eq_of_map {X Y Z : Type} {l : List X} {l' : List Y} {f : X → Option Z} {g : Y → Option Z}
    (h : l'.map g = l.map f) : l'.mapM g = l.mapM f := by
  have hid : ∀ {X : Type} (l : List X) (f : X → Option Z), l.mapM f = (l.map f).mapM id := by
    intro X l f
    rw [List.mapM_map]
    rfl
  rw [hid l' g, h, ← hid]

namespace SameValues

theorem btreeKeys_eq (h : SameValues s idx row s' idx' row') :
    s'.btreeKeys idx' row' pk = s.btreeKeys idx row pk := by
  have hlen : idx'.columns.length = idx.columns.length := by
    simpa using congrArg length h.values
  unfold btreeKeys
  rw [mapM_eq_of_map h.values, hlen]

theorem rowTokens_eq (h : SameValues s idx row s' idx' row') :
    s'.rowTokens tok idx' row' = s.rowTokens tok idx row := by
  have hhead : (idx'.columns.head?.bind (s'.columnValue row'))
      = idx.columns.head?.bind (s.columnValue row) := by
    have hjoin : ∀ (l : List String) (f : String → Option DbValue),
        l.head?.bind f = (l.map f).head?.join := fun l f => by cases l <;> rfl
    rw [hjoin, hjoin, h.values]
  show (idx'.columns.head?.bind fun name => (s'.columnValue row' name).bind _)
    = idx.columns.head?.bind fun name => (s.columnValue row name).bind _
  rw [← bind_assoc, ← bind_assoc, hhead, h.tokenizer]

theorem indexEntries_eq (h : SameValues s idx row s' idx' row') :
    s'.indexEntries tok idx' row' pk = s.indexEntries tok idx row pk := by
  unfold indexEntries
  rw [h.indexType, h.rowTokens_eq, h.btreeKeys_eq]

theorem getIndexKeys_eq (h : SameValues s idx row s' idx' row') :
    s'.getIndexKeys tok idx' row' pk = s.getIndexKeys tok idx row pk := by
  unfold getIndexKeys
  rw [h.indexType, h.rowTokens_eq, h.btreeKeys_eq]

theorem entry_eq (h : SameValues s idx row s' idx' row') (key : DbKey) :
    s'.entry tok idx' pk (some row') key = s.entry tok idx pk (some row) key := by
  show Option.bind _ _ = Option.bind _ _
  rw [bind_some, bind_some, h.indexEntries_eq]

end SameValues

end Schema

/-! ## Rows of the log -/

/-- It is no wider than the table, as wide if it must be split, and reaches every indexed column. -/
structure Table.Loggable (t : Table) (row : Row) : Prop where
  le : row.length ≤ t.schema.columns.length
  split : t.groups.length ≠ 1 → row.length = t.schema.columns.length
  wide : ∀ idx ∈ t.schema.indexes, ∀ name ∈ idx.columns, ∀ i,
    t.schema.columnIndex name = some i → i < row.length

theorem Table.Loggable.of_length {t : Table} (h : row.length = t.schema.columns.length) :
    t.Loggable row where
  le := h.le
  split _ := h
  wide _ _ _ _ i hi := by
    obtain ⟨hlt, -, -⟩ := findIdx?_eq_some_iff_getElem.1 hi
    exact h ▸ hlt

namespace Table

variable {tok : Tokenizers} {t : Table} {e : Engines}

theorem groupColumns_of_mem (hone : t.groups.length = 1) {g : String} (hg : g ∈ t.groups) :
    t.schema.groupColumns g = t.schema.columns := by
  obtain ⟨g', hg'⟩ := length_eq_one_iff.1 hone
  refine filter_eq_self.2 fun d hd => ?_
  have hd' := group_mem hd
  rw [hg', mem_singleton] at hg hd'
  simp [hd', hg]

theorem length_splitRow {s : Schema} {sub : Row} {g : String} (h : s.splitRow row g = some sub) :
    sub.length = (s.groupColumns g).length := by
  have hmap := congrArg length (mapM_eq_some_iff.1 h)
  simpa using hmap.symm

theorem subRow_fit (h : t.Loggable row) {g : String} (hg : g ∈ t.groups) :
    t.subRow (fit t.schema.columns row) g
      = (t.subRow row g).map (fit (t.schema.groupColumns g)) := by
  by_cases hone : t.groups.length = 1
  · unfold subRow
    rw [if_pos hone, if_pos hone, groupColumns_of_mem hone hg]
    rfl
  · rw [fit_of_length (h.split hone)]
    obtain ⟨sub, hsub⟩ := exists_subRow (h.split hone) g
    have hsplit : t.schema.splitRow row g = some sub := by
      unfold subRow at hsub
      rwa [if_neg hone] at hsub
    rw [hsub, map_some, fit_of_length (length_splitRow hsplit)]

theorem Loggable.sameValues (h : t.Loggable row) {idx : IndexDefinition}
    (hidx : idx ∈ t.schema.indexes) :
    Schema.SameValues t.schema idx row t.schema idx (fit t.schema.columns row) where
  indexType := rfl
  tokenizer := rfl
  values := map_congr_left fun name hname => by
    unfold Schema.columnValue
    cases hi : t.schema.columnIndex name with
    | none => rfl
    | some i =>
      have hlt := h.wide idx hidx name hname i hi
      rw [bind_some, bind_some, getElem?_fit,
        getElem?_eq_getElem (hlt.trans_le h.le), getElem?_eq_getElem hlt]
      rfl

/-! ## Replaying -/

def normBatch (t : Table) (x : EngineName × Batch) : EngineName × Batch :=
  match x.1 with
  | .group g => (x.1, x.2.map fun m => (m.1, m.2.map (Stored.fit (t.schema.groupColumns g))))
  | .index _ => x

theorem write_norm (t : Table) (e : Engines) (bs : List (EngineName × Batch)) :
    (t.norm e).write (bs.map t.normBatch) = t.norm (e.write bs) := by
  have hfor : ∀ n, batchFor (bs.map t.normBatch) n = (t.normBatch (n, batchFor bs n)).2 := by
    intro n
    induction bs with
    | nil => cases n <;> rfl
    | cons x bs ih =>
      have hname : (t.normBatch x).1 = x.1 := by
        unfold normBatch
        split
        · rfl
        · rfl
      rw [map_cons, batchFor_cons, batchFor_cons, ih, hname]
      by_cases hx : x.1 = n
      · subst hx
        rw [if_pos rfl, if_pos rfl]
        unfold normBatch
        cases x.1 with
        | group g => exact (map_append ..).symm
        | index i => rfl
      · rw [if_neg hx, if_neg hx, nil_append, nil_append]
  funext n
  unfold Engines.write
  rw [hfor]
  cases n with
  | group g => exact (SortedMap.mapValues_applyAll ..).symm
  | index i => rfl

theorem batches_fit {ws : List (DbKey × Option Row)} {old old' : DbKey → Option Row}
    (hws : ∀ w ∈ ws, ∀ row, w.2 = some row → t.Loggable row)
    (hold : ∀ w ∈ ws, ∀ idx ∈ t.schema.indexes,
      t.staleKeys tok idx w.1 (old' w.1) = t.staleKeys tok idx w.1 (old w.1)) :
    t.batches tok (ws.map fun w => (w.1, w.2.map (fit t.schema.columns))) old'
      = (t.batches tok ws old).map (map t.normBatch) := by
  unfold batches
  rw [← mapM_map]
  refine mapM_congr fun n hn => ?_
  rw [Option.map_map]
  cases n with
  | group g =>
    have hg : g ∈ t.groups := by
      simpa [engineNames] using hn
    have hbatch : ∀ w ∈ ws, t.groupBatch g (w.1, w.2.map (fit t.schema.columns))
        = (t.groupBatch g w).map fun b =>
            b.map fun m => (m.1, m.2.map (Stored.fit (t.schema.groupColumns g))) := by
      rintro ⟨pk, row⟩ hw
      cases row with
      | none => rfl
      | some row =>
        simp only [groupBatch, map_some, subRow_fit (hws _ hw row rfl) hg, Option.map_map]
        rfl
    dsimp only [batch]
    rw [List.mapM_map, show ws.mapM (t.groupBatch g ∘ fun w => (w.1, w.2.map (fit t.schema.columns)))
      = _ from mapM_congr hbatch, mapM_map, Option.map_map, Option.map_map, Option.map_map]
    congr 1
    funext bss
    simp [comp_apply, normBatch, map_flatten]
  | index i =>
    dsimp only [batch]
    cases hfind : t.schema.indexes.find? fun idx => idx.name = i with
    | none => rfl
    | some idx =>
      have hidx := mem_of_find?_eq_some hfind
      have hbatch : ∀ w ∈ ws, t.indexBatch tok idx old' (w.1, w.2.map (fit t.schema.columns))
          = t.indexBatch tok idx old w := by
        rintro ⟨pk, row⟩ hw
        have hfresh : t.freshEntries tok idx pk (row.map (fit t.schema.columns))
            = t.freshEntries tok idx pk row := by
          cases row with
          | none => rfl
          | some row => exact ((hws _ hw row rfl).sameValues hidx).indexEntries_eq
        unfold indexBatch
        rw [hfresh, hold _ hw idx hidx]
      dsimp only
      rw [List.mapM_map, show ws.mapM (t.indexBatch tok idx old' ∘ fun w =>
        (w.1, w.2.map (fit t.schema.columns))) = _ from mapM_congr hbatch]
      rfl

end Table

def TableWrites.map (g : Row → Row) (w : TableWrites) : TableWrites :=
  ⟨w.writes.map fun x => (x.1, x.2.map g), w.old.map (·.map fun x => (x.1, g x.2))⟩

theorem TableWrites.oldRow_map (g : Row → Row) (w : TableWrites) (pk : DbKey) :
    (w.map g).oldRow pk = (w.oldRow pk).map g := by
  unfold TableWrites.map oldRow
  cases w.old with
  | none => rfl
  | some old => exact lookup_map_snd old g pk

theorem TableWrites.map_map (f g : Row → Row) (w : TableWrites) :
    (w.map f).map g = w.map (g ∘ f) := by
  unfold TableWrites.map
  simp [comp_def]

def TableWrites.rows (w : TableWrites) : List Row :=
  w.writes.filterMap Prod.snd ++ (w.old.getD []).map Prod.snd

theorem TableWrites.mem_rows_of_write {w : TableWrites} {x : DbKey × Option Row} (hx : x ∈ w.writes)
    (hrow : x.2 = some row) : row ∈ w.rows :=
  mem_append_left _ (mem_filterMap.2 ⟨x, hx, hrow⟩)

theorem TableWrites.map_congr {w : TableWrites} {f g : Row → Row} (h : ∀ row ∈ w.rows, f row = g row) :
    w.map f = w.map g := by
  have hwrites : w.writes.map (fun x => (x.1, x.2.map f)) = w.writes.map fun x => (x.1, x.2.map g) := by
    refine map_congr_left fun x hx => ?_
    cases hrow : x.2 with
    | none => rfl
    | some row => rw [map_some, map_some, h row (mem_rows_of_write hx hrow)]
  unfold TableWrites.map
  rw [hwrites]
  cases hold : w.old with
  | none => rfl
  | some old =>
    refine congrArg (fun l => TableWrites.mk _ (some l)) (map_congr_left fun x hx => ?_)
    have hmem : x.2 ∈ w.rows := by
      unfold rows
      rw [hold]
      exact mem_append_right _ (mem_map_of_mem hx)
    rw [h x.2 hmem]

theorem Table.writeBatch_fit (tok : Tokenizers) {t : Table}
    (hnames : (t.schema.columns.map Column.name).Nodup) {w : TableWrites}
    (hw : ∀ row ∈ w.rows, t.Loggable row) (e : Engines) :
    t.writeBatch tok (t.norm e) (w.map (fit t.schema.columns)).writes
        (w.map (fit t.schema.columns)).preset
      = (t.writeBatch tok e w.writes w.preset).map t.norm := by
  have hold : ∀ x ∈ w.writes, ∀ idx ∈ t.schema.indexes,
      t.staleKeys tok idx x.1 ((w.map (fit t.schema.columns)).preset.getD (t.get (t.norm e)) x.1)
        = t.staleKeys tok idx x.1 (w.preset.getD (t.get e) x.1) := by
    intro x hx idx hidx
    have hrows : ∀ row, w.oldRow x.1 = some row → t.Loggable row := fun row hrow =>
      hw row (mem_append_right _ (mem_map.2 ⟨(x.1, row), mem_of_lookup hrow, rfl⟩))
    have hfit := w.oldRow_map (fit t.schema.columns) x.1
    unfold TableWrites.oldRow at hrows hfit
    unfold TableWrites.preset
    cases hwold : w.old with
    | none =>
      simp [TableWrites.map, hwold, map_none, getD_none, t.get_norm hnames]
    | some old =>
      rw [hwold] at hrows
      simp only [TableWrites.map, hwold, map_some, getD_some] at hfit ⊢
      rw [hfit]
      cases hlook : old.lookup x.1 with
      | none => rfl
      | some row => exact ((hrows row hlook).sameValues hidx).getIndexKeys_eq
  unfold Table.writeBatch
  rw [show (w.map (fit t.schema.columns)).writes
    = w.writes.map fun x => (x.1, x.2.map (fit t.schema.columns)) from rfl,
    Table.batches_fit (fun x hx row hrow => hw row (TableWrites.mem_rows_of_write hx hrow)) hold,
    Option.map_map, Option.map_map]
  congr 1
  funext bs
  exact t.write_norm e bs

/-- **Replaying a log filled up.** -/
theorem Table.replay_fit {tok : Tokenizers} {t : Table}
    (hnames : (t.schema.columns.map Column.name).Nodup) {log : List TableWrites}
    (hlog : ∀ w ∈ log, ∀ row ∈ w.rows, t.Loggable row) (e : Engines) :
    t.replay tok (log.map (·.map (fit t.schema.columns))) (t.norm e)
      = (t.replay tok log e).map t.norm := by
  induction log generalizing e with
  | nil => rfl
  | cons w log ih =>
    have hwrite := Table.writeBatch_fit tok hnames (hlog w (.head _)) e
    unfold Table.replay at ih ⊢
    rw [map_cons, foldlM_cons, foldlM_cons, hwrite]
    cases t.writeBatch tok e w.writes w.preset with
    | none => rfl
    | some e' => exact ih (fun x hx => hlog x (.tail _ hx)) e'

end Dtdb.Relational
