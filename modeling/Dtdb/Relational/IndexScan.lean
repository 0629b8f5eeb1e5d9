import Dtdb.Relational.TxReads

/-! # Scanning an index inside a transaction

`index_scan` fetches the committed rows of a padded range of the index engine through the write
buffer; rows that are only buffered are tested on the leading column.  The two rules agree as long
as no buffered row leaves the range its committed row was found in. -/

namespace Dtdb.Relational

open Dtdb.Lib Dtdb.Storage List Option

/-! ## Keys of rows -/

def boundParts : DbKey → List DbKey
  | .composite parts => parts
  | key => [key]

namespace Schema

/-- `extract_primary_key`; `none` is an error. -/
def extractPrimaryKey (s : Schema) (row : Row) : Option DbKey :=
  match s.primaryKey with
  | [] => none
  | [x] => row[x.2]?.bind dbValueToKey
  | pk => (pk.mapM fun x => row[x.2]?.bind dbValueToKey).map .composite

def keysOf (s : Schema) (names : List String) (row : Row) : Option (List DbKey) :=
  names.mapM fun name => (s.columnValue row name).bind dbValueToKey

def nonNull (s : Schema) (names : List String) (row : Row) : Bool :=
  names.all fun name => match s.columnValue row name with
    | some v => v ≠ .null
    | none => false

def leadingBetween (s : Schema) (names : List String) (startVal endVal : DbKey) (row : Row) : Bool :=
  match names.head?.bind fun name => (s.columnValue row name).bind dbValueToKey with
  | some k => startVal ≤ k ∧ k ≤ endVal
  | none => false

/-- `row_val_to_key` of a column. -/
def sortPart (s : Schema) (row : Row) (name : String) : DbKey :=
  (dbValueToKey ((s.columnValue row name).getD .null)).getD (.int ⟨0, by decide⟩)

def extractIndexKey (s : Schema) (names : List String) (row : Row) : DbKey :=
  match names with
  | [name] => s.sortPart row name
  | _ => .composite (names.map (s.sortPart row))

/-- By index columns, then by primary key. -/
def sortsBefore (s : Schema) (names : List String) (a b : Row) : Bool :=
  decide (s.extractIndexKey names a < s.extractIndexKey names b) ||
    decide (s.extractIndexKey names a = s.extractIndexKey names b) &&
      match s.extractPrimaryKey a, s.extractPrimaryKey b with
      | some k, some j => decide (k ≤ j)
      | _, _ => true

end Schema

/-! ## The scan -/

inductive IndexScanError where
  | noIndex (name : String)
  | noPrimaryKey
  | noColumn
deriving DecidableEq

namespace TxTable

def padding (tx : TxTable) (idx : IndexDefinition) (prefixLen : Nat) : Option (List (DbKey × DbKey)) :=
  (idx.columns.drop prefixLen).mapM fun name =>
    (tx.table.schema.columnIndex name).bind fun i =>
      tx.table.schema.columns[i]?.map fun c => c.dataType.keyBounds

/-- The range of the index engine's keys; what the bounds do not reach takes any value of its type.
-/
def indexRange (tx : TxTable) (indexName : String) (startVal endVal : DbKey) :
    Except IndexScanError (EngineView × IndexDefinition × DbKey × DbKey) :=
  match tx.table.indexEngines indexName with
  | none => .error (.noIndex indexName)
  | some engine => match tx.table.schema.primaryKeyBounds with
    | none => .error .noPrimaryKey
    | some (minPk, maxPk) => match tx.table.schema.indexes.find? fun i => i.name = indexName with
      | none => .error (.noIndex indexName)
      | some idx => match tx.padding idx (boundParts startVal).length with
        | none => .error .noColumn
        | some pads => .ok (engine, idx,
            .composite (boundParts startVal ++ pads.map Prod.fst ++ [minPk]),
            .composite (boundParts endVal ++ pads.map Prod.snd ++ [maxPk]))

def entryPk (x : DbKey × Stored) : Option DbKey :=
  match x.1 with
  | .composite parts => parts.getLast?
  | _ => none

def bufferedRows (tx : TxTable) (idx : IndexDefinition) (startVal endVal : DbKey)
    (resolved : List DbKey) : List (DbKey × Row) :=
  tx.buffer.entries.filterMap fun x =>
    if x.1 ∈ resolved then none
    else x.2.bind fun row =>
      if tx.table.schema.nonNull idx.columns row ∧
          tx.table.schema.leadingBetween idx.columns startVal endVal row
      then some (x.1, row) else none

def fetchedRows (tx : TxTable) (pks : List DbKey) (columns : Option (List String)) :
    List (DbKey × Row) :=
  (pks.zip (tx.multiGetProjected pks columns)).filterMap fun x => x.2.map (x.1, ·)

/-- `index_scan`; `none` is a panic. -/
def indexScan (tx : TxTable) (indexName : String) (startVal endVal : DbKey)
    (columns : Option (List String)) : Option (Except IndexScanError (List Row)) :=
  match tx.indexRange indexName startVal endVal with
  | .error err => some (.error err)
  | .ok (engine, idx, startBound, endBound) => (engine.scan startBound endBound).map fun entries =>
    let pks := entries.filterMap entryPk
    let rows := tx.fetchedRows pks columns ++ tx.bufferedRows idx startVal endVal pks
    .ok ((rows.map Prod.snd).insertionSort fun a b =>
      tx.table.schema.sortsBefore idx.columns a b = true)

end TxTable

/-! ## What it is for -/

/-- An ordered index whose engine holds the keys of the committed rows, which are as wide as the
schema and lie under their primary keys. -/
structure IndexedTx extends TxTable where
  idx : IndexDefinition
  engine : EngineView
  found : table.schema.indexes.find? (fun i => i.name = idx.name) = some idx
  opened : table.indexEngines idx.name = some engine
  btree : idx.indexType = .btree
  indexable : ∀ name ∈ idx.columns, (table.schema.columnIndex name).isSome = true
  nonempty : idx.columns ≠ []
  width : ∀ pk row, buffer.get pk = some (some row) → row.length = table.schema.columns.length
  keys : ∀ pk row, toTxTable.getProjected pk none = some row →
    table.schema.extractPrimaryKey row = some pk
  consistent : ∀ key, (engine.store.get key).isSome = true ↔ ∃ pk row ks,
    table.get pk none = some row ∧ table.schema.btreeKeys idx row pk = some ks ∧ key ∈ ks

namespace IndexedTx

variable (x : IndexedTx) (startVal endVal : DbKey)

def PrefixBetween (row : Row) : Prop :=
  ∃ ks, x.table.schema.keysOf (x.idx.columns.take (boundParts startVal).length) row = some ks ∧
    DbKey.composite (boundParts startVal) ≤ .composite ks ∧
      DbKey.composite ks ≤ .composite (boundParts endVal)

/-- A row that the scan is to return. -/
def Matches (row : Row) : Prop :=
  x.table.schema.nonNull x.idx.columns row = true ∧ x.PrefixBetween startVal endVal row

def Before (a b : DbKey × Row) : Prop :=
  ∀ ka kb, x.table.schema.keysOf x.idx.columns a.2 = some ka →
    x.table.schema.keysOf x.idx.columns b.2 = some kb →
      DbKey.composite ka < .composite kb ∨ ka = kb ∧ a.1 < b.1

/-- The rows of the view that match, in the order of the index. -/
def ScanRight : Prop :=
  ∃ entries : List (DbKey × Row), entries.Pairwise x.Before ∧
    (∀ pk row, (pk, row) ∈ entries ↔
      x.getProjected pk none = some row ∧ x.Matches startVal endVal row) ∧
    x.indexScan x.idx.name startVal endVal none = some (.ok (entries.map Prod.snd))

def Hit (pk : DbKey) : Prop :=
  ∃ lo hi row ks, x.indexRange x.idx.name startVal endVal = .ok (x.engine, x.idx, lo, hi) ∧
    x.table.get pk none = some row ∧ x.table.schema.keysOf x.idx.columns row = some ks ∧
      lo ≤ .composite (ks ++ [pk]) ∧ DbKey.composite (ks ++ [pk]) ≤ hi

/-- The cases in which the scan's two rules give the rows that match. -/
structure Covered : Prop where
  primaryKey : x.table.schema.primaryKey ≠ []
  calm : x.engine.inMemory = false ∨
    ∀ lo hi, x.indexRange x.idx.name startVal endVal = .ok (x.engine, x.idx, lo, hi) → lo ≤ hi
  committed : ∀ pk row, x.buffer.get pk = none → x.table.get pk none = some row →
    x.Matches startVal endVal row → x.Hit startVal endVal pk
  moved : ∀ pk row, x.buffer.get pk = some (some row) → x.Hit startVal endVal pk →
    x.Matches startVal endVal row
  buffered : ∀ pk row, x.buffer.get pk = some (some row) → ¬ x.Hit startVal endVal pk →
    x.table.schema.nonNull x.idx.columns row = true →
      (x.table.schema.leadingBetween x.idx.columns startVal endVal row = true ↔
        x.PrefixBetween startVal endVal row)

end IndexedTx

/-! ## Composite keys -/

theorem cmpList_append {as bs as' bs' : List DbKey} (h : as.length = bs.length) :
    DbKey.cmpList (as ++ as') (bs ++ bs') = (DbKey.cmpList as bs).then (DbKey.cmpList as' bs') := by
  induction as generalizing bs with
  | nil =>
    rw [eq_nil_of_length_eq_zero h.symm]
    rfl
  | cons a as ih =>
    cases bs with
    | nil => cases h
    | cons b bs =>
      rw [cons_append, cons_append, DbKey.cmpList, DbKey.cmpList, ih (Nat.succ.inj h),
        Ordering.then_assoc]

theorem composite_le_of_append {as bs as' bs' : List DbKey} (h : as.length = bs.length)
    (hle : DbKey.composite (as ++ as') ≤ .composite (bs ++ bs')) :
    DbKey.composite as ≤ .composite bs := by
  rw [DbKey.le_def, DbKey.cmp, cmpList_append h] at hle
  rw [DbKey.le_def, DbKey.cmp]
  intro hgt
  rw [hgt] at hle
  exact hle rfl

theorem composite_singleton_lt {a b : DbKey} :
    DbKey.composite [a] < .composite [b] ↔ a < b := by
  rw [DbKey.lt_def, DbKey.lt_def, DbKey.cmp, DbKey.cmpList, DbKey.cmpList]
  cases DbKey.cmp a b <;> simp

/-! ## Index keys -/

variable {pk : DbKey}

namespace Schema

variable {s : Schema} {names : List String} {row : Row}

theorem mem_btreeKeys {idx : IndexDefinition} {key : DbKey} {ks : List DbKey}
    (h : s.btreeKeys idx row pk = some ks) :
    key ∈ ks ↔ ∃ parts, s.keysOf idx.columns row = some parts ∧ key = .composite (parts ++ [pk]) := by
  obtain ⟨values, hvalues, h⟩ := bind_eq_some_iff.1 h
  have hkeys : s.keysOf idx.columns row = values.mapM dbValueToKey :=
    mapM_bind_of_mapM hvalues dbValueToKey
  cases h
  rw [hkeys, mapM_eq_filterMap, length_of_mapM hvalues]
  split
  · simp
  · simp

theorem exists_btreeKeys {idx : IndexDefinition} (pk : DbKey)
    (hidx : ∀ name ∈ idx.columns, (s.columnIndex name).isSome = true)
    (hlen : row.length = s.columns.length) : ∃ ks, s.btreeKeys idx row pk = some ks := by
  obtain ⟨values, hvalues⟩ : ∃ values, idx.columns.mapM (s.columnValue row) = some values := by
    refine exists_mapM fun name hname => ?_
    obtain ⟨i, hi⟩ := isSome_iff_exists.1 (hidx name hname)
    rw [columnValue, hi, bind_some, getElem?_eq_getElem (hlen ▸ lt_of_columnIndex hi)]
    rfl
  exact ⟨_, by rw [btreeKeys, hvalues]; rfl⟩

theorem extractIndexKey_lt {a b : Row} {ka kb : List DbKey} (ha : s.keysOf names a = some ka)
    (hb : s.keysOf names b = some kb) :
    (s.extractIndexKey names a < s.extractIndexKey names b ↔
      DbKey.composite ka < .composite kb) ∧
    (s.extractIndexKey names a = s.extractIndexKey names b ↔ ka = kb) := by
  have hparts : ∀ {row : Row} {ks : List DbKey}, s.keysOf names row = some ks →
      names.map (s.sortPart row) = ks := by
    intro row ks h
    rw [eq_map_of_mapM h (.int ⟨0, by decide⟩)]
    refine map_congr_left fun name _ => ?_
    unfold sortPart
    cases s.columnValue row name <;> rfl
  rw [← hparts ha, ← hparts hb]
  match names with
  | [] => exact ⟨Iff.rfl, iff_of_true rfl rfl⟩
  | [name] => exact ⟨composite_singleton_lt.symm, by simp [extractIndexKey]⟩
  | _ :: _ :: _ => exact ⟨Iff.rfl, by simp [extractIndexKey]⟩

end Schema

/-! ## The range of the engine -/

namespace IndexedTx

variable {x : IndexedTx} {startVal endVal lo hi : DbKey} {row : Row}

theorem mem_engine {key : DbKey} : (∃ v, (key, v) ∈ x.engine.store.entries) ↔
    ∃ pk row parts, x.table.get pk none = some row ∧
      x.table.schema.keysOf x.idx.columns row = some parts ∧ key = .composite (parts ++ [pk]) := by
  have hmem : (∃ v, (key, v) ∈ x.engine.store.entries) ↔ (x.engine.store.get key).isSome = true := by
    simp [SortedMap.mem_entries, isSome_iff_exists]
  rw [hmem, x.consistent]
  constructor
  · rintro ⟨pk, row, ks, hget, hks, hkey⟩
    obtain ⟨parts, hparts, rfl⟩ := (Schema.mem_btreeKeys hks).1 hkey
    exact ⟨pk, row, parts, hget, hparts, rfl⟩
  · rintro ⟨pk, row, parts, hget, hparts, rfl⟩
    obtain ⟨ks, hks⟩ := Schema.exists_btreeKeys pk x.indexable (OpenTable.length_get hget)
    exact ⟨pk, row, ks, hget, hks, (Schema.mem_btreeKeys hks).2 ⟨parts, hparts, rfl⟩⟩

def pks (x : IndexedTx) (lo hi : DbKey) : List DbKey :=
  (x.engine.store.entries.filter fun y => lo ≤ y.1 ∧ y.1 ≤ hi).filterMap TxTable.entryPk

theorem entryPk_composite (parts : List DbKey) (pk : DbKey) (v : Stored) :
    TxTable.entryPk (.composite (parts ++ [pk]), v) = some pk := by
  simp [TxTable.entryPk]

theorem mem_pks (hr : x.indexRange x.idx.name startVal endVal = .ok (x.engine, x.idx, lo, hi))
    (pk : DbKey) : pk ∈ x.pks lo hi ↔ x.Hit startVal endVal pk := by
  unfold pks
  rw [mem_filterMap]
  constructor
  · rintro ⟨⟨key, v⟩, hmem, hpk⟩
    obtain ⟨hmem, hrange⟩ := mem_filter.1 hmem
    obtain ⟨pk', row, parts, hget, hparts, rfl⟩ := mem_engine.1 ⟨v, hmem⟩
    rw [entryPk_composite] at hpk
    obtain rfl := some.inj hpk
    have hrange := of_decide_eq_true hrange
    exact ⟨lo, hi, row, parts, hr, hget, hparts, hrange.1, hrange.2⟩
  · rintro ⟨lo', hi', row, parts, hr', hget, hparts, hlo, hhi⟩
    rw [hr] at hr'
    cases hr'
    obtain ⟨v, hmem⟩ := mem_engine.2 ⟨pk, row, parts, hget, hparts, rfl⟩
    exact ⟨_, mem_filter.2 ⟨hmem, decide_eq_true ⟨hlo, hhi⟩⟩, entryPk_composite parts pk v⟩

theorem nodup_pks (x : IndexedTx) (lo hi : DbKey) : (x.pks lo hi).Nodup := by
  unfold pks List.Nodup
  rw [pairwise_filterMap]
  refine (x.engine.store.ascending.filter _).imp_of_mem fun {a b} ha hb hlt pk hpk pk' hpk' heq => ?_
  obtain ⟨p, row, parts, hget, hparts, hkey⟩ := mem_engine.1 ⟨a.2, mem_of_mem_filter ha⟩
  obtain ⟨p', row', parts', hget', hparts', hkey'⟩ := mem_engine.1 ⟨b.2, mem_of_mem_filter hb⟩
  have hp : some p = some pk := by rw [← hpk, ← entryPk_composite parts p a.2, ← hkey]
  have hp' : some p' = some pk' := by rw [← hpk', ← entryPk_composite parts' p' b.2, ← hkey']
  obtain rfl : p = p' := some.inj (hp.trans ((congrArg some heq).trans hp'.symm))
  obtain rfl : row = row' := some.inj (hget.symm.trans hget')
  obtain rfl : parts = parts' := some.inj (hparts.symm.trans hparts')
  exact hlt.ne (hkey.trans hkey'.symm)

/-! ## The rows that are returned -/

def scanned (x : IndexedTx) (startVal endVal lo hi : DbKey) : List (DbKey × Row) :=
  x.fetchedRows (x.pks lo hi) none ++ x.bufferedRows x.idx startVal endVal (x.pks lo hi)

/-- Which rows the two rules return. -/
def Returned (x : IndexedTx) (startVal endVal pk : DbKey) (row : Row) : Prop :=
  x.Hit startVal endVal pk ∧ x.getProjected pk none = some row ∨
    ¬ x.Hit startVal endVal pk ∧ x.buffer.get pk = some (some row) ∧
      x.table.schema.nonNull x.idx.columns row = true ∧
        x.table.schema.leadingBetween x.idx.columns startVal endVal row = true

theorem fetchedRows_eq (tx : TxTable) (pks : List DbKey) :
    tx.fetchedRows pks none = pks.filterMap fun pk => (tx.getProjected pk none).map (pk, ·) := by
  have hzip : pks.zip (tx.multiGetProjected pks none)
      = pks.map fun pk => (pk, tx.getProjected pk none) := by
    rw [TxTable.multiGetProjected_eq]
    conv_lhs => rw [← map_id' pks]
    rw [List.map_map, List.zip_map']
    rfl
  rw [TxTable.fetchedRows, hzip, filterMap_map]
  rfl

theorem mem_bufferedRows {tx : TxTable} {idx : IndexDefinition} {resolved : List DbKey} :
    (pk, row) ∈ tx.bufferedRows idx startVal endVal resolved ↔
      pk ∉ resolved ∧ tx.buffer.get pk = some (some row) ∧
        tx.table.schema.nonNull idx.columns row = true ∧
          tx.table.schema.leadingBetween idx.columns startVal endVal row = true := by
  unfold TxTable.bufferedRows
  rw [mem_filterMap]
  constructor
  · rintro ⟨⟨key, v⟩, hmem, heq⟩
    have hget := SortedMap.mem_entries.1 hmem
    obtain ⟨hnew, heq⟩ := ite_none_left_eq_some.1 heq
    obtain ⟨r, rfl, heq⟩ := bind_eq_some_iff.1 heq
    split at heq
    · next htest =>
      cases heq
      exact ⟨hnew, hget, htest.1, htest.2⟩
    · cases heq
  · rintro ⟨hnew, hget, hnull, hlead⟩
    refine ⟨(pk, some row), SortedMap.mem_entries.2 hget, ?_⟩
    rw [if_neg hnew, bind_some, if_pos ⟨hnull, hlead⟩]

theorem mem_scanned (hr : x.indexRange x.idx.name startVal endVal = .ok (x.engine, x.idx, lo, hi))
    (pk : DbKey) (row : Row) :
    (pk, row) ∈ x.scanned startVal endVal lo hi ↔ x.Returned startVal endVal pk row := by
  unfold scanned Returned
  rw [mem_append, mem_bufferedRows, mem_pks hr, fetchedRows_eq, mem_filterMap]
  refine or_congr_left ?_
  constructor
  · rintro ⟨pk', hpk', heq⟩
    obtain ⟨r, hr', heq⟩ := map_eq_some_iff.1 heq
    cases heq
    exact ⟨(mem_pks hr pk).1 hpk', hr'⟩
  · rintro ⟨hhit, hget⟩
    exact ⟨pk, (mem_pks hr pk).2 hhit, by rw [hget]; rfl⟩

theorem nodup_scanned (x : IndexedTx) (startVal endVal lo hi : DbKey) :
    ((x.scanned startVal endVal lo hi).map Prod.fst).Nodup := by
  have hfetched : (x.fetchedRows (x.pks lo hi) none).map Prod.fst
      = (x.pks lo hi).filter fun pk => (x.getProjected pk none).isSome := by
    rw [fetchedRows_eq, map_filterMap, ← filterMap_eq_filter]
    congr 1
    funext pk
    cases hrow : x.getProjected pk none <;> simp [hrow, Option.guard]
  have hbuffered : Ascending (x.bufferedRows x.idx startVal endVal (x.pks lo hi)) := by
    have hkey : ∀ {y : DbKey × Option Row} {a : DbKey × Row}, (if y.1 ∈ x.pks lo hi then none
        else y.2.bind fun row => if x.table.schema.nonNull x.idx.columns row ∧
          x.table.schema.leadingBetween x.idx.columns startVal endVal row
        then some (y.1, row) else none) = some a → a.1 = y.1 := by
      intro y a heq
      split at heq
      · cases heq
      · obtain ⟨r, -, heq⟩ := bind_eq_some_iff.1 heq
        split at heq
        · cases heq
          rfl
        · cases heq
    refine List.Pairwise.filterMap _ (fun y z hlt a ha b hb => ?_) x.buffer.ascending
    rw [hkey ha, hkey hb]
    exact hlt
  unfold scanned
  rw [map_append, hfetched]
  refine List.Nodup.append ((x.nodup_pks lo hi).filter _) hbuffered.nodup fun pk hpk hpk' => ?_
  obtain ⟨⟨pk, row⟩, hmem, rfl⟩ := mem_map.1 hpk'
  exact (mem_bufferedRows.1 hmem).1 (mem_of_mem_filter hpk)

theorem getProjected_of_returned (h : x.Returned startVal endVal pk row) :
    x.getProjected pk none = some row := by
  rcases h with ⟨-, hget⟩ | ⟨-, hbuf, -, -⟩
  · exact hget
  · rw [TxTable.getProjected_eq, hbuf]
    rfl

def rank (x : IndexedTx) (a : DbKey × Row) : DbKey ×ₗ DbKey :=
  toLex (x.table.schema.extractIndexKey x.idx.columns a.2, a.1)

/-- **The scan's rows**: those of the two rules, in order. -/
theorem indexScan_eq (hr : x.indexRange x.idx.name startVal endVal = .ok (x.engine, x.idx, lo, hi))
    (hcalm : x.engine.inMemory = false ∨ lo ≤ hi) :
    ∃ entries : List (DbKey × Row), entries.Pairwise x.Before ∧
      (∀ pk row, (pk, row) ∈ entries ↔ x.Returned startVal endVal pk row) ∧
      x.indexScan x.idx.name startVal endVal none = some (.ok (entries.map Prod.snd)) := by
  set rows := x.scanned startVal endVal lo hi with hrows
  have hmem : ∀ a, a ∈ rows → x.table.schema.extractPrimaryKey a.2 = some a.1 := fun a ha =>
    x.keys a.1 a.2 (getProjected_of_returned ((mem_scanned hr a.1 a.2).1 ha))
  let sorted := rows.insertionSort fun a b => x.rank a ≤ x.rank b
  have hperm : sorted.Perm rows := perm_insertionSort _ rows
  have hpair : sorted.Pairwise fun a b => x.rank a ≤ x.rank b := by
    exact pairwise_insertionSort _ rows
  have hsort : sorted.map Prod.snd = (rows.map Prod.snd).insertionSort fun a b =>
      x.table.schema.sortsBefore x.idx.columns a b = true := by
    refine map_insertionSort _ _ _ rows fun a ha b hb => ?_
    unfold rank Schema.sortsBefore
    rw [Prod.Lex.toLex_le_toLex, hmem a ha, hmem b hb]
    simp
  have hkeys : sorted.Pairwise fun a b => a.1 ≠ b.1 :=
    pairwise_map.1 ((hperm.map Prod.fst).nodup_iff.2 (x.nodup_scanned startVal endVal lo hi))
  refine ⟨sorted, ?_, fun pk row => by rw [hperm.mem_iff, mem_scanned hr], ?_⟩
  · refine (hpair.and hkeys).imp fun {a b} ⟨hle, hne⟩ ka kb hka hkb => ?_
    obtain ⟨hlt, heq⟩ := Schema.extractIndexKey_lt hka hkb
    rcases Prod.Lex.toLex_le_toLex.1 hle with h | ⟨h, hpk⟩
    · exact .inl (hlt.1 h)
    · exact .inr ⟨heq.1 h, lt_of_le_of_ne hpk hne⟩
  · unfold TxTable.indexScan
    rw [hr]
    dsimp only
    rw [EngineView.scan_eq hcalm, hsort]
    rfl

/-! ## When the two rules agree -/

theorem indexRange_noPrimaryKey (h : x.table.schema.primaryKey = []) :
    x.indexRange x.idx.name startVal endVal = .error .noPrimaryKey := by
  unfold TxTable.indexRange
  rw [x.opened, Schema.primaryKeyBounds, h]

theorem exists_indexRange (x : IndexedTx) (startVal endVal : DbKey)
    (h : x.table.schema.primaryKey ≠ []) : ∃ los his : List DbKey,
      x.indexRange x.idx.name startVal endVal = .ok (x.engine, x.idx,
        .composite (boundParts startVal ++ los), .composite (boundParts endVal ++ his)) := by
  obtain ⟨⟨minPk, maxPk⟩, hpk⟩ : ∃ b, x.table.schema.primaryKeyBounds = some b := by
    unfold Schema.primaryKeyBounds
    split
    · next hnil => exact absurd hnil h
    · exact ⟨_, rfl⟩
    · exact ⟨_, rfl⟩
  obtain ⟨pads, hpads⟩ : ∃ pads, x.padding x.idx (boundParts startVal).length = some pads := by
    refine exists_mapM fun name hname => ?_
    obtain ⟨i, hi⟩ := isSome_iff_exists.1 (x.indexable name (mem_of_mem_drop hname))
    rw [hi, bind_some, getElem?_eq_getElem (Schema.lt_of_columnIndex hi)]
    rfl
  refine ⟨pads.map Prod.fst ++ [minPk], pads.map Prod.snd ++ [maxPk], ?_⟩
  unfold TxTable.indexRange
  rw [x.opened, hpk, x.found]
  dsimp only
  rw [hpads]
  simp [append_assoc]

theorem nonNull_of_keysOf {s : Schema} {names : List String} {ks : List DbKey}
    (h : s.keysOf names row = some ks) : s.nonNull names row = true := by
  refine all_eq_true.2 fun name hname => ?_
  obtain ⟨k, -, hk⟩ := exists_of_mapM h hname
  obtain ⟨v, hv, hkey⟩ := bind_eq_some_iff.1 hk
  rw [hv]
  refine decide_eq_true ?_
  rintro rfl
  cases hkey

section

variable (hlen : (boundParts startVal).length = (boundParts endVal).length)
variable (hle : (boundParts startVal).length ≤ x.idx.columns.length)
include hlen hle

theorem Hit.row_matches (h : x.Hit startVal endVal pk) (hget : x.table.get pk none = some row) :
    x.Matches startVal endVal row := by
  obtain ⟨lo, hi, row', ks, hr, hget', hks, hlo, hhi⟩ := h
  obtain rfl : row = row' := some.inj (hget.symm.trans hget')
  have hpk : x.table.schema.primaryKey ≠ [] := fun hnil => by
    rw [indexRange_noPrimaryKey hnil] at hr
    cases hr
  obtain ⟨los, his, hr'⟩ := x.exists_indexRange startVal endVal hpk
  rw [hr'] at hr
  cases hr
  have hwidth : (ks.take (boundParts startVal).length).length = (boundParts startVal).length := by
    rw [length_take, length_of_mapM hks, min_eq_left hle]
  rw [← take_append_drop (boundParts startVal).length ks, append_assoc] at hlo hhi
  refine ⟨nonNull_of_keysOf hks, ks.take (boundParts startVal).length, mapM_eq_some_iff.2 ?_,
    composite_le_of_append hwidth.symm hlo, composite_le_of_append (hwidth.trans hlen) hhi⟩
  rw [map_take, mapM_eq_some_iff.1 hks, map_take]

/-- Case by case, the two rules return the rows that match. -/
theorem Covered.returned_iff (h : x.Covered startVal endVal) (pk : DbKey) (row : Row) :
    x.Returned startVal endVal pk row ↔
      x.getProjected pk none = some row ∧ x.Matches startVal endVal row := by
  unfold Returned
  rw [TxTable.getProjected_eq]
  cases hb : x.buffer.get pk with
  | none =>
    constructor
    · rintro (⟨hhit, hget⟩ | ⟨-, hbuf, -⟩)
      · exact ⟨hget, hhit.row_matches hlen hle hget⟩
      · cases hbuf
    · rintro ⟨hget, hmatch⟩
      exact .inl ⟨h.committed pk row hb hget hmatch, hget⟩
  | some v =>
    constructor
    · rintro (⟨hhit, rfl⟩ | ⟨hmiss, hbuf, hnull, hlead⟩)
      · exact ⟨rfl, h.moved pk row hb hhit⟩
      · obtain rfl := some.inj hbuf
        exact ⟨rfl, hnull, (h.buffered pk row hb hmiss hnull).1 hlead⟩
    · rintro ⟨rfl, hmatch⟩
      by_cases hhit : x.Hit startVal endVal pk
      · exact .inl ⟨hhit, rfl⟩
      · exact .inr ⟨hhit, rfl, hmatch.1, (h.buffered pk row hb hhit hmatch.1).2 hmatch.2⟩

/-- **Index scans inside a transaction** return the matching rows of the view in index order,
exactly in the covered cases. -/
theorem scanRight_iff : x.ScanRight startVal endVal ↔ x.Covered startVal endVal := by
  constructor
  · rintro ⟨entries, -, hwanted, hscan⟩
    have hpk : x.table.schema.primaryKey ≠ [] := fun hnil => by
      rw [TxTable.indexScan, indexRange_noPrimaryKey hnil] at hscan
      cases hscan
    obtain ⟨los, his, hr⟩ := x.exists_indexRange startVal endVal hpk
    have hcalm : x.engine.inMemory = false ∨ DbKey.composite (boundParts startVal ++ los)
        ≤ .composite (boundParts endVal ++ his) := by
      by_contra hinv
      push Not at hinv
      have hpanic := EngineView.scan_eq_none.2 ⟨by simpa using hinv.1, hinv.2⟩
      rw [TxTable.indexScan, hr] at hscan
      dsimp only at hscan
      rw [hpanic] at hscan
      cases hscan
    obtain ⟨entries', -, hreturned, hscan'⟩ := indexScan_eq hr hcalm
    have hrows : entries.map Prod.snd = entries'.map Prod.snd :=
      Except.ok.inj (some.inj (hscan.symm.trans hscan'))
    -- a row tells its primary key, so equal rows are equal entries
    have hiff : ∀ pk row, x.Returned startVal endVal pk row ↔
        x.getProjected pk none = some row ∧ x.Matches startVal endVal row := by
      intro pk row
      constructor
      · intro hret
        have hmem : row ∈ entries.map Prod.snd :=
          hrows ▸ mem_map_of_mem ((hreturned pk row).2 hret)
        obtain ⟨⟨pk', row⟩, hin, rfl⟩ := mem_map.1 hmem
        have hw := (hwanted pk' row).1 hin
        have hsame := (x.keys pk row (getProjected_of_returned hret)).symm.trans (x.keys pk' row hw.1)
        exact some.inj hsame ▸ hw
      · intro hw
        have hmem : row ∈ entries'.map Prod.snd :=
          hrows ▸ mem_map_of_mem ((hwanted pk row).2 hw)
        obtain ⟨⟨pk', row⟩, hin, rfl⟩ := mem_map.1 hmem
        have hret := (hreturned pk' row).1 hin
        have hsame := (x.keys pk row hw.1).symm.trans (x.keys pk' row (getProjected_of_returned hret))
        exact some.inj hsame ▸ hret
    have hview : ∀ pk row, x.buffer.get pk = some (some row) → x.getProjected pk none = some row :=
      fun pk row hb => by
        rw [TxTable.getProjected_eq, hb]
        rfl
    refine ⟨hpk, hcalm.imp_right fun hle lo hi hr' => ?_, fun pk row hb hget hmatch => ?_,
      fun pk row hb hhit => ?_, fun pk row hb hmiss hnull => ⟨fun hlead => ?_, fun hpre => ?_⟩⟩
    · rw [hr] at hr'
      cases hr'
      exact hle
    · have hshown : x.getProjected pk none = some row := by
        rw [TxTable.getProjected_eq, hb]
        exact hget
      rcases (hiff pk row).2 ⟨hshown, hmatch⟩ with ⟨hhit, -⟩ | ⟨-, hbuf, -⟩
      · exact hhit
      · rw [hb] at hbuf
        cases hbuf
    · exact ((hiff pk row).1 (.inl ⟨hhit, hview pk row hb⟩)).2
    · exact ((hiff pk row).1 (.inr ⟨hmiss, hb, hnull, hlead⟩)).2.2
    · rcases (hiff pk row).2 ⟨hview pk row hb, hnull, hpre⟩ with ⟨hhit, -⟩ | ⟨-, -, -, hlead⟩
      · exact absurd hhit hmiss
      · exact hlead
  · intro h
    obtain ⟨los, his, hr⟩ := x.exists_indexRange startVal endVal h.primaryKey
    obtain ⟨entries, hsorted, hmem, hscan⟩ := indexScan_eq hr (h.calm.imp_right fun hle => hle _ _ hr)
    exact ⟨entries, hsorted, fun pk row => (hmem pk row).trans (h.returned_iff hlen hle pk row), hscan⟩

end

def flagTable : OpenTable where
  schema := ⟨[⟨0, "k", .bool, true, false, none, none, false⟩, ⟨1, "v", .bool, false, true, none, none, false⟩], 2,
    [⟨"i", ["v"], .btree, none⟩]⟩
  engines g := if g = "" then
    some ⟨SortedMap.empty.insert (.bool true) (.row [.bool true, .bool true]), true⟩ else none
  indexEngines i := if i = "i" then
    some ⟨SortedMap.empty.insert (.composite [.bool true, .bool true]) .null, false⟩ else none
  nodupIds := by decide
  rowsOnly g v hv y hy := by
    split at hv
    · cases hv
      obtain rfl : y = (.bool true, .row [.bool true, .bool true]) := mem_singleton.mp hy
      rfl
    · cases hv

theorem get_flagTable (pk : DbKey) : flagTable.get pk none
    = if pk = .bool true then some [.bool true, .bool true] else none := by
  split
  · next h =>
    subst h
    decide +kernel
  · next h =>
    refine not_isSome_iff_eq_none.1 fun hsome => ?_
    obtain ⟨g, -, hpart⟩ := (OpenTable.get_isSome pk).1 hsome
    unfold OpenTable.part flagTable at hpart
    dsimp only at hpart
    split at hpart
    · rw [bind_some, SortedMap.get_insert_of_ne _ _ h] at hpart
      cases hpart
    · cases hpart

def flagView (cleared : Bool) : TxTable where
  table := flagTable
  buffer := if cleared then SortedMap.empty.insert (.bool true) (some [.bool true, .bool false])
    else .empty

theorem buffer_flagView (cleared : Bool) (pk : DbKey) : (flagView cleared).buffer.get pk
    = if cleared ∧ pk = .bool true then some (some [.bool true, .bool false]) else none := by
  cases cleared with
  | false => rfl
  | true =>
    by_cases hpk : pk = .bool true
    · subst hpk
      decide +kernel
    · rw [if_neg fun h => hpk h.2]
      exact SortedMap.get_insert_of_ne _ _ hpk

theorem getProjected_flagView {cleared : Bool}
    (h : (flagView cleared).getProjected pk none = some row) :
    pk = .bool true ∧ row = [.bool true, .bool !cleared] := by
  rw [TxTable.getProjected_eq, buffer_flagView] at h
  have hget : (flagView cleared).table.get pk none = _ := get_flagTable pk
  rw [hget] at h
  by_cases hpk : pk = .bool true
  · cases cleared <;> simp_all
  · simp [hpk] at h

def flagTx (cleared : Bool) : IndexedTx where
  toTxTable := flagView cleared
  idx := ⟨"i", ["v"], .btree, none⟩
  engine := ⟨SortedMap.empty.insert (.composite [.bool true, .bool true]) .null, false⟩
  found := rfl
  opened := rfl
  btree := rfl
  indexable := by
    show ∀ name ∈ ["v"], (flagTable.schema.columnIndex name).isSome = true
    decide
  nonempty := by decide
  width pk row h := by
    rw [buffer_flagView] at h
    split at h
    · cases h
      rfl
    · cases h
  keys pk row h := by
    obtain ⟨rfl, rfl⟩ := getProjected_flagView h
    cases cleared <;> decide +kernel
  consistent key := by
    have hkeys : flagTable.schema.btreeKeys ⟨"i", ["v"], .btree, none⟩ [.bool true, .bool true]
        (.bool true) = some [.composite [.bool true, .bool true]] := by decide +kernel
    constructor
    · intro h
      have hkey : key = .composite [.bool true, .bool true] := by
        by_contra hne
        rw [SortedMap.get_insert_of_ne _ _ hne] at h
        cases h
      exact ⟨.bool true, _, _, (get_flagTable _).trans (if_pos rfl), hkeys, by simp [hkey]⟩
    · rintro ⟨pk, row, ks, hget, hks, hmem⟩
      rw [show (flagView cleared).table.get pk none = _ from get_flagTable pk] at hget
      obtain ⟨hpk, hget⟩ := ite_none_right_eq_some.1 hget
      subst hpk
      cases hget
      obtain rfl := some.inj (hks.symm.trans hkeys)
      rw [mem_singleton.mp hmem, SortedMap.get_insert_self]
      rfl

/-- Without changes the scan returns the row. -/
theorem indexScan_flagTx : (flagTx false).ScanRight (.bool true) (.bool true) ∧
    (flagTx false).indexScan "i" (.bool true) (.bool true) none
      = some (.ok [[.bool true, .bool true]]) := by
  have hnone : ∀ pk (v : Option Row), (flagTx false).buffer.get pk ≠ some v := fun pk v h => by
    cases h
  have hhit : (flagTx false).Hit (.bool true) (.bool true) (.bool true) :=
    ⟨.composite [.bool true, .bool false], .composite [.bool true, .bool true],
      [.bool true, .bool true], [.bool true], rfl, by decide +kernel, by decide +kernel,
      by decide +kernel, by decide +kernel⟩
  refine ⟨(scanRight_iff rfl (by decide)).2 ⟨by decide, .inl rfl, fun pk row _ hget _ => ?_,
    fun pk row hb => absurd hb (hnone pk _), fun pk row hb => absurd hb (hnone pk _)⟩,
    by decide +kernel⟩
  have hget : flagTable.get pk none = some row := hget
  rw [get_flagTable] at hget
  split at hget
  · next hpk => exact hpk ▸ hhit
  · cases hget

/-- A buffered update moves the row out of the range, and the scan still returns it. -/
theorem indexScan_clearedTx :
    (flagTx true).getProjected (.bool true) none = some [.bool true, .bool false] ∧
      (flagTx true).indexScan "i" (.bool true) (.bool true) none
        = some (.ok [[.bool true, .bool false]]) ∧
      ¬ (flagTx true).ScanRight (.bool true) (.bool true) := by
  have hscan : (flagTx true).indexScan "i" (.bool true) (.bool true) none
      = some (.ok [[.bool true, .bool false]]) := by decide +kernel
  refine ⟨by decide +kernel, hscan, ?_⟩
  rintro ⟨entries, -, hmem, heq⟩
  have hrows : [[DbValue.bool true, .bool false]] = entries.map Prod.snd :=
    Except.ok.inj (some.inj (hscan.symm.trans heq))
  have hrow : [DbValue.bool true, .bool false] ∈ entries.map Prod.snd := by
    rw [← hrows]
    exact mem_singleton.2 rfl
  obtain ⟨⟨pk, row⟩, hin, rfl⟩ := mem_map.1 hrow
  obtain ⟨-, -, ks, hks, hlo, -⟩ := (hmem pk _).1 hin
  have hkeys : ks = [.bool false] := by
    have : (flagTx true).table.schema.keysOf ["v"] [.bool true, .bool false]
        = some [.bool false] := by decide +kernel
    exact some.inj (hks.symm.trans this)
  subst hkeys
  exact absurd hlo (by decide +kernel)

end IndexedTx

end Dtdb.Relational
