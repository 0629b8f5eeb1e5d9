import Dtdb.Relational.Fit
import Dtdb.Relational.LazyAlter
import Dtdb.Relational.TableScan

/-! # Commits and changes of the catalog

A database whose tables are created, changed and dropped between commits.  No change of the catalog
checkpoints the log, so `open` replays its records on the tables as they are then. -/

namespace Dtdb.Relational

open Dtdb.Lib Dtdb.Storage Function

/-! ## Stored rows -/

/-- In a memtable, or in an SSTable with its layout. -/
inductive Place where
  | memtable
  | sstable (layout : Option StoredLayout)
deriving DecidableEq

/-- What an engine with this target layout returns. -/
def Place.read (target : StoredLayout) : Place → Stored → Stored
  | .sstable layout, .row r => .row (rewrite layout (some target) r)
  | _, v => v

abbrev TableData := EngineName → SortedMap DbKey (Place × Stored)

namespace TableData

def empty : TableData := fun _ => .empty

def engines (d : TableData) (s : Schema) : Engines
  | .group g => (d (.group g)).mapValues fun _ x => x.1.read s.currentLayout x.2
  | .index i => (d (.index i)).mapValues fun _ x => x.2

def write (d : TableData) (bs : List (EngineName × Batch)) : TableData :=
  fun n => (d n).applyAll ((batchFor bs n).map fun m => (m.1, m.2.map (.memtable, ·)))

/-- Some of a group's rows go to SSTables, in the target layout. -/
def flush (d : TableData) (s : Schema) (group : String) (keys : List DbKey) : TableData :=
  update d (.group group) ((d (.group group)).mapValues fun k x =>
    if k ∈ keys then (.sstable (some s.currentLayout), x.1.read s.currentLayout x.2) else x)

/-- What was in a memtable, in an SSTable with this layout. -/
def Place.unload (layout : Option StoredLayout) (x : Place × Stored) : Place × Stored :=
  match x.1 with
  | .memtable => (.sstable layout, x.2)
  | .sstable _ => x

def unload (d : TableData) (layout : Option StoredLayout) : TableData
  | .group g => (d (.group g)).mapValues fun _ => Place.unload layout
  | .index i => d (.index i)

/-- `recover` writes the log's rows to an SSTable with the empty layout. -/
def reopened (d : TableData) : TableData := d.unload none

end TableData

/-! ## Tables -/

theorem Schema.nodup_localityGroups (s : Schema) : s.localityGroups.Nodup := by
  unfold localityGroups
  split
  · exact List.nodup_singleton _
  · exact List.nodup_dedup _

namespace Table

def create (columns : List Column) : Table where
  schema := .new columns
  groups := (Schema.new columns).localityGroups
  covers _ h := h
  nodupGroups := Schema.nodup_localityGroups _
  nodupIndexes := .nil
  indexable := nofun

/-- The table as `open` finds it. -/
def reopened (t : Table) : Table where
  schema := t.schema
  groups := t.schema.localityGroups
  covers _ h := h
  nodupGroups := t.schema.nodup_localityGroups
  nodupIndexes := t.nodupIndexes
  indexable := t.indexable

def withSchema (t : Table) (s : Schema) : Option Table :=
  if h : (∀ g ∈ s.localityGroups, g ∈ t.groups) ∧ (s.indexes.map (·.name)).Nodup ∧
      ∀ idx ∈ s.indexes, s.Indexable idx then
    some ⟨s, t.groups, h.1, t.nodupGroups, h.2.1, h.2.2⟩
  else none

theorem withSchema_eq {t t' : Table} {s : Schema} (h : t.withSchema s = some t') :
    t'.schema = s ∧ t'.groups = t.groups := by
  unfold withSchema at h
  split at h
  · cases h
    exact ⟨rfl, rfl⟩
  · cases h

end Table

/-- The entries that `create_index` makes for a row. -/
def Schema.backfillEntries (s : Schema) (tok : Tokenizers) (idx : IndexDefinition) (row : Row)
    (pk : DbKey) : Option (List (DbKey × Stored)) :=
  match idx.indexType with
  | .fullText => (s.rowTokens tok idx row).map fun ts =>
      ts.dedup.map fun token => (tokenKey pk token, .positions (tokenPositions ts token))
  | .btree => (idx.columns.mapM (s.columnValue row)).bind fun values =>
      if values.all fun v => v = .null ∨ (dbValueToKey v).isSome then
        let parts := values.filterMap dbValueToKey
        some (if parts.length = idx.columns.length then [(.composite (parts ++ [pk]), .null)] else [])
      else none

/-- What `create_index` checks of the definition. -/
def Schema.acceptsIndex (s : Schema) (tok : Tokenizers) (idx : IndexDefinition) : Bool :=
  !(s.indexes.any fun i => i.name = idx.name) &&
    (idx.columns.all fun name => (s.columnIndex name).isSome) &&
    match idx.indexType with
    | .btree => true
    | .fullText => match idx.columns with
      | [name] => ((s.columnIndex name).bind fun i => s.columns[i]?).any (·.dataType = .string) &&
          (tok (idx.tokenizer.getD "simple")).isSome
      | _ => false

/-! ## The database -/

/-- The catalog, what the engines store, and the records since the last checkpoint. -/
structure DdlDb where
  tables : SortedMap String Table
  data : String → TableData
  log : List Prepared

inductive DdlEvent where
  | commit (txId : Nat) (mutations : List (String × List (DbKey × Option Row)))
  | checkpoint
  | flush (table group : String) (keys : List DbKey)
  | createTable (name : String) (columns : List Column)
  | dropTable (name : String)
  | addColumn (table : String) (column : Column)
  | renameColumn (table old new : String)
  | dropColumn (table column : String)
  | createIndex (table : String) (idx : IndexDefinition)
  | dropIndex (table index : String)
deriving DecidableEq

namespace DdlDb

def empty : DdlDb := ⟨.empty, fun _ => .empty, []⟩

def engines (s : DdlDb) (name : String) : Engines :=
  match s.tables.get name with
  | some t => (s.data name).engines t.schema
  | none => fun _ => .empty

/-! ### Commits -/

def tableOldRows (s : DdlDb) (x : String × List (DbKey × Option Row)) : Option (List (DbKey × Row)) :=
  (s.tables.get x.1).bind fun t =>
    match x.2.filterMap fun w => (t.get (s.engines x.1) w.1).map (w.1, ·) with
    | [] => none
    | rows => some rows

def prepared (s : DdlDb) (txId : Nat) (mutations : List (String × List (DbKey × Option Row))) :
    Prepared where
  txId := txId
  mutations := mutations
  oldRows := some (mutations.filterMap fun x => (s.tableOldRows x).map (x.1, ·))

/-- Distinct tables, distinct keys in each, and rows that fit. -/
def validMutations (s : DdlDb) (mutations : List (String × List (DbKey × Option Row))) : Bool :=
  decide (mutations.map Prod.fst).Nodup && mutations.all fun x =>
    decide (x.2.map Prod.fst).Nodup && (s.tables.get x.1).any fun t => x.2.all t.schema.accepts

def commitBatches (tok : Tokenizers) (s : DdlDb) (r : Prepared) :
    Option (List (String × List (EngineName × Batch))) :=
  r.mutations.mapM fun x => (s.tables.get x.1).bind fun t =>
    (t.batches tok x.2 (r.forTable x.1).oldRow).map (x.1, ·)

/-- The record is appended, then the tables' engines are written. -/
def commit (tok : Tokenizers) (s : DdlDb) (txId : Nat)
    (mutations : List (String × List (DbKey × Option Row))) : Option DdlDb :=
  if s.validMutations mutations then
    (s.commitBatches tok (s.prepared txId mutations)).map fun bs =>
      { s with
        data := fun name => match bs.lookup name with
          | some b => (s.data name).write b
          | none => s.data name
        log := s.log ++ [s.prepared txId mutations] }
  else none

/-! ### Changes of the catalog -/

def setTable (s : DdlDb) (name : String) (t : Table) (d : TableData) : DdlDb :=
  { s with tables := s.tables.insert name t, data := update s.data name d }

def createTable (s : DdlDb) (name : String) (columns : List Column) : Option DdlDb :=
  match s.tables.get name with
  | some _ => none
  | none => some (s.setTable name (.create columns) .empty)

def dropTable (s : DdlDb) (name : String) : Option DdlDb :=
  (s.tables.get name).map fun _ =>
    { s with tables := s.tables.erase name, data := update s.data name .empty }

def isEmptyTable (s : DdlDb) (name : String) (t : Table) : Bool :=
  match t.schema.primaryKeyBounds with
  | some (lo, hi) => (t.filteredScan (s.engines name) lo hi).isEmpty
  | none => true

def alter (s : DdlDb) (name : String) (t : Table) (op : Alter) (d : TableData) : Option DdlDb :=
  match t.schema.alter op with
  | .ok schema => (t.withSchema schema).map fun t' => s.setTable name t' d
  | .error _ => none

def backfill (tok : Tokenizers) (s : DdlDb) (name : String) (t : Table) (idx : IndexDefinition) :
    Option (List (DbKey × Stored)) :=
  t.schema.primaryKeyBounds.bind fun bounds =>
    ((t.filteredScan (s.engines name) bounds.1 bounds.2).mapM fun x =>
      t.schema.backfillEntries tok idx x.2 x.1).map List.flatten

def indexStore (es : List (DbKey × Stored)) : SortedMap DbKey (Place × Stored) :=
  (SortedMap.empty.applyAll (es.map fun x => (x.1, some x.2))).mapValues fun _ v => (.sstable none, v)

def createIndex (tok : Tokenizers) (s : DdlDb) (name : String) (t : Table) (idx : IndexDefinition) :
    Option DdlDb :=
  if t.schema.acceptsIndex tok idx then
    (s.backfill tok name t idx).bind fun es =>
      (t.withSchema { t.schema with indexes := t.schema.indexes ++ [idx] }).map fun t' =>
        s.setTable name t' (update (s.data name) (.index idx.name) (indexStore es))
  else none

def dropIndex (s : DdlDb) (name : String) (t : Table) (index : String) : Option DdlDb :=
  if t.schema.indexes.any fun idx => idx.name = index then
    (t.withSchema { t.schema with indexes := t.schema.indexes.eraseP fun idx => idx.name = index }).map
      fun t' => s.setTable name t' (update (s.data name) (.index index) .empty)
  else none

def step (tok : Tokenizers) (s : DdlDb) : DdlEvent → Option DdlDb
  | .commit txId mutations => s.commit tok txId mutations
  | .checkpoint => some { s with log := [] }
  | .flush name group keys => (s.tables.get name).map fun t =>
      { s with data := update s.data name ((s.data name).flush t.schema group keys) }
  | .createTable name columns => s.createTable name columns
  | .dropTable name => s.dropTable name
  | .addColumn name column => (s.tables.get name).bind fun t =>
      s.alter name t (.addColumn (s.isEmptyTable name t) column) (s.data name)
  | .renameColumn name old new => (s.tables.get name).bind fun t =>
      s.alter name t (.renameColumn old new) (s.data name)
  | .dropColumn name column => (s.tables.get name).bind fun t =>
      s.alter name t (.dropColumn column) ((s.data name).unload (some t.schema.currentLayout))
  | .createIndex name idx => (s.tables.get name).bind fun t => s.createIndex tok name t idx
  | .dropIndex name index => (s.tables.get name).bind fun t => s.dropIndex name t index

/-! ### Closing and opening -/

/-- What the engines answer after a reopen; `none` when the replay panics. -/
def reopen (tok : Tokenizers) (s : DdlDb) : Option (String → Engines) :=
  recoverTransactions tok (s.tables.mapValues fun _ t => t.reopened)
    (fun name => match s.tables.get name with
      | some t => (s.data name).reopened.engines t.schema
      | none => fun _ => .empty)
    s.log

/-! ### Changes that the log survives -/

def loggedRows (s : DdlDb) (name : String) : List Row := s.log.flatMap fun r => (r.forTable name).rows

/-- A new table's name is not in the log; columns come and go in tables with one group only; no row
in the log reaches a dropped column, every one reaches the columns of a new index, and the scan that
fills it misses no key. -/
def StepSafe (s : DdlDb) : DdlEvent → Prop
  | .createTable name columns =>
    (columns.map Column.name).Nodup ∧ ∀ r ∈ s.log, name ∉ r.mutations.map Prod.fst
  | .addColumn name _ => ∀ t ∈ s.tables.get name, t.groups.length = 1
  | .dropColumn name column => ∀ t ∈ s.tables.get name, t.groups.length = 1 ∧
      ∀ i ∈ t.schema.columnIndex column, ∀ row ∈ s.loggedRows name, row.length ≤ i
  | .createIndex name idx => ∀ t ∈ s.tables.get name,
      (∀ column ∈ idx.columns, ∀ i ∈ t.schema.columnIndex column,
        ∀ row ∈ s.loggedRows name, i < row.length) ∧
      ∀ bounds ∈ t.schema.primaryKeyBounds, ∀ g ∈ t.groups, ∀ x ∈ (s.data name (.group g)).entries,
        bounds.1 ≤ x.1 ∧ x.1 ≤ bounds.2
  | _ => True

instance decidableStepSafe (s : DdlDb) : (ev : DdlEvent) → Decidable (s.StepSafe ev)
  | .createTable .. => inferInstanceAs (Decidable (_ ∧ _))
  | .addColumn name _ | .dropColumn name _ | .createIndex name _ =>
    inferInstanceAs (Decidable (∀ t ∈ s.tables.get name, _))
  | .commit .. | .checkpoint | .flush .. | .dropTable .. | .renameColumn .. | .dropIndex .. =>
    inferInstanceAs (Decidable True)

end DdlDb

end Dtdb.Relational
