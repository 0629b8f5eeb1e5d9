import Mathlib.Data.List.Sort
import Dtdb.Relational.Schema
import Dtdb.Storage.MemTable

/-! # Tables

A table keeps one engine per locality group and one per secondary index; an engine is a map here. -/

namespace Dtdb.Relational

open Dtdb.Lib Dtdb.Storage

inductive EngineName where
  | group (name : String)
  | index (name : String)
deriving DecidableEq

/-- What an engine stores: the bytes of a row, or the value of an index entry. -/
inductive Stored where
  | row (r : Row)
  | null
  | positions (ps : List Nat)
deriving DecidableEq

abbrev Store := SortedMap DbKey Stored

abbrev Engines := EngineName → Store

abbrev Batch := List (Mutation DbKey Stored)

/-- `get_tokenizer`. -/
abbrev Tokenizers := String → Option (String → List String)

def Schema.Indexable (s : Schema) (idx : IndexDefinition) : Prop :=
  (∀ name ∈ idx.columns, (s.columnIndex name).isSome = true) ∧
    (idx.indexType = .fullText → idx.columns ≠ [])

instance (s : Schema) (idx : IndexDefinition) : Decidable (s.Indexable idx) :=
  inferInstanceAs (Decidable (_ ∧ _))

/-- `groups` are the locality groups that have an engine; every index has one. -/
structure Table where
  schema : Schema
  groups : List String
  covers : ∀ g ∈ schema.localityGroups, g ∈ groups
  nodupGroups : groups.Nodup
  nodupIndexes : (schema.indexes.map (·.name)).Nodup
  indexable : ∀ idx ∈ schema.indexes, schema.Indexable idx
deriving DecidableEq

/-! ## Index keys -/

namespace Schema

def columnValue (s : Schema) (row : Row) (name : String) : Option DbValue :=
  (s.columnIndex name).bind fun i => row[i]?

/-- A row with a value that is no key has none. -/
def btreeKeys (s : Schema) (idx : IndexDefinition) (row : Row) (pk : DbKey) : Option (List DbKey) := do
  let values ← idx.columns.mapM (s.columnValue row)
  let parts := values.filterMap dbValueToKey
  return if parts.length = idx.columns.length then [.composite (parts ++ [pk])] else []

def rowTokens (s : Schema) (tok : Tokenizers) (idx : IndexDefinition) (row : Row) :
    Option (List String) := do
  let name ← idx.columns.head?
  let value ← s.columnValue row name
  return match value with
    | .string text => match tok (idx.tokenizer.getD "simple") with
      | some tokenize => tokenize text
      | none => []
    | _ => []

def tokenKey (pk : DbKey) (token : String) : DbKey := .composite [.string token, pk]

def tokenPositions (tokens : List String) (token : String) : List Nat :=
  tokens.zipIdx.filterMap fun x => if x.1 = token then some (x.2 % 2 ^ 32) else none

/-- `get_index_keys`; `none` when it panics. -/
def getIndexKeys (s : Schema) (tok : Tokenizers) (idx : IndexDefinition) (row : Row) (pk : DbKey) :
    Option (List DbKey) :=
  match idx.indexType with
  | .fullText => (s.rowTokens tok idx row).map fun ts =>
      (ts.insertionSort (· ≤ ·)).dedup.map (tokenKey pk)
  | .btree => s.btreeKeys idx row pk

def indexEntries (s : Schema) (tok : Tokenizers) (idx : IndexDefinition) (row : Row) (pk : DbKey) :
    Option (List (DbKey × Stored)) :=
  match idx.indexType with
  | .fullText => (s.rowTokens tok idx row).map fun ts =>
      ts.dedup.map fun token => (tokenKey pk token, .positions (tokenPositions ts token))
  | .btree => (s.btreeKeys idx row pk).map (·.map fun k => (k, .null))

end Schema

namespace Table

variable (tok : Tokenizers) (t : Table)

/-! ## Reading and writing -/

/-- All of the row if there is no other engine. -/
def subRow (row : Row) (group : String) : Option Row :=
  if t.groups.length = 1 then some row else t.schema.splitRow row group

def groupRow (e : Engines) (pk : DbKey) (group : String) : Option Row :=
  match (e (.group group)).get pk with
  | some (.row r) => some r
  | _ => none

def mergeParts (parts : String → Option Row) : Option Row :=
  if t.schema.localityGroups.any fun g => (parts g).isSome then some (t.schema.mergeRows parts)
  else none

/-- `get`, of all columns. -/
def get (e : Engines) (pk : DbKey) : Option Row := t.mergeParts (groupRow e pk)

def groupBatch (group : String) (w : DbKey × Option Row) : Option Batch :=
  match w.2 with
  | some row => (t.subRow row group).map fun sub => [(w.1, some (.row sub))]
  | none => some [(w.1, none)]

def staleKeys (idx : IndexDefinition) (pk : DbKey) : Option Row → Option (List DbKey)
  | some row => t.schema.getIndexKeys tok idx row pk
  | none => some []

def freshEntries (idx : IndexDefinition) (pk : DbKey) : Option Row → Option (List (DbKey × Stored))
  | some row => t.schema.indexEntries tok idx row pk
  | none => some []

/-- The old row's keys go, then the new row's come. -/
def indexBatch (idx : IndexDefinition) (old : DbKey → Option Row) (w : DbKey × Option Row) :
    Option Batch := do
  let stale ← t.staleKeys tok idx w.1 (old w.1)
  let fresh ← t.freshEntries tok idx w.1 w.2
  return stale.map (·, none) ++ fresh.map fun x => (x.1, some x.2)

def engineNames : List EngineName :=
  t.groups.map .group ++ t.schema.indexes.map fun idx => .index idx.name

def batch (ws : List (DbKey × Option Row)) (old : DbKey → Option Row) : EngineName → Option Batch
  | .group g => (ws.mapM (t.groupBatch g)).map List.flatten
  | .index i => match t.schema.indexes.find? fun idx => idx.name = i with
    | some idx => (ws.mapM (t.indexBatch tok idx old)).map List.flatten
    | none => some []

def batches (ws : List (DbKey × Option Row)) (old : DbKey → Option Row) :
    Option (List (EngineName × Batch)) :=
  t.engineNames.mapM fun n => (t.batch tok ws old n).map (n, ·)

end Table

def batchFor {E : Type} [DecidableEq E] (bs : List (E × Batch)) (n : E) : Batch :=
  (bs.filter fun x => x.1 = n).flatMap Prod.snd

def batchesFor {E : Type} [DecidableEq E] (bs : List (E × Batch)) (n : E) : List Batch :=
  (bs.filter fun x => x.1 = n).map Prod.snd

def Engines.write (e : Engines) (bs : List (EngineName × Batch)) : Engines :=
  fun n => (e n).applyAll (batchFor bs n)

/-- `write_batch`; without preset old rows they are read first. -/
def Table.writeBatch (tok : Tokenizers) (t : Table) (e : Engines) (ws : List (DbKey × Option Row))
    (preset : Option (DbKey → Option Row)) : Option Engines :=
  (t.batches tok ws (preset.getD (t.get e))).map e.write

end Dtdb.Relational
