import Dtdb.Relational.Represents
import Dtdb.Relational.Versions

/-! # Commits

A commit first reads the rows it is about to replace, one engine at a time; it then validates, and
writes the engines one after another under the history's write lock. -/

namespace Dtdb.Relational

open Dtdb.Lib Dtdb.Storage

/-- What `multi_get` got from one engine for one key. -/
structure Fetched where
  table : String
  group : String
  key : DbKey
  row : Option Row

abbrev WriteBuffer := SortedMap String (SortedMap DbKey (Option Row))

/-- The write buffer and, during a commit, what was fetched. -/
structure Session where
  buffer : WriteBuffer
  fetched : List Fetched

/-- A commit under the history's write lock, with the engine writes it has yet to make. -/
structure Applying where
  id : Nat
  writes : Finset (String × DbKey)
  pending : List ((String × EngineName) × Batch)

structure Db where
  occ : Occ String DbKey
  tables : SortedMap String Table
  engines : String → Engines
  sessions : SortedMap Nat Session
  applying : Option Applying

inductive DbAction where
  | read (a : Access String DbKey)
  | put (table : String) (key : DbKey) (row : Row)
  | delete (table : String) (key : DbKey)
  | rollback
  | fetch (table group : String) (key : DbKey)
  | validate
  | readMin
  | startApply
  | unregister
  | loadLimit
  | prune

inductive DbStep where
  | begin (id : Nat) (level : IsolationLevel)
  | act (id : Nat) (a : DbAction)
  | writeEngine (table : String) (engine : EngineName)
  | finish

def Access.isRead {N K : Type} : Access N K → Bool
  | .write .. | .rollback => false
  | _ => true

namespace Phase

variable {N K : Type}

def isValidated : Phase N K → Bool
  | .validated .. => true
  | _ => false

/-- The limit below which the history is pruned next. -/
def pruneLimit (version : Nat) : Phase N K → Option Nat
  | .limited _ _ min => some (min.getD (version + 1))
  | .pruning _ limit => some limit
  | _ => none

end Phase

def Tx.validatedUpTo {N K : Type} (tx : Tx N K) : Nat :=
  (tx.phase.snapshot.map Prod.snd).getD tx.start

namespace Session

def new : Session := ⟨.empty, []⟩

/-- The commit has failed; the write buffer stays. -/
def reset (u : Session) : Session := { u with fetched := [] }

def bufferWrite (u : Session) (table : String) (key : DbKey) (w : Option Row) : Session :=
  { u with buffer := u.buffer.insert table (((u.buffer.get table).getD .empty).insert key w) }

def part (u : Session) (table : String) (key : DbKey) (group : String) : Option Fetched :=
  u.fetched.find? fun f => f.table = table ∧ f.group = group ∧ f.key = key

def oldRow (u : Session) (table : String) (t : Table) (key : DbKey) : Option Row :=
  t.mergeParts fun g => (u.part table key g).bind (·.row)

def Complete (u : Session) (tables : SortedMap String Table) : Prop :=
  ∀ x ∈ u.buffer.entries, ∀ t ∈ tables.get x.1, ∀ w ∈ x.2.entries, ∀ g ∈ t.schema.localityGroups,
    (u.part x.1 w.1 g).isSome = true

instance (u : Session) (tables : SortedMap String Table) : Decidable (u.Complete tables) :=
  inferInstanceAs (Decidable (∀ x ∈ u.buffer.entries, ∀ t ∈ tables.get x.1, ∀ w ∈ x.2.entries,
    ∀ g ∈ t.schema.localityGroups, _))

end Session

/-- The name under which a table's index keys are validated. -/
def syntheticName (table index : String) : String := table ++ ".index." ++ index

namespace Db

variable (tok : Tokenizers)

def start (tables : SortedMap String Table) (engines : String → Engines) : Db :=
  ⟨.fresh, tables, engines, .empty, none⟩

def setSession (s : Db) (id : Nat) (u : Session) : Db :=
  { s with sessions := s.sessions.insert id u }

def writeIndexKeys (u : Session) (table : String) (t : Table) (w : DbKey × Option Row) :
    Option (List (String × DbKey)) := do
  let keys ← t.schema.indexes.mapM fun idx => do
    let new ← t.staleKeys tok idx w.1 w.2
    let old ← t.staleKeys tok idx w.1 (u.oldRow table t w.1)
    return (new ++ old).map (Prod.mk (syntheticName table idx.name))
  return keys.flatten

/-- The index keys a commit touches; `none` when computing them panics. -/
def indexKeys (s : Db) (u : Session) : Option (List (String × DbKey)) := do
  let keys ← u.buffer.entries.mapM fun x => do
    let t ← s.tables.get x.1
    let keys ← x.2.entries.mapM (writeIndexKeys tok u x.1 t)
    return keys.flatten
  return keys.flatten

def tableWrites (s : Db) (u : Session) (x : String × SortedMap DbKey (Option Row)) :
    Option (List ((String × EngineName) × Batch)) :=
  (s.tables.get x.1).bind fun t =>
    (t.batches tok x.2.entries (u.oldRow x.1 t)).map fun bs => bs.map fun y => ((x.1, y.1), y.2)

def engineWrites (s : Db) (u : Session) : Option (List ((String × EngineName) × Batch)) :=
  (u.buffer.entries.mapM (s.tableWrites tok u)).map List.flatten

def control (s : Db) (id : Nat) (a : Action String DbKey) : Option Db :=
  (s.occ.step (.act id a)).map fun occ => { s with occ }

/-- A put or a delete; a rejected one changes nothing. -/
def bufferWrite (s : Db) (id : Nat) (u : Session) (table : String) (key : DbKey) (w : Option Row) :
    Option Db :=
  if u.fetched.isEmpty then
    match s.tables.get table with
    | none => some s
    | some t => match (w.map t.schema.validateRow).getD (.ok ()), t.schema.validateKey key w with
      | .ok _, .ok _ => (s.control id (.access (.write table key))).map fun s =>
        s.setSession id (u.bufferWrite table key w)
      | _, _ => some s
  else none

/-- One read of `multi_get`, from the engine as it is now. -/
def fetch (s : Db) (id : Nat) (u : Session) (tx : Tx String DbKey) (table group : String)
    (key : DbKey) : Option Db :=
  match tx.phase, (u.buffer.get table).bind (·.get key), s.tables.get table with
  | .running, some _, some t =>
    if group ∈ t.schema.localityGroups ∧ u.part table key group = none then
      some (s.setSession id { u with
        fetched := ⟨table, group, key, Table.groupRow (s.engines table) key group⟩ :: u.fetched })
    else none
  | _, _, _ => none

/-- The first phase of `validate_and_commit`. -/
def validate (s : Db) (id : Nat) (u : Session) : Option Db :=
  if s.applying.isNone ∧ u.Complete s.tables then
    (s.indexKeys tok u).bind fun keys => (s.control id (.validate keys.toFinset)).map fun s =>
      s.setSession id (if (s.occ.txs.get id).any (·.phase.isValidated) then u else u.reset)
  else none

/-- The second phase up to the engine writes. -/
def startApply (s : Db) (id : Nat) (u : Session) (tx : Tx String DbKey) : Option Db :=
  if s.applying.isNone then
    match tx.phase with
    | .limited writes max _ =>
      if s.occ.Clear max (tx.footprint writes) then
        (s.engineWrites tok u).map fun pending => { s with applying := some ⟨id, writes, pending⟩ }
      else (s.control id .apply).map fun s => s.setSession id u.reset
    | _ => none
  else none

def writeEngine (s : Db) (table : String) (n : EngineName) : Option Db :=
  s.applying.bind fun a => (a.pending.find? fun x => x.1 = (table, n)).map fun x =>
    { s with
      engines := fun name m => if (name, m) = (table, n) then (s.engines name m).applyAll x.2
        else s.engines name m
      applying := some { a with pending := a.pending.eraseP fun x => x.1 = (table, n) } }

/-- The second phase after the engine writes. -/
def finish (s : Db) : Option Db :=
  s.applying.bind fun a =>
    if a.pending.isEmpty then
      (s.control a.id .apply).map fun s => { s.setSession a.id .new with applying := none }
    else none

def act (s : Db) (id : Nat) (u : Session) (tx : Tx String DbKey) : DbAction → Option Db
  | .read a => if a.isRead then s.control id (.access a) else none
  | .put table key row => s.bufferWrite id u table key (some row)
  | .delete table key => s.bufferWrite id u table key none
  | .rollback =>
    if u.fetched.isEmpty then (s.control id (.access .rollback)).map fun s => s.setSession id .new
    else none
  | .fetch table group key => s.fetch id u tx table group key
  | .validate => s.validate tok id u
  | .readMin => s.control id .readMin
  | .startApply => s.startApply tok id u tx
  | .unregister => if u.fetched.isEmpty then s.control id .unregister else none
  | .loadLimit => s.control id .loadLimit
  | .prune => if s.applying.isNone then s.control id .prune else none

/-- A transaction that registers waits for the history's lock. -/
def step (s : Db) : DbStep → Option Db
  | .begin id level =>
    if level.registers ∧ s.applying.isSome then none
    else (s.occ.step (.begin id level)).map fun occ => { s with occ }.setSession id .new
  | .act id a => (s.sessions.get id).bind fun u => (s.occ.txs.get id).bind fun tx => s.act tok id u tx a
  | .writeEngine table n => s.writeEngine table n
  | .finish => s.finish

/-- No pruned record is one that a commit in progress has yet to validate against and that wrote a
row it has fetched. -/
def PruneSafe (s : Db) (limit : Nat) : Prop :=
  ∀ r ∈ s.occ.history, r.version < limit → ∀ x ∈ s.sessions.entries, ∀ tx ∈ s.occ.txs.get x.1,
    tx.validatedUpTo < r.version → ∀ f ∈ x.2.fetched, (f.table, f.key) ∉ r.keys

instance (s : Db) (limit : Nat) : Decidable (s.PruneSafe limit) :=
  inferInstanceAs (Decidable (∀ r ∈ _, _ → ∀ x ∈ _, ∀ tx ∈ _, _ → ∀ f ∈ _, _))

/-- A transaction prunes nothing that another one still needs. -/
def TxSafe (s : Db) (id : Nat) : Prop :=
  ∀ tx ∈ s.occ.txs.get id, ∀ limit ∈ tx.phase.pruneLimit s.occ.version, s.PruneSafe limit

instance (s : Db) (id : Nat) : Decidable (s.TxSafe id) :=
  inferInstanceAs (Decidable (∀ tx ∈ _, ∀ limit ∈ _, s.PruneSafe limit))

def StepSafe (s : Db) : DbStep → Prop
  | .finish => ∀ a ∈ s.applying, s.TxSafe a.id
  | .act id .prune => s.TxSafe id
  | _ => True

end Db

end Dtdb.Relational
