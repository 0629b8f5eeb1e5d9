import Dtdb.Sql.Engine

/-! # Statements that change rows

INSERT, INSERT ... SELECT, UPDATE and DELETE go through the rows of the state before the statement
one by one and write to the transaction's buffer as they go. -/

namespace Dtdb.Relational

open Dtdb.Lib Dtdb.Storage

namespace TxTable

def put (t : TxTable) (key : DbKey) (row : Row) : Except Schema.Mismatch TxTable := do
  t.table.schema.validateRow row
  t.table.schema.validateKey key (some row)
  .ok { t with buffer := t.buffer.insert key (some row) }

def delete (t : TxTable) (key : DbKey) : Except Schema.Mismatch TxTable := do
  t.table.schema.validateKey key none
  .ok { t with buffer := t.buffer.insert key none }

end TxTable

end Dtdb.Relational

namespace Dtdb.Sql

open Dtdb.Lib Dtdb.Storage Dtdb.Relational

/-! ## Writes -/

namespace Transaction

def set (tx : Transaction) (name : String) (t : TxTable) : Transaction :=
  ⟨Function.update tx.tables name (some t)⟩

def write (tx : Transaction) (name : String) (f : TxTable → Except Schema.Mismatch TxTable) :
    Except Fault Transaction := do
  let t ← tx.table name
  match f t with
  | .ok t => .ok (tx.set name t)
  | .error e => fail (.mismatch e)

def put (tx : Transaction) (name : String) (key : DbKey) (row : Row) : Except Fault Transaction :=
  tx.write name fun t => t.put key row

def delete (tx : Transaction) (name : String) (key : DbKey) : Except Fault Transaction :=
  tx.write name fun t => t.delete key

end Transaction

/-- `extract_primary_key`, with its errors. -/
def primaryKeyOf (s : Schema) (row : Row) : Except Fault DbKey :=
  match s.extractPrimaryKey row with
  | some key => .ok key
  | none => fail (.badPrimaryKey row)

/-! ## Sequences -/

abbrev Sequences := String → Option I64

def maxAutoIncrementValue (t : OpenTable) : Int :=
  match t.schema.columns.findIdx? Column.isAutoIncrement, t.schema.primaryKeyBounds with
  | some i, some (start, stop) =>
    ((t.filteredScan start stop none).getD []).foldl (fun greatest (x : DbKey × Row) => match x.2[i]? with
      | some (.int v) => max greatest v.1
      | _ => greatest) 0
  | _, _ => 0

/-- `next_sequence_value`: the value, and the sequences after it. -/
def nextSequenceValue (t : OpenTable) (name : String) (seqs : Sequences) : I64 × Sequences :=
  let next := match seqs name with
    | some v => v
    | none => wrapI64 (maxAutoIncrementValue t + 1)
  (next, Function.update seqs name (some (wrapI64 (next.1 + 1))))

def updateSequenceValue (name : String) (v : I64) (seqs : Sequences) : Sequences :=
  match seqs name with
  | some current =>
    if current ≤ v then Function.update seqs name (some (wrapI64 (v.1 + 1))) else seqs
  | none => Function.update seqs name (some (wrapI64 (v.1 + 1)))

/-- Auto-increment columns get their values, or move the sequence past their own. -/
def fillAutoIncrement (t : OpenTable) (name : String) (seqs : Sequences) (row : Row) :
    Row × Sequences :=
  t.schema.columns.zipIdx.foldl (fun (state : Row × Sequences) x =>
    if x.1.isAutoIncrement then match state.1[x.2]? with
      | some .null =>
        let (next, seqs) := nextSequenceValue t name state.2
        (state.1.set x.2 (.int next), seqs)
      | some (.int v) => (state.1, updateSequenceValue name v state.2)
      | _ => state
    else state) (row, seqs)

/-! ## Rows -/

structure Session where
  tx : Transaction
  sequences : Sequences

def eachRow {S A : Type} (step : S → A → S × Except Fault Unit) : S → List A → S × Except Fault Unit
  | s, [] => (s, .ok ())
  | s, a :: as => match step s a with
    | (s, .ok ()) => eachRow step s as
    | (s, .error e) => (s, .error e)

/-- The loop over the rows that a query delivers; the result counts them. -/
def eachDelivered {S A : Type} (step : S → A → S × Except Fault Unit) (s : S) (rows : Flow A Fault) :
    S × Except Fault Nat :=
  match eachRow step s rows.items with
  | (s, .error e) => (s, .error e)
  | (s, .ok ()) => match rows.fault with
    | some e => (s, .error e)
    | none => (s, .ok rows.items.length)

def alignRow (s : Schema) (columns : List String) (value : Nat → Except Fault DbValue) :
    Except Fault Row :=
  columns.zipIdx.foldlM (fun vals x => match s.columnIndex x.1 with
    | none => fail (.columnNotInSchema x.1)
    | some i => do .ok (vals.set i (← value x.2))) s.defaultRowValues

def valueAt (lib : Library) (params : Params) (exprs : List Expr) (i : Nat) : Except Fault DbValue :=
  match exprs[i]? with
  | none => .error .panic
  | some x => do
    let x ← x.substituteParams params
    x.eval lib (.new []) []

def selectedAt (row : Row) (i : Nat) : Except Fault DbValue :=
  match row[i]? with
  | none => .error .panic
  | some v => .ok v

/-- A full row is checked and put under a key that no row has. -/
def insertFull (tx : Transaction) (name : String) (s : Schema) (row : Row) :
    Except Fault Transaction := do
  let key ← primaryKeyOf s row
  let t ← tx.table name
  if (t.getProjected key none).isSome then fail .duplicatePrimaryKey
  else tx.put name key row

def insertRow (t : OpenTable) (name : String) (st : Session) (vals : Except Fault Row) :
    Session × Except Fault Unit :=
  match vals with
  | .error e => (st, .error e)
  | .ok vals =>
    let (row, seqs) := fillAutoIncrement t name st.sequences vals
    match insertFull st.tx name t.schema row with
    | .error e => (⟨st.tx, seqs⟩, .error e)
    | .ok tx => (⟨tx, seqs⟩, .ok ())

def deleteRow (name : String) (s : Schema) (tx : Transaction) (row : Row) :
    Transaction × Except Fault Unit :=
  match (do let key ← primaryKeyOf s row; tx.delete name key) with
  | .error e => (tx, .error e)
  | .ok tx => (tx, .ok ())

def assignRow (lib : Library) (s : Schema) (assignments : List (String × Expr)) (row : Row) :
    Except Fault Row :=
  assignments.foldlM (fun vals x => match s.columnIndex x.1 with
    | none => fail (.columnNotInSchema x.1)
    | some i => do .ok (vals.set i (← x.2.eval lib s row))) row

/-- The old key, the new key and the new row of an UPDATE. -/
def updateOf (lib : Library) (s : Schema) (assignments : List (String × Expr)) (row : Row) :
    Except Fault (DbKey × DbKey × Row) := do
  let updated ← assignRow lib s assignments row
  let oldKey ← primaryKeyOf s row
  let newKey ← primaryKeyOf s updated
  .ok (oldKey, newKey, updated)

/-- A write, after which another may follow. -/
def andThen (tx : Transaction) (first : Except Fault Transaction)
    (next : Transaction → Transaction × Except Fault Unit) : Transaction × Except Fault Unit :=
  match first with
  | .error e => (tx, .error e)
  | .ok tx => next tx

/-- A row whose key changes is deleted before it is put again. -/
def updateRow (lib : Library) (name : String) (s : Schema) (assignments : List (String × Expr))
    (tx : Transaction) (row : Row) : Transaction × Except Fault Unit :=
  match updateOf lib s assignments row with
  | .error e => (tx, .error e)
  | .ok (oldKey, newKey, updated) =>
    let put := fun tx : Transaction => andThen tx (tx.put name newKey updated) fun tx => (tx, .ok ())
    if oldKey ≠ newKey then andThen tx (tx.delete name oldKey) put else put tx

/-! ## Statements -/

inductive SqlStatement where
  | insert (tableName : String) (columns : List String) (rows : List (List Expr))
  | insertSelect (tableName : String) (columns : List String) (query : LogicalPlan)
  | delete (tableName : String) (filter : Option Expr)
  | update (tableName : String) (assignments : List (String × Expr)) (filter : Option Expr)

namespace SqlStatement

def substituteAssignments (params : Params) :
    List (String × Expr) → Except Fault (List (String × Expr))
  | [] => .ok []
  | (name, x) :: xs => do
    .ok ((name, ← x.substituteParams params) :: (← substituteAssignments params xs))

def substituteParams (params : Params) : SqlStatement → Except Fault SqlStatement
  | .insert tableName columns rows => do
    .ok (.insert tableName columns (← rows.mapM (substituteList params)))
  | .insertSelect tableName columns query => do
    .ok (.insertSelect tableName columns (← query.substituteParams params))
  | .delete tableName filter => do .ok (.delete tableName (← substituteOption params filter))
  | .update tableName assignments filter => do
    let assignments ← substituteAssignments params assignments
    .ok (.update tableName assignments (← substituteOption params filter))

end SqlStatement

namespace SqlEngine

variable (e : SqlEngine)

def optimizePlanned : SqlStatement → SqlStatement
  | .insertSelect tableName columns query => .insertSelect tableName columns (e.optimize query)
  | stmt => stmt

def matchingRows (tx : Transaction) (params : Params) (name : String) (s : Schema)
    (filter : Option Expr) : Except Fault (Flow Row Fault) := do
  let plan ← match filter with
    | none => .ok (.scan name s none)
    | some predicate => do .ok (.filter (.scan name s none) (← e.foldExpr tx params predicate))
  let op ← e.compile (e.optimize plan) none
  op.execute (e.env tx params)

def selectedRows (tx : Transaction) (params : Params) (columns : List String) (query : LogicalPlan) :
    Except Fault (Flow Row Fault) := do
  let op ← e.compileQuery query
  if columns.length ≠ op.schema.columns.length then
    fail (.columnCount columns.length op.schema.columns.length)
  else op.execute (e.env tx params)

def boundAssignments (tx : Transaction) (params : Params) :
    List (String × Expr) → Except Fault (List (String × Expr))
  | [] => .ok []
  | (name, x) :: xs => do
    let x ← x.substituteParams params
    let x ← e.foldExpr tx params x
    .ok ((name, x) :: (← boundAssignments tx params xs))

def started {A : Type} (st : Session) (rows : Except Fault A)
    (loop : A → Session × Except Fault Nat) : Session × Except Fault Nat :=
  match rows with
  | .error fault => (st, .error fault)
  | .ok rows => loop rows

def onTx (st : Session) (result : Transaction × Except Fault Nat) : Session × Except Fault Nat :=
  (⟨result.1, st.sequences⟩, result.2)

def insertSource (tx : Transaction) (params : Params) (name : String) (columns : List String)
    (query : LogicalPlan) : Except Fault (TxTable × Flow Row Fault) := do
  let query ← e.foldSubqueries tx params query
  let t ← tx.table name
  .ok (t, ← e.selectedRows tx params columns query)

def deleteSource (tx : Transaction) (params : Params) (name : String) (filter : Option Expr) :
    Except Fault (TxTable × Flow Row Fault) := do
  let t ← tx.table name
  .ok (t, ← e.matchingRows tx params name t.table.schema filter)

def updateSource (tx : Transaction) (params : Params) (name : String)
    (assignments : List (String × Expr)) (filter : Option Expr) :
    Except Fault (TxTable × Flow Row Fault × List (String × Expr)) := do
  let t ← tx.table name
  let rows ← e.matchingRows tx params name t.table.schema filter
  .ok (t, rows, ← e.boundAssignments tx params assignments)

/-- `execute_planned` of a statement that changes rows. -/
def executePlanned (params : Params) (st : Session) : SqlStatement → Session × Except Fault Nat
  | .insert name columns rows => started st (st.tx.table name) fun t =>
    eachDelivered (fun st exprs => insertRow t.table name st
      (alignRow t.table.schema columns (valueAt e.lib params exprs))) st (.ofList rows)
  | .insertSelect name columns query =>
    started st (e.insertSource st.tx params name columns query) fun (t, rows) =>
    eachDelivered (fun st row => insertRow t.table name st
      (alignRow t.table.schema columns (selectedAt row))) st rows
  | .delete name filter => started st (e.deleteSource st.tx params name filter) fun (t, rows) =>
    onTx st (eachDelivered (deleteRow name t.table.schema) st.tx rows)
  | .update name assignments filter =>
    started st (e.updateSource st.tx params name assignments filter) fun (t, rows, assignments) =>
    onTx st (eachDelivered (updateRow e.lib name t.table.schema assignments) st.tx rows)

/-- `execute_statement`, of a planned statement. -/
def executeStatement (params : Params) (st : Session) (stmt : SqlStatement) :
    Session × Except Fault Nat :=
  started st (stmt.substituteParams params) fun stmt =>
    e.executePlanned params st (e.optimizePlanned stmt)

end SqlEngine

end Dtdb.Sql
