import Dtdb.Sql.Aggregate
import Dtdb.Sql.Plan

/-! # Physical operators

Executing an operator opens its scans and resolves its parameters, which may fail at once, and hands
out a flow of rows. -/

namespace Dtdb.Sql

open Dtdb.Lib Dtdb.Storage Dtdb.Relational

inductive PhysicalOperator where
  | seqScan (schema : Schema) (tableName : String) (columns : Option (List String))
      (range : Option (PlanKey × PlanKey))
  | indexScan (schema : Schema) (tableName indexName : String) (range : Option (PlanKey × PlanKey))
      (columns : Option (List String))
  | fullTextScan (schema : Schema) (tableName indexName : String) (query : FtsQuery)
      (columns : Option (List String))
  | filter (source : PhysicalOperator) (predicate : Expr)
  | projection (source : PhysicalOperator) (expressions : List Expr) (schema : Schema)
  | limit (source : PhysicalOperator) (limit offset : Option Expr)
  | sort (source : PhysicalOperator) (keys : List (Expr × Bool))
  | topN (source : PhysicalOperator) (keys : List (Expr × Bool)) (k : Nat)
  | sortMergeJoin (left right : PhysicalOperator) (leftOn rightOn : Expr) (joinType : JoinType)
      (schema : Schema)
  | crossJoin (left right : PhysicalOperator) (schema : Schema)
  | hashAggregate (source : PhysicalOperator) (groupBy : List Expr) (aggrs : List AggregateExpr)
      (schema : Schema)
  | sortedAggregate (source : PhysicalOperator) (groupBy : List Expr) (aggrs : List AggregateExpr)
      (schema : Schema)
  | setOp (left right : PhysicalOperator) (op : SetOpType) (all : Bool) (schema : Schema)
  | distinct (source : PhysicalOperator)

def PhysicalOperator.schema : PhysicalOperator → Schema
  | .seqScan schema .. => schema
  | .indexScan schema .. => schema
  | .fullTextScan schema .. => schema
  | .filter source _ => source.schema
  | .projection _ _ schema => schema
  | .limit source _ _ => source.schema
  | .sort source _ => source.schema
  | .topN source _ _ => source.schema
  | .sortMergeJoin _ _ _ _ _ schema => schema
  | .crossJoin _ _ schema => schema
  | .hashAggregate _ _ _ schema => schema
  | .sortedAggregate _ _ _ schema => schema
  | .setOp _ _ _ _ schema => schema
  | .distinct source => source.schema

structure Transaction where
  tables : String → Option TxTable

/-- What an execution runs in; what a full-text index answers is taken as given. -/
structure Env where
  lib : Library
  runtime : Runtime
  fullTextScan : TxTable → (indexName : String) → FtsQuery → Option (List String) →
    Except Fault (List Row)
  tx : Transaction
  params : Params

/-! ## Scans -/

def Transaction.table (tx : Transaction) (name : String) : Except Fault TxTable :=
  match tx.tables name with
  | some t => .ok t
  | none => fail (.tableNotFound name)

def resolveRange (params : Params) (range : PlanKey × PlanKey) : Except Fault (DbKey × DbKey) := do
  let start ← range.1.resolve params
  let stop ← range.2.resolve params
  .ok (start, stop)

def seqScan (env : Env) (schema : Schema) (tableName : String) (columns : Option (List String))
    (range : Option (PlanKey × PlanKey)) : Except Fault (List Row) := do
  let (start, stop) ← match range with
    | some range => resolveRange env.params range
    | none => match schema.primaryKeyBounds with
      | some bounds => .ok bounds
      | none => fail .noPrimaryKey
  let t ← env.tx.table tableName
  match t.scanIter start stop columns with
  | some it => .ok it.rows
  | none => .error .panic

def indexBounds (schema : Schema) (indexName : String) : Except Fault (DbKey × DbKey) :=
  match schema.indexes.find? fun idx => idx.name = indexName with
  | none => fail (.indexNotInSchema indexName)
  | some idx => match idx.columns.head? with
    | none => fail (.indexWithoutColumns indexName)
    | some name => match schema.columns.find? fun c => c.matchesName name with
      | none => fail (.indexedColumnNotFound name)
      | some c => .ok c.dataType.keyBounds

def indexScan (env : Env) (schema : Schema) (tableName indexName : String)
    (range : Option (PlanKey × PlanKey)) (columns : Option (List String)) :
    Except Fault (List Row) := do
  let (start, stop) ← match range with
    | some range => resolveRange env.params range
    | none => indexBounds schema indexName
  let t ← env.tx.table tableName
  match t.indexScan indexName start stop columns with
  | some (.ok rows) => .ok rows
  | some (.error e) => fail (.indexScan e)
  | none => .error .panic

/-! ## Row by row -/

def filterRows (lib : Library) (s : Schema) (predicate : Expr) (rows : Flow Row Fault) :
    Flow Row Fault :=
  rows.expand fun row => do
    if passes (← predicate.eval lib s row) then .ok [row] else .ok []

def projectRows (lib : Library) (s : Schema) (expressions : List Expr) (rows : Flow Row Fault) :
    Flow Row Fault :=
  rows.expand fun row => do .ok [← evalAll lib s row expressions]

def resolveCountExpr (lib : Library) (params : Params) (e : Expr) : Except Fault Nat := do
  let e ← e.substituteParams params
  match ← e.eval lib (.new []) [] with
  | .int n => if 0 ≤ n.1 then .ok n.1.toNat else fail (.countNegative n)
  | v => fail (.countNotInteger v)

def resolveCount? (lib : Library) (params : Params) : Option Expr → Except Fault (Option Nat)
  | none => .ok none
  | some e => do .ok (some (← resolveCountExpr lib params e))

/-! ## Sorting -/

def keyedRows (lib : Library) (s : Schema) (keys : List Expr) (rows : Flow Row Fault) :
    Except Fault (List (List DbValue × Row)) :=
  (rows.expand fun row => do .ok [(← evalAll lib s row keys, row)]).collect

def sortRows (lib : Library) (rt : Runtime) (s : Schema) (keys : List (Expr × Bool))
    (rows : Flow Row Fault) : Flow Row Fault :=
  .ofExcept do
    let entries ← keyedRows lib s (keys.map Prod.fst) rows
    .ok ((rt.sortEntries (keys.map Prod.snd) entries).map Prod.snd)

/-- With `k` zero the source is not read. -/
def topNRows (lib : Library) (rt : Runtime) (s : Schema) (keys : List (Expr × Bool)) (k : Nat)
    (rows : Flow Row Fault) : Flow Row Fault :=
  if k = 0 then .ofList []
  else .ofExcept do
    let entries ← keyedRows lib s (keys.map Prod.fst) rows
    .ok (((rt.heap (keys.map Prod.snd)).least k entries).map Prod.snd)

def sortWhole (rt : Runtime) (width : Nat) (rows : List Row) : List Row :=
  (rt.sortEntries (ascending width) (rows.map fun row => (row, ()))).map Prod.fst

def dedupAfter (last : Row) : List Row → List Row
  | [] => []
  | row :: rows => if rowEq last row then dedupAfter last rows else row :: dedupAfter row rows

def dedupRows : List Row → List Row
  | [] => []
  | row :: rows => row :: dedupAfter row rows

def distinctRows (rt : Runtime) (width : Nat) (rows : Flow Row Fault) : Flow Row Fault :=
  .ofExcept do .ok (dedupRows (sortWhole rt width (← rows.collect)))

/-! ## Joins -/

def padLeftRow (rightCols : Nat) (row : Row) : Row := row ++ List.replicate rightCols .null

/-- The entries at the head that have a key, and what follows. -/
def takeGroup (key : List DbValue) (entries : List (List DbValue × Row)) :
    List Row × List (List DbValue × Row) :=
  let same := fun e : List DbValue × Row => compareRows e.1 key = .eq
  ((entries.takeWhile same).map Prod.snd, entries.dropWhile same)

/-- The turns of the join over its two sorted sides. -/
def mergeJoin (isLeft : Bool) (rightCols : Nat) : Nat → List (List DbValue × Row) →
    List (List DbValue × Row) → List Row
  | 0, _, _ => []
  | _, [], _ => []
  | n + 1, (lkey, l) :: ls, rights =>
    let (leftGroup, leftRest) := takeGroup lkey ((lkey, l) :: ls)
    let unmatched := if isLeft then leftGroup.map (padLeftRow rightCols) else []
    -- NULL keys never join.
    if lkey.head? = some .null then unmatched ++ mergeJoin isLeft rightCols n leftRest rights
    else match rights with
      | [] => unmatched ++ mergeJoin isLeft rightCols n leftRest []
      | (rkey, r) :: rs =>
        let (rightGroup, rightRest) := takeGroup rkey ((rkey, r) :: rs)
        match compareRows lkey rkey with
        | .lt => unmatched ++ mergeJoin isLeft rightCols n leftRest rights
        | .gt => mergeJoin isLeft rightCols n ((lkey, l) :: ls) rightRest
        | .eq => leftGroup.flatMap (fun a => rightGroup.map (a ++ ·)) ++
            mergeJoin isLeft rightCols n leftRest rightRest

def joinRows (lib : Library) (rt : Runtime) (ls rs : Schema) (leftOn rightOn : Expr)
    (joinType : JoinType) (left right : Flow Row Fault) : Flow Row Fault :=
  .ofExcept do
    let lefts ← keyedRows lib ls [leftOn] left
    let rights ← keyedRows lib rs [rightOn] right
    .ok (mergeJoin (joinType = .left) rs.columns.length (lefts.length + rights.length + 1)
      (rt.sortEntries [true] lefts) (rt.sortEntries [true] rights))

/-- Without a right row the left side is not read. -/
def crossRows (left right : Flow Row Fault) : Flow Row Fault :=
  match right.collect with
  | .error e => .failed e
  | .ok rights =>
    if rights.isEmpty then .ofList [] else left.expand fun a => .ok (rights.map (a ++ ·))

/-! ## Set operations -/

def setOpEmitCount (op : SetOpType) (all : Bool) (leftCount rightCount : Nat) : Nat :=
  match op, all with
  | .union, true => leftCount + rightCount
  | .union, false => if 0 < leftCount + rightCount then 1 else 0
  | .intersect, true => min leftCount rightCount
  | .intersect, false => if 0 < leftCount ∧ 0 < rightCount then 1 else 0
  | .except, true => leftCount - rightCount
  | .except, false => if 0 < leftCount ∧ rightCount = 0 then 1 else 0

def consumeEqual (key : Row) (rows : List Row) : Nat × List Row :=
  let same := fun row : Row => compareRows row key = .eq
  ((rows.takeWhile same).length, rows.dropWhile same)

/-- The turns of a set operation over its two sorted sides. -/
def mergeSets (op : SetOpType) (all : Bool) : Nat → List Row → List Row → List Row
  | 0, _, _ => []
  | n + 1, ls, rs =>
    let key := match ls, rs with
      | [], [] => none
      | l :: _, [] => some l
      | [], r :: _ => some r
      | l :: _, r :: _ => some (if compareRows l r = .gt then r else l)
    match key with
    | none => []
    | some key =>
      let (leftCount, ls) := consumeEqual key ls
      let (rightCount, rs) := consumeEqual key rs
      List.replicate (setOpEmitCount op all leftCount rightCount) key ++ mergeSets op all n ls rs

def setOpRows (rt : Runtime) (op : SetOpType) (all : Bool) (lwidth rwidth : Nat)
    (left right : Flow Row Fault) : Flow Row Fault :=
  .ofExcept do
    let lefts ← left.collect
    let rights ← right.collect
    .ok (mergeSets op all (lefts.length + rights.length + 1) (sortWhole rt lwidth lefts)
      (sortWhole rt rwidth rights))

/-! ## Execution -/

def PhysicalOperator.execute (env : Env) : PhysicalOperator → Except Fault (Flow Row Fault)
  | .seqScan schema tableName columns range => do
    .ok (.ofList (← Sql.seqScan env schema tableName columns range))
  | .indexScan schema tableName indexName range columns => do
    .ok (.ofList (← Sql.indexScan env schema tableName indexName range columns))
  | .fullTextScan _ tableName indexName query columns => do
    let t ← env.tx.table tableName
    .ok (.ofList (← env.fullTextScan t indexName query columns))
  | .filter source predicate => do
    let rows ← source.execute env
    let predicate ← predicate.substituteParams env.params
    .ok (filterRows env.lib source.schema predicate rows)
  | .projection source expressions _ => do
    let rows ← source.execute env
    let expressions ← substituteList env.params expressions
    .ok (projectRows env.lib source.schema expressions rows)
  | .limit source lim offset => do
    let rows ← source.execute env
    let lim ← resolveCount? env.lib env.params lim
    let offset ← resolveCount? env.lib env.params offset
    .ok (rows.slice (offset.getD 0) lim)
  | .sort source keys => do
    let rows ← source.execute env
    let keys ← substituteKeys env.params keys
    .ok (sortRows env.lib env.runtime source.schema keys rows)
  | .topN source keys k => do
    let rows ← source.execute env
    let keys ← substituteKeys env.params keys
    .ok (topNRows env.lib env.runtime source.schema keys k rows)
  | .sortMergeJoin left right leftOn rightOn joinType _ => do
    let lefts ← left.execute env
    let rights ← right.execute env
    let leftOn ← leftOn.substituteParams env.params
    let rightOn ← rightOn.substituteParams env.params
    .ok (joinRows env.lib env.runtime left.schema right.schema leftOn rightOn joinType lefts rights)
  | .crossJoin left right _ => do
    let lefts ← left.execute env
    let rights ← right.execute env
    .ok (crossRows lefts rights)
  | .hashAggregate source groupBy aggrs _ => do
    let rows ← source.execute env
    let groupBy ← substituteList env.params groupBy
    let aggrs ← substituteAggrs env.params aggrs
    .ok (Sql.hashAggregate env.lib env.runtime source.schema groupBy aggrs rows)
  | .sortedAggregate source groupBy aggrs _ => do
    let rows ← source.execute env
    let groupBy ← substituteList env.params groupBy
    let aggrs ← substituteAggrs env.params aggrs
    .ok (Sql.sortedAggregate env.lib env.runtime source.schema groupBy aggrs rows)
  | .setOp left right op all _ => do
    let lefts ← left.execute env
    let rights ← right.execute env
    .ok (setOpRows env.runtime op all left.schema.columns.length right.schema.columns.length lefts
      rights)
  | .distinct source => do
    let rows ← source.execute env
    .ok (distinctRows env.runtime source.schema.columns.length rows)

def PhysicalOperator.run (env : Env) (op : PhysicalOperator) : Except Fault (List Row) := do
  (← op.execute env).collect

end Dtdb.Sql
