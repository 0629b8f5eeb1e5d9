import Dtdb.Sql.Compile

/-! # Running queries

A query is optimized; its subqueries are run and replaced by their results; a lookup of one primary
key is answered directly, everything else is compiled and drained. -/

namespace Dtdb.Sql

open Dtdb.Lib Dtdb.Storage Dtdb.Relational

structure SqlEngine where
  lib : Library
  runtime : Runtime
  stats : Statistics
  fullTextScan : TxTable → (indexName : String) → FtsQuery → Option (List String) →
    Except Fault (List Row)

namespace SqlEngine

variable (e : SqlEngine)

def env (tx : Transaction) (params : Params) : Env := ⟨e.lib, e.runtime, e.fullTextScan, tx, params⟩

def optimize (plan : LogicalPlan) : LogicalPlan := (Optimizer.mk e.lib e.stats).optimize plan

def compile (plan : LogicalPlan) (columns : Option (List String)) :
    Except Fault PhysicalOperator :=
  compilePhysical e.lib e.runtime.memoryBudget plan columns

/-! ## Subqueries -/

def execSubplan (tx : Transaction) (params : Params) (plan : LogicalPlan) :
    Except Fault (Schema × List Row) := do
  let op ← e.compile (e.optimize plan) none
  .ok (op.schema, ← op.run (e.env tx params))

def firstValue (row : Row) : DbValue := row.headD .null

def foldScalar (result : Schema × List Row) : Except Fault Expr :=
  if result.1.columns.length ≠ 1 then fail .scalarSubqueryColumns
  else match result.2 with
    | [] => .ok (.literal .null)
    | [row] => .ok (.literal (firstValue row))
    | _ => fail .scalarSubqueryRows

def foldIn (lhs : Expr) (negated : Bool) (result : Schema × List Row) : Except Fault Expr :=
  if result.1.columns.length ≠ 1 then fail .inSubqueryColumns
  else
    let inList := Expr.inList lhs (result.2.map fun row => .literal (firstValue row))
    .ok (if negated then .not inList else inList)

mutual

def foldExpr (tx : Transaction) (params : Params) : Expr → Except Fault Expr
  | .binaryOp left op right => do
    .ok (.binaryOp (← foldExpr tx params left) op (← foldExpr tx params right))
  | .not inner => do .ok (.not (← foldExpr tx params inner))
  | .isNull inner => do .ok (.isNull (← foldExpr tx params inner))
  | .caseWhen operand conditions results elseResult => do
    .ok (.caseWhen (← foldOption tx params operand) (← foldList tx params conditions)
      (← foldList tx params results) (← foldOption tx params elseResult))
  | .function name args => do .ok (.function name (← foldList tx params args))
  | .inList expr list => do .ok (.inList (← foldExpr tx params expr) (← foldList tx params list))
  | .cast expr target => do .ok (.cast (← foldExpr tx params expr) target)
  | .scalarSubquery subquery => do
    foldScalar (← e.execSubplan tx params (← foldPlan tx params subquery))
  | .inSubquery expr subquery negated => do
    let lhs ← foldExpr tx params expr
    foldIn lhs negated (← e.execSubplan tx params (← foldPlan tx params subquery))
  | .existsSubquery subquery negated => do
    let result ← e.execSubplan tx params (← foldPlan tx params subquery)
    .ok (.literal (.bool (xor negated !result.2.isEmpty)))
  | .column name index => .ok (.column name index)
  | .literal v => .ok (.literal v)
  | .parameter name => .ok (.parameter name)
  | .matchAgainst column index query => .ok (.matchAgainst column index query)

def foldList (tx : Transaction) (params : Params) : List Expr → Except Fault (List Expr)
  | [] => .ok []
  | x :: xs => do .ok ((← foldExpr tx params x) :: (← foldList tx params xs))

def foldOption (tx : Transaction) (params : Params) : Option Expr → Except Fault (Option Expr)
  | none => .ok none
  | some x => do .ok (some (← foldExpr tx params x))

def foldKeys (tx : Transaction) (params : Params) :
    List (Expr × Bool) → Except Fault (List (Expr × Bool))
  | [] => .ok []
  | (x, asc) :: xs => do .ok ((← foldExpr tx params x, asc) :: (← foldKeys tx params xs))

def foldAggregate (tx : Transaction) (params : Params) : AggregateExpr → Except Fault AggregateExpr
  | .count x d => do .ok (.count (← foldExpr tx params x) d)
  | .sum x d => do .ok (.sum (← foldExpr tx params x) d)
  | .min x d => do .ok (.min (← foldExpr tx params x) d)
  | .max x d => do .ok (.max (← foldExpr tx params x) d)
  | .avg x d => do .ok (.avg (← foldExpr tx params x) d)

def foldAggrs (tx : Transaction) (params : Params) :
    List AggregateExpr → Except Fault (List AggregateExpr)
  | [] => .ok []
  | a :: as => do .ok ((← foldAggregate tx params a) :: (← foldAggrs tx params as))

def foldPlan (tx : Transaction) (params : Params) : LogicalPlan → Except Fault LogicalPlan
  | .scan tableName schema range => .ok (.scan tableName schema range)
  | .indexScan tableName indexName schema range => .ok (.indexScan tableName indexName schema range)
  | .fullTextScan tableName indexName schema query =>
    .ok (.fullTextScan tableName indexName schema query)
  | .filter source predicate => do
    .ok (.filter (← foldPlan tx params source) (← foldExpr tx params predicate))
  | .projection source expressions fieldNames schema => do
    .ok (.projection (← foldPlan tx params source) (← foldList tx params expressions) fieldNames
      schema)
  | .join left right condition joinType schema => do
    .ok (.join (← foldPlan tx params left) (← foldPlan tx params right)
      (← foldExpr tx params condition) joinType schema)
  | .aggregate source groupBy aggrs fieldNames schema => do
    .ok (.aggregate (← foldPlan tx params source) (← foldList tx params groupBy)
      (← foldAggrs tx params aggrs) fieldNames schema)
  | .sort source keys => do .ok (.sort (← foldPlan tx params source) (← foldKeys tx params keys))
  | .limit source lim offset => do .ok (.limit (← foldPlan tx params source) lim offset)
  | .setOp left right op all => do
    .ok (.setOp (← foldPlan tx params left) (← foldPlan tx params right) op all)
  | .distinct source => do .ok (.distinct (← foldPlan tx params source))

end

end SqlEngine

mutual

def Expr.containsSubquery : Expr → Bool
  | .scalarSubquery _ | .inSubquery .. | .existsSubquery .. => true
  | .binaryOp left _ right => left.containsSubquery || right.containsSubquery
  | .not inner => inner.containsSubquery
  | .isNull inner => inner.containsSubquery
  | .caseWhen operand conditions results elseResult =>
    optionContainsSubquery operand || listContainsSubquery conditions ||
      listContainsSubquery results || optionContainsSubquery elseResult
  | .function _ args => listContainsSubquery args
  | .inList expr list => expr.containsSubquery || listContainsSubquery list
  | .cast expr _ => expr.containsSubquery
  | .column .. | .literal _ | .parameter _ | .matchAgainst .. => false

def listContainsSubquery : List Expr → Bool
  | [] => false
  | x :: xs => x.containsSubquery || listContainsSubquery xs

def optionContainsSubquery : Option Expr → Bool
  | none => false
  | some x => x.containsSubquery

end

def LogicalPlan.containsSubquery : LogicalPlan → Bool
  | .scan .. | .indexScan .. | .fullTextScan .. => false
  | .filter source predicate => predicate.containsSubquery || source.containsSubquery
  | .projection source expressions _ _ => listContainsSubquery expressions || source.containsSubquery
  | .join left right condition _ _ =>
    condition.containsSubquery || left.containsSubquery || right.containsSubquery
  | .aggregate source groupBy aggrs _ _ => listContainsSubquery groupBy ||
      aggrs.any (fun a => a.expr.containsSubquery) || source.containsSubquery
  | .sort source keys => keys.any (fun k => k.1.containsSubquery) || source.containsSubquery
  | .limit source _ _ => source.containsSubquery
  | .distinct source => source.containsSubquery
  | .setOp left right _ _ => left.containsSubquery || right.containsSubquery

/-! ## Point lookups -/

structure PointGetPlan where
  projection : Option (List Expr × Schema)
  filter : Option Expr
  tableName : String
  scanSchema : Schema
  key : DbKey

/-- The scan of a single key under a filter and a projection. -/
def pointScan (params : Params) (projection : Option (List Expr × Schema)) (filter : Option Expr) :
    LogicalPlan → Option PointGetPlan
  | .scan tableName schema (some (start, stop)) => do
    let startKey ← (start.resolve params).toOption
    let endKey ← (stop.resolve params).toOption
    if startKey = endKey then some ⟨projection, filter, tableName, schema, startKey⟩ else none
  | _ => none

def pointFilter (params : Params) (projection : Option (List Expr × Schema)) :
    LogicalPlan → Option PointGetPlan
  | .filter source predicate => pointScan params projection (some predicate) source
  | plan => pointScan params projection none plan

def matchPointGet (params : Params) : LogicalPlan → Option PointGetPlan
  | .projection source expressions _ schema => pointFilter params (some (expressions, schema)) source
  | plan => pointFilter params none plan

namespace PointGetPlan

def columns (pg : PointGetPlan) : List String :=
  (((pg.projection.map fun p => collectList p.1).getD []) ++
    (pg.filter.map Expr.collectColumns).getD []).dedup

def evalBound (lib : Library) (params : Params) (s : Schema) (row : Row) (x : Expr) :
    Except Fault DbValue := do
  let x ← x.substituteParams params
  let x ← x.bindColumns s
  x.eval lib s row

def answer (pg : PointGetPlan) (lib : Library) (params : Params) (row : Row) :
    Except Fault (List Row) := do
  let keep ← match pg.filter with
    | some predicate => do .ok (passes (← evalBound lib params pg.scanSchema row predicate))
    | none => .ok true
  if keep then match pg.projection with
    | some p => do .ok [← p.1.mapM (evalBound lib params pg.scanSchema row)]
    | none => .ok [row]
  else .ok []

end PointGetPlan

namespace SqlEngine

variable (e : SqlEngine)

/-- `execute_point_get`; `none` if the plan is no point lookup. -/
def executePointGet (tx : Transaction) (params : Params) (plan : LogicalPlan) :
    Except Fault (Option (Schema × List Row)) :=
  match matchPointGet params plan with
  | none => .ok none
  | some pg => do
    let t ← tx.table pg.tableName
    let schema := (pg.projection.map Prod.snd).getD pg.scanSchema
    match t.getProjected pg.key (some pg.columns) with
    | none => .ok (some (schema, []))
    | some row => do .ok (some (schema, ← pg.answer e.lib params row))

def foldSubqueries (tx : Transaction) (params : Params) (plan : LogicalPlan) :
    Except Fault LogicalPlan :=
  if plan.containsSubquery then e.foldPlan tx params plan else .ok plan

/-- A folded plan, compiled for the columns it refers to. -/
def compileQuery (plan : LogicalPlan) : Except Fault PhysicalOperator :=
  e.compile plan (some plan.collectColumns.dedup)

def ascii : SqlEngine := ⟨.ascii, .inMemory, fun _ => none, fun _ _ _ _ => .ok []⟩

/-- `execute_planned` of an optimized query. -/
def executeQuery (tx : Transaction) (params : Params) (plan : LogicalPlan) :
    Except Fault (Schema × List Row) := do
  let plan ← e.foldSubqueries tx params plan
  match ← e.executePointGet tx params plan with
  | some result => .ok result
  | none =>
    let op ← e.compileQuery plan
    .ok (op.schema, ← op.run (e.env tx params))

/-- `execute_statement` of a planned query. -/
def executeSelect (tx : Transaction) (params : Params) (plan : LogicalPlan) :
    Except Fault (Schema × List Row) := do
  let plan ← plan.substituteParams params
  e.executeQuery tx params (e.optimize plan)

end SqlEngine

end Dtdb.Sql
