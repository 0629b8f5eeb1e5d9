import Dtdb.Sql.Value

/-! # Expressions and logical plans

The two syntax trees of the SQL layer, which contain one another through subqueries, and the
functions that walk expressions. -/

namespace Dtdb.Sql

open Dtdb.Storage Dtdb.Relational

inductive PlanKey where
  | value (key : DbKey)
  | parameter (name : String)
deriving DecidableEq

inductive FtsQuery where
  | matchQuery (query : String)
  | allTokens (tokens : List String)
deriving DecidableEq

inductive JoinType where
  | inner
  | left
  | cross
deriving DecidableEq

inductive SetOpType where
  | union
  | intersect
  | except
deriving DecidableEq

mutual

inductive Expr where
  | column (name : String) (index : Option Nat)
  | literal (v : DbValue)
  | parameter (name : String)
  | binaryOp (left : Expr) (op : Operator) (right : Expr)
  | caseWhen (operand : Option Expr) (conditions results : List Expr) (elseResult : Option Expr)
  | function (name : String) (args : List Expr)
  | not (inner : Expr)
  | isNull (inner : Expr)
  | inList (expr : Expr) (list : List Expr)
  | matchAgainst (column : String) (index : Option Nat) (query : String)
  | scalarSubquery (subquery : LogicalPlan)
  | inSubquery (expr : Expr) (subquery : LogicalPlan) (negated : Bool)
  | existsSubquery (subquery : LogicalPlan) (negated : Bool)
  | cast (expr : Expr) (target : DataType)

inductive AggregateExpr where
  | count (expr : Expr) (distinct : Bool)
  | sum (expr : Expr) (distinct : Bool)
  | min (expr : Expr) (distinct : Bool)
  | max (expr : Expr) (distinct : Bool)
  | avg (expr : Expr) (distinct : Bool)

inductive LogicalPlan where
  | scan (tableName : String) (schema : Schema) (range : Option (PlanKey × PlanKey))
  | indexScan (tableName indexName : String) (schema : Schema) (range : Option (PlanKey × PlanKey))
  | fullTextScan (tableName indexName : String) (schema : Schema) (query : FtsQuery)
  | filter (source : LogicalPlan) (predicate : Expr)
  | projection (source : LogicalPlan) (expressions : List Expr) (fieldNames : List String)
      (schema : Schema)
  | join (left right : LogicalPlan) (condition : Expr) (joinType : JoinType) (schema : Schema)
  | aggregate (source : LogicalPlan) (groupBy : List Expr) (aggrs : List AggregateExpr)
      (fieldNames : List String) (schema : Schema)
  /-- A key's flag is `true` for ascending. -/
  | sort (source : LogicalPlan) (keys : List (Expr × Bool))
  | limit (source : LogicalPlan) (limit offset : Option Expr)
  | setOp (left right : LogicalPlan) (op : SetOpType) (all : Bool)
  | distinct (source : LogicalPlan)

end

def AggregateExpr.expr : AggregateExpr → Expr
  | .count e _ | .sum e _ | .min e _ | .max e _ | .avg e _ => e

/-! ## Evaluation -/

def matchingColumns (s : Schema) (name : String) : List Nat :=
  (s.columns.zipIdx.filter fun x => x.1.matchesName name).map Prod.snd

def resolveColumn (s : Schema) (name : String) : Except Fault Nat :=
  match matchingColumns s name with
  | [] => fail (.columnNotFound name)
  | [i] => .ok i
  | is => fail (.ambiguousColumn name (is.filterMap fun i => s.columns[i]?.map Column.name))

def rowValue (row : Row) (index : Nat) : Except Fault DbValue :=
  match row[index]? with
  | some v => .ok v
  | none => fail (.indexOutOfBounds index)

def columnTokenizer (s : Schema) (column : String) : String :=
  ((s.indexes.find? fun idx => idx.indexType = .fullText ∧ column ∈ idx.columns).bind
    IndexDefinition.tokenizer).getD "simple"

def evalMatch (lib : Library) (s : Schema) (row : Row) (column : String) (index : Option Nat)
    (query : String) : Except Fault DbValue := do
  let i ← match index with
    | some i => .ok i
    | none => match s.columnIndex column with
      | some i => .ok i
      | none => fail (.columnNotFound column)
  match ← rowValue row i with
  | .string text => do .ok (.bool (← lib.fullTextMatch (columnTokenizer s column) query text))
  | _ => .ok (.bool false)

mutual

def Expr.eval (lib : Library) (s : Schema) (row : Row) : Expr → Except Fault DbValue
  | .literal v => .ok v
  | .parameter name => fail (.parameterReachedExecution name)
  | .column name index => do
    let i ← match index with
      | some i => .ok i
      | none => resolveColumn s name
    rowValue row i
  | .not inner => do evalNot (← inner.eval lib s row)
  | .isNull inner => do .ok (.bool ((← inner.eval lib s row) = .null))
  | .inList expr list => evalInList lib (expr.eval lib s row) (evalList lib s row list)
  | .binaryOp left op right => evalBinary lib op (left.eval lib s row) (right.eval lib s row)
  | .caseWhen operand conditions results elseResult =>
    evalCase lib (evalOption lib s row operand) (evalList lib s row conditions)
      (evalList lib s row results) (evalOption lib s row elseResult)
  | .function name args => callFunction lib name (evalList lib s row args)
  | .matchAgainst column index query => evalMatch lib s row column index query
  | .cast expr target => do castValue lib (← expr.eval lib s row) target
  | .scalarSubquery _ | .inSubquery .. | .existsSubquery .. => fail .subqueryReachedExecution

def evalList (lib : Library) (s : Schema) (row : Row) : List Expr → List (Except Fault DbValue)
  | [] => []
  | e :: es => e.eval lib s row :: evalList lib s row es

def evalOption (lib : Library) (s : Schema) (row : Row) : Option Expr → Option (Except Fault DbValue)
  | none => none
  | some e => some (e.eval lib s row)

end

/-- The rule by which a filter keeps a row. -/
def passes : DbValue → Bool
  | .bool b => b
  | .int n => n.1 ≠ 0
  | _ => false

/-! ## Binding of columns

The names inside a subquery are bound when its own plan is compiled. -/

mutual

def Expr.bindColumns (s : Schema) : Expr → Except Fault Expr
  | .column name none => do .ok (.column name (some (← resolveColumn s name)))
  | .binaryOp left op right => do .ok (.binaryOp (← left.bindColumns s) op (← right.bindColumns s))
  | .caseWhen operand conditions results elseResult => do
    .ok (.caseWhen (← bindOption s operand) (← bindList s conditions) (← bindList s results)
      (← bindOption s elseResult))
  | .function name args => do .ok (.function name (← bindList s args))
  | .not inner => do .ok (.not (← inner.bindColumns s))
  | .isNull inner => do .ok (.isNull (← inner.bindColumns s))
  | .inList expr list => do .ok (.inList (← expr.bindColumns s) (← bindList s list))
  | .matchAgainst column none query => do
    .ok (.matchAgainst column (some (← resolveColumn s column)) query)
  | .inSubquery expr subquery negated => do .ok (.inSubquery (← expr.bindColumns s) subquery negated)
  | .cast expr target => do .ok (.cast (← expr.bindColumns s) target)
  | e => .ok e

def bindList (s : Schema) : List Expr → Except Fault (List Expr)
  | [] => .ok []
  | e :: es => do .ok ((← e.bindColumns s) :: (← bindList s es))

def bindOption (s : Schema) : Option Expr → Except Fault (Option Expr)
  | none => .ok none
  | some e => do .ok (some (← e.bindColumns s))

end

def AggregateExpr.bindColumns (s : Schema) : AggregateExpr → Except Fault AggregateExpr
  | .count e d => do .ok (.count (← e.bindColumns s) d)
  | .sum e d => do .ok (.sum (← e.bindColumns s) d)
  | .min e d => do .ok (.min (← e.bindColumns s) d)
  | .max e d => do .ok (.max (← e.bindColumns s) d)
  | .avg e d => do .ok (.avg (← e.bindColumns s) d)

/-! ## Parameters -/

abbrev Params := String → Option DbValue

def PlanKey.resolve (params : Params) : PlanKey → Except Fault DbKey
  | .value key => .ok key
  | .parameter name => match params name with
    | none => fail (.unboundParameter name)
    | some (.int n) => .ok (.int n)
    | some (.string s) => .ok (.string s)
    | some (.date d) => .ok (.date d)
    | some (.time t) => .ok (.time t)
    | some (.timestamp t) => .ok (.timestamp t)
    | some (.decimal m s) => .ok (.decimal (decimalValue m s))
    | some _ => fail (.unsupportedKeyParameter name)

/-- Only integers and strings are taken in a bound. -/
def PlanKey.substituteParams (params : Params) : PlanKey → Except Fault PlanKey
  | .value key => .ok (.value key)
  | .parameter name => match params name with
    | none => fail (.unboundParameter name)
    | some (.int n) => .ok (.value (.int n))
    | some (.string s) => .ok (.value (.string s))
    | some _ => fail (.unsupportedKeyParameter name)

def substituteRange (params : Params) :
    Option (PlanKey × PlanKey) → Except Fault (Option (PlanKey × PlanKey))
  | none => .ok none
  | some (start, stop) => do
    .ok (some (← start.substituteParams params, ← stop.substituteParams params))

mutual

def Expr.substituteParams (params : Params) : Expr → Except Fault Expr
  | .parameter name => match params name with
    | some v => .ok (.literal v)
    | none => fail (.unboundParameter name)
  | .column name index => .ok (.column name index)
  | .literal v => .ok (.literal v)
  | .matchAgainst column index query => .ok (.matchAgainst column index query)
  | .binaryOp left op right => do
    .ok (.binaryOp (← left.substituteParams params) op (← right.substituteParams params))
  | .caseWhen operand conditions results elseResult => do
    .ok (.caseWhen (← substituteOption params operand) (← substituteList params conditions)
      (← substituteList params results) (← substituteOption params elseResult))
  | .function name args => do .ok (.function name (← substituteList params args))
  | .not inner => do .ok (.not (← inner.substituteParams params))
  | .isNull inner => do .ok (.isNull (← inner.substituteParams params))
  | .inList expr list => do
    .ok (.inList (← expr.substituteParams params) (← substituteList params list))
  | .scalarSubquery subquery => do .ok (.scalarSubquery (← subquery.substituteParams params))
  | .existsSubquery subquery negated => do
    .ok (.existsSubquery (← subquery.substituteParams params) negated)
  | .inSubquery expr subquery negated => do
    .ok (.inSubquery (← expr.substituteParams params) (← subquery.substituteParams params) negated)
  | .cast expr target => do .ok (.cast (← expr.substituteParams params) target)

def substituteList (params : Params) : List Expr → Except Fault (List Expr)
  | [] => .ok []
  | e :: es => do .ok ((← e.substituteParams params) :: (← substituteList params es))

def substituteOption (params : Params) : Option Expr → Except Fault (Option Expr)
  | none => .ok none
  | some e => do .ok (some (← e.substituteParams params))

def substituteKeys (params : Params) : List (Expr × Bool) → Except Fault (List (Expr × Bool))
  | [] => .ok []
  | (e, asc) :: es => do .ok ((← e.substituteParams params, asc) :: (← substituteKeys params es))

def AggregateExpr.substituteParams (params : Params) : AggregateExpr → Except Fault AggregateExpr
  | .count e d => do .ok (.count (← e.substituteParams params) d)
  | .sum e d => do .ok (.sum (← e.substituteParams params) d)
  | .min e d => do .ok (.min (← e.substituteParams params) d)
  | .max e d => do .ok (.max (← e.substituteParams params) d)
  | .avg e d => do .ok (.avg (← e.substituteParams params) d)

def substituteAggrs (params : Params) : List AggregateExpr → Except Fault (List AggregateExpr)
  | [] => .ok []
  | a :: as => do .ok ((← a.substituteParams params) :: (← substituteAggrs params as))

def LogicalPlan.substituteParams (params : Params) : LogicalPlan → Except Fault LogicalPlan
  | .scan tableName schema range => do .ok (.scan tableName schema (← substituteRange params range))
  | .indexScan tableName indexName schema range => do
    .ok (.indexScan tableName indexName schema (← substituteRange params range))
  | .fullTextScan tableName indexName schema query =>
    .ok (.fullTextScan tableName indexName schema query)
  | .filter source predicate => do
    .ok (.filter (← source.substituteParams params) (← predicate.substituteParams params))
  | .projection source expressions fieldNames schema => do
    .ok (.projection (← source.substituteParams params) (← substituteList params expressions)
      fieldNames schema)
  | .join left right condition joinType schema => do
    .ok (.join (← left.substituteParams params) (← right.substituteParams params)
      (← condition.substituteParams params) joinType schema)
  | .aggregate source groupBy aggrs fieldNames schema => do
    .ok (.aggregate (← source.substituteParams params) (← substituteList params groupBy)
      (← substituteAggrs params aggrs) fieldNames schema)
  | .sort source keys => do
    .ok (.sort (← source.substituteParams params) (← substituteKeys params keys))
  | .limit source lim offset => do
    .ok (.limit (← source.substituteParams params) (← substituteOption params lim)
      (← substituteOption params offset))
  | .distinct source => do .ok (.distinct (← source.substituteParams params))
  | .setOp left right op all => do
    .ok (.setOp (← left.substituteParams params) (← right.substituteParams params) op all)

end

/-! ## Columns referred to

The source collects a set; here it is a list, in the order of the walk. -/

mutual

def Expr.collectColumns : Expr → List String
  | .column name _ => [name]
  | .literal _ | .parameter _ => []
  | .binaryOp left _ right => left.collectColumns ++ right.collectColumns
  | .caseWhen operand conditions results elseResult =>
    collectOption operand ++ collectList conditions ++ collectList results ++ collectOption elseResult
  | .function _ args => collectList args
  | .not inner => inner.collectColumns
  | .isNull inner => inner.collectColumns
  | .inList expr list => expr.collectColumns ++ collectList list
  | .matchAgainst column _ _ => [column]
  | .scalarSubquery subquery => subquery.collectColumns
  | .existsSubquery subquery _ => subquery.collectColumns
  | .inSubquery expr subquery _ => expr.collectColumns ++ subquery.collectColumns
  | .cast expr _ => expr.collectColumns

def collectList : List Expr → List String
  | [] => []
  | e :: es => e.collectColumns ++ collectList es

def collectOption : Option Expr → List String
  | none => []
  | some e => e.collectColumns

def collectKeys : List (Expr × Bool) → List String
  | [] => []
  | (e, _) :: es => e.collectColumns ++ collectKeys es

def AggregateExpr.collectColumns : AggregateExpr → List String
  | .count e _ => e.collectColumns
  | .sum e _ => e.collectColumns
  | .min e _ => e.collectColumns
  | .max e _ => e.collectColumns
  | .avg e _ => e.collectColumns

def collectAggrs : List AggregateExpr → List String
  | [] => []
  | a :: as => a.collectColumns ++ collectAggrs as

/-- The counts of a limit are not looked into. -/
def LogicalPlan.collectColumns : LogicalPlan → List String
  | .scan .. | .indexScan .. | .fullTextScan .. => []
  | .filter source predicate => predicate.collectColumns ++ source.collectColumns
  | .projection source expressions _ _ => collectList expressions ++ source.collectColumns
  | .join left right condition _ _ =>
    condition.collectColumns ++ left.collectColumns ++ right.collectColumns
  | .aggregate source groupBy aggrs _ _ =>
    collectList groupBy ++ collectAggrs aggrs ++ source.collectColumns
  | .sort source keys => collectKeys keys ++ source.collectColumns
  | .limit source _ _ => source.collectColumns
  | .setOp left right _ _ => left.collectColumns ++ right.collectColumns
  | .distinct source => source.collectColumns

end

end Dtdb.Sql
