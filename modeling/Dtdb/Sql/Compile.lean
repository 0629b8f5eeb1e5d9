import Dtdb.Sql.Optimizer
import Dtdb.Sql.Physical

/-! # From logical to physical plans

`compile_physical` picks an operator for each node and binds column names to positions.  A limit
over a sort becomes a bounded heap if its counts are constants and small. -/

namespace Dtdb.Sql

open Dtdb.Storage Dtdb.Relational

def parentColsUnion (parentCols : Option (List String)) (extraCols : List String) :
    Option (List String) :=
  parentCols.map fun cols => (cols ++ extraCols).dedup

def isPlanSortedBy (plan : LogicalPlan) (groupBy : List Expr) : Bool :=
  match groupBy with
  | [.column groupCol _] => (getPlanSortKey plan).any fun sortCol => columnNamesMatch groupCol sortCol
  | _ => false

def topnMaxRows (memoryBudget : Nat) : Nat := max (memoryBudget / 128) 1

def resolveConstantCountExpr (lib : Library) (e : Expr) : Option Nat :=
  (resolveCountExpr lib (fun _ => none) e).toOption

/-- How many rows a limit needs of a sort, if known and small. -/
def fetchCount (lib : Library) (memoryBudget : Nat) (lim offset : Option Expr) : Option Nat := do
  let n ← lim.bind (resolveConstantCountExpr lib)
  let k := n + (offset.bind (resolveConstantCountExpr lib)).getD 0
  if 0 < k ∧ k ≤ topnMaxRows memoryBudget then some k else none

def bindKeys (s : Schema) : List (Expr × Bool) → Except Fault (List (Expr × Bool))
  | [] => .ok []
  | (e, asc) :: keys => do .ok ((← e.bindColumns s, asc) :: (← bindKeys s keys))

def bindAggrs (s : Schema) : List AggregateExpr → Except Fault (List AggregateExpr)
  | [] => .ok []
  | a :: as => do .ok ((← a.bindColumns s) :: (← bindAggrs s as))

/-- A sort over a compiled source, bounded if `fetch` says so. -/
def finishSort (keys : List (Expr × Bool)) (fetch : Option Nat) (source : PhysicalOperator) :
    Except Fault PhysicalOperator := do
  let keys ← bindKeys source.schema keys
  match fetch with
  | some k => .ok (.topN source keys k)
  | none => .ok (.sort source keys)

def schemaOnly (s : Schema) : LogicalPlan := .scan "" s none

/-- The join keys, each on the side its columns belong to. -/
def joinSides (ls rs : Schema) (l r : Expr) : Expr × Expr :=
  let within := fun (s : Schema) (e : Expr) => e.collectColumns.all (schemaContainsCol s)
  if within ls l && within rs r then (l, r)
  else if within ls r && within rs l then (r, l)
  else (l, r)

def finishJoin (condition : Expr) (joinType : JoinType) (left right : PhysicalOperator) :
    Except Fault PhysicalOperator :=
  let schema := (LogicalPlan.newJoin (schemaOnly left.schema) (schemaOnly right.schema) condition
    joinType).schema
  if joinType = .cross then .ok (.crossJoin left right schema)
  else match condition with
    | .binaryOp l .eq r => do
      let (leftOn, rightOn) := joinSides left.schema right.schema l r
      let leftOn ← leftOn.bindColumns left.schema
      let rightOn ← rightOn.bindColumns right.schema
      .ok (.sortMergeJoin left right leftOn rightOn joinType schema)
    | _ => fail .joinCondition

def sideColumns (s : Schema) (columns : Option (List String)) (condition : Expr) :
    Option (List String) :=
  columns.map fun cols => ((cols ++ condition.collectColumns).dedup).filter (schemaContainsCol s)

def compilePhysical (lib : Library) (memoryBudget : Nat) :
    LogicalPlan → Option (List String) → Except Fault PhysicalOperator
  | .scan tableName schema range, columns => .ok (.seqScan schema tableName columns range)
  | .indexScan tableName indexName schema range, columns =>
    .ok (.indexScan schema tableName indexName range columns)
  | .fullTextScan tableName indexName schema query, columns =>
    .ok (.fullTextScan schema tableName indexName query columns)
  | .filter source predicate, columns => do
    let src ← compilePhysical lib memoryBudget source
      (parentColsUnion columns predicate.collectColumns)
    .ok (.filter src (← predicate.bindColumns src.schema))
  | .projection source expressions fieldNames _, _ => do
    let src ← compilePhysical lib memoryBudget source (some (collectList expressions).dedup)
    let expressions ← bindList src.schema expressions
    .ok (.projection src expressions
      (LogicalPlan.newProjection lib (schemaOnly src.schema) expressions fieldNames).schema)
  | .limit (.sort source keys) lim offset, columns => do
    let src ← compilePhysical lib memoryBudget source (parentColsUnion columns (collectKeys keys))
    .ok (.limit (← finishSort keys (fetchCount lib memoryBudget lim offset) src) lim offset)
  | .limit source lim offset, columns => do
    .ok (.limit (← compilePhysical lib memoryBudget source columns) lim offset)
  | .sort source keys, columns => do
    let src ← compilePhysical lib memoryBudget source (parentColsUnion columns (collectKeys keys))
    finishSort keys none src
  | .join left right condition joinType _, columns => do
    let l ← compilePhysical lib memoryBudget left (sideColumns left.schema columns condition)
    let r ← compilePhysical lib memoryBudget right (sideColumns right.schema columns condition)
    finishJoin condition joinType l r
  | .aggregate source groupBy aggrs fieldNames _, _ => do
    let src ← compilePhysical lib memoryBudget source
      (some (collectList groupBy ++ collectAggrs aggrs).dedup)
    let keys ← bindList src.schema groupBy
    let accs ← bindAggrs src.schema aggrs
    let schema := (LogicalPlan.newAggregate (schemaOnly src.schema) keys accs fieldNames).schema
    if isPlanSortedBy source groupBy then .ok (.sortedAggregate src keys accs schema)
    else .ok (.hashAggregate src keys accs schema)
  | .setOp left right op all, columns => do
    let l ← compilePhysical lib memoryBudget left columns
    let r ← compilePhysical lib memoryBudget right columns
    .ok (.setOp l r op all l.schema)
  | .distinct source, columns => do
    .ok (.distinct (← compilePhysical lib memoryBudget source columns))

end Dtdb.Sql
