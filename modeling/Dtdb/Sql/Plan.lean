import Dtdb.Sql.Expr

/-! # Schemas of logical plans

The output columns of a plan, and the constructors that work them out.  Output columns are nullable
and belong to no group; their types are inferred from the expressions behind them.
-/

namespace Dtdb.Sql

open Dtdb.Storage Dtdb.Relational

def typeOfValue : DbValue → DataType
  | .int _ => .int
  | .float _ => .float
  | .string _ => .string
  | .bytes _ => .bytes
  | .bool _ => .bool
  | .null => .null
  | .date _ => .date
  | .time _ => .time
  | .timestamp _ => .timestamp
  | .decimal .. => .decimal

def LogicalPlan.schema : LogicalPlan → Schema
  | .scan _ schema _ => schema
  | .indexScan _ _ schema _ => schema
  | .fullTextScan _ _ schema _ => schema
  | .filter source _ => source.schema
  | .projection _ _ _ schema => schema
  | .join _ _ _ _ schema => schema
  | .aggregate _ _ _ _ schema => schema
  | .sort source _ => source.schema
  | .limit source _ _ => source.schema
  | .setOp left _ _ _ => left.schema
  | .distinct source => source.schema

def columnType (s : Schema) (name : String) : Option DataType :=
  (s.columns.find? fun c => c.matchesName name).map Column.dataType

mutual

def inferExprType (lib : Library) (s : Schema) : Expr → DataType
  | .literal v => typeOfValue v
  | .column name _ => (columnType s name).getD .string
  | .binaryOp left op _ =>
    if op = .add ∨ op = .sub ∨ op = .mul ∨ op = .div then inferExprType lib s left else .int
  | .caseWhen _ _ results elseResult =>
    (inferFirst lib s results).getD ((inferOption lib s elseResult).getD .int)
  | .function name args => match lib.toUppercase name with
    | "LENGTH" => .int
    | "SUBSTR" | "SUBSTRING" => .string
    | "COALESCE" => (inferFirst lib s args).getD .int
    | _ => .string
  | .not _ | .isNull _ | .inList .. => .int
  | .matchAgainst .. => .bool
  | .scalarSubquery subquery => (subquery.schema.columns.head?.map Column.dataType).getD .null
  | .inSubquery .. => .int
  | .existsSubquery .. => .bool
  | .parameter _ => .null
  | .cast _ target => target

def inferFirst (lib : Library) (s : Schema) : List Expr → Option DataType
  | [] => none
  | e :: _ => some (inferExprType lib s e)

def inferOption (lib : Library) (s : Schema) : Option Expr → Option DataType
  | none => none
  | some e => some (inferExprType lib s e)

end

def outputColumn (name : String) (dataType : DataType) : Column where
  id := 0
  name := name
  dataType := dataType
  isPrimaryKey := false
  isNullable := true
  localityGroup := none
  defaultValue := none

namespace LogicalPlan

def newProjection (lib : Library) (source : LogicalPlan) (expressions : List Expr)
    (fieldNames : List String) : LogicalPlan :=
  .projection source expressions fieldNames (.new ((fieldNames.zip expressions).map fun x =>
    outputColumn x.1 (inferExprType lib source.schema x.2)))

def newJoin (left right : LogicalPlan) (condition : Expr) (joinType : JoinType) : LogicalPlan :=
  .join left right condition joinType (.new (left.schema.columns ++ right.schema.columns))

/-- The type of a column, or another one for any other expression. -/
def columnTypeOr (s : Schema) (other : DataType) : Expr → DataType
  | .column name _ => (columnType s name).getD other
  | _ => other

def aggregateType (s : Schema) : AggregateExpr → DataType
  | .count .. => .int
  | .avg e _ => if columnTypeOr s .float e = .decimal then .decimal else .float
  | .sum e _ | .min e _ | .max e _ => columnTypeOr s .float e

def newAggregate (source : LogicalPlan) (groupBy : List Expr) (aggrs : List AggregateExpr)
    (fieldNames : List String) : LogicalPlan :=
  let types := groupBy.map (columnTypeOr source.schema .string) ++
    aggrs.map (aggregateType source.schema)
  .aggregate source groupBy aggrs fieldNames (.new ((fieldNames.zip types).map fun x =>
    outputColumn x.1 x.2))

end LogicalPlan

end Dtdb.Sql
