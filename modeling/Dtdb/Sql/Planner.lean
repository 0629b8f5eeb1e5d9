import Dtdb.Sql.Plan

/-! # The planner

The tree of a parsed query, and the logical plan that is made of it.  What the planner makes of an
expression is given.  Table names are looked up in the CTEs in scope first. -/

namespace Dtdb.Sql

open Dtdb.Storage Dtdb.Relational

/-! ## Parsed queries -/

structure TableAlias where
  name : String
  columns : List String

inductive SelectItem (X : Type) where
  | unnamedExpr (expr : X)
  | exprWithAlias (expr : X) (name : String)
  | wildcard
  | other

inductive GroupByExpr (X : Type) where
  | expressions (exprs : List X) (modifiers : Bool)
  | all

/-- An ORDER BY; a key without a direction is ascending. -/
inductive OrderBy (X : Type) where
  | expressions (keys : List (X × Option Bool))
  | all

/-- LIMIT and OFFSET, in either spelling. -/
structure LimitClause (X : Type) where
  limit : Option X
  offset : Option X

inductive JoinConstraint (X : Type) where
  | on (expr : X)
  | none
  | other

inductive JoinOperator (X : Type) where
  | join (constraint : JoinConstraint X)
  | inner (constraint : JoinConstraint X)
  | left (constraint : JoinConstraint X)
  | leftOuter (constraint : JoinConstraint X)
  | crossJoin (constraint : JoinConstraint X)
  | other

inductive SetOperator where
  | union
  | except
  | intersect
  | minus

inductive SetQuantifier where
  | all
  | distinct
  | byName
  | allByName
  | distinctByName
  | none
deriving DecidableEq

mutual

/-- A query; without a WITH clause there are no CTEs. -/
inductive Query (X : Type) where
  | mk (recursive : Bool) (ctes : List (Cte X)) (body : SetExpr X) (orderBy : OrderBy X)
      (limit : LimitClause X)

inductive Cte (X : Type) where
  | mk (tableAlias : TableAlias) (query : Query X)

inductive SetExpr (X : Type) where
  | select (select : Select X)
  | query (query : Query X)
  | setOperation (op : SetOperator) (quantifier : SetQuantifier) (left right : SetExpr X)
  | other

inductive Select (X : Type) where
  | mk (distinct : Bool) (projection : List (SelectItem X)) (tables : List (TableWithJoins X))
      (selection : Option X) (groupBy : GroupByExpr X) (having : Option X)

inductive TableWithJoins (X : Type) where
  | mk (relation : TableFactor X) (joins : List (Join X))

inductive Join (X : Type) where
  | mk (relation : TableFactor X) (operator : JoinOperator X)

inductive TableFactor (X : Type) where
  | table (name : String) (tableAlias : Option TableAlias)
  | derived (lateral : Bool) (subquery : Query X) (tableAlias : Option TableAlias)
  | other

end

/-! ## Errors -/

/-- The errors of the planner; those of expressions as their texts. -/
inductive PlanError where
  | expression (message : String)
  | noFrom
  | tableNotFound (name : String)
  | unsupportedTableFactor
  | unsupportedJoin
  | unsupportedSetExpr
  | unsupportedSelectItem
  | wildcardInAggregation
  | groupByModifiers
  | groupByAll
  | orderByAll
  | lateral
  | derivedWithoutAlias
  | recursiveCte
  | duplicateCte (name : String)
  | aliasCount (what name : String) (columns aliases : Nat)
  | correlated (column : String)
  | setOpColumnCount (left right : Nat)
  | setOpColumnType (column : Nat) (left right : DataType)

/-- The CTEs in scope, innermost first, and those under way. -/
structure Scope where
  ctes : List (List (String × LogicalPlan))
  planning : List String

namespace Scope

def empty : Scope := ⟨[], []⟩

def lookupCte (scope : Scope) (name : String) : Option LogicalPlan :=
  scope.ctes.findSome? fun ctes => ctes.lookup name

def enter (scope : Scope) : Scope := { scope with ctes := [] :: scope.ctes }

def insert (scope : Scope) (name : String) (plan : LogicalPlan) : Scope :=
  match scope.ctes with
  | [] => scope
  | ctes :: outer => { scope with ctes := ((name, plan) :: ctes) :: outer }

end Scope

/-- What the planner knows: the schemas of the database, and what becomes of expressions. -/
structure Planner (X : Type) where
  lib : Library
  schemas : String → Option Schema
  planExpr : Scope → X → Except PlanError Expr
  hasAggregateFunction : X → Bool
  /-- The aggregates of an expression are added to those found before. -/
  rewriteHavingExpr : Scope → X → List AggregateExpr × List String →
    Except PlanError (X × List AggregateExpr × List String)
  text : X → String

/-! ## Correlation -/

mutual

/-- `collect_local_columns`: subqueries are not looked into. -/
def Expr.collectLocalColumns : Expr → List String
  | .column name _ => [name]
  | .matchAgainst column _ _ => [column]
  | .literal _ | .parameter _ => []
  | .binaryOp left _ right => left.collectLocalColumns ++ right.collectLocalColumns
  | .not inner => inner.collectLocalColumns
  | .isNull inner => inner.collectLocalColumns
  | .caseWhen operand conditions results elseResult => localOption operand ++
      localList conditions ++ localList results ++ localOption elseResult
  | .function _ args => localList args
  | .inList expr list => expr.collectLocalColumns ++ localList list
  | .scalarSubquery _ | .existsSubquery .. => []
  | .inSubquery expr _ _ => expr.collectLocalColumns
  | .cast expr _ => expr.collectLocalColumns

def localList : List Expr → List String
  | [] => []
  | e :: es => e.collectLocalColumns ++ localList es

def localOption : Option Expr → List String
  | none => []
  | some e => e.collectLocalColumns

end

def checkExprResolves (s : Schema) (e : Expr) : Except PlanError Unit :=
  match e.collectLocalColumns.find? fun name => !s.columns.any fun c => c.matchesName name with
  | some name => .error (.correlated name)
  | none => .ok ()

def rejectIfCorrelated : LogicalPlan → Except PlanError Unit
  | .scan .. | .indexScan .. | .fullTextScan .. => .ok ()
  | .filter source predicate => do
    checkExprResolves source.schema predicate
    rejectIfCorrelated source
  | .projection source expressions _ _ => do
    expressions.forM (checkExprResolves source.schema)
    rejectIfCorrelated source
  | .join left right condition _ schema => do
    checkExprResolves schema condition
    rejectIfCorrelated left
    rejectIfCorrelated right
  | .aggregate source groupBy aggrs _ _ => do
    groupBy.forM (checkExprResolves source.schema)
    aggrs.forM fun a => checkExprResolves source.schema a.expr
    rejectIfCorrelated source
  | .sort source keys => do
    keys.forM fun k => checkExprResolves source.schema k.1
    rejectIfCorrelated source
  | .limit source _ _ => rejectIfCorrelated source
  | .distinct source => rejectIfCorrelated source
  | .setOp left right _ _ => do
    rejectIfCorrelated left
    rejectIfCorrelated right

/-! ## Relations under a name -/

def lastPart (name : String) : String :=
  String.ofList (name.toList.reverse.takeWhile (· ≠ '.')).reverse

def renamed (lib : Library) (plan : LogicalPlan) (names : List String) : LogicalPlan :=
  .newProjection lib plan (plan.schema.columns.zipIdx.map fun x => .column x.1.name (some x.2)) names

def qualifiedProjection (lib : Library) (plan : LogicalPlan) (qualifier : String)
    (colAliases : List String) (what : String) : Except PlanError LogicalPlan :=
  if !colAliases.isEmpty && colAliases.length ≠ plan.schema.columns.length then
    .error (.aliasCount what qualifier plan.schema.columns.length colAliases.length)
  else
    let bases := if colAliases.isEmpty then plan.schema.columns.map fun c => lastPart c.name
      else colAliases
    .ok (renamed lib plan (bases.map fun base => qualifier ++ "." ++ base))

/-- Columns carry the qualifier, indexes do not. -/
def qualifiedSchema (qualifier : String) (s : Schema) : Schema :=
  { Schema.new (s.columns.map fun c => { c with name := qualifier ++ "." ++ c.name }) with
    indexes := s.indexes }

/-- The plan of a CTE under the columns of its alias. -/
def aliasedCte (lib : Library) (tableAlias : TableAlias) (plan : LogicalPlan) :
    Except PlanError LogicalPlan :=
  if tableAlias.columns.isEmpty then .ok plan
  else if tableAlias.columns.length ≠ plan.schema.columns.length then
    .error (.aliasCount "CTE" tableAlias.name plan.schema.columns.length tableAlias.columns.length)
  else .ok (renamed lib plan tableAlias.columns)

def validateSetOpSchemas (left right : Schema) : Except PlanError Unit :=
  if left.columns.length ≠ right.columns.length then
    .error (.setOpColumnCount left.columns.length right.columns.length)
  else
    match (left.columns.zip right.columns).zipIdx.find? fun x => x.1.1.dataType ≠ x.1.2.dataType with
    | some x => .error (.setOpColumnType (x.2 + 1) x.1.1.dataType x.1.2.dataType)
    | none => .ok ()

def SetOperator.type : SetOperator → SetOpType
  | .union => .union
  | .except => .except
  | .intersect => .intersect
  | .minus => .except

namespace Planner

variable {X : Type} (p : Planner X)

/-! ## Clauses -/

def planExprs (scope : Scope) (es : List X) : Except PlanError (List Expr) := es.mapM (p.planExpr scope)

def planOption (scope : Scope) : Option X → Except PlanError (Option Expr)
  | none => .ok none
  | some e => do .ok (some (← p.planExpr scope e))

def planKeys (scope : Scope) (keys : List (X × Option Bool)) : Except PlanError (List (Expr × Bool)) :=
  keys.mapM fun k => do .ok (← p.planExpr scope k.1, k.2.getD true)

def planFilter (scope : Scope) (plan : LogicalPlan) : Option X → Except PlanError LogicalPlan
  | none => .ok plan
  | some e => do .ok (.filter plan (← p.planExpr scope e))

def sortBy (plan : LogicalPlan) (keys : List (Expr × Bool)) : LogicalPlan :=
  if keys.isEmpty then plan else .sort plan keys

/-- `plan_limit_clause`, and the limit if there is one. -/
def planLimit (scope : Scope) (limit : LimitClause X) (plan : LogicalPlan) :
    Except PlanError LogicalPlan := do
  let lim ← p.planOption scope limit.limit
  let offset ← p.planOption scope limit.offset
  if lim.isSome || offset.isSome then .ok (.limit plan lim offset) else .ok plan

def fieldName (e : X) : Expr → String
  | .column name _ => name
  | _ => p.text e

def planItem (scope : Scope) (source : Schema) :
    SelectItem X → Except PlanError (List (Expr × String))
  | .unnamedExpr e => do
    let planned ← p.planExpr scope e
    .ok [(planned, p.fieldName e planned)]
  | .exprWithAlias e name => do .ok [(← p.planExpr scope e, name)]
  | .wildcard => .ok (source.columns.map fun c => (.column c.name none, c.name))
  | .other => .error .unsupportedSelectItem

def planProjection (scope : Scope) (items : List (SelectItem X)) (plan : LogicalPlan) :
    Except PlanError LogicalPlan := do
  let fields ← items.mapM (p.planItem scope plan.schema)
  .ok (.newProjection p.lib plan (fields.flatten.map Prod.fst) (fields.flatten.map Prod.snd))

def rewriteItem (scope : Scope) (found : List AggregateExpr × List String) :
    SelectItem X → Except PlanError (SelectItem X × List AggregateExpr × List String)
  | .unnamedExpr e => do
    let (e, found) ← p.rewriteHavingExpr scope e found
    .ok (.unnamedExpr e, found)
  | .exprWithAlias e name => do
    let (e, found) ← p.rewriteHavingExpr scope e found
    .ok (.exprWithAlias e name, found)
  | .wildcard => .error .wildcardInAggregation
  | .other => .error .unsupportedSelectItem

def rewriteItems (scope : Scope) : List AggregateExpr × List String → List (SelectItem X) →
    Except PlanError (List (SelectItem X) × List AggregateExpr × List String)
  | found, [] => .ok ([], found)
  | found, item :: items => do
    let (item, found) ← p.rewriteItem scope found item
    let (items, found) ← rewriteItems scope found items
    .ok (item :: items, found)

def planHaving (scope : Scope) (found : List AggregateExpr × List String) :
    Option X → Except PlanError (Option Expr × List AggregateExpr × List String)
  | none => .ok (none, found)
  | some e => do
    let (e, found) ← p.rewriteHavingExpr scope e found
    .ok (some (← p.planExpr scope e), found)

def groupField : Expr → String
  | .column name _ => name
  | _ => "group_key"

/-- A SELECT with grouping, over its FROM and WHERE. -/
def planAggregate (scope : Scope) (projection : List (SelectItem X)) (groupBy : List X)
    (having : Option X) (orderBy : List (X × Option Bool)) (plan : LogicalPlan) :
    Except PlanError LogicalPlan := do
  let groups ← p.planExprs scope groupBy
  let (items, found) ← p.rewriteItems scope ([], groups.map groupField) projection
  let (predicate, aggrs, fieldNames) ← p.planHaving scope found having
  let plan := LogicalPlan.newAggregate plan groups aggrs fieldNames
  let plan := match predicate with
    | some predicate => .filter plan predicate
    | none => plan
  let plan ← p.planProjection scope items plan
  .ok (sortBy plan (← p.planKeys scope orderBy))

def groupKeys : GroupByExpr X → Except PlanError (List X)
  | .expressions exprs modifiers => if modifiers then .error .groupByModifiers else .ok exprs
  | .all => .error .groupByAll

def selectItemsHaveAggrs (items : List (SelectItem X)) : Bool :=
  items.any fun item => match item with
    | .unnamedExpr e => p.hasAggregateFunction e
    | .exprWithAlias e _ => p.hasAggregateFunction e
    | _ => false

/-- `plan_select_internal`, after the FROM clause. -/
def planSelectOver (scope : Scope) (projection : List (SelectItem X)) (selection : Option X)
    (groupBy : GroupByExpr X) (having : Option X) (orderBy : List (X × Option Bool))
    (plan : LogicalPlan) : Except PlanError LogicalPlan := do
  let plan ← p.planFilter scope plan selection
  let groups ← groupKeys groupBy
  if !groups.isEmpty || p.selectItemsHaveAggrs projection || having.isSome then
    p.planAggregate scope projection groups having orderBy plan
  else
    -- a sort without grouping is placed below the projection
    p.planProjection scope projection (sortBy plan (← p.planKeys scope orderBy))

def planJoinOperator (scope : Scope) : JoinOperator X → Except PlanError (Expr × JoinType)
  | .inner (.on e) | .join (.on e) => do .ok (← p.planExpr scope e, .inner)
  | .leftOuter (.on e) | .left (.on e) => do .ok (← p.planExpr scope e, .left)
  | .crossJoin _ => .ok (.literal (.int ⟨1, by decide⟩), .cross)
  | .inner .none | .join .none => .ok (.literal (.int ⟨1, by decide⟩), .cross)
  | _ => .error .unsupportedJoin

def orderKeys : OrderBy X → Except PlanError (List (X × Option Bool))
  | .expressions keys => .ok keys
  | .all => .error .orderByAll

/-! ## Queries -/

mutual

def planQuery (scope : Scope) : Query X → Except PlanError LogicalPlan
  | .mk recursive ctes body orderBy limit => do
    if recursive then .error .recursiveCte
    else
      let scope ← planCtes (if ctes.isEmpty then scope else scope.enter) ctes
      match body with
      | .select (.mk distinct projection tables selection groupBy having) => do
        -- `plan_select_query`
        let keys ← orderKeys orderBy
        let plan ← planFrom scope tables
        let plan ← p.planSelectOver scope projection selection groupBy having keys plan
        p.planLimit scope limit (if distinct then .distinct plan else plan)
      | body => do
        let plan ← planSetExpr scope body
        let keys ← p.planKeys scope (← orderKeys orderBy)
        p.planLimit scope limit (sortBy plan keys)

/-- `plan_with_clause`: each CTE is in scope for the next ones. -/
def planCtes (scope : Scope) : List (Cte X) → Except PlanError Scope
  | [] => .ok scope
  | .mk tableAlias query :: ctes => do
    if (scope.ctes.head?.bind fun inner => inner.lookup tableAlias.name).isSome then
      .error (.duplicateCte tableAlias.name)
    else
      let plan ← planQuery { scope with planning := tableAlias.name :: scope.planning } query
      planCtes (scope.insert tableAlias.name (← aliasedCte p.lib tableAlias plan)) ctes

/-- A SELECT here has no ORDER BY of its own. -/
def planSetExpr (scope : Scope) : SetExpr X → Except PlanError LogicalPlan
  | .select (.mk _ projection tables selection groupBy having) => do
    let plan ← planFrom scope tables
    p.planSelectOver scope projection selection groupBy having [] plan
  | .query query => planQuery scope query
  | .setOperation op quantifier left right => do
    let left ← planSetExpr scope left
    let right ← planSetExpr scope right
    validateSetOpSchemas left.schema right.schema
    .ok (.setOp left right op.type (quantifier = .all))
  | .other => .error .unsupportedSetExpr

/-- `plan_from` and the joins: those of the first item. -/
def planFrom (scope : Scope) : List (TableWithJoins X) → Except PlanError LogicalPlan
  | [] => .error .noFrom
  | .mk relation joins :: _ => do
    let plan ← planTableFactor scope relation
    planJoins scope plan joins

def planJoins (scope : Scope) (plan : LogicalPlan) : List (Join X) → Except PlanError LogicalPlan
  | [] => .ok plan
  | .mk relation operator :: joins => do
    let right ← planTableFactor scope relation
    let (condition, joinType) ← p.planJoinOperator scope operator
    planJoins scope (.newJoin plan right condition joinType) joins

def planTableFactor (scope : Scope) : TableFactor X → Except PlanError LogicalPlan
  | .table name tableAlias =>
    let qualifier := (tableAlias.map TableAlias.name).getD name
    match scope.lookupCte name with
    | some plan =>
      qualifiedProjection p.lib plan qualifier ((tableAlias.map TableAlias.columns).getD []) "CTE"
    | none => match p.schemas name with
      | some s => .ok (.scan name (qualifiedSchema qualifier s) none)
      | none => .error (if name ∈ scope.planning then .recursiveCte else .tableNotFound name)
  | .derived lateral subquery tableAlias =>
    if lateral then .error .lateral
    else match tableAlias with
      | none => .error .derivedWithoutAlias
      | some tableAlias => do
        let inner ← planQuery scope subquery
        rejectIfCorrelated inner
        qualifiedProjection p.lib inner tableAlias.name tableAlias.columns "derived table"
  | .other => .error .unsupportedTableFactor

end

end Planner

end Dtdb.Sql
