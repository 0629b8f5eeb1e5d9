import Dtdb.Sql.Cost

/-! # The optimizer

Predicates are pushed down to the scans, where the cheapest access path is chosen; the smaller side
of an inner join moves to the right; limits go below projections; needless sorts are dropped. -/

namespace Dtdb.Sql

open Dtdb.Storage Dtdb.Relational

abbrev Statistics := String → Option TableStatistics

structure Optimizer where
  lib : Library
  stats : Statistics

/-! ## Conjunctions -/

def splitConjuncts : Expr → List Expr
  | .binaryOp left .and right => splitConjuncts left ++ splitConjuncts right
  | e => [e]

def combineConjuncts : List Expr → Option Expr
  | [] => none
  | e :: es => some (es.foldl (fun acc e => .binaryOp acc .and e) e)

def filterBy (plan : LogicalPlan) (conjuncts : List Expr) : LogicalPlan :=
  match combineConjuncts conjuncts with
  | some predicate => .filter plan predicate
  | none => plan

def schemaContainsCol (s : Schema) (name : String) : Bool :=
  s.columns.any fun c => columnNamesMatch c.name name

/-! ## Access paths -/

def hasMatchPredicateForCol (colName : String) : Expr → Bool
  | .matchAgainst column _ _ => columnNamesMatch column colName
  | .binaryOp left .and right =>
    hasMatchPredicateForCol colName left || hasMatchPredicateForCol colName right
  | .not inner => hasMatchPredicateForCol colName inner
  | _ => false

def extractFulltextQueryStrForCol (colName : String) : Expr → Option String
  | .matchAgainst column _ query => if columnNamesMatch column colName then some query else none
  | .binaryOp left .and right => (extractFulltextQueryStrForCol colName left).or
      (extractFulltextQueryStrForCol colName right)
  | .not inner => extractFulltextQueryStrForCol colName inner
  | _ => none

def extractLikePatternForCol (colName : String) : Expr → Option String
  | .binaryOp (.column name _) .like (.literal (.string pattern)) =>
    if columnNamesMatch name colName then some pattern else none
  | .binaryOp left .and right => (extractLikePatternForCol colName left).or
      (extractLikePatternForCol colName right)
  | _ => none

namespace Optimizer

variable (o : Optimizer)

/-- `try_trigram_like_plan`, with its cost. -/
def tryTrigramLikePlan (tableName : String) (s : Schema) (idx : IndexDefinition) (colName : String)
    (predicate : Expr) (queryColumns : List String) : Option (ℚ × LogicalPlan) := do
  let st ← o.stats tableName
  let idxStats ← st.indexStats idx.name
  let pattern ← extractLikePatternForCol colName predicate
  let required ← o.lib.planLike (idx.tokenizer.getD "simple") pattern
  let lengths := required.map fun token => idxStats.postingLenUpperBound [.string token]
  let candidates : ℚ := nearest ((lengths.min?).getD st.rowCount)
  if required.isEmpty then none
  else
    let indexIo := max (fmul (nearest lengths.sum) 16) 10
    let cost := fadd (fadd indexIo (fetchCost s st queryColumns candidates))
      (fmul candidates (nearest (1 / 10)))
    some (cost, .fullTextScan tableName idx.name s (.allTokens required))

def indexPath (tableName : String) (s : Schema) (predicate : Expr) (queryColumns : List String)
    (idx : IndexDefinition) : Option (ℚ × LogicalPlan) := do
  let name ← idx.columns.head?
  let col ← s.columns.find? fun c => c.matchesName name
  if idx.indexType = .fullText then
    if hasMatchPredicateForCol col.name predicate then
      let query ← extractFulltextQueryStrForCol col.name predicate
      some (5, .fullTextScan tableName idx.name s (.matchQuery query))
    else o.tryTrigramLikePlan tableName s idx col.name predicate queryColumns
  else if hasMatchPredicateForCol col.name predicate then none
  else
    let range ← extractBoundsForColumn col.name col.dataType predicate
    some (estimateIndexScanCost idx.name s (o.stats tableName) range queryColumns,
      .indexScan tableName idx.name s (some range))

def keyPath (tableName : String) (s : Schema) (predicate : Expr) (queryColumns : List String) :
    Option (ℚ × LogicalPlan) := do
  let range ← extractKeyRange predicate s
  some (estimateScanCost s (o.stats tableName) (some range) queryColumns,
    .scan tableName s (some range))

def paths (tableName : String) (s : Schema) (predicate : Expr) (queryColumns : List String) :
    List (ℚ × LogicalPlan) :=
  (o.keyPath tableName s predicate queryColumns).toList ++
    s.indexes.filterMap (o.indexPath tableName s predicate queryColumns)

/-- `select_best_scan_path`: the first of the cheapest. -/
def selectBestScanPath (tableName : String) (s : Schema) (predicate : Expr)
    (queryColumns : List String) : LogicalPlan :=
  ((o.paths tableName s predicate queryColumns).foldl (fun best p => if p.1 < best.1 then p else best)
    (estimateScanCost s (o.stats tableName) none queryColumns, .scan tableName s none)).2

def pushIntoLeaf (tableName : String) (s : Schema) (leaf : LogicalPlan) (conjuncts : List Expr)
    (queryColumns : List String) : LogicalPlan :=
  match combineConjuncts conjuncts with
  | some predicate =>
    .filter (o.selectBestScanPath tableName s predicate queryColumns) predicate
  | none => leaf

/-! ## Predicates -/

/-- Where a conjunct above a join goes. -/
inductive Side where
  | left
  | right
  | above
deriving DecidableEq

def sideOf (ls rs : Schema) (joinType : JoinType) (e : Expr) : Side :=
  let cols := e.collectColumns
  if cols.isEmpty then .above
  else if cols.all (schemaContainsCol ls) then .left
  else if cols.all (schemaContainsCol rs) && (joinType = .inner || joinType = .cross) then .right
  else .above

def pushDownPredicate (queryColumns : List String) : LogicalPlan → List Expr → LogicalPlan
  | .filter source predicate, conjuncts =>
    pushDownPredicate queryColumns source (conjuncts ++ splitConjuncts predicate)
  | .join left right condition joinType _, conjuncts =>
    let side := sideOf left.schema right.schema joinType
    filterBy (.newJoin
      (pushDownPredicate queryColumns left (conjuncts.filter fun e => side e = .left))
      (pushDownPredicate queryColumns right (conjuncts.filter fun e => side e = .right))
      condition joinType) (conjuncts.filter fun e => side e = .above)
  | .projection source expressions fieldNames _, conjuncts =>
    filterBy (.newProjection o.lib (pushDownPredicate queryColumns source []) expressions fieldNames)
      conjuncts
  | .aggregate source groupBy aggrs fieldNames _, conjuncts =>
    filterBy (.newAggregate (pushDownPredicate queryColumns source []) groupBy aggrs fieldNames)
      conjuncts
  | .sort source keys, conjuncts => .sort (pushDownPredicate queryColumns source conjuncts) keys
  | .distinct source, conjuncts => .distinct (pushDownPredicate queryColumns source conjuncts)
  | .limit source lim offset, conjuncts =>
    filterBy (.limit (pushDownPredicate queryColumns source []) lim offset) conjuncts
  | .setOp left right op all, conjuncts =>
    filterBy (.setOp (pushDownPredicate queryColumns left []) (pushDownPredicate queryColumns right [])
      op all) conjuncts
  | .scan tableName s range, conjuncts =>
    o.pushIntoLeaf tableName s (.scan tableName s range) conjuncts queryColumns
  | .indexScan tableName indexName s range, conjuncts =>
    o.pushIntoLeaf tableName s (.indexScan tableName indexName s range) conjuncts queryColumns
  | .fullTextScan tableName indexName s query, conjuncts =>
    o.pushIntoLeaf tableName s (.fullTextScan tableName indexName s query) conjuncts queryColumns

/-! ## Joins -/

def scaled (factor : ℚ) (n : Nat) : Nat := ⌊fmul (nearest n) (nearest factor)⌋.toNat

/-- The rows of a table, 1000 if it was never analyzed. -/
def tableRows (tableName : String) : Nat := ((o.stats tableName).map (·.rowCount)).getD 1000

def estimatePlanRows : LogicalPlan → Nat
  | .scan tableName _ range => if range.isSome then scaled (1 / 10) (o.tableRows tableName)
      else o.tableRows tableName
  | .indexScan tableName _ _ range => if range.isSome then scaled (1 / 10) (o.tableRows tableName)
      else o.tableRows tableName
  | .fullTextScan tableName _ _ _ => scaled (5 / 100) (o.tableRows tableName)
  | .filter source _ => scaled (2 / 10) (estimatePlanRows source)
  | .projection source _ _ _ => estimatePlanRows source
  | .join left right _ joinType _ => match joinType with
    | .inner => min (estimatePlanRows left) (estimatePlanRows right)
    | .left => estimatePlanRows left
    | .cross => estimatePlanRows left * estimatePlanRows right
  | .aggregate source groupBy _ _ _ =>
    if groupBy.isEmpty then 1 else scaled (1 / 10) (estimatePlanRows source)
  | .sort source _ => estimatePlanRows source
  | .limit source _ _ => estimatePlanRows source
  | .distinct source => scaled (8 / 10) (estimatePlanRows source)
  | .setOp left right op _ => match op with
    | .union => estimatePlanRows left + estimatePlanRows right
    | .intersect => min (estimatePlanRows left) (estimatePlanRows right)
    | .except => estimatePlanRows left

def swapJoinCondition : Expr → Expr
  | .binaryOp left op right => .binaryOp right (match op with
      | .lt => .gt
      | .ltEq => .gtEq
      | .gt => .lt
      | .gtEq => .ltEq
      | op => op) left
  | e => e

/-- A swapped join is projected back to the order of its columns. -/
def orderedJoin (left right : LogicalPlan) (condition : Expr) (joinType : JoinType) : LogicalPlan :=
  if joinType = .inner ∧ o.estimatePlanRows left < o.estimatePlanRows right then
    let columns := (LogicalPlan.newJoin left right condition joinType).schema.columns
    .newProjection o.lib (.newJoin right left (swapJoinCondition condition) joinType)
      (columns.map fun c => .column c.name none) (columns.map Column.name)
  else .newJoin left right condition joinType

def optimizeJoinOrder : LogicalPlan → LogicalPlan
  | .join left right condition joinType _ =>
    o.orderedJoin (optimizeJoinOrder left) (optimizeJoinOrder right) condition joinType
  | .filter source predicate => .filter (optimizeJoinOrder source) predicate
  | .projection source expressions fieldNames _ =>
    .newProjection o.lib (optimizeJoinOrder source) expressions fieldNames
  | .aggregate source groupBy aggrs fieldNames _ =>
    .newAggregate (optimizeJoinOrder source) groupBy aggrs fieldNames
  | .sort source keys => .sort (optimizeJoinOrder source) keys
  | .limit source lim offset => .limit (optimizeJoinOrder source) lim offset
  | .distinct source => .distinct (optimizeJoinOrder source)
  | .setOp left right op all => .setOp (optimizeJoinOrder left) (optimizeJoinOrder right) op all
  | plan => plan

end Optimizer

/-! ## Limits -/

/-- A limit below the projections at the top of a plan. -/
def sinkLimit (lim offset : Option Expr) : LogicalPlan → LogicalPlan
  | .projection source expressions fieldNames schema =>
    .projection (sinkLimit lim offset source) expressions fieldNames schema
  | plan => .limit plan lim offset

def pushLimitThroughProjection : LogicalPlan → LogicalPlan
  | .limit source lim offset => sinkLimit lim offset (pushLimitThroughProjection source)
  | .filter source predicate => .filter (pushLimitThroughProjection source) predicate
  | .projection source expressions fieldNames schema =>
    .projection (pushLimitThroughProjection source) expressions fieldNames schema
  | .join left right condition joinType schema =>
    .join (pushLimitThroughProjection left) (pushLimitThroughProjection right) condition joinType
      schema
  | .aggregate source groupBy aggrs fieldNames schema =>
    .aggregate (pushLimitThroughProjection source) groupBy aggrs fieldNames schema
  | .sort source keys => .sort (pushLimitThroughProjection source) keys
  | .distinct source => .distinct (pushLimitThroughProjection source)
  | .setOp left right op all =>
    .setOp (pushLimitThroughProjection left) (pushLimitThroughProjection right) op all
  | plan => plan

/-! ## Sorts -/

def projectedName (expressions : List Expr) (fieldNames : List String) (key : String) :
    Option String :=
  ((expressions.zip fieldNames).find? fun x => match x.1 with
    | .column name _ => columnNamesMatch name key
    | _ => false).map Prod.snd

def getPlanSortKey : LogicalPlan → Option String
  | .scan _ s _ => match s.primaryKey with
    | [x] => some x.1.name
    | _ => none
  | .indexScan _ indexName s _ =>
    (s.indexes.find? fun idx => idx.name = indexName).bind fun idx => idx.columns.head?
  | .filter source _ => getPlanSortKey source
  | .limit source _ _ => getPlanSortKey source
  | .distinct source => getPlanSortKey source
  | .projection source expressions fieldNames _ =>
    (getPlanSortKey source).bind (projectedName expressions fieldNames)
  | _ => none

def sourceColumn (expressions : List Expr) (fieldNames : List String) (field : String) :
    Option String :=
  (expressions.zip fieldNames).findSome? fun x => match x.1 with
    | .column name _ => if x.2 = field then some name else none
    | _ => none

def tryPromoteToIndexScan : LogicalPlan → String → Option LogicalPlan
  | .scan tableName s range, sortCol =>
    if range.isSome then none
    else (s.indexes.find? fun idx => idx.columns.head?.any fun c => columnNamesMatch c sortCol).map
      fun idx => .indexScan tableName idx.name s none
  | .filter source predicate, sortCol =>
    (tryPromoteToIndexScan source sortCol).map fun source => .filter source predicate
  | .limit source lim offset, sortCol =>
    (tryPromoteToIndexScan source sortCol).map fun source => .limit source lim offset
  | .distinct source, sortCol => (tryPromoteToIndexScan source sortCol).map .distinct
  | .projection source expressions fieldNames schema, sortCol =>
    (sourceColumn expressions fieldNames sortCol).bind fun name =>
      (tryPromoteToIndexScan source name).map fun source =>
        .projection source expressions fieldNames schema
  | _, _ => none

def eliminateSort (source : LogicalPlan) (keys : List (Expr × Bool)) : LogicalPlan :=
  match keys with
  | [(.column sortCol _, true)] =>
    if (getPlanSortKey source).any fun sorted => columnNamesMatch sorted sortCol then source
    else (tryPromoteToIndexScan source sortCol).getD (.sort source keys)
  | _ => .sort source keys

def eliminateSorts : LogicalPlan → LogicalPlan
  | .sort source keys => eliminateSort (eliminateSorts source) keys
  | .filter source predicate => .filter (eliminateSorts source) predicate
  | .projection source expressions fieldNames schema =>
    .projection (eliminateSorts source) expressions fieldNames schema
  | .join left right condition joinType schema =>
    .join (eliminateSorts left) (eliminateSorts right) condition joinType schema
  | .aggregate source groupBy aggrs fieldNames schema =>
    let source := eliminateSorts source
    .aggregate (match groupBy with
      | [.column groupCol _] => (tryPromoteToIndexScan source groupCol).getD source
      | _ => source) groupBy aggrs fieldNames schema
  | .limit source lim offset => .limit (eliminateSorts source) lim offset
  | .distinct source => .distinct (eliminateSorts source)
  | .setOp left right op all => .setOp (eliminateSorts left) (eliminateSorts right) op all
  | plan => plan

def Optimizer.optimize (o : Optimizer) (plan : LogicalPlan) : LogicalPlan :=
  eliminateSorts (pushLimitThroughProjection (o.optimizeJoinOrder
    (o.pushDownPredicate plan.collectColumns plan [])))

/-! ## The walk of limits

The source walks a limit's source again once it has moved below a projection; nothing moves then. -/

end Dtdb.Sql
