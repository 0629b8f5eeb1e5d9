import Dtdb.Sql.Plan

/-! # Ranges of keys from predicates

The range of a column's keys that the comparisons of a predicate's conjunction leave.  A conjunct
that says nothing about the column, a disjunction and a negation leave everything.
-/

namespace Dtdb.Sql

open Dtdb.Storage Dtdb.Relational

def valToKey : DbValue → Option DbKey
  | .int n => some (.int n)
  | .string s => some (.string s)
  | .date d => some (.date d)
  | .time t => some (.time t)
  | .timestamp t => some (.timestamp t)
  | .decimal m s => some (.decimal (decimalValue m s))
  | _ => none

/-- The side on which the column stands makes no difference. -/
def getColumnComparison (left right : Expr) (colName : String) : Option PlanKey :=
  match left, right with
  | .column name _, .literal v =>
    if columnNamesMatch name colName then (valToKey v).map .value else none
  | .literal v, .column name _ =>
    if columnNamesMatch name colName then (valToKey v).map .value else none
  | .column name _, .parameter p => if columnNamesMatch name colName then some (.parameter p) else none
  | .parameter p, .column name _ => if columnNamesMatch name colName then some (.parameter p) else none
  | _, _ => none

/-- Booleans are taken for strings here. -/
def rangeBounds : DataType → DbKey × DbKey
  | .bool => DataType.string.keyBounds
  | t => t.keyBounds

/-- The least key above another, where keys are discrete. -/
def startAfter : DbKey → Option DbKey
  | .int v => (checkedI64 (v.1 + 1)).map .int
  | .string s => some (.string (s.push (Char.ofNat 0)))
  | k => some k

/-- The greatest key below another, where keys are discrete. -/
def endBefore : DbKey → Option DbKey
  | .int v => (checkedI64 (v.1 - 1)).map .int
  | k => some k

def PlanKey.step (f : DbKey → Option DbKey) : PlanKey → Option PlanKey
  | .value k => (f k).map .value
  | .parameter p => some (.parameter p)

def comparisonBounds (op : Operator) (colType : DataType) (key : PlanKey) :
    Option (PlanKey × PlanKey) :=
  match op with
  | .gt => (key.step startAfter).map fun start => (start, .value (rangeBounds colType).2)
  | .gtEq => some (key, .value (rangeBounds colType).2)
  | .lt => (key.step endBefore).map fun stop => (.value (rangeBounds colType).1, stop)
  | .ltEq => some (.value (rangeBounds colType).1, key)
  | _ => none

/-! ## LIKE -/

def likeLiteralPrefix (pattern : String) : Option String :=
  let literal := pattern.toList.takeWhile fun c => c ≠ '%' && c ≠ '_'
  if literal.isEmpty then none else some (String.ofList literal)

def nextScalar (c : Char) : Option Char :=
  if c.toNat = 0xd7ff then some (Char.ofNat 0xe000)
  else if c.toNat = 0x10ffff then none
  else some (Char.ofNat (c.toNat + 1))

def reverseSuccessor : List Char → Option (List Char)
  | [] => none
  | c :: cs => match nextScalar c with
    | some d => some (d :: cs)
    | none => reverseSuccessor cs

def prefixSuccessor (text : String) : Option String :=
  (reverseSuccessor text.toList.reverse).map fun cs => String.ofList cs.reverse

def extractLikePrefixBounds (left right : Expr) (colName : String) (colType : DataType) :
    Option (PlanKey × PlanKey) :=
  if colType ≠ .string then none
  else match left, right with
    | .column name _, .literal (.string pattern) =>
      if columnNamesMatch name colName then
        (likeLiteralPrefix pattern).map fun text =>
          (.value (.string text), .value ((prefixSuccessor text).elim (rangeBounds .string).2 .string))
      else none
    | _, _ => none

/-! ## Conjunctions -/

/-- A parameter, the left one first, is taken as it is. -/
def laterStart : PlanKey → PlanKey → PlanKey
  | .value l, .value r => .value (max l r)
  | .parameter p, _ => .parameter p
  | .value _, .parameter p => .parameter p

def earlierEnd : PlanKey → PlanKey → PlanKey
  | .value l, .value r => .value (min l r)
  | .parameter p, _ => .parameter p
  | .value _, .parameter p => .parameter p

def meetRanges : Option (PlanKey × PlanKey) → Option (PlanKey × PlanKey) →
    Option (PlanKey × PlanKey)
  | some l, some r => some (laterStart l.1 r.1, earlierEnd l.2 r.2)
  | some l, none => some l
  | none, r => r

def extractBoundsForColumn (colName : String) (colType : DataType) :
    Expr → Option (PlanKey × PlanKey)
  | .binaryOp left .and right => meetRanges (extractBoundsForColumn colName colType left)
      (extractBoundsForColumn colName colType right)
  | .binaryOp left .eq right => (getColumnComparison left right colName).map fun key => (key, key)
  | .binaryOp left .like right => extractLikePrefixBounds left right colName colType
  | .binaryOp left op right =>
    (getColumnComparison left right colName).bind (comparisonBounds op colType)
  | _ => none

/-- `extract_key_range`: only a primary key of one column has a range. -/
def extractKeyRange (predicate : Expr) (s : Schema) : Option (PlanKey × PlanKey) :=
  match s.primaryKey with
  | [x] => extractBoundsForColumn x.1.name x.1.dataType predicate
  | _ => none

end Dtdb.Sql
