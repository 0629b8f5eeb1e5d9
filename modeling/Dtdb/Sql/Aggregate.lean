import Dtdb.Sql.Expr
import Dtdb.Sql.Order

/-! # Aggregates

The accumulators of COUNT, SUM, MIN, MAX and AVG, and the two ways rows are grouped: in a hash table
that spills partial groups, and in one pass over rows whose groups lie together. -/

namespace Dtdb.Sql

open Dtdb.Lib Dtdb.Storage Dtdb.Relational

/-! ## Accumulators -/

/-- The accumulators without DISTINCT. -/
inductive PlainAccumulator where
  | count (count : I64)
  | sum (intSum : Option I64) (floatSum : Option (BitVec 64)) (decimalSum : Option (Int × Nat))
  | min (min : Option DbValue)
  | max (max : Option DbValue)
  | avg (sum : BitVec 64) (count : I64) (decimalSum : Option (Int × Nat))

/-- `Accumulator`; the values of a DISTINCT are aggregated only at the end. -/
inductive Accumulator where
  | plain (acc : PlainAccumulator)
  | distinct (seen : List DbValue) (inner : PlainAccumulator)

/-- `i64` arithmetic that wraps. -/
def wrapI64 (n : Int) : I64 := ⟨(n + 2 ^ 63) % 2 ^ 64 - 2 ^ 63, by omega⟩

def addFloats (a b : BitVec 64) : BitVec 64 := f64Bits (f64 a + f64 b)

/-- `Decimal`'s own operators, which panic on overflow. -/
def decimalOrPanic (lib : Library) (op : Operator) (a b : Int × Nat) : Except Fault (Int × Nat) :=
  match lib.decimalOp op a b with
  | some d => .ok d
  | none => .error .panic

def decimalOfI64 (n : I64) : Int × Nat := (n.1, 0)

/-- `to_f64().unwrap_or(0.0)`. -/
def floatOfDecimal (lib : Library) (d : Int × Nat) : BitVec 64 := (lib.decimalToF64 d.1 d.2).getD 0

theorem zero_isI64 : -2 ^ 63 ≤ (0 : Int) ∧ (0 : Int) < 2 ^ 63 := by decide

def zeroI64 : I64 := ⟨0, zero_isI64⟩

namespace PlainAccumulator

def updateSum (lib : Library) (intSum : Option I64) (floatSum : Option (BitVec 64))
    (decimalSum : Option (Int × Nat)) : DbValue → Except Fault PlainAccumulator
  | .decimal m s => match decimalSum with
    | some dec => do .ok (.sum intSum floatSum (some (← decimalOrPanic lib .add dec (m, s))))
    | none => do
      let current := decimalOfI64 (intSum.getD zeroI64)
      .ok (.sum none floatSum (some (← decimalOrPanic lib .add current (m, s))))
  | .int n => match decimalSum with
    | some dec => do
      .ok (.sum intSum floatSum (some (← decimalOrPanic lib .add dec (decimalOfI64 n))))
    | none => match floatSum with
      | some x => .ok (.sum intSum (some (addFloats x (f64OfI64 n))) none)
      | none =>
        let current := intSum.getD zeroI64
        match checkedI64 (current.1 + n.1) with
        | some n => .ok (.sum (some n) none none)
        | none => .ok (.sum none (some (addFloats (f64OfI64 current) (f64OfI64 n))) none)
  | .float b => match decimalSum with
    | some dec => .ok (.sum intSum (some (addFloats (floatOfDecimal lib dec) b)) none)
    | none =>
      let promoted := addFloats (floatSum.getD 0) (f64OfI64 (intSum.getD zeroI64))
      .ok (.sum none (some (addFloats promoted b)) none)
  | other => fail (.nonNumericAggregate "SUM" other)

def updateAvg (lib : Library) (total : BitVec 64) (n : I64) (decimalSum : Option (Int × Nat)) :
    DbValue → Except Fault PlainAccumulator
  | .decimal m s => match decimalSum with
    | some dec => do
      .ok (.avg total (wrapI64 (n.1 + 1)) (some (← decimalOrPanic lib .add dec (m, s))))
    | none =>
      if 0 < n.1 then match lib.decimalFromF64 total with
        | some dec => do
          .ok (.avg total (wrapI64 (n.1 + 1)) (some (← decimalOrPanic lib .add dec (m, s))))
        | none =>
          .ok (.avg (addFloats total (floatOfDecimal lib (m, s))) (wrapI64 (n.1 + 1)) none)
      else .ok (.avg total (wrapI64 (n.1 + 1)) (some (m, s)))
  | .int i => match decimalSum with
    | some dec => do
      let dec ← decimalOrPanic lib .add dec (decimalOfI64 i)
      .ok (.avg total (wrapI64 (n.1 + 1)) (some dec))
    | none => .ok (.avg (addFloats total (f64OfI64 i)) (wrapI64 (n.1 + 1)) none)
  | .float b => match decimalSum with
    | some dec => .ok (.avg (addFloats (floatOfDecimal lib dec) b) (wrapI64 (n.1 + 1)) none)
    | none => .ok (.avg (addFloats total b) (wrapI64 (n.1 + 1)) none)
  | other => fail (.nonNumericAggregate "AVG" other)

/-- The least value so far, or with `.gt` the greatest. -/
def updateExtreme (lib : Library) (better : Ordering) (v : DbValue) :
    Option DbValue → Except Fault (Option DbValue)
  | some m => do if (← compareValues lib v m) = better then .ok (some v) else .ok (some m)
  | none => .ok (some v)

/-- `Accumulator::update` of a value that is not NULL. -/
def update (lib : Library) (v : DbValue) : PlainAccumulator → Except Fault PlainAccumulator
  | .count n => .ok (.count (wrapI64 (n.1 + 1)))
  | .sum intSum floatSum decimalSum => updateSum lib intSum floatSum decimalSum v
  | .min m => do .ok (.min (← updateExtreme lib .lt v m))
  | .max m => do .ok (.max (← updateExtreme lib .gt v m))
  | .avg total n decimalSum => updateAvg lib total n decimalSum v

def mergeSum (lib : Library) (i o : Option I64) (f g : Option (BitVec 64))
    (d e : Option (Int × Nat)) : Except Fault PlainAccumulator :=
  if d.isSome ∨ e.isSome then do
    let a ← decimalOrPanic lib .add (d.getD (0, 0)) (decimalOfI64 (i.getD zeroI64))
    let b ← decimalOrPanic lib .add (e.getD (0, 0)) (decimalOfI64 (o.getD zeroI64))
    .ok (.sum none f (some (← decimalOrPanic lib .add a b)))
  else if f.isSome ∨ g.isSome then
    let a := addFloats (f.getD 0) (f64OfI64 (i.getD zeroI64))
    let b := addFloats (g.getD 0) (f64OfI64 (o.getD zeroI64))
    .ok (.sum none (some (addFloats a b)) d)
  else match i, o with
    | none, o => .ok (.sum o f d)
    | some a, none => .ok (.sum (some a) f d)
    | some a, some b => match checkedI64 (a.1 + b.1) with
      | some s => .ok (.sum (some s) f d)
      | none => .ok (.sum none (some (addFloats (f64OfI64 a) (f64OfI64 b))) d)

def mergeExtreme (lib : Library) (better : Ordering) (m : Option DbValue) :
    Option DbValue → Except Fault (Option DbValue)
  | some v => updateExtreme lib better v m
  | none => .ok m

/-- Accumulators of different kinds do not meet. -/
def merge (lib : Library) : PlainAccumulator → PlainAccumulator → Except Fault PlainAccumulator
  | .count n, .count m => .ok (.count (wrapI64 (n.1 + m.1)))
  | .sum i f d, .sum o g e => mergeSum lib i o f g d e
  | .min m, .min o => do .ok (.min (← mergeExtreme lib .lt m o))
  | .max m, .max o => do .ok (.max (← mergeExtreme lib .gt m o))
  | .avg total n d, .avg total' n' e =>
    if d.isSome ∨ e.isSome then do
      let dec ← decimalOrPanic lib .add (d.getD (0, 0)) (e.getD (0, 0))
      .ok (.avg total (wrapI64 (n.1 + n'.1)) (some dec))
    else .ok (.avg (addFloats total total') (wrapI64 (n.1 + n'.1)) d)
  | _, _ => fail .accumulatorKinds

def finalize (lib : Library) : PlainAccumulator → Except Fault DbValue
  | .count n => .ok (.int n)
  | .sum _ _ (some (m, s)) => .ok (.decimal m s)
  | .sum _ (some b) none => .ok (.float b)
  | .sum (some n) none none => .ok (.int n)
  | .sum none none none => .ok .null
  | .min m => .ok (m.getD .null)
  | .max m => .ok (m.getD .null)
  | .avg total n decimalSum =>
    if n.1 = 0 then .ok .null
    else match decimalSum with
      | some dec => do
        let d ← decimalOrPanic lib .div dec (decimalOfI64 n)
        .ok (.decimal d.1 d.2)
      | none => .ok (.float (f64Bits (f64 total / f64 (f64OfI64 n))))

end PlainAccumulator

namespace Accumulator

def insertSeen (seen : List DbValue) (v : DbValue) : List DbValue :=
  if seen.any (valueEq v) then seen else seen ++ [v]

def update (lib : Library) (v : DbValue) (acc : Accumulator) : Except Fault Accumulator :=
  if v = .null then .ok acc
  else match acc with
    | .plain acc => do .ok (.plain (← acc.update lib v))
    | .distinct seen inner => .ok (.distinct (insertSeen seen v) inner)

def merge (lib : Library) : Accumulator → Accumulator → Except Fault Accumulator
  | .plain a, .plain b => do .ok (.plain (← a.merge lib b))
  | .distinct seen inner, .distinct seen' _ => .ok (.distinct (seen'.foldl insertSeen seen) inner)
  | _, _ => fail .accumulatorKinds

def finalize (lib : Library) (rt : Runtime) : Accumulator → Except Fault DbValue
  | .plain acc => acc.finalize lib
  | .distinct seen inner => do
    let acc ← (rt.hashOrder seen).foldlM (fun acc v => acc.update lib v) inner
    acc.finalize lib

end Accumulator

/-- DISTINCT makes no difference to MIN and MAX. -/
def makeAccumulator : AggregateExpr → Accumulator
  | .count _ distinct => wrap distinct (.count zeroI64)
  | .sum _ distinct => wrap distinct (.sum none none none)
  | .avg _ distinct => wrap distinct (.avg 0 zeroI64 none)
  | .min _ _ => .plain (.min none)
  | .max _ _ => .plain (.max none)
where
  wrap (distinct : Bool) (acc : PlainAccumulator) : Accumulator :=
    if distinct then .distinct [] acc else .plain acc

def newAccumulators (aggrs : List AggregateExpr) : List Accumulator := aggrs.map makeAccumulator

/-! ## Groups -/

def evalAll (lib : Library) (s : Schema) (row : Row) (exprs : List Expr) :
    Except Fault (List DbValue) :=
  exprs.mapM fun e => e.eval lib s row

abbrev Group := List DbValue × List Accumulator

def finalizeGroup (lib : Library) (rt : Runtime) (g : Group) : Except Fault Row := do
  .ok (g.1 ++ (← g.2.mapM fun acc => acc.finalize lib rt))

def updateAll (lib : Library) (s : Schema) (row : Row) :
    List AggregateExpr → List Accumulator → Except Fault (List Accumulator)
  | aggr :: aggrs, acc :: accs => do
    let v ← aggr.expr.eval lib s row
    let acc ← acc.update lib v
    .ok (acc :: (← updateAll lib s row aggrs accs))
  | _, accs => .ok accs

def addToGroups (lib : Library) (s : Schema) (groupBy : List Expr) (aggrs : List AggregateExpr)
    (groups : List Group) (row : Row) : Except Fault (List Group) := do
  let keys ← evalAll lib s row groupBy
  match groups.findIdx? fun g => rowEq keys g.1 with
  | some i =>
    let accs ← updateAll lib s row aggrs ((groups[i]?.map Prod.snd).getD [])
    .ok (groups.modify i fun g => (g.1, accs))
  | none => .ok (groups ++ [(keys, ← updateAll lib s row aggrs (newAccumulators aggrs))])

def ascending (n : Nat) : List Bool := List.replicate n true

/-- The groups in memory, and the runs that were spilled. -/
structure HashState where
  groups : List Group
  runs : List (List Group)

namespace HashState

def spill (rt : Runtime) (width : Nat) (st : HashState) : HashState :=
  ⟨[], st.runs ++ [rt.sortEntries (ascending width) (rt.hashOrder st.groups)]⟩

def bytes (rt : Runtime) (aggrs : List AggregateExpr) (st : HashState) : Nat :=
  (st.groups.map fun g => rt.estimateRowSize g.1 + aggrs.length * rt.accumulatorSize).sum

def addRow (lib : Library) (rt : Runtime) (s : Schema) (groupBy : List Expr)
    (aggrs : List AggregateExpr) (st : HashState) (row : Row) : Except Fault HashState := do
  let st := { st with groups := ← addToGroups lib s groupBy aggrs st.groups row }
  if rt.memoryBudget ≤ st.bytes rt aggrs ∧ groupBy ≠ [] then .ok (st.spill rt groupBy.length)
  else .ok st

end HashState

/-- `AggMerge`: the partial groups of one key are merged. -/
def mergeGroups (lib : Library) (rt : Runtime) : Option Group → List Group → Flow Row Fault
  | none, [] => .ofList []
  | some g, [] => .ofExcept ((finalizeGroup lib rt g).map fun row => [row])
  | none, g :: gs => mergeGroups lib rt (some g) gs
  | some current, g :: gs =>
    if rowEq current.1 g.1 then
      match (current.2.zip g.2).mapM fun x => x.1.merge lib x.2 with
      | .error e => .failed e
      | .ok accs => mergeGroups lib rt (some (current.1, accs)) gs
    else match finalizeGroup lib rt current with
      | .error e => .failed e
      | .ok row =>
        let rest := mergeGroups lib rt (some g) gs
        ⟨row :: rest.items, rest.fault⟩

def hashAggregate (lib : Library) (rt : Runtime) (s : Schema) (groupBy : List Expr)
    (aggrs : List AggregateExpr) (source : Flow Row Fault) : Flow Row Fault :=
  match source.fold (HashState.addRow lib rt s groupBy aggrs) ⟨[], []⟩ with
  | .error e => .failed e
  | .ok st =>
    if st.runs.isEmpty then
      let groups := if groupBy.isEmpty ∧ st.groups.isEmpty then [([], newAccumulators aggrs)]
        else st.groups
      .ofExcept ((rt.hashOrder groups).mapM (finalizeGroup lib rt))
    else
      let st := if st.groups.isEmpty then st else st.spill rt groupBy.length
      mergeGroups lib rt none (rt.mergeRuns (ascending groupBy.length) st.runs)

/-- The turns of `PhysicalSortedAggregate` over the rows of its source. -/
def sortedGroups (lib : Library) (rt : Runtime) (s : Schema) (groupBy : List Expr)
    (aggrs : List AggregateExpr) (fault : Option Fault) :
    Option Group → List Row → Flow Row Fault
  | active, [] => match fault, active with
    | some e, _ => .failed e
    | none, some g => .ofExcept ((finalizeGroup lib rt g).map fun row => [row])
    | none, none => .ofList []
  | active, row :: rows => match evalAll lib s row groupBy, active with
    | .error e, _ => .failed e
    | .ok keys, none => match updateAll lib s row aggrs (newAccumulators aggrs) with
      | .error e => .failed e
      | .ok accs => sortedGroups lib rt s groupBy aggrs fault (some (keys, accs)) rows
    | .ok keys, some g =>
      if rowEq keys g.1 then match updateAll lib s row aggrs g.2 with
        | .error e => .failed e
        | .ok accs => sortedGroups lib rt s groupBy aggrs fault (some (g.1, accs)) rows
      else match finalizeGroup lib rt g with
        | .error e => .failed e
        | .ok out => match updateAll lib s row aggrs (newAccumulators aggrs) with
          | .error e => ⟨[out], some e⟩
          | .ok accs =>
            let rest := sortedGroups lib rt s groupBy aggrs fault (some (keys, accs)) rows
            ⟨out :: rest.items, rest.fault⟩

def sortedAggregate (lib : Library) (rt : Runtime) (s : Schema) (groupBy : List Expr)
    (aggrs : List AggregateExpr) (source : Flow Row Fault) : Flow Row Fault :=
  let active := if groupBy.isEmpty ∧ source.items.isEmpty ∧ source.fault.isNone then
    some ([], newAccumulators aggrs) else none
  sortedGroups lib rt s groupBy aggrs source.fault active source.items

end Dtdb.Sql
