import Mathlib.Data.Int.Log
import Mathlib.Data.Rat.Floor
import Dtdb.Sql.Bounds

/-! # Costs of access paths

What ANALYZE leaves about a table, and the estimates the optimizer makes from it.  The figures are
floats in the source; here they are rational numbers, rounded to 53 bits after each operation.
-/

namespace Dtdb.Sql

open Dtdb.Storage Dtdb.Relational

/-! ## Statistics -/

structure GroupStats where
  totalSstableSize : Nat

structure IndexStats where
  entryCount : Nat
  avgRowsPerValue : ℚ
  mostCommon : List (List DbKey × Nat)

structure TableStatistics where
  rowCount : Nat
  localityGroupStats : String → Option GroupStats
  indexStats : String → Option IndexStats

def IndexStats.postingLenUpperBound (stats : IndexStats) (keys : List DbKey) : Nat :=
  match stats.mostCommon.find? fun e => e.1 = keys with
  | some e => e.2
  | none => match stats.mostCommon.getLast? with
    | some least => if 256 ≤ stats.mostCommon.length then least.2 else ⌈stats.avgRowsPerValue⌉.toNat
    | none => ⌈stats.avgRowsPerValue⌉.toNat

/-! ## Floats -/

def roundHalfEven (q : ℚ) : Int :=
  let down := ⌊q⌋
  let rest := q - down
  if rest < 1 / 2 then down
  else if 1 / 2 < rest then down + 1
  else if down % 2 = 0 then down else down + 1

/-- The float nearest to a number, which is neither tiny nor huge here. -/
def nearest (q : ℚ) : ℚ :=
  if q = 0 then 0
  else
    let e := Int.log 2 |q| - 52
    roundHalfEven (q * (2 : ℚ) ^ (-e)) * (2 : ℚ) ^ e

def fadd (a b : ℚ) : ℚ := nearest (a + b)

def fmul (a b : ℚ) : ℚ := nearest (a * b)

def fdiv (a b : ℚ) : ℚ := nearest (a / b)

/-! ## Selectivity -/

mutual

def isKeyUnboundedMin : DbKey → Bool
  | .int v => v.1 = -2 ^ 63
  | .string s => s.isEmpty
  | .bool b => !b
  | .date d => d = DataType.minDate
  | .time t => t = toLex (0, 0)
  | .timestamp t => t = toLex (DataType.minDate, toLex (0, 0))
  | .decimal d => d = -DataType.maxDecimal
  | .composite parts => unboundedMinHead parts

def unboundedMinHead : List DbKey → Bool
  | [] => true
  | k :: _ => isKeyUnboundedMin k

end

mutual

def isKeyUnboundedMax : DbKey → Bool
  | .int v => v.1 = 2 ^ 63 - 1
  | .string s => s = String.singleton (Char.ofNat 0x10ffff)
  | .bool b => b
  | .date d => d = DataType.maxDate
  | .time t => t = DataType.maxTime
  | .timestamp t => t = toLex (DataType.maxDate, DataType.maxTime)
  | .decimal d => d = DataType.maxDecimal
  | .composite parts => unboundedMaxHead parts

def unboundedMaxHead : List DbKey → Bool
  | [] => true
  | k :: _ => isKeyUnboundedMax k

end

def PlanKey.isUnboundedMin : PlanKey → Bool
  | .value k => isKeyUnboundedMin k
  | .parameter _ => false

def PlanKey.isUnboundedMax : PlanKey → Bool
  | .value k => isKeyUnboundedMax k
  | .parameter _ => false

def effectiveRowCount (rowCount : Nat) : Nat := if 0 < rowCount then rowCount else 1000000

/-- The part of the rows that a range is taken to hold. -/
def selectivity (single : ℚ) (range : PlanKey × PlanKey) : ℚ :=
  if range.1 = range.2 then single
  else if range.1.isUnboundedMin && range.2.isUnboundedMax then 1
  else if range.1.isUnboundedMin || range.2.isUnboundedMax then nearest (33 / 100)
  else nearest (5 / 100)

/-! ## Costs -/

def neededLocalityGroups (s : Schema) (queryColumns : List String) : List String :=
  let groups := ((s.columns.filter fun c => queryColumns.any c.matchesName).map Column.group).dedup
  if groups.isEmpty then [""] else groups

def rowCount (stats : Option TableStatistics) : Nat := (stats.map TableStatistics.rowCount).getD 0

def estimateScanCost (s : Schema) (stats : Option TableStatistics)
    (range : Option (PlanKey × PlanKey)) (queryColumns : List String) : ℚ :=
  let base := match stats with
    | none => 1000
    | some st =>
      let io := (neededLocalityGroups s queryColumns).foldl (fun cost g =>
        fadd cost (match st.localityGroupStats g with
          | some gs => nearest gs.totalSstableSize
          | none => 1000)) 0
      fadd io (fmul (nearest st.rowCount) (nearest (1 / 10)))
  match range with
  | none => base
  | some range =>
    fmul base (selectivity (fdiv 1 (nearest (effectiveRowCount (rowCount stats)))) range)

def fetchCost (s : Schema) (st : TableStatistics) (queryColumns : List String) (rows : ℚ) : ℚ :=
  (neededLocalityGroups s queryColumns).foldl (fun cost g =>
    fadd cost (fmul rows (match st.localityGroupStats g with
      | some gs => fmul 10
          (max (fdiv (nearest gs.totalSstableSize) (nearest (max st.rowCount 1))) 10)
      | none => 100))) 0

def estimateIndexScanCost (indexName : String) (s : Schema) (stats : Option TableStatistics)
    (range : PlanKey × PlanKey) (queryColumns : List String) : ℚ :=
  let rows := rowCount stats
  let idxStats := stats.bind fun st => st.indexStats indexName
  let single := match idxStats with
    | some i => fdiv i.avgRowsPerValue (nearest (effectiveRowCount rows))
    | none => fdiv 1 (nearest (effectiveRowCount rows))
  let sIdx := selectivity single range
  let nMatch := fmul sIdx (nearest rows)
  let entries := (idxStats.map IndexStats.entryCount).getD rows
  let indexIo := max (fmul (fmul (nearest entries) 16) sIdx) 10
  let tableIo := match stats with
    | some st => fetchCost s st queryColumns nMatch
    | none => fmul nMatch 50
  fadd (fadd indexIo tableIo) (fmul nMatch (nearest (1 / 10)))

end Dtdb.Sql
