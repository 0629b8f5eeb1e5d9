import Mathlib.Data.List.Dedup
import Dtdb.Lib.Flow
import Dtdb.Lib.SortedMap
import Dtdb.Storage.Key

/-! # Schemas and rows

Columns with their locality groups, the split of a row into one sub-row per group and the merge
back. A row is kept as its values; indexing past its end panics in the source and is `none` here. -/

namespace Dtdb.Relational

open Dtdb.Lib Dtdb.Storage List Option

inductive DataType where
  | int
  | float
  | string
  | bytes
  | null
  | bool
  | date
  | time
  | timestamp
  | decimal
deriving DecidableEq

structure Column where
  id : Nat
  name : String
  dataType : DataType
  isPrimaryKey : Bool
  isNullable : Bool
  localityGroup : Option String
  defaultValue : Option DbValue
  isAutoIncrement : Bool := false
deriving DecidableEq

inductive IndexType where
  | btree
  | fullText
deriving DecidableEq

structure IndexDefinition where
  name : String
  columns : List String
  indexType : IndexType
  tokenizer : Option String
deriving DecidableEq

structure Schema where
  columns : List Column
  nextColumnId : Nat
  indexes : List IndexDefinition
deriving DecidableEq

abbrev Row := List DbValue

def Column.group (c : Column) : String := c.localityGroup.getD ""

/-- What a row that predates the column reads. -/
def Column.default (c : Column) : DbValue := c.defaultValue.getD .null

def dbValueToKey : DbValue → Option DbKey
  | .int n => some (.int n)
  | .string s => some (.string s)
  | .bool b => some (.bool b)
  | .date d => some (.date d)
  | .time t => some (.time t)
  | .timestamp t => some (.timestamp t)
  | .decimal mantissa scale => some (.decimal ((mantissa : ℚ) / 10 ^ scale))
  | _ => none

namespace Schema

def columnIndex (s : Schema) (name : String) : Option Nat :=
  s.columns.findIdx? fun c => c.name = name

/-- `locality_groups`, without repetitions. -/
def localityGroups (s : Schema) : List String :=
  if s.columns.isEmpty then [""] else (s.columns.map Column.group).dedup

def groupColumns (s : Schema) (group : String) : List Column :=
  s.columns.filter fun c => c.group = group

/-- `split_row`; `none` when the row is too short. -/
def splitRow (s : Schema) (row : Row) (group : String) : Option Row :=
  (s.groupColumns group).mapM fun c => (s.columnIndex c.name).bind fun i => row[i]?

def relativeIndex (s : Schema) (c : Column) : Nat :=
  ((s.groupColumns c.group).findIdx? fun d => d.name = c.name).getD 0

def defaultRowValues (s : Schema) : Row := s.columns.map Column.default

/-- A column reads its group's sub-row, or its default. -/
def mergeRows (s : Schema) (groupRows : String → Option Row) : Row :=
  s.columns.map fun c =>
    ((groupRows c.group).bind fun r => r[s.relativeIndex c]?).getD c.default

/-! ## Accepting rows and keys -/

/-- Why a row or a key is rejected (`RelationalError::SchemaMismatch`). -/
inductive Mismatch where
  | width (got expected : Nat)
  | notNullable (column : String) (index : Nat)
  | valueType (column : String) (index : Nat) (expected : DataType) (actual : DbValue)
  | noPrimaryKey
  | keyType (column : String) (expected : DataType) (actual : DbKey)
  | keyValue (key : DbKey) (value : DbValue)
  | keyParts (got expected : Nat)
  | notComposite (key : DbKey)

end Schema

def DataType.accepts : DataType → DbValue → Bool
  | .int, .int _ => true
  | .float, .float _ => true
  | .string, .string _ => true
  | .bytes, .bytes _ => true
  | .bool, .bool _ => true
  | .date, .date _ => true
  | .time, .time _ => true
  | .timestamp, .timestamp _ => true
  | .decimal, .decimal _ _ => true
  | _, _ => false

def DataType.acceptsKey : DataType → DbKey → Bool
  | .int, .int _ => true
  | .string, .string _ => true
  | .bool, .bool _ => true
  | .date, .date _ => true
  | .time, .time _ => true
  | .timestamp, .timestamp _ => true
  | .decimal, .decimal _ => true
  | _, _ => false

namespace Schema

/-- One column's check in `validate_row`. -/
def checkValue (index : Nat) (c : Column) (v : DbValue) : Except Mismatch Unit :=
  if v = .null then if c.isNullable then .ok () else .error (.notNullable c.name index)
  else if c.dataType.accepts v then .ok () else .error (.valueType c.name index c.dataType v)

def checkValues : Nat → List Column → Row → Except Mismatch Unit
  | index, c :: cs, v :: vs => do
    checkValue index c v
    checkValues (index + 1) cs vs
  | _, _, _ => .ok ()

def validateRow (s : Schema) (row : Row) : Except Mismatch Unit :=
  if row.length ≠ s.columns.length then .error (.width row.length s.columns.length)
  else checkValues 0 s.columns row

def primaryKey (s : Schema) : List (Column × Nat) := s.columns.zipIdx.filter fun x => x.1.isPrimaryKey

/-- One column's check in `validate_key` and `validate_key_only`. -/
def checkKey (row : Option Row) (c : Column) (index : Nat) (key : DbKey) : Except Mismatch Unit :=
  if ¬c.dataType.acceptsKey key then .error (.keyType c.name c.dataType key)
  else match row with
    | none => .ok ()
    | some row =>
      let v := row[index]?.getD .null
      if dbValueToKey v = some key then .ok () else .error (.keyValue key v)

def checkKeys (row : Option Row) : List (Column × Nat) → List DbKey → Except Mismatch Unit
  | (c, index) :: cs, key :: keys => do
    checkKey row c index key
    checkKeys row cs keys
  | _, _ => .ok ()

/-- `validate_key` with the row, `validate_key_only` without. -/
def validateKey (s : Schema) (key : DbKey) (row : Option Row) : Except Mismatch Unit :=
  match s.primaryKey with
  | [] => .error .noPrimaryKey
  | [(c, index)] => checkKey row c index key
  | pk => match key with
    | .composite parts =>
      if parts.length ≠ pk.length then .error (.keyParts parts.length pk.length)
      else checkKeys row pk parts
    | _ => .error (.notComposite key)

variable {row : Row}

theorem length_of_validateRow {s : Schema} (h : s.validateRow row = .ok ()) :
    row.length = s.columns.length := by
  unfold validateRow at h
  split at h
  · cases h
  · next hlen => exact not_not.1 hlen

variable {c : Column}

theorem accepts_of_checkValues {n i : Nat} {cols : List Column} {v : DbValue}
    (h : checkValues n cols row = .ok ()) (hc : cols[i]? = some c) (hv : row[i]? = some v) :
    v = .null ∨ c.dataType.accepts v = true := by
  induction cols generalizing n i row with
  | nil => cases hc
  | cons d cols ih =>
    cases row with
    | nil => cases hv
    | cons w row =>
      obtain ⟨_, hhead, htail⟩ := bind_eq_ok.1 h
      cases i with
      | zero =>
        cases hc
        cases hv
        unfold checkValue at hhead
        split at hhead
        · next hnull => exact .inl hnull
        · split at hhead
          · next hacc => exact .inr hacc
          · cases hhead
      | succ i => exact ih htail hc hv

theorem accepts_of_validateRow {s : Schema} {i : Nat} {v : DbValue}
    (h : s.validateRow row = .ok ()) (hc : s.columns[i]? = some c) (hv : row[i]? = some v) :
    v = .null ∨ c.dataType.accepts v = true := by
  unfold validateRow at h
  split at h
  · cases h
  · exact accepts_of_checkValues h hc hv

/-! ## Splitting and merging -/

variable {s : Schema}

theorem getElem?_of_columnIndex {name : String} {i : Nat} (h : s.columnIndex name = some i) :
    ∃ c, s.columns[i]? = some c ∧ c.name = name ∧ ∀ j < i, ∀ d, s.columns[j]? = some d →
      d.name ≠ name := by
  obtain ⟨hlt, hname, hfirst⟩ := findIdx?_eq_some_iff_getElem.1 h
  refine ⟨s.columns[i], getElem?_eq_getElem hlt, by simpa using hname, fun j hj d hd => ?_⟩
  obtain ⟨hjlt, rfl⟩ := List.getElem?_eq_some_iff.mp hd
  simpa using hfirst j hj

theorem columnIndex_isSome (h : c ∈ s.columns) : ∃ i, s.columnIndex c.name = some i := by
  refine ne_none_iff_exists'.1 fun hnone => ?_
  simpa using findIdx?_eq_none_iff.1 hnone c h

theorem group_mem_localityGroups (hc : c ∈ s.columns) : c.group ∈ s.localityGroups := by
  unfold localityGroups
  rw [if_neg (by simpa using ne_nil_of_mem hc), mem_dedup]
  exact mem_map_of_mem hc

theorem exists_mem_localityGroups (s : Schema) : ∃ g, g ∈ s.localityGroups := by
  unfold localityGroups
  split
  · exact ⟨"", mem_singleton.2 rfl⟩
  · next hne =>
    obtain ⟨c, hc⟩ := exists_mem_of_ne_nil _ (by simpa using hne)
    exact ⟨c.group, mem_dedup.2 (mem_map_of_mem hc)⟩

theorem exists_splitRow (hlen : row.length = s.columns.length) (group : String) :
    ∃ sub, s.splitRow row group = some sub := by
  refine exists_mapM fun c hc => ?_
  obtain ⟨i, hi⟩ := columnIndex_isSome (mem_of_mem_filter hc)
  obtain ⟨hlt, -, -⟩ := findIdx?_eq_some_iff_getElem.1 hi
  rw [hi, bind_some, getElem?_eq_getElem (hlen ▸ hlt)]
  rfl

theorem relativeIndex_spec (h : c ∈ s.columns) :
    ∃ d, (s.groupColumns c.group)[s.relativeIndex c]? = some d ∧ d.name = c.name := by
  have hmem : c ∈ s.groupColumns c.group := mem_filter.2 ⟨h, by simp⟩
  cases hi : (s.groupColumns c.group).findIdx? fun d => d.name = c.name with
  | none => simpa using findIdx?_eq_none_iff.1 hi c hmem
  | some i =>
    obtain ⟨hlt, hname, -⟩ := findIdx?_eq_some_iff_getElem.1 hi
    refine ⟨_, ?_, by simpa using hname⟩
    rw [relativeIndex, hi]
    exact getElem?_eq_getElem hlt

theorem getElem?_splitRow {sub : Row} (h : s.splitRow row c.group = some sub) (hc : c ∈ s.columns) :
    sub[s.relativeIndex c]? = (s.columnIndex c.name).bind fun i => row[i]? := by
  obtain ⟨d, hd, hname⟩ := relativeIndex_spec hc
  rw [getElem?_of_mapM h, hd, bind_some, hname]

@[simp] theorem length_mergeRows (s : Schema) (rows : String → Option Row) :
    (s.mergeRows rows).length = s.columns.length := length_map ..

theorem getElem?_mergeRows {rows : String → Option Row}
    (hrows : ∀ c ∈ s.columns, ∃ sub, rows c.group = some sub ∧
      sub[s.relativeIndex c]? = (s.columnIndex c.name).bind fun i => row[i]?)
    (hlen : row.length = s.columns.length) {name : String} {i : Nat}
    (hi : s.columnIndex name = some i) : (s.mergeRows rows)[i]? = row[i]? := by
  obtain ⟨c, hc, rfl, -⟩ := getElem?_of_columnIndex hi
  obtain ⟨hlt, rfl⟩ := List.getElem?_eq_some_iff.mp hc
  obtain ⟨sub, hsub, hval⟩ := hrows _ (getElem_mem hlt)
  have hrow : row[i]? = some (row.get ⟨i, hlen ▸ hlt⟩) := getElem?_eq_getElem _
  rw [hi, bind_some] at hval
  rw [mergeRows, getElem?_map, hc, map_some, hsub, bind_some, hval, hrow,
    getD_some]

end Schema

end Dtdb.Relational
