import Mathlib.Data.List.Lex
import Dtdb.Relational.IndexScan

/-! # Values in SQL expressions

What operators, functions and casts compute.  Decimal arithmetic, text forms of floats and dates,
case mapping and full-text matching come from a `Library`; floats are computed with Lean's. -/

namespace Dtdb.Sql

open Dtdb.Storage Dtdb.Relational

inductive Operator where
  | eq
  | gt
  | lt
  | gtEq
  | ltEq
  | notEq
  | and
  | or
  | like
  | add
  | sub
  | mul
  | div
deriving DecidableEq

/-- The messages of the layer, each with what it prints. -/
inductive SqlError where
  | columnNotFound (name : String)
  | ambiguousColumn (name : String) (candidates : List String)
  | indexOutOfBounds (index : Nat)
  | unboundParameter (name : String)
  | parameterReachedExecution (name : String)
  | subqueryReachedExecution
  | notBoolean (v : DbValue)
  | notString (v : DbValue)
  | nanComparison
  | decimalToFloat
  | typeMismatch (l r : DbValue)
  | nonNumeric (l r : DbValue)
  | integerOverflow
  | decimalOverflow (op : Operator)
  | divisionByZero
  | caseLengthMismatch
  | arity (function : String) (got : Nat)
  | badArgument (function : String) (v : DbValue)
  | negativeLength (n : I64)
  | unsupportedFunction (name : String)
  | badCast (v : DbValue) (target : DataType)
  | badText (text : String) (target : DataType)
  | tokenizerNotFound (name : String)
  | fullTextQuery (query : String)
  | unsupportedKeyParameter (name : String)
  | countNegative (n : I64)
  | countNotInteger (v : DbValue)
  | tableNotFound (name : String)
  | noPrimaryKey
  | badPrimaryKey (row : Row)
  | indexScan (e : IndexScanError)
  | indexNotInSchema (name : String)
  | indexWithoutColumns (name : String)
  | indexedColumnNotFound (name : String)
  | nonNumericAggregate (function : String) (v : DbValue)
  | accumulatorKinds
  | joinCondition
  | columnNotInSchema (name : String)
  | columnCount (target selected : Nat)
  | duplicatePrimaryKey
  | mismatch (e : Schema.Mismatch)
  | scalarSubqueryColumns
  | scalarSubqueryRows
  | inSubqueryColumns

/-- How a computation of the layer fails. -/
inductive Fault where
  | error (e : SqlError)
  | panic

def fail {A : Type} (e : SqlError) : Except Fault A := .error (.error e)

/-- What the layer takes from its libraries. -/
structure Library where
  decimalToF64 : Int → Nat → Option (BitVec 64)
  decimalFromF64 : BitVec 64 → Option (Int × Nat)
  decimalToI64 : Int → Nat → Option I64
  /-- `checked_add` and its kin on decimals. -/
  decimalOp : Operator → Int × Nat → Int × Nat → Option (Int × Nat)
  /-- The text of a float, of bytes, of a date, a time, a timestamp or a decimal. -/
  display : DbValue → String
  /-- The float, decimal, date, time or timestamp that a text denotes. -/
  parse : DataType → String → Option DbValue
  toUppercase : String → String
  toLowercase : String → String
  /-- `Regex::new` accepts the translation of the pattern. -/
  compiles : String → Bool
  /-- The tokens that `plan_like` of a tokenizer requires of every text that a pattern matches. -/
  planLike : (tokenizer pattern : String) → Option (List String)
  /-- The MATCH of a text against a query, under a tokenizer. -/
  fullTextMatch : (tokenizer query text : String) → Except Fault Bool

/-- A library that knows nothing beyond ASCII. -/
def Library.ascii : Library where
  decimalToF64 _ _ := none
  decimalFromF64 _ := none
  decimalToI64 _ _ := none
  decimalOp _ _ _ := none
  display _ := ""
  parse _ _ := none
  toUppercase := String.toUpper
  toLowercase := String.toLower
  compiles _ := true
  planLike _ _ := none
  fullTextMatch _ _ _ := .ok false

/-! ## Numbers -/

/-- An `i64`, if the number fits. -/
def checkedI64 (n : Int) : Option I64 :=
  if h : -2 ^ 63 ≤ n ∧ n < 2 ^ 63 then some ⟨n, h⟩ else none

theorem checkedI64_eq {n : Int} {w : I64} (h : checkedI64 n = some w) : w.1 = n := by
  unfold checkedI64 at h
  split at h
  · cases h
    rfl
  · cases h

def f64 (bits : BitVec 64) : Float := Float.ofBits (UInt64.ofBitVec bits)

def f64Bits (x : Float) : BitVec 64 := x.toBits.toBitVec

/-- NaN has no place, both zeros have the same. -/
def f64Rank (bits : BitVec 64) : Option Int :=
  let magnitude : Nat := bits.toNat % 2 ^ 63
  if 0x7ff * 2 ^ 52 < magnitude then none
  else some (if 2 ^ 63 ≤ bits.toNat then -(magnitude : Int) else magnitude)

def partialCmp (a b : BitVec 64) : Option Ordering :=
  (f64Rank a).bind fun i => (f64Rank b).map (compare i)

/-- The float nearest to a positive integer, ties to even. -/
def f64OfNat (n : Nat) : Nat :=
  let e := n.log2
  if e ≤ 52 then (e + 1023) * 2 ^ 52 + (n * 2 ^ (52 - e) - 2 ^ 52)
  else
    let unit := 2 ^ (e - 52)
    let down := n / unit
    let up := unit < 2 * (n % unit) ∨ 2 * (n % unit) = unit ∧ down % 2 = 1
    -- A significand that rounds up to 2 ^ 53 carries into the exponent.
    (e + 1023) * 2 ^ 52 + (down - 2 ^ 52) + if up then 1 else 0

def f64OfI64 (n : I64) : BitVec 64 :=
  if n.1 = 0 then 0
  else BitVec.ofNat 64 ((if n.1 < 0 then 2 ^ 63 else 0) + f64OfNat n.1.natAbs)

def decimalValue (mantissa : Int) (scale : Nat) : ℚ := (mantissa : ℚ) / 10 ^ scale

def i64OfBool (b : Bool) : Int := if b then 1 else 0

def byteCodes (b : List UInt8) : List Nat := b.map UInt8.toNat

def floatOrdering (a b : BitVec 64) : Except Fault Ordering :=
  match partialCmp a b with
  | some o => .ok o
  | none => fail .nanComparison

def compareValues (lib : Library) : DbValue → DbValue → Except Fault Ordering
  | .null, .null => .ok .eq
  | .null, _ => .ok .lt
  | _, .null => .ok .gt
  | .int l, .int r => .ok (compare l r)
  | .float l, .float r => floatOrdering l r
  | .int l, .float r => floatOrdering (f64OfI64 l) r
  | .float l, .int r => floatOrdering l (f64OfI64 r)
  | .bool l, .bool r => .ok (compare l r)
  | .bool l, .int r => .ok (compare (i64OfBool l) r.1)
  | .int l, .bool r => .ok (compare l.1 (i64OfBool r))
  | .string l, .string r => .ok (compare l r)
  | .bytes l, .bytes r => .ok (cmp (byteCodes l) (byteCodes r))
  | .decimal m s, .decimal m' s' => .ok (compare (decimalValue m s) (decimalValue m' s'))
  | .decimal m s, .int r => .ok (compare (decimalValue m s) r.1)
  | .int l, .decimal m s => .ok (compare (l.1 : ℚ) (decimalValue m s))
  | .decimal m s, .float r => match lib.decimalToF64 m s with
    | some l => floatOrdering l r
    | none => fail .decimalToFloat
  | .float l, .decimal m s => match lib.decimalToF64 m s with
    | some r => floatOrdering l r
    | none => fail .decimalToFloat
  | .date l, .date r => .ok (compare l r)
  | .time l, .time r => .ok (compare l r)
  | .timestamp l, .timestamp r => .ok (compare l r)
  | l, r => fail (.typeMismatch l r)

def toBool : DbValue → Except Fault Bool
  | .bool b => .ok b
  | .int n => .ok (n.1 ≠ 0)
  | .null => .ok false
  | v => fail (.notBoolean v)

def toStringVal : DbValue → Except Fault String
  | .string s => .ok s
  | v => fail (.notString v)

/-! ## LIKE -/

/-- A piece of the regular expression a pattern is translated to. -/
inductive LikeItem where
  | lit (c : Char)
  | any
  | anyStar
deriving DecidableEq

/-- `like_pattern_to_regex`, between the anchors. -/
def likeItems (pattern : String) : List LikeItem :=
  pattern.toList.map fun c => if c = '%' then .anyStar else if c = '_' then .any else .lit c

def matchItems : List LikeItem → List Char → Bool
  | [], text => text.isEmpty
  | .lit c :: items, d :: text => c = d && matchItems items text
  | .any :: items, _ :: text => matchItems items text
  | .anyStar :: items, text => text.tails.any (matchItems items)
  | _ :: _, [] => false

def likeMatch (lib : Library) (text pattern : String) : Bool :=
  lib.compiles pattern && matchItems (likeItems pattern) text.toList

/-! ## Arithmetic -/

def intOp : Operator → I64 → I64 → Option I64
  | .add, a, b => checkedI64 (a.1 + b.1)
  | .sub, a, b => checkedI64 (a.1 - b.1)
  | .mul, a, b => checkedI64 (a.1 * b.1)
  | _, a, b => if b.1 = 0 then none else checkedI64 (a.1.tdiv b.1)

def floatOp : Operator → Float → Float → Float
  | .add, a, b => a + b
  | .sub, a, b => a - b
  | .mul, a, b => a * b
  | _, a, b => a / b

def decimalResult (lib : Library) (op : Operator) (a b : Int × Nat) : Except Fault DbValue :=
  match lib.decimalOp op a b with
  | some (m, s) => .ok (.decimal m s)
  | none => fail (.decimalOverflow op)

def evalArithmetic (lib : Library) (op : Operator) : DbValue → DbValue → Except Fault DbValue
  | .int l, .int r => match intOp op l r with
    | some n => .ok (.int n)
    | none => fail .integerOverflow
  | .float l, .float r => .ok (.float (f64Bits (floatOp op (f64 l) (f64 r))))
  | .int l, .float r => .ok (.float (f64Bits (floatOp op (f64 (f64OfI64 l)) (f64 r))))
  | .float l, .int r => .ok (.float (f64Bits (floatOp op (f64 l) (f64 (f64OfI64 r)))))
  | .decimal m s, .decimal m' s' => decimalResult lib op (m, s) (m', s')
  | .decimal m s, .int r => decimalResult lib op (m, s) (r.1, 0)
  | .int l, .decimal m s => decimalResult lib op (l.1, 0) (m, s)
  | .decimal m s, .float r => match lib.decimalToF64 m s with
    | some l => .ok (.float (f64Bits (floatOp op (f64 l) (f64 r))))
    | none => fail .decimalToFloat
  | .float l, .decimal m s => match lib.decimalToF64 m s with
    | some r => .ok (.float (f64Bits (floatOp op (f64 l) (f64 r))))
    | none => fail .decimalToFloat
  | l, r => fail (.nonNumeric l r)

def isZero : DbValue → Bool
  | .int n => n.1 = 0
  | .float b => f64Rank b = some 0
  | .decimal m _ => m = 0
  | _ => false

/-- The comparison operators, of how the operands compare. -/
def Operator.holds : Operator → Ordering → Bool
  | .eq, o => o = .eq
  | .notEq, o => o ≠ .eq
  | .gt, o => o = .gt
  | .lt, o => o = .lt
  | .gtEq, o => o = .gt ∨ o = .eq
  | .ltEq, o => o = .lt ∨ o = .eq
  | _, _ => false

/-- An operator on two values that are not NULL. -/
def applyOperator (lib : Library) (op : Operator) (l r : DbValue) : Except Fault DbValue :=
  match op with
  | .like => do
    let text ← toStringVal l
    let pattern ← toStringVal r
    .ok (.bool (likeMatch lib text pattern))
  | .add | .sub | .mul => evalArithmetic lib op l r
  | .div => if isZero r then fail .divisionByZero else evalArithmetic lib op l r
  | op => do
    let ordering ← compareValues lib l r
    .ok (.bool (op.holds ordering))

/-! ## Connectives -/

/-- AND, with the second operand looked at only when it matters. -/
def evalAnd (l r : Except Fault DbValue) : Except Fault DbValue := do
  let l ← l
  if l = .null then
    let r ← r
    if r = .null then .ok .null
    else if ← toBool r then .ok .null else .ok (.bool false)
  else if ← toBool l then
    let r ← r
    if r = .null then .ok .null else .ok (.bool (← toBool r))
  else .ok (.bool false)

def evalOr (l r : Except Fault DbValue) : Except Fault DbValue := do
  let l ← l
  if l = .null then
    let r ← r
    if r = .null then .ok .null
    else if ← toBool r then .ok (.bool true) else .ok .null
  else if ← toBool l then .ok (.bool true)
  else
    let r ← r
    if r = .null then .ok .null else .ok (.bool (← toBool r))

def evalNot (v : DbValue) : Except Fault DbValue :=
  if v = .null then .ok .null else do .ok (.bool !(← toBool v))

def evalBinary (lib : Library) (op : Operator) (l r : Except Fault DbValue) : Except Fault DbValue :=
  match op with
  | .and => evalAnd l r
  | .or => evalOr l r
  | op => do
    let l ← l
    let r ← r
    if l = .null ∨ r = .null then .ok .null else applyOperator lib op l r

/-- The items that are searched, and whether NULL was among them. -/
def searchList (lib : Library) (v : DbValue) : Bool → List (Except Fault DbValue) →
    Except Fault DbValue
  | hasNull, [] => .ok (if hasNull then .null else .bool false)
  | hasNull, item :: items => do
    let item ← item
    if item = .null then searchList lib v true items
    else match compareValues lib v item with
      | .ok .eq => .ok (.bool true)
      | _ => searchList lib v hasNull items

def evalInList (lib : Library) (v : Except Fault DbValue) (items : List (Except Fault DbValue)) :
    Except Fault DbValue := do
  let v ← v
  if v = .null then .ok .null else searchList lib v false items

def firstMatch (applies : DbValue → Except Fault Bool) : Nat → List (Except Fault DbValue) →
    Except Fault (Option Nat)
  | _, [] => .ok none
  | i, c :: cs => do
    let v ← c
    if ← applies v then .ok (some i) else firstMatch applies (i + 1) cs

def evalCase (lib : Library) (operand : Option (Except Fault DbValue))
    (conditions results : List (Except Fault DbValue)) (elseResult : Option (Except Fault DbValue)) :
    Except Fault DbValue :=
  if conditions.length ≠ results.length then fail .caseLengthMismatch
  else do
    let matched ← match operand with
      | some op => do
        let v ← op
        firstMatch (fun c => match compareValues lib v c with
          | .ok .eq => .ok true
          | _ => .ok false) 0 conditions
      | none => firstMatch toBool 0 conditions
    match matched.bind fun i => results[i]? with
    | some result => result
    | none => elseResult.getD (.ok .null)

/-! ## Casts and functions -/

def coerceToString (lib : Library) : DbValue → String
  | .string s => s
  | .int n => toString n.1
  | .bool b => toString b
  | .null => "NULL"
  | v => lib.display v

/-- Unicode's White_Space. -/
def isWhitespace (c : Char) : Bool :=
  let n := c.toNat
  (0x9 ≤ n && n ≤ 0xd) || n = 0x20 || n = 0x85 || n = 0xa0 || n = 0x1680 ||
    (0x2000 ≤ n && n ≤ 0x200a) || n = 0x2028 || n = 0x2029 || n = 0x202f || n = 0x205f || n = 0x3000

def trim (s : String) : List Char :=
  ((s.toList.dropWhile isWhitespace).reverse.dropWhile isWhitespace).reverse

def parseDigits (cs : List Char) : Option Nat :=
  if cs.isEmpty then none
  else cs.foldl (fun n c => n.bind fun n =>
    if c.isDigit then some (10 * n + (c.toNat - '0'.toNat)) else none) (some 0)

/-- `str::parse::<i64>`. -/
def parseI64 : List Char → Option I64
  | '-' :: cs => (parseDigits cs).bind fun n => checkedI64 (-n)
  | '+' :: cs => (parseDigits cs).bind fun n => checkedI64 n
  | cs => (parseDigits cs).bind fun n => checkedI64 n

def i64OfF64 (x : Float) : Option I64 := checkedI64 x.toInt64.toInt

def parsed (lib : Library) (target : DataType) (s : String) : Except Fault DbValue :=
  match lib.parse target s with
  | some v => .ok v
  | none => fail (.badText s target)

def castOr (v : DbValue) (target : DataType) (result : Option DbValue) : Except Fault DbValue :=
  match result with
  | some w => .ok w
  | none => fail (.badCast v target)

def castValue (lib : Library) (v : DbValue) (target : DataType) : Except Fault DbValue :=
  match v with
  | .null => .ok .null
  | v => match target, v with
    | .int, .int n => .ok (.int n)
    | .int, .float b => castOr v target ((i64OfF64 (f64 b)).map .int)
    | .int, .decimal m s => castOr v target ((lib.decimalToI64 m s).map .int)
    | .int, .bool b => castOr v target ((checkedI64 (i64OfBool b)).map .int)
    | .int, .string s => match parseI64 (trim s) with
      | some n => .ok (.int n)
      | none => fail (.badText s .int)
    | .float, .int n => .ok (.float (f64OfI64 n))
    | .float, .float b => .ok (.float b)
    | .float, .decimal m s => castOr v target ((lib.decimalToF64 m s).map .float)
    | .float, .bool b => .ok (.float (f64Bits (Float.ofInt (i64OfBool b))))
    | .float, .string s => parsed lib .float s
    | .decimal, .int n => .ok (.decimal n.1 0)
    | .decimal, .float b => castOr v target ((lib.decimalFromF64 b).map fun d => .decimal d.1 d.2)
    | .decimal, .decimal m s => .ok (.decimal m s)
    | .decimal, .string s => parsed lib .decimal s
    | .string, v => .ok (.string (coerceToString lib v))
    | .bytes, .bytes b => .ok (.bytes b)
    | .bytes, .string s => .ok (.bytes s.toUTF8.toList)
    | .bool, v => do .ok (.bool (← toBool v))
    | .null, _ => .ok .null
    | .date, .date d => .ok (.date d)
    | .date, .timestamp t => .ok (.date (ofLex t).1)
    | .date, .string s => parsed lib .date s
    | .time, .time t => .ok (.time t)
    | .time, .string s => parsed lib .time s
    | .timestamp, .timestamp t => .ok (.timestamp t)
    | .timestamp, .date d => .ok (.timestamp (toLex (d, toLex (0, 0))))
    | .timestamp, .string s => parsed lib .timestamp s
    | target, v => fail (.badCast v target)

/-- Counted from 0; it may lie before the text. -/
def substrStart (length : Nat) (start : Int) : Int :=
  if 0 < start then start - 1 else if start = 0 then -1 else length + start

def slice (text : List Char) (first last : Nat) : String :=
  String.ofList ((text.take last).drop first)

/-- SUBSTR on a text, from its start argument and its length argument. -/
def substr (text : List Char) (start : Int) : Option (Except Fault DbValue) → Except Fault DbValue
  | none => .ok (.string (slice text (substrStart text.length start).toNat text.length))
  | some length => do
    match ← length with
    | .int n =>
      if n.1 < 0 then fail (.negativeLength n)
      else if n.1 = 0 then .ok (.string "")
      else
        let first := substrStart text.length start
        let last := min (2 ^ 63 - 1) (first + n.1)
        .ok (.string (slice text first.toNat (min (max last 0) text.length).toNat))
    | v => fail (.badArgument "SUBSTR" v)

/-- A function of one argument that maps NULL to NULL. -/
def unary (name : String) (f : DbValue → Except Fault DbValue) :
    List (Except Fault DbValue) → Except Fault DbValue
  | [arg] => do
    let v ← arg
    if v = .null then .ok .null else f v
  | args => fail (.arity name args.length)

def coalesce : List (Except Fault DbValue) → Except Fault DbValue
  | [] => .ok .null
  | arg :: args => do
    let v ← arg
    if v = .null then coalesce args else .ok v

def concat (lib : Library) (result : String) : List (Except Fault DbValue) → Except Fault DbValue
  | [] => .ok (.string result)
  | arg :: args => do
    let v ← arg
    if v = .null then .ok .null else concat lib (result ++ coerceToString lib v) args

/-- ABS; the negation of the least integer panics. -/
def absolute : DbValue → Except Fault DbValue
  | .int n => match checkedI64 |n.1| with
    | some n => .ok (.int n)
    | none => .error .panic
  | .float b => .ok (.float (f64Bits (f64 b).abs))
  | v => fail (.badArgument "ABS" v)

def roundValue : DbValue → Except Fault DbValue
  | .int n => .ok (.int n)
  | .float b => .ok (.float (f64Bits (f64 b).round))
  | v => fail (.badArgument "ROUND" v)

def callFunction (lib : Library) (name : String) (args : List (Except Fault DbValue)) :
    Except Fault DbValue :=
  match lib.toUppercase name with
  | "LENGTH" => unary "LENGTH" (fun v =>
      castOr v .int ((checkedI64 (coerceToString lib v).length).map .int)) args
  | "SUBSTR" | "SUBSTRING" => match args with
    | value :: start :: rest =>
      if 1 < rest.length then fail (.arity "SUBSTR" args.length)
      else do
        let v ← value
        if v = .null then .ok .null
        else match ← start with
          | .int n => substr (coerceToString lib v).toList n.1 rest.head?
          | other => fail (.badArgument "SUBSTR" other)
    | _ => fail (.arity "SUBSTR" args.length)
  | "COALESCE" => if args.isEmpty then fail (.arity "COALESCE" 0) else coalesce args
  | "UPPER" => unary "UPPER" (fun v => .ok (.string (lib.toUppercase (coerceToString lib v)))) args
  | "LOWER" => unary "LOWER" (fun v => .ok (.string (lib.toLowercase (coerceToString lib v)))) args
  | "CONCAT" => if args.isEmpty then fail (.arity "CONCAT" 0) else concat lib "" args
  | "ABS" => unary "ABS" absolute args
  | "ROUND" => unary "ROUND" roundValue args
  | other => fail (.unsupportedFunction other)

end Dtdb.Sql
