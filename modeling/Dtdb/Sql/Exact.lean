import Dtdb.Sql.Eval

/-! # Exact integers

Expressions over integers and texts denote integers without a bound on their size.  Evaluation
returns what they denote or fails; ABS of the least `i64` is the one place where it panics.
-/

namespace Dtdb.Sql

open Dtdb.Lib Dtdb.Storage Dtdb.Relational List

def plain : DbValue → Bool
  | .null | .int _ | .string _ => true
  | _ => false

def Operator.arithmetic : Operator → Bool
  | .add | .sub | .mul | .div => true
  | _ => false

def exactOp : Operator → Int → Int → Int
  | .add, a, b => a + b
  | .sub, a, b => a - b
  | .mul, a, b => a * b
  | _, a, b => a.tdiv b

/-- A WHEN is taken: it is equal to the operand, or it is true. -/
def takes (lib : Library) : Option DbValue → DbValue → Except Fault Bool
  | some x, c => match compareValues lib x c with
    | .ok .eq => .ok true
    | _ => .ok false
  | none, c => toBool c

section

variable (lib : Library) (s : Schema) (row : Row)

mutual

/-- What an expression denotes; of SUBSTR, a piece no longer than asked for. -/
inductive Denotes : Expr → DbValue → Prop
  | literal {v} : Denotes (.literal v) v
  | column {name index i v} : index.elim (resolveColumn s name) .ok = .ok i → row[i]? = some v →
      Denotes (.column name index) v
  | nullOperand {l r op v w} : Denotes l v → Denotes r w → v = .null ∨ w = .null →
      Denotes (.binaryOp l op r) .null
  | arithmetic {l r op} {a b n : I64} : Denotes l (.int a) → Denotes r (.int b) →
      (op = .div → b.1 ≠ 0) → n.1 = exactOp op a.1 b.1 → Denotes (.binaryOp l op r) (.int n)
  | nullArg {name a args} : Denotes a .null → Denotes (.function name (a :: args)) .null
  | abs {name a} {m n : I64} : lib.toUppercase name = "ABS" → Denotes a (.int m) →
      n.1 = |m.1| → Denotes (.function name [a]) (.int n)
  | length {name a v} {n : I64} : lib.toUppercase name = "LENGTH" → Denotes a v → v ≠ .null →
      n.1 = (coerceToString lib v).length → Denotes (.function name [a]) (.int n)
  | substr {name a start rest v t} {n : I64} : lib.toUppercase name ∈ ["SUBSTR", "SUBSTRING"] →
      Denotes a v → v ≠ .null → t.toList <:+: (coerceToString lib v).toList →
      (∀ e ∈ rest, Denotes e (.int n)) → (rest ≠ [] → t.length ≤ n.1) →
      Denotes (.function name (a :: start :: rest)) (.string t)
  | cast {a v} : Denotes a v → (∀ t, v ≠ .string t) → Denotes (.cast a .int) v
  | castText {a t n} : Denotes a (.string t) → parseI64 (trim t) = some n →
      Denotes (.cast a .int) (.int n)
  | caseWhen {operand cs rs els x v} : (∀ e ∈ operand, Denotes e x) →
      Chooses (operand.map fun _ => x) cs rs els v → Denotes (.caseWhen operand cs rs els) v

/-- The value of the result that the WHENs of a CASE choose. -/
inductive Chooses : Option DbValue → List Expr → List Expr → Option Expr → DbValue → Prop
  | other {x els v} : (∀ e ∈ els, Denotes e v) → (els = none → v = .null) → Chooses x [] [] els v
  | here {x c cs r rs els w v} : Denotes c w → takes lib x w = .ok true → Denotes r v →
      Chooses x (c :: cs) (r :: rs) els v
  | next {x c cs r rs els w v} : Denotes c w → takes lib x w = .ok false → Chooses x cs rs els v →
      Chooses x (c :: cs) (r :: rs) els v

end

def Returns {A : Type} (P : A → Prop) : Except Fault A → Prop
  | .ok v => P v
  | .error f => f ≠ .panic

def IsValue (e : Expr) (v : DbValue) : Prop := plain v = true ∧ Denotes lib s row e v

/-- An ABS is not given the least integer. -/
def AbsSafe : Expr → Prop
  | .function name [a] => lib.toUppercase name = "ABS" →
    ∀ n, a.eval lib s row = .ok (.int n) → n.1 ≠ -2 ^ 63
  | _ => True

/-- Evaluation gives a value that the expression denotes, or an `Err`. -/
def Exact (e : Expr) : Prop := Returns (IsValue lib s row e) (e.eval lib s row)

end

/-- The forms of expression that compute with integers and texts. -/
def inFragment (lib : Library) : Expr → Bool
  | .literal v => plain v
  | .column .. | .caseWhen .. => true
  | .binaryOp _ op _ => op.arithmetic
  | .function name _ => lib.toUppercase name ∈ ["ABS", "LENGTH", "SUBSTR", "SUBSTRING"]
  | .cast _ target => target = .int
  | _ => false

def Expr.operands : Expr → List Expr
  | .binaryOp l _ r => [l, r]
  | .function _ args => args
  | .caseWhen operand cs rs els => operand.toList ++ cs ++ rs ++ els.toList
  | .cast a _ => [a]
  | _ => []

/-- `Q` of an expression and of every expression in it. -/
inductive Expr.Every (Q : Expr → Prop) : Expr → Prop
  | mk {e} : Q e → (∀ p ∈ e.operands, Every Q p) → Every Q e

variable {lib : Library} {s : Schema} {row : Row} {e : Expr} {A B C : Type} {P : A → Prop}

namespace Returns

variable {x : Except Fault A} {f : A → Except Fault B}

theorem imp {Q : A → Prop} (hx : Returns P x) (h : ∀ v, P v → Q v) : Returns Q x := by
  cases x with
  | error e => exact hx
  | ok v => exact h v hx

theorem bind {Q : B → Prop} (hx : Returns P x) (hf : ∀ v, x = .ok v → P v → Returns Q (f v)) :
    Returns Q (x.bind f) := by
  cases x with
  | error e => exact hx
  | ok v => exact hf v rfl hx

theorem bind_bind {g : B → Except Fault C} {Q : C → Prop} (hx : Returns P x)
    (hf : ∀ v, P v → Returns Q ((f v).bind g)) : Returns Q ((x.bind f).bind g) := by
  cases x with
  | error e => exact hx
  | ok v => exact hf v hx

theorem of_fail {e : SqlError} : Returns P (fail e) := by simp [Returns, fail]

end Returns

theorem plain_cases {v : DbValue} (h : plain v = true) (hnull : v ≠ .null) :
    (∃ n, v = .int n) ∨ ∃ t, v = .string t := by
  cases v with
  | null => exact absurd rfl hnull
  | int n => exact .inl ⟨n, rfl⟩
  | string t => exact .inr ⟨t, rfl⟩
  | _ => cases h

theorem exact_column {name : String} {index : Option Nat} (hrow : ∀ v ∈ row, plain v = true) :
    Exact lib s row (.column name index) := by
  have hvalue : ∀ {i}, index.elim (resolveColumn s name) .ok = .ok i →
      Returns (IsValue lib s row (.column name index)) (rowValue row i) := by
    intro i hi
    unfold rowValue
    split
    · next v hv => exact ⟨hrow v (mem_of_getElem? hv), .column hi hv⟩
    · exact nofun
  cases index with
  | some i => exact hvalue rfl
  | none =>
    show Returns _ ((resolveColumn s name).bind (rowValue row))
    cases hi : resolveColumn s name with
    | ok i => exact hvalue hi
    | error e =>
      unfold resolveColumn at hi
      split at hi <;> cases hi <;> exact nofun

theorem intOp_exact {op : Operator} {a b n : I64} (h : op.arithmetic = true)
    (hn : intOp op a b = some n) : n.1 = exactOp op a.1 b.1 := by
  cases op with
  | add | sub | mul => exact checkedI64_eq hn
  | div => exact checkedI64_eq (Option.ite_none_left_eq_some.1 hn).2
  | _ => cases h

theorem exact_arithmetic {l r : Expr} {op : Operator} (h : op.arithmetic = true)
    (hl : Exact lib s row l) (hr : Exact lib s row r) : Exact lib s row (.binaryOp l op r) := by
  have heval : (Expr.binaryOp l op r).eval lib s row = (l.eval lib s row).bind fun v =>
      (r.eval lib s row).bind fun w => if v = .null ∨ w = .null then .ok .null
        else if op = .div ∧ isZero w = true then fail .divisionByZero
        else evalArithmetic lib op v w := by
    rw [Expr.eval]
    cases op with
    | add | sub | mul | div => simp [evalBinary, applyOperator, bind]
    | _ => cases h
  unfold Exact
  rw [heval]
  refine hl.bind fun v _ hv => hr.bind fun w _ hw => ?_
  split
  · next hnull => exact ⟨rfl, .nullOperand hv.2 hw.2 hnull⟩
  split
  · exact .of_fail
  · next hnull hzero =>
    rw [not_or] at hnull
    rcases plain_cases hv.1 hnull.1 with ⟨a, rfl⟩ | ⟨t, rfl⟩ <;>
      rcases plain_cases hw.1 hnull.2 with ⟨b, rfl⟩ | ⟨u, rfl⟩
    · rw [evalArithmetic]
      split
      · next n hn =>
        refine ⟨rfl, .arithmetic hv.2 hw.2 (fun hop hb => hzero ⟨hop, ?_⟩) (intOp_exact h hn)⟩
        simpa [isZero] using hb
      · exact .of_fail
    all_goals exact .of_fail

theorem exact_cast {a : Expr} (ha : Exact lib s row a) : Exact lib s row (.cast a .int) := by
  unfold Exact
  rw [Expr.eval]
  refine ha.bind fun v _ hv => ?_
  cases v with
  | null | int n => exact ⟨rfl, .cast hv.2 (by simp)⟩
  | string t =>
    rw [castValue]
    split
    · next n hn => exact ⟨rfl, .castText hv.2 hn⟩
    · exact .of_fail
  | _ => cases hv.1

/-! ## Functions -/

section

variable {name : String} {args : List Expr}

theorem exact_unary {fn : String} {f : DbValue → Except Fault DbValue}
    (heval : (Expr.function name args).eval lib s row = unary fn f (evalList lib s row args))
    (hargs : ∀ a ∈ args, Exact lib s row a)
    (hf : ∀ a v, args = [a] → a.eval lib s row = .ok v → v ≠ .null → IsValue lib s row a v →
      Returns (IsValue lib s row (.function name [a])) (f v)) :
    Exact lib s row (.function name args) := by
  unfold Exact
  rw [heval]
  match args with
  | [] | _ :: _ :: _ => exact nofun
  | [a] =>
    refine (hargs a (mem_cons_self ..)).bind fun v heval hv => ?_
    show Returns _ (if v = .null then _ else _)
    split
    · next hnull => exact ⟨rfl, .nullArg (hnull ▸ hv.2)⟩
    · next hnull => exact hf a v rfl heval hnull hv

theorem infix_slice (text : List Char) (first last : Nat) :
    (slice text first last).toList <:+: text := by
  rw [slice, String.toList_ofList]
  exact (drop_suffix ..).isInfix.trans ( take_prefix ..).isInfix

theorem callFunction_substr (hname : lib.toUppercase name ∈ ["SUBSTR", "SUBSTRING"])
    (vs : List (Except Fault DbValue)) : callFunction lib name vs = match vs with
      | value :: start :: rest => if 1 < rest.length then fail (.arity "SUBSTR" vs.length)
        else value.bind fun v => if v = .null then .ok .null else start.bind fun
          | .int n => substr (coerceToString lib v).toList n.1 rest.head?
          | other => fail (.badArgument "SUBSTR" other)
      | _ => fail (.arity "SUBSTR" vs.length) := by
  rcases mem_pair.1 hname with h | h <;> simp only [callFunction, h] <;> rfl

theorem exact_substr (hname : lib.toUppercase name ∈ ["SUBSTR", "SUBSTRING"])
    (hargs : ∀ a ∈ args, Exact lib s row a) : Exact lib s row (.function name args) := by
  unfold Exact
  rw [Expr.eval, callFunction_substr hname]
  rcases args with _ | ⟨a, _ | ⟨start, rest⟩⟩
  · exact .of_fail
  · exact .of_fail
  rw [evalList, evalList]
  dsimp only
  split
  · exact .of_fail
  refine (hargs a (by simp)).bind fun v _ hv => ?_
  split
  · next hnull => exact ⟨rfl, .nullArg (hnull ▸ hv.2)⟩
  refine (hargs start (by simp)).bind fun k _ _ => ?_
  cases k with
  | int first =>
    rcases rest with _ | ⟨len, _ | ⟨_, _⟩⟩
    · exact ⟨rfl, .substr (n := first) hname hv.2 ‹_› (infix_slice ..) (by simp) (absurd rfl)⟩
    · refine (hargs len (by simp)).bind fun k _ hk => ?_
      cases k with
      | int n =>
        have hpiece : ∀ {t : String}, t.toList <:+: (coerceToString lib v).toList →
            t.length ≤ n.1 → IsValue lib s row (.function name [a, start, len]) (.string t) :=
          fun ht hlen => ⟨rfl, .substr hname hv.2 ‹_› ht (by simpa using hk.2) fun _ => hlen⟩
        dsimp only
        split
        · exact .of_fail
        split
        · next hzero => exact hpiece ⟨[], _, rfl⟩ hzero.ge
        · refine hpiece (infix_slice ..) ?_
          simp only [slice, String.length_ofList, length_drop, length_take]
          omega
      | _ => exact .of_fail
    · exact absurd (Nat.one_lt_succ_succ _) ‹¬1 < _›
  | _ => exact .of_fail

theorem exact_call (h : inFragment lib (.function name args) = true)
    (habs : AbsSafe lib s row (.function name args)) (hargs : ∀ a ∈ args, Exact lib s row a) :
    Exact lib s row (.function name args) := by
  simp only [inFragment, mem_cons, not_mem_nil, or_false, decide_eq_true_eq] at h
  rcases h with h | h | h
  · refine exact_unary (by simp only [Expr.eval, callFunction, h]; rfl) hargs ?_
    rintro a v rfl heval hnull hv
    rcases plain_cases hv.1 hnull with ⟨n, rfl⟩ | ⟨t, rfl⟩
    · rw [absolute]
      split
      · next m hm => exact ⟨rfl, .abs h hv.2 (checkedI64_eq hm)⟩
      · next hm =>
        have hmin := habs h n heval
        have hn := n.2
        have habs : |n.1| = max n.1 (-n.1) := rfl
        rw [checkedI64, dite_eq_right_iff] at hm
        cases hm ⟨by omega, by omega⟩
    · exact .of_fail
  · refine exact_unary (by simp only [Expr.eval, callFunction, h]; rfl) hargs ?_
    rintro a v rfl - hnull hv
    cases hm : checkedI64 (coerceToString lib v).length with
    | none => exact .of_fail
    | some n => exact ⟨rfl, .length h hv.2 hnull (checkedI64_eq hm)⟩
  · exact exact_substr (by simpa using h) hargs

end

/-! ## CASE -/

theorem takes_ne_panic (x : Option DbValue) (v : DbValue) : takes lib x v ≠ .error .panic := by
  unfold takes
  split
  · split <;> exact nofun
  · cases v <;> exact nofun

theorem returns_caseResult {x : Option DbValue} {els : Option Expr} {cs rs : List Expr} {k : Nat}
    {results : List (Except Fault DbValue)} (hlen : cs.length = rs.length)
    (hdrop : results.drop k = rs.map (Expr.eval lib s row)) (hcs : ∀ c ∈ cs, Exact lib s row c)
    (hrs : ∀ r ∈ rs, Exact lib s row r) (hels : ∀ e ∈ els, Exact lib s row e) :
    Returns (fun v => plain v = true ∧ Chooses lib s row x cs rs els v)
      ((firstMatch (takes lib x) k (cs.map (Expr.eval lib s row))).bind
        (caseResult results (evalOption lib s row els))) := by
  induction cs generalizing rs k with
  | nil =>
    cases length_eq_zero_iff.1 hlen.symm
    cases els with
    | none => exact ⟨rfl, .other nofun fun _ => rfl⟩
    | some e => exact (hels e rfl).imp fun v hv => ⟨hv.1, .other (by simpa using hv.2) nofun⟩
  | cons c cs ih =>
    cases rs with
    | nil => cases hlen
    | cons r rs =>
      rw [forall_mem_cons] at hcs hrs
      refine hcs.1.bind_bind fun v hv => ?_
      show Returns _ (((takes lib x v).bind fun b => if b = true then .ok (some k) else
        firstMatch (takes lib x) (k + 1) (cs.map (Expr.eval lib s row))).bind _)
      cases ht : takes lib x v with
      | error e => exact fun h => takes_ne_panic x v (h ▸ ht)
      | ok b =>
        cases b with
        | true =>
          have hk : results[k]? = some (r.eval lib s row) := by
            rw [← head?_drop, hdrop]
            rfl
          show Returns _ (caseResult results _ (some k))
          rw [caseResult, Option.bind_some, hk]
          exact hrs.1.imp fun w hw => ⟨hw.1, .here hv.2 ht hw.2⟩
        | false =>
          refine (ih (Nat.succ.inj hlen) ?_ hcs.2 hrs.2).imp fun w hw => ⟨hw.1, .next hv.2 ht hw.2⟩
          rw [← tail_drop, hdrop, map_cons, tail_cons]

theorem exact_case {operand els : Option Expr} {cs rs : List Expr}
    (h : ∀ p ∈ (Expr.caseWhen operand cs rs els).operands, Exact lib s row p) :
    Exact lib s row (.caseWhen operand cs rs els) := by
  simp only [Expr.operands, mem_append, Option.mem_toList, or_imp, forall_and] at h
  obtain ⟨⟨⟨hop, hcs⟩, hrs⟩, hels⟩ := h
  unfold Exact
  rw [Expr.eval, evalCase_eq]
  simp only [evalList_eq_map, length_map]
  split
  · exact .of_fail
  · next hlen =>
    have hresult := fun x => returns_caseResult (k := 0) (x := x) (not_not.1 hlen) rfl hcs hrs hels
    cases operand with
    | none => exact (hresult none).imp fun v hv => ⟨hv.1, .caseWhen (x := .null) (by simp) hv.2⟩
    | some op =>
      refine (hop op rfl).bind_bind fun x hx => ?_
      exact (hresult (some x)).imp fun v hv => ⟨hv.1, .caseWhen (by simpa using hx.2) hv.2⟩

/-! ## Whole expressions -/

theorem exact_of_operands (hrow : ∀ v ∈ row, plain v = true) (he : inFragment lib e = true)
    (habs : AbsSafe lib s row e) (h : ∀ p ∈ e.operands, Exact lib s row p) :
    Exact lib s row e := by
  cases e with
  | literal v => exact ⟨he, .literal⟩
  | column name index => exact exact_column hrow
  | binaryOp l op r =>
    simp only [Expr.operands, forall_mem_cons] at h
    exact exact_arithmetic he h.1 h.2.1
  | function name args => exact exact_call he habs h
  | caseWhen operand cs rs els => exact exact_case h
  | cast a target =>
    obtain rfl : target = .int := of_decide_eq_true he
    exact exact_cast (h a (mem_cons_self ..))
  | _ => cases he

theorem absSafe_of_exact (h : Exact lib s row e) : AbsSafe lib s row e := by
  unfold AbsSafe
  split
  · next name a =>
    intro hname n hn hmin
    obtain rfl : n = ⟨-2 ^ 63, by decide⟩ := Subtype.ext hmin
    have heval : (Expr.function name [a]).eval lib s row = .error .panic := by
      simp only [Expr.eval, callFunction, hname, evalList, hn]
      rfl
    unfold Exact at h
    rw [heval] at h
    exact h rfl
  · trivial

end Dtdb.Sql
