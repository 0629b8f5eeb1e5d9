import Dtdb.Sql.Expr

/-! # The two forms of CASE

`CASE x WHEN v …` compares with `compare_values` directly and takes NULL for equal to NULL, `CASE
WHEN x = v …` through the operator. -/

namespace Dtdb.Sql

open Dtdb.Lib Dtdb.Storage Dtdb.Relational List

section

variable (lib : Library) (x : DbValue)

def FailsFirst (f : Fault) : List (Except Fault DbValue) → Prop
  | [] => False
  | .error e :: _ => e = f
  | .ok v :: cs => compareValues lib x v ≠ .ok .eq ∧ FailsFirst f cs

/-- Up to the first WHEN value that is equal or fails, there is no NULL under a NULL operand and
none that does not compare; a failing comparison is harmless only where a later value fails in the
same way. -/
def FormsAgree : List (Except Fault DbValue) → Prop
  | [] | .error _ :: _ => True
  | .ok v :: cs =>
    if x = .null ∨ v = .null then ¬ (x = .null ∧ v = .null) ∧ FormsAgree cs
    else match compareValues lib x v with
      | .ok .eq => True
      | .ok _ => FormsAgree cs
      | .error f => FailsFirst lib x f cs

def simpleMatch (i : Nat) (cs : List (Except Fault DbValue)) : Except Fault (Option Nat) :=
  firstMatch (fun c => match compareValues lib x c with
    | .ok .eq => .ok true
    | _ => .ok false) i cs

def searchedMatch (i : Nat) (cs : List (Except Fault DbValue)) : Except Fault (Option Nat) :=
  firstMatch toBool i (cs.map (evalBinary lib .eq (.ok x)))

end

variable {lib : Library} {x v : DbValue} {i j : Nat} {cs : List (Except Fault DbValue)}

theorem firstMatch_ge {applies : DbValue → Except Fault Bool}
    (h : firstMatch applies i cs = .ok (some j)) : i ≤ j ∧ j < i + cs.length := by
  induction cs generalizing i with
  | nil => cases h
  | cons c cs ih =>
    obtain ⟨v, -, b, -, h⟩ := bind_bind_eq_ok.1 h
    rw [length_cons]
    cases b with
    | true =>
      cases h
      omega
    | false =>
      have := ih h
      omega

theorem simpleMatch_ok : simpleMatch lib x i (.ok v :: cs) =
    match compareValues lib x v with
    | .ok .eq => .ok (some i)
    | _ => simpleMatch lib x (i + 1) cs := by
  show ((match compareValues lib x v with
    | .ok .eq => .ok true
    | _ => .ok false : Except Fault Bool) >>= fun b =>
      if b = true then .ok (some i) else simpleMatch lib x (i + 1) cs) = _
  cases compareValues lib x v with
  | error f => rfl
  | ok o => cases o <;> rfl

theorem simpleMatch_eq_error {f : Fault} :
    simpleMatch lib x i cs = .error f ↔ FailsFirst lib x f cs := by
  induction cs generalizing i with
  | nil => exact iff_of_false nofun id
  | cons c cs ih =>
    cases c with
    | error e => exact Except.error.injEq e f ▸ Iff.rfl
    | ok v =>
      rw [simpleMatch_ok, FailsFirst]
      split
      · next h => exact iff_of_false nofun fun hf => hf.1 h
      · next hne => rw [ih, and_iff_right hne]

theorem searchedMatch_ok : searchedMatch lib x i (.ok v :: cs) =
    if x = .null ∨ v = .null then searchedMatch lib x (i + 1) cs
    else match compareValues lib x v with
      | .ok .eq => .ok (some i)
      | .ok _ => searchedMatch lib x (i + 1) cs
      | .error f => .error f := by
  have hbinary : evalBinary lib .eq (.ok x) (.ok v) = if x = .null ∨ v = .null then .ok .null
    else (compareValues lib x v).bind fun o => .ok (.bool (Operator.eq.holds o)) := rfl
  unfold searchedMatch
  rw [map_cons, hbinary]
  split
  · rfl
  · cases compareValues lib x v with
    | error f => rfl
    | ok o => cases o <;> rfl

theorem simpleMatch_eq_searchedMatch :
    simpleMatch lib x i cs = searchedMatch lib x i cs ↔ FormsAgree lib x cs := by
  induction cs generalizing i with
  | nil => exact iff_of_true rfl trivial
  | cons c cs ih =>
    cases c with
    | error e => exact iff_of_true rfl trivial
    | ok v =>
      rw [simpleMatch_ok, searchedMatch_ok, FormsAgree]
      by_cases hnull : x = .null ∨ v = .null
      · rw [if_pos hnull, if_pos hnull]
        by_cases hboth : x = .null ∧ v = .null
        · -- the first form stops here, the second goes on
          obtain ⟨rfl, rfl⟩ := hboth
          refine iff_of_false (fun h => ?_) fun h => h.1 ⟨rfl, rfl⟩
          have := (firstMatch_ge h.symm).1
          omega
        · have hne : compareValues lib x v ≠ .ok .eq := by
            rcases hnull with rfl | rfl
            · cases v <;> first | exact absurd ⟨rfl, rfl⟩ hboth | nofun
            · cases x <;> first | exact absurd ⟨rfl, rfl⟩ hboth | nofun
          rw [and_iff_right hboth]
          split
          · next h => exact absurd h hne
          · exact ih
      · rw [if_neg hnull, if_neg hnull]
        cases compareValues lib x v with
        | error f => exact simpleMatch_eq_error
        | ok o =>
          cases o with
          | eq => exact iff_of_true rfl trivial
          | lt | gt => exact ih

/-! ## Selection and result -/

def caseMatch (lib : Library) (operand : Option (Except Fault DbValue))
    (conditions : List (Except Fault DbValue)) : Except Fault (Option Nat) :=
  match operand with
  | some op => op.bind fun v => simpleMatch lib v 0 conditions
  | none => firstMatch toBool 0 conditions

def caseResult (results : List (Except Fault DbValue)) (elseResult : Option (Except Fault DbValue))
    (matched : Option Nat) : Except Fault DbValue :=
  match matched.bind fun i => results[i]? with
  | some result => result
  | none => elseResult.getD (.ok .null)

theorem evalCase_eq (operand : Option (Except Fault DbValue))
    (results : List (Except Fault DbValue)) (elseResult : Option (Except Fault DbValue)) :
    evalCase lib operand cs results elseResult =
      if cs.length ≠ results.length then fail .caseLengthMismatch
      else (caseMatch lib operand cs).bind (caseResult results elseResult) := by
  rw [evalCase]
  cases operand with
  | none => rfl
  | some op => cases op <;> rfl

theorem caseMatch_lt {operand : Option (Except Fault DbValue)}
    (h : caseMatch lib operand cs = .ok (some j)) : j < cs.length := by
  have hlt : ∀ {applies : DbValue → Except Fault Bool},
      firstMatch applies 0 cs = .ok (some j) → j < cs.length := by
    intro applies h
    have := (firstMatch_ge h).2
    omega
  cases operand with
  | none => exact hlt h
  | some op =>
    obtain ⟨v, -, h⟩ := bind_eq_ok.1 h
    exact hlt h

theorem bind_caseResult {n : Nat} {sel : Except Fault (Option Nat)}
    (hlt : ∀ {j}, sel = .ok (some j) → j < n) :
    sel.bind (caseResult ((List.range n).map fun k : Nat => .ok (.decimal k 0)) none)
      = sel.map fun m => m.elim .null fun k => .decimal k 0 := by
  cases sel with
  | error e => rfl
  | ok m =>
    cases m with
    | none => rfl
    | some j => simp [Except.bind, Except.map, caseResult, hlt rfl]

theorem evalList_eq_map (s : Schema) (row : Row) (es : List Expr) :
    evalList lib s row es = es.map (Expr.eval lib s row) := by
  induction es with
  | nil => rfl
  | cons e es ih => rw [evalList, ih, map_cons]

theorem evalCase_eq_iff {s : Schema} {row : Row} {op op' : Option (Except Fault DbValue)}
    {cs' : List (Except Fault DbValue)} (hlen : cs.length = cs'.length) :
    (∀ results elseResult,
      evalCase lib op cs (evalList lib s row results) (evalOption lib s row elseResult)
        = evalCase lib op' cs' (evalList lib s row results) (evalOption lib s row elseResult)) ↔
    caseMatch lib op cs = caseMatch lib op' cs' := by
  refine ⟨fun h => ?_, fun h results elseResult => by rw [evalCase_eq, evalCase_eq, hlen, h]⟩
  have h := h ((List.range cs.length).map fun k : Nat => .literal (.decimal k 0)) none
  have hresults : evalList lib s row ((List.range cs.length).map fun k : Nat =>
      .literal (.decimal k 0)) = (List.range cs.length).map fun k : Nat => .ok (.decimal k 0) := by
    rw [evalList_eq_map, map_map]
    rfl
  rw [hresults, evalCase_eq, evalCase_eq, ← hlen, length_map, length_range,
    if_neg (not_not.2 rfl), if_neg (not_not.2 rfl), evalOption] at h
  rw [bind_caseResult caseMatch_lt, bind_caseResult fun hm => hlen ▸ caseMatch_lt hm] at h
  cases hm : caseMatch lib op cs <;> cases hm' : caseMatch lib op' cs' <;>
    simp only [hm, hm', Except.map, Except.error.injEq, Except.ok.injEq, reduceCtorEq] at h ⊢
  case error.error => exact h
  case ok.ok m m' => cases m <;> cases m' <;> simp_all

/-- **The two forms of CASE** agree, whatever their results, exactly if no WHEN value is met that
they treat differently; without a WHEN only the first evaluates its operand. -/
theorem case_eq_searched_iff (lib : Library) (s : Schema) (row : Row) (x : Expr)
    (whens : List Expr) :
    (∀ results elseResult, (Expr.caseWhen (some x) whens results elseResult).eval lib s row
      = (Expr.caseWhen none (whens.map (.binaryOp x .eq ·)) results elseResult).eval lib s row) ↔
    match x.eval lib s row with
    | .error _ => whens ≠ []
    | .ok v => FormsAgree lib v (evalList lib s row whens) := by
  have hmap : evalList lib s row (whens.map (.binaryOp x .eq ·))
      = (evalList lib s row whens).map (evalBinary lib .eq (x.eval lib s row)) := by
    simp only [evalList_eq_map, map_map]
    refine map_congr_left fun w _ => ?_
    rw [Function.comp_apply, Expr.eval, Function.comp_apply]
  simp only [Expr.eval, evalOption, hmap]
  rw [evalCase_eq_iff (length_map _).symm]
  cases x.eval lib s row with
  | ok v => exact simpleMatch_eq_searchedMatch
  | error e =>
    cases whens with
    | nil => exact iff_of_false nofun fun h => h rfl
    | cons w ws => exact iff_of_true rfl (cons_ne_nil w ws)

/-- `CASE NULL WHEN NULL THEN TRUE ELSE FALSE` is true; with `WHEN NULL = NULL` it is false. -/
theorem case_null_when_null :
    (Expr.caseWhen (some (.literal .null)) [.literal .null] [.literal (.bool true)]
      (some (.literal (.bool false)))).eval .ascii ⟨[], 0, []⟩ [] = .ok (.bool true) ∧
    (Expr.caseWhen none ([.literal .null].map (.binaryOp (.literal .null) .eq ·))
      [.literal (.bool true)] (some (.literal (.bool false)))).eval .ascii ⟨[], 0, []⟩ []
      = .ok (.bool false) :=
  ⟨rfl, rfl⟩

end Dtdb.Sql
