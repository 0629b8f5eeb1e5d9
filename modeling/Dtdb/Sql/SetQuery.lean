import Dtdb.Sql.Fold
import Dtdb.Sql.Planner
import Dtdb.Sql.Update

/-! # Set operations

A query expression combines its branches as bags, but passes over the DISTINCT of a SELECT that
stands in a set operation.  With ALL the repetitions are then counted. -/

namespace Dtdb.Sql

open Dtdb.Lib Dtdb.Storage Dtdb.Relational List Option

/-! ## Planned queries have a width -/

variable {plan : LogicalPlan}

namespace Planner

variable {X : Type} {p : Planner X} {scope : Scope}

theorem hasWidth_planProjection {items : List (SelectItem X)} {plan' : LogicalPlan}
    (h : p.planProjection scope items plan = .ok plan') : ∃ n, plan'.HasWidth n := by
  obtain ⟨fields, -, h⟩ := bind_eq_ok.1 h
  cases h
  exact ⟨fields.flatten.length, LogicalPlan.hasWidth_newProjection _ _ (length_map _)
    (length_map _)⟩

theorem hasWidth_sortBy {n : Nat} (h : plan.HasWidth n) (keys : List (Expr × Bool)) :
    (sortBy plan keys).HasWidth n := by
  unfold sortBy
  split
  · exact h
  · exact h

theorem hasWidth_planSelectOver {projection : List (SelectItem X)} {selection having : Option X}
    {groupBy : GroupByExpr X} {orderBy : List (X × Option Bool)} {plan' : LogicalPlan}
    (h : p.planSelectOver scope projection selection groupBy having orderBy plan = .ok plan') :
    ∃ n, plan'.HasWidth n := by
  obtain ⟨_, -, _, -, h⟩ := bind_bind_eq_ok.1 h
  split at h
  · obtain ⟨_, -, _, -, h⟩ := bind_bind_eq_ok.1 h
    obtain ⟨_, -, projected, hprojected, h⟩ := bind_bind_eq_ok.1 h
    obtain ⟨keys, -, h⟩ := bind_eq_ok.1 h
    cases h
    obtain ⟨n, hn⟩ := hasWidth_planProjection hprojected
    exact ⟨n, hasWidth_sortBy hn keys⟩
  · obtain ⟨_, -, h⟩ := bind_eq_ok.1 h
    exact hasWidth_planProjection h

theorem hasWidth_planLimit {limit : LimitClause X} {plan' : LogicalPlan} {n : Nat}
    (hn : plan.HasWidth n) (h : p.planLimit scope limit plan = .ok plan') : plan'.HasWidth n := by
  obtain ⟨_, -, _, -, h⟩ := bind_bind_eq_ok.1 h
  split at h
  · cases h
    exact hn
  · cases h
    exact hn

mutual

theorem hasWidth_planQuery : ∀ (q : Query X) {scope : Scope} {plan : LogicalPlan},
    p.planQuery scope q = .ok plan → ∃ n, plan.HasWidth n
  | .mk recursive ctes body orderBy limit, scope, plan, h => by
    rw [planQuery] at h
    split at h
    · cases h
    · obtain ⟨inner, -, h⟩ := bind_eq_ok.1 h
      split at h
      · next distinct projection tables selection groupBy having =>
        obtain ⟨_, -, _, -, h⟩ := bind_bind_eq_ok.1 h
        obtain ⟨selected, hselected, h⟩ := bind_eq_ok.1 h
        obtain ⟨n, hn⟩ := hasWidth_planSelectOver hselected
        refine ⟨n, hasWidth_planLimit ?_ h⟩
        split
        · exact hn
        · exact hn
      · obtain ⟨set, hset, _, -, h⟩ := bind_bind_eq_ok.1 h
        obtain ⟨keys, -, h⟩ := bind_eq_ok.1 h
        obtain ⟨n, hn⟩ := hasWidth_planSetExpr body hset
        exact ⟨n, hasWidth_planLimit (hasWidth_sortBy hn keys) h⟩

theorem hasWidth_planSetExpr : ∀ (body : SetExpr X) {scope : Scope} {plan : LogicalPlan},
    p.planSetExpr scope body = .ok plan → ∃ n, plan.HasWidth n
  | .select (.mk _ projection tables selection groupBy having), scope, plan, h => by
    obtain ⟨_, -, h⟩ := bind_eq_ok.1 h
    exact hasWidth_planSelectOver h
  | .query q, scope, plan, h => by
    exact hasWidth_planQuery q h
  | .setOperation op quantifier left right, scope, plan, h => by
    obtain ⟨l, hl, r, hr, h⟩ := bind_bind_eq_ok.1 h
    obtain ⟨_, hvalid, h⟩ := bind_eq_ok.1 h
    cases h
    obtain ⟨n, hn⟩ := hasWidth_planSetExpr left hl
    obtain ⟨m, hm⟩ := hasWidth_planSetExpr right hr
    have hnm : n = m := by
      rw [← LogicalPlan.HasWidth.schema l hn, ← LogicalPlan.HasWidth.schema r hm]
      unfold validateSetOpSchemas at hvalid
      split at hvalid
      · cases hvalid
      · next heq => exact not_not.1 heq
    exact ⟨n, hn, hnm ▸ hm⟩
  | .other, scope, plan, h => by
    cases h

end

end Planner

/-! ## Branches -/

section

variable {X : Type}

def Query.ofBody (body : SetExpr X) : Query X := .mk false [] body (.expressions []) ⟨none, none⟩

def SetExpr.isDistinct : SetExpr X → Bool
  | .select (.mk distinct ..) => distinct
  | _ => false

theorem Planner.planQuery_ofBody (p : Planner X) (scope : Scope) (body : SetExpr X) :
    p.planQuery scope (.ofBody body) = (p.planSetExpr scope body).map fun plan =>
      if body.isDistinct then .distinct plan else plan := by
  have hset : ∀ body : SetExpr X, body.isDistinct = false →
      Except.bind (p.planSetExpr scope body) (fun plan => p.planLimit scope ⟨none, none⟩
        (Planner.sortBy plan [])) = (p.planSetExpr scope body).map fun plan =>
          if body.isDistinct then .distinct plan else plan := by
    intro body hbody
    rw [hbody]
    cases p.planSetExpr scope body <;> rfl
  cases body with
  | select s =>
    obtain ⟨distinct, projection, tables, selection, groupBy, having⟩ := s
    change Except.bind (p.planFrom scope tables) (fun plan =>
      Except.bind (p.planSelectOver scope projection selection groupBy having [] plan) fun plan =>
        p.planLimit scope ⟨none, none⟩ (if distinct then .distinct plan else plan)) =
      Except.map _ (Except.bind (p.planFrom scope tables) fun plan =>
        p.planSelectOver scope projection selection groupBy having [] plan)
    cases p.planFrom scope tables with
    | error err => rfl
    | ok plan =>
      cases p.planSelectOver scope projection selection groupBy having [] plan <;> rfl
  | query q => exact hset (.query q) rfl
  | setOperation op quantifier left right => exact hset (.setOperation op quantifier left right) rfl
  | other => exact hset .other rfl

/-- The optimizer, told which columns the whole query refers to. -/
def Optimizer.optimizeFor (o : Optimizer) (columns : List String) (plan : LogicalPlan) : LogicalPlan :=
  eliminateSorts (pushLimitThroughProjection (o.optimizeJoinOrder
    (o.pushDownPredicate columns plan [])))

namespace SqlEngine

variable (e : SqlEngine) (p : Planner X) (scope : Scope) (tx : Transaction) (params : Params)

def optimizeFor (columns : List String) (plan : LogicalPlan) : LogicalPlan :=
  (Optimizer.mk e.lib e.stats).optimizeFor columns plan

def ownBag (body : SetExpr X) : Option (Multiset (List ValueCode)) :=
  (p.planQuery scope (.ofBody body)).toOption.bind fun plan =>
    (e.executeSelect tx params plan).toOption.map fun result => rowBag result.2

/-- The plan of a branch, with its parameters. -/
def boundPlan (p : Planner X) (scope : Scope) (params : Params) (body : SetExpr X) :
    Option LogicalPlan :=
  (p.planSetExpr scope body).toOption.bind fun plan => (plan.substituteParams params).toOption

/-- What a branch returns if its DISTINCT is left out. -/
def branchBag (body : SetExpr X) : Option (Multiset (List ValueCode)) :=
  (boundPlan p scope params body).bind fun plan => e.drainedBag tx params (e.optimize plan)

/-- A set operation returns what it makes of the results of its branches. -/
def SetRight (op : SetOperator) (quantifier : SetQuantifier) (left right : SetExpr X) : Prop :=
  ∀ b l r, e.ownBag p scope tx params (.setOperation op quantifier left right) = some b →
    e.ownBag p scope tx params left = some l → e.ownBag p scope tx params right = some r →
    b = op.type.onBags (quantifier = .all) l r

/-- It is no point lookup, or the lookup finds what the scan of its key does. -/
def RunsAsScan (plan : LogicalPlan) : Prop :=
  (e.executeQuery tx params plan).toOption.map (fun result => rowBag result.2)
    = e.drainedBag tx params plan

/-- A branch gets the same plan with or without the other, and on its own is run as a scan. -/
structure SamePaths (left right : SetExpr X) : Prop where
  planLeft : ∀ l r, boundPlan p scope params left = some l →
    boundPlan p scope params right = some r →
    e.optimizeFor (l.collectColumns ++ r.collectColumns) l = e.optimize l
  planRight : ∀ l r, boundPlan p scope params left = some l →
    boundPlan p scope params right = some r →
    e.optimizeFor (l.collectColumns ++ r.collectColumns) r = e.optimize r
  scans : ∀ body ∈ [left, right], ∀ plan, body.isDistinct = false →
    boundPlan p scope params body = some plan → e.RunsAsScan tx params (e.optimize plan)

variable {e p scope tx params}

theorem runsAsScan_of_matchPointGet (h : matchPointGet params plan = none) :
    e.RunsAsScan tx params plan := by
  unfold RunsAsScan drainedBag
  rw [← executeQuery_eq h, Option.map_map]
  rfl

theorem executeSelect_bag {bound : LogicalPlan}
    (hbound : plan.substituteParams params = .ok bound)
    (hscan : e.RunsAsScan tx params (e.optimize bound)) :
    (e.executeSelect tx params plan).toOption.map (fun result => rowBag result.2)
      = e.drainedBag tx params (e.optimize bound) := by
  rw [executeSelect, hbound]
  exact hscan

theorem boundPlan_eq_some {body : SetExpr X} {bound : LogicalPlan} :
    boundPlan p scope params body = some bound ↔
      ∃ plan, p.planSetExpr scope body = .ok plan ∧ plan.substituteParams params = .ok bound := by
  unfold boundPlan
  simp [bind_eq_some_iff, toOption_eq_some]

theorem hasWidth_optimize {bound : LogicalPlan} {n : Nat} (hn : plan.HasWidth n)
    (hbound : plan.substituteParams params = .ok bound) (columns : List String) :
    (e.optimizeFor columns bound).HasWidth n := by
  have hpushed := (hn.substituteParams plan hbound).pushDownPredicate (Optimizer.mk e.lib e.stats)
    columns bound []
  exact ((hpushed.optimizeJoinOrder _ _).pushLimitThroughProjection _).eliminateSorts _

/-- **A branch on its own**: its DISTINCT counts. -/
theorem ownBag_eq {body : SetExpr X} (hscans : ∀ plan, body.isDistinct = false →
      boundPlan p scope params body = some plan → e.RunsAsScan tx params (e.optimize plan)) :
    e.ownBag p scope tx params body
      = (e.branchBag p scope tx params body).map (onceIf body.isDistinct) := by
  unfold ownBag branchBag boundPlan
  rw [p.planQuery_ofBody]
  cases hplan : p.planSetExpr scope body with
  | error err => rfl
  | ok plan =>
    show (e.executeSelect tx params (if body.isDistinct then .distinct plan else plan)).toOption.map _
      = ((plan.substituteParams params).toOption.bind _).map _
    obtain ⟨n, hn⟩ := Planner.hasWidth_planSetExpr body hplan
    cases hbound : plan.substituteParams params with
    | error f =>
      have herror : ∀ q : LogicalPlan, q.substituteParams params = .error f →
          (e.executeSelect tx params q).toOption.map (fun result => rowBag result.2) = none := by
        intro q hq
        rw [executeSelect, hq]
        rfl
      split
      · refine herror _ ?_
        rw [LogicalPlan.substituteParams, hbound]
        rfl
      · exact herror _ hbound
    | ok bound =>
      show _ = (e.drainedBag tx params (e.optimize bound)).map _
      cases hdistinct : body.isDistinct with
      | false =>
        refine (executeSelect_bag hbound (hscans bound hdistinct ?_)).trans ?_
        · exact boundPlan_eq_some.2 ⟨plan, hplan, hbound⟩
        · cases e.drainedBag tx params (e.optimize bound) <;> rfl
      | true =>
        have hd : (LogicalPlan.distinct plan).substituteParams params = .ok (.distinct bound) := by
          rw [LogicalPlan.substituteParams, hbound]
          rfl
        exact (executeSelect_bag hd (runsAsScan_of_matchPointGet rfl)).trans (drainedBag_distinct
          (hasWidth_optimize hn hbound bound.collectColumns))

/-- **A set operation on its own**: the DISTINCT of its branches does not count. -/
theorem ownBag_setOperation {op : SetOperator} {quantifier : SetQuantifier}
    {left right : SetExpr X} (h : e.SamePaths p scope tx params left right)
    (hplan : p.planSetExpr scope (.setOperation op quantifier left right) = .ok plan) :
    e.ownBag p scope tx params (.setOperation op quantifier left right)
      = (e.branchBag p scope tx params left).bind fun l =>
        (e.branchBag p scope tx params right).map fun r => op.type.onBags (quantifier = .all) l r := by
  obtain ⟨n, hn⟩ := Planner.hasWidth_planSetExpr _ hplan
  unfold ownBag branchBag boundPlan
  rw [p.planQuery_ofBody, hplan]
  obtain ⟨l, hl, r, hr, hplan⟩ := bind_bind_eq_ok.1 hplan
  obtain ⟨_, -, hplan⟩ := bind_eq_ok.1 hplan
  cases hplan
  rw [hl, hr]
  show (e.executeSelect tx params (.setOp l r op.type (quantifier = .all))).toOption.map _
    = ((l.substituteParams params).toOption.bind _).bind fun _ =>
      ((r.substituteParams params).toOption.bind _).map _
  cases hlb : l.substituteParams params with
  | error f =>
    rw [executeSelect, LogicalPlan.substituteParams, hlb]
    rfl
  | ok lb =>
    cases hrb : r.substituteParams params with
    | error f =>
      rw [executeSelect, LogicalPlan.substituteParams, hlb, hrb]
      show none = (e.drainedBag tx params (e.optimize lb)).bind fun _ => none
      cases e.drainedBag tx params (e.optimize lb) <;> rfl
    | ok rb =>
      have hb : (LogicalPlan.setOp l r op.type (quantifier = .all)).substituteParams params
          = .ok (.setOp lb rb op.type (quantifier = .all)) := by
        rw [LogicalPlan.substituteParams, hlb, hrb]
        rfl
      have hlsome := boundPlan_eq_some.2 ⟨l, hl, hlb⟩
      have hrsome := boundPlan_eq_some.2 ⟨r, hr, hrb⟩
      refine (executeSelect_bag hb (runsAsScan_of_matchPointGet rfl)).trans ?_
      refine (drainedBag_setOp (hasWidth_optimize hn.1 hlb _) (hasWidth_optimize hn.2 hrb _) _ _).trans ?_
      show _ = (e.drainedBag tx params (e.optimize lb)).bind fun a =>
        (e.drainedBag tx params (e.optimize rb)).map fun b => op.type.onBags (quantifier = .all) a b
      rw [← h.planLeft lb rb hlsome hrsome, ← h.planRight lb rb hlsome hrsome]
      rfl

def plainPlanner (schemas : String → Option Schema) : Planner Expr where
  lib := .ascii
  schemas := schemas
  planExpr _ x := .ok x
  hasAggregateFunction _ := false
  rewriteHavingExpr _ x found := .ok (x, found)
  text _ := ""

def selectOne (distinct : Bool) : SetExpr Expr :=
  .select (.mk distinct [.exprWithAlias (.literal (.int (wrapI64 1))) "x"] [.mk (.table "t" none) []]
    none (.expressions [] false) none)

def keyPlanner : Planner Expr := plainPlanner fun _ => some keyTable.table.schema

variable {n : Nat} {projection : Option (List Expr × Schema)} {filter : Option Expr}
  {pg : PointGetPlan}

theorem pointScan_eq (h : pointScan params projection filter plan = some pg) :
    pg.projection = projection ∧ ∃ tableName schema range, plan = .scan tableName schema range := by
  unfold pointScan at h
  split at h
  · obtain ⟨_, -, h⟩ := bind_eq_some_iff.1 h
    obtain ⟨_, -, h⟩ := bind_eq_some_iff.1 h
    grind
  · cases h

theorem hasWidth_pointGet (hn : plan.HasWidth n)
    (h : matchPointGet params plan = some pg) :
    ∃ es schema, pg.projection = some (es, schema) ∧ es.length = n ∧ schema.columns.length = n := by
  unfold matchPointGet pointFilter at h
  split at h <;> split at h <;> obtain ⟨hp, _, _, _, rfl⟩ := pointScan_eq h
  · exact ⟨_, _, hp, hn.1, hn.2.2⟩
  · exact ⟨_, _, hp, hn.1, hn.2.2⟩
  · exact hn.elim
  · exact hn.elim

theorem length_of_answer {lib : Library} {row : Row} {es : List Expr} {schema : Schema}
    (hes : pg.projection = some (es, schema)) {rows : List Row}
    (h : pg.answer lib params row = .ok rows) : ∀ row ∈ rows, row.length = es.length := by
  let f := PointGetPlan.evalBound lib params pg.scanSchema
  have hkeep : ∃ keep : Bool, (if keep then es.mapM (f row) >>= fun vals => .ok [vals]
      else .ok []) = Except.ok rows := by
    simp only [PointGetPlan.answer, hes] at h
    split at h
    · obtain ⟨v, -, h⟩ := bind_eq_ok.1 h
      exact ⟨passes v, h⟩
    · exact ⟨true, h⟩
  obtain ⟨_ | _, h⟩ := hkeep
  · cases h
    simp
  · obtain ⟨vals, hvals, h⟩ := bind_eq_ok.1 h
    cases h
    simpa using length_of_walk (f row) (mapM _) mapM_nil (fun _ _ => mapM_cons) hvals

/-- **The rows of an accepted query** have the width of its plan, as the schema that comes with them
has, by a point lookup or by the operators. -/
theorem length_of_executeSelect {q : Query X} (hplan : p.planQuery scope q = .ok plan)
    {result : Schema × List Row} (h : e.executeSelect tx params plan = .ok result) :
    result.1.columns.length = plan.schema.columns.length ∧
      ∀ row ∈ result.2, row.length = plan.schema.columns.length := by
  obtain ⟨n, hn⟩ := Planner.hasWidth_planQuery q hplan
  rw [hn.schema]
  obtain ⟨bound, hbound, h⟩ := bind_eq_ok.1 h
  obtain ⟨folded, hfold, h⟩ := bind_eq_ok.1 h
  rw [foldSubqueries_eq] at hfold
  have hfolded := (hasWidth_optimize hn hbound bound.collectColumns).foldPlan _ hfold
  obtain ⟨found, hpoint, h⟩ := bind_eq_ok.1 h
  unfold executePointGet at hpoint
  split at hpoint
  · cases hpoint
    obtain ⟨op, hop, h⟩ := bind_eq_ok.1 h
    obtain ⟨rows, hrows, h⟩ := bind_eq_ok.1 h
    cases h
    have hw := hfolded.compiled folded hop
    obtain ⟨flow, hflow, hcollect⟩ := bind_eq_ok.1 hrows
    refine ⟨hw.schema, fun row hrow => hw.rows _ flow hflow row ?_⟩
    rw [Flow.collect_eq_ok.1 hcollect]
    exact hrow
  · next pg hpg =>
    obtain ⟨es, schema, hproj, hes, hschema⟩ := hasWidth_pointGet hfolded hpg
    obtain ⟨t, -, hpoint⟩ := bind_eq_ok.1 hpoint
    split at hpoint
    · cases hpoint
      cases h
      simp [hproj, hschema]
    · obtain ⟨rows, hrows, hpoint⟩ := bind_eq_ok.1 hpoint
      cases hpoint
      cases h
      rw [hproj]
      exact ⟨hschema, fun row hrow => (length_of_answer hproj hrows row hrow).trans hes⟩

/-- SELECT 1 FROM t over two rows. -/
theorem length_of_executeSelect_selectOne : ∃ plan result,
    keyPlanner.planQuery .empty (.ofBody (selectOne false)) = .ok plan ∧
    ascii.executeSelect (keySession [wrapI64 1, wrapI64 2]).tx (fun _ => none) plan = .ok result ∧
      result.2.length = 2 ∧ ∀ row ∈ result.2, row.length = plan.schema.columns.length :=
  ⟨_, _, rfl, rfl, rfl, (@length_of_executeSelect _ _ ascii keyPlanner .empty
    (keySession [wrapI64 1, wrapI64 2]).tx (fun _ => none) (.ofBody (selectOne false)) rfl _ rfl).2⟩

end SqlEngine

end

end Dtdb.Sql
