import Dtdb.Sql.Width

/-! # Folding and draining

A query that is no point lookup is folded, compiled and drained; deduplications and set operations
at its top act on the bags of rows below them. -/

namespace Dtdb.Sql

open Dtdb.Lib Dtdb.Storage Dtdb.Relational Option

/-! ## Folding -/

section

variable {e : SqlEngine} {tx : Transaction} {params : Params}

mutual

theorem foldExpr_of_plain : ∀ (x : Expr), x.containsSubquery = false → e.foldExpr tx params x = .ok x
  | .binaryOp left op right, h => by
    obtain ⟨hl, hr⟩ := Bool.or_eq_false_iff.1 h
    rw [SqlEngine.foldExpr, foldExpr_of_plain left hl, foldExpr_of_plain right hr]
    rfl
  | .not inner, h | .isNull inner, h => by
    rw [SqlEngine.foldExpr, foldExpr_of_plain inner h]
    rfl
  | .caseWhen operand conditions results elseResult, h => by
    obtain ⟨h, helse⟩ := Bool.or_eq_false_iff.1 h
    obtain ⟨h, hresults⟩ := Bool.or_eq_false_iff.1 h
    obtain ⟨hoperand, hconditions⟩ := Bool.or_eq_false_iff.1 h
    rw [SqlEngine.foldExpr, foldOption_of_plain operand hoperand, foldList_of_plain conditions hconditions,
      foldList_of_plain results hresults, foldOption_of_plain elseResult helse]
    rfl
  | .function name args, h => by
    rw [SqlEngine.foldExpr, foldList_of_plain args h]
    rfl
  | .inList x list, h => by
    obtain ⟨hx, hlist⟩ := Bool.or_eq_false_iff.1 h
    rw [SqlEngine.foldExpr, foldExpr_of_plain x hx, foldList_of_plain list hlist]
    rfl
  | .cast x target, h => by
    rw [SqlEngine.foldExpr, foldExpr_of_plain x h]
    rfl
  | .column .., _ | .literal _, _ | .parameter _, _ | .matchAgainst .., _ => by
    rw [SqlEngine.foldExpr]

theorem foldList_of_plain : ∀ (xs : List Expr), listContainsSubquery xs = false →
    e.foldList tx params xs = .ok xs
  | [], _ => by rw [SqlEngine.foldList]
  | x :: xs, h => by
    obtain ⟨hx, hxs⟩ := Bool.or_eq_false_iff.1 h
    rw [SqlEngine.foldList, foldExpr_of_plain x hx, foldList_of_plain xs hxs]
    rfl

theorem foldOption_of_plain : ∀ (x : Option Expr), optionContainsSubquery x = false →
    e.foldOption tx params x = .ok x
  | none, _ => by rw [SqlEngine.foldOption]
  | some x, h => by
    rw [SqlEngine.foldOption, foldExpr_of_plain x h]
    rfl

end

theorem foldKeys_of_plain {keys : List (Expr × Bool)}
    (h : keys.any (fun k => k.1.containsSubquery) = false) : e.foldKeys tx params keys = .ok keys := by
  induction keys with
  | nil => rw [SqlEngine.foldKeys]
  | cons k keys ih =>
    obtain ⟨hk, hkeys⟩ := Bool.or_eq_false_iff.1 h
    rw [SqlEngine.foldKeys, foldExpr_of_plain k.1 hk, ih hkeys]
    rfl

theorem foldAggrs_of_plain {aggrs : List AggregateExpr}
    (h : aggrs.any (fun a => a.expr.containsSubquery) = false) :
    e.foldAggrs tx params aggrs = .ok aggrs := by
  induction aggrs with
  | nil => rw [SqlEngine.foldAggrs]
  | cons a aggrs ih =>
    obtain ⟨ha, haggrs⟩ := Bool.or_eq_false_iff.1 h
    have hfold : e.foldAggregate tx params a = .ok a := by
      have hexpr : e.foldExpr tx params a.expr = .ok a.expr := foldExpr_of_plain a.expr ha
      cases a <;>
      · rw [AggregateExpr.expr] at hexpr
        rw [SqlEngine.foldAggregate, hexpr]
        rfl
    rw [SqlEngine.foldAggrs, hfold, ih haggrs]
    rfl

theorem foldPlan_of_plain : ∀ (plan : LogicalPlan), plan.containsSubquery = false →
    e.foldPlan tx params plan = .ok plan
  | .scan .., _ | .indexScan .., _ | .fullTextScan .., _ => by rw [SqlEngine.foldPlan]
  | .filter source predicate, h => by
    obtain ⟨hp, hs⟩ := Bool.or_eq_false_iff.1 h
    rw [SqlEngine.foldPlan, foldPlan_of_plain source hs, foldExpr_of_plain predicate hp]
    rfl
  | .projection source expressions _ _, h => by
    obtain ⟨hp, hs⟩ := Bool.or_eq_false_iff.1 h
    rw [SqlEngine.foldPlan, foldPlan_of_plain source hs, foldList_of_plain expressions hp]
    rfl
  | .join left right condition _ _, h => by
    obtain ⟨h, hr⟩ := Bool.or_eq_false_iff.1 h
    obtain ⟨hc, hl⟩ := Bool.or_eq_false_iff.1 h
    rw [SqlEngine.foldPlan, foldPlan_of_plain left hl, foldPlan_of_plain right hr,
      foldExpr_of_plain condition hc]
    rfl
  | .aggregate source groupBy aggrs _ _, h => by
    obtain ⟨h, hs⟩ := Bool.or_eq_false_iff.1 h
    obtain ⟨hg, ha⟩ := Bool.or_eq_false_iff.1 h
    rw [SqlEngine.foldPlan, foldPlan_of_plain source hs, foldList_of_plain groupBy hg,
      foldAggrs_of_plain ha]
    rfl
  | .sort source keys, h => by
    obtain ⟨hk, hs⟩ := Bool.or_eq_false_iff.1 h
    rw [SqlEngine.foldPlan, foldPlan_of_plain source hs, foldKeys_of_plain hk]
    rfl
  | .limit source _ _, h | .distinct source, h => by
    rw [SqlEngine.foldPlan, foldPlan_of_plain source h]
    rfl
  | .setOp left right _ _, h => by
    obtain ⟨hl, hr⟩ := Bool.or_eq_false_iff.1 h
    rw [SqlEngine.foldPlan, foldPlan_of_plain left hl, foldPlan_of_plain right hr]
    rfl

theorem foldSubqueries_eq (e : SqlEngine) (tx : Transaction) (params : Params) (plan : LogicalPlan) :
    e.foldSubqueries tx params plan = e.foldPlan tx params plan := by
  unfold SqlEngine.foldSubqueries
  split
  · rfl
  · next h => exact (foldPlan_of_plain plan (by simpa using h)).symm

end

/-! ## Point lookups -/

/-- Neither a scan nor a filter nor a projection: no part of a point lookup. -/
def LogicalPlan.isOther : LogicalPlan → Bool
  | .scan .. | .filter .. | .projection .. => false
  | _ => true

variable {plan : LogicalPlan}

theorem foldPlan_cases {e : SqlEngine} {tx : Transaction} {params : Params} {plan' : LogicalPlan}
    (h : e.foldPlan tx params plan = .ok plan') :
    (∃ tableName schema range, plan = .scan tableName schema range ∧ plan' = plan) ∨
    (∃ source predicate source' predicate', plan = .filter source predicate ∧
      plan' = .filter source' predicate' ∧ e.foldPlan tx params source = .ok source') ∨
    (∃ source es names schema source' es', plan = .projection source es names schema ∧
      plan' = .projection source' es' names schema ∧ e.foldPlan tx params source = .ok source') ∨
    (plan.isOther ∧ plan'.isOther) := by
  cases plan with
  | scan tableName schema range =>
    cases h
    exact .inl ⟨tableName, schema, range, rfl, rfl⟩
  | filter source predicate =>
    obtain ⟨source', hsource, predicate', -, h⟩ := bind_bind_eq_ok.1 h
    cases h
    exact .inr (.inl ⟨source, predicate, source', predicate', rfl, rfl, hsource⟩)
  | projection source es names schema =>
    obtain ⟨source', hsource, es', -, h⟩ := bind_bind_eq_ok.1 h
    cases h
    exact .inr (.inr (.inl ⟨source, es, names, schema, source', es', rfl, rfl, hsource⟩))
  | indexScan | fullTextScan =>
    cases h
    exact .inr (.inr (.inr ⟨rfl, rfl⟩))
  | limit | distinct =>
    obtain ⟨_, -, h⟩ := bind_eq_ok.1 h
    cases h
    exact .inr (.inr (.inr ⟨rfl, rfl⟩))
  | sort | setOp =>
    obtain ⟨_, -, _, -, h⟩ := bind_bind_eq_ok.1 h
    cases h
    exact .inr (.inr (.inr ⟨rfl, rfl⟩))
  | join | aggregate =>
    obtain ⟨_, -, _, -, h⟩ := bind_bind_eq_ok.1 h
    obtain ⟨_, -, h⟩ := bind_eq_ok.1 h
    cases h
    exact .inr (.inr (.inr ⟨rfl, rfl⟩))

section

variable {e : SqlEngine} {tx : Transaction} {params : Params}
variable {projection : Option (List Expr × Schema)} {filter : Option Expr}
variable (projection' : Option (List Expr × Schema)) (filter' : Option Expr)
variable {plan plan' : LogicalPlan}

theorem matchPointGet_isOther (h : plan.isOther = true) :
    pointScan params projection' filter' plan = none ∧ pointFilter params projection' plan = none ∧
      matchPointGet params plan = none := by
  cases plan with
  | scan | filter | projection => cases h
  | _ => exact ⟨rfl, rfl, rfl⟩

theorem pointScan_scan {tableName : String} {schema : Schema} {range : Option (PlanKey × PlanKey)}
    (h : pointScan params projection filter (.scan tableName schema range) = none) :
    pointScan params projection' filter' (.scan tableName schema range) = none := by
  cases range with
  | none => rfl
  | some range =>
    obtain ⟨start, stop⟩ := range
    rw [pointScan] at h ⊢
    cases hstart : (start.resolve params).toOption with
    | none => rfl
    | some startKey =>
      cases hstop : (stop.resolve params).toOption with
      | none => rfl
      | some stopKey =>
        rw [hstart, hstop] at h
        by_cases heq : startKey = stopKey
        · simp [heq] at h
        · simp [heq]

theorem pointScan_foldPlan (hfold : e.foldPlan tx params plan = .ok plan')
    (h : pointScan params projection filter plan = none) :
    pointScan params projection' filter' plan' = none := by
  rcases foldPlan_cases hfold with ⟨t, s, r, rfl, rfl⟩ | ⟨_, _, _, _, rfl, rfl, -⟩ |
    ⟨_, _, _, _, _, _, rfl, rfl, -⟩ | ⟨-, hother⟩
  · exact pointScan_scan projection' filter' h
  · rfl
  · rfl
  · exact (matchPointGet_isOther projection' filter' hother).1

theorem pointFilter_foldPlan (hfold : e.foldPlan tx params plan = .ok plan')
    (h : pointFilter params projection plan = none) : pointFilter params projection' plan' = none := by
  rcases foldPlan_cases hfold with ⟨t, s, r, rfl, rfl⟩ | ⟨_, _, _, predicate, rfl, rfl, hsource⟩ |
    ⟨_, _, _, _, _, _, rfl, rfl, -⟩ | ⟨-, hother⟩
  · exact pointScan_scan projection' none h
  · exact pointScan_foldPlan projection' (some predicate) hsource h
  · rfl
  · exact (matchPointGet_isOther projection' none hother).2.1

theorem matchPointGet_foldPlan (hfold : e.foldPlan tx params plan = .ok plan')
    (h : matchPointGet params plan = none) : matchPointGet params plan' = none := by
  rcases foldPlan_cases hfold with ⟨t, s, r, rfl, rfl⟩ | ⟨_, _, _, predicate, rfl, rfl, hsource⟩ |
    ⟨_, _, _, schema, _, es, rfl, rfl, hsource⟩ | ⟨-, hother⟩
  · exact h
  · exact pointScan_foldPlan none (some predicate) hsource h
  · exact pointFilter_foldPlan (some (es, schema)) hsource h
  · exact (matchPointGet_isOther none none hother).2.2

end

/-! ## Draining -/

namespace SqlEngine

variable (e : SqlEngine) (tx : Transaction) (params : Params)

/-- A plan that is folded, compiled and drained. -/
def drained (plan : LogicalPlan) : Except Fault (List Row) := do
  let plan ← e.foldSubqueries tx params plan
  let op ← e.compileQuery plan
  op.run (e.env tx params)

variable {e tx params} {rows : List Row}

theorem executeQuery_eq (h : matchPointGet params plan = none) :
    (e.executeQuery tx params plan).toOption.map Prod.snd = (e.drained tx params plan).toOption := by
  unfold executeQuery drained
  rw [foldSubqueries_eq]
  cases hfolded : e.foldPlan tx params plan with
  | error => rfl
  | ok folded =>
    have hpoint : e.executePointGet tx params folded = .ok none := by
      rw [executePointGet, matchPointGet_foldPlan hfolded h]
    simp only [bind, Except.bind, hpoint]
    cases e.compileQuery folded with
    | error => rfl
    | ok op =>
      dsimp only
      cases op.run (e.env tx params) <;> rfl

variable (e tx params) in
def operator (plan : LogicalPlan) : Option PhysicalOperator :=
  (e.foldPlan tx params plan).toOption.bind fun folded => (e.compile folded none).toOption

theorem operator_distinct :
    e.operator tx params (.distinct plan) = (e.operator tx params plan).map .distinct := by
  unfold operator
  rw [foldPlan]
  cases e.foldPlan tx params plan with
  | error => rfl
  | ok folded =>
    show (e.compile folded none >>= _).toOption = (e.compile folded none).toOption.map _
    cases e.compile folded none <;> rfl

theorem operator_setOp {left right : LogicalPlan} {op : SetOpType} {all : Bool} :
    e.operator tx params (.setOp left right op all) = (e.operator tx params left).bind fun l =>
      (e.operator tx params right).map fun r => .setOp l r op all l.schema := by
  unfold operator
  rw [foldPlan]
  cases e.foldPlan tx params left with
  | error => rfl
  | ok l =>
    cases e.foldPlan tx params right with
    | error =>
      show none = (e.compile l none).toOption.bind fun _ => none
      cases e.compile l none <;> rfl
    | ok r =>
      show (e.compile l none >>= fun lop => e.compile r none >>= _).toOption
        = (e.compile l none).toOption.bind fun lop => (e.compile r none).toOption.map _
      cases e.compile l none <;> cases e.compile r none <;> rfl

variable {n : Nat}

theorem hasWidth_operator (hn : plan.HasWidth n) {op : PhysicalOperator}
    (h : e.operator tx params plan = some op) : op.HasWidth n := by
  obtain ⟨folded, hfolded, hop⟩ := bind_eq_some_iff.1 h
  rw [toOption_eq_some] at hfolded hop
  exact (hn.foldPlan plan hfolded).compiled folded hop

theorem drained_eq (hn : plan.HasWidth n) : (e.drained tx params plan).toOption =
    (e.operator tx params plan).bind fun op => (op.run (e.env tx params)).toOption := by
  rw [drained, foldSubqueries_eq, operator]
  cases hfolded : e.foldPlan tx params plan with
  | error => rfl
  | ok folded =>
    have hcompile : e.compileQuery folded = e.compile folded none :=
      (hn.foldPlan plan hfolded).compilePhysical_eq _ _ folded _ none
    show (e.compileQuery folded >>= _).toOption = (e.compile folded none).toOption.bind _
    rw [hcompile]
    cases e.compile folded none <;> rfl

theorem length_of_drained (hn : plan.HasWidth n) (h : e.drained tx params plan = .ok rows) :
    ∀ row ∈ rows, row.length = n := by
  rw [← toOption_eq_some, drained_eq hn] at h
  obtain ⟨op, hop, h⟩ := bind_eq_some_iff.1 h
  obtain ⟨flow, hflow, h⟩ := bind_eq_ok.1 (toOption_eq_some.1 h)
  intro row hrow
  refine (hasWidth_operator hn hop).rows _ flow hflow row ?_
  rw [Flow.collect_eq_ok.1 h]
  exact hrow

theorem run_setOp (env : Env) (left right : PhysicalOperator) (op : SetOpType) (all : Bool)
    (schema : Schema) : ((PhysicalOperator.setOp left right op all schema).run env).toOption =
      (left.run env).toOption.bind fun ls => (right.run env).toOption.map fun rs =>
        mergeSets op all (ls.length + rs.length + 1)
          (sortWhole env.runtime left.schema.columns.length ls)
          (sortWhole env.runtime right.schema.columns.length rs) := by
  unfold PhysicalOperator.run
  rw [PhysicalOperator.execute]
  cases left.execute env with
  | error => rfl
  | ok lefts =>
    cases right.execute env with
    | error =>
      show none = lefts.collect.toOption.bind fun _ => none
      cases lefts.collect <;> rfl
    | ok rights =>
      show (setOpRows ..).collect.toOption = lefts.collect.toOption.bind fun ls =>
        rights.collect.toOption.map _
      rw [setOpRows]
      cases lefts.collect <;> cases rights.collect <;> rfl

theorem drained_distinct (hn : plan.HasWidth n) : (e.drained tx params (.distinct plan)).toOption =
    (e.drained tx params plan).toOption.map fun given =>
      dedupRows (sortWhole e.runtime n given) := by
  have hw : (LogicalPlan.distinct plan).HasWidth n := hn
  rw [drained_eq hn, drained_eq hw, operator_distinct]
  cases hop : e.operator tx params plan with
  | none => rfl
  | some op =>
    rw [← (hasWidth_operator hn hop).schema]
    simp only [Option.map_some, Option.bind_some, PhysicalOperator.run, PhysicalOperator.execute]
    cases op.execute (e.env tx params) with
    | error => rfl
    | ok flow =>
      show (distinctRows ..).collect.toOption = flow.collect.toOption.map _
      rw [distinctRows]
      cases flow.collect <;> rfl

theorem drained_setOp {left right : LogicalPlan} (hl : left.HasWidth n) (hr : right.HasWidth n)
    {op : SetOpType} {all : Bool} : (e.drained tx params (.setOp left right op all)).toOption =
      (e.drained tx params left).toOption.bind fun ls =>
        (e.drained tx params right).toOption.map fun rs => mergeSets op all (ls.length + rs.length + 1)
          (sortWhole e.runtime n ls) (sortWhole e.runtime n rs) := by
  have hw : (LogicalPlan.setOp left right op all).HasWidth n := ⟨hl, hr⟩
  rw [drained_eq hl, drained_eq hr, drained_eq hw, operator_setOp]
  cases hlop : e.operator tx params left with
  | none => rfl
  | some l =>
    cases hrop : e.operator tx params right with
    | none => cases h : (l.run (e.env tx params)).toOption <;> simp [h]
    | some r =>
      have hrun := run_setOp (e.env tx params) l r op all l.schema
      rw [(hasWidth_operator hl hlop).schema, (hasWidth_operator hr hrop).schema] at hrun
      exact hrun

variable (e tx params) in
def drainedBag (plan : LogicalPlan) : Option (Multiset (List ValueCode)) :=
  (e.drained tx params plan).toOption.map rowBag

/-- **A deduplication at the top of a plan** makes the bag a set. -/
theorem drainedBag_distinct (hn : plan.HasWidth n) :
    e.drainedBag tx params (.distinct plan) = (e.drainedBag tx params plan).map Multiset.dedup := by
  unfold drainedBag
  rw [drained_distinct hn]
  cases h : e.drained tx params plan with
  | error => rfl
  | ok given =>
    have hlen := length_of_drained hn h
    show some _ = some _
    rw [rowBag_dedupRows (arranged_sortWhole _ hlen), rowBag_sortWhole]

/-- **A set operation at the top of a plan** is that of the bags. -/
theorem drainedBag_setOp {left right : LogicalPlan} (hl : left.HasWidth n) (hr : right.HasWidth n)
    (op : SetOpType) (all : Bool) :
    e.drainedBag tx params (.setOp left right op all) = (e.drainedBag tx params left).bind fun l =>
      (e.drainedBag tx params right).map fun r => op.onBags all l r := by
  unfold drainedBag
  rw [drained_setOp hl hr]
  cases hls : e.drained tx params left with
  | error => rfl
  | ok ls =>
    cases hrs : e.drained tx params right with
    | error => rfl
    | ok rs =>
      show some _ = some _
      rw [rowBag_mergeSets (arranged_sortWhole _ (length_of_drained hl hls))
        (arranged_sortWhole _ (length_of_drained hr hrs)), rowBag_sortWhole, rowBag_sortWhole]
      rw [(perm_sortWhole _ _ ls).length_eq, (perm_sortWhole _ _ rs).length_eq]
      exact Nat.lt_succ_self _

end SqlEngine

end Dtdb.Sql
