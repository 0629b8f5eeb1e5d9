import Dtdb.Sql.Engine
import Dtdb.Sql.Sorting

/-! # Plans with a projection on top

Every planned query ends in a projection, under sorts, limits, deduplications and set operations
only.  All its rows have the width of its schema. -/

namespace Dtdb.Sql

open Dtdb.Lib Dtdb.Storage Dtdb.Relational List Option

/-- The plan ends in projections to so many columns. -/
def LogicalPlan.HasWidth (n : Nat) : LogicalPlan → Prop
  | .projection _ expressions fieldNames schema =>
    expressions.length = n ∧ fieldNames.length = n ∧ schema.columns.length = n
  | .filter source _ => source.HasWidth n
  | .sort source _ => source.HasWidth n
  | .limit source _ _ => source.HasWidth n
  | .distinct source => source.HasWidth n
  | .setOp left right _ _ => left.HasWidth n ∧ right.HasWidth n
  | _ => False

namespace LogicalPlan

variable {n : Nat}

theorem length_new (columns : List Column) : (Schema.new columns).columns.length = columns.length := by
  simp [Schema.new]

theorem hasWidth_newProjection (lib : Library) (source : LogicalPlan) {expressions : List Expr}
    {fieldNames : List String} (he : expressions.length = n) (hf : fieldNames.length = n) :
    (newProjection lib source expressions fieldNames).HasWidth n := by
  refine ⟨he, hf, ?_⟩
  rw [length_new, length_map, length_zip, he, hf, min_self]

theorem HasWidth.schema : ∀ (plan : LogicalPlan), plan.HasWidth n → plan.schema.columns.length = n
  | .projection .., h => h.2.2
  | .filter source _, h | .sort source _, h | .limit source _ _, h | .distinct source, h =>
    HasWidth.schema source h
  | .setOp left _ _ _, h => HasWidth.schema left h.1

/-! ## Passes that keep it -/

variable {params : Params}

theorem length_substituteList {es es' : List Expr} (h : substituteList params es = .ok es') :
    es'.length = es.length :=
  length_of_walk (Expr.substituteParams params) (substituteList params) rfl (fun _ _ => rfl) h

namespace HasWidth

theorem substituteParams : ∀ (plan : LogicalPlan) {plan' : LogicalPlan},
    plan.HasWidth n → plan.substituteParams params = .ok plan' → plan'.HasWidth n
  | .projection .., plan', h, hs => by
    obtain ⟨_, -, es, hes, hs⟩ := bind_bind_eq_ok.1 hs
    cases hs
    exact ⟨(length_substituteList hes).trans h.1, h.2⟩
  | .filter source _, plan', h, hs | .sort source _, plan', h, hs => by
    obtain ⟨s, hsource, _, -, hs⟩ := bind_bind_eq_ok.1 hs
    cases hs
    show s.HasWidth n
    exact substituteParams source h hsource
  | .limit source _ _, plan', h, hs => by
    obtain ⟨s, hsource, _, -, hs⟩ := bind_bind_eq_ok.1 hs
    obtain ⟨_, -, hs⟩ := bind_eq_ok.1 hs
    cases hs
    show s.HasWidth n
    exact substituteParams source h hsource
  | .distinct source, plan', h, hs => by
    obtain ⟨s, hsource, hs⟩ := bind_eq_ok.1 hs
    cases hs
    show s.HasWidth n
    exact substituteParams source h hsource
  | .setOp left right _ _, plan', h, hs => by
    obtain ⟨l, hleft, r, hright, hs⟩ := bind_bind_eq_ok.1 hs
    cases hs
    exact ⟨substituteParams left h.1 hleft, substituteParams right h.2 hright⟩

theorem filterBy (plan : LogicalPlan) (h : plan.HasWidth n) (conjuncts : List Expr) :
    (Sql.filterBy plan conjuncts).HasWidth n := by
  unfold Sql.filterBy
  split
  · exact h
  · exact h

theorem pushDownPredicate (o : Optimizer) (columns : List String) :
    ∀ (plan : LogicalPlan) (conjuncts : List Expr), plan.HasWidth n →
      (o.pushDownPredicate columns plan conjuncts).HasWidth n
  | .projection .., conjuncts, h =>
    filterBy _ (hasWidth_newProjection o.lib _ h.1 h.2.1) conjuncts
  | .filter source _, _, h => pushDownPredicate o columns source _ h
  | .sort source _, conjuncts, h => pushDownPredicate o columns source conjuncts h
  | .distinct source, conjuncts, h => pushDownPredicate o columns source conjuncts h
  | .limit source lim offset, conjuncts, h =>
    filterBy (.limit _ lim offset)
      (pushDownPredicate o columns source [] h) conjuncts
  | .setOp left right op all, conjuncts, h =>
    filterBy (.setOp _ _ op all)
      ⟨pushDownPredicate o columns left [] h.1,
        pushDownPredicate o columns right [] h.2⟩ conjuncts

theorem optimizeJoinOrder (o : Optimizer) :
    ∀ (plan : LogicalPlan), plan.HasWidth n → (o.optimizeJoinOrder plan).HasWidth n
  | .projection .., h => hasWidth_newProjection o.lib _ h.1 h.2.1
  | .filter source _, h | .sort source _, h | .limit source _ _, h | .distinct source, h =>
    optimizeJoinOrder o source h
  | .setOp left right _ _, h => ⟨optimizeJoinOrder o left h.1, optimizeJoinOrder o right h.2⟩

theorem sinkLimit (lim offset : Option Expr) :
    ∀ (plan : LogicalPlan), plan.HasWidth n → (Sql.sinkLimit lim offset plan).HasWidth n
  | .projection .., h => h
  | .filter .., h | .sort .., h | .limit .., h | .distinct .., h | .setOp .., h => h

theorem pushLimitThroughProjection :
    ∀ (plan : LogicalPlan), plan.HasWidth n → (Sql.pushLimitThroughProjection plan).HasWidth n
  | .projection .., h => h
  | .limit source lim offset, h =>
    sinkLimit lim offset _ (pushLimitThroughProjection source h)
  | .filter source _, h | .sort source _, h | .distinct source, h =>
    pushLimitThroughProjection source h
  | .setOp left right _ _, h => ⟨pushLimitThroughProjection left h.1,
      pushLimitThroughProjection right h.2⟩

theorem tryPromoteToIndexScan :
    ∀ (plan : LogicalPlan) {plan' : LogicalPlan} {sortCol : String}, plan.HasWidth n →
      Sql.tryPromoteToIndexScan plan sortCol = some plan' → plan'.HasWidth n
  | .projection .., plan', sortCol, h, hp => by
    obtain ⟨name, -, hp⟩ := bind_eq_some_iff.1 hp
    obtain ⟨source, -, rfl⟩ := map_eq_some_iff.1 hp
    exact h
  | .filter source _, plan', sortCol, h, hp | .limit source _ _, plan', sortCol, h, hp
  | .distinct source, plan', sortCol, h, hp => by
    obtain ⟨s, hs, rfl⟩ := map_eq_some_iff.1 hp
    show s.HasWidth n
    exact tryPromoteToIndexScan source h hs
  | .sort .., plan', sortCol, h, hp | .setOp .., plan', sortCol, h, hp => by cases hp

theorem eliminateSort (source : LogicalPlan) (h : source.HasWidth n)
    (keys : List (Expr × Bool)) : (Sql.eliminateSort source keys).HasWidth n := by
  unfold Sql.eliminateSort
  split
  · split
    · exact h
    · cases hp : Sql.tryPromoteToIndexScan source _ with
      | none => exact h
      | some plan => exact tryPromoteToIndexScan source h hp
  · exact h

theorem eliminateSorts :
    ∀ (plan : LogicalPlan), plan.HasWidth n → (Sql.eliminateSorts plan).HasWidth n
  | .projection .., h => h
  | .sort source keys, h => eliminateSort _ (eliminateSorts source h) keys
  | .filter source _, h | .limit source _ _, h | .distinct source, h =>
    eliminateSorts source h
  | .setOp left right _ _, h => ⟨eliminateSorts left h.1, eliminateSorts right h.2⟩

theorem foldPlan {e : SqlEngine} {tx : Transaction} :
    ∀ (plan : LogicalPlan) {plan' : LogicalPlan}, plan.HasWidth n →
      e.foldPlan tx params plan = .ok plan' → plan'.HasWidth n
  | .projection .., plan', h, hs => by
    obtain ⟨_, -, es, hes, hs⟩ := bind_bind_eq_ok.1 hs
    cases hs
    exact ⟨(length_of_walk (e.foldExpr tx params) (e.foldList tx params) rfl (fun _ _ => rfl)
      hes).trans h.1, h.2⟩
  | .filter source _, plan', h, hs | .sort source _, plan', h, hs => by
    obtain ⟨s, hsource, _, -, hs⟩ := bind_bind_eq_ok.1 hs
    cases hs
    show s.HasWidth n
    exact foldPlan source h hsource
  | .limit source _ _, plan', h, hs | .distinct source, plan', h, hs => by
    obtain ⟨s, hsource, hs⟩ := bind_eq_ok.1 hs
    cases hs
    show s.HasWidth n
    exact foldPlan source h hsource
  | .setOp left right _ _, plan', h, hs => by
    obtain ⟨l, hleft, r, hright, hs⟩ := bind_bind_eq_ok.1 hs
    cases hs
    exact ⟨foldPlan left h.1 hleft, foldPlan right h.2 hright⟩

/-! ## Compiling -/

end HasWidth

theorem compilePhysical_limit (lib : Library) (memoryBudget : Nat) (source : LogicalPlan)
    (hsort : ∀ inner keys, source ≠ .sort inner keys) (lim offset : Option Expr)
    (columns : Option (List String)) :
    compilePhysical lib memoryBudget (.limit source lim offset) columns =
      (do .ok (.limit (← compilePhysical lib memoryBudget source columns) lim offset)) := by
  cases source with
  | sort inner keys => exact absurd rfl (hsort inner keys)
  | _ => rfl

/-- **What is asked for above a projection makes no difference.** -/
theorem HasWidth.compilePhysical_eq (lib : Library) (memoryBudget : Nat) :
    ∀ (plan : LogicalPlan), plan.HasWidth n → ∀ columns columns',
      compilePhysical lib memoryBudget plan columns = compilePhysical lib memoryBudget plan columns'
  | .projection .., _, _, _ => rfl
  | .filter source predicate, h, columns, columns' | .sort source keys, h, columns, columns' => by
    rw [compilePhysical, compilePhysical,
      HasWidth.compilePhysical_eq lib memoryBudget source h _ (parentColsUnion columns' _)]
  | .distinct source, h, columns, columns' => by
    rw [compilePhysical, compilePhysical,
      HasWidth.compilePhysical_eq lib memoryBudget source h columns columns']
  | .setOp left right op all, h, columns, columns' => by
    rw [compilePhysical, compilePhysical,
      HasWidth.compilePhysical_eq lib memoryBudget left h.1 columns columns',
      HasWidth.compilePhysical_eq lib memoryBudget right h.2 columns columns']
  | .limit source lim offset, h, columns, columns' => by
    have ih := HasWidth.compilePhysical_eq lib memoryBudget source h columns columns'
    have hlim := fun hsort => compilePhysical_limit lib memoryBudget source hsort lim offset
    cases source with
    | sort source keys =>
      rw [compilePhysical, compilePhysical,
        HasWidth.compilePhysical_eq lib memoryBudget source h _ (parentColsUnion columns' _)]
    | _ => rw [hlim (by nofun), hlim (by nofun), ih]

end LogicalPlan

/-! ## Rows -/

theorem mem_keyedRows {lib : Library} {s : Schema} {keys : List Expr} {rows : Flow Row Fault}
    {entries : List (List DbValue × Row)} (h : keyedRows lib s keys rows = .ok entries)
    {x : List DbValue × Row} (hx : x ∈ entries) : x.2 ∈ rows.items :=
  (keyedRows_spec h).1 ▸ mem_map_of_mem hx

theorem mem_dedupAfter {last row : Row} {rows : List Row} (h : row ∈ dedupAfter last rows) :
    row ∈ rows := by
  induction rows generalizing last with
  | nil => cases h
  | cons r rows ih =>
    rw [dedupAfter] at h
    split at h
    · exact mem_cons_of_mem _ (ih h)
    · rcases mem_cons.1 h with rfl | h
      · exact mem_cons_self
      · exact mem_cons_of_mem _ (ih h)

theorem mem_dedupRows {row : Row} {rows : List Row} (h : row ∈ dedupRows rows) : row ∈ rows := by
  cases rows with
  | nil => cases h
  | cons r rows =>
    rcases mem_cons.1 h with rfl | h
    · exact mem_cons_self
    · exact mem_cons_of_mem _ (mem_dedupAfter h)

theorem mem_mergeSets {op : SetOpType} {all : Bool} {n : Nat} {ls rs : List Row} {row : Row}
    (h : row ∈ mergeSets op all n ls rs) : row ∈ ls ∨ row ∈ rs := by
  induction n generalizing ls rs with
  | zero => cases h
  | succ n ih =>
    unfold mergeSets at h
    dsimp only at h
    split at h
    · cases h
    · next key hkey =>
      rcases mem_append.1 h with h | h
      · cases eq_of_mem_replicate h
        match ls, rs, hkey with
        | l :: _, [], hkey =>
          cases hkey
          exact .inl mem_cons_self
        | [], r :: _, hkey =>
          cases hkey
          exact .inr mem_cons_self
        | l :: _, r :: _, hkey =>
          cases hkey
          split
          · exact .inr mem_cons_self
          · exact .inl mem_cons_self
      · exact (ih h).imp (fun h => (dropWhile_sublist _).subset h)
          fun h => (dropWhile_sublist _).subset h

namespace PhysicalOperator

variable {n : Nat} {source : PhysicalOperator}

/-- The rows that an operator hands out have the width of its schema. -/
structure HasWidth (n : Nat) (op : PhysicalOperator) : Prop where
  schema : op.schema.columns.length = n
  rows : ∀ env flow, op.execute env = .ok flow → ∀ row ∈ flow.items, row.length = n

theorem HasWidth.of_source {op : PhysicalOperator} (h : source.HasWidth n)
    (hschema : op.schema = source.schema)
    (hrows : ∀ env flow, op.execute env = .ok flow → ∃ given, source.execute env = .ok given ∧
      ∀ row ∈ flow.items, row ∈ given.items) : op.HasWidth n := by
  refine ⟨hschema ▸ h.schema, fun env flow hflow row hrow => ?_⟩
  obtain ⟨rows, hsource, hsub⟩ := hrows env flow hflow
  exact h.rows env rows hsource row (hsub row hrow)

theorem HasWidth.filter (h : source.HasWidth n) (predicate : Expr) :
    (PhysicalOperator.filter source predicate).HasWidth n := by
  refine h.of_source rfl fun env flow hflow => ?_
  obtain ⟨rows, hrows, _, -, hflow⟩ := bind_bind_eq_ok.1 hflow
  cases hflow
  refine ⟨rows, hrows, fun row hrow => ?_⟩
  obtain ⟨a, ha, bs, hbs, hmem⟩ := Flow.mem_expand hrow
  obtain ⟨v, -, hbs⟩ := bind_eq_ok.1 hbs
  split at hbs
  · cases hbs
    cases mem_singleton.1 hmem
    exact ha
  · cases hbs
    cases hmem

theorem HasWidth.limit (h : source.HasWidth n) (lim offset : Option Expr) :
    (PhysicalOperator.limit source lim offset).HasWidth n := by
  refine h.of_source rfl fun env flow hflow => ?_
  obtain ⟨rows, hrows, _, -, hflow⟩ := bind_bind_eq_ok.1 hflow
  obtain ⟨_, -, hflow⟩ := bind_eq_ok.1 hflow
  cases hflow
  exact ⟨rows, hrows, fun row => Flow.mem_slice⟩

theorem HasWidth.sort (h : source.HasWidth n) (keys : List (Expr × Bool)) :
    (PhysicalOperator.sort source keys).HasWidth n := by
  refine h.of_source rfl fun env flow hflow => ?_
  obtain ⟨rows, hrows, keys', -, hflow⟩ := bind_bind_eq_ok.1 hflow
  cases hflow
  refine ⟨rows, hrows, fun row hrow => ?_⟩
  obtain ⟨as, has, hmem⟩ := Flow.mem_ofExcept hrow
  obtain ⟨entries, hentries, has⟩ := bind_eq_ok.1 has
  cases has
  obtain ⟨x, hx, rfl⟩ := mem_map.1 hmem
  exact mem_keyedRows hentries ((env.runtime.perm_sortEntries _ entries).mem_iff.1 hx)

theorem HasWidth.topN (h : source.HasWidth n) (keys : List (Expr × Bool)) (k : Nat) :
    (PhysicalOperator.topN source keys k).HasWidth n := by
  refine h.of_source rfl fun env flow hflow => ?_
  obtain ⟨rows, hrows, keys', -, hflow⟩ := bind_bind_eq_ok.1 hflow
  cases hflow
  refine ⟨rows, hrows, fun row hrow => ?_⟩
  unfold topNRows at hrow
  split at hrow
  · cases hrow
  · obtain ⟨as, has, hmem⟩ := Flow.mem_ofExcept hrow
    obtain ⟨entries, hentries, has⟩ := bind_eq_ok.1 has
    cases has
    obtain ⟨x, hx, rfl⟩ := mem_map.1 hmem
    obtain ⟨arranged, hperm, -, hwin⟩ := (env.runtime.heap _).isWindow_least k entries
    rw [hwin] at hx
    exact mem_keyedRows hentries (hperm.mem_iff.1 ((window_sublist _ _ _).subset hx))

theorem HasWidth.distinct (h : source.HasWidth n) :
    (PhysicalOperator.distinct source).HasWidth n := by
  refine h.of_source rfl fun env flow hflow => ?_
  obtain ⟨rows, hrows, hflow⟩ := bind_eq_ok.1 hflow
  cases hflow
  refine ⟨rows, hrows, fun row hrow => ?_⟩
  obtain ⟨as, has, hmem⟩ := Flow.mem_ofExcept hrow
  obtain ⟨items, hitems, has⟩ := bind_eq_ok.1 has
  cases has
  rw [Flow.collect_eq_ok.1 hitems]
  exact (perm_sortWhole env.runtime _ items).mem_iff.1 (mem_dedupRows hmem)

theorem HasWidth.setOp {left right : PhysicalOperator} (hl : left.HasWidth n)
    (hr : right.HasWidth n) (op : SetOpType) (all : Bool) :
    (PhysicalOperator.setOp left right op all left.schema).HasWidth n := by
  refine ⟨hl.schema, fun env flow hflow row hrow => ?_⟩
  obtain ⟨lefts, hlefts, rights, hrights, hflow⟩ := bind_bind_eq_ok.1 hflow
  cases hflow
  obtain ⟨as, has, hmem⟩ := Flow.mem_ofExcept hrow
  obtain ⟨ls, hls, rs, hrs, has⟩ := bind_bind_eq_ok.1 has
  cases has
  rcases mem_mergeSets hmem with hmem | hmem
  · refine hl.rows env lefts hlefts row ?_
    rw [Flow.collect_eq_ok.1 hls]
    exact (perm_sortWhole env.runtime _ ls).mem_iff.1 hmem
  · refine hr.rows env rights hrights row ?_
    rw [Flow.collect_eq_ok.1 hrs]
    exact (perm_sortWhole env.runtime _ rs).mem_iff.1 hmem

end PhysicalOperator

theorem hasWidth_finishSort {n : Nat} {source op : PhysicalOperator} (h : source.HasWidth n)
    {keys : List (Expr × Bool)} {fetch : Option Nat} (hop : finishSort keys fetch source = .ok op) :
    op.HasWidth n := by
  obtain ⟨keys', -, hop⟩ := bind_eq_ok.1 hop
  cases fetch with
  | none =>
    cases hop
    exact h.sort keys'
  | some k =>
    cases hop
    exact h.topN keys' k

/-- **The rows of a compiled plan** have the width of the plan. -/
theorem LogicalPlan.HasWidth.compiled {n : Nat} {lib : Library} {memoryBudget : Nat} :
    ∀ (plan : LogicalPlan) {columns : Option (List String)} {op : PhysicalOperator},
      plan.HasWidth n → compilePhysical lib memoryBudget plan columns = .ok op → op.HasWidth n
  | .projection source expressions fieldNames _, columns, op, h, hop => by
    obtain ⟨src, -, es, hes, hop⟩ := bind_bind_eq_ok.1 hop
    cases hop
    have hlen := (length_of_walk (Expr.bindColumns src.schema) (bindList src.schema) rfl
      (fun _ _ => rfl) hes).trans h.1
    refine ⟨(hasWidth_newProjection lib (schemaOnly src.schema) hlen h.2.1).2.2,
      fun env flow hflow row hrow => ?_⟩
    obtain ⟨rows, -, es, hes, hflow⟩ := bind_bind_eq_ok.1 hflow
    cases hflow
    obtain ⟨a, -, bs, hbs, hmem⟩ := Flow.mem_expand hrow
    obtain ⟨vals, hvals, hbs⟩ := bind_eq_ok.1 hbs
    cases hbs
    cases mem_singleton.1 hmem
    rw [length_evalAll hvals, LogicalPlan.length_substituteList hes, hlen]
  | .filter source predicate, columns, op, h, hop => by
    obtain ⟨src, hsrc, _, -, hop⟩ := bind_bind_eq_ok.1 hop
    cases hop
    exact (HasWidth.compiled source h hsrc).filter _
  | .distinct source, columns, op, h, hop => by
    obtain ⟨src, hsrc, hop⟩ := bind_eq_ok.1 hop
    cases hop
    exact (HasWidth.compiled source h hsrc).distinct
  | .sort source keys, columns, op, h, hop => by
    obtain ⟨src, hsrc, hop⟩ := bind_eq_ok.1 hop
    exact hasWidth_finishSort (HasWidth.compiled source h hsrc) hop
  | .setOp left right op all, columns, _, h, hop => by
    obtain ⟨l, hl, r, hr, hop⟩ := bind_bind_eq_ok.1 hop
    cases hop
    exact (HasWidth.compiled left h.1 hl).setOp (HasWidth.compiled right h.2 hr) op all
  | .limit source lim offset, columns, op, h, hop => by
    have ih := @HasWidth.compiled n lib memoryBudget source columns
    cases source with
    | sort source keys =>
      obtain ⟨src, hsrc, sorted, hsorted, hop⟩ := bind_bind_eq_ok.1 hop
      cases hop
      exact (hasWidth_finishSort (HasWidth.compiled source h hsrc) hsorted).limit lim offset
    | scan | indexScan | fullTextScan => exact False.elim h
    | _ =>
      obtain ⟨src, hsrc, hop⟩ := bind_eq_ok.1 hop
      cases hop
      exact (ih h hsrc).limit lim offset

end Dtdb.Sql
