import Dtdb.Lib.Bag
import Dtdb.Sql.Physical

/-! # Rows as bags

Sorting, deduplication and the set operations on whole rows, as operations on multisets.  Two rows
are the same when the order of sorting finds them level. -/

namespace Dtdb.Sql

open Dtdb.Lib Dtdb.Storage Dtdb.Relational Function List

/-! ## Codes of rows -/

def rowCode (row : Row) : List ValueCode := row.map valueCode

def rowBag (rows : List Row) : Multiset (List ValueCode) := bag rowCode rows

theorem totalCompare_eq_eq {a b : DbValue} : totalCompare a b = .eq ↔ valueCode a = valueCode b := by
  rw [totalCompare_eq, cmp_eq_eq_iff]

theorem compareRows_eq_iff (a b : Row) : compareRows a b = .eq ↔ rowCode a = rowCode b := by
  unfold compareRows rowCode
  induction a generalizing b with
  | nil => cases b <;> simp [List.compareLex]
  | cons x a ih =>
    cases b with
    | nil => simp [List.compareLex]
    | cons y b =>
      rw [List.compareLex_cons_cons, List.map_cons, List.map_cons, List.cons.injEq,
        Ordering.then_eq_eq, totalCompare_eq_eq, ih]

theorem floatCode_eq_iff (a b : BitVec 64) : floatCode a = floatCode b ↔ f64Rank a = f64Rank b := by
  unfold floatCode
  cases f64Rank a <;> cases f64Rank b <;> simp

theorem byteCodes_eq_iff (a b : List UInt8) : byteCodes a = byteCodes b ↔ a = b := by
  have h : Injective UInt8.toNat := fun _ _ => UInt8.toNat_inj.1
  exact h.list_map.eq_iff

section

variable {A B : Type}

theorem inlₗ_eq_inlₗ (a b : A) : (Sum.inlₗ a : A ⊕ₗ B) = Sum.inlₗ b ↔ a = b :=
  Sum.inl_injective.eq_iff

theorem inrₗ_eq_inrₗ (a b : B) : (Sum.inrₗ a : A ⊕ₗ B) = Sum.inrₗ b ↔ a = b :=
  Sum.inr_injective.eq_iff

theorem inlₗ_eq_inrₗ (a : A) (b : B) : (Sum.inlₗ a : A ⊕ₗ B) = Sum.inrₗ b ↔ False :=
  iff_of_false Sum.inl_ne_inr not_false

theorem inrₗ_eq_inlₗ (a : A) (b : B) : (Sum.inrₗ b : A ⊕ₗ B) = Sum.inlₗ a ↔ False :=
  iff_of_false Sum.inr_ne_inl not_false

end

theorem valueEq_iff (a b : DbValue) : valueEq a b = true ↔ valueCode a = valueCode b := by
  cases a <;> cases b <;>
    first
    | exact iff_of_false Bool.false_ne_true (by
        simp only [valueCode, inlₗ_eq_inrₗ, inrₗ_eq_inlₗ, inrₗ_eq_inrₗ, not_false_eq_true])
    | exact iff_of_true rfl rfl
    | exact decide_eq_true_iff.trans (by
        simp only [valueCode, inlₗ_eq_inlₗ, inrₗ_eq_inrₗ, floatCode_eq_iff, byteCodes_eq_iff])

theorem rowEq_iff (a b : Row) : rowEq a b = true ↔ rowCode a = rowCode b := by
  induction a generalizing b with
  | nil => cases b <;> simp [rowEq, rowCode]
  | cons x a ih =>
    cases b with
    | nil => simp [rowEq, rowCode]
    | cons y b =>
      have h := ih b
      unfold rowCode at h ⊢
      rw [rowEq, Bool.and_eq_true, valueEq_iff, h, map_cons, map_cons, cons.injEq]

/-! ## Sorting whole rows -/

theorem compareKeys_ascending {n : Nat} {a b : Row} (ha : a.length = n) (hb : b.length = n) :
    compareKeys (ascending n) a b = compareRows a b := by
  induction n generalizing a b with
  | zero =>
    rw [length_eq_zero_iff.1 ha, length_eq_zero_iff.1 hb]
    rfl
  | succ n ih =>
    obtain ⟨x, a, rfl⟩ := exists_cons_of_length_eq_add_one ha
    obtain ⟨y, b, rfl⟩ := exists_cons_of_length_eq_add_one hb
    rw [ascending, List.replicate_succ, compareKeys_cons, compareRows, List.compareLex_cons_cons]
    exact congrArg _ (ih (by simpa using ha) (by simpa using hb))

theorem perm_sortWhole (rt : Runtime) (width : Nat) (rows : List Row) :
    (sortWhole rt width rows).Perm rows := by
  have h := (rt.perm_sortEntries (ascending width) (rows.map fun row => (row, ()))).map Prod.fst
  exact h.trans (by simp [comp_def])

theorem arranged_sortWhole (rt : Runtime) {width : Nat} {rows : List Row}
    (h : ∀ row ∈ rows, row.length = width) : Arranged compareRows (sortWhole rt width rows) := by
  have hsorted : (sortWhole rt width rows).Pairwise fun a b =>
      (compareKeys (ascending width) a b).isLE :=
    pairwise_map.2 (rt.arranged_sortEntries (ascending width) (rows.map fun row => (row, ())))
  refine hsorted.imp_of_mem fun ha hb hle => ?_
  rwa [compareKeys_ascending (h _ ((perm_sortWhole rt width rows).mem_iff.1 ha))
    (h _ ((perm_sortWhole rt width rows).mem_iff.1 hb))] at hle

theorem rowBag_sortWhole (rt : Runtime) (width : Nat) (rows : List Row) :
    rowBag (sortWhole rt width rows) = rowBag rows :=
  Multiset.coe_eq_coe.2 ((perm_sortWhole rt width rows).map _)

/-! ## Deduplication -/

theorem count_dedupAfter {last : Row} {rows : List Row} (hrows : Arranged compareRows rows)
    (hlast : ∀ row ∈ rows, (compareRows last row).isLE) (k : List ValueCode) :
    (rowBag (dedupAfter last rows)).count k
      = if k = rowCode last then 0 else (rowBag rows).dedup.count k := by
  unfold rowBag
  induction rows generalizing last with
  | nil => simp [dedupAfter]
  | cons row rows ih =>
    obtain ⟨hrow, hrows⟩ := pairwise_cons.1 hrows
    have hrest : ∀ r ∈ rows, (compareRows last r).isLE := fun r hr =>
      hlast r (mem_cons_of_mem _ hr)
    rw [dedupAfter]
    by_cases heq : rowEq last row = true
    · rw [if_pos heq, ih hrows hrest, (rowEq_iff last row).1 heq]
      by_cases hk : k = rowCode row
      · rw [if_pos hk, if_pos hk]
      · rw [if_neg hk, if_neg hk, bag_cons, count_dedup_cons, if_neg hk]
    · rw [if_neg heq, bag_cons, Multiset.count_cons, ih hrows hrow, bag_cons, count_dedup_cons]
      -- a row level with the last one would come before this one
      have hnone : rowCode last ≠ rowCode row ∧ rowCode last ∉ bag rowCode rows := by
        refine ⟨fun h => heq ((rowEq_iff _ _).2 h), fun hmem => ?_⟩
        obtain ⟨r, hr, hcode⟩ := mem_bag.1 hmem
        have hne : compareRows row last ≠ .eq := fun h =>
          heq ((rowEq_iff _ _).2 ((compareRows_eq_iff _ _).1 h).symm)
        exact not_level_of_gt (hlast row mem_cons_self) hne hrow r hr
          ((compareRows_eq_iff _ _).2 hcode)
      by_cases hk : k = rowCode row
      · subst hk
        simp [Ne.symm hnone.1]
      · by_cases hl : k = rowCode last
        · subst hl
          simp [hnone.1, hnone.2]
        · simp [hk, hl]

/-- **Deduplication of sorted rows** leaves each row once. -/
theorem rowBag_dedupRows {rows : List Row} (hrows : Arranged compareRows rows) :
    rowBag (dedupRows rows) = (rowBag rows).dedup := by
  cases rows with
  | nil => rfl
  | cons row rows =>
    obtain ⟨hrow, hrows⟩ := pairwise_cons.1 hrows
    refine Multiset.ext.2 fun k => ?_
    have hcount := count_dedupAfter hrows hrow k
    unfold rowBag at hcount ⊢
    rw [dedupRows, bag_cons, Multiset.count_cons, hcount, bag_cons, count_dedup_cons]
    by_cases hk : k = rowCode row <;> simp [hk]

/-! ## Set operations -/

section

variable {K : Type} [DecidableEq K]

/-- What a set operation makes of two bags. -/
def SetOpType.onBags (op : SetOpType) (all : Bool) (l r : Multiset K) : Multiset K :=
  match op, all with
  | .union, true => l + r
  | .union, false => (l + r).dedup
  | .intersect, true => l ∩ r
  | .intersect, false => (l ∩ r).dedup
  | .except, true => l - r
  | .except, false => l.dedup - r

theorem SetOpType.count_onBags (op : SetOpType) (all : Bool) (l r : Multiset K) (k : K) :
    (op.onBags all l r).count k = setOpEmitCount op all (l.count k) (r.count k) := by
  cases op <;> cases all <;> simp only [onBags, setOpEmitCount, Multiset.count_dedup,
    Multiset.count_add, Multiset.count_inter, Multiset.count_sub, ← Multiset.count_pos]
  · simp
  · by_cases hl : 0 < l.count k <;> by_cases hr : r.count k = 0 <;> simp [hl, hr]
    omega

/-- A bag, each entry once if `distinct` says so. -/
def onceIf (distinct : Bool) (b : Multiset K) : Multiset K := if distinct then b.dedup else b

theorem count_onceIf (distinct : Bool) (b : Multiset K) (k : K) :
    (onceIf distinct b).count k = if distinct then min (b.count k) 1 else b.count k := by
  cases distinct with
  | false => rfl
  | true =>
    show b.dedup.count k = min (b.count k) 1
    rw [Multiset.count_dedup]
    split
    · next h =>
      have := Multiset.count_pos.2 h
      omega
    · next h =>
      rw [Multiset.count_eq_zero.2 h]
      rfl

/-- Repetitions in operands that should have a row once do not show in the result. -/
def SetOpType.Unseen (op : SetOpType) (all dl dr : Bool) (leftCount rightCount : Nat) : Prop :=
  match op, all with
  | .union, true => (dl = true → leftCount ≤ 1) ∧ (dr = true → rightCount ≤ 1)
  | .intersect, true => dl = true ∨ dr = true → leftCount ≤ 1 ∨ rightCount ≤ 1
  | .except, true =>
    leftCount ≤ 1 ∨ if dl then leftCount ≤ rightCount else dr = true → rightCount ≤ 1
  | _, false => True

theorem SetOpType.emitCount_eq_iff (op : SetOpType) (all dl dr : Bool) (a b : Nat) :
    setOpEmitCount op all a b = setOpEmitCount op all (if dl then min a 1 else a)
      (if dr then min b 1 else b) ↔ op.Unseen all dl dr a b := by
  cases op <;> cases all <;> cases dl <;> cases dr <;>
    simp only [setOpEmitCount, Unseen, Bool.false_eq_true, if_true, if_false, true_or, or_true, or_self,
      true_imp_iff, false_imp_iff, and_true, true_and, iff_true] <;>
    (try split_ifs) <;> omega

/-- **When DISTINCT makes no difference** to a set operation. -/
theorem SetOpType.onBags_onceIf_iff (op : SetOpType) (all dl dr : Bool) (l r : Multiset K) :
    op.onBags all l r = op.onBags all (onceIf dl l) (onceIf dr r) ↔
      ∀ k, op.Unseen all dl dr (l.count k) (r.count k) := by
  simp [Multiset.ext, count_onBags, count_onceIf, emitCount_eq_iff]

end

theorem setOpEmitCount_zero (op : SetOpType) (all : Bool) : setOpEmitCount op all 0 0 = 0 := by
  cases op <;> cases all <;> rfl

theorem mergeSets_turn (op : SetOpType) (all : Bool) {ls rs : List Row}
    (hl : Arranged compareRows ls) (hr : Arranged compareRows rs) (hne : ls ≠ [] ∨ rs ≠ []) (n : Nat) :
    ∃ key, (key ∈ ls ∨ key ∈ rs) ∧ (∀ row ∈ ls, (compareRows key row).isLE) ∧
      (∀ row ∈ rs, (compareRows key row).isLE) ∧
      mergeSets op all (n + 1) ls rs =
        replicate (setOpEmitCount op all ((rowBag ls).count (rowCode key))
          ((rowBag rs).count (rowCode key))) key ++
        mergeSets op all n (ls.filter fun row => compareRows row key ≠ .eq)
          (rs.filter fun row => compareRows row key ≠ .eq) := by
  have hhead : ∀ {key rows}, Arranged compareRows (key :: rows) →
      ∀ row ∈ key :: rows, (compareRows key row).isLE := fun {key _} h =>
    forall_mem_cons.2 ⟨by rw [(compareRows_eq_iff key key).2 rfl]; rfl,
      (pairwise_cons.1 h).1⟩
  have hturn : ∀ key, (∀ row ∈ ls, (compareRows key row).isLE) →
      (∀ row ∈ rs, (compareRows key row).isLE) →
      replicate (setOpEmitCount op all (consumeEqual key ls).1 (consumeEqual key rs).1) key ++
        mergeSets op all n (consumeEqual key ls).2 (consumeEqual key rs).2
      = replicate (setOpEmitCount op all ((rowBag ls).count (rowCode key))
          ((rowBag rs).count (rowCode key))) key ++
        mergeSets op all n (ls.filter fun row => compareRows row key ≠ .eq)
          (rs.filter fun row => compareRows row key ≠ .eq) := by
    intro key hkl hkr
    unfold consumeEqual rowBag
    dsimp only
    rw [(span_level hl hkl).1, (span_level hl hkl).2, (span_level hr hkr).1, (span_level hr hkr).2,
      length_filter_level compareRows_eq_iff, length_filter_level compareRows_eq_iff]
  match ls, rs, hne with
  | l :: ls, [], _ =>
    exact ⟨l, .inl mem_cons_self, hhead hl, nofun, hturn l (hhead hl) nofun⟩
  | [], r :: rs, _ =>
    exact ⟨r, .inr mem_cons_self, nofun, hhead hr, hturn r nofun (hhead hr)⟩
  | l :: ls, r :: rs, _ =>
    rw [mergeSets]
    dsimp only
    split
    · next hgt =>
      have hle : (compareRows r l).isLE := by
        rw [Std.OrientedCmp.gt_iff_lt.1 hgt]
        rfl
      have hrl := fun row hrow => Std.TransCmp.isLE_trans hle (hhead hl row hrow)
      exact ⟨r, .inr mem_cons_self, hrl, hhead hr, hturn r hrl (hhead hr)⟩
    · next hgt =>
      have hle : (compareRows l r).isLE := by
        cases h : compareRows l r with
        | gt => exact absurd h hgt
        | _ => rfl
      have hlr := fun row hrow => Std.TransCmp.isLE_trans hle (hhead hr row hrow)
      exact ⟨l, .inl mem_cons_self, hhead hl, hlr, hturn l (hhead hl) hlr⟩

/-- **The merge of sorted rows** is the set operation on their bags. -/
theorem rowBag_mergeSets {op : SetOpType} {all : Bool} {n : Nat} {ls rs : List Row}
    (hl : Arranged compareRows ls) (hr : Arranged compareRows rs) (hn : ls.length + rs.length < n) :
    rowBag (mergeSets op all n ls rs) = op.onBags all (rowBag ls) (rowBag rs) := by
  refine Multiset.ext.2 fun k => ?_
  rw [SetOpType.count_onBags]
  induction n generalizing ls rs with
  | zero => omega
  | succ n ih =>
    by_cases hne : ls ≠ [] ∨ rs ≠ []
    · obtain ⟨key, hmem, -, -, hturn⟩ := mergeSets_turn op all hl hr hne n
      -- the least row itself goes, so that the rest is shorter
      have hshort : (ls.filter fun row => compareRows row key ≠ .eq).length +
          (rs.filter fun row => compareRows row key ≠ .eq).length < n := by
        set p := fun row => decide (compareRows row key ≠ .eq) with hp
        have hkey : ¬p key = true := by
          simp [hp, (compareRows_eq_iff key key).2 rfl]
        have hls := length_filter_le p ls
        have hrs := length_filter_le p rs
        rcases hmem with hmem | hmem
        · have := length_filter_lt_length_iff_exists.2 ⟨key, hmem, hkey⟩
          omega
        · have := length_filter_lt_length_iff_exists.2 ⟨key, hmem, hkey⟩
          omega
      have hrest := ih (hl.filter _) (hr.filter _) hshort
      unfold rowBag at hrest hturn ⊢
      rw [hturn, bag_append, Multiset.count_add, bag_replicate, Multiset.count_replicate, hrest,
        count_bag_filter_level compareRows_eq_iff, count_bag_filter_level compareRows_eq_iff]
      by_cases hk : k = rowCode key
      · subst hk
        simp [setOpEmitCount_zero]
      · simp [hk, Ne.symm hk]
    · obtain ⟨rfl, rfl⟩ : ls = [] ∧ rs = [] := by simpa [not_or] using hne
      exact (setOpEmitCount_zero op all).symm

end Dtdb.Sql
