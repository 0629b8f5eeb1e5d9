import Mathlib.Data.Int.ConditionallyCompleteOrder
import Mathlib.Order.CompletePartialOrder
import Mathlib.Order.ConditionallyCompleteLattice.Basic
import Dtdb.Lib.Heap
import Dtdb.Sql.Value

/-! # The order of sorting

The order that sorting, grouping and deduplication use: by type first, NaN last.  A `Runtime` stands
for what it does not settle: the choice among level entries, and the memory at hand. -/

namespace Dtdb.Sql

open Dtdb.Lib Dtdb.Storage Dtdb.Relational

def typeRank : DbValue → Nat
  | .null => 0
  | .bool _ => 1
  | .int _ => 2
  | .float _ => 3
  | .string _ => 4
  | .bytes _ => 5
  | .date _ => 6
  | .time _ => 7
  | .timestamp _ => 8
  | .decimal .. => 9

def totalF64 (a b : BitVec 64) : Ordering :=
  match partialCmp a b with
  | some o => o
  | none => match (f64Rank a).isNone, (f64Rank b).isNone with
    | true, true => .eq
    | true, false => .gt
    | _, _ => .lt

def totalCompare (l r : DbValue) : Ordering :=
  if typeRank l ≠ typeRank r then compare (typeRank l) (typeRank r)
  else match l, r with
    | .bool a, .bool b => compare a b
    | .int a, .int b => compare a b
    | .float a, .float b => totalF64 a b
    | .string a, .string b => compare a b
    | .bytes a, .bytes b => cmp (byteCodes a) (byteCodes b)
    | .date a, .date b => compare a b
    | .time a, .time b => compare a b
    | .timestamp a, .timestamp b => compare a b
    | .decimal m s, .decimal m' s' => compare (decimalValue m s) (decimalValue m' s')
    | _, _ => .eq

def valueEq : DbValue → DbValue → Bool
  | .int l, .int r => l = r
  | .float l, .float r => f64Rank l = f64Rank r
  | .string l, .string r => l = r
  | .bytes l, .bytes r => l = r
  | .bool l, .bool r => l = r
  | .null, .null => true
  | .date l, .date r => l = r
  | .time l, .time r => l = r
  | .timestamp l, .timestamp r => l = r
  | .decimal m s, .decimal m' s' => decimalValue m s = decimalValue m' s'
  | _, _ => false

def rowEq : List DbValue → List DbValue → Bool
  | [], [] => true
  | a :: as, b :: bs => valueEq a b && rowEq as bs
  | _, _ => false

/-- Each direction is `true` for ascending. No operator builds a key that is too short. -/
def compareKeys : List Bool → List DbValue → List DbValue → Ordering
  | [], _, _ => .eq
  | asc :: directions, a, b => match totalCompare (a.headD .null) (b.headD .null) with
    | .eq => compareKeys directions a.tail b.tail
    | o => if asc then o else o.swap

def compareRows : List DbValue → List DbValue → Ordering := List.compareLex totalCompare

/-! ## A linear order behind it -/

section
variable {A B : Type} [LinearOrder A] [LinearOrder B]

theorem cmp_inlₗ (a b : A) : cmp (Sum.inlₗ a : A ⊕ₗ B) (Sum.inlₗ b) = cmp a b :=
  Sum.Lex.inl_strictMono.cmp_map_eq a b

theorem cmp_inrₗ (a b : B) : cmp (Sum.inrₗ a : A ⊕ₗ B) (Sum.inrₗ b) = cmp a b :=
  Sum.Lex.inr_strictMono.cmp_map_eq a b

theorem cmp_inlₗ_inrₗ (a : A) (b : B) : cmp (Sum.inlₗ a : A ⊕ₗ B) (Sum.inrₗ b) = .lt :=
  (cmp_eq_lt_iff _ _).2 (Sum.Lex.inl_lt_inr a b)

theorem cmp_inrₗ_inlₗ (a : A) (b : B) : cmp (Sum.inrₗ b : A ⊕ₗ B) (Sum.inlₗ a) = .gt :=
  (cmp_eq_gt_iff _ _).2 (Sum.Lex.inl_lt_inr a b)

end

/-- The payloads in the order of their types. -/
abbrev ValueCode := Unit ⊕ₗ Bool ⊕ₗ I64 ⊕ₗ WithTop Int ⊕ₗ String ⊕ₗ List Nat ⊕ₗ NaiveDate ⊕ₗ
  NaiveTime ⊕ₗ NaiveDateTime ⊕ₗ ℚ

def floatCode (bits : BitVec 64) : WithTop Int :=
  match f64Rank bits with
  | some i => i
  | none => ⊤

def valueCode : DbValue → ValueCode
  | .null => .inlₗ ()
  | .bool b => .inrₗ (.inlₗ b)
  | .int n => .inrₗ (.inrₗ (.inlₗ n))
  | .float b => .inrₗ (.inrₗ (.inrₗ (.inlₗ (floatCode b))))
  | .string s => .inrₗ (.inrₗ (.inrₗ (.inrₗ (.inlₗ s))))
  | .bytes b => .inrₗ (.inrₗ (.inrₗ (.inrₗ (.inrₗ (.inlₗ (byteCodes b))))))
  | .date d => .inrₗ (.inrₗ (.inrₗ (.inrₗ (.inrₗ (.inrₗ (.inlₗ d))))))
  | .time t => .inrₗ (.inrₗ (.inrₗ (.inrₗ (.inrₗ (.inrₗ (.inrₗ (.inlₗ t)))))))
  | .timestamp t => .inrₗ (.inrₗ (.inrₗ (.inrₗ (.inrₗ (.inrₗ (.inrₗ (.inrₗ (.inlₗ t))))))))
  | .decimal m s =>
    .inrₗ (.inrₗ (.inrₗ (.inrₗ (.inrₗ (.inrₗ (.inrₗ (.inrₗ (.inrₗ (decimalValue m s)))))))))

theorem totalF64_eq (a b : BitVec 64) : totalF64 a b = cmp (floatCode a) (floatCode b) := by
  unfold totalF64 partialCmp floatCode
  cases f64Rank a with
  | none =>
    cases f64Rank b with
    | none => exact (cmp_self_eq_eq (⊤ : WithTop Int)).symm
    | some j => exact ((cmp_eq_gt_iff _ _).2 (WithTop.coe_lt_top j)).symm
  | some i =>
    cases f64Rank b with
    | none => exact ((cmp_eq_lt_iff _ _).2 (WithTop.coe_lt_top i)).symm
    | some j =>
      have h : StrictMono (fun i : Int => (i : WithTop Int)) := WithTop.coe_strictMono
      exact (cmp_eq_compare i j).symm.trans (h.cmp_map_eq i j).symm

theorem totalCompare_eq (l r : DbValue) : totalCompare l r = cmp (valueCode l) (valueCode r) := by
  cases l <;> cases r <;> dsimp only [totalCompare, typeRank, valueCode] <;>
    repeat'
      first
      | rw [cmp_inlₗ]
      | rw [cmp_inrₗ]
      | rw [cmp_inlₗ_inrₗ]
      | rw [cmp_inrₗ_inlₗ]
      | rfl
      | exact totalF64_eq _ _
      | exact (cmp_eq_compare _ _).symm
      | (refine (if_neg (by decide)).trans ?_; unfold cmp cmpUsing; congr)

instance : Std.TransCmp totalCompare where
  eq_swap {a b} := by
    rw [totalCompare_eq, totalCompare_eq, cmp_swap]
  isLE_trans {a b c} := by
    rw [totalCompare_eq, totalCompare_eq, totalCompare_eq, cmp_eq_compare, cmp_eq_compare,
      cmp_eq_compare]
    exact Std.TransOrd.isLE_trans

instance : Std.TransCmp compareRows := inferInstanceAs (Std.TransCmp (List.compareLex totalCompare))

def compareHead (asc : Bool) (a b : List DbValue) : Ordering :=
  if asc then totalCompare (a.headD .null) (b.headD .null)
  else (totalCompare (a.headD .null) (b.headD .null)).swap

theorem compareKeys_cons (asc : Bool) (directions : List Bool) (a b : List DbValue) :
    compareKeys (asc :: directions) a b =
      (compareHead asc a b).then (compareKeys directions a.tail b.tail) := by
  unfold compareHead
  rw [compareKeys]
  cases totalCompare (a.headD .null) (b.headD .null) <;> cases asc <;> rfl

theorem transCmp_on {A B : Type} (f : A → B) (c : B → B → Ordering) [h : Std.TransCmp c] :
    Std.TransCmp fun a b => c (f a) (f b) where
  eq_swap := h.eq_swap
  isLE_trans := h.isLE_trans

instance (asc : Bool) : Std.TransCmp (compareHead asc) := by
  cases asc with
  | true => exact transCmp_on (fun a : List DbValue => a.headD .null) totalCompare
  | false =>
    have h : compareHead false = fun a b => totalCompare (b.headD .null) (a.headD .null) := by
      funext a b
      exact Std.OrientedCmp.eq_swap.symm
    rw [h]
    exact transCmp_on (fun a : List DbValue => a.headD .null) (fun a b => totalCompare b a)

instance (directions : List Bool) : Std.TransCmp (compareKeys directions) := by
  induction directions with
  | nil => exact { eq_swap := rfl, isLE_trans := fun _ _ => rfl }
  | cons asc directions ih =>
    have h : compareKeys (asc :: directions) =
        compareLex (compareHead asc) (fun a b => compareKeys directions a.tail b.tail) := by
      funext a b
      exact compareKeys_cons asc directions a b
    rw [h]
    have := transCmp_on (fun a : List DbValue => a.tail) (compareKeys directions)
    infer_instance

/-! ## What is left open -/

def compareEntries {P : Type} (directions : List Bool) (a b : List DbValue × P) : Ordering :=
  compareKeys directions a.1 b.1

instance {P : Type} (directions : List Bool) :
    Std.TransCmp (compareEntries (P := P) directions) :=
  transCmp_on Prod.fst (compareKeys directions)

/-- Sorts in memory or through runs, a bounded heap, the order of a hash table and the memory at
hand. -/
structure Runtime where
  sortEntries : {P : Type} → List Bool → List (List DbValue × P) → List (List DbValue × P)
  mergeRuns : {P : Type} → List Bool → List (List (List DbValue × P)) → List (List DbValue × P)
  heap : (directions : List Bool) → Heap (compareEntries (P := Row) directions)
  hashOrder : {P : Type} → List P → List P
  memoryBudget : Nat
  estimateRowSize : List DbValue → Nat
  accumulatorSize : Nat
  perm_sortEntries : ∀ {P : Type} directions (l : List (List DbValue × P)),
    (sortEntries directions l).Perm l
  arranged_sortEntries : ∀ {P : Type} directions (l : List (List DbValue × P)),
    Arranged (compareEntries directions) (sortEntries directions l)
  perm_mergeRuns : ∀ {P : Type} directions (runs : List (List (List DbValue × P))),
    (mergeRuns directions runs).Perm runs.flatten
  arranged_mergeRuns : ∀ {P : Type} directions (runs : List (List (List DbValue × P))),
    (∀ run ∈ runs, Arranged (compareEntries directions) run) →
      Arranged (compareEntries directions) (mergeRuns directions runs)
  perm_hashOrder : ∀ {P : Type} (l : List P), (hashOrder l).Perm l

/-- Everything in memory, level entries in the order of their arrival. -/
def Runtime.inMemory : Runtime where
  sortEntries directions l := arrange (compareEntries directions) l
  mergeRuns directions runs := arrange (compareEntries directions) runs.flatten
  heap _ := Heap.ofList _
  hashOrder l := l
  memoryBudget := 67108864
  estimateRowSize _ := 0
  accumulatorSize := 0
  perm_sortEntries _ l := perm_arrange l
  arranged_sortEntries _ l := arranged_arrange l
  perm_mergeRuns _ runs := perm_arrange runs.flatten
  arranged_mergeRuns _ runs _ := arranged_arrange runs.flatten
  perm_hashOrder _ := .rfl

end Dtdb.Sql
