import Mathlib.Data.Sum.Order
import Mathlib.Data.Prod.Lex
import Mathlib.Data.String.Basic
import Mathlib.Data.Rat.Defs
import Mathlib.Algebra.Order.Ring.Rat

/-! # Keys and values

Keys carry the order that the source derives: variants in declaration order, payloads within a
variant, composites lexicographically.  A decimal key is its numeric value. -/

namespace Dtdb.Storage

/-- Estimated payload size, the measure behind every flush and split threshold. -/
class ByteSize (α : Type) where
  byteSize : α → Nat

export ByteSize (byteSize)

def I64 : Type := { n : Int // -2 ^ 63 ≤ n ∧ n < 2 ^ 63 }
deriving DecidableEq

instance : LinearOrder I64 := inferInstanceAs (LinearOrder { _n : Int // _ })

abbrev NaiveDate := Int

abbrev NaiveTime := Nat ×ₗ Nat

abbrev NaiveDateTime := NaiveDate ×ₗ NaiveTime

/-! ## Keys -/

/-- The key variants that hold one value, in their order. -/
inductive Scalar where
  | int (n : I64)
  | date (d : NaiveDate)
  | time (t : NaiveTime)
  | timestamp (t : NaiveDateTime)
  | decimal (d : ℚ)
  | string (s : String)
  | bool (b : Bool)
deriving DecidableEq

abbrev ScalarCode := I64 ⊕ₗ NaiveDate ⊕ₗ NaiveTime ⊕ₗ NaiveDateTime ⊕ₗ ℚ ⊕ₗ String ⊕ₗ Bool

def Scalar.code : Scalar → ScalarCode
  | .int n => .inlₗ n
  | .date d => .inrₗ (.inlₗ d)
  | .time t => .inrₗ (.inrₗ (.inlₗ t))
  | .timestamp t => .inrₗ (.inrₗ (.inrₗ (.inlₗ t)))
  | .decimal d => .inrₗ (.inrₗ (.inrₗ (.inrₗ (.inlₗ d))))
  | .string s => .inrₗ (.inrₗ (.inrₗ (.inrₗ (.inrₗ (.inlₗ s)))))
  | .bool b => .inrₗ (.inrₗ (.inrₗ (.inrₗ (.inrₗ (.inrₗ b)))))

theorem Scalar.code_injective : Function.Injective Scalar.code := by
  intro a b h
  cases a <;> cases b <;> simp_all [Scalar.code, Sum.inlₗ, Sum.inrₗ]

instance : LinearOrder Scalar := LinearOrder.lift' Scalar.code Scalar.code_injective

inductive DbKey where
  | scalar (s : Scalar)
  | composite (keys : List DbKey)

namespace DbKey

@[match_pattern] abbrev int (n : I64) : DbKey := .scalar (.int n)
@[match_pattern] abbrev date (d : NaiveDate) : DbKey := .scalar (.date d)
@[match_pattern] abbrev time (t : NaiveTime) : DbKey := .scalar (.time t)
@[match_pattern] abbrev timestamp (t : NaiveDateTime) : DbKey := .scalar (.timestamp t)
@[match_pattern] abbrev decimal (d : ℚ) : DbKey := .scalar (.decimal d)
@[match_pattern] abbrev string (s : String) : DbKey := .scalar (.string s)
@[match_pattern] abbrev bool (b : Bool) : DbKey := .scalar (.bool b)

mutual

def cmp : DbKey → DbKey → Ordering
  | .scalar a, .scalar b => compare a b
  | .scalar _, .composite _ => .lt
  | .composite _, .scalar _ => .gt
  | .composite as, .composite bs => cmpList as bs

def cmpList : List DbKey → List DbKey → Ordering
  | [], [] => .eq
  | [], _ :: _ => .lt
  | _ :: _, [] => .gt
  | a :: as, b :: bs => (cmp a b).then (cmpList as bs)

end

mutual

theorem cmp_eq_iff : ∀ a b : DbKey, cmp a b = .eq ↔ a = b
  | .scalar a, .scalar b => by simp [cmp, compare_eq_iff_eq]
  | .scalar _, .composite _ | .composite _, .scalar _ => by simp [cmp]
  | .composite as, .composite bs => by simp [cmp, cmpList_eq_iff as bs]

theorem cmpList_eq_iff : ∀ as bs : List DbKey, cmpList as bs = .eq ↔ as = bs
  | [], [] | [], _ :: _ | _ :: _, [] => by simp [cmpList]
  | a :: as, b :: bs => by
    simp [cmpList, cmp_eq_iff a b, cmpList_eq_iff as bs]

end

mutual

theorem cmp_swap : ∀ a b : DbKey, (cmp a b).swap = cmp b a
  | .scalar _, .scalar _ => Std.OrientedOrd.eq_swap.symm
  | .scalar _, .composite _ => rfl
  | .composite _, .scalar _ => rfl
  | .composite as, .composite bs => cmpList_swap as bs

theorem cmpList_swap : ∀ as bs : List DbKey, (cmpList as bs).swap = cmpList bs as
  | [], [] => rfl
  | [], _ :: _ => rfl
  | _ :: _, [] => rfl
  | a :: as, b :: bs => by
    simp [cmpList, Ordering.swap_then, cmp_swap a b, cmpList_swap as bs]

end

mutual

theorem cmp_lt_trans : ∀ a b c : DbKey, cmp a b = .lt → cmp b c = .lt → cmp a c = .lt
  | .scalar a, .scalar b, .scalar c => by
    simp only [cmp, compare_lt_iff_lt]
    exact lt_trans
  | .scalar _, _, .composite _ => fun _ _ => rfl
  | .scalar _, .composite _, .scalar _ | .composite _, .composite _, .scalar _ =>
    fun _ h => by cases h
  | .composite _, .scalar _, _ => fun h _ => by cases h
  | .composite as, .composite bs, .composite cs => cmpList_lt_trans as bs cs

theorem cmpList_lt_trans : ∀ as bs cs : List DbKey,
    cmpList as bs = .lt → cmpList bs cs = .lt → cmpList as cs = .lt
  | [], _, _ :: _ => fun _ _ => rfl
  | [], [], [] | _ :: _, [], _ => fun h _ => by cases h
  | [], _ :: _, [] | _ :: _, _ :: _, [] => fun _ h => by cases h
  | a :: as, b :: bs, c :: cs => by
    simp only [cmpList, Ordering.then_eq_lt, cmp_eq_iff]
    rintro (hab | ⟨rfl, hab⟩) (hbc | ⟨rfl, hbc⟩)
    · exact .inl (cmp_lt_trans a b c hab hbc)
    · exact .inl hab
    · exact .inl hbc
    · exact .inr ⟨rfl, cmpList_lt_trans as bs cs hab hbc⟩

end

theorem cmp_gt_iff (a b : DbKey) : cmp a b = .gt ↔ cmp b a = .lt := by
  rw [← cmp_swap a b]
  cases cmp a b <;> simp

instance : DecidableEq DbKey := fun a b => decidable_of_iff _ (cmp_eq_iff a b)

instance : LE DbKey := ⟨fun a b => cmp a b ≠ .gt⟩

instance : LT DbKey := ⟨fun a b => cmp a b = .lt⟩

theorem le_def (a b : DbKey) : a ≤ b ↔ cmp a b ≠ .gt := Iff.rfl

theorem lt_def (a b : DbKey) : a < b ↔ cmp a b = .lt := Iff.rfl

theorem le_iff (a b : DbKey) : a ≤ b ↔ cmp a b = .lt ∨ a = b := by
  rw [le_def, ← cmp_eq_iff]
  cases cmp a b <;> simp

instance : LinearOrder DbKey where
  le_refl a := (le_iff a a).mpr (.inr rfl)
  le_trans a b c hab hbc := by
    rw [le_iff] at *
    rcases hab with hab | rfl
    · rcases hbc with hbc | rfl
      · exact .inl (cmp_lt_trans a b c hab hbc)
      · exact .inl hab
    · exact hbc
  lt_iff_le_not_ge a b := by
    rw [lt_def, le_def, le_def, ne_eq, ne_eq, not_not, cmp_gt_iff b a]
    cases cmp a b <;> simp
  le_antisymm a b hab hba := by
    rw [le_iff] at hab
    rcases hab with hab | rfl
    · exact absurd ((cmp_gt_iff b a).mpr hab) hba
    · rfl
  le_total a b := by
    rw [le_def, le_def, ne_eq, ne_eq, cmp_gt_iff b a]
    cases cmp a b <;> simp
  toDecidableLE a b := inferInstanceAs (Decidable (cmp a b ≠ .gt))
  toDecidableLT a b := inferInstanceAs (Decidable (cmp a b = .lt))
  toDecidableEq := inferInstance
  compare := cmp
  compare_eq_compareOfLessAndEq a b := by
    unfold compareOfLessAndEq
    have := cmp_eq_iff a b
    by_cases hlt : a < b
    · rw [if_pos hlt]
      exact hlt
    · rw [if_neg hlt]
      split
      · next h => exact this.mpr h
      · next h =>
        rw [lt_def] at hlt
        cases hc : cmp a b
        · exact absurd hc hlt
        · exact absurd (this.mp hc) h
        · rfl

theorem scalar_lt_iff {a b : Scalar} : DbKey.scalar a < .scalar b ↔ a.code < b.code := by
  show compare a.code b.code = .lt ↔ _
  rw [compare_lt_iff_lt]

theorem int_lt_int {m n : I64} : DbKey.int m < .int n ↔ m.1 < n.1 :=
  scalar_lt_iff.trans (by simp [Scalar.code, Sum.inlₗ]; rfl)

mutual

def size : DbKey → Nat
  | .int _ => 8
  | .date _ => 4
  | .time _ => 8
  | .timestamp _ => 8
  | .decimal _ => 16
  | .string s => s.utf8ByteSize
  | .bool _ => 1
  | .composite keys => sizeList keys

def sizeList : List DbKey → Nat
  | [] => 0
  | k :: ks => size k + sizeList ks

end

instance : ByteSize DbKey := ⟨size⟩

example : DbKey.int ⟨5, by decide⟩ < .composite [] := by decide
example : DbKey.composite [.bool true] < .composite [.bool true, .date 0] := by decide

end DbKey

/-! ## Values -/

/-- A float is its bit pattern, a decimal its mantissa and scale. -/
inductive DbValue where
  | int (n : I64)
  | float (bits : BitVec 64)
  | string (s : String)
  | bytes (b : List UInt8)
  | bool (b : Bool)
  | null
  | date (d : NaiveDate)
  | time (t : NaiveTime)
  | timestamp (t : NaiveDateTime)
  | decimal (mantissa : Int) (scale : Nat)
deriving DecidableEq

def DbValue.size : DbValue → Nat
  | .int _ => 8
  | .float _ => 8
  | .string s => s.utf8ByteSize
  | .bytes b => b.length
  | .bool _ => 1
  | .null => 1
  | .date _ => 4
  | .time _ => 8
  | .timestamp _ => 8
  | .decimal .. => 16

instance : ByteSize DbValue := ⟨DbValue.size⟩

end Dtdb.Storage
