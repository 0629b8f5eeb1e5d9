import Mathlib.Data.Multiset.Dedup
import Mathlib.Data.Multiset.UnionInter
import Dtdb.Lib.Arrange

/-! # Bags

The entries of a list, up to what a code of them does not tell, with their multiplicities.  In an
arranged list the entries that are level with a least one stand at its head.
-/

namespace Dtdb.Lib

open List Option

variable {A K : Type*}

def bag (f : A → K) (l : List A) : Multiset K := (l.map f : List K)

@[simp] theorem bag_nil (f : A → K) : bag f [] = 0 := rfl

@[simp] theorem bag_cons (f : A → K) (a : A) (l : List A) : bag f (a :: l) = f a ::ₘ bag f l := rfl

theorem bag_append (f : A → K) (l l' : List A) : bag f (l ++ l') = bag f l + bag f l' := by
  simp [bag]

theorem bag_replicate (f : A → K) (n : Nat) (a : A) :
    bag f (replicate n a) = Multiset.replicate n (f a) := by
  rw [bag, map_replicate, Multiset.coe_replicate]

theorem mem_bag {f : A → K} {l : List A} {k : K} : k ∈ bag f l ↔ ∃ a ∈ l, f a = k := by
  simp [bag]

theorem count_dedup_cons [DecidableEq K] (k a : K) (s : Multiset K) :
    (a ::ₘ s).dedup.count k = if k = a then 1 else s.dedup.count k := by
  by_cases hk : k = a <;> simp [Multiset.count_dedup, hk]

section

variable {c : A → A → Ordering} [h : Std.TransCmp c] {l : List A} {k : A}

theorem not_level_of_gt {x : A} (hx : (c k x).isLE) (hne : c x k ≠ .eq)
    (hl : ∀ y ∈ l, (c x y).isLE) : ∀ y ∈ l, c y k ≠ .eq := by
  intro y hy heq
  have hyk : (c y k).isLE = true := by rw [heq]; rfl
  have hxk : (c x k).isLE = true := Std.TransCmp.isLE_trans (hl y hy) hyk
  exact hne (Std.OrientedCmp.isLE_antisymm hxk hx)

theorem span_level (hl : Arranged c l) (hk : ∀ x ∈ l, (c k x).isLE) :
    l.takeWhile (fun x => c x k = .eq) = l.filter (fun x => c x k = .eq) ∧
      l.dropWhile (fun x => c x k = .eq) = l.filter fun x => c x k ≠ .eq := by
  induction l with
  | nil => simp
  | cons x l ih =>
    obtain ⟨hx, hl⟩ := pairwise_cons.1 hl
    by_cases heq : c x k = .eq
    · simpa [heq] using ih hl fun y hy => hk y (mem_cons_of_mem _ hy)
    · have hnone := not_level_of_gt (hk x mem_cons_self) heq hx
      simpa [heq] using ⟨hnone, (filter_eq_self.2 (by simpa using hnone)).symm⟩

variable {f : A → K} [DecidableEq K]

omit h in
theorem count_bag_filter_level (hf : ∀ a b, c a b = .eq ↔ f a = f b) (x : K) :
    (bag f (l.filter fun y => c y k ≠ .eq)).count x = if x = f k then 0 else (bag f l).count x := by
  induction l with
  | nil => simp
  | cons y l ih =>
    by_cases heq : c y k = .eq
    · rw [filter_cons_of_neg (by simpa using heq), ih, bag_cons, Multiset.count_cons,
        (hf y k).1 heq]
      by_cases hx : x = f k <;> simp [hx]
    · rw [filter_cons_of_pos (by simpa using heq), bag_cons, bag_cons, Multiset.count_cons, ih,
        Multiset.count_cons]
      by_cases hx : x = f k
      · subst hx
        have hne : f k ≠ f y := fun hy => heq ((hf y k).2 hy.symm)
        rw [if_pos rfl, if_pos rfl, if_neg hne]
      · rw [if_neg hx, if_neg hx]

omit h in
theorem length_filter_level (hf : ∀ a b, c a b = .eq ↔ f a = f b) :
    (l.filter fun y => c y k = .eq).length = (bag f l).count (f k) := by
  induction l with
  | nil => rfl
  | cons y l ih =>
    by_cases heq : c y k = .eq
    · rw [filter_cons_of_pos (by simpa using heq), length_cons, ih, bag_cons,
        (hf y k).1 heq, Multiset.count_cons_self]
    · rw [filter_cons_of_neg (by simpa using heq), ih, bag_cons,
        Multiset.count_cons_of_ne fun hy => heq ((hf y k).2 hy.symm)]

end

end Dtdb.Lib
