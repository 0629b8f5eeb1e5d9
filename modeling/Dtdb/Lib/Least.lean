import Mathlib.Order.Lattice

/-! # The first of the least -/

namespace Dtdb.Lib

variable {A C : Type*} [LinearOrder A] (cost : C → A)

/-- A choice that is given up only for something cheaper. -/
def firstLeast (b : C) (l : List C) : C :=
  l.foldl (fun best y => if cost y < cost best then y else best) b

/-- Cheaper than `b` and all before it, and not dearer than those behind it. -/
def IsFirstLeast (b : C) (l : List C) (x : C) : Prop :=
  ∃ l' r, l = l' ++ x :: r ∧ cost x < cost b ∧ (∀ y ∈ l', cost x < cost y) ∧ ∀ y ∈ r, cost x ≤ cost y

variable {cost}

theorem firstLeast_eq_self {b : C} {l : List C} (h : ∀ y ∈ l, cost b ≤ cost y) :
    firstLeast cost b l = b := by
  unfold firstLeast
  induction l with
  | nil => rfl
  | cons y l ih =>
    rw [List.foldl_cons, if_neg (h y List.mem_cons_self).not_gt]
    exact ih fun z hz => h z (.tail _ hz)

theorem IsFirstLeast.eq {b x : C} {l : List C} (h : IsFirstLeast cost b l x) :
    firstLeast cost b l = x := by
  obtain ⟨l', r, rfl, hb, hl, hr⟩ := h
  unfold firstLeast
  induction l' generalizing b with
  | nil =>
    rw [List.nil_append, List.foldl_cons, if_pos hb]
    exact firstLeast_eq_self hr
  | cons y l' ih =>
    rw [List.cons_append, List.foldl_cons]
    refine ih ?_ fun z hz => hl z (.tail _ hz)
    split
    · exact hl y List.mem_cons_self
    · exact hb

theorem exists_isFirstLeast (cost : C → A) (b : C) (l : List C) :
    (∀ y ∈ l, cost b ≤ cost y) ∨ ∃ x, IsFirstLeast cost b l x := by
  induction l generalizing b with
  | nil => exact .inl (by simp)
  | cons y l ih =>
    by_cases hy : cost y < cost b
    · right
      rcases ih y with hmin | ⟨x, l', r, rfl, hx, hl, hr⟩
      · exact ⟨y, [], l, rfl, hy, by simp, hmin⟩
      · exact ⟨x, y :: l', r, rfl, hx.trans hy, by simpa using ⟨hx, hl⟩, hr⟩
    · rcases ih b with hmin | ⟨x, l', r, rfl, hx, hl, hr⟩
      · exact .inl (by simpa using ⟨not_lt.1 hy, hmin⟩)
      · exact .inr ⟨x, y :: l', r, rfl, hx, by simpa using ⟨hx.trans_le (not_lt.1 hy), hl⟩, hr⟩

end Dtdb.Lib
