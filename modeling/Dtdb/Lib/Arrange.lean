import Mathlib.Data.List.Sort
import Mathlib.Data.List.Perm.Subperm
import Mathlib.Order.Defs.Unbundled

/-! # Arrangements

A list is arranged when no entry compares greater than a later one.  Entries may be level without
being equal, so a list has many arrangements.  A window of one is a run of consecutive entries.
-/

namespace Dtdb.Lib

variable {A : Type*}

def window (skip : Nat) (count : Option Nat) (l : List A) : List A :=
  match count with
  | none => l.drop skip
  | some n => (l.drop skip).take n

theorem window_sublist (skip : Nat) (count : Option Nat) (l : List A) :
    (window skip count l).Sublist l := by
  cases count with
  | none => exact List.drop_sublist skip l
  | some n => exact (List.take_sublist n _).trans (List.drop_sublist skip l)

variable (c : A → A → Ordering)

def Arranged (l : List A) : Prop := l.Pairwise fun a b => (c a b).isLE

def arrange (l : List A) : List A := l.insertionSort fun a b => (c a b).isLE

/-- A list is the window of some arrangement of another. -/
def IsWindow (skip : Nat) (count : Option Nat) (l out : List A) : Prop :=
  ∃ arranged : List A, arranged.Perm l ∧ Arranged c arranged ∧ out = window skip count arranged

variable {c}

theorem perm_arrange (l : List A) : (arrange c l).Perm l := List.perm_insertionSort _ l

section
variable [h : Std.TransCmp c]

theorem isLE_total (a b : A) : (c a b).isLE = true ∨ (c b a).isLE = true := by
  rw [h.eq_swap (a := b)]
  cases c a b <;> simp

theorem arranged_arrange (l : List A) : Arranged c (arrange c l) := by
  have : IsTrans A fun a b => (c a b).isLE = true := ⟨fun _ _ _ => Std.TransCmp.isLE_trans⟩
  have : Std.Total fun a b : A => (c a b).isLE = true := ⟨isLE_total⟩
  exact List.pairwise_insertionSort _ l

theorem map_eq_of_arranged {K : Type*} {f : A → K} (hf : ∀ a b, c a b = .eq ↔ f a = f b)
    {l l' : List A} (hperm : (l.map f).Perm (l'.map f)) (hl : Arranged c l) (hl' : Arranged c l') :
    l.map f = l'.map f := by
  have hle : ∀ {x y : A} {l : List A}, Arranged c (y :: l) → f x ∈ (y :: l).map f →
      (c y x).isLE := by
    intro x y l hl hx
    obtain ⟨z, hz, hzx⟩ := List.mem_map.1 hx
    have hlevel : (c z x).isLE := by simp [(hf z x).2 hzx]
    rcases List.mem_cons.1 hz with rfl | hz
    · exact hlevel
    · exact Std.TransCmp.isLE_trans ((List.pairwise_cons.1 hl).1 z hz) hlevel
  induction l generalizing l' with
  | nil => exact hperm.nil_eq
  | cons a l ih =>
    obtain _ | ⟨b, l'⟩ := l'
    · cases hperm.eq_nil
    · have hab : f a = f b := by
        refine (hf a b).1 (Std.OrientedCmp.isLE_antisymm (hle hl ?_) (hle hl' ?_))
        · exact hperm.mem_iff.2 (by simp)
        · exact hperm.mem_iff.1 (by simp)
      rw [List.map_cons, List.map_cons, hab] at hperm ⊢
      rw [ih hperm.cons_inv (List.pairwise_cons.1 hl).2 (List.pairwise_cons.1 hl').2]

end

end Dtdb.Lib
