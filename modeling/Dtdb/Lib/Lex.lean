import Mathlib.Data.List.Lex
import Mathlib.Order.Lattice

/-! # Texts in lexicographic order -/

namespace Dtdb.Lib

variable {A : Type*} [LinearOrder A]

theorem cons_lt_cons {a b : A} {l t : List A} : a :: l < b :: t ↔ a < b ∨ a = b ∧ l < t :=
  List.cons_lt_cons_iff

theorem le_append (l t : List A) : l ≤ l ++ t := by
  induction l with
  | nil => exact not_lt.1 (List.not_lt_nil t)
  | cons a l ih =>
    rw [List.cons_append, ← not_lt]
    simpa using ih

theorem append_lt_append (l : List A) {a b : A} (h : a < b) (r t : List A) :
    l ++ a :: r < l ++ b :: t := by
  induction l with
  | nil => exact cons_lt_cons.2 (.inl h)
  | cons c l ih => exact cons_lt_cons.2 (.inr ⟨rfl, ih⟩)

theorem lt_iff_concat_le {z : A} (hz : ∀ a, z ≤ a) (l t : List A) : l < t ↔ l ++ [z] ≤ t := by
  induction l generalizing t with
  | nil =>
    cases t with
    | nil => simp
    | cons b t =>
      rw [List.nil_append, ← not_lt, cons_lt_cons]
      have := (hz b).not_gt
      simp [this]
  | cons a l ih =>
    cases t with
    | nil => simp
    | cons b t =>
      rw [List.cons_append, cons_lt_cons, ← not_lt, cons_lt_cons, ih]
      rcases lt_trichotomy a b with h | rfl | h
      · simp [h, h.not_gt, h.ne']
      · simp
      · simp [h, h.not_gt, h.ne']

theorem le_cons {z : A} (hz : ∀ a, a ≤ z) (l : List A) : l ≤ z :: l := by
  induction l with
  | nil => exact not_lt.1 (List.not_lt_nil _)
  | cons a l ih =>
    rw [← not_lt, cons_lt_cons]
    rintro (h | ⟨rfl, h⟩)
    · exact (hz a).not_gt h
    · exact ih.not_gt h

theorem append_le_of_forall_lt {a b : A} (hab : ∀ x, a < x → b ≤ x) {l w : List A}
    (h : ∀ rest, l ++ a :: rest < w) : l ++ [b] ≤ w := by
  induction l generalizing w with
  | nil =>
    cases w with
    | nil => exact absurd (h []) (List.not_lt_nil _)
    | cons x w =>
      have hx : a < x := by simpa [cons_lt_cons] using h w
      rw [List.nil_append, ← not_lt, cons_lt_cons]
      have := (hab x hx).not_gt
      simp [this]
  | cons c l ih =>
    cases w with
    | nil => exact absurd (h []) (List.not_lt_nil _)
    | cons x w =>
      rw [List.cons_append, ← not_lt, cons_lt_cons]
      rintro (hlt | ⟨rfl, hlt⟩)
      · simpa [cons_lt_cons, hlt.not_gt, hlt.ne'] using h []
      · exact (ih fun rest => by simpa [cons_lt_cons] using h rest).not_gt hlt

end Dtdb.Lib
