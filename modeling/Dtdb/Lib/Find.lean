import Mathlib.Data.List.Find
import Mathlib.Data.List.Nodup

/-! # Elements of a list that meet a condition -/

namespace Dtdb.Lib

open List Option

variable {A : Type*} {p q : A → Bool} {l l' : List A}

theorem findIdx?_congr (h : ∀ a ∈ l, p a = q a) : l.findIdx? p = l.findIdx? q := by
  induction l with
  | nil => rfl
  | cons a l ih =>
    rw [findIdx?_cons, findIdx?_cons, h a mem_cons_self,
      ih fun b hb => h b (.tail _ hb)]

theorem eq_singleton_of_nodup (hnd : l.Nodup) (hne : l ≠ []) {a : A} (h : ∀ b ∈ l, b = a) :
    l = [a] := by
  have hrep := eq_replicate_of_mem h
  rw [hrep, nodup_replicate] at hnd
  have hpos := length_pos_iff.2 hne
  rw [hrep, Nat.le_antisymm hnd hpos]
  rfl

theorem findIdx?_of_nodup_map {B : Type*} [DecidableEq B] {f : A → B} (h : (l.map f).Nodup) {a : A}
    {i : Nat} (hi : l[i]? = some a) : l.findIdx? (fun b => f b = f a) = some i := by
  obtain ⟨hlt, rfl⟩ := List.getElem?_eq_some_iff.mp hi
  refine findIdx?_eq_some_iff_getElem.2 ⟨hlt, by simp, fun j hj => ?_⟩
  intro heq
  have hget : (l.map f).get ⟨j, by simpa using Nat.lt_trans hj hlt⟩
      = (l.map f).get ⟨i, by simpa using hlt⟩ := by simpa using heq
  exact Nat.ne_of_lt hj (Fin.val_eq_of_eq (h.injective_get hget))

theorem find?_of_sublist (h : l'.Sublist l) (hnd : l.Nodup) {a : A} (hfind : l.find? p = some a)
    (ha : a ∈ l') : l'.find? p = some a := by
  induction h with
  | slnil => cases ha
  | cons x hsub ih =>
    obtain ⟨hnot, hnd⟩ := nodup_cons.1 hnd
    by_cases hx : p x = true
    · rw [find?_cons_of_pos hx] at hfind
      cases hfind
      exact absurd (hsub.subset ha) hnot
    · rw [find?_cons_of_neg hx] at hfind
      exact ih hnd hfind ha
  | cons_cons x hsub ih =>
    obtain ⟨hnot, hnd⟩ := nodup_cons.1 hnd
    by_cases hx : p x = true
    · rw [find?_cons_of_pos hx] at hfind ⊢
      exact hfind
    · rw [find?_cons_of_neg hx] at hfind ⊢
      refine ih hnd hfind ((mem_cons.1 ha).resolve_left ?_)
      rintro rfl
      exact hx (find?_some hfind)

end Dtdb.Lib
