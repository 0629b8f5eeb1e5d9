import Mathlib.Data.List.Basic
import Mathlib.Order.Nat

/-! # Binary search over slices

`binarySearchBy` and `partitionPoint` follow the standard library's loops.  On a slice the
comparator is `Rising` on, a match is found whenever there is one. -/

namespace Dtdb.Lib

open List Option Function

variable {α : Type*}

/-- The loop of `binary_search_by`, `fuel` halvings. -/
def bisect (f : α → Ordering) (l : List α) : Nat → Nat → Nat → Nat
  | 0, base, _ => base
  | fuel + 1, base, size =>
    if size ≤ 1 then base
    else
      let half := size / 2
      let mid := base + half
      bisect f l fuel (if l[mid]?.map f = some .gt then base else mid) (size - half)

/-- `slice::binary_search_by`: a match, or where one would be inserted. -/
def binarySearchBy (f : α → Ordering) (l : List α) : Except Nat Nat :=
  let base := bisect f l l.length 0 l.length
  match l[base]?.map f with
  | some .eq => .ok base
  | some .lt => .error (base + 1)
  | _ => .error base

theorem binarySearchBy_map {β : Type*} (f : β → Ordering) (g : α → β) (l : List α) :
    binarySearchBy f (l.map g) = binarySearchBy (fun a => f (g a)) l := by
  have hbisect (fuel base size : Nat) :
      bisect f (l.map g) fuel base size = bisect (fun a => f (g a)) l fuel base size := by
    induction fuel generalizing base size with
    | zero => rfl
    | succ fuel ih => simp only [bisect, ih, getElem?_map, Option.map_map, comp_def]
  simp only [binarySearchBy, hbisect, length_map, getElem?_map, Option.map_map,
    comp_def]

def partitionPoint (p : α → Bool) (l : List α) : Nat :=
  match binarySearchBy (fun x => if p x then .lt else .gt) l with
  | .ok i => i
  | .error i => i

/-- The comparator runs through less, equal, greater along the slice. -/
def Rising (f : α → Ordering) (l : List α) : Prop :=
  l.Pairwise fun a b => (f a = .gt → f b = .gt) ∧ (f b = .lt → f a = .lt)

variable {f : α → Ordering} {l : List α}

theorem Rising.getElem? (h : Rising f l) {i j : Nat} {x y : α} (hij : i < j) (hx : l[i]? = some x)
    (hy : l[j]? = some y) :
    (f x = .gt → f y = .gt) ∧ (f y = .lt → f x = .lt) := by
  obtain ⟨hi, rfl⟩ := List.getElem?_eq_some_iff.mp hx
  obtain ⟨hj, rfl⟩ := List.getElem?_eq_some_iff.mp hy
  exact pairwise_iff_getElem.1 h i j hi hj hij

/-- Nothing greater at `base`, nothing but greater from `base + size` on. -/
structure SearchInv (f : α → Ordering) (l : List α) (base size : Nat) : Prop where
  pos : 0 < size
  bound : base + size ≤ l.length
  below : base = 0 ∨ ∃ x, l[base]? = some x ∧ f x ≠ .gt
  above : ∀ i x, base + size ≤ i → l[i]? = some x → f x = .gt

theorem SearchInv.halve {base size : Nat} (hf : Rising f l) (h : SearchInv f l base size)
    (hs : ¬ size ≤ 1) :
    SearchInv f l (if l[base + size / 2]?.map f = some .gt then base else base + size / 2)
      (size - size / 2) := by
  have hb := h.bound
  have hmid : base + size / 2 < l.length := by omega
  have hget : l[base + size / 2]? = some l[base + size / 2] := getElem?_eq_getElem hmid
  rw [hget]
  by_cases hgt : f l[base + size / 2] = .gt
  · rw [if_pos (by simp [hgt])]
    refine ⟨by omega, by omega, h.below, fun i x hi hx => ?_⟩
    by_cases he : i = base + size / 2
    · subst he
      rw [hget] at hx
      cases hx
      exact hgt
    · exact (hf.getElem? (by omega) hget hx).1 hgt
  · rw [if_neg (by simp [hgt])]
    exact ⟨by omega, by omega, .inr ⟨_, hget, hgt⟩, fun i x hi hx => h.above i x (by omega) hx⟩

theorem bisect_inv (hf : Rising f l) :
    ∀ fuel base size, SearchInv f l base size → size ≤ fuel →
      SearchInv f l (bisect f l fuel base size) 1
  | 0, _, size, h, hle => absurd h.pos (by omega)
  | fuel + 1, base, size, h, hle => by
    simp only [bisect]
    split
    · next hs =>
      have : size = 1 := by have := h.pos; omega
      exact this ▸ h
    · next hs => exact bisect_inv hf fuel _ _ (h.halve hf hs) (by omega)

theorem bisect_spec (hf : Rising f l) (hl : l ≠ []) :
    SearchInv f l (bisect f l l.length 0 l.length) 1 :=
  bisect_inv hf _ _ _ ⟨List.length_pos_iff.mpr hl, by omega, .inl rfl, fun i x hi hx => by
    have := (List.getElem?_eq_some_iff.mp hx).1
    omega⟩ le_rfl

theorem binarySearchBy_ok {i : Nat} (h : binarySearchBy f l = .ok i) :
    ∃ x, l[i]? = some x ∧ f x = .eq := by
  simp only [binarySearchBy] at h
  split at h
  · next heq =>
    cases h
    simpa using heq
  · cases h
  · cases h

theorem exists_binarySearchBy (hf : Rising f l) {x : α} (hx : x ∈ l) (he : f x = .eq) :
    ∃ i, binarySearchBy f l = .ok i := by
  obtain ⟨j, hj⟩ := mem_iff_getElem?.1 hx
  have inv := bisect_spec hf (ne_nil_of_mem hx)
  simp only [binarySearchBy]
  generalize bisect f l l.length 0 l.length = base at inv
  have hb := inv.bound
  have hget : l[base]? = some l[base] := getElem?_eq_getElem (by omega)
  suffices f l[base] = .eq by simp [hget, this]
  have hle : j ≤ base := by
    by_contra hlt
    rw [inv.above j x (by omega) hj] at he
    cases he
  rcases hle.eq_or_lt with rfl | hlt
  · rw [hget] at hj
    cases hj
    exact he
  · obtain ⟨y, hy, hne⟩ := inv.below.resolve_left (by omega)
    rw [hget] at hy
    cases hy
    match hc : f l[base], hne with
    | .eq, _ => rfl
    | .lt, _ =>
      rw [(hf.getElem? hlt hj hget).2 hc] at he
      cases he

theorem binarySearchBy_error {i : Nat} (hf : Rising f l) (h : binarySearchBy f l = .error i) :
    i ≤ l.length ∧ (∀ x ∈ l.take i, f x = .lt) ∧ ∀ x ∈ l.drop i, f x = .gt := by
  rcases eq_or_ne l [] with rfl | hl
  · cases h
    simp [bisect]
  have inv := bisect_spec hf hl
  simp only [binarySearchBy] at h
  generalize bisect f l l.length 0 l.length = base at inv h
  have hb := inv.bound
  have hget : l[base]? = some l[base] := getElem?_eq_getElem (by omega)
  cases hc : f l[base] with
  | eq => simp [hget, hc] at h
  | lt =>
    simp only [hget, map_some, hc, Except.error.injEq] at h
    subst h
    refine ⟨hb, fun x hx => ?_, fun x hx => ?_⟩
    · obtain ⟨j, hj⟩ := mem_iff_getElem?.1 hx
      rw [getElem?_take] at hj
      split at hj
      · next hlt =>
        rcases Nat.lt_succ_iff_lt_or_eq.1 hlt with hlt | rfl
        · exact (hf.getElem? hlt hj hget).2 hc
        · rw [hget] at hj
          cases hj
          exact hc
      · cases hj
    · obtain ⟨j, hj⟩ := mem_iff_getElem?.1 hx
      rw [getElem?_drop] at hj
      exact inv.above _ x (Nat.le_add_right ..) hj
  | gt =>
    simp only [hget, map_some, hc, Except.error.injEq] at h
    subst h
    have h0 : base = 0 := inv.below.resolve_right fun ⟨y, hy, hne⟩ => by
      rw [hget] at hy
      cases hy
      exact hne hc
    subst h0
    refine ⟨Nat.zero_le _, by simp, fun x hx => ?_⟩
    obtain ⟨j, hj⟩ := mem_iff_getElem?.1 (by simpa using hx)
    rcases Nat.eq_zero_or_pos j with rfl | hpos
    · rw [hget] at hj
      cases hj
      exact hc
    · exact inv.above j x (by omega) hj

theorem partitionPoint_spec {p : α → Bool} (h : l.Pairwise fun a b => p b = true → p a = true) :
    (∀ x ∈ l.take (partitionPoint p l), p x = true) ∧
      ∀ x ∈ l.drop (partitionPoint p l), p x = false := by
  set f : α → Ordering := fun x => if p x then .lt else .gt with hfdef
  have hlt : ∀ x, f x = .lt ↔ p x = true := fun x => by by_cases hp : p x <;> simp [hfdef]
  have hgt : ∀ x, f x = .gt ↔ p x = false := fun x => by by_cases hp : p x <;> simp [hfdef]
  have hf : Rising f l := h.imp fun {a b} hab =>
    ⟨fun ha => (hgt b).2 (by have := (hgt a).1 ha; by_contra hb; simp_all),
     fun hb => (hlt a).2 (hab ((hlt b).1 hb))⟩
  have hpp : partitionPoint p l = match binarySearchBy f l with | .ok i => i | .error i => i := rfl
  rw [hpp]
  cases hs : binarySearchBy f l with
  | ok i =>
    -- the comparator never answers `eq`
    obtain ⟨x, -, hx⟩ := binarySearchBy_ok hs
    by_cases hp : p x <;> simp [hfdef, hp] at hx
  | error i =>
    obtain ⟨-, htake, hdrop⟩ := binarySearchBy_error hf hs
    exact ⟨fun x hx => (hlt x).1 (htake x hx), fun x hx => (hgt x).1 (hdrop x hx)⟩

theorem split_of_getElem? {i : Nat} {x : α} (h : l[i]? = some x) :
    ∃ pre post, l = pre ++ x :: post ∧ pre.length = i := by
  obtain ⟨hi, rfl⟩ := List.getElem?_eq_some_iff.mp h
  refine ⟨l.take i, l.drop (i + 1), ?_, by simp; omega⟩
  rw [getElem_cons_drop, take_append_drop]

theorem binarySearchBy_split {i : Nat} (h : binarySearchBy f l = .ok i) :
    ∃ pre x post, l = pre ++ x :: post ∧ pre.length = i ∧ f x = .eq := by
  obtain ⟨x, hx, he⟩ := binarySearchBy_ok h
  obtain ⟨pre, post, hl, hlen⟩ := split_of_getElem? hx
  exact ⟨pre, x, post, hl, hlen, he⟩

example : binarySearchBy (fun n => compare n 4) [1, 3, 4, 8] = .ok 2 := by decide
example : binarySearchBy (fun n => compare n 5) [1, 3, 4, 8] = .error 3 := by decide

end Dtdb.Lib
