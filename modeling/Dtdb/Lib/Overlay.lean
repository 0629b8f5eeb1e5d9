import Dtdb.Lib.SortedMap

/-! # Pending changes over a sorted run

Pending changes (a new value, or a removal) over an ascending run.  `Overlays` says that a list is
what shows through; its rules take the heads of the two lists in key order. -/

namespace Dtdb.Lib

variable {K A B : Type*} [LinearOrder K]

structure Overlays (changes : List (K × Option A)) (base out : List (K × A)) : Prop where
  ascending : Ascending out
  lookup : ∀ k, out.lookup k = (changes.lookup k).getD (base.lookup k)

namespace Overlays

variable {changes : List (K × Option A)} {base out : List (K × A)}

theorem nil : Overlays ([] : List (K × Option A)) [] [] := ⟨.nil, fun _ => rfl⟩

theorem key_of_mem (h : Overlays changes base out) {x : K × A} (hx : x ∈ out) :
    (∃ y ∈ changes, y.1 = x.1) ∨ ∃ y ∈ base, y.1 = x.1 := by
  have hlook := h.lookup x.1
  rw [h.ascending.lookup_of_mem hx] at hlook
  cases hc : changes.lookup x.1 with
  | some c => exact .inl ⟨_, mem_of_lookup hc, rfl⟩
  | none =>
    rw [hc] at hlook
    exact .inr ⟨_, mem_of_lookup hlook.symm, rfl⟩

theorem change {k : K} {v : Option A} (hc : Ascending ((k, v) :: changes))
    (hb : ∀ x ∈ base, k ≤ x.1) (h : Overlays changes (base.filter fun x => x.1 ≠ k) out) :
    Overlays ((k, v) :: changes) base (v.toList.map (k, ·) ++ out) := by
  obtain ⟨hfirst, hc⟩ := ascending_cons.1 hc
  have hpast : ∀ x ∈ out, k < x.1 := by
    intro x hx
    rcases h.key_of_mem hx with ⟨y, hy, heq⟩ | ⟨y, hy, heq⟩
    · exact heq ▸ hfirst y hy
    · obtain ⟨hy, hne⟩ := List.mem_filter.1 hy
      exact heq ▸ lt_of_le_of_ne (hb y hy) (Ne.symm (by simpa using hne))
  have hnone : out.lookup k = none := lookup_eq_none.2 fun x hx => ne_of_gt (hpast x hx)
  refine ⟨?_, fun j => ?_⟩
  · cases v with
    | none => exact h.ascending
    | some a => exact ascending_cons.2 ⟨hpast, h.ascending⟩
  · rw [lookup_cons_eq_ite]
    by_cases hj : j = k
    · rw [if_pos hj, hj]
      cases v with
      | none => exact hnone
      | some a => simp
    · rw [if_neg hj]
      have hout : (v.toList.map (k, ·) ++ out).lookup j = out.lookup j := by
        cases v with
        | none => rfl
        | some a => exact (lookup_cons_eq_ite ..).trans (if_neg hj)
      rw [hout, h.lookup, lookup_filter_ne, if_neg hj]

theorem keep {x : K × A} (hb : Ascending (x :: base)) (hc : ∀ y ∈ changes, x.1 < y.1)
    (h : Overlays changes base out) : Overlays changes (x :: base) (x :: out) := by
  obtain ⟨hfirst, -⟩ := ascending_cons.1 hb
  refine ⟨ascending_cons.2 ⟨fun y hy => ?_, h.ascending⟩, fun j => ?_⟩
  · rcases h.key_of_mem hy with ⟨z, hz, heq⟩ | ⟨z, hz, heq⟩
    · exact heq ▸ hc z hz
    · exact heq ▸ hfirst z hz
  · rw [lookup_cons_eq_ite, lookup_cons_eq_ite, h.lookup]
    by_cases hj : j = x.1
    · have hnone : changes.lookup j = none :=
        lookup_eq_none.2 fun y hy => hj ▸ ne_of_gt (hc y hy)
      rw [if_pos hj, if_pos hj, hnone]
      rfl
    · rw [if_neg hj, if_neg hj]

end Overlays

theorem SortedMap.get_foldl_keep {l : List (K × B)} (hnd : (l.map Prod.fst).Nodup)
    (g : K × B → Option A) (m : SortedMap K A) (k : K) :
    (l.foldl (fun m x => match g x with
      | some a => m.insert x.1 a
      | none => m) m).get k = ((l.lookup k).bind fun b => g (k, b)).or (m.get k) := by
  induction l generalizing m with
  | nil => rfl
  | cons x l ih =>
    obtain ⟨hnot, hnd⟩ := List.nodup_cons.1 hnd
    rw [List.foldl_cons, ih hnd, lookup_cons_eq_ite]
    by_cases hk : k = x.1
    · have hnone : l.lookup k = none :=
        lookup_eq_none.2 fun y hy heq => hnot (hk ▸ heq ▸ List.mem_map_of_mem hy)
      subst hk
      rw [if_pos rfl, hnone, Option.bind_none, Option.bind_some]
      cases g x with
      | none => simp
      | some a => simp
    · rw [if_neg hk]
      congr 1
      cases g x with
      | none => rfl
      | some a => exact m.get_insert_of_ne a hk

end Dtdb.Lib
