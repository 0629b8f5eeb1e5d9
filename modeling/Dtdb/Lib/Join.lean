import Dtdb.Lib.SortedMap
import Mathlib.Algebra.Order.BigOperators.Group.List
import Mathlib.Algebra.Order.Ring.Nat

/-! # Joining sorted runs on their keys

Several ascending runs are walked at once, by their least head key.  `lookup_join`: every key that
some run holds, once and in order, with what each run holds for it. -/

namespace Dtdb.Lib

open List Option

variable {K A : Type*} [LinearOrder K]

def leastHead : List (List (K × A)) → Option K
  | [] => none
  | [] :: ls => leastHead ls
  | (x :: _) :: ls => match leastHead ls with
    | none => some x.1
    | some k => some (if x.1 ≤ k then x.1 else k)

/-- What a run holds at `k`, if it stands there. -/
def headAt (k : K) : List (K × A) → Option A
  | [] => none
  | x :: _ => if x.1 = k then some x.2 else none

/-- A run after `k` was taken. -/
def skipAt (k : K) : List (K × A) → List (K × A)
  | [] => []
  | x :: l => if x.1 = k then l else x :: l

def joinLoop : Nat → List (List (K × A)) → List (K × List (Option A))
  | 0, _ => []
  | n + 1, ls => match leastHead ls with
    | none => []
    | some k => (k, ls.map (headAt k)) :: joinLoop n (ls.map (skipAt k))

def pendingEntries (ls : List (List (K × A))) : Nat := (ls.map length).sum

def join (ls : List (List (K × A))) : List (K × List (Option A)) := joinLoop (pendingEntries ls) ls

/-! ## One step -/

variable {ls : List (List (K × A))}

theorem leastHead_eq_none (h : leastHead ls = none) :
    ∀ l ∈ ls, l = [] := by
  induction ls with
  | nil => nofun
  | cons l ls ih =>
    cases l with
    | nil => exact forall_mem_cons.2 ⟨rfl, ih h⟩
    | cons x l =>
      simp only [leastHead] at h
      split at h <;> cases h

theorem exists_of_leastHead {k : K} (h : leastHead ls = some k) :
    ∃ l ∈ ls, ∃ a rest, l = (k, a) :: rest := by
  induction ls generalizing k with
  | nil => cases h
  | cons l ls ih =>
    cases l with
    | nil =>
      obtain ⟨l, hl, hk⟩ := ih h
      exact ⟨l, .tail _ hl, hk⟩
    | cons x l =>
      simp only [leastHead] at h
      split at h
      · cases h
        exact ⟨_, mem_cons_self, x.2, l, rfl⟩
      · next j hj =>
        split at h
        · cases h
          exact ⟨_, mem_cons_self, x.2, l, rfl⟩
        · cases h
          obtain ⟨r, hr, hk⟩ := ih hj
          exact ⟨r, .tail _ hr, hk⟩

theorem leastHead_le (hasc : ∀ l ∈ ls, Ascending l) {k : K} (h : leastHead ls = some k) :
    ∀ l ∈ ls, ∀ x ∈ l, k ≤ x.1 := by
  induction ls generalizing k with
  | nil => cases h
  | cons l ls ih =>
    have hasc' : ∀ l ∈ ls, Ascending l := fun r hr => hasc r (.tail _ hr)
    cases l with
    | nil => exact forall_mem_cons.2 ⟨nofun, ih hasc' h⟩
    | cons x l =>
      have hl : ∀ y ∈ x :: l, x.1 ≤ y.1 :=
        forall_mem_cons.2 ⟨le_rfl, fun y hy => ((ascending_cons.1 (hasc _ (.head _))).1 y hy).le⟩
      simp only [leastHead] at h
      split at h
      · next hnone =>
        cases h
        refine forall_mem_cons.2 ⟨hl, fun r hr => ?_⟩
        rw [leastHead_eq_none hnone r hr]
        nofun
      · next j hj =>
        split at h
        · next hxj =>
          cases h
          exact forall_mem_cons.2 ⟨hl, fun r hr y hy => hxj.trans (ih hasc' hj r hr y hy)⟩
        · next hjx =>
          cases h
          exact forall_mem_cons.2
            ⟨fun y hy => (not_le.1 hjx).le.trans (hl y hy), ih hasc' hj⟩

variable {l : List (K × A)} {k : K}

theorem headAt_eq_lookup (hasc : Ascending l) (hk : ∀ x ∈ l, k ≤ x.1) : headAt k l = l.lookup k := by
  cases l with
  | nil => rfl
  | cons x l =>
    rw [lookup_cons_eq_ite]
    by_cases hx : x.1 = k
    · simp [headAt, hx]
    · have hnone : l.lookup k = none := lookup_eq_none.2 fun y hy heq =>
        absurd ((hk x (.head _)).trans_lt ((ascending_cons.1 hasc).1 y hy)) (heq ▸ lt_irrefl _)
      simp [headAt, hx, Ne.symm hx, hnone]

theorem ascending_skipAt (hasc : Ascending l) (k : K) : Ascending (skipAt k l) := by
  cases l with
  | nil => exact hasc
  | cons x l =>
    rw [skipAt]
    split
    · exact (ascending_cons.1 hasc).2
    · exact hasc

theorem lt_of_mem_skipAt (hasc : Ascending l) (hk : ∀ x ∈ l, k ≤ x.1) : ∀ x ∈ skipAt k l, k < x.1 := by
  cases l with
  | nil => nofun
  | cons x l =>
    obtain ⟨hlt, -⟩ := ascending_cons.1 hasc
    rw [skipAt]
    split
    · next hx =>
      intro y hy
      exact hx ▸ hlt y hy
    · next hx =>
      have hkx : k < x.1 := lt_of_le_of_ne (hk x (.head _)) (Ne.symm hx)
      exact forall_mem_cons.2 ⟨hkx, fun y hy => hkx.trans (hlt y hy)⟩

theorem lookup_skipAt {j : K} (hj : j ≠ k) : (skipAt k l).lookup j = l.lookup j := by
  cases l with
  | nil => rfl
  | cons x l =>
    rw [skipAt]
    split
    · next hx => rw [lookup_cons_eq_ite, if_neg (hx ▸ hj)]
    · rfl

theorem length_skipAt_le (k : K) (l : List (K × A)) : (skipAt k l).length ≤ l.length := by
  cases l with
  | nil => exact le_rfl
  | cons x l =>
    rw [skipAt]
    split
    · exact Nat.le_succ _
    · exact le_rfl

theorem pendingEntries_skipAt (h : leastHead ls = some k) :
    pendingEntries (ls.map (skipAt k)) < pendingEntries ls := by
  obtain ⟨l, hl, a, rest, rfl⟩ := exists_of_leastHead h
  unfold pendingEntries
  rw [List.map_map]
  refine sum_lt_sum _ _ (fun r _ => length_skipAt_le k r) ⟨_, hl, ?_⟩
  simp [skipAt]

/-! ## The whole walk -/

theorem leastHead_of_pendingEntries (h : pendingEntries ls ≤ 0) :
    leastHead ls = none := by
  cases hleast : leastHead ls with
  | none => rfl
  | some k => exact absurd (pendingEntries_skipAt hleast) (by omega)

theorem joinLoop_congr {n m : Nat} (hn : pendingEntries ls ≤ n) (hm : pendingEntries ls ≤ m) :
    joinLoop n ls = joinLoop m ls := by
  induction n generalizing m ls with
  | zero =>
    cases m with
    | zero => rfl
    | succ m => rw [joinLoop, joinLoop, leastHead_of_pendingEntries hn]
  | succ n ih =>
    cases m with
    | zero => rw [joinLoop, joinLoop, leastHead_of_pendingEntries hm]
    | succ m =>
      rw [joinLoop, joinLoop]
      cases hleast : leastHead ls with
      | none => rfl
      | some k =>
        have hlt := pendingEntries_skipAt hleast
        exact congrArg _ (ih (by omega) (by omega))

theorem join_eq_of_leastHead (h : leastHead ls = some k) :
    join ls = (k, ls.map (headAt k)) :: join (ls.map (skipAt k)) := by
  have hlt := pendingEntries_skipAt h
  unfold join
  rw [joinLoop_congr le_rfl (Nat.le_succ_of_le le_rfl), joinLoop, h]
  simp [joinLoop_congr (Nat.le_of_lt hlt) le_rfl]

theorem join_eq_nil (h : leastHead ls = none) : join ls = [] := by
  unfold join
  cases pendingEntries ls with
  | zero => rfl
  | succ n => rw [joinLoop, h]

theorem length_joinLoop_le (n : Nat) (ls : List (List (K × A))) : (joinLoop n ls).length ≤ n := by
  induction n generalizing ls with
  | zero => exact le_rfl
  | succ n ih =>
    rw [joinLoop]
    cases leastHead ls with
    | none => exact Nat.zero_le _
    | some k => exact Nat.succ_le_succ (ih _)

theorem joinLoop_spec (n : Nat) (hasc : ∀ l ∈ ls, Ascending l) (hn : pendingEntries ls ≤ n) :
    Ascending (joinLoop n ls) ∧
      ∀ x, x ∈ joinLoop n ls ↔ x.2 = ls.map (·.lookup x.1) ∧ ∃ l ∈ ls, (l.lookup x.1).isSome = true := by
  have hempty : (∀ l ∈ ls, l = []) → ∀ k, ¬∃ l ∈ ls, (l.lookup k).isSome = true := by
    rintro hnil k ⟨l, hl, hsome⟩
    rw [hnil l hl] at hsome
    cases hsome
  induction n generalizing ls with
  | zero =>
    have hnil : ∀ l ∈ ls, l = [] := fun l hl => length_eq_zero_iff.1
      (Nat.le_zero.1 ((single_le_sum (fun _ _ => Nat.zero_le _) _
        (mem_map_of_mem hl)).trans hn))
    exact ⟨.nil, fun x => iff_of_false not_mem_nil fun h => hempty hnil x.1 h.2⟩
  | succ n ih =>
    unfold joinLoop
    cases hleast : leastHead ls with
    | none =>
      exact ⟨.nil, fun x => iff_of_false not_mem_nil
        fun h => hempty (leastHead_eq_none hleast) x.1 h.2⟩
    | some k =>
      have hle := leastHead_le hasc hleast
      have hasc' : ∀ l ∈ ls.map (skipAt k), Ascending l := by
        intro r hr
        obtain ⟨l, hl, rfl⟩ := mem_map.1 hr
        exact ascending_skipAt (hasc l hl) k
      have hpast : ∀ l ∈ ls.map (skipAt k), ∀ x ∈ l, k < x.1 := by
        intro r hr
        obtain ⟨l, hl, rfl⟩ := mem_map.1 hr
        exact lt_of_mem_skipAt (hasc l hl) (hle l hl)
      have hgone : ∀ l ∈ ls.map (skipAt k), l.lookup k = none := fun l hl =>
        lookup_eq_none.2 fun x hx heq => (hpast l hl x hx).ne heq.symm
      obtain ⟨hrest, hmem⟩ := ih hasc' (Nat.lt_succ_iff.1 ((pendingEntries_skipAt hleast).trans_le hn))
        fun hnil j => by
          rintro ⟨l, hl, hsome⟩
          rw [hnil l hl] at hsome
          cases hsome
      have hhead : ls.map (headAt k) = ls.map (·.lookup k) :=
        map_congr_left fun l hl => headAt_eq_lookup (hasc l hl) (hle l hl)
      -- a key other than `k` is in a run exactly if it is in what is left of it
      have hother : ∀ j ≠ k, (ls.map (skipAt k)).map (·.lookup j) = ls.map (·.lookup j) := by
        intro j hj
        rw [List.map_map]
        exact map_congr_left fun l _ => lookup_skipAt hj
      have hsome : ∀ j ≠ k, (∃ l ∈ ls.map (skipAt k), (l.lookup j).isSome = true) ↔
          ∃ l ∈ ls, (l.lookup j).isSome = true := by
        intro j hj
        simp only [List.mem_map, exists_exists_and_eq_and, lookup_skipAt hj]
      refine ⟨ascending_cons.2 ⟨fun x hx => ?_, hrest⟩, fun x => ?_⟩
      · obtain ⟨-, l, hl, hv⟩ := (hmem x).1 hx
        obtain ⟨a, ha⟩ := isSome_iff_exists.1 hv
        exact hpast l hl _ (mem_of_lookup ha)
      · rw [mem_cons, hmem]
        by_cases hx : x.1 = k
        · constructor
          · rintro (rfl | ⟨-, l, hl, hv⟩)
            · obtain ⟨l, hl, a, rest, rfl⟩ := exists_of_leastHead hleast
              exact ⟨hhead, _, hl, by simp⟩
            · rw [hx, hgone l hl] at hv
              cases hv
          · rintro ⟨hv, -⟩
            exact .inl (Prod.ext hx (by rw [hv, hx, hhead]))
        · rw [hother _ hx, hsome _ hx]
          exact or_iff_right fun heq => hx (by rw [heq])

/-- **The meaning of a join.** -/
theorem mem_join (hasc : ∀ l ∈ ls, Ascending l) {x : K × List (Option A)} :
    x ∈ join ls ↔ x.2 = ls.map (·.lookup x.1) ∧ ∃ l ∈ ls, (l.lookup x.1).isSome = true :=
  (joinLoop_spec _ hasc le_rfl).2 x

theorem mem_join_map {G : Type*} {groups : List G} {runs : G → List (K × A)}
    (hasc : ∀ g, Ascending (runs g)) {x : K × List (Option A)} :
    x ∈ join (groups.map runs) ↔ x.2 = groups.map (fun g => (runs g).lookup x.1) ∧
      ∃ g ∈ groups, ((runs g).lookup x.1).isSome = true := by
  have hall : ∀ l ∈ groups.map runs, Ascending l := fun l hl => by
    obtain ⟨g, -, rfl⟩ := mem_map.1 hl
    exact hasc g
  rw [mem_join hall]
  simp [List.mem_map, Function.comp_def]

theorem ascending_join_map {G : Type*} (groups : List G) {runs : G → List (K × A)}
    (hasc : ∀ g, Ascending (runs g)) : Ascending (join (groups.map runs)) :=
  (joinLoop_spec _ (forall_mem_map.2 fun g _ => hasc g) le_rfl).1

end Dtdb.Lib
