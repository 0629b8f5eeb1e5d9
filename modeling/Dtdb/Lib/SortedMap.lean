import Mathlib.Order.Nat
import Mathlib.Order.Lattice
import Mathlib.Data.List.Basic

/-! # Sorted maps

Finite maps as key/value lists with strictly ascending keys, the order in which an ordered
tree map iterates.  The order is a field of the map, so two maps with the same lookups are
equal.
-/

namespace Dtdb.Lib

open List Option Function

variable {K A B : Type*} [LinearOrder K]

def Ascending (l : List (K × A)) : Prop := l.Pairwise fun a b => a.1 < b.1

theorem Ascending.nil : Ascending ([] : List (K × A)) := List.Pairwise.nil

theorem ascending_cons {x : K × A} {l : List (K × A)} :
    Ascending (x :: l) ↔ (∀ y ∈ l, x.1 < y.1) ∧ Ascending l := pairwise_cons

theorem ascending_append {l r : List (K × A)} :
    Ascending (l ++ r) ↔ Ascending l ∧ Ascending r ∧ ∀ x ∈ l, ∀ y ∈ r, x.1 < y.1 :=
  pairwise_append

theorem lookup_cons_eq_ite (k : K) (x : K × A) (l : List (K × A)) :
    (x :: l).lookup k = if k = x.1 then some x.2 else l.lookup k := by
  obtain ⟨a, b⟩ := x
  rw [lookup_cons]
  by_cases h : k = a
  · simp [h]
  · rw [beq_false_of_ne h, if_neg h]

variable {k : K} {l : List (K × A)}

theorem mem_of_lookup {a : A} (h : l.lookup k = some a) :
    (k, a) ∈ l := by
  obtain ⟨l₁, l₂, rfl, -⟩ := lookup_eq_some_iff.1 h
  simp

theorem lookup_eq_none :
    l.lookup k = none ↔ ∀ x ∈ l, x.1 ≠ k := by
  simp [ne_comm]

theorem lookup_ne_none :
    l.lookup k ≠ none ↔ k ∈ l.map Prod.fst := by
  rw [Ne, lookup_eq_none, List.mem_map]
  push Not
  rfl

theorem lookup_of_mem (h : (l.map Prod.fst).Nodup) {a : A} (hm : (k, a) ∈ l) :
    l.lookup k = some a := by
  induction l with
  | nil => cases hm
  | cons x l ih =>
    obtain ⟨hnot, hnd⟩ := nodup_cons.1 h
    rw [lookup_cons_eq_ite]
    rcases mem_cons.1 hm with rfl | hm
    · exact if_pos rfl
    · have hne : k ≠ x.1 := fun heq => hnot (heq ▸ mem_map_of_mem hm)
      rw [if_neg hne]
      exact ih hnd hm

theorem lookup_map_snd (l : List (K × A)) (f : A → B) (k : K) :
    (l.map fun x => (x.1, f x.2)).lookup k = (l.lookup k).map f := by
  induction l with
  | nil => rfl
  | cons x l ih =>
    rw [map_cons, lookup_cons_eq_ite, lookup_cons_eq_ite, ih]
    split <;> rfl

theorem lookup_filterMap (h : (l.map Prod.fst).Nodup) (g : K × A → Option B)
    (k : K) :
    (l.filterMap fun x => (g x).map (x.1, ·)).lookup k = (l.lookup k).bind fun a => g (k, a) := by
  induction l with
  | nil => rfl
  | cons x l ih =>
    obtain ⟨j, a⟩ := x
    obtain ⟨hnot, hnd⟩ := nodup_cons.1 h
    rw [lookup_cons_eq_ite]
    cases hg : g (j, a) with
    | none =>
      rw [filterMap_cons_none (by rw [hg]; rfl), ih hnd]
      split
      · next hk =>
        have hnone : l.lookup k = none :=
          lookup_eq_none.2 fun y hy heq => hnot (mem_map.2 ⟨y, hy, heq.trans hk⟩)
        rw [hnone, hk, bind_some, hg]
        rfl
      · rfl
    | some b =>
      rw [filterMap_cons_some (by rw [hg]; rfl), lookup_cons_eq_ite, ih hnd]
      split
      · next hk => rw [hk, bind_some, hg]
      · rfl

theorem Ascending.nodup (h : Ascending l) : (l.map Prod.fst).Nodup :=
  List.Pairwise.map _ (fun _ _ hlt => hlt.ne) h

theorem Ascending.lookup_of_mem (h : Ascending l) {a : A} (hm : (k, a) ∈ l) :
    l.lookup k = some a := Lib.lookup_of_mem h.nodup hm

theorem Ascending.mem_iff (h : Ascending l) {a : A} :
    (k, a) ∈ l ↔ l.lookup k = some a :=
  ⟨h.lookup_of_mem, mem_of_lookup⟩

theorem Ascending.ext_mem {l r : List (K × A)} (hl : Ascending l) (hr : Ascending r)
    (hmem : ∀ x, x ∈ l ↔ x ∈ r) : l = r := by
  have irrefl : ∀ l : List (K × A), Ascending l → l.Nodup := fun l h =>
    h.imp fun hab e => (ne_of_lt hab) (congrArg Prod.fst e)
  have hperm := (perm_ext_iff_of_nodup (irrefl l hl) (irrefl r hr)).2 hmem
  exact hperm.eq_of_pairwise (fun a b _ _ hab hba => absurd hab (lt_asymm hba)) hl hr

theorem Ascending.ext {l r : List (K × A)} (hl : Ascending l) (hr : Ascending r)
    (h : ∀ k, l.lookup k = r.lookup k) : l = r :=
  hl.ext_mem hr fun ⟨k, a⟩ => by rw [hl.mem_iff, hr.mem_iff, h]

def insertSorted (k : K) (a : A) : List (K × A) → List (K × A)
  | [] => [(k, a)]
  | x :: l =>
    if k < x.1 then (k, a) :: x :: l
    else if k = x.1 then (k, a) :: l
    else x :: insertSorted k a l

theorem mem_insertSorted {a : A} {y : K × A} (h : y ∈ insertSorted k a l) :
    y = (k, a) ∨ y ∈ l := by
  induction l with
  | nil => simpa [insertSorted] using h
  | cons x l ih =>
    simp only [insertSorted] at h
    split at h
    · simpa using h
    · split at h
      · rcases mem_cons.1 h with h | h
        · exact .inl h
        · exact .inr (mem_cons_of_mem _ h)
      · rcases mem_cons.1 h with h | h
        · exact .inr (h ▸ mem_cons_self)
        · exact (ih h).imp_right (mem_cons_of_mem _)

theorem Ascending.insertSorted (h : Ascending l) (k : K) (a : A) :
    Ascending (insertSorted k a l) := by
  induction l with
  | nil => exact pairwise_singleton ..
  | cons x l ih =>
    obtain ⟨hlt, hl⟩ := ascending_cons.1 h
    simp only [Lib.insertSorted]
    split
    · next hk =>
      refine ascending_cons.2 ⟨fun y hy => ?_, h⟩
      rcases mem_cons.1 hy with rfl | hy
      · exact hk
      · exact hk.trans (hlt y hy)
    · split
      · next hk =>
        refine ascending_cons.2 ⟨fun y hy => ?_, hl⟩
        rw [hk]
        exact hlt y hy
      · next h1 h2 =>
        refine ascending_cons.2 ⟨fun y hy => ?_, ih hl⟩
        rcases mem_insertSorted hy with rfl | hy
        · exact lt_of_le_of_ne (not_lt.1 h1) (Ne.symm h2)
        · exact hlt y hy

theorem lookup_insertSorted (k : K) (a : A) (l : List (K × A)) (j : K) :
    (insertSorted k a l).lookup j = if j = k then some a else l.lookup j := by
  induction l with
  | nil => simp [insertSorted, lookup_cons_eq_ite]
  | cons x l ih =>
    simp only [insertSorted]
    split
    · rw [lookup_cons_eq_ite]
    · split
      · next hk =>
        rw [lookup_cons_eq_ite, lookup_cons_eq_ite, ← hk]
        split <;> rfl
      · next hk =>
        rw [lookup_cons_eq_ite, ih, lookup_cons_eq_ite]
        by_cases hj : j = x.1
        · have : j ≠ k := fun h => hk (h.symm.trans hj)
          simp [hj, hj ▸ this]
        · simp [hj]

theorem lookup_filter_ne (k : K) (l : List (K × A)) (j : K) :
    (l.filter fun x => x.1 ≠ k).lookup j = if j = k then none else l.lookup j := by
  induction l with
  | nil => simp
  | cons x l ih =>
    by_cases hx : x.1 = k
    · grind
    · grind

theorem Ascending.filter (h : Ascending l) (p : K × A → Bool) :
    Ascending (l.filter p) := List.Pairwise.filter p h

theorem Ascending.lookup_filter (h : Ascending l) (p : K × A → Bool) (k : K) :
    (l.filter p).lookup k = (l.lookup k).filter fun a => p (k, a) := by
  have hp : l.filter p = l.filterMap fun x => (if p x then some x.2 else none).map (x.1, ·) := by
    rw [← filterMap_eq_filter]
    refine filterMap_congr fun x _ => ?_
    by_cases hx : p x <;> simp [Option.guard]
  rw [hp, lookup_filterMap h.nodup]
  cases l.lookup k <;> rfl

theorem Ascending.filterMap (h : Ascending l) (g : K × A → Option B) :
    Ascending (l.filterMap fun x => (g x).map (x.1, ·)) := by
  refine List.Pairwise.filterMap _ (fun x y hxy a ha b hb => ?_) h
  obtain ⟨v, -, rfl⟩ := map_eq_some_iff.1 ha
  obtain ⟨w, -, rfl⟩ := map_eq_some_iff.1 hb
  exact hxy

theorem lookup_flatten (ls : List (List (K × A))) (k : K) :
    ls.flatten.lookup k = ls.findSome? fun l => l.lookup k := by
  simp only [lookup_eq_findSome?, ← head?_filterMap, filterMap_flatten, head?_flatten, filterMap_map]
  rfl

structure SortedMap (K A : Type*) [LinearOrder K] where
  entries : List (K × A)
  ascending : Ascending entries

variable {m : SortedMap K A}

namespace SortedMap

instance [DecidableEq A] : DecidableEq (SortedMap K A) := fun m n =>
  decidable_of_iff (m.entries = n.entries) ⟨fun h => by cases m; cases n; cases h; rfl,
    fun h => h ▸ rfl⟩

def empty : SortedMap K A := ⟨[], .nil⟩

instance : Inhabited (SortedMap K A) := ⟨empty⟩

def get (m : SortedMap K A) (k : K) : Option A := m.entries.lookup k

def insert (m : SortedMap K A) (k : K) (a : A) : SortedMap K A :=
  ⟨insertSorted k a m.entries, m.ascending.insertSorted k a⟩

def erase (m : SortedMap K A) (k : K) : SortedMap K A :=
  ⟨m.entries.filter fun x => x.1 ≠ k, m.ascending.filter _⟩

def isEmpty (m : SortedMap K A) : Bool := m.entries.isEmpty

@[simp] theorem get_empty (k : K) : (empty : SortedMap K A).get k = none := rfl

theorem get_insert (m : SortedMap K A) (k : K) (a : A) (j : K) :
    (m.insert k a).get j = if j = k then some a else m.get j :=
  lookup_insertSorted ..

@[simp] theorem get_insert_self (m : SortedMap K A) (k : K) (a : A) :
    (m.insert k a).get k = some a := by rw [get_insert, if_pos rfl]

theorem get_insert_of_ne (m : SortedMap K A) {j : K} (a : A) (h : j ≠ k) :
    (m.insert k a).get j = m.get j := by rw [get_insert, if_neg h]

theorem get_erase (m : SortedMap K A) (k j : K) :
    (m.erase k).get j = if j = k then none else m.get j :=
  lookup_filter_ne ..

@[ext] theorem ext {n : SortedMap K A} (h : ∀ k, m.get k = n.get k) : m = n := by
  have := m.ascending.ext n.ascending h
  cases m; cases n; cases this; rfl

theorem mem_entries {a : A} :
    (k, a) ∈ m.entries ↔ m.get k = some a := m.ascending.mem_iff

theorem isEmpty_iff : m.isEmpty = true ↔ m.entries = [] :=
  List.isEmpty_iff

theorem insert_self {a : A} (h : m.get k = some a) : m.insert k a = m := by
  ext j : 1
  rw [get_insert]
  split
  · next hj => rw [hj, h]
  · rfl

def applyAll (m : SortedMap K A) (ms : List (K × Option A)) : SortedMap K A :=
  ms.foldl (fun m x => match x.2 with
    | some a => m.insert x.1 a
    | none => m.erase x.1) m

theorem get_applyAll (m : SortedMap K A) (ms : List (K × Option A)) (k : K) :
    (m.applyAll ms).get k = (ms.reverse.lookup k).getD (m.get k) := by
  induction ms generalizing m with
  | nil => rfl
  | cons x ms ih =>
    obtain ⟨j, a⟩ := x
    have hhead : (m.applyAll [(j, a)]).get k = if k = j then a else m.get k := by
      cases a with
      | some a => exact get_insert ..
      | none => exact get_erase ..
    have hcons : m.applyAll ((j, a) :: ms) = (m.applyAll [(j, a)]).applyAll ms := rfl
    rw [hcons, ih, hhead, reverse_cons, lookup_append]
    cases ms.reverse.lookup k with
    | some b => rfl
    | none =>
      rw [lookup_cons_eq_ite]
      split <;> rfl

theorem exists_get_eq (m : SortedMap K A) (keys : List K) {f : K → Option A}
    (h : ∀ k, k ∉ keys → f k = m.get k) : ∃ m' : SortedMap K A, ∀ k, m'.get k = f k := by
  refine ⟨m.applyAll (keys.map fun k => (k, f k)), fun k => ?_⟩
  have hlookup : ∀ ks : List K, (ks.map fun k => (k, f k)).lookup k
      = if k ∈ ks then some (f k) else none := by
    intro ks
    induction ks with
    | nil => rfl
    | cons j ks ih =>
      rw [map_cons, lookup_cons_eq_ite, ih]
      by_cases hj : k = j
      · rw [if_pos hj, if_pos (hj ▸ mem_cons_self), hj]
      · simp [hj]
  rw [get_applyAll, ← map_reverse, hlookup]
  by_cases hk : k ∈ keys
  · rw [if_pos (mem_reverse.2 hk)]
    rfl
  · rw [if_neg fun hmem => hk (mem_reverse.1 hmem)]
    exact (h k hk).symm

def mapValues (m : SortedMap K A) (f : K → A → B) : SortedMap K B :=
  ⟨m.entries.map fun x => (x.1, f x.1 x.2), by
    have h := m.ascending
    unfold Ascending at h ⊢
    rw [pairwise_map]
    exact h⟩

theorem get_mapValues (m : SortedMap K A) (f : K → A → B) (k : K) :
    (m.mapValues f).get k = (m.get k).map (f k) := by
  have h := lookup_filterMap m.ascending.nodup (fun x => some (f x.1 x.2)) k
  rw [map_eq_bind]
  simpa [get, mapValues, comp_def] using h

theorem mapValues_applyAll (m : SortedMap K A) (f : A → B) (ms : List (K × Option A)) :
    (m.applyAll ms).mapValues (fun _ => f)
      = (m.mapValues fun _ => f).applyAll (ms.map fun x => (x.1, x.2.map f)) := by
  ext k : 1
  rw [get_mapValues, get_applyAll, get_applyAll, get_mapValues, ← map_reverse, lookup_map_snd]
  cases ms.reverse.lookup k <;> rfl

end SortedMap

/-! ## First hits in key order -/

theorem findSome?_congr {l : List A} {f g : A → Option B} (h : ∀ x ∈ l, f x = g x) :
    l.findSome? f = l.findSome? g := by
  rw [← head?_filterMap, filterMap_congr h, head?_filterMap]

theorem findSome?_flatMap {C : Type*} (l : List C) (f : C → List A) (g : A → Option B) :
    (l.flatMap f).findSome? g = l.findSome? fun x => (f x).findSome? g := by
  simp [← head?_filterMap, filterMap_flatMap, head?_flatMap]

theorem SortedMap.findSome?_entries (m : SortedMap Nat A) {N : Nat}
    (hN : ∀ x ∈ m.entries, x.1 < N) (g : Nat → A → Option B) :
    m.entries.findSome? (fun x => g x.1 x.2)
      = (range N).findSome? fun n => (m.get n).bind (g n) := by
  have hrange : m.entries = (range N).filterMap fun n => (m.get n).map (n, ·) := by
    refine m.ascending.ext_mem (List.Pairwise.filterMap _ ?_ pairwise_lt_range) fun ⟨k, a⟩ => ?_
    · intro i j hij x hx y hy
      obtain ⟨_, -, rfl⟩ := map_eq_some_iff.1 hx
      obtain ⟨_, -, rfl⟩ := map_eq_some_iff.1 hy
      exact hij
    · have hk := hN (k, a)
      simp only [mem_entries] at hk ⊢
      simp
      grind
  rw [← head?_filterMap, hrange, filterMap_filterMap, head?_filterMap]
  simp only [bind_map]
  rfl

theorem SortedMap.mem_foldl_insert (hl : l.Pairwise fun x y => x.1 ≠ y.1)
    (hm : ∀ x ∈ l, m.get x.1 = none) {y : K × A} :
    y ∈ (l.foldl (fun m x => m.insert x.1 x.2) m).entries ↔ y ∈ l ∨ y ∈ m.entries := by
  induction l generalizing m with
  | nil => simp
  | cons x l ih =>
    obtain ⟨hx, hl⟩ := pairwise_cons.1 hl
    have hnew : ∀ z ∈ l, (m.insert x.1 x.2).get z.1 = none := fun z hz => by
      rw [get_insert_of_ne _ _ (hx z hz).symm]
      exact hm z (.tail _ hz)
    rw [foldl_cons, ih hl hnew, mem_entries, get_insert, mem_cons, mem_entries]
    have hx := hm x mem_cons_self
    by_cases hk : y.1 = x.1
    · obtain ⟨k, a⟩ := y
      obtain ⟨k', a'⟩ := x
      subst hk
      simp only [hx, if_true, Prod.mk.injEq, true_and, some.injEq, reduceCtorEq, or_false]
      rw [or_comm, eq_comm]
    · rw [if_neg hk]
      have : y ≠ x := fun h => hk (h ▸ rfl)
      simp [this]

theorem filter_suffix {α : Type*} {p : α → Bool} {l : List α}
    (h : l.Pairwise fun a b => p a → p b) : l.filter p <:+ l := by
  induction l with
  | nil => exact suffix_rfl
  | cons x l ih =>
    obtain ⟨hx, hl⟩ := pairwise_cons.1 h
    by_cases hp : p x
    · have hall : ∀ y ∈ x :: l, p y = true := fun y hy => by
        rcases mem_cons.1 hy with rfl | hy
        · exact hp
        · exact hx y hy hp
      simp only [filter_eq_self.2 hall, suffix_rfl]
    · rw [filter_cons_of_neg hp]
      exact (ih hl).trans (suffix_cons x l)

theorem SortedMap.suffix_of_putBack {removed kept : List (K × A)} (hs : m.entries = kept)
    (hasc : Ascending (removed ++ kept)) {back : List K}
    (hok : ∀ x ∈ removed, x.1 ∉ back → ∀ k ∈ back, x.1 < k) :
    ((removed.reverse.filter fun x => x.1 ∈ back).foldl (fun m x => m.insert x.1 x.2) m).entries
      <:+ removed ++ kept := by
  obtain ⟨hr, -, hlt⟩ := ascending_append.1 hasc
  have hmem : ∀ y, y ∈ ((removed.reverse.filter fun x => x.1 ∈ back).foldl
      (fun m x => m.insert x.1 x.2) m).entries ↔
      y ∈ (removed ++ kept).filter fun x => x.1 ∈ back ∨ x.1 ∈ kept.map Prod.fst := by
    intro y
    rw [mem_foldl_insert]
    · simp only [mem_filter, mem_reverse, hs, mem_append, decide_eq_true_eq]
      constructor
      · rintro (⟨hy, hb⟩ | hy)
        · exact ⟨.inl hy, .inl hb⟩
        · exact ⟨.inr hy, .inr (mem_map_of_mem hy)⟩
      · rintro ⟨hy | hy, hb | hk⟩
        · exact .inl ⟨hy, hb⟩
        · obtain ⟨z, hz, hzy⟩ := mem_map.1 hk
          exact absurd (hlt y hy z hz) (by rw [hzy]; exact lt_irrefl _)
        · exact .inr hy
        · exact .inr hy
    · refine List.Pairwise.filter _ (pairwise_reverse.2 (hr.imp fun hab => ?_))
      exact (ne_of_lt hab).symm
    · intro x hx
      have hx := mem_reverse.1 (mem_of_mem_filter hx)
      refine lookup_eq_none.2 fun z hz => (ne_of_lt (hlt x hx z ?_)).symm
      exact hs ▸ hz
  rw [(ascending _).ext_mem (hasc.filter _) hmem]
  refine filter_suffix (hasc.imp_of_mem fun {a b} ha hb hab hp => ?_)
  simp only [decide_eq_true_eq] at hp ⊢
  rcases mem_append.1 hb with hb | hb
  · left
    by_contra hnb
    rcases hp with hp | hp
    · exact absurd (hok b hb hnb a.1 hp) (lt_asymm hab)
    · obtain ⟨z, hz, hza⟩ := mem_map.1 hp
      exact absurd (hlt b hb z hz) (by rw [hza]; exact lt_asymm hab)
  · exact .inr (mem_map_of_mem hb)

/-! ## Maps that may fail -/

section

variable {X Y : Type*} {f : X → Option Y} {l : List X} {r : List Y}

theorem bind_bind_eq_some {Z : Type*} {x : Option X} {y : X → Option Y} {f : X → Y → Option Z}
    {c : Z} : (x.bind fun a => (y a).bind (f a)) = some c ↔
      ∃ a, x = some a ∧ ∃ b, y a = some b ∧ f a b = some c := by
  simp [bind_eq_some_iff]

theorem mapM_cons_eq_some {x : X} : (x :: l).mapM f = some r ↔
    ∃ y ys, f x = some y ∧ l.mapM f = some ys ∧ y :: ys = r := by
  simp [bind_eq_some_iff]

theorem mapM_eq_some_iff : l.mapM f = some r ↔ l.map f = r.map some := by
  induction l generalizing r with
  | nil => cases r <;> simp
  | cons x l ih =>
    rw [mapM_cons_eq_some]
    cases r <;> simp [ih]

theorem getElem?_of_mapM (h : l.mapM f = some r) (i : Nat) : r[i]? = l[i]?.bind f := by
  have hi : (l.map f)[i]? = (r.map some)[i]? := by rw [mapM_eq_some_iff.1 h]
  cases hl : l[i]? <;> cases hr : r[i]? <;> simp_all

theorem length_of_mapM (h : l.mapM f = some r) : r.length = l.length := by
  simpa using (congrArg length (mapM_eq_some_iff.1 h)).symm

theorem mapM_bind_of_mapM {Z : Type*} (h : l.mapM f = some r) (g : Y → Option Z) :
    l.mapM (fun x => (f x).bind g) = r.mapM g := by
  induction l generalizing r with
  | nil => simp_all
  | cons x l ih =>
    obtain ⟨y, ys, hy, hys, rfl⟩ := mapM_cons_eq_some.1 h
    rw [mapM_cons, mapM_cons, hy, ih hys]
    rfl

theorem exists_mapM (h : ∀ x ∈ l, (f x).isSome) : ∃ r, l.mapM f = some r := by
  induction l with
  | nil => exact ⟨[], rfl⟩
  | cons x l ih =>
    obtain ⟨y, hy⟩ := isSome_iff_exists.1 (h x mem_cons_self)
    obtain ⟨ys, hys⟩ := ih fun z hz => h z (.tail _ hz)
    exact ⟨y :: ys, mapM_cons_eq_some.2 ⟨y, ys, hy, hys, rfl⟩⟩

theorem filterMap_of_mapM (h : l.mapM f = some r) : l.filterMap f = r := by
  simpa [filterMap_map] using congrArg (filterMap id) (mapM_eq_some_iff.1 h)

theorem mapM_eq_filterMap (f : X → Option Y) (l : List X) :
    l.mapM f = if (l.filterMap f).length = l.length then some (l.filterMap f) else none := by
  split
  · next hlen =>
    obtain ⟨r, hr⟩ := exists_mapM (filterMap_length_eq_length.1 hlen)
    rw [hr, filterMap_of_mapM hr]
  · next hlen =>
    cases hr : l.mapM f with
    | none => rfl
    | some r => exact absurd (by rw [filterMap_of_mapM hr, length_of_mapM hr]) hlen

theorem eq_map_of_mapM (h : l.mapM f = some r) (d : Y) : r = l.map fun x => (f x).getD d := by
  calc r = (r.map some).map fun y => y.getD d := by simp [comp_def]
    _ = (l.map f).map fun y => y.getD d := by rw [mapM_eq_some_iff.1 h]
    _ = l.map fun x => (f x).getD d := map_map

theorem exists_of_mapM (h : l.mapM f = some r) {x : X} (hx : x ∈ l) : ∃ y ∈ r, f x = some y := by
  have hmem : f x ∈ r.map some := mapM_eq_some_iff.1 h ▸ mem_map_of_mem hx
  obtain ⟨y, hy, hfx⟩ := mem_map.1 hmem
  exact ⟨y, hy, hfx.symm⟩

theorem mem_of_mapM (h : l.mapM f = some r) {y : Y} (hy : y ∈ r) : ∃ x ∈ l, f x = some y := by
  have hmem : some y ∈ l.map f := mapM_eq_some_iff.1 h ▸ mem_map_of_mem hy
  exact mem_map.1 hmem

theorem map_of_mapM {Z : Type*} {g : Y → Z} {k : X → Z} (h : l.mapM f = some r)
    (hg : ∀ x y, f x = some y → g y = k x) : r.map g = l.map k := by
  induction l generalizing r with
  | nil => simp_all
  | cons x l ih =>
    obtain ⟨y, ys, hy, hys, rfl⟩ := mapM_cons_eq_some.1 h
    rw [map_cons, map_cons, hg x y hy, ih hys]

theorem mapM_map {Z : Type*} (l : List X) (f : X → Option Y) (g : Y → Z) :
    l.mapM (fun x => (f x).map g) = (l.mapM f).map (map g) := by
  induction l with
  | nil => rfl
  | cons x l ih =>
    rw [mapM_cons, mapM_cons, ih]
    cases f x with
    | none => rfl
    | some y => cases l.mapM f <;> rfl

theorem mapM_congr {f' : X → Option Y} (h : ∀ x ∈ l, f x = f' x) : l.mapM f = l.mapM f' := by
  induction l with
  | nil => rfl
  | cons x l ih =>
    rw [mapM_cons, mapM_cons, h x mem_cons_self, ih fun z hz => h z (.tail _ hz)]

end

end Dtdb.Lib
