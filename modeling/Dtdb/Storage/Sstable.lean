import Dtdb.Lib.Search
import Dtdb.Storage.MemTable

/-! # SSTables and levels

A reader is the content of one SSTable file: a non-empty ascending run of entries, written under one
row layout. -/

namespace Dtdb.Storage

open Dtdb.Lib List Option

variable {K V Λ : Type} [LinearOrder K]

/-- An open SSTable.  The layout `none` is the empty layout. -/
structure Reader (K V Λ : Type) [LinearOrder K] where
  id : Nat
  level : Nat
  layout : Option Λ
  entries : List (K × Option V)
  nonempty : entries ≠ []
  ascending : Ascending entries

/-- A slot together with the layout its value was written under. -/
abbrev Hit (V Λ : Type) := Option Λ × Option V

variable {r : Reader K V Λ} {k : K}

namespace Reader

def firstKey (r : Reader K V Λ) : K := (r.entries.head r.nonempty).1

def lastKey (r : Reader K V Λ) : K := (r.entries.getLast r.nonempty).1

def get (r : Reader K V Λ) (k : K) : Option (Option V) := r.entries.lookup k

def hit (r : Reader K V Λ) (k : K) : Option (Hit V Λ) := (r.get k).map fun s => (r.layout, s)

theorem hit_eq_none : r.hit k = none ↔ r.get k = none :=
  map_eq_none_iff

theorem firstKey_le {x : K × Option V} (h : x ∈ r.entries) :
    r.firstKey ≤ x.1 := by
  unfold firstKey
  match hr : r.entries, r.nonempty with
  | y :: l, _ =>
    have hasc := r.ascending
    rw [hr] at hasc h
    rcases mem_cons.1 h with rfl | h
    · exact le_rfl
    · exact ((ascending_cons.1 hasc).1 x h).le

theorem le_lastKey {x : K × Option V} (h : x ∈ r.entries) :
    x.1 ≤ r.lastKey := by
  unfold lastKey
  have hasc := r.ascending
  rw [← dropLast_append_getLast r.nonempty] at hasc h
  rcases mem_append.1 h with h | h
  · exact ((ascending_append.1 hasc).2.2 x h _ (mem_singleton_self _)).le
  · rw [mem_singleton.1 h]

theorem firstKey_le_lastKey (r : Reader K V Λ) : r.firstKey ≤ r.lastKey :=
  le_lastKey (head_mem r.nonempty)

theorem mem_range_of_get (h : r.get k ≠ none) :
    r.firstKey ≤ k ∧ k ≤ r.lastKey := by
  obtain ⟨s, hs⟩ := ne_none_iff_exists'.1 h
  have hm := mem_of_lookup hs
  exact ⟨firstKey_le hm, le_lastKey hm⟩

end Reader

/-! ## Level 0 -/

/-- `insert_l0_sorted`: keep level 0 by descending id. -/
def insertL0Sorted (list : List (Reader K V Λ)) (r : Reader K V Λ) : List (Reader K V Λ) :=
  let pos := partitionPoint (fun x => x.id > r.id) list
  list.take pos ++ r :: list.drop pos

def NewestFirst (list : List (Reader K V Λ)) : Prop := list.Pairwise fun a b => b.id < a.id

variable {list : List (Reader K V Λ)}

theorem insertL0Sorted_eq (h : NewestFirst list) (r : Reader K V Λ) :
    ∃ newer older, list = newer ++ older ∧
      insertL0Sorted list r = newer ++ r :: older ∧
      (∀ x ∈ newer, r.id < x.id) ∧ ∀ x ∈ older, x.id ≤ r.id := by
  have hpart := partitionPoint_spec (p := fun x : Reader K V Λ => x.id > r.id)
    (h.imp fun {a b} hab hb => by simp only [decide_eq_true_eq] at *; omega)
  refine ⟨_, _, (take_append_drop _ list).symm, rfl, ?_, ?_⟩
  · exact fun x hx => by simpa using hpart.1 x hx
  · exact fun x hx => by simpa using hpart.2 x hx

theorem mem_insertL0Sorted (h : NewestFirst list) {x : Reader K V Λ} :
    x ∈ insertL0Sorted list r ↔ x = r ∨ x ∈ list := by
  obtain ⟨newer, older, rfl, hins, -, -⟩ := insertL0Sorted_eq h r
  rw [hins]
  simp only [mem_append, mem_cons]
  tauto

theorem NewestFirst.insert (h : NewestFirst list) (hr : ∀ x ∈ list, x.id ≠ r.id) :
    NewestFirst (insertL0Sorted list r) := by
  obtain ⟨newer, older, rfl, hins, hnew, hold⟩ := insertL0Sorted_eq h r
  obtain ⟨h₁, h₂, h₃⟩ := pairwise_append.1 h
  rw [hins]
  refine pairwise_append.2 ⟨h₁, pairwise_cons.2 ⟨fun x hx => ?_, h₂⟩, ?_⟩
  · exact lt_of_le_of_ne (hold x hx) (hr x (mem_append_right _ hx))
  · intro x hx y hy
    rcases mem_cons.1 hy with rfl | hy
    · exact hnew x hx
    · exact h₃ x hx y hy

theorem NewestFirst.hit_eq {l : List (Reader K V Λ)} (h : NewestFirst l) {f : Reader K V Λ}
    (hf : f ∈ l) {s : Option V} (hk : f.get k = some s)
    (hnewer : ∀ g ∈ l, f.id < g.id → g.get k = none) :
    l.findSome? (fun r => r.hit k) = some (f.layout, s) := by
  obtain ⟨pre, post, rfl⟩ := append_of_mem hf
  refine findSome?_eq_some_iff.2 ⟨pre, f, post, rfl, by simp [Reader.hit, hk], ?_⟩
  intro g hg
  rw [Reader.hit_eq_none]
  refine hnewer g (mem_append_left _ hg) ?_
  exact (pairwise_append.1 h).2.2 g hg f mem_cons_self

theorem insertL0Sorted_hit {l : List (Reader K V Λ)} (h : NewestFirst l) (hk : r.get k = none) :
    (insertL0Sorted l r).findSome? (fun r => r.hit k) = l.findSome? fun r => r.hit k := by
  obtain ⟨newer, older, rfl, hins, -, -⟩ := insertL0Sorted_eq h r
  rw [hins, findSome?_append, findSome?_append, findSome?_cons,
    Reader.hit_eq_none.2 hk]

/-! ## Deeper levels -/

def KeyOrdered (list : List (Reader K V Λ)) : Prop :=
  list.Pairwise fun a b => a.lastKey < b.firstKey

/-- The comparator `get` bisects a level with. -/
def rangeCmp (k : K) (r : Reader K V Λ) : Ordering :=
  if k < r.firstKey then .gt else if r.lastKey < k then .lt else .eq

theorem rangeCmp_eq :
    rangeCmp k r = .eq ↔ r.firstKey ≤ k ∧ k ≤ r.lastKey := by
  unfold rangeCmp
  split
  · next h => simp [h]
  · split
    · next h => simp [h]
    · next h₁ h₂ => simp [not_lt.1 h₁, not_lt.1 h₂]

theorem rangeCmp_gt : rangeCmp k r = .gt ↔ k < r.firstKey := by
  unfold rangeCmp
  split
  · next h => simp [h]
  · next h => split <;> simp [h]

theorem rangeCmp_lt : rangeCmp k r = .lt ↔ r.lastKey < k := by
  unfold rangeCmp
  split
  · next h => simp [(h.trans_le r.firstKey_le_lastKey).le]
  · split <;> simp_all

theorem KeyOrdered.rising (h : KeyOrdered list) (k : K) :
    Rising (rangeCmp k) list := by
  refine h.imp fun {a b} hab => ⟨fun ha => ?_, fun hb => ?_⟩
  · rw [rangeCmp_gt] at *
    exact (ha.trans_le a.firstKey_le_lastKey).trans hab
  · rw [rangeCmp_lt] at *
    exact (hab.trans_le b.firstKey_le_lastKey).trans hb

/-- The part of `get` that searches one level below 0. -/
def probeLevel (list : List (Reader K V Λ)) (k : K) : Option (Hit V Λ) :=
  match binarySearchBy (rangeCmp k) list with
  | .ok i => list[i]?.bind fun r => r.hit k
  | .error _ => none

theorem KeyOrdered.eq_of_range (h : KeyOrdered list) {a b : Reader K V Λ} (ha : a ∈ list)
    (hb : b ∈ list) (hak : a.firstKey ≤ k ∧ k ≤ a.lastKey) (hbk : b.firstKey ≤ k ∧ k ≤ b.lastKey) :
    a = b := by
  induction list with
  | nil => cases ha
  | cons x l ih =>
    obtain ⟨hx, hl⟩ := pairwise_cons.1 h
    rcases mem_cons.1 ha with rfl | ha' <;> rcases mem_cons.1 hb with rfl | hb'
    · rfl
    · exact absurd (hx b hb') (not_lt.2 (hbk.1.trans hak.2))
    · exact absurd (hx a ha') (not_lt.2 (hak.1.trans hbk.2))
    · exact ih hl ha' hb'

theorem KeyOrdered.apart (h : KeyOrdered list) {a b : Reader K V Λ} (ha : a ∈ list)
    (hb : b ∈ list) (hab : a ≠ b) :
    a.lastKey < b.firstKey ∨ b.lastKey < a.firstKey := by
  by_contra hcon
  push Not at hcon
  rcases le_total a.firstKey b.firstKey with hle | hle
  · exact hab (h.eq_of_range ha hb ⟨hle, hcon.1⟩ ⟨le_rfl, b.firstKey_le_lastKey⟩)
  · exact hab (h.eq_of_range ha hb ⟨le_rfl, a.firstKey_le_lastKey⟩ ⟨hle, hcon.2⟩)

theorem KeyOrdered.probeLevel_eq (h : KeyOrdered list) (k : K) :
    probeLevel list k = list.findSome? fun r => r.hit k := by
  unfold probeLevel
  cases hs : binarySearchBy (rangeCmp k) list with
  | ok i =>
    obtain ⟨r, hr, hk⟩ := binarySearchBy_ok hs
    have hmem := mem_of_getElem? hr
    -- the file found is the only one whose range holds `k`
    have honly : ∀ x ∈ list, x ≠ r → x.hit k = none := by
      intro x hx hne
      rw [Reader.hit_eq_none]
      by_contra hsome
      exact hne (h.eq_of_range hx hmem (Reader.mem_range_of_get hsome) (rangeCmp_eq.1 hk))
    simp only [hr, bind_some]
    cases hhit : r.hit k with
    | none =>
      refine (findSome?_eq_none_iff.2 fun x hx => ?_).symm
      by_cases hxr : x = r
      · rw [hxr, hhit]
      · exact honly x hx hxr
    | some y =>
      cases hf : list.findSome? fun r => r.hit k with
      | none => rw [findSome?_eq_none_iff.1 hf r hmem] at hhit; cases hhit
      | some z =>
        obtain ⟨x, hx, hxz⟩ := exists_of_findSome?_eq_some hf
        by_cases hxr : x = r
        · rw [← hhit, ← hxz, hxr]
        · rw [honly x hx hxr] at hxz
          cases hxz
  | error i =>
    refine (findSome?_eq_none_iff.2 fun x hx => ?_).symm
    rw [Reader.hit_eq_none]
    by_contra hsome
    obtain ⟨j, hj⟩ := exists_binarySearchBy (h.rising k) hx
      (rangeCmp_eq.2 (Reader.mem_range_of_get hsome))
    rw [hs] at hj
    cases hj

end Dtdb.Storage
