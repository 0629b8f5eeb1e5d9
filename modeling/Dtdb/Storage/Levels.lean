import Dtdb.Storage.Engine

/-! # What the levels of an engine mean

`LevelsOk`: level 0 newest first, deeper levels in key order, nothing past the last level.  A
`Meaning` interprets a stored value under its layout; a rewriter may change bytes but not meaning.
-/

namespace Dtdb.Storage

open Dtdb.Lib List Option

variable {K V Λ : Type} [LinearOrder K]

/-! ## Levels -/

section

variable [ByteSize K] [ByteSize V]

structure LevelsOk (maxLevel : Nat) (e : Engine K V Λ) : Prop where
  newestFirst : NewestFirst (e.level 0)
  keyOrdered : ∀ n, 0 < n → KeyOrdered (e.level n)
  bound : ∀ x ∈ e.sstables.entries, x.1 ≤ maxLevel
  level_eq : ∀ n, ∀ r ∈ e.level n, r.level = n
  ids : ∀ n, ∀ r ∈ e.level n, r.id < e.nextSstId
  nodup : ∀ n, ((e.level n).map Reader.id).Nodup

namespace Engine

def levelHit (e : Engine K V Λ) (k : K) (n : Nat) : Option (Hit V Λ) :=
  (e.level n).findSome? fun r => r.hit k

variable {e : Engine K V Λ}

variable {maxLevel : Nat}

theorem level_eq_nil_of_bound {n : Nat} (h : LevelsOk maxLevel e) (hn : maxLevel < n) :
    e.level n = [] := by
  unfold level
  cases hg : e.sstables.get n with
  | none => rfl
  | some l => exact absurd (h.bound (n, l) (SortedMap.mem_entries.2 hg)) (by simpa using hn)

theorem probe_eq (h : LevelsOk maxLevel e) (k : K) :
    e.probe k = (range (maxLevel + 1)).findSome? (e.levelHit k) := by
  unfold probe
  rw [e.sstables.findSome?_entries (N := maxLevel + 1) (fun x hx => by have := h.bound x hx; omega)
    fun n l => if n = 0 then none else if l.isEmpty then none else probeLevel l k]
  rw [range_succ_eq_map, findSome?_cons, findSome?_cons]
  have htail : ∀ n, ((e.sstables.get (n + 1)).bind fun l => if n + 1 = 0 then none
      else if l.isEmpty then none else probeLevel l k) = e.levelHit k (n + 1) := by
    intro n
    have hord := h.keyOrdered (n + 1) (by omega)
    unfold levelHit
    unfold level at hord ⊢
    cases hg : e.sstables.get (n + 1) with
    | none => rfl
    | some l =>
      rw [hg] at hord
      cases l with
      | nil => rfl
      | cons r l => simpa using KeyOrdered.probeLevel_eq hord k
  have hzero : ((e.sstables.get 0).bind fun l => if (0 : Nat) = 0 then none
      else if l.isEmpty then none else probeLevel l k) = none := by
    cases e.sstables.get 0 <;> rfl
  rw [hzero]
  simp only [findSome?_map, Function.comp_def, htail]
  unfold levelHit
  cases (e.level 0).findSome? fun r => r.hit k <;> rfl

theorem probe_congr {e' : Engine K V Λ} (h : LevelsOk maxLevel e) (h' : LevelsOk maxLevel e')
    {k : K} (hk : ∀ n, e'.levelHit k n = e.levelHit k n) :
    e'.probe k = e.probe k := by
  rw [probe_eq h, probe_eq h']
  exact findSome?_congr fun n _ => hk n

theorem probe_of_level0 (h : LevelsOk maxLevel e) {k : K} {x : Hit V Λ}
    (h0 : e.levelHit k 0 = some x) : e.probe k = some x := by
  rw [probe_eq h, range_succ_eq_map, findSome?_cons, h0]

end Engine

variable {e e' : Engine K V Λ} {f : Reader K V Λ} {maxLevel : Nat}

theorem LevelsOk.congr (h : LevelsOk maxLevel e) (hs : e'.sstables = e.sstables)
    (hnext : e.nextSstId ≤ e'.nextSstId) : LevelsOk maxLevel e' := by
  have hl : ∀ n, e'.level n = e.level n := fun n => by rw [Engine.level, hs]; rfl
  refine ⟨hl 0 ▸ h.newestFirst, fun n hn => hl n ▸ h.keyOrdered n hn, hs ▸ h.bound,
    fun n => hl n ▸ h.level_eq n, fun n r hr => ?_, fun n => hl n ▸ h.nodup n⟩
  exact (h.ids n r (hl n ▸ hr)).trans_le hnext

/-! ## A new file at level 0 -/

theorem Engine.level_zero_of_insert
    (hs : e'.sstables = e.sstables.insert 0 (insertL0Sorted (e.level 0) f)) :
    e'.level 0 = insertL0Sorted (e.level 0) f := by
  rw [level, hs, SortedMap.get_insert_self]
  rfl

theorem Engine.level_of_insert
    (hs : e'.sstables = e.sstables.insert 0 (insertL0Sorted (e.level 0) f)) {n : Nat} (hn : n ≠ 0) :
    e'.level n = e.level n := by
  rw [level, hs, SortedMap.get_insert_of_ne _ _ hn]
  rfl

theorem LevelsOk.insertFile (h : LevelsOk maxLevel e)
    (hs : e'.sstables = e.sstables.insert 0 (insertL0Sorted (e.level 0) f)) (hf : f.level = 0)
    (hid : ∀ g ∈ e.level 0, g.id ≠ f.id) (hlt : f.id < e'.nextSstId)
    (hnext : e.nextSstId ≤ e'.nextSstId) : LevelsOk maxLevel e' := by
  have h0 : NewestFirst (e'.level 0) := by
    rw [Engine.level_zero_of_insert hs]
    exact h.newestFirst.insert hid
  have hmem : ∀ n, ∀ r ∈ e'.level n, n = 0 ∧ r = f ∨ r ∈ e.level n := by
    intro n r hr
    by_cases hn : n = 0
    · subst hn
      rw [Engine.level_zero_of_insert hs, mem_insertL0Sorted h.newestFirst] at hr
      exact hr.imp (⟨rfl, ·⟩) id
    · rw [Engine.level_of_insert hs hn] at hr
      exact .inr hr
  refine ⟨h0, fun n hn => ?_, fun x hx => ?_, fun n r hr => ?_, fun n r hr => ?_, fun n => ?_⟩
  · rw [Engine.level_of_insert hs (by omega)]
    exact h.keyOrdered n hn
  · rw [hs] at hx
    rcases mem_insertSorted hx with rfl | hx
    · exact Nat.zero_le _
    · exact h.bound x hx
  · rcases hmem n r hr with ⟨rfl, rfl⟩ | hr
    · exact hf
    · exact h.level_eq n r hr
  · rcases hmem n r hr with ⟨-, rfl⟩ | hr
    · exact hlt
    · exact (h.ids n r hr).trans_le hnext
  · by_cases hn : n = 0
    · subst hn
      exact pairwise_map.2 (h0.imp fun hab => ne_of_gt hab)
    · rw [Engine.level_of_insert hs hn]
      exact h.nodup n

theorem LevelsOk.probe_insertFile (h : LevelsOk maxLevel e) (h' : LevelsOk maxLevel e')
    (hs : e'.sstables = e.sstables.insert 0 (insertL0Sorted (e.level 0) f)) {k : K}
    (hk : f.get k = none) : e'.probe k = e.probe k := by
  refine Engine.probe_congr h h' fun n => ?_
  unfold Engine.levelHit
  by_cases hn : n = 0
  · subst hn
    rw [Engine.level_zero_of_insert hs]
    exact insertL0Sorted_hit h.newestFirst hk
  · rw [Engine.level_of_insert hs hn]

end

/-! ## Meanings -/

/-- What stored values mean when the target layout is `T`. -/
structure Meaning (cfg : Config K V Λ) (T : Option Λ) (A : Type) where
  den : Option Λ → V → A
  rewrite_den : ∀ l v, l ≠ T → ∃ v', cfg.rewriter l T v = .ok v' ∧ den T v' = den l v

namespace Meaning

variable {cfg : Config K V Λ} {T : Option Λ} {A : Type}

def identity (h : cfg.KeepsPlain) : Meaning cfg none V where
  den _ v := v
  rewrite_den l v _ := ⟨v, h l v, rfl⟩

def slot (M : Meaning cfg T A) (layout : Option Λ) (s : Option V) : Option A := s.map (M.den layout)

def hit (M : Meaning cfg T A) (h : Option (Hit V Λ)) : Option A := h.bind fun x => M.slot x.1 x.2

@[simp] theorem hit_some (M : Meaning cfg T A) (l : Option Λ) (s : Option V) :
    M.hit (some (l, s)) = M.slot l s := rfl

@[simp] theorem slot_some (M : Meaning cfg T A) (l : Option Λ) (v : V) :
    M.slot l (some v) = some (M.den l v) := rfl

theorem identity_slot (h : cfg.KeepsPlain) (l : Option Λ) (s : Option V) :
    (identity h).slot l s = s := by
  cases s <;> rfl

variable [ByteSize K] [ByteSize V]

/-- What the engine holds for a key: the memtables' slot, else the SSTables'. -/
def view (M : Meaning cfg T A) (e : Engine K V Λ) (k : K) : Option A :=
  match e.memHit k with
  | some s => M.slot T s
  | none => M.hit (e.probe k)

theorem view_of_memHit (M : Meaning cfg T A) {e : Engine K V Λ} {k : K} {s : Option V}
    (h : e.memHit k = some s) : M.view e k = M.slot T s := by
  unfold view
  rw [h]

theorem view_of_memHit_none (M : Meaning cfg T A) {e : Engine K V Λ} {k : K}
    (h : e.memHit k = none) : M.view e k = M.hit (e.probe k) := by
  unfold view
  rw [h]

/-- `get` never fails and returns a value with the meaning the engine holds. -/
theorem get_eq [DecidableEq Λ] (M : Meaning cfg T A) {e : Engine K V Λ} (hT : e.targetLayout = T)
    (k : K) : ∃ w, e.get cfg k = .ok w ∧ w.map (M.den T) = M.view e k := by
  unfold Engine.get view
  cases hm : e.memHit k with
  | some s => exact ⟨s, rfl, rfl⟩
  | none =>
    cases hp : e.probe k with
    | none => exact ⟨none, rfl, rfl⟩
    | some x =>
      obtain ⟨l, s⟩ := x
      cases s with
      | none => exact ⟨none, rfl, rfl⟩
      | some v =>
        simp only [Engine.resolve, hT]
        by_cases hl : l = T
        · exact ⟨some v, by rw [if_neg (by simpa using hl)], by rw [hl]; rfl⟩
        · obtain ⟨v', hv', hden⟩ := M.rewrite_den l v hl
          refine ⟨some v', by rw [if_pos hl, hv']; rfl, ?_⟩
          rw [hit_some, slot_some, map_some, hden]

end Meaning

end Dtdb.Storage
