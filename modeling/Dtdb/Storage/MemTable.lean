import Dtdb.Lib.SortedMap
import Dtdb.Storage.Key
import Mathlib.Algebra.BigOperators.Group.List.Basic
import Mathlib.Tactic.Ring

/-! # The memtable

A sorted map from keys to slots (`none` is a tombstone) with a byte count.  `applyDrain` is the
write path, which skips a nested batch; `applyEntryRecursive` is recovery, which descends into one.
-/

namespace Dtdb.Storage

open Dtdb.Lib List Option

variable {K V : Type}

inductive WalEntry (K V : Type) where
  | put (key : K) (value : V)
  | delete (key : K)
  | batch (entries : List (WalEntry K V))

abbrev Mutation (K V : Type) := K × Option V

section

variable [LinearOrder K]

/-- The slot the last mutation of `k` in the list leaves. -/
def lastWrite (muts : List (Mutation K V)) (k : K) : Option (Option V) := muts.reverse.lookup k

@[simp] theorem lastWrite_nil (k : K) : lastWrite ([] : List (Mutation K V)) k = none := rfl

theorem lastWrite_append (as bs : List (Mutation K V)) (k : K) :
    lastWrite (as ++ bs) k = (lastWrite bs k).or (lastWrite as k) := by
  simp [lastWrite, reverse_append, lookup_append]

theorem lastWrite_cons (m : Mutation K V) (ms : List (Mutation K V)) (k : K) :
    lastWrite (m :: ms) k = (lastWrite ms k).or (if k = m.1 then some m.2 else none) := by
  rw [← singleton_append, lastWrite_append]
  simp [lastWrite, lookup_cons_eq_ite]

theorem exists_of_lastWrite_flatten {bss : List (List (Mutation K V))} {k : K} {v : Option V}
    (h : lastWrite bss.flatten k = some v) : ∃ b ∈ bss, lastWrite b k = some v := by
  induction bss with
  | nil => cases h
  | cons b bss ih =>
    rw [flatten_cons, lastWrite_append] at h
    cases hrest : lastWrite bss.flatten k with
    | none =>
      rw [hrest] at h
      exact ⟨b, mem_cons_self, h⟩
    | some v' =>
      rw [hrest] at h
      obtain ⟨c, hc, hv⟩ := ih (hrest.trans h)
      exact ⟨c, .tail _ hc, hv⟩

theorem lastWrite_deletes (ks : List K) (k : K) :
    lastWrite (ks.map fun j => ((j, none) : Mutation K V)) k = if k ∈ ks then some none else none := by
  induction ks with
  | nil => rfl
  | cons j ks ih =>
    rw [map_cons, lastWrite_cons, ih]
    by_cases hk : k ∈ ks
    · rw [if_pos hk, some_or, if_pos (mem_cons_of_mem _ hk)]
    · rw [if_neg hk]
      simp [hk]

theorem lastWrite_puts {es : List (K × V)} (hnd : (es.map Prod.fst).Nodup) (k : K) :
    lastWrite (es.map fun x => ((x.1, some x.2) : Mutation K V)) k = (es.lookup k).map some := by
  induction es with
  | nil => rfl
  | cons x es ih =>
    obtain ⟨hnot, hnd⟩ := nodup_cons.1 hnd
    rw [map_cons, lastWrite_cons, ih hnd, lookup_cons_eq_ite]
    by_cases hk : k = x.1
    · have hnone : es.lookup k = none :=
        lookup_eq_none.2 fun y hy heq => hnot (mem_map.2 ⟨y, hy, heq.trans hk⟩)
      rw [hnone, if_pos hk, if_pos hk]
      rfl
    · rw [if_neg hk, if_neg hk, or_none]

theorem lastWrite_flatMap {A : Type} [DecidableEq A] {B : Type} {ws : List (A × B)}
    (hnd : (ws.map Prod.fst).Nodup) {g : A × B → List (Mutation K V)} {k : K} {a : A}
    (hothers : ∀ w ∈ ws, w.1 ≠ a → lastWrite (g w) k = none) :
    lastWrite (ws.flatMap g) k = (ws.lookup a).bind fun b => lastWrite (g (a, b)) k := by
  induction ws with
  | nil => rfl
  | cons w ws ih =>
    obtain ⟨c, b⟩ := w
    obtain ⟨hnot, hnd⟩ := nodup_cons.1 hnd
    rw [flatMap_cons, lastWrite_append, ih hnd fun x hx => hothers x (.tail _ hx)]
    by_cases hc : a = c
    · subst hc
      have hnone : ws.lookup a = none := by
        refine lookup_eq_none_iff.2 fun x hx => ?_
        have hne : a ≠ x.1 := fun heq => hnot (mem_map.2 ⟨x, hx, heq.symm⟩)
        simpa using hne
      rw [hnone, lookup_cons_self]
      rfl
    · rw [lookup_cons, beq_false_of_ne hc, hothers _ mem_cons_self (Ne.symm hc),
        or_none]

end

namespace WalEntry

/-- The mutation of a plain entry; a nested batch has none. -/
def mutation? : WalEntry K V → Option (Mutation K V)
  | .put k v => some (k, some v)
  | .delete k => some (k, none)
  | .batch _ => none

def mutations (es : List (WalEntry K V)) : List (Mutation K V) := es.filterMap mutation?

mutual

def flatten : WalEntry K V → List (Mutation K V)
  | .put k v => [(k, some v)]
  | .delete k => [(k, none)]
  | .batch es => flattenAll es

def flattenAll : List (WalEntry K V) → List (Mutation K V)
  | [] => []
  | e :: es => flatten e ++ flattenAll es

end

def Flat (es : List (WalEntry K V)) : Prop := ∀ e ∈ es, e.mutation?.isSome

theorem Flat.flattenAll_eq : ∀ {es : List (WalEntry K V)}, Flat es → flattenAll es = mutations es
  | [], _ => rfl
  | e :: es, h => by
    have ih : flattenAll es = mutations es :=
      Flat.flattenAll_eq fun x hx => h x (mem_cons_of_mem _ hx)
    cases e with
    | put k v | delete k => simp [flattenAll, flatten, mutations, mutation?, ih]
    | batch sub => simpa [mutation?] using h (.batch sub) (by simp)

end WalEntry

/-! ## Byte counts -/

variable [ByteSize K] [ByteSize V]

/-- `option_value_byte_size`: a tombstone counts one byte. -/
def slotSize : Option V → Nat
  | none => 1
  | some v => byteSize v

def entrySize (e : K × Option V) : Nat := byteSize e.1 + slotSize e.2

def totalSize (l : List (K × Option V)) : Int := (l.map fun e => (entrySize e : Int)).sum

theorem totalSize_cons (e : K × Option V) (l : List (K × Option V)) :
    totalSize (e :: l) = entrySize e + totalSize l := by simp [totalSize]

theorem totalSize_nonneg (l : List (K × Option V)) : 0 ≤ totalSize l := by
  induction l with
  | nil => rfl
  | cons e l ih =>
    rw [totalSize_cons]
    omega

theorem totalSize_eq_zero {l : List (K × Option V)} :
    totalSize l = 0 ↔ ∀ e ∈ l, entrySize e = 0 := by
  induction l with
  | nil => simp [totalSize]
  | cons e l ih =>
    have hrest := totalSize_nonneg l
    rw [totalSize_cons, forall_mem_cons, ← ih]
    omega

variable [LinearOrder K]

/-- The change of the byte count when `slot` replaces `old`. -/
def sizeDelta (k : K) (slot : Option V) (old : Option (Option V)) : Int :=
  match old with
  | some o => (slotSize slot : Int) - slotSize o
  | none => byteSize k + slotSize slot

theorem totalSize_insertSorted {l : List (K × Option V)} (h : Ascending l) (k : K)
    (slot : Option V) :
    totalSize (insertSorted k slot l) = totalSize l + sizeDelta k slot (l.lookup k) := by
  induction l with
  | nil => simp [insertSorted, totalSize, sizeDelta, entrySize]
  | cons x l ih =>
    obtain ⟨hlt, hl⟩ := ascending_cons.1 h
    simp only [insertSorted]
    split
    · next hk =>
      have hnone : (x :: l).lookup k = none := lookup_eq_none.2 fun y hy => by
        rcases mem_cons.1 hy with rfl | hy
        · exact ne_of_gt hk
        · exact ne_of_gt (hk.trans (hlt y hy))
      rw [hnone, totalSize_cons]
      simp [sizeDelta, entrySize]
      ring
    · split
      · next hk =>
        rw [totalSize_cons, totalSize_cons, lookup_cons_eq_ite]
        simp [sizeDelta, entrySize, hk]
        ring
      · next hk =>
        rw [totalSize_cons, totalSize_cons, ih hl, lookup_cons_eq_ite, if_neg hk]
        ring

/-! ## The table -/

/-- The in-memory write buffer; its counter is the size of its entries. -/
structure MemTable (K V : Type) [LinearOrder K] [ByteSize K] [ByteSize V] where
  map : SortedMap K (Option V)
  sizeBytes : Int
  size_eq : sizeBytes = totalSize map.entries

namespace MemTable

def new : MemTable K V := ⟨.empty, 0, rfl⟩

instance : Inhabited (MemTable K V) := ⟨new⟩

def get (m : MemTable K V) (k : K) : Option (Option V) := m.map.get k

def entries (m : MemTable K V) : List (K × Option V) := m.map.entries

def isEmpty (m : MemTable K V) : Bool := m.map.isEmpty

def byteSize (m : MemTable K V) : Int := m.sizeBytes

/-- Install a slot and adjust the counter by what it replaces. -/
def set (m : MemTable K V) (k : K) (slot : Option V) : MemTable K V where
  map := m.map.insert k slot
  sizeBytes := m.sizeBytes + sizeDelta k slot (m.map.get k)
  size_eq := by rw [m.size_eq]; exact (totalSize_insertSorted m.map.ascending k slot).symm

def put (m : MemTable K V) (k : K) (v : V) : MemTable K V := m.set k (some v)

def delete (m : MemTable K V) (k : K) : MemTable K V := m.set k none

/-- One turn of the `apply_drain` loop, over the map and the pending size change. -/
def drainEntry (acc : SortedMap K (Option V) × Int) : WalEntry K V →
    SortedMap K (Option V) × Int
  | .put k v => (acc.1.insert k (some v), acc.2 + sizeDelta k (some v) (acc.1.get k))
  | .delete k => (acc.1.insert k none, acc.2 + sizeDelta k none (acc.1.get k))
  | .batch _ => acc

theorem drain_size (m : MemTable K V) (es : List (WalEntry K V)) :
    m.sizeBytes + (es.foldl drainEntry (m.map, 0)).2
      = totalSize (es.foldl drainEntry (m.map, 0)).1.entries := by
  suffices ∀ acc : SortedMap K (Option V) × Int,
      m.sizeBytes + acc.2 = totalSize acc.1.entries →
      m.sizeBytes + (es.foldl drainEntry acc).2 = totalSize (es.foldl drainEntry acc).1.entries by
    exact this _ (by rw [add_zero, m.size_eq])
  have step : ∀ (acc : SortedMap K (Option V) × Int) (k : K) (slot : Option V),
      m.sizeBytes + acc.2 = totalSize acc.1.entries →
      m.sizeBytes + (acc.2 + sizeDelta k slot (acc.1.get k))
        = totalSize (acc.1.insert k slot).entries := by
    intro acc k slot h
    rw [← add_assoc, h]
    exact (totalSize_insertSorted acc.1.ascending k slot).symm
  induction es with
  | nil => exact fun acc h => h
  | cons e es ih =>
    intro acc h
    refine ih _ ?_
    cases e with
    | put k v => exact step acc k (some v) h
    | delete k => exact step acc k none h
    | batch sub => exact h

def applyDrain (m : MemTable K V) (es : List (WalEntry K V)) : MemTable K V where
  map := (es.foldl drainEntry (m.map, 0)).1
  sizeBytes := m.sizeBytes + (es.foldl drainEntry (m.map, 0)).2
  size_eq := m.drain_size es

mutual

def applyEntryRecursive (m : MemTable K V) : WalEntry K V → MemTable K V
  | .put k v => m.put k v
  | .delete k => m.delete k
  | .batch es => applyAllRecursive m es

def applyAllRecursive (m : MemTable K V) : List (WalEntry K V) → MemTable K V
  | [] => m
  | e :: es => applyAllRecursive (applyEntryRecursive m e) es

end

/-! ## What the operations leave in the map -/

theorem get_set_or (m : MemTable K V) (k : K) (slot : Option V) (j : K) :
    (m.set k slot).get j = (lastWrite [(k, slot)] j).or (m.get j) := by
  show (m.map.insert k slot).get j = _
  rw [SortedMap.get_insert, lastWrite_cons, lastWrite_nil, none_or]
  split <;> rfl

@[simp] theorem get_new (k : K) : (new : MemTable K V).get k = none := rfl

theorem get_applyDrain (m : MemTable K V) (es : List (WalEntry K V)) (k : K) :
    (m.applyDrain es).get k = (lastWrite (WalEntry.mutations es) k).or (m.get k) := by
  suffices ∀ acc : SortedMap K (Option V) × Int, (es.foldl drainEntry acc).1.get k
      = (lastWrite (WalEntry.mutations es) k).or (acc.1.get k) from this (m.map, 0)
  induction es with
  | nil => exact fun acc => rfl
  | cons e es ih =>
    intro acc
    rw [foldl_cons, ih]
    cases e with
    | put j v | delete j =>
      simp only [drainEntry, WalEntry.mutations, filterMap_cons, WalEntry.mutation?,
        lastWrite_cons, Option.or_assoc, SortedMap.get_insert]
      split <;> rfl
    | batch sub => rfl

mutual

theorem get_applyEntryRecursive (m : MemTable K V) (k : K) : ∀ e : WalEntry K V,
    (m.applyEntryRecursive e).get k = (lastWrite e.flatten k).or (m.get k)
  | .put j v => m.get_set_or j (some v) k
  | .delete j => m.get_set_or j none k
  | .batch es => get_applyAllRecursive m k es

theorem get_applyAllRecursive (m : MemTable K V) (k : K) : ∀ es : List (WalEntry K V),
    (m.applyAllRecursive es).get k = (lastWrite (WalEntry.flattenAll es) k).or (m.get k)
  | [] => by simp [applyAllRecursive, WalEntry.flattenAll]
  | e :: es => by
    simp only [applyAllRecursive, WalEntry.flattenAll]
    rw [get_applyAllRecursive _ k es, get_applyEntryRecursive m k e, lastWrite_append,
      Option.or_assoc]
end

theorem get_eq_none_of_isEmpty {m : MemTable K V} (h : m.isEmpty = true) (k : K) :
    m.get k = none := by
  unfold get SortedMap.get
  rw [SortedMap.isEmpty_iff.1 h]
  rfl

@[simp] theorem lookup_entries (m : MemTable K V) (k : K) : m.entries.lookup k = m.get k := rfl

/-! ## The counter over any calls -/

inductive Call (K V : Type) where
  | put (key : K) (value : V)
  | delete (key : K)
  | applyDrain (entries : List (WalEntry K V))

namespace Call

def apply (m : MemTable K V) : Call K V → MemTable K V
  | .put k v => m.put k v
  | .delete k => m.delete k
  | .applyDrain es => m.applyDrain es

def mutations : Call K V → List (Mutation K V)
  | .put k v => [(k, some v)]
  | .delete k => [(k, none)]
  | .applyDrain es => WalEntry.mutations es

theorem get_apply (m : MemTable K V) (c : Call K V) (k : K) :
    (apply m c).get k = (lastWrite c.mutations k).or (m.get k) := by
  cases c with
  | put j v => exact m.get_set_or j (some v) k
  | delete j => exact m.get_set_or j none k
  | applyDrain es => exact m.get_applyDrain es k

theorem get_foldl (cs : List (Call K V)) (k : K) (m : MemTable K V) :
    (cs.foldl apply m).get k = (lastWrite (cs.flatMap mutations) k).or (m.get k) := by
  induction cs generalizing m with
  | nil => rfl
  | cons c cs ih =>
    rw [foldl_cons, ih, get_apply, flatMap_cons, lastWrite_append, Option.or_assoc]

end Call

/-- **The counter.** It is the size of the entries; it tells an empty table from one that holds an
entry exactly when nothing was written or some key's last slot counts at least a byte with it. -/
theorem byteSize_exact (cs : List (Call K V)) :
    let m := cs.foldl Call.apply new
    let writes := cs.flatMap Call.mutations
    m.byteSize = totalSize m.entries ∧ 0 ≤ m.byteSize ∧
      ((m.byteSize = 0 ↔ m.entries = []) ↔
        (writes = [] ∨ ∃ k slot, lastWrite writes k = some slot ∧ entrySize (k, slot) ≠ 0)) := by
  intro m writes
  have hmem : ∀ e, e ∈ m.entries ↔ lastWrite writes e.1 = some e.2 := fun e => by
    have hget := Call.get_foldl cs e.1 new
    rw [get_new, or_none] at hget
    rw [← hget]
    exact m.map.mem_entries
  have hempty : m.entries = [] ↔ writes = [] := by
    rw [eq_nil_iff_forall_not_mem]
    refine ⟨fun h => ?_, fun h e he => ?_⟩
    · refine reverse_eq_nil_iff.1 (eq_nil_iff_forall_not_mem.2 fun e he => ?_)
      obtain ⟨slot, hslot⟩ := ne_none_iff_exists'.1 (lookup_ne_none.2 (mem_map_of_mem he))
      exact h (e.1, slot) ((hmem _).2 hslot)
    · rw [hmem, h] at he
      cases he
  have hzero : totalSize m.entries = 0 ↔
      ¬ ∃ k slot, lastWrite writes k = some slot ∧ entrySize (k, slot) ≠ 0 := by
    rw [totalSize_eq_zero]
    simp only [hmem, Prod.forall, not_exists, not_and, not_not]
  have hsize : m.byteSize = totalSize m.entries := m.size_eq
  refine ⟨hsize, hsize ▸ totalSize_nonneg _, ?_⟩
  rw [hsize, hempty, hzero]
  have hnone : writes = [] → ¬ ∃ k slot, lastWrite writes k = some slot ∧
      entrySize (k, slot) ≠ 0 := by
    rintro h ⟨k, slot, hslot, -⟩
    rw [h] at hslot
    cases hslot
  exact ⟨fun h => or_iff_not_imp_right.2 h.1, fun h => ⟨h.resolve_right, hnone⟩⟩

end MemTable

open MemTable in
/-- An empty key with an empty value. -/
theorem byteSize_exact_emptyEntry :
    let m := [Call.put (.string "") (.string "")].foldl Call.apply (new : MemTable DbKey DbValue)
    m.byteSize = 0 ∧ m.entries ≠ [] := by
  decide

end Dtdb.Storage
