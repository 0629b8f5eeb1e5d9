import Mathlib.Algebra.Group.Nat.Defs
import Mathlib.Data.List.Basic

/-! # A cache that forgets what was used least recently

Entries in the order of their last use, with a budget for their sizes.  What the cache may forget is
its own affair; what it holds under a key is what was last inserted there.
-/

namespace Dtdb.Lib

variable {K V : Type*}

structure Lru.Entry (K V : Type*) where
  key : K
  value : V
  size : Nat

/-- The entries, most recently used first. -/
structure Lru (K V : Type*) where
  entries : List (Lru.Entry K V)
  capacityBytes : Nat
  currentBytes : Nat

namespace Lru

def maxBytes : Nat := 2 ^ 64 - 1

def saturatingAdd (a b : Nat) : Nat := min (a + b) maxBytes

def new (capacity : Nat) : Lru K V := ⟨[], capacity, 0⟩

/-- Forget the entry used least recently until the rest fit. -/
def evictIfNeeded : Nat → Lru K V → Lru K V
  | 0, c => c
  | n + 1, c =>
    if c.capacityBytes < c.currentBytes then
      match c.entries.getLast? with
      | none => c
      | some e =>
        evictIfNeeded n
          { c with entries := c.entries.dropLast, currentBytes := c.currentBytes - e.size }
    else c

variable [DecidableEq K]

def find (c : Lru K V) (k : K) : Option (Entry K V) := c.entries.find? fun e => e.key = k

def others (c : Lru K V) (k : K) : List (Entry K V) := c.entries.filter fun e => e.key ≠ k

def get (c : Lru K V) (k : K) : Option V × Lru K V :=
  match c.find k with
  | none => (none, c)
  | some e => (some e.value, { c with entries := e :: c.others k })

def insert (c : Lru K V) (k : K) (v : V) (size : Nat) : Lru K V :=
  if c.capacityBytes < size then
    match c.find k with
    | none => c
    | some old => { c with entries := c.others k, currentBytes := c.currentBytes - old.size }
  else
    let kept := match c.find k with
      | none => c.currentBytes
      | some old => c.currentBytes - old.size
    evictIfNeeded (c.entries.length + 1)
      { c with
        entries := ⟨k, v, size⟩ :: c.others k
        currentBytes := saturatingAdd kept size }

/-! ## What is held -/

omit [DecidableEq K] in
theorem mem_evictIfNeeded {n : Nat} {c : Lru K V} {e : Entry K V}
    (h : e ∈ (evictIfNeeded n c).entries) : e ∈ c.entries := by
  induction n generalizing c with
  | zero => exact h
  | succ n ih =>
    simp only [evictIfNeeded] at h
    split at h
    · split at h
      · exact h
      · exact List.dropLast_subset _ (ih h)
    · exact h

theorem mem_others {c : Lru K V} {k : K} {e : Entry K V} :
    e ∈ c.others k ↔ e ∈ c.entries ∧ e.key ≠ k := by
  simp [others]

theorem get_spec (c : Lru K V) (k : K) :
    (∀ v, (c.get k).1 = some v → ∃ e ∈ c.entries, e.key = k ∧ e.value = v) ∧
      ∀ e ∈ (c.get k).2.entries, e ∈ c.entries := by
  unfold get
  cases h : c.find k with
  | none => exact ⟨nofun, fun e he => he⟩
  | some e =>
    have hmem := List.mem_of_find?_eq_some h
    have hkey : e.key = k := by simpa using List.find?_some h
    refine ⟨?_, fun e' he' => ?_⟩
    · rintro _ ⟨rfl⟩
      exact ⟨e, hmem, hkey, rfl⟩
    · rcases List.mem_cons.1 he' with rfl | he'
      · exact hmem
      · exact (mem_others.1 he').1

theorem mem_insert {c : Lru K V} {k : K} {v : V} {size : Nat} {e : Entry K V}
    (h : e ∈ (c.insert k v size).entries) :
    (e.key = k ∧ e.value = v) ∨ (e.key ≠ k ∧ e ∈ c.entries) := by
  unfold insert at h
  split at h
  · split at h
    · next hnone =>
      have hne : e.key ≠ k := by
        intro hkey
        have := List.find?_eq_none.1 hnone e h
        simp [hkey] at this
      exact .inr ⟨hne, h⟩
    · exact .inr (mem_others.1 h).symm
  · rcases List.mem_cons.1 (mem_evictIfNeeded h) with rfl | h
    · exact .inl ⟨rfl, rfl⟩
    · exact .inr (mem_others.1 h).symm

end Lru

end Dtdb.Lib
