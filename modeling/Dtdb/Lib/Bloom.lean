import Mathlib.Data.List.Basic

/-! # Bloom filters

A bit vector probed at `h₁ + i · h₂` for a fixed number of rounds, the double hashing of one
128-bit digest.  Inserting only sets bits, so a key that was inserted is never reported absent.
-/

namespace Dtdb.Lib

open List Option

structure Bloom where
  bits : List Bool
  rounds : Nat

namespace Bloom

/-- A digest's two halves. -/
abbrev Digest := UInt64 × UInt64

/-- The bit that round `i` looks at. -/
def bitOf (size : Nat) (h : Digest) (i : Nat) : Nat :=
  (h.1 + UInt64.ofNat i * h.2).toNat % size

def insert (b : Bloom) (h : Digest) : Bloom :=
  if b.bits.isEmpty then b
  else { b with
    bits := (range b.rounds).foldl (fun bits i => bits.set (bitOf b.bits.length h i) true)
      b.bits }

def contains (b : Bloom) (h : Digest) : Bool :=
  if b.bits.isEmpty then false
  else (range b.rounds).all fun i => b.bits[bitOf b.bits.length h i]?.getD false

theorem foldl_set (f : Nat → Nat) (is : List Nat) (bits : List Bool) :
    (is.foldl (fun bits i => bits.set (f i) true) bits).length = bits.length ∧
      ∀ j, j < bits.length → (bits[j]? = some true ∨ j ∈ is.map f) →
        (is.foldl (fun bits i => bits.set (f i) true) bits)[j]? = some true := by
  induction is generalizing bits with
  | nil => simp
  | cons i is ih =>
    obtain ⟨hlen, hset⟩ := ih (bits.set (f i) true)
    refine ⟨hlen.trans length_set, fun j hj hor => ?_⟩
    refine hset j (by simpa using hj) ?_
    by_cases hji : j = f i
    · exact .inl (by rw [hji, getElem?_set_self (hji ▸ hj)])
    · rw [getElem?_set_ne (Ne.symm hji)]
      simpa [hji] using hor

theorem length_insert (b : Bloom) (h : Digest) : (b.insert h).bits.length = b.bits.length := by
  unfold insert
  split
  · rfl
  · exact (foldl_set ..).1

theorem rounds_insert (b : Bloom) (h : Digest) : (b.insert h).rounds = b.rounds := by
  unfold insert
  split <;> rfl

theorem contains_iff {b : Bloom} {h : Digest} : b.contains h = true ↔
    0 < b.bits.length ∧ ∀ i < b.rounds, b.bits[bitOf b.bits.length h i]? = some true := by
  unfold contains
  split
  · next he => simp [isEmpty_iff.1 he]
  · next he =>
    have hpos : 0 < b.bits.length := by
      cases hb : b.bits with
      | nil => simp [hb] at he
      | cons x l => simp
    simp only [List.all_eq_true, List.mem_range, hpos, true_and]
    refine forall₂_congr fun i _ => ?_
    cases b.bits[bitOf b.bits.length h i]? <;> simp

theorem contains_insert_self {b : Bloom} (hb : 0 < b.bits.length) (h : Digest) :
    (b.insert h).contains h = true := by
  rw [contains_iff, length_insert, rounds_insert]
  refine ⟨hb, fun i hi => ?_⟩
  unfold insert
  rw [if_neg (by simpa using length_pos_iff.1 hb)]
  refine (foldl_set (bitOf b.bits.length h) _ _).2 _ (Nat.mod_lt _ hb) (.inr ?_)
  exact mem_map_of_mem (mem_range.2 hi)

theorem contains_insert {b : Bloom} {h : Digest} (hc : b.contains h = true) (h' : Digest) :
    (b.insert h').contains h = true := by
  obtain ⟨hb, hall⟩ := contains_iff.1 hc
  rw [contains_iff, length_insert, rounds_insert]
  refine ⟨hb, fun i hi => ?_⟩
  unfold insert
  rw [if_neg (by simpa using length_pos_iff.1 hb)]
  exact (foldl_set (bitOf b.bits.length h') _ _).2 _ (Nat.mod_lt _ hb) (.inl (hall i hi))

/-- **No false negatives.** -/
theorem contains_foldl_insert {b : Bloom} (hb : 0 < b.bits.length) {hs : List Digest} {h : Digest}
    (hm : h ∈ hs) : (hs.foldl insert b).contains h = true := by
  have keep : ∀ (hs : List Digest) (b : Bloom), b.contains h = true →
      (hs.foldl insert b).contains h = true := by
    intro hs
    induction hs with
    | nil => exact fun b hc => hc
    | cons x hs ih => exact fun b hc => ih _ (contains_insert hc x)
  induction hs generalizing b with
  | nil => cases hm
  | cons x hs ih =>
    rcases mem_cons.1 hm with rfl | hm
    · exact keep hs _ (contains_insert_self hb h)
    · exact ih (by rw [length_insert]; exact hb) hm

end Bloom

end Dtdb.Lib
