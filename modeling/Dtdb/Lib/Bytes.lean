import Mathlib.Data.List.Basic
import Mathlib.Tactic.Ring

/-! # Bytes

Little-endian numbers of a fixed width, and a reader that takes an exact count of bytes or fails.
-/

namespace Dtdb.Lib

abbrev Bytes := List UInt8

/-! ## Little-endian numbers -/

/-- The low `k` bytes of a number, least significant first. -/
def leBytes : Nat → Nat → Bytes
  | 0, _ => []
  | k + 1, v => UInt8.ofNat v :: leBytes k (v / 256)

def ofLeBytes : Bytes → Nat
  | [] => 0
  | b :: bs => b.toNat + 256 * ofLeBytes bs

@[simp] theorem length_leBytes (k v : Nat) : (leBytes k v).length = k := by
  induction k generalizing v with
  | zero => rfl
  | succ k ih => simp [leBytes, ih]

theorem ofLeBytes_leBytes (k v : Nat) : ofLeBytes (leBytes k v) = v % 256 ^ k := by
  induction k generalizing v with
  | zero => simp [leBytes, ofLeBytes, Nat.mod_one]
  | succ k ih =>
    simp only [leBytes, ofLeBytes, ih]
    rw [Nat.pow_succ, Nat.mul_comm _ 256, Nat.mod_mul]
    simp

theorem ofLeBytes_leBytes_of_lt {k v : Nat} (h : v < 256 ^ k) : ofLeBytes (leBytes k v) = v := by
  rw [ofLeBytes_leBytes, Nat.mod_eq_of_lt h]

/-! ## Reading -/

def readExact (n : Nat) (bs : Bytes) : Option (Bytes × Bytes) :=
  if n ≤ bs.length then some (bs.take n, bs.drop n) else none

theorem readExact_append {n : Nat} {xs : Bytes} (h : xs.length = n) (ys : Bytes) :
    readExact n (xs ++ ys) = some (xs, ys) := by
  subst h
  unfold readExact
  rw [if_pos (by simp), List.take_left, List.drop_left]

theorem readExact_eq_some {n : Nat} {bs xs ys : Bytes} :
    readExact n bs = some (xs, ys) ↔ bs = xs ++ ys ∧ xs.length = n := by
  constructor
  · intro h
    obtain ⟨hle, h⟩ := Option.ite_none_right_eq_some.1 h
    cases h
    exact ⟨(List.take_append_drop n bs).symm, List.length_take_of_le hle⟩
  · rintro ⟨rfl, hlen⟩
    exact readExact_append hlen ys

theorem length_of_readExact {n : Nat} {bs xs ys : Bytes} (h : readExact n bs = some (xs, ys)) :
    bs.length = n + ys.length := by
  obtain ⟨rfl, hlen⟩ := readExact_eq_some.1 h
  rw [List.length_append, hlen]

end Dtdb.Lib
