import Dtdb.Lib.SortedMap

/-! # Loops that write as they go

A loop over rows writes to a map and stops at the first row that fails; what it has written by then
stays. -/

namespace Dtdb.Lib

variable {K V E X A : Type} [LinearOrder K]

namespace SortedMap

def write (m : SortedMap K V) (ws : List (K × V)) : SortedMap K V :=
  ws.foldl (fun m w => m.insert w.1 w.2) m

theorem write_append (m : SortedMap K V) (ws ws' : List (K × V)) :
    m.write (ws ++ ws') = (m.write ws).write ws' := List.foldl_append

theorem get_write (m : SortedMap K V) (ws : List (K × V)) (k : K) :
    (m.write ws).get k = (ws.reverse.lookup k).or (m.get k) := by
  induction ws generalizing m with
  | nil => rfl
  | cons w ws ih =>
    rw [← List.singleton_append, write_append, ih, List.reverse_append, List.lookup_append,
      Option.or_assoc]
    congr 1
    show (m.insert w.1 w.2).get k = _
    rw [get_insert, List.reverse_singleton, lookup_cons_eq_ite]
    split <;> rfl

theorem mem_or_get_of_get_write {m : SortedMap K V} {ws : List (K × V)} {k : K} {v : V}
    (h : (m.write ws).get k = some v) : (k, v) ∈ ws ∨ m.get k = some v := by
  rw [get_write] at h
  rcases Option.or_eq_some_iff.1 h with h | ⟨-, h⟩
  · exact .inl (List.mem_reverse.1 (mem_of_lookup h))
  · exact .inr h

theorem write_eq_self_iff {m : SortedMap K V} {ws : List (K × V)} :
    m.write ws = m ↔ ∀ k v, ws.reverse.lookup k = some v → m.get k = some v := by
  constructor
  · intro h k v hk
    rw [← h, get_write, hk]
    rfl
  · intro h
    ext k : 1
    rw [get_write]
    cases hk : ws.reverse.lookup k with
    | none => rfl
    | some v => exact (h k v hk).symm

end SortedMap

/-- What is written, and the fault it ends in. -/
structure Effect (K V E : Type) where
  writes : List (K × V)
  fault : Option E

namespace Effect

/-- Effects one after another, up to the first fault. -/
def seq : List (Effect K V E) → Effect K V E
  | [] => ⟨[], none⟩
  | a :: as => match a.fault with
    | some e => ⟨a.writes, some e⟩
    | none => ⟨a.writes ++ (seq as).writes, (seq as).fault⟩

end Effect

variable (K V E X A) in
/-- A turn has an effect and a next state, which contains the map. -/
structure WriteLoop where
  effect : X → A → Effect K V E
  next : X → A → X
  map : X → SortedMap K V
  map_next : ∀ x a, map (next x a) = (map x).write (effect x a).writes

namespace WriteLoop

variable (L : WriteLoop K V E X A)

def reach : X → List A → Effect K V E
  | _, [] => ⟨[], none⟩
  | x, a :: as => match (L.effect x a).fault with
    | some e => ⟨(L.effect x a).writes, some e⟩
    | none => ⟨(L.effect x a).writes ++ (reach (L.next x a) as).writes, (reach (L.next x a) as).fault⟩

def final : X → List A → X
  | x, [] => x
  | x, a :: as => match (L.effect x a).fault with
    | some _ => L.next x a
    | none => final (L.next x a) as

/-- **The map at the end holds the writes of the effect.** -/
theorem map_final (x : X) (as : List A) : L.map (L.final x as) = (L.map x).write (L.reach x as).writes := by
  induction as generalizing x with
  | nil => rfl
  | cons a as ih =>
    unfold final reach
    split
    · exact L.map_next x a
    · rw [ih, L.map_next, SortedMap.write_append]

theorem reach_eq_seq {f : A → Effect K V E} (h : ∀ x a, L.effect x a = f a) (x : X) (as : List A) :
    L.reach x as = .seq (as.map f) := by
  induction as generalizing x with
  | nil => rfl
  | cons a as ih =>
    rw [reach, List.map_cons, Effect.seq, h, ih]

theorem forall_writes {P : SortedMap K V → List (K × V) → Prop} (nil : ∀ m, P m [])
    (append : ∀ m ws ws', P m ws → P (m.write ws) ws' → P m (ws ++ ws'))
    (turn : ∀ x a, P (L.map x) (L.effect x a).writes) (x : X) (as : List A) :
    P (L.map x) (L.reach x as).writes := by
  induction as generalizing x with
  | nil => exact nil _
  | cons a as ih =>
    unfold reach
    split
    · exact turn x a
    · refine append _ _ _ (turn x a) ?_
      rw [← L.map_next]
      exact ih (L.next x a)

end WriteLoop

end Dtdb.Lib
