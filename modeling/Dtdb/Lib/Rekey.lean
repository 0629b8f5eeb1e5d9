import Mathlib.Data.List.Nodup
import Mathlib.Logic.Function.Basic

/-! # New keys for entries of a map

Entries of a map get new keys and values.  Meant is that all move at once; done one after another, a
move may put its entry where a later one still has to leave from. -/

namespace Dtdb.Lib

open List Option Function

variable {K V : Type} [DecidableEq K]

/-- The entry under `old` comes under `new`, with a value of its own. -/
structure Rekey (K V : Type) where
  old : K
  new : K
  value : V

namespace Rekey

def apply (f : K → Option V) (m : Rekey K V) : K → Option V :=
  update (update f m.old none) m.new (some m.value)

theorem apply_old (f : K → Option V) {m : Rekey K V} (h : m.old ≠ m.new) : m.apply f m.old = none := by
  unfold apply
  rw [update_of_ne h, update_self]

theorem apply_of_ne (f : K → Option V) {m : Rekey K V} {k : K} (hold : k ≠ m.old) (hnew : k ≠ m.new) :
    m.apply f k = f k := by
  unfold apply
  rw [update_of_ne hnew, update_of_ne hold]

end Rekey

/-- What is under `k` if all move at once. -/
def RekeyedTo (f : K → Option V) (ms : List (Rekey K V)) (k : K) (v : V) : Prop :=
  (k ∉ ms.map Rekey.old ∧ f k = some v) ∨ ∃ m ∈ ms, m.new = k ∧ m.value = v

/-- The entries that are there in the end have different keys. -/
structure NoClash (f : K → Option V) (ms : List (Rekey K V)) : Prop where
  nodup : (ms.map Rekey.new).Nodup
  free : ∀ m ∈ ms, f m.new ≠ none → m.new ∈ ms.map Rekey.old

/-- No entry moves to where a later one comes from. -/
def NoOvertake (ms : List (Rekey K V)) : Prop := ms.Pairwise fun a b => a.new ≠ b.old

instance (ms : List (Rekey K V)) : Decidable (NoOvertake ms) :=
  inferInstanceAs (Decidable (ms.Pairwise _))

variable {f : K → Option V} {m : Rekey K V} {ms : List (Rekey K V)}

theorem NoClash.tail (h : NoClash f (m :: ms)) : NoClash (m.apply f) ms := by
  obtain ⟨hnot, hnd⟩ := nodup_cons.1 h.nodup
  refine ⟨hnd, fun m' hm' hne => ?_⟩
  have hnew : m'.new ≠ m.new := fun heq => hnot (heq ▸ mem_map_of_mem hm')
  by_cases hold : m'.new = m.old
  · rw [hold, Rekey.apply_old f (hold ▸ hnew)] at hne
    exact absurd rfl hne
  · rw [Rekey.apply_of_ne f hold hnew] at hne
    exact (mem_cons.1 (h.free m' (.tail _ hm') hne)).resolve_left hold

/-- **Moves in this order move all at once.** -/
theorem foldl_apply_iff (hclash : NoClash f ms) (hover : NoOvertake ms) (k : K) (v : V) :
    ms.foldl Rekey.apply f k = some v ↔ RekeyedTo f ms k v := by
  induction ms generalizing f with
  | nil => simp [RekeyedTo]
  | cons m ms ih =>
    obtain ⟨hlater, hover⟩ := pairwise_cons.1 hover
    obtain ⟨hnot, -⟩ := nodup_cons.1 hclash.nodup
    rw [foldl_cons, ih hclash.tail hover]
    unfold RekeyedTo
    rw [exists_mem_cons_iff, map_cons, mem_cons, not_or]
    by_cases hnew : k = m.new
    · subst hnew
      have hleave : m.new ∉ ms.map Rekey.old := fun hmem => by
        obtain ⟨b, hb, heq⟩ := mem_map.1 hmem
        exact hlater b hb heq.symm
      have honly : ¬∃ m' ∈ ms, m'.new = m.new ∧ m'.value = v := by
        rintro ⟨m', hm', heq, -⟩
        exact hnot (mem_map.2 ⟨m', hm', heq⟩)
      rw [Rekey.apply, update_self, some.injEq]
      constructor
      · rintro (⟨-, hv⟩ | h)
        · exact .inr (.inl ⟨rfl, hv⟩)
        · exact absurd h honly
      · rintro (⟨⟨hne, -⟩, hv⟩ | ⟨-, hv⟩ | h)
        · -- an entry that stays there would clash
          have hsome : f m.new ≠ none := by
            rw [hv]
            nofun
          rcases mem_cons.1 (hclash.free m mem_cons_self hsome) with heq | hmem
          · exact absurd heq hne
          · exact absurd hmem hleave
        · exact .inl ⟨hleave, hv⟩
        · exact absurd h honly
    · have hfirst : ¬(m.new = k ∧ m.value = v) := fun h => hnew h.1.symm
      by_cases hold : k = m.old
      · subst hold
        rw [Rekey.apply_old f hnew]
        simp [hfirst]
      · rw [Rekey.apply_of_ne f hold hnew]
        simp [hfirst, hold]

theorem foldl_apply_of_ne {k : K} (h : ∀ m ∈ ms, k ≠ m.old ∧ k ≠ m.new) :
    ms.foldl Rekey.apply f k = f k := by
  induction ms generalizing f with
  | nil => rfl
  | cons m ms ih =>
    obtain ⟨hold, hnew⟩ := h m mem_cons_self
    rw [foldl_cons, ih fun m' hm' => h m' (.tail _ hm'), Rekey.apply_of_ne f hold hnew]

theorem foldl_apply_overtaken {a b : Rekey K V} {l r : List (Rekey K V)}
    (hnews : ((l ++ b :: r).map Rekey.new).Nodup) (holds : ((l ++ b :: r).map Rekey.old).Nodup)
    (ha : a ∈ l) (hab : a.new = b.old) : (l ++ b :: r).foldl Rekey.apply f a.new = none := by
  rw [map_append, nodup_append] at hnews holds
  have hmem : a.new ∈ l.map Rekey.new := mem_map_of_mem ha
  have hput : ∀ m ∈ b :: r, a.new ≠ m.new := fun m hm =>
    hnews.2.2 _ hmem _ (mem_map_of_mem hm)
  have hleave : ∀ m ∈ r, b.old ≠ m.old := fun m hm heq =>
    (nodup_cons.1 holds.2.1).1 (heq ▸ mem_map_of_mem hm)
  rw [foldl_append, foldl_cons, foldl_apply_of_ne, hab, Rekey.apply_old]
  · exact hab ▸ hput b mem_cons_self
  · exact fun m hm => ⟨hab ▸ hleave m hm, hput m (.tail _ hm)⟩

/-- **Moves one after another do what is meant exactly if none overtakes another.** -/
theorem foldl_apply_meant_iff (hclash : NoClash f ms) (holds : (ms.map Rekey.old).Nodup) :
    (∀ k v, ms.foldl Rekey.apply f k = some v ↔ RekeyedTo f ms k v) ↔ NoOvertake ms := by
  constructor
  · intro hmeant
    refine pairwise_iff_forall_sublist.2 fun {a b} hsub hab => ?_
    obtain ⟨l, r, rfl, hal⟩ : ∃ l r, ms = l ++ b :: r ∧ a ∈ l := by
      obtain ⟨l, r, hms, hl, hr⟩ := cons_sublist_iff.1 hsub
      obtain ⟨r₁, r₂, rfl⟩ := append_of_mem (singleton_sublist.1 hr)
      exact ⟨l ++ r₁, r₂, by rw [hms, append_assoc], mem_append_left _ hl⟩
    have hgone := foldl_apply_overtaken (f := f) hclash.nodup holds hal hab
    have hthere := (hmeant a.new a.value).2
      (.inr ⟨a, mem_append_left _ hal, rfl, rfl⟩)
    rw [hgone] at hthere
    cases hthere
  · exact fun hover k v => foldl_apply_iff hclash hover k v

end Dtdb.Lib
