import Dtdb.Lib.Blocks
import Dtdb.Lib.Heap
import Dtdb.Lib.Merge
import Dtdb.Storage.Key

/-! # The merge iterator

One block iterator per SSTable and a heap with the entry each one stands on.  Turn by turn it pops
what the priority merge of the runs ahead pops. -/

namespace Dtdb.Storage

open Dtdb.Lib List Option

variable {K V : Type}

/-- A position in an SSTable's blocks; a lower priority is a newer file. -/
structure SstableBlockIterator (K V : Type) where
  cursor : Cursor K (Option V)
  priority : Nat

structure HeapEntry (K V : Type) where
  key : K
  value : Option V
  sourceIdx : Nat
  priority : Nat
deriving DecidableEq

variable [LinearOrder K]

/-- `HeapEntry::cmp`: a smaller key, then a smaller priority, is greater. -/
def HeapEntry.cmp (a b : HeapEntry K V) : Ordering :=
  match compare b.key a.key with
  | .eq => compare b.priority a.priority
  | ord => ord

namespace SstableBlockIterator

def newWithEnd (blocks : List (Block K (Option V))) (start stop : Option K) (priority : Nat) :
    SstableBlockIterator K V :=
  ⟨.newWithEnd blocks start stop, priority⟩

def advance (s : SstableBlockIterator K V) : SstableBlockIterator K V :=
  { s with cursor := s.cursor.advance }

/-- What the `i`-th source puts on the heap. -/
def entry (i : Nat) (s : SstableBlockIterator K V) : Option (HeapEntry K V) :=
  s.cursor.peek.map fun x => ⟨x.1, x.2, i, s.priority⟩

def entries : Nat → List (SstableBlockIterator K V) → List (HeapEntry K V)
  | _, [] => []
  | i, s :: l => (s.entry i).toList ++ entries (i + 1) l

end SstableBlockIterator

structure MergeIterator (K V : Type) [LinearOrder K] (H : Heap (HeapEntry.cmp (K := K) (V := V))) where
  sources : List (SstableBlockIterator K V)
  heap : H.State
  lastKey : Option K

namespace MergeIterator

variable {H : Heap (HeapEntry.cmp (K := K) (V := V))}

variable (H) in
def new (sources : List (SstableBlockIterator K V)) : MergeIterator K V H :=
  ⟨sources, (SstableBlockIterator.entries 0 sources).foldl H.push H.empty, none⟩

/-- One turn of the loop of `next`: an entry is popped and its source moves on. -/
def turn (it : MergeIterator K V H) : Option (HeapEntry K V × MergeIterator K V H) :=
  match H.pop it.heap with
  | none => none
  | some (entry, heap) =>
    let sources := it.sources.modify entry.sourceIdx SstableBlockIterator.advance
    let heap := match sources[entry.sourceIdx]?.bind (SstableBlockIterator.entry entry.sourceIdx) with
      | some e => H.push heap e
      | none => heap
    some (entry, ⟨sources, heap, it.lastKey⟩)

/-- `next`, in as many turns. -/
def next : Nat → MergeIterator K V H → Option ((K × Option V × Nat) × MergeIterator K V H)
  | 0, _ => none
  | n + 1, it =>
    match it.turn with
    | none => none
    | some (entry, it') =>
      if it.lastKey = some entry.key then next n it'
      else some ((entry.key, entry.value, entry.sourceIdx), { it' with lastKey := some entry.key })

/-- `fuel` bounds the turns of each call and the calls. -/
def drain (fuel : Nat) : Nat → MergeIterator K V H → List (K × Option V × Nat)
  | 0, _ => []
  | n + 1, it =>
    match it.next fuel with
    | none => []
    | some (x, it') => x :: drain fuel n it'

end MergeIterator

/-! ## The sources as runs -/

namespace SstableBlockIterator

/-- The runs the sources still have ahead. -/
def mirror : Nat → List (SstableBlockIterator K V) → List (Source K (Option V) Nat)
  | _, [] => []
  | i, s :: l => ⟨s.priority, i, s.cursor.rest⟩ :: mirror (i + 1) l

omit [LinearOrder K] in
theorem entries_append (i : Nat) (a b : List (SstableBlockIterator K V)) :
    entries i (a ++ b) = entries i a ++ entries (i + a.length) b := by
  induction a generalizing i with
  | nil => rfl
  | cons s a ih =>
    rw [cons_append, entries, entries, ih, length_cons, append_assoc,
      Nat.add_right_comm, Nat.add_assoc i]

theorem mirror_append (i : Nat) (a b : List (SstableBlockIterator K V)) :
    mirror i (a ++ b) = mirror i a ++ mirror (i + a.length) b := by
  induction a generalizing i with
  | nil => rfl
  | cons s a ih =>
    rw [cons_append, mirror, mirror, ih, length_cons, cons_append,
      Nat.add_right_comm, Nat.add_assoc i]

theorem map_prio_mirror (i : Nat) (l : List (SstableBlockIterator K V)) :
    (mirror i l).map Source.prio = l.map priority := by
  induction l generalizing i with
  | nil => rfl
  | cons s l ih => rw [mirror, map_cons, map_cons, ih]

theorem split_mirror {i : Nat} {l : List (SstableBlockIterator K V)}
    {pre post : List (Source K (Option V) Nat)} {t : Source K (Option V) Nat}
    (h : mirror i l = pre ++ t :: post) : ∃ a s b, l = a ++ s :: b ∧ pre = mirror i a ∧
      t = ⟨s.priority, i + a.length, s.cursor.rest⟩ ∧ post = mirror (i + a.length + 1) b := by
  induction l generalizing i pre with
  | nil =>
    have := congrArg length h
    simp [mirror] at this
  | cons s l ih =>
    cases pre with
    | nil =>
      cases h
      exact ⟨[], s, l, rfl, rfl, rfl, rfl⟩
    | cons u pre =>
      injection h with hu hl
      subst hu
      obtain ⟨a, r, b, rfl, rfl, rfl, rfl⟩ := ih hl
      refine ⟨s :: a, r, b, rfl, rfl, ?_, ?_⟩
      · rw [length_cons, Nat.add_assoc, Nat.add_comm 1]
      · rw [length_cons, Nat.add_assoc i, Nat.add_comm 1]

omit [LinearOrder K] in
theorem split_entries {i : Nat} {l : List (SstableBlockIterator K V)} {e : HeapEntry K V}
    (h : e ∈ entries i l) : ∃ a s b, l = a ++ s :: b ∧ e.sourceIdx = i + a.length ∧
      e.priority = s.priority ∧ s.cursor.peek = some (e.key, e.value) := by
  induction l generalizing i with
  | nil => cases h
  | cons s l ih =>
    rw [entries, mem_append] at h
    rcases h with h | h
    · rw [mem_toList] at h
      obtain ⟨x, hx, rfl⟩ := map_eq_some_iff.1 h
      exact ⟨[], s, l, rfl, rfl, rfl, hx⟩
    · obtain ⟨a, r, b, rfl, hidx, hrest⟩ := ih h
      refine ⟨s :: a, r, b, rfl, ?_, hrest⟩
      rw [hidx, length_cons, Nat.add_assoc, Nat.add_comm 1]

omit [LinearOrder K] in
theorem mem_entries {i : Nat} {a b : List (SstableBlockIterator K V)} {s : SstableBlockIterator K V}
    {x : K × Option V} (h : s.cursor.peek = some x) :
    ⟨x.1, x.2, i + a.length, s.priority⟩ ∈ entries i (a ++ s :: b) := by
  rw [entries_append, entries, entry, h]
  simp

end SstableBlockIterator

/-! ## One turn -/

theorem split_unique {A B : Type} {f : A → B} {a a' b b' : List A} {x x' : A}
    (h : a ++ x :: b = a' ++ x' :: b') (hd : ((a ++ x :: b).map f).Nodup) (hx : f x = f x') :
    a = a' ∧ x = x' ∧ b = b' := by
  induction a generalizing a' with
  | nil =>
    cases a' with
    | nil => cases h; exact ⟨rfl, rfl, rfl⟩
    | cons y a' =>
      cases h
      simp [hx] at hd
  | cons y a ih =>
    cases a' with
    | nil =>
      cases h
      simp [← hx] at hd
    | cons y' a' =>
      injection h with hy hrest
      rw [cons_append, map_cons, nodup_cons] at hd
      obtain ⟨rfl, hrest'⟩ := ih hrest hd.2
      exact ⟨by rw [hy], hrest'⟩

theorem HeapEntry.cmp_isLE {a b : HeapEntry K V} :
    (a.cmp b).isLE ↔ b.key < a.key ∨ b.key = a.key ∧ b.priority ≤ a.priority := by
  unfold HeapEntry.cmp
  rcases lt_trichotomy b.key a.key with hlt | heq | hgt
  · rw [compare_lt_iff_lt.2 hlt]
    simp [hlt]
  · simp [heq, Nat.isLE_compare]
  · rw [compare_gt_iff_gt.2 hgt]
    simp [hgt.ne', hgt.le]

instance : Std.TransCmp (HeapEntry.cmp (K := K) (V := V)) where
  eq_swap {a b} := by
    unfold HeapEntry.cmp
    rw [Std.OrientedOrd.eq_swap,
      Std.OrientedOrd.eq_swap (a := b.priority)]
    cases compare a.key b.key <;> rfl
  isLE_trans {a b c} hab hbc := by
    rw [HeapEntry.cmp_isLE] at *
    rcases hab with hab | ⟨hab, hab'⟩ <;> rcases hbc with hbc | ⟨hbc, hbc'⟩
    · exact .inl (hbc.trans hab)
    · exact .inl (hbc ▸ hab)
    · exact .inl (hab ▸ hbc)
    · exact .inr ⟨hbc.trans hab, hbc'.trans hab'⟩

namespace MergeIterator

variable {H : Heap (HeapEntry.cmp (K := K) (V := V))} {it it' : MergeIterator K V H}
variable {a b : List (SstableBlockIterator K V)} {s : SstableBlockIterator K V}

open SstableBlockIterator (mirror entries)

/-- Every source stands on an entry or is done, and the heap holds those entries. -/
structure Ok (it : MergeIterator K V H) : Prop where
  settled : ∀ s ∈ it.sources, s.cursor.Settled
  heap : (H.items it.heap).Perm (entries 0 it.sources)
  distinct : (it.sources.map SstableBlockIterator.priority).Nodup

theorem items_foldl_push (es : List (HeapEntry K V)) (h : H.State) :
    (H.items (es.foldl H.push h)).Perm (es ++ H.items h) := by
  induction es generalizing h with
  | nil => exact .rfl
  | cons e es ih =>
    refine (ih _).trans (((H.perm_push h e).append_left es).trans ?_)
    exact perm_middle

theorem Ok.mem_entries (h : it.Ok) (hs : it.sources = a ++ s :: b) {k : K} {v : Option V}
    {rest : List (K × Option V)} (hrest : s.cursor.rest = (k, v) :: rest) :
    ⟨k, v, a.length, s.priority⟩ ∈ entries 0 it.sources := by
  have hpeek : s.cursor.peek = some (k, v) := by
    rw [Cursor.peek_eq (h.settled s (by rw [hs]; simp)), hrest]
    rfl
  have hmem := SstableBlockIterator.mem_entries (i := 0) (a := a) (b := b) hpeek
  rwa [Nat.zero_add, ← hs] at hmem

theorem popMin_of_turn_none (h : it.Ok) (ht : it.turn = none) :
    popMin (mirror 0 it.sources) = none := by
  have hpop : H.pop it.heap = none := by
    unfold turn at ht
    split at ht
    · assumption
    · cases ht
  have hempty : entries 0 it.sources = [] := by
    have hperm := h.heap
    rw [H.pop_none _ hpop] at hperm
    exact hperm.symm.eq_nil
  cases hmin : popMin (mirror 0 it.sources) with
  | none => rfl
  | some x =>
    obtain ⟨pre, t, rest, post, p⟩ := popMin_some hmin
    obtain ⟨a, s, b, hsources, -, rfl, -⟩ := SstableBlockIterator.split_mirror p.eq
    have hmem := h.mem_entries hsources p.head
    rw [hempty] at hmem
    cases hmem

theorem Ok.popMin_eq (h : it.Ok) (hs : it.sources = a ++ s :: b) {k : K} {v : Option V}
    {rest : List (K × Option V)} (hrest : s.cursor.rest = (k, v) :: rest)
    (hgreatest : ∀ e ∈ entries 0 it.sources, (e.cmp ⟨k, v, a.length, s.priority⟩).isLE) :
    popMin (mirror 0 it.sources) = some ((k, v, s.priority, a.length),
      mirror 0 a ++ ⟨s.priority, a.length, rest⟩ :: mirror (a.length + 1) b) := by
  have hmem : ⟨s.priority, a.length, s.cursor.rest⟩ ∈ mirror 0 it.sources := by
    rw [hs, SstableBlockIterator.mirror_append, mirror]
    simp
  cases hmin : popMin (mirror 0 it.sources) with
  | none =>
    have hnil := popMin_none hmin _ hmem
    rw [hrest] at hnil
    cases hnil
  | some x =>
    obtain ⟨⟨k', v', q, i⟩, l'⟩ := x
    obtain ⟨pre, t, rest', post, ⟨heq, rfl, hhead, rfl, rfl, hleast⟩⟩ := popMin_some hmin
    obtain ⟨a', s', b', hs', rfl, rfl, rfl⟩ := SstableBlockIterator.split_mirror heq
    -- each of the two is at least as early as the other
    have hle := hleast _ hmem (k, v) (by rw [hrest]; rfl)
    have hge := HeapEntry.cmp_isLE.1 (hgreatest _ (h.mem_entries hs' hhead))
    have hprio : s.priority = s'.priority := by
      rcases hle with hlt | ⟨hkey, hle⟩
      · rcases hge with hgt | ⟨hkey, -⟩
        · exact absurd hgt hlt.asymm
        · exact absurd hkey hlt.ne'
      · rcases hge with hgt | ⟨-, hge⟩
        · exact absurd hkey hgt.ne'
        · exact le_antisymm hge hle
    obtain ⟨rfl, rfl, rfl⟩ := split_unique (hs.symm.trans hs') (hs ▸ h.distinct) hprio
    simp only [hrest] at hhead
    obtain ⟨⟨rfl, rfl⟩, rfl⟩ := hhead
    simp only [Nat.zero_add]

theorem Ok.perm_pop (h : it.Ok) (hs : it.sources = a ++ s :: b) {e : HeapEntry K V}
    (he : s.entry a.length = some e) {heap : H.State} (hpop : H.pop it.heap = some (e, heap)) :
    (H.items heap).Perm (entries 0 a ++ entries (a.length + 1) b) := by
  have hperm := (H.perm_pop _ _ _ hpop).symm.trans h.heap
  rw [hs, SstableBlockIterator.entries_append, entries, Nat.zero_add, he] at hperm
  exact (hperm.trans perm_middle).cons_inv

/-- **A turn** pops what the merge of the runs pops. -/
theorem popMin_of_turn (h : it.Ok) {e : HeapEntry K V} (ht : it.turn = some (e, it')) :
    popMin (mirror 0 it.sources)
      = some ((e.key, e.value, e.priority, e.sourceIdx), mirror 0 it'.sources) ∧
      it'.Ok ∧ it'.lastKey = it.lastKey := by
  unfold turn at ht
  split at ht
  · cases ht
  next entry heap hpop =>
  cases ht
  have hperm := H.perm_pop _ _ _ hpop
  have hgreatest : ∀ e' ∈ entries 0 it.sources, (e'.cmp e).isLE := fun e' he' =>
    H.pop_greatest _ _ _ hpop e' (h.heap.symm.subset he')
  have hmem : e ∈ entries 0 it.sources := h.heap.subset (hperm.symm.subset mem_cons_self)
  obtain ⟨a, s, b, hs, hidx, hprio, hpeek⟩ := SstableBlockIterator.split_entries hmem
  rw [Nat.zero_add] at hidx
  obtain ⟨k, v, i, q⟩ := e
  obtain rfl : i = a.length := hidx
  obtain rfl : q = s.priority := hprio
  have hset : s.cursor.Settled := h.settled s (by rw [hs]; simp)
  obtain ⟨rest, hrest⟩ : ∃ rest, s.cursor.rest = (k, v) :: rest := by
    rw [Cursor.peek_eq hset] at hpeek
    exact head?_eq_some_iff.1 hpeek
  obtain ⟨hadv, hset'⟩ := Cursor.rest_of_advance hset hrest
  have hmodify : it.sources.modify a.length SstableBlockIterator.advance = a ++ s.advance :: b := by
    rw [hs, modify_eq_take_drop]
    simp
  rw [hmodify]
  refine ⟨?_, ⟨?_, ?_, ?_⟩, rfl⟩
  · rw [h.popMin_eq hs hrest hgreatest, SstableBlockIterator.mirror_append, mirror, Nat.zero_add]
    rw [SstableBlockIterator.advance, hadv]
  · have hall := h.settled
    rw [hs] at hall
    simp only [mem_append, mem_cons] at hall ⊢
    rintro r (hr | rfl | hr)
    · exact hall r (.inl hr)
    · exact hset'
    · exact hall r (.inr (.inr hr))
  · have hothers := h.perm_pop hs (by rw [SstableBlockIterator.entry, hpeek]; rfl) hpop
    have hget : (a ++ s.advance :: b)[a.length]? = some s.advance := by simp
    rw [hget, bind_some, SstableBlockIterator.entries_append, entries, Nat.zero_add]
    cases s.advance.entry a.length with
    | none => exact hothers
    | some e =>
      exact (H.perm_push _ _).trans ((hothers.cons e).trans perm_middle.symm)
  · have hd := h.distinct
    rw [hs] at hd
    simpa [SstableBlockIterator.advance] using hd

/-! ## Whole drains -/

theorem next_none {n : Nat} (h : it.Ok) (hn : remaining (mirror 0 it.sources) ≤ n)
    (hnext : it.next n = none) : upcoming it.lastKey (mirror 0 it.sources) = [] := by
  induction n generalizing it with
  | zero =>
    rw [upcoming, Nat.le_zero.1 hn]
    rfl
  | succ n ih =>
    rw [next] at hnext
    split at hnext
    · next ht => exact upcoming_none (popMin_of_turn_none h ht)
    · next e it' ht =>
      obtain ⟨hpop, hok, hlast⟩ := popMin_of_turn h ht
      obtain ⟨_, _, _, _, p⟩ := popMin_some hpop
      have hrem := p.remaining_eq
      split at hnext
      · next hdup =>
        rw [upcoming_some hpop, if_pos hdup, ← hlast]
        exact ih hok (by omega) hnext
      · cases hnext

theorem next_some {n : Nat} {x : K × Option V × Nat} (h : it.Ok) (hnext : it.next n = some (x, it')) :
    upcoming it.lastKey (mirror 0 it.sources) = x :: upcoming it'.lastKey (mirror 0 it'.sources) ∧
      it'.Ok ∧ remaining (mirror 0 it'.sources) < remaining (mirror 0 it.sources) := by
  induction n generalizing it with
  | zero => cases hnext
  | succ n ih =>
    rw [next] at hnext
    split at hnext
    · cases hnext
    · next e it₁ ht =>
      obtain ⟨hpop, hok, hlast⟩ := popMin_of_turn h ht
      obtain ⟨_, _, _, _, p⟩ := popMin_some hpop
      have hrem := p.remaining_eq
      split at hnext
      · next hdup =>
        obtain ⟨hup, hok', hlt⟩ := ih hok hnext
        refine ⟨?_, hok', by omega⟩
        rw [upcoming_some hpop, if_pos hdup, ← hlast]
        exact hup
      · next hnew =>
        cases hnext
        refine ⟨?_, ⟨hok.settled, hok.heap, hok.distinct⟩, ?_⟩
        · rw [upcoming_some hpop, if_neg hnew]
        · exact Nat.lt_of_succ_le hrem.ge

theorem drain_eq {fuel n : Nat} (h : it.Ok) (hfuel : remaining (mirror 0 it.sources) ≤ fuel)
    (hn : remaining (mirror 0 it.sources) ≤ n) :
    it.drain fuel n = upcoming it.lastKey (mirror 0 it.sources) := by
  induction n generalizing it with
  | zero =>
    rw [upcoming, Nat.le_zero.1 hn]
    rfl
  | succ n ih =>
    rw [drain]
    split
    · next hnext => exact (next_none h hfuel hnext).symm
    · next x it' hnext =>
      obtain ⟨hup, hok, hlt⟩ := next_some h hnext
      rw [hup, ih hok (by omega) (by omega)]

end MergeIterator

/-! ## Draining the tables of a scan -/

/-- An SSTable's blocks and how an iterator is opened over them. -/
structure TableRange (K V : Type) where
  blocks : List (Block K (Option V))
  start : Option K
  stop : Option K
  priority : Nat

namespace TableRange

def entries (t : TableRange K V) : List (K × Option V) :=
  (Block.contents t.blocks).filter (inBounds t.start t.stop)

def iterator (t : TableRange K V) : SstableBlockIterator K V :=
  .newWithEnd t.blocks t.start t.stop t.priority

theorem mem_mirror {ts : List (TableRange K V)}
    (hasc : ∀ t ∈ ts, Ascending (Block.contents t.blocks)) {i : Nat}
    {s : Source K (Option V) Nat} :
    s ∈ SstableBlockIterator.mirror i (ts.map iterator) ↔
      ∃ j t, ts[j]? = some t ∧ s = ⟨t.priority, i + j, t.entries⟩ := by
  induction ts generalizing i with
  | nil => simp [SstableBlockIterator.mirror]
  | cons t ts ih =>
    obtain ⟨ht, hts⟩ := forall_mem_cons.1 hasc
    have hrest : t.iterator.cursor.rest = t.entries := (Cursor.rest_newWithEnd ht ..).1
    rw [map_cons, SstableBlockIterator.mirror, mem_cons, ih hts, hrest]
    constructor
    · rintro (rfl | ⟨j, u, hu, rfl⟩)
      · exact ⟨0, t, rfl, rfl⟩
      · exact ⟨j + 1, u, hu, by rw [Nat.add_assoc, Nat.add_comm 1]⟩
    · rintro ⟨j, u, hu, rfl⟩
      cases j with
      | zero =>
        cases hu
        exact .inl rfl
      | succ j => exact .inr ⟨j, u, hu, by rw [Nat.add_assoc, Nat.add_comm 1]⟩

theorem remaining_mirror_le {ts : List (TableRange K V)}
    (hasc : ∀ t ∈ ts, Ascending (Block.contents t.blocks)) {i : Nat} :
    remaining (SstableBlockIterator.mirror i (ts.map iterator))
      ≤ (ts.map fun t => (Block.contents t.blocks).length).sum := by
  induction ts generalizing i with
  | nil => exact le_rfl
  | cons t ts ih =>
    obtain ⟨ht, hts⟩ := forall_mem_cons.1 hasc
    have hrest : t.iterator.cursor.rest = t.entries := (Cursor.rest_newWithEnd ht ..).1
    have hle : t.entries.length ≤ (Block.contents t.blocks).length := length_filter_le ..
    have hih := ih hts (i := i + 1)
    simp only [remaining, map_cons, SstableBlockIterator.mirror, sum_cons, hrest] at hih ⊢
    omega

theorem newest_iff {ts : List (TableRange K V)}
    (hasc : ∀ t ∈ ts, Ascending (Block.contents t.blocks)) {k : K} {v : Option V} {i : Nat} :
    Newest (SstableBlockIterator.mirror 0 (ts.map iterator)) k v i ↔
      ∃ t, ts[i]? = some t ∧ (k, v) ∈ t.entries ∧
        ∀ u ∈ ts, k ∈ u.entries.map Prod.fst → t.priority ≤ u.priority := by
  constructor
  · rintro ⟨s, hs, hk, rfl, hleast⟩
    obtain ⟨j, t, ht, rfl⟩ := (mem_mirror hasc).1 hs
    refine ⟨t, by rwa [Nat.zero_add], mem_of_lookup hk, fun u hu hku => ?_⟩
    obtain ⟨j', hj'⟩ := mem_iff_getElem?.1 hu
    exact hleast _ ((mem_mirror hasc).2 ⟨j', u, hj', rfl⟩) (lookup_ne_none.2 hku)
  · rintro ⟨t, ht, hk, hleast⟩
    have hlookup := ((hasc t (mem_of_getElem? ht)).filter _).lookup_of_mem hk
    refine ⟨_, (mem_mirror hasc).2 ⟨i, t, ht, rfl⟩, hlookup, Nat.zero_add i, fun r hr hrk => ?_⟩
    obtain ⟨j, u, hu, rfl⟩ := (mem_mirror hasc).1 hr
    exact hleast u (mem_of_getElem? hu) (lookup_ne_none.1 hrk)

end TableRange

namespace MergeIterator

/-- **The merge iterator.**  Its keys ascend, they are those inside the bounds of some table, and
each comes with the value and the index of the table of smallest priority that holds it. -/
theorem drain_new (H : Heap (HeapEntry.cmp (K := K) (V := V))) (ts : List (TableRange K V))
    (hasc : ∀ t ∈ ts, Ascending (Block.contents t.blocks))
    (hprio : (ts.map TableRange.priority).Nodup) (fuel : Nat)
    (hfuel : (ts.map fun t => (Block.contents t.blocks).length).sum ≤ fuel) :
    Ascending ((new H (ts.map TableRange.iterator)).drain fuel fuel) ∧
      (∀ k, k ∈ ((new H (ts.map TableRange.iterator)).drain fuel fuel).map Prod.fst ↔
        ∃ t ∈ ts, k ∈ t.entries.map Prod.fst) ∧
      ∀ k v i, (k, v, i) ∈ (new H (ts.map TableRange.iterator)).drain fuel fuel ↔
        ∃ t, ts[i]? = some t ∧ (k, v) ∈ t.entries ∧
          ∀ u ∈ ts, k ∈ u.entries.map Prod.fst → t.priority ≤ u.priority := by
  set l := SstableBlockIterator.mirror 0 (ts.map TableRange.iterator) with hl
  have hsorted : Sorted l := by
    intro s hs
    obtain ⟨j, t, ht, rfl⟩ := (TableRange.mem_mirror hasc).1 hs
    exact (hasc t (mem_of_getElem? ht)).filter _
  have hnodup : (l.map Source.prio).Nodup := by
    rw [SstableBlockIterator.map_prio_mirror, List.map_map]
    exact hprio
  have hok : (new H (ts.map TableRange.iterator)).Ok := by
    refine ⟨List.forall_mem_map.mpr fun t ht => ?_, ?_, ?_⟩
    · exact (Cursor.rest_newWithEnd (hasc t ht) ..).2
    · have hperm := items_foldl_push
        (SstableBlockIterator.entries 0 (ts.map TableRange.iterator)) H.empty
      rwa [H.items_empty, append_nil] at hperm
    · show ((ts.map TableRange.iterator).map SstableBlockIterator.priority).Nodup
      rw [List.map_map]
      exact hprio
  have hrem : remaining l ≤ fuel := (TableRange.remaining_mirror_le hasc).trans hfuel
  have hout : (new H (ts.map TableRange.iterator)).drain fuel fuel = merge l :=
    drain_eq hok hrem hrem
  have hnewest (k : K) (v : Option V) (i : Nat) : Newest l k v i ↔
      ∃ t, ts[i]? = some t ∧ (k, v) ∈ t.entries ∧
        ∀ u ∈ ts, k ∈ u.entries.map Prod.fst → t.priority ≤ u.priority :=
    TableRange.newest_iff hasc
  rw [hout]
  refine ⟨merge_ascending hsorted, fun k => ⟨fun hk => ?_, ?_⟩, fun k v i => ?_⟩
  · obtain ⟨⟨k, v, i⟩, hx, rfl⟩ := mem_map.1 hk
    obtain ⟨t, ht, hv, -⟩ := (hnewest k v i).1 ((mem_merge_iff hsorted hnodup).1 hx)
    exact ⟨t, mem_of_getElem? ht, mem_map_of_mem hv⟩
  · rintro ⟨t, ht, hk⟩
    obtain ⟨j, hj⟩ := mem_iff_getElem?.1 ht
    obtain ⟨v, i, hnew⟩ := exists_newest ((TableRange.mem_mirror hasc).2 ⟨j, t, hj, rfl⟩)
      (lookup_ne_none.2 hk)
    exact mem_map.2 ⟨(k, v, i), (mem_merge_iff hsorted hnodup).2 hnew, rfl⟩
  · rw [mem_merge_iff hsorted hnodup, hnewest]

def twoRanges : List (TableRange Nat Nat) :=
  [⟨[⟨[(1, some 10), (2, some 20)], by decide⟩, ⟨[(4, some 40)], by decide⟩], some 2, none, 7⟩,
    ⟨[⟨[(2, none), (5, some 50)], by decide⟩], none, some 9, 3⟩]

theorem drain_twoRanges :
    ((2, none, 1) ∈ (new (Heap.ofList HeapEntry.cmp) (twoRanges.map TableRange.iterator)).drain 5 5 ↔
      ∃ t, twoRanges[1]? = some t ∧ (2, none) ∈ t.entries ∧
        ∀ u ∈ twoRanges, 2 ∈ u.entries.map Prod.fst → t.priority ≤ u.priority) ∧
      (new (Heap.ofList HeapEntry.cmp) (twoRanges.map TableRange.iterator)).drain 5 5
        = [(2, none, 1), (4, some 40, 0), (5, some 50, 1)] :=
  ⟨(drain_new (Heap.ofList HeapEntry.cmp) twoRanges
      (by simp [twoRanges, Ascending, Block.contents]) (by decide) 5 (by decide)).2.2 ..,
    by decide +kernel⟩

end MergeIterator

end Dtdb.Storage
