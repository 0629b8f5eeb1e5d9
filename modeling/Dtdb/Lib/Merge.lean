import Dtdb.Lib.SortedMap
import Mathlib.Algebra.Order.BigOperators.Group.List
import Mathlib.Algebra.Order.Ring.Nat
import Mathlib.Data.List.MinMax
import Mathlib.Data.List.Nodup

/-! # Priority merge of sorted sources

A k-way merge pops the least head key, ties going to the lowest priority number, and drops repeated
keys.  `merge_lookup`: every key once, with the entry of the first source that holds it. -/

namespace Dtdb.Lib

open List Option

variable {K A T : Type*} [LinearOrder K]

/-- A cursor over a sorted run; a lower `prio` wins on equal keys. -/
structure Source (K A T : Type*) where
  prio : Nat
  tag : T
  rest : List (K × A)

/-- Pop the least head, with its source's priority and tag. -/
def popMin : List (Source K A T) → Option ((K × A × Nat × T) × List (Source K A T))
  | [] => none
  | s :: l =>
    match s.rest, popMin l with
    | [], none => none
    | [], some (e, l') => some (e, s :: l')
    | (k, a) :: rest, none => some ((k, a, s.prio, s.tag), { s with rest := rest } :: l)
    | (k, a) :: rest, some (e, l') =>
      if k < e.1 ∨ k = e.1 ∧ s.prio ≤ e.2.2.1 then
        some ((k, a, s.prio, s.tag), { s with rest := rest } :: l)
      else some (e, s :: l')

def remaining (l : List (Source K A T)) : Nat := (l.map fun s => s.rest.length).sum

variable {l : List (Source K A T)}

omit [LinearOrder K] in
theorem remaining_perm {r : List (Source K A T)} (h : l.Perm r) : remaining l = remaining r :=
  (h.map _).sum_eq

/-- The merge loop; `last` is the key yielded last. -/
def drain : Nat → Option K → List (Source K A T) → List (K × A × T)
  | 0, _, _ => []
  | n + 1, last, l =>
    match popMin l with
    | none => []
    | some ((k, a, _, t), l') =>
      if last = some k then drain n last l' else (k, a, t) :: drain n (some k) l'

def merge (l : List (Source K A T)) : List (K × A × T) := drain (remaining l) none l

/-! ## What one pop does -/

theorem popMin_none (h : popMin l = none) : ∀ s ∈ l, s.rest = [] := by
  induction l with
  | nil => simp
  | cons s l ih =>
    simp only [popMin] at h
    split at h
    · next hs hl => exact forall_mem_cons.2 ⟨hs, ih hl⟩
    · cases h
    · cases h
    · split at h <;> cases h

structure Popped (l : List (Source K A T)) (e : K × A × Nat × T) (l' : List (Source K A T))
    (pre : List (Source K A T)) (s : Source K A T) (rest : List (K × A))
    (post : List (Source K A T)) : Prop where
  eq : l = pre ++ s :: post
  eq' : l' = pre ++ { s with rest := rest } :: post
  head : s.rest = (e.1, e.2.1) :: rest
  prio : e.2.2.1 = s.prio
  tag : e.2.2.2 = s.tag
  least : ∀ r ∈ l, ∀ y ∈ r.rest.head?, e.1 < y.1 ∨ e.1 = y.1 ∧ e.2.2.1 ≤ r.prio

theorem popMin_some {l' : List (Source K A T)} {e : K × A × Nat × T} (h : popMin l = some (e, l')) :
    ∃ pre s rest post, Popped l e l' pre s rest post := by
  induction l generalizing e l' with
  | nil => simp [popMin] at h
  | cons s l ih =>
    simp only [popMin] at h
    split at h
    · cases h
    · next e₁ l₁ hs hl =>
      cases h
      obtain ⟨pre, r, rest, post, p⟩ := ih hl
      refine ⟨s :: pre, r, rest, post, by simp [p.eq], by simp [p.eq'], p.head, p.prio, p.tag, ?_⟩
      exact forall_mem_cons.2 ⟨by simp [hs], p.least⟩
    · next k a rest hs hl =>
      cases h
      refine ⟨[], s, rest, l, rfl, rfl, hs, rfl, rfl, ?_⟩
      refine forall_mem_cons.2 ⟨by simp [hs], fun r hr => ?_⟩
      simp [popMin_none hl r hr]
    · next k a rest e₁ l₁ hs hl =>
      obtain ⟨pre, r, rest', post, p⟩ := ih hl
      split at h
      · next hlt =>
        cases h
        refine ⟨[], s, rest, l, rfl, rfl, hs, rfl, rfl, ?_⟩
        refine forall_mem_cons.2 ⟨by simp [hs], fun r' hr' y hy => ?_⟩
        rcases hlt with hlt | ⟨heq, hle⟩
        · rcases p.least r' hr' y hy with h | ⟨h, -⟩
          · exact .inl (hlt.trans h)
          · exact .inl (h ▸ hlt)
        · rcases p.least r' hr' y hy with h | ⟨h, hp⟩
          · exact .inl (heq ▸ h)
          · exact .inr ⟨heq.trans h, hle.trans hp⟩
      · next hge =>
        cases h
        refine ⟨s :: pre, r, rest', post, by simp [p.eq], by simp [p.eq'], p.head, p.prio,
          p.tag, ?_⟩
        refine forall_mem_cons.2 ⟨fun y hy => ?_, p.least⟩
        rw [hs] at hy
        cases hy
        push Not at hge
        rcases hge.1.eq_or_lt with heq | hlt
        · exact .inr ⟨heq, (hge.2 heq.symm).le⟩
        · exact .inl hlt

/-! ## The entry a key resolves to -/

/-- `a`, tagged `t`, is the entry of the first source that holds `k`. -/
def Newest (l : List (Source K A T)) (k : K) (a : A) (t : T) : Prop :=
  ∃ s ∈ l, s.rest.lookup k = some a ∧ s.tag = t ∧
    ∀ r ∈ l, r.rest.lookup k ≠ none → s.prio ≤ r.prio

def Sorted (l : List (Source K A T)) : Prop := ∀ s ∈ l, Ascending s.rest

namespace Popped

variable {l l' : List (Source K A T)} {e : K × A × Nat × T} {pre post : List (Source K A T)}
  {s : Source K A T} {rest : List (K × A)}

theorem le_keys (p : Popped l e l' pre s rest post) (hl : Sorted l) :
    ∀ r ∈ l, ∀ y ∈ r.rest, e.1 ≤ y.1 := by
  intro r hr y hy
  match hrest : r.rest with
  | [] => simp [hrest] at hy
  | x :: t =>
    have hx : e.1 ≤ x.1 := by
      rcases p.least r hr x (by simp [hrest]) with h | ⟨h, -⟩
      · exact h.le
      · exact h.le
    have hasc := hl r hr
    rw [hrest] at hasc hy
    rcases mem_cons.1 hy with rfl | hy
    · exact hx
    · exact hx.trans ((ascending_cons.1 hasc).1 y hy).le

theorem sorted (p : Popped l e l' pre s rest post) (hl : Sorted l) : Sorted l' := by
  intro r hr
  rw [p.eq'] at hr
  rw [p.eq] at hl
  rcases mem_append.1 hr with hr | hr
  · exact hl r (mem_append_left _ hr)
  rcases mem_cons.1 hr with rfl | hr
  · have := hl s (by simp)
    rw [p.head] at this
    exact (ascending_cons.1 this).2
  · exact hl r (by simp [hr])

theorem remaining_eq (p : Popped l e l' pre s rest post) : remaining l = remaining l' + 1 := by
  rw [p.eq, p.eq']
  simp [remaining, p.head]
  omega

theorem mem_rest (p : Popped l e l' pre s rest post) :
    ∀ r' ∈ l', ∃ r ∈ l, ∀ y ∈ r'.rest, y ∈ r.rest := by
  intro r' hr'
  rw [p.eq'] at hr'
  rw [p.eq]
  rcases mem_append.1 hr' with h | h
  · exact ⟨r', by simp [h], fun y hy => hy⟩
  rcases mem_cons.1 h with rfl | h
  · exact ⟨s, by simp, fun y hy => by rw [p.head]; exact mem_cons_of_mem _ hy⟩
  · exact ⟨r', by simp [h], fun y hy => hy⟩

theorem newest (p : Popped l e l' pre s rest post) {k : K} (hk : k ≠ e.1) {a : A} {t : T}
    (h : Newest l k a t) : Newest l' k a t := by
  have hlk : s.rest.lookup k = rest.lookup k := by
    rw [p.head, lookup_cons_eq_ite, if_neg hk]
  obtain ⟨w, hw, hwk, hwt, hwp⟩ := h
  -- the advanced cursor answers for `k` as the old one did
  have hall : ∀ r' ∈ l', r'.rest.lookup k ≠ none → w.prio ≤ r'.prio := by
    intro r' hr' hne
    rw [p.eq'] at hr'
    rw [p.eq] at hwp
    rcases mem_append.1 hr' with h | h
    · exact hwp r' (by simp [h]) hne
    rcases mem_cons.1 h with rfl | h
    · exact hwp s (by simp) (hlk ▸ hne)
    · exact hwp r' (by simp [h]) hne
  rw [p.eq] at hw
  rcases mem_append.1 hw with h | h
  · exact ⟨w, by rw [p.eq']; simp [h], hwk, hwt, hall⟩
  rcases mem_cons.1 h with rfl | h
  · exact ⟨{ w with rest := rest }, by rw [p.eq']; simp, hlk ▸ hwk, hwt, hall⟩
  · exact ⟨w, by rw [p.eq']; simp [h], hwk, hwt, hall⟩

theorem lookup_none (p : Popped l e l' pre s rest post) {k : K}
    (h : ∀ r ∈ l, r.rest.lookup k = none) : ∀ r ∈ l', r.rest.lookup k = none := by
  intro r' hr'
  obtain ⟨r, hr, hsub⟩ := p.mem_rest r' hr'
  exact lookup_eq_none.2 fun y hy => lookup_eq_none.1 (h r hr) y (hsub y hy)

theorem prios (p : Popped l e l' pre s rest post) :
    l'.map Source.prio = l.map Source.prio := by
  rw [p.eq, p.eq']
  simp

theorem eq_of_newest (p : Popped l e l' pre s rest post) (hl : Sorted l)
    (hd : (l.map Source.prio).Nodup) {a : A} {t : T} (h : Newest l e.1 a t) :
    e.2.1 = a ∧ e.2.2.2 = t := by
  obtain ⟨w, hw, hwk, rfl, hwp⟩ := h
  have hs : s ∈ l := by rw [p.eq]; simp
  have hle : w.prio ≤ s.prio := hwp s hs (by rw [p.head]; simp)
  -- `w` holds the least key, so it holds it at its head
  have hge : s.prio ≤ w.prio := by
    match hr : w.rest with
    | [] => simp [hr] at hwk
    | y :: ys =>
      rcases p.least w hw y (by simp [hr]) with hlt | ⟨-, hp⟩
      · have hasc := hl w hw
        rw [hr] at hasc hwk
        have hmem := mem_of_lookup hwk
        rcases mem_cons.1 hmem with rfl | hmem
        · exact absurd hlt (lt_irrefl _)
        · exact absurd ((ascending_cons.1 hasc).1 _ hmem) hlt.asymm
      · exact p.prio ▸ hp
  have hws : w = s := inj_on_of_nodup_map hd hw hs (le_antisymm hle hge)
  subst hws
  rw [p.head, lookup_cons_eq_ite, if_pos rfl] at hwk
  exact ⟨some.inj hwk, p.tag⟩

end Popped

/-! ## The whole merge -/

def From (last : Option K) (l : List (Source K A T)) : Prop :=
  ∀ j ∈ last, ∀ s ∈ l, ∀ y ∈ s.rest, j ≤ y.1

variable {last : Option K}

theorem drain_keys {n : Nat} (hl : Sorted l) (hfrom : From last l) :
    ∀ x ∈ drain n last l, ∀ j ∈ last, j < x.1 := by
  induction n generalizing last l with
  | zero => simp [drain]
  | succ n ih =>
    intro x hx j hj
    simp only [drain] at hx
    split at hx
    · cases hx
    · next k a q t l' hpop =>
      obtain ⟨pre, s, rest, post, p⟩ := popMin_some hpop
      have hs : s ∈ l := by rw [p.eq]; simp
      have hjk : j ≤ k := hfrom j hj s hs (k, a) (by rw [p.head]; simp)
      have hfrom' : From (some k) l' := by
        intro i hi r' hr' y hy
        cases hi
        obtain ⟨r, hr, hsub⟩ := p.mem_rest r' hr'
        exact p.le_keys hl r hr y (hsub y hy)
      split at hx
      · next hlast => exact ih (p.sorted hl) (hlast ▸ hfrom') x hx j hj
      · next hlast =>
        have hlt : j < k := lt_of_le_of_ne hjk fun h => hlast (h ▸ hj)
        rcases mem_cons.1 hx with rfl | hx
        · exact hlt
        · exact hlt.trans (ih (p.sorted hl) hfrom' x hx k rfl)

theorem drain_ascending {n : Nat} (hl : Sorted l) :
    Ascending (drain n last l) := by
  induction n generalizing last l with
  | zero => exact .nil
  | succ n ih =>
    simp only [drain]
    split
    · exact .nil
    · next k a q t l' hpop =>
      obtain ⟨pre, s, rest, post, p⟩ := popMin_some hpop
      split
      · exact ih (p.sorted hl)
      · refine ascending_cons.2 ⟨fun x hx => ?_, ih (p.sorted hl)⟩
        refine drain_keys (p.sorted hl) ?_ x hx k rfl
        intro i hi r' hr' y hy
        cases hi
        obtain ⟨r, hr, hsub⟩ := p.mem_rest r' hr'
        exact p.le_keys hl r hr y (hsub y hy)

theorem drain_lookup {n : Nat} (hl : Sorted l) (hd : (l.map Source.prio).Nodup)
    (hn : remaining l ≤ n) {k : K} (hk : last ≠ some k) :
    (∀ a t, Newest l k a t → (drain n last l).lookup k = some (a, t)) ∧
      ((∀ s ∈ l, s.rest.lookup k = none) → (drain n last l).lookup k = none) := by
  induction n generalizing last l with
  | zero =>
    refine ⟨fun a t h => ?_, fun _ => rfl⟩
    obtain ⟨s, hs, hsk, -⟩ := h
    have hzero : s.rest.length ≤ remaining l :=
      le_sum_of_mem (mem_map_of_mem hs)
    have hnil : s.rest = [] := eq_nil_of_length_eq_zero (by omega)
    simp [hnil] at hsk
  | succ n ih =>
    simp only [drain]
    split
    · next hpop =>
      refine ⟨fun a t h => ?_, fun _ => rfl⟩
      obtain ⟨s, hs, hsk, -⟩ := h
      simp [popMin_none hpop s hs] at hsk
    · next j b q u l' hpop =>
      obtain ⟨pre, s, rest, post, p⟩ := popMin_some hpop
      have hrem := p.remaining_eq
      have ih' := fun {x : Option K} (hx : x ≠ some k) =>
        ih (p.sorted hl) (p.prios ▸ hd) (by omega) hx
      split
      · next hlast =>
        have hkj : k ≠ j := fun h => hk (h ▸ hlast)
        exact ⟨fun a t h => (ih' hk).1 a t (p.newest hkj h),
          fun h => (ih' hk).2 (p.lookup_none h)⟩
      · rw [lookup_cons_eq_ite]
        by_cases hkj : k = j
        · subst hkj
          rw [if_pos rfl]
          refine ⟨fun a t h => ?_, fun h => ?_⟩
          · obtain ⟨rfl, rfl⟩ := p.eq_of_newest hl hd h
            rfl
          · have := h s (by rw [p.eq]; simp)
            rw [p.head, lookup_cons_eq_ite, if_pos rfl] at this
            cases this
        · rw [if_neg hkj]
          have hne : some j ≠ some k := fun h => hkj (some.inj h).symm
          exact ⟨fun a t h => (ih' hne).1 a t (p.newest hkj h),
            fun h => (ih' hne).2 (p.lookup_none h)⟩

theorem length_drain_le (n : Nat) (last : Option K) (l : List (Source K A T)) :
    (drain n last l).length ≤ n := by
  induction n generalizing last l with
  | zero => simp [drain]
  | succ n ih =>
    simp only [drain]
    split
    · simp
    · split
      · exact (ih _ _).trans (Nat.le_succ n)
      · exact Nat.succ_le_succ (ih _ _)

theorem drain_of_remaining_le {n : Nat} (hn : remaining l ≤ n) :
    drain n last l = drain (remaining l) last l := by
  induction n generalizing last l with
  | zero => rw [Nat.le_zero.1 hn]
  | succ n ih =>
    cases hpop : popMin l with
    | none =>
      have hzero : remaining l = 0 := sum_eq_zero fun m hm => by
        obtain ⟨s, hs, rfl⟩ := mem_map.1 hm
        rw [popMin_none hpop s hs]
        rfl
      rw [hzero]
      simp [drain, hpop]
    | some x =>
      obtain ⟨pre, s, rest, post, p⟩ := popMin_some hpop
      have hrem := p.remaining_eq
      rw [hrem]
      simp only [drain, hpop]
      rw [ih (by omega), ih (by omega)]

/-- What the merge still yields when `last` was yielded last. -/
def upcoming (last : Option K) (l : List (Source K A T)) : List (K × A × T) :=
  drain (remaining l) last l

theorem upcoming_none (h : popMin l = none) :
    upcoming last l = [] := by
  rw [upcoming, ← drain_of_remaining_le (Nat.le_succ _)]
  simp [drain, h]

theorem upcoming_some {l' : List (Source K A T)} {k : K} {a : A} {q : Nat} {t : T}
    (h : popMin l = some ((k, a, q, t), l')) :
    upcoming last l
      = if last = some k then upcoming last l' else (k, a, t) :: upcoming (some k) l' := by
  obtain ⟨pre, s, rest, post, p⟩ := popMin_some h
  rw [upcoming, p.remaining_eq]
  simp only [drain, h]
  rfl

def Source.rename {U : Type*} (f : Nat → Nat) (g : T → U) (s : Source K A T) : Source K A U :=
  ⟨f s.prio, g s.tag, s.rest⟩

theorem popMin_rename {U : Type*} {f : Nat → Nat} (hf : ∀ a b, f a ≤ f b ↔ a ≤ b) (g : T → U)
    (l : List (Source K A T)) : popMin (l.map (Source.rename f g)) = (popMin l).map fun x =>
      ((x.1.1, x.1.2.1, f x.1.2.2.1, g x.1.2.2.2), x.2.map (Source.rename f g)) := by
  induction l with
  | nil => rfl
  | cons s l ih =>
    obtain ⟨prio, tag, rest⟩ := s
    simp only [map_cons, popMin, ih, Source.rename]
    cases rest with
    | nil => cases popMin l <;> rfl
    | cons x rest =>
      cases popMin l with
      | none => rfl
      | some e =>
        simp only [map_some, hf]
        split <;> rfl

theorem mem_drain {n : Nat} {x : K × A × T} (h : x ∈ drain n last l) :
    ∃ s ∈ l, (x.1, x.2.1) ∈ s.rest := by
  induction n generalizing last l with
  | zero => cases h
  | succ n ih =>
    simp only [drain] at h
    split at h
    · cases h
    · next k a q t l' hpop =>
      obtain ⟨pre, s, rest, post, p⟩ := popMin_some hpop
      -- an entry of the advanced cursors is one of the old
      have hlater : ∀ last, x ∈ drain n last l' → ∃ s ∈ l, (x.1, x.2.1) ∈ s.rest := by
        intro last hx
        obtain ⟨r', hr', hmem⟩ := ih hx
        obtain ⟨r, hr, hsub⟩ := p.mem_rest r' hr'
        exact ⟨r, hr, hsub _ hmem⟩
      split at h
      · exact hlater _ h
      · rcases mem_cons.1 h with rfl | h
        · exact ⟨s, by rw [p.eq]; simp, by rw [p.head]; exact mem_cons_self⟩
        · exact hlater _ h

theorem merge_ascending (hl : Sorted l) : Ascending (merge l) :=
  drain_ascending hl

/-- **Merge.** Every key resolves to the first source that holds it. -/
theorem merge_lookup {ord : List (Source K A T)} (hl : Sorted l) (hperm : l.Perm ord)
    (hord : ord.Pairwise fun a b => a.prio < b.prio) (k : K) :
    (merge l).lookup k = ord.findSome? fun s => (s.rest.lookup k).map fun a => (a, s.tag) := by
  have hnodup : (l.map Source.prio).Nodup := by
    rw [(hperm.map _).nodup_iff]
    exact pairwise_map.2 (hord.imp fun h => ne_of_lt h)
  have spec := drain_lookup hl hnodup le_rfl (show none ≠ some k by simp)
  cases hf : ord.findSome? fun s => (s.rest.lookup k).map fun a => (a, s.tag) with
  | none =>
    refine spec.2 fun s hs => ?_
    have := findSome?_eq_none_iff.1 hf s (hperm.mem_iff.1 hs)
    simpa using this
  | some x =>
    obtain ⟨pre, s, post, rfl, hs, hpre⟩ := findSome?_eq_some_iff.1 hf
    obtain ⟨a, ha, rfl⟩ := map_eq_some_iff.1 hs
    refine spec.1 a s.tag ⟨s, hperm.mem_iff.2 (by simp), ha, rfl, fun r hr hne => ?_⟩
    rcases mem_append.1 (hperm.mem_iff.1 hr) with h | h
    · exact absurd (hpre r h) (by simpa using hne)
    rcases mem_cons.1 h with rfl | h
    · exact le_rfl
    · have := (pairwise_append.1 hord).2.1
      exact ((pairwise_cons.1 this).1 r h).le

theorem exists_newest {k : K} {s : Source K A T} (hs : s ∈ l) (hk : s.rest.lookup k ≠ none) :
    ∃ a t, Newest l k a t := by
  set holders := l.filter fun r => (r.rest.lookup k).isSome with hdef
  have hmem {r : Source K A T} (hr : r ∈ l) (hrk : r.rest.lookup k ≠ none) : r ∈ holders :=
    mem_filter.2 ⟨hr, isSome_iff_ne_none.2 hrk⟩
  cases hmin : holders.argmin Source.prio with
  | none =>
    have hnil := argmin_eq_none.1 hmin
    have hin := hmem hs hk
    rw [hnil] at hin
    cases hin
  | some w =>
    obtain ⟨hw, hwk⟩ := mem_filter.1 (argmin_mem hmin)
    obtain ⟨a, ha⟩ := isSome_iff_exists.1 hwk
    exact ⟨a, w.tag, w, hw, ha, rfl, fun r hr hrk => le_of_mem_argmin (hmem hr hrk) hmin⟩

theorem mem_merge_iff (hl : Sorted l) (hd : (l.map Source.prio).Nodup) {k : K} {a : A} {t : T} :
    (k, a, t) ∈ merge l ↔ Newest l k a t := by
  have spec := drain_lookup hl hd le_rfl (show none ≠ some k by simp)
  constructor
  · intro hm
    have hlookup := (merge_ascending hl).lookup_of_mem hm
    by_cases hnone : ∀ s ∈ l, s.rest.lookup k = none
    · have := spec.2 hnone
      rw [← merge, hlookup] at this
      cases this
    · push Not at hnone
      obtain ⟨s, hs, hk⟩ := hnone
      obtain ⟨a', t', hnew⟩ := exists_newest hs hk
      have := spec.1 a' t' hnew
      rw [← merge, hlookup] at this
      cases this
      exact hnew
  · intro hnew
    exact mem_of_lookup (spec.1 a t hnew)

/-! ## Two runs -/

/-- Merge two ascending runs; on equal keys the first run's entry is kept. -/
def mergeTwo : Nat → List (K × A) → List (K × A) → List (K × A)
  | 0, _, _ => []
  | _ + 1, [], os => os
  | _ + 1, n :: ns, [] => n :: ns
  | m + 1, n :: ns, o :: os =>
    match compare n.1 o.1 with
    | .lt => n :: mergeTwo m ns (o :: os)
    | .gt => o :: mergeTwo m (n :: ns) os
    | .eq => n :: mergeTwo m ns os

theorem mem_mergeTwo {m : Nat} {ns os : List (K × A)} {x : K × A} (h : x ∈ mergeTwo m ns os) :
    x ∈ ns ∨ x ∈ os := by
  induction m, ns, os using mergeTwo.induct with
  | case1 ns os => cases h
  | case2 m os => exact .inr h
  | case3 m n ns => exact .inl h
  | case4 m n ns o os hc ih =>
    rw [mergeTwo, hc] at h
    rcases mem_cons.1 h with rfl | h
    · exact .inl mem_cons_self
    · exact (ih h).imp_left (mem_cons_of_mem _)
  | case5 m n ns o os hc ih =>
    rw [mergeTwo, hc] at h
    rcases mem_cons.1 h with rfl | h
    · exact .inr mem_cons_self
    · exact (ih h).imp_right (mem_cons_of_mem _)
  | case6 m n ns o os hc ih =>
    rw [mergeTwo, hc] at h
    rcases mem_cons.1 h with rfl | h
    · exact .inl mem_cons_self
    · exact (ih h).imp (mem_cons_of_mem _) (mem_cons_of_mem _)

theorem ascending_mergeTwo {m : Nat} {ns os : List (K × A)} (hn : Ascending ns)
    (ho : Ascending os) : Ascending (mergeTwo m ns os) := by
  induction m, ns, os using mergeTwo.induct with
  | case1 ns os => exact .nil
  | case2 m os => exact ho
  | case3 m n ns => exact hn
  | case4 m n ns o os hc ih =>
    have hlt : n.1 < o.1 := compare_lt_iff_lt.1 hc
    obtain ⟨hns, hn'⟩ := ascending_cons.1 hn
    rw [mergeTwo, hc]
    refine ascending_cons.2 ⟨fun y hy => ?_, ih hn' ho⟩
    rcases mem_mergeTwo hy with hy | hy
    · exact hns y hy
    rcases mem_cons.1 hy with rfl | hy
    · exact hlt
    · exact hlt.trans ((ascending_cons.1 ho).1 y hy)
  | case5 m n ns o os hc ih =>
    have hlt : o.1 < n.1 := compare_gt_iff_gt.1 hc
    obtain ⟨hos, ho'⟩ := ascending_cons.1 ho
    rw [mergeTwo, hc]
    refine ascending_cons.2 ⟨fun y hy => ?_, ih hn ho'⟩
    rcases mem_mergeTwo hy with hy | hy
    · rcases mem_cons.1 hy with rfl | hy
      · exact hlt
      · exact hlt.trans ((ascending_cons.1 hn).1 y hy)
    · exact hos y hy
  | case6 m n ns o os hc ih =>
    have heq : n.1 = o.1 := compare_eq_iff_eq.1 hc
    obtain ⟨hns, hn'⟩ := ascending_cons.1 hn
    obtain ⟨hos, ho'⟩ := ascending_cons.1 ho
    rw [mergeTwo, hc]
    refine ascending_cons.2 ⟨fun y hy => ?_, ih hn' ho'⟩
    rcases mem_mergeTwo hy with hy | hy
    · exact hns y hy
    · exact heq ▸ hos y hy

theorem lookup_mergeTwo {m : Nat} {ns os : List (K × A)} (hn : Ascending ns) (ho : Ascending os)
    (hm : ns.length + os.length ≤ m) (k : K) :
    (mergeTwo m ns os).lookup k = (ns.lookup k).or (os.lookup k) := by
  induction m, ns, os using mergeTwo.induct with
  | case1 ns os =>
    obtain rfl : ns = [] := eq_nil_of_length_eq_zero (by omega)
    obtain rfl : os = [] := eq_nil_of_length_eq_zero (by omega)
    rfl
  | case2 m os => rfl
  | case3 m n ns => rw [mergeTwo, lookup_nil, or_none]
  | case4 m n ns o os hc ih =>
    simp only [length_cons] at hm
    rw [mergeTwo, hc, lookup_cons_eq_ite, ih (ascending_cons.1 hn).2 ho
      (by simp only [length_cons]; omega), lookup_cons_eq_ite k n ns]
    split <;> rfl
  | case5 m n ns o os hc ih =>
    have hlt : o.1 < n.1 := compare_gt_iff_gt.1 hc
    simp only [length_cons] at hm
    rw [mergeTwo, hc, lookup_cons_eq_ite, ih hn (ascending_cons.1 ho).2
      (by simp only [length_cons]; omega), lookup_cons_eq_ite k o os]
    split
    · next hk =>
      -- the first run starts past the key just yielded
      have hnone : (n :: ns).lookup k = none := lookup_eq_none.2 fun y hy => by
        rw [hk]
        rcases mem_cons.1 hy with rfl | hy
        · exact ne_of_gt hlt
        · exact ne_of_gt (hlt.trans ((ascending_cons.1 hn).1 y hy))
      rw [hnone, none_or]
    · rfl
  | case6 m n ns o os hc ih =>
    have heq : n.1 = o.1 := compare_eq_iff_eq.1 hc
    simp only [length_cons] at hm
    rw [mergeTwo, hc, lookup_cons_eq_ite, ih (ascending_cons.1 hn).2 (ascending_cons.1 ho).2
      (by omega), lookup_cons_eq_ite k n ns, lookup_cons_eq_ite k o os, ← heq]
    split <;> rfl

end Dtdb.Lib
