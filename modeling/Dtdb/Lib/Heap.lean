import Dtdb.Lib.Arrange

/-! # Keeping the least entries in a heap

A priority queue hands out a greatest entry, any one of several level ones.  A queue of at most `k`
entries, where a smaller entry takes the place of the greatest, ends up with `k` least ones. -/

namespace Dtdb.Lib

open List Option

variable {A : Type} {c : A → A → Ordering}

variable (c) in
structure Heap where
  State : Type
  empty : State
  items : State → List A
  push : State → A → State
  pop : State → Option (A × State)
  /-- `*peek_mut() = a`. -/
  replace : State → A → State
  items_empty : items empty = []
  perm_push : ∀ h a, (items (push h a)).Perm (a :: items h)
  pop_none : ∀ h, pop h = none → items h = []
  perm_pop : ∀ h a h', pop h = some (a, h') → (items h).Perm (a :: items h')
  pop_greatest : ∀ h a h', pop h = some (a, h') → ∀ b ∈ items h, (c b a).isLE
  perm_replace : ∀ h a h' b, pop h = some (a, h') → (items (replace h b)).Perm (b :: items h')

namespace Heap

/-- An entry is pushed, or takes the place of a greater one. -/
def offer (H : Heap c) (k : Nat) (h : H.State) (a : A) : H.State :=
  if (H.items h).length < k then H.push h a
  else match H.pop h with
    | some (worst, _) => if c a worst = .lt then H.replace h a else h
    | none => h

def drain (H : Heap c) : Nat → H.State → List A
  | 0, _ => []
  | n + 1, h => match H.pop h with
    | some (a, h) => a :: H.drain n h
    | none => []

def least (H : Heap c) (k : Nat) (as : List A) : List A :=
  let h := as.foldl (H.offer k) H.empty
  (H.drain (H.items h).length h).reverse

/-! ## The list as a heap -/

def greatest (c : A → A → Ordering) (a : A) : List A → A
  | [] => a
  | b :: bs => if c a b = .lt then greatest c b bs else greatest c a bs

variable [h : Std.TransCmp c]

theorem isLE_of_not_lt {a b : A} (hab : ¬ c a b = .lt) : (c b a).isLE = true := by
  rw [h.eq_swap]
  revert hab
  cases c a b <;> simp

theorem greatest_spec (a : A) (bs : List A) :
    greatest c a bs ∈ a :: bs ∧ ∀ b ∈ a :: bs, (c b (greatest c a bs)).isLE := by
  induction bs generalizing a with
  | nil => simp [greatest, Std.ReflCmp.compare_self]
  | cons b bs ih =>
    unfold greatest
    split
    · next hab =>
      obtain ⟨hmem, hle⟩ := ih b
      refine ⟨mem_cons_of_mem a hmem, fun x hx => ?_⟩
      rcases mem_cons.1 hx with rfl | hx
      · exact Std.TransCmp.isLE_trans (by rw [hab]; rfl) (hle b mem_cons_self)
      · exact hle x hx
    · next hab =>
      obtain ⟨hmem, hle⟩ := ih a
      refine ⟨?_, fun x hx => ?_⟩
      · exact mem_cons.2 ((mem_cons.1 hmem).imp id (mem_cons_of_mem b))
      · rcases mem_cons.1 hx with rfl | hx
        · exact hle x mem_cons_self
        · rcases mem_cons.1 hx with rfl | hx
          · exact Std.TransCmp.isLE_trans (isLE_of_not_lt hab) (hle a mem_cons_self)
          · exact hle x (mem_cons_of_mem a hx)

variable (c) in
def ofList [DecidableEq A] : Heap c where
  State := List A
  empty := []
  items := id
  push l a := a :: l
  pop
    | [] => none
    | a :: l => some (greatest c a l, (a :: l).erase (greatest c a l))
  replace
    | [], b => [b]
    | a :: l, b => b :: (a :: l).erase (greatest c a l)
  items_empty := rfl
  perm_push _ _ := .rfl
  pop_none
    | [], _ => rfl
  perm_pop
    | a :: l, _, _, hpop => by
      obtain ⟨rfl, rfl⟩ := Prod.mk.injEq .. ▸ some.inj hpop
      exact perm_cons_erase (greatest_spec a l).1
  pop_greatest
    | a :: l, _, _, hpop => by
      obtain ⟨rfl, rfl⟩ := Prod.mk.injEq .. ▸ some.inj hpop
      exact (greatest_spec a l).2
  perm_replace
    | a :: l, _, _, b, hpop => by
      obtain ⟨rfl, rfl⟩ := Prod.mk.injEq .. ▸ some.inj hpop
      exact .rfl

/-! ## What is kept -/

variable {H : Heap c} {k : Nat}

/-- The heap holds `k` least entries of those offered. -/
structure Keeps (H : Heap c) (k : Nat) (s : H.State) (as rest : List A) : Prop where
  perm : (H.items s ++ rest).Perm as
  le : ∀ a ∈ H.items s, ∀ b ∈ rest, (c a b).isLE
  length : (H.items s).length = min k as.length

theorem Keeps.offer {s : H.State} {as rest : List A} (hk : Keeps H k s as rest) (a : A) :
    ∃ rest', Keeps H k (H.offer k s a) (as ++ [a]) rest' := by
  have hperm := hk.perm
  have hlen := hk.length
  have htotal := hperm.length_eq
  rw [length_append] at htotal
  unfold Heap.offer
  split
  · next hlt =>
    have hrest : rest = [] := eq_nil_of_length_eq_zero (by omega)
    subst hrest
    refine ⟨[], ?_, nofun, ?_⟩
    · rw [append_nil] at hperm ⊢
      exact (H.perm_push s a).trans ((hperm.cons a).trans (perm_append_singleton a as).symm)
    · rw [(H.perm_push s a).length_eq]
      simp only [length_cons, length_append]
      omega
  · next hfull =>
    have hmin : min k (as ++ [a]).length = (H.items s).length := by
      simp only [length_append, length_cons]
      omega
    split
    · next worst s' hpop =>
      have hp := H.perm_pop s worst s' hpop
      have hmax := H.pop_greatest s worst s' hpop
      have hworst : worst ∈ H.items s := hp.mem_iff.2 mem_cons_self
      split
      · next hlt =>
        have hr := H.perm_replace s worst s' a hpop
        have hle : (c a worst).isLE = true := by rw [hlt]; rfl
        refine ⟨worst :: rest, ?_, fun x hx y hy => ?_, ?_⟩
        · refine ((hr.append_right _).trans ?_).trans (perm_append_singleton a as).symm
          refine List.Perm.cons a (perm_middle.trans ?_)
          exact (hp.symm.append_right rest).trans hperm
        · rcases mem_cons.1 (hr.mem_iff.1 hx) with rfl | hx
          · rcases mem_cons.1 hy with rfl | hy
            · exact hle
            · exact Std.TransCmp.isLE_trans hle (hk.le worst hworst y hy)
          · have hx : x ∈ H.items s := hp.mem_iff.2 (mem_cons_of_mem worst hx)
            rcases mem_cons.1 hy with rfl | hy
            · exact hmax x hx
            · exact hk.le x hx y hy
        · rw [hmin, hr.length_eq, hp.length_eq]
          rfl
      · next hlt =>
        refine ⟨a :: rest, ?_, fun x hx y hy => ?_, hmin.symm⟩
        · exact (perm_middle.trans (hperm.cons a)).trans (perm_append_singleton a as).symm
        · rcases mem_cons.1 hy with rfl | hy
          · exact Std.TransCmp.isLE_trans (hmax x hx) (isLE_of_not_lt hlt)
          · exact hk.le x hx y hy
    · next hpop =>
      have hnil := H.pop_none s hpop
      refine ⟨a :: rest, ?_, fun x hx => ?_, hmin.symm⟩
      · exact (perm_middle.trans (hperm.cons a)).trans (perm_append_singleton a as).symm
      · rw [hnil] at hx
        cases hx

theorem keeps_foldl (as : List A) {s : H.State} {seen rest : List A} (hk : Keeps H k s seen rest) :
    ∃ rest', Keeps H k (as.foldl (H.offer k) s) (seen ++ as) rest' := by
  induction as generalizing s seen rest with
  | nil => exact ⟨rest, by rwa [append_nil]⟩
  | cons a as ih =>
    obtain ⟨rest', hk'⟩ := hk.offer a
    rw [append_cons]
    exact ih hk'

omit h in
theorem drain_spec (n : Nat) (s : H.State) (hn : (H.items s).length = n) :
    (H.drain n s).Perm (H.items s) ∧ (H.drain n s).Pairwise fun a b => (c b a).isLE := by
  induction n generalizing s with
  | zero => exact ⟨by rw [eq_nil_of_length_eq_zero hn]; rfl, .nil⟩
  | succ n ih =>
    unfold Heap.drain
    split
    · next a s' hpop =>
      have hp := H.perm_pop s a s' hpop
      obtain ⟨hperm, hsorted⟩ := ih s' (by simpa [hn] using hp.length_eq.symm)
      refine ⟨(hperm.cons a).trans hp.symm, pairwise_cons.2 ⟨fun b hb => ?_, hsorted⟩⟩
      exact H.pop_greatest s a s' hpop b
        (hp.mem_iff.2 (mem_cons_of_mem a (hperm.mem_iff.1 hb)))
    · next hpop =>
      rw [H.pop_none s hpop] at hn
      cases hn

/-- **The heap's answer is the front of an arrangement.** -/
theorem isWindow_least (H : Heap c) (k : Nat) (as : List A) :
    IsWindow c 0 (some k) as (H.least k as) := by
  have hinit : Keeps H k H.empty [] [] :=
    ⟨by rw [H.items_empty]; exact .rfl, fun _ _ => nofun, by rw [H.items_empty]; simp⟩
  obtain ⟨rest, hk⟩ := keeps_foldl as hinit
  rw [nil_append] at hk
  obtain ⟨hperm, hsorted⟩ := drain_spec _ (as.foldl (H.offer k) H.empty) rfl
  set s := as.foldl (H.offer k) H.empty
  have hleast : (H.least k as).Perm (H.items s) := (reverse_perm _).trans hperm
  have hlen : (H.least k as).length = min k as.length := hleast.length_eq.trans hk.length
  refine ⟨H.least k as ++ arrange c rest, ?_, ?_, ?_⟩
  · exact (hleast.append (perm_arrange rest)).trans hk.perm
  · refine pairwise_append.2 ⟨?_, arranged_arrange rest, fun a ha b hb => ?_⟩
    · exact pairwise_reverse.2 hsorted
    · exact hk.le a (hleast.mem_iff.1 ha) b ((perm_arrange rest).mem_iff.1 hb)
  · have hrest : (H.least k as).length = k ∨ arrange c rest = [] := by
      have htotal := hk.perm.length_eq
      rw [length_append, ← hleast.length_eq] at htotal
      rcases Nat.le_total k as.length with hle | hle
      · exact .inl (by omega)
      · refine .inr (eq_nil_of_length_eq_zero ?_)
        rw [(perm_arrange rest).length_eq]
        omega
    rcases hrest with hrest | hrest
    · rw [window, drop_zero, take_left' hrest]
    · rw [window, drop_zero, hrest, append_nil, take_of_length_le (by omega)]

end Heap

end Dtdb.Lib
