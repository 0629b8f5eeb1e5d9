import Dtdb.Sql.Sorting

/-! # The sort-merge join

Both sides are sorted by their keys and walked group by group.  The rows are those of nested loops:
each left row with every right row of an equal key, and NULL is equal to nothing. -/

namespace Dtdb.Sql

open Dtdb.Lib Dtdb.Storage Dtdb.Relational List

/-- The right row joins the left one. -/
def partner (x y : List DbValue × Row) : Bool := x.1.head? ≠ some .null && rowEq y.1 x.1

def unmatchedRows (isLeft : Bool) (rightCols : Nat) (group : List Row) : List Row :=
  if isLeft then group.map (padLeftRow rightCols) else []

/-- A left row with its partners. -/
def joinOf (isLeft : Bool) (rightCols : Nat) (rights : List (List DbValue × Row))
    (x : List DbValue × Row) : List Row :=
  let partners := rights.filter (partner x)
  if partners.isEmpty then unmatchedRows isLeft rightCols [x.2]
  else partners.map fun y => x.2 ++ y.2

def nestedLoops (isLeft : Bool) (rightCols : Nat) (lefts rights : List (List DbValue × Row)) :
    List Row :=
  lefts.flatMap (joinOf isLeft rightCols rights)

def compareKeyed (x y : List DbValue × Row) : Ordering := compareRows x.1 y.1

instance transCmp_compareKeyed : Std.TransCmp compareKeyed := transCmp_on Prod.fst compareRows

variable {isLeft : Bool} {rightCols : Nat} {b x y : List DbValue × Row}
  {group ls rs : List (List DbValue × Row)}

theorem partner_iff : partner x y ↔ x.1.head? ≠ some .null ∧ compareKeyed y x = .eq := by
  simp [partner, rowEq_iff, compareKeyed, compareRows_eq_iff]

theorem partner_congr (h : partner x y) (z : List DbValue × Row) :
    compareKeyed z y = compareKeyed z x :=
  Std.TransCmp.congr_right (partner_iff.1 h).2

theorem head_isLE (h : Arranged compareKeyed (x :: ls)) :
    ∀ y ∈ x :: ls, (compareKeyed x y).isLE :=
  forall_mem_cons.2 ⟨Std.ReflCmp.isLE_rfl, (pairwise_cons.1 h).1⟩

theorem head?_eq_of_level (h : compareKeyed x y = .eq) (hy : y.1.head? = some .null) :
    x.1.head? = some .null := by
  obtain ⟨_ | ⟨u, us⟩, r⟩ := x <;> obtain ⟨_ | ⟨v, vs⟩, r'⟩ := y <;> cases hy
  · cases h
  · have hcode := (compareRows_eq_iff _ _).1 h
    cases u <;> first | rfl | simp [rowCode, valueCode] at hcode

/-- The group at the head of a sorted side, and what follows it. -/
theorem exists_takeGroup (h : Arranged compareKeyed (x :: ls)) : ∃ group rest,
    x :: ls = x :: group ++ rest ∧ takeGroup x.1 (x :: ls) = ((x :: group).map Prod.snd, rest) ∧
      (∀ y ∈ x :: group, compareKeyed y x = .eq) ∧ ∀ y ∈ rest, compareKeyed x y = .lt := by
  obtain ⟨hx, hls⟩ := pairwise_cons.1 h
  have hself : compareKeyed x x = .eq := Std.ReflCmp.compare_self
  have hdrop := (span_level hls hx).2
  refine ⟨ls.takeWhile fun y => compareKeyed y x = .eq,
    ls.dropWhile fun y => compareKeyed y x = .eq, by simp [takeWhile_append_dropWhile], ?_,
    fun y hy => ?_, fun y hy => ?_⟩
  · have hself' : decide (compareRows x.1 x.1 = .eq) = true := decide_eq_true hself
    rw [takeGroup, takeWhile_cons, dropWhile_cons, if_pos hself', if_pos hself']
    rfl
  · rcases mem_cons.1 hy with rfl | hy
    · exact hself
    · simpa using mem_takeWhile_imp hy
  · obtain ⟨hy, hne⟩ := mem_filter.1 (hdrop ▸ hy)
    have hle := hx y hy
    have hne : compareKeyed x y ≠ .eq := fun heq => by
      simp [Std.OrientedCmp.eq_symm heq] at hne
    cases hcmp : compareKeyed x y <;> simp_all

theorem flatMap_joinOf_unmatched (h : ∀ x ∈ group, ∀ y ∈ rs, ¬ partner x y) :
    group.flatMap (joinOf isLeft rightCols rs) =
      unmatchedRows isLeft rightCols (group.map Prod.snd) := by
  induction group with
  | nil => cases isLeft <;> rfl
  | cons x group ih =>
    have hx : rs.filter (partner x) = [] := by simpa using h x mem_cons_self
    rw [flatMap_cons, ih fun x' hx' => h x' (mem_cons_of_mem x hx'), joinOf, hx]
    cases isLeft <;> simp [unmatchedRows]

theorem flatMap_joinOf_matched (hgroup : group ≠ []) (h : ∀ x ∈ ls, rs.filter (partner x) = group) :
    ls.flatMap (joinOf isLeft rightCols rs) =
      (ls.map Prod.snd).flatMap fun a => (group.map Prod.snd).map (a ++ ·) := by
  rw [flatMap_map]
  refine flatMap_congr fun x hx => ?_
  rw [joinOf, h x hx]
  simp [hgroup]

/-- The partners of an entry are the group it is level with. -/
theorem filter_partner (hlevel : ∀ y ∈ group, compareKeyed y b = .eq)
    (habove : ∀ y ∈ rs, compareKeyed b y = .lt) (hkey : x.1.head? ≠ some .null)
    (hx : compareKeyed b x = .eq) : (group ++ rs).filter (partner x) = group := by
  have hin : ∀ y ∈ group, partner x y := fun y hy =>
    partner_iff.2 ⟨hkey, Std.TransCmp.eq_trans (hlevel y hy) hx⟩
  have hout : ∀ y ∈ rs, ¬ partner x y := fun y hy hp => by
    have hby := partner_congr hp b
    rw [habove y hy, hx] at hby
    cases hby
  rw [filter_append, filter_eq_self.2 hin, filter_eq_nil_iff.2 hout, append_nil]

theorem joinOf_append (hlevel : ∀ y ∈ group, compareKeyed y b = .eq) (hx : compareKeyed b x ≠ .eq) :
    joinOf isLeft rightCols (group ++ rs) x = joinOf isLeft rightCols rs x := by
  have hnone : ∀ y ∈ group, ¬ partner x y := fun y hy hp => hx <|
    (partner_congr hp b).symm.trans (Std.OrientedCmp.eq_symm (hlevel y hy))
  rw [joinOf, joinOf, filter_append, filter_eq_nil_iff.2 hnone, nil_append]

theorem mergeJoin_eq {n : Nat} (hl : Arranged compareKeyed ls) (hr : Arranged compareKeyed rs)
    (hn : ls.length + rs.length < n) :
    mergeJoin isLeft rightCols n ls rs = nestedLoops isLeft rightCols ls rs := by
  induction n generalizing ls rs with
  | zero => omega
  | succ n ih =>
    obtain _ | ⟨a, ls⟩ := ls
    · rfl
    obtain ⟨lgroup, lrest, hls, hltake, hlevel, habove⟩ := exists_takeGroup hl
    rw [hls] at hl hn
    have hlrest := (pairwise_append.1 hl).2.1
    -- the left group has no partner
    have hskip (h : ∀ x ∈ a :: lgroup, ∀ y ∈ rs, ¬ partner x y) :
        unmatchedRows isLeft rightCols ((a :: lgroup).map Prod.snd) ++
          mergeJoin isLeft rightCols n lrest rs = nestedLoops isLeft rightCols (a :: ls) rs := by
      rw [ih hlrest hr (by simp at hn; omega), hls, nestedLoops, nestedLoops, flatMap_append,
        flatMap_joinOf_unmatched h]
    rw [mergeJoin.eq_def]
    simp only [hltake]
    by_cases hnull : a.1.head? = some .null
    · rw [if_pos hnull]
      exact hskip fun x hx y _ hp => (partner_iff.1 hp).1 (head?_eq_of_level (hlevel x hx) hnull)
    rw [if_neg hnull]
    obtain _ | ⟨b, rs⟩ := rs
    · exact hskip (by simp)
    obtain ⟨rgroup, rrest, hrs, hrtake, hlevel', habove'⟩ := exists_takeGroup hr
    rw [hrs] at hn
    have hrrest := (pairwise_append.1 (hrs ▸ hr)).2.1
    -- past the right group nothing changes for the left entries that do not reach it
    have hpast {l : List (List DbValue × Row)} (h : ∀ x ∈ l, compareKeyed b x ≠ .eq) :
        nestedLoops isLeft rightCols l rrest = nestedLoops isLeft rightCols l (b :: rs) :=
      flatMap_congr fun x hx => by rw [hrs, joinOf_append hlevel' (h x hx)]
    have hleft := head_isLE (hls ▸ hl)
    have hright := head_isLE hr
    simp only [hrtake]
    split
    · next hcmp =>
      refine hskip fun x hx y hy hp => ?_
      have hba : compareKeyed b a = .gt := Std.OrientedCmp.gt_of_lt hcmp
      have hby := (partner_congr hp b).trans (Std.TransCmp.congr_right (hlevel x hx))
      simpa [hby, hba] using hright y hy
    · next hcmp =>
      rw [ih (hls ▸ hl) hrrest (by simp [hls] at hn ⊢; omega)]
      refine hpast fun x hx heq => ?_
      have hab : compareKeyed a b = .gt := hcmp
      have hax : compareKeyed a x = compareKeyed a b :=
        Std.TransCmp.congr_right (Std.OrientedCmp.eq_symm heq)
      simpa [hax, hab] using hleft x hx
    · next hcmp =>
      have hab : compareKeyed a b = .eq := hcmp
      have hmatch : ∀ x ∈ a :: lgroup, (b :: rs).filter (partner x) = b :: rgroup := by
        intro x hx
        have hax := Std.OrientedCmp.eq_symm (hlevel x hx)
        rw [hrs]
        exact filter_partner hlevel' habove' (fun h => hnull (head?_eq_of_level hax h))
          (Std.TransCmp.eq_trans (Std.OrientedCmp.eq_symm hab) hax)
      have hrest : ∀ x ∈ lrest, compareKeyed b x ≠ .eq := fun x hx heq => by
        have hax : compareKeyed a x = compareKeyed a b :=
          Std.TransCmp.congr_right (Std.OrientedCmp.eq_symm heq)
        rw [habove x hx, hab] at hax
        cases hax
      rw [ih hlrest hrrest (by simp at hn ⊢; omega), hpast hrest, hls, nestedLoops, nestedLoops,
        flatMap_append, flatMap_joinOf_matched (cons_ne_nil b rgroup) hmatch]

theorem perm_joinOf (h : rs.Perm group) (x : List DbValue × Row) :
    (joinOf isLeft rightCols rs x).Perm (joinOf isLeft rightCols group x) := by
  have hperm := h.filter (partner x)
  simp only [joinOf, hperm.isEmpty_eq]
  split
  · rfl
  · exact hperm.map _

theorem arranged_keyed {rt : Runtime} {lib : Library} {s : Schema} {e : Expr}
    {rows : Flow Row Fault} {entries : List (List DbValue × Row)}
    (h : keyedRows lib s [e] rows = .ok entries) :
    Arranged compareKeyed (rt.sortEntries [true] entries) := by
  refine (rt.arranged_sortEntries [true] entries).imp_of_mem fun ha hb hle => ?_
  have hlen : ∀ x ∈ rt.sortEntries [true] entries, x.1.length = 1 := fun x hx =>
    length_evalAll ((keyedRows_spec h).2 x ((rt.perm_sortEntries _ _).mem_iff.1 hx))
  rwa [compareKeyed, ← compareKeys_ascending (hlen _ ha) (hlen _ hb)]

/-- **The sort-merge join is the join by nested loops**, as a bag of rows, and fails where the
evaluation of a key does, whatever the memory and the order of level entries. -/
theorem joinRows_eq_nestedLoops (lib : Library) (rt : Runtime) (ls rs : Schema)
    (leftOn rightOn : Expr) (joinType : JoinType) (left right : Flow Row Fault) :
    (joinRows lib rt ls rs leftOn rightOn joinType left right).collect.map Multiset.ofList =
      keyedRows lib ls [leftOn] left >>= fun lefts =>
        (keyedRows lib rs [rightOn] right).map fun rights =>
          nestedLoops (joinType = .left) rs.columns.length lefts rights := by
  unfold joinRows
  cases hlefts : keyedRows lib ls [leftOn] left with
  | error e => rfl
  | ok lefts =>
    cases hrights : keyedRows lib rs [rightOn] right with
    | error e => rfl
    | ok rights =>
      have hpl := rt.perm_sortEntries [true] lefts
      have hpr := rt.perm_sortEntries [true] rights
      refine congrArg Except.ok (Multiset.coe_eq_coe.2 ?_)
      change (mergeJoin _ _ _ _ _).Perm _
      rw [mergeJoin_eq (arranged_keyed hlefts) (arranged_keyed hrights)
        (by rw [hpl.length_eq, hpr.length_eq]; omega)]
      exact (hpl.flatMap_right _).trans (.flatMap_left _ fun x _ => perm_joinOf hpr x)

end Dtdb.Sql
