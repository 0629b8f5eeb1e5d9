import Dtdb.Sql.Cost
import Dtdb.Sql.Order

/-! # Statistics of an index

ANALYZE counts the entries of an index for each prefix of its keys and keeps the most frequent
prefixes. -/

namespace Dtdb.Sql

open Dtdb.Lib Dtdb.Storage Dtdb.Relational List

/-- `McvEntry`: a prefix and how many entries have it. -/
abbrev McvEntry := List DbKey × Nat

/-- The order of the list: by descending count, then by prefix. -/
def byFreq : McvEntry → McvEntry → Ordering :=
  compareLex (fun a b => compare b.2 a.2) fun a b => compare a.1 b.1

/-- The order of a hash map, and within the two parts of `select_nth_unstable_by`. -/
structure StdOrders where
  hashOrder : List McvEntry → List McvEntry
  selectNth : Nat → List McvEntry → List McvEntry
  perm_hashOrder : ∀ l, (hashOrder l).Perm l
  perm_selectNth : ∀ n l, (selectNth n l).Perm l
  selectNth_le : ∀ n l, n < l.length → ∀ a ∈ (selectNth n l).take n, ∀ b ∈ (selectNth n l).drop n,
    (byFreq a b).isLE

def mcvListCap : Nat := 256

def keyPrefix : DbKey → Option (List DbKey)
  | .composite parts => if parts.isEmpty then none else some parts.dropLast
  | _ => none

def countPrefix (counts : SortedMap (List DbKey) Nat) (p : List DbKey) : SortedMap (List DbKey) Nat :=
  counts.insert p ((counts.get p).getD 0 + 1)

/-- The statistics that `analyze_table` gathers of an index. -/
def analyzeIndex (o : StdOrders) (lo hi : DbKey) (contents : SortedMap DbKey Stored) : IndexStats :=
  let keys := (contents.entries.filter fun x => lo ≤ x.1 ∧ x.1 ≤ hi).map Prod.fst
  let counts := o.hashOrder ((keys.filterMap keyPrefix).foldl countPrefix .empty).entries
  let kept := if mcvListCap < counts.length then (o.selectNth mcvListCap counts).take mcvListCap
    else counts
  { entryCount := keys.length
    avgRowsPerValue := if 0 < counts.length then
      fdiv (nearest keys.length) (nearest counts.length) else 0
    mostCommon := arrange byFreq kept }

theorem getD_counts (counts : SortedMap (List DbKey) Nat) (ps : List (List DbKey)) (p : List DbKey) :
    ((ps.foldl countPrefix counts).get p).getD 0 = (counts.get p).getD 0 + ps.count p := by
  induction ps generalizing counts with
  | nil => simp
  | cons q ps ih =>
    rw [foldl_cons, ih, countPrefix, SortedMap.get_insert]
    by_cases hq : p = q
    · simp [hq]
      omega
    · simp [hq, Ne.symm hq]

theorem mem_of_count {ps : List (List DbKey)} {p : List DbKey} (h : 0 < ps.count p) :
    (p, ps.count p) ∈ (ps.foldl countPrefix .empty).entries := by
  have hcount := getD_counts .empty ps p
  refine SortedMap.mem_entries.2 ?_
  cases hget : (ps.foldl countPrefix .empty).get p with
  | none => simp [hget] at hcount; omega
  | some n => simpa [hget] using hcount

instance : Std.TransCmp byFreq :=
  have := transCmp_on (Prod.snd : McvEntry → Nat) fun a b => compare b a
  have := transCmp_on (Prod.fst : McvEntry → List DbKey) compare
  inferInstanceAs (Std.TransCmp (compareLex _ _))

def StdOrders.sorting : StdOrders where
  hashOrder := id
  selectNth _ := arrange byFreq
  perm_hashOrder _ := .rfl
  perm_selectNth _ := perm_arrange
  selectNth_le n l _ := by
    have h := arranged_arrange (c := byFreq) l
    rw [← take_append_drop n (arrange byFreq l)] at h
    exact (pairwise_append.1 h).2.2

def pairKey (pk : Bool) : DbKey := .composite [.bool true, .bool pk]

def pairIndex : SortedMap DbKey Stored :=
  (SortedMap.empty.insert (pairKey false) .null).insert (pairKey true) .null

end Dtdb.Sql
