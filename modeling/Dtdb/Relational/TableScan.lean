import Dtdb.Lib.Join
import Dtdb.Relational.Represents

/-! # Scanning a table

`filtered_scan` reads a range of keys from every group's engine and joins the sorted runs on their
keys.  The rows are those that `get` returns.
-/

namespace Dtdb.Relational

open Dtdb.Lib Dtdb.Storage List Option

/-! ## Full ranges -/

namespace DataType

/-- `NaiveDate::MIN` and `MAX`. -/
def minDate : NaiveDate := -96465292
def maxDate : NaiveDate := 95026236

def maxTime : NaiveTime := toLex (86399, 999999999)

def maxDecimal : ℚ := 79228162514264337593543950335

def keyBounds : DataType → DbKey × DbKey
  | .int => (.int ⟨-2 ^ 63, by decide⟩, .int ⟨2 ^ 63 - 1, by decide⟩)
  | .bool => (.bool false, .bool true)
  | .date => (.date minDate, .date maxDate)
  | .time => (.time (toLex (0, 0)), .time maxTime)
  | .timestamp =>
    (.timestamp (toLex (minDate, toLex (0, 0))), .timestamp (toLex (maxDate, maxTime)))
  | .decimal => (.decimal (-maxDecimal), .decimal maxDecimal)
  | _ => (.string "", .string (String.singleton (Char.ofNat 0x10ffff)))

end DataType

/-- `primary_key_bounds`; `none` without a primary key. -/
def Schema.primaryKeyBounds (s : Schema) : Option (DbKey × DbKey) :=
  match s.primaryKey with
  | [] => none
  | [x] => some x.1.dataType.keyBounds
  | pk => some (.composite (pk.map fun x => x.1.dataType.keyBounds.1),
      .composite (pk.map fun x => x.1.dataType.keyBounds.2))

/-! ## The scan -/

def Stored.row? : Stored → Option Row
  | .row r => some r
  | _ => none

def scanRows (m : Store) (lo hi : DbKey) : List (DbKey × Row) :=
  (m.entries.filter fun x => lo ≤ x.1 ∧ x.1 ≤ hi).filterMap fun x => x.2.row?.map (x.1, ·)

def slotRow (groups : List String) (parts : List (Option Row)) (g : String) : Option Row :=
  ((groups.zip parts).lookup g).join

namespace Table

/-- `filtered_scan`, of all columns. -/
def filteredScan (t : Table) (e : Engines) (lo hi : DbKey) : List (DbKey × Row) :=
  (join (t.schema.localityGroups.map fun g => scanRows (e (.group g)) lo hi)).map fun x =>
    (x.1, t.schema.mergeRows (slotRow t.schema.localityGroups x.2))

end Table

/-! ## What it returns -/

theorem ascending_scanRows (m : Store) (lo hi : DbKey) : Ascending (scanRows m lo hi) := by
  refine List.Pairwise.filterMap _ (fun x y hxy a ha b hb => ?_) (m.ascending.filter _)
  obtain ⟨r, -, rfl⟩ := map_eq_some_iff.1 ha
  obtain ⟨r', -, rfl⟩ := map_eq_some_iff.1 hb
  exact hxy

theorem lookup_scanRows (m : Store) (lo hi k : DbKey) :
    (scanRows m lo hi).lookup k = if lo ≤ k ∧ k ≤ hi then (m.get k).bind Stored.row? else none := by
  have hasc := m.ascending.filter fun x => decide (lo ≤ x.1 ∧ x.1 ≤ hi)
  unfold scanRows
  rw [lookup_filterMap hasc.nodup (fun x => x.2.row?), m.ascending.lookup_filter]
  show ((m.get k).filter _).bind _ = _
  cases m.get k with
  | none => simp
  | some v =>
    by_cases hk : lo ≤ k ∧ k ≤ hi
    · simp [Option.filter, hk]
    · simp [hk]

namespace Table

variable {t : Table} {e : Engines} {lo hi : DbKey}

theorem bind_row? (e : Engines) (pk : DbKey) (g : String) :
    ((e (.group g)).get pk).bind Stored.row? = groupRow e pk g := by
  unfold groupRow
  cases (e (.group g)).get pk with
  | none => rfl
  | some v => cases v <;> rfl

theorem slotRow_map {groups : List String} (f : String → Option Row) {g : String} (hg : g ∈ groups) :
    slotRow groups (groups.map f) g = f g := by
  have hlookup : (groups.zip (groups.map f)).lookup g = some (f g) := by
    induction groups with
    | nil => cases hg
    | cons a groups ih =>
      rw [map_cons, zip_cons_cons, lookup_cons_eq_ite]
      split
      · next h => rw [h]
      · next h => exact ih ((mem_cons.1 hg).resolve_left h)
  unfold slotRow
  rw [hlookup]
  rfl

theorem ascending_filteredScan (t : Table) (e : Engines) (lo hi : DbKey) :
    Ascending (t.filteredScan e lo hi) := by
  have hasc : Ascending (join (t.schema.localityGroups.map fun g => scanRows (e (.group g)) lo hi)) :=
    ascending_join_map _ fun g => ascending_scanRows ..
  exact pairwise_map.2 hasc

/-- **A scan returns the rows of the range** that `get` returns. -/
theorem mem_filteredScan {x : DbKey × Row} :
    x ∈ t.filteredScan e lo hi ↔ (lo ≤ x.1 ∧ x.1 ≤ hi) ∧ t.get e x.1 = some x.2 := by
  have hasc : ∀ l ∈ t.schema.localityGroups.map fun g => scanRows (e (.group g)) lo hi,
      Ascending l := fun l hl => by
    obtain ⟨g, -, rfl⟩ := mem_map.1 hl
    exact ascending_scanRows ..
  have hlookup : ∀ k, lo ≤ k ∧ k ≤ hi → ∀ g,
      (scanRows (e (.group g)) lo hi).lookup k = groupRow e k g := by
    intro k hk g
    rw [lookup_scanRows, if_pos hk, bind_row?]
  have hmerge : ∀ k, lo ≤ k ∧ k ≤ hi → t.schema.mergeRows (slotRow t.schema.localityGroups
      ((t.schema.localityGroups.map fun g => scanRows (e (.group g)) lo hi).map (·.lookup k)))
        = t.schema.mergeRows (groupRow e k) := by
    intro k hk
    refine map_congr_left fun c hc => ?_
    rw [List.map_map, slotRow_map _ (Schema.group_mem_localityGroups hc)]
    simp [Function.comp_apply, hlookup k hk]
  unfold filteredScan get mergeParts
  rw [List.mem_map]
  constructor
  · rintro ⟨y, hy, rfl⟩
    obtain ⟨hparts, l, hl, hsome⟩ := (mem_join hasc).1 hy
    obtain ⟨g, hg, rfl⟩ := mem_map.1 hl
    have hk : lo ≤ y.1 ∧ y.1 ≤ hi := by
      by_contra hk
      rw [lookup_scanRows, if_neg hk] at hsome
      cases hsome
    rw [hlookup _ hk] at hsome
    refine ⟨hk, ?_⟩
    rw [if_pos (any_eq_true.2 ⟨g, hg, hsome⟩), hparts, hmerge _ hk]
  · rintro ⟨hk, hget⟩
    obtain ⟨hany, hget⟩ := ite_none_right_eq_some.1 hget
    obtain ⟨g, hg, hsome⟩ := any_eq_true.1 hany
    refine ⟨(x.1, (t.schema.localityGroups.map fun g => scanRows (e (.group g)) lo hi).map
      (·.lookup x.1)), (mem_join hasc).2 ⟨rfl, _, mem_map_of_mem hg, ?_⟩, ?_⟩
    · rw [hlookup _ hk]
      exact hsome
    · exact Prod.ext rfl ((hmerge _ hk).trans (some.inj hget))

theorem lookup_filteredScan (k : DbKey) :
    (t.filteredScan e lo hi).lookup k = if lo ≤ k ∧ k ≤ hi then t.get e k else none := by
  have hasc := ascending_filteredScan t e lo hi
  ext row
  rw [← hasc.mem_iff, mem_filteredScan]
  split
  · next hk => simp [hk]
  · next hk => simp [hk]

end Table

end Dtdb.Relational
