import Dtdb.Lib.Find
import Dtdb.Relational.Alter

/-! # Layouts and locality groups

The layout stored with an SSTable lists all columns of the table, but the rewriter is given the
sub-row of one group. -/

namespace Dtdb.Relational

open Dtdb.Lib Dtdb.Storage List Option Function

def Column.stored (c : Column) : StoredColumn := ⟨c.id, c.defaultValue⟩

namespace Schema

variable {s s' : Schema} {c : Column} {g : String}

/-! ## Splitting a row that is given by its columns -/

/-- The first column of a name, which is the one that `split_row` reads. -/
def firstColumn (s : Schema) (c : Column) : Column :=
  (s.columns.find? fun d => d.name = c.name).getD c

theorem find?_of_columnIndex (s : Schema) (v : Column → DbValue) (name : String) :
    ((s.columnIndex name).bind fun i => (s.columns.map v)[i]?)
      = (s.columns.find? fun d => d.name = name).map v := by
  unfold columnIndex
  induction s.columns with
  | nil => rfl
  | cons d columns ih =>
    by_cases hd : d.name = name
    · simp [findIdx?_cons, hd]
    · rw [find?_cons_of_neg (by simpa using hd), ← ih, findIdx?_cons]
      simp [hd, bind_map]

theorem find?_name (hc : c ∈ s.columns) :
    s.columns.find? (fun d => d.name = c.name) = some (s.firstColumn c) := by
  unfold firstColumn
  cases hfind : s.columns.find? fun d => d.name = c.name with
  | some d => rfl
  | none => exact absurd (decide_eq_true rfl) (find?_eq_none.1 hfind c hc)

theorem firstColumn_mem (hc : c ∈ s.columns) : s.firstColumn c ∈ s.columns :=
  mem_of_find?_eq_some (find?_name hc)

theorem firstColumn_name (hc : c ∈ s.columns) : (s.firstColumn c).name = c.name := by
  simpa using find?_some (find?_name hc)

theorem splitRow_map (s : Schema) (v : Column → DbValue) (g : String) :
    s.splitRow (s.columns.map v) g
      = some ((s.groupColumns g).map fun c => v (s.firstColumn c)) := by
  unfold splitRow
  rw [mapM_eq_some_iff, List.map_map]
  refine map_congr_left fun c hc => ?_
  rw [find?_of_columnIndex, find?_name (mem_of_mem_filter hc)]
  rfl

/-! ## Reading by column id -/

theorem findIdx?_id (hf : s.Fresh) {i : Nat} (hi : s.columns[i]? = some c) :
    s.currentLayout.findIdx? (fun d => d.id = c.id) = some i := by
  have hids : (s.currentLayout.map StoredColumn.id).Nodup := by
    rw [currentLayout, List.map_map]
    exact hf.nodup
  have hget : s.currentLayout[i]? = some c.stored := by
    rw [currentLayout, getElem?_map, hi]
    rfl
  exact findIdx?_of_nodup_map hids hget

theorem read_map (hf : s.Fresh) (hc : c ∈ s.columns) (v : Column → DbValue) {d : StoredColumn}
    (hd : d.id = c.id) : s.currentLayout.read (s.columns.map v) d = v c := by
  obtain ⟨i, hi⟩ := mem_iff_getElem?.1 hc
  unfold StoredLayout.read
  rw [hd, findIdx?_id hf hi, bind_some, getElem?_map, hi]
  rfl

theorem read_of_new {d : StoredColumn} (hd : ∀ c ∈ s.columns, c.id ≠ d.id) (row : Row) :
    s.currentLayout.read row d = d.default := by
  have hnone : s.currentLayout.findIdx? (fun c => c.id = d.id) = none := by
    unfold currentLayout
    simpa using hd
  unfold StoredLayout.read
  rw [hnone]
  rfl

theorem exists_eq_map (hf : s.Fresh) {row : Row} (hlen : row.length = s.columns.length) :
    ∃ v, row = s.columns.map v := by
  refine ⟨fun c => s.currentLayout.read row c.stored, ext_getElem? fun i => ?_⟩
  rw [getElem?_map]
  cases hi : s.columns[i]? with
  | none =>
    rw [getElem?_eq_none_iff] at hi
    exact getElem?_eq_none_iff.2 (hlen ▸ hi)
  | some c =>
    obtain ⟨hlt, -⟩ := List.getElem?_eq_some_iff.mp hi
    have hrow : row[i]? = some (row.get ⟨i, hlen ▸ hlt⟩) := getElem?_eq_getElem _
    show row[i]? = some (((s.currentLayout.findIdx? fun d => d.id = c.id).bind _).getD _)
    rw [findIdx?_id hf hi, bind_some, hrow]
    rfl

theorem rewrite_of_ne (h : s.currentLayout ≠ s'.currentLayout) (row : Row) :
    rewrite (some s.currentLayout) (some s'.currentLayout) row
      = s'.columns.map fun d => s.currentLayout.read row d.stored := by
  unfold rewrite
  rw [if_neg (by simpa using h)]
  show (s'.columns.map _).map _ = _
  rw [List.map_map]
  rfl

/-! ## The same layout -/

theorem Kept.of_layout_eq {kept news : List Column} {f : String → String} (hf : s.Fresh)
    (h : Kept s s' kept f news) (heq : s.currentLayout = s'.currentLayout) :
    kept = s.columns ∧ news = [] := by
  have hids : s'.columns.map Column.id = s.columns.map Column.id := by
    have hmap := congrArg (map StoredColumn.id) heq
    simpa [currentLayout, comp_def] using hmap.symm
  have hnews : news = [] := by
    refine eq_nil_iff_forall_not_mem.2 fun c hc => ?_
    have hmem : c.id ∈ s'.columns.map Column.id :=
      mem_map_of_mem (h.columns ▸ mem_append_right _ hc)
    rw [hids] at hmem
    obtain ⟨d, hd, hid⟩ := mem_map.1 hmem
    exact absurd (hf.lt d hd) (not_lt.2 (hid ▸ h.fresh c hc))
  refine ⟨h.sublist.eq_of_length ?_, hnews⟩
  have hlen := congrArg length hids
  rw [h.columns, hnews] at hlen
  simpa using hlen

theorem splitRow_of_layout_eq (hf : s.Fresh) (hd : s.Descends s')
    (heq : s.currentLayout = s'.currentLayout) (v : Column → DbValue) (g : String) :
    s'.splitRow (s.columns.map v) g = s.splitRow (s.columns.map v) g := by
  obtain ⟨kept, f, news, hk⟩ := hd
  obtain ⟨rfl, rfl⟩ := hk.of_layout_eq hf heq
  have hcols : s'.columns = s.columns.map fun c => { c with name := f c.name } := by
    simpa using hk.columns
  have hgroup : s'.groupColumns g = (s.groupColumns g).map fun c => { c with name := f c.name } := by
    unfold groupColumns
    rw [hcols, List.filter_map]
    rfl
  have hindex : ∀ c ∈ s.columns, s'.columnIndex (f c.name) = s.columnIndex c.name := by
    intro c hc
    unfold columnIndex
    rw [hcols, findIdx?_map]
    refine findIdx?_congr fun d hd => ?_
    simp only [comp_apply, decide_eq_decide]
    exact ⟨hk.inj d hd c hc, fun h => by rw [h]⟩
  unfold splitRow
  rw [hgroup, List.mapM_map]
  exact mapM_congr fun c hc => by
    show (s'.columnIndex (f c.name)).bind _ = _
    rw [hindex c (mem_of_mem_filter hc)]

/-! ## One group -/

variable {d : Column}

theorem Fresh.eq_of_id (hf : s.Fresh) (hc : c ∈ s.columns) (hd : d ∈ s.columns) (h : c.id = d.id) :
    c = d :=
  inj_on_of_nodup_map hf.nodup hc hd h

/-- A column that is left although the first of its name is gone. -/
def Shadowed (s s' : Schema) : Prop :=
  ∃ c ∈ s.columns, (∃ d ∈ s'.columns, d.id = c.id) ∧ ∀ d ∈ s'.columns, d.id ≠ (s.firstColumn c).id

section

variable {kept news : List Column} {f : String → String}

theorem Kept.cases (h : Kept s s' kept f news) (hd : d ∈ s'.columns) :
    (∃ c ∈ kept, d = { c with name := f c.name }) ∨ d ∈ news := by
  rw [h.columns] at hd
  refine (mem_append.1 hd).imp_left fun hd => ?_
  obtain ⟨c, hc, rfl⟩ := mem_map.1 hd
  exact ⟨c, hc, rfl⟩

theorem Kept.mem (h : Kept s s' kept f news) (hc : c ∈ kept) :
    { c with name := f c.name } ∈ s'.columns :=
  h.columns ▸ mem_append_left _ (mem_map_of_mem hc)

theorem Kept.read_kept (hf : s.Fresh) (h : Kept s s' kept f news) (hc : c ∈ kept)
    (v : Column → DbValue) :
    s.currentLayout.read (s.columns.map v) { c with name := f c.name }.stored = v c :=
  read_map hf (h.sublist.subset hc) v rfl

theorem Kept.read_new (hf : s.Fresh) (h : Kept s s' kept f news) (hd : d ∈ news) (row : Row) :
    s.currentLayout.read row d.stored = d.default :=
  read_of_new (fun c hc heq => absurd (hf.lt c hc) (not_lt.2 (heq ▸ h.fresh d hd))) row

theorem Kept.firstColumn_kept (hf : s.Fresh) (h : Kept s s' kept f news) (hc : c ∈ kept) :
    ∃ b ∈ kept, s'.firstColumn { c with name := f c.name } = { b with name := f b.name } := by
  have hmem := h.mem hc
  rcases h.cases (firstColumn_mem hmem) with hb | hnew
  · exact hb
  · -- a column that was added has no other of its name
    have hid := h.alone _ hnew _ hmem (firstColumn_name hmem).symm
    exact absurd (hf.lt c (h.sublist.subset hc)) (not_lt.2 (hid ▸ h.fresh _ hnew))

theorem Kept.firstColumn_eq (hf : s.Fresh) (h : Kept s s' kept f news) (hc : c ∈ kept)
    (hfirst : s.firstColumn c ∈ kept) :
    s'.firstColumn { c with name := f c.name }
      = { s.firstColumn c with name := f (s.firstColumn c).name } := by
  have hfind : kept.find? (fun d => d.name = c.name) = some (s.firstColumn c) :=
    find?_of_sublist h.sublist (hf.nodup.of_map _) (find?_name (h.sublist.subset hc)) hfirst
  have hcongr : kept.find? (fun d => f d.name = f c.name) = some (s.firstColumn c) := by
    rw [← hfind]
    refine List.find?_congr fun d hd => ?_
    simp only [decide_eq_decide]
    exact ⟨h.inj d hd c hc, fun heq => by rw [heq]⟩
  unfold firstColumn at hcongr ⊢
  rw [h.columns, find?_append, find?_map]
  simp only [comp_def]
  rw [hcongr]
  rfl

/-! ## The rewriter on sub-rows -/

theorem Kept.group_eq (h : Kept s s' kept f news) (hd : d ∈ s'.columns)
    (hall : (∀ c ∈ s.columns, c.group = g) ∧ ∀ c ∈ s'.columns, c.group = g) {g' : String}
    (hg : g' ∈ s.localityGroups ++ s'.localityGroups) : g' = g := by
  have hdg := hall.2 d hd
  have hnonempty : s'.columns.isEmpty = false := by
    rw [isEmpty_eq_false_iff]
    exact ne_nil_of_mem hd
  rcases mem_append.1 hg with hg | hg
  · unfold localityGroups at hg
    split at hg
    · next hempty =>
      -- all columns of the new schema were added
      rw [List.isEmpty_iff] at hempty
      have hkept : kept = [] := sublist_nil.1 (hempty ▸ h.sublist)
      rw [h.columns, hkept] at hd
      rw [mem_singleton.1 hg, ← hdg]
      exact (h.group d hd).symm
    · obtain ⟨c, hc, rfl⟩ := mem_map.1 (mem_dedup.1 hg)
      exact hall.1 c hc
  · unfold localityGroups at hg
    rw [if_neg (by rw [hnonempty]; exact Bool.false_ne_true)] at hg
    obtain ⟨c, hc, rfl⟩ := mem_map.1 (mem_dedup.1 hg)
    exact hall.2 c hc

theorem Kept.read_first (hf : s.Fresh) (hf' : s'.Fresh) (h : Kept s s' kept f news)
    (hshadow : ¬Shadowed s s') (v : Column → DbValue) (hd : d ∈ s'.columns) :
    s.currentLayout.read (s.columns.map fun c => v (s.firstColumn c)) d.stored
      = s.currentLayout.read (s.columns.map v) (s'.firstColumn d).stored := by
  rcases h.cases hd with ⟨c, hc, rfl⟩ | hnew
  · have hcs := h.sublist.subset hc
    have hfirst : s.firstColumn c ∈ kept := by
      by_contra hnot
      refine hshadow ⟨c, hcs, ⟨_, h.mem hc, rfl⟩, fun d hd heq => ?_⟩
      rcases h.cases hd with ⟨b, hb, rfl⟩ | hnew
      · exact hnot (hf.eq_of_id (h.sublist.subset hb) (firstColumn_mem hcs) heq ▸ hb)
      · exact absurd (hf.lt _ (firstColumn_mem hcs)) (not_lt.2 (heq ▸ h.fresh d hnew))
    rw [h.firstColumn_eq hf hc hfirst, h.read_kept hf hc, h.read_kept hf hfirst]
  · have hsame : s'.firstColumn d = d :=
      hf'.eq_of_id (firstColumn_mem hd) hd
        (h.alone d hnew _ (firstColumn_mem hd) (firstColumn_name hd))
    rw [hsame, h.read_new hf hnew, h.read_new hf hnew]

/-- The rewriter commutes with the split into locality groups. -/
def SplitsAlike (s s' : Schema) : Prop :=
  ∀ row : Row, row.length = s.columns.length → ∀ g ∈ s.localityGroups ++ s'.localityGroups,
    (s.splitRow row g).map (rewrite (some s.currentLayout) (some s'.currentLayout))
      = s'.splitRow (rewrite (some s.currentLayout) (some s'.currentLayout) row) g

def OneGroup (s s' : Schema) : Prop :=
  ∃ g, (∀ c ∈ s.columns, c.group = g) ∧ ∀ c ∈ s'.columns, c.group = g

theorem splitsAlike_columns (hne : s.currentLayout ≠ s'.currentLayout) (h : s.SplitsAlike s')
    (v : Column → DbValue) (hg : g ∈ s.localityGroups ++ s'.localityGroups) :
    (s'.columns.map fun d => s.currentLayout.read
        ((s.groupColumns g).map fun c => v (s.firstColumn c)) d.stored)
      = (s'.groupColumns g).map fun d =>
        s.currentLayout.read (s.columns.map v) (s'.firstColumn d).stored := by
  have heq := h (s.columns.map v) (length_map ..) g hg
  rw [splitRow_map, rewrite_of_ne hne, splitRow_map, map_some, rewrite_of_ne hne] at heq
  exact some.inj heq

theorem groupColumns_eq (h : ∀ c ∈ s.columns, c.group = g) : s.groupColumns g = s.columns :=
  filter_eq_self.2 fun c hc => decide_eq_true (h c hc)

theorem oneGroup_of_splitsAlike (hne : s.currentLayout ≠ s'.currentLayout) (hd : d ∈ s'.columns)
    (h : s.SplitsAlike s') : s.OneGroup s' := by
  have hall : ∀ g ∈ s.localityGroups ++ s'.localityGroups, ∀ c ∈ s'.columns, c.group = g := by
    intro g hg c hc
    have hlen := congrArg length (splitsAlike_columns hne h (fun _ => .null) hg)
    rw [length_map, length_map] at hlen
    exact of_decide_eq_true (length_filter_eq_length_iff.1 hlen.symm c hc)
  refine ⟨d.group, fun c hc => ?_, hall _ (mem_append_right _ (group_mem_localityGroups hd))⟩
  exact (hall _ (mem_append_left _ (group_mem_localityGroups hc)) d hd).symm

theorem not_shadowed_of_splitsAlike (hf : s.Fresh) (h : Kept s s' kept f news)
    (hne : s.currentLayout ≠ s'.currentLayout) (hall : s.SplitsAlike s') (hone : s.OneGroup s') :
    ¬Shadowed s s' := by
  obtain ⟨g, hg, hg'⟩ := hone
  rintro ⟨c, hc, ⟨d, hd, hid⟩, hgone⟩
  have hgroup : g ∈ s.localityGroups ++ s'.localityGroups := by
    refine mem_append_right _ ?_
    rw [← hg' d hd]
    exact group_mem_localityGroups hd
  -- a row that tells the first column of the name from the others
  have heq := splitsAlike_columns hne hall
    (fun x => if x.id = (s.firstColumn c).id then .bool true else .null) hgroup
  rw [groupColumns_eq hg, groupColumns_eq hg', map_inj_left] at heq
  specialize heq d hd
  rcases h.cases hd with ⟨b, hb, rfl⟩ | hnew
  · cases hf.eq_of_id (h.sublist.subset hb) hc hid
    obtain ⟨e, he, hfirst⟩ := h.firstColumn_kept hf hb
    rw [h.read_kept hf hb, hfirst, h.read_kept hf he, if_pos rfl, if_neg (hgone _ (h.mem he))] at heq
    cases heq
  · exact absurd (hf.lt c hc) (not_lt.2 (hid ▸ h.fresh d hnew))

end

end Schema

open Schema

/-- **Rewriting sub-rows is right exactly if** the layouts are the same, no column is left, or all
columns of both schemas are in one group (and no dropped column shadowed one of the same name). -/
theorem splitsAlike_iff {s s' : Schema} (hf : s.Fresh) {ops : List Alter}
    (h : s.alters ops = .ok s') :
    s.SplitsAlike s' ↔ s.currentLayout = s'.currentLayout ∨ s'.columns = [] ∨
      (s.OneGroup s' ∧ ¬Shadowed s s') := by
  obtain ⟨hf', hd⟩ := descends_of_alters hf h
  by_cases heq : s.currentLayout = s'.currentLayout
  · refine iff_of_true (fun row hlen g _ => ?_) (.inl heq)
    obtain ⟨v, rfl⟩ := exists_eq_map hf hlen
    have hrewrite : ∀ row, rewrite (some s.currentLayout) (some s'.currentLayout) row = row := fun row =>
      if_pos (congrArg some heq)
    rw [hrewrite, splitRow_of_layout_eq hf hd heq, show rewrite _ _ = id from funext hrewrite]
    exact map_id_apply ..
  obtain ⟨kept, f, news, hk⟩ := hd
  constructor
  · intro hall
    refine .inr (or_iff_not_imp_left.2 fun hne => ?_)
    obtain ⟨d, hd⟩ := exists_mem_of_ne_nil _ hne
    have hone := oneGroup_of_splitsAlike heq hd hall
    exact ⟨hone, not_shadowed_of_splitsAlike hf hk heq hall hone⟩
  · intro hcond row hlen g' hg'
    obtain ⟨v, rfl⟩ := exists_eq_map hf hlen
    rw [splitRow_map, rewrite_of_ne heq, splitRow_map, map_some, rewrite_of_ne heq]
    by_cases hempty : s'.columns = []
    · have hgroup : s'.groupColumns g' = [] := by
        unfold groupColumns
        rw [hempty]
        rfl
      rw [hgroup, hempty]
      rfl
    · obtain ⟨⟨g, hg⟩, hshadow⟩ := (hcond.resolve_left heq).resolve_left hempty
      obtain ⟨d, hd⟩ := exists_mem_of_ne_nil _ hempty
      cases hk.group_eq hd hg hg'
      rw [groupColumns_eq hg.1, groupColumns_eq hg.2]
      exact congrArg some (map_congr_left fun d hd => hk.read_first hf hf' hshadow v hd)

/-! ## Concrete schemas -/

def keyAndValue (group : Option String) : Schema :=
  .new [⟨0, "k", .string, true, false, none, none, false⟩, ⟨0, "v", .string, false, true, group, none, false⟩]

def addFlag : Alter := .addColumn false ⟨0, "w", .bool, false, true, none, some (.bool true), false⟩

def keyAndFlag : Schema :=
  ⟨[⟨0, "k", .string, true, false, none, none, false⟩, ⟨2, "w", .bool, false, true, none, some (.bool true), false⟩],
    3, []⟩

theorem keyAndFlag_splitsAlike :
    (keyAndValue none).alters [addFlag, .dropColumn "v"] = .ok keyAndFlag ∧
      (keyAndValue none).currentLayout ≠ keyAndFlag.currentLayout ∧
      (keyAndValue none).SplitsAlike keyAndFlag := by
  have halters : (keyAndValue none).alters [addFlag, .dropColumn "v"] = .ok keyAndFlag := rfl
  refine ⟨halters, by decide, (splitsAlike_iff (fresh_new _) halters).2 (.inr (.inr ⟨⟨"", ?_⟩, ?_⟩))⟩
  · decide
  · unfold Shadowed
    decide

/-- After `ADD COLUMN w DEFAULT true` the default group's sub-row of a row from before reads `NULL`
where `w` should read `true`. -/
theorem addFlag_not_splitsAlike : ∃ s', (keyAndValue (some "g")).alters [addFlag] = .ok s' ∧
    ((keyAndValue (some "g")).splitRow [.string "x", .string "a"] "").map
        (rewrite (some (keyAndValue (some "g")).currentLayout) (some s'.currentLayout))
      = some [.string "x", .null, .bool true] ∧
    s'.splitRow (rewrite (some (keyAndValue (some "g")).currentLayout) (some s'.currentLayout)
      [.string "x", .string "a"]) "" = some [.string "x", .bool true] ∧
    ¬(keyAndValue (some "g")).SplitsAlike s' := by
  refine ⟨_, rfl, by decide, by decide, fun h => ?_⟩
  exact absurd (h [.string "x", .string "a"] rfl "" (by decide)) (by decide)

end Dtdb.Relational
