import Dtdb.Relational.DdlChange

/-! # Opening a database after changes of the catalog

Closing the database moves what is in the memtables, and opening it replays the log, whose rows the
engines hold already. -/

namespace Dtdb.Relational

open Dtdb.Lib Dtdb.Storage List Option Function

theorem Table.reopened_eq {t : Table} (h : t.groups = t.schema.localityGroups) : t.reopened = t := by
  obtain ⟨s, groups, hcovers, hnodup, hindexes, hindexable⟩ := t
  obtain rfl : groups = s.localityGroups := h
  rfl

/-! ## One table -/

theorem TableOk.represents_reopened {tok : Tokenizers} {t : Table} {d : TableData}
    {log : List TableWrites} (h : TableOk tok t d log) {rows : DbKey → Option Row}
    (hrep : Represents tok t (t.norm (d.engines t.schema)) rows) :
    Represents tok t (t.norm (d.reopened.engines t.schema)) rows where
  width := hrep.width
  groups g hg pk := by
    have hget : (d.reopened (.group g)).get pk
        = ((d (.group g)).get pk).map (TableData.Place.unload none) := SortedMap.get_mapValues ..
    rw [← hrep.groups g hg pk, TableData.get_norm_group, TableData.get_norm_group, hget]
    cases hx : (d (.group g)).get pk with
    | none => rfl
    | some x =>
      obtain ⟨p, v⟩ := x
      refine congrArg some ?_
      cases v with
      | row r => exact (h.placed g hg pk p r hx).fit_unload h.fresh hg
      | null | positions ps => cases p <;> rfl
  indexes idx hidx key := hrep.indexes idx hidx key

/-- **Replaying the log on a table that was closed** shows the same. -/
theorem TableOk.replay {tok : Tokenizers} {t : Table} {d : TableData} {log : List TableWrites}
    (h : TableOk tok t d log) :
    ∃ e, t.replay tok log (d.reopened.engines t.schema) = some e ∧
      (∀ pk, t.get e pk = t.get (d.engines t.schema) pk) ∧
      ∀ i, e (.index i) = d.engines t.schema (.index i) := by
  obtain ⟨base, hwide, hexact, hrep⟩ := h.exact
  have hclosed := h.represents_reopened hrep
  have hfit : t.replay tok (log.map (·.map (fit t.schema.columns)))
      (t.norm (d.reopened.engines t.schema)) = _ :=
    Table.replay_fit h.names h.loggable (d.reopened.engines t.schema)
  rw [hclosed.replay_again (hexact.faithful hwide) hwide] at hfit
  obtain ⟨e, he, hnorm⟩ := map_eq_some_iff.1 hfit.symm
  refine ⟨e, he, fun pk => ?_, fun i => ?_⟩
  · rw [hrep.get_norm h.names, ← t.get_norm h.names, hnorm, t.get_norm h.names,
      hclosed.get_norm h.names]
  · exact congrFun hnorm (.index i)

namespace DdlDb

variable {tok : Tokenizers} {s s' : DdlDb} {name : String} {t : Table}

/-- The log is one of commits, and every table is in step with it. -/
structure Inv (tok : Tokenizers) (s : DdlDb) : Prop where
  nodup : ∀ r ∈ s.log, (r.mutations.map Prod.fst).Nodup
  old : ∀ r ∈ s.log, ∀ name, name ∉ r.mutations.map Prod.fst → (r.forTable name).old = none
  tables : ∀ name t, s.tables.get name = some t →
    TableOk tok t (s.data name) (s.log.map (·.forTable name))

theorem Inv.empty (tok : Tokenizers) : DdlDb.empty.Inv tok := ⟨nofun, nofun, nofun⟩

theorem engines_eq (h : s.tables.get name = some t) : s.engines name = (s.data name).engines t.schema := by
  unfold engines
  rw [h]

/-! ## Commits -/

theorem writes_of_lookup {r : Prepared} {ws : List (DbKey × Option Row)}
    (h : r.mutations.lookup name = some ws) : (r.forTable name).writes = ws := by
  unfold Prepared.forTable
  rw [h]
  rfl

variable {mutations : List (String × List (DbKey × Option Row))}

theorem old_prepared {txId : Nat} (hnd : (mutations.map Prod.fst).Nodup) :
    ((s.prepared txId mutations).forTable name).old
      = (mutations.lookup name).bind fun ws => s.tableOldRows (name, ws) :=
  lookup_filterMap hnd s.tableOldRows name

theorem oldRow_prepared {txId : Nat} (hnd : (mutations.map Prod.fst).Nodup)
    (ht : s.tables.get name = some t) {ws : List (DbKey × Option Row)}
    (hws : mutations.lookup name = some ws) (hkeys : (ws.map Prod.fst).Nodup)
    {x : DbKey × Option Row} (hx : x ∈ ws) :
    ((s.prepared txId mutations).forTable name).oldRow x.1 = t.get (s.engines name) x.1 := by
  have hlookup : (ws.filterMap fun w => (t.get (s.engines name) w.1).map (w.1, ·)).lookup x.1
      = t.get (s.engines name) x.1 := by
    rw [lookup_filterMap hkeys fun w => t.get (s.engines name) w.1, lookup_of_mem hkeys hx]
    rfl
  unfold TableWrites.oldRow
  rw [old_prepared hnd, hws, bind_some]
  unfold tableOldRows
  rw [ht, bind_some]
  split
  · next hnil =>
    rw [hnil] at hlookup
    exact hlookup
  · exact hlookup

theorem length_rows_prepared {txId : Nat} (hnd : (mutations.map Prod.fst).Nodup)
    (ht : s.tables.get name = some t) {ws : List (DbKey × Option Row)}
    (hws : mutations.lookup name = some ws) (haccepts : ∀ w ∈ ws, t.schema.accepts w = true) :
    ∀ row ∈ ((s.prepared txId mutations).forTable name).rows,
      row.length = t.schema.columns.length := by
  intro row hrow
  unfold TableWrites.rows at hrow
  rw [writes_of_lookup hws, old_prepared hnd, hws, bind_some] at hrow
  rcases mem_append.1 hrow with hrow | hrow
  · obtain ⟨⟨pk, w⟩, hw, hsome⟩ := mem_filterMap.1 hrow
    cases hsome
    exact Schema.length_of_accepts (haccepts _ hw)
  · unfold tableOldRows at hrow
    rw [ht, bind_some] at hrow
    obtain ⟨x, hx, rfl⟩ := mem_map.1 hrow
    have hmem : x ∈ ws.filterMap fun w => (t.get (s.engines name) w.1).map (w.1, ·) := by
      split at hx
      · cases hx
      · exact hx
    obtain ⟨w, -, hw⟩ := mem_filterMap.1 hmem
    obtain ⟨row, hget, rfl⟩ := map_eq_some_iff.1 hw
    exact Table.length_get hget

theorem Inv.commit (h : s.Inv tok) {txId : Nat} (hs : s.commit tok txId mutations = some s') :
    s'.Inv tok := by
  obtain ⟨hvalid, hs⟩ := ite_none_right_eq_some.1 hs
  obtain ⟨bs, hbs, rfl⟩ := map_eq_some_iff.1 hs
  unfold validMutations at hvalid
  rw [Bool.and_eq_true, decide_eq_true_eq, List.all_eq_true] at hvalid
  obtain ⟨hnd, hvalid⟩ := hvalid
  have hnames : bs.map Prod.fst = mutations.map Prod.fst := map_of_mapM hbs fun x y hy => by
    obtain ⟨t, -, hy⟩ := bind_eq_some_iff.1 hy
    obtain ⟨b, -, rfl⟩ := map_eq_some_iff.1 hy
    rfl
  refine ⟨fun r hr => ?_, fun r hr name hname => ?_, fun name t ht => ?_⟩
  · rcases mem_append.1 hr with hr | hr
    · exact h.nodup r hr
    · cases mem_singleton.1 hr
      exact hnd
  · rcases mem_append.1 hr with hr | hr
    · exact h.old r hr name hname
    · cases mem_singleton.1 hr
      have hnone : mutations.lookup name = none := lookup_eq_none.2 fun x hx heq =>
        hname (mem_map.2 ⟨x, hx, heq⟩)
      rw [old_prepared hnd, hnone]
      rfl
  · change s.tables.get name = some t at ht
    have hok := h.tables name t ht
    dsimp only
    rw [map_append]
    cases hws : mutations.lookup name with
    | none =>
      have hnone : bs.lookup name = none := by
        refine lookup_eq_none.2 fun x hx heq => ?_
        have hmem : name ∈ mutations.map Prod.fst := hnames ▸ mem_map.2 ⟨x, hx, heq⟩
        obtain ⟨y, hy, hyname⟩ := mem_map.1 hmem
        exact lookup_eq_none.1 hws y hy hyname
      rw [hnone]
      refine hok.quiet ?_ ?_
      · show (mutations.lookup name).getD [] = []
        rw [hws]
        rfl
      · rw [old_prepared hnd, hws]
        rfl
    | some ws =>
      have hmem := mem_of_lookup hws
      obtain ⟨y, hy, hbatch⟩ := exists_of_mapM hbs hmem
      obtain ⟨t', ht', hbatch⟩ := bind_eq_some_iff.1 hbatch
      cases ht.symm.trans ht'
      obtain ⟨b, hb, rfl⟩ := map_eq_some_iff.1 hbatch
      have hlookup : bs.lookup name = some b := lookup_of_mem (hnames ▸ hnd) hy
      rw [hlookup]
      have hx := hvalid _ hmem
      rw [Bool.and_eq_true, decide_eq_true_eq, ht, any_some, List.all_eq_true] at hx
      obtain ⟨hkeys, haccepts⟩ := hx
      have hwrites : ((s.prepared txId mutations).forTable name).writes = ws :=
        writes_of_lookup hws
      refine hok.commit ?_ (length_rows_prepared hnd ht hws haccepts) (fun x hx => ?_) ?_
      · rw [hwrites]
        exact hkeys
      · rw [hwrites] at hx
        rw [oldRow_prepared hnd ht hws hkeys hx, engines_eq ht]
      · rw [hwrites]
        exact hb

/-! ## Changes of the catalog -/

theorem Inv.setTable (h : s.Inv tok) {d : TableData}
    (ht : TableOk tok t d (s.log.map (·.forTable name))) : (s.setTable name t d).Inv tok := by
  refine ⟨h.nodup, h.old, fun name' t' ht' => ?_⟩
  change (s.tables.insert name t).get name' = some t' at ht'
  show TableOk tok t' (update s.data name d name') _
  by_cases hname : name' = name
  · subst hname
    rw [SortedMap.get_insert_self] at ht'
    cases ht'
    rw [update_self]
    exact ht
  · rw [SortedMap.get_insert_of_ne _ _ hname] at ht'
    rw [update_of_ne hname]
    exact h.tables name' t' ht'

theorem Inv.createTable (h : s.Inv tok) {columns : List Column}
    (hsafe : s.StepSafe (.createTable name columns)) (hs : s.createTable name columns = some s') :
    s'.Inv tok := by
  unfold DdlDb.createTable at hs
  split at hs
  · cases hs
  · cases hs
    refine h.setTable (.create hsafe.1 fun w hw => ?_)
    obtain ⟨r, hr, rfl⟩ := mem_map.1 hw
    have hname := hsafe.2 r hr
    refine ⟨?_, h.old r hr name hname⟩
    unfold Prepared.forTable
    rw [lookup_eq_none.2 fun x hx heq => hname (mem_map.2 ⟨x, hx, heq⟩)]
    rfl

theorem Inv.dropTable (h : s.Inv tok) (hs : s.dropTable name = some s') : s'.Inv tok := by
  obtain ⟨t, -, rfl⟩ := map_eq_some_iff.1 hs
  refine ⟨h.nodup, h.old, fun name' t' ht' => ?_⟩
  rw [SortedMap.get_erase] at ht'
  split at ht'
  · cases ht'
  · next hname =>
    show TableOk tok t' (update s.data name .empty name') _
    rw [update_of_ne hname]
    exact h.tables name' t' ht'

theorem Inv.flush (h : s.Inv tok) (ht : s.tables.get name = some t) (group : String)
    (keys : List DbKey) : Inv tok { s with
      data := update s.data name ((s.data name).flush t.schema group keys) } := by
  refine ⟨h.nodup, h.old, fun name' t' ht' => ?_⟩
  show TableOk tok t' (update s.data name _ name') _
  by_cases hname : name' = name
  · subst hname
    cases ht.symm.trans ht'
    rw [update_self]
    exact (h.tables name' t ht).flush group keys
  · rw [update_of_ne hname]
    exact h.tables name' t' ht'

theorem mem_loggedRows {w : TableWrites} (hw : w ∈ s.log.map (·.forTable name)) {row : Row}
    (hrow : row ∈ w.rows) : row ∈ s.loggedRows name := by
  obtain ⟨r, hr, rfl⟩ := mem_map.1 hw
  exact mem_flatMap.2 ⟨r, hr, hrow⟩

theorem Inv.alter (h : s.Inv tok) {op : Alter} {d : TableData}
    (hs : s.alter name t op d = some s') (hok : ∀ {schema t'}, t.schema.alter op = .ok schema →
      t'.schema = schema → t'.groups = t.groups → TableOk tok t' d (s.log.map (·.forTable name))) :
    s'.Inv tok := by
  unfold DdlDb.alter at hs
  split at hs
  · next schema halter =>
    obtain ⟨t', ht', rfl⟩ := map_eq_some_iff.1 hs
    obtain ⟨hschema, hgroups⟩ := Table.withSchema_eq ht'
    exact h.setTable (hok halter hschema hgroups)
  · cases hs

theorem Inv.addColumn (h : s.Inv tok) {c : Column} (hsafe : s.StepSafe (.addColumn name c))
    (ht : s.tables.get name = some t) {isEmpty : Bool}
    (hs : s.alter name t (.addColumn isEmpty c) (s.data name) = some s') : s'.Inv tok := by
  refine h.alter hs fun halter hschema hgroups => ?_
  rcases Schema.alter_cases halter with ⟨_, c', heq, hname, hgroup, rfl⟩ | ⟨_, _, heq, -⟩ |
    ⟨_, _, heq, -⟩ <;> cases heq
  exact (h.tables name t ht).addColumn (hsafe t ht) hname hgroup hschema hgroups

theorem Inv.renameColumn (h : s.Inv tok) (ht : s.tables.get name = some t) {old new : String}
    (hs : s.alter name t (.renameColumn old new) (s.data name) = some s') : s'.Inv tok := by
  refine h.alter hs fun halter hschema hgroups => ?_
  rcases Schema.alter_cases halter with ⟨_, _, heq, -⟩ | ⟨old', new', heq, hnew, rfl⟩ |
    ⟨_, _, heq, -⟩ <;> cases heq
  exact (h.tables name t ht).renameColumn hnew hschema hgroups

theorem place_unload {d : TableData} {layout : Option StoredLayout} {g : String} {k : DbKey}
    {p : Place} {v : Stored} (h : (d.unload layout (.group g)).get k = some (p, v)) :
    p ≠ .memtable := by
  have hget : (d.unload layout (.group g)).get k
      = ((d (.group g)).get k).map (TableData.Place.unload layout) := SortedMap.get_mapValues ..
  obtain ⟨⟨q, w⟩, -, hx⟩ := map_eq_some_iff.1 (hget.symm.trans h)
  rintro rfl
  cases q <;> cases hx

theorem Inv.dropColumn (h : s.Inv tok) {column : String} (hsafe : s.StepSafe (.dropColumn name column))
    (ht : s.tables.get name = some t)
    (hs : s.alter name t (.dropColumn column)
      ((s.data name).unload (some t.schema.currentLayout)) = some s') : s'.Inv tok := by
  refine h.alter hs fun halter hschema hgroups => ?_
  rcases Schema.alter_cases halter with ⟨_, _, heq, -⟩ | ⟨_, _, heq, -⟩ |
    ⟨column', i, heq, hi, -, rfl⟩ <;> cases heq
  obtain ⟨hone, hshort⟩ := hsafe t ht
  exact (h.tables name t ht).unload.dropColumn hone hschema hgroups
    (fun w hw row hrow => hshort i hi row (mem_loggedRows hw hrow)) fun g k q r => place_unload

theorem Inv.createIndex (h : s.Inv tok) {idx : IndexDefinition}
    (hsafe : s.StepSafe (.createIndex name idx)) (ht : s.tables.get name = some t)
    (hs : s.createIndex tok name t idx = some s') : s'.Inv tok := by
  obtain ⟨-, hs⟩ := ite_none_right_eq_some.1 hs
  obtain ⟨es, hes, hs⟩ := bind_eq_some_iff.1 hs
  obtain ⟨t', ht', rfl⟩ := map_eq_some_iff.1 hs
  obtain ⟨hschema, hgroups⟩ := Table.withSchema_eq ht'
  obtain ⟨bounds, hbounds, hes⟩ := bind_eq_some_iff.1 hes
  obtain ⟨ess, hess, rfl⟩ := map_eq_some_iff.1 hes
  rw [engines_eq ht] at hess
  obtain ⟨hwide, hin⟩ := hsafe t ht
  exact h.setTable ((h.tables name t ht).createIndex hschema hgroups hess
    (fun column hcolumn i hi w hw row hrow => hwide column hcolumn i hi row (mem_loggedRows hw hrow))
    (hin bounds hbounds))

theorem Inv.dropIndex (h : s.Inv tok) (ht : s.tables.get name = some t) {index : String}
    (hs : s.dropIndex name t index = some s') : s'.Inv tok := by
  obtain ⟨-, hs⟩ := ite_none_right_eq_some.1 hs
  obtain ⟨t', ht', rfl⟩ := map_eq_some_iff.1 hs
  obtain ⟨hschema, hgroups⟩ := Table.withSchema_eq ht'
  exact h.setTable ((h.tables name t ht).dropIndex hschema hgroups)

theorem Inv.step (h : s.Inv tok) {ev : DdlEvent} (hsafe : s.StepSafe ev)
    (hs : s.step tok ev = some s') : s'.Inv tok := by
  cases ev with
  | commit txId mutations => exact h.commit hs
  | checkpoint =>
    cases hs
    exact ⟨nofun, nofun, fun name t ht => (h.tables name t ht).checkpoint⟩
  | flush name group keys =>
    obtain ⟨t, ht, rfl⟩ := map_eq_some_iff.1 hs
    exact h.flush ht group keys
  | createTable name columns => exact h.createTable hsafe hs
  | dropTable name => exact h.dropTable hs
  | addColumn name column =>
    obtain ⟨t, ht, hs⟩ := bind_eq_some_iff.1 hs
    exact h.addColumn hsafe ht hs
  | renameColumn name old new =>
    obtain ⟨t, ht, hs⟩ := bind_eq_some_iff.1 hs
    exact h.renameColumn ht hs
  | dropColumn name column =>
    obtain ⟨t, ht, hs⟩ := bind_eq_some_iff.1 hs
    exact h.dropColumn hsafe ht hs
  | createIndex name idx =>
    obtain ⟨t, ht, hs⟩ := bind_eq_some_iff.1 hs
    exact h.createIndex hsafe ht hs
  | dropIndex name index =>
    obtain ⟨t, ht, hs⟩ := bind_eq_some_iff.1 hs
    exact h.dropIndex ht hs

/-! ## Opening again -/

theorem Inv.reopen (h : s.Inv tok) : ∃ engines, s.reopen tok = some engines ∧
    ∀ name t, s.tables.get name = some t →
      (∀ pk, t.reopened.get (engines name) pk = t.get (s.engines name) pk) ∧
      ∀ idx ∈ t.schema.indexes, engines name (.index idx.name) = s.engines name (.index idx.name) := by
  have htable : ∀ name, ∃ e, (∀ t, s.tables.get name = some t →
      t.replay tok (s.log.map (·.forTable name)) ((s.data name).reopened.engines t.schema) = some e ∧
        (∀ pk, t.get e pk = t.get (s.engines name) pk) ∧
        ∀ i, e (.index i) = s.engines name (.index i)) ∧
      (s.tables.get name = none → e = fun _ => .empty) := by
    intro name
    cases ht : s.tables.get name with
    | none => exact ⟨fun _ => .empty, nofun, fun _ => rfl⟩
    | some t =>
      obtain ⟨e, he, hget, hindex⟩ := (h.tables name t ht).replay
      refine ⟨e, ?_, nofun⟩
      rintro _ ⟨⟩
      rw [engines_eq ht]
      exact ⟨he, hget, hindex⟩
  choose engines hsome hnone using htable
  have hreopened : ∀ name t, s.tables.get name = some t → t.reopened = t := fun name t ht =>
    Table.reopened_eq (h.tables name t ht).groups
  refine ⟨engines, recoverTransactions_eq h.nodup (fun name t' ht' => ?_) fun name hname => ?_,
    fun name t ht => ?_⟩
  · rw [SortedMap.get_mapValues] at ht'
    obtain ⟨t, ht, rfl⟩ := map_eq_some_iff.1 ht'
    rw [hreopened name t ht, ht]
    exact (hsome name t ht).1
  · rw [SortedMap.get_mapValues, map_eq_none_iff] at hname
    rw [hname]
    exact hnone name hname
  · obtain ⟨-, hget, hindex⟩ := hsome name t ht
    exact ⟨hget, fun idx _ => hindex idx.name⟩

def boolKey (b : Bool) : DbKey := .bool b

def commitFlags (txId : Nat) (row : List Bool) : DdlEvent :=
  .commit txId [("t", [(boolKey (row.headD true), some (row.map .bool))])]

def survivingTrace : List DdlEvent :=
  [.createTable "t" flagColumns, commitFlags 1 [true, true, false],
    .addColumn "t" { flagColumn "c" with defaultValue := some (.bool true) },
    .createIndex "t" ⟨"byA", ["a"], .btree, none⟩, commitFlags 2 [true, false, false, true],
    .renameColumn "t" "a" "x", .flush "t" "" [boolKey true], .createIndex "t" ⟨"byB", ["b"], .btree, none⟩,
    .dropIndex "t" "byB", .createTable "u" flagColumns, .dropTable "u"]

/-- A row is in the log when its middle column is dropped. -/
def droppedColumnTrace : List DdlEvent :=
  [.createTable "t" flagColumns, commitFlags 1 [true, true, false], .dropColumn "t" "a"]

end DdlDb

end Dtdb.Relational
