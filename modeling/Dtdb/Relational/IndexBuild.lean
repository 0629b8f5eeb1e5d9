import Dtdb.Relational.DdlChange

/-! # Building an index

`create_index` opens the directory, writes the entries of the rows it scans, saves the schema and
publishes the index; `drop_index` goes the other way.  What a failed call leaves, the next
`create_index` of the same name opens as it finds it. -/

namespace Dtdb.Relational

open Dtdb.Lib Dtdb.Storage List Option Function

namespace Table

def backfill (tok : Tokenizers) (t : Table) (e : Engines) (idx : IndexDefinition) :
    Option (List (DbKey × Stored)) :=
  t.schema.primaryKeyBounds.bind fun bounds =>
    ((t.filteredScan e bounds.1 bounds.2).mapM fun x =>
      t.schema.backfillEntries tok idx x.2 x.1).map flatten

def withIndex (t : Table) (idx : IndexDefinition) : Option Table :=
  t.withSchema { t.schema with indexes := t.schema.indexes ++ [idx] }

def withoutIndex (t : Table) (index : String) : Option Table :=
  t.withSchema { t.schema with indexes := t.schema.indexes.eraseP fun idx => idx.name = index }

def record (t : Table) (e : Engines) (ws : List (DbKey × Option Row)) : TableWrites where
  writes := ws
  old := match ws.filterMap fun w => (t.get e w.1).map (w.1, ·) with
    | [] => none
    | rows => some rows

end Table

/-- How far a call of `create_index` came. -/
inductive CreateReach where
  /-- The engine is open. -/
  | opened
  /-- The entries of the rows are in the engine. -/
  | written
  /-- The schema with the index is on disk. -/
  | saved
  /-- The call returned `Ok`. -/
  | published

/-- How far a call of `drop_index` came. -/
inductive DropReach where
  /-- The index is out of the schema in memory. -/
  | detached
  /-- The schema without the index is on disk. -/
  | saved
  /-- Files of the directory are gone; the others may amount to anything. -/
  | removing (left : Store)
  /-- The call returned `Ok`. -/
  | removed

structure IndexSite where
  table : Table
  /-- The table that `schema.bin` describes. -/
  saved : Table
  /-- What the directories hold, also those of indexes that no schema lists. -/
  engines : Engines
  /-- The records since the last checkpoint. -/
  log : List TableWrites

inductive SiteEvent where
  | commit (ws : List (DbKey × Option Row))
  | checkpoint
  | createIndex (idx : IndexDefinition) (reach : CreateReach)
  | dropIndex (index : String) (reach : DropReach)
  | reopen

namespace IndexSite

def create (columns : List Column) : IndexSite := ⟨.create columns, .create columns, fun _ => .empty, []⟩

def commit (tok : Tokenizers) (s : IndexSite) (ws : List (DbKey × Option Row)) : Option IndexSite :=
  if (ws.map Prod.fst).Nodup ∧ ws.all s.table.schema.accepts then
    (s.table.batches tok ws (s.table.record s.engines ws).oldRow).map fun bs =>
      { s with engines := s.engines.write bs, log := s.log ++ [s.table.record s.engines ws] }
  else none

def setIndex (s : IndexSite) (index : String) (m : Store) : IndexSite :=
  { s with engines := update s.engines (.index index) m }

def fill (s : IndexSite) (index : String) (es : List (DbKey × Stored)) : IndexSite :=
  s.setIndex index ((s.engines (.index index)).applyAll (es.map fun x => (x.1, some x.2)))

def createIndex (tok : Tokenizers) (s : IndexSite) (idx : IndexDefinition) (reach : CreateReach) :
    Option IndexSite :=
  if s.table.schema.acceptsIndex tok idx then
    match reach with
    | .opened => some s
    | .written => (s.table.backfill tok s.engines idx).map (s.fill idx.name)
    | .saved => (s.table.backfill tok s.engines idx).bind fun es =>
        (s.table.withIndex idx).map fun t => { s.fill idx.name es with saved := t }
    | .published => (s.table.backfill tok s.engines idx).bind fun es =>
        (s.table.withIndex idx).map fun t => { s.fill idx.name es with saved := t, table := t }
  else none

def dropIndex (s : IndexSite) (index : String) (reach : DropReach) : Option IndexSite :=
  if s.table.schema.indexes.any fun idx => idx.name = index then
    (s.table.withoutIndex index).map fun t =>
      match reach with
      | .detached => { s with table := t }
      | .saved => { s with table := t, saved := t }
      | .removing left => { s.setIndex index left with table := t, saved := t }
      | .removed => { s.setIndex index .empty with table := t, saved := t }
  else none

/-- The process is gone; `open` reads the schema and replays the log. -/
def reopen (tok : Tokenizers) (s : IndexSite) : Option IndexSite :=
  (s.saved.reopened.replay tok s.log s.engines).map fun e =>
    ⟨s.saved.reopened, s.saved.reopened, e, []⟩

def step (tok : Tokenizers) (s : IndexSite) : SiteEvent → Option IndexSite
  | .commit ws => s.commit tok ws
  | .checkpoint => some { s with log := [] }
  | .createIndex idx reach => s.createIndex tok idx reach
  | .dropIndex index reach => s.dropIndex index reach
  | .reopen => s.reopen tok

/-! ## What an index should hold -/

end IndexSite

def SiteEvent.writes : SiteEvent → Option (List (DbKey × Option Row))
  | .commit ws => some ws
  | _ => none

def Table.maintained (tok : Tokenizers) (t : Table) (evs : List SiteEvent) : Option Engines :=
  (evs.filterMap SiteEvent.writes).foldlM (fun e ws => t.writeBatch tok e ws none) fun _ => .empty

namespace IndexSite

/-- The directory is about rows that are there, and holds what the scan does not reach. -/
structure Cleared (tok : Tokenizers) (s : IndexSite) (idx : IndexDefinition) : Prop where
  stale : ∀ x ∈ (s.engines (.index idx.name)).entries, ∃ pk, owner x.1 = some pk ∧
    (s.table.schema.entry tok idx pk (s.table.get s.engines pk) x.1).isSome = true
  missed : ∀ bounds ∈ s.table.schema.primaryKeyBounds, ∀ pk, ¬(bounds.1 ≤ pk ∧ pk ≤ bounds.2) →
    ∀ key v, s.table.schema.entry tok idx pk (s.table.get s.engines pk) key = some v →
      (s.engines (.index idx.name)).get key = some v

end IndexSite

/-! ## Tables that differ in their indexes -/

/-- The table with these columns and some indexes. -/
structure Table.Indexed (columns : List Column) (t : Table) : Prop where
  schema : t.schema = { Schema.new columns with indexes := t.schema.indexes }
  groups : t.groups = (Schema.new columns).localityGroups

namespace Table.Indexed

variable {tok : Tokenizers} {columns : List Column} {t t' : Table} {e : Engines}

theorem create (columns : List Column) : (Table.create columns).Indexed columns := ⟨rfl, rfl⟩

theorem withSchema (h : t.Indexed columns) {indexes : List IndexDefinition}
    (ht : t.withSchema { t.schema with indexes } = some t') : t'.Indexed columns := by
  obtain ⟨hschema, hgroups⟩ := withSchema_eq ht
  refine ⟨?_, hgroups.trans h.groups⟩
  rw [hschema, h.schema]

theorem reopened (h : t.Indexed columns) : t.reopened.Indexed columns := by
  refine ⟨h.schema, ?_⟩
  show t.schema.localityGroups = _
  rw [h.schema]
  rfl

theorem get_eq (h : t.Indexed columns) (pk : DbKey) : t.get e pk = (Table.create columns).get e pk := by
  unfold Table.get mergeParts
  rw [h.schema]
  rfl

theorem subRow_eq (h : t.Indexed columns) (row : Row) (g : String) :
    t.subRow row g = (Table.create columns).subRow row g := by
  unfold subRow
  rw [h.schema, h.groups]
  rfl

theorem entry_eq (h : t.Indexed columns) (idx : IndexDefinition) (pk : DbKey) (row : Option Row)
    (key : DbKey) : t.schema.entry tok idx pk row key
      = (Schema.new columns).entry tok idx pk row key := by
  rw [h.schema]
  rfl

theorem length_columns (h : t.Indexed columns) :
    t.schema.columns.length = (Schema.new columns).columns.length := by
  rw [h.schema]

end Table.Indexed

/-! ## The rows -/

section

variable {tok : Tokenizers} {columns : List Column} {t : Table} {e e' : Engines}
  {rows : DbKey → Option Row} {ws : List (DbKey × Option Row)}

def HoldsRows (tok : Tokenizers) (columns : List Column) : Engines → (DbKey → Option Row) → Prop :=
  Represents tok (Table.create columns)

namespace HoldsRows

theorem congr (h : HoldsRows tok columns e rows) (he : ∀ g, e' (.group g) = e (.group g)) :
    HoldsRows tok columns e' rows where
  width := h.width
  groups g hg pk := by
    rw [he]
    exact h.groups g hg pk
  indexes := nofun

theorem write (h : HoldsRows tok columns e rows) (ht : t.Indexed columns)
    (hnd : (ws.map Prod.fst).Nodup)
    (hwidth : ∀ pk row, (pk, some row) ∈ ws → row.length = (Schema.new columns).columns.length)
    {old : DbKey → Option Row} {bs : List (EngineName × Batch)} (hbs : t.batches tok ws old = some bs) :
    HoldsRows tok columns (e.write bs) (overwrite rows ws) where
  width := length_overwrite h.width hwidth
  groups g hg pk := by
    have hg' : g ∈ t.groups := ht.groups ▸ hg
    rw [Table.get_write_group hnd hbs hg']
    unfold overwrite
    cases ws.lookup pk with
    | none => exact h.groups g hg pk
    | some w =>
      simp [ht.subRow_eq]
  indexes := nofun

theorem entry_get (h : HoldsRows tok columns e rows) (ht : t.Indexed columns) (idx : IndexDefinition)
    (pk key : DbKey) : t.schema.entry tok idx pk (t.get e pk) key
      = (Schema.new columns).entry tok idx pk (rows pk) key := by
  rw [ht.entry_eq, ht.get_eq]
  exact Represents.entry_get h idx pk key

theorem replay (h : HoldsRows tok columns e rows) (ht : t.Indexed columns) {log : List TableWrites}
    (hlog : ∀ w ∈ log, (w.writes.map Prod.fst).Nodup ∧ ∀ pk row, (pk, some row) ∈ w.writes →
      row.length = (Schema.new columns).columns.length)
    (hreplay : t.replay tok log e = some e') : HoldsRows tok columns e' (rowsAfter log rows) := by
  induction log generalizing e rows with
  | nil =>
    cases hreplay
    exact h
  | cons w log ih =>
    obtain ⟨e₁, he₁, hrest⟩ := bind_eq_some_iff.1 hreplay
    obtain ⟨bs, hbs, rfl⟩ := map_eq_some_iff.1 he₁
    obtain ⟨hnd, hwidth⟩ := hlog w mem_cons_self
    exact ih (h.write ht hnd hwidth hbs) (fun w hw => hlog w (.tail _ hw)) hrest

end HoldsRows

end

theorem rowsAfter_of_touched {log : List TableWrites} {pk : DbKey} (h : Touched log pk)
    (rows rows' : DbKey → Option Row) : rowsAfter log rows pk = rowsAfter log rows' pk := by
  induction log generalizing rows rows' with
  | nil =>
    obtain ⟨w, hw, -⟩ := h
    cases hw
  | cons w log ih =>
    by_cases hlater : Touched log pk
    · exact ih hlater ..
    · have hw := (touched_cons.1 h).resolve_right hlater
      obtain ⟨row, hrow⟩ := isSome_iff_exists.1 hw
      show rowsAfter log (overwrite rows w.writes) pk = rowsAfter log (overwrite rows' w.writes) pk
      rw [rowsAfter_of_not_touched hlater, rowsAfter_of_not_touched hlater]
      unfold overwrite
      rw [hrow]
      rfl

theorem rowsAfter_again (log : List TableWrites) (rows : DbKey → Option Row) :
    rowsAfter log (rowsAfter log rows) = rowsAfter log rows := by
  funext pk
  by_cases h : Touched log pk
  · exact rowsAfter_of_touched h ..
  · exact rowsAfter_of_not_touched h

namespace IndexSite

variable {tok : Tokenizers} {columns : List Column} {evs : List SiteEvent} {s s' : IndexSite}

/-- The groups hold the rows of the commits, which the log may write once more. -/
structure Inv (tok : Tokenizers) (columns : List Column) (evs : List SiteEvent) (s : IndexSite) :
    Prop where
  table : s.table.Indexed columns
  saved : s.saved.Indexed columns
  logged : ∀ w ∈ s.log, (w.writes.map Prod.fst).Nodup ∧ ∀ pk row, (pk, some row) ∈ w.writes →
    row.length = (Schema.new columns).columns.length
  rows : ∃ base, HoldsRows tok columns s.engines (rowsAfter s.log base) ∧
    ∀ t : Table, t.Indexed columns → ∃ e, t.maintained tok evs = some e ∧
      Represents tok t e (rowsAfter s.log base)

theorem setIndex_group (s : IndexSite) (index : String) (m : Store) (g : String) :
    (s.setIndex index m).engines (.group g) = s.engines (.group g) := by
  have hne : EngineName.group g ≠ .index index := nofun
  exact update_of_ne hne m s.engines

theorem maintained_snoc {t : Table} {ev : SiteEvent} (h : ev.writes = none) :
    t.maintained tok (evs ++ [ev]) = t.maintained tok evs := by
  unfold Table.maintained
  simp [h]

namespace Inv

theorem create (tok : Tokenizers) (columns : List Column) : Inv tok columns [] (create columns) where
  table := .create columns
  saved := .create columns
  logged := nofun
  rows := ⟨fun _ => none, Represents.empty tok _, fun t _ => ⟨_, rfl, Represents.empty tok t⟩⟩

theorem unlogged (h : s.Inv tok columns evs) {ev : SiteEvent} (hev : ev.writes = none)
    (htable : s'.table.Indexed columns) (hsaved : s'.saved.Indexed columns) (hlog : s'.log = s.log)
    (hgroups : ∀ g, s'.engines (.group g) = s.engines (.group g)) :
    s'.Inv tok columns (evs ++ [ev]) where
  table := htable
  saved := hsaved
  logged := hlog ▸ h.logged
  rows := by
    obtain ⟨base, hrows, hmaintained⟩ := h.rows
    refine ⟨base, hlog ▸ hrows.congr hgroups, fun t ht => ?_⟩
    rw [maintained_snoc hev, hlog]
    exact hmaintained t ht

theorem commit (h : s.Inv tok columns evs) {ws : List (DbKey × Option Row)}
    (hs : s.commit tok ws = some s') : s'.Inv tok columns (evs ++ [.commit ws]) := by
  obtain ⟨hok, hs⟩ := ite_none_right_eq_some.1 hs
  obtain ⟨hnd, haccepts⟩ := hok
  obtain ⟨bs, hbs, rfl⟩ := map_eq_some_iff.1 hs
  have hwidth : ∀ pk row, (pk, some row) ∈ ws →
      row.length = (Schema.new columns).columns.length := fun pk row hw => by
    rw [← h.table.length_columns]
    exact Schema.length_of_accepts (all_eq_true.1 haccepts _ hw)
  obtain ⟨base, hrows, hmaintained⟩ := h.rows
  have hafter : rowsAfter (s.log ++ [s.table.record s.engines ws]) base
      = overwrite (rowsAfter s.log base) ws := foldl_append ..
  refine ⟨h.table, h.saved, fun w hw => ?_, base, ?_, fun t ht => ?_⟩
  · rcases mem_append.1 hw with hw | hw
    · exact h.logged w hw
    · cases mem_singleton.1 hw
      exact ⟨hnd, hwidth⟩
  · rw [hafter]
    exact hrows.write h.table hnd hwidth hbs
  · obtain ⟨e, he, hrep⟩ := hmaintained t ht
    have hwidth' : ∀ pk row, (pk, some row) ∈ ws → row.length = t.schema.columns.length :=
      fun pk row hw => (hwidth pk row hw).trans ht.length_columns.symm
    have hsome : ∃ bs, t.batches tok ws (t.get e) = some bs :=
      Table.exists_batches hwidth' fun _ _ row hrow => Table.length_get hrow
    obtain ⟨bs', hbs'⟩ := hsome
    refine ⟨e.write bs', ?_, ?_⟩
    · unfold Table.maintained at he ⊢
      rw [filterMap_append, foldlM_append, he]
      show bind (t.writeBatch tok e ws none) _ = _
      unfold Table.writeBatch
      rw [getD_none, hbs']
      rfl
    · rw [hafter]
      refine hrep.write hnd hwidth' hbs' fun w hw idx key hsome => ?_
      rw [hrep.entry_get]
      exact hsome

theorem createIndex (h : s.Inv tok columns evs) {idx : IndexDefinition} {reach : CreateReach}
    (hs : s.createIndex tok idx reach = some s') :
    s'.Inv tok columns (evs ++ [.createIndex idx reach]) := by
  have hfill : ∀ es g, (s.fill idx.name es).engines (.group g) = s.engines (.group g) := fun es g =>
    s.setIndex_group ..
  obtain ⟨-, hs⟩ := ite_none_right_eq_some.1 hs
  cases reach with
  | opened =>
    cases hs
    exact h.unlogged rfl h.table h.saved rfl fun _ => rfl
  | written =>
    obtain ⟨es, -, rfl⟩ := map_eq_some_iff.1 hs
    exact h.unlogged rfl h.table h.saved rfl (hfill es)
  | saved =>
    obtain ⟨es, -, hs⟩ := bind_eq_some_iff.1 hs
    obtain ⟨t, ht, rfl⟩ := map_eq_some_iff.1 hs
    exact h.unlogged rfl h.table (h.table.withSchema ht) rfl (hfill es)
  | published =>
    obtain ⟨es, -, hs⟩ := bind_eq_some_iff.1 hs
    obtain ⟨t, ht, rfl⟩ := map_eq_some_iff.1 hs
    have hindexed := h.table.withSchema ht
    exact h.unlogged rfl hindexed hindexed rfl (hfill es)

theorem dropIndex (h : s.Inv tok columns evs) {index : String} {reach : DropReach}
    (hs : s.dropIndex index reach = some s') :
    s'.Inv tok columns (evs ++ [.dropIndex index reach]) := by
  obtain ⟨-, hs⟩ := ite_none_right_eq_some.1 hs
  obtain ⟨t, ht, rfl⟩ := map_eq_some_iff.1 hs
  have hindexed := h.table.withSchema ht
  cases reach with
  | detached => exact h.unlogged rfl hindexed h.saved rfl fun _ => rfl
  | saved => exact h.unlogged rfl hindexed hindexed rfl fun _ => rfl
  | removing left => exact h.unlogged rfl hindexed hindexed rfl (s.setIndex_group index left)
  | removed => exact h.unlogged rfl hindexed hindexed rfl (s.setIndex_group index .empty)

theorem endLog (h : s.Inv tok columns evs) {ev : SiteEvent} (hev : ev.writes = none)
    (htable : s'.table.Indexed columns) (hsaved : s'.saved.Indexed columns) (hlog : s'.log = [])
    (hrows : ∀ base, HoldsRows tok columns s.engines (rowsAfter s.log base) →
      HoldsRows tok columns s'.engines (rowsAfter s.log base)) :
    s'.Inv tok columns (evs ++ [ev]) where
  table := htable
  saved := hsaved
  logged := by
    rw [hlog]
    nofun
  rows := by
    obtain ⟨base, hbase, hmaintained⟩ := h.rows
    refine ⟨rowsAfter s.log base, ?_, fun t ht => ?_⟩
    · rw [hlog]
      exact hrows base hbase
    · rw [maintained_snoc hev, hlog]
      exact hmaintained t ht

theorem reopen (h : s.Inv tok columns evs) (hs : s.reopen tok = some s') :
    s'.Inv tok columns (evs ++ [.reopen]) := by
  obtain ⟨e, he, rfl⟩ := map_eq_some_iff.1 hs
  have hindexed := h.saved.reopened
  refine h.endLog rfl hindexed hindexed rfl fun base hbase => ?_
  have hreplayed := hbase.replay hindexed h.logged he
  rwa [rowsAfter_again] at hreplayed

theorem step (h : s.Inv tok columns evs) {ev : SiteEvent} (hs : s.step tok ev = some s') :
    s'.Inv tok columns (evs ++ [ev]) := by
  cases ev with
  | commit ws => exact h.commit hs
  | checkpoint =>
    cases hs
    exact h.endLog rfl h.table h.saved rfl fun _ hbase => hbase
  | createIndex idx reach => exact h.createIndex hs
  | dropIndex index reach => exact h.dropIndex hs
  | reopen => exact h.reopen hs

end Inv

/-! ## The index that was built -/

theorem get_published {idx : IndexDefinition} (hs : s.createIndex tok idx .published = some s') :
    ∃ bounds, s.table.schema.primaryKeyBounds = some bounds ∧
      (s.table.withIndex idx) = some s'.table ∧ ∀ key, (s'.engines (.index idx.name)).get key
        = ((owner key).bind fun pk => s.table.schema.entry tok idx pk
            (if bounds.1 ≤ pk ∧ pk ≤ bounds.2 then s.table.get s.engines pk else none) key).or
          ((s.engines (.index idx.name)).get key) := by
  obtain ⟨-, hs⟩ := ite_none_right_eq_some.1 hs
  obtain ⟨es, hes, hs⟩ := bind_eq_some_iff.1 hs
  obtain ⟨t, ht, rfl⟩ := map_eq_some_iff.1 hs
  obtain ⟨bounds, hbounds, hes⟩ := bind_eq_some_iff.1 hes
  obtain ⟨ess, hess, rfl⟩ := map_eq_some_iff.1 hes
  refine ⟨bounds, hbounds, ht, fun key => ?_⟩
  show (update s.engines (.index idx.name) _ (.index idx.name)).get key = _
  rw [update_self, SortedMap.get_applyAll]
  show (lastWrite _ _).getD _ = _
  rw [lastWrite_backfilled (Table.ascending_filteredScan ..).nodup hess]
  simp only [Table.lookup_filteredScan]
  cases (owner key).bind fun pk => s.table.schema.entry tok idx pk
    (if bounds.1 ≤ pk ∧ pk ≤ bounds.2 then s.table.get s.engines pk else none) key with
  | none => rfl
  | some v => rfl

/-- **An index that was built holds what `write_batch` would keep in it** exactly if nothing else was
left in its directory, and what the scan misses was. -/
theorem published_exact_iff (tok : Tokenizers) {columns : List Column} {evs : List SiteEvent}
    {s s' : IndexSite} {idx : IndexDefinition}
    (hrun : Run (step tok) (fun _ _ => True) (create columns) evs s)
    (hs : s.step tok (.createIndex idx .published) = some s') :
    (s'.table.maintained tok evs).map (· (.index idx.name)) = some (s'.engines (.index idx.name)) ↔
      s.Cleared tok idx := by
  have hinv : s.Inv tok columns evs := hrun.invariant
    (Inv.create tok columns) fun _ _ _ _ h _ hstep => h.step hstep
  obtain ⟨bounds, hbounds, htable, hget⟩ := get_published hs
  obtain ⟨base, hrows, hmaintained⟩ := hinv.rows
  obtain ⟨hschema, -⟩ := Table.withSchema_eq htable
  have hmem : idx ∈ s'.table.schema.indexes := by
    rw [hschema]
    exact mem_append_right _ (mem_singleton.2 rfl)
  have hindexed := hinv.table.withSchema htable
  obtain ⟨e, he, hrep⟩ := hmaintained s'.table hindexed
  -- the entry that a key should have, by the rows that a reader gets before the call
  have hwant : ∀ key, (e (.index idx.name)).get key = (owner key).bind fun pk =>
      s.table.schema.entry tok idx pk (s.table.get s.engines pk) key := fun key => by
    rw [hrep.indexes idx hmem key]
    simp [hrows.entry_get hinv.table, hindexed.entry_eq]
  rw [he, map_some, some.injEq]
  constructor
  · intro heq
    have hsame : ∀ key, (s'.engines (.index idx.name)).get key = (owner key).bind fun pk =>
        s.table.schema.entry tok idx pk (s.table.get s.engines pk) key := fun key => by
      rw [← hwant, heq]
    refine ⟨fun x hx => ?_, fun bounds' hbounds' pk hout key v hv => ?_⟩
    · have hleft : (s.engines (.index idx.name)).get x.1 = some x.2 := SortedMap.mem_entries.1 hx
      have hsome : ((s'.engines (.index idx.name)).get x.1).isSome = true := by
        rw [hget, hleft]
        simp
      rw [hsame] at hsome
      obtain ⟨v, hv⟩ := isSome_iff_exists.1 hsome
      obtain ⟨pk, howner, hv⟩ := bind_eq_some_iff.1 hv
      exact ⟨pk, howner, by rw [hv]; rfl⟩
    · cases hbounds.symm.trans hbounds'
      have hkey := hsame key
      rw [hget, Schema.owner_of_entry hv, bind_some, bind_some, if_neg hout, hv] at hkey
      exact hkey
  · intro hclear
    have hstale : ∀ {key v}, (s.engines (.index idx.name)).get key = some v →
        ((owner key).bind fun pk =>
          s.table.schema.entry tok idx pk (s.table.get s.engines pk) key).isSome = true := by
      intro key v hv
      obtain ⟨pk, howner, hsome⟩ := hclear.stale (key, v) (SortedMap.mem_entries.2 hv)
      rw [howner]
      exact hsome
    ext key : 1
    rw [hwant, hget]
    cases hleft : (s.engines (.index idx.name)).get key with
    | none =>
      rw [or_none]
      cases howner : owner key with
      | none => rfl
      | some pk =>
        rw [bind_some, bind_some]
        split
        · rfl
        · next hout =>
          -- the scan does not see the row, and there is nothing in the directory for it
          cases hentry : s.table.schema.entry tok idx pk (s.table.get s.engines pk) key with
          | none => rfl
          | some v =>
            cases hleft.symm.trans (hclear.missed bounds hbounds pk hout key v hentry)
    | some v =>
      obtain ⟨v', hv'⟩ := isSome_iff_exists.1 (hstale hleft)
      rw [hv']
      obtain ⟨pk, howner, hentry⟩ := bind_eq_some_iff.1 hv'
      rw [howner, bind_some]
      split
      · rw [hentry]
        rfl
      · next hout =>
        have hmissed := hclear.missed bounds hbounds pk hout key v' hentry
        rw [← hleft, hmissed]
        rfl

def byFlag : IndexDefinition := ⟨"byA", ["a"], .btree, none⟩

def flagCommit (key : Bool) (row : Option (List Bool)) : SiteEvent :=
  .commit [(.bool key, row.map (·.map .bool))]

def retriedTrace : List SiteEvent :=
  [flagCommit true (some [true, true, false]), .createIndex byFlag .written, .reopen,
    flagCommit false (some [false, true, false])]

theorem retried_exact : ∃ s s',
    Run (step fun _ => none) (fun _ _ => True) (create flagColumns) retriedTrace s ∧
    s.step (fun _ => none) (.createIndex byFlag .published) = some s' ∧
    (s'.table.maintained (fun _ => none) retriedTrace).map (· (.index "byA"))
      = some (s'.engines (.index "byA")) ∧ s.Cleared (fun _ => none) byFlag := by
  simp only [exists_and_left]
  refine Run.exists_of_exec (p := fun s => ∃ s',
    s.step (fun _ => none) (.createIndex byFlag .published) = some s' ∧
      (s'.table.maintained (fun _ => none) retriedTrace).map (· (.index "byA"))
        = some (s'.engines (.index "byA"))) (by decide +kernel) fun s hrun ⟨s', hs, hexact⟩ => ?_
  exact ⟨s', hs, hexact, (published_exact_iff _ hrun hs).1 hexact⟩

/-- As before, but in between the row goes. -/
def leftoverTrace : List SiteEvent :=
  [flagCommit true (some [true, true, false]), .createIndex byFlag .written, .reopen,
    flagCommit true none]

/-- The index is published with an entry of the row that is gone. -/
theorem leftover_published : ∃ s s',
    exec (step fun _ => none) (create flagColumns) leftoverTrace = some s ∧
    s.step (fun _ => none) (.createIndex byFlag .published) = some s' ∧
    s'.table.get s'.engines (.bool true) = none ∧
    (s'.engines (.index "byA")).get (.composite [.bool true, .bool true]) = some .null ∧
    (s'.table.maintained (fun _ => none) leftoverTrace).map (fun e => e (.index "byA"))
      = some .empty := by
  simp only [exists_and_left]
  decide +kernel

end IndexSite

end Dtdb.Relational
