import Dtdb.Relational.GroupLayout
import Dtdb.Storage.Relabel

/-! # Rows in old layouts

`ALTER TABLE` rewrites no rows: they are brought to the current layout when they are read.
`WrittenTable` remembers for each key the value last written for each column id; a table with one
locality group shows exactly that, through flushes, compactions, crashes and reopens. -/

namespace Dtdb.Relational

open Dtdb.Lib Dtdb.Storage List Option

/-! ## What was written -/

/-- A table's own changes and what happens to its engine. -/
inductive TableEvent where
  | write (writes : List (DbKey × Option Row))
  | engine (ev : Event DbKey Row)
  | alter (op : Alter)

def Schema.valuesById (s : Schema) (row : Row) (id : Nat) : Option DbValue :=
  ((s.columns.map Column.id).zip row).lookup id

/-- The schema, and for each key the value last written for each column id. -/
structure WrittenTable where
  schema : Schema
  rows : DbKey → Option (Nat → Option DbValue)

namespace WrittenTable

def new (columns : List Column) : WrittenTable := ⟨.new columns, fun _ => none⟩

def step (a : WrittenTable) : TableEvent → WrittenTable
  | .write ws => { a with
      rows := ws.foldl (fun rows w => Function.update rows w.1 (w.2.map a.schema.valuesById)) a.rows }
  | .engine _ => a
  | .alter op => match a.schema.alter op with
    | .ok schema => { a with schema }
    | .error _ => a

/-- A column that was added later reads its default. -/
def row (a : WrittenTable) (key : DbKey) : Option Row :=
  (a.rows key).map fun values => a.schema.columns.map fun c => (values c.id).getD c.default

theorem rows_write (a : WrittenTable) (ws : List (DbKey × Option Row)) (k : DbKey) :
    (a.step (.write ws)).rows k = match lastWrite ws k with
      | some w => w.map a.schema.valuesById
      | none => a.rows k := by
  show ws.foldl _ a.rows k = _
  generalize a.rows = rows
  induction ws generalizing rows with
  | nil => rfl
  | cons w ws ih =>
    rw [foldl_cons, ih, lastWrite_cons]
    cases lastWrite ws k with
    | some w' => rfl
    | none =>
      by_cases hk : k = w.1
      · simp [hk]
      · simp [hk]

end WrittenTable

/-! ## Reading a layout -/

namespace Schema

variable {s : Schema} {c : Column}

theorem lookup_zip_eq (ids : List Nat) (row : Row) (id : Nat) :
    (ids.zip row).lookup id = (ids.findIdx? fun i => i = id).bind fun i => row[i]? := by
  induction ids generalizing row with
  | nil => rfl
  | cons i ids ih =>
    cases row with
    | nil =>
      cases (i :: ids).findIdx? fun j => j = id <;> rfl
    | cons v row =>
      rw [zip_cons_cons, lookup_cons_eq_ite, findIdx?_cons]
      by_cases hi : i = id
      · simp [hi]
      · simp [hi, Ne.symm hi, ih, bind_map]

theorem read_take (T : StoredLayout) (row : Row) (d : StoredColumn) :
    StoredLayout.read (T.take row.length) row d = T.read row d := by
  unfold StoredLayout.read
  rw [findIdx?_take]
  cases T.findIdx? fun c => c.id = d.id with
  | none => rfl
  | some i =>
    by_cases hi : i < row.length
    · simp [hi]
    · simp [Option.guard, hi]

theorem read_at (hf : s.Fresh) {i : Nat} (hi : s.columns[i]? = some c) (row : Row) :
    s.currentLayout.read row c.stored = row[i]?.getD c.default := by
  have hidx : s.currentLayout.findIdx? (fun d => d.id = c.stored.id) = some i := findIdx?_id hf hi
  unfold StoredLayout.read
  rw [hidx]
  rfl

end Schema

theorem WrittenTable.row_write {a : WrittenTable} {ws : List (DbKey × Option Row)} (k : DbKey) :
    (a.step (.write ws)).row k = match lastWrite ws k with
      | some w => w.map fun row => a.schema.columns.map fun c => a.schema.currentLayout.read row c.stored
      | none => a.row k := by
  unfold WrittenTable.row
  rw [rows_write]
  cases lastWrite ws k with
  | none => rfl
  | some w =>
    cases w with
    | none => rfl
    | some row =>
      refine congrArg some (map_congr_left fun c _ => ?_)
      rw [Schema.valuesById, Schema.lookup_zip_eq, findIdx?_map, StoredLayout.read, Schema.currentLayout,
        findIdx?_map]
      rfl

theorem WrittenTable.step_alter {a : WrittenTable} {op : Alter} {schema : Schema} (h : a.schema.alter op = .ok schema) :
    a.step (.alter op) = { a with schema } := by
  simp [step, h]

variable {row : Row} {s : Schema}

theorem Schema.Fresh.lt_of_valuesById (hf : s.Fresh) {id : Nat} (h : s.valuesById row id ≠ none) :
    id < s.nextColumnId := by
  obtain ⟨v, hv⟩ := ne_none_iff_exists'.1 h
  obtain ⟨c, hc, rfl⟩ := mem_map.1 (of_mem_zip (mem_of_lookup hv)).1
  exact hf.lt c hc

/-! ## The meaning of stored rows -/

/-- What a table's engine is opened with. -/
structure TableConfig where
  options : EngineOptions
  fileSize : Reader DbKey Row StoredLayout → Nat
  frameSize : List (WalEntry DbKey Row) → Nat

/-- The engine's configuration, with `RelationalValueRewriter`. -/
def TableConfig.engine (cfg : TableConfig) : Config DbKey Row StoredLayout where
  options := cfg.options
  rewriter src dst row := .ok (rewrite src dst row)
  fileSize := cfg.fileSize
  frameSize := cfg.frameSize

def Schema.values (s : Schema) (layout : Option StoredLayout) (row : Row) : Row :=
  s.columns.map fun c => (layout.getD s.currentLayout).read row c.stored

/-- A stored row means what the live columns read from it. -/
def layoutMeaning (cfg : TableConfig) (s : Schema) (hf : s.Fresh) :
    Meaning cfg.engine (some s.currentLayout) Row where
  den l row := s.columns.map fun c => (l.getD s.currentLayout).read row c.stored
  rewrite_den l row hl := by
    refine ⟨_, rfl, ?_⟩
    set v : Column → DbValue := fun c => (l.getD s.currentLayout).read row c.stored with hv
    have hrow : rewrite l (some s.currentLayout) row = s.columns.map v := by
      unfold rewrite
      rw [if_neg hl]
      show (s.columns.map _).map _ = _
      rw [List.map_map]
      refine map_congr_left fun c _ => ?_
      cases l with
      | some l => rfl
      | none => exact Schema.read_take ..
    rw [hrow]
    exact map_congr_left fun c hc => Schema.read_map hf hc v rfl

theorem layoutMeaning_none {cfg : TableConfig} {hf : s.Fresh} (row : Row) :
    (layoutMeaning cfg s hf).den none row
      = (layoutMeaning cfg s hf).den (some s.currentLayout) row := rfl

/-- A row under the empty layout is no wider than the schema. -/
def Schema.RowOk (s : Schema) (layout : Option StoredLayout) (row : Row) : Prop :=
  match layout with
  | none => row.length ≤ s.columns.length
  | some l => ∀ c ∈ l, c.id < s.nextColumnId

theorem Schema.Fresh.rowOk (hf : s.Fresh) (row : Row) :
    s.RowOk (some s.currentLayout) row := by
  intro c hc
  obtain ⟨d, hd, rfl⟩ := mem_map.1 hc
  exact hf.lt d hd

/-! ## Adding a column -/

section

variable (cfg : TableConfig) {s : Schema} {c : Column}

def Schema.withColumn (s : Schema) (c : Column) : Schema :=
  { s with
    columns := s.columns ++ [{ c with id := s.nextColumnId }]
    nextColumnId := s.nextColumnId + 1 }

variable {layout : Option StoredLayout}

theorem Schema.Fresh.read_added (hf' : (s.withColumn c).Fresh) (hrow : s.RowOk layout row) :
    (layout.getD (s.withColumn c).currentLayout).read row ⟨s.nextColumnId, c.defaultValue⟩
      = c.default := by
  cases layout with
  | some l =>
    have hnone : l.findIdx? (fun d => d.id = s.nextColumnId) = none := by
      rw [findIdx?_eq_none_iff]
      exact fun d hd => by simpa using (hrow d hd).ne
    show ((l.findIdx? _).bind _).getD _ = _
    rw [hnone]
    rfl
  | none =>
    have hlast : (s.withColumn c).columns[s.columns.length]? = some { c with id := s.nextColumnId } :=
      getElem?_concat_length
    have hpast : row[s.columns.length]? = none := getElem?_eq_none hrow
    exact (read_at hf' hlast row).trans (by rw [hpast]; rfl)

theorem Schema.Fresh.values_withColumn (hf : s.Fresh) (hf' : (s.withColumn c).Fresh)
    (hrow : s.RowOk layout row) :
    (s.withColumn c).values layout row = s.values layout row ++ [c.default] := by
  show (s.columns ++ [_]).map _ = _
  rw [map_append]
  congr 1
  · refine map_congr_left fun d hd => ?_
    cases layout with
    | some l => rfl
    | none =>
      obtain ⟨i, hi⟩ := mem_iff_getElem?.1 hd
      have hi' : (s.withColumn c).columns[i]? = some d := by
        obtain ⟨hlt, -⟩ := List.getElem?_eq_some_iff.mp hi
        exact (getElem?_append_left hlt).trans hi
      exact (read_at hf' hi' row).trans (read_at hf hi row).symm
  · exact congrArg (fun v => [v]) (hf'.read_added hrow)

theorem den_withColumn (hf : s.Fresh) (hf' : (s.withColumn c).Fresh) (hrow : s.RowOk layout row) :
    (layoutMeaning cfg (s.withColumn c) hf').den layout row
      = (layoutMeaning cfg s hf).den layout row ++ [c.default] := hf.values_withColumn hf' hrow

theorem Schema.nodup_names_withColumn
    (h : (s.columns.map Column.name).Nodup) (hname : ∀ d ∈ s.columns, d.name ≠ c.name) :
    ((s.withColumn c).columns.map Column.name).Nodup := by
  show ((s.columns ++ [_]).map Column.name).Nodup
  rw [map_append, nodup_append]
  refine ⟨h, by simp, fun x hx y hy => ?_⟩
  obtain ⟨d, hd, rfl⟩ := mem_map.1 hx
  cases mem_singleton.1 hy
  exact hname d hd

/-! ## Dropping a column -/

def Schema.withoutColumn (s : Schema) (i : Nat) : Schema := { s with columns := s.columns.eraseIdx i }

theorem Schema.Fresh.values_withoutColumn (hf : s.Fresh) {i : Nat}
    (hf' : (s.withoutColumn i).Fresh) (hrow : layout = none → row.length ≤ i) :
    (s.withoutColumn i).values layout row = (s.values layout row).eraseIdx i := by
  show _ = (s.columns.map _).eraseIdx i
  rw [eraseIdx_map]
  refine map_congr_left fun d hd => ?_
  cases layout with
  | some l => rfl
  | none =>
    obtain ⟨j, hj⟩ := mem_iff_getElem?.1 hd
    have hold : (if j < i then s.columns[j]? else s.columns[j + 1]?) = some d := by
      rw [← getElem?_eraseIdx]
      exact hj
    split at hold
    · -- in front of the dropped column nothing moves
      exact (read_at hf' hj row).trans (read_at hf hold row).symm
    · -- behind it the row has no value, before or after
      next hij =>
      have hpast : ∀ n, i ≤ n → row[n]? = none := fun n hn => getElem?_eq_none ((hrow rfl).trans hn)
      refine (read_at hf' hj row).trans (Eq.trans ?_ (read_at hf hold row).symm)
      rw [hpast j (not_lt.1 hij), hpast (j + 1) (by omega)]

theorem den_withoutColumn (hf : s.Fresh) {i : Nat} (hf' : (s.withoutColumn i).Fresh)
    (hrow : layout = none → row.length ≤ i) :
    (layoutMeaning cfg (s.withoutColumn i) hf').den layout row
      = ((layoutMeaning cfg s hf).den layout row).eraseIdx i := hf.values_withoutColumn hf' hrow

/-! ## Renaming a column -/

def Schema.withName (s : Schema) (old new : String) : Schema :=
  { s with
    columns := s.columns.map fun c => { c with name := renamed old new c.name }
    indexes := s.indexes.map fun idx => { idx with columns := idx.columns.map (renamed old new) } }

theorem currentLayout_withName (s : Schema) (old new : String) :
    (s.withName old new).currentLayout = s.currentLayout := map_map

theorem den_withName (hf : s.Fresh) {old new : String} (hf' : (s.withName old new).Fresh)
    (layout : Option StoredLayout) (row : Row) :
    (layoutMeaning cfg (s.withName old new) hf').den layout row
      = (layoutMeaning cfg s hf).den layout row := by
  show (s.columns.map _).map (fun c : Column =>
    (layout.getD (s.withName old new).currentLayout).read row c.stored) = _
  rw [currentLayout_withName, List.map_map]
  rfl

theorem Schema.nodup_names_withName {old new : String}
    (h : (s.columns.map Column.name).Nodup) (hnew : old = new ∨ ∀ d ∈ s.columns, d.name ≠ new) :
    ((s.withName old new).columns.map Column.name).Nodup := by
  have hmap : (s.withName old new).columns.map Column.name
      = (s.columns.map Column.name).map (renamed old new) := by
    show (s.columns.map _).map _ = _
    rw [List.map_map, List.map_map]
    rfl
  rw [hmap]
  refine h.map_on fun x hx y hy heq => ?_
  obtain ⟨c, hc, rfl⟩ := mem_map.1 hx
  obtain ⟨d, hd, rfl⟩ := mem_map.1 hy
  exact renamed_inj (hnew.imp_right fun hall => hall c hc) (hnew.imp_right fun hall => hall d hd) heq

end

/-! ## The table -/

def Schema.mergeGroup (s : Schema) (group : String) (sub : Option Row) : Option Row :=
  if s.localityGroups.any fun g => ((if g = group then sub else none) : Option Row).isSome then
    some (s.mergeRows fun g => if g = group then sub else none)
  else none

theorem Schema.relativeIndex_of_group {group : String}
    (hnames : (s.columns.map Column.name).Nodup) (hgroup : ∀ c ∈ s.columns, c.group = group)
    {c : Column} {i : Nat} (hi : s.columns[i]? = some c) : s.relativeIndex c = i := by
  obtain ⟨hlt, rfl⟩ := List.getElem?_eq_some_iff.mp hi
  have hall : s.groupColumns s.columns[i].group = s.columns := by
    refine filter_eq_self.2 fun d hd => ?_
    rw [hgroup d hd, hgroup _ (getElem_mem hlt)]
    simp
  unfold relativeIndex
  rw [hall, show s.columns.findIdx? (fun d => d.name = s.columns[i].name) = some i from ?_]
  · rfl
  refine findIdx?_eq_some_iff_getElem.2 ⟨hlt, by simp, fun j hj => ?_⟩
  intro heq
  have hget : (s.columns.map Column.name).get ⟨j, by simpa using hj.trans hlt⟩
      = (s.columns.map Column.name).get ⟨i, by simpa using hlt⟩ := by simpa using heq
  exact hj.ne (Fin.val_eq_of_eq (hnames.injective_get hget))

theorem Schema.mergeGroup_eq {group : String} (hf : s.Fresh)
    (hnames : (s.columns.map Column.name).Nodup) (hgroup : ∀ c ∈ s.columns, c.group = group)
    {sub : Option Row} (hne : sub ≠ none → s.columns ≠ []) :
    s.mergeGroup group sub
      = sub.map fun row => s.columns.map fun c => s.currentLayout.read row c.stored := by
  unfold mergeGroup
  cases sub with
  | none => simp
  | some row =>
    obtain ⟨c, hc⟩ := exists_mem_of_ne_nil _ (hne nofun)
    rw [if_pos (any_eq_true.2
      ⟨group, hgroup c hc ▸ group_mem_localityGroups hc, by simp⟩), map_some]
    refine congrArg some (map_congr_left fun d hd => ?_)
    obtain ⟨i, hi⟩ := mem_iff_getElem?.1 hd
    dsimp only
    rw [if_pos (hgroup d hd), bind_some, relativeIndex_of_group hnames hgroup hi,
      read_at hf hi]

/-- A write that `put` or `delete` lets through. -/
def Schema.accepts (s : Schema) (w : DbKey × Option Row) : Bool :=
  match (w.2.map s.validateRow).getD (.ok ()), s.validateKey w.1 w.2 with
  | .ok _, .ok _ => true
  | _, _ => false

theorem Schema.length_of_accepts {key : DbKey} (h : s.accepts (key, some row) = true) :
    row.length = s.columns.length := by
  unfold accepts at h
  split at h
  · next hrow hkey => exact length_of_validateRow hrow
  · cases h

def walEntry (w : DbKey × Option Row) : WalEntry DbKey Row :=
  match w.2 with
  | some row => .put w.1 row
  | none => .delete w.1

theorem mutations_walEntry (ws : List (DbKey × Option Row)) :
    WalEntry.mutations (ws.map walEntry) = ws := by
  unfold WalEntry.mutations
  rw [filterMap_map]
  have hsome : WalEntry.mutation? ∘ walEntry = some := by
    funext ⟨k, w⟩
    cases w <;> rfl
  rw [hsome, filterMap_some]

section

variable [ByteSize Row]

/-- `alter_table_drop_column` has flushed the memtables. -/
def Alter.ready (op : Alter) (e : Engine DbKey Row StoredLayout) : Bool :=
  match op with
  | .dropColumn _ => e.active.isEmpty && e.immutable.isEmpty
  | _ => true

/-- The engine after a change; a rename leaves it alone. -/
def Alter.relayout (op : Alter) (schema : Schema) (u : Live DbKey Row StoredLayout) :
    Live DbKey Row StoredLayout :=
  match op with
  | .renameColumn _ _ => u
  | _ => u.setTargetLayout (some schema.currentLayout)

/-- Its `schema.bin` and the directory of its engine. -/
structure AlterTable where
  machine : Machine DbKey Row StoredLayout
  schema : Schema

namespace AlterTable

def create (columns : List Column) : AlterTable := ⟨.fresh, .new columns⟩

def step (cfg : TableConfig) (group : String) (t : AlterTable) : TableEvent → Option AlterTable
  | .write ws =>
    if ws.all t.schema.accepts then
      (t.machine.stepAt cfg.engine (some t.schema.currentLayout) (.commit (ws.map walEntry))).map
        (⟨·, t.schema⟩)
    else none
  | .engine (.commit _) => none
  | .engine ev => (t.machine.stepAt cfg.engine (some t.schema.currentLayout) ev).map (⟨·, t.schema⟩)
  | .alter op => match t.machine.mode, t.schema.alter op with
    | .up u, .ok schema =>
      if op.ready u.engine ∧ ∀ c ∈ schema.columns, c.group = group then
        some ⟨⟨t.machine.disk, .up (op.relayout schema u)⟩, schema⟩
      else none
    | _, _ => none

/-- `Table::get`, of all columns; `none` when the table is not open. -/
def get (cfg : TableConfig) (group : String) (t : AlterTable) (key : DbKey) :
    Option (Except StorageError (Option Row)) :=
  match t.machine.mode with
  | .up u => some ((u.engine.get cfg.engine key).map (t.schema.mergeGroup group))
  | _ => none

/-- The engine's steps are safe, and no row under the empty layout reaches a dropped column. -/
def StepSafe (cfg : TableConfig) (t : AlterTable) : TableEvent → Prop
  | .write ws => t.machine.StepSafe cfg.engine (.commit (ws.map walEntry))
  | .engine ev => t.machine.StepSafe cfg.engine ev
  | .alter (.dropColumn name) => ∀ f ∈ t.machine.disk.files, f.layout = none → ∀ x ∈ f.entries,
      ∀ row ∈ x.2, row.length ≤ (t.schema.columnIndex name).getD 0
  | .alter _ => True

end AlterTable

/-! ## Every step keeps what was written -/

structure AlterTable.Inv (cfg : TableConfig) (group : String) (t : AlterTable) (a : WrittenTable) :
    Prop where
  schema : a.schema = t.schema
  fresh : t.schema.Fresh
  names : (t.schema.columns.map Column.name).Nodup
  group : ∀ c ∈ t.schema.columns, c.group = group
  means : t.machine.Means (layoutMeaning cfg t.schema fresh) a.row
  holds : t.machine.Holds t.schema.RowOk
  known : ∀ k values, a.rows k = some values → ∀ id, values id ≠ none → id < t.schema.nextColumnId
  keyed : ∀ k, a.rows k ≠ none → ∃ c ∈ t.schema.columns, c.isPrimaryKey = true

section

variable {cfg : TableConfig} {group : String} {t t' : AlterTable} {a : WrittenTable}

theorem AlterTable.Inv.create {columns : List Column} (hnames : (columns.map Column.name).Nodup)
    (hgroup : ∀ c ∈ columns, c.group = group) :
    Inv cfg group (.create columns) (.new columns) := by
  have hname : (Schema.new columns).columns.map Column.name = columns.map Column.name := by
    unfold Schema.new
    rw [List.map_map]
    show columns.zipIdx.map (Column.name ∘ Prod.fst) = _
    rw [← List.map_map, List.zipIdx_map_fst]
  refine ⟨rfl, Schema.fresh_new columns, hname ▸ hnames, fun c hc => ?_, ?_, ?_, nofun,
    fun k h => absurd rfl h⟩
  · obtain ⟨x, hx, rfl⟩ := mem_map.1 hc
    exact hgroup x.1 (fst_mem_of_mem_zipIdx hx)
  · refine ⟨rfl, ∅, .fresh, .empty, fun _ => rfl, ⟨.nil, nofun, fun n f => ⟨nofun, nofun⟩⟩, ?_, nofun,
      fun k => rfl⟩
    exact ⟨.nil, fun _ _ => .nil, nofun, nofun, nofun, fun _ => .nil⟩
  · exact ⟨⟨nofun, nofun, nofun⟩, nofun⟩

theorem AlterTable.Inv.write (h : t.Inv cfg group a) {ws : List (DbKey × Option Row)}
    (hok : t.StepSafe cfg (.write ws)) (hs : t.step cfg group (.write ws) = some t') :
    t'.Inv cfg group (a.step (.write ws)) := by
  simp only [AlterTable.step] at hs
  split at hs
  swap
  · cases hs
  next hacc =>
  rw [List.all_eq_true] at hacc
  obtain ⟨m, hm, rfl⟩ := map_eq_some_iff.1 hs
  have hmuts : (Event.commit (ws.map walEntry)).mutations = ws := mutations_walEntry ws
  have hputs : Puts (t.schema.RowOk none) (Event.commit (ws.map walEntry)).mutations := by
    rw [hmuts]
    rintro ⟨k, w⟩ hw row rfl
    exact (Schema.length_of_accepts (hacc _ hw)).le
  have hmeans := h.means.stepAt layoutMeaning_none hok hm
  rw [hmuts] at hmeans
  refine ⟨h.schema, h.fresh, h.names, h.group, ?_, h.holds.stepAt h.means h.fresh.rowOk hputs hm,
    fun k values hv => ?_, fun k hk => ?_⟩
  · convert hmeans using 2 with k
    rw [WrittenTable.row_write, h.schema]
    cases lastWrite ws k <;> rfl
  · rw [WrittenTable.rows_write] at hv
    split at hv
    · next w hw =>
      obtain ⟨row, -, rfl⟩ := map_eq_some_iff.1 hv
      rw [h.schema]
      exact fun id => h.fresh.lt_of_valuesById
    · exact h.known k values hv
  · rw [WrittenTable.rows_write] at hk
    split at hk
    · next w hw =>
      have hacc := hacc _ (mem_of_lastWrite hw)
      have hne : t.schema.primaryKey ≠ [] := by
        intro hnil
        unfold Schema.accepts Schema.validateKey at hacc
        rw [hnil] at hacc
        split at hacc
        · next hkey => cases hkey
        · cases hacc
      obtain ⟨x, hx⟩ := exists_mem_of_ne_nil _ hne
      obtain ⟨hx, hkey⟩ := mem_filter.1 hx
      exact ⟨x.1, fst_mem_of_mem_zipIdx hx, hkey⟩
    · exact h.keyed k hk

theorem AlterTable.Inv.engine (h : t.Inv cfg group a) {ev : Event DbKey Row}
    (hok : t.StepSafe cfg (.engine ev)) (hs : t.step cfg group (.engine ev) = some t') :
    t'.Inv cfg group (a.step (.engine ev)) := by
  have hev : ev.mutations = [] ∧ ∃ m,
      t.machine.stepAt cfg.engine (some t.schema.currentLayout) ev = some m ∧ ⟨m, t.schema⟩ = t' := by
    cases ev with
    | commit es => cases hs
    | _ => exact ⟨rfl, map_eq_some_iff.1 hs⟩
  obtain ⟨hmuts, m, hm, rfl⟩ := hev
  have hmeans := h.means.stepAt layoutMeaning_none hok hm
  rw [hmuts] at hmeans
  exact ⟨h.schema, h.fresh, h.names, h.group, hmeans,
    h.holds.stepAt h.means h.fresh.rowOk (hmuts ▸ fun w hw => absurd hw not_mem_nil) hm,
    h.known, h.keyed⟩

/-! ## Changes of the schema -/

theorem AlterTable.step_alter {op : Alter} (hs : t.step cfg group (.alter op) = some t') :
    ∃ u schema, t.machine.mode = .up u ∧ t.schema.alter op = .ok schema ∧
      op.ready u.engine = true ∧ (∀ c ∈ schema.columns, c.group = group) ∧
      t' = ⟨⟨t.machine.disk, .up (op.relayout schema u)⟩, schema⟩ := by
  simp only [step] at hs
  split at hs
  · next u schema hmode halter =>
    split at hs
    · next hready => exact ⟨u, schema, hmode, halter, hready.1, hready.2, (some.inj hs).symm⟩
    · cases hs
  · cases hs

section

variable {d : Disk DbKey Row StoredLayout} {u : Live DbKey Row StoredLayout} {s : Schema}

theorem AlterTable.Inv.addColumn (h : Inv cfg group ⟨⟨d, .up u⟩, s⟩ a) {c : Column}
    (hname : ∀ e ∈ s.columns, e.name ≠ c.name)
    (hgroup : ∀ e ∈ (s.withColumn c).columns, e.group = group) (hfresh : (s.withColumn c).Fresh) :
    Inv cfg group ⟨⟨d, .up (u.setTargetLayout (some (s.withColumn c).currentLayout))⟩,
      s.withColumn c⟩ { a with schema := s.withColumn c } := by
  obtain ⟨hschema, hf, hnames, -, hmeans, hholds, hknown, hkeyed⟩ := h
  obtain ⟨hrun, hview⟩ := hmeans.1.relabel hholds.disk
    (layoutMeaning cfg (s.withColumn c) hfresh) (· ++ [c.default])
    (fun l row hrow => den_withColumn cfg hf hfresh hrow) fun row hrow => den_withColumn cfg hf hfresh hrow
  refine ⟨rfl, hfresh, Schema.nodup_names_withColumn hnames hname, hgroup, ⟨hrun, fun k => ?_⟩,
    ⟨hholds.disk.imp ?_, nofun⟩, fun k values hv id hid => (hknown k values hv id hid).trans
      (Nat.lt_succ_self _), fun k hk => ?_⟩
  · rw [hview k, hmeans.2 k]
    unfold WrittenTable.row
    cases hrow : a.rows k with
    | none => rfl
    | some values =>
      refine congrArg some ?_
      have hnew : values s.nextColumnId = none := by
        by_contra hne
        exact absurd (hknown k values hrow _ hne) (lt_irrefl _)
      show a.schema.columns.map _ ++ [c.default] = (s.columns ++ [_]).map _
      rw [hschema, map_append, map_singleton, hnew]
      rfl
  · rintro (_ | l) row hrow
    · exact Nat.le_trans hrow (by simp [Schema.withColumn])
    · exact fun e he => (hrow e he).trans (Nat.lt_succ_self _)
  · obtain ⟨e, he, hkey⟩ := hkeyed k hk
    exact ⟨e, mem_append_left _ he, hkey⟩

theorem AlterTable.Inv.renameColumn (h : Inv cfg group ⟨⟨d, .up u⟩, s⟩ a) {old new : String}
    (hnew : old = new ∨ ∀ e ∈ s.columns, e.name ≠ new)
    (hgroup : ∀ e ∈ (s.withName old new).columns, e.group = group)
    (hfresh : (s.withName old new).Fresh) :
    Inv cfg group ⟨⟨d, .up u⟩, s.withName old new⟩ { a with schema := s.withName old new } := by
  obtain ⟨hschema, hf, hnames, -, hmeans, hholds, hknown, hkeyed⟩ := h
  obtain ⟨hrun, hview⟩ := hmeans.1.relabel hholds.disk
    (layoutMeaning cfg (s.withName old new) hfresh) id
    (fun l row _ => den_withName cfg hf hfresh l row) fun row _ => den_withName cfg hf hfresh none row
  have hu : u.setTargetLayout (some (s.withName old new).currentLayout) = u := by
    rw [currentLayout_withName, Live.setTargetLayout_self hmeans.1.inv.layout]
  rw [hu] at hrun hview
  refine ⟨rfl, hfresh, Schema.nodup_names_withName hnames hnew, hgroup, ⟨hrun, fun k => ?_⟩,
    ⟨hholds.disk.imp ?_, nofun⟩, hknown, fun k hk => ?_⟩
  · rw [hview k, hmeans.2 k]
    show Option.map id ((a.rows k).map fun values => a.schema.columns.map _) =
      (a.rows k).map fun values => (s.columns.map _).map _
    rw [Option.map_id, hschema]
    simp only [List.map_map]
    rfl
  · rintro (_ | l) row hrow
    · exact Nat.le_trans hrow (by simp [Schema.withName])
    · exact hrow
  · obtain ⟨e, he, hkey⟩ := hkeyed k hk
    exact ⟨_, mem_map_of_mem he, hkey⟩

theorem puts_of_flushed {T : Option StoredLayout} {M : Meaning cfg.engine T Row} (h : Running M d u)
    (hactive : u.engine.active.isEmpty = true) (hqueue : u.engine.immutable = []) {P : Row → Prop} :
    ∀ x ∈ d.segments.entries, Puts P x.2.writes := by
  intro x hx w hw
  have hget := SortedMap.mem_entries.1 hx
  rcases h.segments.only x.1 x.2 hget with hid | ⟨i, hi, -⟩
  · obtain ⟨seg, hseg, hlog⟩ := h.segments.active
    rw [← hid, hget] at hseg
    cases hseg
    have hnone := hlog.writes w.1
    rw [MemTable.get_eq_none_of_isEmpty hactive] at hnone
    have hmem : w ∉ x.2.writes.reverse := fun hmem =>
      absurd (lookup_eq_none.1 hnone w hmem) (by simp)
    exact absurd (mem_reverse.2 hw) hmem
  · rw [hqueue] at hi
    cases hi

theorem AlterTable.Inv.dropColumn (h : Inv cfg group ⟨⟨d, .up u⟩, s⟩ a) {i : Nat}
    (hactive : u.engine.active.isEmpty = true) (hqueue : u.engine.immutable = [])
    (hfiles : ∀ f ∈ d.files, f.layout = none → ∀ x ∈ f.entries, ∀ row ∈ x.2, row.length ≤ i)
    (hi : i < s.columns.length) (hkey : ∀ c, s.columns[i]? = some c → c.isPrimaryKey = false)
    (hgroup : ∀ e ∈ (s.withoutColumn i).columns, e.group = group)
    (hfresh : (s.withoutColumn i).Fresh) :
    Inv cfg group ⟨⟨d, .up (u.setTargetLayout (some (s.withoutColumn i).currentLayout))⟩,
      s.withoutColumn i⟩ { a with schema := s.withoutColumn i } := by
  obtain ⟨hschema, hf, hnames, -, hmeans, hholds, hknown, hkeyed⟩ := h
  have hstrong : d.Holds fun l row => s.RowOk l row ∧ (l = none → row.length ≤ i) := by
    refine ⟨fun f hf x hx row hrow => ⟨hholds.disk.files f hf x hx row hrow, fun hl =>
      hfiles f hf hl x hx row hrow⟩, puts_of_flushed hmeans.1 hactive hqueue, fun x hx => ?_⟩
    rw [hmeans.1.synced] at hx
    cases hx
  obtain ⟨hrun, hview⟩ := hmeans.1.relabel hstrong
    (layoutMeaning cfg (s.withoutColumn i) hfresh) (·.eraseIdx i)
    (fun l row hrow => den_withoutColumn cfg hf hfresh hrow.2)
    fun row hrow => den_withoutColumn cfg hf hfresh hrow.2
  refine ⟨rfl, hfresh, hnames.sublist ((eraseIdx_sublist ..).map _), hgroup,
    ⟨hrun, fun k => ?_⟩, ⟨hstrong.imp ?_, nofun⟩, hknown, fun k hk => ?_⟩
  · rw [hview k, hmeans.2 k]
    unfold WrittenTable.row
    rw [Option.map_map, hschema]
    refine congrArg (Option.map · (a.rows k)) (funext fun values => ?_)
    exact eraseIdx_map ..
  · rintro (_ | l) row ⟨hrow, hlen⟩
    · show row.length ≤ (s.columns.eraseIdx i).length
      have := hlen rfl
      rw [length_eraseIdx_of_lt hi]
      omega
    · exact hrow
  · obtain ⟨c, hc, hpk⟩ := hkeyed k hk
    refine ⟨c, mem_eraseIdx_iff_getElem?.2 ?_, hpk⟩
    obtain ⟨j, hj⟩ := mem_iff_getElem?.1 hc
    refine ⟨j, fun hji => ?_, hj⟩
    rw [hkey c (hji ▸ hj)] at hpk
    cases hpk

end

theorem AlterTable.Inv.alter (h : t.Inv cfg group a) {op : Alter}
    (hok : t.StepSafe cfg (.alter op)) (hs : t.step cfg group (.alter op) = some t') :
    t'.Inv cfg group (a.step (.alter op)) := by
  obtain ⟨u, schema, hmode, halter, hready, hgroup, rfl⟩ := step_alter hs
  have hfresh := h.fresh.altered (Schema.altered_of_alter halter)
  rw [WrittenTable.step_alter (h.schema ▸ halter)]
  obtain ⟨⟨d, mode⟩, s⟩ := t
  cases hmode
  rcases Schema.alter_cases halter with ⟨_, c, rfl, hname, -, rfl⟩ | ⟨old, new, rfl, hnew, rfl⟩ |
    ⟨name, i, rfl, hi, hkey, rfl⟩
  · exact h.addColumn hname hgroup hfresh
  · exact h.renameColumn hnew hgroup hfresh
  · obtain ⟨hactive, hqueue⟩ := Bool.and_eq_true_iff.1 hready
    have hok' : ∀ f ∈ d.files, f.layout = none → ∀ x ∈ f.entries, ∀ row ∈ x.2, row.length ≤ i := by
      have hcond : ∀ f ∈ d.files, f.layout = none → ∀ x ∈ f.entries, ∀ row ∈ x.2,
        row.length ≤ (s.columnIndex name).getD 0 := hok
      rwa [hi] at hcond
    obtain ⟨hlt, -, -⟩ := findIdx?_eq_some_iff_getElem.1 hi
    exact h.dropColumn hactive (isEmpty_iff.1 hqueue) hok' hlt hkey hgroup hfresh

theorem AlterTable.Inv.step (h : t.Inv cfg group a) {ev : TableEvent} (hok : t.StepSafe cfg ev)
    (hs : t.step cfg group ev = some t') : t'.Inv cfg group (a.step ev) := by
  cases ev with
  | write ws => exact h.write hok hs
  | engine ev => exact h.engine hok hs
  | alter op => exact h.alter hok hs

theorem AlterTable.Inv.get (h : t.Inv cfg group a) {u : Live DbKey Row StoredLayout}
    (hup : t.machine.mode = .up u) (k : DbKey) : t.get cfg group k = some (.ok (a.row k)) := by
  have hmeans := h.means
  unfold Machine.Means at hmeans
  rw [hup] at hmeans
  obtain ⟨w, hw, hview⟩ := (layoutMeaning cfg t.schema h.fresh).get_eq hmeans.1.inv.layout k
  rw [hmeans.2 k] at hview
  unfold AlterTable.get
  rw [hup]
  show some ((u.engine.get cfg.engine k).map (t.schema.mergeGroup group)) = _
  rw [hw]
  refine congrArg (fun row => some (Except.ok row)) ?_
  rw [Schema.mergeGroup_eq h.fresh h.names h.group, ← hview]
  · rfl
  · intro hne hnil
    have hrow : a.rows k ≠ none := fun hnone => by
      rw [WrittenTable.row, hnone, map_none, map_eq_none_iff] at hview
      exact hne hview
    obtain ⟨c, hc, -⟩ := h.keyed k hrow
    rw [hnil] at hc
    cases hc

end

/-- **Lazy changes.** In every run of safe steps, an open table with distinct column names in one
group returns for each live column the value last written for its id, or its default. -/
theorem get_eq_written (cfg : TableConfig) (group : String) {columns : List Column}
    (hnames : (columns.map Column.name).Nodup) (hgroup : ∀ c ∈ columns, c.group = group)
    {evs : List TableEvent} {t : AlterTable}
    (hrun : Run (AlterTable.step cfg group) (AlterTable.StepSafe cfg) (.create columns) evs t)
    {u : Live DbKey Row StoredLayout} (hup : t.machine.mode = .up u) (key : DbKey) :
    t.get cfg group key = some (.ok ((evs.foldl WrittenTable.step (.new columns)).row key)) := by
  have hinv : t.Inv cfg group (evs.foldl WrittenTable.step (.new columns)) := by
    refine hrun.invariant (I := fun evs t => t.Inv cfg group
      (evs.foldl WrittenTable.step (.new columns))) (.create hnames hgroup) ?_
    intro evs t ev t' h hok hs
    rw [foldl_append]
    exact h.step hok hs
  exact hinv.get hup key

instance AlterTable.decidableStepSafe (cfg : TableConfig) (t : AlterTable) : (ev : TableEvent) → Decidable (t.StepSafe cfg ev)
  | .write ws => inferInstanceAs (Decidable (t.machine.StepSafe cfg.engine (.commit (ws.map walEntry))))
  | .engine ev => inferInstanceAs (Decidable (t.machine.StepSafe cfg.engine ev))
  | .alter (.dropColumn _) => inferInstanceAs (Decidable (∀ f ∈ t.machine.disk.files, _ →
      ∀ x ∈ f.entries, ∀ row ∈ x.2, _ ≤ _))
  | .alter (.addColumn ..) | .alter (.renameColumn ..) => .isTrue trivial

end

/-! ## Concrete runs -/

/-- Sizes for the runs below. -/
instance rowByteSize : ByteSize Row := ⟨fun row => (row.map byteSize).sum⟩

def plainTable : TableConfig := ⟨{}, fun r => r.entries.length, fun es => es.length⟩

def flagColumn (name : String) : Column := ⟨0, name, .bool, false, true, none, none, false⟩

def flagColumns : List Column :=
  [{ flagColumn "k" with isPrimaryKey := true, isNullable := false }, flagColumn "a", flagColumn "b"]

/-- An open that gets through its first `n` steps. -/
def tableOpen (n : Nat) : List TableEvent :=
  .engine .startOpen :: replicate n (.engine .openStep)

def putFlags (row : List Bool) : TableEvent :=
  .write [(.bool (row.headD true), some (row.map .bool))]

def addDropTrace : List TableEvent :=
  tableOpen 6 ++ [putFlags [true, true, false], .engine (.crash [])] ++ tableOpen 12 ++
    [.alter (.addColumn false { flagColumn "c" with defaultValue := some (.bool true) }),
      putFlags [false, true, false, false], .engine .sealActive, .engine (.claim 1),
      .engine (.finish 1), .engine .retire, .alter (.dropColumn "c")]

theorem get_addDropTrace : ∃ t u,
    Run (AlterTable.step plainTable "") (AlterTable.StepSafe plainTable) (.create flagColumns)
      addDropTrace t ∧ t.machine.mode = .up u ∧
    t.get plainTable "" (.bool true) = some (.ok (some [.bool true, .bool true, .bool false])) := by
  simp only [exists_and_left]
  refine Run.exists_of_exec (p := fun t => (t.machine.read plainTable.engine (.bool true)).isSome = true)
    (by decide +kernel) fun t ht hread => ?_
  obtain ⟨u, hu⟩ := Machine.exists_up_of_read hread
  have hget := get_eq_written plainTable "" (by decide) (by decide) ht hu (.bool true)
  have hrow : (addDropTrace.foldl WrittenTable.step (.new flagColumns)).row (.bool true)
      = some [.bool true, .bool true, .bool false] := by
    decide +kernel
  exact ⟨u, hu, hget.trans (by rw [hrow])⟩

/-- A row is recovered, and its middle column is dropped. -/
def recoveredDropTrace : List TableEvent :=
  tableOpen 6 ++ [putFlags [true, true, false], .engine (.crash [])] ++ tableOpen 12 ++
    [.alter (.dropColumn "a")]

/-- The recovered row is read as if it had been written without the dropped column. -/
theorem get_recoveredDropTrace :
    ((exec (AlterTable.step plainTable "") (.create flagColumns) recoveredDropTrace).bind fun t =>
      t.get plainTable "" (.bool true)) = some (.ok (some [.bool true, .bool true])) ∧
    (recoveredDropTrace.foldl WrittenTable.step (.new flagColumns)).row (.bool true)
      = some [.bool true, .bool false] := by
  constructor <;> decide +kernel

end Dtdb.Relational
