import Mathlib.Data.List.InsertIdx
import Dtdb.Relational.Schema

/-! # Changing a schema

`ALTER TABLE` changes the schema and leaves the stored rows, each read by the layout it was written
in, a list of column ids.  `Descends`: some columns are left, in their order, and new ones follow.
-/

namespace Dtdb.Relational

open Dtdb.Lib Dtdb.Storage List Option

/-! ## Layouts -/

structure StoredColumn where
  id : Nat
  defaultValue : Option DbValue
deriving DecidableEq

abbrev StoredLayout := List StoredColumn

def StoredColumn.default (c : StoredColumn) : DbValue := c.defaultValue.getD .null

def Schema.currentLayout (s : Schema) : StoredLayout :=
  s.columns.map fun c => ⟨c.id, c.defaultValue⟩

def StoredLayout.read (src : StoredLayout) (row : Row) (d : StoredColumn) : DbValue :=
  ((src.findIdx? fun c => c.id = d.id).bind fun i => row[i]?).getD d.default

/-- `RelationalValueRewriter::rewrite`; rows under the empty layout are taken to be in a prefix of
the new one. -/
def rewrite (src dst : Option StoredLayout) (row : Row) : Row :=
  if src = dst then row
  else match dst with
    | none => row
    | some dst => dst.map ((src.getD (dst.take row.length)).read row)

/-! ## The changes -/

/-- Why a change is rejected (`RelationalError::SchemaMismatch`). -/
inductive AlterError where
  | columnExists (column : String)
  | noPrimaryKey
  | notNullWithoutDefault (column : String)
  | localityGroup (group : String)
  | columnMissing (column : String)
  | primaryKeyColumn (column : String)
  | indexedColumn (column index : String)
deriving DecidableEq

namespace Schema

/-- `Schema::new`: columns are numbered from zero. -/
def new (columns : List Column) : Schema :=
  ⟨columns.zipIdx.map fun x => { x.1 with id := x.2 }, columns.length, []⟩

/-- `alter_table_add_column`; `isEmpty` is whether the table has no rows. -/
def addColumn (s : Schema) (isEmpty : Bool) (c : Column) : Except AlterError Schema :=
  if (s.columnIndex c.name).isSome then .error (.columnExists c.name)
  else if (!c.isNullable && c.defaultValue.isNone) && s.primaryKey.isEmpty then .error .noPrimaryKey
  else if (!c.isNullable && c.defaultValue.isNone) && !isEmpty then
    .error (.notNullWithoutDefault c.name)
  else if c.group ≠ "" then .error (.localityGroup c.group)
  else .ok { s with
    columns := s.columns ++ [{ c with id := s.nextColumnId }]
    nextColumnId := s.nextColumnId + 1 }

def renamed (old new name : String) : String := if name = old then new else name

def renameColumn (s : Schema) (old new : String) : Except AlterError Schema :=
  if (s.columnIndex old).isNone then .error (.columnMissing old)
  else if old ≠ new ∧ (s.columnIndex new).isSome then .error (.columnExists new)
  else .ok { s with
    columns := s.columns.map fun c => { c with name := renamed old new c.name }
    indexes := s.indexes.map fun idx => { idx with columns := idx.columns.map (renamed old new) } }

def dropColumn (s : Schema) (name : String) : Except AlterError Schema :=
  match s.columnIndex name with
  | none => .error (.columnMissing name)
  | some i =>
    if (s.columns[i]?).any (·.isPrimaryKey) then .error (.primaryKeyColumn name)
    else match s.indexes.find? fun idx => name ∈ idx.columns with
      | some idx => .error (.indexedColumn name idx.name)
      | none => .ok { s with columns := s.columns.eraseIdx i }

end Schema

inductive Alter where
  | addColumn (isEmpty : Bool) (column : Column)
  | renameColumn (old new : String)
  | dropColumn (name : String)
deriving DecidableEq

def Schema.alter (s : Schema) : Alter → Except AlterError Schema
  | .addColumn isEmpty column => s.addColumn isEmpty column
  | .renameColumn old new => s.renameColumn old new
  | .dropColumn name => s.dropColumn name

def Schema.alters (s : Schema) (ops : List Alter) : Except AlterError Schema :=
  ops.foldlM Schema.alter s

/-! ## What a change does -/

namespace Schema

variable {s s' : Schema}

theorem columnIndex_eq_none {name : String} :
    s.columnIndex name = none ↔ ∀ c ∈ s.columns, c.name ≠ name := by
  unfold columnIndex
  simp

/-- The three changes, when they are accepted. -/
inductive Altered (s : Schema) : Schema → Prop where
  | add (c : Column) (hname : ∀ d ∈ s.columns, d.name ≠ c.name) (hgroup : c.group = "") :
      Altered s { s with
        columns := s.columns ++ [{ c with id := s.nextColumnId }]
        nextColumnId := s.nextColumnId + 1 }
  | rename (old new : String) (hnew : old = new ∨ ∀ d ∈ s.columns, d.name ≠ new) :
      Altered s { s with
        columns := s.columns.map fun c => { c with name := renamed old new c.name }
        indexes := s.indexes.map fun idx => { idx with columns := idx.columns.map (renamed old new) } }
  | drop (i : Nat) : Altered s { s with columns := s.columns.eraseIdx i }

theorem alter_cases {op : Alter} (h : s.alter op = .ok s') :
    (∃ isEmpty c, op = .addColumn isEmpty c ∧ (∀ d ∈ s.columns, d.name ≠ c.name) ∧ c.group = "" ∧
      s' = { s with
        columns := s.columns ++ [{ c with id := s.nextColumnId }]
        nextColumnId := s.nextColumnId + 1 }) ∨
    (∃ old new, op = .renameColumn old new ∧ (old = new ∨ ∀ d ∈ s.columns, d.name ≠ new) ∧
      s' = { s with
        columns := s.columns.map fun c => { c with name := renamed old new c.name }
        indexes := s.indexes.map fun idx =>
          { idx with columns := idx.columns.map (renamed old new) } }) ∨
    ∃ name i, op = .dropColumn name ∧ s.columnIndex name = some i ∧
      (∀ c, s.columns[i]? = some c → c.isPrimaryKey = false) ∧
      s' = { s with columns := s.columns.eraseIdx i } := by
  cases op with
  | addColumn isEmpty c =>
    simp only [alter, addColumn] at h
    split at h
    · cases h
    next hname =>
    split at h
    · cases h
    split at h
    · cases h
    split at h
    · cases h
    next hgroup =>
    cases h
    exact .inl ⟨isEmpty, c, rfl, columnIndex_eq_none.1 (by simpa using hname), not_not.1 hgroup, rfl⟩
  | renameColumn old new =>
    simp only [alter, renameColumn] at h
    split at h
    · cases h
    split at h
    · cases h
    next hnew =>
    cases h
    refine .inr (.inl ⟨old, new, rfl, ?_, rfl⟩)
    by_cases heq : old = new
    · exact .inl heq
    · exact .inr (columnIndex_eq_none.1 (by simpa [heq] using hnew))
  | dropColumn name =>
    simp only [alter, dropColumn] at h
    split at h
    · cases h
    next i hi =>
    split at h
    · cases h
    next hkey =>
    split at h
    · cases h
    · cases h
      refine .inr (.inr ⟨name, i, rfl, hi, fun c hc => ?_, rfl⟩)
      simpa [hc] using hkey

theorem altered_of_alter {op : Alter} (h : s.alter op = .ok s') : s.Altered s' := by
  rcases alter_cases h with ⟨_, c, -, hname, hgroup, rfl⟩ | ⟨old, new, -, hnew, rfl⟩ |
    ⟨_, i, -, -, -, rfl⟩
  · exact .add c hname hgroup
  · exact .rename old new hnew
  · exact .drop i

/-! ## Column ids -/

/-- Ids are distinct and were all given out. -/
structure Fresh (s : Schema) : Prop where
  nodup : (s.columns.map Column.id).Nodup
  lt : ∀ c ∈ s.columns, c.id < s.nextColumnId

theorem fresh_new (columns : List Column) : (new columns).Fresh := by
  have hids : (new columns).columns.map Column.id = range columns.length := by
    unfold new
    rw [List.map_map]
    exact (zipIdx_map_snd 0 columns).trans range_eq_range'.symm
  constructor
  · rw [hids]
    exact nodup_range
  · intro c hc
    exact mem_range.1 (hids ▸ mem_map_of_mem hc)

theorem Fresh.altered (h : s.Fresh) (ha : s.Altered s') : s'.Fresh := by
  cases ha with
  | add c hname hgroup =>
    constructor
    · rw [map_append, nodup_append]
      refine ⟨h.nodup, by simp, ?_⟩
      intro a ha b hb
      obtain ⟨d, hd, rfl⟩ := mem_map.1 ha
      cases mem_singleton.1 hb
      exact (h.lt d hd).ne
    · intro d hd
      rcases mem_append.1 hd with hd | hd
      · exact (h.lt d hd).trans (Nat.lt_succ_self _)
      · cases mem_singleton.1 hd
        exact Nat.lt_succ_self _
  | rename old new hnew =>
    constructor
    · rw [List.map_map]
      exact h.nodup
    · intro d hd
      obtain ⟨c, hc, rfl⟩ := mem_map.1 hd
      exact h.lt c hc
  | drop i =>
    constructor
    · exact h.nodup.sublist ((eraseIdx_sublist ..).map _)
    · exact fun d hd => h.lt d (mem_of_mem_eraseIdx hd)

/-! ## What any number of changes does -/

/-- The columns that are left, their new names, and the columns added. -/
structure Kept (s s' : Schema) (kept : List Column) (f : String → String) (news : List Column) :
    Prop where
  sublist : kept.Sublist s.columns
  columns : s'.columns = kept.map (fun c => { c with name := f c.name }) ++ news
  inj : ∀ c ∈ kept, ∀ d ∈ kept, f c.name = f d.name → c.name = d.name
  fresh : ∀ c ∈ news, s.nextColumnId ≤ c.id
  group : ∀ c ∈ news, c.group = ""
  alone : ∀ c ∈ news, ∀ d ∈ s'.columns, d.name = c.name → d.id = c.id
  next : s.nextColumnId ≤ s'.nextColumnId

def Descends (s s' : Schema) : Prop := ∃ kept f news, Kept s s' kept f news

theorem Descends.refl (s : Schema) : s.Descends s := by
  refine ⟨s.columns, id, [], List.Sublist.refl _, ?_, fun _ _ _ _ h => h, ?_, ?_, ?_, le_rfl⟩
  · simp
  all_goals exact fun c hc => absurd hc not_mem_nil

theorem renamed_inj {old new : String} {x y : String} (hx : old = new ∨ x ≠ new)
    (hy : old = new ∨ y ≠ new) (h : renamed old new x = renamed old new y) : x = y := by
  unfold renamed at h
  split at h <;> split at h <;> simp_all

theorem Descends.altered (h : s.Descends s') {t : Schema} (ha : s'.Altered t) : s.Descends t := by
  obtain ⟨kept, f, news, hsub, hcols, hinj, hfresh, hgroup, halone, hnext⟩ := h
  cases ha with
  | add c hname hc =>
    refine ⟨kept, f, news ++ [{ c with id := s'.nextColumnId }], hsub, ?_, hinj, ?_, ?_, ?_,
      hnext.trans (Nat.le_succ _)⟩
    · rw [hcols, append_assoc]
    · intro d hd
      rcases mem_append.1 hd with hd | hd
      · exact hfresh d hd
      · cases mem_singleton.1 hd
        exact hnext
    · intro d hd
      rcases mem_append.1 hd with hd | hd
      · exact hgroup d hd
      · cases mem_singleton.1 hd
        exact hc
    · intro d hd e he hne
      rcases mem_append.1 he with he | he
      · rcases mem_append.1 hd with hd | hd
        · exact halone d hd e he hne
        · cases mem_singleton.1 hd
          exact absurd hne (hname e he)
      · cases mem_singleton.1 he
        rcases mem_append.1 hd with hd | hd
        · have hmem : d ∈ s'.columns := hcols ▸ mem_append_right _ hd
          exact absurd hne.symm (hname d hmem)
        · cases mem_singleton.1 hd
          rfl
  | rename old new hnew =>
    have hpresent : ∀ d ∈ s'.columns, old = new ∨ d.name ≠ new := fun d hd =>
      hnew.imp_right fun hall => hall d hd
    have hkept : ∀ c ∈ kept, { c with name := f c.name } ∈ s'.columns := fun c hc =>
      hcols ▸ mem_append_left _ (mem_map_of_mem hc)
    refine ⟨kept, renamed old new ∘ f, news.map fun c => { c with name := renamed old new c.name },
      hsub, ?_, fun c hc d hd heq => hinj c hc d hd ?_, ?_, ?_, ?_, hnext⟩
    · rw [hcols, List.map_append, List.map_map]
      rfl
    · exact renamed_inj (hpresent _ (hkept c hc)) (hpresent _ (hkept d hd)) heq
    · intro d hd
      obtain ⟨c, hc, rfl⟩ := mem_map.1 hd
      exact hfresh c hc
    · intro d hd
      obtain ⟨c, hc, rfl⟩ := mem_map.1 hd
      exact hgroup c hc
    · intro d hd e he hne
      obtain ⟨c, hc, rfl⟩ := mem_map.1 hd
      obtain ⟨b, hb, rfl⟩ := mem_map.1 he
      have hmem : c ∈ s'.columns := hcols ▸ mem_append_right _ hc
      exact halone c hc b hb (renamed_inj (hpresent b hb) (hpresent c hmem) hne)
  | drop i =>
    have halone' : ∀ c ∈ news, ∀ d ∈ s'.columns.eraseIdx i, d.name = c.name → d.id = c.id :=
      fun c hc d hd => halone c hc d (mem_of_mem_eraseIdx hd)
    by_cases hi : i < (kept.map fun c => { c with name := f c.name }).length
    · refine ⟨kept.eraseIdx i, f, news, (eraseIdx_sublist ..).trans hsub, ?_, ?_, hfresh, hgroup,
        halone', hnext⟩
      · rw [hcols, eraseIdx_append_of_lt_length hi, eraseIdx_map]
      · exact fun c hc d hd => hinj c (mem_of_mem_eraseIdx hc) d (mem_of_mem_eraseIdx hd)
    · have hsub' := eraseIdx_sublist news (i - (kept.map fun c => { c with name := f c.name }).length)
      refine ⟨kept, f, _, hsub, ?_, hinj, fun c hc => hfresh c (hsub'.subset hc),
        fun c hc => hgroup c (hsub'.subset hc), fun c hc => halone' c (hsub'.subset hc), hnext⟩
      rw [hcols, eraseIdx_append_of_length_le (not_lt.1 hi)]

/-- **Any number of changes.** -/
theorem descends_of_alters {ops : List Alter} (hf : s.Fresh) (h : s.alters ops = .ok s') :
    s'.Fresh ∧ s.Descends s' := by
  suffices hrun : ∀ t, s.Descends t → t.Fresh → t.alters ops = .ok s' → s'.Fresh ∧ s.Descends s' from
    hrun s (.refl s) hf h
  clear h hf
  induction ops with
  | nil =>
    intro t hd hf h
    cases h
    exact ⟨hf, hd⟩
  | cons op ops ih =>
    intro t hd hf h
    unfold alters at h
    rw [foldlM_cons] at h
    cases ht : t.alter op with
    | error e =>
      rw [ht] at h
      cases h
    | ok t' =>
      rw [ht] at h
      have ha := altered_of_alter ht
      exact ih t' (hd.altered ha) (hf.altered ha) h

end Schema

end Dtdb.Relational
