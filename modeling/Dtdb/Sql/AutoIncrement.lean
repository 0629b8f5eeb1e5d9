import Dtdb.Sql.Atomic

/-! # Generated ids

A table whose primary key is an auto-increment column.  The sequence lives outside the table: an
INSERT moves it past the ids it is given, an UPDATE does not, and nothing stops it at the greatest
`i64`. -/

namespace Dtdb.Sql

open Dtdb.Lib Dtdb.Storage Dtdb.Relational List Option Function

/-- What is committed, the buffer of the transaction under way, and the sequences. -/
structure SeqSite where
  table : Table
  engines : Engines
  inMemory : EngineName → Bool
  nodupIds : (table.schema.columns.map Column.id).Nodup
  rowsOnly : ∀ g ∈ table.groups, ∀ x ∈ (engines (.group g)).entries, x.2.row?.isSome = true
  buffer : SortedMap DbKey (Option Row)
  sequences : Sequences

/-- The aligned values of an INSERT, the assignments of an UPDATE with its row, the row of a DELETE.
-/
inductive RowTurn where
  | insert (vals : Row)
  | update (assignments : List (String × Expr)) (row : Row)
  | delete (row : Row)

inductive SeqEvent where
  | turn (t : RowTurn)
  | commit
  | rollback
  | reopen (inMemory : EngineName → Bool)

def maxI64 : Int := 2 ^ 63 - 1

namespace SeqSite

def opened (s : SeqSite) : OpenTable := s.table.opened s.engines s.inMemory s.nodupIds s.rowsOnly

def txTable (s : SeqSite) : TxTable := ⟨s.opened, s.buffer⟩

def tx (s : SeqSite) (name : String) : Transaction := Transaction.set ⟨fun _ => none⟩ name s.txTable

def bufferOf (tx : Transaction) (name : String) : SortedMap DbKey (Option Row) :=
  ((tx.tables name).map TxTable.buffer).getD .empty

def turn (lib : Library) (name : String) (s : SeqSite) : RowTurn → SeqSite × Except Fault Unit
  | .insert vals =>
    let x := insertRow s.opened name ⟨s.tx name, s.sequences⟩ (.ok vals)
    ({ s with buffer := bufferOf x.1.tx name, sequences := x.1.sequences }, x.2)
  | .update assignments row =>
    let x := updateRow lib name s.table.schema assignments (s.tx name) row
    ({ s with buffer := bufferOf x.1 name }, x.2)
  | .delete row =>
    let x := deleteRow name s.table.schema (s.tx name) row
    ({ s with buffer := bufferOf x.1 name }, x.2)

variable {tok : Tokenizers}

theorem rowsOnly_writeBatch (s : SeqSite) {e : Engines}
    (h : s.table.writeBatch tok s.engines s.buffer.entries none = some e) :
    ∀ g ∈ s.table.groups, ∀ x ∈ (e (.group g)).entries, x.2.row?.isSome = true := by
  intro g hg x hx
  obtain ⟨bs, hbs, rfl⟩ := map_eq_some_iff.1 h
  have hget := SortedMap.mem_entries.1 hx
  rw [Table.get_write_group s.buffer.ascending.nodup hbs hg] at hget
  split at hget
  · obtain ⟨r, -, hr⟩ := map_eq_some_iff.1 hget
    rw [← hr]
    rfl
  · exact s.rowsOnly g hg x (SortedMap.mem_entries.2 hget)

/-- One event; `none` where a commit panics. -/
def step (tok : Tokenizers) (lib : Library) (name : String) (s : SeqSite) : SeqEvent → Option SeqSite
  | .turn t => some (s.turn lib name t).1
  | .commit => match h : s.table.writeBatch tok s.engines s.buffer.entries none with
    | none => none
    | some e => some { s with
        engines := e
        rowsOnly := s.rowsOnly_writeBatch h
        buffer := .empty }
  | .rollback => some { s with buffer := .empty }
  | .reopen inMemory =>
    let s : SeqSite := { s with inMemory := inMemory, buffer := .empty }
    -- the sequence is seeded from what the table holds
    let next := wrapI64 (maxAutoIncrementValue s.opened + 1)
    some { s with sequences := update s.sequences name (some next) }

/-! ## What goes wrong and when -/

def generatedId (s : SeqSite) (name : String) : I64 :=
  (nextSequenceValue s.opened name s.sequences).1

/-- An INSERT without an id gets one that no row has, and the sequence moves on by one. -/
structure GetsFreshId (lib : Library) (name : String) (i : Nat) (s : SeqSite) (vals : Row) : Prop where
  filled : (fillAutoIncrement s.opened name s.sequences vals).1 = vals.set i (.int (s.generatedId name))
  fresh : s.txTable.getProjected (.int (s.generatedId name)) none = none
  advanced : ∃ next : I64, (s.turn lib name (.insert vals)).1.sequences name = some next ∧
    next.1 = (s.generatedId name).1 + 1
  accepted : (s.turn lib name (.insert vals)).2 ≠ fail .duplicatePrimaryKey

/-- The primary key is the auto-increment column at position `i`. -/
structure AutoKey (s : Schema) (i : Nat) : Prop where
  key : ∃ c, s.primaryKey = [(c, i)] ∧ c.isAutoIncrement = true ∧ c.dataType = .int

/-- No other column is auto-increment, and no two columns have the same name. -/
structure Plain (s : Schema) : Prop where
  only : (s.columns.zipIdx.filter fun x => x.1.isAutoIncrement) = s.primaryKey
  names : (s.columns.map Column.name).Nodup

/-- Ids and the sequence stay below the greatest `i64`, and an UPDATE gives only ids that the
sequence is past. -/
def TurnSafe (lib : Library) (name : String) (i : Nat) (s : SeqSite) : SeqEvent → Prop
  | .turn (.insert vals) => match vals[i]? with
    | some .null => ∀ next ∈ s.sequences name, next.1 < maxI64
    | some (.int id) => id.1 < maxI64
    | _ => True
  | .turn (.update assignments row) => ∀ oldKey id updated,
      updateOf lib s.table.schema assignments row = .ok (oldKey, .int id, updated) →
        ∀ next ∈ s.sequences name, id < next
  | _ => True

structure Created (name : String) (s : SeqSite) : Prop where
  engines : s.engines = fun _ => .empty
  buffer : s.buffer = .empty
  sequence : s.sequences name = some (wrapI64 1)

/-! ## What a turn does -/

theorem wrapI64_of_le {n : Int} (hlo : -2 ^ 63 ≤ n) (hhi : n ≤ maxI64) : (wrapI64 n).1 = n := by
  unfold maxI64 at hhi
  show (n + 2 ^ 63) % 2 ^ 64 - 2 ^ 63 = n
  omega

theorem bufferOf_withBuffer (tx : Transaction) (name : String) (t : OpenTable)
    (b : SortedMap DbKey (Option Row)) : bufferOf (withBuffer tx name t b) name = b := by
  simp [bufferOf, withBuffer, Transaction.set]

theorem tx_eq (s : SeqSite) (name : String) :
    s.tx name = withBuffer ⟨fun _ => none⟩ name s.opened s.buffer := rfl

variable {lib : Library} {name : String} {i : Nat} {s : SeqSite}

theorem turn_insert (s : SeqSite) (vals : Row) : s.turn lib name (.insert vals) =
    ({ s with
        buffer := s.buffer.write
          (insertEffect s.opened name (s.buffer, s.sequences) (.ok vals)).writes
        sequences := (fillAutoIncrement s.opened name s.sequences vals).2 },
      outcome (insertEffect s.opened name (s.buffer, s.sequences) (.ok vals)).fault) := by
  simp only [turn]
  rw [tx_eq, insertRow_eq _ name s.opened (s.buffer, s.sequences)]
  simp [bufferOf_withBuffer, insertSequences]

theorem turn_update (s : SeqSite) (assignments : List (String × Expr)) (row : Row) :
    s.turn lib name (.update assignments row) =
      ({ s with
          buffer := s.buffer.write (updateEffect lib s.table.schema assignments row).writes },
        outcome (updateEffect lib s.table.schema assignments row).fault) := by
  have hrow := updateRow_eq ⟨fun _ => none⟩ name s.opened lib assignments s.buffer row
  simp only [turn]
  rw [tx_eq, show s.table.schema = s.opened.schema from rfl, hrow]
  simp [bufferOf_withBuffer]

theorem turn_delete (s : SeqSite) (row : Row) :
    s.turn lib name (.delete row) =
      ({ s with buffer := s.buffer.write (deleteEffect s.table.schema row).writes },
        outcome (deleteEffect s.table.schema row).fault) := by
  have hrow := deleteRow_eq ⟨fun _ => none⟩ name s.opened s.buffer row
  simp only [turn]
  rw [tx_eq, show s.table.schema = s.opened.schema from rfl, hrow]
  simp [bufferOf_withBuffer]

/-! ## What a turn puts -/

structure Own (schema : Schema) (i : Nat) (key : DbKey) (row : Row) : Prop where
  width : row.length = schema.columns.length
  key : row[i]?.bind dbValueToKey = some key

variable {schema : Schema} {key : DbKey}

theorem own_of_checkPut (hkey : AutoKey schema i) {row : Row}
    (h : checkPut schema key row = .ok ()) : Own schema i key row := by
  obtain ⟨c, hpk, -, -⟩ := hkey.key
  obtain ⟨_, hrow, hcheck⟩ := bind_eq_ok.1 h
  refine ⟨Schema.length_of_validateRow hrow, ?_⟩
  rw [Schema.validateKey, hpk] at hcheck
  simp only [Schema.checkKey] at hcheck
  split at hcheck
  · cases hcheck
  · split at hcheck
    · next hv =>
      cases hi : row[i]? with
      | none =>
        rw [hi] at hv
        cases hv
      | some v =>
        rw [hi] at hv
        exact hv
    · cases hcheck

theorem mem_checkedWrite {check : Except Schema.Mismatch Unit} {k : DbKey} {v : Option Row}
    {row : Row} (h : (k, some row) ∈ (checkedWrite check key v).writes) :
    check = .ok () ∧ k = key ∧ v = some row := by
  unfold checkedWrite at h
  split at h
  · cases mem_singleton.1 h
    exact ⟨rfl, rfl, rfl⟩
  · cases h

theorem mem_insertEffect {t : OpenTable} {b : SortedMap DbKey (Option Row)} {seqs : Sequences}
    {vals row : Row} (h : (key, some row) ∈ (insertEffect t name (b, seqs) (.ok vals)).writes) :
    row = (fillAutoIncrement t name seqs vals).1 ∧ checkPut t.schema key row = .ok () := by
  simp only [insertEffect] at h
  split at h
  · cases h
  · split at h
    · cases h
    · obtain ⟨hcheck, rfl, hrow⟩ := mem_checkedWrite h
      cases hrow
      exact ⟨rfl, hcheck⟩

theorem mem_updateEffect {assignments : List (String × Expr)} {old row : Row}
    (h : (key, some row) ∈ (updateEffect lib schema assignments old).writes) :
    (∃ oldKey, updateOf lib schema assignments old = .ok (oldKey, key, row)) ∧
      checkPut schema key row = .ok () := by
  unfold updateEffect at h
  split at h
  · cases h
  · next oldKey newKey updated hof =>
    have hput : (key, some row)
        ∈ (checkedWrite (checkPut schema newKey updated) newKey (some updated)).writes := by
      split at h
      · split at h
        · cases h
        · rcases mem_cons.1 h with h | h
          · cases h
          · exact h
      · exact h
    obtain ⟨hcheck, rfl, hrow⟩ := mem_checkedWrite hput
    cases hrow
    exact ⟨⟨oldKey, hof⟩, hcheck⟩

theorem not_mem_deleteEffect {old row : Row} :
    (key, some row) ∉ (deleteEffect schema old).writes := by
  unfold deleteEffect
  split
  · exact not_mem_nil
  · intro h
    cases (mem_checkedWrite h).2.2

/-! ## What a turn does to the sequence -/

theorem columns_of_autoKey (hkey : AutoKey schema i) :
    ∃ c, schema.columns[i]? = some c ∧ schema.primaryKey = [(c, i)] ∧ c.isAutoIncrement = true ∧
      c.dataType = .int := by
  obtain ⟨c, hpk, hauto, htype⟩ := hkey.key
  have hmem : (c, i) ∈ schema.primaryKey := by rw [hpk]; exact mem_singleton.2 rfl
  exact ⟨c, mem_zipIdx_iff_getElem?.1 (mem_filter.1 hmem).1, hpk, hauto, htype⟩

theorem fillAutoIncrement_eq {t : OpenTable} (hkey : AutoKey t.schema i) (hplain : Plain t.schema)
    (seqs : Sequences) (vals : Row) :
    fillAutoIncrement t name seqs vals = match vals[i]? with
      | some .null => (vals.set i (.int (nextSequenceValue t name seqs).1),
          (nextSequenceValue t name seqs).2)
      | some (.int v) => (vals, updateSequenceValue name v seqs)
      | _ => (vals, seqs) := by
  obtain ⟨c, -, hpk, -, -⟩ := columns_of_autoKey hkey
  unfold fillAutoIncrement
  have hfilter := hplain.only.trans hpk
  rw [← foldl_filter, hfilter]
  rfl

theorem int_of_dbValueToKey {v : Option DbValue} {id : I64}
    (h : v.bind dbValueToKey = some (.int id)) : v = some (.int id) := by
  obtain ⟨v, rfl, hv⟩ := bind_eq_some_iff.1 h
  cases v <;> simp_all [dbValueToKey]

theorem nextSequenceValue_eq {t : OpenTable} {seqs : Sequences} {next : I64}
    (h : seqs name = some next) : nextSequenceValue t name seqs
      = (next, update seqs name (some (wrapI64 (next.1 + 1)))) := by
  simp [nextSequenceValue, h]

theorem wrapI64_succ {id : I64} (h : id.1 < maxI64) : (wrapI64 (id.1 + 1)).1 = id.1 + 1 :=
  wrapI64_of_le (le_trans id.2.1 (by omega)) h

theorem lt_wrapI64_succ {id : I64} (h : id.1 < maxI64) : id < wrapI64 (id.1 + 1) := by
  show id.1 < (wrapI64 (id.1 + 1)).1
  rw [wrapI64_succ h]
  exact Int.lt_succ _

theorem sequence_of_fill {t : OpenTable} (hkey : AutoKey t.schema i) (hplain : Plain t.schema)
    {seqs : Sequences} {next : I64} (hnext : seqs name = some next) {vals : Row}
    (hsafe : match vals[i]? with
      | some .null => ∀ next ∈ seqs name, next.1 < maxI64
      | some (.int id) => id.1 < maxI64
      | _ => True) :
    ∃ next', (fillAutoIncrement t name seqs vals).2 name = some next' ∧ next ≤ next' ∧
      ∀ id, (fillAutoIncrement t name seqs vals).1[i]? = some (.int id) → id < next' := by
  rw [fillAutoIncrement_eq hkey hplain]
  split at hsafe
  · next hnull =>
    simp only [nextSequenceValue_eq hnext, update_self]
    have hstep := lt_wrapI64_succ (hsafe next hnext)
    refine ⟨_, rfl, hstep.le, fun id hid => ?_⟩
    rw [List.getElem?_set_self (List.getElem?_eq_some_iff.mp hnull).1] at hid
    cases hid
    exact hstep
  · next id hid =>
    have hstep := lt_wrapI64_succ hsafe
    simp only [updateSequenceValue, hnext]
    by_cases hle : next ≤ id
    · simp only [if_pos hle, update_self]
      refine ⟨_, rfl, hle.trans hstep.le, fun id' hid' => ?_⟩
      rw [hid] at hid'
      cases hid'
      exact hstep
    · simp [if_neg hle]
      refine ⟨next, hnext, le_rfl, fun id' hid' => ?_⟩
      rw [hid] at hid'
      cases hid'
      exact not_le.1 hle
  · next hint =>
    exact ⟨next, hnext, le_rfl, fun id hid => absurd hid (hint id)⟩

/-! ## Rows below the sequence -/

/-- Every id is below the sequence, and rows lie under their own ids. -/
structure Below (tok : Tokenizers) (name : String) (i : Nat) (s : SeqSite) : Prop where
  next : ∃ next, s.sequences name = some next ∧
    (∀ id, (s.table.get s.engines (.int id)).isSome = true → id < next) ∧
    ∀ id row, s.buffer.get (.int id) = some (some row) → id < next
  rows : ∃ rows, Represents tok s.table s.engines rows ∧
    ∀ key row, rows key = some row → Own s.table.schema i key row
  buffered : ∀ key row, s.buffer.get key = some (some row) → Own s.table.schema i key row

variable {tok : Tokenizers}

theorem Created.below (h : Created name s) (i : Nat) : Below tok name i s := by
  refine ⟨⟨_, h.sequence, fun id hid => ?_, fun id row hrow => ?_⟩, ?_, fun key row hrow => ?_⟩
  · rw [h.engines, (Represents.empty tok s.table).get_eq] at hid
    cases hid
  · rw [h.buffer] at hrow
    cases hrow
  · exact ⟨fun _ => none, h.engines ▸ .empty tok s.table, nofun⟩
  · rw [h.buffer] at hrow
    cases hrow

theorem Below.write (h : Below tok name i s) {ws : List (DbKey × Option Row)} {seqs : Sequences}
    {next' : I64} (hnext : seqs name = some next') (hle : ∀ next ∈ s.sequences name, next ≤ next')
    (hown : ∀ key row, (key, some row) ∈ ws → Own s.table.schema i key row)
    (hlt : ∀ id row, (.int id, some row) ∈ ws → id < next') :
    Below tok name i { s with buffer := s.buffer.write ws, sequences := seqs } := by
  obtain ⟨next, hseq, hcommitted, hbuffered⟩ := h.next
  have hle := hle next hseq
  refine ⟨⟨next', hnext, fun id hid => (hcommitted id hid).trans_le hle, fun id row hrow => ?_⟩,
    h.rows, fun key row hrow => ?_⟩
  · rcases SortedMap.mem_or_get_of_get_write hrow with hmem | hget
    · exact hlt id row hmem
    · exact (hbuffered id row hget).trans_le hle
  · rcases SortedMap.mem_or_get_of_get_write hrow with hmem | hget
    · exact hown key row hmem
    · exact h.buffered key row hget

theorem Below.turn (hkey : AutoKey s.table.schema i) (hplain : Plain s.table.schema)
    (h : Below tok name i s) {t : RowTurn} (hsafe : TurnSafe lib name i s (.turn t)) :
    Below tok name i (s.turn lib name t).1 := by
  obtain ⟨next, hseq, -, -⟩ := h.next
  have hself : ∀ n ∈ s.sequences name, n ≤ next := fun n hn => by
    rw [hseq] at hn
    cases hn
    exact le_rfl
  cases t with
  | insert vals =>
    obtain ⟨next', hnext', hle, hids⟩ :=
      sequence_of_fill (t := s.opened) hkey hplain hseq hsafe
    rw [turn_insert]
    refine h.write hnext' (fun n hn => (hself n hn).trans hle) (fun key row hmem => ?_)
      fun id row hmem => ?_
    · exact own_of_checkPut hkey (mem_insertEffect hmem).2
    · obtain ⟨rfl, hcheck⟩ := mem_insertEffect hmem
      exact hids id (int_of_dbValueToKey (own_of_checkPut hkey hcheck).key)
  | update assignments row =>
    rw [turn_update]
    refine h.write hseq hself (fun key row hmem => ?_) fun id row hmem => ?_
    · exact own_of_checkPut hkey (mem_updateEffect hmem).2
    · obtain ⟨⟨oldKey, hof⟩, -⟩ := mem_updateEffect hmem
      exact hsafe oldKey id row hof next hseq
  | delete row =>
    rw [turn_delete]
    exact h.write hseq hself (fun key row hmem => absurd hmem not_mem_deleteEffect)
      fun id row hmem => absurd hmem not_mem_deleteEffect

theorem isSome_get {e : Engines} {rows : DbKey → Option Row} {t : Table}
    (h : Represents tok t e rows) (hget : (t.get e key).isSome = true) :
    ∃ row, rows key = some row := by
  rw [h.get_eq, isSome_map] at hget
  exact isSome_iff_exists.1 hget

theorem Below.commit (h : Below tok name i s) {s' : SeqSite}
    (hstep : s.step tok lib name .commit = some s') : Below tok name i s' := by
  simp only [step] at hstep
  split at hstep
  · cases hstep
  next e he =>
  cases hstep
  obtain ⟨next, hseq, hcommitted, hbuffered⟩ := h.next
  obtain ⟨rows, hrep, hrows⟩ := h.rows
  obtain ⟨bs, hbs, rfl⟩ := map_eq_some_iff.1 he
  have hget : ∀ {key : DbKey} {v : Option Row}, (key, v) ∈ s.buffer.entries →
      s.buffer.get key = some v := SortedMap.mem_entries.1
  have hrep' : Represents tok s.table (s.engines.write bs) (overwrite rows s.buffer.entries) := by
    refine hrep.write s.buffer.ascending.nodup (fun key row hmem => ?_) hbs fun w _ idx key hw => ?_
    · exact (h.buffered key row (hget hmem)).width
    · rw [getD_none, hrep.entry_get]
      exact hw
  -- a row of the new table is one of the buffer or of the old table
  have hcases : ∀ {key : DbKey} {row : Row}, overwrite rows s.buffer.entries key = some row →
      s.buffer.get key = some (some row) ∨ rows key = some row := by
    intro key row hrow
    unfold overwrite at hrow
    cases hl : s.buffer.entries.lookup key with
    | none =>
      rw [hl] at hrow
      exact .inr hrow
    | some v =>
      rw [hl] at hrow
      exact .inl (hrow ▸ hl)
  refine ⟨⟨next, hseq, fun id hid => ?_, fun _ _ hrow => by cases hrow⟩,
    ⟨_, hrep', fun key row hrow => ?_⟩, fun _ _ hrow => by cases hrow⟩
  · obtain ⟨row, hrow⟩ := isSome_get hrep' hid
    rcases hcases hrow with hrow | hrow
    · exact hbuffered id row hrow
    · exact hcommitted id (by rw [hrep.get_eq, hrow]; rfl)
  · rcases hcases hrow with hrow | hrow
    · exact h.buffered key row hrow
    · exact hrows key row hrow

/-! ## The seed of the sequence -/

theorem findIdx?_isAutoIncrement (hkey : AutoKey schema i) (hplain : Plain schema) :
    schema.columns.findIdx? Column.isAutoIncrement = some i := by
  obtain ⟨c, hcol, hpk, hauto, -⟩ := columns_of_autoKey hkey
  obtain ⟨hi, rfl⟩ := List.getElem?_eq_some_iff.mp hcol
  refine findIdx?_eq_some_iff_getElem.2 ⟨hi, hauto, fun j hj hautoj => ?_⟩
  have hmem : (schema.columns[j], j) ∈ schema.columns.zipIdx.filter fun x => x.1.isAutoIncrement :=
    mem_filter.2 ⟨mem_zipIdx_iff_getElem?.2 (getElem?_eq_getElem _), hautoj⟩
  rw [hplain.only, hpk] at hmem
  have := congrArg Prod.snd (mem_singleton.1 hmem)
  omega

def raise (i : Nat) (greatest : Int) (x : DbKey × Row) : Int :=
  match x.2[i]? with
  | some (.int v) => max greatest v.1
  | _ => greatest

theorem raise_of_int {x : DbKey × Row} {v : I64} (h : x.2[i]? = some (.int v)) (greatest : Int) :
    raise i greatest x = max greatest v.1 := by
  simp [raise, h]

theorem raise_cases (i : Nat) (greatest : Int) (x : DbKey × Row) :
    raise i greatest x = greatest ∨
      ∃ v, x.2[i]? = some (.int v) ∧ raise i greatest x = max greatest v.1 := by
  unfold raise
  split
  · next v hv => exact .inr ⟨v, hv, rfl⟩
  · exact .inl rfl

theorem foldl_raise (i : Nat) (l : List (DbKey × Row)) (greatest : Int) :
    greatest ≤ l.foldl (raise i) greatest ∧
      (∀ x ∈ l, ∀ v, x.2[i]? = some (.int v) → v.1 ≤ l.foldl (raise i) greatest) ∧
      ∀ bound, greatest ≤ bound → (∀ x ∈ l, ∀ v, x.2[i]? = some (.int v) → v.1 ≤ bound) →
        l.foldl (raise i) greatest ≤ bound := by
  induction l generalizing greatest with
  | nil => exact ⟨le_rfl, nofun, fun _ h _ => h⟩
  | cons x l ih =>
    obtain ⟨hge, hids, hbound⟩ := ih (raise i greatest x)
    have hraise : greatest ≤ raise i greatest x := by
      rcases raise_cases i greatest x with h | ⟨v, -, h⟩
      · exact h.ge
      · rw [h]
        exact le_max_left ..
    refine ⟨hraise.trans hge, fun y hy v hv => ?_, fun bound hb hl => ?_⟩
    · rcases mem_cons.1 hy with rfl | hy
      · rw [raise_of_int hv] at hge
        rw [foldl_cons, raise_of_int hv]
        exact (le_max_right ..).trans hge
      · exact hids y hy v hv
    · refine hbound bound ?_ fun y hy => hl y (mem_cons_of_mem x hy)
      rcases raise_cases i greatest x with h | ⟨v, hv, h⟩
      · rwa [h]
      · rw [h]
        exact max_le hb (hl x mem_cons_self v hv)

theorem maxAutoIncrementValue_spec (hkey : AutoKey s.table.schema i) (hplain : Plain s.table.schema)
    (h : Below tok name i s) :
    maxAutoIncrementValue s.opened < maxI64 ∧ 0 ≤ maxAutoIncrementValue s.opened ∧
      ∀ id, (s.table.get s.engines (.int id)).isSome = true →
        id.1 ≤ maxAutoIncrementValue s.opened := by
  obtain ⟨c, -, hpk, -, htype⟩ := columns_of_autoKey hkey
  obtain ⟨next, -, hcommitted, -⟩ := h.next
  obtain ⟨rows, hrep, hrows⟩ := h.rows
  have hbounds : s.opened.schema.primaryKeyBounds = some (DataType.int.keyBounds) := by
    show s.table.schema.primaryKeyBounds = _
    rw [Schema.primaryKeyBounds, hpk, ← htype]
  set scan := (s.opened.filteredScan DataType.int.keyBounds.1 DataType.int.keyBounds.2 none).getD []
    with hscan
  have hmax : maxAutoIncrementValue s.opened = scan.foldl (raise i) 0 := by
    unfold maxAutoIncrementValue
    rw [show s.opened.schema.columns.findIdx? Column.isAutoIncrement = some i from
      findIdx?_isAutoIncrement hkey hplain, hbounds]
    rfl
  have hmem : ∀ key row, (key, row) ∈ scan ↔
      (DataType.int.keyBounds.1 ≤ key ∧ key ≤ DataType.int.keyBounds.2) ∧ rows key = some row := by
    intro key row
    rw [OpenTable.mem_filteredScan, opened, Table.get_opened, hrep.get_eq]
    refine and_congr_right fun _ => ?_
    cases hrow : rows key with
    | none => simp
    | some r => rw [map_some, Table.readBack_eq hplain.names (hrep.width key r hrow)]
  obtain ⟨hge, hids, hbound⟩ := foldl_raise i scan 0
  rw [hmax]
  refine ⟨?_, hge, fun id hid => ?_⟩
  · have hle := hbound (maxI64 - 1) (by decide) fun x hx v hv => ?_
    · omega
    · obtain ⟨-, hrow⟩ := (hmem x.1 x.2).1 hx
      have hkeyv := (hrows x.1 x.2 hrow).key
      rw [hv] at hkeyv
      have hx1 : x.1 = .int v := (some.inj hkeyv).symm
      have hlt : v < next := hcommitted v (by rw [← hx1, hrep.get_eq, hrow]; rfl)
      have hlt : v.1 < next.1 := hlt
      have := next.2.2
      unfold maxI64
      omega
  · obtain ⟨row, hrow⟩ := isSome_get hrep hid
    refine hids (.int id, row) ((hmem _ _).2 ⟨⟨?_, ?_⟩, hrow⟩) id
      (int_of_dbValueToKey (hrows _ _ hrow).key)
    · exact not_lt.1 fun hlt => absurd (DbKey.int_lt_int.1 hlt) (not_lt.2 id.2.1)
    · exact not_lt.1 fun hlt =>
        absurd (DbKey.int_lt_int.1 hlt) (not_lt.2 (Int.le_sub_one_of_lt id.2.2))

theorem Below.discard (h : Below tok name i s) (inMemory : EngineName → Bool) :
    Below tok name i { s with inMemory := inMemory, buffer := .empty } := by
  obtain ⟨next, hseq, hcommitted, -⟩ := h.next
  exact ⟨⟨next, hseq, hcommitted, fun _ _ hrow => by cases hrow⟩, h.rows,
    fun _ _ hrow => by cases hrow⟩

theorem Below.reopen (hkey : AutoKey s.table.schema i) (hplain : Plain s.table.schema)
    (h : Below tok name i s) (inMemory : EngineName → Bool) {s' : SeqSite}
    (hstep : s.step tok lib name (.reopen inMemory) = some s') : Below tok name i s' := by
  cases hstep
  obtain ⟨hlt, hge, hids⟩ := maxAutoIncrementValue_spec
    (s := { s with inMemory := inMemory, buffer := .empty }) hkey hplain (h.discard inMemory)
  refine ⟨⟨_, update_self .., fun id hid => ?_, fun _ _ hrow => by cases hrow⟩, h.rows,
    fun _ _ hrow => by cases hrow⟩
  show id.1 < (wrapI64 _).1
  rw [wrapI64_of_le (by omega) hlt]
  exact Int.lt_add_one_of_le (hids id hid)

theorem table_of_step {s' : SeqSite} {ev : SeqEvent} (h : s.step tok lib name ev = some s') :
    s'.table = s.table := by
  cases ev with
  | turn t => cases h; cases t <;> rfl
  | commit =>
    simp only [step] at h
    split at h
    · cases h
    · cases h
      rfl
  | rollback | reopen inMemory => cases h; rfl

theorem Below.step (hkey : AutoKey s.table.schema i) (hplain : Plain s.table.schema)
    (h : Below tok name i s) {ev : SeqEvent} (hsafe : TurnSafe lib name i s ev) {s' : SeqSite}
    (hstep : s.step tok lib name ev = some s') : Below tok name i s' := by
  cases ev with
  | turn t =>
    cases hstep
    exact h.turn hkey hplain hsafe
  | commit => exact h.commit hstep
  | rollback =>
    cases hstep
    exact h.discard s.inMemory
  | reopen inMemory => exact h.reopen hkey hplain inMemory hstep

theorem Below.getsFreshId (hkey : AutoKey s.table.schema i) (hplain : Plain s.table.schema)
    (h : Below tok name i s) {vals : Row} (hvals : vals[i]? = some .null)
    (hsafe : TurnSafe lib name i s (.turn (.insert vals))) : GetsFreshId lib name i s vals := by
  obtain ⟨next, hseq, hcommitted, hbuffered⟩ := h.next
  have hid : s.generatedId name = next := congrArg Prod.fst (nextSequenceValue_eq hseq)
  have hfill : fillAutoIncrement s.opened name s.sequences vals
      = (vals.set i (.int (s.generatedId name)),
        (nextSequenceValue s.opened name s.sequences).2) := by
    rw [fillAutoIncrement_eq hkey hplain]
    simp only [hvals]
    rfl
  simp only [TurnSafe, hvals] at hsafe
  have hfresh : s.txTable.getProjected (.int (s.generatedId name)) none = none := by
    rw [hid]
    unfold txTable TxTable.getProjected
    dsimp only
    cases hbuf : s.buffer.get (.int next) with
    | some v =>
      cases v with
      | none => rfl
      | some row => exact absurd (hbuffered next row hbuf) (lt_irrefl next)
    | none =>
      rw [opened, Table.get_opened]
      by_contra hne
      exact absurd (hcommitted next (isSome_iff_ne_none.2 hne)) (lt_irrefl next)
  refine ⟨?_, hfresh, ?_, ?_⟩
  · rw [hfill]
  · rw [turn_insert, hfill]
    refine ⟨wrapI64 (next.1 + 1), ?_, ?_⟩
    · rw [nextSequenceValue_eq hseq]
      exact update_self ..
    · rw [hid, wrapI64_succ (hsafe next hseq)]
  · obtain ⟨c, -, hpk, -, -⟩ := columns_of_autoKey hkey
    have hkeyOf : primaryKeyOf s.opened.schema (vals.set i (.int (s.generatedId name)))
        = .ok (.int (s.generatedId name)) := by
      unfold primaryKeyOf Schema.extractPrimaryKey
      rw [show s.opened.schema.primaryKey = [(c, i)] from hpk]
      simp only [List.getElem?_set_self (List.getElem?_eq_some_iff.mp hvals).1, bind_some,
        dbValueToKey]
    rw [turn_insert]
    simp only [insertEffect, hfill, hkeyOf]
    simp only [show (TxTable.mk s.opened s.buffer) = s.txTable from rfl, hfresh, isSome_none,
      Bool.false_eq_true, if_false, checkedWrite]
    split
    · simp [outcome, fail]
    · simp [outcome, fail]

/-- **Generated ids.**  From a new table, through turns that keep ids and the sequence in step, every
INSERT that leaves the id to the database gets one that no row has. -/
theorem generated_ids_fresh {s₀ : SeqSite} (hkey : AutoKey s₀.table.schema i)
    (hplain : Plain s₀.table.schema) (hcreated : Created name s₀) {evs : List SeqEvent}
    (hrun : Run (step tok lib name) (TurnSafe lib name i) s₀ evs s) {vals : Row}
    (hvals : vals[i]? = some .null) (hsafe : TurnSafe lib name i s (.turn (.insert vals))) :
    GetsFreshId lib name i s vals := by
  obtain ⟨htable, hbelow⟩ : s.table = s₀.table ∧ Below tok name i s :=
    hrun.invariant (I := fun _ s => s.table = s₀.table ∧ Below tok name i s)
      ⟨rfl, hcreated.below i⟩ fun _ s ev s' h hok hstep =>
        ⟨(table_of_step hstep).trans h.1, h.2.step (h.1 ▸ hkey) (h.1 ▸ hplain) hok hstep⟩
  exact hbelow.getsFreshId (htable ▸ hkey) (htable ▸ hplain) hvals hsafe

theorem nodup_mainGroup : [""].Nodup := by decide

def newIds : SeqSite where
  table := ⟨⟨[⟨0, "id", .int, true, false, none, none, true⟩], 1, []⟩, [""], by decide, nodup_mainGroup,
    by decide, by decide⟩
  engines _ := .empty
  inMemory _ := false
  nodupIds := by decide
  rowsOnly _ _ _ := nofun
  buffer := .empty
  sequences _ := some (wrapI64 1)

/-- After an INSERT that is rolled back the next one gets a fresh id. -/
theorem fresh_after_rollback : ∃ s, Run (step (fun _ => none) .ascii "t") (TurnSafe .ascii "t" 0)
      newIds [.turn (.insert [.null]), .rollback] s ∧
    GetsFreshId .ascii "t" 0 s [.null] ∧ s.generatedId "t" = wrapI64 2 := by
  have hfirst : TurnSafe .ascii "t" 0 newIds (.turn (.insert [.null])) := by
    show ∀ next ∈ newIds.sequences "t", next.1 < maxI64
    decide +kernel
  have hrun : Run (step (fun _ => none) .ascii "t") (TurnSafe .ascii "t" 0) newIds
      [.turn (.insert [.null]), .rollback]
      { (newIds.turn .ascii "t" (.insert [.null])).1 with buffer := .empty } :=
    .cons hfirst rfl (.cons trivial rfl .nil)
  refine ⟨_, hrun, generated_ids_fresh ⟨⟨_, rfl, rfl, rfl⟩⟩ ⟨rfl, by decide⟩ ⟨rfl, rfl, rfl⟩ hrun rfl
    ?_, by decide +kernel⟩
  show ∀ next ∈ (newIds.turn .ascii "t" (.insert [.null])).1.sequences "t", next.1 < maxI64
  decide +kernel

def isDuplicate : Except Fault Unit → Bool
  | .error (.error .duplicatePrimaryKey) => true
  | _ => false

/-- INSERT, which gets the id 1; UPDATE t SET id = 2; INSERT. -/
theorem updated_id_taken : newIds.Created "t" ∧ AutoKey newIds.table.schema 0 ∧
    Plain newIds.table.schema ∧
    ((exec (step (fun _ => none) .ascii "t") newIds
      [.turn (.insert [.null]),
        .turn (.update [("id", .literal (.int (wrapI64 2)))] [.int (wrapI64 1)])]).any
      fun s => isDuplicate (s.turn .ascii "t" (.insert [.null])).2) = true := by
  refine ⟨⟨rfl, rfl, rfl⟩, ⟨⟨_, rfl, rfl, rfl⟩⟩, ⟨rfl, by decide⟩, by decide +kernel⟩

end SeqSite

end Dtdb.Sql
