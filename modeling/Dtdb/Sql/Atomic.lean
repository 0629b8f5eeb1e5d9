import Dtdb.Lib.Writes
import Dtdb.Sql.Dml

/-! # Statements that fail halfway

A statement stops at the first row that fails, and what its earlier rows wrote stays in the buffer
of the open transaction. -/

namespace Dtdb.Sql

open Dtdb.Lib Dtdb.Storage Dtdb.Relational

/-! ## One table of a transaction -/

variable {name : String} {tx : Transaction}

namespace Transaction

@[simp] theorem table_set (tx : Transaction) (name : String) (t : TxTable) :
    (tx.set name t).table name = .ok t := by
  simp [table, set]

@[simp] theorem set_set (tx : Transaction) (name : String) (t t' : TxTable) :
    (tx.set name t).set name t' = tx.set name t' := by
  simp [set]

theorem set_of_table {t : TxTable} (h : tx.table name = .ok t) :
    tx.set name t = tx := by
  unfold table at h
  split at h
  · next t' ht =>
    cases h
    rw [set, ← ht, Function.update_eq_self]
  · cases h

theorem set_eq_self_iff {t t' : TxTable} (h : tx.table name = .ok t) :
    tx.set name t' = tx ↔ t' = t := by
  constructor
  · intro hset
    have := table_set tx name t'
    rw [hset, h] at this
    exact (Except.ok.inj this).symm
  · rintro rfl
    exact set_of_table h

end Transaction

/-- The checks of `put`. -/
def checkPut (s : Schema) (key : DbKey) (row : Row) : Except Schema.Mismatch Unit := do
  s.validateRow row
  s.validateKey key (some row)

def checkedWrite (check : Except Schema.Mismatch Unit) (key : DbKey) (v : Option Row) :
    Effect DbKey (Option Row) Fault :=
  match check with
  | .ok () => ⟨[(key, v)], none⟩
  | .error e => ⟨[], some (.error (.mismatch e))⟩

def outcome {E : Type} : Option E → Except E Unit
  | none => .ok ()
  | some e => .error e

section
variable (tx : Transaction) (name : String) (t : OpenTable) (b : SortedMap DbKey (Option Row))

def withBuffer (tx : Transaction) (name : String) (t : OpenTable)
    (b : SortedMap DbKey (Option Row)) : Transaction := tx.set name ⟨t, b⟩

theorem put_withBuffer (key : DbKey) (row : Row) :
    (withBuffer tx name t b).put name key row = match checkPut t.schema key row with
      | .ok () => .ok (withBuffer tx name t (b.insert key (some row)))
      | .error e => fail (.mismatch e) := by
  unfold Transaction.put Transaction.write TxTable.put checkPut withBuffer
  rw [Transaction.table_set]
  simp only [bind, Except.bind]
  cases t.schema.validateRow row with
  | error e => rfl
  | ok u => cases t.schema.validateKey key (some row) with
    | error e => rfl
    | ok u' => simp

theorem delete_withBuffer (key : DbKey) :
    (withBuffer tx name t b).delete name key = match t.schema.validateKey key none with
      | .ok () => .ok (withBuffer tx name t (b.insert key none))
      | .error e => fail (.mismatch e) := by
  unfold Transaction.delete Transaction.write TxTable.delete withBuffer
  rw [Transaction.table_set]
  simp only [bind, Except.bind]
  cases t.schema.validateKey key none with
  | error e => rfl
  | ok u => simp

end

/-! ## The loops -/

def insertEffect (t : OpenTable) (name : String) (x : SortedMap DbKey (Option Row) × Sequences) :
    Except Fault Row → Effect DbKey (Option Row) Fault
  | .error e => ⟨[], some e⟩
  | .ok vals =>
    let row := (fillAutoIncrement t name x.2 vals).1
    match primaryKeyOf t.schema row with
    | .error e => ⟨[], some e⟩
    | .ok key =>
      if ((TxTable.mk t x.1).getProjected key none).isSome then
        ⟨[], some (.error .duplicatePrimaryKey)⟩
      else checkedWrite (checkPut t.schema key row) key (some row)

def insertSequences (t : OpenTable) (name : String) (seqs : Sequences) :
    Except Fault Row → Sequences
  | .error _ => seqs
  | .ok vals => (fillAutoIncrement t name seqs vals).2

def insertLoop {A : Type} (t : OpenTable) (name : String) (vals : A → Except Fault Row) :
    WriteLoop DbKey (Option Row) Fault (SortedMap DbKey (Option Row) × Sequences) A where
  effect x a := insertEffect t name x (vals a)
  next x a := (x.1.write (insertEffect t name x (vals a)).writes, insertSequences t name x.2 (vals a))
  map := Prod.fst
  map_next _ _ := rfl

/-- A loop whose turns do not look at the buffer. -/
def blindLoop {A : Type} (effect : A → Effect DbKey (Option Row) Fault) :
    WriteLoop DbKey (Option Row) Fault (SortedMap DbKey (Option Row)) A where
  effect _ a := effect a
  next b a := b.write (effect a).writes
  map := id
  map_next _ _ := rfl

def deleteEffect (s : Schema) (row : Row) : Effect DbKey (Option Row) Fault :=
  match primaryKeyOf s row with
  | .error e => ⟨[], some e⟩
  | .ok key => checkedWrite (s.validateKey key none) key none

/-- An effect that a fault of the source of rows may follow. -/
def delivered (eff : Effect DbKey (Option Row) Fault) (fault : Option Fault) :
    Effect DbKey (Option Row) Fault := ⟨eff.writes, eff.fault.or fault⟩

def updateEffect (lib : Library) (s : Schema) (assignments : List (String × Expr)) (row : Row) :
    Effect DbKey (Option Row) Fault :=
  match updateOf lib s assignments row with
  | .error e => ⟨[], some e⟩
  | .ok (oldKey, newKey, updated) =>
    let put := checkedWrite (checkPut s newKey updated) newKey (some updated)
    if oldKey ≠ newKey then match s.validateKey oldKey none with
      | .error e => ⟨[], some (.error (.mismatch e))⟩
      | .ok () => ⟨(oldKey, none) :: put.writes, put.fault⟩
    else put

section

variable {S X A : Type} {L : WriteLoop DbKey (Option Row) Fault X A} {state : X → S}
  {step : S → A → S × Except Fault Unit}
  (h : ∀ x a, step (state x) a = (state (L.next x a), outcome (L.effect x a).fault)) (x : X)

include h

/-- The loop of the source runs as the loop of its effects. -/
theorem eachRow_loop (as : List A) :
    eachRow step (state x) as = (state (L.final x as), outcome (L.reach x as).fault) := by
  induction as generalizing x with
  | nil => rfl
  | cons a as ih =>
    rw [eachRow, h x a, WriteLoop.final, WriteLoop.reach]
    cases (L.effect x a).fault with
    | some e => rfl
    | none => exact ih (L.next x a)

end

section
variable (tx : Transaction) (name : String) (t : OpenTable)

theorem insertRow_eq (x : SortedMap DbKey (Option Row) × Sequences) (vals : Except Fault Row) :
    insertRow t name ⟨withBuffer tx name t x.1, x.2⟩ vals =
      (⟨withBuffer tx name t (x.1.write (insertEffect t name x vals).writes),
        insertSequences t name x.2 vals⟩, outcome (insertEffect t name x vals).fault) := by
  unfold insertRow insertEffect insertSequences
  cases vals with
  | error e => rfl
  | ok vals =>
    dsimp only
    generalize fillAutoIncrement t name x.2 vals = filled
    obtain ⟨row, seqs⟩ := filled
    unfold insertFull
    cases primaryKeyOf t.schema row with
    | error e => rfl
    | ok key =>
      have htable : (withBuffer tx name t x.1).table name = .ok ⟨t, x.1⟩ := Transaction.table_set ..
      simp only [bind, Except.bind, htable, put_withBuffer]
      by_cases hseen : ((TxTable.mk t x.1).getProjected key none).isSome
      · simp [if_pos hseen]
        rfl
      · simp [if_neg hseen]
        cases checkPut t.schema key row <;> rfl

theorem deleteRow_eq (b : SortedMap DbKey (Option Row)) (row : Row) :
    deleteRow name t.schema (withBuffer tx name t b) row =
      (withBuffer tx name t (b.write (deleteEffect t.schema row).writes),
        outcome (deleteEffect t.schema row).fault) := by
  unfold deleteRow deleteEffect
  cases primaryKeyOf t.schema row with
  | error e => rfl
  | ok key =>
    simp only [bind, Except.bind, delete_withBuffer]
    cases t.schema.validateKey key none <;> rfl

theorem updateRow_eq (lib : Library) (assignments : List (String × Expr))
    (b : SortedMap DbKey (Option Row)) (row : Row) :
    updateRow lib name t.schema assignments (withBuffer tx name t b) row =
      (withBuffer tx name t (b.write (updateEffect lib t.schema assignments row).writes),
        outcome (updateEffect lib t.schema assignments row).fault) := by
  unfold updateRow updateEffect
  cases updateOf lib t.schema assignments row with
  | error e => rfl
  | ok x =>
    obtain ⟨oldKey, newKey, updated⟩ := x
    have hput : ∀ b, andThen (withBuffer tx name t b) ((withBuffer tx name t b).put name newKey updated)
        (fun tx => (tx, .ok ())) =
        (withBuffer tx name t
          (b.write (checkedWrite (checkPut t.schema newKey updated) newKey (some updated)).writes),
          outcome (checkedWrite (checkPut t.schema newKey updated) newKey (some updated)).fault) := by
      intro b
      rw [put_withBuffer]
      cases checkPut t.schema newKey updated <;> rfl
    by_cases hkey : oldKey ≠ newKey
    · simp [if_pos hkey, delete_withBuffer]
      cases t.schema.validateKey oldKey none with
      | error e => rfl
      | ok u => exact hput (b.insert oldKey none)
    · simp [if_neg hkey]
      exact hput b

end

/-! ## Statements -/

namespace SqlEngine

variable (e : SqlEngine) (params : Params)

def target : SqlStatement → String
  | .insert name .. => name
  | .insertSelect name .. => name
  | .delete name .. => name
  | .update name .. => name

def insertValues (t : TxTable) (columns : List String) (exprs : List Expr) : Except Fault Row :=
  alignRow t.table.schema columns (valueAt e.lib params exprs)

def selectedValues (t : TxTable) (columns : List String) (row : Row) : Except Fault Row :=
  alignRow t.table.schema columns (selectedAt row)

/-- The table that a planned statement finds, and what it does to its buffer. -/
def plannedEffect (st : Session) :
    SqlStatement → Option (TxTable × Effect DbKey (Option Row) Fault)
  | .insert name columns rows => (st.tx.table name).toOption.map fun t =>
    (t, delivered ((insertLoop t.table name (e.insertValues params t columns)).reach
      (t.buffer, st.sequences) rows) none)
  | .insertSelect name columns query =>
    (e.insertSource st.tx params name columns query).toOption.map fun (t, rows) =>
    (t, delivered ((insertLoop t.table name (selectedValues t columns)).reach
      (t.buffer, st.sequences) rows.items) rows.fault)
  | .delete name filter =>
    (e.deleteSource st.tx params name filter).toOption.map fun (t, rows) =>
    (t, delivered ((blindLoop (deleteEffect t.table.schema)).reach t.buffer rows.items) rows.fault)
  | .update name assignments filter =>
    (e.updateSource st.tx params name assignments filter).toOption.map fun (t, rows, assignments) =>
    (t, delivered ((blindLoop (updateEffect e.lib t.table.schema assignments)).reach
      t.buffer rows.items) rows.fault)

/-- What a statement did to its transaction, by its effect. -/
def Did (tx : Transaction) (name : String) (after : Transaction) (result : Except Fault Nat) :
    Option (TxTable × Effect DbKey (Option Row) Fault) → Prop
  | none => after = tx
  | some (t, eff) => tx.table name = .ok t ∧
    after = withBuffer tx name t.table (t.buffer.write eff.writes) ∧
    ∀ f, result = .error f ↔ eff.fault = some f

theorem did_loop {S X A : Type} (L : WriteLoop DbKey (Option Row) Fault X A) (state : X → S)
    (txOf : S → Transaction) {t : TxTable} {x : X} {s : S} {step : S → A → S × Except Fault Unit}
    (htable : tx.table name = .ok t)
    (h : ∀ x a, step (state x) a = (state (L.next x a), outcome (L.effect x a).fault))
    (hs : state x = s) (hmap : L.map x = t.buffer)
    (htx : ∀ y, txOf (state y) = withBuffer tx name t.table (L.map y)) (rows : Flow A Fault) :
    Did tx name (txOf (eachDelivered step s rows).1) (eachDelivered step s rows).2
      (some (t, delivered (L.reach x rows.items) rows.fault)) := by
  subst hs
  have hfinal := htx (L.final x rows.items)
  rw [L.map_final, hmap] at hfinal
  unfold eachDelivered
  rw [eachRow_loop h]
  cases hfault : (L.reach x rows.items).fault with
  | some e => exact ⟨htable, hfinal, by simp [outcome, delivered, hfault]⟩
  | none => cases rows.fault <;> exact ⟨htable, hfinal, by simp [outcome, delivered, hfault]⟩

variable {e params}

theorem withBuffer_self {t : TxTable} (h : tx.table name = .ok t) :
    withBuffer tx name t.table t.buffer = tx :=
  Transaction.set_of_table h

theorem did_insert {A : Type} {st : Session} {t : TxTable} (ht : st.tx.table name = .ok t)
    (vals : A → Except Fault Row) (rows : Flow A Fault) :
    Did st.tx name (eachDelivered (fun st a => insertRow t.table name st (vals a)) st rows).1.tx
      (eachDelivered (fun st a => insertRow t.table name st (vals a)) st rows).2
      (some (t, delivered ((insertLoop t.table name vals).reach (t.buffer, st.sequences) rows.items)
        rows.fault)) := by
  refine did_loop (insertLoop t.table name vals)
    (fun x => ⟨withBuffer st.tx name t.table x.1, x.2⟩) Session.tx ht ?_ ?_ rfl (fun _ => rfl) rows
  · exact fun x a => insertRow_eq st.tx name t.table x (vals a)
  · rw [withBuffer_self ht]

theorem did_blind {st : Session} {t : TxTable} (ht : st.tx.table name = .ok t)
    {effect : Row → Effect DbKey (Option Row) Fault}
    {step : Transaction → Row → Transaction × Except Fault Unit}
    (h : ∀ b row, step (withBuffer st.tx name t.table b) row =
      (withBuffer st.tx name t.table (b.write (effect row).writes), outcome (effect row).fault))
    (rows : Flow Row Fault) :
    Did st.tx name (onTx st (eachDelivered step st.tx rows)).1.tx
      (onTx st (eachDelivered step st.tx rows)).2
      (some (t, delivered ((blindLoop effect).reach t.buffer rows.items) rows.fault)) :=
  did_loop (blindLoop effect) (withBuffer st.tx name t.table) id ht h
    (withBuffer_self ht) rfl (fun _ => rfl) rows

/-- **A planned statement does to its transaction what its effect says.** -/
theorem did_planned (e : SqlEngine) (params : Params) (st : Session) (stmt : SqlStatement) :
    Did st.tx (target stmt) (e.executePlanned params st stmt).1.tx
      (e.executePlanned params st stmt).2 (e.plannedEffect params st stmt) := by
  cases stmt with
  | insert name columns rows =>
    simp only [executePlanned, plannedEffect]
    cases ht : st.tx.table name with
    | error f => rfl
    | ok t => exact did_insert ht (e.insertValues params t columns) (.ofList rows)
  | insertSelect name columns query =>
    simp only [executePlanned, plannedEffect]
    cases hs : e.insertSource st.tx params name columns query with
    | error f => rfl
    | ok x =>
      obtain ⟨_, -, t, ht, hx⟩ := bind_bind_eq_ok.1 hs
      obtain ⟨_, -, hx⟩ := bind_eq_ok.1 hx
      cases hx
      exact did_insert ht (selectedValues t columns) _
  | delete name filter =>
    simp only [executePlanned, plannedEffect]
    cases hs : e.deleteSource st.tx params name filter with
    | error f => rfl
    | ok x =>
      obtain ⟨t, ht, _, -, hx⟩ := bind_bind_eq_ok.1 hs
      cases hx
      exact did_blind ht (deleteRow_eq st.tx name t.table) _
  | update name assignments filter =>
    simp only [executePlanned, plannedEffect]
    cases hs : e.updateSource st.tx params name assignments filter with
    | error f => rfl
    | ok x =>
      obtain ⟨t, ht, _, -, hx⟩ := bind_bind_eq_ok.1 hs
      obtain ⟨bound, -, hx⟩ := bind_eq_ok.1 hx
      cases hx
      exact did_blind ht (updateRow_eq st.tx name t.table e.lib bound) _

end SqlEngine

/-! ## The rows of an INSERT -/

/-- Why a row cannot be inserted, next to rows with the keys `earlier`. -/
def insertFault (t : TxTable) (name : String) (seqs : Sequences) (earlier : List DbKey) :
    Except Fault Row → Option Fault
  | .error e => some e
  | .ok vals =>
    let row := (fillAutoIncrement t.table name seqs vals).1
    match primaryKeyOf t.table.schema row with
    | .error e => some e
    | .ok key =>
      if (t.getProjected key none).isSome ∨ key ∈ earlier then some (.error .duplicatePrimaryKey)
      else match checkPut t.table.schema key row with
        | .error e => some (.error (.mismatch e))
        | .ok () => none

def insertKey (t : TxTable) (name : String) (seqs : Sequences) : Except Fault Row → Option DbKey
  | .error _ => none
  | .ok vals => t.table.schema.extractPrimaryKey (fillAutoIncrement t.table name seqs vals).1

/-- Why the rows of an INSERT cannot all be inserted. -/
def firstFault (t : TxTable) (name : String) :
    Sequences → List DbKey → List (Except Fault Row) → Option Fault
  | _, _, [] => none
  | seqs, earlier, vals :: rows => match insertFault t name seqs earlier vals with
    | some f => some f
    | none => firstFault t name (insertSequences t.table name seqs vals)
        ((insertKey t name seqs vals).toList ++ earlier) rows

def Visible (t : OpenTable) (b : SortedMap DbKey (Option Row)) (key : DbKey) : Prop :=
  ((TxTable.mk t b).getProjected key none).isSome

variable {b : SortedMap DbKey (Option Row)}

theorem visible_insert {t : OpenTable} {key : DbKey} {row : Row} (k : DbKey) :
    Visible t (b.insert key (some row)) k ↔ k = key ∨ Visible t b k := by
  unfold Visible
  rw [TxTable.getProjected_eq, TxTable.getProjected_eq]
  by_cases hk : k = key
  · subst hk
    simp
  · simp [SortedMap.get_insert, hk]

section

variable {A : Type} (t : TxTable) (name : String) (vals : A → Except Fault Row) (seqs : Sequences)

/-- **A turn of an INSERT** fails and writes nothing, or puts a row under a free key. -/
theorem insertLoop_cases {earlier : List DbKey}
    (hb : ∀ key, Visible t.table b key ↔ Visible t.table t.buffer key ∨ key ∈ earlier) (a : A) :
    let eff := (insertLoop t.table name vals).effect (b, seqs) a
    (∃ f, eff = ⟨[], some f⟩ ∧ insertFault t name seqs earlier (vals a) = some f) ∨
    ∃ key row, eff = ⟨[(key, some row)], none⟩ ∧ insertFault t name seqs earlier (vals a) = none ∧
      insertKey t name seqs (vals a) = some key ∧ ¬ Visible t.table b key := by
  intro eff
  rw [show eff = insertEffect t.table name (b, seqs) (vals a) from rfl]
  unfold insertEffect insertFault insertKey
  cases vals a with
  | error f => exact .inl ⟨f, rfl, rfl⟩
  | ok vals =>
    dsimp only
    generalize (fillAutoIncrement t.table name seqs vals).1 = row
    unfold primaryKeyOf
    cases t.table.schema.extractPrimaryKey row with
    | none => exact .inl ⟨_, rfl, rfl⟩
    | some key =>
      dsimp only
      have hkey : ((TxTable.mk t.table b).getProjected key none).isSome ↔
          (t.getProjected key none).isSome ∨ key ∈ earlier := hb key
      by_cases hseen : ((TxTable.mk t.table b).getProjected key none).isSome
      · rw [if_pos hseen, if_pos (hkey.1 hseen)]
        exact .inl ⟨_, rfl, rfl⟩
      · rw [if_neg hseen, if_neg (mt hkey.2 hseen)]
        cases checkPut t.table.schema key row with
        | error f => exact .inl ⟨_, rfl, rfl⟩
        | ok u => exact .inr ⟨key, row, rfl, rfl, rfl, hseen⟩

theorem fault_insertLoop {earlier : List DbKey}
    (hb : ∀ key, Visible t.table b key ↔ Visible t.table t.buffer key ∨ key ∈ earlier)
    (rows : List A) :
    ((insertLoop t.table name vals).reach (b, seqs) rows).fault =
      firstFault t name seqs earlier (rows.map vals) := by
  induction rows generalizing b seqs earlier with
  | nil => rfl
  | cons a rows ih =>
    rw [List.map_cons, firstFault]
    unfold WriteLoop.reach
    rcases insertLoop_cases t name vals seqs hb a with ⟨f, heff, hf⟩ | ⟨key, row, heff, hf, hkey, -⟩
    · rw [hf, heff]
    · have hnext : (insertLoop t.table name vals).next (b, seqs) a =
          (b.insert key (some row), insertSequences t.table name seqs (vals a)) := by
        show (b.write ((insertLoop t.table name vals).effect (b, seqs) a).writes, _) = _
        rw [heff]
        rfl
      rw [hf, heff, hnext]
      -- the key of this row is used from now on
      refine ih _ fun k => ?_
      rw [visible_insert, hb, hkey]
      simp only [Option.toList_some, List.singleton_append, List.mem_cons]
      exact or_left_comm

theorem write_insertLoop_ne (rows : List A) :
    let ws := ((insertLoop t.table name vals).reach (t.buffer, seqs) rows).writes
    ws ≠ [] → t.buffer.write ws ≠ t.buffer := by
  intro ws hne hsame
  have h := (insertLoop t.table name vals).forall_writes
    (P := fun b ws => (∀ key, Visible t.table b key → Visible t.table (b.write ws) key) ∧
      (ws ≠ [] → ∃ key, ¬ Visible t.table b key ∧ Visible t.table (b.write ws) key))
    (fun b => ⟨fun _ hkey => hkey, fun hne => absurd rfl hne⟩)
    (fun b ws ws' hws hws' => ?_) (fun x a => ?_) (t.buffer, seqs) rows
  · obtain ⟨key, hbefore, hafter⟩ := h.2 hne
    rw [show (insertLoop t.table name vals).map (t.buffer, seqs) = t.buffer from rfl, hsame] at hafter
    exact hbefore hafter
  · rw [SortedMap.write_append]
    refine ⟨fun key hkey => hws'.1 key (hws.1 key hkey), fun hne => ?_⟩
    by_cases hnil : ws = []
    · subst hnil
      exact hws'.2 hne
    · obtain ⟨key, hbefore, hafter⟩ := hws.2 hnil
      exact ⟨key, hbefore, hws'.1 key hafter⟩
  · obtain ⟨b, seqs⟩ := x
    have hb : ∀ key, Visible t.table b key ↔ Visible (TxTable.mk t.table b).table
      (TxTable.mk t.table b).buffer key ∨ key ∈ ([] : List DbKey) := by simp
    rcases insertLoop_cases (TxTable.mk t.table b) name vals seqs hb a with
      ⟨f, heff, -⟩ | ⟨key, row, heff, -, -, hfree⟩
    · rw [heff]
      exact ⟨fun _ hkey => hkey, fun hne => absurd rfl hne⟩
    · rw [heff]
      exact ⟨fun k hk => (visible_insert k).2 (.inr hk),
        fun _ => ⟨key, hfree, (visible_insert key).2 (.inl rfl)⟩⟩

end

/-- Already the first row cannot be inserted, or there is none. -/
def FirstFails (t : TxTable) (name : String) (seqs : Sequences) (rows : List (Except Fault Row)) :
    Prop :=
  ∀ vals ∈ rows.head?, (insertFault t name seqs [] vals).isSome

section

variable {A : Type} (t : TxTable) (name : String) (vals : A → Except Fault Row) (seqs : Sequences)

theorem writes_insertLoop_eq_nil (rows : List A) :
    ((insertLoop t.table name vals).reach (t.buffer, seqs) rows).writes = [] ↔
      FirstFails t name seqs (rows.map vals) := by
  unfold FirstFails
  cases rows with
  | nil => simp [WriteLoop.reach]
  | cons a rows =>
    have hb : ∀ key, Visible t.table t.buffer key ↔
      Visible t.table t.buffer key ∨ key ∈ ([] : List DbKey) := by simp
    unfold WriteLoop.reach
    rcases insertLoop_cases t name vals seqs hb a with ⟨f, heff, hf⟩ | ⟨key, row, heff, hf, -, -⟩
    · simp [heff, hf]
    · simp [heff, hf]

end

/-! ## Failed statements -/

/-- If the rows or their source fail, already the first row cannot be inserted. -/
def InsertQuiet (t : TxTable) (name : String) (seqs : Sequences) (rows : List (Except Fault Row))
    (fault : Option Fault) : Prop :=
  ∀ err, (firstFault t name seqs [] rows).or fault = some (.error err) → FirstFails t name seqs rows

/-- If the rows or their source fail, every key written before ends up with what the buffer has. -/
def ChangeQuiet (b : SortedMap DbKey (Option Row)) (eff : Effect DbKey (Option Row) Fault) : Prop :=
  ∀ err, eff.fault = some (.error err) → ∀ key v, eff.writes.reverse.lookup key = some v →
    b.get key = some v

/-- A fault leaves the buffer as it was. -/
def Unwritten (t : TxTable) (eff : Effect DbKey (Option Row) Fault) : Prop :=
  ∀ err, eff.fault = some (.error err) → t.buffer.write eff.writes = t.buffer

theorem insertQuiet_iff {A : Type} (t : TxTable) (name : String) (vals : A → Except Fault Row)
    (seqs : Sequences) (rows : List A) (fault : Option Fault) :
    Unwritten t (delivered ((insertLoop t.table name vals).reach (t.buffer, seqs) rows) fault) ↔
      InsertQuiet t name seqs (rows.map vals) fault := by
  have hb : ∀ key, Visible t.table t.buffer key ↔
    Visible t.table t.buffer key ∨ key ∈ ([] : List DbKey) := by simp
  have hfault := fault_insertLoop t name vals seqs hb rows
  refine forall_congr' fun err => ?_
  show ((_ : Option Fault).or fault = _ → _) ↔ _
  rw [hfault]
  refine imp_congr_right fun _ => ?_
  rw [← writes_insertLoop_eq_nil]
  constructor
  · intro hsame
    by_contra hne
    exact write_insertLoop_ne t name vals seqs rows hne hsame
  · intro hnil
    show t.buffer.write (WriteLoop.reach _ _ _).writes = _
    rw [hnil]
    rfl

theorem changeQuiet_iff (t : TxTable) (effect : Row → Effect DbKey (Option Row) Fault)
    (rows : Flow Row Fault) :
    Unwritten t (delivered ((blindLoop effect).reach t.buffer rows.items) rows.fault) ↔
      ChangeQuiet t.buffer (delivered (.seq (rows.items.map effect)) rows.fault) := by
  rw [WriteLoop.reach_eq_seq _ (fun _ _ => rfl)]
  exact forall_congr' fun _ => imp_congr_right fun _ => SortedMap.write_eq_self_iff

namespace SqlEngine

variable (e : SqlEngine) (params : Params)

/-- A statement that returns an error leaves the buffers of its transaction as they were. -/
def ErrorKeeps (st : Session) (stmt : SqlStatement) : Prop :=
  ∀ err, (e.executeStatement params st stmt).2 = .error (.error err) →
    (e.executeStatement params st stmt).1.tx = st.tx

/-- Nothing is written before a row fails, or only what the buffer has. -/
def Undisturbed (st : Session) : SqlStatement → Prop
  | .insert name columns rows => ∀ t, st.tx.table name = .ok t →
    InsertQuiet t name st.sequences (rows.map (e.insertValues params t columns)) none
  | .insertSelect name columns query => ∀ t rows,
    e.insertSource st.tx params name columns query = .ok (t, rows) →
    InsertQuiet t name st.sequences (rows.items.map (selectedValues t columns)) rows.fault
  | .delete name filter => ∀ t rows, e.deleteSource st.tx params name filter = .ok (t, rows) →
    ChangeQuiet t.buffer
      (delivered (.seq (rows.items.map (deleteEffect t.table.schema))) rows.fault)
  | .update name assignments filter => ∀ t rows bound,
    e.updateSource st.tx params name assignments filter = .ok (t, rows, bound) →
    ChangeQuiet t.buffer
      (delivered (.seq (rows.items.map (updateEffect e.lib t.table.schema bound))) rows.fault)

variable {e params}

theorem Did.kept_iff {after : Transaction} {result : Except Fault Nat} {t : TxTable}
    {eff : Effect DbKey (Option Row) Fault} (h : Did tx name after result (some (t, eff))) :
    (∀ err, result = .error (.error err) → after = tx) ↔ Unwritten t eff := by
  obtain ⟨htable, rfl, hfault⟩ := h
  refine forall_congr' fun err => ?_
  rw [hfault]
  refine imp_congr_right fun _ => ?_
  unfold withBuffer
  rw [Transaction.set_eq_self_iff htable]
  constructor
  · exact fun h => congrArg TxTable.buffer h
  · exact fun h => congrArg (TxTable.mk t.table) h

theorem undisturbed_iff (st : Session) (stmt : SqlStatement) :
    (∀ x ∈ e.plannedEffect params st stmt, Unwritten x.1 x.2) ↔ e.Undisturbed params st stmt := by
  cases stmt with
  | insert name columns rows =>
    simp only [plannedEffect, Undisturbed]
    cases st.tx.table name with
    | error f => simp [Except.toOption]
    | ok t => simp [Except.toOption, insertQuiet_iff]
  | insertSelect name columns query =>
    simp only [plannedEffect, Undisturbed]
    cases e.insertSource st.tx params name columns query with
    | error f => simp [Except.toOption]
    | ok x =>
      obtain ⟨t, rows⟩ := x
      simp [Except.toOption, insertQuiet_iff]
  | delete name filter =>
    simp only [plannedEffect, Undisturbed]
    cases e.deleteSource st.tx params name filter with
    | error f => simp [Except.toOption]
    | ok x =>
      obtain ⟨t, rows⟩ := x
      simp [Except.toOption, changeQuiet_iff]
  | update name assignments filter =>
    simp only [plannedEffect, Undisturbed]
    cases e.updateSource st.tx params name assignments filter with
    | error f => simp [Except.toOption]
    | ok x =>
      obtain ⟨t, rows, bound⟩ := x
      simp [Except.toOption, changeQuiet_iff]

def keyTable : TxTable where
  table := .ofRows ⟨[⟨0, "k", .int, true, false, none, none, false⟩], 1, []⟩ (by decide) .empty
    fun _ => none
  buffer := .empty

def insertTwice : SqlStatement :=
  .insert "t" ["k"] [[.literal (.int (wrapI64 1))], [.literal (.int (wrapI64 1))]]

end SqlEngine

end Dtdb.Sql
