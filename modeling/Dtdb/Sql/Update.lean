import Dtdb.Lib.Rekey
import Dtdb.Sql.Atomic

/-! # UPDATE

A row whose key changes is deleted and put under its new key.  No turn looks at what the buffer
holds, so a row may be put over another one, or deleted just after it was put. -/

namespace Dtdb.Sql

open Dtdb.Lib Dtdb.Storage Dtdb.Relational List Option Function

/-! ## What is meant -/

def resultOf (view : DbKey → Option Row) (selected : Row → Bool)
    (updated : Row → Option (DbKey × Row)) (k : DbKey) : Option (DbKey × Row) :=
  (view k).bind fun row => if selected row then updated row else some (k, row)

/-- The view holds the result of each row, and no two of them share a key. -/
structure Updated (view view' : DbKey → Option Row) (selected : Row → Bool)
    (updated : Row → Option (DbKey × Row)) : Prop where
  distinct : ∀ k₁ k₂ x₁ x₂, resultOf view selected updated k₁ = some x₁ →
    resultOf view selected updated k₂ = some x₂ → x₁.1 = x₂.1 → k₁ = k₂
  exact : ∀ k row, view' k = some row ↔ ∃ k₀, resultOf view selected updated k₀ = some (k, row)

def newRow (lib : Library) (s : Schema) (assignments : List (String × Expr)) (row : Row) :
    Option (DbKey × Row) :=
  (updateOf lib s assignments row).toOption.map Prod.snd

namespace SqlEngine

variable (e : SqlEngine) (params : Params)

def selects (tx : Transaction) (s : Schema) (filter : Option Expr) (row : Row) : Bool :=
  match filter with
  | none => true
  | some predicate =>
    ((do
      let predicate ← e.foldExpr tx params predicate
      let predicate ← predicate.substituteParams params
      predicate.eval e.lib s row).toOption).any passes

/-- An UPDATE that returns `Ok` leaves what is meant. -/
def UpdateRight (st : Session) (name : String) (assignments : List (String × Expr))
    (filter : Option Expr) : Prop :=
  ∀ t bound n, st.tx.table name = .ok t → e.boundAssignments st.tx params assignments = .ok bound →
    (e.executePlanned params st (.update name assignments filter)).2 = .ok n →
    ∃ t', (e.executePlanned params st (.update name assignments filter)).1.tx.table name = .ok t' ∧
      Updated t.view t'.view (e.selects params st.tx t.table.schema filter)
        (newRow e.lib t.table.schema bound)

/-- The scan delivers each row that the WHERE clause selects once. -/
structure Delivers (st : Session) (filter : Option Expr) (t : TxTable) (rows : Flow Row Fault) :
    Prop where
  keyed : ∀ k row, t.view k = some row → t.table.schema.extractPrimaryKey row = some k
  nodup : rows.items.Nodup
  mem : ∀ row, row ∈ rows.items ↔
    (∃ k, t.view k = some row) ∧ e.selects params st.tx t.table.schema filter row = true

end SqlEngine

/-! ## Moves in the buffer -/

/-- What a turn writes for a move. -/
def bufferedMove (m : Rekey DbKey Row) : List (DbKey × Option Row) :=
  if m.old ≠ m.new then [(m.old, none), (m.new, some m.value)] else [(m.new, some m.value)]

def moveOf (lib : Library) (s : Schema) (assignments : List (String × Expr)) (row : Row) :
    Option (Rekey DbKey Row) :=
  match updateOf lib s assignments row with
  | .error _ => none
  | .ok (oldKey, newKey, updated) =>
    if (updateEffect lib s assignments row).fault.isNone then some ⟨oldKey, newKey, updated⟩ else none

section

variable {t : OpenTable} {b : SortedMap DbKey (Option Row)}

theorem view_insert (t : OpenTable) (b : SortedMap DbKey (Option Row)) (k : DbKey) (v : Option Row) :
    (TxTable.mk t (b.insert k v)).view = update (TxTable.mk t b).view k v := by
  funext j
  unfold TxTable.view
  rw [SortedMap.get_insert]
  by_cases hj : j = k
  · subst hj
    simp
  · simp [hj]

theorem view_bufferedMove (t : OpenTable) (b : SortedMap DbKey (Option Row)) (m : Rekey DbKey Row) :
    (TxTable.mk t (b.write (bufferedMove m))).view = m.apply (TxTable.mk t b).view := by
  unfold bufferedMove Rekey.apply
  split
  · show (TxTable.mk t ((b.insert m.old none).insert m.new (some m.value))).view = _
    rw [view_insert, view_insert]
  · next heq =>
    show (TxTable.mk t (b.insert m.new (some m.value))).view = _
    rw [view_insert, not_not.1 heq, update_idem]

theorem view_bufferedMoves (t : OpenTable) (b : SortedMap DbKey (Option Row))
    (ms : List (Rekey DbKey Row)) :
    (TxTable.mk t (b.write (ms.flatMap bufferedMove))).view
      = ms.foldl Rekey.apply (TxTable.mk t b).view := by
  induction ms generalizing b with
  | nil => rfl
  | cons m ms ih =>
    rw [flatMap_cons, SortedMap.write_append, ih, view_bufferedMove]
    rfl

end

section

variable {lib : Library} {s : Schema} {assignments : List (String × Expr)} {row : Row}
  {rows : List Row} {m : Rekey DbKey Row} {ms : List (Rekey DbKey Row)}

theorem checkedWrite_of_fault {check : Except Schema.Mismatch Unit} {key : DbKey} {v : Option Row}
    (h : (checkedWrite check key v).fault = none) : checkedWrite check key v = ⟨[(key, v)], none⟩ := by
  cases check with
  | ok u => rfl
  | error e => cases h

theorem updateEffect_of_moveOf (h : moveOf lib s assignments row = some m) :
    updateOf lib s assignments row = .ok (m.old, m.new, m.value) ∧
      updateEffect lib s assignments row = ⟨bufferedMove m, none⟩ := by
  unfold moveOf at h
  split at h
  · cases h
  · next oldKey newKey updated hupdate =>
    obtain ⟨hfault, h⟩ := ite_none_right_eq_some.1 h
    cases h
    refine ⟨hupdate, ?_⟩
    have hnone := isNone_iff_eq_none.1 hfault
    unfold updateEffect at hnone ⊢
    simp only [hupdate] at hnone ⊢
    unfold bufferedMove
    by_cases hkey : oldKey ≠ newKey
    · simp only [if_pos hkey] at hnone ⊢
      cases hold : s.validateKey oldKey none with
      | error e =>
        rw [hold] at hnone
        cases hnone
      | ok u =>
        rw [hold] at hnone
        rw [checkedWrite_of_fault hnone]
    · simp only [if_neg hkey] at hnone ⊢
      exact checkedWrite_of_fault hnone

theorem moveOf_spec (h : moveOf lib s assignments row = some m) :
    s.extractPrimaryKey row = some m.old ∧
      newRow lib s assignments row = some (m.new, m.value) := by
  obtain ⟨hupdate, -⟩ := updateEffect_of_moveOf h
  refine ⟨?_, by rw [newRow, hupdate]; rfl⟩
  obtain ⟨updated, -, oldKey, hold, hrest⟩ := bind_bind_eq_ok.1 hupdate
  obtain ⟨newKey, -, hrest⟩ := bind_eq_ok.1 hrest
  cases hrest
  unfold primaryKeyOf at hold
  split at hold
  · next key hkey =>
    cases hold
    exact hkey
  · cases hold

theorem fault_of_moveOf (h : moveOf lib s assignments row = none) :
    (updateEffect lib s assignments row).fault ≠ none := by
  unfold moveOf at h
  split at h
  · next e hupdate =>
    unfold updateEffect
    rw [hupdate]
    nofun
  · split at h
    · cases h
    · next hfault => simpa using hfault

theorem seq_updateEffect (h : rows.mapM (moveOf lib s assignments) = some ms) :
    Effect.seq (rows.map (updateEffect lib s assignments)) = ⟨ms.flatMap bufferedMove, none⟩ := by
  induction rows generalizing ms with
  | nil =>
    cases h
    rfl
  | cons row rows ih =>
    rw [mapM_cons] at h
    obtain ⟨m, hm, ms', hms, h⟩ := bind_bind_eq_some.1 h
    cases h
    rw [map_cons, Effect.seq, (updateEffect_of_moveOf hm).2, ih hms]
    rfl

theorem mapM_moveOf_of_seq
    (h : (Effect.seq (rows.map (updateEffect lib s assignments))).fault = none) :
    ∃ ms, rows.mapM (moveOf lib s assignments) = some ms := by
  induction rows with
  | nil => exact ⟨[], rfl⟩
  | cons row rows ih =>
    cases hm : moveOf lib s assignments row with
    | none =>
      obtain ⟨f, hf⟩ := ne_none_iff_exists'.1 (fault_of_moveOf hm)
      rw [map_cons, Effect.seq, hf] at h
      cases h
    | some m =>
      rw [map_cons, (updateEffect_of_moveOf hm).2] at h
      obtain ⟨ms, hms⟩ := ih h
      exact ⟨m :: ms, by rw [mapM_cons, hm, hms]; rfl⟩

end

/-! ## The moves of an UPDATE -/

namespace SqlEngine

variable {e : SqlEngine} {params : Params} {st : Session} {filter : Option Expr} {t : TxTable}
  {rows : Flow Row Fault} {bound : List (String × Expr)} {ms : List (Rekey DbKey Row)}

theorem Delivers.row_of_move (h : e.Delivers params st filter t rows)
    (hms : rows.items.mapM (moveOf e.lib t.table.schema bound) = some ms) {m : Rekey DbKey Row}
    (hm : m ∈ ms) : ∃ row, t.view m.old = some row ∧
      e.selects params st.tx t.table.schema filter row = true ∧
      newRow e.lib t.table.schema bound row = some (m.new, m.value) := by
  obtain ⟨row, hrow, hmove⟩ := mem_of_mapM hms hm
  obtain ⟨⟨k, hk⟩, hsel⟩ := (h.mem row).1 hrow
  obtain ⟨hold, hnew⟩ := moveOf_spec hmove
  cases (h.keyed k row hk).symm.trans hold
  exact ⟨row, hk, hsel, hnew⟩

theorem Delivers.move_of_row (h : e.Delivers params st filter t rows)
    (hms : rows.items.mapM (moveOf e.lib t.table.schema bound) = some ms) {k : DbKey} {row : Row}
    (hk : t.view k = some row) (hsel : e.selects params st.tx t.table.schema filter row = true) :
    ∃ m ∈ ms, m.old = k ∧ newRow e.lib t.table.schema bound row = some (m.new, m.value) := by
  obtain ⟨m, hm, hmove⟩ := exists_of_mapM hms ((h.mem row).2 ⟨⟨k, hk⟩, hsel⟩)
  obtain ⟨hold, hnew⟩ := moveOf_spec hmove
  cases (h.keyed k row hk).symm.trans hold
  exact ⟨m, hm, rfl, hnew⟩

theorem Delivers.nodup_old (h : e.Delivers params st filter t rows)
    (hms : rows.items.mapM (moveOf e.lib t.table.schema bound) = some ms) :
    (ms.map Rekey.old).Nodup := by
  have hkeys : (rows.items.map t.table.schema.extractPrimaryKey).Nodup := by
    refine h.nodup.map_on fun row hrow row' hrow' heq => ?_
    obtain ⟨⟨k, hk⟩, -⟩ := (h.mem row).1 hrow
    obtain ⟨⟨k', hk'⟩, -⟩ := (h.mem row').1 hrow'
    rw [h.keyed k row hk, h.keyed k' row' hk', some.injEq] at heq
    rw [heq, hk'] at hk
    exact (some.inj hk).symm
  have hmap : (ms.map Rekey.old).map some = rows.items.map t.table.schema.extractPrimaryKey := by
    rw [List.map_map]
    refine map_of_mapM hms fun row m hm => ?_
    exact (moveOf_spec hm).1.symm
  exact List.Nodup.of_map some (hmap ▸ hkeys)

theorem Delivers.resultOf_iff (h : e.Delivers params st filter t rows)
    (hms : rows.items.mapM (moveOf e.lib t.table.schema bound) = some ms) (k : DbKey)
    (x : DbKey × Row) :
    resultOf t.view (e.selects params st.tx t.table.schema filter)
        (newRow e.lib t.table.schema bound) k = some x ↔
      (∃ m ∈ ms, m.old = k ∧ x = (m.new, m.value)) ∨
        k ∉ ms.map Rekey.old ∧ t.view k = some x.2 ∧ x.1 = k := by
  have hmoves : ∀ row, t.view k = some row →
      (e.selects params st.tx t.table.schema filter row = true ↔ k ∈ ms.map Rekey.old) := by
    intro row hk
    constructor
    · intro hsel
      obtain ⟨m, hm, hold, -⟩ := h.move_of_row hms hk hsel
      exact mem_map.2 ⟨m, hm, hold⟩
    · intro hmem
      obtain ⟨m, hm, rfl⟩ := mem_map.1 hmem
      obtain ⟨row', hk', hsel, -⟩ := h.row_of_move hms hm
      cases hk.symm.trans hk'
      exact hsel
  unfold resultOf
  rw [bind_eq_some_iff]
  constructor
  · rintro ⟨row, hk, hx⟩
    split at hx
    · next hsel =>
      obtain ⟨m, hm, hold, hnew⟩ := h.move_of_row hms hk hsel
      exact .inl ⟨m, hm, hold, some.inj (hx.symm.trans hnew)⟩
    · next hsel =>
      cases hx
      exact .inr ⟨fun hmem => hsel ((hmoves row hk).2 hmem), hk, rfl⟩
  · rintro (⟨m, hm, rfl, rfl⟩ | ⟨hnot, hk, hx⟩)
    · obtain ⟨row, hk, hsel, hnew⟩ := h.row_of_move hms hm
      exact ⟨row, hk, by rw [if_pos hsel, hnew]⟩
    · refine ⟨x.2, hk, ?_⟩
      rw [if_neg fun hsel => hnot ((hmoves x.2 hk).1 hsel), ← hx]

theorem Delivers.noClash_iff (h : e.Delivers params st filter t rows)
    (hms : rows.items.mapM (moveOf e.lib t.table.schema bound) = some ms) :
    (∀ k₁ k₂ x₁ x₂, resultOf t.view (e.selects params st.tx t.table.schema filter)
        (newRow e.lib t.table.schema bound) k₁ = some x₁ →
      resultOf t.view (e.selects params st.tx t.table.schema filter)
        (newRow e.lib t.table.schema bound) k₂ = some x₂ → x₁.1 = x₂.1 → k₁ = k₂) ↔
      NoClash t.view ms := by
  have hold := h.nodup_old hms
  simp only [h.resultOf_iff hms]
  constructor
  · intro hdistinct
    refine ⟨(List.Nodup.of_map _ hold).map_on fun m₁ hm₁ m₂ hm₂ heq => ?_, fun m hm hne => ?_⟩
    · have hsame := hdistinct _ _ _ _ (.inl ⟨m₁, hm₁, rfl, rfl⟩) (.inl ⟨m₂, hm₂, rfl, rfl⟩) heq
      exact inj_on_of_nodup_map hold hm₁ hm₂ hsame
    · by_contra hnot
      obtain ⟨row, hrow⟩ := ne_none_iff_exists'.1 hne
      have hsame := hdistinct _ _ _ (m.new, row) (.inl ⟨m, hm, rfl, rfl⟩)
        (.inr ⟨hnot, hrow, rfl⟩) rfl
      exact hnot (mem_map.2 ⟨m, hm, hsame⟩)
  · intro hclash k₁ k₂ x₁ x₂ h₁ h₂ heq
    -- a row that stays is not where another one goes
    have hstay : ∀ m ∈ ms, ∀ k x, k ∉ ms.map Rekey.old → t.view k = some x → m.new ≠ k := by
      rintro m hm k x hnot hk rfl
      exact hnot (hclash.free m hm (by rw [hk]; nofun))
    rcases h₁ with ⟨m₁, hm₁, rfl, rfl⟩ | ⟨hnot₁, hk₁, hx₁⟩
    · rcases h₂ with ⟨m₂, hm₂, rfl, rfl⟩ | ⟨hnot₂, hk₂, hx₂⟩
      · rw [inj_on_of_nodup_map hclash.nodup hm₁ hm₂ heq]
      · exact absurd (heq.trans hx₂) (hstay m₁ hm₁ k₂ x₂.2 hnot₂ hk₂)
    · rcases h₂ with ⟨m₂, hm₂, rfl, rfl⟩ | ⟨hnot₂, hk₂, hx₂⟩
      · exact absurd (heq.symm.trans hx₁) (hstay m₂ hm₂ k₁ x₁.2 hnot₁ hk₁)
      · exact hx₁.symm.trans (heq.trans hx₂)

theorem Delivers.rekeyedTo_iff (h : e.Delivers params st filter t rows)
    (hms : rows.items.mapM (moveOf e.lib t.table.schema bound) = some ms) (k : DbKey) (row : Row) :
    (∃ k₀, resultOf t.view (e.selects params st.tx t.table.schema filter)
      (newRow e.lib t.table.schema bound) k₀ = some (k, row)) ↔ RekeyedTo t.view ms k row := by
  simp only [h.resultOf_iff hms]
  constructor
  · rintro ⟨k₀, ⟨m, hm, rfl, hx⟩ | ⟨hnot, hk, rfl⟩⟩
    · obtain ⟨rfl, rfl⟩ := Prod.mk.inj hx
      exact .inr ⟨m, hm, rfl, rfl⟩
    · exact .inl ⟨hnot, hk⟩
  · rintro (⟨hnot, hk⟩ | ⟨m, hm, rfl, rfl⟩)
    · exact ⟨k, .inr ⟨hnot, hk, rfl⟩⟩
    · exact ⟨m.old, .inl ⟨m, hm, rfl, rfl⟩⟩

theorem updateRight_iff_of_source (e : SqlEngine) (params : Params) (st : Session) (name : String)
    (assignments : List (String × Expr)) (filter : Option Expr) {t : TxTable} {rows : Flow Row Fault}
    {bound : List (String × Expr)}
    (hsource : e.updateSource st.tx params name assignments filter = .ok (t, rows, bound))
    (hdelivers : e.Delivers params st filter t rows) :
    e.UpdateRight params st name assignments filter ↔
      ∀ ms, rows.fault = none → rows.items.mapM (moveOf e.lib t.table.schema bound) = some ms →
        NoClash t.view ms ∧ NoOvertake ms := by
  obtain ⟨htable, hbound⟩ : st.tx.table name = .ok t ∧
      e.boundAssignments st.tx params assignments = .ok bound := by
    obtain ⟨t', ht, _, -, h⟩ := bind_bind_eq_ok.1 hsource
    obtain ⟨bound', hb, h⟩ := bind_eq_ok.1 h
    cases h
    exact ⟨ht, hb⟩
  have hdid := did_planned e params st (.update name assignments filter)
  have hreach : (blindLoop (updateEffect e.lib t.table.schema bound)).reach t.buffer rows.items
      = .seq (rows.items.map (updateEffect e.lib t.table.schema bound)) :=
    WriteLoop.reach_eq_seq _ (fun _ _ => rfl) ..
  simp only [plannedEffect, hsource, Except.toOption, map_some, target, hreach] at hdid
  obtain ⟨-, hafter, hfault⟩ := hdid
  -- with the moves of all rows, what is left is to compare moves in order with moves at once
  have hmoved : ∀ ms, rows.items.mapM (moveOf e.lib t.table.schema bound) = some ms →
      ((∃ t', (e.executePlanned params st (.update name assignments filter)).1.tx.table name = .ok t' ∧
        Updated t.view t'.view (e.selects params st.tx t.table.schema filter)
          (newRow e.lib t.table.schema bound)) ↔ NoClash t.view ms ∧ NoOvertake ms) := by
    intro ms hms
    have hview : ∀ t', (e.executePlanned params st (.update name assignments filter)).1.tx.table name
        = .ok t' → t'.view = ms.foldl Rekey.apply t.view := by
      intro t' ht'
      rw [hafter, withBuffer, Transaction.table_set] at ht'
      cases ht'
      rw [seq_updateEffect hms]
      exact view_bufferedMoves t.table t.buffer ms
    constructor
    · rintro ⟨t', ht', hdistinct, hexact⟩
      have hclash := (hdelivers.noClash_iff hms).1 hdistinct
      refine ⟨hclash, (foldl_apply_meant_iff hclash (hdelivers.nodup_old hms)).1 fun k row => ?_⟩
      rw [← hview t' ht', hexact, hdelivers.rekeyedTo_iff hms]
    · rintro ⟨hclash, hover⟩
      refine ⟨_, by rw [hafter, withBuffer, Transaction.table_set],
        (hdelivers.noClash_iff hms).2 hclash, fun k row => ?_⟩
      rw [hview _ (by rw [hafter, withBuffer, Transaction.table_set]),
        foldl_apply_iff hclash hover, hdelivers.rekeyedTo_iff hms]
  constructor
  · intro hright ms hnone hms
    refine (hmoved ms hms).1 ?_
    cases hres : (e.executePlanned params st (.update name assignments filter)).2 with
    | ok n => exact hright t bound n htable hbound hres
    | error f =>
      have hsome := (hfault f).1 hres
      rw [seq_updateEffect hms, hnone] at hsome
      cases hsome
  · intro hcond t' bound' n ht' hbound' hres
    cases htable.symm.trans ht'
    cases hbound.symm.trans hbound'
    have hnone : (delivered (.seq (rows.items.map (updateEffect e.lib t.table.schema bound)))
        rows.fault).fault = none := by
      cases hf : (delivered (.seq (rows.items.map (updateEffect e.lib t.table.schema bound)))
          rows.fault).fault with
      | none => rfl
      | some f => cases hres.symm.trans ((hfault f).2 hf)
    obtain ⟨hseq, hrows⟩ := or_eq_none_iff.1 hnone
    obtain ⟨ms, hms⟩ := mapM_moveOf_of_seq hseq
    exact (hmoved ms hms).2 (hcond ms hrows hms)

def bufferedKeys (keys : List I64) : TxTable :=
  { keyTable with buffer := SortedMap.empty.write (keys.map fun n => (.int n, some [.int n])) }

def keySession (keys : List I64) : Session := ⟨⟨fun _ => some (bufferedKeys keys)⟩, fun _ => none⟩

def nextKey : List (String × Expr) :=
  [("k", .binaryOp (.column "k" none) .add (.literal (.int (wrapI64 1))))]

theorem view_bufferedKeys_one (k : DbKey) : (bufferedKeys [wrapI64 1]).view k
    = if k = .int (wrapI64 1) then some [.int (wrapI64 1)] else none := by
  show ((SortedMap.empty.insert (.int (wrapI64 1)) (some [DbValue.int (wrapI64 1)])).get k).getD none = _
  rw [SortedMap.get_insert]
  split <;> rfl

end SqlEngine

end Dtdb.Sql
