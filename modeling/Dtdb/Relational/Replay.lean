import Dtdb.Relational.Represents

/-! # Replaying one table's part of the log

After a crash the engines may hold any mixture of the writes since the last checkpoint.  `Ahead`:
where the rest of the log does not write, the engines hold the rows they should, and an index key
too many is one of a row that the rest of the log knows. -/

namespace Dtdb.Relational

open Dtdb.Lib Dtdb.Storage List Option

/-- What a log record writes to one table, with the old rows it carries. -/
structure TableWrites where
  writes : List (DbKey × Option Row)
  old : Option (List (DbKey × Row))

namespace TableWrites

/-- The old rows as `write_batch` is given them in recovery. -/
def preset (w : TableWrites) : Option (DbKey → Option Row) := w.old.map fun rows pk => rows.lookup pk

def oldRow (w : TableWrites) (pk : DbKey) : Option Row := (w.old.getD []).lookup pk

end TableWrites

def Table.replay (tok : Tokenizers) (t : Table) (log : List TableWrites) (e : Engines) :
    Option Engines :=
  log.foldlM (fun e w => t.writeBatch tok e w.writes w.preset) e

def rowsAfter (log : List TableWrites) (rows : DbKey → Option Row) : DbKey → Option Row :=
  log.foldl (fun rows w => overwrite rows w.writes) rows

def Table.batchOf (tok : Tokenizers) (t : Table) (n : EngineName) (w : TableWrites) : Batch :=
  ((t.batches tok w.writes w.oldRow).map (batchFor · n)).getD []

/-- What a crash may leave: each engine keeps any of the batches written since `base`. -/
def Crashed (tok : Tokenizers) (t : Table) (base : Engines) (log : List TableWrites) (e : Engines) :
    Prop :=
  ∀ n, ∃ kept : List Batch, kept.Sublist (log.map (t.batchOf tok n)) ∧ e n = (base n).applyAll kept.flatten

/-! ## Logs of commits -/

variable {tok : Tokenizers} {t : Table} {e : Engines} {rows : DbKey → Option Row}
  {w : TableWrites} {log : List TableWrites}

/-- The old rows it carries have the index keys of the rows it replaces. -/
structure Faithful (tok : Tokenizers) (t : Table) (rows : DbKey → Option Row) (w : TableWrites) :
    Prop where
  nodup : (w.writes.map Prod.fst).Nodup
  width : ∀ pk row, (pk, some row) ∈ w.writes → row.length = t.schema.columns.length
  oldWidth : ∀ x ∈ w.writes, ∀ row, w.oldRow x.1 = some row → row.length = t.schema.columns.length
  old : ∀ x ∈ w.writes, ∀ idx key, (t.schema.entry tok idx x.1 (rows x.1) key).isSome = true →
    (t.schema.entry tok idx x.1 (w.oldRow x.1) key).isSome = true

def FaithfulLog (tok : Tokenizers) (t : Table) : (DbKey → Option Row) → List TableWrites → Prop
  | _, [] => True
  | rows, w :: log => Faithful tok t rows w ∧ FaithfulLog tok t (overwrite rows w.writes) log

theorem FaithfulLog.nodup (h : FaithfulLog tok t rows log) (hw : w ∈ log) :
    (w.writes.map Prod.fst).Nodup := by
  induction log generalizing rows with
  | nil => cases hw
  | cons x log ih =>
    rcases mem_cons.1 hw with rfl | hw
    · exact h.1.nodup
    · exact ih h.2 hw

theorem FaithfulLog.append {log' : List TableWrites} (h : FaithfulLog tok t rows log)
    (h' : FaithfulLog tok t (rowsAfter log rows) log') : FaithfulLog tok t rows (log ++ log') := by
  induction log generalizing rows with
  | nil => exact h'
  | cons x log ih => exact ⟨h.1, ih h.2 h'⟩

def Touched (log : List TableWrites) (pk : DbKey) : Prop := ∃ w ∈ log, (w.writes.lookup pk).isSome = true

variable {pk : DbKey}

theorem rowsAfter_of_not_touched (h : ¬Touched log pk) :
    rowsAfter log rows pk = rows pk := by
  induction log generalizing rows with
  | nil => rfl
  | cons w log ih =>
    have hw : w.writes.lookup pk = none := by
      cases hl : w.writes.lookup pk with
      | none => rfl
      | some x => exact absurd ⟨w, mem_cons_self, by rw [hl]; rfl⟩ h
    show rowsAfter log (overwrite rows w.writes) pk = _
    rw [ih fun ⟨x, hx, hl⟩ => h ⟨x, .tail _ hx, hl⟩]
    unfold overwrite
    rw [hw]
    rfl

theorem rowsAfter_cases (log : List TableWrites) (rows : DbKey → Option Row) (pk : DbKey) :
    rowsAfter log rows pk = rows pk ∨
      ∃ w ∈ log, w.writes.lookup pk = some (rowsAfter log rows pk) := by
  induction log generalizing rows with
  | nil => exact .inl rfl
  | cons w log ih =>
    rcases ih (overwrite rows w.writes) with heq | ⟨x, hx, hl⟩
    · cases hl : w.writes.lookup pk with
      | none =>
        left
        refine heq.trans ?_
        unfold overwrite
        rw [hl]
        rfl
      | some r =>
        refine .inr ⟨w, mem_cons_self, hl.trans ?_⟩
        refine congrArg some (Eq.symm (heq.trans ?_))
        unfold overwrite
        rw [hl]
        rfl
    · exact .inr ⟨x, .tail _ hx, hl⟩

/-! ## Engines ahead of the replay -/

/-- A row that the log writes has the index key. -/
def Upcoming (tok : Tokenizers) (t : Table) (log : List TableWrites) (idx : IndexDefinition)
    (pk key : DbKey) : Prop :=
  ∃ w ∈ log, ∃ row, w.writes.lookup pk = some row ∧ (t.schema.entry tok idx pk row key).isSome = true

/-- The engines before `log` is replayed on `rows`. -/
structure Ahead (tok : Tokenizers) (t : Table) (rows : DbKey → Option Row) (log : List TableWrites)
    (e : Engines) : Prop where
  groups : ∀ g ∈ t.groups, ∀ pk, ¬Touched log pk →
    (e (.group g)).get pk = ((rows pk).bind (t.subRow · g)).map .row
  indexes : ∀ idx ∈ t.schema.indexes, ∀ key, (∀ pk, owner key = some pk → ¬Touched log pk) →
    (e (.index idx.name)).get key = (owner key).bind fun pk => t.schema.entry tok idx pk (rows pk) key
  known : ∀ idx ∈ t.schema.indexes, ∀ key pk, owner key = some pk →
    ((e (.index idx.name)).get key).isSome = true →
    (t.schema.entry tok idx pk (rows pk) key).isSome = true ∨ Upcoming tok t log idx pk key

theorem touched_cons :
    Touched (w :: log) pk ↔ (w.writes.lookup pk).isSome = true ∨ Touched log pk := by
  unfold Touched
  rw [exists_mem_cons_iff]

theorem upcoming_cons {idx : IndexDefinition} {key : DbKey} :
    Upcoming tok t (w :: log) idx pk key ↔ (∃ row, w.writes.lookup pk = some row ∧
      (t.schema.entry tok idx pk row key).isSome = true) ∨ Upcoming tok t log idx pk key := by
  unfold Upcoming
  rw [exists_mem_cons_iff]

theorem Ahead.represents (h : Ahead tok t rows [] e)
    (hwidth : ∀ pk row, rows pk = some row → row.length = t.schema.columns.length) :
    Represents tok t e rows where
  width := hwidth
  groups g hg pk := h.groups g hg pk nofun
  indexes idx hidx key := h.indexes idx hidx key nofun

/-- **One record**, with old rows that have the index keys of the rows it replaces. -/
theorem Ahead.write (h : Ahead tok t rows (w :: log) e) (hnd : (w.writes.map Prod.fst).Nodup)
    {old : DbKey → Option Row} {bs : List (EngineName × Batch)}
    (hbs : t.batches tok w.writes old = some bs)
    (hold : ∀ x ∈ w.writes, ∀ idx key, (t.schema.entry tok idx x.1 (rows x.1) key).isSome = true →
      (t.schema.entry tok idx x.1 (old x.1) key).isSome = true) :
    Ahead tok t (overwrite rows w.writes) log (e.write bs) := by
  -- at a key of `pk` that the replayed record neither puts nor deletes
  have hstale : ∀ {idx key pk row}, idx ∈ t.schema.indexes → owner key = some pk →
      w.writes.lookup pk = some row → t.schema.entry tok idx pk row key = none →
      (t.schema.entry tok idx pk (old pk) key).isSome = false →
      ((e (.index idx.name)).get key).isSome = true → Upcoming tok t log idx pk key := by
    intro idx key pk row hidx howner hl hnew hkeep hget
    rcases h.known idx hidx key pk howner hget with hrow | hup
    · exact absurd (hold _ (mem_of_lookup hl) idx key hrow) (by simp [hkeep])
    · rcases upcoming_cons.1 hup with ⟨row', hl', hsome⟩ | hup
      · cases hl.symm.trans hl'
        rw [hnew] at hsome
        cases hsome
      · exact hup
  refine ⟨fun g hg pk hnot => ?_, fun idx hidx key hnot => ?_, fun idx hidx key pk howner hget => ?_⟩
  · rw [Table.get_write_group hnd hbs hg]
    unfold overwrite
    cases hl : w.writes.lookup pk with
    | none => exact h.groups g hg pk fun ht => (touched_cons.1 ht).elim (by simp [hl]) hnot
    | some row => rfl
  · cases howner : owner key with
    | none =>
      have hnone : ∀ pk row, t.schema.entry tok idx pk row key = none := fun pk row =>
        Schema.entry_of_owner_ne (by rw [howner]; nofun)
      have hget := h.indexes idx hidx key (by rw [howner]; nofun)
      rw [howner] at hget
      rw [Table.get_write_index hnd hbs hidx key (by rw [howner]; nofun), hget]
      cases w.writes.lookup key with
      | none => rfl
      | some row => simp [hnone]
    | some pk =>
      have hpk : ∀ k, owner key = some k → k = pk := by
        rw [howner]
        exact fun k hk => (some.inj hk).symm
      rw [Table.get_write_index hnd hbs hidx pk hpk, bind_some]
      unfold overwrite
      cases hl : w.writes.lookup pk with
      | none =>
        have hget := h.indexes idx hidx key fun k hk ht => by
          cases hpk k hk
          exact (touched_cons.1 ht).elim (by simp [hl]) (hnot pk howner)
        rw [howner] at hget
        exact hget
      | some row =>
        dsimp only [getD_some]
        cases hnew : t.schema.entry tok idx pk row key with
        | some v => rfl
        | none =>
          split
          · rfl
          · next hkeep =>
            by_contra hne
            have hget := isSome_iff_ne_none.2 hne
            obtain ⟨x, hx, row', hl', -⟩ := hstale hidx howner hl hnew (by simpa using hkeep) hget
            exact hnot pk howner ⟨x, hx, by rw [hl']; rfl⟩
  · have hpk : ∀ k, owner key = some k → k = pk := by
      rw [howner]
      exact fun k hk => (some.inj hk).symm
    rw [Table.get_write_index hnd hbs hidx pk hpk] at hget
    unfold overwrite
    cases hl : w.writes.lookup pk with
    | none =>
      rw [hl] at hget
      refine (h.known idx hidx key pk howner hget).imp_right fun hup => ?_
      exact (upcoming_cons.1 hup).resolve_left (by simp [hl])
    | some row =>
      rw [hl] at hget
      dsimp only [getD_some] at hget ⊢
      cases hnew : t.schema.entry tok idx pk row key with
      | some v => exact .inl rfl
      | none =>
        rw [hnew] at hget
        split at hget
        · cases hget
        · next hkeep => exact .inr (hstale hidx howner hl hnew (by simpa using hkeep) hget)

/-! ## The replay -/

theorem Table.length_get {row : Row} (h : t.get e pk = some row) :
    row.length = t.schema.columns.length := by
  obtain ⟨-, h⟩ := ite_none_right_eq_some.1 h
  cases h
  exact Schema.length_mergeRows ..

theorem Faithful.replayed (h : Faithful tok t rows w) {x : DbKey × Option Row} (hx : x ∈ w.writes)
    {idx : IndexDefinition} {key : DbKey}
    (hrow : (t.schema.entry tok idx x.1 (rows x.1) key).isSome = true) :
    (t.schema.entry tok idx x.1 (w.preset.getD (t.get e) x.1) key).isSome = true := by
  have hold := h.old x hx idx key hrow
  unfold TableWrites.preset
  unfold TableWrites.oldRow at hold
  cases hw : w.old with
  | none =>
    rw [hw] at hold
    cases hold
  | some old =>
    rw [hw] at hold
    exact hold

theorem Faithful.length_replayed (h : Faithful tok t rows w) {x : DbKey × Option Row}
    (hx : x ∈ w.writes) {row : Row} (hrow : w.preset.getD (t.get e) x.1 = some row) :
    row.length = t.schema.columns.length := by
  have hold := h.oldWidth x hx row
  unfold TableWrites.preset at hrow
  unfold TableWrites.oldRow at hold
  cases hw : w.old with
  | none =>
    rw [hw] at hrow
    exact Table.length_get hrow
  | some old =>
    rw [hw] at hrow hold
    exact hold hrow

theorem Ahead.writeBatch (h : Ahead tok t rows (w :: log) e) (hw : Faithful tok t rows w) :
    ∃ e', t.writeBatch tok e w.writes w.preset = some e' ∧
      Ahead tok t (overwrite rows w.writes) log e' ∧ ∀ n, n ∉ t.engineNames → e' n = e n := by
  have hsome : ∃ bs, t.batches tok w.writes (w.preset.getD (t.get e)) = some bs :=
    Table.exists_batches hw.width fun x hx row hrow => hw.length_replayed hx hrow
  obtain ⟨bs, hbs⟩ := hsome
  refine ⟨e.write bs, by rw [Table.writeBatch, hbs]; rfl, ?_, fun n hn => ?_⟩
  · exact h.write hw.nodup hbs fun x hx idx key hrow => hw.replayed hx hrow
  · exact Table.write_of_not_mem hbs hn

/-- **The replay of a log** brings the engines to the rows after it. -/
theorem Ahead.replay (h : Ahead tok t rows log e) (hlog : FaithfulLog tok t rows log)
    (hwidth : ∀ pk row, rows pk = some row → row.length = t.schema.columns.length) :
    ∃ e', t.replay tok log e = some e' ∧ Represents tok t e' (rowsAfter log rows) ∧
      ∀ n, n ∉ t.engineNames → e' n = e n := by
  induction log generalizing rows e with
  | nil => exact ⟨e, rfl, h.represents hwidth, fun _ _ => rfl⟩
  | cons w log ih =>
    obtain ⟨hw, hlog⟩ := hlog
    obtain ⟨e₁, he₁, h₁, hsame₁⟩ := h.writeBatch hw
    obtain ⟨e₂, he₂, hrep, hsame₂⟩ := ih h₁ hlog (length_overwrite hwidth hw.width)
    refine ⟨e₂, ?_, hrep, fun n hn => (hsame₂ n hn).trans (hsame₁ n hn)⟩
    show bind (t.writeBatch tok e w.writes w.preset) _ = some e₂
    rw [he₁]
    exact he₂

theorem Represents.unique {e' : Engines} (h : Represents tok t e rows) (h' : Represents tok t e' rows)
    {n : EngineName} (hn : n ∈ t.engineNames) : e n = e' n := by
  ext k : 1
  rcases mem_append.1 hn with hn | hn
  · obtain ⟨g, hg, rfl⟩ := mem_map.1 hn
    rw [h.groups g hg, h'.groups g hg]
  · obtain ⟨idx, hidx, rfl⟩ := mem_map.1 hn
    rw [h.indexes idx hidx, h'.indexes idx hidx]

theorem Represents.ahead (h : Represents tok t e (rowsAfter log rows)) : Ahead tok t rows log e where
  groups g hg pk hnot := by rw [h.groups g hg pk, rowsAfter_of_not_touched hnot]
  indexes idx hidx key hnot := by
    rw [h.indexes idx hidx key]
    cases howner : owner key with
    | none => rfl
    | some pk => rw [bind_some, bind_some, rowsAfter_of_not_touched (hnot pk howner)]
  known idx hidx key pk howner hget := by
    rw [h.indexes idx hidx key, howner] at hget
    rcases rowsAfter_cases log rows pk with heq | ⟨w, hw, hl⟩
    · exact .inl (heq ▸ hget)
    · exact .inr ⟨w, hw, _, hl, hget⟩

/-- **Replaying a log twice** changes nothing. -/
theorem Represents.replay_again (h : Represents tok t e (rowsAfter log rows))
    (hlog : FaithfulLog tok t rows log)
    (hwidth : ∀ pk row, rows pk = some row → row.length = t.schema.columns.length) :
    t.replay tok log e = some e := by
  obtain ⟨e', he', hrep, hsame⟩ := h.ahead.replay hlog hwidth
  rw [he']
  refine congrArg some (funext fun n => ?_)
  by_cases hn : n ∈ t.engineNames
  · exact hrep.unique h hn
  · exact hsame n hn

/-! ## After a crash -/

/-- What a batch of a record writes to an engine, whatever old rows it was made with. -/
def FromLog (tok : Tokenizers) (t : Table) (log : List TableWrites) (n : EngineName) (k : DbKey)
    (v : Option Stored) : Prop :=
  ∃ w ∈ log, ∃ old bs, t.batches tok w.writes old = some bs ∧ lastWrite (batchFor bs n) k = some v

section

variable {idx : IndexDefinition} {key : DbKey} {v : Option Stored}

theorem FromLog.touched_group {g : String} (h : FromLog tok t log (.group g) pk v)
    (hnd : ∀ w ∈ log, (w.writes.map Prod.fst).Nodup) : Touched log pk := by
  obtain ⟨w, hw, old, bs, hbs, hv⟩ := h
  refine ⟨w, hw, isSome_iff_ne_none.2 fun hnone => ?_⟩
  cases (Table.lastWrite_group_none (hnd w hw) hbs g hnone).symm.trans hv

theorem FromLog.exists_index (h : FromLog tok t log (.index idx.name) key v)
    (hnd : ∀ w ∈ log, (w.writes.map Prod.fst).Nodup) (hidx : idx ∈ t.schema.indexes) :
    ∃ pk, owner key = some pk ∧ ∃ w ∈ log, ∃ row, w.writes.lookup pk = some row ∧
      (v.isSome = true → (t.schema.entry tok idx pk row key).isSome = true) := by
  obtain ⟨w, hw, old, bs, hbs, hv⟩ := h
  cases howner : owner key with
  | none =>
    have hnone : ∀ row, t.schema.entry tok idx key row key = none := fun row =>
      Schema.entry_of_owner_ne (by rw [howner]; nofun)
    rw [Table.lastWrite_index (hnd w hw) hbs hidx key (by rw [howner]; nofun)] at hv
    simp [hnone] at hv
  | some pk =>
    rw [Table.lastWrite_index (hnd w hw) hbs hidx pk (by rw [howner]; rintro k ⟨⟩; rfl)] at hv
    obtain ⟨row, hl, hv⟩ := bind_eq_some_iff.1 hv
    refine ⟨pk, rfl, w, hw, row, hl, fun hsome => ?_⟩
    cases hentry : t.schema.entry tok idx pk row key with
    | some x => rfl
    | none =>
      rw [hentry] at hv
      split at hv <;> cases hv
      cases hsome

end

/-- Engines that hold at each key what they held before or what a record writes are ahead. -/
theorem Ahead.rewritten (h : Ahead tok t rows log e) {e' : Engines}
    (hnd : ∀ w ∈ log, (w.writes.map Prod.fst).Nodup)
    (hmix : ∀ n ∈ t.engineNames, ∀ k,
      (e' n).get k = (e n).get k ∨ FromLog tok t log n k ((e' n).get k)) :
    Ahead tok t rows log e' := by
  have hgroup : ∀ g ∈ t.groups, .group g ∈ t.engineNames := fun g hg =>
    mem_append_left _ (mem_map_of_mem hg)
  have hindex : ∀ idx ∈ t.schema.indexes, .index idx.name ∈ t.engineNames := fun idx hidx =>
    mem_append_right _ (mem_map.2 ⟨idx, hidx, rfl⟩)
  refine ⟨fun g hg pk hnot => ?_, fun idx hidx key hnot => ?_, fun idx hidx key pk howner hget => ?_⟩
  · rcases hmix _ (hgroup g hg) pk with heq | hw
    · exact heq.trans (h.groups g hg pk hnot)
    · exact absurd (hw.touched_group hnd) hnot
  · rcases hmix _ (hindex idx hidx) key with heq | hw
    · exact heq.trans (h.indexes idx hidx key hnot)
    · obtain ⟨pk, howner, w, hw, row, hl, -⟩ := hw.exists_index hnd hidx
      exact absurd ⟨w, hw, by rw [hl]; rfl⟩ (hnot pk howner)
  · rcases hmix _ (hindex idx hidx) key with heq | hw
    · exact h.known idx hidx key pk howner (heq ▸ hget)
    · obtain ⟨pk', howner', w, hw, row, hl, hentry⟩ := hw.exists_index hnd hidx
      cases howner.symm.trans howner'
      exact .inr ⟨w, hw, row, hl, hentry hget⟩

/-- What `base` holds, or what a record of the log wrote. -/
def Mixed (tok : Tokenizers) (t : Table) (base : Engines) (log : List TableWrites) (e : Engines) :
    Prop :=
  ∀ n ∈ t.engineNames, ∀ k, (e n).get k = (base n).get k ∨
    ∃ w ∈ log, ∃ v, lastWrite (t.batchOf tok n w) k = some v ∧ (e n).get k = v

/-- A key holds what it held before or what one of the batches wrote last. -/
theorem get_applyAll_flatten (m : Store) (kept : List Batch) (k : DbKey) :
    (m.applyAll kept.flatten).get k = m.get k ∨
      ∃ b ∈ kept, lastWrite b k = some ((m.applyAll kept.flatten).get k) := by
  rw [SortedMap.get_applyAll]
  cases hlast : lastWrite kept.flatten k with
  | none =>
    rw [show kept.flatten.reverse.lookup k = none from hlast]
    exact .inl rfl
  | some v =>
    rw [show kept.flatten.reverse.lookup k = some v from hlast]
    exact .inr (exists_of_lastWrite_flatten hlast)

theorem Crashed.mixed {base : Engines} (h : Crashed tok t base log e) : Mixed tok t base log e := by
  intro n _ k
  obtain ⟨kept, hsub, heq⟩ := h n
  rw [heq]
  refine (get_applyAll_flatten _ kept k).imp_right fun ⟨b, hb, hv⟩ => ?_
  obtain ⟨w, hw, rfl⟩ := mem_map.1 (hsub.subset hb)
  exact ⟨w, hw, _, hv, rfl⟩

/-- **Whatever writes a crash keeps**, the engines are only ahead. -/
theorem Mixed.ahead {base : Engines} (h : Mixed tok t base log e)
    (hbase : Represents tok t base rows) (hlog : FaithfulLog tok t rows log) :
    Ahead tok t rows log e := by
  have hahead : Ahead tok t rows log base := ⟨fun g hg pk _ => hbase.groups g hg pk,
    fun idx hidx key _ => hbase.indexes idx hidx key, fun idx hidx key pk howner hget => by
      rw [hbase.indexes idx hidx key, howner] at hget
      exact .inl hget⟩
  refine hahead.rewritten (fun w hw => hlog.nodup hw) fun n hn k => (h n hn k).imp_right ?_
  rintro ⟨w, hw, v, hv, heq⟩
  unfold Table.batchOf at hv
  cases hbs : t.batches tok w.writes w.oldRow with
  | none =>
    rw [hbs] at hv
    cases hv
  | some bs =>
    rw [hbs] at hv
    exact ⟨w, hw, _, bs, hbs, heq ▸ hv⟩

/-! ## Recovery that is cut short -/

/-- The batches of the records, each made with the rows that the ones before it leave. -/
def Table.replayBatches (tok : Tokenizers) (t : Table) : List TableWrites → Engines →
    Option (List (List (EngineName × Batch)))
  | [], _ => some []
  | w :: log, e => do
    let bs ← t.batches tok w.writes (w.preset.getD (t.get e))
    let bss ← replayBatches tok t log (e.write bs)
    some (bs :: bss)

/-- A replay that a crash cuts short: some records were written, and each engine keeps any of their
batches. -/
def Interrupted (tok : Tokenizers) (t : Table) (log : List TableWrites) (e e' : Engines) : Prop :=
  ∃ done bss, done <+: log ∧ t.replayBatches tok done e = some bss ∧ ∀ n, ∃ kept : List Batch,
    kept.Sublist (bss.map (batchFor · n)) ∧ e' n = (e n).applyAll kept.flatten

theorem mem_replayBatches {bss : List (List (EngineName × Batch))}
    (h : t.replayBatches tok log e = some bss) {bs : List (EngineName × Batch)} (hbs : bs ∈ bss) :
    ∃ w ∈ log, ∃ old, t.batches tok w.writes old = some bs := by
  induction log generalizing e bss with
  | nil =>
    cases h
    cases hbs
  | cons w log ih =>
    obtain ⟨bs₁, hbs₁, bss₁, hbss₁, h⟩ := bind_bind_eq_some.1 h
    cases h
    rcases mem_cons.1 hbs with rfl | hbs
    · exact ⟨w, mem_cons_self, _, hbs₁⟩
    · obtain ⟨w', hw', hold⟩ := ih hbss₁ hbs
      exact ⟨w', .tail _ hw', hold⟩

theorem Ahead.interrupted (h : Ahead tok t rows log e)
    (hnd : ∀ w ∈ log, (w.writes.map Prod.fst).Nodup) {e' : Engines}
    (hint : Interrupted tok t log e e') : Ahead tok t rows log e' := by
  obtain ⟨done, bss, hdone, hbss, hkept⟩ := hint
  refine h.rewritten hnd fun n _ k => ?_
  obtain ⟨kept, hsub, heq⟩ := hkept n
  rw [heq]
  refine (get_applyAll_flatten _ kept k).imp_right fun ⟨b, hb, hv⟩ => ?_
  obtain ⟨bs, hbs, rfl⟩ := mem_map.1 (hsub.subset hb)
  obtain ⟨w, hw, old, hold⟩ := mem_replayBatches hbss hbs
  exact ⟨w, hdone.subset hw, old, bs, hold, hv⟩

theorem Ahead.interrupts (h : Ahead tok t rows log e)
    (hnd : ∀ w ∈ log, (w.writes.map Prod.fst).Nodup) {e' : Engines}
    (hint : Relation.ReflTransGen (Interrupted tok t log) e e') : Ahead tok t rows log e' := by
  induction hint with
  | refl => exact h
  | tail _ hstep ih => exact ih.interrupted hnd hstep

end Dtdb.Relational
