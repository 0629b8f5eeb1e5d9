import Dtdb.Relational.Replay

/-! # The transaction log

A commit appends all its mutations and the rows it fetched for them as one record.  After a crash
`recover_transactions` replays the records since the last checkpoint in log order. -/

namespace Dtdb.Relational

open Dtdb.Lib Dtdb.Storage List Option Function

structure Prepared where
  txId : Nat
  mutations : List (String × List (DbKey × Option Row))
  oldRows : Option (List (String × List (DbKey × Row)))

def Prepared.forTable (r : Prepared) (table : String) : TableWrites :=
  ⟨(r.mutations.lookup table).getD [], r.oldRows.bind (·.lookup table)⟩

section

variable (tok : Tokenizers) (tables : SortedMap String Table)

/-- A record's writes to one table; a table that is gone is skipped. -/
def recoverTable (r : Prepared) (engines : String → Engines)
    (x : String × List (DbKey × Option Row)) : Option (String → Engines) :=
  match tables.get x.1 with
  | none => some engines
  | some t => (t.writeBatch tok (engines x.1) x.2 (r.forTable x.1).preset).map
      (update engines x.1)

def recoverRecord (engines : String → Engines) (r : Prepared) : Option (String → Engines) :=
  r.mutations.foldlM (recoverTable tok tables r) engines

/-- `recover_transactions`, up to the removal of the log; `none` is a panic. -/
def recoverTransactions (engines : String → Engines) (log : List Prepared) :
    Option (String → Engines) :=
  log.foldlM (recoverRecord tok tables) engines

end

/-! ## Recovery, table by table -/

variable {tok : Tokenizers} {tables : SortedMap String Table}

theorem Table.writeBatch_nil (t : Table) (e : Engines) (preset : Option (DbKey → Option Row)) :
    t.writeBatch tok e [] preset = some e := by
  have hsome : ∃ bs, t.batches tok [] (preset.getD (t.get e)) = some bs :=
    Table.exists_batches nofun nofun
  obtain ⟨bs, hbs⟩ := hsome
  unfold Table.writeBatch
  rw [hbs]
  refine congrArg some (funext fun n => ?_)
  by_cases hn : n ∈ t.engineNames
  · have hbatch := Table.batch_of_batches hbs hn
    have hnil : batchFor bs n = [] := by
      cases n with
      | group g => exact (some.inj hbatch).symm
      | index i =>
        simp only [Table.batch] at hbatch
        split at hbatch
        · exact (some.inj hbatch).symm
        · exact (some.inj hbatch).symm
    unfold Engines.write
    rw [hnil]
    rfl
  · exact Table.write_of_not_mem hbs hn

theorem foldlM_recoverTable {r : Prepared} {l : List (String × List (DbKey × Option Row))}
    (hnd : (l.map Prod.fst).Nodup) {engines engines' : String → Engines}
    (hsome : ∀ x ∈ l, ∀ t, tables.get x.1 = some t →
      t.writeBatch tok (engines x.1) x.2 (r.forTable x.1).preset = some (engines' x.1))
    (hnone : ∀ name, tables.get name = none → engines' name = engines name) :
    l.foldlM (recoverTable tok tables r) engines
      = some fun name => if name ∈ l.map Prod.fst then engines' name else engines name := by
  induction l generalizing engines with
  | nil => rfl
  | cons x l ih =>
    obtain ⟨hnot, hnd⟩ := nodup_cons.1 hnd
    have hstep : recoverTable tok tables r engines x
        = some (update engines x.1 (engines' x.1)) := by
      unfold recoverTable
      cases ht : tables.get x.1 with
      | none =>
        rw [hnone x.1 ht, update_eq_self]
      | some t =>
        dsimp only
        rw [hsome x mem_cons_self t ht]
        rfl
    rw [foldlM_cons, hstep]
    show l.foldlM (recoverTable tok tables r) _ = _
    rw [ih hnd (fun y hy t ht => ?_) fun name hname => ?_]
    · refine congrArg some (funext fun name => ?_)
      by_cases hname : name = x.1
      · subst hname
        rw [if_neg hnot, if_pos (by simp), update_self]
      · rw [update_of_ne hname]
        simp only [map_cons, mem_cons, hname, false_or]
    · have hne : y.1 ≠ x.1 := fun heq => hnot (heq ▸ mem_map_of_mem hy)
      rw [update_of_ne hne]
      exact hsome y (.tail _ hy) t ht
    · by_cases heq : name = x.1
      · rw [heq, update_self]
      · rw [update_of_ne heq]
        exact hnone name hname

theorem recoverRecord_eq {r : Prepared} (hnd : (r.mutations.map Prod.fst).Nodup)
    {engines engines' : String → Engines}
    (hsome : ∀ name t, tables.get name = some t → t.writeBatch tok (engines name)
      (r.forTable name).writes (r.forTable name).preset = some (engines' name))
    (hnone : ∀ name, tables.get name = none → engines' name = engines name) :
    recoverRecord tok tables engines r = some engines' := by
  have hfold : r.mutations.foldlM (recoverTable tok tables r) engines = some fun name =>
      if name ∈ r.mutations.map Prod.fst then engines' name else engines name := by
    refine foldlM_recoverTable hnd (fun x hx t ht => ?_) hnone
    have hlookup : (r.forTable x.1).writes = x.2 := by
      unfold Prepared.forTable
      rw [lookup_of_mem hnd hx]
      rfl
    rw [← hlookup]
    exact hsome x.1 t ht
  refine hfold.trans (congrArg some (funext fun name => ?_))
  split
  · rfl
  · next hnot =>
    cases ht : tables.get name with
    | none => exact (hnone name ht).symm
    | some t =>
      have hwrites : (r.forTable name).writes = [] := by
        unfold Prepared.forTable
        rw [lookup_eq_none.2 fun x hx heq => hnot (mem_map.2 ⟨x, hx, heq⟩)]
        rfl
      have hsame := hsome name t ht
      rw [hwrites, Table.writeBatch_nil] at hsame
      exact some.inj hsame

/-- The log is replayed on each table as if there were no other. -/
theorem recoverTransactions_eq {log : List Prepared}
    (hnd : ∀ r ∈ log, (r.mutations.map Prod.fst).Nodup) {engines engines' : String → Engines}
    (hsome : ∀ name t, tables.get name = some t →
      t.replay tok (log.map (·.forTable name)) (engines name) = some (engines' name))
    (hnone : ∀ name, tables.get name = none → engines' name = engines name) :
    recoverTransactions tok tables engines log = some engines' := by
  induction log generalizing engines with
  | nil =>
    refine congrArg some (funext fun name => ?_)
    cases ht : tables.get name with
    | none => exact (hnone name ht).symm
    | some t => exact some.inj (hsome name t ht)
  | cons r log ih =>
    have hfirst : ∀ name, ∃ e, (∀ t, tables.get name = some t →
        t.writeBatch tok (engines name) (r.forTable name).writes (r.forTable name).preset = some e ∧
          t.replay tok (log.map (·.forTable name)) e = some (engines' name)) ∧
        (tables.get name = none → e = engines name) := by
      intro name
      cases ht : tables.get name with
      | none => exact ⟨engines name, nofun, fun _ => rfl⟩
      | some t =>
        obtain ⟨e, he, hrest⟩ := bind_eq_some_iff.1 (hsome name t ht)
        refine ⟨e, ?_, nofun⟩
        rintro _ ⟨⟩
        exact ⟨he, hrest⟩
    choose engines₁ hwrite hkeep using hfirst
    have hrecord : recoverRecord tok tables engines r = some engines₁ :=
      recoverRecord_eq (hnd r mem_cons_self) (fun name t ht => (hwrite name t ht).1) hkeep
    show bind (recoverRecord tok tables engines r) _ = _
    rw [hrecord]
    exact ih (fun x hx => hnd x (.tail _ hx)) (fun name t ht => (hwrite name t ht).2)
      fun name hname => (hnone name hname).trans (hkeep name hname).symm

/-- **Recovery** from engines that are only ahead of the log. -/
theorem recover_of_ahead {log : List Prepared} (hnd : ∀ r ∈ log, (r.mutations.map Prod.fst).Nodup)
    {crashed : String → Engines} {rows : String → DbKey → Option Row}
    (hwidth : ∀ name t, tables.get name = some t →
      ∀ pk row, rows name pk = some row → row.length = t.schema.columns.length)
    (hlog : ∀ name t, tables.get name = some t →
      FaithfulLog tok t (rows name) (log.map (·.forTable name)))
    (hahead : ∀ name t, tables.get name = some t →
      Ahead tok t (rows name) (log.map (·.forTable name)) (crashed name)) :
    ∃ recovered, recoverTransactions tok tables crashed log = some recovered ∧
      (∀ name t, tables.get name = some t → Represents tok t (recovered name)
        (rowsAfter (log.map (·.forTable name)) (rows name))) ∧
      recoverTransactions tok tables recovered log = some recovered := by
  have hreplay : ∀ name, ∃ e, (∀ t, tables.get name = some t →
      t.replay tok (log.map (·.forTable name)) (crashed name) = some e ∧
        Represents tok t e (rowsAfter (log.map (·.forTable name)) (rows name))) ∧
      (tables.get name = none → e = crashed name) := by
    intro name
    cases ht : tables.get name with
    | none => exact ⟨crashed name, nofun, fun _ => rfl⟩
    | some t =>
      obtain ⟨e, he, hrep, -⟩ := (hahead name t ht).replay (hlog name t ht) (hwidth name t ht)
      refine ⟨e, ?_, nofun⟩
      rintro _ ⟨⟩
      exact ⟨he, hrep⟩
  choose recovered hsome hnone using hreplay
  refine ⟨recovered, recoverTransactions_eq hnd (fun name t ht => (hsome name t ht).1) hnone,
    fun name t ht => (hsome name t ht).2, recoverTransactions_eq hnd (fun name t ht => ?_)
      fun _ _ => rfl⟩
  exact (hsome name t ht).2.replay_again (hlog name t ht) (hwidth name t ht)

/-- **Recovery** from any mixture of the writes since the checkpoint. -/
theorem recover_of_mixed {log : List Prepared} (hnd : ∀ r ∈ log, (r.mutations.map Prod.fst).Nodup)
    {base crashed : String → Engines} {rows : String → DbKey → Option Row}
    (hbase : ∀ name t, tables.get name = some t → Represents tok t (base name) (rows name))
    (hlog : ∀ name t, tables.get name = some t →
      FaithfulLog tok t (rows name) (log.map (·.forTable name)))
    (hcrash : ∀ name t, tables.get name = some t →
      Mixed tok t (base name) (log.map (·.forTable name)) (crashed name)) :
    ∃ recovered, recoverTransactions tok tables crashed log = some recovered ∧
      (∀ name t, tables.get name = some t → Represents tok t (recovered name)
        (rowsAfter (log.map (·.forTable name)) (rows name))) ∧
      recoverTransactions tok tables recovered log = some recovered :=
  recover_of_ahead hnd (fun name t ht => (hbase name t ht).width) hlog fun name t ht =>
    (hcrash name t ht).ahead (hbase name t ht) (hlog name t ht)

end Dtdb.Relational
