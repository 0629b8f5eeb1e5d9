import Dtdb.Relational.IndexExact
import Dtdb.Relational.TxLog

/-! # Transactions with a log

A commit that passed validation appends its record before its first engine write.  In every run the
engines hold the rows after the log once the pending writes are made; whatever a crash keeps of the
writes, recovery ends with these rows. -/

namespace Dtdb.Relational

open Dtdb.Lib Dtdb.Storage List Option

variable {tok : Tokenizers}

/-! ## Logging commits -/

def Db.tableOldRows (s : Db) (u : Session) (x : String × SortedMap DbKey (Option Row)) :
    Option (List (DbKey × Row)) :=
  (s.tables.get x.1).bind fun t =>
    match x.2.entries.filterMap fun w => (u.oldRow x.1 t w.1).map (w.1, ·) with
    | [] => none
    | rows => some rows

/-- All mutations of a commit, and the old rows of the tables that have any. -/
def Db.prepared (s : Db) (id : Nat) (u : Session) : Prepared where
  txId := id
  mutations := u.buffer.entries.map fun x => (x.1, x.2.entries)
  oldRows := some (u.buffer.entries.filterMap fun x => (s.tableOldRows u x).map (x.1, ·))

/-- A database with its log and the engine writes it made since the last checkpoint. -/
structure Logged where
  db : Db
  log : List Prepared
  made : List ((String × EngineName) × Batch)

namespace Logged

def appended (s : Db) (l : DbStep) (s' : Db) : List Prepared :=
  match l, s'.applying with
  | .act id .startApply, some _ => ((s.sessions.get id).map (s.prepared id)).toList
  | _, _ => []

def written (s : Db) : DbStep → List ((String × EngineName) × Batch)
  | .writeEngine table n => (s.applying.bind fun a => a.pending.find? fun x => x.1 = (table, n)).toList
  | _ => []

def step (tok : Tokenizers) (s : Logged) (l : DbStep) : Option Logged :=
  (s.db.step tok l).map fun db => ⟨db, s.log ++ appended s.db l db, s.made ++ written s.db l⟩

def StepSafe (s : Logged) (l : DbStep) : Prop := s.db.StepSafe l

instance (s : Logged) (l : DbStep) : Decidable (s.StepSafe l) :=
  inferInstanceAs (Decidable (s.db.StepSafe l))

def start (tables : SortedMap String Table) (engines : String → Engines) : Logged :=
  ⟨.start tables engines, [], []⟩

end Logged

/-- Each engine keeps any of the batches written to it since `base`. -/
def Retained (base : String → Engines) (made : List ((String × EngineName) × Batch))
    (e : String → Engines) : Prop :=
  ∀ name n, ∃ kept : List Batch, kept.Sublist (batchesFor made (name, n)) ∧
    e name n = (base name n).applyAll kept.flatten

namespace Db

variable {s s' : Db} {id : Nat} {u : Session} {tx : Tx String DbKey}

/-! ## What a step does to the data -/

/-- The batches a commit has yet to write to an engine. -/
def pendingFor (s : Db) (x : String × EngineName) : List Batch :=
  (s.applying.map fun a => batchesFor a.pending x).getD []

/-- The catalog, the engines and the pending writes are the same. -/
def SameData (s s' : Db) : Prop :=
  s'.tables = s.tables ∧ s'.engines = s.engines ∧ s'.applying = s.applying

theorem SameData.settled (h : SameData s s') : s'.settled = s.settled := by
  obtain ⟨-, he, ha⟩ := h
  unfold Db.settled
  rw [he, ha]

theorem SameData.pendingFor (h : SameData s s') : s'.pendingFor = s.pendingFor := by
  unfold Db.pendingFor
  rw [h.2.2]

theorem sameData_control {a : Action String DbKey} (h : s.control id a = some s') : SameData s s' := by
  obtain ⟨occ, -, rfl⟩ := map_eq_some_iff.1 h
  exact ⟨rfl, rfl, rfl⟩

theorem SameData.setSession (h : SameData s s') (u : Session) : SameData s (s'.setSession id u) :=
  h

theorem sameData_act {a : DbAction} (ha : a ≠ .startApply) (h : s.act tok id u tx a = some s') :
    SameData s s' := by
  cases a with
  | read a | unregister | prune =>
    obtain ⟨-, h⟩ := ite_none_right_eq_some.1 h
    exact sameData_control h
  | put table key row | delete table key =>
    obtain ⟨-, h⟩ := ite_none_right_eq_some.1 h
    split at h
    · cases h
      exact ⟨rfl, rfl, rfl⟩
    · split at h
      · obtain ⟨s₁, hs₁, rfl⟩ := map_eq_some_iff.1 h
        exact (sameData_control hs₁).setSession _
      · cases h
        exact ⟨rfl, rfl, rfl⟩
  | rollback =>
    obtain ⟨-, h⟩ := ite_none_right_eq_some.1 h
    obtain ⟨s₁, hs₁, rfl⟩ := map_eq_some_iff.1 h
    exact (sameData_control hs₁).setSession _
  | fetch table group key =>
    simp only [Db.act, Db.fetch] at h
    split at h
    · obtain ⟨-, h⟩ := ite_none_right_eq_some.1 h
      cases h
      exact ⟨rfl, rfl, rfl⟩
    · cases h
  | validate =>
    obtain ⟨-, h⟩ := ite_none_right_eq_some.1 h
    obtain ⟨keys, -, h⟩ := bind_eq_some_iff.1 h
    obtain ⟨s₁, hs₁, rfl⟩ := map_eq_some_iff.1 h
    exact (sameData_control hs₁).setSession _
  | readMin | loadLimit => exact sameData_control h
  | startApply => exact absurd rfl ha

/-- A commit starts to write. -/
structure StartsWriting (tok : Tokenizers) (s : Db) (id : Nat) (u : Session) (s' : Db) : Prop where
  session : s.sessions.get id = some u
  idle : s.applying = none
  writes : ∃ tx writes max min pending, s.occ.txs.get id = some tx ∧
    tx.phase = .limited writes max min ∧ s.occ.Clear max (tx.footprint writes) ∧
    s.engineWrites tok u = some pending ∧ s' = { s with applying := some ⟨id, writes, pending⟩ }

structure Quiet (s : Db) (l : DbStep) (s' : Db) : Prop where
  tables : s'.tables = s.tables
  settled : s'.settled = s.settled
  appended : Logged.appended s l s' = []
  pending : ∀ x, batchesFor (Logged.written s l) x ++ s'.pendingFor x = s.pendingFor x

theorem SameData.quiet (h : SameData s s') {l : DbStep} (happended : Logged.appended s l s' = [])
    (hwritten : Logged.written s l = []) : Quiet s l s' :=
  ⟨h.1, h.settled, happended, fun x => by rw [hwritten, h.pendingFor]; rfl⟩

theorem quiet_writeEngine {table : String} {n : EngineName}
    (h : s.writeEngine table n = some s') : Quiet s (.writeEngine table n) s' := by
  have hset := settled_writeEngine h
  obtain ⟨a, ha, h⟩ := bind_eq_some_iff.1 h
  obtain ⟨y, hy, rfl⟩ := map_eq_some_iff.1 h
  refine ⟨rfl, hset, rfl, fun x => ?_⟩
  have hkey : y.1 = (table, n) := by simpa using find?_some hy
  have hwritten : Logged.written s (.writeEngine table n) = [y] := by
    simp [Logged.written, ha, hy]
  unfold pendingFor
  rw [hwritten, ha]
  simp only [map_some, batchesFor_cons, hkey]
  rw [batchesFor_eraseP hy x]
  simp [eq_comm, batchesFor]

theorem quiet_finish (h : s.finish = some s') : Quiet s .finish s' := by
  obtain ⟨a, ha, h⟩ := bind_eq_some_iff.1 h
  obtain ⟨hempty, h⟩ := ite_none_right_eq_some.1 h
  have hempty := isEmpty_iff.1 hempty
  obtain ⟨s₁, hs₁, rfl⟩ := map_eq_some_iff.1 h
  obtain ⟨ht, he, -⟩ := sameData_control hs₁
  refine ⟨ht, ?_, rfl, fun x => ?_⟩
  · rw [settled_of_empty ha hempty]
    exact he
  · unfold pendingFor
    rw [ha, map_some, hempty]
    rfl

/-- **A step leaves the data as it is, or is a commit that starts to write.** -/
theorem step_data {l : DbStep} (h : s.step tok l = some s') :
    Quiet s l s' ∨ ∃ id u, l = .act id .startApply ∧ StartsWriting tok s id u s' := by
  cases l with
  | begin id level =>
    obtain ⟨-, h⟩ := ite_none_left_eq_some.1 h
    obtain ⟨occ, -, rfl⟩ := map_eq_some_iff.1 h
    refine .inl (SameData.quiet ?_ rfl rfl)
    exact ⟨rfl, rfl, rfl⟩
  | act id a =>
    obtain ⟨u, hu, tx, htx, h⟩ := bind_bind_eq_some.1 h
    by_cases ha : a = .startApply
    · subst ha
      obtain ⟨hnone, h⟩ := ite_none_right_eq_some.1 h
      have hnone : s.applying = none := isNone_iff_eq_none.1 hnone
      split at h
      · next writes max min hp =>
        split at h
        · next hclear =>
          obtain ⟨pending, hpend, rfl⟩ := map_eq_some_iff.1 h
          exact .inr ⟨id, u, rfl, hu, hnone, tx, writes, max, min, pending, htx, hp, hclear, hpend,
            rfl⟩
        · obtain ⟨s₁, hs₁, rfl⟩ := map_eq_some_iff.1 h
          have hsame := sameData_control hs₁
          refine .inl ((hsame.setSession _).quiet ?_ rfl)
          have hidle : (s₁.setSession id u.reset).applying = none := hsame.2.2.trans hnone
          unfold Logged.appended
          rw [hidle]
      · cases h
    · refine .inl ((sameData_act ha h).quiet ?_ rfl)
      unfold Logged.appended
      split
      · next heq _ => exact absurd (DbStep.act.inj heq).2 ha
      · rfl
  | writeEngine table n => exact .inl (quiet_writeEngine h)
  | finish => exact .inl (quiet_finish h)

/-! ## The record of a commit -/

theorem writes_prepared (s : Db) (id : Nat) (u : Session) (name : String) :
    ((s.prepared id u).forTable name).writes = ((u.buffer.get name).map (·.entries)).getD [] := by
  show ((u.buffer.entries.map fun x => (x.1, x.2.entries)).lookup name).getD [] = _
  rw [lookup_map_snd]
  rfl

theorem oldRow_prepared {name : String} {t : Table} (ht : s.tables.get name = some t)
    {rows : SortedMap DbKey (Option Row)} (hrows : u.buffer.get name = some rows)
    {w : DbKey × Option Row} (hw : w ∈ rows.entries) :
    ((s.prepared id u).forTable name).oldRow w.1 = u.oldRow name t w.1 := by
  have hlookup : (rows.entries.filterMap fun w => (u.oldRow name t w.1).map (w.1, ·)).lookup w.1
      = u.oldRow name t w.1 := by
    rw [lookup_filterMap rows.ascending.nodup, lookup_of_mem rows.ascending.nodup hw]
    rfl
  have hold : ((s.prepared id u).forTable name).old = s.tableOldRows u (name, rows) := by
    show (u.buffer.entries.filterMap _).lookup name = _
    rw [lookup_filterMap u.buffer.ascending.nodup]
    exact congrArg (bind · _) hrows
  unfold TableWrites.oldRow
  rw [hold]
  unfold tableOldRows
  rw [ht, bind_some]
  split
  · next hnil =>
    rw [hnil] at hlookup
    exact hlookup
  · exact hlookup

theorem batchesFor_sublist {pending : List ((String × EngineName) × Batch)}
    (hpend : s.engineWrites tok u = some pending) {name : String} {t : Table}
    (ht : s.tables.get name = some t) (n : EngineName) :
    (batchesFor pending (name, n)).Sublist
      [t.batchOf tok n ((s.prepared id u).forTable name)] := by
  have hbatches := batchesFor_engineWrites hpend name
  cases hrows : u.buffer.get name with
  | none =>
    rw [hrows] at hbatches
    rw [hbatches n]
    exact nil_sublist _
  | some rows =>
    rw [hrows] at hbatches
    obtain ⟨t', bs, ht', hbs, hbatches⟩ := hbatches
    cases ht.symm.trans ht'
    have hsame : t.batches tok rows.entries ((s.prepared id u).forTable name).oldRow = some bs :=
      (Table.batches_congr fun w hw => oldRow_prepared ht hrows hw).trans hbs
    have hbatchOf : t.batchOf tok n ((s.prepared id u).forTable name) = batchFor bs n := by
      unfold Table.batchOf
      rw [writes_prepared, hrows, map_some, getD_some, hsame]
      rfl
    rw [hbatches n, hbatchOf]
    exact Table.batchesFor_batches hbs n

theorem SessionOk.faithful (hok : s.SessionOk tx u)
    (hcurrent : ∀ f ∈ u.fetched, f.row = Table.groupRow (s.engines f.table) f.key f.group)
    (hcomplete : u.Complete s.tables) {name : String} {t : Table} (ht : s.tables.get name = some t)
    {rows : DbKey → Option Row} (hrep : Represents tok t (s.engines name) rows) :
    Faithful tok t rows ((s.prepared id u).forTable name) := by
  have hwrites := writes_prepared s id u name
  cases hrows : u.buffer.get name with
  | none =>
    rw [hrows] at hwrites
    exact ⟨by rw [hwrites]; exact nodup_nil, by rw [hwrites]; nofun, by rw [hwrites]; nofun,
      by rw [hwrites]; nofun⟩
  | some ws =>
    rw [hrows] at hwrites
    have hold : ∀ x ∈ ws.entries,
        ((s.prepared id u).forTable name).oldRow x.1 = t.get (s.engines name) x.1 := fun x hx =>
      (oldRow_prepared ht hrows hx).trans (oldRow_eq hcurrent hcomplete hrows ht hx)
    constructor
    · rw [hwrites]
      exact ws.ascending.nodup
    · rw [hwrites]
      exact fun pk row hrow => hok.width name ws pk row t hrows (SortedMap.mem_entries.1 hrow) ht
    · rw [hwrites]
      exact fun x hx row hrow => Table.length_get ((hold x hx).symm.trans hrow)
    · rw [hwrites]
      intro x hx idx key hsome
      rw [hold x hx, hrep.entry_get]
      exact hsome

end Db

namespace Logged

variable {tables : SortedMap String Table} {rows : String → DbKey → Option Row} {s s' : Logged}

/-! ## The invariant -/

def rowsNow (s : Logged) (rows : String → DbKey → Option Row) (name : String) : DbKey → Option Row :=
  rowsAfter (s.log.map (·.forTable name)) (rows name)

structure Inv (tok : Tokenizers) (tables : SortedMap String Table)
    (rows : String → DbKey → Option Row) (s : Logged) : Prop where
  db : s.db.Inv tok
  catalog : s.db.tables = tables
  nodup : ∀ r ∈ s.log, (r.mutations.map Prod.fst).Nodup
  faithful : ∀ name t, tables.get name = some t →
    FaithfulLog tok t (rows name) (s.log.map (·.forTable name))
  settled : ∀ name t, tables.get name = some t →
    Represents tok t (s.db.settled name) (s.rowsNow rows name)
  made : ∀ name t, tables.get name = some t → ∀ n,
    (batchesFor s.made (name, n) ++ s.db.pendingFor (name, n)).Sublist
      ((s.log.map (·.forTable name)).map (t.batchOf tok n))

theorem Inv.start {engines : String → Engines}
    (hstart : ∀ name t, tables.get name = some t → Represents tok t (engines name) (rows name)) :
    Inv tok tables rows (.start tables engines) where
  db := .start fun name t ht => ⟨_, hstart name t ht⟩
  catalog := rfl
  nodup := nofun
  faithful _ _ _ := trivial
  settled := hstart
  made _ _ _ _ := List.Sublist.refl []

theorem Inv.quiet (h : Inv tok tables rows s) {l : DbStep} {db : Db} (hdb : db.Inv tok)
    (hq : s.db.Quiet l db) :
    Inv tok tables rows ⟨db, s.log ++ appended s.db l db, s.made ++ written s.db l⟩ := by
  rw [hq.appended, append_nil]
  refine ⟨hdb, hq.tables.trans h.catalog, h.nodup, h.faithful, fun name t ht => ?_,
    fun name t ht n => ?_⟩
  · rw [hq.settled]
    exact h.settled name t ht
  · rw [batchesFor_append, append_assoc, hq.pending]
    exact h.made name t ht n

theorem Inv.startsWriting (h : Inv tok tables rows s) {id : Nat} {u : Session} {db : Db}
    (hdb : db.Inv tok) (hs : s.db.StartsWriting tok id u db) :
    Inv tok tables rows ⟨db, s.log ++ [s.db.prepared id u], s.made⟩ := by
  obtain ⟨hu, hnone, tx, writes, max, min, pending, htx, hp, hclear, hpend, rfl⟩ := hs
  obtain ⟨tx', htx', hok⟩ := h.db.session id u hu
  cases htx.symm.trans htx'
  have hcurrent := hok.current hnone hp hclear
  have hcomplete : u.Complete s.db.tables := hok.complete (by rw [hp]; rfl)
  have hrep : ∀ name t, tables.get name = some t →
      Represents tok t (s.db.engines name) (s.rowsNow rows name) := fun name t ht => by
    rw [← Db.settled_of_none hnone]
    exact h.settled name t ht
  have ht' : ∀ {name t}, tables.get name = some t → s.db.tables.get name = some t := fun ht => by
    rw [h.catalog]
    exact ht
  refine ⟨hdb, h.catalog, fun r hr => ?_, fun name t ht => ?_, fun name t ht => ?_,
    fun name t ht n => ?_⟩
  · rcases mem_append.1 hr with hr | hr
    · exact h.nodup r hr
    · cases mem_singleton.1 hr
      show ((u.buffer.entries.map _).map Prod.fst).Nodup
      rw [List.map_map]
      exact u.buffer.ascending.nodup
  · rw [map_append]
    exact (h.faithful name t ht).append
      ⟨hok.faithful hcurrent hcomplete (ht' ht) (hrep name t ht), trivial⟩
  · have hrows := hok.represents_engineWrites hcurrent hcomplete hpend (ht' ht) (hrep name t ht)
    rw [← Db.writes_prepared s.db id u name] at hrows
    show Represents tok t _ (rowsAfter ((s.log ++ [s.db.prepared id u]).map _) (rows name))
    unfold rowsAfter
    rw [map_append, foldl_append]
    exact hrows
  · have hmade := h.made name t ht n
    have hidle : s.db.pendingFor (name, n) = [] := by
      unfold Db.pendingFor
      rw [hnone]
      rfl
    rw [hidle, append_nil] at hmade
    rw [map_append, map_append]
    exact hmade.append (Db.batchesFor_sublist hpend (ht' ht) n)

theorem Inv.step (h : Inv tok tables rows s) {l : DbStep} (hsafe : s.StepSafe l)
    (hs : s.step tok l = some s') : Inv tok tables rows s' := by
  obtain ⟨db, hdb, rfl⟩ := map_eq_some_iff.1 hs
  have hinv := h.db.step hsafe hdb
  rcases Db.step_data hdb with hq | ⟨id, u, rfl, hstarts⟩
  · exact h.quiet hinv hq
  · have happended : appended s.db (.act id .startApply) db = [s.db.prepared id u] := by
      obtain ⟨hu, -, tx, writes, max, min, pending, -, -, -, -, rfl⟩ := hstarts
      show ((s.db.sessions.get id).map (s.db.prepared id)).toList = _
      rw [hu]
      rfl
    rw [happended, show written s.db (.act id .startApply) = [] from rfl, append_nil]
    exact h.startsWriting hinv hstarts

theorem Inv.crashed (h : Inv tok tables rows s) {base crashed : String → Engines}
    (hcrash : Retained base s.made crashed) {name : String} {t : Table}
    (ht : tables.get name = some t) :
    Crashed tok t (base name) (s.log.map (·.forTable name)) (crashed name) := by
  intro n
  obtain ⟨kept, hsub, heq⟩ := hcrash name n
  exact ⟨kept, hsub.trans ((sublist_append_left ..).trans (h.made name t ht n)), heq⟩

end Logged

/-- **Recovery is exact.** In every run of transactions whose prunes are all safe, and whatever part
of the engine writes a crash keeps, recovery ends with the rows after all records of the log and with
indexes of exactly these rows; and running it again, with the log or without, changes nothing. -/
theorem recover_exact {tok : Tokenizers} {tables : SortedMap String Table}
    {engines crashed : String → Engines} {rows : String → DbKey → Option Row}
    (hstart : ∀ name t, tables.get name = some t → Represents tok t (engines name) (rows name))
    {ls : List DbStep} {s : Logged}
    (hrun : Run (Logged.step tok) Logged.StepSafe (.start tables engines) ls s)
    (hcrash : Retained engines s.made crashed) :
    ∃ recovered, recoverTransactions tok tables crashed s.log = some recovered ∧
      (∀ name t, tables.get name = some t →
        (∀ g ∈ t.groups, ∀ pk, (recovered name (.group g)).get pk
          = ((s.rowsNow rows name pk).bind (t.subRow · g)).map .row) ∧
        ∀ idx ∈ t.schema.indexes, ∀ key,
          ((recovered name (.index idx.name)).get key).isSome = true ↔
            ∃ pk row ks, s.rowsNow rows name pk = some row ∧
              t.schema.getIndexKeys tok idx row pk = some ks ∧ key ∈ ks) ∧
      recoverTransactions tok tables recovered s.log = some recovered ∧
      recoverTransactions tok tables recovered [] = some recovered := by
  have h : Logged.Inv tok tables rows s := hrun.invariant
    (I := fun _ s => Logged.Inv tok tables rows s) (.start hstart)
    fun _ _ _ _ h hsafe hs => h.step hsafe hs
  obtain ⟨recovered, hrec, hrep, hagain⟩ := recover_of_mixed h.nodup hstart h.faithful
    fun name t ht => (h.crashed hcrash ht).mixed
  refine ⟨recovered, hrec, fun name t ht => ⟨(hrep name t ht).groups, fun idx hidx => ?_⟩, hagain, rfl⟩
  exact (hrep name t ht).exact_keys_of hidx fun _ _ => rfl

/-- Two commits, of which the engines keep nothing. -/
theorem refusedTrace_recovered : ∃ s,
    Run (Logged.step fun _ => none) Logged.StepSafe
      (.start (SortedMap.empty.insert "t" notes) fun _ _ => .empty) refusedTrace s ∧
    s.log.length = 2 ∧ ∃ recovered,
      recoverTransactions (fun _ => none) (SortedMap.empty.insert "t" notes) (fun _ _ => .empty) s.log
        = some recovered ∧
      (recovered "t" (.group "")).get (.string "x") = some (.row [.string "x", .string "c"]) ∧
      recoverTransactions (fun _ => none) (SortedMap.empty.insert "t" notes) recovered s.log
        = some recovered := by
  refine Run.exists_of_exec (p := fun s => s.log.length = 2 ∧
    s.rowsNow (fun _ _ => none) "t" (.string "x") = some [.string "x", .string "c"])
    (by decide +kernel) fun s hs ⟨hlen, hrow⟩ => ?_
  have hstart : ∀ name t, (SortedMap.empty.insert "t" notes).get name = some t →
      Represents (fun _ => none) t (fun _ => .empty) fun _ => none :=
    fun name t _ => Represents.empty _ t
  obtain ⟨recovered, hrec, hrows, hagain, -⟩ := recover_exact hstart hs fun _ _ =>
    ⟨[], nil_sublist _, rfl⟩
  refine ⟨hlen, recovered, hrec, ?_, hagain⟩
  have ht : (SortedMap.empty.insert "t" notes).get "t" = some notes := by decide
  rw [(hrows "t" notes ht).1 "" (by decide), hrow]
  rfl

/-- The record of a commit with a stale row leaves a key in the index when it is replayed. -/
theorem staleTrace_recovered : ∃ s,
    exec (Logged.step fun _ => none)
      (.start (SortedMap.empty.insert "t" notes) fun _ _ => .empty) staleTrace = some s ∧
    s.db.applying = none ∧ Retained (fun _ _ => .empty) s.made (fun _ _ => .empty) ∧
    ∃ recovered,
      recoverTransactions (fun _ => none) (SortedMap.empty.insert "t" notes) (fun _ _ => .empty) s.log
        = some recovered ∧
      ¬∀ key, ((recovered "t" (.index "i")).get key).isSome = true ↔
        ∃ pk row ks, s.rowsNow (fun _ _ => none) "t" pk = some row ∧
          notes.schema.getIndexKeys (fun _ => none) ⟨"i", ["v"], .btree, none⟩ row pk = some ks ∧
          key ∈ ks := by
  obtain ⟨s, hs, hidle, hrow, recovered, hrecovered, hkey⟩ : ∃ s, exec (Logged.step fun _ => none)
      (.start (SortedMap.empty.insert "t" notes) fun _ _ => .empty) staleTrace = some s ∧
      s.db.applying.isNone = true ∧
      s.rowsNow (fun _ _ => none) "t" (.string "x") = some [.string "x", .string "b"] ∧
      ∃ r, recoverTransactions (fun _ => none) (SortedMap.empty.insert "t" notes) (fun _ _ => .empty)
        s.log = some r ∧
          ((r "t" (.index "i")).get (.composite [.string "c", .string "x"])).isSome = true := by
    decide +kernel
  refine ⟨s, hs, isNone_iff_eq_none.1 hidle, fun _ _ => ⟨[], nil_sublist _, rfl⟩, recovered,
    hrecovered, fun hexact => ?_⟩
  obtain ⟨pk, row, ks, hget, hks, hmem⟩ := (hexact _).1 hkey
  cases some.inj (Schema.owner_of_mem_getIndexKeys hks hmem)
  cases hrow.symm.trans hget
  exact not_mem_noteKeys hks hmem

end Dtdb.Relational
