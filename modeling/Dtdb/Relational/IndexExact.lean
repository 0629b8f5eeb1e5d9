import Dtdb.Relational.Commit

/-! # Indexes stay exact

A commit deletes the index entries of the rows it fetched, not of the rows it overwrites.  Whatever
it has fetched is either still there, or covered by a record it has yet to validate against, unless
a prune takes the record away. -/

namespace Dtdb.Relational

open Dtdb.Lib Dtdb.Storage List Option

/-! ## Pending engine writes -/

section

variable {E : Type} [DecidableEq E]

theorem batchesFor_eraseP {bs : List (E × Batch)} {e : E} {x : E × Batch}
    (h : bs.find? (fun y => y.1 = e) = some x) (d : E) :
    batchesFor bs d
      = (if d = e then [x.2] else []) ++ batchesFor (bs.eraseP fun y => y.1 = e) d := by
  induction bs with
  | nil => cases h
  | cons y bs ih =>
    by_cases hy : y.1 = e
    · rw [find?_cons_of_pos (by simpa using hy)] at h
      cases h
      rw [batchesFor_cons]
      simp [hy, eq_comm]
    · rw [find?_cons_of_neg (by simpa using hy)] at h
      rw [eraseP_cons_of_neg (by simpa using hy), batchesFor_cons, batchesFor_cons, ih h]
      by_cases hd : d = e
      · subst hd
        simp [hy]
      · simp [hd]

theorem batchFor_eraseP {bs : List (E × Batch)} {e : E} {x : E × Batch}
    (h : bs.find? (fun y => y.1 = e) = some x) (d : E) :
    batchFor bs d = (if d = e then x.2 else []) ++ batchFor (bs.eraseP fun y => y.1 = e) d := by
  rw [batchFor_eq_flatten, batchesFor_eraseP h, flatten_append, ← batchFor_eq_flatten]
  by_cases hd : d = e <;> simp [hd]

end

theorem batchesFor_tag (table name : String) (bs : List (EngineName × Batch)) (n : EngineName) :
    batchesFor (bs.map fun y => ((table, y.1), y.2)) (name, n)
      = if table = name then batchesFor bs n else [] := by
  induction bs with
  | nil => simp [batchesFor]
  | cons y bs ih =>
    rw [map_cons, batchesFor_cons, ih, batchesFor_cons]
    by_cases h : table = name <;> simp [h]

theorem Tx.Bounded.validatedUpTo_le {tx : Tx String DbKey} {n : Nat} (h : tx.Bounded n) :
    tx.validatedUpTo ≤ n := by
  unfold Tx.validatedUpTo
  cases hsnap : tx.phase.snapshot with
  | none => exact h.start
  | some x => exact h.validated x hsnap

namespace Db

variable {tok : Tokenizers} {s s' : Db} {id : Nat} {u : Session} {tx : Tx String DbKey}
variable {pending : List ((String × EngineName) × Batch)}

theorem batchesFor_engineWrites (h : s.engineWrites tok u = some pending) (name : String) :
    match u.buffer.get name with
    | none => ∀ n, batchesFor pending (name, n) = []
    | some rows => ∃ t bs, s.tables.get name = some t ∧
        t.batches tok rows.entries (u.oldRow name t) = some bs ∧
        ∀ n, batchesFor pending (name, n) = batchesFor bs n := by
  obtain ⟨bss, hbss, rfl⟩ := map_eq_some_iff.1 h
  have hasc := u.buffer.ascending
  clear h
  unfold SortedMap.get
  generalize u.buffer.entries = l at hbss hasc
  induction l generalizing bss with
  | nil =>
    cases hbss
    exact fun _ => rfl
  | cons x l ih =>
    obtain ⟨hlt, hasc⟩ := ascending_cons.1 hasc
    obtain ⟨b, bss', hb, hbss', rfl⟩ := mapM_cons_eq_some.1 hbss
    obtain ⟨t, ht, hb⟩ := bind_eq_some_iff.1 hb
    obtain ⟨bs, hbs, rfl⟩ := map_eq_some_iff.1 hb
    specialize ih bss' hbss' hasc
    simp only [flatten_cons, batchesFor_append, batchesFor_tag]
    by_cases hname : name = x.1
    · -- the other entries are of other tables
      subst hname
      have hnone : l.lookup x.1 = none := lookup_eq_none.2 fun y hy => (hlt y hy).ne'
      rw [hnone] at ih
      rw [lookup_cons_eq_ite, if_pos rfl]
      exact ⟨t, bs, ht, hbs, fun n => by rw [if_pos rfl, ih n, append_nil]⟩
    · rw [lookup_cons_eq_ite, if_neg hname]
      simpa only [if_neg (Ne.symm hname), nil_append] using ih

/-! ## The invariant -/

def settled (s : Db) (table : String) : Engines := fun n =>
  (s.engines table n).applyAll ((s.applying.map fun a => batchFor a.pending (table, n)).getD [])

/-- A record the transaction has yet to validate against wrote the row, or will have. -/
def Covered (s : Db) (tx : Tx String DbKey) (x : String × DbKey) : Prop :=
  (∃ r ∈ s.occ.history, tx.validatedUpTo < r.version ∧ x ∈ r.keys) ∨ ∃ a ∈ s.applying, x ∈ a.writes

def Fresh (s : Db) (tx : Tx String DbKey) (f : Fetched) : Prop :=
  s.Covered tx (f.table, f.key) ∨ f.row = Table.groupRow (s.settled f.table) f.key f.group

structure SessionOk (s : Db) (tx : Tx String DbKey) (u : Session) : Prop where
  buffered : ∀ name rows key w, u.buffer.get name = some rows → rows.get key = some w →
    (name, key) ∈ tx.buffer
  width : ∀ name rows key row t, u.buffer.get name = some rows → rows.get key = some (some row) →
    s.tables.get name = some t → row.length = t.schema.columns.length
  writes : ∀ x ∈ tx.phase.snapshot, tx.buffer ⊆ x.1
  complete : tx.phase.snapshot.isSome = true → u.Complete s.tables
  fetched : ∀ f ∈ u.fetched, (f.table, f.key) ∈ tx.buffer ∧ s.Fresh tx f

structure ApplyOk (s : Db) (a : Applying) : Prop where
  limited : ∃ tx max min, s.occ.txs.get a.id = some tx ∧ tx.phase = .limited a.writes max min ∧
    s.occ.Clear max (tx.footprint a.writes)
  pending : ∀ name g key, (name, key) ∉ a.writes →
    lastWrite (batchFor a.pending (name, .group g)) key = none

structure Inv (tok : Tokenizers) (s : Db) : Prop where
  bounded : s.occ.Bounded
  rows : ∀ name t, s.tables.get name = some t → ∃ rows, Represents tok t (s.settled name) rows
  session : ∀ id u, s.sessions.get id = some u → ∃ tx, s.occ.txs.get id = some tx ∧ s.SessionOk tx u
  applying : ∀ a ∈ s.applying, s.ApplyOk a

theorem settled_of_none (h : s.applying = none) : s.settled = s.engines := by
  unfold settled
  rw [h]
  rfl

theorem settled_of_empty {a : Applying} (ha : s.applying = some a) (hp : a.pending = []) :
    s.settled = s.engines := by
  funext name n
  simp only [settled, ha, map_some, hp]
  rfl

theorem Inv.start {tables : SortedMap String Table} {engines : String → Engines}
    (h : ∀ name t, tables.get name = some t → ∃ rows, Represents tok t (engines name) rows) :
    Inv tok (.start tables engines) where
  bounded := .fresh
  rows := h
  session := nofun
  applying := nofun

theorem SessionOk.new (hsnap : tx.phase.snapshot = none) : s.SessionOk tx .new where
  buffered := nofun
  width := nofun
  writes := by rw [hsnap]; nofun
  complete := by rw [hsnap]; nofun
  fetched := nofun

variable {tx' : Tx String DbKey}

theorem SessionOk.mono (h : s.SessionOk tx u) (ht : s'.tables = s.tables)
    (hf : ∀ f ∈ u.fetched, s.Fresh tx f → s'.Fresh tx f) : s'.SessionOk tx u where
  buffered := h.buffered
  width := by rw [ht]; exact h.width
  writes := h.writes
  complete := by rw [ht]; exact h.complete
  fetched f hmem := ⟨(h.fetched f hmem).1, hf f hmem (h.fetched f hmem).2⟩

theorem SessionOk.reset (h : s.SessionOk tx u) (hbuf : tx'.buffer = tx.buffer)
    (hsnap : tx'.phase.snapshot = none) : s.SessionOk tx' u.reset where
  buffered := by rw [hbuf]; exact h.buffered
  width := h.width
  writes := by rw [hsnap]; nofun
  complete := by rw [hsnap]; nofun
  fetched := nofun

theorem SessionOk.congr (h : s.SessionOk tx u) (hbuf : tx'.buffer = tx.buffer)
    (hstart : tx'.start = tx.start) (hsnap : tx'.phase.snapshot = tx.phase.snapshot) :
    s.SessionOk tx' u := by
  have hupto : tx'.validatedUpTo = tx.validatedUpTo := by
    unfold Tx.validatedUpTo
    rw [hstart, hsnap]
  refine ⟨?_, h.width, ?_, ?_, fun f hf => ?_⟩
  · rw [hbuf]
    exact h.buffered
  · rw [hbuf, hsnap]
    exact h.writes
  · rw [hsnap]
    exact h.complete
  · obtain ⟨hmem, hrow⟩ := h.fetched f hf
    rw [hbuf]
    refine ⟨hmem, hrow.imp_left fun hc => hc.imp_left fun ⟨r, hr, hlt, hkeys⟩ => ?_⟩
    exact ⟨r, hr, by rwa [hupto], hkeys⟩

theorem Inv.update (h : Inv tok s) {occ : Occ String DbKey} (hb : occ.Bounded)
    (hh : occ.history = s.occ.history) (ht : occ.txs = s.occ.txs.insert id tx)
    (hok : s.SessionOk tx u) (hother : ∀ a ∈ s.applying, a.id ≠ id) :
    Inv tok ({ s with occ }.setSession id u) where
  bounded := hb
  rows := h.rows
  session i v hv := by
    have hframe : ∀ {tx : Tx String DbKey} {v : Session}, s.SessionOk tx v →
        ({ s with occ }.setSession id u).SessionOk tx v := fun {tx v} hv =>
      hv.mono rfl fun f _ hf => hf.imp_left fun hc => hc.imp_left fun ⟨r, hr, hrest⟩ =>
        ⟨r, (hh ▸ hr : r ∈ occ.history), hrest⟩
    show ∃ tx, occ.txs.get i = some tx ∧ _
    change (s.sessions.insert id u).get i = some v at hv
    rw [SortedMap.get_insert] at hv
    rw [ht, SortedMap.get_insert]
    split at hv
    · next heq =>
      cases hv
      exact ⟨tx, if_pos heq, hframe hok⟩
    · next hne =>
      obtain ⟨tx', htx', hok'⟩ := h.session i v hv
      exact ⟨tx', by rw [if_neg hne]; exact htx', hframe hok'⟩
  applying a ha := by
    obtain ⟨⟨tx', max, min, htx', hp, hclear⟩, hpending⟩ := h.applying a ha
    refine ⟨⟨tx', max, min, ?_, hp, ?_⟩, hpending⟩
    · show occ.txs.get a.id = _
      rw [ht, SortedMap.get_insert_of_ne _ _ (hother a ha)]
      exact htx'
    · show occ.Clear max _
      unfold Occ.Clear
      rw [hh]
      exact hclear

theorem Inv.not_applying (h : Inv tok s) (htx : s.occ.txs.get id = some tx)
    (hp : ∀ writes max min, tx.phase ≠ .limited writes max min) : ∀ a ∈ s.applying, a.id ≠ id := by
  rintro a ha rfl
  obtain ⟨tx', max, min, htx', hp', -⟩ := (h.applying a ha).limited
  cases htx.symm.trans htx'
  exact hp _ _ _ hp'

theorem Inv.control (h : Inv tok s) {a : Action String DbKey} (htx : s.occ.txs.get id = some tx)
    (hs : s.control id a = some s') :
    ∃ occ, s.occ.Acts id tx a occ ∧ occ.Bounded ∧ s' = { s with occ } := by
  obtain ⟨occ, hocc, rfl⟩ := map_eq_some_iff.1 hs
  obtain ⟨tx', htx', ha⟩ := bind_eq_some_iff.1 hocc
  cases htx.symm.trans htx'
  have hacts := Occ.acts_of_act ha
  exact ⟨occ, hacts, h.bounded.acts htx hacts, rfl⟩

/-! ## Steps before the engine writes -/

variable {occ : Occ String DbKey}

theorem Inv.keep (h : Inv tok s) (hu : s.sessions.get id = some u) (hb : occ.Bounded)
    (hh : occ.history = s.occ.history) (ht : occ.txs = s.occ.txs.insert id tx)
    (hok : s.SessionOk tx u) (hother : ∀ a ∈ s.applying, a.id ≠ id) : Inv tok { s with occ } := by
  have hset := h.update hb hh ht hok hother
  unfold setSession at hset
  rwa [SortedMap.insert_self hu] at hset

theorem access_buffer {a : Access String DbKey} (ha : a.isRead = true) :
    (tx.access a).buffer = tx.buffer := by
  cases a with
  | get name key | nextKey name key =>
    simp only [Tx.access]
    split <;> rfl
  | filteredScan name lo hi seen =>
    obtain ⟨ranges, hr⟩ := Occ.addRange_eq tx name lo hi
    simp only [Tx.access, hr]
    split <;> rfl
  | scanIter name lo hi =>
    obtain ⟨ranges, hr⟩ := Occ.addRange_eq tx name lo hi
    simp [Tx.access, hr]
  | write name key | rollback => cases ha

theorem Inv.read (h : Inv tok s) (hu : s.sessions.get id = some u) (htx : s.occ.txs.get id = some tx)
    (hok : s.SessionOk tx u) {a : Access String DbKey} (ha : a.isRead = true)
    (hs : s.control id (.access a) = some s') : Inv tok s' := by
  obtain ⟨occ, hacts, hb, rfl⟩ := h.control htx hs
  cases hacts with
  | access _ hp =>
    obtain ⟨reads, ranges, buffer, heq⟩ := Occ.access_eq tx a
    refine h.keep hu hb rfl rfl ?_ (h.not_applying htx (by rw [hp]; nofun))
    exact hok.congr (access_buffer ha) (by rw [heq]) (by rw [heq])

variable {table : String}

theorem get_bufferWrite {name : String} {key k : DbKey} {w v : Option Row}
    {rows : SortedMap DbKey (Option Row)}
    (hrows : (u.bufferWrite table key w).buffer.get name = some rows) (hv : rows.get k = some v) :
    (name = table ∧ k = key ∧ v = w) ∨ ∃ rows, u.buffer.get name = some rows ∧ rows.get k = some v := by
  change (u.buffer.insert table _).get name = some rows at hrows
  rw [SortedMap.get_insert] at hrows
  split at hrows
  · next hname =>
    cases hrows
    rw [SortedMap.get_insert] at hv
    split at hv
    · next hk => exact .inl ⟨hname, hk, (some.inj hv).symm⟩
    · subst hname
      cases hbuf : u.buffer.get name with
      | none =>
        rw [hbuf] at hv
        cases hv
      | some rows => exact .inr ⟨rows, rfl, by rwa [hbuf] at hv⟩
  · exact .inr ⟨rows, hrows, hv⟩

theorem Inv.bufferWrite (h : Inv tok s) (htx : s.occ.txs.get id = some tx)
    (hok : s.SessionOk tx u) {key : DbKey} {w : Option Row}
    (hs : s.bufferWrite id u table key w = some s') : Inv tok s' := by
  obtain ⟨hempty, hs⟩ := ite_none_right_eq_some.1 hs
  split at hs
  · cases hs
    exact h
  · next t ht =>
    split at hs
    · next hrow _ =>
      obtain ⟨s₁, hs₁, rfl⟩ := map_eq_some_iff.1 hs
      obtain ⟨occ, hacts, hb, rfl⟩ := h.control htx hs₁
      cases hacts with
      | access _ hp =>
        refine h.update hb rfl rfl ⟨fun name rows k v hrows hv => ?_,
          fun name rows k row t' hrows hv ht' => ?_, ?_, ?_, ?_⟩
          (h.not_applying htx (by rw [hp]; nofun))
        · rcases get_bufferWrite hrows hv with ⟨rfl, rfl, -⟩ | ⟨rows, hrows, hv⟩
          · exact Finset.mem_insert_self ..
          · exact Finset.mem_insert_of_mem (hok.buffered name rows k v hrows hv)
        · rcases get_bufferWrite hrows hv with ⟨rfl, rfl, rfl⟩ | ⟨rows, hrows, hv⟩
          · cases ht.symm.trans ht'
            exact Schema.length_of_validateRow hrow
          · exact hok.width name rows k row t' hrows hv ht'
        · show ∀ x ∈ tx.phase.snapshot, _
          rw [hp]
          nofun
        · show tx.phase.snapshot.isSome = true → _
          rw [hp]
          nofun
        · show ∀ f ∈ u.fetched, _
          rw [isEmpty_iff.1 hempty]
          nofun
    · cases hs
      exact h

theorem Inv.fetch (h : Inv tok s) (htx : s.occ.txs.get id = some tx) (hok : s.SessionOk tx u)
    {group : String} {key : DbKey} (hs : s.fetch id u tx table group key = some s') :
    Inv tok s' := by
  unfold Db.fetch at hs
  split at hs
  · next w t hp hw ht =>
    obtain ⟨rows, hrows, hw⟩ := bind_eq_some_iff.1 hw
    obtain ⟨hfresh, hs⟩ := ite_none_right_eq_some.1 hs
    cases hs
    refine h.update h.bounded rfl (SortedMap.insert_self htx).symm
      ⟨hok.buffered, hok.width, hok.writes, by rw [hp]; nofun, fun f hf => ?_⟩
      (h.not_applying htx (by rw [hp]; nofun))
    rcases mem_cons.1 hf with rfl | hf
    · refine ⟨hok.buffered table rows key w hrows hw, ?_⟩
      cases ha : s.applying with
      | none =>
        unfold Fresh
        rw [settled_of_none ha]
        exact .inr rfl
      | some a =>
        by_cases hmem : (table, key) ∈ a.writes
        · exact .inl (.inr ⟨a, ha, hmem⟩)
        · right
          refine (Table.groupRow_applyAll ?_ ((h.applying a ha).pending table group key hmem)).symm
          unfold settled
          rw [ha]
          rfl
    · exact hok.fetched f hf
  · cases hs

variable {writes : Finset (String × DbKey)}

theorem not_covered {above : Nat} (ha : s.applying = none)
    (hclear : s.occ.Clear above (tx.footprint writes)) (hupto : tx.validatedUpTo = above)
    {x : String × DbKey} (hx : x ∈ writes) : ¬s.Covered tx x := by
  rintro (⟨r, hr, hlt, hkeys⟩ | ⟨a, ha', -⟩)
  · exact hclear r hr (hupto ▸ hlt) (.inr (.inr ⟨x, hx, hkeys⟩))
  · rw [ha] at ha'
    cases ha'

theorem Inv.validate (h : Inv tok s) (htx : s.occ.txs.get id = some tx) (hok : s.SessionOk tx u)
    (hs : s.validate tok id u = some s') : Inv tok s' := by
  obtain ⟨hfree, hs⟩ := ite_none_right_eq_some.1 hs
  obtain ⟨hnone, hcomplete⟩ := hfree
  have hnone : s.applying = none := isNone_iff_eq_none.1 hnone
  obtain ⟨keys, -, hs⟩ := bind_eq_some_iff.1 hs
  obtain ⟨s₁, hs₁, rfl⟩ := map_eq_some_iff.1 hs
  obtain ⟨occ, hacts, hb, rfl⟩ := h.control htx hs₁
  cases hacts with
  | conflict _ hp | readOnly _ hp hclear =>
    rw [if_neg (by simp [htx, hp, Phase.isValidated])]
    exact h.update hb rfl (SortedMap.insert_self htx).symm (hok.reset rfl (by rw [hp]; rfl))
      (h.not_applying htx (by rw [hp]; nofun))
  | validate _ hp hclear hne =>
    have hsub : tx.buffer ⊆ tx.writeKeys keys.toFinset := by
      unfold Tx.writeKeys
      split
      · next hempty => rw [hempty]
      · exact Finset.subset_union_left
    rw [if_pos (by simp [Occ.setTx, Phase.isValidated])]
    refine h.update hb rfl rfl ⟨hok.buffered, hok.width, fun x hx => ?_, fun _ => hcomplete,
      fun f hf => ⟨(hok.fetched f hf).1, .inr ?_⟩⟩ (h.not_applying htx (by rw [hp]; nofun))
    · cases hx
      exact hsub
    · obtain ⟨hmem, hfresh⟩ := hok.fetched f hf
      refine hfresh.resolve_left (not_covered hnone hclear ?_ (hsub hmem))
      unfold Tx.validatedUpTo
      rw [hp]
      rfl

/-! ## The engine writes -/

theorem oldRow_eq (hcurrent : ∀ f ∈ u.fetched,
      f.row = Table.groupRow (s.engines f.table) f.key f.group) (hcomplete : u.Complete s.tables)
    {name : String} {rows : SortedMap DbKey (Option Row)} {t : Table}
    (hrows : u.buffer.get name = some rows) (ht : s.tables.get name = some t)
    {w : DbKey × Option Row} (hw : w ∈ rows.entries) :
    u.oldRow name t w.1 = t.get (s.engines name) w.1 := by
  refine Table.mergeParts_congr fun g hg => ?_
  have hsome := hcomplete (name, rows) (SortedMap.mem_entries.2 hrows) t ht w hw g hg
  obtain ⟨f, hf⟩ := isSome_iff_exists.1 hsome
  have hname : f.table = name ∧ f.group = g ∧ f.key = w.1 := by simpa using find?_some hf
  obtain ⟨rfl, rfl, hkey⟩ := hname
  rw [hf, bind_some, hcurrent f (mem_of_find?_eq_some hf), hkey]

theorem SessionOk.lastWrite_engineWrites (hok : s.SessionOk tx u) (hsub : tx.buffer ⊆ writes)
    (hpend : s.engineWrites tok u = some pending) (name g : String) (key : DbKey)
    (hnot : (name, key) ∉ writes) :
    lastWrite (batchFor pending (name, .group g)) key = none := by
  have hbatch := batchesFor_engineWrites hpend name
  rw [batchFor_eq_flatten]
  cases hrows : u.buffer.get name with
  | none =>
    rw [hrows] at hbatch
    rw [hbatch]
    rfl
  | some rows =>
    rw [hrows] at hbatch
    obtain ⟨t, bs, -, hbs, hbatch⟩ := hbatch
    rw [hbatch]
    refine Table.lastWrite_group_none rows.ascending.nodup hbs g ?_
    cases hkey : rows.entries.lookup key with
    | none => rfl
    | some w => exact absurd (hsub (hok.buffered name rows key w hrows hkey)) hnot

theorem SessionOk.represents_engineWrites (hok : s.SessionOk tx u)
    (hcurrent : ∀ f ∈ u.fetched, f.row = Table.groupRow (s.engines f.table) f.key f.group)
    (hcomplete : u.Complete s.tables) (hpend : s.engineWrites tok u = some pending)
    {name : String} {t : Table} (ht : s.tables.get name = some t) {rows : DbKey → Option Row}
    (hrep : Represents tok t (s.engines name) rows) :
    Represents tok t (fun n => (s.engines name n).applyAll (batchFor pending (name, n)))
      (overwrite rows (((u.buffer.get name).map (·.entries)).getD [])) := by
  have hbatch := batchesFor_engineWrites hpend name
  simp only [batchFor_eq_flatten]
  cases hrows : u.buffer.get name with
  | none =>
    rw [hrows] at hbatch
    simp only [hbatch]
    exact hrep
  | some ws =>
    rw [hrows] at hbatch
    obtain ⟨t', bs, ht', hbs, hbatch⟩ := hbatch
    cases ht.symm.trans ht'
    simp only [hbatch]
    refine hrep.write ws.ascending.nodup (fun pk row hrow => ?_) hbs fun w hw idx key => ?_
    · exact hok.width name ws pk row t hrows (SortedMap.mem_entries.1 hrow) ht
    · rw [oldRow_eq hcurrent hcomplete hrows ht hw, hrep.entry_get]
      exact id

/-- A commit that passed both validations has fetched what the engines hold. -/
theorem SessionOk.current (hok : s.SessionOk tx u) (hnone : s.applying = none) {max : Nat}
    {min : Option Nat} (hp : tx.phase = .limited writes max min)
    (hclear : s.occ.Clear max (tx.footprint writes)) :
    ∀ f ∈ u.fetched, f.row = Table.groupRow (s.engines f.table) f.key f.group := by
  have hsnap : tx.phase.snapshot = some (writes, max) := by rw [hp]; rfl
  have hupto : tx.validatedUpTo = max := by
    unfold Tx.validatedUpTo
    rw [hsnap]
    rfl
  intro f hf
  obtain ⟨hmem, hfresh⟩ := hok.fetched f hf
  rw [← settled_of_none hnone]
  exact hfresh.resolve_left (not_covered hnone hclear hupto (hok.writes (writes, max) hsnap hmem))

theorem Inv.startWrites (h : Inv tok s) (hnone : s.applying = none)
    (htx : s.occ.txs.get id = some tx) (hok : s.SessionOk tx u) {max : Nat} {min : Option Nat}
    (hp : tx.phase = .limited writes max min) (hclear : s.occ.Clear max (tx.footprint writes))
    (hpend : s.engineWrites tok u = some pending) :
    Inv tok { s with applying := some ⟨id, writes, pending⟩ } := by
  have hsnap : tx.phase.snapshot = some (writes, max) := by rw [hp]; rfl
  have hsub : tx.buffer ⊆ writes := hok.writes (writes, max) hsnap
  have hengines := settled_of_none hnone
  have hcurrent := hok.current hnone hp hclear
  have hpending := hok.lastWrite_engineWrites hsub hpend
  refine ⟨h.bounded, fun name t ht => ?_, fun i v hv => ?_, fun a ha => ?_⟩
  · obtain ⟨rows, hrep⟩ := h.rows name t ht
    rw [hengines] at hrep
    exact ⟨_, hok.represents_engineWrites hcurrent (hok.complete (by rw [hsnap]; rfl)) hpend ht hrep⟩
  · obtain ⟨tx', htx', hok'⟩ := h.session i v hv
    refine ⟨tx', htx', hok'.mono rfl fun f hf hfresh => ?_⟩
    by_cases hmem : (f.table, f.key) ∈ writes
    · exact .inl (.inr ⟨_, rfl, hmem⟩)
    · rcases hfresh with (hrec | ⟨a, ha, -⟩) | hrow
      · exact .inl (.inl hrec)
      · rw [hnone] at ha
        cases ha
      · refine .inr (hrow.trans ?_)
        rw [hengines]
        exact (Table.groupRow_applyAll rfl (hpending f.table f.group f.key hmem)).symm
  · cases ha
    exact ⟨⟨tx, max, min, htx, hp, hclear⟩, hpending⟩

theorem Inv.startApply (h : Inv tok s) (htx : s.occ.txs.get id = some tx) (hok : s.SessionOk tx u)
    (hs : s.startApply tok id u tx = some s') : Inv tok s' := by
  obtain ⟨hnone, hs⟩ := ite_none_right_eq_some.1 hs
  have hnone : s.applying = none := isNone_iff_eq_none.1 hnone
  split at hs
  · next writes max min hp =>
    split at hs
    · next hclear =>
      obtain ⟨pending, hpend, rfl⟩ := map_eq_some_iff.1 hs
      exact h.startWrites hnone htx hok hp hclear hpend
    · next hclear =>
      obtain ⟨s₁, hs₁, rfl⟩ := map_eq_some_iff.1 hs
      obtain ⟨occ, hacts, hb, rfl⟩ := h.control htx hs₁
      cases hacts with
      | abort _ _ _ hp' _ =>
        exact h.update hb rfl rfl (hok.reset rfl rfl) (by rw [hnone]; nofun)
      | apply _ _ _ hp' hclear' =>
        cases hp.symm.trans hp'
        exact absurd hclear' hclear
  · cases hs

theorem settled_writeEngine {n : EngineName} (hs : s.writeEngine table n = some s') :
    s'.settled = s.settled := by
  obtain ⟨a, ha, hs⟩ := bind_eq_some_iff.1 hs
  obtain ⟨x, hx, rfl⟩ := map_eq_some_iff.1 hs
  funext name m
  unfold settled
  rw [ha]
  simp only [map_some, getD_some]
  rw [batchFor_eraseP hx (name, m)]
  by_cases heq : (name, m) = (table, n)
  · rw [if_pos heq, if_pos heq]
    exact foldl_append.symm
  · rw [if_neg heq, if_neg heq, nil_append]

theorem Inv.writeEngine (h : Inv tok s) {n : EngineName} (hs : s.writeEngine table n = some s') :
    Inv tok s' := by
  have hset := settled_writeEngine hs
  obtain ⟨a, ha, hs⟩ := bind_eq_some_iff.1 hs
  obtain ⟨x, hx, rfl⟩ := map_eq_some_iff.1 hs
  obtain ⟨hlimited, hpending⟩ := h.applying a ha
  refine ⟨h.bounded, fun name t ht => hset ▸ h.rows name t ht, fun i v hv => ?_, fun b hb => ?_⟩
  · obtain ⟨tx, htx, hok⟩ := h.session i v hv
    refine ⟨tx, htx, hok.mono rfl fun f hf hfresh => ?_⟩
    rcases hfresh with (hrec | ⟨a', ha', hmem⟩) | hrow
    · exact .inl (.inl hrec)
    · cases ha.symm.trans ha'
      exact .inl (.inr ⟨_, rfl, hmem⟩)
    · exact .inr (hset ▸ hrow)
  · cases hb
    refine ⟨hlimited, fun name g key hnot => ?_⟩
    have hlast := hpending name g key hnot
    rw [batchFor_eraseP hx, lastWrite_append] at hlast
    exact (or_eq_none_iff.1 hlast).1

/-! ## Records that go -/

theorem PruneSafe.retained {limit : Nat} (hsafe : s.PruneSafe limit) (hu : s.sessions.get id = some u)
    (htx : s.occ.txs.get id = some tx) {f : Fetched} (hf : f ∈ u.fetched)
    {r : CommitRecord String DbKey} (hr : r ∈ s.occ.history) (hlt : tx.validatedUpTo < r.version)
    (hkeys : (f.table, f.key) ∈ r.keys) : limit ≤ r.version := by
  by_contra hdrop
  exact hsafe r hr (not_le.1 hdrop) (id, u) (SortedMap.mem_entries.2 hu) tx htx hlt f hf hkeys

theorem Inv.finish (h : Inv tok s) (hsafe : ∀ a ∈ s.applying, s.TxSafe a.id)
    (hs : s.finish = some s') : Inv tok s' := by
  obtain ⟨a, ha, hs⟩ := bind_eq_some_iff.1 hs
  obtain ⟨⟨tx, max, min, htx, hp, hclear⟩, -⟩ := h.applying a ha
  obtain ⟨hempty, hs⟩ := ite_none_right_eq_some.1 hs
  obtain ⟨s₁, hs₁, rfl⟩ := map_eq_some_iff.1 hs
  obtain ⟨occ, hacts, hb, rfl⟩ := h.control htx hs₁
  have hprune : s.PruneSafe (min.getD (s.occ.version + 1)) :=
    hsafe a ha tx htx _ (by rw [hp]; rfl)
  have hset := settled_of_empty ha (isEmpty_iff.1 hempty)
  cases hacts with
  | abort _ _ _ hp' hclear' =>
    cases hp.symm.trans hp'
    exact absurd hclear hclear'
  | apply _ _ _ hp' _ =>
    cases hp.symm.trans hp'
    have hlimit : min.getD (s.occ.version + 1) ≤ s.occ.version + 1 := by
      cases min with
      | none => exact le_rfl
      | some m => exact ((h.bounded.tx _ tx htx).limit m (by rw [hp]; rfl)).trans (Nat.le_succ _)
    refine ⟨hb, fun name t ht => hset ▸ h.rows name t ht, fun i v hv => ?_, nofun⟩
    show ∃ tx', (s.occ.txs.insert a.id _).get i = some tx' ∧ _
    change (s.sessions.insert a.id .new).get i = some v at hv
    rw [SortedMap.get_insert] at hv
    split at hv
    · next heq =>
      cases hv
      exact ⟨_, by rw [heq, SortedMap.get_insert_self], .new rfl⟩
    · next hne =>
      obtain ⟨tx', htx', hok⟩ := h.session i v hv
      refine ⟨tx', by rw [SortedMap.get_insert_of_ne _ _ hne]; exact htx',
        hok.mono rfl fun f hf hfresh => ?_⟩
      rcases hfresh with (⟨r, hr, hlt, hkeys⟩ | ⟨a', ha', hmem⟩) | hrow
      · have hkept := hprune.retained hv htx' hf hr hlt hkeys
        exact .inl (.inl ⟨r, mem_filter.2
          ⟨mem_append_left _ hr, decide_eq_true hkept⟩, hlt, hkeys⟩)
      · -- the commit's own record covers what it wrote
        cases ha.symm.trans ha'
        exact .inl (.inl ⟨⟨s.occ.version + 1, a.writes⟩, mem_filter.2
          ⟨mem_append_right _ (mem_singleton.2 rfl), decide_eq_true hlimit⟩,
          Nat.lt_succ_of_le (h.bounded.tx i tx' htx').validatedUpTo_le, hmem⟩)
      · exact .inr (hset ▸ hrow)

theorem Inv.prune (h : Inv tok s) (hnone : s.applying = none)
    (htx : s.occ.txs.get id = some tx) (hsafe : s.TxSafe id) (hs : s.control id .prune = some s') :
    Inv tok s' := by
  obtain ⟨occ, hacts, hb, rfl⟩ := h.control htx hs
  cases hacts with
  | prune alone limit hp =>
    have hprune : s.PruneSafe limit := hsafe tx htx limit (by rw [hp]; rfl)
    refine ⟨hb, h.rows, fun i v hv => ?_, fun a ha => ?_⟩
    · obtain ⟨tx', htx', hok⟩ := h.session i v hv
      have hok' : SessionOk { s with occ := s.occ.prune id tx limit } tx' v :=
        hok.mono rfl fun f hf hfresh => hfresh.imp_left fun hc => hc.imp_left
          fun ⟨r, hr, hlt, hkeys⟩ => ⟨r, mem_filter.2
            ⟨hr, decide_eq_true (hprune.retained hv htx' hf hr hlt hkeys)⟩, hlt, hkeys⟩
      show ∃ tx', (s.occ.txs.insert id _).get i = some tx' ∧ _
      rw [SortedMap.get_insert]
      split
      · next heq =>
        subst heq
        cases htx.symm.trans htx'
        exact ⟨_, rfl, hok'.congr rfl rfl (by rw [hp]; rfl)⟩
      · exact ⟨tx', htx', hok'⟩
    · rw [hnone] at ha
      cases ha

/-! ## Every step and every run -/

theorem Inv.act (h : Inv tok s) (hu : s.sessions.get id = some u) (htx : s.occ.txs.get id = some tx)
    {a : DbAction} (hsafe : s.StepSafe (.act id a)) (hs : s.act tok id u tx a = some s') :
    Inv tok s' := by
  obtain ⟨tx', htx', hok⟩ := h.session id u hu
  cases htx.symm.trans htx'
  cases a with
  | read a =>
    obtain ⟨ha, hs⟩ := ite_none_right_eq_some.1 hs
    exact h.read hu htx hok ha hs
  | put table key row | delete table key => exact h.bufferWrite htx hok hs
  | rollback =>
    obtain ⟨-, hs⟩ := ite_none_right_eq_some.1 hs
    obtain ⟨s₁, hs₁, rfl⟩ := map_eq_some_iff.1 hs
    obtain ⟨occ, hacts, hb, rfl⟩ := h.control htx hs₁
    cases hacts with
    | access _ hp =>
      have hsnap : (tx.access .rollback).phase.snapshot = none := by
        show tx.phase.snapshot = none
        rw [hp]
        rfl
      exact h.update hb rfl rfl (.new hsnap) (h.not_applying htx (by rw [hp]; nofun))
  | fetch table group key => exact h.fetch htx hok hs
  | validate => exact h.validate htx hok hs
  | readMin =>
    obtain ⟨occ, hacts, hb, rfl⟩ := h.control htx hs
    cases hacts with
    | readMin writes max hp =>
      exact h.keep hu hb rfl rfl (hok.congr rfl rfl (by rw [hp]; rfl))
        (h.not_applying htx (by rw [hp]; nofun))
  | startApply => exact h.startApply htx hok hs
  | unregister =>
    obtain ⟨-, hs⟩ := ite_none_right_eq_some.1 hs
    obtain ⟨occ, hacts, hb, rfl⟩ := h.control htx hs
    cases hacts with
    | unregister hp =>
      exact h.keep hu hb rfl rfl (hok.congr rfl rfl (by rw [hp]; rfl))
        (h.not_applying htx (by rw [hp]; nofun))
  | loadLimit =>
    obtain ⟨occ, hacts, hb, rfl⟩ := h.control htx hs
    cases hacts with
    | loadLimit min hp =>
      exact h.keep hu hb rfl rfl (hok.congr rfl rfl (by rw [hp]; rfl))
        (h.not_applying htx (by rw [hp]; nofun))
  | prune =>
    obtain ⟨hnone, hs⟩ := ite_none_right_eq_some.1 hs
    exact h.prune (isNone_iff_eq_none.1 hnone) htx hsafe hs

theorem Inv.step (h : Inv tok s) {l : DbStep} (hsafe : s.StepSafe l)
    (hs : s.step tok l = some s') : Inv tok s' := by
  cases l with
  | begin id level =>
    obtain ⟨-, hs⟩ := ite_none_left_eq_some.1 hs
    obtain ⟨occ, hocc, rfl⟩ := map_eq_some_iff.1 hs
    obtain ⟨hnew, hocc⟩ := ite_none_left_eq_some.1 hocc
    cases hocc
    refine h.update (h.bounded.beginTx id level) rfl rfl (.new rfl) ?_
    rintro a ha rfl
    obtain ⟨tx, -, -, htx, -⟩ := (h.applying a ha).limited
    rw [htx] at hnew
    exact hnew rfl
  | act id a =>
    obtain ⟨u, hu, tx, htx, hs⟩ := bind_bind_eq_some.1 hs
    exact h.act hu htx hsafe hs
  | writeEngine table n => exact h.writeEngine hs
  | finish => exact h.finish hsafe hs

end Db

/-- **Indexes stay exact.** In every run of transactions of any isolation levels whose prunes are all
safe, whenever no commit is writing, each index engine holds exactly the index keys of the rows in
the table. -/
theorem index_exact {tok : Tokenizers} {tables : SortedMap String Table} {engines : String → Engines}
    (hstart : ∀ name t, tables.get name = some t → ∃ rows, Represents tok t (engines name) rows)
    {ls : List DbStep} {s : Db} (hrun : Run (Db.step tok) Db.StepSafe (.start tables engines) ls s)
    (hidle : s.applying = none) {name : String} {t : Table} (ht : s.tables.get name = some t)
    {idx : IndexDefinition} (hidx : idx ∈ t.schema.indexes) (key : DbKey) :
    ((s.engines name (.index idx.name)).get key).isSome = true ↔
      ∃ pk row ks, t.get (s.engines name) pk = some row ∧
        t.schema.getIndexKeys tok idx row pk = some ks ∧ key ∈ ks := by
  have h : Db.Inv tok s := hrun.invariant (I := fun _ s => Db.Inv tok s) (Db.Inv.start hstart)
    fun _ _ _ _ h hsafe hs => h.step hsafe hs
  obtain ⟨rows, hrep⟩ := h.rows name t ht
  rw [Db.settled_of_none hidle] at hrep
  exact hrep.exact_keys_of hidx (hrep.entry_get idx) key

/-! ## Concrete runs -/

instance decidableStepSafe (s : Db) (l : DbStep) : Decidable (s.StepSafe l) := by
  unfold Db.StepSafe
  split <;> infer_instance

def notes : Table where
  schema := ⟨[⟨1, "k", .string, true, false, none, none, false⟩, ⟨2, "v", .string, false, true, none, none, false⟩],
    3, [⟨"i", ["v"], .btree, none⟩]⟩
  groups := [""]
  covers := by decide
  nodupGroups := by decide
  nodupIndexes := by decide
  indexable := by decide

def notesDb : Db := .start (SortedMap.empty.insert "t" notes) fun _ _ => .empty

def writeAndFetch (id : Nat) (k v : String) : List DbStep :=
  [.begin id .readCommitted, .act id (.put "t" (.string k) [.string k, .string v]),
    .act id (.fetch "t" "" (.string k))]

def commitFetched (id : Nat) : List DbStep :=
  [.act id .validate, .act id .readMin, .act id .startApply, .writeEngine "t" (.group ""),
    .writeEngine "t" (.index "i"), .finish]

def refusedTrace : List DbStep :=
  writeAndFetch 0 "x" "a" ++ commitFetched 0 ++ writeAndFetch 1 "x" "b" ++ writeAndFetch 2 "x" "c" ++
    commitFetched 2 ++ [.act 1 .validate]

theorem refusedTrace_exact : ∃ s, Run (Db.step fun _ => none) Db.StepSafe notesDb refusedTrace s ∧
    notes.get (s.engines "t") (.string "x") = some [.string "x", .string "c"] ∧
    ∀ key, ((s.engines "t" (.index "i")).get key).isSome = true ↔
      ∃ pk row ks, notes.get (s.engines "t") pk = some row ∧
        notes.schema.getIndexKeys (fun _ => none) ⟨"i", ["v"], .btree, none⟩ row pk = some ks ∧
        key ∈ ks := by
  refine Run.exists_of_exec (p := fun s => s.applying.isNone = true ∧
    s.tables.get "t" = some notes ∧
    notes.get (s.engines "t") (.string "x") = some [.string "x", .string "c"]) (by decide +kernel)
    fun s hs ⟨hidle, ht, hrow⟩ => ?_
  exact ⟨hrow, index_exact (fun _ t _ => ⟨_, .empty _ t⟩) hs (isNone_iff_eq_none.1 hidle) ht
    (mem_singleton.2 rfl)⟩

theorem not_mem_noteKeys {ks : List DbKey}
    (h : notes.schema.getIndexKeys (fun _ => none) ⟨"i", ["v"], .btree, none⟩
      [.string "x", .string "b"] (.string "x") = some ks) :
    .composite [.string "c", .string "x"] ∉ ks := by
  have hown : notes.schema.getIndexKeys (fun _ => none) ⟨"i", ["v"], .btree, none⟩
      [.string "x", .string "b"] (.string "x") = some [.composite [.string "b", .string "x"]] := by
    decide +kernel
  cases hown.symm.trans h
  decide +kernel

/-- Transaction 2 overwrites the row that transaction 1 fetched, and the commit of transaction 3
prunes the record of that. -/
def staleTrace : List DbStep :=
  writeAndFetch 0 "x" "a" ++ commitFetched 0 ++ writeAndFetch 1 "x" "b" ++ writeAndFetch 2 "x" "c" ++
    commitFetched 2 ++ writeAndFetch 3 "y" "d" ++ commitFetched 3 ++ commitFetched 1

/-- The index is left with a key of a row that is no longer in the table. -/
theorem staleTrace_not_exact : ∃ s, exec (Db.step fun _ => none) notesDb staleTrace = some s ∧
    s.applying = none ∧ s.tables.get "t" = some notes ∧
    ¬∀ key, ((s.engines "t" (.index "i")).get key).isSome = true ↔
      ∃ pk row ks, notes.get (s.engines "t") pk = some row ∧
        notes.schema.getIndexKeys (fun _ => none) ⟨"i", ["v"], .btree, none⟩ row pk = some ks ∧
        key ∈ ks := by
  obtain ⟨s, hs, hidle, ht, hrow, hkey⟩ : ∃ s,
      exec (Db.step fun _ => none) notesDb staleTrace = some s ∧
      s.applying.isNone = true ∧ s.tables.get "t" = some notes ∧
      notes.get (s.engines "t") (.string "x") = some [.string "x", .string "b"] ∧
      ((s.engines "t" (.index "i")).get (.composite [.string "c", .string "x"])).isSome = true := by
    decide +kernel
  refine ⟨s, hs, isNone_iff_eq_none.1 hidle, ht, fun hexact => ?_⟩
  -- only the row under "x" could have the key, and it has another one
  obtain ⟨pk, row, ks, hget, hks, hmem⟩ := (hexact _).1 hkey
  cases some.inj (Schema.owner_of_mem_getIndexKeys hks hmem)
  cases hrow.symm.trans hget
  exact not_mem_noteKeys hks hmem

end Dtdb.Relational
