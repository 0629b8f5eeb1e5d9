import Dtdb.Relational.Table

/-! # What a table's engines represent

`Represents tok t e rows`: the group engines hold the sub-rows of `rows`, and each index engine the
entries of `rows` and nothing else.  A batch keeps this as long as the old rows it is given have the
index keys of the rows it replaces. -/

namespace Dtdb.Relational

open Dtdb.Lib Dtdb.Storage List Option Function

def owner : DbKey → Option DbKey
  | .composite parts => parts.getLast?
  | .scalar _ => none

theorem tokenKey_injective (pk : DbKey) : Injective (Schema.tokenKey pk) := by
  intro a b h
  injection h with h
  injection h with h _
  injection h with h
  injection h

/-! ## Index entries -/

namespace Schema

variable {s : Schema} {tok : Tokenizers} {idx : IndexDefinition} {row : Row} {pk key : DbKey}
  {es : List (DbKey × Stored)}

theorem owner_of_mem_indexEntries (h : s.indexEntries tok idx row pk = some es)
    {x : DbKey × Stored} (hx : x ∈ es) : owner x.1 = some pk := by
  unfold indexEntries at h
  split at h
  · obtain ⟨ts, -, rfl⟩ := map_eq_some_iff.1 h
    obtain ⟨token, -, rfl⟩ := mem_map.1 hx
    rfl
  · obtain ⟨ks, hks, rfl⟩ := map_eq_some_iff.1 h
    obtain ⟨k, hk, rfl⟩ := mem_map.1 hx
    obtain ⟨values, -, hks⟩ := bind_eq_some_iff.1 hks
    cases hks
    split at hk
    · rw [mem_singleton.1 hk]
      exact getLast?_concat
    · cases hk

theorem nodup_indexEntries (h : s.indexEntries tok idx row pk = some es) :
    (es.map Prod.fst).Nodup := by
  unfold indexEntries at h
  split at h
  · obtain ⟨ts, -, rfl⟩ := map_eq_some_iff.1 h
    rw [List.map_map]
    exact (nodup_dedup ts).map (tokenKey_injective pk)
  · obtain ⟨ks, hks, rfl⟩ := map_eq_some_iff.1 h
    obtain ⟨values, -, hks⟩ := bind_eq_some_iff.1 hks
    cases hks
    split
    · exact nodup_singleton _
    · exact nodup_nil

theorem getIndexKeys_of_indexEntries (h : s.indexEntries tok idx row pk = some es) :
    ∃ ks, s.getIndexKeys tok idx row pk = some ks ∧ ∀ k, k ∈ ks ↔ k ∈ es.map Prod.fst := by
  unfold indexEntries at h
  unfold getIndexKeys
  cases hty : idx.indexType with
  | fullText =>
    rw [hty] at h
    obtain ⟨ts, hts, rfl⟩ := map_eq_some_iff.1 h
    refine ⟨_, by rw [hts]; rfl, fun k => ?_⟩
    simp only [List.map_map, List.mem_map, List.mem_dedup, List.mem_insertionSort,
      comp_apply]
  | btree =>
    rw [hty] at h
    obtain ⟨ks, hks, rfl⟩ := map_eq_some_iff.1 h
    exact ⟨ks, hks, fun k => by simp⟩

theorem indexEntries_of_getIndexKeys {ks : List DbKey} (h : s.getIndexKeys tok idx row pk = some ks) :
    ∃ es, s.indexEntries tok idx row pk = some es := by
  unfold getIndexKeys at h
  unfold indexEntries
  cases hty : idx.indexType with
  | fullText =>
    rw [hty] at h
    obtain ⟨ts, hts, -⟩ := map_eq_some_iff.1 h
    exact ⟨_, by rw [hts]; rfl⟩
  | btree =>
    rw [hty] at h
    exact ⟨ks.map fun k => (k, .null), congrArg (Option.map _) h⟩

theorem exists_getIndexKeys (tok : Tokenizers) (pk : DbKey) (h : s.Indexable idx)
    (hlen : row.length = s.columns.length) : ∃ ks, s.getIndexKeys tok idx row pk = some ks := by
  have hvalue : ∀ name ∈ idx.columns, (s.columnValue row name).isSome := fun name hname => by
    obtain ⟨i, hi⟩ := isSome_iff_exists.1 (h.1 name hname)
    obtain ⟨hlt, -, -⟩ := findIdx?_eq_some_iff_getElem.1 hi
    unfold columnValue
    rw [hi, bind_some, getElem?_eq_getElem (hlen ▸ hlt)]
    rfl
  unfold getIndexKeys
  cases hty : idx.indexType with
  | fullText =>
    obtain ⟨name, hname⟩ := exists_mem_of_ne_nil _ (h.2 hty)
    cases hcols : idx.columns with
    | nil => simp [hcols] at hname
    | cons c cs =>
      obtain ⟨v, hv⟩ := isSome_iff_exists.1 (hvalue c (by simp [hcols]))
      obtain ⟨ts, hts⟩ : ∃ ts, s.rowTokens tok idx row = some ts := by
        unfold rowTokens
        rw [hcols]
        show ∃ ts, bind (s.columnValue row c) _ = some ts
        rw [hv]
        exact ⟨_, rfl⟩
      exact ⟨_, congrArg (Option.map _) hts⟩
  | btree =>
    obtain ⟨values, hvalues⟩ := exists_mapM hvalue
    show ∃ ks, bind (idx.columns.mapM (s.columnValue row)) _ = some ks
    rw [hvalues]
    exact ⟨_, rfl⟩

/-- The value a row's entries put under a key of the index. -/
def entry (s : Schema) (tok : Tokenizers) (idx : IndexDefinition) (pk : DbKey) (row : Option Row)
    (key : DbKey) : Option Stored :=
  row.bind fun r => (s.indexEntries tok idx r pk).bind fun es => es.lookup key

theorem entry_of_owner_ne {row : Option Row} (h : owner key ≠ some pk) :
    s.entry tok idx pk row key = none := by
  cases hv : s.entry tok idx pk row key with
  | none => rfl
  | some v =>
    obtain ⟨r, -, es, hes, hv⟩ := bind_bind_eq_some.1 hv
    exact absurd (owner_of_mem_indexEntries hes (mem_of_lookup hv)) h

theorem owner_of_entry {row : Option Row} {v : Stored} (h : s.entry tok idx pk row key = some v) :
    owner key = some pk := by
  by_contra hne
  rw [entry_of_owner_ne hne] at h
  cases h

theorem entry_isSome {ks : List DbKey} (h : s.getIndexKeys tok idx row pk = some ks) :
    (s.entry tok idx pk (some row) key).isSome = true ↔ key ∈ ks := by
  obtain ⟨es, hes⟩ := indexEntries_of_getIndexKeys h
  obtain ⟨ks', hks, hmem⟩ := getIndexKeys_of_indexEntries hes
  cases h.symm.trans hks
  rw [hmem]
  show ((s.indexEntries tok idx row pk).bind fun es => es.lookup key).isSome = true ↔ _
  rw [hes]
  simp

theorem owner_of_mem_getIndexKeys {ks : List DbKey} (h : s.getIndexKeys tok idx row pk = some ks)
    (hkey : key ∈ ks) : owner key = some pk := by
  obtain ⟨v, hv⟩ := isSome_iff_exists.1 ((entry_isSome h).2 hkey)
  exact owner_of_entry hv

end Schema

/-! ## Rows read back -/

namespace Table

variable {tok : Tokenizers} {t : Table} {e : Engines} {idx : IndexDefinition} {row : Row}
  {pk key : DbKey}

theorem exists_subRow (hlen : row.length = t.schema.columns.length) (g : String) :
    ∃ sub, t.subRow row g = some sub := by
  unfold subRow
  split
  · exact ⟨row, rfl⟩
  · exact Schema.exists_splitRow hlen g

theorem group_mem {c : Column} (hc : c ∈ t.schema.columns) : c.group ∈ t.groups :=
  t.covers _ (Schema.group_mem_localityGroups hc)

theorem groupColumns_of_single (hone : t.groups.length = 1) {c : Column} (hc : c ∈ t.schema.columns) :
    t.schema.groupColumns c.group = t.schema.columns := by
  obtain ⟨g, hg⟩ := length_eq_one_iff.1 hone
  refine filter_eq_self.2 fun d hd => ?_
  have hc' := group_mem hc
  have hd' := group_mem hd
  rw [hg, mem_singleton] at hc' hd'
  simp [hc', hd']

theorem getElem?_subRow (hlen : row.length = t.schema.columns.length) {c : Column}
    (hc : c ∈ t.schema.columns) : ∃ sub, t.subRow row c.group = some sub ∧
      sub[t.schema.relativeIndex c]? = t.schema.columnValue row c.name := by
  obtain ⟨sub, hsub⟩ := exists_subRow hlen c.group
  refine ⟨sub, hsub, ?_⟩
  unfold subRow at hsub
  split at hsub
  · next hone =>
    cases hsub
    obtain ⟨i, hi⟩ := Schema.columnIndex_isSome hc
    unfold Schema.relativeIndex Schema.columnValue
    rw [groupColumns_of_single hone hc]
    unfold Schema.columnIndex at hi ⊢
    rw [hi]
    rfl
  · exact Schema.getElem?_splitRow hsub hc

theorem mergeParts_congr {p q : String → Option Row}
    (h : ∀ g ∈ t.schema.localityGroups, p g = q g) : t.mergeParts p = t.mergeParts q := by
  have hany : (t.schema.localityGroups.any fun g => (p g).isSome)
      = t.schema.localityGroups.any fun g => (q g).isSome := by
    rw [Bool.eq_iff_iff, List.any_eq_true, List.any_eq_true]
    exact exists_congr fun g => and_congr_right fun hg => by rw [h g hg]
  have hmerge : t.schema.mergeRows p = t.schema.mergeRows q :=
    map_congr_left fun c hc => by rw [h _ (Schema.group_mem_localityGroups hc)]
  unfold mergeParts
  rw [hany, hmerge]

/-- What a reader gets for a row that was written. -/
def readBack (t : Table) (row : Row) : Row := t.schema.mergeRows (t.subRow row)

theorem columnValue_readBack (hlen : row.length = t.schema.columns.length) (name : String) :
    t.schema.columnValue (t.readBack row) name = t.schema.columnValue row name := by
  unfold Schema.columnValue
  cases hi : t.schema.columnIndex name with
  | none => rfl
  | some i => exact Schema.getElem?_mergeRows (fun c hc => getElem?_subRow hlen hc) hlen hi

/-! ## What a batch does to one engine -/

variable {ws : List (DbKey × Option Row)} {old : DbKey → Option Row} {bs : List (EngineName × Batch)}

theorem nodup_engineNames (t : Table) : t.engineNames.Nodup := by
  refine nodup_append.2 ⟨?_, ?_, ?_⟩
  · exact t.nodupGroups.map fun _ _ h => EngineName.group.inj h
  · have := t.nodupIndexes.map fun _ _ h => EngineName.index.inj h
    rwa [List.map_map] at this
  · rintro _ ha _ hb rfl
    obtain ⟨g, -, rfl⟩ := mem_map.1 ha
    obtain ⟨idx, -, h⟩ := mem_map.1 hb
    cases h

end Table

section

variable {E : Type} [DecidableEq E]

theorem batchFor_cons (x : E × Batch) (bs : List (E × Batch)) (e : E) :
    batchFor (x :: bs) e = (if x.1 = e then x.2 else []) ++ batchFor bs e := by
  unfold batchFor
  by_cases h : x.1 = e <;> simp [h]

theorem batchFor_eq_flatten (bs : List (E × Batch)) (e : E) :
    batchFor bs e = (batchesFor bs e).flatten := by
  simp [batchFor, batchesFor, flatMap_def]

theorem batchesFor_cons (x : E × Batch) (bs : List (E × Batch)) (e : E) :
    batchesFor (x :: bs) e = (if x.1 = e then [x.2] else []) ++ batchesFor bs e := by
  unfold batchesFor
  by_cases h : x.1 = e <;> simp [h]

theorem batchesFor_append (as bs : List (E × Batch)) (e : E) :
    batchesFor (as ++ bs) e = batchesFor as e ++ batchesFor bs e := by
  simp [batchesFor]

end

theorem batchFor_of_mapM {names : List EngineName} (hnd : names.Nodup) {f : EngineName → Option Batch}
    {bs : List (EngineName × Batch)} (h : names.mapM (fun n => (f n).map (n, ·)) = some bs)
    (n : EngineName) : if n ∈ names then f n = some (batchFor bs n) else batchFor bs n = [] := by
  induction names generalizing bs with
  | nil =>
    cases h
    rfl
  | cons m names ih =>
    obtain ⟨hnot, hnd⟩ := nodup_cons.1 hnd
    rw [mapM_cons] at h
    obtain ⟨y, hy, ys, hys, h⟩ := bind_bind_eq_some.1 h
    obtain ⟨b, hb, rfl⟩ := map_eq_some_iff.1 hy
    cases h
    specialize ih hnd hys
    rw [batchFor_cons]
    by_cases hmn : m = n
    · subst hmn
      rw [if_neg hnot] at ih
      simp [hb, ih]
    · have hne : n ≠ m := Ne.symm hmn
      simpa [hmn, hne] using ih

namespace Table

variable {tok : Tokenizers} {t : Table} {e : Engines} {idx : IndexDefinition} {pk key : DbKey}
  {ws : List (DbKey × Option Row)} {old : DbKey → Option Row} {bs : List (EngineName × Batch)}

theorem lastWrite_groupBatch {g : String} {w : Option Row} {b : Batch}
    (h : t.groupBatch g (pk, w) = some b) (k : DbKey) :
    lastWrite b k = if k = pk then some ((w.bind (t.subRow · g)).map .row) else none := by
  cases w with
  | none =>
    cases h
    simp [lastWrite_cons]
  | some row =>
    obtain ⟨sub, hsub, rfl⟩ := map_eq_some_iff.1 h
    simp [lastWrite_cons, hsub]

theorem lastWrite_indexBatch {w : Option Row} {b : Batch}
    (h : t.indexBatch tok idx old (pk, w) = some b) (key : DbKey) :
    lastWrite b key = ((t.schema.entry tok idx pk w key).map some).or
      (if (t.schema.entry tok idx pk (old pk) key).isSome then some none else none) := by
  obtain ⟨stale, hstale, fresh, hfresh, h⟩ := bind_bind_eq_some.1 h
  cases h
  rw [lastWrite_append, lastWrite_deletes]
  congr 1
  · cases w with
    | none =>
      cases hfresh
      rfl
    | some row =>
      have hes : t.schema.indexEntries tok idx row pk = some fresh := hfresh
      rw [lastWrite_puts (Schema.nodup_indexEntries hes)]
      show _ = Option.map some (Option.bind (t.schema.indexEntries tok idx row pk) _)
      rw [hes, bind_some]
  · cases hold : old pk with
    | none =>
      rw [hold] at hstale
      cases hstale
      rfl
    | some row =>
      rw [hold] at hstale
      simp [Schema.entry_isSome hstale]

theorem find_index (hidx : idx ∈ t.schema.indexes) :
    t.schema.indexes.find? (fun i => i.name = idx.name) = some idx := by
  have hsome : (t.schema.indexes.find? fun i => i.name = idx.name).isSome :=
    find?_isSome.2 ⟨idx, hidx, by simp⟩
  obtain ⟨i, hi⟩ := isSome_iff_exists.1 hsome
  have hname : i.name = idx.name := by simpa using find?_some hi
  rw [hi, inj_on_of_nodup_map t.nodupIndexes (mem_of_find?_eq_some hi) hidx hname]

theorem batch_of_batches (h : t.batches tok ws old = some bs) {n : EngineName}
    (hn : n ∈ t.engineNames) : t.batch tok ws old n = some (batchFor bs n) := by
  have hbatch := batchFor_of_mapM t.nodup_engineNames h n
  rwa [if_pos hn] at hbatch

theorem batchesFor_batches (h : t.batches tok ws old = some bs) (n : EngineName) :
    (batchesFor bs n).Sublist [batchFor bs n] := by
  have hnames : bs.map Prod.fst = t.engineNames := by
    refine (map_of_mapM h fun m y hy => ?_).trans (map_id _)
    obtain ⟨b, -, rfl⟩ := map_eq_some_iff.1 hy
    rfl
  have hnd : (bs.map Prod.fst).Nodup := hnames ▸ t.nodup_engineNames
  clear h hnames
  induction bs with
  | nil => exact nil_sublist _
  | cons x bs ih =>
    obtain ⟨hnot, hnd⟩ := nodup_cons.1 hnd
    rw [batchesFor_cons, batchFor_cons]
    by_cases hx : x.1 = n
    · have hnil : batchesFor bs n = [] := by
        have hfilter : bs.filter (fun y => y.1 = n) = [] := filter_eq_nil_iff.2
          fun y hy heq => hnot (mem_map.2 ⟨y, hy, (of_decide_eq_true heq).trans hx.symm⟩)
        unfold batchesFor
        rw [hfilter]
        rfl
      rw [batchFor_eq_flatten, hnil, if_pos hx, if_pos hx]
      simp
    · rw [if_neg hx, if_neg hx]
      exact ih hnd

theorem batches_congr {old' : DbKey → Option Row} (h : ∀ w ∈ ws, old w.1 = old' w.1) :
    t.batches tok ws old = t.batches tok ws old' := by
  have hbatch : t.batch tok ws old = t.batch tok ws old' := by
    funext n
    cases n with
    | group g => rfl
    | index i =>
      simp only [batch]
      split
      · refine congrArg _ (mapM_congr fun w hw => ?_)
        unfold indexBatch
        rw [h w hw]
      · rfl
  unfold batches
  rw [hbatch]

theorem lastWrite_group (hnd : (ws.map Prod.fst).Nodup) (h : t.batches tok ws old = some bs)
    {g : String} (hg : g ∈ t.groups) (pk : DbKey) : lastWrite (batchFor bs (.group g)) pk
      = (ws.lookup pk).map fun w => (w.bind (t.subRow · g)).map .row := by
  have hn : EngineName.group g ∈ t.engineNames :=
    mem_append_left _ (mem_map_of_mem hg)
  obtain ⟨bss, hbss, hflat⟩ := map_eq_some_iff.1 (batch_of_batches h hn)
  rw [← hflat, eq_map_of_mapM hbss [], ← flatMap_def, lastWrite_flatMap hnd]
  · cases hw : ws.lookup pk with
    | none => rfl
    | some w =>
      obtain ⟨b, -, hb⟩ := exists_of_mapM hbss (mem_of_lookup hw)
      rw [bind_some, hb, getD_some, lastWrite_groupBatch hb, if_pos rfl]
      rfl
  · rintro ⟨k, w⟩ hw hne
    obtain ⟨b, -, hb⟩ := exists_of_mapM hbss hw
    rw [hb, getD_some, lastWrite_groupBatch hb, if_neg (Ne.symm hne)]

theorem lastWrite_group_none (hnd : (ws.map Prod.fst).Nodup) (h : t.batches tok ws old = some bs)
    (g : String) (hpk : ws.lookup pk = none) : lastWrite (batchFor bs (.group g)) pk = none := by
  by_cases hg : g ∈ t.groups
  · rw [lastWrite_group hnd h hg, hpk]
    rfl
  · have hn : EngineName.group g ∉ t.engineNames := by
      simpa [engineNames] using hg
    have hbatch := batchFor_of_mapM t.nodup_engineNames h (.group g)
    rw [if_neg hn] at hbatch
    rw [hbatch]
    rfl

theorem groupRow_applyAll {e' : Engines} {g : String} {b : Batch}
    (he : e' (.group g) = (e (.group g)).applyAll b) (hb : lastWrite b pk = none) :
    groupRow e' pk g = groupRow e pk g := by
  unfold groupRow
  rw [he, SortedMap.get_applyAll, show b.reverse.lookup pk = none from hb]
  rfl

/-- **What a batch does to a group's engine.** -/
theorem get_write_group (hnd : (ws.map Prod.fst).Nodup) (h : t.batches tok ws old = some bs)
    {g : String} (hg : g ∈ t.groups) (pk : DbKey) :
    (e.write bs (.group g)).get pk = match ws.lookup pk with
      | some w => (w.bind (t.subRow · g)).map .row
      | none => (e (.group g)).get pk := by
  show ((e (.group g)).applyAll _).get pk = _
  rw [SortedMap.get_applyAll]
  show (lastWrite _ _).getD _ = _
  rw [lastWrite_group hnd h hg]
  cases ws.lookup pk with
  | none => rfl
  | some w => rfl

theorem lastWrite_index (hnd : (ws.map Prod.fst).Nodup) (h : t.batches tok ws old = some bs)
    (hidx : idx ∈ t.schema.indexes) (pk : DbKey) (hpk : ∀ k, owner key = some k → k = pk) :
    lastWrite (batchFor bs (.index idx.name)) key = (ws.lookup pk).bind fun w =>
      ((t.schema.entry tok idx pk w key).map some).or
        (if (t.schema.entry tok idx pk (old pk) key).isSome then some none else none) := by
  have hn : EngineName.index idx.name ∈ t.engineNames :=
    mem_append_right _ (mem_map_of_mem hidx)
  have hbatch := batch_of_batches h hn
  simp only [batch, find_index hidx] at hbatch
  obtain ⟨bss, hbss, hflat⟩ := map_eq_some_iff.1 hbatch
  rw [← hflat, eq_map_of_mapM hbss [], ← flatMap_def, lastWrite_flatMap hnd]
  · cases hw : ws.lookup pk with
    | none => rfl
    | some w =>
      obtain ⟨b, -, hb⟩ := exists_of_mapM hbss (mem_of_lookup hw)
      rw [bind_some, hb, getD_some, lastWrite_indexBatch hb, bind_some]
  · rintro ⟨k, w⟩ hw hne
    obtain ⟨b, -, hb⟩ := exists_of_mapM hbss hw
    have hown : owner key ≠ some k := fun ho => hne (hpk k ho)
    rw [hb, getD_some, lastWrite_indexBatch hb, Schema.entry_of_owner_ne hown,
      Schema.entry_of_owner_ne hown]
    rfl

/-- **What a batch does to an index's engine** at a key of `pk`. -/
theorem get_write_index (hnd : (ws.map Prod.fst).Nodup) (h : t.batches tok ws old = some bs)
    (hidx : idx ∈ t.schema.indexes) (pk : DbKey) (hpk : ∀ k, owner key = some k → k = pk) :
    (e.write bs (.index idx.name)).get key = match ws.lookup pk with
      | some w => (t.schema.entry tok idx pk w key).or
          (if (t.schema.entry tok idx pk (old pk) key).isSome then none
            else (e (.index idx.name)).get key)
      | none => (e (.index idx.name)).get key := by
  show ((e (.index idx.name)).applyAll _).get key = _
  rw [SortedMap.get_applyAll]
  show (lastWrite _ _).getD _ = _
  rw [lastWrite_index hnd h hidx pk hpk]
  cases ws.lookup pk with
  | none => rfl
  | some w =>
    dsimp only [bind_some]
    cases t.schema.entry tok idx pk w key with
    | some v => rfl
    | none =>
      split <;> rfl

theorem write_of_not_mem (h : t.batches tok ws old = some bs) {n : EngineName}
    (hn : n ∉ t.engineNames) : e.write bs n = e n := by
  have hbatch := batchFor_of_mapM t.nodup_engineNames h n
  rw [if_neg hn] at hbatch
  unfold Engines.write
  rw [hbatch]
  rfl

theorem exists_batches (hwidth : ∀ pk row, (pk, some row) ∈ ws → row.length = t.schema.columns.length)
    (hold : ∀ w ∈ ws, ∀ row, old w.1 = some row → row.length = t.schema.columns.length) :
    ∃ bs, t.batches tok ws old = some bs := by
  refine exists_mapM fun n hn => ?_
  rw [isSome_map]
  cases n with
  | group g =>
    unfold batch
    rw [isSome_map]
    obtain ⟨bss, hbss⟩ := exists_mapM (f := t.groupBatch g) fun w hw => by
      obtain ⟨pk, row⟩ := w
      cases row with
      | none => rfl
      | some row =>
        obtain ⟨sub, hsub⟩ := exists_subRow (hwidth pk row hw) g
        simp [groupBatch, hsub]
    rw [hbss]
    rfl
  | index i =>
    unfold batch
    dsimp only
    split
    · next idx hfind =>
      have hidx := t.indexable idx (mem_of_find?_eq_some hfind)
      obtain ⟨bss, hbss⟩ := exists_mapM (f := t.indexBatch tok idx old) fun w hw => by
        obtain ⟨stale, hstale⟩ : ∃ stale, t.staleKeys tok idx w.1 (old w.1) = some stale := by
          cases ho : old w.1 with
          | none => exact ⟨[], rfl⟩
          | some row => exact Schema.exists_getIndexKeys tok w.1 hidx (hold w hw row ho)
        obtain ⟨fresh, hfresh⟩ : ∃ fresh, t.freshEntries tok idx w.1 w.2 = some fresh := by
          obtain ⟨pk, row⟩ := w
          cases row with
          | none => exact ⟨[], rfl⟩
          | some row =>
            obtain ⟨ks, hks⟩ := Schema.exists_getIndexKeys tok pk hidx (hwidth pk row hw)
            exact Schema.indexEntries_of_getIndexKeys hks
        simp [indexBatch, hstale, hfresh]
      rw [hbss]
      rfl
    · rfl

end Table

/-! ## Representation -/

def overwrite (rows : DbKey → Option Row) (ws : List (DbKey × Option Row)) : DbKey → Option Row :=
  fun pk => (ws.lookup pk).getD (rows pk)

theorem length_overwrite {rows : DbKey → Option Row} {ws : List (DbKey × Option Row)} {n : Nat}
    (hrows : ∀ pk row, rows pk = some row → row.length = n)
    (hws : ∀ pk row, (pk, some row) ∈ ws → row.length = n) (pk : DbKey) (row : Row)
    (hrow : overwrite rows ws pk = some row) : row.length = n := by
  unfold overwrite at hrow
  cases hw : ws.lookup pk with
  | none =>
    rw [hw] at hrow
    exact hrows pk row hrow
  | some w =>
    rw [hw] at hrow
    exact hws pk row (hrow ▸ mem_of_lookup hw)

/-- The engines hold `rows` and their index entries, and nothing else. -/
structure Represents (tok : Tokenizers) (t : Table) (e : Engines) (rows : DbKey → Option Row) :
    Prop where
  width : ∀ pk row, rows pk = some row → row.length = t.schema.columns.length
  groups : ∀ g ∈ t.groups, ∀ pk,
    (e (.group g)).get pk = ((rows pk).bind (t.subRow · g)).map .row
  indexes : ∀ idx ∈ t.schema.indexes, ∀ key, (e (.index idx.name)).get key
    = (owner key).bind fun pk => t.schema.entry tok idx pk (rows pk) key

namespace Represents

variable {tok : Tokenizers} {t : Table} {e : Engines} {rows : DbKey → Option Row}

theorem empty (tok : Tokenizers) (t : Table) : Represents tok t (fun _ => .empty) fun _ => none where
  width := nofun
  groups _ _ _ := rfl
  indexes _ _ key := by
    cases owner key with
    | none => rfl
    | some pk => rfl

theorem groupRow_eq (h : Represents tok t e rows) {g : String} (hg : g ∈ t.groups) (pk : DbKey) :
    Table.groupRow e pk g = (rows pk).bind (t.subRow · g) := by
  unfold Table.groupRow
  rw [h.groups g hg pk]
  cases (rows pk).bind (t.subRow · g) with
  | none => rfl
  | some sub => rfl

theorem get_eq (h : Represents tok t e rows) (pk : DbKey) :
    t.get e pk = (rows pk).map t.readBack := by
  have hparts : t.get e pk = t.mergeParts fun g => (rows pk).bind (t.subRow · g) :=
    Table.mergeParts_congr fun g hg => h.groupRow_eq (t.covers g hg) pk
  rw [hparts]
  cases hrow : rows pk with
  | none => exact if_neg (by simp)
  | some row =>
    obtain ⟨g, hg⟩ := t.schema.exists_mem_localityGroups
    obtain ⟨sub, hsub⟩ := Table.exists_subRow (h.width pk row hrow) g
    exact if_pos (any_eq_true.2 ⟨g, hg, by simp [hsub]⟩)

theorem entry_get (h : Represents tok t e rows) (idx : IndexDefinition) (pk key : DbKey) :
    t.schema.entry tok idx pk (t.get e pk) key = t.schema.entry tok idx pk (rows pk) key := by
  rw [h.get_eq]
  cases hrow : rows pk with
  | none => rfl
  | some row =>
    have hvalues := funext (Table.columnValue_readBack (t := t) (h.width pk row hrow))
    show Option.bind _ _ = Option.bind _ _
    rw [map_some, bind_some, bind_some]
    unfold Schema.indexEntries Schema.rowTokens Schema.btreeKeys
    rw [hvalues]

theorem exact_keys_of (h : Represents tok t e rows) {idx : IndexDefinition}
    (hidx : idx ∈ t.schema.indexes) {rows' : DbKey → Option Row}
    (hsame : ∀ pk key,
      t.schema.entry tok idx pk (rows' pk) key = t.schema.entry tok idx pk (rows pk) key)
    (key : DbKey) :
    ((e (.index idx.name)).get key).isSome = true ↔ ∃ pk row ks, rows' pk = some row ∧
      t.schema.getIndexKeys tok idx row pk = some ks ∧ key ∈ ks := by
  rw [h.indexes idx hidx key]
  constructor
  · intro hsome
    obtain ⟨v, hv⟩ := isSome_iff_exists.1 hsome
    obtain ⟨pk, -, hv⟩ := bind_eq_some_iff.1 hv
    rw [← hsame] at hv
    obtain ⟨row, hrow, es, hes, -⟩ := bind_bind_eq_some.1 hv
    obtain ⟨ks, hks, -⟩ := Schema.getIndexKeys_of_indexEntries hes
    refine ⟨pk, row, ks, hrow, hks, (Schema.entry_isSome hks).1 ?_⟩
    rw [← hrow, hv]
    rfl
  · rintro ⟨pk, row, ks, hrow, hks, hmem⟩
    have hentry := (Schema.entry_isSome hks).2 hmem
    rw [← hrow, hsame] at hentry
    rw [Schema.owner_of_mem_getIndexKeys hks hmem]
    exact hentry

/-- **A batch keeps the engines in step**, if its old rows have all index keys of the rows it
replaces. -/
theorem write (h : Represents tok t e rows) {ws : List (DbKey × Option Row)}
    (hnd : (ws.map Prod.fst).Nodup)
    (hwidth : ∀ pk row, (pk, some row) ∈ ws → row.length = t.schema.columns.length)
    {old : DbKey → Option Row} {bs : List (EngineName × Batch)}
    (hbs : t.batches tok ws old = some bs)
    (hold : ∀ w ∈ ws, ∀ idx key, (t.schema.entry tok idx w.1 (rows w.1) key).isSome = true →
      (t.schema.entry tok idx w.1 (old w.1) key).isSome = true) :
    Represents tok t (e.write bs) (overwrite rows ws) where
  width := length_overwrite h.width hwidth
  groups g hg pk := by
    rw [Table.get_write_group hnd hbs hg]
    unfold overwrite
    cases ws.lookup pk with
    | none => exact h.groups g hg pk
    | some w => rfl
  indexes idx hidx key := by
    cases howner : owner key with
    | none =>
      -- no row has entries under such a key
      have hnone : ∀ pk row, t.schema.entry tok idx pk row key = none := fun pk row =>
        Schema.entry_of_owner_ne (by rw [howner]; nofun)
      have hget := h.indexes idx hidx key
      rw [howner] at hget
      rw [Table.get_write_index hnd hbs hidx key (by rw [howner]; nofun), hget]
      cases ws.lookup key with
      | none => rfl
      | some w => simp [hnone]
    | some pk =>
      rw [Table.get_write_index hnd hbs hidx pk
        (by rw [howner]; exact fun k hk => (some.inj hk).symm)]
      unfold overwrite
      rw [bind_some, h.indexes idx hidx key, howner]
      cases hw : ws.lookup pk with
      | none => rfl
      | some w =>
        dsimp only [getD_some]
        cases t.schema.entry tok idx pk w key with
        | some v => rfl
        | none =>
          split
          · rfl
          · next hno => simpa using mt (hold _ (mem_of_lookup hw) idx key) hno

end Represents

end Dtdb.Relational
