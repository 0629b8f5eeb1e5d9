import Dtdb.Sql.RowBags

/-! # Sorted rows

The sort keys that the rows of a sorting operator come out with.  Level entries may come out in any
order, so keys are told apart as values are.  A bounded heap and a full sort agree on their keys.
-/

namespace Dtdb.Sql

open Dtdb.Lib Dtdb.Storage Dtdb.Relational List

/-! ## Keys -/

/-- The part of a key that the directions look at. -/
def keyCode : List Bool → List DbValue → List ValueCode
  | [], _ => []
  | _ :: directions, key => valueCode (key.headD .null) :: keyCode directions key.tail

theorem compareKeys_eq_iff (directions : List Bool) (a b : List DbValue) :
    compareKeys directions a b = .eq ↔ keyCode directions a = keyCode directions b := by
  induction directions generalizing a b with
  | nil => simp [compareKeys, keyCode]
  | cons asc directions ih =>
    rw [compareKeys_cons, Ordering.then_eq_eq, ih, keyCode, keyCode, cons.injEq,
      ← totalCompare_eq_eq, compareHead]
    cases asc <;> simp

theorem keyCode_eq {directions : List Bool} {key : List DbValue}
    (h : key.length = directions.length) : keyCode directions key = rowCode key := by
  induction directions generalizing key with
  | nil => simp [keyCode, rowCode, length_eq_zero_iff.1 h]
  | cons asc directions ih =>
    obtain ⟨v, key, rfl⟩ := exists_cons_of_length_eq_add_one h
    simpa [keyCode, rowCode] using ih (by simpa using h)

variable {lib : Library} {s : Schema} {entries : List (List DbValue × Row)}

theorem length_evalAll {row : Row} {es : List Expr} {vals : List DbValue}
    (h : evalAll lib s row es = .ok vals) : vals.length = es.length := by
  refine length_of_walk (fun e => e.eval lib s row) (evalAll lib s row) rfl (fun e es => ?_) h
  unfold evalAll
  rw [mapM_cons]
  rfl

theorem keyedRows_spec {keys : List Expr} {rows : Flow Row Fault}
    (h : keyedRows lib s keys rows = .ok entries) :
    entries.map Prod.snd = rows.items ∧ ∀ x ∈ entries, evalAll lib s x.2 keys = .ok x.1 := by
  obtain ⟨items, fault⟩ := rows
  have hflow : Flow.expandItems _ fault items = .ofList entries := Flow.collect_eq_ok.1 h
  clear h
  induction items generalizing entries with
  | nil =>
    cases hflow
    simp
  | cons row items ih =>
    rw [Flow.expandItems] at hflow
    split at hflow
    · cases hflow
    · next bs hbs =>
      obtain ⟨key, hkey, hbs⟩ := bind_eq_ok.1 hbs
      cases hbs
      obtain ⟨rfl, hfault⟩ := Lib.Flow.mk.inj hflow
      obtain ⟨hmap, hall⟩ := ih (by rw [Flow.ofList, ← hfault])
      simpa [hmap, hkey] using hall

/-- The sort keys of rows, as far as values are told apart. -/
def sortKeys (lib : Library) (s : Schema) (keys : List (Expr × Bool)) (rows : List Row) :
    Except Fault (List (List ValueCode)) :=
  rows.mapM fun row => do .ok (rowCode (← evalAll lib s row (keys.map Prod.fst)))

theorem sortKeys_eq {keys : List (Expr × Bool)}
    (h : ∀ x ∈ entries, evalAll lib s x.2 (keys.map Prod.fst) = .ok x.1) :
    sortKeys lib s keys (entries.map Prod.snd)
      = .ok (entries.map fun x => keyCode (keys.map Prod.snd) x.1) := by
  induction entries with
  | nil => rfl
  | cons x entries ih =>
    obtain ⟨hx, hentries⟩ := forall_mem_cons.1 h
    have hcode : keyCode (keys.map Prod.snd) x.1 = rowCode x.1 :=
      keyCode_eq (by simpa using length_evalAll hx)
    have hrest := ih hentries
    unfold sortKeys at hrest ⊢
    rw [map_cons, mapM_cons, hrest, hx, map_cons, hcode]
    rfl

theorem sortKeys_arranged {keys : List (Expr × Bool)} {l : List (List DbValue × Row)}
    (h : ∀ x ∈ entries, evalAll lib s x.2 (keys.map Prod.fst) = .ok x.1) (hperm : l.Perm entries)
    (harranged : Arranged (compareEntries (keys.map Prod.snd)) l) :
    sortKeys lib s keys (l.map Prod.snd) = .ok
      ((arrange (compareEntries (keys.map Prod.snd)) entries).map
        fun x => keyCode (keys.map Prod.snd) x.1) := by
  rw [sortKeys_eq fun x hx => h x (hperm.subset hx)]
  rw [map_eq_of_arranged (fun a b => compareKeys_eq_iff (keys.map Prod.snd) a.1 b.1)
    ((hperm.trans (perm_arrange entries).symm).map _) harranged (arranged_arrange entries)]

/-! ## Bounded and full sorts -/

/-- **The heap of `PhysicalTopN` and the sort agree**: both fail alike, or the heap's rows are the
first `k` of a sort as far as their keys go, and so are slices of them. -/
theorem topN_agrees_with_sort (lib : Library) (rt : Runtime) (s : Schema) (keys : List (Expr × Bool))
    {k : Nat} (hk : 0 < k) (rows : Flow Row Fault) :
    (∃ e, topNRows lib rt s keys k rows = .failed e ∧ sortRows lib rt s keys rows = .failed e) ∨
    ∃ top sorted codes, topNRows lib rt s keys k rows = .ofList top ∧
      sortRows lib rt s keys rows = .ofList sorted ∧
      top.length = min k rows.items.length ∧ top.Subperm rows.items ∧ sorted.Perm rows.items ∧
      sortKeys lib s keys sorted = .ok codes ∧ sortKeys lib s keys top = .ok (codes.take k) ∧
      ∀ offset limit, offset + limit = k →
        let window := (codes.drop offset).take limit
        sortKeys lib s keys ((topNRows lib rt s keys k rows).slice offset (some limit)).items
          = .ok window ∧
        sortKeys lib s keys ((sortRows lib rt s keys rows).slice offset (some limit)).items
          = .ok window := by
  cases hentries : keyedRows lib s (keys.map Prod.fst) rows with
  | error e =>
    refine .inl ⟨e, ?_, ?_⟩
    · rw [topNRows, if_neg (by omega), hentries]
      rfl
    · rw [sortRows, hentries]
      rfl
  | ok entries =>
    obtain ⟨hitems, hkeys⟩ := keyedRows_spec hentries
    set ds := keys.map Prod.snd with hds
    obtain ⟨arranged, hperm, harranged, hleast⟩ := (rt.heap ds).isWindow_least k entries
    have htop : topNRows lib rt s keys k rows = .ofList ((arranged.take k).map Prod.snd) := by
      rw [window, drop_zero] at hleast
      rw [topNRows, if_neg (by omega), hentries, ← hleast]
      rfl
    set sorted := rt.sortEntries ds entries with hsorted
    have hsort : sortRows lib rt s keys rows = .ofList (sorted.map Prod.snd) := by
      rw [sortRows, hentries]
      rfl
    have hsperm : sorted.Perm entries := rt.perm_sortEntries ds entries
    -- both are fronts of arrangements of the same entries
    have hcodes : sorted.map (fun x => keyCode ds x.1) = arranged.map fun x => keyCode ds x.1 :=
      map_eq_of_arranged (fun a b => compareKeys_eq_iff ds a.1 b.1) ((hsperm.trans hperm.symm).map _)
        (rt.arranged_sortEntries ds entries) harranged
    have hof : ∀ {l}, l ⊆ entries → sortKeys lib s keys (l.map Prod.snd)
        = .ok (l.map fun x => keyCode ds x.1) := fun hl => sortKeys_eq fun x hx => hkeys x (hl hx)
    have hsub : arranged.take k ⊆ entries := fun x hx => hperm.subset (mem_of_mem_take hx)
    refine .inr ⟨_, _, _, htop, hsort, ?_, ?_, ?_, hof hsperm.subset, ?_, fun offset limit hlimit => ?_⟩
    · rw [← hitems, length_map, length_map, length_take, hperm.length_eq]
    · rw [← hitems]
      exact ((take_sublist k arranged).map _).subperm.trans (hperm.map _).subperm
    · rw [← hitems]
      exact hsperm.map _
    · rw [hof hsub, hcodes, map_take]
    · rw [htop, hsort]
      refine ⟨?_, ?_⟩
      · show sortKeys lib s keys ((((arranged.take k).map Prod.snd).drop offset).take limit) = _
        rw [← map_drop, ← map_take, hof fun x hx => hsub (mem_of_mem_drop (mem_of_mem_take hx)),
          hcodes, map_take, map_drop, map_take, drop_take, take_take, ← hlimit,
          Nat.add_sub_cancel_left, Nat.min_self]
      · show sortKeys lib s keys (((sorted.map Prod.snd).drop offset).take limit) = _
        rw [← map_drop, ← map_take,
          hof fun x hx => hsperm.subset (mem_of_mem_drop (mem_of_mem_take hx)), map_take, map_drop]

/-- Five rows, three of them wanted, in descending order of their only column. -/
theorem topN_agrees_with_sort_five :
    let rows : List Row := [3, 1, 4, 1, 5].map fun n => [.int (wrapI64 n)]
    let keys := [(Expr.column "a" (some 0), false)]
    ∃ top, topNRows .ascii .inMemory (.new []) keys 3 (.ofList rows) = .ofList top ∧
      top.length = 3 ∧ top.Subperm rows := by
  intro rows keys
  have hok : (topNRows .ascii .inMemory (.new []) keys 3 (.ofList rows)).fault = none := rfl
  rcases topN_agrees_with_sort .ascii .inMemory (.new []) keys (k := 3) (by decide) (.ofList rows) with
    ⟨e, he, -⟩ | ⟨top, -, -, htop, -, hlen, hsub, -⟩
  · rw [he] at hok
    cases hok
  · exact ⟨top, htop, hlen, hsub⟩

end Dtdb.Sql
