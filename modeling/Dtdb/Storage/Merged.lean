import Dtdb.Storage.Compaction

/-! # What a compaction writes

The rows a compaction merges resolve every key as a read of its input files does, and its output
files hold exactly the kept rows, in key order.
-/

namespace Dtdb.Storage

open Dtdb.Lib List Option

variable {K V Λ : Type} [LinearOrder K]

/-! ## The key range of the sources -/

theorem foldl_widenRange (files : List (Reader K V Λ)) (lo hi : K) :
    ∃ lo' hi', files.foldl widenRange (some (lo, hi)) = some (lo', hi') ∧ lo' ≤ lo ∧ hi ≤ hi' ∧
      ∀ f ∈ files, lo' ≤ f.firstKey ∧ f.lastKey ≤ hi' := by
  induction files generalizing lo hi with
  | nil => exact ⟨lo, hi, rfl, le_rfl, le_rfl, by simp⟩
  | cons f files ih =>
    obtain ⟨lo', hi', heq, hlo, hhi, hall⟩ := ih (if f.firstKey < lo then f.firstKey else lo)
      (if hi < f.lastKey then f.lastKey else hi)
    refine ⟨lo', hi', heq, hlo.trans ?_, le_trans ?_ hhi, forall_mem_cons.2 ⟨⟨?_, ?_⟩, hall⟩⟩
    · split
      · next h => exact h.le
      · exact le_rfl
    · split
      · next h => exact h.le
      · exact le_rfl
    · refine hlo.trans ?_
      split
      · exact le_rfl
      · next h => exact not_lt.1 h
    · refine le_trans ?_ hhi
      split
      · exact le_rfl
      · next h => exact not_lt.1 h

theorem exists_keyRange {files : List (Reader K V Λ)} (h : files ≠ []) :
    ∃ lo hi, keyRange files = some (lo, hi) ∧ ∀ f ∈ files, lo ≤ f.firstKey ∧ f.lastKey ≤ hi := by
  match files, h with
  | f :: files, _ =>
    obtain ⟨lo, hi, heq, hlo, hhi, hall⟩ := foldl_widenRange files f.firstKey f.lastKey
    exact ⟨lo, hi, heq, forall_mem_cons.2 ⟨⟨hlo, hhi⟩, hall⟩⟩

/-! ## The merge order -/

theorem NewestFirst.sort_eq {l : List (Reader K V Λ)} (h : NewestFirst l) :
    l.insertionSort (fun a b => a.id ≤ b.id) = l.reverse := by
  have hperm : (l.insertionSort fun a b => a.id ≤ b.id).Perm l.reverse :=
    (perm_insertionSort _ l).trans l.reverse_perm.symm
  have hrev : l.reverse.Pairwise fun a b => a.id ≤ b.id :=
    pairwise_reverse.2 (h.imp fun hab => hab.le)
  have hinj : (l.map Reader.id).Nodup := pairwise_map.2 (h.imp fun hab => ne_of_gt hab)
  refine hperm.eq_of_pairwise (fun a b ha hb hab hba => ?_) (pairwise_insertionSort _ l) hrev
  exact inj_on_of_nodup_map hinj (hperm.mem_iff.1 ha |> mem_reverse.1)
    (mem_reverse.1 hb) (le_antisymm hab hba)

theorem zipIdx_reverse {α : Type} (l : List α) :
    l.reverse.zipIdx.reverse.map (fun x => (x.1, l.length - 1 - x.2)) = l.zipIdx := by
  refine ext_getElem (by simp) fun i h₁ h₂ => ?_
  simp only [length_zipIdx] at h₂
  simp only [getElem_map, getElem_reverse, getElem_zipIdx, length_zipIdx,
    length_reverse, zero_add, Prod.mk.injEq]
  constructor
  · congr 1
    omega
  · omega

def cursors (files : List (Reader K V Λ)) : List (Source K (Option V) (Reader K V Λ)) :=
  files.zipIdx.map fun x => ⟨x.2, x.1, x.1.entries⟩

theorem cursors_prio (files : List (Reader K V Λ)) :
    (cursors files).Pairwise fun a b => a.prio < b.prio := by
  refine pairwise_map.2 (pairwise_iff_getElem.2 fun i j hi hj hij => ?_)
  simp only [getElem_zipIdx]
  omega

theorem mergeSources_perm {l0s others : List (Reader K V Λ)} (h0 : ∀ f ∈ l0s, f.level = 0)
    (hnew : NewestFirst l0s) (ho : ∀ f ∈ others, f.level ≠ 0) :
    (mergeSources (l0s ++ others)).Perm (cursors (l0s ++ others)) := by
  have hl0 : (l0s ++ others).filter (fun f => f.level = 0) = l0s := by
    rw [filter_append, filter_eq_self.2 (by simpa using h0),
      filter_eq_nil_iff.2 (by simpa using ho), append_nil]
  have hoth : (l0s ++ others).filter (fun f => f.level ≠ 0) = others := by
    rw [filter_append, filter_eq_nil_iff.2 (by simpa using h0),
      filter_eq_self.2 (by simpa using ho), nil_append]
  have hzip := congrArg (map fun x : Reader K V Λ × Nat =>
    (⟨x.2, x.1, x.1.entries⟩ : Source K (Option V) (Reader K V Λ))) (zipIdx_reverse l0s)
  rw [List.map_map] at hzip
  unfold mergeSources cursors
  simp only [hl0, hoth, hnew.sort_eq, length_reverse]
  rw [zipIdx_append, map_append, ← hzip]
  refine perm_append_comm.trans (List.Perm.append_left _ (List.Perm.of_eq ?_))
  rw [zero_add]
  conv_rhs => rw [zipIdx_eq_map_add, List.map_map]
  rfl

/-- **Merged rows.** The first of the files in read order that holds a key. -/
theorem merge_files_lookup {files : List (Reader K V Λ)}
    (hperm : (mergeSources files).Perm (cursors files)) (k : K) :
    (merge (mergeSources files)).lookup k
      = files.findSome? fun f => (f.get k).map fun s => (s, f) := by
  rw [merge_lookup (mergeSources_sorted _) hperm (cursors_prio _)]
  unfold cursors
  rw [findSome?_map]
  have : files.findSome? (fun f => (f.get k).map fun s => (s, f))
      = (files.zipIdx.map Prod.fst).findSome? fun f => (f.get k).map fun s => (s, f) := by
    rw [zipIdx_map_fst]
  rw [this, findSome?_map]
  rfl

/-! ## Rewritten rows -/

section

variable [DecidableEq Λ] {cfg : Config K V Λ} {T : Option Λ} {A : Type}

theorem Meaning.rewriteSlot_ok (M : Meaning cfg T A) (f : Reader K V Λ) (s : Option V) :
    ∃ s', rewriteSlot cfg T f s = .ok s' ∧ M.slot T s' = M.slot f.layout s := by
  cases s with
  | none => exact ⟨none, rfl, rfl⟩
  | some v =>
    simp only [rewriteSlot]
    by_cases hl : f.layout = T
    · exact ⟨some v, by rw [if_neg (by simpa using hl)], by rw [hl]⟩
    · obtain ⟨v', hv', hden⟩ := M.rewrite_den f.layout v hl
      refine ⟨some v', by rw [if_pos hl, hv']; rfl, ?_⟩
      rw [slot_some, slot_some, hden]

theorem Meaning.rewriteAll_ok (M : Meaning cfg T A) (ms : List (K × Option V × Reader K V Λ)) :
    ∃ rows, rewriteAll cfg T ms = .ok rows ∧ ∀ k, (rows.lookup k).map (M.slot T)
      = (ms.lookup k).map fun x => M.slot x.2.layout x.1 := by
  induction ms with
  | nil => exact ⟨[], rfl, fun k => rfl⟩
  | cons x ms ih =>
    obtain ⟨j, s, f⟩ := x
    obtain ⟨rows, hrows, hk⟩ := ih
    obtain ⟨s', hs', hden⟩ := M.rewriteSlot_ok f s
    refine ⟨(j, s') :: rows, by simp only [rewriteAll, hs', hrows]; rfl, fun k => ?_⟩
    rw [lookup_cons_eq_ite, lookup_cons_eq_ite]
    by_cases hkj : k = j
    · simp [hkj, hden]
    · simpa [hkj] using hk k

end

/-! ## Output files -/

section

variable [ByteSize K] [ByteSize V] {limit firstId target : Nat} {T : Option Λ}
  {rows : List (K × Option V)} {h : Ascending rows}

theorem outputFiles_hit (k : K) :
    (outputFiles limit firstId target T rows h).findSome? (fun r => r.hit k)
      = (rows.lookup k).map fun s => (T, s) := by
  have hruns : rows.lookup k = (cutRuns limit [] 0 rows).findSome? fun r => r.lookup k := by
    rw [← lookup_flatten, flatten_cutRuns]
    rfl
  have hval : (cutRuns limit [] 0 rows).findSome? (fun r => r.lookup k)
      = (((cutRuns limit [] 0 rows).attach.zipIdx.map Prod.fst).map Subtype.val).findSome?
        fun r => r.lookup k := by
    rw [List.zipIdx_map_fst, List.attach_map_subtype_val]
  rw [hruns, hval, findSome?_map, findSome?_map, map_findSome?]
  unfold outputFiles
  rw [findSome?_map]
  rfl

theorem outputFiles_keyOrdered : KeyOrdered (outputFiles limit firstId target T rows h) := by
  have hflat : Ascending (cutRuns limit [] 0 rows).flatten := by
    rw [flatten_cutRuns]
    exact h
  have hcross := (pairwise_flatten.1 hflat).2
  refine pairwise_map.2 ?_
  have hzip : (((cutRuns limit [] 0 rows).attach.zipIdx.map Prod.fst).map Subtype.val).Pairwise
      fun a b => ∀ x ∈ a, ∀ y ∈ b, x.1 < y.1 := by
    rwa [List.zipIdx_map_fst, List.attach_map_subtype_val]
  refine (pairwise_map.1 (pairwise_map.1 hzip)).imp fun {a b} hab => ?_
  exact hab _ (getLast_mem _) _ (head_mem _)

theorem mem_outputFiles {f : Reader K V Λ} (hf : f ∈ outputFiles limit firstId target T rows h) :
    f.level = target ∧ f.layout = T ∧ ∀ x ∈ f.entries, x ∈ rows := by
  obtain ⟨x, -, rfl⟩ := mem_map.1 hf
  refine ⟨rfl, rfl, fun y hy => ?_⟩
  have : y ∈ (cutRuns limit [] 0 rows).flatten := mem_flatten.2 ⟨_, x.1.2, hy⟩
  rwa [flatten_cutRuns] at this

theorem outputFiles_ids : (outputFiles limit firstId target T rows h).map Reader.id
    = range' firstId (outputFiles limit firstId target T rows h).length := by
  unfold outputFiles
  refine ext_getElem (by simp) fun i h₁ h₂ => ?_
  simp

end

end Dtdb.Storage
