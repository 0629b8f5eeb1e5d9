import Dtdb.Storage.Merged

/-! # Compaction keeps every read

`compactLevel_spec`: on a well-shaped engine a compaction of any level succeeds, keeps the shape
and changes what no key's SSTables mean.
-/

namespace Dtdb.Storage

open Dtdb.Lib List Option

variable {K V Λ : Type} [LinearOrder K]

/-! ## Files of which at most one holds a key -/

def OneHolder (k : K) (l : List (Reader K V Λ)) : Prop :=
  ∀ a ∈ l, ∀ b ∈ l, a.get k ≠ none → b.get k ≠ none → a = b

theorem KeyOrdered.oneHolder {l : List (Reader K V Λ)} (h : KeyOrdered l) (k : K) :
    OneHolder k l := fun _ ha _ hb hak hbk =>
  h.eq_of_range ha hb (Reader.mem_range_of_get hak) (Reader.mem_range_of_get hbk)

theorem OneHolder.findSome? {k : K} {l : List (Reader K V Λ)} (h : OneHolder k l)
    {f : Reader K V Λ} (hf : f ∈ l) (hk : f.get k ≠ none) :
    l.findSome? (fun r => r.hit k) = f.hit k := by
  cases hs : l.findSome? (fun r => r.hit k) with
  | none => exact (findSome?_eq_none_iff.1 hs f hf).symm
  | some x =>
    obtain ⟨g, hg, hgx⟩ := exists_of_findSome?_eq_some hs
    have hgk : g.get k ≠ none := fun hn => by rw [Reader.hit_eq_none.2 hn] at hgx; cases hgx
    rw [h f hf g hg hk hgk, hgx]

theorem OneHolder.split {k : K} {l as bs : List (Reader K V Λ)} (h : OneHolder k l)
    (has : ∀ f ∈ as, f ∈ l) (hbs : ∀ f ∈ bs, f ∈ l) (hl : ∀ f ∈ l, f ∈ as ∨ f ∈ bs) :
    l.findSome? (fun r => r.hit k)
      = (as.findSome? fun r => r.hit k).or (bs.findSome? fun r => r.hit k) := by
  have hA : OneHolder k as := fun a ha b hb => h a (has a ha) b (has b hb)
  have hB : OneHolder k bs := fun a ha b hb => h a (hbs a ha) b (hbs b hb)
  by_cases hex : ∃ f ∈ l, f.get k ≠ none
  · obtain ⟨f, hf, hk⟩ := hex
    rw [h.findSome? hf hk]
    by_cases hfa : f ∈ as
    · rw [hA.findSome? hfa hk]
      obtain ⟨s, hs⟩ := ne_none_iff_exists'.1 hk
      simp [Reader.hit, hs]
    · rw [hB.findSome? ((hl f hf).resolve_left hfa) hk]
      have hnone : as.findSome? (fun r => r.hit k) = none :=
        findSome?_eq_none_iff.2 fun g hg => Reader.hit_eq_none.2 <| by
          by_contra hgk
          exact hfa (h f hf g (has g hg) hk hgk ▸ hg)
      rw [hnone, none_or]
  · push Not at hex
    have none_of : ∀ m : List (Reader K V Λ), (∀ f ∈ m, f ∈ l) →
        m.findSome? (fun r => r.hit k) = none := fun m hm =>
      findSome?_eq_none_iff.2 fun g hg => Reader.hit_eq_none.2 (hex g (hm g hg))
    rw [none_of l fun _ h => h, none_of as has, none_of bs hbs]
    rfl

theorem hit_eq_map (l : List (Reader K V Λ)) (k : K) : l.findSome? (fun r => r.hit k)
    = (l.findSome? fun f => (f.get k).map fun s => (s, f)).map fun x => (x.2.layout, x.1) := by
  rw [map_findSome?]
  congr 1
  funext r
  simp only [Reader.hit, Option.map_map, Function.comp_def]

theorem keyOrdered_insertionSort {l : List (Reader K V Λ)}
    (h : l.Pairwise fun a b => a.lastKey < b.firstKey ∨ b.lastKey < a.firstKey) :
    KeyOrdered (l.insertionSort fun a b => a.firstKey ≤ b.firstKey) := by
  have hsort := pairwise_insertionSort (fun a b : Reader K V Λ => a.firstKey ≤ b.firstKey) l
  have hperm := perm_insertionSort (fun a b : Reader K V Λ => a.firstKey ≤ b.firstKey) l
  have hdisj := (hperm.pairwise_iff fun {a b} hab => hab.symm).2 h
  refine (hsort.and hdisj).imp fun {a b} ⟨hle, hab⟩ => hab.resolve_right fun hba => ?_
  exact absurd (b.firstKey_le_lastKey.trans_lt hba) (not_lt.2 hle)

namespace Engine

variable [ByteSize K] [ByteSize V] {e : Engine K V Λ} {maxLevel n : Nat}

/-! ## The files a compaction takes and leaves -/

@[simp] theorem sourceFiles_zero : e.sourceFiles 0 = e.level 0 := rfl

theorem sourceFiles_subset : ∀ f ∈ e.sourceFiles n, f ∈ e.level n := by
  intro f hf
  unfold sourceFiles at hf
  split at hf
  · next h => rwa [h]
  · split at hf
    · cases hf
    · next r rest hl =>
      rw [hl]
      split at hf
      · next key _ =>
        rw [mem_singleton.1 hf]
        cases hfind : (r :: rest).find? fun s => key < s.firstKey with
        | none => exact mem_cons_self
        | some g => exact mem_of_find?_eq_some hfind
      · rw [mem_singleton.1 hf]
        exact mem_cons_self

variable {src : List (Reader K V Λ)}

theorem overlappingFiles_subset :
    ∀ f ∈ e.overlappingFiles n src, f ∈ e.level n := by
  intro f hf
  unfold overlappingFiles at hf
  split at hf
  · exact mem_of_mem_filter hf
  · cases hf

/-- The files of a level that are not among `taken`. -/
def remaining (e : Engine K V Λ) (n : Nat) (taken : List (Reader K V Λ)) : List (Reader K V Λ) :=
  (e.level n).filter fun f => f.id ∉ taken.map Reader.id

theorem mem_remaining (h : LevelsOk maxLevel e) {taken : List (Reader K V Λ)}
    (ht : ∀ f ∈ taken, f ∈ e.level n) {f : Reader K V Λ} :
    f ∈ e.remaining n taken ↔ f ∈ e.level n ∧ f ∉ taken := by
  unfold remaining
  rw [mem_filter]
  refine and_congr_right fun hf => ?_
  simp only [List.mem_map, decide_eq_true_eq, not_exists, not_and]
  constructor
  · exact fun hid hmem => hid f hmem rfl
  · intro hnot g hg hid
    exact hnot (inj_on_of_nodup_map (h.nodup n) (ht g hg) hf hid ▸ hg)

theorem levelHit_split (h : LevelsOk maxLevel e) {m : Nat} (hm : 0 < m)
    {src : List (Reader K V Λ)} (hsrc : ∀ f ∈ src, f ∈ e.level m) (k : K) :
    e.levelHit k m = (src.findSome? fun r => r.hit k).or
      ((e.remaining m src).findSome? fun r => r.hit k) := by
  refine ((h.keyOrdered m hm).oneHolder k).split hsrc ?_ fun f hf => ?_
  · exact fun f hf => ((mem_remaining h hsrc).1 hf).1
  · by_cases hs : f ∈ src
    · exact .inl hs
    · exact .inr ((mem_remaining h hsrc).2 ⟨hf, hs⟩)

theorem levelHit_source (h : LevelsOk maxLevel e) (k : K) :
    e.levelHit k n = ((e.sourceFiles n).findSome? fun r => r.hit k).or
      ((e.remaining n (e.sourceFiles n)).findSome? fun r => r.hit k) := by
  rcases Nat.eq_zero_or_pos n with rfl | hn
  · have : e.remaining 0 (e.sourceFiles 0) = [] :=
      eq_nil_iff_forall_not_mem.2 fun f hf => by
        obtain ⟨h₁, h₂⟩ := (mem_remaining h sourceFiles_subset).1 hf
        exact h₂ h₁
    rw [this]
    simp [levelHit]
  · exact levelHit_split h hn sourceFiles_subset k

theorem source_none_of_remaining (h : LevelsOk maxLevel e) {k : K}
    (hr : (e.remaining n (e.sourceFiles n)).findSome? (fun r => r.hit k) ≠ none) :
    (e.sourceFiles n).findSome? (fun r => r.hit k) = none := by
  obtain ⟨x, hx⟩ := ne_none_iff_exists'.1 hr
  obtain ⟨g, hg, hgx⟩ := exists_of_findSome?_eq_some hx
  obtain ⟨hgl, hgs⟩ := (mem_remaining h sourceFiles_subset).1 hg
  have hgk : g.get k ≠ none := fun hn => by rw [Reader.hit_eq_none.2 hn] at hgx; cases hgx
  rcases Nat.eq_zero_or_pos n with rfl | hn
  · exact absurd hgl hgs
  refine findSome?_eq_none_iff.2 fun f hf => Reader.hit_eq_none.2 ?_
  by_contra hfk
  exact hgs ((h.keyOrdered n hn).oneHolder k g hgl f (sourceFiles_subset f hf) hgk hfk ▸ hf)

theorem remaining_apart (h : LevelsOk maxLevel e) (hne : src ≠ []) {r : Reader K V Λ}
    (hr : r ∈ e.remaining (n + 1) (e.overlappingFiles (n + 1) src)) :
    (∀ f ∈ src ++ e.overlappingFiles (n + 1) src, r.lastKey < f.firstKey) ∨
      ∀ f ∈ src ++ e.overlappingFiles (n + 1) src, f.lastKey < r.firstKey := by
  obtain ⟨hrl, hro⟩ := (mem_remaining h overlappingFiles_subset).1 hr
  obtain ⟨lo, hi, hrange, hsrc⟩ := exists_keyRange hne
  have hmem : ∀ f, f ∈ e.overlappingFiles (n + 1) src ↔
      f ∈ e.level (n + 1) ∧ f.firstKey ≤ hi ∧ lo ≤ f.lastKey := by
    unfold overlappingFiles
    rw [hrange]
    simp
  -- any two files of the level are disjoint, and `r` is not an overlapping one
  have hcmp : ∀ f ∈ e.overlappingFiles (n + 1) src,
      f.lastKey < r.firstKey ∨ r.lastKey < f.firstKey := fun f hf =>
    (h.keyOrdered (n + 1) (by omega)).apart ((hmem f).1 hf).1 hrl fun heq => hro (heq ▸ hf)
  have hnot : ¬ (r.firstKey ≤ hi ∧ lo ≤ r.lastKey) := fun hin => hro ((hmem r).2 ⟨hrl, hin⟩)
  by_cases hlt : r.lastKey < lo
  · refine .inl fun f hf => ?_
    rcases mem_append.1 hf with hf | hf
    · exact hlt.trans_le (hsrc f hf).1
    · refine (hcmp f hf).resolve_left fun hfr => ?_
      exact absurd (((hmem f).1 hf).2.2.trans_lt hfr)
        (not_lt.2 (r.firstKey_le_lastKey.trans hlt.le))
  · have hgt : hi < r.firstKey := by
      by_contra hle
      exact hnot ⟨not_lt.1 hle, not_lt.1 hlt⟩
    refine .inr fun f hf => ?_
    rcases mem_append.1 hf with hf | hf
    · exact (hsrc f hf).2.trans_lt hgt
    · refine (hcmp f hf).resolve_right fun hfr => ?_
      exact absurd (((hmem f).1 hf).2.1.trans_lt hgt)
        (not_lt.2 (r.firstKey_le_lastKey.trans hfr.le))

/-! ## The merged rows -/

/-- The files of the next level that a compaction takes in. -/
abbrev overlapped (e : Engine K V Λ) (n : Nat) : List (Reader K V Λ) :=
  e.overlappingFiles (n + 1) (e.sourceFiles n)

abbrev inputFiles (e : Engine K V Λ) (n : Nat) : List (Reader K V Λ) :=
  e.sourceFiles n ++ e.overlapped n

theorem mergeSources_perm_levels (h : LevelsOk maxLevel e) : (mergeSources (e.inputFiles n)).Perm
      (cursors (e.inputFiles n)) := by
  have hovl : ∀ f ∈ e.overlapped n, f.level ≠ 0 := by
    intro f hf
    rw [h.level_eq (n + 1) f (overlappingFiles_subset f hf)]
    omega
  rcases Nat.eq_zero_or_pos n with rfl | hn
  · exact mergeSources_perm (fun f hf => h.level_eq 0 f (sourceFiles_subset f hf)) h.newestFirst
      hovl
  · have hall : ∀ f ∈ e.inputFiles n, f.level ≠ 0 := by
      intro f hf
      rcases mem_append.1 hf with hf | hf
      · rw [h.level_eq n f (sourceFiles_subset f hf)]
        omega
      · exact hovl f hf
    rw [← nil_append (e.inputFiles n)]
    exact mergeSources_perm (by simp) List.Pairwise.nil hall

variable {cfg : Config K V Λ}

theorem levelHit_below_of_dropped (h : LevelsOk maxLevel e)
    (hmax : cfg.options.maxLevel = maxLevel) {target : Nat} {k : K}
    (hdrop : e.keepRow cfg target (k, none) = false) : ∀ m, target < m → e.levelHit k m = none := by
  intro m hm
  simp only [levelHit, findSome?_eq_none_iff, Reader.hit_eq_none]
  intro r hr
  by_contra hk
  have hrange := Reader.mem_range_of_get hk
  cases hg : e.sstables.get m with
  | none =>
    rw [level, hg] at hr
    cases hr
  | some l =>
    rw [level, hg] at hr
    have hentry := SortedMap.mem_entries.2 hg
    have hle := h.bound _ hentry
    have hmem : (r.firstKey, r.lastKey) ∈ e.lowerLevelRanges target := by
      refine mem_map.2 ⟨r, mem_flatMap.2 ⟨(m, l), ?_, hr⟩, rfl⟩
      exact mem_filter.2 ⟨hentry, by simpa using hm⟩
    have hany : (e.lowerLevelRanges target).any (fun r => r.1 ≤ k && k ≤ r.2) = true :=
      any_eq_true.2 ⟨_, hmem, by simp [hrange]⟩
    have hlt : target < cfg.options.maxLevel := by simp only at hle; omega
    simp [keepRow, hlt, hany] at hdrop

/-- What the output files answer for `k`, against the answer `c` of the merged files. -/
structure OutputAnswer {cfg : Config K V Λ} {T : Option Λ} {A : Type} (M : Meaning cfg T A)
    (e : Engine K V Λ) (n : Nat) (k : K) (c o : Option (Hit V Λ)) : Prop where
  means : M.hit o = M.hit c
  none_of_none : c = none → o = none
  dropped : o = none → c ≠ none → ∀ m, n + 1 < m → e.levelHit k m = none

theorem outputAnswer [DecidableEq Λ] {T : Option Λ} {A : Type} (M : Meaning cfg T A)
    (h : LevelsOk cfg.options.maxLevel e) {rows : List (K × Option V)}
    (hrows : rewriteAll cfg T (merge (mergeSources (e.inputFiles n))) = .ok rows)
    (k : K) (limit firstId : Nat)
    (hasc : Ascending (rows.filter (e.keepRow cfg (n + 1)))) :
    OutputAnswer M e n k ((e.inputFiles n).findSome? fun r => r.hit k)
      ((outputFiles limit firstId (n + 1) T (rows.filter (e.keepRow cfg (n + 1))) hasc).findSome?
        fun r => r.hit k) := by
  obtain ⟨rows', hrows', hmeans⟩ := M.rewriteAll_ok (merge (mergeSources (e.inputFiles n)))
  rw [hrows] at hrows'
  cases hrows'
  rw [outputFiles_hit, (rewriteAll_ascending hrows).lookup_filter, hit_eq_map]
  have hk := hmeans k
  rw [merge_files_lookup (mergeSources_perm_levels h)] at hk
  cases hm : (e.inputFiles n).findSome? fun f => (f.get k).map fun s => (s, f) with
  | none =>
    rw [hm, map_none, map_eq_none_iff] at hk
    rw [hk]
    exact ⟨rfl, fun _ => rfl, fun _ hc => absurd rfl hc⟩
  | some x =>
    rw [hm, map_some, map_eq_some_iff] at hk
    obtain ⟨s', hs', hden⟩ := hk
    rw [hs']
    cases hkeep : e.keepRow cfg (n + 1) (k, s') with
    | true =>
      simp only [Option.filter, hkeep]
      exact ⟨hden, nofun, nofun⟩
    | false =>
      -- only a tombstone is dropped
      have hnone : s' = none := by
        cases s' with
        | none => rfl
        | some v => simp [keepRow] at hkeep
      subst hnone
      simp only [Option.filter, hkeep, Bool.false_eq_true, if_false, map_none,
        map_some]
      exact ⟨hden, nofun, fun _ _ => levelHit_below_of_dropped h rfl hkeep⟩

/-- A kept source-level file (`rest`) excludes the sources, a kept target-level file (`rem`)
everything merged. -/
theorem OutputAnswer.combine {T : Option Λ} {A : Type} {M : Meaning cfg T A} {k : K}
    {s v o rest rem below : Option (Hit V Λ)} (ans : OutputAnswer M e n k (s.or v) o)
    (hrest : rest ≠ none → s = none) (hrem : rem ≠ none → s.or v = none)
    (hbelow : o = none → s.or v ≠ none → below = none) :
    M.hit (rest.or ((o.or rem).or below)) = M.hit ((s.or rest).or ((v.or rem).or below)) := by
  cases rest with
  | some x => rw [hrest nofun]; rfl
  | none =>
    simp only [Option.none_or, Option.or_none, ← Option.or_assoc]
    have hm := ans.means
    cases hc : s.or v with
    | none =>
      rw [ans.none_of_none hc]
    | some y =>
      rw [hc] at hm
      have hr : rem = none := by
        by_contra hne
        rw [hrem hne] at hc
        cases hc
      cases o with
      | some x => exact hm
      | none =>
        rw [hr, hbelow rfl (by rw [hc]; nofun)]
        exact hm

theorem merged_none_of_remaining (h : LevelsOk maxLevel e) (hne : src ≠ []) {k : K}
    (hr : (e.remaining (n + 1) (e.overlappingFiles (n + 1) src)).findSome? (fun r => r.hit k)
      ≠ none) : (src.findSome? fun r => r.hit k).or
        ((e.overlappingFiles (n + 1) src).findSome? fun r => r.hit k) = none := by
  obtain ⟨x, hx⟩ := ne_none_iff_exists'.1 hr
  obtain ⟨r, hr, hrx⟩ := exists_of_findSome?_eq_some hx
  have hrk : r.get k ≠ none := fun hn => by rw [Reader.hit_eq_none.2 hn] at hrx; cases hrx
  have hrr := Reader.mem_range_of_get hrk
  rw [← findSome?_append]
  refine findSome?_eq_none_iff.2 fun f hf => Reader.hit_eq_none.2 ?_
  by_contra hfk
  have hfr := Reader.mem_range_of_get hfk
  rcases remaining_apart h hne hr with hlt | hgt
  · exact absurd (hlt f hf) (not_lt.2 (hfr.1.trans hrr.2))
  · exact absurd (hgt f hf) (not_lt.2 (hrr.1.trans hfr.2))

omit [ByteSize K] [ByteSize V] in
theorem mem_rows [DecidableEq Λ] {T : Option Λ} {files : List (Reader K V Λ)}
    {rows : List (K × Option V)}
    (hrows : rewriteAll cfg T (merge (mergeSources files)) = .ok rows) {x : K × Option V}
    (hx : x ∈ rows) : ∃ f ∈ files, f.get x.1 ≠ none := by
  have hkey : x.1 ∈ (merge (mergeSources files)).map Prod.fst :=
    rewriteAll_keys hrows ▸ mem_map_of_mem hx
  obtain ⟨y, hy, hyx⟩ := mem_map.1 hkey
  obtain ⟨s, hs, hmem⟩ := mem_drain hy
  obtain ⟨f, hf, hrest⟩ := exists_of_mem_mergeSources hs
  rw [hyx, hrest] at hmem
  exact ⟨f, hf, fun hnone => lookup_eq_none.1 hnone _ hmem rfl⟩

/-! ## Installing the result -/

section

variable {src ovl outs : List (Reader K V Λ)}

theorem level_install_source :
    (e.install n src ovl outs).level n = e.remaining n src := by
  unfold level install remaining level
  rw [SortedMap.get_insert_of_ne _ _ (by omega)]
  cases hg : e.sstables.get n with
  | none => simp [hg]
  | some l => simp

theorem level_install_target : (e.install n src ovl outs).level (n + 1)
    = (e.remaining (n + 1) ovl ++ outs).insertionSort fun a b => a.firstKey ≤ b.firstKey := by
  unfold level install remaining level
  rw [SortedMap.get_insert_self]
  cases e.sstables.get n with
  | none => rfl
  | some l => rw [SortedMap.get_insert_of_ne _ _ (by omega)]; rfl

theorem level_install_other {m : Nat} (h₁ : m ≠ n) (h₂ : m ≠ n + 1) :
    (e.install n src ovl outs).level m = e.level m := by
  unfold level install
  rw [SortedMap.get_insert_of_ne _ _ h₂]
  cases e.sstables.get n with
  | none => rfl
  | some l => rw [SortedMap.get_insert_of_ne _ _ h₁]

theorem mem_level_install_target {f : Reader K V Λ} :
    f ∈ (e.install n src ovl outs).level (n + 1) ↔ f ∈ e.remaining (n + 1) ovl ∨ f ∈ outs := by
  rw [level_install_target, mem_insertionSort, mem_append]

theorem mem_level_install (h : LevelsOk maxLevel e) (hsrc : ∀ f ∈ src, f ∈ e.level n)
    (hovl : ∀ f ∈ ovl, f ∈ e.level (n + 1)) {m : Nat} {f : Reader K V Λ} :
    f ∈ (e.install n src ovl outs).level m ↔
      f ∈ e.level m ∧ f ∉ src ++ ovl ∨ m = n + 1 ∧ f ∈ outs := by
  have hdiff : ∀ {m m'}, f ∈ e.level m → f ∈ e.level m' → m = m' := fun {m m'} hm hm' =>
    (h.level_eq m f hm).symm.trans (h.level_eq m' f hm')
  rw [mem_append, not_or]
  by_cases h₂ : m = n + 1
  · subst h₂
    rw [mem_level_install_target, mem_remaining h hovl]
    refine or_congr (and_congr_right fun hf => (and_iff_right fun hs => ?_).symm)
      (and_iff_right rfl).symm
    exact absurd (hdiff hf (hsrc f hs)) (by omega)
  rw [or_iff_left (show ¬(m = n + 1 ∧ f ∈ outs) from fun hm => h₂ hm.1)]
  by_cases h₁ : m = n
  · subst h₁
    rw [level_install_source, mem_remaining h hsrc]
    exact and_congr_right fun hf => (and_iff_left fun ho => h₂ (hdiff hf (hovl f ho))).symm
  · rw [level_install_other h₁ h₂]
    exact (and_iff_left_of_imp fun hf =>
      ⟨fun hs => h₁ (hdiff hf (hsrc f hs)), fun ho => h₂ (hdiff hf (hovl f ho))⟩).symm

theorem level_install_subset {m : Nat} :
    ∀ f ∈ (e.install n src ovl outs).level m, f ∈ e.level m ∨ m = n + 1 ∧ f ∈ outs := by
  intro f hf
  by_cases h₂ : m = n + 1
  · subst h₂
    rcases mem_level_install_target.1 hf with hf | hf
    · exact .inl (mem_of_mem_filter hf)
    · exact .inr ⟨rfl, hf⟩
  by_cases h₁ : m = n
  · subst h₁
    rw [level_install_source] at hf
    exact .inl (mem_of_mem_filter hf)
  · rw [level_install_other h₁ h₂] at hf
    exact .inl hf

theorem install_bound (h : ∀ x ∈ e.sstables.entries, x.1 ≤ maxLevel) (hn : n + 1 ≤ maxLevel) :
    ∀ x ∈ (e.install n src ovl outs).sstables.entries, x.1 ≤ maxLevel := by
  intro x hx
  rcases mem_insertSorted hx with rfl | hx
  · exact hn
  cases hg : e.sstables.get n with
  | none =>
    rw [hg] at hx
    exact h x hx
  | some l =>
    rw [hg] at hx
    rcases mem_insertSorted hx with rfl | hx
    · omega
    · exact h x hx

end

/-- Files that may join the target level, next to those it keeps; ids are below `next`. -/
structure Joins (e : Engine K V Λ) (n : Nat) (ovl outs : List (Reader K V Λ)) (next : Nat) :
    Prop where
  level : ∀ o ∈ outs, o.level = n + 1
  ids : ∀ o ∈ outs, o.id < next
  nodup : (outs.map Reader.id).Nodup
  fresh : ∀ r ∈ e.level (n + 1), ∀ o ∈ outs, r.id ≠ o.id
  ordered : KeyOrdered outs
  apart : ∀ r ∈ e.remaining (n + 1) ovl, ∀ o ∈ outs,
    r.lastKey < o.firstKey ∨ o.lastKey < r.firstKey

omit [ByteSize K] [ByteSize V] in
theorem apart_of_keys {files : List (Reader K V Λ)} {r o : Reader K V Λ}
    (hkey : ∀ x ∈ o.entries, ∃ f ∈ files, f.get x.1 ≠ none)
    (h : (∀ f ∈ files, r.lastKey < f.firstKey) ∨ ∀ f ∈ files, f.lastKey < r.firstKey) :
    r.lastKey < o.firstKey ∨ o.lastKey < r.firstKey := by
  rcases h with hlt | hgt
  · obtain ⟨f, hf, hfk⟩ := hkey _ (head_mem o.nonempty)
    exact .inl ((hlt f hf).trans_le (Reader.mem_range_of_get hfk).1)
  · obtain ⟨f, hf, hfk⟩ := hkey _ (getLast_mem o.nonempty)
    exact .inr ((Reader.mem_range_of_get hfk).2.trans_lt (hgt f hf))

theorem Joins.levels {ovl outs : List (Reader K V Λ)} {next : Nat} (j : Joins e n ovl outs next)
    (h : LevelsOk maxLevel e) (hn : n + 1 ≤ maxLevel) (hnext : e.nextSstId ≤ next) :
    LevelsOk maxLevel { e.install n src ovl outs with nextSstId := next } where
  newestFirst := by
    show NewestFirst ((e.install n src ovl outs).level 0)
    rcases Nat.eq_zero_or_pos n with rfl | hpos
    · rw [level_install_source]
      exact h.newestFirst.filter _
    · rw [level_install_other (by omega) (by omega)]
      exact h.newestFirst
  keyOrdered m hm := by
    show KeyOrdered ((e.install n src ovl outs).level m)
    by_cases h₂ : m = n + 1
    · subst h₂
      rw [level_install_target]
      refine keyOrdered_insertionSort (pairwise_append.2 ⟨?_, ?_, j.apart⟩)
      · exact ((h.keyOrdered (n + 1) (by omega)).filter _).imp .inl
      · exact j.ordered.imp .inl
    by_cases h₁ : m = n
    · subst h₁
      rw [level_install_source]
      exact (h.keyOrdered m hm).filter _
    · rw [level_install_other h₁ h₂]
      exact h.keyOrdered m hm
  bound := install_bound h.bound hn
  level_eq m r hr := by
    rcases level_install_subset r hr with hold | ⟨rfl, hnew⟩
    · exact h.level_eq m r hold
    · exact j.level r hnew
  ids m r hr := by
    rcases level_install_subset r hr with hold | ⟨rfl, hnew⟩
    · exact (h.ids m r hold).trans_le hnext
    · exact j.ids r hnew
  nodup m := by
    show (((e.install n src ovl outs).level m).map Reader.id).Nodup
    by_cases h₂ : m = n + 1
    · subst h₂
      rw [level_install_target, ((perm_insertionSort _ _).map _).nodup_iff, map_append,
        nodup_append']
      refine ⟨(h.nodup (n + 1)).sublist (filter_sublist.map _), j.nodup, fun i hi ho => ?_⟩
      obtain ⟨r, hr, rfl⟩ := mem_map.1 hi
      obtain ⟨o, ho, hid⟩ := mem_map.1 ho
      exact j.fresh r (mem_of_mem_filter hr) o ho hid.symm
    by_cases h₁ : m = n
    · subst h₁
      rw [level_install_source]
      exact (h.nodup m).sublist (filter_sublist.map _)
    · rw [level_install_other h₁ h₂]
      exact h.nodup m

/-! ## Compaction of a level -/

/-- The SSTables are rearranged, their meaning is kept, all else is not touched. -/
structure Compacted {cfg : Config K V Λ} {T : Option Λ} {A : Type} (M : Meaning cfg T A)
    (n : Nat) (e e' : Engine K V Λ) : Prop where
  levels : LevelsOk cfg.options.maxLevel e'
  means : ∀ k, M.hit (e'.probe k) = M.hit (e.probe k)
  active : e'.active = e.active
  immutable : e'.immutable = e.immutable
  activeWalId : e'.activeWalId = e.activeWalId
  walSize : e'.walSize = e.walSize
  nextWalId : e'.nextWalId = e.nextWalId
  immutableCount : e'.immutableCount = e.immutableCount
  targetLayout : e'.targetLayout = e.targetLayout
  nextSstId : e.nextSstId ≤ e'.nextSstId
  level0 : ∀ f ∈ e'.level 0, f ∈ e.level 0
  level0_eq : n ≠ 0 → e'.level 0 = e.level 0

theorem Compacted.refl {T : Option Λ} {A : Type} (M : Meaning cfg T A) (n : Nat)
    (h : LevelsOk cfg.options.maxLevel e) : Compacted M n e e :=
  ⟨h, fun _ => rfl, rfl, rfl, rfl, rfl, rfl, rfl, rfl, le_rfl, fun _ h => h, fun _ => rfl⟩

theorem range_split {a b : Nat} (h : a + 1 ≤ b) :
    range (b + 1) = range a ++ a :: (a + 1) :: range' (a + 2) (b - (a + 1)) := by
  rw [range_eq_range', range_eq_range',
    show b + 1 = a + (b - (a + 1) + 1 + 1) by omega, ← range'_append_1, Nat.zero_add,
    range'_succ, range'_succ]

theorem probe_split (h : LevelsOk maxLevel e) (hn : n + 1 ≤ maxLevel) (k : K) :
    e.probe k = ((range n).findSome? (e.levelHit k)).or ((e.levelHit k n).or
      ((e.levelHit k (n + 1)).or
        ((range' (n + 2) (maxLevel - (n + 1))).findSome? (e.levelHit k)))) := by
  rw [probe_eq h, range_split hn, findSome?_append, findSome?_cons, findSome?_cons]
  cases e.levelHit k n with
  | some x => rfl
  | none => cases e.levelHit k (n + 1) <;> rfl

section

variable [DecidableEq Λ] {cfg : Config K V Λ} {T : Option Λ} {A : Type}
  {rows : List (K × Option V)} {limit : Nat}
  {hasc : Ascending (rows.filter (e.keepRow cfg (n + 1)))}

abbrev outputs (e : Engine K V Λ) (n : Nat) (T : Option Λ) (limit : Nat)
    (hasc : Ascending (rows.filter (e.keepRow cfg (n + 1)))) : List (Reader K V Λ) :=
  outputFiles limit e.nextSstId (n + 1) T (rows.filter (e.keepRow cfg (n + 1))) hasc

theorem joins_outputFiles (h : LevelsOk maxLevel e) (hne : e.sourceFiles n ≠ [])
    (hrows : rewriteAll cfg T (merge (mergeSources (e.inputFiles n))) = .ok rows) :
    Joins e n (e.overlapped n) (e.outputs n T limit hasc)
      (e.nextSstId + (e.outputs n T limit hasc).length) where
  level o ho := (mem_outputFiles ho).1
  ids o ho := by
    have hid := mem_map_of_mem (f := Reader.id) ho
    rw [outputFiles_ids, mem_range'_1] at hid
    exact hid.2
  nodup := by
    rw [outputFiles_ids]
    exact nodup_range'
  fresh r hr o ho heq := by
    have hid := mem_map_of_mem (f := Reader.id) ho
    rw [outputFiles_ids, mem_range'_1] at hid
    exact absurd (h.ids (n + 1) r hr) (heq ▸ not_lt.2 hid.1)
  ordered := outputFiles_keyOrdered
  apart r hr o ho := by
    have hkey : ∀ x ∈ o.entries, ∃ f ∈ e.inputFiles n, f.get x.1 ≠ none := fun x hx =>
      mem_rows hrows (mem_of_mem_filter ((mem_outputFiles ho).2.2 x hx))
    exact apart_of_keys hkey (remaining_apart h hne hr)

theorem install_levels (h : LevelsOk maxLevel e) (hn : n + 1 ≤ maxLevel)
    (hne : e.sourceFiles n ≠ [])
    (hrows : rewriteAll cfg T (merge (mergeSources (e.inputFiles n))) = .ok rows) :
    LevelsOk maxLevel (e.install n (e.sourceFiles n) (e.overlapped n) (e.outputs n T limit hasc)) :=
  (joins_outputFiles h hne hrows).levels h hn (Nat.le_add_right ..)

theorem install_means (M : Meaning cfg T A) (h : LevelsOk cfg.options.maxLevel e)
    (hn : n + 1 ≤ cfg.options.maxLevel) (hne : e.sourceFiles n ≠ [])
    (hrows : rewriteAll cfg T (merge (mergeSources (e.inputFiles n))) = .ok rows) (k : K) :
    M.hit ((e.install n (e.sourceFiles n) (e.overlapped n)
      (e.outputs n T limit hasc)).probe k) = M.hit (e.probe k) := by
  have hlv : LevelsOk cfg.options.maxLevel (e.install n (e.sourceFiles n)
      (e.overlapped n) (e.outputs n T limit hasc)) := install_levels h hn hne hrows
  have ans := outputAnswer M h hrows k limit e.nextSstId hasc
  rw [findSome?_append] at ans
  rw [probe_split hlv hn, probe_split h hn]
  set e' := e.install n (e.sourceFiles n) (e.overlapped n) (e.outputs n T limit hasc) with he'
  -- the levels above and below are untouched
  have hsame : ∀ m, m ≠ n → m ≠ n + 1 → e'.levelHit k m = e.levelHit k m := fun m h₁ h₂ => by
    rw [levelHit, levelHit, level_install_other h₁ h₂]
  have habove : (range n).findSome? (e'.levelHit k)
      = (range n).findSome? (e.levelHit k) :=
    findSome?_congr fun m hm => by
      have := mem_range.1 hm
      exact hsame m (by omega) (by omega)
  have hbelow : (range' (n + 2) (cfg.options.maxLevel - (n + 1))).findSome? (e'.levelHit k)
      = (range' (n + 2) (cfg.options.maxLevel - (n + 1))).findSome? (e.levelHit k) :=
    findSome?_congr fun m hm => by
      have := mem_range'_1.1 hm
      exact hsame m (by omega) (by omega)
  have hsrc : e'.levelHit k n = (e.remaining n (e.sourceFiles n)).findSome? fun r => r.hit k := by
    rw [levelHit, level_install_source]
  have htgt : e'.levelHit k (n + 1) = ((e.outputs n T limit hasc).findSome? fun r => r.hit k).or
      ((e.remaining (n + 1) (e.overlapped n)).findSome? fun r => r.hit k) := by
    refine ((hlv.keyOrdered (n + 1) (by omega)).oneHolder k).split ?_ ?_ fun f hf => ?_
    · exact fun f hf => mem_level_install_target.2 (.inr hf)
    · exact fun f hf => mem_level_install_target.2 (.inl hf)
    · exact (mem_level_install_target.1 hf).symm
  rw [habove, hbelow, hsrc, htgt, levelHit_source h,
    levelHit_split h (Nat.succ_pos n) overlappingFiles_subset]
  cases (range n).findSome? (e.levelHit k) with
  | some x => rfl
  | none =>
    refine ans.combine (source_none_of_remaining h) (merged_none_of_remaining h hne) ?_
    intro ho hc
    refine findSome?_eq_none_iff.2 fun m hm => ans.dropped ho hc m ?_
    have := mem_range'_1.1 hm
    omega

theorem compaction_eq {o : Option (Compaction K V Λ)} (hn : n + 1 ≤ cfg.options.maxLevel)
    (hne : e.sourceFiles n ≠ []) (hc : e.compaction cfg n = .ok o) :
    ∃ rows, ∃ h : rewriteAll cfg e.targetLayout (merge (mergeSources (e.inputFiles n))) = .ok rows,
      o = some ⟨e.sourceFiles n, e.overlapped n,
        outputFiles cfg.options.sstableTargetSize e.nextSstId (n + 1) e.targetLayout
          (rows.filter (e.keepRow cfg (n + 1))) ((rewriteAll_ascending h).filter _)⟩ := by
  unfold compaction at hc
  simp only [if_neg (not_lt.mpr hn), List.isEmpty_iff, if_neg hne] at hc
  split at hc
  · cases hc
  · next rows hrows =>
    cases hc
    exact ⟨rows, hrows, rfl⟩

theorem compaction_ok (M : Meaning cfg T A) (hT : e.targetLayout = T) (n : Nat) :
    ∃ o, e.compaction cfg n = .ok o := by
  subst hT
  unfold compaction
  dsimp only
  split
  · exact ⟨_, rfl⟩
  split
  · exact ⟨_, rfl⟩
  obtain ⟨rows, hrows, -⟩ := M.rewriteAll_ok (merge (mergeSources (e.inputFiles n)))
  split
  · next err herr => rw [hrows] at herr; cases herr
  · exact ⟨_, rfl⟩

theorem compaction_none (h : cfg.options.maxLevel < n + 1 ∨ e.sourceFiles n = []) :
    e.compaction cfg n = .ok none := by
  unfold compaction
  dsimp only
  split
  · rfl
  · next hn => rw [if_pos (isEmpty_iff.2 (h.resolve_left hn))]

theorem compactLevel_eq {e' : Engine K V Λ} (hn : n + 1 ≤ cfg.options.maxLevel)
    (hne : e.sourceFiles n ≠ []) (hc : e.compactLevel cfg n = .ok e') :
    ∃ rows, ∃ h : rewriteAll cfg e.targetLayout (merge (mergeSources (e.inputFiles n))) = .ok rows,
      e' = e.install n (e.sourceFiles n) (e.overlapped n)
        (outputFiles cfg.options.sstableTargetSize e.nextSstId (n + 1) e.targetLayout
          (rows.filter (e.keepRow cfg (n + 1))) ((rewriteAll_ascending h).filter _)) := by
  unfold compactLevel at hc
  cases ho : e.compaction cfg n with
  | error err => rw [ho] at hc; cases hc
  | ok o =>
    obtain ⟨rows, hrows, rfl⟩ := compaction_eq hn hne ho
    rw [ho] at hc
    cases hc
    exact ⟨rows, hrows, rfl⟩

/-- **Compaction** succeeds on a well-shaped engine and keeps every key's meaning. -/
theorem compactLevel_spec (M : Meaning cfg T A) (h : LevelsOk cfg.options.maxLevel e)
    (hT : e.targetLayout = T) (n : Nat) :
    ∃ e', e.compactLevel cfg n = .ok e' ∧ Compacted M n e e' := by
  by_cases hnone : cfg.options.maxLevel < n + 1 ∨ e.sourceFiles n = []
  · exact ⟨e, by rw [compactLevel, compaction_none hnone]; rfl, .refl M n h⟩
  obtain ⟨hle, hne⟩ := not_or.1 hnone
  rw [not_lt] at hle
  obtain ⟨e', hc⟩ : ∃ e', e.compactLevel cfg n = .ok e' := by
    obtain ⟨o, ho⟩ := compaction_ok M hT n
    exact ⟨_, by rw [compactLevel, ho]; rfl⟩
  subst hT
  obtain ⟨rows, hrows, rfl⟩ := compactLevel_eq hle hne hc
  refine ⟨_, hc, install_levels h hle hne hrows, install_means M h hle hne hrows, rfl, rfl,
    rfl, rfl, rfl, rfl, rfl, Nat.le_add_right .., fun f hf => ?_, fun hn0 => ?_⟩
  · exact (level_install_subset f hf).resolve_right fun hbad => by omega
  · exact level_install_other (Ne.symm hn0) (by omega)

end

end Engine

end Dtdb.Storage
