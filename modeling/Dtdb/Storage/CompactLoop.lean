import Dtdb.Storage.FlushSteps

/-! # The compaction loop

`compactIfNeeded` compacts level after level until none is over its limit.  The entries weighted by
their distance to the last level bound the number of turns. -/

namespace Dtdb.Storage

open Dtdb.Lib List Option

variable {K V Λ : Type} [LinearOrder K]

def u64Max : Nat := 2 ^ 64 - 1

def entryCount (files : List (Reader K V Λ)) : Nat := (files.map fun r => r.entries.length).sum

theorem entryCount_append (as bs : List (Reader K V Λ)) :
    entryCount (as ++ bs) = entryCount as + entryCount bs := by
  simp [entryCount]

theorem entryCount_perm {as bs : List (Reader K V Λ)} (h : as.Perm bs) :
    entryCount as = entryCount bs := (h.map _).sum_eq

theorem entryCount_pos {files : List (Reader K V Λ)} (h : files ≠ []) : 0 < entryCount files := by
  match files, h with
  | r :: l, _ =>
    have := length_pos_iff.2 r.nonempty
    simp only [entryCount, map_cons, sum_cons]
    omega

theorem entryCount_filter (p : Reader K V Λ → Bool) (files : List (Reader K V Λ)) :
    entryCount (files.filter p) + entryCount (files.filter fun f => !p f) = entryCount files := by
  rw [← entryCount_append]
  exact entryCount_perm (filter_append_perm p files)

theorem entryCount_taken {taken files : List (Reader K V Λ)} (h : taken.Sublist files) :
    entryCount taken + entryCount (files.filter fun f => f.id ∉ taken.map Reader.id)
      ≤ entryCount files := by
  have hsub : taken.Sublist (files.filter fun f => f.id ∈ taken.map Reader.id) := by
    have hself : taken.filter (fun f => f.id ∈ taken.map Reader.id) = taken :=
      filter_eq_self.2 fun f hf => decide_eq_true (mem_map_of_mem hf)
    have hsub := h.filter fun f => decide (f.id ∈ taken.map Reader.id)
    rw [hself] at hsub
    exact hsub
  have hle : entryCount taken ≤ entryCount (files.filter fun f => f.id ∈ taken.map Reader.id) :=
    (hsub.map _).sum_le_sum fun _ _ => Nat.zero_le _
  have hsplit := entryCount_filter (fun f => decide (f.id ∈ taken.map Reader.id)) files
  simp only [← decide_not] at hsplit
  omega

theorem remaining_mergeSources (files : List (Reader K V Λ)) :
    remaining (mergeSources files) = entryCount files := by
  have hzip : ∀ (l : List (Reader K V Λ)) (prio : Nat → Nat),
      remaining (l.zipIdx.map fun x => (⟨prio x.2, x.1, x.1.entries⟩ : Source K (Option V) _))
        = entryCount l := by
    intro l prio
    unfold remaining entryCount
    rw [List.map_map]
    have : l.map (fun r => r.entries.length) = (l.zipIdx.map Prod.fst).map fun r => r.entries.length := by
      rw [zipIdx_map_fst]
    rw [this, List.map_map]
    rfl
  unfold mergeSources
  rw [remaining_perm (List.Perm.append_left _ ((reverse_perm _).map _)), remaining,
    map_append, sum_append]
  have hothers := hzip (files.filter fun f => f.level ≠ 0)
    fun i => ((files.filter fun f => f.level = 0).insertionSort fun a b => a.id ≤ b.id).length + i
  have hl0 := hzip ((files.filter fun f => f.level = 0).insertionSort fun a b => a.id ≤ b.id)
    fun i => ((files.filter fun f => f.level = 0).insertionSort fun a b => a.id ≤ b.id).length - 1 - i
  rw [entryCount_perm (perm_insertionSort _ _)] at hl0
  have hsplit := entryCount_filter (fun f => decide (f.level = 0)) files
  simp only [← decide_not, ← ne_eq] at hsplit
  unfold remaining at hothers hl0
  omega

variable {cfg : Config K V Λ}

theorem rewriteAll_error [DecidableEq Λ] {T : Option Λ} {err : StorageError}
    {ms : List (K × Option V × Reader K V Λ)} (h : rewriteAll cfg T ms = .error err) :
    ∃ layout v, cfg.rewriter layout T v = .error err := by
  induction ms with
  | nil => cases h
  | cons x ms ih =>
    obtain ⟨k, slot, f⟩ := x
    simp only [rewriteAll] at h
    cases hs : rewriteSlot cfg T f slot with
    | ok s' =>
      rw [hs] at h
      cases hr : rewriteAll cfg T ms with
      | error err' =>
        rw [hr] at h
        cases h
        exact ih hr
      | ok rest =>
        rw [hr] at h
        cases h
    | error err' =>
      rw [hs] at h
      cases h
      unfold rewriteSlot at hs
      split at hs
      · cases hs
      · next v =>
        split at hs
        · cases hv : cfg.rewriter f.layout T v with
          | error err' =>
            rw [hv] at hs
            cases hs
            exact ⟨f.layout, v, hv⟩
          | ok w =>
            rw [hv] at hs
            cases hs
        · cases hs

namespace Engine

variable [ByteSize K] [ByteSize V]

/-! ## The loop -/

/-- `level_size_limit`, in saturating `u64` arithmetic. -/
def levelSizeLimit (cfg : Config K V Λ) (level : Nat) : Nat :=
  if level = 0 then 0
  else
    let multiplier := min (cfg.options.levelSizeMultiplier ^ (level - 1)) u64Max
    min (cfg.options.baseLevelSizeLimit * multiplier) u64Max

def findLevelToCompact (cfg : Config K V Λ) (e : Engine K V Λ) : Option Nat :=
  if (e.sstables.get 0).any fun l0 => cfg.options.l0CompactionThreshold ≤ l0.length then some 0
  else (range' 1 (cfg.options.maxLevel - 1)).find? fun n =>
    match e.sstables.get n with
    | some l => levelSizeLimit cfg n < (l.map cfg.fileSize).sum
    | none => false

/-- The entries, each weighted by its distance to the last level. -/
def potential (maxLevel : Nat) (e : Engine K V Λ) : Nat :=
  ((range (maxLevel + 1)).map fun n => entryCount (e.level n) * (maxLevel - n)).sum

/-- The loop of `compact_if_needed_locked`. -/
def compactLoop [DecidableEq Λ] (cfg : Config K V Λ) : Nat → Engine K V Λ →
    Except StorageError (Engine K V Λ)
  | 0, e => .ok e
  | fuel + 1, e =>
    match e.findLevelToCompact cfg with
    | none => .ok e
    | some level => do
      let e' ← e.compactLevel cfg level
      compactLoop cfg fuel e'

def compactIfNeeded [DecidableEq Λ] (cfg : Config K V Λ) (e : Engine K V Λ) :
    Except StorageError (Engine K V Λ) :=
  compactLoop cfg (e.potential cfg.options.maxLevel + 1) e

/-! ## Every turn lowers the potential -/

section

variable {e e' : Engine K V Λ} {maxLevel n : Nat}

theorem potential_split (hn : n + 1 ≤ maxLevel) (e : Engine K V Λ) : e.potential maxLevel
    = ((range n).map fun m => entryCount (e.level m) * (maxLevel - m)).sum +
      (entryCount (e.level n) * (maxLevel - n) +
        (entryCount (e.level (n + 1)) * (maxLevel - (n + 1)) +
          ((range' (n + 2) (maxLevel - (n + 1))).map fun m =>
            entryCount (e.level m) * (maxLevel - m)).sum)) := by
  unfold potential
  rw [range_split hn]
  simp [map_append, map_cons, sum_append, sum_cons]

theorem sourceFiles_sublist (e : Engine K V Λ) (n : Nat) : (e.sourceFiles n).Sublist (e.level n) := by
  unfold sourceFiles
  split
  · next h0 => exact h0 ▸ List.Sublist.refl _
  · split
    · exact nil_sublist _
    · next r rest hlevel =>
      split
      · next key _ =>
        rw [singleton_sublist, hlevel]
        cases hfind : (r :: rest).find? fun s => key < s.firstKey with
        | none => exact mem_cons_self
        | some f => exact mem_of_find?_eq_some hfind
      · rw [singleton_sublist, hlevel]
        exact mem_cons_self

theorem entryCount_outputFiles {limit firstId target : Nat} {T : Option Λ}
    {rows : List (K × Option V)} {h : Ascending rows} :
    entryCount (outputFiles limit firstId target T rows h) = rows.length := by
  have hruns : ((cutRuns limit [] 0 rows).map length).sum = rows.length := by
    rw [← length_flatten, flatten_cutRuns]
    rfl
  have hval : (cutRuns limit [] 0 rows).map length
      = (((cutRuns limit [] 0 rows).attach.zipIdx.map Prod.fst).map Subtype.val).map
        length := by
    rw [List.zipIdx_map_fst, List.attach_map_subtype_val]
  rw [← hruns, hval]
  unfold entryCount outputFiles
  rw [List.map_map, List.map_map, List.map_map]
  rfl

theorem weight_lt {a b s r o m k w : Nat} (ha : s + r ≤ a) (hb : o + m ≤ b) (hs : 0 < s)
    (hk : k ≤ s + o) : r * (w + 1) + (m + k) * w < a * (w + 1) + b * w := by
  have hmove : (m + k) * w ≤ (s + (o + m)) * w := Nat.mul_le_mul_right w (by omega)
  have hsrc : (s + r) * (w + 1) ≤ a * (w + 1) := Nat.mul_le_mul_right _ ha
  have htgt : (o + m) * w ≤ b * w := Nat.mul_le_mul_right w hb
  rw [Nat.add_mul s] at hmove hsrc
  rw [Nat.mul_succ s] at hsrc
  omega

/-- **Progress.** A compaction with something to compact lowers the potential. -/
theorem potential_compactLevel [DecidableEq Λ] (hn : n + 1 ≤ cfg.options.maxLevel)
    (hne : e.sourceFiles n ≠ []) (hc : e.compactLevel cfg n = .ok e') :
    e'.potential cfg.options.maxLevel < e.potential cfg.options.maxLevel := by
  obtain ⟨rows, hrows, rfl⟩ := compactLevel_eq hn hne hc
  have hother : ∀ m, m ≠ n → m ≠ n + 1 → entryCount ((e.install n (e.sourceFiles n)
      (e.overlapped n) (e.outputs n e.targetLayout cfg.options.sstableTargetSize
        ((rewriteAll_ascending hrows).filter (e.keepRow cfg (n + 1))))).level m)
          * (cfg.options.maxLevel - m)
      = entryCount (e.level m) * (cfg.options.maxLevel - m) := fun m h₁ h₂ => by
    rw [level_install_other h₁ h₂]
  rw [potential_split hn, potential_split hn,
    map_congr_left fun m hm => hother m (by have := mem_range.1 hm; omega)
      (by have := mem_range.1 hm; omega),
    map_congr_left fun m hm =>
      hother m (by have := mem_range'_1.1 hm; omega)
        (by have := mem_range'_1.1 hm; omega),
    level_install_source, level_install_target, entryCount_perm (perm_insertionSort _ _),
    entryCount_append, entryCount_outputFiles]
  have hlen := congrArg length (rewriteAll_keys hrows)
  rw [length_map, length_map] at hlen
  have hkept := (length_filter_le (e.keepRow cfg (n + 1)) rows).trans
    (hlen.le.trans (length_drain_le ..))
  rw [remaining_mergeSources, entryCount_append] at hkept
  obtain ⟨w, hw⟩ : ∃ w, cfg.options.maxLevel - n = w + 1 :=
    ⟨cfg.options.maxLevel - (n + 1), by omega⟩
  rw [hw, show cfg.options.maxLevel - (n + 1) = w by omega]
  have hover : e.overlapped n <+ e.level (n + 1) := by
    unfold overlapped overlappingFiles
    split
    · exact filter_sublist
    · exact nil_sublist _
  have hmoved := weight_lt (w := w) (entryCount_taken (sourceFiles_sublist e n))
    (entryCount_taken hover) (entryCount_pos hne) hkept
  unfold remaining
  omega

theorem sourceFiles_ne_nil (h : e.level n ≠ []) : e.sourceFiles n ≠ [] := by
  unfold sourceFiles
  split
  · next h0 => exact h0 ▸ h
  · split
    · next hnil => exact absurd hnil h
    · split <;> exact cons_ne_nil _ _

theorem findLevelToCompact_some (ho : cfg.options.Accepted)
    (h : e.findLevelToCompact cfg = some n) :
    n + 1 ≤ cfg.options.maxLevel ∧ e.sourceFiles n ≠ [] := by
  unfold findLevelToCompact at h
  split at h
  · next hany =>
    cases h
    refine ⟨ho.levels.1, sourceFiles_ne_nil fun hnil => ?_⟩
    obtain ⟨l0, hl0, hlen⟩ := (any_eq_true _ _).1 hany
    rw [level, hl0] at hnil
    rw [show l0 = [] from hnil] at hlen
    have := ho.threshold
    simp at hlen
    omega
  · have hmem := mem_range'_1.1 (mem_of_find?_eq_some h)
    refine ⟨by omega, sourceFiles_ne_nil fun hnil => ?_⟩
    have hsize := find?_some h
    unfold level at hnil
    split at hsize
    · next l hl =>
      rw [hl] at hnil
      rw [show l = [] from hnil] at hsize
      simp at hsize
    · cases hsize

/-! ## Any levels -/

/-- Level 0 is below its threshold, the levels up to the last one within their limits. -/
def WithinLimits (cfg : Config K V Λ) (e : Engine K V Λ) : Prop :=
  (e.level 0).length < cfg.options.l0CompactionThreshold ∧
    ∀ n, 1 ≤ n → n < cfg.options.maxLevel →
      ((e.level n).map cfg.fileSize).sum ≤ levelSizeLimit cfg n

theorem findLevelToCompact_eq_none (ho : cfg.options.Accepted) :
    e.findLevelToCompact cfg = none ↔ e.WithinLimits cfg := by
  have hthreshold := ho.threshold
  have hl0 : ((e.sstables.get 0).any fun l0 => cfg.options.l0CompactionThreshold ≤ l0.length) = true ↔
      cfg.options.l0CompactionThreshold ≤ (e.level 0).length := by
    unfold level
    cases e.sstables.get 0 with
    | none => simpa using hthreshold.ne'
    | some l => simp
  have hsize : ∀ n, (match e.sstables.get n with
      | some l => decide (levelSizeLimit cfg n < (l.map cfg.fileSize).sum)
      | none => false) = true ↔ levelSizeLimit cfg n < ((e.level n).map cfg.fileSize).sum := by
    intro n
    unfold level
    cases e.sstables.get n <;> simp
  unfold findLevelToCompact WithinLimits
  split
  · next h =>
    refine iff_of_false nofun fun hlim => ?_
    exact absurd (hl0.1 h) (not_le.2 hlim.1)
  · next h =>
    rw [hl0, not_le] at h
    rw [find?_eq_none]
    constructor
    · intro hall
      refine ⟨h, fun n h1 h2 => not_lt.1 fun hlt => ?_⟩
      exact hall n (mem_range'_1.2 ⟨h1, by omega⟩) ((hsize n).2 hlt)
    · intro hlim n hn hover
      have hn := mem_range'_1.1 hn
      exact absurd ((hsize n).1 hover) (not_lt.2 (hlim.2 n hn.1 (by omega)))

theorem compactLevel_error [DecidableEq Λ] {err : StorageError}
    (h : e.compactLevel cfg n = .error err) :
    ∃ layout T v, cfg.rewriter layout T v = .error err := by
  unfold compactLevel compaction at h
  dsimp only at h
  split at h
  · cases h
  · split at h
    · cases h
    · split at h
      · next err' herr =>
        cases h
        obtain ⟨layout, v, hv⟩ := rewriteAll_error herr
        exact ⟨layout, _, v, hv⟩
      · cases h

/-- Within the limits, or with the error of a value that cannot be rewritten. -/
def Ended (cfg : Config K V Λ) : Except StorageError (Engine K V Λ) → Prop
  | .ok e' => e'.WithinLimits cfg
  | .error err => ∃ layout T v, cfg.rewriter layout T v = .error err

theorem compactLoop_ended [DecidableEq Λ] (ho : cfg.options.Accepted) {fuel fuel' : Nat}
    (hfuel : e.potential cfg.options.maxLevel < fuel)
    (hfuel' : e.potential cfg.options.maxLevel < fuel') :
    compactLoop cfg fuel e = compactLoop cfg fuel' e ∧ Ended cfg (compactLoop cfg fuel e) := by
  induction fuel generalizing fuel' e with
  | zero => omega
  | succ fuel ih =>
    cases fuel' with
    | zero => omega
    | succ fuel' =>
      unfold compactLoop
      split
      · next hnone => exact ⟨rfl, (findLevelToCompact_eq_none ho).1 hnone⟩
      · next n hn =>
        obtain ⟨hle, hne⟩ := findLevelToCompact_some ho hn
        cases hc : e.compactLevel cfg n with
        | error err => exact ⟨rfl, compactLevel_error hc⟩
        | ok e₁ =>
          have hdown := potential_compactLevel hle hne hc
          exact ih (by omega) (by omega)

/-- **`compact_if_needed` ends** on any levels: with turns enough the number of turns makes no
difference, and then the levels are within their limits, unless a value could not be rewritten. -/
theorem compactIfNeeded_ends [DecidableEq Λ] (cfg : Config K V Λ) (e : Engine K V Λ)
    (hv : cfg.options.validate = .ok ()) :
    (∃ turns, ∀ fuel, turns ≤ fuel → compactLoop cfg fuel e = e.compactIfNeeded cfg) ∧
      Ended cfg (e.compactIfNeeded cfg) := by
  have ho := EngineOptions.validate_ok.1 hv
  refine ⟨⟨e.potential cfg.options.maxLevel + 1, fun fuel hfuel => ?_⟩, ?_⟩
  · exact (compactLoop_ended ho (by omega) (Nat.lt_succ_self _)).1
  · exact (compactLoop_ended ho (Nat.lt_succ_self _) (Nat.lt_succ_self _)).2

def byteConfig : Config DbKey DbValue Unit := ⟨{}, passthrough, fun r => r.entries.length, length⟩

def oneKey (id : Nat) : Reader DbKey DbValue Unit where
  id := id
  level := 0
  layout := none
  entries := [(.bool true, some (.bool true))]
  nonempty := cons_ne_nil _ _
  ascending := pairwise_singleton _ _

def dueEngine : Engine DbKey DbValue Unit :=
  { fresh with sstables := .insert .empty 0 [oneKey 4, oneKey 3, oneKey 2, oneKey 1] }

theorem compactIfNeeded_ends_dueEngine : dueEngine.findLevelToCompact byteConfig = some 0 ∧
    (∃ turns, ∀ fuel, turns ≤ fuel →
      compactLoop byteConfig fuel dueEngine = dueEngine.compactIfNeeded byteConfig) ∧
    Ended byteConfig (dueEngine.compactIfNeeded byteConfig) :=
  ⟨by decide, compactIfNeeded_ends byteConfig dueEngine (by decide)⟩

end

end Engine

end Dtdb.Storage
