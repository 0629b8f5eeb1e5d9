import Dtdb.Storage.ReadPaths

/-! # Scans next to a writer

A scan reads the memtables and the SSTable list under different locks.  As long as only memtables
that the first read saw are flushed in between, it returns the rows of that state. -/

namespace Dtdb.Storage

open Dtdb.Lib List Option

variable {K V Λ : Type}

/-- A step of the engine's writer and workers, or one of the scan's two reads. -/
inductive ScanStep (K V : Type) where
  | engine (step : Step K V)
  | readMemtables
  | readSstables

variable [LinearOrder K] [ByteSize K] [ByteSize V]

/-- The engine now, every state since the call, and the states the two reads were made in. -/
structure ScanCall (K V Λ : Type) [LinearOrder K] [ByteSize K] [ByteSize V] where
  engine : Engine K V Λ
  moments : List (Engine K V Λ)
  memtables : Option (Engine K V Λ)
  sstables : Option (Engine K V Λ)

namespace ScanCall

def start (e : Engine K V Λ) : ScanCall K V Λ := ⟨e, [e], none, none⟩

variable [DecidableEq Λ]

def step (cfg : Config K V Λ) (s : ScanCall K V Λ) : ScanStep K V → Option (ScanCall K V Λ)
  | .engine l => (s.engine.step cfg l).map fun e => { s with engine := e, moments := e :: s.moments }
  | .readMemtables =>
    if s.memtables.isNone then some { s with memtables := some s.engine } else none
  | .readSstables =>
    if s.memtables.isSome && s.sstables.isNone then some { s with sstables := some s.engine }
    else none

/-- A drained `scan_iter` once both reads are made; the inner `none` is a panic. -/
def scanIterRows (fmt : FileFormat K V Λ) (cfg : Config K V Λ) (lo hi : K) (s : ScanCall K V Λ) :
    Option (Except StorageError (List (K × V))) := do
  let e₁ ← s.memtables
  let e₂ ← s.sstables
  let mem ← e₁.snapshotMemRange lo hi
  return e₂.drainScan cfg (e₂.openScan fmt lo hi mem)

/-- What `filtered_scan` returns once both reads are made. -/
def filteredScanRows (fmt : FileFormat K V Λ) (cfg : Config K V Λ) (lo hi : K) (p : K → V → Bool)
    (s : ScanCall K V Λ) : Option (Except StorageError (List (K × V))) := do
  let e₁ ← s.memtables
  let e₂ ← s.sstables
  let acc ← e₁.memPass lo hi p
  return do
    let acc ← acc
    let acc ← e₂.filePass fmt cfg lo hi p acc
    return acc.2.entries

/-- Between the two reads only memtables that the first one saw, as it saw them, are flushed. -/
def StepSafe (s : ScanCall K V Λ) : ScanStep K V → Prop
  | .engine (.finish w) => ∀ e₁ ∈ s.memtables, s.sstables = none →
    ∀ i ∈ s.engine.immutable, i.walId = w → ∃ m ∈ e₁.memtables, m.entries = i.table.entries
  | _ => True

end ScanCall

/-! ## What the steps do to the files -/

section

variable {cfg : Config K V Λ} {T : Option Λ} {A : Type} {e e' : Engine K V Λ}

theorem Engine.probe_congr_sstables (h : e'.sstables = e.sstables) (k : K) :
    e'.probe k = e.probe k := by
  unfold probe level
  rw [h]

theorem Engine.sstables_retireDurablePrefix (e : Engine K V Λ) :
    e.retireDurablePrefix.sstables = e.sstables := by
  unfold retireDurablePrefix
  generalize e.immutable.length = n
  induction n generalizing e with
  | zero => rfl
  | succ n ih =>
    simp only [retireDurablePrefix.go]
    split
    · next e₁ he₁ =>
      obtain ⟨q, i, -, -, rfl⟩ := retireOldest_eq he₁
      exact ih _
    · rfl

theorem Shaped.probe_step [DecidableEq Λ] (M : Meaning cfg T A)
    (h : Shaped cfg.options.maxLevel T e) {l : Step K V} (hs : e.step cfg l = some e') {k : K}
    (hk : ∀ w, l = .finish w → ∀ i ∈ e.immutable, i.walId = w → i.table.get k = none) :
    M.hit (e'.probe k) = M.hit (e.probe k) := by
  cases l with
  | commit es =>
    cases hs
    exact congrArg M.hit (Engine.probe_congr_sstables rfl k)
  | sealActive =>
    cases hs
    refine congrArg M.hit (Engine.probe_congr_sstables ?_ k)
    unfold Engine.sealActive
    split <;> rfl
  | claim w =>
    obtain ⟨i, -, -, -, rfl⟩ := Engine.claimFlush_eq hs
    exact congrArg M.hit (Engine.probe_congr_sstables rfl k)
  | finish w =>
    obtain ⟨i, hi, hw, hfl, rfl⟩ := Engine.finishFlush_eq hs
    refine congrArg M.hit ?_
    exact h.levels.probe_insertFile ((h.finish hs).levels) rfl
      (hk w rfl i hi hw)
  | retire =>
    cases hs
    exact congrArg M.hit (Engine.probe_congr_sstables e.sstables_retireDurablePrefix k)
  | compact n =>
    obtain ⟨e₁, he₁, hc⟩ := Engine.compactLevel_spec M h.levels h.layout n
    simp only [Engine.step, he₁] at hs
    cases hs
    exact hc.means k

end

/-! ## Values under a target layout -/

section

variable [DecidableEq Λ] {cfg : Config K V Λ} {T : Option Λ}

/-- No value fails to be brought to the layout `T`. -/
def Config.RewritesTo (cfg : Config K V Λ) (T : Option Λ) : Prop :=
  ∀ l v, l ≠ T → ∃ v', cfg.rewriter l T v = .ok v'

/-- A stored value means what it is rewritten to. -/
def Meaning.rewritten (h : cfg.RewritesTo T) : Meaning cfg T V where
  den l v := if l = T then v else match cfg.rewriter l T v with
    | .ok v' => v'
    | .error _ => v
  rewrite_den l v hl := by
    obtain ⟨v', hv'⟩ := h l v hl
    exact ⟨v', hv', by rw [if_pos rfl, if_neg hl, hv']⟩

theorem Meaning.rewritten_resolves (h : cfg.RewritesTo T) {e : Engine K V Λ}
    (hT : e.targetLayout = T) :
    e.Resolves cfg fun x => (Meaning.rewritten h).slot x.1 x.2 := by
  rintro ⟨l, s⟩
  cases s with
  | none => rfl
  | some v =>
    simp only [Engine.resolve, hT, slot_some, rewritten]
    split
    · next hl =>
      obtain ⟨v', hv'⟩ := h l v hl
      rw [hv']
      rfl
    · next hl => rw [if_pos (not_not.1 hl)]

end

/-! ## The scan -/

namespace ScanCall

variable {cfg : Config K V Λ} {T : Option Λ} {A : Type} {s s' : ScanCall K V Λ}

/-- Until the second read the files hold what they held at the first, for every key that no memtable
held. -/
structure Inv (M : Meaning cfg T A) (s : ScanCall K V Λ) : Prop where
  shaped : Shaped cfg.options.maxLevel T s.engine
  current : s.engine ∈ s.moments
  order : s.memtables = none → s.sstables = none
  read : ∀ e₁ ∈ s.memtables, e₁ ∈ s.moments ∧ e₁.targetLayout = T
  between : ∀ e₁ ∈ s.memtables, s.sstables = none → ∀ k, e₁.memHit k = none →
    M.hit (s.engine.probe k) = M.hit (e₁.probe k)
  opened : ∀ e₁ ∈ s.memtables, ∀ e₂ ∈ s.sstables, Shaped cfg.options.maxLevel T e₂ ∧
    ∀ k, e₁.memHit k = none → M.hit (e₂.probe k) = M.hit (e₁.probe k)

theorem Inv.start (M : Meaning cfg T A) {e : Engine K V Λ} (h : Shaped cfg.options.maxLevel T e) :
    Inv M (ScanCall.start e) :=
  ⟨h, mem_singleton_self e, fun _ => rfl, nofun, nofun, nofun⟩

variable [DecidableEq Λ]

theorem Inv.engine {M : Meaning cfg T A} (h : Inv M s) {l : Step K V} {e : Engine K V Λ}
    (hok : s.StepSafe (.engine l)) (hs : s.engine.step cfg l = some e) :
    Inv M { s with engine := e, moments := e :: s.moments } := by
  refine ⟨h.shaped.step M hs, mem_cons_self, h.order, fun e₁ he₁ => ?_,
    fun e₁ he₁ hnone k hk => ?_, h.opened⟩
  · obtain ⟨hmem, hT⟩ := h.read e₁ he₁
    exact ⟨mem_cons_of_mem _ hmem, hT⟩
  · refine (h.shaped.probe_step M hs fun w hl i hi hw => ?_).trans (h.between e₁ he₁ hnone k hk)
    subst hl
    -- the flushed memtable is one the first read saw, and none of those held `k`
    obtain ⟨m, hm, hent⟩ := hok e₁ he₁ hnone i hi hw
    rw [Engine.memHit_eq_findSome?, findSome?_eq_none_iff] at hk
    rw [← MemTable.lookup_entries, ← hent]
    exact hk m hm

theorem Inv.step {M : Meaning cfg T A} (h : Inv M s) {l : ScanStep K V} (hok : s.StepSafe l)
    (hs : s.step cfg l = some s') : Inv M s' := by
  cases l with
  | engine l =>
    obtain ⟨e, he, rfl⟩ := map_eq_some_iff.1 hs
    exact h.engine hok he
  | readMemtables =>
    obtain ⟨hnone, hs⟩ := ite_none_right_eq_some.1 hs
    cases hs
    have hsst := h.order (isNone_iff_eq_none.1 hnone)
    refine ⟨h.shaped, h.current, nofun, ?_, ?_, fun e₁ _ e₂ he₂ => ?_⟩
    · rintro e₁ ⟨⟩
      exact ⟨h.current, h.shaped.layout⟩
    · rintro e₁ ⟨⟩ - k -
      rfl
    · rw [show s.sstables = some e₂ from he₂] at hsst
      cases hsst
  | readSstables =>
    obtain ⟨hread, hs⟩ := ite_none_right_eq_some.1 hs
    cases hs
    simp only [Bool.and_eq_true, isNone_iff_eq_none] at hread
    refine ⟨h.shaped, h.current, fun hnone => ?_, h.read, fun _ _ => nofun, ?_⟩
    · rw [show s.memtables = none from hnone] at hread
      cases hread.1
    · rintro e₁ he₁ e₂ ⟨⟩
      exact ⟨h.shaped, h.between e₁ he₁ hread.2⟩

theorem Inv.run {M : Meaning cfg T A} {e : Engine K V Λ} (h : Shaped cfg.options.maxLevel T e)
    {ls : List (ScanStep K V)} (hr : Run (ScanCall.step cfg) StepSafe (.start e) ls s) : Inv M s :=
  hr.invariant (I := fun _ s => Inv M s) (.start M h) fun _ _ _ _ h hok hs => h.step hok hs

end ScanCall

instance decidableScanSafe [DecidableEq V] (s : ScanCall K V Λ) :
    (l : ScanStep K V) → Decidable (s.StepSafe l)
  | .engine (.finish _) =>
    inferInstanceAs (Decidable (∀ e₁ ∈ _, _ → ∀ i ∈ _, _ → ∃ m ∈ _, _ = _))
  | .engine (.commit _) | .engine .sealActive | .engine (.claim _) | .engine .retire
  | .engine (.compact _) | .readMemtables | .readSstables => isTrue trivial

/-- **Scans are atomic.** A `scan_iter` or `filtered_scan` between whose two reads only memtables
that the first one saw are flushed returns the rows of the range in one state the engine was in
between the call and the return. -/
theorem scan_at_one_moment [DecidableEq Λ] {cfg : Config K V Λ} {T : Option Λ}
    (hrw : cfg.RewritesTo T) {e : Engine K V Λ} (h : Shaped cfg.options.maxLevel T e)
    {ls : List (ScanStep K V)} {s : ScanCall K V Λ}
    (hr : Run (ScanCall.step cfg) ScanCall.StepSafe (.start e) ls s) (hdone : s.sstables.isSome)
    (fmt : FileFormat K V Λ) {lo hi : K} (hle : lo ≤ hi) :
    ∃ e₁ ∈ s.moments, ∃ rows, RangeRows cfg e₁ lo hi rows ∧
      s.scanIterRows fmt cfg lo hi = some (.ok rows) ∧
      ∀ p, s.filteredScanRows fmt cfg lo hi p
        = some (.ok (rows.filter fun x => p x.1 x.2)) := by
  set M := Meaning.rewritten hrw with hM
  have hinv : ScanCall.Inv M s := .run h hr
  obtain ⟨e₂, he₂⟩ := isSome_iff_exists.1 hdone
  obtain ⟨e₁, he₁⟩ : ∃ e₁, s.memtables = some e₁ := by
    refine ne_none_iff_exists'.1 fun hnone => ?_
    rw [hinv.order hnone] at he₂
    cases he₂
  obtain ⟨hmoment, hT⟩ := hinv.read e₁ he₁
  obtain ⟨hshape, hprobe⟩ := hinv.opened e₁ he₁ e₂ he₂
  have hres₁ := Meaning.rewritten_resolves hrw hT
  have hres₂ := Meaning.rewritten_resolves hrw hshape.layout
  have hord := hshape.levels.deeperOrdered
  -- what the two reads find is what the first state holds
  have hsame : ∀ k, ((e₁.memHit k).or ((e₂.probe k).map fun x => M.slot x.1 x.2)).join
      = ((e₁.memHit k).or ((e₁.probe k).map fun x => M.slot x.1 x.2)).join := by
    intro k
    cases hk : e₁.memHit k with
    | some slot => rfl
    | none =>
      have := hprobe k hk
      cases h₁ : e₁.probe k <;> cases h₂ : e₂.probe k <;> rw [h₁, h₂] at this <;> exact this
  obtain ⟨mem, hsnap, hmem⟩ := e₁.snapshotMemRange_eq hle
  obtain ⟨rows, hdrain, hasc, hlook⟩ := Engine.drainScan_openScan hmem hres₂ hord
  refine ⟨e₁, hmoment, rows, hres₁.rangeRows hasc fun k => ?_, ?_, fun p => ?_⟩
  · rw [hlook, hsame]
  · simp only [ScanCall.scanIterRows, he₁, he₂, hsnap, bind_eq_bind, bind_some]
    exact congrArg some hdrain
  · obtain ⟨acc, hpass, hacc⟩ := e₁.memPass_eq hle p
    obtain ⟨acc', hfiles, hlook'⟩ : ∃ acc', e₂.filePass fmt cfg lo hi p acc = .ok acc' ∧ _ :=
      hres₂.filePass_rows hord hacc
    have hrows : acc'.2.entries = rows.filter fun x => p x.1 x.2 := by
      refine acc'.2.ascending.ext (hasc.filter _) fun k => ?_
      rw [hlook', hasc.lookup_filter, hlook]
      split <;> rfl
    simp only [ScanCall.filteredScanRows, he₁, he₂, hpass, bind_eq_bind, bind_some]
    show some (e₂.filePass fmt cfg lo hi p acc >>= fun a => pure a.2.entries) = _
    rw [hfiles, ← hrows]
    rfl

def splitTrace : List (ScanStep DbKey DbValue) :=
  [.engine (.commit [.put (.bool false) (.bool false)]), .engine .sealActive, .readMemtables,
    .engine (.commit [.put (.bool false) (.bool true), .put (.bool true) (.bool true)]),
    .engine (.claim 0), .engine (.finish 0), .readSstables, .engine .retire]

theorem scan_at_one_moment_splitTrace :
    ∃ s, Run (ScanCall.step plainConfig) ScanCall.StepSafe (.start .fresh) splitTrace s ∧
      ∃ e₁ ∈ s.moments, ∃ rows, RangeRows plainConfig e₁ (.bool false) (.bool true) rows ∧
        s.scanIterRows smallFormat plainConfig (.bool false) (.bool true) = some (.ok rows) := by
  have hrw : plainConfig.RewritesTo none := fun _ v _ => ⟨v, rfl⟩
  refine Run.exists_of_exec (p := fun s => s.sstables.isSome = true) (by decide +kernel)
    fun s hr hdone => ?_
  obtain ⟨e₁, he₁, rows, hrows, hscan, -⟩ := scan_at_one_moment hrw
    (FlushInv.fresh (Meaning.rewritten hrw)).shaped hr hdone smallFormat
    (show DbKey.bool false ≤ DbKey.bool true by decide +kernel)
  exact ⟨e₁, he₁, rows, hrows, hscan⟩

def tornTrace : List (ScanStep DbKey DbValue) :=
  [.engine (.commit [.put (.bool false) (.bool false)]), .readMemtables,
    .engine (.commit [.put (.bool false) (.bool true), .put (.bool true) (.bool true)]),
    .engine .sealActive, .engine (.claim 0), .engine (.finish 0), .readSstables]

/-- The scans return the old value of one key of the batch next to the new value of the other,
which no state of the engine held. -/
theorem scan_tornTrace :
    ∃ s, exec (ScanCall.step plainConfig) (.start .fresh) tornTrace = some s ∧
      s.scanIterRows smallFormat plainConfig (.bool false) (.bool true)
        = some (.ok [(.bool false, .bool false), (.bool true, .bool true)]) ∧
      s.filteredScanRows smallFormat plainConfig (.bool false) (.bool true) (fun _ _ => true)
        = some (.ok [(.bool false, .bool false), (.bool true, .bool true)]) ∧
      ∀ e ∈ s.moments, ¬ (e.get plainConfig (.bool false) = .ok (some (.bool false)) ∧
        e.get plainConfig (.bool true) = .ok (some (.bool true))) := by
  decide +kernel

end Dtdb.Storage
