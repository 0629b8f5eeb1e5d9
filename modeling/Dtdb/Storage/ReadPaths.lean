import Dtdb.Storage.Client
import Dtdb.Storage.Scan

/-! # The four read paths agree

Point reads, batched reads, lazy and eager scans return the same values in every state: they only
need the levels below 0 to be in key order. -/

namespace Dtdb.Storage

open Dtdb.Lib

variable {K V Λ : Type} [LinearOrder K] [ByteSize K] [ByteSize V] [DecidableEq Λ]
variable {cfg : Config K V Λ}

theorem System.shaped {ok : System K V Λ → Move K V → Prop} (M : Meaning cfg none V)
    {ms : List (Move K V)} {s : System K V Λ} (hr : Run (System.step cfg) ok .fresh ms s) :
    Shaped cfg.options.maxLevel none s.engine := by
  refine hr.invariant (I := fun _ s => Shaped cfg.options.maxLevel none s.engine)
    (FlushInv.fresh M).shaped fun _ s m s' h _ hs => ?_
  have hadv := (System.step_refines hs).engine
  cases hl : s.label cfg m with
  | none =>
    rw [hl] at hadv
    exact (show s'.engine = s.engine from hadv) ▸ h
  | some l =>
    rw [hl] at hadv
    exact h.step M hadv

/-- The rows of a range: ascending, and the live values that point reads return. -/
structure RangeRows (cfg : Config K V Λ) (e : Engine K V Λ) (lo hi : K) (rows : List (K × V)) :
    Prop where
  ascending : Ascending rows
  mem_iff : ∀ k v, (k, v) ∈ rows ↔ lo ≤ k ∧ k ≤ hi ∧ e.get cfg k = .ok (some v)

namespace Engine

variable {e : Engine K V Λ} {val : Hit V Λ → Option V} {lo hi : K}

omit [DecidableEq Λ] in
theorem answer_eq (e : Engine K V Λ) (val : Hit V Λ → Option V) (k : K) :
    ((e.memHit k).or ((e.probe k).map val)).join = e.answer val k := by
  unfold answer
  cases e.memHit k with
  | some s => rfl
  | none => cases e.probe k <;> rfl

theorem Resolves.rangeRows (hres : e.Resolves cfg val) {rows : List (K × V)}
    (hasc : Ascending rows) (hlook : ∀ k, rows.lookup k
      = if lo ≤ k ∧ k ≤ hi then ((e.memHit k).or ((e.probe k).map val)).join else none) :
    RangeRows cfg e lo hi rows := by
  refine ⟨hasc, fun k v => ?_⟩
  rw [hasc.mem_iff, hlook, answer_eq, hres.get_eq, ← and_assoc]
  split
  · next hk => simp [hk]
  · next hk => simp [hk]

theorem Resolves.scanIter_rows (hres : e.Resolves cfg val) (fmt : FileFormat K V Λ)
    (h : e.DeeperOrdered) (hle : lo ≤ hi) : ∃ it rows, e.scanIter fmt lo hi = some it ∧
      e.drainScan cfg it = .ok rows ∧ RangeRows cfg e lo hi rows := by
  obtain ⟨mem, hsnap, hmem⟩ := e.snapshotMemRange_eq hle
  obtain ⟨rows, hdrain, hasc, hlook⟩ := drainScan_openScan hmem hres h
  exact ⟨_, rows, by rw [scanIter, hsnap]; rfl, hdrain, hres.rangeRows hasc hlook⟩

theorem Resolves.filteredScan_rows (hres : e.Resolves cfg val) (fmt : FileFormat K V Λ)
    (h : e.DeeperOrdered) (hle : lo ≤ hi) : ∃ rows, e.filteredScan fmt cfg lo hi (fun _ _ => true) = some (.ok rows) ∧
      RangeRows cfg e lo hi rows := by
  obtain ⟨acc, hpass, hacc⟩ := e.memPass_eq hle fun _ _ => true
  obtain ⟨acc', hfiles, hlook⟩ := hres.filePass_rows h hacc
  refine ⟨acc'.2.entries, ?_, hres.rangeRows acc'.2.ascending fun k => (hlook k).trans ?_⟩
  · rw [filteredScan, hpass]
    show some (e.filePass fmt cfg lo hi (fun _ _ => true) acc >>= fun a => pure a.2.entries) = _
    rw [hfiles]
    rfl
  · split
    · cases ((e.memHit k).or ((e.probe k).map val)).join <;> rfl
    · rfl

end Engine

theorem RangeRows.unique {e : Engine K V Λ} {lo hi : K} {rows rows' : List (K × V)}
    (h : RangeRows cfg e lo hi rows) (h' : RangeRows cfg e lo hi rows') : rows = rows' :=
  h.ascending.ext_mem h'.ascending fun x => by rw [h.mem_iff x.1 x.2, h'.mem_iff x.1 x.2]

/-- **The read paths agree.** In every state of one client and the executor `multi_get` answers
each key as `get` does, and a drained `scan_iter` and an unfiltered `filtered_scan` return exactly
the live values of the range that `get` returns, in ascending key order. -/
theorem reads_agree (hrw : cfg.rewriter = passthrough) {ms : List (Move K V)} {s : System K V Λ}
    (hr : Run (System.step cfg) (fun _ _ => True) .fresh ms s) (fmt : FileFormat K V Λ) :
    (∀ keys, s.engine.multiGet fmt cfg keys = keys.mapM (s.engine.get cfg)) ∧
      ∀ lo hi, lo ≤ hi → ∃ it rows, s.engine.scanIter fmt lo hi = some it ∧
        s.engine.drainScan cfg it = .ok rows ∧
        s.engine.filteredScan fmt cfg lo hi (fun _ _ => true) = some (.ok rows) ∧
        Ascending rows ∧
        ∀ k v, (k, v) ∈ rows ↔ lo ≤ k ∧ k ≤ hi ∧ s.engine.get cfg k = .ok (some v) := by
  have hplain : cfg.KeepsPlain := fun _ _ => by rw [hrw]; rfl
  have hres : s.engine.Resolves cfg Prod.snd := .passthrough hrw
  have hord := (System.shaped (Meaning.identity hplain) hr).levels.deeperOrdered
  refine ⟨hres.multiGet_eq, fun lo hi hle => ?_⟩
  obtain ⟨it, rows, hit, hdrain, hrows⟩ := hres.scanIter_rows fmt hord hle
  obtain ⟨rows', hfilter, hrows'⟩ := hres.filteredScan_rows fmt hord hle
  obtain rfl := hrows.unique hrows'
  exact ⟨it, rows, hit, hdrain, hfilter, hrows.ascending, hrows.mem_iff⟩

def smallFormat : FileFormat DbKey DbValue Unit where
  blockSizeLimit _ := 1
  expectedEntries r := r.entries.length
  hash _ := (3, 5)
  filterBytes n := n
  filterBytes_pos _ h := h
  numHashes _ := 7

def flushedMoves : List (Move DbKey DbValue) :=
  [.call (.put (.bool false) (.bool true)), .client, .call (.put (.bool true) (.bool true)), .client,
    .call .flushMemtable, .client, .client, .client, .client, .client,
    .call (.delete (.bool true)), .client]

theorem reads_agree_flushedMoves :
    ∃ s, Run (System.step plainConfig) (fun _ _ => True) .fresh flushedMoves s ∧
      s.engine.multiGet smallFormat plainConfig [.bool true, .bool false]
        = [.bool true, .bool false].mapM (s.engine.get plainConfig) ∧
      ∃ it rows, s.engine.scanIter smallFormat (.bool false) (.bool true) = some it ∧
        s.engine.drainScan plainConfig it = .ok rows ∧
        s.engine.filteredScan smallFormat plainConfig (.bool false) (.bool true) (fun _ _ => true)
          = some (.ok rows) ∧
        (.bool false, .bool true) ∈ rows ∧ (.bool true, .bool true) ∉ rows := by
  refine Run.exists_of_exec (p := fun s =>
    s.engine.get plainConfig (.bool false) = .ok (some (.bool true)) ∧
      s.engine.get plainConfig (.bool true) = .ok none) (by decide +kernel)
    fun s hr ⟨hlive, hdead⟩ => ?_
  obtain ⟨hmulti, hscan⟩ := reads_agree rfl hr smallFormat
  obtain ⟨it, rows, hit, hdrain, hfilter, -, hmem⟩ :=
    hscan (.bool false) (.bool true) (by decide +kernel)
  refine ⟨hmulti _, it, rows, hit, hdrain, hfilter, (hmem _ _).2 ?_, fun hin => ?_⟩
  · exact ⟨le_rfl, by decide +kernel, hlive⟩
  · have := ((hmem _ _).1 hin).2.2
    rw [hdead] at this
    cases this

end Dtdb.Storage
