import Dtdb.Relational.Checkpoint
import Dtdb.Relational.OpenTable
import Dtdb.Storage.Crash

/-! # Restarts

An engine is a map and a table is its rows, through crashes and through recoveries that are
themselves cut short. -/

namespace Dtdb.Relational

open Dtdb.Lib Dtdb.Storage List Option

section

variable {Λ : Type} [ByteSize DbKey] [ByteSize Stored] [DecidableEq Λ] {cfg : Config DbKey Stored Λ}

def acknowledgedMap (evs : List (Event DbKey Stored)) : Store :=
  SortedMap.empty.applyAll (Event.acknowledged evs)

/-- **An engine is a map.** After every run of safe steps, crashes and opens, an engine that is up
answers point reads, batched reads and scans from the map of the acknowledged writes; a scan of an
inverted range panics once a memtable holds an entry. -/
theorem engine_shows_acknowledged (hrw : cfg.rewriter = passthrough)
    {evs : List (Event DbKey Stored)} {s : Machine DbKey Stored Λ}
    (hr : Run (Machine.step cfg) (Machine.StepSafe cfg) .fresh evs s) {u : Live DbKey Stored Λ}
    (hup : s.mode = .up u) (fmt : FileFormat DbKey Stored Λ) :
    (∀ k, u.engine.get cfg k = .ok ((acknowledgedMap evs).get k)) ∧
    (∀ keys, u.engine.multiGet fmt cfg keys = .ok (keys.map (acknowledgedMap evs).get)) ∧
    (∀ lo hi, lo ≤ hi →
      let rows := (acknowledgedMap evs).entries.filter fun x => lo ≤ x.1 ∧ x.1 ≤ hi
      u.engine.filteredScan fmt cfg lo hi (fun _ _ => true) = some (.ok rows) ∧
      (u.engine.scanIter fmt lo hi).map (u.engine.drainScan cfg) = some (.ok rows)) ∧
    ∀ lo hi, hi < lo → (u.engine.memtables.any fun m => !m.isEmpty) = true →
      u.engine.filteredScan fmt cfg lo hi (fun _ _ => true) = none := by
  have hplain : cfg.KeepsPlain := fun _ _ => by rw [hrw]; rfl
  have hmeans := Machine.Means.run (M := Meaning.identity hplain) hr
  unfold Machine.Means at hmeans
  rw [hup] at hmeans
  obtain ⟨hrun, hview⟩ := hmeans
  have hres : u.engine.Resolves cfg Prod.snd := .passthrough hrw
  have hord := hrun.inv.shaped.levels.deeperOrdered
  have hget : ∀ k, u.engine.get cfg k = .ok ((acknowledgedMap evs).get k) := fun k => by
    rw [Meaning.get_of_view hplain hrun.inv.layout (hview k), acknowledgedMap,
      SortedMap.get_applyAll, lastWrite]
    cases (Event.acknowledged evs).reverse.lookup k <;> rfl
  have hshows : EngineView.Shows cfg u.engine
    ⟨acknowledgedMap evs, u.engine.memtables.any fun m => !m.isEmpty⟩ := ⟨hget, rfl⟩
  refine ⟨hget, fun keys => ?_, fun lo hi hle => ?_,
    fun lo hi hlt hmem => (hshows.filteredScan_inverted fmt hlt hmem).1⟩
  · rw [hres.multiGet_eq, funext hget]
    exact mapM_pure
  · rw [hshows.filteredScan_eq hres hord fmt hle, hshows.scanIter_eq hres hord fmt hle,
      EngineView.scan_eq (.inr hle)]
    exact ⟨rfl, rfl⟩

end

/-- A put, a crash and an open. -/
def putCrashTrace : List (Event DbKey Stored) :=
  .startOpen :: replicate 6 .openStep ++ [.commit [.put (.bool true) (.row [])], .crash [],
    .startOpen] ++ replicate 12 .openStep

theorem engine_shows_putCrashTrace : ∃ s u,
    Run (Machine.step DurableDb.storedConfig) (Machine.StepSafe DurableDb.storedConfig) .fresh
      putCrashTrace s ∧ s.mode = .up u ∧ ∀ fmt,
        u.engine.multiGet fmt DurableDb.storedConfig [.bool true] = .ok [some (.row [])] := by
  simp only [exists_and_left]
  refine Run.exists_of_exec
    (p := fun s => (s.read DurableDb.storedConfig (.bool true)).isSome = true)
    (by decide +kernel) fun s hs hread => ?_
  obtain ⟨u, hu⟩ := Machine.exists_up_of_read hread
  refine ⟨u, hu, fun fmt => ?_⟩
  obtain ⟨-, hmulti, -⟩ := engine_shows_acknowledged rfl hs hu fmt
  rw [hmulti]
  rfl

section

variable {tok : Tokenizers} {tables : SortedMap String Table}
  {engines crashed left : String → Engines} {rows : String → DbKey → Option Row} {ls : List DbStep} {s : Logged}

theorem Logged.Inv.of_run
    (hstart : ∀ name t, tables.get name = some t → Represents tok t (engines name) (rows name))
    (hrun : Run (Logged.step tok) Logged.StepSafe (.start tables engines) ls s) :
    Logged.Inv tok tables rows s :=
  hrun.invariant (I := fun _ s => Logged.Inv tok tables rows s) (.start hstart)
    fun _ _ _ _ h hsafe hs => h.step hsafe hs

end

end Dtdb.Relational
