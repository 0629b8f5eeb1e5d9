import Dtdb.Storage.Crash
import Dtdb.Storage.Client

/-! # Writes that return an error

`commit_coalesced` writes the frames of all queued writers, syncs, applies the batches and may seal.
The first to fail gives every writer an error, and what has happened by then stays; only a write
that fails before it completes a frame leaves nothing but a torn tail. -/

namespace Dtdb.Storage

open Dtdb.Lib

variable {K V Λ : Type}

/-- Where a group commit fails. -/
inductive GroupFault where
  /-- `write_all`, after so many whole frames and perhaps part of another -/
  | walWrite (whole : Nat) (torn : Bool)
  /-- the `fsync` of a log that syncs on every append -/
  | walFsync
  /-- opening the next segment, when the group fills the memtable or the log -/
  | openSegment
  deriving DecidableEq

inductive FaultyEvent (K V : Type) where
  | ok (ev : Event K V)
  /-- a group of writers, one batch each, all of whom get an error -/
  | failed (tasks : List (List (WalEntry K V))) (fault : GroupFault)

namespace FaultyEvent

def succeeded : FaultyEvent K V → Option (Event K V)
  | .ok ev => some ev
  | .failed _ _ => none

/-- The writes of the calls that returned `Ok`, oldest first. -/
def acknowledged (evs : List (FaultyEvent K V)) : List (Mutation K V) :=
  Event.acknowledged (evs.filterMap succeeded)

end FaultyEvent

variable [LinearOrder K] [ByteSize K] [ByteSize V]

namespace Live

def failedCommit (cfg : Config K V Λ) (u : Live K V Λ) (tasks : List (List (WalEntry K V))) :
    GroupFault → Option (List (DiskOp K V Λ) × Live K V Λ)
  | .walWrite whole _ =>
    if whole < tasks.length then
      some ((tasks.take whole).map (.appendSegment u.engine.activeWalId), u)
    else none
  | .walFsync =>
    if cfg.options.walSyncIntervalMs.getD 0 = 0 then
      some (tasks.map (.appendSegment u.engine.activeWalId), { u with
        engine := { u.engine with walSize := u.engine.walSize + (tasks.map cfg.frameSize).sum } })
    else none
  | .openSegment =>
    let e := { u.engine with
      active := u.engine.active.applyDrain tasks.flatten
      walSize := u.engine.walSize + (tasks.map cfg.frameSize).sum }
    if e.triggerFlush cfg then
      -- the ids of the next segment and SSTable are taken before the segment is opened
      some (tasks.map (.appendSegment u.engine.activeWalId),
        { u with engine := { e with nextSstId := e.nextSstId + 1, nextWalId := e.nextWalId + 1 } })
    else none

end Live

/-- The machine and the segment that ends in a torn frame, if any. -/
structure FaultyMachine (K V Λ : Type) [LinearOrder K] [ByteSize K] [ByteSize V] where
  machine : Machine K V Λ
  torn : Option Nat

namespace FaultyMachine

def fresh : FaultyMachine K V Λ := ⟨.fresh, none⟩

variable [DecidableEq Λ]

def activeSegment (s : FaultyMachine K V Λ) : Option Nat :=
  match s.machine.mode with
  | .up u => some u.engine.activeWalId
  | _ => none

/-- The active segment ends in a torn frame. -/
def behindTorn (s : FaultyMachine K V Λ) : Bool :=
  match s.activeSegment with
  | some id => s.torn = some id
  | none => false

def step (cfg : Config K V Λ) (s : FaultyMachine K V Λ) :
    FaultyEvent K V → Option (FaultyMachine K V Λ)
  | .ok (.crash back) => (s.machine.step cfg (.crash back)).map fun m => ⟨m, none⟩
  | .ok (.commit es) =>
    if s.behindTorn then
      -- recovery stops at the torn frame: the batch reaches the memtable only
      (s.machine.step cfg (.commit es)).map fun m => ⟨{ m with disk := s.machine.disk }, s.torn⟩
    else (s.machine.step cfg (.commit es)).map fun m => ⟨m, s.torn⟩
  | .ok ev => (s.machine.step cfg ev).map fun m => ⟨m, s.torn⟩
  | .failed tasks fault =>
    match s.machine.mode with
    | .up u => (u.failedCommit cfg tasks fault).map fun x =>
        ⟨⟨x.1.foldl Disk.exec s.machine.disk, .up x.2⟩,
          if fault matches .walWrite _ true then some u.engine.activeWalId else s.torn⟩
    | _ => none

/-- A group commit fails before it completes a frame, and no batch is appended behind a torn frame.
-/
def StepSafe (cfg : Config K V Λ) (s : FaultyMachine K V Λ) : FaultyEvent K V → Prop
  | .ok ev => s.machine.StepSafe cfg ev ∧ (ev matches .commit _ → s.behindTorn = false)
  | .failed _ fault => fault matches .walWrite 0 _

/-! ## Runs -/

variable {cfg : Config K V Λ} {s s' : FaultyMachine K V Λ}

theorem step_ok {ev : Event K V} (hok : s.StepSafe cfg (.ok ev))
    (hs : s.step cfg (.ok ev) = some s') : s.machine.step cfg ev = some s'.machine := by
  have hmap : ∀ {f : Machine K V Λ → FaultyMachine K V Λ}, (∀ m, (f m).machine = m) →
      (s.machine.step cfg ev).map f = some s' → s.machine.step cfg ev = some s'.machine := by
    intro f hf h
    obtain ⟨m, hm, rfl⟩ := Option.map_eq_some_iff.1 h
    rw [hm, hf]
  cases ev with
  | commit es =>
    simp only [step, hok.2 rfl, Bool.false_eq_true] at hs
    exact hmap (fun _ => rfl) hs
  | _ => exact hmap (fun _ => rfl) hs

theorem step_failed {tasks : List (List (WalEntry K V))} {fault : GroupFault}
    (hok : s.StepSafe cfg (.failed tasks fault)) (hs : s.step cfg (.failed tasks fault) = some s') :
    s'.machine = s.machine := by
  obtain ⟨⟨d, mode⟩, torn⟩ := s
  simp only [step] at hs
  split at hs
  · obtain ⟨⟨ops, u'⟩, hu, rfl⟩ := Option.map_eq_some_iff.1 hs
    cases fault with
    | walWrite whole torn =>
      cases whole with
      | zero =>
        simp only [Live.failedCommit] at hu
        split at hu <;> cases hu
        rfl
      | succ n => cases hok
    | walFsync | openSegment => cases hok
  · cases hs

theorem run_machine {evs : List (FaultyEvent K V)}
    (hr : Run (step cfg) (StepSafe cfg) .fresh evs s) :
    Run (Machine.step cfg) (Machine.StepSafe cfg) .fresh (evs.filterMap FaultyEvent.succeeded)
      s.machine := by
  induction hr with
  | nil => exact .nil
  | @snoc evs s s' ev _ hok hs ih =>
    rw [List.filterMap_append]
    cases ev with
    | ok ev => exact .snoc ih hok.1 (step_ok hok hs)
    | failed tasks fault =>
      rw [step_failed hok hs, show [FaultyEvent.failed tasks fault].filterMap FaultyEvent.succeeded
        = [] from rfl, List.append_nil]
      exact ih

end FaultyMachine

/-- **Failed writes leave no trace.** In every run in which group commits fail before they complete
a frame and no batch is appended behind a torn frame, an engine that is up, after any number of
crashes, returns for every key the last write of a call that returned `Ok`. -/
theorem get_eq_lastSucceeded [DecidableEq Λ] {cfg : Config K V Λ} (hrw : cfg.KeepsPlain)
    {evs : List (FaultyEvent K V)} {s : FaultyMachine K V Λ}
    (hr : Run (FaultyMachine.step cfg) (FaultyMachine.StepSafe cfg) .fresh evs s) {u : Live K V Λ}
    (hup : s.machine.mode = .up u) (k : K) :
    u.engine.get cfg k = .ok (lastWrite (FaultyEvent.acknowledged evs) k).join := by
  have hmeans := Machine.Means.run (M := Meaning.identity hrw) (FaultyMachine.run_machine hr)
  unfold Machine.Means at hmeans
  rw [hup] at hmeans
  exact Meaning.get_of_view hrw hmeans.1.inv.layout (hmeans.2 k)

instance decidableFaultySafe [DecidableEq Λ] (cfg : Config K V Λ) (s : FaultyMachine K V Λ) :
    (ev : FaultyEvent K V) → Decidable (s.StepSafe cfg ev)
  | .ok _ => inferInstanceAs (Decidable (_ ∧ (_ → _)))
  | .failed _ _ => inferInstanceAs (Decidable (_ = true))

def faultyOpen (n : Nat) : List (FaultyEvent DbKey DbValue) := (openSteps n).map .ok

def tornGroupTrace : List (FaultyEvent DbKey DbValue) :=
  faultyOpen 6 ++ [.ok (.commit [.put (.bool true) (.bool false)]),
    .failed [[.put (.bool true) (.bool true)], [.delete (.bool true)]] (.walWrite 0 true),
    .ok .sealActive, .ok (.commit [.put (.bool false) (.bool false)]), .ok (.crash [])] ++
  faultyOpen 13

theorem get_tornGroupTrace : ∃ s u,
    Run (FaultyMachine.step plainConfig) (FaultyMachine.StepSafe plainConfig) .fresh
      tornGroupTrace s ∧ s.machine.mode = .up u ∧
      u.engine.get plainConfig (.bool true) = .ok (some (.bool false)) := by
  simp only [exists_and_left]
  refine Run.exists_of_exec (p := fun s => (s.machine.read plainConfig (.bool true)).isSome = true)
    (by decide +kernel) fun s hr hread => ?_
  obtain ⟨u, hu⟩ := Machine.exists_up_of_read hread
  exact ⟨u, hu, get_eq_lastSucceeded (fun _ _ => rfl) hr hu (.bool true)⟩

/-- The `write` fails after the first of two frames, or `fsync` fails; the engine crashes and comes
up again. -/
def crashAfter (tasks : List (List (WalEntry DbKey DbValue))) (fault : GroupFault) :
    List (FaultyEvent DbKey DbValue) :=
  faultyOpen 6 ++ [.failed tasks fault, .ok (.crash [])] ++ faultyOpen 12

/-- The put of a writer that got an error is read after the crash, or at once where the memtable
could not be sealed. -/
theorem get_failedWrites :
    ((exec (FaultyMachine.step plainConfig) .fresh (crashAfter [[.put (.bool true) (.bool true)],
      [.put (.bool false) (.bool true)]] (.walWrite 1 true))).bind fun s =>
        s.machine.read plainConfig (.bool true)) = some (.ok (some (.bool true))) ∧
    ((exec (FaultyMachine.step plainConfig) .fresh (crashAfter [[.put (.bool true) (.bool true)]]
      .walFsync)).bind fun s => s.machine.read plainConfig (.bool true))
        = some (.ok (some (.bool true))) ∧
    ((exec (FaultyMachine.step eagerConfig) .fresh
      (faultyOpen 6 ++ [.failed [[.put (.bool true) (.bool true)]] .openSegment])).bind fun s =>
        s.machine.read eagerConfig (.bool true)) = some (.ok (some (.bool true))) := by
  refine ⟨?_, ?_, ?_⟩ <;> decide +kernel

end Dtdb.Storage
