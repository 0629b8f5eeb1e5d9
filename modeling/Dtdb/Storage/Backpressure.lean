import Dtdb.Lib.Run

/-! # Writers held back by level 0

`await_l0_limit` holds the gate's lock from its check of level 0 until it waits, but a compaction
notifies without it: a notification in between reaches nobody. -/

namespace Dtdb.Storage.Backpressure

open Dtdb.Lib

/-- The two middle places of `await_l0_limit` hold the gate's lock. -/
inductive Writer where
  | outside
  | atCheck
  | beforeWait
  | waiting
deriving DecidableEq

/-- The compaction has chosen so many files of level 0, or taken them out and has still to notify.
-/
inductive Compacting where
  | chosen (files : Nat)
  | removed
deriving DecidableEq

structure Gate where
  l0 : Nat
  writer : Writer
  compaction : Option Compacting
  shuttingDown : Bool
deriving DecidableEq

inductive Event where
  | enter
  | check
  | wait
  | flush
  | choose (files : Nat)
  | abort
  | remove
  | notify
  | shutDown
deriving DecidableEq

def Writer.notified : Writer → Writer
  | .waiting => .atCheck
  | w => w

def step (stopTrigger : Nat) (s : Gate) : Event → Option Gate
  | .enter => if s.writer = .outside then some { s with writer := .atCheck } else none
  | .check =>
    if s.writer = .atCheck then
      some { s with writer := if s.shuttingDown ∨ s.l0 < stopTrigger then .outside else .beforeWait }
    else none
  | .wait => if s.writer = .beforeWait then some { s with writer := .waiting } else none
  | .flush => some { s with l0 := s.l0 + 1 }
  | .choose files =>
    if s.compaction = none ∧ files ≤ s.l0 then some { s with compaction := some (.chosen files) }
    else none
  | .abort => match s.compaction with
    | some (.chosen _) => some { s with compaction := none }
    | _ => none
  | .remove => match s.compaction with
    | some (.chosen files) => some { s with l0 := s.l0 - files, compaction := some .removed }
    | _ => none
  | .notify =>
    if s.compaction = some .removed then
      some { s with compaction := none, writer := s.writer.notified }
    else none
  | .shutDown =>
    if s.writer = .outside ∨ s.writer = .waiting then
      some { s with shuttingDown := true, writer := s.writer.notified }
    else none

def start : Gate := ⟨0, .outside, none, false⟩

/-- The writer waits although level 0 is below the limit, and nobody will notify it. -/
def Gate.Stranded (stopTrigger : Nat) (s : Gate) : Prop :=
  s.writer = .waiting ∧ s.l0 < stopTrigger ∧ s.compaction = none

/-- No notification falls between a writer's check and its wait. -/
def Heard (stopTrigger : Nat) (s : Gate) (ev : Event) : Prop :=
  ev = .notify → s.writer = .beforeWait → stopTrigger ≤ s.l0

instance (stopTrigger : Nat) (s : Gate) (ev : Event) : Decidable (Heard stopTrigger s ev) :=
  inferInstanceAs (Decidable (_ → _ → _))

def Gate.Covered (stopTrigger : Nat) (s : Gate) : Prop :=
  s.writer = .beforeWait ∨ s.writer = .waiting → stopTrigger ≤ s.l0 ∨ s.compaction = some .removed

theorem covered_step {stopTrigger : Nat} {s s' : Gate} {ev : Event} (h : s.Covered stopTrigger)
    (hok : Heard stopTrigger s ev) (hs : step stopTrigger s ev = some s') :
    s'.Covered stopTrigger := by
  obtain ⟨l0, w, c, down⟩ := s
  unfold Gate.Covered Heard at *
  cases ev with
  | check =>
    obtain ⟨rfl, rfl⟩ : w = .atCheck ∧ _ := by simpa [step] using hs
    by_cases hlow : down ∨ l0 < stopTrigger
    · simp [hlow]
    · exact fun _ => .inl (Nat.le_of_not_lt fun hlt => hlow (.inr hlt))
  | notify =>
    -- whoever waits is woken, and a writer before its wait has found level 0 full
    obtain ⟨rfl, rfl⟩ : c = some .removed ∧ _ := by simpa [step] using hs
    cases w <;> simp_all [Writer.notified]
  | shutDown =>
    obtain ⟨hw, rfl⟩ : (w = .outside ∨ w = .waiting) ∧ _ := by simpa [step] using hs
    rcases hw with rfl | rfl <;> simp [Writer.notified]
  | remove =>
    simp only [step] at hs
    split at hs <;> cases hs
    exact fun _ => .inr rfl
  | abort =>
    simp only [step] at hs
    split at hs <;> cases hs
    exact fun hw => .inl ((h hw).resolve_right nofun)
  | flush =>
    cases hs
    exact fun hw => (h hw).imp_left Nat.le_succ_of_le
  | enter =>
    obtain ⟨rfl, rfl⟩ : w = .outside ∧ _ := by simpa [step] using hs
    simp
  | wait =>
    obtain ⟨rfl, rfl⟩ : w = .beforeWait ∧ _ := by simpa [step] using hs
    exact fun _ => h (.inl rfl)
  | choose files =>
    obtain ⟨⟨rfl, -⟩, rfl⟩ : (c = none ∧ files ≤ l0) ∧ _ := by simpa [step] using hs
    exact fun hw => .inl ((h hw).resolve_right nofun)

theorem stranded_of_unheard {stopTrigger : Nat} {s s' : Gate} (h : ¬ Heard stopTrigger s .notify)
    (hs : step stopTrigger s .notify = some s') :
    ∃ s'', step stopTrigger s' .wait = some s'' ∧ s''.Stranded stopTrigger := by
  obtain ⟨hw, hlow⟩ : s.writer = .beforeWait ∧ s.l0 < stopTrigger := by simpa [Heard] using h
  obtain ⟨-, rfl⟩ : s.compaction = some .removed ∧ _ := by simpa [step] using hs
  refine ⟨_, if_pos ?_, rfl, hlow, rfl⟩
  rw [hw]
  rfl

end Dtdb.Storage.Backpressure
