import Dtdb.Lib.Run
import Dtdb.Storage.Engine

/-! # Counting the sealed memtables

Sealing pushes a memtable to the queue and counts it in a critical section of its own; so does
retiring.  A memtable may be retired before it is counted; the count then stays one too high. -/

namespace Dtdb.Storage.FlushCount

open Dtdb.Lib List

/-- Where the retire loop stands. -/
inductive Retiring where
  | idle
  | removed
  | popped
deriving DecidableEq

/-- From the oldest memtable on; `written` are those with a registered SSTable, as often as one was
written. -/
structure Slots where
  retired : Nat
  queue : List SlotState
  count : Nat
  sealing : Bool
  retiring : Retiring
  written : List Nat

inductive Event where
  | sealActive
  | account
  | claim (place : Nat)
  | finish (place : Nat)
  | remove
  | pop
  | free
deriving DecidableEq

namespace Slots

def fresh : Slots := ⟨0, [], 0, false, .idle, []⟩

def step (s : Slots) : Event → Option Slots
  | .sealActive => if s.sealing then none
    else some { s with queue := s.queue ++ [.pending], sealing := true }
  | .account => if s.sealing then some { s with count := s.count + 1, sealing := false } else none
  | .claim k => if s.queue[k]? = some .pending then some { s with queue := s.queue.set k .inFlight }
    else none
  | .finish k => if s.queue[k]? = some .inFlight then some { s with
      queue := s.queue.set k .completed
      written := s.written ++ [s.retired + k] }
    else none
  | .remove => if s.retiring = .idle ∧ s.queue[0]? = some .completed then
      some { s with retiring := .removed }
    else none
  | .pop => if s.retiring = .removed then
      some { s with retired := s.retired + 1, queue := s.queue.tail, retiring := .popped }
    else none
  | .free => if s.retiring = .popped then some { s with count := s.count - 1, retiring := .idle }
    else none

def Removed (s : Slots) (i : Nat) : Prop := i < s.retired ∨ s.retiring = .removed ∧ i = s.retired

def Counted (s : Slots) (ev : Event) : Prop := ev = .free → s.count ≠ 0

instance (s : Slots) (ev : Event) : Decidable (s.Counted ev) :=
  inferInstanceAs (Decidable (ev = .free → s.count ≠ 0))

def writes (s : Slots) (i : Nat) : Nat :=
  if i < s.retired ∨ s.queue[i - s.retired]? = some .completed then 1 else 0

structure Inv (s : Slots) : Prop where
  written : ∀ i, s.written.count i = s.writes i
  removed : s.retiring = .removed → s.queue[0]? = some .completed
  counted : s.count + s.sealing.toNat = s.queue.length + if s.retiring = .popped then 1 else 0

variable {s s' : Slots} {ev : Event}

theorem Inv.step (h : s.Inv) (hok : s.Counted ev) (hs : s.step ev = some s') : s'.Inv := by
  obtain ⟨hw, hr, hc⟩ := h
  unfold writes at hw
  cases ev with
  | sealActive =>
    obtain ⟨hseal, rfl⟩ : s.sealing = false ∧ _ := by simpa [Slots.step] using hs
    refine ⟨fun i => (hw i).trans ?_, fun h => ?_, by simp_all; omega⟩
    · unfold writes
      grind
    · grind
  | account =>
    obtain ⟨hseal, rfl⟩ : s.sealing = true ∧ _ := by simpa [Slots.step] using hs
    exact ⟨hw, hr, by simp_all⟩
  | claim k =>
    obtain ⟨hk, rfl⟩ : s.queue[k]? = some .pending ∧ _ := by simpa [Slots.step] using hs
    refine ⟨fun i => (hw i).trans ?_, fun h => ?_, by simpa using hc⟩
    · unfold writes
      grind
    · grind
  | finish k =>
    obtain ⟨hk, rfl⟩ : s.queue[k]? = some .inFlight ∧ _ := by simpa [Slots.step] using hs
    refine ⟨fun i => ?_, fun h => ?_, by simpa using hc⟩
    · unfold writes
      grind
    · grind
  | remove =>
    obtain ⟨⟨hidle, hdone⟩, rfl⟩ :
        (s.retiring = .idle ∧ s.queue[0]? = some .completed) ∧ _ := by simpa [Slots.step] using hs
    exact ⟨hw, fun _ => hdone, by simp_all⟩
  | pop =>
    obtain ⟨hret, rfl⟩ : s.retiring = .removed ∧ _ := by simpa [Slots.step] using hs
    refine ⟨fun i => (hw i).trans ?_, nofun, ?_⟩
    · unfold writes
      grind
    · grind
  | free =>
    obtain ⟨hret, rfl⟩ : s.retiring = .popped ∧ _ := by simpa [Slots.step] using hs
    have := hok rfl
    refine ⟨hw, nofun, ?_⟩
    simp only [hret, if_true, reduceCtorEq, if_false] at hc ⊢
    omega

def work (s : Slots) : Nat :=
  3 * s.queue.length + 2 * s.queue.count .pending + s.queue.count .inFlight + s.sealing.toNat +
    match s.retiring with
    | .idle => 2
    | .removed => 1
    | .popped => 3

theorem Inv.work_lt (h : s.Inv) (hev : ev ≠ .sealActive) (hs : s.step ev = some s') :
    s'.work < s.work := by
  unfold work
  cases ev with
  | sealActive => exact absurd rfl hev
  | account =>
    obtain ⟨hseal, rfl⟩ : s.sealing = true ∧ _ := by simpa [Slots.step] using hs
    simp [hseal]
  | claim k =>
    obtain ⟨hk, rfl⟩ : s.queue[k]? = some .pending ∧ _ := by simpa [Slots.step] using hs
    grind
  | finish k =>
    obtain ⟨hk, rfl⟩ : s.queue[k]? = some .inFlight ∧ _ := by simpa [Slots.step] using hs
    grind
  | remove =>
    obtain ⟨⟨hidle, -⟩, rfl⟩ : (s.retiring = .idle ∧ _) ∧ _ := by simpa [Slots.step] using hs
    simp [hidle]
  | pop =>
    obtain ⟨hret, rfl⟩ : s.retiring = .removed ∧ _ := by simpa [Slots.step] using hs
    have hdone := h.removed hret
    cases hq : s.queue with
    | nil => simp [hq] at hdone
    | cons slot rest =>
      obtain rfl : slot = .completed := by simpa [hq] using hdone
      simp [hret]
      omega
  | free =>
    obtain ⟨hret, rfl⟩ : s.retiring = .popped ∧ _ := by simpa [Slots.step] using hs
    simp [hret]

theorem Inv.drained (h : s.Inv) (hstuck : ∀ ev, ev ≠ .sealActive → s.step ev = none) :
    s.queue = [] ∧ s.count = 0 := by
  have hseal : s.sealing = false := by simpa [Slots.step] using hstuck .account nofun
  have hpop : s.retiring ≠ .removed := by simpa [Slots.step] using hstuck .pop nofun
  have hfree : s.retiring ≠ .popped := by simpa [Slots.step] using hstuck .free nofun
  have hidle : s.retiring = .idle := by
    cases hr : s.retiring with
    | idle => rfl
    | removed => exact absurd hr hpop
    | popped => exact absurd hr hfree
  have hq : s.queue = [] := by
    cases hq : s.queue with
    | nil => rfl
    | cons slot rest =>
      cases slot with
      | pending => simpa [Slots.step, hq] using hstuck (.claim 0) nofun
      | inFlight => simpa [Slots.step, hq] using hstuck (.finish 0) nofun
      | completed => simpa [Slots.step, hq, hidle] using hstuck .remove nofun
  exact ⟨hq, by simpa [hseal, hidle, hq] using h.counted⟩

/-- **Sealed, flushed, retired.** In every run in which a memtable is counted before it is taken off
the count: an SSTable is written once for each completed memtable, a segment is gone only when its
memtable's and all older SSTables are registered, and with nothing half done the count is the length
of the queue.  Without another seal the steps end, with nothing counted. -/
theorem count_eq_length {evs : List Event} (hr : Run step Counted fresh evs s) :
    (∀ i, s.written.count i = s.writes i) ∧
    (∀ i j, s.Removed i → j ≤ i → j ∈ s.written) ∧
    (s.sealing = false → s.retiring = .idle → s.count = s.queue.length) ∧
    (∀ ev s', ev ≠ .sealActive → s.step ev = some s' → s'.work < s.work) ∧
    ((∀ ev, ev ≠ .sealActive → s.step ev = none) → s.queue = [] ∧ s.count = 0) := by
  have h : s.Inv := hr.invariant (I := fun _ s => s.Inv) ⟨by simp [fresh, writes], nofun, rfl⟩
    fun _ _ _ _ h hok hs => h.step hok hs
  refine ⟨h.written, fun i j hi hj => ?_, fun hseal hidle => ?_, fun _ _ => h.work_lt, h.drained⟩
  · rw [← count_pos_iff, h.written, writes, if_pos]
    · exact Nat.one_pos
    · rcases hi with hi | ⟨hret, rfl⟩
      · exact .inl (Nat.lt_of_le_of_lt hj hi)
      · rcases Nat.lt_or_eq_of_le hj with hj | rfl
        · exact .inl hj
        · exact .inr (by simpa using h.removed hret)
  · simpa [hseal, hidle] using h.counted

def overtakingEvents : List Event :=
  [.sealActive, .account, .sealActive, .claim 1, .claim 0, .finish 1, .account, .finish 0, .remove,
    .pop, .free]

theorem count_overtakingEvents : ∃ s, Run step Counted fresh overtakingEvents s ∧
    s.count = s.queue.length := by
  refine Run.exists_of_exec (p := fun s => s.sealing = false ∧ s.retiring = .idle)
    (by decide +kernel) fun s hr hs => ?_
  exact (count_eq_length hr).2.2.1 hs.1 hs.2

/-- The memtable is flushed and retired between its push and its count: nothing is half done, the
queue is empty, and the count stays at one. -/
theorem count_uncountedEvents :
    (exec step fresh [.sealActive, .claim 0, .finish 0, .remove, .pop, .free, .account]).any
      (fun s => !s.sealing && s.retiring = .idle && s.queue.isEmpty && s.count = 1) = true := rfl

end Slots

end Dtdb.Storage.FlushCount
