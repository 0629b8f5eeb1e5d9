import Mathlib.Data.List.Basic
import Mathlib.Logic.Function.Basic

/-! # Reader-writer locks

A lock that many readers or one writer hold.  While a writer is parked no reader enters.  `mode`
says how a party stands to the lock: an operation moves one party. -/

namespace Dtdb.Lib

inductive LockMode where
  | out
  | reading
  | parked
  | writing
  deriving DecidableEq, Repr

inductive LockOp where
  | read
  | unread
  | park
  | write
  | unwrite
  deriving DecidableEq, Repr

def LockOp.target : LockOp → LockMode
  | .read => .reading
  | .unread | .unwrite => .out
  | .park => .parked
  | .write => .writing

structure RwLock (P : Type) where
  writer : Option P
  readers : List P
  parked : List P
  exclusive : ∀ p ∈ writer, readers = [] ∧ p ∉ parked
  apart : ∀ p ∈ parked, p ∉ readers

namespace RwLock

variable {P : Type}

def free : RwLock P := ⟨none, [], [], nofun, nofun⟩

variable [DecidableEq P]

def mode (l : RwLock P) (p : P) : LockMode :=
  if l.writer = some p then .writing
  else if p ∈ l.readers then .reading
  else if p ∈ l.parked then .parked
  else .out

variable {l l' : RwLock P} {p q : P}

theorem mode_writing : l.mode p = .writing ↔ l.writer = some p := by
  unfold mode
  split
  · next h => simp [h]
  · next h => split <;> [skip; split] <;> simp [h]

theorem mode_reading : l.mode p = .reading ↔ p ∈ l.readers := by
  unfold mode
  split
  · next h => simp [(l.exclusive p h).1]
  · split
    · next h => simp [h]
    · next h => split <;> simp [h]

theorem mode_parked : l.mode p = .parked ↔ p ∈ l.parked := by
  unfold mode
  split
  · next h => simp [(l.exclusive p h).2]
  · split
    · next h => simpa using fun hp => l.apart p hp h
    · split <;> simp_all

theorem mode_out : l.mode p = .out ↔ l.writer ≠ some p ∧ p ∉ l.readers ∧ p ∉ l.parked := by
  unfold mode
  split
  · next h => simp [h]
  · next h => split <;> [skip; split] <;> simp_all

/-! ## Operations -/

/-- Grant the operation, or `none` while the party has to wait. -/
def apply (l : RwLock P) (p : P) : LockOp → Option (RwLock P)
  | .read =>
    if h : l.writer = none ∧ l.parked = [] ∧ p ∉ l.readers then
      some { l with
        readers := p :: l.readers
        exclusive := by simp [h.1]
        apart := by simp [h.2.1] }
    else none
  | .unread =>
    if l.mode p = .reading then
      some { l with
        readers := l.readers.filter (· ≠ p)
        exclusive := fun q hq => ⟨by simp [(l.exclusive q hq).1], (l.exclusive q hq).2⟩
        apart := fun q hq hr => l.apart q hq (List.mem_of_mem_filter hr) }
    else none
  | .park =>
    if h : l.mode p = .out then
      some { l with
        parked := p :: l.parked
        exclusive := fun q hq => ⟨(l.exclusive q hq).1, by
          rw [List.mem_cons, not_or]
          refine ⟨fun heq => (mode_out.mp h).1 ?_, (l.exclusive q hq).2⟩
          rw [← heq]
          exact hq⟩
        apart := fun q hq => by
          rcases List.mem_cons.mp hq with rfl | hq
          · exact (mode_out.mp h).2.1
          · exact l.apart q hq }
    else none
  | .write =>
    if h : l.writer = none ∧ l.readers = [] then
      some { l with
        writer := some p
        parked := l.parked.filter (· ≠ p)
        exclusive := by simp [h.2]
        apart := by simp [h.2] }
    else none
  | .unwrite =>
    if l.mode p = .writing then
      some { l with
        writer := none
        exclusive := nofun }
    else none

theorem mode_apply {op : LockOp} (h : l.apply p op = some l') :
    l'.mode = Function.update l.mode p op.target := by
  funext q
  cases op with
  | read =>
    simp only [apply] at h
    split at h <;> cases h
    next hok =>
    by_cases hq : q = p
    · simp [hq, mode, hok.1, LockOp.target]
    · simp [hq, mode]
  | unread =>
    simp only [apply] at h
    split at h <;> cases h
    next hok =>
    by_cases hq : q = p
    · have hin := mode_reading.1 hok
      have hw : l.writer ≠ some p := fun hw => by simp [(l.exclusive p hw).1] at hin
      have hp : p ∉ l.parked := fun hp => l.apart p hp hin
      simp [hq, mode, hw, hp, LockOp.target]
    · simp [hq, mode]
  | park =>
    simp only [apply] at h
    split at h <;> cases h
    next hok =>
    by_cases hq : q = p
    · have hout := mode_out.1 hok
      simp [hq, mode, hout.1, hout.2.1, LockOp.target]
    · simp [hq, mode]
  | write =>
    simp only [apply] at h
    split at h <;> cases h
    next hok =>
    by_cases hq : q = p
    · simp [hq, mode, LockOp.target]
    · simp [hq, mode, hok.1, Ne.symm hq]
  | unwrite =>
    simp only [apply] at h
    split at h <;> cases h
    next hok =>
    have hw := mode_writing.1 hok
    have hex := l.exclusive p hw
    by_cases hq : q = p
    · simp [hq, mode, hex.1, hex.2, LockOp.target]
    · simp [hq, mode, hw, Ne.symm hq]

def perform (l : RwLock P) (p : P) : Option LockOp → Option (RwLock P)
  | none => some l
  | some op => l.apply p op

theorem mode_perform {op : Option LockOp} (h : l.perform p op = some l') :
    l'.mode = Function.update l.mode p ((op.map LockOp.target).getD (l.mode p)) := by
  cases op with
  | none =>
    cases h
    exact (Function.update_eq_self p l.mode).symm
  | some op => exact mode_apply h

theorem eq_of_mode_writing (hp : l.mode p = .writing)
    (hq : l.mode q = .writing ∨ l.mode q = .reading) : q = p := by
  have hw := mode_writing.1 hp
  rcases hq with hq | hq
  · have := (mode_writing.1 hq).symm.trans hw
    exact Option.some.inj this
  · have := mode_reading.1 hq
    rw [(l.exclusive p hw).1] at this
    cases this

/-! ## When an operation is granted -/

theorem granted_or {Q : Prop} (hheld : ∀ q, l.mode q = .writing ∨ l.mode q = .reading → Q)
    (hparked : ∀ q, l.mode q = .parked → (∃ l', l.apply q .write = some l') → Q) :
    Q ∨ ∀ p op, op = .read ∨ op = .write → ∃ l', l.apply p op = some l' := by
  by_cases hfree : l.writer = none ∧ l.readers = []
  · have hwrite : ∀ q, ∃ l', l.apply q .write = some l' := fun q => by
      simp only [apply, hfree, and_self]
      exact ⟨_, rfl⟩
    cases hk : l.parked with
    | cons q qs => exact .inl (hparked q (mode_parked.2 (by simp [hk])) (hwrite q))
    | nil =>
      refine .inr fun p op hop => ?_
      rcases hop with rfl | rfl
      · simp only [apply, hfree, hk, List.not_mem_nil, not_false_eq_true, and_self]
        exact ⟨_, rfl⟩
      · exact hwrite p
  · left
    cases hw : l.writer with
    | some q => exact hheld q (.inl (mode_writing.2 hw))
    | none =>
      obtain ⟨q, hq⟩ := List.exists_mem_of_ne_nil _ fun hnil => hfree ⟨hw, hnil⟩
      exact hheld q (.inr (mode_reading.2 hq))

theorem exists_unread (h : l.mode p = .reading) : ∃ l', l.apply p .unread = some l' := by
  simp only [apply, h]
  exact ⟨_, rfl⟩

theorem exists_unwrite (h : l.mode p = .writing) : ∃ l', l.apply p .unwrite = some l' := by
  simp only [apply, h]
  exact ⟨_, rfl⟩

end RwLock

end Dtdb.Lib
