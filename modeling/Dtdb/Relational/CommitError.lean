import Mathlib.Data.Finset.Basic
import Dtdb.Relational.Logged
import Dtdb.Storage.Engine

/-! # Commits that fail

The closure that `validate_and_commit` runs: log the record, write the engines, and checkpoint when
the log is long.  Nothing is undone when an operation fails, so the transaction is in the engines or
comes back with the next restart. -/

namespace Dtdb.Relational

open Dtdb.Lib Dtdb.Storage List Option

def checkpointLogThreshold : Nat := 4 * 1024 * 1024

inductive LogFrame where
  | record (r : Prepared)
  | torn

/-- The records that `recover` reads: up to the first torn frame. -/
def readableRecords : List LogFrame → List Prepared
  | .record r :: file => r :: readableRecords file
  | .torn :: _ => []
  | [] => []

inductive Written where
  | nothing
  | part
  | whole
deriving DecidableEq

def Written.frames (r : Prepared) : Written → List LogFrame
  | .nothing => []
  | .part => [.torn]
  | .whole => [.record r]

/-- What fails: the append to the log, an engine's write (perhaps after the memtable), a sync in the
checkpoint, or opening the new log. -/
inductive CommitFault where
  | append (written : Written)
  | write (i : Nat) (applied : Bool)
  | sync
  | reopen (removed : Bool)
deriving DecidableEq

/-- What a commit writes; `opened` is whether `transaction_log` is `Some`. -/
structure TxStore where
  engines : String → Engines
  file : List LogFrame
  opened : Bool
  size : Nat
  active : Finset Nat

def applyWrites (engines : String → Engines) (ws : List ((String × EngineName) × Batch)) :
    String → Engines :=
  fun name n => (engines name n).applyAll (batchFor ws (name, n))

/-- The engine writes of a record, table by table; `none` is a panic. -/
def Prepared.engineWrites (tok : Tokenizers) (tables : SortedMap String Table) (r : Prepared) :
    Option (List ((String × EngineName) × Batch)) :=
  (r.mutations.mapM fun x => (tables.get x.1).bind fun t =>
    (t.batches tok x.2 (r.forTable x.1).oldRow).map fun bs =>
      bs.map fun y => ((x.1, y.1), y.2)).map flatten

namespace TxStore

def records (s : TxStore) : List Prepared := readableRecords s.file

def transactionLogLen (s : TxStore) : Nat := if s.opened then s.size else 0

def andThen (r : TxStore × Bool) (f : TxStore → TxStore × Bool) : TxStore × Bool :=
  if r.2 then f r.1 else r

section

variable (frameSize : Prepared → Nat) (fault : Option CommitFault)

/-- `append_record`; without a log there is nothing to do. -/
def appendRecord (s : TxStore) (r : Prepared) : TxStore × Bool :=
  if s.opened then
    match fault with
    | some (.append written) => ({ s with
        file := s.file ++ written.frames r
        size := if written = .whole then s.size + frameSize r else s.size }, false)
    | _ => ({ s with
        file := s.file ++ [.record r]
        size := s.size + frameSize r }, true)
  else (s, true)

def writeTransactionRecord (s : TxStore) (r : Prepared) : TxStore × Bool :=
  appendRecord frameSize fault { s with active := insert r.txId s.active } r

def writeBatches (s : TxStore) (ws : List ((String × EngineName) × Batch)) : TxStore × Bool :=
  match fault with
  | some (.write i applied) =>
    if i < ws.length then
      ({ s with engines := applyWrites s.engines (ws.take (if applied then i + 1 else i)) }, false)
    else ({ s with engines := applyWrites s.engines ws }, true)
  | _ => ({ s with engines := applyWrites s.engines ws }, true)

/-- `checkpoint_locked`; the old handle is dropped first. -/
def checkpointLocked (s : TxStore) : TxStore × Bool :=
  match fault with
  | some .sync => (s, false)
  | _ =>
    if s.opened then
      match fault with
      | some (.reopen removed) => ({ s with
          opened := false
          file := if removed then [] else s.file }, false)
      | _ => ({ s with
          file := []
          size := headerLen }, true)
    else (s, true)

def CheckpointDue (s : TxStore) : Prop :=
  s.active = ∅ ∧ checkpointLogThreshold ≤ s.transactionLogLen

instance (s : TxStore) : Decidable s.CheckpointDue :=
  inferInstanceAs (Decidable (s.active = ∅ ∧ checkpointLogThreshold ≤ s.transactionLogLen))

def removeActive (s : TxStore) (id : Nat) : TxStore := { s with active := s.active.erase id }

def commitTransaction (s : TxStore) (id : Nat) : TxStore × Bool :=
  if (s.removeActive id).CheckpointDue then (s.removeActive id).checkpointLocked fault
  else (s.removeActive id, true)

/-- The commit closure; the flag says whether it returned `Ok`. -/
def commitClosure (tok : Tokenizers) (tables : SortedMap String Table) (s : TxStore) (r : Prepared) :
    Option (TxStore × Bool) :=
  (r.engineWrites tok tables).map fun ws =>
    andThen (s.writeTransactionRecord frameSize fault r) fun s =>
      andThen (s.writeBatches fault ws) fun s => s.commitTransaction fault r.txId

end

/-! ## What the log is good for -/

/-- Commits are logged and checkpoints are made. -/
structure Ready (s : TxStore) : Prop where
  opened : s.opened = true
  intact : .torn ∉ s.file
  idle : s.active = ∅

end TxStore

theorem readableRecords_append {file : List LogFrame} (h : .torn ∉ file) (r : Prepared) :
    readableRecords (file ++ [.record r]) = readableRecords file ++ [r] := by
  induction file with
  | nil => rfl
  | cons f file ih =>
    obtain ⟨hf, hfile⟩ := not_or.1 (mt mem_cons.2 h)
    cases f with
    | record r' => exact congrArg (r' :: ·) (ih hfile)
    | torn => exact absurd rfl hf

namespace TxStore

variable {frameSize : Prepared → Nat} {tok : Tokenizers} {tables : SortedMap String Table}
  {s s' : TxStore} {r : Prepared} {fault : Option CommitFault} {ok : Bool}

/-! ## What the closure does -/

/-- The store once the record is logged and all engines are written. -/
def applied (frameSize : Prepared → Nat) (s : TxStore) (r : Prepared)
    (ws : List ((String × EngineName) × Batch)) : TxStore where
  engines := applyWrites s.engines ws
  file := if s.opened then s.file ++ [.record r] else s.file
  opened := s.opened
  size := if s.opened then s.size + frameSize r else s.size
  active := insert r.txId s.active

theorem writeTransactionRecord_eq (h : s.opened = true → ∀ written, fault ≠ some (.append written))
    (ws : List ((String × EngineName) × Batch)) :
    s.writeTransactionRecord frameSize fault r
      = ({ s.applied frameSize r ws with engines := s.engines }, true) := by
  unfold writeTransactionRecord appendRecord applied
  cases hopened : s.opened with
  | false => simp
  | true =>
    rcases fault with _ | ⟨written⟩ | _ | _ | _
    · simp
    · exact absurd rfl (h hopened written)
    all_goals simp

theorem commitClosure_cases
    (h : s.commitClosure frameSize fault tok tables r = some (s', ok)) :
    ∃ ws, r.engineWrites tok tables = some ws ∧
      ((fault ≠ none ∧ fault ≠ some .sync ∧ r.txId ∈ s'.active) ∨
        (s.applied frameSize r ws).commitTransaction fault r.txId = (s', ok)) := by
  obtain ⟨ws, hws, h⟩ := map_eq_some_iff.1 h
  refine ⟨ws, hws, ?_⟩
  by_cases happend : s.opened = true ∧ ∃ written, fault = some (.append written)
  · obtain ⟨hopened, written, rfl⟩ := happend
    simp only [writeTransactionRecord, appendRecord, hopened, if_true, andThen, Bool.false_eq_true,
      if_false] at h
    cases h
    exact .inl ⟨nofun, nofun, Finset.mem_insert_self ..⟩
  · rw [writeTransactionRecord_eq (fun hopened written heq => happend ⟨hopened, written, heq⟩) ws,
      andThen, if_pos rfl] at h
    by_cases hwrite : ∃ i applied, fault = some (.write i applied) ∧ i < ws.length
    · obtain ⟨i, applied, rfl, hi⟩ := hwrite
      simp only [writeBatches, hi, if_true, andThen, Bool.false_eq_true] at h
      cases h
      exact .inl ⟨nofun, nofun, Finset.mem_insert_self ..⟩
    · have hwritten : writeBatches fault { s.applied frameSize r ws with engines := s.engines } ws
          = (s.applied frameSize r ws, true) := by
        unfold writeBatches
        split
        · next i applied _ =>
          rw [if_neg fun hi => hwrite ⟨i, applied, rfl, hi⟩]
          rfl
        · rfl
      rw [hwritten] at h
      exact .inr h

theorem CheckpointDue.opened (h : s.CheckpointDue) : s.opened = true := by
  by_contra hclosed
  have hlen := h.2
  unfold transactionLogLen at hlen
  rw [if_neg hclosed] at hlen
  exact absurd hlen (by decide)

theorem commitTransaction_cases {id : Nat} (h : s.commitTransaction fault id = (s', ok)) :
    (¬(s.removeActive id).CheckpointDue ∧ ok = true ∧ s' = s.removeActive id) ∨
    ((s.removeActive id).CheckpointDue ∧
      ((fault = some .sync ∧ ok = false ∧ s' = s.removeActive id) ∨
        (∃ removed, fault = some (.reopen removed) ∧ ok = false ∧ s'.opened = false) ∨
        (ok = true ∧ s' = ⟨s.engines, [], true, headerLen, s.active.erase id⟩))) := by
  unfold commitTransaction at h
  split at h
  · next hdue =>
    refine .inr ⟨hdue, ?_⟩
    unfold checkpointLocked at h
    rcases fault with _ | _ | _ | _ | removed
    all_goals
      simp only [hdue.opened] at h
      cases h
    · exact .inr (.inr ⟨rfl, rfl⟩)
    · exact .inr (.inr ⟨rfl, rfl⟩)
    · exact .inr (.inr ⟨rfl, rfl⟩)
    · exact .inl ⟨rfl, rfl, rfl⟩
    · exact .inr (.inl ⟨removed, rfl, rfl, rfl⟩)
  · next hdue =>
    cases h
    exact .inl ⟨hdue, rfl, rfl⟩

/-! ## A log that is ready -/

/-! ## A commit that returned an error -/

/-- Nothing is seen, now or after a restart, and later commits are logged. -/
structure Unseen (tok : Tokenizers) (tables : SortedMap String Table) (s s' : TxStore) : Prop where
  running : s'.engines = s.engines
  restarted : recoverTransactions tok tables s'.engines s'.records
    = recoverTransactions tok tables s.engines s.records
  ready : s'.Ready

end TxStore

open TxStore

def longLog : TxStore := ⟨fun _ _ => .empty, [], true, checkpointLogThreshold, ∅⟩

def deleteAbsent : Prepared := ⟨1, [("t", [(.string "x", none)])], some []⟩

theorem applyAll_deletes {b : Batch} (h : ∀ x ∈ b, x.2 = none) :
    (SortedMap.empty : Store).applyAll b = .empty := by
  ext k : 1
  rw [SortedMap.get_applyAll]
  cases hl : b.reverse.lookup k with
  | none => rfl
  | some v => exact h _ (mem_reverse.1 (mem_of_lookup hl))

theorem replay_deleteAbsent (tok : Tokenizers) :
    notes.replay tok [deleteAbsent.forTable "t"] (fun _ => .empty) = some fun _ => .empty := by
  have hwrites : (deleteAbsent.forTable "t").writes = [(.string "x", none)] := by decide
  have hnone : ∀ pk, (deleteAbsent.forTable "t").oldRow pk = none := fun _ => rfl
  have hfaithful : Faithful tok notes (fun _ => none) (deleteAbsent.forTable "t") := by
    refine ⟨?_, ?_, fun x _ row hrow => ?_, fun _ _ _ _ => nofun⟩
    · decide
    · rw [hwrites]
      simp
    · cases hrow
  have hrows : rowsAfter [deleteAbsent.forTable "t"] (fun _ => none) = fun _ => none := by
    funext pk
    show (lookup pk (deleteAbsent.forTable "t").writes).getD none = none
    rw [hwrites, lookup_cons_eq_ite]
    split <;> rfl
  have hempty : Represents tok notes (fun _ => .empty)
      (rowsAfter [deleteAbsent.forTable "t"] fun _ => none) := by
    rw [hrows]
    exact Represents.empty tok notes
  exact hempty.replay_again ⟨hfaithful, trivial⟩ nofun

def putRow : Prepared := ⟨1, [("t", [(.string "x", some [.string "x", .string "a"])])], some []⟩

end Dtdb.Relational
