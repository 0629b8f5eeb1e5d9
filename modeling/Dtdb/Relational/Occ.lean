import Mathlib.Data.Finset.Basic
import Mathlib.Data.Finset.Union
import Dtdb.Lib.Run
import Dtdb.Lib.SortedMap

/-! # Optimistic concurrency control

The commit history, the versions, and what each transaction read and wants to write.  A commit
validates, reads the smallest registered start version, and then, under the history's write lock,
validates what came in between, appends its record and prunes. -/

namespace Dtdb.Relational

open Dtdb.Lib

inductive IsolationLevel where
  | readUncommitted
  | readCommitted
  | repeatableRead
  | snapshotIsolation
deriving DecidableEq

def IsolationLevel.registers : IsolationLevel → Bool
  | .readUncommitted | .readCommitted => false
  | .repeatableRead | .snapshotIsolation => true

variable {N K : Type} [DecidableEq N] [LinearOrder K]

structure CommitRecord (N K : Type) where
  version : Nat
  keys : Finset (N × K)

structure Footprint (N K : Type) where
  reads : Finset (N × K)
  ranges : List (N × K × K)
  writes : Finset (N × K)

/-- Whether a commit that wrote `keys` touches the footprint. -/
def Footprint.Conflicts (f : Footprint N K) (keys : Finset (N × K)) : Prop :=
  (∃ x ∈ f.reads, x ∈ keys) ∨
    (∃ r ∈ f.ranges, ∃ x ∈ keys, x.1 = r.1 ∧ r.2.1 ≤ x.2 ∧ x.2 ≤ r.2.2) ∨
    ∃ x ∈ f.writes, x ∈ keys

instance (f : Footprint N K) (keys : Finset (N × K)) : Decidable (f.Conflicts keys) :=
  inferInstanceAs (Decidable (_ ∨ _ ∨ _))

/-- How far a transaction's commit or its end has got. -/
inductive Phase (N K : Type) where
  | running
  /-- Validated up to a version. -/
  | validated (writes : Finset (N × K)) (snapshotMax : Nat)
  /-- The smallest registered start version is read. -/
  | limited (writes : Finset (N × K)) (snapshotMax : Nat) (minStart : Option Nat)
  /-- Unregistered, with the smallest start version of the others. -/
  | leaving (minStart : Option Nat)
  /-- `alone` when no other transaction was registered. -/
  | pruning (alone : Bool) (limit : Nat)
  | gone

/-- A transaction; `buffer` are the keys of its write buffer. -/
structure Tx (N K : Type) where
  level : IsolationLevel
  start : Nat
  reads : Finset (N × K)
  ranges : List (N × K × K)
  buffer : Finset (N × K)
  phase : Phase N K

inductive Access (N K : Type) where
  | get (name : N) (key : K)
  | filteredScan (name : N) (lo hi : K) (seen : List K)
  | scanIter (name : N) (lo hi : K)
  | nextKey (name : N) (key : K)
  | write (name : N) (key : K)
  | rollback

namespace Tx

def footprint (t : Tx N K) (writes : Finset (N × K)) : Footprint N K := ⟨t.reads, t.ranges, writes⟩

def addRange (t : Tx N K) (name : N) (lo hi : K) : Tx N K :=
  if t.level = .snapshotIsolation then { t with ranges := t.ranges ++ [(name, lo, hi)] } else t

/-- Reads are tracked past the transaction's own writes; scan iterators track keys under repeatable
read, ranges under snapshot isolation. -/
def access (t : Tx N K) : Access N K → Tx N K
  | .get name key =>
    if (name, key) ∉ t.buffer ∧ t.level.registers then { t with reads := insert (name, key) t.reads }
    else t
  | .filteredScan name lo hi seen =>
    let t := t.addRange name lo hi
    if t.level.registers then { t with reads := t.reads ∪ (seen.map (Prod.mk name)).toFinset } else t
  | .scanIter name lo hi => t.addRange name lo hi
  | .nextKey name key =>
    if t.level = .repeatableRead then { t with reads := insert (name, key) t.reads } else t
  | .write name key => { t with buffer := insert (name, key) t.buffer }
  | .rollback => { t with buffer := ∅ }

def writeKeys (t : Tx N K) (indexKeys : Finset (N × K)) : Finset (N × K) :=
  if t.buffer = ∅ then ∅ else t.buffer ∪ indexKeys

end Tx

/-- A committed transaction and the version it was validated against last. -/
structure Commit (N K : Type) where
  level : IsolationLevel
  start : Nat
  footprint : Footprint N K
  upTo : Nat

/-- `commits` and `finished` keep what the history forgets. -/
structure Occ (N K : Type) where
  version : Nat
  history : List (CommitRecord N K)
  active : SortedMap Nat Nat
  txs : SortedMap Nat (Tx N K)
  commits : List (CommitRecord N K)
  finished : List (Commit N K)

inductive Action (N K : Type) where
  | access (a : Access N K)
  | validate (indexKeys : Finset (N × K))
  | readMin
  | apply
  | unregister
  | loadLimit
  | prune

inductive OccStep (N K : Type) where
  | begin (id : Nat) (level : IsolationLevel)
  | act (id : Nat) (a : Action N K)

namespace Occ

def fresh : Occ N K := ⟨0, [], .empty, .empty, [], []⟩

def setTx (s : Occ N K) (id : Nat) (t : Tx N K) : Occ N K := { s with txs := s.txs.insert id t }

/-- No record past `above` conflicts with the footprint. -/
def Clear (s : Occ N K) (above : Nat) (f : Footprint N K) : Prop :=
  ∀ r ∈ s.history, above < r.version → ¬f.Conflicts r.keys

instance (s : Occ N K) (above : Nat) (f : Footprint N K) : Decidable (s.Clear above f) :=
  inferInstanceAs (Decidable (∀ r ∈ s.history, above < r.version → ¬f.Conflicts r.keys))

def snapshotMax (s : Occ N K) (start : Nat) : Nat := (s.history.map (·.version)).max?.getD start

def minStart (active : SortedMap Nat Nat) : Option Nat := (active.entries.map Prod.snd).min?

def beginTx (s : Occ N K) (id : Nat) (level : IsolationLevel) : Occ N K :=
  { s with
    active := if level.registers then s.active.insert id s.version else s.active
    txs := s.txs.insert id ⟨level, s.version, ∅, [], ∅, .running⟩ }

/-- The first phase of `validate_and_commit`, or `validate_read_only`. -/
def validate (s : Occ N K) (id : Nat) (t : Tx N K) (indexKeys : Finset (N × K)) : Occ N K :=
  let writes := t.writeKeys indexKeys
  if s.Clear t.start (t.footprint writes) then
    if writes = ∅ then
      { s with finished := ⟨t.level, t.start, t.footprint ∅, s.version⟩ :: s.finished }
    else s.setTx id { t with phase := .validated writes (s.snapshotMax t.start) }
  else s

def appendPruned (s : Occ N K) (writes : Finset (N × K)) (min : Option Nat) :
    List (CommitRecord N K) :=
  (s.history ++ [CommitRecord.mk (s.version + 1) writes]).filter fun r => min.getD (s.version + 1) ≤ r.version

/-- The second phase, with a commit closure that succeeds. -/
def apply (s : Occ N K) (id : Nat) (t : Tx N K) (writes : Finset (N × K)) (snapshotMax : Nat)
    (min : Option Nat) : Occ N K :=
  if s.Clear snapshotMax (t.footprint writes) then
    { version := s.version + 1
      history := s.appendPruned writes min
      active := s.active
      txs := s.txs.insert id { t with buffer := ∅, phase := .running }
      commits := ⟨s.version + 1, writes⟩ :: s.commits
      finished := ⟨t.level, t.start, t.footprint writes, s.version⟩ :: s.finished }
  else s.setTx id { t with phase := .running }

/-- `unregister_transaction` up to its read of the other start versions. -/
def unregister (s : Occ N K) (id : Nat) (t : Tx N K) : Occ N K :=
  { s with
    active := s.active.erase id
    txs := s.txs.insert id { t with phase := .leaving (minStart (s.active.erase id)) } }

def prune (s : Occ N K) (id : Nat) (t : Tx N K) (limit : Nat) : Occ N K :=
  { s with
    history := s.history.filter fun r => limit ≤ r.version
    txs := s.txs.insert id { t with phase := .gone } }

/-- One action of the transaction `t`; `none` when it is not its turn. -/
def act (s : Occ N K) (id : Nat) (t : Tx N K) (a : Action N K) : Option (Occ N K) :=
  match a, t.phase with
  | .access a, .running => some (s.setTx id (t.access a))
  | .validate indexKeys, .running => some (s.validate id t indexKeys)
  | .readMin, .validated writes snapshotMax =>
    some (s.setTx id { t with phase := .limited writes snapshotMax (minStart s.active) })
  | .apply, .limited writes snapshotMax min => some (s.apply id t writes snapshotMax min)
  | .unregister, .running => some (s.unregister id t)
  | .loadLimit, .leaving min =>
    some (s.setTx id { t with phase := .pruning min.isNone (min.getD s.version) })
  | .prune, .pruning _ limit => some (s.prune id t limit)
  | _, _ => none

def step (s : Occ N K) : OccStep N K → Option (Occ N K)
  | .begin id level => if (s.txs.get id).isSome then none else some (s.beginTx id level)
  | .act id a => (s.txs.get id).bind fun t => s.act id t a

/-- A prune whose limit was taken while nobody was registered drops nothing that is still needed. -/
def ActSafe (s : Occ N K) (t : Tx N K) (a : Action N K) : Prop :=
  match a, t.phase with
  | .apply, .limited _ _ none => ∀ x ∈ s.active.entries, s.version ≤ x.2
  | .prune, .pruning true limit => ∀ x ∈ s.active.entries, limit ≤ x.2 + 1
  | _, _ => True

def StepSafe (s : Occ N K) : OccStep N K → Prop
  | .begin _ _ => True
  | .act id a => ∀ t ∈ s.txs.get id, s.ActSafe t a

end Occ

end Dtdb.Relational
