import Dtdb.Storage.Disk
import Dtdb.Storage.FlushSteps

/-! # Crashes and reopens

The directory together with what runs on it: nothing, an open with operations left to do, or an
engine.  A crash may come between any two events. -/

namespace Dtdb.Storage

open Dtdb.Lib Option

variable {K V Λ : Type}

inductive Event (K V : Type) where
  | startOpen
  | openStep
  | crash (back : List Nat)
  | commit (entries : List (WalEntry K V))
  | sealActive
  | claim (walId : Nat)
  | finish (walId : Nat)
  | retire
  | compact (level : Nat)

namespace Event

def mutations : Event K V → List (Mutation K V)
  | .commit es => WalEntry.mutations es
  | _ => []

def acknowledged (evs : List (Event K V)) : List (Mutation K V) := evs.flatMap mutations

end Event

variable [LinearOrder K] [ByteSize K] [ByteSize V]

inductive Mode (K V Λ : Type) [LinearOrder K] [ByteSize K] [ByteSize V] where
  | down
  | opening (rest : List (DiskOp K V Λ)) (live : Live K V Λ)
  | up (live : Live K V Λ)

structure Machine (K V Λ : Type) [LinearOrder K] [ByteSize K] [ByteSize V] where
  disk : Disk K V Λ
  mode : Mode K V Λ

namespace Live

variable [DecidableEq Λ]

def step (cfg : Config K V Λ) (d : Disk K V Λ) (u : Live K V Λ) :
    Event K V → Option (List (DiskOp K V Λ) × Live K V Λ)
  | .commit es =>
    some ([.appendSegment u.engine.activeWalId es], { u with engine := u.engine.commit cfg es })
  | .sealActive =>
    some (if u.engine.active.isEmpty then [] else [.createSegment u.engine.nextWalId, .syncDir],
      { u with engine := u.engine.sealActive })
  | .claim w => (u.engine.claimFlush w).map fun e => ([], { u with engine := e })
  | .finish w => do
    let e ← u.engine.finishFlush w
    let i ← u.engine.immutable.find? fun i => i.walId = w
    let x := flushOps d.manifest u.manifest (u.engine.immReader i)
    return (x.1, ⟨e, x.2⟩)
  | .retire => do
    let e ← u.engine.retireOldest
    let i ← u.engine.immutable.getLast?
    return ([.removeSegment i.walId, .syncDir], { u with engine := e })
  | .compact n => do
    let e ← (u.engine.compactLevel cfg n).toOption
    match ← (u.engine.compaction cfg n).toOption with
    | some c =>
      let x := compactOps d.manifest u.manifest c
      return (x.1, ⟨e, x.2⟩)
    | none => return ([], u)
  | _ => none

end Live

namespace Machine

def fresh : Machine K V Λ := ⟨.empty, .down⟩

variable [DecidableEq Λ]

def step (cfg : Config K V Λ) (s : Machine K V Λ) (ev : Event K V) : Option (Machine K V Λ) :=
  match ev, s.mode with
  | .crash back, _ =>
    if ∀ id ∈ back, id ∈ s.disk.unsynced.map Prod.fst then some ⟨s.disk.crash back, .down⟩ else none
  | .startOpen, .down => (openPlan cfg s.disk).map fun x => ⟨s.disk, .opening x.1 x.2⟩
  | .openStep, .opening [] u => some ⟨s.disk, .up u⟩
  | .openStep, .opening (op :: rest) u => some ⟨s.disk.exec op, .opening rest u⟩
  | ev, .up u => (u.step cfg s.disk ev).map fun x => ⟨x.1.foldl Disk.exec s.disk, .up x.2⟩
  | _, _ => none

end Machine

end Dtdb.Storage
