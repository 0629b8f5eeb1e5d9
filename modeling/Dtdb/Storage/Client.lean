import Dtdb.Storage.CompactLoop
import Dtdb.Storage.Interleaving

/-! # One client and the executor

A client calls the engine's operations one at a time; the executor's workers flush and compact.
Every move of the system is a step of the interleaving model or leaves the engine alone. -/

namespace Dtdb.Storage

open Dtdb.Lib List Option

variable {K V Λ : Type}

inductive Op (K V : Type) where
  | put (key : K) (value : V)
  | delete (key : K)
  | writeBatch (entries : List (WalEntry K V))
  | flushMemtable
  | compact
  | compactIfNeeded

namespace Op

/-- The batch an operation hands to `execute_write`. -/
def entries : Op K V → List (WalEntry K V)
  | .put k v => [.put k v]
  | .delete k => [.delete k]
  | .writeBatch es => es
  | _ => []

def mutations (op : Op K V) : List (Mutation K V) := WalEntry.mutations op.entries

end Op

/-- `full` tells `compact` from `flush_memtable` and `compact_if_needed`. -/
inductive Phase (K V : Type) where
  | idle
  | write (entries : List (WalEntry K V))
  | sealFull
  | drain (full : Bool)
  | flushOne (walId : Nat) (full : Bool)
  | flushing (walId : Nat) (full : Bool)
  | retiring (full : Bool)
  | lock (full : Bool)
  | compactFirst
  | compactLoop

def Phase.uncommitted : Phase K V → List (Mutation K V)
  | .write es => WalEntry.mutations es
  | _ => []

def Phase.isIdle : Phase K V → Bool
  | .idle => true
  | _ => false

theorem Phase.uncommitted_of_isIdle {p : Phase K V} (h : p.isIdle) : p.uncommitted = [] := by
  cases p with
  | idle => rfl
  | _ => cases h

def Phase.compacts : Phase K V → Bool
  | .compactFirst | .compactLoop => true
  | _ => false

inductive Move (K V : Type) where
  | call (op : Op K V)
  | client
  | startFlush (walId : Nat)
  | writeFlush (walId : Nat)
  | retireFlush (walId : Nat)
  | startCompact
  | compactTurn

namespace Move

def mutations : Move K V → List (Mutation K V)
  | .call op => op.mutations
  | _ => []

def called (ms : List (Move K V)) : List (Mutation K V) := ms.flatMap mutations

end Move

variable [LinearOrder K] [ByteSize K] [ByteSize V]

/-- The engine, its client and the executor's work on it. -/
structure System (K V Λ : Type) [LinearOrder K] [ByteSize K] [ByteSize V] where
  engine : Engine K V Λ
  client : Phase K V
  /-- Segments whose background flush is submitted. -/
  flushTasks : List Nat
  /-- Segments whose slot a worker owns. -/
  flushing : List Nat
  /-- Segments whose worker is about to retire. -/
  retiring : List Nat
  /-- Whether a background compaction is submitted. -/
  compactTask : Bool
  /-- Whether a worker holds the compaction mutex. -/
  compacting : Bool

namespace Engine

/-- A memtable that left the queue is completed. -/
def slotOf (e : Engine K V Λ) (w : Nat) : SlotState :=
  match e.immutable.find? fun i => i.walId = w with
  | some i => i.flush
  | none => .completed

/-- The head of `flush_immutable`: whether the caller owns the write. -/
def enterFlush (e : Engine K V Λ) (w : Nat) : Option (Engine K V Λ × Bool) :=
  match e.slotOf w with
  | .completed => some (e, false)
  | .inFlight => none
  | .pending => (e.claimFlush w).map fun e' => (e', true)

end Engine

namespace System

def fresh : System K V Λ where
  engine := .fresh
  client := .idle
  flushTasks := []
  flushing := []
  retiring := []
  compactTask := false
  compacting := false

/-- `write_batch` of nothing returns at once, `flush_memtable` and `compact` seal first. -/
def call (s : System K V Λ) : Op K V → System K V Λ
  | .put k v => { s with client := .write [.put k v] }
  | .delete k => { s with client := .write [.delete k] }
  | .writeBatch es => { s with client := if es.isEmpty then .idle else .write es }
  | .flushMemtable => { s with engine := s.engine.sealActive, client := .drain false }
  | .compact => { s with engine := s.engine.sealActive, client := .drain true }
  | .compactIfNeeded => { s with client := .lock false }

variable [DecidableEq Λ]

/-- The client's next step inside its call; `none` while it is blocked. -/
def clientStep (cfg : Config K V Λ) (s : System K V Λ) : Option (System K V Λ) :=
  match s.client with
  | .idle => none
  | .write es =>
    -- `await_l0_limit`
    if (s.engine.level 0).length < cfg.options.l0StopWritesTrigger then
      let e := s.engine.commit cfg es
      some { s with engine := e, client := if e.triggerFlush cfg then .sealFull else .idle }
    else none
  | .sealFull =>
    -- `await_flush_slot`
    if s.engine.immutableCount < cfg.options.maxWriteBufferNumber - 1 then
      some { s with
        engine := s.engine.sealActive
        client := .idle
        flushTasks :=
          if s.engine.active.isEmpty then s.flushTasks else s.flushTasks ++ [s.engine.activeWalId] }
    else none
  | .drain full =>
    match s.engine.immutable.getLast? with
    | some i => some { s with client := .flushOne i.walId full }
    | none =>
      if full then some { s with client := .lock true }
      else some { s with client := .idle, compactTask := true }
  | .flushOne w full => (s.engine.enterFlush w).map fun x =>
    { s with engine := x.1, client := if x.2 then .flushing w full else .retiring full }
  | .flushing w full => (s.engine.finishFlush w).map fun e =>
    { s with engine := e, client := .retiring full }
  | .retiring full => some { s with engine := s.engine.retireDurablePrefix, client := .drain full }
  | .lock full =>
    if s.compacting then none
    else some { s with client := if full then .compactFirst else .compactLoop }
  | .compactFirst =>
    if (s.engine.level 0).isEmpty then some { s with client := .compactLoop }
    else (s.engine.compactLevel cfg 0).toOption.map fun e =>
      { s with engine := e, client := .compactLoop }
  | .compactLoop =>
    match s.engine.findLevelToCompact cfg with
    | none => some { s with client := .idle }
    | some n => (s.engine.compactLevel cfg n).toOption.map fun e => { s with engine := e }

def startFlush (s : System K V Λ) (w : Nat) : Option (System K V Λ) :=
  if w ∈ s.flushTasks then (s.engine.enterFlush w).map fun x =>
    let s' := { s with engine := x.1, flushTasks := s.flushTasks.erase w }
    if x.2 then { s' with flushing := w :: s.flushing } else { s' with retiring := w :: s.retiring }
  else none

def compactTurn (cfg : Config K V Λ) (s : System K V Λ) : Option (System K V Λ) :=
  if s.compacting then
    match s.engine.findLevelToCompact cfg with
    | none => some { s with compacting := false }
    | some n => (s.engine.compactLevel cfg n).toOption.map fun e => { s with engine := e }
  else none

def step (cfg : Config K V Λ) (s : System K V Λ) : Move K V → Option (System K V Λ)
  | .call op => if s.client.isIdle then some (s.call op) else none
  | .client => s.clientStep cfg
  | .startFlush w => s.startFlush w
  | .writeFlush w =>
    if w ∈ s.flushing then (s.engine.finishFlush w).map fun e =>
      { s with engine := e, flushing := s.flushing.erase w, retiring := w :: s.retiring }
    else none
  | .retireFlush w =>
    if w ∈ s.retiring then some { s with
      engine := s.engine.retireDurablePrefix
      retiring := s.retiring.erase w
      compactTask := true }
    else none
  | .startCompact =>
    if s.compactTask && !s.compacting && !s.client.compacts then
      some { s with compactTask := false, compacting := true }
    else none
  | .compactTurn => s.compactTurn cfg

/-! ## Moves as steps of the interleaving model -/

/-- The step of the interleaving model a move takes on the engine. -/
def label (cfg : Config K V Λ) (s : System K V Λ) : Move K V → Option (Step K V)
  | .call .flushMemtable | .call .compact => some .sealActive
  | .call _ => none
  | .client =>
    match s.client with
    | .write es => some (.commit es)
    | .sealFull => some .sealActive
    | .flushOne w _ => if s.engine.slotOf w = .pending then some (.claim w) else none
    | .flushing w _ => some (.finish w)
    | .retiring _ => some .retire
    | .compactFirst => if (s.engine.level 0).isEmpty then none else some (.compact 0)
    | .compactLoop => (s.engine.findLevelToCompact cfg).map .compact
    | _ => none
  | .startFlush w => if s.engine.slotOf w = .pending then some (.claim w) else none
  | .writeFlush w => some (.finish w)
  | .retireFlush _ => some .retire
  | .startCompact => none
  | .compactTurn => (s.engine.findLevelToCompact cfg).map .compact

/-- No move compacts level 0 past an unfinished flush. -/
def MoveSafe (cfg : Config K V Λ) (s : System K V Λ) (m : Move K V) : Prop :=
  ∀ l ∈ s.label cfg m, s.engine.StepSafe l

instance (cfg : Config K V Λ) (s : System K V Λ) (m : Move K V) : Decidable (s.MoveSafe cfg m) :=
  inferInstanceAs (Decidable (∀ l ∈ s.label cfg m, s.engine.StepSafe l))

end System

section

variable [DecidableEq Λ] {cfg : Config K V Λ} {s s' : System K V Λ} {e e' : Engine K V Λ}

/-- `e'` is `e` after the step, if any. -/
def Engine.Advances (cfg : Config K V Λ) (e e' : Engine K V Λ) : Option (Step K V) → Prop
  | none => e' = e
  | some l => e.step cfg l = some e'

theorem Engine.enterFlush_advances {w : Nat} {own : Bool} (h : e.enterFlush w = some (e', own)) :
    e.Advances cfg e' (if e.slotOf w = .pending then some (.claim w) else none) := by
  unfold enterFlush at h
  split at h
  · next hslot =>
    rw [hslot]
    cases h
    rfl
  · cases h
  · next hslot =>
    rw [hslot]
    obtain ⟨e₁, he₁, heq⟩ := map_eq_some_iff.1 h
    cases heq
    exact he₁

namespace System

/-- A move takes its labelled step, and what was asked for is committed in order. -/
structure Refines (cfg : Config K V Λ) (s : System K V Λ) (m : Move K V) (s' : System K V Λ) :
    Prop where
  engine : s.engine.Advances cfg s'.engine (s.label cfg m)
  writes : s.client.uncommitted ++ m.mutations
    = Step.committed (s.label cfg m).toList ++ s'.client.uncommitted

theorem call_refines {op : Op K V} (h : s.client.isIdle) :
    Refines cfg s (.call op) (s.call op) := by
  have hnil := Phase.uncommitted_of_isIdle h
  cases op with
  | writeBatch es =>
    refine ⟨rfl, ?_⟩
    rw [hnil]
    cases es <;> rfl
  | _ => exact ⟨rfl, by rw [hnil]; rfl⟩

theorem clientStep_refines (h : s.clientStep cfg = some s') : Refines cfg s .client s' := by
  obtain ⟨e, phase, tasks, flushing, retiring, task, compacting⟩ := s
  cases phase with
  | idle => cases h
  | write es =>
    obtain ⟨-, h⟩ := ite_none_right_eq_some.1 h
    cases h
    refine ⟨rfl, ?_⟩
    split <;> simp [label, Phase.uncommitted, Move.mutations, Step.committed, Step.mutations]
  | sealFull =>
    simp only [clientStep] at h
    split at h <;> cases h
    exact ⟨rfl, rfl⟩
  | drain full =>
    simp only [clientStep] at h
    split at h
    · cases h
      exact ⟨rfl, rfl⟩
    · split at h <;> cases h <;> exact ⟨rfl, rfl⟩
  | flushOne w full =>
    obtain ⟨⟨e₁, own⟩, he₁, rfl⟩ := map_eq_some_iff.1 h
    refine ⟨Engine.enterFlush_advances he₁, ?_⟩
    simp only [label]
    cases own <;> split <;> rfl
  | flushing w full =>
    obtain ⟨e₁, he₁, rfl⟩ := map_eq_some_iff.1 h
    exact ⟨he₁, rfl⟩
  | retiring full =>
    cases h
    exact ⟨rfl, rfl⟩
  | lock full =>
    simp only [clientStep] at h
    split at h <;> cases h
    cases full <;> exact ⟨rfl, rfl⟩
  | compactFirst =>
    simp only [clientStep] at h
    split at h
    · next h0 =>
      cases h
      exact ⟨by simp only [label, h0]; rfl, by simp only [label, h0]; rfl⟩
    · next h0 =>
      obtain ⟨e₁, he₁, rfl⟩ := map_eq_some_iff.1 h
      exact ⟨by simp only [label, h0]; exact he₁, by simp only [label, h0]; rfl⟩
  | compactLoop =>
    simp only [clientStep] at h
    split at h
    · next hf =>
      cases h
      exact ⟨by simp only [label, hf]; rfl, by simp only [label, hf]; rfl⟩
    · next n hf =>
      obtain ⟨e₁, he₁, rfl⟩ := map_eq_some_iff.1 h
      exact ⟨by simp only [label, hf]; exact he₁, by simp only [label, hf]; rfl⟩

theorem startFlush_refines {w : Nat} (h : s.startFlush w = some s') :
    Refines cfg s (.startFlush w) s' := by
  obtain ⟨-, h⟩ := ite_none_right_eq_some.1 h
  obtain ⟨⟨e₁, own⟩, he₁, rfl⟩ := map_eq_some_iff.1 h
  refine ⟨?_, ?_⟩
  · cases own <;> exact Engine.enterFlush_advances he₁
  · simp [label]
    cases own <;> split <;> simp [Move.mutations, Step.committed, Step.mutations]

theorem compactTurn_refines (h : s.compactTurn cfg = some s') : Refines cfg s .compactTurn s' := by
  obtain ⟨-, h⟩ := ite_none_right_eq_some.1 h
  split at h
  · next hf =>
    cases h
    exact ⟨by simp only [label, hf]; rfl, by simp [label, hf, Move.mutations, Step.committed]⟩
  · next n hf =>
    obtain ⟨e₁, he₁, rfl⟩ := map_eq_some_iff.1 h
    exact ⟨by simp only [label, hf]; exact he₁,
      by simp [label, Move.mutations, Step.committed, Step.mutations]⟩

/-- **Refinement.** Every move takes at most one step of the interleaving model. -/
theorem step_refines {m : Move K V} (h : s.step cfg m = some s') : Refines cfg s m s' := by
  cases m with
  | call op =>
    obtain ⟨hidle, h⟩ := ite_none_right_eq_some.1 h
    cases h
    exact call_refines hidle
  | client => exact clientStep_refines h
  | startFlush w => exact startFlush_refines h
  | writeFlush w =>
    obtain ⟨-, h⟩ := ite_none_right_eq_some.1 h
    obtain ⟨e₁, he₁, rfl⟩ := map_eq_some_iff.1 h
    exact ⟨he₁, append_nil _⟩
  | retireFlush w | startCompact =>
    simp only [step] at h
    split at h <;> cases h
    exact ⟨rfl, append_nil _⟩
  | compactTurn => exact compactTurn_refines h

end System

end

/-! ## Reads between calls -/

section

variable [DecidableEq Λ] {cfg : Config K V Λ}

theorem System.run_refines {ms : List (Move K V)} {s : System K V Λ}
    (hr : Run (System.step cfg) (System.MoveSafe cfg) .fresh ms s) :
    ∃ ls, Run (Engine.step cfg) Engine.StepSafe .fresh ls s.engine ∧
      Move.called ms = Step.committed ls ++ s.client.uncommitted := by
  refine hr.invariant (I := fun ms s => ∃ ls, Run (Engine.step cfg) Engine.StepSafe .fresh ls
    s.engine ∧ Move.called ms = Step.committed ls ++ s.client.uncommitted) ⟨[], .nil, rfl⟩ ?_
  rintro ms s m s' ⟨ls, hrun, hcalled⟩ hok hs
  have href := System.step_refines hs
  refine ⟨ls ++ (s.label cfg m).toList, ?_, ?_⟩
  · have hadv := href.engine
    cases hl : s.label cfg m with
    | none =>
      rw [hl] at hadv
      rw [show s'.engine = s.engine from hadv]
      simpa using hrun
    | some l =>
      rw [hl] at hadv
      exact hrun.snoc (hok l hl) hadv
  · rw [Move.called, flatMap_append, flatMap_singleton, ← Move.called, hcalled, append_assoc,
      href.writes, Step.committed, Step.committed, Step.committed, flatMap_append, append_assoc]

/-- **Sequential reads.** In every run of one client and the executor whose level-0 compactions
overtake no unfinished flush, a read between two calls returns the last write asked for. -/
theorem get_eq_lastWrite_between_calls (hrw : cfg.rewriter = passthrough) {ms : List (Move K V)}
    {s : System K V Λ} (hr : Run (System.step cfg) (System.MoveSafe cfg) .fresh ms s)
    (hidle : s.client.isIdle) (k : K) :
    s.engine.get cfg k = .ok (lastWrite (Move.called ms) k).join := by
  obtain ⟨ls, hrun, hcalled⟩ := System.run_refines hr
  rw [hcalled, Phase.uncommitted_of_isIdle hidle, append_nil]
  have hplain : cfg.KeepsPlain := fun _ _ => by rw [hrw]; rfl
  obtain ⟨hinv, hview⟩ := (FlushInv.fresh (Meaning.identity hplain)).run hrun
  exact Meaning.get_of_view hplain hinv.layout (hview k)

end

/-- It seals after every write and compacts level 0 at one file. -/
def eagerConfig : Config DbKey DbValue Unit where
  options := { memtableSizeLimit := 1, l0CompactionThreshold := 1 }
  rewriter := passthrough
  fileSize r := r.entries.length
  frameSize es := es.length

def inOrderMoves : List (Move DbKey DbValue) :=
  [.call (.put (.bool true) (.bool false)), .client, .client,
    .startFlush 0, .writeFlush 0, .retireFlush 0, .startCompact, .compactTurn, .compactTurn,
    .call (.put (.bool true) (.bool true)), .client, .client,
    .startFlush 1, .writeFlush 1, .retireFlush 1, .startCompact, .compactTurn, .compactTurn]

theorem get_inOrderMoves : eagerConfig.options.validate = .ok () ∧
    ∃ s, Run (System.step eagerConfig) (System.MoveSafe eagerConfig) .fresh inOrderMoves s ∧
      s.engine.get eagerConfig (.bool true) = .ok (some (.bool true)) := by
  refine ⟨rfl, Run.exists_of_exec (p := fun s => s.client.isIdle = true) (by decide +kernel)
    fun s hr hidle => ?_⟩
  exact get_eq_lastWrite_between_calls rfl hr hidle (.bool true)

/-- The second put's flush and its compaction run while the first one's SSTable is still being
written. -/
def overtakenMoves : List (Move DbKey DbValue) :=
  [.call (.put (.bool true) (.bool false)), .client, .client,
    .call (.put (.bool true) (.bool true)), .client, .client,
    .startFlush 0, .startFlush 1, .writeFlush 1, .retireFlush 1, .startCompact, .compactTurn,
    .writeFlush 0, .retireFlush 0]

/-- The read then returns the first put. -/
theorem get_overtakenMoves : eagerConfig.options.validate = .ok () ∧
    (exec (System.step eagerConfig) .fresh overtakenMoves).map
      (fun s => (s.client.isIdle, s.engine.get eagerConfig (.bool true)))
        = some (true, .ok (some (.bool false))) ∧
    (lastWrite (Move.called overtakenMoves) (.bool true)).join = some (.bool true) := by
  decide +kernel

end Dtdb.Storage
