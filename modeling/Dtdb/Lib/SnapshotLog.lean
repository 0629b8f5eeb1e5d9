import Mathlib.Algebra.GroupWithZero.Nat
import Dtdb.Lib.Run
import Dtdb.Lib.SortedMap

/-! # State kept as a snapshot and a log of edits

Numbered generations, each a snapshot and a log of edit batches, and a pointer to the live one.  The
next generation is written in full before the pointer moves. -/

namespace Dtdb.Lib

/-- State that is rebuilt from a default by applying edits. -/
class Snapshotable (S : Type) (E : outParam Type) where
  default : S
  apply : S → E → S

variable {S E : Type}

/-- The pointer, the snapshots and the logs by generation. -/
structure SnapshotDir (S E : Type) where
  current : Option Nat
  snapshots : SortedMap Nat S
  logs : SortedMap Nat (List (List E))

inductive SnapshotOp (S E : Type) where
  | writeSnapshot (gen : Nat) (s : S)
  | openLog (gen : Nat)
  | setCurrent (gen : Nat)
  | appendLog (gen : Nat) (edits : List E)
  | removeSnapshot (gen : Nat)
  | removeLog (gen : Nat)

namespace SnapshotDir

def empty : SnapshotDir S E := ⟨none, .empty, .empty⟩

/-- A missing log reads as empty. -/
def log (d : SnapshotDir S E) (gen : Nat) : List (List E) := (d.logs.get gen).getD []

/-- One durable file operation.  Opening a log keeps what it holds. -/
def exec (d : SnapshotDir S E) : SnapshotOp S E → SnapshotDir S E
  | .writeSnapshot gen s => { d with snapshots := d.snapshots.insert gen s }
  | .openLog gen => { d with logs := d.logs.insert gen (d.log gen) }
  | .setCurrent gen => { d with current := some gen }
  | .appendLog gen edits => { d with logs := d.logs.insert gen (d.log gen ++ [edits]) }
  | .removeSnapshot gen => { d with snapshots := d.snapshots.erase gen }
  | .removeLog gen => { d with logs := d.logs.erase gen }

@[simp] theorem log_openLog (d : SnapshotDir S E) (gen g : Nat) :
    (d.exec (.openLog gen)).log g = d.log g := by
  simp only [log, exec, SortedMap.get_insert]
  split
  · next h => rw [h]; rfl
  · rfl

theorem log_appendLog (d : SnapshotDir S E) (gen g : Nat) (edits : List E) :
    (d.exec (.appendLog gen edits)).log g = if g = gen then d.log gen ++ [edits] else d.log g := by
  simp only [log, exec, SortedMap.get_insert]
  split <;> rfl

theorem log_removeLog (d : SnapshotDir S E) (gen g : Nat) :
    (d.exec (.removeLog gen)).log g = if g = gen then [] else d.log g := by
  simp only [log, exec, SortedMap.get_erase]
  split <;> rfl

/-- Operations on generations other than the live one. -/
def Stale (cur : Nat) : SnapshotOp S E → Prop
  | .removeSnapshot gen | .removeLog gen => gen ≠ cur
  | _ => False

def staleOps (d : SnapshotDir S E) (gen : Nat) : List (SnapshotOp S E) :=
  ((d.snapshots.entries.map Prod.fst).filter (· ≠ gen)).map .removeSnapshot ++
    ((d.logs.entries.map Prod.fst).filter (· ≠ gen)).map .removeLog

theorem stale_staleOps (d : SnapshotDir S E) (gen : Nat) :
    ∀ op ∈ d.staleOps gen, Stale gen op := by
  intro op hop
  rcases List.mem_append.1 hop with h | h
  · obtain ⟨g, hg, rfl⟩ := List.mem_map.1 h
    simpa [Stale] using (List.mem_filter.1 hg).2
  · obtain ⟨g, hg, rfl⟩ := List.mem_map.1 h
    simpa [Stale] using (List.mem_filter.1 hg).2

variable [Snapshotable S E]

def load (d : SnapshotDir S E) (gen : Nat) : Option S :=
  (d.snapshots.get gen).map fun s => (d.log gen).flatten.foldl Snapshotable.apply s

def state (d : SnapshotDir S E) : Option S :=
  match d.current with
  | none => some Snapshotable.default
  | some gen => d.load gen

/-- The directory reads as `s`, and no later generation has edits. -/
structure Sound (d : SnapshotDir S E) (s : S) : Prop where
  state : d.state = some s
  ahead : ∀ gen, (∀ c ∈ d.current, c < gen) → d.log gen = []

theorem Sound.empty : (SnapshotDir.empty : SnapshotDir S E).Sound Snapshotable.default :=
  ⟨rfl, fun _ _ => rfl⟩

variable {d d' : SnapshotDir S E} {s : S} {gen : Nat}

theorem state_of_load (h : d.state = some s) (hc : d'.current = d.current)
    (hl : ∀ c ∈ d.current, d'.load c = d.load c) : d'.state = some s := by
  rw [← h]
  unfold state
  rw [hc]
  cases h : d.current with
  | none => rfl
  | some c => exact hl c h

/-! ## Moving to a new generation -/

/-- The new generation's files, then the pointer. -/
def rollover (gen : Nat) (s : S) : List (SnapshotOp S E) :=
  [.writeSnapshot gen s, .openLog gen, .setCurrent gen]

theorem Sound.writeSnapshot (h : d.Sound s) (hgen : ∀ c ∈ d.current, c < gen) (s' : S) :
    (d.exec (.writeSnapshot gen s')).Sound s where
  state := by
    refine state_of_load h.state rfl fun c hc => ?_
    simp only [load, exec, SortedMap.get_insert, if_neg (hgen c hc).ne]
    rfl
  ahead := h.ahead

theorem Sound.openLog (h : d.Sound s) (gen : Nat) : (d.exec (.openLog gen)).Sound s where
  state := by
    refine state_of_load h.state rfl fun c _ => ?_
    simp only [load, log_openLog]
    rfl
  ahead g hg := by
    rw [log_openLog]
    exact h.ahead g hg

/-- However far the move gets, the directory reads as the same state. -/
theorem Sound.rollover (h : d.Sound s) (hgen : ∀ c ∈ d.current, c < gen) :
    Throughout exec (Sound · s) (rollover gen s) d := by
  have h₁ := h.writeSnapshot hgen s
  have h₂ := h₁.openLog gen
  refine ⟨h, h₁, h₂, ?_, fun g hg => ?_⟩
  · have hlog : ((d.exec (.writeSnapshot gen s)).exec (.openLog gen)).log gen = [] := h₂.ahead gen hgen
    have hsnap : ((d.exec (.writeSnapshot gen s)).exec (.openLog gen)).snapshots.get gen = some s :=
      SortedMap.get_insert_self ..
    show ((d.exec (.writeSnapshot gen s)).exec (.openLog gen)).load gen = some s
    rw [load, hlog, hsnap]
    rfl
  · refine h₂.ahead g fun c hc => (hgen c hc).trans ?_
    exact hg gen rfl

/-! ## Dropping old generations -/

theorem Sound.removeSnapshot (h : d.Sound s) (hcur : d.current ≠ some gen) :
    (d.exec (.removeSnapshot gen)).Sound s where
  state := by
    refine state_of_load h.state rfl fun c hc => ?_
    have : c ≠ gen := fun heq => hcur (heq ▸ hc)
    simp only [load, exec, SortedMap.get_erase, if_neg this]
    rfl
  ahead := h.ahead

theorem Sound.removeLog (h : d.Sound s) (hcur : d.current ≠ some gen) :
    (d.exec (.removeLog gen)).Sound s where
  state := by
    refine state_of_load h.state rfl fun c hc => ?_
    have : c ≠ gen := fun heq => hcur (heq ▸ hc)
    simp only [load, log_removeLog, if_neg this]
    rfl
  ahead g hg := by
    rw [log_removeLog]
    split
    · rfl
    · exact h.ahead g hg

theorem Sound.stale {cur : Nat} {ops : List (SnapshotOp S E)} (h : d.Sound s)
    (hcur : d.current = some cur) (hops : ∀ op ∈ ops, Stale cur op) :
    Throughout exec (fun d => d.Sound s ∧ d.current = some cur) ops d := by
  refine .of_step ⟨h, hcur⟩ fun d op hop ⟨h, hcur⟩ => ?_
  have hs := hops op hop
  cases op with
  | removeSnapshot gen =>
    exact ⟨h.removeSnapshot fun heq => hs (Option.some.inj (heq.symm.trans hcur)), hcur⟩
  | removeLog gen =>
    exact ⟨h.removeLog fun heq => hs (Option.some.inj (heq.symm.trans hcur)), hcur⟩
  | _ => exact absurd hs id

/-! ## Appending edits -/

theorem Sound.appendLog (h : d.Sound s) (hcur : d.current = some gen) (edits : List E) :
    (d.exec (.appendLog gen edits)).Sound (edits.foldl Snapshotable.apply s) where
  state := by
    have hs : d.load gen = some s := by
      rw [← h.state, SnapshotDir.state, hcur]
    obtain ⟨s₀, hs₀, rfl⟩ := Option.map_eq_some_iff.1 hs
    have : (d.exec (.appendLog gen edits)).state = (d.exec (.appendLog gen edits)).load gen := by
      rw [SnapshotDir.state, show (d.exec (.appendLog gen edits)).current = some gen from hcur]
    rw [this, load, log_appendLog, if_pos rfl,
      show (d.exec (.appendLog gen edits)).snapshots.get gen = some s₀ from hs₀]
    simp
  ahead g hg := by
    have hlt : gen < g := hg gen hcur
    rw [log_appendLog, if_neg hlt.ne']
    exact h.ahead g hg

end SnapshotDir

/-! ## The open log -/

/-- The live generation, its state and the size of its edit log. -/
structure SnapshotHandle (S : Type) where
  generation : Nat
  state : S
  logSize : Nat

namespace SnapshotDir

variable [Snapshotable S E] {d : SnapshotDir S E} {s : S}

structure Held (d : SnapshotDir S E) (h : SnapshotHandle S) : Prop where
  current : d.current = some h.generation
  sound : d.Sound h.state

/-- An eight-byte header and the frames. -/
def logBytes (bytes : List E → Nat) (batches : List (List E)) : Nat := 8 + (batches.map bytes).sum

/-- `SnapshotLog::open`; `none` when the live snapshot is gone. -/
def openOps (bytes : List E → Nat) (d : SnapshotDir S E) :
    Option (List (SnapshotOp S E) × SnapshotHandle S) :=
  match d.current with
  | none => some (rollover 0 Snapshotable.default,
      ⟨0, Snapshotable.default, logBytes bytes (d.log 0)⟩)
  | some gen => (d.load gen).map fun s =>
      (rollover (gen + 1) s ++ d.staleOps (gen + 1), ⟨gen + 1, s, logBytes bytes (d.log (gen + 1))⟩)

/-- `SnapshotLog::append_batch`, with the compaction past `threshold` bytes. -/
def appendOps (bytes : List E → Nat) (threshold : Nat) (d : SnapshotDir S E)
    (h : SnapshotHandle S) (edits : List E) : List (SnapshotOp S E) × SnapshotHandle S :=
  let s := edits.foldl Snapshotable.apply h.state
  let size := h.logSize + bytes edits
  if threshold ≤ size then
    (.appendLog h.generation edits :: (rollover (h.generation + 1) s ++
        [.removeSnapshot h.generation, .removeLog h.generation]),
      ⟨h.generation + 1, s, logBytes bytes (d.log (h.generation + 1))⟩)
  else ([.appendLog h.generation edits], ⟨h.generation, s, size⟩)

theorem Held.rollover (h : d.Sound s) {gen : Nat} (n : Nat) (hgen : ∀ c ∈ d.current, c < gen)
    {ops : List (SnapshotOp S E)} (hops : ∀ op ∈ ops, Stale gen op) :
    Throughout exec (Sound · s) (rollover gen s ++ ops) d ∧
      ((rollover gen s ++ ops).foldl exec d).Held ⟨gen, s, n⟩ := by
  have hroll := h.rollover hgen
  have hstale := hroll.last.stale (show _ = some gen from rfl) hops
  refine ⟨hroll.append (hstale.imp fun _ h => h.1), ?_⟩
  rw [List.foldl_append]
  exact ⟨hstale.last.2, hstale.last.1⟩

/-- **Open.** A sound directory opens to the state it reads as. -/
theorem Sound.openOps (h : d.Sound s) (bytes : List E → Nat) :
    ∃ ops hd, d.openOps bytes = some (ops, hd) ∧ hd.state = s ∧
      Throughout exec (Sound · s) ops d ∧ (ops.foldl exec d).Held hd := by
  have hstate := h.state
  unfold SnapshotDir.openOps
  unfold SnapshotDir.state at hstate
  cases hc : d.current with
  | none =>
    rw [hc] at hstate
    cases hstate
    have hroll := (h.rollover (by simp [hc]) : Throughout _ _ (SnapshotDir.rollover 0 _) d)
    exact ⟨_, _, rfl, rfl, hroll, rfl, hroll.last⟩
  | some gen =>
    rw [hc] at hstate
    obtain ⟨h₁, h₂⟩ := Held.rollover h (logBytes bytes (d.log (gen + 1)))
      (fun c hc' => by rw [hc] at hc'; cases hc'; exact Nat.lt_succ_self gen)
      (d.stale_staleOps (gen + 1))
    exact ⟨_, _, by
      show (d.load gen).map _ = _
      rw [show d.load gen = some s from hstate]
      rfl, rfl, h₁, h₂⟩

/-- **Append.** The batch is in with the first operation and stays. -/
theorem Held.appendOps {h : SnapshotHandle S} (hd : d.Held h) (bytes : List E → Nat)
    (threshold : Nat) (edits : List E) :
    ∃ ops, (d.appendOps bytes threshold h edits).1 = .appendLog h.generation edits :: ops ∧
      Throughout exec (Sound · (edits.foldl Snapshotable.apply h.state)) ops
        (d.exec (.appendLog h.generation edits)) ∧
      (d.appendOps bytes threshold h edits).2.state = edits.foldl Snapshotable.apply h.state ∧
      (((d.appendOps bytes threshold h edits).1).foldl exec d).Held
        (d.appendOps bytes threshold h edits).2 := by
  have happ := hd.sound.appendLog hd.current edits
  unfold SnapshotDir.appendOps
  dsimp only
  split
  · have hold : ∀ op ∈ [SnapshotOp.removeSnapshot h.generation, .removeLog h.generation],
        Stale (S := S) (E := E) (h.generation + 1) op := by simp [Stale]
    obtain ⟨h₁, h₂⟩ := Held.rollover happ (logBytes bytes (d.log (h.generation + 1)))
      (fun c hc => by
        rw [Option.some.inj (hc.symm.trans hd.current)]
        exact Nat.lt_succ_self _) hold
    exact ⟨_, rfl, h₁, rfl, h₂⟩
  · exact ⟨[], rfl, happ, rfl, hd.current, happ⟩

end SnapshotDir

end Dtdb.Lib
