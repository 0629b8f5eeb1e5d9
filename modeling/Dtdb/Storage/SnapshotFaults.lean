import Dtdb.Storage.Disk

/-! # Snapshot logs under I/O errors

`append_batch` applies the edits in memory before it writes them.  Each call is the list of its file
operations; an error ends it after some of them. -/

namespace Dtdb.Storage

open Dtdb.Lib List Option

variable {S E : Type}

namespace SnapshotFaults

/-- An error of a removal is ignored, any other is returned after `ran` operations; an append may
have left part of a frame. -/
inductive Outcome where
  | ok (keptSnapshot keptLog : Bool)
  | err (ran : Nat) (torn : Bool)
  deriving DecidableEq

inductive Call (E : Type) where
  | append (edits : List E) (outcome : Outcome)
  | compact (outcome : Outcome)

/-- The batches whose `append_batch` returned `Ok`. -/
def okBatches (calls : List (Call E)) : List (List E) :=
  calls.filterMap fun
    | .append edits (.ok _ _) => some edits
    | _ => none

def isRemoval : SnapshotOp S E → Bool
  | .removeSnapshot _ | .removeLog _ => true
  | _ => false

def movesPointer : SnapshotOp S E → Bool
  | .setCurrent _ => true
  | _ => false

/-- Whether an operation of a call that succeeds takes effect. -/
def runs (keptSnapshot keptLog : Bool) : SnapshotOp S E → Bool
  | .removeSnapshot _ => !keptSnapshot
  | .removeLog _ => !keptLog
  | _ => true

/-- `torn` is the generation whose log ends in part of a frame. -/
structure State (S E : Type) where
  dir : SnapshotDir S E
  handle : SnapshotHandle S
  torn : Option Nat

/-- Recovery stops at a torn frame, so what is appended behind it does not count. -/
def write (torn : Option Nat) (d : SnapshotDir S E) (op : SnapshotOp S E) : SnapshotDir S E :=
  match op with
  | .appendLog gen _ => if torn = some gen then d else d.exec op
  | _ => d.exec op

/-- The directory after a call with these operations; `none` for an error no operation reports. -/
def perform (s : State S E) (ops : List (SnapshotOp S E)) : Outcome →
    Option (SnapshotDir S E × Option Nat)
  | .ok keptSnapshot keptLog =>
    some ((ops.filter (runs keptSnapshot keptLog)).foldl (write s.torn) s.dir, s.torn)
  | .err ran torn =>
    if ran ≤ (ops.filter fun op => !isRemoval op).length then
      let d := (ops.take ran).foldl (write s.torn) s.dir
      match torn, ops[ran]? with
      | false, _ => some (d, s.torn)
      | true, some (.appendLog gen _) => some (d, some gen)
      | true, _ => none
    else none

variable [Snapshotable S E]

def compactOps (h : SnapshotHandle S) : List (SnapshotOp S E) :=
  SnapshotDir.rollover (h.generation + 1) h.state ++
    [.removeSnapshot h.generation, .removeLog h.generation]

/-- The edits are applied, and the log has grown if the frame was written. -/
def failedHandle (bytes : List E → Nat) (h : SnapshotHandle S) (edits : List E) (ran : Nat) :
    SnapshotHandle S :=
  { h with
    state := edits.foldl Snapshotable.apply h.state
    logSize := if ran = 0 then h.logSize else h.logSize + bytes edits }

def step (bytes : List E → Nat) (threshold : Nat) (s : State S E) : Call E → Option (State S E)
  | .append edits outcome => do
    let call := s.dir.appendOps bytes threshold s.handle edits
    let (dir, torn) ← perform s call.1 outcome
    return match outcome with
    | .ok _ _ => ⟨dir, call.2, torn⟩
    | .err ran _ => ⟨dir, failedHandle bytes s.handle edits ran, torn⟩
  | .compact outcome => do
    let (dir, torn) ← perform s (compactOps s.handle) outcome
    return match outcome with
    | .ok _ _ => ⟨dir, ⟨s.handle.generation + 1, s.handle.state,
        SnapshotDir.logBytes bytes (s.dir.log (s.handle.generation + 1))⟩, torn⟩
    | .err _ _ => ⟨dir, s.handle, torn⟩

/-- An error leaves no part of a frame and has not moved the pointer. -/
def Clean (ops : List (SnapshotOp S E)) : Outcome → Prop
  | .ok _ _ => True
  | .err ran torn => torn = false ∧ ∀ op ∈ ops.take ran, movesPointer op = false

/-- Failed calls are clean, and the edits of a failed `append_batch` leave the state as it is. -/
def StepSafe (bytes : List E → Nat) (threshold : Nat) (s : State S E) : Call E → Prop
  | .append edits outcome => Clean (s.dir.appendOps bytes threshold s.handle edits).1 outcome ∧
      (outcome matches .err _ _ → edits.foldl Snapshotable.apply s.handle.state = s.handle.state)
  | .compact outcome => Clean (compactOps s.handle : List (SnapshotOp S E)) outcome

/-! ## What the calls do -/

omit [Snapshotable S E] in
theorem write_none : (write none : SnapshotDir S E → SnapshotOp S E → _) = SnapshotDir.exec := by
  funext d op
  cases op <;> rfl

omit [Snapshotable S E] in
theorem current_foldl {ops : List (SnapshotOp S E)} (h : ∀ op ∈ ops, movesPointer op = false)
    (d : SnapshotDir S E) : (ops.foldl SnapshotDir.exec d).current = d.current := by
  induction ops generalizing d with
  | nil => rfl
  | cons op ops ih =>
    rw [foldl_cons, ih fun o ho => h o (.tail _ ho)]
    have := h op mem_cons_self
    cases op with
    | setCurrent gen => cases this
    | _ => rfl

section

variable {s : State S E} {ops : List (SnapshotOp S E)} {x : SnapshotDir S E × Option Nat}

omit [Snapshotable S E] in
theorem perform_ok (ht : s.torn = none) {ks kl : Bool} (h : perform s ops (.ok ks kl) = some x) :
    x = ((ops.filter (runs ks kl)).foldl SnapshotDir.exec s.dir, none) := by
  simp only [perform, ht, write_none] at h
  exact (some.inj h).symm

omit [Snapshotable S E] in
theorem perform_err (ht : s.torn = none) {ran : Nat} {torn : Bool} (hc : Clean ops (.err ran torn))
    (h : perform s ops (.err ran torn) = some x) :
    x = ((ops.take ran).foldl SnapshotDir.exec s.dir, none) := by
  obtain ⟨-, h⟩ := ite_none_right_eq_some.1 h
  rw [show torn = false from hc.1] at h
  simp only [ht, write_none] at h
  exact (some.inj h).symm

end

variable {d : SnapshotDir S E} {h : SnapshotHandle S}

omit [Snapshotable S E] in
theorem stale_removals (gen : Nat) (ks kl : Bool) : ∀ op ∈
    ([.removeSnapshot gen, .removeLog gen] : List (SnapshotOp S E)).filter (runs ks kl),
      SnapshotDir.Stale (gen + 1) op := by
  intro op hop
  have := mem_of_mem_filter hop
  simp only [mem_cons, not_mem_nil, or_false] at this
  rcases this with rfl | rfl
  · exact (Nat.lt_succ_self gen).ne
  · exact (Nat.lt_succ_self gen).ne

theorem compact_held (hd : d.Held h) (ks kl : Bool) (n : Nat) :
    Throughout SnapshotDir.exec (·.Sound h.state) ((compactOps h).filter (runs ks kl)) d ∧
      (((compactOps h).filter (runs ks kl)).foldl SnapshotDir.exec d).Held
        ⟨h.generation + 1, h.state, n⟩ := by
  refine SnapshotDir.Held.rollover hd.sound n (fun c hc => ?_) (stale_removals h.generation ks kl)
  rw [some.inj (hc.symm.trans hd.current)]
  exact Nat.lt_succ_self _

omit [Snapshotable S E] in
theorem filter_runs (ops : List (SnapshotOp S E)) : ops.filter (runs false false) = ops :=
  filter_eq_self.2 fun op _ => by cases op <;> rfl

theorem appendOps_eq (bytes : List E → Nat) (threshold : Nat) (d : SnapshotDir S E)
    (h : SnapshotHandle S) (edits : List E) :
    ∃ h' : SnapshotHandle S, h'.generation = h.generation ∧
      h'.state = edits.foldl Snapshotable.apply h.state ∧
      (d.appendOps bytes threshold h edits = ([.appendLog h.generation edits], h') ∨
        ∃ n, d.appendOps bytes threshold h edits = (.appendLog h.generation edits :: compactOps h',
          ⟨h.generation + 1, h'.state, n⟩)) := by
  unfold SnapshotDir.appendOps
  dsimp only
  split
  · exact ⟨⟨h.generation, edits.foldl Snapshotable.apply h.state, 0⟩, rfl, rfl, .inr ⟨_, rfl⟩⟩
  · exact ⟨⟨h.generation, edits.foldl Snapshotable.apply h.state, h.logSize + bytes edits⟩, rfl, rfl,
      .inl rfl⟩

theorem append_held (hd : d.Held h) (bytes : List E → Nat) (threshold : Nat) (edits : List E)
    (ks kl : Bool) : ∃ ops, (d.appendOps bytes threshold h edits).1
      = .appendLog h.generation edits :: ops ∧
      Throughout SnapshotDir.exec (·.Sound (edits.foldl Snapshotable.apply h.state))
        (ops.filter (runs ks kl)) (d.exec (.appendLog h.generation edits)) ∧
      (((d.appendOps bytes threshold h edits).1.filter (runs ks kl)).foldl SnapshotDir.exec d).Held
        (d.appendOps bytes threshold h edits).2 ∧
      (d.appendOps bytes threshold h edits).2.state = edits.foldl Snapshotable.apply h.state := by
  obtain ⟨h', hg, hs, heq⟩ := appendOps_eq bytes threshold d h edits
  have happ : (d.exec (.appendLog h.generation edits)).Held h' :=
    ⟨hg ▸ hd.current, hs ▸ hd.sound.appendLog hd.current edits⟩
  rcases heq with heq | ⟨n, heq⟩
  · rw [heq]
    exact ⟨[], rfl, hs ▸ happ.sound, happ, hs⟩
  · obtain ⟨hthr, hheld⟩ := compact_held happ ks kl n
    rw [heq]
    refine ⟨compactOps h', rfl, hs ▸ hthr, ?_, hs⟩
    rw [hg] at hheld
    exact hheld

/-! ## Runs -/

variable {bytes : List E → Nat} {threshold : Nat} {s s' : State S E} {base : S}

/-- The open log holds the directory, and both are the batches so far. -/
structure Inv (base : S) (batches : List (List E)) (s : State S E) : Prop where
  held : s.dir.Held s.handle
  torn : s.torn = none
  state : s.handle.state = batches.flatten.foldl Snapshotable.apply base

theorem Inv.failed {batches : List (List E)} (hinv : Inv base batches s) {dir : SnapshotDir S E}
    {handle : SnapshotHandle S} (hsound : dir.Sound s.handle.state)
    (hcur : dir.current = s.dir.current) (hg : handle.generation = s.handle.generation)
    (hs : handle.state = s.handle.state) : Inv base batches ⟨dir, handle, none⟩ where
  held := ⟨by rw [hcur, hg]; exact hinv.held.current, by rw [hs]; exact hsound⟩
  torn := rfl
  state := by rw [hs]; exact hinv.state

theorem Inv.step {batches : List (List E)} (hinv : Inv base batches s) {call : Call E}
    (hok : StepSafe bytes threshold s call) (hs : step bytes threshold s call = some s') :
    Inv base (batches ++ okBatches [call]) s' := by
  cases call with
  | append edits outcome =>
    simp only [SnapshotFaults.step, Option.bind_eq_bind, Option.bind_eq_some_iff, Option.pure_def,
      some.injEq] at hs
    obtain ⟨⟨dir, t⟩, hperf, rfl⟩ := hs
    cases outcome with
    | ok ks kl =>
      cases perform_ok hinv.torn hperf
      obtain ⟨ops, -, -, hheld, hstate⟩ := append_held hinv.held bytes threshold edits ks kl
      refine ⟨hheld, rfl, ?_⟩
      show (s.dir.appendOps bytes threshold s.handle edits).2.state
        = (batches ++ [edits]).flatten.foldl Snapshotable.apply base
      rw [hstate, hinv.state]
      simp
    | err ran torn =>
      cases perform_err hinv.torn hok.1 hperf
      rw [show okBatches [Call.append edits (.err ran torn)] = [] from rfl, append_nil]
      have hsame := hok.2 rfl
      obtain ⟨ops, hops, hthr, -⟩ := append_held hinv.held bytes threshold edits false false
      refine hinv.failed ?_ (current_foldl hok.1.2 s.dir) rfl hsame
      rw [hops]
      cases ran with
      | zero => exact hinv.held.sound
      | succ n =>
        rw [filter_runs, hsame] at hthr
        exact hthr.take n
  | compact outcome =>
    rw [show okBatches [Call.compact outcome] = [] from rfl, append_nil]
    simp only [SnapshotFaults.step, Option.bind_eq_bind, Option.bind_eq_some_iff, Option.pure_def,
      some.injEq] at hs
    obtain ⟨⟨dir, t⟩, hperf, rfl⟩ := hs
    cases outcome with
    | ok ks kl =>
      cases perform_ok hinv.torn hperf
      exact ⟨(compact_held hinv.held ks kl _).2, rfl, hinv.state⟩
    | err ran torn =>
      cases perform_err hinv.torn hok hperf
      have hthr := (compact_held hinv.held false false 0).1
      exact hinv.failed (hthr.take ran) (current_foldl hok.2 s.dir) rfl rfl

def Reopens (bytes : List E → Nat) (d : SnapshotDir S E) (t : S) : Prop :=
  ∃ ops h, d.openOps bytes = some (ops, h) ∧ h.state = t

theorem reopens_of_sound {t : S} (h : d.Sound t) : Reopens bytes d t := by
  obtain ⟨ops, hd, hopen, hstate, -⟩ := h.openOps bytes
  exact ⟨ops, hd, hopen, hstate⟩

omit [Snapshotable S E] in
instance decidableClean (ops : List (SnapshotOp S E)) : (o : Outcome) → Decidable (Clean ops o)
  | .ok _ _ => isTrue trivial
  | .err ran _ => inferInstanceAs (Decidable (_ ∧ ∀ op ∈ ops.take ran, _))

instance decidableSnapshotSafe [DecidableEq S] (bytes : List E → Nat) (threshold : Nat)
    (s : State S E) : (call : Call E) → Decidable (StepSafe bytes threshold s call)
  | .append _ _ => inferInstanceAs (Decidable (_ ∧ (_ → _)))
  | .compact o => decidableClean (compactOps s.handle) o

def newManifest : State Manifest ManifestEdit :=
  ⟨(SnapshotDir.rollover 0 Snapshotable.default).foldl SnapshotDir.exec .empty,
    ⟨0, Snapshotable.default, headerLen⟩, none⟩

theorem held_newManifest : newManifest.dir.Held newManifest.handle :=
  ⟨rfl, (SnapshotDir.Sound.empty.rollover nofun).last⟩

def harmlessErrors : List (Call ManifestEdit) :=
  [.append [.addSstable 0 1] (.ok false false), .append [.addSstable 0 1] (.err 1 false),
    .compact (.err 2 false), .compact (.ok true false), .append [.addSstable 0 2] (.ok false false)]

end SnapshotFaults

end Dtdb.Storage
