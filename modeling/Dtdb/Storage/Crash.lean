import Dtdb.Storage.Durability
import Dtdb.Storage.Interleaving

/-! # Reads after any number of crashes

Whatever is down, half open or running, the directory means the writes acknowledged so far, so an
engine that comes up shows the last of them for every key. -/

namespace Dtdb.Storage

open Dtdb.Lib Option

variable {K V Λ : Type} [LinearOrder K] [ByteSize K] [ByteSize V]

namespace Machine

/-- Replayed writes have some size or are none, a crash undoes the newest unsynced removals only,
and engine steps are safe. -/
def StepSafe (cfg : Config K V Λ) (s : Machine K V Λ) (ev : Event K V) : Prop :=
  match ev, s.mode with
  | .startOpen, _ => (replay cfg s.disk.segments).isEmpty = true ∨
      0 < (replay cfg s.disk.segments).byteSize
  | .crash back, _ => s.disk.CrashOk back
  | ev, .up u => u.StepSafe cfg ev
  | _, _ => True

/-- The directory, with what is left of an open or with the running engine, means `spec`. -/
def Means {cfg : Config K V Λ} {T : Option Λ} {A : Type} (M : Meaning cfg T A) (spec : K → Option A)
    (s : Machine K V Λ) : Prop :=
  match s.mode with
  | .down => s.disk.unsynced = [] ∧ ∃ m e, Stored M s.disk m e spec
  | .opening rest u => u.engine.targetLayout = none ∧
      Throughout Disk.exec (Recoverable M spec) rest s.disk ∧
      Running M (rest.foldl Disk.exec s.disk) (u.setTargetLayout T) ∧
      ∀ k, M.view (u.setTargetLayout T).engine k = spec k
  | .up u => Running M s.disk u ∧ ∀ k, M.view u.engine k = spec k

/-- The target layout is set once an open is through. -/
def opened (T : Option Λ) (s : Machine K V Λ) : Machine K V Λ :=
  match s.mode with
  | .up u => ⟨s.disk, .up (u.setTargetLayout T)⟩
  | _ => s

def stepAt [DecidableEq Λ] (cfg : Config K V Λ) (T : Option Λ) (s : Machine K V Λ) :
    Event K V → Option (Machine K V Λ)
  | .openStep => (s.step cfg .openStep).map (opened T)
  | ev => s.step cfg ev

end Machine

section

variable {cfg : Config K V Λ} {T : Option Λ} {A : Type} {M : Meaning cfg T A}
variable {spec : K → Option A} {s : Machine K V Λ}

theorem Running.recoverable {d : Disk K V Λ} {u : Live K V Λ} (h : Running M d u)
    (hview : ∀ k, M.view u.engine k = spec k) : Recoverable M spec d := by
  obtain rfl : M.view u.engine = spec := funext hview
  exact h.stored.recoverable h.synced

namespace Machine.Means

theorem recoverable (h : s.Means M spec) : Recoverable M spec s.disk := by
  unfold Means at h
  split at h
  · obtain ⟨hs, m, e, hst⟩ := h
    exact hst.recoverable hs
  · exact h.2.1.head
  · exact h.1.recoverable h.2

theorem crash (h : s.Means M spec) {back : List Nat} (hok : s.disk.CrashOk back) :
    Means M spec ⟨s.disk.crash back, .down⟩ := by
  obtain ⟨m, e, hst⟩ := h.recoverable back hok
  exact ⟨rfl, m, e, hst⟩

theorem startOpen (h : s.Means M spec) (hd : s.mode = .down) (hnone : ∀ v, M.den none v = M.den T v)
    (hsize : (replay cfg s.disk.segments).isEmpty = true ∨
      0 < (replay cfg s.disk.segments).byteSize) :
    ∃ ops u, openPlan cfg s.disk = some (ops, u) ∧ Means M spec ⟨s.disk, .opening ops u⟩ := by
  unfold Means at h
  rw [hd] at h
  obtain ⟨hs, m, e, hst⟩ := h
  obtain ⟨ops, u, hplan, hlayout, hthr, hrun, hview⟩ := openPlan_spec hst hs hnone hsize
  exact ⟨ops, u, hplan, hlayout, hthr, hrun, hview⟩

theorem openStep {d : Disk K V Λ} {op : DiskOp K V Λ} {rest : List (DiskOp K V Λ)} {u : Live K V Λ}
    (h : Means M spec ⟨d, .opening (op :: rest) u⟩) : Means M spec ⟨d.exec op, .opening rest u⟩ :=
  ⟨h.1, h.2.1.2, h.2.2.1, h.2.2.2⟩

theorem opened {d : Disk K V Λ} {u : Live K V Λ} (h : Means M spec ⟨d, .opening [] u⟩) :
    Means M spec ⟨d, .up (u.setTargetLayout T)⟩ :=
  ⟨h.2.2.1, h.2.2.2⟩

end Machine.Means

end

section

variable [DecidableEq Λ] {cfg : Config K V Λ} {A : Type} {spec : K → Option A}
variable {s s' : Machine K V Λ} {ev : Event K V}

section

variable {T : Option Λ} {M : Meaning cfg T A}

/-- What a step can do. -/
theorem Machine.stepAt_cases (h : s.stepAt cfg T ev = some s') :
    (∃ back, ev = .crash back ∧ s' = ⟨s.disk.crash back, .down⟩) ∨
    (ev = .startOpen ∧ s.mode = .down ∧
      ∃ ops u, openPlan cfg s.disk = some (ops, u) ∧ s' = ⟨s.disk, .opening ops u⟩) ∨
    (ev = .openStep ∧ ∃ u, s.mode = .opening [] u ∧ s' = ⟨s.disk, .up (u.setTargetLayout T)⟩) ∨
    (ev = .openStep ∧ ∃ op rest u, s.mode = .opening (op :: rest) u ∧
      s' = ⟨s.disk.exec op, .opening rest u⟩) ∨
    ∃ u ops u', s.mode = .up u ∧ u.step cfg s.disk ev = some (ops, u') ∧
      s' = ⟨ops.foldl Disk.exec s.disk, .up u'⟩ := by
  unfold Machine.stepAt at h
  split at h
  · unfold Machine.step at h
    split at h
    · next heq => cases heq
    · next heq _ => cases heq
    · next u _ hmode => exact .inr (.inr (.inl ⟨rfl, u, hmode, (some.inj h).symm⟩))
    · next op rest u _ hmode =>
      exact .inr (.inr (.inr (.inl ⟨rfl, op, rest, u, hmode, (some.inj h).symm⟩)))
    · cases h
    · cases h
  · next hev =>
    unfold Machine.step at h
    split at h
    · obtain ⟨-, hs⟩ := ite_none_right_eq_some.1 h
      exact .inl ⟨_, rfl, (some.inj hs).symm⟩
    · next hmode =>
      obtain ⟨⟨ops, u⟩, hplan, rfl⟩ := map_eq_some_iff.1 h
      exact .inr (.inl ⟨rfl, hmode, ops, u, hplan, rfl⟩)
    · cases hev rfl
    · cases hev rfl
    · obtain ⟨⟨ops, u'⟩, hstep, rfl⟩ := map_eq_some_iff.1 h
      exact .inr (.inr (.inr (.inr ⟨_, ops, u', ‹_›, hstep, rfl⟩)))
    · cases h

theorem Machine.Means.stepAt (h : s.Means M spec) (hnone : ∀ v, M.den none v = M.den T v)
    (hok : s.StepSafe cfg ev) (hs : s.stepAt cfg T ev = some s') : s'.Means M fun k =>
      match lastWrite ev.mutations k with
      | some slot => M.slot T slot
      | none => spec k := by
  obtain ⟨d, mode⟩ := s
  rcases Machine.stepAt_cases hs with ⟨back, rfl, rfl⟩ | ⟨rfl, rfl, ops, u, hplan, rfl⟩ |
    ⟨rfl, u, rfl, rfl⟩ | ⟨rfl, op, rest, u, rfl, rfl⟩ | ⟨u, ops, u', rfl, hu', rfl⟩
  · exact h.crash hok
  · obtain ⟨ops', u', hplan', hmeans⟩ := h.startOpen rfl hnone hok
    cases hplan.symm.trans hplan'
    exact hmeans
  · exact h.opened
  · exact h.openStep
  · have hok' : u.StepSafe cfg ev := by
      cases ev with
      | startOpen | crash back => cases hu'
      | _ => exact hok
    obtain ⟨hrun, hview⟩ := h.1.step hok' hu'
    refine ⟨hrun, fun k => (hview k).trans ?_⟩
    beta_reduce
    cases lastWrite ev.mutations k with
    | none => exact h.2 k
    | some slot => rfl

end

variable {M : Meaning cfg none A}

theorem Machine.Means.step (h : s.Means M spec) (hok : s.StepSafe cfg ev)
    (hs : s.step cfg ev = some s') : s'.Means M fun k =>
      match lastWrite ev.mutations k with
      | some slot => M.slot none slot
      | none => spec k := by
  -- an engine opens under the empty layout, so setting that layout changes nothing
  have hat : s.stepAt cfg none ev = some s' := by
    cases ev with
    | openStep =>
      obtain ⟨d, _ | ⟨_ | _, u⟩ | u⟩ := s <;> cases hs
      · show some (Machine.mk d (.up (u.setTargetLayout none))) = _
        rw [Live.setTargetLayout_self h.1]
      · rfl
    | _ => exact hs
  exact h.stepAt (fun _ => rfl) hok hat

omit [DecidableEq Λ] in
theorem Machine.Means.fresh : Machine.Means M (fun _ => none) (Machine.fresh : Machine K V Λ) :=
  ⟨rfl, ∅, .fresh, .empty⟩

/-- Whatever the run went through, its last state means the acknowledged writes. -/
theorem Machine.Means.run {evs : List (Event K V)}
    (hr : Run (Machine.step cfg) (Machine.StepSafe cfg) .fresh evs s) : s.Means M fun k =>
      match lastWrite (Event.acknowledged evs) k with
      | some slot => M.slot none slot
      | none => none := by
  refine hr.invariant (I := fun evs s => s.Means M fun k =>
    match lastWrite (Event.acknowledged evs) k with
    | some slot => M.slot none slot
    | none => none) Machine.Means.fresh fun evs s ev s' hinv hok hs => ?_
  have hnext := hinv.step hok hs
  convert hnext using 2 with k
  simp only [Event.acknowledged, List.flatMap_append, List.flatMap_singleton, lastWrite_append]
  cases lastWrite ev.mutations k <;> rfl

/-- **Crash safety.** In every run of safe steps, crashes and opens, an engine that is up returns
for every key the last acknowledged write. -/
theorem get_eq_lastAcknowledged (hrw : cfg.KeepsPlain) {evs : List (Event K V)}
    (hr : Run (Machine.step cfg) (Machine.StepSafe cfg) .fresh evs s) {u : Live K V Λ}
    (hup : s.mode = .up u) (k : K) :
    u.engine.get cfg k = .ok (lastWrite (Event.acknowledged evs) k).join := by
  have hmeans := Machine.Means.run (M := Meaning.identity hrw) hr
  unfold Machine.Means at hmeans
  rw [hup] at hmeans
  exact Meaning.get_of_view hrw hmeans.1.inv.layout (hmeans.2 k)

/-- **Reopening** a running engine's directory after a crash succeeds and shows what the engine
shows. -/
theorem get_reopened (hrw : cfg.KeepsPlain) {evs : List (Event K V)}
    (hr : Run (Machine.step cfg) (Machine.StepSafe cfg) .fresh evs s) {u : Live K V Λ}
    (hup : s.mode = .up u) (hsize : (replay cfg s.disk.segments).isEmpty = true ∨
      0 < (replay cfg s.disk.segments).byteSize) (back : List Nat) :
    ∃ ops u', openPlan cfg (s.disk.crash back) = some (ops, u') ∧
      ∀ k, u'.engine.get cfg k = u.engine.get cfg k := by
  have hmeans := Machine.Means.run (M := Meaning.identity hrw) hr
  unfold Machine.Means at hmeans
  rw [hup] at hmeans
  obtain ⟨hrun, hnow⟩ := hmeans
  rw [Disk.crash_of_synced hrun.synced]
  obtain ⟨ops, u', hplan, hlayout, -, hrun', hview⟩ :=
    openPlan_spec hrun.stored hrun.synced (fun _ => rfl) hsize
  refine ⟨ops, u', hplan, fun k => ?_⟩
  rw [Live.setTargetLayout_self hlayout] at hrun' hview
  rw [Meaning.get_of_view hrw hrun'.inv.layout ((hview k).trans (hnow k)),
    Meaning.get_of_view hrw hrun.inv.layout (hnow k)]

end

/-! ## Concrete runs -/

instance {cfg : Config K V Λ} (u : Live K V Λ) : (ev : Event K V) → Decidable (u.StepSafe cfg ev)
  | .commit es => inferInstanceAs (Decidable ((∀ e ∈ es, _) ∧ _))
  | .compact 0 => inferInstanceAs (Decidable u.engine.NoOvertaking)
  | .compact (_ + 1) | .startOpen | .openStep | .crash _ | .sealActive | .claim _ | .finish _
  | .retire => .isTrue trivial

instance (cfg : Config K V Λ) (s : Machine K V Λ) (ev : Event K V) :
    Decidable (s.StepSafe cfg ev) :=
  match ev, s with
  | .startOpen, ⟨_, _⟩ => inferInstanceAs (Decidable (_ ∨ _))
  | .crash back, ⟨d, _⟩ => inferInstanceAs (Decidable (d.CrashOk back))
  | .openStep, ⟨_, .up u⟩ => inferInstanceAs (Decidable (u.StepSafe cfg .openStep))
  | .commit es, ⟨_, .up u⟩ => inferInstanceAs (Decidable (u.StepSafe cfg (.commit es)))
  | .sealActive, ⟨_, .up u⟩ => inferInstanceAs (Decidable (u.StepSafe cfg .sealActive))
  | .claim w, ⟨_, .up u⟩ => inferInstanceAs (Decidable (u.StepSafe cfg (.claim w)))
  | .finish w, ⟨_, .up u⟩ => inferInstanceAs (Decidable (u.StepSafe cfg (.finish w)))
  | .retire, ⟨_, .up u⟩ => inferInstanceAs (Decidable (u.StepSafe cfg .retire))
  | .compact n, ⟨_, .up u⟩ => inferInstanceAs (Decidable (u.StepSafe cfg (.compact n)))
  | .openStep, ⟨_, .down⟩ | .openStep, ⟨_, .opening ..⟩
  | .commit _, ⟨_, .down⟩ | .commit _, ⟨_, .opening ..⟩
  | .sealActive, ⟨_, .down⟩ | .sealActive, ⟨_, .opening ..⟩
  | .claim _, ⟨_, .down⟩ | .claim _, ⟨_, .opening ..⟩
  | .finish _, ⟨_, .down⟩ | .finish _, ⟨_, .opening ..⟩
  | .retire, ⟨_, .down⟩ | .retire, ⟨_, .opening ..⟩
  | .compact _, ⟨_, .down⟩ | .compact _, ⟨_, .opening ..⟩ => .isTrue trivial

def Machine.read [DecidableEq Λ] (cfg : Config K V Λ) (s : Machine K V Λ) (k : K) :
    Option (Except StorageError (Option V)) :=
  match s.mode with
  | .up u => some (u.engine.get cfg k)
  | _ => none

theorem Machine.exists_up_of_read [DecidableEq Λ] {cfg : Config K V Λ} {s : Machine K V Λ} {k : K}
    (h : (s.read cfg k).isSome = true) : ∃ u, s.mode = .up u := by
  unfold Machine.read at h
  split at h
  · next u hu => exact ⟨u, hu⟩
  · cases h

/-- An open that gets through its first `n` steps. -/
def openSteps (n : Nat) : List (Event DbKey DbValue) := .startOpen :: List.replicate n .openStep

/-- The open after a crash crashes while it removes the segments, and the newer removal is lost. -/
def tornOpenTrace : List (Event DbKey DbValue) :=
  openSteps 6 ++ [.commit [.put (.bool true) (.bool false)], .sealActive,
    .commit [.delete (.bool true)], .claim 0, .finish 0, .crash []] ++
  openSteps 9 ++ [.crash [1]] ++ openSteps 12

theorem get_tornOpenTrace : ∃ s u,
    Run (Machine.step plainConfig) (Machine.StepSafe plainConfig) .fresh tornOpenTrace s ∧
      s.mode = .up u ∧ u.engine.get plainConfig (.bool true) = .ok none := by
  simp only [exists_and_left]
  refine Run.exists_of_exec (p := fun s => (s.read plainConfig (.bool true)).isSome = true)
    (by decide +kernel) fun s hs hread => ?_
  obtain ⟨u, hu⟩ := Machine.exists_up_of_read hread
  exact ⟨u, hu, get_eq_lastAcknowledged (fun _ _ => rfl) hs hu (.bool true)⟩

/-- A put and a delete in one batch, and then a crash. -/
theorem get_reopened_deleted : ∃ s u,
    Run (Machine.step plainConfig) (Machine.StepSafe plainConfig) .fresh
      (openSteps 6 ++ [.commit [.put (.bool true) (.bool false), .delete (.bool true)]]) s ∧
      s.mode = .up u ∧ ∃ ops u', openPlan plainConfig (s.disk.crash []) = some (ops, u') ∧
        ∀ k, u'.engine.get plainConfig k = u.engine.get plainConfig k := by
  simp only [exists_and_left]
  refine Run.exists_of_exec (p := fun s => (s.read plainConfig (.bool true)).isSome = true ∧
    0 < (replay plainConfig s.disk.segments).byteSize) (by decide +kernel)
    fun s hs ⟨hread, hsize⟩ => ?_
  obtain ⟨u, hu⟩ := Machine.exists_up_of_read hread
  exact ⟨u, hu, get_reopened (fun _ _ => rfl) hs hu (.inr hsize) []⟩

/-- A batch inside a batch is logged, passed over by the running engine and applied by recovery. -/
theorem get_nestedBatch :
    ((exec (Machine.step plainConfig) .fresh
      (openSteps 6 ++ [.commit [.batch [.put (.bool true) (.bool true)]]])).bind fun s =>
      s.read plainConfig (.bool true)) = some (.ok none) ∧
    ((exec (Machine.step plainConfig) .fresh
      (openSteps 6 ++ [.commit [.batch [.put (.bool true) (.bool true)]], .crash []] ++
        openSteps 12)).bind fun s =>
      s.read plainConfig (.bool true)) = some (.ok (some (.bool true))) := by
  constructor <;> decide +kernel

def weightlessTrace : List (Event DbKey DbValue) :=
  openSteps 6 ++ [.commit [.put (.string "") (.string "")], .crash []] ++
  openSteps 10 ++ [.crash []] ++ openSteps 10

/-- The first open replays the put but leaves it in no SSTable and removes its segment. -/
theorem get_weightlessTrace :
    ((exec (Machine.step plainConfig) .fresh weightlessTrace).bind fun s =>
      s.read plainConfig (.string "")) = some (.ok none) ∧
    (lastWrite (Event.acknowledged weightlessTrace) (.string "")).join = some (.string "") := by
  constructor <;> decide +kernel

end Dtdb.Storage
