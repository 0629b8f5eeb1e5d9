import Dtdb.Lib.Run
import Dtdb.Storage.FlushSteps

/-! # Interleaved writes, flushes and compactions

Flushes run side by side and finish in any order, and whole compactions run in between.  A read
returns the last committed write as long as no compaction of level 0 overtakes an older memtable
whose flush has not finished. -/

namespace Dtdb.Storage

open Dtdb.Lib

variable {K V Λ : Type}

inductive Step (K V : Type) where
  | commit (entries : List (WalEntry K V))
  | sealActive
  | claim (walId : Nat)
  | finish (walId : Nat)
  | retire
  | compact (level : Nat)

namespace Step

def mutations : Step K V → List (Mutation K V)
  | .commit es => WalEntry.mutations es
  | _ => []

def committed (ls : List (Step K V)) : List (Mutation K V) := ls.flatMap mutations

end Step

variable [LinearOrder K] [ByteSize K] [ByteSize V]

namespace Engine

def step [DecidableEq Λ] (cfg : Config K V Λ) (e : Engine K V Λ) : Step K V → Option (Engine K V Λ)
  | .commit es => some (e.commit cfg es)
  | .sealActive => some e.sealActive
  | .claim w => e.claimFlush w
  | .finish w => e.finishFlush w
  | .retire => some e.retireDurablePrefix
  | .compact n => (e.compactLevel cfg n).toOption

/-- A compaction of level 0 must not overtake an unfinished flush. -/
def StepSafe (e : Engine K V Λ) (l : Step K V) : Prop :=
  match l with
  | .compact 0 => e.NoOvertaking
  | _ => True

instance (e : Engine K V Λ) : (l : Step K V) → Decidable (e.StepSafe l)
  | .compact 0 => inferInstanceAs (Decidable e.NoOvertaking)
  | .compact (_ + 1) | .commit _ | .sealActive | .claim _ | .finish _ | .retire => .isTrue trivial

end Engine

/-! ## Every step keeps the invariant -/

section

variable {cfg : Config K V Λ} {T : Option Λ} {A : Type} {M : Meaning cfg T A}
variable {e e' : Engine K V Λ}

theorem FlushInv.retire_go (h : FlushInv M e) (n : Nat) :
    FlushInv M (Engine.retireDurablePrefix.go n e) ∧
      ∀ k, M.view (Engine.retireDurablePrefix.go n e) k = M.view e k := by
  induction n generalizing e with
  | zero => exact ⟨h, fun _ => rfl⟩
  | succ n ih =>
    simp only [Engine.retireDurablePrefix.go]
    split
    · next e₁ he₁ =>
      obtain ⟨hinv, hview⟩ := ih (h.retire he₁)
      exact ⟨hinv, fun k => (hview k).trans (h.view_retire he₁ k)⟩
    · exact ⟨h, fun _ => rfl⟩

theorem Shaped.step [DecidableEq Λ] (M : Meaning cfg T A) (h : Shaped cfg.options.maxLevel T e)
    {l : Step K V} (hs : e.step cfg l = some e') : Shaped cfg.options.maxLevel T e' := by
  cases l with
  | commit es =>
    cases hs
    exact h.commit cfg es
  | sealActive =>
    cases hs
    exact h.sealActive
  | claim w => exact h.claim hs
  | finish w => exact h.finish hs
  | retire =>
    cases hs
    unfold Engine.retireDurablePrefix
    generalize e.immutable.length = n
    induction n generalizing e with
    | zero => exact h
    | succ n ih =>
      simp only [Engine.retireDurablePrefix.go]
      split
      · next e₁ he₁ => exact ih (h.retire he₁)
      · exact h
  | compact n =>
    obtain ⟨e₁, he₁, hc⟩ := Engine.compactLevel_spec M h.levels h.layout n
    simp only [Engine.step, he₁] at hs
    cases hs
    exact h.compacted hc

theorem FlushInv.step [DecidableEq Λ] (h : FlushInv M e) {l : Step K V} (hok : e.StepSafe l)
    (hs : e.step cfg l = some e') :
    FlushInv M e' ∧ ∀ k, M.view e' k = match lastWrite l.mutations k with
      | some s => M.slot T s
      | none => M.view e k := by
  cases l with
  | commit es =>
    cases hs
    exact ⟨h.commit es, M.view_commit e es⟩
  | sealActive =>
    cases hs
    exact ⟨h.seal, M.view_seal e⟩
  | claim w =>
    obtain ⟨i, hi, -, -, rfl⟩ := Engine.claimFlush_eq hs
    exact ⟨h.claim hs, M.view_setSlot e w .inFlight⟩
  | finish w => exact ⟨h.finish hs, h.view_finish hs⟩
  | retire =>
    cases hs
    exact h.retire_go _
  | compact n =>
    obtain ⟨e₁, he₁, hc⟩ := Engine.compactLevel_spec M h.levels h.layout n
    simp only [Engine.step, he₁] at hs
    cases hs
    refine ⟨h.compacted hc ?_, hc.view⟩
    rintro rfl
    exact hok

theorem FlushInv.run [DecidableEq Λ] {e₀ : Engine K V Λ} (h₀ : FlushInv M e₀)
    {ls : List (Step K V)} (hr : Run (Engine.step cfg) Engine.StepSafe e₀ ls e) :
    FlushInv M e ∧ ∀ k, M.view e k = match lastWrite (Step.committed ls) k with
      | some s => M.slot T s
      | none => M.view e₀ k := by
  refine hr.invariant (I := fun ls e => FlushInv M e ∧ ∀ k, M.view e k
    = match lastWrite (Step.committed ls) k with
      | some s => M.slot T s
      | none => M.view e₀ k) ⟨h₀, fun _ => rfl⟩ fun ls s l s' hinv hok hs => ?_
  obtain ⟨hnext, hview⟩ := hinv.1.step hok hs
  refine ⟨hnext, fun k => ?_⟩
  simp only [hview k, hinv.2 k, Step.committed, List.flatMap_append, List.flatMap_singleton,
    lastWrite_append]
  cases lastWrite l.mutations k <;> rfl

/-! ## Flushes in seal order -/

end

/-- Under the empty target layout a read returns what the view says was written last. -/
theorem Meaning.get_of_view [DecidableEq Λ] {cfg : Config K V Λ} (hrw : cfg.KeepsPlain)
    {e : Engine K V Λ} (hT : e.targetLayout = none) {muts : List (Mutation K V)} {k : K}
    (hview : (Meaning.identity hrw).view e k = match lastWrite muts k with
      | some s => (Meaning.identity hrw).slot none s
      | none => none) :
    e.get cfg k = .ok (lastWrite muts k).join := by
  obtain ⟨w, hget, hw⟩ := (Meaning.identity hrw).get_eq hT k
  rw [hget]
  have : w = (Meaning.identity hrw).view e k := by
    rw [← hw]
    exact Option.map_id'.symm
  rw [this, hview]
  cases lastWrite muts k with
  | none => rfl
  | some s => exact congrArg Except.ok Option.map_id'

/-- **Interleaved reads.** In every run whose level-0 compactions overtake no unfinished flush, a
read between any two steps returns the last committed write. -/
theorem get_eq_lastWrite_of_run [DecidableEq Λ] {cfg : Config K V Λ}
    (hrw : cfg.KeepsPlain) {ls : List (Step K V)} {e : Engine K V Λ}
    (hr : Run (Engine.step cfg) Engine.StepSafe .fresh ls e) (k : K) :
    e.get cfg k = .ok (lastWrite (Step.committed ls) k).join := by
  obtain ⟨hinv, hview⟩ := (FlushInv.fresh (Meaning.identity hrw)).run hr
  exact Meaning.get_of_view hrw hinv.layout (hview k)

def plainConfig : Config DbKey DbValue Unit where
  options := {}
  rewriter := passthrough
  fileSize r := r.entries.length
  frameSize es := es.length

def orderedTrace : List (Step DbKey DbValue) :=
  [.commit [.put (.bool true) (.bool false)], .sealActive, .claim 0, .finish 0,
    .commit [.delete (.bool true)], .sealActive, .compact 0, .claim 1, .finish 1, .retire,
    .compact 0]

theorem get_orderedTrace : ∃ e, Run (Engine.step plainConfig) Engine.StepSafe .fresh orderedTrace e ∧
    e.get plainConfig (.bool true) = .ok none := by
  obtain ⟨e, he⟩ := Option.isSome_iff_exists.1 (show (exec (guarded (Engine.step plainConfig)
    Engine.StepSafe) .fresh orderedTrace).isSome = true from rfl)
  exact ⟨e, .of_exec he, get_eq_lastWrite_of_run (fun _ _ => rfl) (.of_exec he) (.bool true)⟩

/-- The newer of two puts is flushed and compacted before the older one reaches level 0. -/
def overtakingTrace : List (Step DbKey DbValue) :=
  [.commit [.put (.bool true) (.bool false)], .sealActive, .commit [.put (.bool true) (.bool true)],
    .sealActive, .claim 1, .finish 1, .compact 0, .claim 0, .finish 0, .retire]

/-- The read then returns the older put. -/
theorem get_overtakingTrace :
    (exec (Engine.step plainConfig) .fresh overtakingTrace).map
      (fun e => e.get plainConfig (.bool true)) = some (.ok (some (.bool false))) ∧
    (lastWrite (Step.committed overtakingTrace) (.bool true)).join = some (.bool true) := by
  constructor <;> rfl

end Dtdb.Storage
