import Mathlib.Data.List.Basic

/-! # Runs of a guarded step function

`Run step ok s₀ ls s`: the labels `ls`, taken in order from `s₀`, lead to `s`, and every step was
enabled and met `ok`.  `Throughout exec P ls s`: however early `ls` is cut off, `P` holds. -/

namespace Dtdb.Lib

variable {S L : Type*} {step : S → L → Option S} {ok : S → L → Prop}

inductive Run (step : S → L → Option S) (ok : S → L → Prop) (s₀ : S) : List L → S → Prop where
  | nil : Run step ok s₀ [] s₀
  | snoc {ls : List L} {s s' : S} {l : L} : Run step ok s₀ ls s → ok s l → step s l = some s' →
      Run step ok s₀ (ls ++ [l]) s'

/-- What holds at the start and across every guarded step holds after every run. -/
theorem Run.invariant {I : List L → S → Prop} {s₀ : S} (h₀ : I [] s₀)
    (hstep : ∀ ls s l s', I ls s → ok s l → step s l = some s' → I (ls ++ [l]) s')
    {ls : List L} {s : S} (h : Run step ok s₀ ls s) : I ls s := by
  induction h with
  | nil => exact h₀
  | snoc _ hok hs ih => exact hstep _ _ _ _ ih hok hs

/-- Execute the labels in order; `none` when one is not enabled. -/
def exec (step : S → L → Option S) : S → List L → Option S
  | s, [] => some s
  | s, l :: ls => match step s l with
    | some s' => exec step s' ls
    | none => none

theorem Run.cons {s₀ s₁ s : S} {l : L} {ls : List L} (hok : ok s₀ l) (hs : step s₀ l = some s₁)
    (h : Run step ok s₁ ls s) : Run step ok s₀ (l :: ls) s := by
  induction h with
  | nil => exact Run.snoc .nil hok hs
  | snoc _ hok' hs' ih => exact Run.snoc ih hok' hs'

def guarded (step : S → L → Option S) (ok : S → L → Prop) [∀ s l, Decidable (ok s l)] :
    S → L → Option S := fun s l => if ok s l then step s l else none

theorem Run.of_exec [∀ s l, Decidable (ok s l)] {s₀ s : S} {ls : List L}
    (h : exec (guarded step ok) s₀ ls = some s) : Run step ok s₀ ls s := by
  induction ls generalizing s₀ with
  | nil => cases h; exact .nil
  | cons l ls ih =>
    simp only [exec] at h
    split at h
    · next s₁ hs =>
      obtain ⟨hok, hs⟩ := Option.ite_none_right_eq_some.1 hs
      exact .cons hok hs (ih h)
    · cases h

instance decidableExistsSome {A : Type*} (x : Option A) (p : A → Prop) [DecidablePred p] :
    Decidable (∃ a, x = some a ∧ p a) :=
  decidable_of_iff (x.any fun a => p a) (by cases x <;> simp)

theorem Run.exists_of_exec [∀ s l, Decidable (ok s l)] {s₀ : S} {ls : List L} {p q : S → Prop}
    (h : ∃ s, exec (guarded step ok) s₀ ls = some s ∧ p s)
    (hq : ∀ s, Run step ok s₀ ls s → p s → q s) : ∃ s, Run step ok s₀ ls s ∧ q s := by
  obtain ⟨s, hs, hp⟩ := h
  exact ⟨s, .of_exec hs, hq s (.of_exec hs) hp⟩

/-! ## Straight-line programs -/

section

variable {exec : S → L → S} {P Q : S → Prop}

/-- `P` holds before and after every operation of the program. -/
def Throughout (exec : S → L → S) (P : S → Prop) : List L → S → Prop
  | [], s => P s
  | l :: ls, s => P s ∧ Throughout exec P ls (exec s l)

variable {ls : List L}

theorem Throughout.head {s : S} (h : Throughout exec P ls s) : P s := by
  cases ls with
  | nil => exact h
  | cons l ls => exact h.1

theorem Throughout.last {s : S} (h : Throughout exec P ls s) :
    P (ls.foldl exec s) := by
  induction ls generalizing s with
  | nil => exact h
  | cons l ls ih => exact ih h.2

theorem Throughout.take {s : S} (h : Throughout exec P ls s) (n : Nat) :
    P ((ls.take n).foldl exec s) := by
  induction ls generalizing s n with
  | nil =>
    rw [List.take_nil]
    exact h
  | cons l ls ih =>
    cases n with
    | zero => exact h.1
    | succ n => exact ih h.2 n

theorem Throughout.append {xs ys : List L} {s : S} (hx : Throughout exec P xs s)
    (hy : Throughout exec P ys (xs.foldl exec s)) : Throughout exec P (xs ++ ys) s := by
  induction xs generalizing s with
  | nil => exact hy
  | cons l xs ih => exact ⟨hx.1, ih hx.2 hy⟩

theorem Throughout.imp {s : S} (h : Throughout exec P ls s) (hpq : ∀ s, P s → Q s) :
    Throughout exec Q ls s := by
  induction ls generalizing s with
  | nil => exact hpq s h
  | cons l ls ih => exact ⟨hpq s h.1, ih h.2⟩

theorem Throughout.and {s : S} (hp : Throughout exec P ls s) (hq : Throughout exec Q ls s) :
    Throughout exec (fun s => P s ∧ Q s) ls s := by
  induction ls generalizing s with
  | nil => exact ⟨hp, hq⟩
  | cons l ls ih => exact ⟨⟨hp.1, hq.1⟩, ih hp.2 hq.2⟩

theorem Throughout.map {S' L' : Type*} {exec' : S' → L' → S'} {P' : S' → Prop} {f : L' → L}
    {g : S' → S} (hcomm : ∀ s l, exec (g s) (f l) = g (exec' s l)) (hP : ∀ s, P' s → P (g s))
    {ls : List L'} {s : S'} (h : Throughout exec' P' ls s) :
    Throughout exec P (ls.map f) (g s) := by
  induction ls generalizing s with
  | nil => exact hP s h
  | cons l ls ih =>
    refine ⟨hP s h.1, ?_⟩
    rw [hcomm]
    exact ih h.2

theorem Throughout.of_step {s : S} (h : P s) (hstep : ∀ s, ∀ l ∈ ls, P s → P (exec s l)) :
    Throughout exec P ls s := by
  induction ls generalizing s with
  | nil => exact h
  | cons l ls ih =>
    exact ⟨h, ih (hstep s l List.mem_cons_self h) fun s l hl => hstep s l (.tail _ hl)⟩

end

end Dtdb.Lib
