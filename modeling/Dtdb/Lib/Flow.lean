import Mathlib.Data.List.Forall2

/-! # Flows of items that may end in a fault

The items an iterator delivers before it is exhausted or fails.  An operator passes items on one by
one, or needs all of them before its first. -/

namespace Dtdb.Lib

open List Option

structure Flow (A E : Type*) where
  items : List A
  fault : Option E

theorem bind_eq_ok {A B E : Type*} {x : Except E A} {f : A → Except E B} {b : B} :
    Except.bind x f = .ok b ↔ ∃ a, x = .ok a ∧ f a = .ok b := by
  cases x <;> simp [Except.bind]

theorem bind_bind_eq_ok {A B C E : Type*} {x : Except E A} {y : A → Except E B}
    {f : A → B → Except E C} {c : C} : Except.bind x (fun a => Except.bind (y a) (f a)) = .ok c ↔
      ∃ a, x = .ok a ∧ ∃ b, y a = .ok b ∧ f a b = .ok c := by
  simp [bind_eq_ok]

theorem toOption_eq_some {A E : Type*} {x : Except E A} {a : A} : x.toOption = some a ↔ x = .ok a := by
  cases x <;> simp [Except.toOption]

theorem length_of_walk {A B E : Type*} (f : A → Except E B) (g : List A → Except E (List B))
    (hnil : g [] = .ok [])
    (hcons : ∀ a as, g (a :: as) = Except.bind (f a) fun b => Except.bind (g as) fun bs => .ok (b :: bs))
    {as : List A} {bs : List B} (h : g as = .ok bs) : bs.length = as.length := by
  induction as generalizing bs with
  | nil =>
    cases hnil.symm.trans h
    rfl
  | cons a as ih =>
    obtain ⟨b, -, h⟩ := bind_eq_ok.1 ((hcons a as).symm.trans h)
    obtain ⟨bs', hbs, h⟩ := bind_eq_ok.1 h
    cases h
    rw [length_cons, length_cons, ih hbs]

/-! ## Tests that may fail -/

namespace Flow

variable {A B S E : Type*}

def failed (e : E) : Flow A E := ⟨[], some e⟩

def ofList (as : List A) : Flow A E := ⟨as, none⟩

def collect (s : Flow A E) : Except E (List A) :=
  match s.fault with
  | none => .ok s.items
  | some e => .error e

def expandItems (f : A → Except E (List B)) (fault : Option E) : List A → Flow B E
  | [] => ⟨[], fault⟩
  | a :: as => match f a with
    | .error e => failed e
    | .ok bs => ⟨bs ++ (expandItems f fault as).items, (expandItems f fault as).fault⟩

/-- Each item is replaced by a list, until a replacement fails. -/
def expand (f : A → Except E (List B)) (s : Flow A E) : Flow B E :=
  expandItems f s.fault s.items

def slice (skip : Nat) (count : Option Nat) (s : Flow A E) : Flow A E :=
  match count with
  | none => ⟨s.items.drop skip, s.fault⟩
  | some n =>
    ⟨(s.items.drop skip).take n, if skip + n ≤ s.items.length then none else s.fault⟩

def ofExcept : Except E (List A) → Flow A E
  | .ok as => ofList as
  | .error e => failed e

def fold (f : S → A → Except E S) (init : S) (s : Flow A E) : Except E S := do
  let state ← s.items.foldlM f init
  match s.fault with
  | none => .ok state
  | some e => .error e

theorem collect_eq_ok {s : Flow A E} {as : List A} : s.collect = .ok as ↔ s = ofList as := by
  obtain ⟨items, fault⟩ := s
  cases fault <;> simp [collect, ofList]

/-! ## Replacing items -/

/-! ## Where items come from -/

theorem mem_expandItems {f : A → Except E (List B)} {fault : Option E} {as : List A} {b : B}
    (h : b ∈ (expandItems f fault as).items) : ∃ a ∈ as, ∃ bs, f a = .ok bs ∧ b ∈ bs := by
  induction as with
  | nil => cases h
  | cons a as ih =>
    rw [expandItems] at h
    split at h
    · cases h
    · next bs hbs =>
      rcases mem_append.1 h with h | h
      · exact ⟨a, mem_cons_self, bs, hbs, h⟩
      · obtain ⟨a', ha', hb⟩ := ih h
        exact ⟨a', mem_cons_of_mem _ ha', hb⟩

theorem mem_expand {f : A → Except E (List B)} {s : Flow A E} {b : B} (h : b ∈ (s.expand f).items) :
    ∃ a ∈ s.items, ∃ bs, f a = .ok bs ∧ b ∈ bs := mem_expandItems h

theorem mem_slice {skip : Nat} {count : Option Nat} {s : Flow A E} {a : A}
    (h : a ∈ (s.slice skip count).items) : a ∈ s.items := by
  cases count with
  | none => exact mem_of_mem_drop h
  | some n => exact mem_of_mem_drop (mem_of_mem_take h)

theorem mem_ofExcept {r : Except E (List A)} {a : A} (h : a ∈ (ofExcept r).items) :
    ∃ as, r = .ok as ∧ a ∈ as := by
  cases r with
  | error e => cases h
  | ok as => exact ⟨as, rfl, h⟩

end Flow

end Dtdb.Lib
