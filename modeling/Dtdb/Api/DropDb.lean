import Dtdb.Relational.Occ
import Mathlib.Data.Fintype.Basic

/-! # Dropping a database

`drop_db` removes the catalog entry under the lock, then shuts the instance down and deletes its
directory.  In between, `create_db` may open the same directory, and a transaction that is not in
the active set goes on using the instance. -/

namespace Dtdb.Api

open Dtdb.Lib Dtdb.Relational List Option Function

variable {N C : Type}

/-- The instance a directory was made for and the instances that wrote rows into it. -/
structure Dir where
  made : Nat
  writers : List Nat
  deriving DecidableEq, Repr

/-- Its name, the directory it opened, and the dropped instances whose rows it found there. -/
structure Instance (N : Type) where
  name : N
  made : Nat
  stale : List Nat
  deriving DecidableEq, Repr

/-- Where a client's `drop_db` is. -/
inductive DropPc (N : Type) where
  | idle
  | removed (name : N) (id : Nat)
  | shut (name : N) (id : Nat)
  deriving DecidableEq, Repr

/-- The name and instance a `drop_db` still has to delete. -/
def DropPc.pending : DropPc N → Option (N × Nat)
  | .idle => none
  | .removed name id | .shut name id => some (name, id)

inductive Session where
  | handle (id : Nat)
  | live (id : Nat) (level : IsolationLevel)
  | ended
  deriving DecidableEq

def Session.uses : Session → Option Nat
  | .handle id | .live id _ => some id
  | .ended => none

/-- Whether the session counts for `has_active_transactions` of the instance. -/
def Session.active (id : Nat) : Session → Bool
  | .live i level => i = id && level.registers
  | _ => false

/-- The catalog, all instances, the directories, the instances dropped, and the clients. -/
structure DbCatalog (N C : Type) where
  databases : N → Option Nat
  instances : List (Instance N)
  dirs : N → Option Dir
  dropped : List Nat
  clients : C → DropPc N
  sessions : List Session

inductive DbCall (N C : Type) where
  /-- `create_db`; `ok` is whether the open succeeded -/
  | create (name : N) (ok : Bool)
  /-- the part of `drop_db` under the catalog lock -/
  | remove (client : C) (name : N)
  | shutdown (client : C)
  /-- `remove_dir_all`; `ok` is whether it succeeded -/
  | delete (client : C) (ok : Bool)
  /-- `get_db_and_engine` -/
  | lookup (name : N)
  /-- `Transaction::new_with_isolation` -/
  | begin (session : Nat) (level : IsolationLevel)
  | write (session : Nat)
  | finish (session : Nat)

namespace DbCatalog

def fresh : DbCatalog N C := ⟨fun _ => none, [], fun _ => none, [], fun _ => .idle, []⟩

variable [DecidableEq N] [DecidableEq C]

/-- `create_dir_all` keeps a directory that exists. -/
def openDir (s : DbCatalog N C) (name : N) : Dir := (s.dirs name).getD ⟨s.instances.length, []⟩

def create (s : DbCatalog N C) (name : N) (ok : Bool) : DbCatalog N C :=
  match s.databases name with
  | some _ => s
  | none =>
    let dir := s.openDir name
    let dirs := update s.dirs name (some dir)
    if ok then
      { s with
        databases := update s.databases name (some s.instances.length)
        instances := s.instances ++ [⟨name, dir.made, dir.writers.filter (· ∈ s.dropped)⟩]
        dirs }
    else { s with dirs }

/-- Refused while a registered transaction runs. -/
def remove (s : DbCatalog N C) (client : C) (name : N) : DbCatalog N C :=
  match s.databases name with
  | none => s
  | some id =>
    if s.sessions.any (·.active id) then s
    else
      { s with
        databases := update s.databases name none
        dropped := id :: s.dropped
        clients := update s.clients client (.removed name id) }

/-- Committed rows reach the directory of the instance's name, while there is one. -/
def write (s : DbCatalog N C) (id : Nat) : DbCatalog N C :=
  match s.instances[id]? with
  | none => s
  | some i => { s with
      dirs := update s.dirs i.name
        ((s.dirs i.name).map fun d => { d with writers := id :: d.writers }) }

def step (s : DbCatalog N C) : DbCall N C → Option (DbCatalog N C)
  | .create name ok => some (s.create name ok)
  | .remove client name =>
    match s.clients client with
    | .idle => some (s.remove client name)
    | _ => none
  | .shutdown client =>
    match s.clients client with
    | .removed name id => some { s with clients := update s.clients client (.shut name id) }
    | _ => none
  | .delete client ok =>
    match s.clients client with
    | .shut name _ => some { s with
        dirs := if ok then update s.dirs name none else s.dirs
        clients := update s.clients client .idle }
    | _ => none
  | .lookup name => some { s with
      sessions := s.sessions ++ ((s.databases name).map Session.handle).toList }
  | .begin t level =>
    match s.sessions[t]? with
    | some (.handle id) => some { s with sessions := s.sessions.set t (.live id level) }
    | _ => none
  | .write t =>
    match s.sessions[t]? with
    | some (.live id _) => some (s.write id)
    | _ => none
  | .finish t =>
    match s.sessions[t]? with
    | some (.live _ _) | some (.handle _) => some { s with sessions := s.sessions.set t .ended }
    | _ => none

/-- Every registered instance has its own directory, no instance found rows of a dropped one, and no
database that is being dropped has a live transaction. -/
structure Sound (s : DbCatalog N C) : Prop where
  intact : ∀ name id, s.databases name = some id → ∃ i d, s.instances[id]? = some i ∧
    s.dirs i.name = some d ∧ d.made = i.made
  clean : ∀ i ∈ s.instances, i.stale = []
  unused : ∀ client, ∀ x ∈ (s.clients client).pending, ∀ level, Session.live x.2 level ∉ s.sessions

/-- No database is created while its name is being dropped, none is dropped while anyone has a
handle of it, and directories are deleted. -/
def StepSafe (s : DbCatalog N C) : DbCall N C → Prop
  | .create name _ => ∀ client, ∀ x ∈ (s.clients client).pending, x.1 ≠ name
  | .remove _ name => ∀ id ∈ s.databases name, ∀ x ∈ s.sessions, x.uses ≠ some id
  | .delete _ ok => ok = true
  | _ => True

/-! ## The invariant -/

structure Inv (s : DbCatalog N C) : Prop where
  registered : ∀ name id, s.databases name = some id → ∃ i d, s.instances[id]? = some i ∧
    i.name = name ∧ s.dirs name = some d ∧ d.made = i.made
  clean : ∀ i ∈ s.instances, i.stale = []
  gone : ∀ client, ∀ x ∈ (s.clients client).pending, s.databases x.1 = none ∧
    x.2 < s.instances.length ∧ ∀ name, s.databases name ≠ some x.2
  single : ∀ c c' x x', (s.clients c).pending = some x → (s.clients c').pending = some x' →
    x.1 = x'.1 → c = c'
  reachable : ∀ y ∈ s.sessions, ∀ id ∈ y.uses, ∃ name, s.databases name = some id
  empty : ∀ name d, s.dirs name = some d → s.databases name = none →
    (∀ client, ∀ x ∈ (s.clients client).pending, x.1 ≠ name) → d.writers = []

omit [DecidableEq N] [DecidableEq C] in
theorem Inv.fresh : Inv (DbCatalog.fresh : DbCatalog N C) :=
  ⟨nofun, nofun, nofun, nofun, nofun, nofun⟩

variable {s s' : DbCatalog N C} {name : N} {client : C} {id : Nat}

omit [DecidableEq N] [DecidableEq C] in
theorem Inv.sound (h : s.Inv) : s.Sound where
  intact name id hid := by
    obtain ⟨i, d, hi, hname, hd, hmade⟩ := h.registered name id hid
    exact ⟨i, d, hi, hname ▸ hd, hmade⟩
  clean := h.clean
  unused client x hx level hin := by
    obtain ⟨name, hname⟩ := h.reachable _ hin x.2 rfl
    exact (h.gone client x hx).2.2 name hname

omit [DecidableEq N] [DecidableEq C] in
theorem Inv.registered_lt (h : s.Inv) (hid : s.databases name = some id) :
    id < s.instances.length := by
  obtain ⟨i, d, hi, -⟩ := h.registered name id hid
  exact (List.getElem?_eq_some_iff.mp hi).1

omit [DecidableEq C] in
theorem Inv.registered_update (h : s.Inv) (hdb : s.databases name = none) {dir : Option Dir} (n : N)
    (i : Nat) (hi : s.databases n = some i) : ∃ j d, s.instances[i]? = some j ∧ j.name = n ∧
      update s.dirs name dir n = some d ∧ d.made = j.made := by
  rw [update_of_ne]
  · exact h.registered n i hi
  · rintro rfl
    rw [hdb] at hi
    cases hi

section

variable (h : s.Inv) (hdb : s.databases name = none)
  (hsafe : ∀ client, ∀ x ∈ (s.clients client).pending, x.1 ≠ name)

include h hdb hsafe

omit [DecidableEq N] [DecidableEq C] in
/-- A name that is free and not being dropped has no rows left on disk. -/
theorem Inv.writers_openDir : (s.openDir name).writers = [] := by
  unfold openDir
  cases hdir : s.dirs name with
  | none => rfl
  | some d => exact h.empty name d hdir hdb hsafe

omit [DecidableEq C] in
theorem Inv.opened : Inv { s with
    databases := update s.databases name (some s.instances.length)
    instances := s.instances ++ [⟨name, (s.openDir name).made,
      (s.openDir name).writers.filter (· ∈ s.dropped)⟩]
    dirs := update s.dirs name (some (s.openDir name)) } where
  registered n i hi := by
    dsimp only at hi ⊢
    by_cases hn : n = name
    · subst hn
      rw [update_self] at hi ⊢
      cases hi
      exact ⟨_, _, getElem?_concat_length, rfl, rfl, rfl⟩
    · rw [update_of_ne hn] at hi ⊢
      rw [getElem?_append_left (h.registered_lt hi)]
      exact h.registered n i hi
  clean i hi := by
    rcases mem_append.1 hi with hi | hi
    · exact h.clean i hi
    · rw [mem_singleton.1 hi, h.writers_openDir hdb hsafe]
      rfl
  gone c x hx := by
    obtain ⟨hnone, hlt, hne⟩ := h.gone c x hx
    dsimp only
    refine ⟨?_, ?_, fun n => ?_⟩
    · rw [update_of_ne (hsafe c x hx)]
      exact hnone
    · rw [length_append]
      exact Nat.lt_add_right _ hlt
    · by_cases hn : n = name
      · rw [hn, update_self]
        intro heq
        exact absurd (some.inj heq) (Nat.ne_of_gt hlt)
      · rw [update_of_ne hn]
        exact hne n
  single := h.single
  reachable y hy i hi := by
    obtain ⟨n, hn⟩ := h.reachable y hy i hi
    refine ⟨n, ?_⟩
    dsimp only
    rw [update_of_ne, hn]
    rintro rfl
    rw [hdb] at hn
    cases hn
  empty n d hn hnone hp := by
    dsimp only at hn hnone
    by_cases heq : n = name
    · rw [heq, update_self] at hnone
      cases hnone
    · rw [update_of_ne heq] at hn hnone
      exact h.empty n d hn hnone hp

omit [DecidableEq C] in
theorem Inv.openFailed :
    Inv { s with dirs := update s.dirs name (some (s.openDir name)) } :=
  { h with
    registered := h.registered_update hdb
    empty := fun n d hn hnone hp => by
      dsimp only at hn
      by_cases heq : n = name
      · rw [heq, update_self] at hn
        rw [← some.inj hn]
        exact h.writers_openDir hdb hsafe
      · rw [update_of_ne heq] at hn
        exact h.empty n d hn hnone hp }

end

omit [DecidableEq N] [DecidableEq C] in
theorem Inv.name_eq (h : s.Inv) (hid : s.databases name = some id) {n : N}
    (hn : s.databases n = some id) : n = name := by
  obtain ⟨i, -, hi, hname, -⟩ := h.registered n id hn
  obtain ⟨j, -, hj, hname', -⟩ := h.registered name id hid
  rw [hi] at hj
  rw [← hname, ← hname', some.inj hj]

omit [DecidableEq C] in
theorem eq_of_update_none {n : N} {i : Nat} (hi : update s.databases name none n = some i) :
    n ≠ name ∧ s.databases n = some i := by
  by_cases hn : n = name
  · rw [hn, update_self] at hi
    cases hi
  · rw [update_of_ne hn] at hi
    exact ⟨hn, hi⟩

omit [DecidableEq N] in
theorem pending_update {pc : DropPc N} {c : C} {x : N × Nat}
    (hx : (update s.clients client pc c).pending = some x) :
    c = client ∧ pc.pending = some x ∨ c ≠ client ∧ (s.clients c).pending = some x := by
  by_cases hc : c = client
  · rw [hc, update_self] at hx
    exact .inl ⟨hc, hx⟩
  · rw [update_of_ne hc] at hx
    exact .inr ⟨hc, hx⟩

theorem Inv.removed (h : s.Inv) (hidle : s.clients client = .idle) (hdb : s.databases name = some id)
    (hsafe : ∀ x ∈ s.sessions, x.uses ≠ some id) : Inv { s with
      databases := update s.databases name none
      dropped := id :: s.dropped
      clients := update s.clients client (.removed name id) } where
  registered n i hi := h.registered n i (eq_of_update_none hi).2
  clean := h.clean
  gone c x hx := by
    rcases pending_update hx with ⟨-, hx⟩ | ⟨-, hx⟩
    · cases hx
      refine ⟨update_self .., h.registered_lt hdb, fun n hn => ?_⟩
      obtain ⟨hne, hn⟩ := eq_of_update_none hn
      exact hne (h.name_eq hdb hn)
    · obtain ⟨hnone, hlt, hne⟩ := h.gone c x hx
      refine ⟨?_, hlt, fun n hn => hne n (eq_of_update_none hn).2⟩
      dsimp only
      by_cases heq : x.1 = name
      · rw [heq, update_self]
      · rw [update_of_ne heq]
        exact hnone
  single c c' x x' hx hx' heq := by
    rcases pending_update hx with ⟨rfl, hnew⟩ | ⟨-, hold⟩ <;>
      rcases pending_update hx' with ⟨rfl, hnew'⟩ | ⟨-, hold'⟩
    · rfl
    · cases hnew
      have := (h.gone c' x' hold').1
      rw [← heq, hdb] at this
      cases this
    · cases hnew'
      have := (h.gone c x hold).1
      rw [heq, hdb] at this
      cases this
    · exact h.single c c' x x' hold hold' heq
  reachable y hy i hi := by
    obtain ⟨n, hn⟩ := h.reachable y hy i hi
    refine ⟨n, ?_⟩
    dsimp only
    rw [update_of_ne, hn]
    rintro rfl
    rw [hdb] at hn
    cases hn
    exact hsafe y hy hi
  empty n d hn hnone hp := by
    dsimp only at hn hnone hp
    have hne : n ≠ name := by
      rintro rfl
      refine hp client (n, id) ?_ rfl
      rw [update_self]
      rfl
    rw [update_of_ne hne] at hnone
    refine h.empty n d hn hnone fun c x hx => hp c x ?_
    rw [update_of_ne]
    · exact hx
    · rintro rfl
      rw [hidle] at hx
      cases hx

omit [DecidableEq N] in
theorem Inv.shutdown (h : s.Inv) (hc : s.clients client = .removed name id) :
    Inv { s with clients := update s.clients client (.shut name id) } := by
  have hpend : ∀ c, (update s.clients client (.shut name id) c).pending
      = (s.clients c).pending := by
    intro c
    by_cases hcc : c = client
    · rw [hcc, update_self, hc]
      rfl
    · rw [update_of_ne hcc]
  refine ⟨h.registered, h.clean, fun c x hx => ?_, fun c c' x x' hx hx' => ?_, h.reachable,
    fun n d hn hnone hp => ?_⟩
  · exact h.gone c x ((hpend c).symm.trans hx)
  · exact h.single c c' x x' ((hpend c).symm.trans hx) ((hpend c').symm.trans hx')
  · exact h.empty n d hn hnone fun c x hx => hp c x ((hpend c).trans hx)

theorem Inv.deleted (h : s.Inv) (hc : s.clients client = .shut name id) : Inv { s with
    dirs := update s.dirs name none
    clients := update s.clients client .idle } where
  registered := h.registered_update (h.gone client (name, id) (by rw [hc]; rfl)).1
  clean := h.clean
  gone c x hx := by
    rcases pending_update hx with ⟨-, hx⟩ | ⟨-, hx⟩
    · cases hx
    · exact h.gone c x hx
  single c c' x x' hx hx' heq := by
    rcases pending_update hx with ⟨-, hx⟩ | ⟨-, hx⟩
    · cases hx
    rcases pending_update hx' with ⟨-, hx'⟩ | ⟨-, hx'⟩
    · cases hx'
    exact h.single c c' x x' hx hx' heq
  reachable := h.reachable
  empty n d hn hnone hp := by
    dsimp only at hn hnone hp
    have hne : n ≠ name := by
      rintro rfl
      rw [update_self] at hn
      cases hn
    rw [update_of_ne hne] at hn
    refine h.empty n d hn hnone fun c x hx heq => ?_
    by_cases hcc : c = client
    · rw [hcc, hc] at hx
      cases hx
      exact hne heq.symm
    · exact hp c x (by rw [update_of_ne hcc]; exact hx) heq

omit [DecidableEq N] [DecidableEq C] in
theorem Inv.sessions (h : s.Inv) {sessions : List Session}
    (hs : ∀ y ∈ sessions, ∀ id ∈ y.uses, ∃ name, s.databases name = some id) :
    Inv { s with sessions } := ⟨h.registered, h.clean, h.gone, h.single, hs, h.empty⟩

omit [DecidableEq C] in
theorem Inv.write (h : s.Inv) (hid : s.databases name = some id) : (s.write id).Inv := by
  obtain ⟨i, d, hi, rfl, hdir, hmade⟩ := h.registered name id hid
  simp only [DbCatalog.write, hi]
  refine ⟨fun n j hj => ?_, h.clean, h.gone, h.single, h.reachable, fun n d' hn hnone hp => ?_⟩
  · obtain ⟨k, d', hk, hname, hdir', hmade'⟩ := h.registered n j hj
    dsimp only
    by_cases hn : n = i.name
    · subst hn
      rw [hdir] at hdir'
      cases hdir'
      refine ⟨k, { d with writers := id :: d.writers }, hk, hname, ?_, hmade'⟩
      rw [update_self, hdir]
      rfl
    · rw [update_of_ne hn]
      exact ⟨k, d', hk, hname, hdir', hmade'⟩
  · dsimp only at hn hnone
    have hne : n ≠ i.name := by
      rintro rfl
      rw [hid] at hnone
      cases hnone
    rw [update_of_ne hne] at hn
    exact h.empty n d' hn hnone hp

theorem Inv.step (h : s.Inv) {l : DbCall N C} (hok : s.StepSafe l) (hs : s.step l = some s') :
    s'.Inv := by
  cases l with
  | create name ok =>
    cases hs
    unfold DbCatalog.create
    split
    · exact h
    · next hdb =>
      split
      · exact h.opened hdb hok
      · exact h.openFailed hdb hok
  | remove client name =>
    simp only [DbCatalog.step] at hs
    split at hs <;> cases hs
    next hidle =>
    unfold DbCatalog.remove
    split
    · exact h
    · next id hdb =>
      split
      · exact h
      · exact h.removed hidle hdb (hok id hdb)
  | shutdown client =>
    simp only [DbCatalog.step] at hs
    split at hs <;> cases hs
    next hc => exact h.shutdown hc
  | delete client ok =>
    simp only [DbCatalog.step] at hs
    split at hs <;> cases hs
    next hc =>
    rw [show ok = true from hok]
    exact h.deleted hc
  | lookup name =>
    cases hs
    refine h.sessions fun y hy id hid => ?_
    rcases mem_append.1 hy with hy | hy
    · exact h.reachable y hy id hid
    · refine ⟨name, ?_⟩
      cases hdb : s.databases name with
      | none => simp [hdb] at hy
      | some i =>
        simp only [hdb, map_some, toList_some, mem_singleton] at hy
        subst hy
        exact hid
  | begin t level =>
    simp only [DbCatalog.step] at hs
    split at hs <;> cases hs
    next id ht =>
    refine h.sessions fun y hy i hi => ?_
    rcases mem_or_eq_of_mem_set hy with hy | rfl
    · exact h.reachable y hy i hi
    · exact h.reachable _ (mem_of_getElem? ht) i hi
  | write t =>
    simp only [DbCatalog.step] at hs
    split at hs <;> cases hs
    next id level ht =>
    obtain ⟨name, hname⟩ := h.reachable _ (mem_of_getElem? ht) id rfl
    exact h.write hname
  | finish t =>
    simp only [DbCatalog.step] at hs
    split at hs <;> cases hs
    all_goals
      refine h.sessions fun y hy i hi => ?_
      rcases mem_or_eq_of_mem_set hy with hy | rfl
      · exact h.reachable y hy i hi
      · cases hi

instance decidableDropSafe [Fintype C] (s : DbCatalog N C) :
    (l : DbCall N C) → Decidable (s.StepSafe l)
  | .create .. => inferInstanceAs (Decidable (∀ _ : C, ∀ x ∈ _, _ ≠ _))
  | .remove .. => inferInstanceAs (Decidable (∀ id ∈ _, ∀ x ∈ _, _ ≠ _))
  | .delete _ ok => inferInstanceAs (Decidable (ok = true))
  | .shutdown _ | .lookup _ | .begin _ _ | .write _ | .finish _ => isTrue trivial

def quietCalls : List (DbCall Nat Bool) :=
  [.create 0 true, .lookup 0, .begin 0 .readCommitted, .write 0, .finish 0, .remove true 0,
    .shutdown true, .delete true true, .create 0 true]

/-- The name is taken again before the directory is deleted. -/
def racingCalls : List (DbCall Nat Bool) :=
  [.create 0 true, .lookup 0, .begin 0 .snapshotIsolation, .write 0, .finish 0, .remove true 0,
    .create 0 true, .shutdown true, .delete true true]

/-- A transaction at read committed runs during the drop. -/
def uncountedCalls : List (DbCall Nat Bool) :=
  [.create 0 true, .lookup 0, .begin 0 .readCommitted, .remove true 0, .shutdown true]

end DbCatalog

end Dtdb.Api
