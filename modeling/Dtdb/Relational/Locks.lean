import Dtdb.Lib.Run
import Dtdb.Lib.RwLock
import Mathlib.Data.Fintype.Basic

/-! # Catalog and commit locks

A transaction registers with its first access to a table and leaves when it is dropped; a schema
change holds the catalog lock while it waits for the registered readers of its table. -/

namespace Dtdb.Relational

open Dtdb.Lib List Option Function

variable {P N : Type}

/-! ## The parties -/

/-- What a transaction holds, or asks for next. -/
inductive TxPc (N : Type) where
  /-- `register_transaction`, before it reads `commit_history` -/
  | opening
  /-- inside, holding `commit_history` for reading -/
  | versioned
  /-- between calls -/
  | ready
  /-- `Database::get_table`, holding `tables` for reading -/
  | looking (t : N)
  /-- the handle is cloned and the lock released; not registered yet -/
  | found (t : N)
  /-- `commit` validates, holding `commit_history` for reading -/
  | validating
  /-- validated; asks for `commit_history` for writing -/
  | validated
  /-- the commit closure, holding `commit_history` for writing -/
  | committing
  /-- `checkpoint_locked` inside it asks for `tables` for reading -/
  | checkpointing
  /-- and holds both -/
  | syncing
  /-- checkpointed, still holding `commit_history` -/
  | finishing
  /-- `commit` has returned; `unregister_transaction` asks for `commit_history` for writing -/
  | ended
  /-- and holds it -/
  | pruning
  /-- and has released it; its slots in `active_table_access` remain -/
  | leaving
  | gone
  deriving DecidableEq, Repr

inductive DdlPc where
  /-- asks for `tables` for writing -/
  | start
  /-- holds it and checks its arguments -/
  | locked
  /-- waits for the readers of the table -/
  | waiting
  /-- found the table quiescent -/
  | publishing
  | finished
  deriving DecidableEq, Repr

/-- A transaction with the tables it has yet to access and its `cached_tables`, or a schema change.
-/
inductive Party (N : Type) where
  | tx (pc : TxPc N) (rest cached : List N)
  | ddl (drops : Bool) (t : N) (pc : DdlPc)
  deriving DecidableEq, Repr

inductive Move where
  /-- go on -/
  | next
  /-- park at the lock the party asks for -/
  | park
  /-- a commit that conflicts or writes nothing, or a schema change that is rejected -/
  | stop
  /-- the transaction log has grown past the threshold -/
  | checkpoint
  deriving DecidableEq, Repr

instance fintypeMove : Fintype Move :=
  ⟨{.next, .park, .stop, .checkpoint}, fun m => by cases m <;> decide⟩

/-! ## Steps -/

/-- A change to `active_table_access`. -/
inductive SlotOp (N : Type) where
  | keep
  | register (t : N)
  | leave
  | clear (t : N)

structure Script (N : Type) where
  tables : Option LockOp
  history : Option LockOp
  slots : SlotOp N
  removes : Option N
  after : Party N

namespace Script

def plain (after : Party N) : Script N := ⟨none, none, .keep, none, after⟩

def onTables (op : LockOp) (after : Party N) : Script N := ⟨some op, none, .keep, none, after⟩

def onHistory (op : LockOp) (after : Party N) : Script N := ⟨none, some op, .keep, none, after⟩

end Script

variable [DecidableEq N]

open Script in
/-- `catalog` lists the tables and `busy` those with readers. -/
def Party.script (catalog : List N) (busy : N → Bool) : Party N → Move → Option (Script N)
  | .tx .opening rest cached, .next => some (onHistory .read (.tx .versioned rest cached))
  | .tx .versioned rest cached, .next => some (onHistory .unread (.tx .ready rest cached))
  -- a cached handle is returned without touching the catalog
  | .tx .ready (t :: rest) cached, .next =>
    if t ∈ cached then some (plain (.tx .ready rest cached))
    else some (onTables .read (.tx (.looking t) rest cached))
  | .tx (.looking t) rest cached, .next =>
    if t ∈ catalog then some (onTables .unread (.tx (.found t) rest cached))
    else some (onTables .unread (.tx .ready rest cached))
  | .tx (.found t) rest cached, .next =>
    some ⟨none, none, .register t, none, .tx .ready rest (t :: cached)⟩
  | .tx .ready [] cached, .next => some (onHistory .read (.tx .validating [] cached))
  | .tx .validating rest cached, .next => some (onHistory .unread (.tx .validated rest cached))
  | .tx .validating rest cached, .stop => some (onHistory .unread (.tx .ended rest cached))
  | .tx .validated rest cached, .park => some (onHistory .park (.tx .validated rest cached))
  | .tx .validated rest cached, .next => some (onHistory .write (.tx .committing rest cached))
  | .tx .committing rest cached, .next => some (onHistory .unwrite (.tx .ended rest cached))
  | .tx .committing rest cached, .stop => some (onHistory .unwrite (.tx .ended rest cached))
  | .tx .committing rest cached, .checkpoint => some (plain (.tx .checkpointing rest cached))
  | .tx .checkpointing rest cached, .next => some (onTables .read (.tx .syncing rest cached))
  | .tx .syncing rest cached, .next => some (onTables .unread (.tx .finishing rest cached))
  | .tx .finishing rest cached, .next => some (onHistory .unwrite (.tx .ended rest cached))
  | .tx .ended rest cached, .park => some (onHistory .park (.tx .ended rest cached))
  | .tx .ended rest cached, .next => some (onHistory .write (.tx .pruning rest cached))
  | .tx .pruning rest cached, .next => some (onHistory .unwrite (.tx .leaving rest cached))
  | .tx .leaving rest cached, .next => some ⟨none, none, .leave, none, .tx .gone rest cached⟩
  | .ddl drops t .start, .park => some (onTables .park (.ddl drops t .start))
  | .ddl drops t .start, .next => some (onTables .write (.ddl drops t .locked))
  | .ddl drops t .locked, .stop => some (onTables .unwrite (.ddl drops t .finished))
  -- `drop_table` removes the catalog entry before it waits
  | .ddl drops t .locked, .next =>
    if t ∈ catalog then
      some ⟨none, none, .keep, if drops then some t else none, .ddl drops t .waiting⟩
    else none
  | .ddl drops t .waiting, .next =>
    if busy t then none else some (plain (.ddl drops t .publishing))
  | .ddl drops t .publishing, .next =>
    some ⟨some .unwrite, none, if drops then .clear t else .keep, none, .ddl drops t .finished⟩
  | _, _ => none

/-- The locks, `active_table_access`, the names in the catalog and the parties. -/
structure Locks (P N : Type) where
  tables : RwLock P
  history : RwLock P
  access : List (N × P)
  catalog : List N
  party : P → Party N

/-! ## What a party holds -/

namespace Party

def tablesMode : Party N → LockMode
  | .tx (.looking _) _ _ | .tx .syncing _ _ => .reading
  | .tx _ _ _ => .out
  | .ddl _ _ .start => .parked
  | .ddl _ _ .finished => .out
  | .ddl _ _ _ => .writing

def historyMode : Party N → LockMode
  | .tx .versioned _ _ | .tx .validating _ _ => .reading
  | .tx .validated _ _ | .tx .ended _ _ => .parked
  | .tx .committing _ _ | .tx .checkpointing _ _ | .tx .syncing _ _ | .tx .finishing _ _
  | .tx .pruning _ _ => .writing
  | _ => .out

/-- The tables in the `cached_tables` of a live transaction. -/
def cached : Party N → List N
  | .tx .gone _ _ => []
  | .tx _ _ cached => cached
  | .ddl _ _ _ => []

def handles (x : Party N) : List N :=
  match x with
  | .tx (.looking t) _ _ | .tx (.found t) _ _ => t :: x.cached
  | _ => x.cached

def rest : Party N → List N
  | .tx _ rest _ => rest
  | .ddl _ _ _ => []

def claims : Party N → Option N
  | .ddl _ t .start => some t
  | _ => none

/-- The table whose readers a schema change holds the catalog lock against. -/
def drains : Party N → Option N
  | .ddl _ t .locked | .ddl _ t .waiting => some t
  | _ => none

/-- A checkpoint inside a commit asks for the catalog. -/
def checkpoints : Party N → Bool
  | .tx .checkpointing _ _ => true
  | _ => false

def unfinished : Party N → Bool
  | .tx .gone _ _ => false
  | .ddl _ _ .finished => false
  | _ => true

def initial : Party N → Bool
  | .tx .opening _ [] | .tx .ready _ [] => true
  | .ddl _ _ .start => true
  | _ => false

omit [DecidableEq N] in
theorem mem_handles_of_cached {x : Party N} {t : N} (h : t ∈ x.cached) : t ∈ x.handles := by
  unfold handles
  split
  · exact mem_cons_of_mem _ h
  · exact mem_cons_of_mem _ h
  · exact h

end Party

/-- A party that wants to write may not have parked yet. -/
def Stands (want m : LockMode) : Prop := m = want ∨ want = .parked ∧ m = .out

theorem Stands.mode_eq {want m w : LockMode} (h : Stands want m) (hw : want = w)
    (hne : w ≠ .parked) : m = w := by
  subst hw
  exact h.resolve_right fun hp => hne hp.1

theorem Stands.want_eq {want m w : LockMode} (h : Stands want m) (hm : m = w) (hne : w ≠ .out) :
    want = w := by
  subst hm
  exact (h.resolve_right fun hp => hne hp.2).symm

def Follows (op : Option LockOp) (old new : LockMode) : Prop :=
  match op with
  | some op => Stands new op.target
  | none => new = old

namespace Locks

variable [DecidableEq P]

def busy (s : Locks P N) (t : N) : Bool := s.access.any fun x => x.1 = t

/-- `active_table_access` after a step of `p`. -/
def slots (s : Locks P N) (p : P) : SlotOp N → List (N × P)
  | .keep => s.access
  | .register t => (t, p) :: s.access
  | .leave => s.access.filter fun x => x.2 ≠ p
  | .clear t => s.access.filter fun x => x.1 ≠ t

theorem mem_access_of_slots {s : Locks P N} {p : P} {op : SlotOp N} {x : N × P}
    (h : x ∈ s.slots p op) (hne : ∀ t, op = .register t → x ≠ (t, p)) : x ∈ s.access := by
  cases op with
  | keep => exact h
  | register t =>
    rcases mem_cons.1 h with heq | h
    · exact absurd heq (hne t rfl)
    · exact h
  | leave | clear t => exact mem_of_mem_filter h

theorem mem_slots_of_access {s : Locks P N} {p : P} {op : SlotOp N} {x : N × P} (h : x ∈ s.access)
    (hleave : op = .leave → x.2 ≠ p) (hclear : ∀ t, op = .clear t → x.1 ≠ t) : x ∈ s.slots p op := by
  cases op with
  | keep => exact h
  | register t => exact mem_cons_of_mem _ h
  | leave => exact mem_filter.2 ⟨h, decide_eq_true (hleave rfl)⟩
  | clear t => exact mem_filter.2 ⟨h, decide_eq_true (hclear t rfl)⟩

def step (s : Locks P N) (l : P × Move) : Option (Locks P N) := do
  let c ← (s.party l.1).script s.catalog s.busy l.2
  let tables ← s.tables.perform l.1 c.tables
  let history ← s.history.perform l.1 c.history
  return {
    tables, history
    access := s.slots l.1 c.slots
    catalog := s.catalog.filter fun t => c.removes ≠ some t
    party := update s.party l.1 c.after }

variable {s s' : Locks P N} {p : P} {m : Move}

theorem step_eq_some : s.step (p, m) = some s' ↔
    ∃ c, (s.party p).script s.catalog s.busy m = some c ∧
      s.tables.perform p c.tables = some s'.tables ∧
      s.history.perform p c.history = some s'.history ∧
      s'.access = s.slots p c.slots ∧ s'.catalog = s.catalog.filter (fun t => c.removes ≠ some t) ∧
      s'.party = update s.party p c.after := by
  simp only [step, Option.bind_eq_bind, Option.bind_eq_some_iff, Option.pure_def, Option.some.injEq]
  constructor
  · rintro ⟨c, hc, t, ht, h, hh, rfl⟩
    exact ⟨c, hc, ht, hh, rfl, rfl, rfl⟩
  · rintro ⟨c, hc, ht, hh, ha, hcat, hp⟩
    refine ⟨c, hc, _, ht, _, hh, ?_⟩
    rw [← ha, ← hcat, ← hp]

end Locks

/-! ## What the steps of a party have in common -/

section

variable {catalog : List N} {busy : N → Bool} {x : Party N} {m : Move} {c : Script N}

omit [DecidableEq N] in
theorem Party.stands_of_initial (h : x.initial = true) :
    Stands x.tablesMode .out ∧ Stands x.historyMode .out := by
  unfold Party.initial at h
  split at h
  · exact ⟨.inl rfl, .inl rfl⟩
  · exact ⟨.inl rfl, .inl rfl⟩
  · exact ⟨.inr ⟨rfl, rfl⟩, .inl rfl⟩
  · cases h

theorem Party.script_tablesMode (h : x.script catalog busy m = some c) :
    Follows c.tables x.tablesMode c.after.tablesMode := by
  unfold Party.script at h
  split at h <;> (try split at h) <;> cases h <;> first | rfl | exact .inl rfl

theorem Party.script_historyMode (h : x.script catalog busy m = some c) :
    Follows c.history x.historyMode c.after.historyMode := by
  unfold Party.script at h
  split at h <;> (try split at h) <;> cases h <;> first | rfl | exact .inl rfl | exact .inr ⟨rfl, rfl⟩

theorem Party.script_handles (h : x.script catalog busy m = some c) {t : N}
    (ht : t ∈ c.after.handles) : t ∈ x.handles ∨ c.tables = some .read := by
  unfold Party.script at h
  split at h <;> (try split at h) <;> cases h <;> first
    | exact .inl ht
    | exact .inr rfl
    | exact .inl (mem_cons_of_mem _ ht)
    | cases ht

/-- What is registered is cached, until the slots are given up. -/
theorem Party.script_cached (h : x.script catalog busy m = some c) :
    match c.slots with
    | .register t => c.after.cached = t :: x.cached
    | .leave => c.after.cached = []
    | _ => c.after.cached = x.cached := by
  unfold Party.script at h
  split at h <;> (try split at h) <;> cases h <;> rfl

end

/-! ## Ownership -/

namespace Locks

variable [DecidableEq P] {s s' : Locks P N} {p : P} {m : Move}

omit [DecidableEq N] in
theorem stands_perform {l l' : RwLock P} {op : Option LockOp} (h : l.perform p op = some l')
    {want : P → LockMode} (hl : ∀ q, Stands (want q) (l.mode q)) {w : LockMode}
    (hw : Follows op (want p) w) (q : P) :
    Stands (update want p w q) (l'.mode q) := by
  rw [RwLock.mode_perform h]
  by_cases hq : q = p
  · subst hq
    rw [update_self, update_self]
    cases op with
    | none =>
      rw [show w = want q from hw]
      exact hl q
    | some op => exact hw
  · rw [update_of_ne hq, update_of_ne hq]
    exact hl q

/-- Every party stands to the locks as the point it is at says. -/
structure Owned (s : Locks P N) : Prop where
  tables : ∀ p, Stands (s.party p).tablesMode (s.tables.mode p)
  history : ∀ p, Stands (s.party p).historyMode (s.history.mode p)

theorem Owned.step (h : s.Owned) (hs : s.step (p, m) = some s') : s'.Owned := by
  obtain ⟨c, hc, ht, hh, -, -, hp⟩ := step_eq_some.1 hs
  refine ⟨fun q => ?_, fun q => ?_⟩
  · have := stands_perform ht h.tables (Party.script_tablesMode hc) q
    rw [hp, apply_update (fun _ => Party.tablesMode)]
    exact this
  · have := stands_perform hh h.history (Party.script_historyMode hc) q
    rw [hp, apply_update (fun _ => Party.historyMode)]
    exact this

theorem handles_of_step (hs : s.step (p, m) = some s') {d : P} (hd : s'.tables.mode d = .writing)
    {q : P} {t : N} (ht : t ∈ (s'.party q).handles) : t ∈ (s.party q).handles := by
  obtain ⟨c, hc, htab, -, -, -, hp⟩ := step_eq_some.1 hs
  rw [hp] at ht
  by_cases hq : q = p
  · subst hq
    rw [update_self] at ht
    rcases Party.script_handles hc ht with ht | hread
    · exact ht
    · rw [hread] at htab
      have hr : s'.tables.mode q = .reading := by
        rw [RwLock.mode_perform htab, update_self]
        rfl
      rw [RwLock.eq_of_mode_writing hd (.inr hr), hd] at hr
      cases hr
  · rw [update_of_ne hq] at ht
    exact ht

/-- Nothing is held, nobody is registered and no party has begun. -/
structure Initial (s : Locks P N) : Prop where
  tables : s.tables = .free
  history : s.history = .free
  access : s.access = []
  party : ∀ p, (s.party p).initial = true

omit [DecidableEq N] in
theorem Initial.owned (h : s.Initial) : s.Owned where
  tables p := by
    rw [h.tables]
    exact (Party.stands_of_initial (h.party p)).1
  history p := by
    rw [h.history]
    exact (Party.stands_of_initial (h.party p)).2

end Locks

end Dtdb.Relational
