import Dtdb.Relational.Locks

/-! # Freedom from deadlock

A schema change waits for the readers of its table with the catalog lock in hand.  Where no reader
of the table has a table left to access and nobody checkpoints, some party can always go on. -/

namespace Dtdb.Relational

open Dtdb.Lib Function List

variable {P N : Type} [DecidableEq P] [DecidableEq N]

namespace Locks

/-- Some party is unfinished and no unfinished party can take a step. -/
def Deadlocked (s : Locks P N) : Prop :=
  (∃ p, (s.party p).unfinished = true) ∧
    ∀ p, (s.party p).unfinished = true → ∀ m, s.step (p, m) = none

/-- Whoever has a handle of `t` has no table left to access, and nobody checkpoints. -/
def Drainable (s : Locks P N) (t : N) : Prop :=
  ∀ p, t ∈ (s.party p).handles → (s.party p).rest = [] ∧ ∀ q, (s.party q).checkpoints = false

/-- A change takes the catalog lock when its table is drainable, and no checkpoint starts while a
change waits for a reader. -/
structure StepSafe (s : Locks P N) (l : P × Move) : Prop where
  locks : l.2 = .next → ∀ t ∈ (s.party l.1).claims, s.Drainable t
  checkpoints : l.2 = .checkpoint → ∀ d, ∀ t ∈ (s.party d).drains, ∀ p, t ∉ (s.party p).handles

end Locks

/-! ## What a step can change -/

namespace Party

variable {catalog : List N} {busy : N → Bool} {x : Party N} {m : Move} {c : Script N}

theorem script_drains (h : x.script catalog busy m = some c) {t : N} (ht : c.after.drains = some t) :
    x.drains = some t ∨ (∃ drops, x = .ddl drops t .start) ∧ m = .next := by
  unfold script at h
  split at h <;> (try split at h) <;> cases h <;> first
    | exact .inl ht
    | (cases ht; exact .inr ⟨⟨_, rfl⟩, rfl⟩)
    | cases ht

theorem script_rest (h : x.script catalog busy m = some c) (hx : x.rest = []) :
    c.after.rest = [] := by
  unfold script at h
  split at h <;> (try split at h) <;> cases h <;> first
    | exact hx
    | cases hx

theorem script_checkpoints (h : x.script catalog busy m = some c) (hc : c.after.checkpoints = true) :
    (∃ rest cached, x = .tx .committing rest cached) ∧ m = .checkpoint := by
  unfold script at h
  split at h <;> (try split at h) <;> cases h <;> first
    | exact ⟨⟨_, _, rfl⟩, rfl⟩
    | cases hc

omit [DecidableEq N] in
theorem tablesMode_of_drains {t : N} (h : x.drains = some t) : x.tablesMode = .writing := by
  unfold drains at h
  split at h
  · rfl
  · rfl
  · cases h

omit [DecidableEq N] in
theorem drains_of_initial (h : x.initial = true) : x.drains = none := by
  unfold initial at h
  split at h
  · rfl
  · rfl
  · rfl
  · cases h

end Party

namespace Locks

variable {s s' : Locks P N} {p : P} {m : Move}

/-- Parties stand as their points say, only handle holders are registered, and what is waited for
is drainable. -/
structure Inv (s : Locks P N) : Prop where
  owned : s.Owned
  slots : ∀ x ∈ s.access, x.1 ∈ (s.party x.2).cached
  drainable : ∀ d t, (s.party d).drains = some t → s.Drainable t

omit [DecidableEq N] in
theorem Inv.initial (h : s.Initial) : s.Inv where
  owned := h.owned
  slots := by simp [h.access]
  drainable d t ht := by
    rw [Party.drains_of_initial (h.party d)] at ht
    cases ht

theorem Inv.slots_step (h : s.Inv) (hs : s.step (p, m) = some s') :
    ∀ x ∈ s'.access, x.1 ∈ (s'.party x.2).cached := by
  obtain ⟨c, hc, -, -, ha, -, hp⟩ := step_eq_some.1 hs
  have hcached := Party.script_cached hc
  rintro ⟨t, q⟩ hx
  rw [ha] at hx
  rw [hp]
  by_cases hq : q = p
  · subst hq
    rw [update_self]
    cases hop : c.slots with
    | leave => simp [hop, Locks.slots] at hx
    | register u =>
      rw [hop] at hx hcached
      rw [show c.after.cached = u :: (s.party q).cached from hcached]
      rcases mem_cons.1 hx with heq | hx
      · cases heq
        exact mem_cons_self
      · exact mem_cons_of_mem _ (h.slots _ hx)
    | _ =>
      rw [hop] at hx hcached
      rw [show c.after.cached = (s.party q).cached from hcached]
      exact h.slots _ (mem_access_of_slots hx nofun)
  · rw [update_of_ne hq]
    refine h.slots _ (mem_access_of_slots hx fun u _ heq => ?_)
    cases heq
    exact hq rfl

theorem rest_of_step (hs : s.step (p, m) = some s') {q : P} (hq : (s.party q).rest = []) :
    (s'.party q).rest = [] := by
  obtain ⟨c, hc, -, -, -, -, hp⟩ := step_eq_some.1 hs
  rw [hp]
  by_cases heq : q = p
  · subst heq
    rw [update_self]
    exact Party.script_rest hc hq
  · rw [update_of_ne heq]
    exact hq

theorem checkpoints_of_step (hs : s.step (p, m) = some s') (hok : s.StepSafe (p, m)) {d q : P} {t : N}
    (hd : (s'.party d).drains = some t) (hq : t ∈ (s.party q).handles)
    (hno : ∀ r, (s.party r).checkpoints = false) (r : P) : (s'.party r).checkpoints = false := by
  obtain ⟨c, hc, -, -, -, -, hp⟩ := step_eq_some.1 hs
  rw [hp] at hd ⊢
  by_cases hr : r = p
  · subst hr
    rw [update_self]
    refine Bool.eq_false_iff.2 fun hck => ?_
    obtain ⟨⟨rest, cached, hx⟩, rfl⟩ := Party.script_checkpoints hc hck
    have hdr : d ≠ r := by
      rintro rfl
      rw [update_self] at hd
      rcases Party.script_drains hc hd with hold | ⟨⟨drops, hstart⟩, -⟩
      · rw [hx] at hold
        cases hold
      · rw [hx] at hstart
        cases hstart
    rw [update_of_ne hdr] at hd
    exact hok.checkpoints rfl d t hd q hq
  · rw [update_of_ne hr]
    exact hno r

theorem Inv.drainable_step (h : s.Inv) (hok : s.StepSafe (p, m)) (hs : s.step (p, m) = some s')
    (d : P) (t : N) (hd : (s'.party d).drains = some t) : s'.Drainable t := by
  have hw : s'.tables.mode d = .writing := by
    rcases (h.owned.step hs).tables d with hm | ⟨hm, -⟩
    · rw [hm, Party.tablesMode_of_drains hd]
    · rw [Party.tablesMode_of_drains hd] at hm
      cases hm
  have hdrain : s.Drainable t := by
    obtain ⟨c, hc, -, -, -, -, hp⟩ := step_eq_some.1 hs
    rw [hp] at hd
    by_cases hdp : d = p
    · subst hdp
      rw [update_self] at hd
      rcases Party.script_drains hc hd with hold | ⟨⟨drops, hstart⟩, rfl⟩
      · exact h.drainable d t hold
      · exact hok.locks rfl t (by rw [hstart]; rfl)
    · rw [update_of_ne hdp] at hd
      exact h.drainable d t hd
  intro q hq
  have hq := handles_of_step hs hw hq
  obtain ⟨hrest, hno⟩ := hdrain q hq
  exact ⟨rest_of_step hs hrest, checkpoints_of_step hs hok hd hq hno⟩

theorem Inv.step (h : s.Inv) (hok : s.StepSafe (p, m)) (hs : s.step (p, m) = some s') : s'.Inv :=
  ⟨h.owned.step hs, h.slots_step hs, h.drainable_step hok hs⟩

/-! ## Progress -/

def Progress (s : Locks P N) : Prop :=
  ∃ p, (s.party p).unfinished = true ∧ ∃ m, (s.step (p, m)).isSome = true

theorem Progress.of_script {x : Party N} {c : Script N} (hx : s.party p = x)
    (hu : x.unfinished = true) (hc : x.script s.catalog s.busy m = some c)
    (ht : ∃ l, s.tables.perform p c.tables = some l)
    (hh : ∃ l, s.history.perform p c.history = some l) : s.Progress := by
  subst hx
  obtain ⟨t, ht⟩ := ht
  obtain ⟨l, hl⟩ := hh
  refine ⟨p, hu, m, ?_⟩
  simp only [Locks.step, hc, ht, hl, Option.bind_eq_bind, Option.bind_some]
  rfl

theorem Owned.progress_of_looking (h : s.Owned) (hp : (s.party p).tablesMode = .reading) :
    s.Progress := by
  have hl := RwLock.exists_unread ((h.tables p).mode_eq hp (by decide))
  unfold Party.tablesMode at hp
  split at hp <;> cases hp
  · next t rest cached hx =>
    by_cases ht : t ∈ s.catalog
    · exact .of_script (m := .next) hx rfl (if_pos ht) hl ⟨_, rfl⟩
    · exact .of_script (m := .next) hx rfl (if_neg ht) hl ⟨_, rfl⟩
  · next rest cached hx => exact .of_script (m := .next) hx rfl rfl hl ⟨_, rfl⟩

theorem Owned.progress_of_validating (h : s.Owned) (hp : (s.party p).historyMode = .reading) :
    s.Progress := by
  have hl := RwLock.exists_unread ((h.history p).mode_eq hp (by decide))
  unfold Party.historyMode at hp
  split at hp <;> cases hp
  · next rest cached hx => exact .of_script (m := .next) hx rfl rfl ⟨_, rfl⟩ hl
  · next rest cached hx => exact .of_script (m := .next) hx rfl rfl ⟨_, rfl⟩ hl

theorem Owned.progress_of_committing (h : s.Owned) (hp : (s.party p).historyMode = .writing)
    (hck : (s.party p).checkpoints = true → s.Progress) : s.Progress := by
  have hl := RwLock.exists_unwrite ((h.history p).mode_eq hp (by decide))
  unfold Party.historyMode at hp
  split at hp <;> cases hp
  · next rest cached hx => exact .of_script (m := .next) hx rfl rfl ⟨_, rfl⟩ hl
  · next rest cached hx => exact hck (by rw [hx]; rfl)
  · next rest cached hx => exact h.progress_of_looking (by rw [hx]; rfl)
  · next rest cached hx => exact .of_script (m := .next) hx rfl rfl ⟨_, rfl⟩ hl
  · next rest cached hx => exact .of_script (m := .next) hx rfl rfl ⟨_, rfl⟩ hl

/-- The next step of `p` only needs the operation on `commit_history`. -/
def WantsHistory (s : Locks P N) (p : P) (op : LockOp) : Prop :=
  (s.party p).unfinished = true ∧
    ∃ c, (s.party p).script s.catalog s.busy .next = some c ∧ c.tables = none ∧ c.history = some op

/-- The next step of `p` only needs the operation on `tables`. -/
def WantsTables (s : Locks P N) (p : P) (op : LockOp) : Prop :=
  (s.party p).unfinished = true ∧
    ∃ c, (s.party p).script s.catalog s.busy .next = some c ∧ c.tables = some op ∧ c.history = none

section

variable {op : LockOp}

theorem WantsHistory.progress (hw : s.WantsHistory p op)
    (hl : ∃ l, s.history.apply p op = some l) : s.Progress := by
  obtain ⟨hu, c, hc, ht, hh⟩ := hw
  exact .of_script rfl hu hc (by rw [ht]; exact ⟨_, rfl⟩) (by rw [hh]; exact hl)

theorem WantsTables.progress (hw : s.WantsTables p op)
    (hl : ∃ l, s.tables.apply p op = some l) : s.Progress := by
  obtain ⟨hu, c, hc, ht, hh⟩ := hw
  exact .of_script rfl hu hc (by rw [ht]; exact hl) (by rw [hh]; exact ⟨_, rfl⟩)

omit [DecidableEq P] in
theorem wantsHistory_of_parked (hp : (s.party p).historyMode = .parked) :
    s.WantsHistory p .write := by
  unfold Party.historyMode at hp
  split at hp <;> cases hp
  · next rest cached hx => exact ⟨by rw [hx]; rfl, _, by rw [hx]; rfl, rfl, rfl⟩
  · next rest cached hx => exact ⟨by rw [hx]; rfl, _, by rw [hx]; rfl, rfl, rfl⟩

omit [DecidableEq P] in
theorem wantsTables_of_parked (hp : (s.party p).tablesMode = .parked) : s.WantsTables p .write := by
  unfold Party.tablesMode at hp
  split at hp <;> cases hp
  next drops t hx => exact ⟨by rw [hx]; rfl, _, by rw [hx]; rfl, rfl, rfl⟩

theorem Owned.progress_of_wantsHistory (h : s.Owned)
    (hck : ∀ q, (s.party q).checkpoints = true → s.Progress) (hop : op = .read ∨ op = .write)
    (hw : s.WantsHistory p op) : s.Progress := by
  refine (RwLock.granted_or (fun q hq => ?_) fun q hq hl => ?_).elim id
    fun hl => hw.progress (hl p op hop)
  · rcases hq with hq | hq
    · exact h.progress_of_committing ((h.history q).want_eq hq (by decide)) (hck q)
    · exact h.progress_of_validating ((h.history q).want_eq hq (by decide))
  · exact (wantsHistory_of_parked ((h.history q).want_eq hq (by decide))).progress hl

theorem Owned.progress_of_wantsTables (h : s.Owned) (hwr : ∀ q, s.tables.mode q ≠ .writing)
    (hop : op = .read ∨ op = .write) (hw : s.WantsTables p op) : s.Progress := by
  refine (RwLock.granted_or (fun q hq => ?_) fun q hq hl => ?_).elim id
    fun hl => hw.progress (hl p op hop)
  · exact h.progress_of_looking ((h.tables q).want_eq (hq.resolve_left (hwr q)) (by decide))
  · exact (wantsTables_of_parked ((h.tables q).want_eq hq (by decide))).progress hl

end

theorem Owned.progress_of_tx (h : s.Owned)
    (hck : ∀ q, (s.party q).checkpoints = true → s.Progress) {pc : TxPc N} {rest cached : List N}
    (hx : s.party p = .tx pc rest cached) (hu : pc ≠ .gone)
    (htab : ∀ t l, pc = .ready → rest = t :: l → t ∉ cached → s.Progress) : s.Progress := by
  cases pc with
  | opening =>
    refine h.progress_of_wantsHistory hck (p := p) (.inl rfl) ?_
    exact ⟨by rw [hx]; rfl, _, by rw [hx]; rfl, rfl, rfl⟩
  | versioned | validating => exact h.progress_of_validating (by rw [hx]; rfl)
  | ready =>
    cases rest with
    | nil =>
      refine h.progress_of_wantsHistory hck (p := p) (.inl rfl) ?_
      exact ⟨by rw [hx]; rfl, _, by rw [hx]; rfl, rfl, rfl⟩
    | cons t l =>
      by_cases ht : t ∈ cached
      · exact .of_script (m := .next) hx rfl (if_pos ht) ⟨_, rfl⟩ ⟨_, rfl⟩
      · exact htab t l rfl rfl ht
  | looking | syncing => exact h.progress_of_looking (by rw [hx]; rfl)
  | found t => exact .of_script (m := .next) hx rfl rfl ⟨_, rfl⟩ ⟨_, rfl⟩
  | validated | ended =>
    exact h.progress_of_wantsHistory hck (.inr rfl) (wantsHistory_of_parked (by rw [hx]; rfl))
  | committing | finishing | pruning =>
    exact h.progress_of_committing (by rw [hx]; rfl) (hck p)
  | checkpointing => exact hck p (by rw [hx]; rfl)
  | leaving => exact .of_script (m := .next) hx rfl rfl ⟨_, rfl⟩ ⟨_, rfl⟩
  | gone => exact absurd rfl hu

/-- While nobody writes the catalog every party can go on or waits for one that can. -/
theorem Owned.progress_of_free (h : s.Owned) (hwr : ∀ q, s.tables.mode q ≠ .writing)
    (hu : (s.party p).unfinished = true) : s.Progress := by
  have hck : ∀ q, (s.party q).checkpoints = true → s.Progress := by
    intro q hq
    unfold Party.checkpoints at hq
    split at hq <;> cases hq
    next rest cached hx =>
    refine h.progress_of_wantsTables hwr (p := q) (.inl rfl) ?_
    exact ⟨by rw [hx]; rfl, _, by rw [hx]; rfl, rfl, rfl⟩
  cases hx : s.party p with
  | tx pc rest cached =>
    refine h.progress_of_tx hck hx ?_ fun t l hpc hrest ht => ?_
    · rintro rfl
      rw [hx] at hu
      cases hu
    · subst hpc hrest
      exact h.progress_of_wantsTables hwr (.inl rfl)
        ⟨hu, _, by rw [hx]; exact if_neg ht, rfl, rfl⟩
  | ddl drops t pc =>
    cases pc with
    | start =>
      exact h.progress_of_wantsTables hwr (.inr rfl) (wantsTables_of_parked (by rw [hx]; rfl))
    | finished =>
      rw [hx] at hu
      cases hu
    | _ => exact absurd ((h.tables p).mode_eq (by rw [hx]; rfl) (by decide)) (hwr p)

/-- A change that holds the catalog can go on, or a reader it waits for can. -/
theorem Inv.progress_of_writing (h : s.Inv) (hd : s.tables.mode p = .writing) : s.Progress := by
  have hmode := (h.owned.tables p).want_eq hd (by decide)
  have hl := RwLock.exists_unwrite hd
  unfold Party.tablesMode at hmode
  split at hmode <;> cases hmode
  next drops t pc hstart hfin hx =>
  cases pc with
  | start => exact (hstart rfl).elim
  | finished => exact (hfin rfl).elim
  | locked => exact .of_script (m := .stop) hx rfl rfl hl ⟨_, rfl⟩
  | publishing => exact .of_script (m := .next) hx rfl rfl hl ⟨_, rfl⟩
  | waiting =>
    cases hb : s.busy t with
    | false =>
      have hfree : s.busy t ≠ true := Bool.eq_false_iff.1 hb
      exact .of_script (m := .next) hx rfl (if_neg hfree) ⟨_, rfl⟩ ⟨_, rfl⟩
    | true =>
      -- the table has a reader: it leaves without the catalog
      obtain ⟨⟨u, q⟩, hmem, hu⟩ := any_eq_true.1 hb
      have hut : u = t := of_decide_eq_true hu
      have hcached := h.slots _ hmem
      obtain ⟨hrest, hno⟩ := h.drainable p t (by rw [hx]; rfl) q
        (Party.mem_handles_of_cached (hut ▸ hcached))
      have hck : ∀ r, (s.party r).checkpoints = true → s.Progress := fun r hr => by
        rw [hno r] at hr
        cases hr
      cases hq : s.party q with
      | ddl drops' t' pc' =>
        rw [hq] at hcached
        cases hcached
      | tx pc rest cached =>
        refine h.owned.progress_of_tx hck hq ?_ fun t l _ hl _ => ?_
        · rintro rfl
          rw [hq] at hcached
          cases hcached
        · rw [hq, hl] at hrest
          cases hrest

theorem Inv.not_deadlocked (h : s.Inv) : ¬ s.Deadlocked := by
  rintro ⟨⟨p, hp⟩, hblocked⟩
  have hprog : s.Progress := by
    by_cases hwr : ∃ d, s.tables.mode d = .writing
    · obtain ⟨d, hd⟩ := hwr
      exact h.progress_of_writing hd
    · exact h.owned.progress_of_free (fun q hq => hwr ⟨q, hq⟩) hp
  obtain ⟨q, hq, m, hm⟩ := hprog
  rw [hblocked q hq m] at hm
  cases hm

/-- **Freedom from deadlock.** In every run in which schema changes take the catalog lock on
drainable tables and no checkpoint starts under one that waits, no state has unfinished parties
that are all blocked. -/
theorem never_deadlocked {s₀ : Locks P N} (h₀ : s₀.Initial) {ls : List (P × Move)}
    (hr : Run step StepSafe s₀ ls s) : ¬ s.Deadlocked :=
  (hr.invariant (I := fun _ s => Inv s) (.initial h₀) fun _ _ _ _ h hok hs =>
    h.step hok hs).not_deadlocked

section

variable [Fintype P]

instance decidableDrainable (s : Locks P N) (t : N) : Decidable (s.Drainable t) :=
  inferInstanceAs (Decidable (∀ p, t ∈ (s.party p).handles → _ ∧ ∀ _, _ = false))

instance decidableLocksSafe (s : Locks P N) (l : P × Move) : Decidable (s.StepSafe l) :=
  decidable_of_iff ((l.2 = .next → ∀ t ∈ (s.party l.1).claims, s.Drainable t) ∧
    (l.2 = .checkpoint → ∀ d, ∀ t ∈ (s.party d).drains, ∀ p, t ∉ (s.party p).handles))
    ⟨fun h => ⟨h.1, h.2⟩, fun h => ⟨h.locks, h.checkpoints⟩⟩

instance decidableDeadlocked (s : Locks P N) : Decidable s.Deadlocked :=
  inferInstanceAs (Decidable ((∃ _, _) ∧ ∀ p, _ → ∀ m, s.step (p, m) = none))

end

def begun (party : P → Party Nat) : Locks P Nat := ⟨.free, .free, [], [0, 1], party⟩

/-- A transaction on table 0 next to a change of its schema. -/
def readerAndDdl : Bool → Party Nat
  | false => .tx .opening [0] []
  | true => .ddl false 0 .start

def waitingTrace : List (Bool × Move) :=
  [(false, .next), (false, .next), (false, .next), (false, .next), (false, .next), (true, .next),
    (true, .next), (false, .next), (false, .next), (false, .next), (false, .next)]

theorem never_deadlocked_waitingTrace :
    ∃ s, Run step StepSafe (begun readerAndDdl) waitingTrace s ∧ s.busy 0 = true ∧
      ¬ s.Deadlocked := by
  refine Run.exists_of_exec (p := fun s => s.busy 0 = true) (by decide +kernel)
    fun s hr hbusy => ?_
  exact ⟨hbusy, never_deadlocked ⟨rfl, rfl, rfl, by decide⟩ hr⟩

/-- The same with a transaction that goes on to table 1. -/
def wideReaderAndDdl : Bool → Party Nat
  | false => .tx .opening [0, 1] []
  | true => .ddl false 0 .start

def secondAccessTrace : List (Bool × Move) :=
  [(false, .next), (false, .next), (false, .next), (false, .next), (false, .next), (true, .next),
    (true, .next)]

/-- The transaction waits for the catalog and the schema change for the transaction. -/
theorem deadlocked_secondAccessTrace :
    ∃ s, exec step (begun wideReaderAndDdl) secondAccessTrace = some s ∧ s.Deadlocked := by
  decide +kernel

end Locks

end Dtdb.Relational
