import Dtdb.Relational.Deadlock

/-! # Quiescence of a schema change

A schema change publishes when `active_table_access` shows no reader of its table, but a transaction
registers there only after it has got the handle and released the catalog lock. -/

namespace Dtdb.Relational

open Dtdb.Lib Function List

variable {P N : Type} [DecidableEq P] [DecidableEq N]

namespace Party

omit [DecidableEq N]

variable {x : Party N} {t : N}

def pending : Party N → Option N
  | .tx (.found t) _ _ => some t
  | _ => none

def waits : Party N → Option N
  | .ddl _ t .waiting => some t
  | _ => none

def publishes : Party N → Option N
  | .ddl _ t .publishing => some t
  | _ => none

theorem mem_handles : t ∈ x.handles → t ∈ x.cached ∨ x.pending = some t ∨ x.tablesMode = .reading := by
  intro h
  unfold handles at h
  split at h
  · exact .inr (.inr rfl)
  · rcases mem_cons.1 h with rfl | h
    · exact .inr (.inl rfl)
    · exact .inl h
  · exact .inl h

theorem tablesMode_of_waits (h : x.waits = some t) : x.tablesMode = .writing := by
  unfold waits at h
  split at h
  · rfl
  · cases h

theorem cached_of_initial (h : x.initial = true) : x.cached = [] ∧ x.publishes = none := by
  unfold initial at h
  split at h
  · exact ⟨rfl, rfl⟩
  · exact ⟨rfl, rfl⟩
  · exact ⟨rfl, rfl⟩
  · cases h

theorem tablesMode_of_publishes (h : x.publishes = some t) : x.tablesMode = .writing := by
  unfold publishes at h
  split at h
  · rfl
  · cases h

end Party

section

variable {catalog : List N} {busy : N → Bool} {x : Party N} {m : Move} {c : Script N} {t : N}

/-- The only way to publish is through the wait loop, with no reader registered. -/
theorem Party.script_publishes (h : x.script catalog busy m = some c)
    (ht : c.after.publishes = some t) : x.waits = some t ∧ m = .next ∧ busy t = false := by
  unfold Party.script at h
  split at h <;> (try split at h) <;> cases h <;> cases ht
  next hbusy => exact ⟨rfl, rfl, Bool.eq_false_iff.2 hbusy⟩

theorem Party.script_clear (h : x.script catalog busy m = some c) (hc : c.slots = .clear t) :
    x.publishes = some t := by
  unfold Party.script at h
  split at h <;> (try split at h) <;> cases h <;> cases hc
  rfl

end

namespace Locks

/-- The wait loop ends when nobody is between `get_table` and `register_table_access`. -/
def QuiesceSafe (s : Locks P N) (l : P × Move) : Prop :=
  l.2 = .next → ∀ t ∈ (s.party l.1).waits, ∀ p, (s.party p).pending ≠ some t

/-- Every cached handle is registered, and nobody has a handle of a table that is about to be
published. -/
structure QuiesceInv (s : Locks P N) : Prop where
  owned : s.Owned
  registered : ∀ p, ∀ t ∈ (s.party p).cached, (t, p) ∈ s.access
  quiet : ∀ d, ∀ t ∈ (s.party d).publishes, ∀ p, t ∉ (s.party p).handles

variable {s s' : Locks P N} {p : P} {m : Move}

omit [DecidableEq N] in
theorem QuiesceInv.initial (h : s.Initial) : s.QuiesceInv where
  owned := h.owned
  registered p t ht := by
    rw [(Party.cached_of_initial (h.party p)).1] at ht
    cases ht
  quiet d t ht := by
    rw [(Party.cached_of_initial (h.party d)).2] at ht
    cases ht

theorem QuiesceInv.registered_step (h : s.QuiesceInv) (hs : s.step (p, m) = some s') (q : P) (t : N)
    (ht : t ∈ (s'.party q).cached) : (t, q) ∈ s'.access := by
  obtain ⟨c, hc, -, -, ha, -, hp⟩ := step_eq_some.1 hs
  have hclear : ∀ u, c.slots = .clear u → t ∈ (s.party q).cached → t ≠ u := by
    rintro u hop hin rfl
    exact h.quiet p t (Party.script_clear hc hop) q (Party.mem_handles_of_cached hin)
  rw [hp] at ht
  rw [ha]
  by_cases hq : q = p
  · subst hq
    rw [update_self] at ht
    have hcached := Party.script_cached hc
    cases hop : c.slots with
    | register u =>
      rw [hop] at hcached
      rw [show c.after.cached = u :: (s.party q).cached from hcached] at ht
      rcases mem_cons.1 ht with rfl | ht
      · exact mem_cons_self
      · exact mem_cons_of_mem _ (h.registered q t ht)
    | leave =>
      rw [hop] at hcached
      rw [show c.after.cached = [] from hcached] at ht
      cases ht
    | _ =>
      rw [hop] at hcached
      rw [show c.after.cached = (s.party q).cached from hcached] at ht
      rw [hop] at hclear
      exact mem_slots_of_access (h.registered q t ht) nofun fun u hu => hclear u hu ht
  · rw [update_of_ne hq] at ht
    exact mem_slots_of_access (h.registered q t ht) (fun _ => hq) fun u hu => hclear u hu ht

theorem QuiesceInv.quiet_step (h : s.QuiesceInv) (hok : s.QuiesceSafe (p, m))
    (hs : s.step (p, m) = some s') (d : P) (t : N) (hd : (s'.party d).publishes = some t) (q : P) :
    t ∉ (s'.party q).handles := by
  have hwr := ((h.owned.step hs).tables d).mode_eq (Party.tablesMode_of_publishes hd) (by decide)
  refine fun hin => ?_
  have hin := handles_of_step hs hwr hin
  obtain ⟨c, hc, -, -, -, -, hp⟩ := step_eq_some.1 hs
  rw [hp] at hd
  by_cases hdp : d = p
  · subst hdp
    rw [update_self] at hd
    obtain ⟨hw, rfl, hb⟩ := Party.script_publishes hc hd
    rcases Party.mem_handles hin with hcached | hpend | hread
    · have := any_eq_false.1 hb _ (h.registered q t hcached)
      simp at this
    · exact hok rfl t hw q hpend
    · have hwr := (h.owned.tables d).mode_eq (Party.tablesMode_of_waits hw) (by decide)
      have hrd := (h.owned.tables q).mode_eq hread (by decide)
      rw [RwLock.eq_of_mode_writing hwr (.inr hrd), hwr] at hrd
      cases hrd
  · rw [update_of_ne hdp] at hd
    exact h.quiet d t hd q hin

theorem QuiesceInv.step (h : s.QuiesceInv) (hok : s.QuiesceSafe (p, m))
    (hs : s.step (p, m) = some s') : s'.QuiesceInv :=
  ⟨h.owned.step hs, h.registered_step hs, h.quiet_step hok hs⟩

/-- **Quiescence.** In every run in which no wait loop ends with a transaction between `get_table`
and `register_table_access`, no live transaction has a handle of a table at the moment its new
schema is published, nor right after. -/
theorem publish_quiescent {s₀ : Locks P N} (h₀ : s₀.Initial) {ls : List (P × Move)}
    (hr : Run step QuiesceSafe s₀ ls s) {d : P} {drops : Bool} {t : N}
    (hd : s.party d = .ddl drops t .publishing) (hs : s.step (d, .next) = some s') (p : P) :
    t ∉ (s.party p).handles ∧ t ∉ (s'.party p).handles := by
  have h : s.QuiesceInv := hr.invariant (I := fun _ s => QuiesceInv s) (.initial h₀)
    fun _ _ _ _ h hok hs => h.step hok hs
  have hquiet := h.quiet d t (by rw [hd]; rfl)
  refine ⟨hquiet p, fun hin => ?_⟩
  obtain ⟨c, hc, -, -, -, -, hp⟩ := step_eq_some.1 hs
  rw [hd] at hc
  cases hc
  rw [hp] at hin
  by_cases hpd : p = d
  · subst hpd
    rw [update_self] at hin
    cases hin
  · rw [update_of_ne hpd] at hin
    exact hquiet p hin

instance decidableQuiesceSafe [Fintype P] (s : Locks P N) (l : P × Move) :
    Decidable (s.QuiesceSafe l) :=
  inferInstanceAs (Decidable (l.2 = .next → ∀ t ∈ (s.party l.1).waits, ∀ _, _ ≠ some t))

def drainedTrace : List (Bool × Move) :=
  [(false, .next), (false, .next), (false, .next), (false, .next), (false, .next), (true, .next),
    (true, .next), (false, .next), (false, .stop), (false, .next), (false, .next), (false, .next),
    (true, .next)]

theorem publish_quiescent_drainedTrace :
    ∃ s s', Run step QuiesceSafe (begun readerAndDdl) drainedTrace s ∧
      s.step (true, .next) = some s' ∧ ∀ p, 0 ∉ (s.party p).handles ∧ 0 ∉ (s'.party p).handles := by
  simp only [exists_and_left]
  refine Run.exists_of_exec (p := fun s => s.party true = .ddl false 0 .publishing ∧
    (s.step (true, .next)).isSome = true) (by decide +kernel) fun s hr ⟨hd, hsome⟩ => ?_
  obtain ⟨s', hs⟩ := Option.isSome_iff_exists.1 hsome
  exact ⟨s', hs, publish_quiescent ⟨rfl, rfl, rfl, by decide⟩ hr hd hs⟩

/-- The change takes the catalog lock between the lookup and the registration. -/
def unregisteredTrace : List (Bool × Move) :=
  [(false, .next), (false, .next), (false, .next), (false, .next), (true, .next), (true, .next),
    (true, .next)]

/-- The transaction has a handle of the old schema when the change publishes, and goes on to commit
through it. -/
theorem publish_unregisteredTrace :
    ∃ s s' s'', exec step (begun readerAndDdl) unregisteredTrace = some s ∧
      s.party true = .ddl false 0 .publishing ∧ 0 ∈ (s.party false).handles ∧
      s.step (true, .next) = some s' ∧
      exec step s' [(false, .next), (false, .next), (false, .next), (false, .next)] = some s'' ∧
      s''.party false = .tx .committing [] [0] := by
  simp only [exists_and_left]
  decide +kernel

end Locks

end Dtdb.Relational
