import Dtdb.Relational.Occ

/-! # Versions that transactions remember

What an action of a transaction can do, as a relation: no version that was read at some time is
ahead of the current one. -/

namespace Dtdb.Relational

open Dtdb.Lib List Option

variable {N K : Type}

namespace Phase

def isOpen : Phase N K → Bool
  | .running | .validated .. | .limited .. => true
  | .leaving _ | .pruning .. | .gone => false

def bound : Phase N K → Option Nat
  | .limited _ _ min | .leaving min => min
  | .pruning false limit => some limit
  | _ => none

/-- What was validated, and up to which version. -/
def snapshot : Phase N K → Option (Finset (N × K) × Nat)
  | .validated writes max | .limited writes max _ => some (writes, max)
  | _ => none

end Phase

/-- Every version the transaction remembers is at most `n`. -/
structure Tx.Bounded (t : Tx N K) (n : Nat) : Prop where
  start : t.start ≤ n
  validated : ∀ x ∈ t.phase.snapshot, x.2 ≤ n
  limit : ∀ m ∈ t.phase.bound, m ≤ n

theorem Tx.Bounded.mono {t : Tx N K} {m n : Nat} (h : t.Bounded m) (hmn : m ≤ n) : t.Bounded n :=
  ⟨h.start.trans hmn, fun x hx => (h.validated x hx).trans hmn, fun b hb => (h.limit b hb).trans hmn⟩

namespace Occ

theorem minStart_le {active : SortedMap Nat Nat} {m : Nat} (h : minStart active = some m) {id v : Nat}
    (hv : active.get id = some v) : m ≤ v := by
  have hmem : v ∈ active.entries.map Prod.snd :=
    mem_map.2 ⟨(id, v), SortedMap.mem_entries.2 hv, rfl⟩
  exact (min?_eq_some_iff.1 h).2 v hmem

theorem exists_of_minStart {active : SortedMap Nat Nat} {m : Nat} (h : minStart active = some m) :
    ∃ id, active.get id = some m := by
  obtain ⟨⟨id, v⟩, hx, rfl⟩ := mem_map.1 (min?_eq_some_iff.1 h).1
  exact ⟨id, SortedMap.mem_entries.1 hx⟩

theorem get_erase_active {s : Occ N K} {id i v : Nat} (hv : (s.active.erase id).get i = some v) :
    i ≠ id ∧ s.active.get i = some v := by
  rw [SortedMap.get_erase] at hv
  split at hv
  · cases hv
  · next hne => exact ⟨hne, hv⟩

theorem get_beginTx_active {s : Occ N K} {id i v : Nat} {level : IsolationLevel}
    (hv : (s.beginTx id level).active.get i = some v) : s.active.get i = some v ∨ v = s.version := by
  unfold Occ.beginTx at hv
  split at hv
  · rw [SortedMap.get_insert] at hv
    split at hv
    · cases hv
      exact .inr rfl
    · exact .inl hv
  · exact .inl hv

/-! ## The current version is the largest -/

def committed (s : Occ N K) (id : Nat) (t : Tx N K) (writes : Finset (N × K)) (min : Option Nat) :
    Occ N K where
  version := s.version + 1
  history := s.appendPruned writes min
  active := s.active
  txs := s.txs.insert id { t with buffer := ∅, phase := .running }
  commits := ⟨s.version + 1, writes⟩ :: s.commits
  finished := ⟨t.level, t.start, t.footprint writes, s.version⟩ :: s.finished

variable {s s' : Occ N K} {id : Nat} {t : Tx N K}

structure Bounded (s : Occ N K) : Prop where
  history : ∀ r ∈ s.history, r.version ≤ s.version
  commits : ∀ r ∈ s.commits, r.version ≤ s.version
  active : ∀ id v, s.active.get id = some v → v ≤ s.version
  tx : ∀ id t, s.txs.get id = some t → t.Bounded s.version
  upTo : ∀ c ∈ s.finished, c.upTo ≤ s.version

theorem Bounded.fresh : Bounded (Occ.fresh : Occ N K) := ⟨nofun, nofun, nofun, nofun, nofun⟩

theorem bounded_insert {n : Nat} (h : ∀ id t, s.txs.get id = some t → t.Bounded n)
    (ht : t.Bounded n) (i : Nat) (u : Tx N K) (hu : (s.txs.insert id t).get i = some u) :
    u.Bounded n := by
  rw [SortedMap.get_insert] at hu
  split at hu
  · cases hu
    exact ht
  · exact h i u hu

theorem Bounded.setTx (h : Bounded s) (ht : t.Bounded s.version) : Bounded (s.setTx id t) :=
  ⟨h.history, h.commits, h.active, bounded_insert h.tx ht, h.upTo⟩

theorem Bounded.committed (h : Bounded s) (ht : t.Bounded s.version) (writes : Finset (N × K))
    (min : Option Nat) : Bounded (s.committed id t writes min) where
  history r hr := by
    rcases mem_append.1 (mem_filter.1 hr).1 with hr | hr
    · exact (h.history r hr).trans (Nat.le_succ _)
    · exact (mem_singleton.1 hr) ▸ le_rfl
  commits r hr := by
    rcases mem_cons.1 hr with rfl | hr
    · exact le_rfl
    · exact (h.commits r hr).trans (Nat.le_succ _)
  active i v hv := (h.active i v hv).trans (Nat.le_succ _)
  tx := bounded_insert (fun i u hu => (h.tx i u hu).mono (Nat.le_succ _))
    ⟨ht.start.trans (Nat.le_succ _), nofun, nofun⟩
  upTo c hc := by
    rcases mem_cons.1 hc with rfl | hc
    · exact Nat.le_succ _
    · exact (h.upTo c hc).trans (Nat.le_succ _)

theorem Bounded.beginTx (h : Bounded s) (id : Nat) (level : IsolationLevel) :
    Bounded (s.beginTx id level) where
  history := h.history
  commits := h.commits
  active i v hv := by
    rcases get_beginTx_active hv with hv | rfl
    · exact h.active i v hv
    · exact le_rfl
  tx := bounded_insert h.tx ⟨le_rfl, nofun, nofun⟩
  upTo := h.upTo

/-! ## What an action can do -/

theorem addRange_eq (t : Tx N K) (name : N) (lo hi : K) :
    ∃ ranges, t.addRange name lo hi = { t with ranges } := by
  unfold Tx.addRange
  split
  · exact ⟨_, rfl⟩
  · exact ⟨_, rfl⟩

variable [DecidableEq N] [LinearOrder K]

theorem access_eq (t : Tx N K) (a : Access N K) :
    ∃ reads ranges buffer, t.access a = { t with reads, ranges, buffer } := by
  cases a with
  | get name key | nextKey name key =>
    simp only [Tx.access]
    split
    · exact ⟨_, _, _, rfl⟩
    · exact ⟨_, _, _, rfl⟩
  | filteredScan name lo hi seen =>
    obtain ⟨ranges, hr⟩ := addRange_eq t name lo hi
    simp only [Tx.access, hr]
    split
    · exact ⟨_, _, _, rfl⟩
    · exact ⟨_, _, _, rfl⟩
  | scanIter name lo hi =>
    obtain ⟨ranges, hr⟩ := addRange_eq t name lo hi
    exact ⟨_, ranges, _, hr⟩
  | write name key | rollback => exact ⟨_, _, _, rfl⟩

inductive Acts (s : Occ N K) (id : Nat) (t : Tx N K) : Action N K → Occ N K → Prop where
  | access (a : Access N K) : t.phase = .running → Acts s id t (.access a) (s.setTx id (t.access a))
  | conflict (indexKeys : Finset (N × K)) : t.phase = .running → Acts s id t (.validate indexKeys) s
  | readOnly (indexKeys : Finset (N × K)) : t.phase = .running → s.Clear t.start (t.footprint ∅) →
      Acts s id t (.validate indexKeys)
        { s with finished := ⟨t.level, t.start, t.footprint ∅, s.version⟩ :: s.finished }
  | validate (indexKeys : Finset (N × K)) : t.phase = .running →
      s.Clear t.start (t.footprint (t.writeKeys indexKeys)) → t.writeKeys indexKeys ≠ ∅ →
      Acts s id t (.validate indexKeys)
        (s.setTx id { t with phase := .validated (t.writeKeys indexKeys) (s.snapshotMax t.start) })
  | readMin (writes : Finset (N × K)) (max : Nat) : t.phase = .validated writes max →
      Acts s id t .readMin (s.setTx id { t with phase := .limited writes max (minStart s.active) })
  | abort (writes : Finset (N × K)) (max : Nat) (min : Option Nat) : t.phase = .limited writes max min →
      ¬s.Clear max (t.footprint writes) → Acts s id t .apply (s.setTx id { t with phase := .running })
  | apply (writes : Finset (N × K)) (max : Nat) (min : Option Nat) : t.phase = .limited writes max min →
      s.Clear max (t.footprint writes) → Acts s id t .apply (s.committed id t writes min)
  | unregister : t.phase = .running → Acts s id t .unregister (s.unregister id t)
  | loadLimit (min : Option Nat) : t.phase = .leaving min → Acts s id t .loadLimit
      (s.setTx id { t with phase := .pruning min.isNone (min.getD s.version) })
  | prune (alone : Bool) (limit : Nat) : t.phase = .pruning alone limit →
      Acts s id t .prune (s.prune id t limit)

theorem acts_validate (hp : t.phase = .running) (indexKeys : Finset (N × K)) :
    s.Acts id t (.validate indexKeys) (s.validate id t indexKeys) := by
  unfold Occ.validate
  dsimp only
  split
  next hclear =>
    split
    next hempty =>
      rw [hempty] at hclear
      exact .readOnly _ hp hclear
    next hne => exact .validate _ hp hclear hne
  next => exact .conflict _ hp

theorem acts_of_act {a : Action N K} (h : s.act id t a = some s') : s.Acts id t a s' := by
  unfold act at h
  split at h
  · next hp => exact some.inj h ▸ .access _ hp
  · next hp => exact some.inj h ▸ acts_validate hp _
  · next hp => exact some.inj h ▸ .readMin _ _ hp
  · next hp =>
    cases h
    unfold Occ.apply
    split
    next hclear => exact .apply _ _ _ hp hclear
    next hclear => exact .abort _ _ _ hp hclear
  · next hp => exact some.inj h ▸ .unregister hp
  · next hp => exact some.inj h ▸ .loadLimit _ hp
  · next hp => exact some.inj h ▸ .prune _ _ hp
  · cases h

theorem Bounded.acts (h : Bounded s) (ht : s.txs.get id = some t) {a : Action N K}
    (ha : s.Acts id t a s') : Bounded s' := by
  have hb := h.tx id t ht
  cases ha with
  | access a hp =>
    obtain ⟨reads, ranges, buffer, heq⟩ := access_eq t a
    exact h.setTx (heq ▸ ⟨hb.start, hb.validated, hb.limit⟩)
  | conflict _ hp => exact h
  | readOnly _ hp hclear =>
    refine ⟨h.history, h.commits, h.active, h.tx, fun c hc => ?_⟩
    rcases mem_cons.1 hc with rfl | hc
    · exact le_rfl
    · exact h.upTo c hc
  | validate _ hp hclear =>
    refine h.setTx ⟨hb.start, fun x hx => ?_, nofun⟩
    cases hx
    show s.snapshotMax t.start ≤ s.version
    unfold snapshotMax
    cases hm : (s.history.map (·.version)).max? with
    | none => exact hb.start
    | some m =>
      obtain ⟨r, hr, rfl⟩ := mem_map.1 (max?_eq_some_iff.1 hm).1
      exact h.history r hr
  | readMin writes max hp =>
    refine h.setTx ⟨hb.start, fun x hx => hb.validated x (hp ▸ hx), fun m hm => ?_⟩
    obtain ⟨i, hi⟩ := exists_of_minStart hm
    exact h.active i m hi
  | abort writes max min hp hclear => exact h.setTx ⟨hb.start, nofun, nofun⟩
  | apply writes max min hp hclear => exact h.committed hb writes min
  | unregister hp =>
    refine ⟨h.history, h.commits, fun i v hv => h.active i v (get_erase_active hv).2,
      bounded_insert h.tx ⟨hb.start, nofun, fun m hm => ?_⟩, h.upTo⟩
    obtain ⟨i, hi⟩ := exists_of_minStart hm
    exact h.active i m (get_erase_active hi).2
  | loadLimit min hp =>
    refine h.setTx ⟨hb.start, nofun, fun m hm => ?_⟩
    cases min with
    | none => cases hm
    | some m' =>
      cases hm
      exact hb.limit m' (by rw [hp]; rfl)
  | prune alone limit hp =>
    exact ⟨fun r hr => h.history r (mem_filter.1 hr).1, h.commits, h.active,
      bounded_insert h.tx ⟨hb.start, nofun, nofun⟩, h.upTo⟩

end Occ

end Dtdb.Relational
