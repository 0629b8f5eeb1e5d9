import Dtdb.Relational.Versions
import Dtdb.Storage.Key

/-! # Snapshot isolation

A registered transaction validates against every commit since it began, provided no prune drops a
record newer than a registered start version. -/

namespace Dtdb.Relational

open Dtdb.Lib Dtdb.Storage List Option

variable {N K : Type}

namespace Occ

variable [LinearOrder K]

/-! ## The invariant -/

structure TxOk (s : Occ N K) (id : Nat) (t : Tx N K) : Prop where
  registered : t.level.registers = true → t.phase.isOpen = true → s.active.get id = some t.start
  limit : ∀ m ∈ t.phase.bound, ∀ id v, s.active.get id = some v → m ≤ v
  validated : t.level.registers = true → ∀ x ∈ t.phase.snapshot, ∀ r ∈ s.commits,
    t.start < r.version → r.version ≤ x.2 → ¬(t.footprint x.1).Conflicts r.keys

/-- No commit in between touched what the committed transaction read, scanned or wrote. -/
def Isolated (s : Occ N K) (c : Commit N K) : Prop :=
  ∀ r ∈ s.commits, c.start < r.version → r.version ≤ c.upTo → ¬c.footprint.Conflicts r.keys

structure Inv (s : Occ N K) : Prop where
  bounded : s.Bounded
  retained : ∀ id v, s.active.get id = some v → ∀ r ∈ s.commits, v < r.version → r ∈ s.history
  tx : ∀ id t, s.txs.get id = some t → s.TxOk id t
  isolated : ∀ c ∈ s.finished, c.level.registers = true → s.Isolated c

theorem Inv.fresh : Inv (Occ.fresh : Occ N K) := ⟨.fresh, nofun, nofun, nofun⟩

variable {s s' : Occ N K} {id : Nat} {t : Tx N K}

theorem txOk_insert (h : ∀ id t, s.txs.get id = some t → s.TxOk id t) (ht : s.TxOk id t) (i : Nat)
    (u : Tx N K) (hu : (s.txs.insert id t).get i = some u) : s.TxOk i u := by
  rw [SortedMap.get_insert] at hu
  split at hu
  · next heq =>
    cases hu
    exact heq ▸ ht
  · exact h i u hu

theorem Inv.setTx (h : Inv s) (hb : t.Bounded s.version) (ht : s.TxOk id t) : Inv (s.setTx id t) where
  bounded := h.bounded.setTx hb
  retained := h.retained
  tx i u hu := by
    have hok := txOk_insert h.tx ht i u hu
    exact ⟨hok.registered, hok.limit, hok.validated⟩
  isolated := h.isolated

theorem Inv.not_conflicts (h : Inv s) (ht : s.txs.get id = some t) (hopen : t.phase.isOpen = true)
    (hreg : t.level.registers = true) {above : Nat} {f : Footprint N K} (hclear : s.Clear above f)
    {r : CommitRecord N K} (hr : r ∈ s.commits) (hstart : t.start < r.version)
    (habove : above < r.version) : ¬f.Conflicts r.keys :=
  hclear r (h.retained id _ ((h.tx id t ht).registered hreg hopen) r hr hstart) habove

/-! ## Every step keeps it -/

theorem Inv.beginTx (h : Inv s) (level : IsolationLevel) : Inv (s.beginTx id level) := by
  refine ⟨h.bounded.beginTx id level, fun i v hv r hr hlt => ?_, fun i u hu => ?_, h.isolated⟩
  · rcases get_beginTx_active hv with hv | rfl
    · exact h.retained i v hv r hr hlt
    · exact absurd (h.bounded.commits r hr) (not_le.2 hlt)
  · change (s.txs.insert id _).get i = some u at hu
    rw [SortedMap.get_insert] at hu
    split at hu
    · next heq =>
      subst heq
      cases hu
      refine ⟨fun hreg _ => ?_, nofun, nofun⟩
      have : (s.beginTx i level).active = s.active.insert i s.version := if_pos hreg
      rw [this, SortedMap.get_insert_self]
    · next hne =>
      have hok := h.tx i u hu
      refine ⟨fun hreg hopen => ?_, fun m hm j v hv => ?_, hok.validated⟩
      · unfold Occ.beginTx
        split
        · rw [SortedMap.get_insert_of_ne _ _ hne]
          exact hok.registered hreg hopen
        · exact hok.registered hreg hopen
      · rcases get_beginTx_active hv with hv | rfl
        · exact hok.limit m hm j v hv
        · exact (h.bounded.tx i u hu).limit m hm

theorem Inv.unregister (h : Inv s) (hb : (s.unregister id t).Bounded) : Inv (s.unregister id t) := by
  refine ⟨hb, fun i v hv => h.retained i v (get_erase_active hv).2, fun i u hu => ?_, h.isolated⟩
  change (s.txs.insert id _).get i = some u at hu
  rw [SortedMap.get_insert] at hu
  split at hu
  · cases hu
    exact ⟨nofun, fun m hm _ _ hv => minStart_le hm hv, nofun⟩
  · next hne =>
    have hok := h.tx i u hu
    refine ⟨fun hreg hopen => ?_, fun m hm j v hv => hok.limit m hm j v (get_erase_active hv).2,
      hok.validated⟩
    show (s.active.erase id).get i = _
    rw [SortedMap.get_erase, if_neg hne]
    exact hok.registered hreg hopen

theorem Inv.prune (h : Inv s) (ht : s.txs.get id = some t) {alone : Bool} {limit : Nat}
    (hp : t.phase = .pruning alone limit) (hb : (s.prune id t limit).Bounded)
    (hsafe : alone = true → ∀ x ∈ s.active.entries, limit ≤ x.2 + 1) : Inv (s.prune id t limit) := by
  have hgone : s.TxOk id { t with phase := .gone } := ⟨nofun, nofun, nofun⟩
  refine ⟨hb, fun i v hv r hr hlt => ?_, fun i u hu => ?_, h.isolated⟩
  · refine mem_filter.2 ⟨h.retained i v hv r hr hlt, decide_eq_true ?_⟩
    cases alone with
    | true => exact (hsafe rfl (i, v) (SortedMap.mem_entries.2 hv)).trans hlt
    | false => exact ((h.tx id t ht).limit limit (by rw [hp]; rfl) i v hv).trans hlt.le
  · have hok := txOk_insert h.tx hgone i u hu
    exact ⟨hok.registered, hok.limit, hok.validated⟩

theorem Inv.committed (h : Inv s) (ht : s.txs.get id = some t) {writes : Finset (N × K)} {max : Nat}
    {min : Option Nat} (hp : t.phase = .limited writes max min)
    (hclear : s.Clear max (t.footprint writes))
    (hsafe : min = none → ∀ x ∈ s.active.entries, s.version ≤ x.2) :
    Inv (s.committed id t writes min) := by
  have hok := h.tx id t ht
  have hb := h.bounded.tx id t ht
  refine ⟨h.bounded.committed hb writes min, fun i v hv r hr hlt => ?_, fun i u hu => ?_,
    fun c hc hreg r hr hlt hle => ?_⟩
  · -- the prune keeps what the registered transaction has yet to see
    refine mem_filter.2 ⟨?_, decide_eq_true ?_⟩
    · rcases mem_cons.1 hr with rfl | hr
      · simp
      · exact mem_append_left _ (h.retained i v hv r hr hlt)
    · cases min with
      | none => exact Nat.lt_of_le_of_lt (hsafe rfl (i, v) (SortedMap.mem_entries.2 hv)) hlt
      | some m => exact (hok.limit m (by rw [hp]; rfl) i v hv).trans hlt.le
  · have hrun : s.TxOk id { t with buffer := ∅, phase := .running } :=
      ⟨fun hreg _ => hok.registered hreg (by rw [hp]; rfl), nofun, nofun⟩
    have hu' := txOk_insert h.tx hrun i u hu
    have hub := bounded_insert h.bounded.tx (t := { t with buffer := ∅, phase := .running })
      ⟨hb.start, nofun, nofun⟩ i u hu
    refine ⟨hu'.registered, hu'.limit, fun hreg x hx r hr hlt hle => ?_⟩
    rcases mem_cons.1 hr with rfl | hr
    · exact absurd (hle.trans (hub.validated x hx)) (Nat.not_succ_le_self _)
    · exact hu'.validated hreg x hx r hr hlt hle
  · rcases mem_cons.1 hc with rfl | hc
    · rcases mem_cons.1 hr with rfl | hr
      · exact absurd hle (Nat.not_succ_le_self _)
      · by_cases hold : r.version ≤ max
        · exact hok.validated hreg (writes, max) (by rw [hp]; rfl) r hr hlt hold
        · exact h.not_conflicts ht (by rw [hp]; rfl) hreg hclear hr hlt (not_le.1 hold)
    · rcases mem_cons.1 hr with rfl | hr
      · exact absurd (hle.trans (h.bounded.upTo c hc)) (Nat.not_succ_le_self _)
      · exact h.isolated c hc hreg r hr hlt hle

variable [DecidableEq N]

theorem Inv.act (h : Inv s) (ht : s.txs.get id = some t) {a : Action N K} (hsafe : s.ActSafe t a)
    (ha : s.act id t a = some s') : Inv s' := by
  have hok := h.tx id t ht
  have hacts := acts_of_act ha
  have hbounded := h.bounded.acts ht hacts
  have hb : ∀ {u}, s' = s.setTx id u → u.Bounded s.version := fun {u} heq =>
    (heq ▸ hbounded).tx id u (SortedMap.get_insert_self ..)
  cases hacts with
  | access a hp =>
    refine h.setTx (hb rfl) ?_
    obtain ⟨reads, ranges, buffer, heq⟩ := access_eq t a
    rw [heq]
    refine ⟨hok.registered, hok.limit, ?_⟩
    rw [hp]
    nofun
  | conflict _ hp => exact h
  | readOnly _ hp hclear =>
    refine ⟨hbounded, h.retained, fun i u hu => ⟨(h.tx i u hu).registered, (h.tx i u hu).limit,
      (h.tx i u hu).validated⟩, fun c hc hreg r hr hlt hle => ?_⟩
    rcases mem_cons.1 hc with rfl | hc
    · exact h.not_conflicts ht (by rw [hp]; rfl) hreg hclear hr hlt hlt
    · exact h.isolated c hc hreg r hr hlt hle
  | validate _ hp hclear =>
    have hopen : t.phase.isOpen = true := by rw [hp]; rfl
    refine h.setTx (hb rfl) ⟨fun hreg _ => hok.registered hreg hopen, nofun,
      fun hreg x hx r hr hlt _ => ?_⟩
    cases hx
    exact h.not_conflicts ht hopen hreg hclear hr hlt hlt
  | readMin writes max hp =>
    exact h.setTx (hb rfl) ⟨fun hreg _ => hok.registered hreg (by rw [hp]; rfl),
      fun m hm i v hv => minStart_le hm hv,
      fun hreg x hx => hok.validated hreg x (by rw [hp]; exact hx)⟩
  | abort writes max min hp hclear =>
    exact h.setTx (hb rfl) ⟨fun hreg _ => hok.registered hreg (by rw [hp]; rfl), nofun, nofun⟩
  | apply writes max min hp hclear =>
    refine h.committed ht hp hclear fun hmin => ?_
    unfold ActSafe at hsafe
    rw [hp, hmin] at hsafe
    exact hsafe
  | unregister hp => exact h.unregister hbounded
  | loadLimit min hp =>
    refine h.setTx (hb rfl) ⟨nofun, fun m hm => ?_, nofun⟩
    cases min with
    | none => cases hm
    | some m' =>
      cases hm
      exact hok.limit m' (by rw [hp]; rfl)
  | prune alone limit hp =>
    refine h.prune ht hp hbounded fun halone => ?_
    unfold ActSafe at hsafe
    rw [hp, halone] at hsafe
    exact hsafe

theorem Inv.step (h : Inv s) {l : OccStep N K} (hsafe : s.StepSafe l) (hs : s.step l = some s') :
    Inv s' := by
  cases l with
  | begin id level =>
    obtain ⟨-, hs⟩ := ite_none_left_eq_some.1 hs
    cases hs
    exact h.beginTx level
  | act id a =>
    obtain ⟨t, ht, ha⟩ := bind_eq_some_iff.1 hs
    exact h.act ht (hsafe t ht) ha

theorem Inv.run {ls : List (OccStep N K)} (hr : Run Occ.step Occ.StepSafe .fresh ls s) : Inv s :=
  hr.invariant (I := fun _ s => Inv s) Inv.fresh fun _ _ _ _ h hsafe hs => h.step hsafe hs

end Occ

variable [DecidableEq N] [LinearOrder K]

/-- **Snapshot isolation.** In every run of safe steps, no commit between the start and the commit
of a snapshot-isolation transaction touched what it read, scanned or wrote, and the history keeps
every record newer than the start of a registered transaction. -/
theorem snapshotIsolation_isolated {ls : List (OccStep N K)} {s : Occ N K}
    (hr : Run Occ.step Occ.StepSafe .fresh ls s) :
    (∀ c ∈ s.finished, c.level = .snapshotIsolation → s.Isolated c) ∧
      ∀ id start, s.active.get id = some start → ∀ r ∈ s.commits, start < r.version →
        r ∈ s.history := by
  have h := Occ.Inv.run hr
  exact ⟨fun c hc hlevel => h.isolated c hc (by rw [hlevel]; rfl), h.retained⟩

/-! ## Concrete runs -/

instance (s : Occ N K) (c : Commit N K) : Decidable (s.Isolated c) :=
  inferInstanceAs (Decidable (∀ r ∈ s.commits, _ → _ → _))

instance (s : Occ N K) (t : Tx N K) (a : Action N K) : Decidable (s.ActSafe t a) := by
  unfold Occ.ActSafe
  split <;> infer_instance

instance (s : Occ N K) : (l : OccStep N K) → Decidable (s.StepSafe l)
  | .begin _ _ => .isTrue trivial
  | .act id a => inferInstanceAs (Decidable (∀ t ∈ s.txs.get id, s.ActSafe t a))

def commitSteps (id : Nat) : List (OccStep String DbKey) :=
  [.act id (.validate ∅), .act id .readMin, .act id .apply]

/-- Transaction 3 overwrites what transaction 2 has read; a third writer commits in between. -/
def overlapTrace : List (OccStep String DbKey) :=
  [.begin 2 .snapshotIsolation, .begin 1 .readCommitted, .act 1 (.access (.write "t" (.string "z"))),
    .act 1 (.validate ∅), .act 1 .readMin,
    .act 2 (.access (.get "t" (.string "x"))), .act 2 (.access (.write "t" (.string "y")))] ++
  commitSteps 2 ++
  [.begin 3 .readCommitted, .act 3 (.access (.write "t" (.string "x")))] ++ commitSteps 3 ++
  [.act 1 .apply, .act 2 .unregister, .act 2 .loadLimit, .act 2 .prune]

theorem overlapTrace_isolated : ∃ s, Run Occ.step Occ.StepSafe .fresh overlapTrace s ∧
    s.finished.length = 3 ∧ ∀ c ∈ s.finished, c.level = .snapshotIsolation → s.Isolated c := by
  refine Run.exists_of_exec (p := fun s => s.finished.length = 3) (by decide +kernel)
    fun s hs hfin => ?_
  exact ⟨hfin, (snapshotIsolation_isolated hs).1⟩

/-- Transaction 1 reads the minimum while nobody is registered; its commit prunes the record of an
overwrite of `x`, which transaction 2 has read. -/
def staleMinTrace : List (OccStep String DbKey) :=
  [.begin 1 .readCommitted, .act 1 (.access (.write "t" (.string "z"))), .act 1 (.validate ∅),
    .act 1 .readMin,
    .begin 2 .snapshotIsolation, .act 2 (.access (.get "t" (.string "x"))),
    .begin 3 .readCommitted, .act 3 (.access (.write "t" (.string "x")))] ++ commitSteps 3 ++
  [.act 1 .apply, .act 2 (.access (.write "t" (.string "y")))] ++ commitSteps 2

/-- Transaction 2 commits although a commit since its start wrote a key it had read. -/
theorem staleMinTrace_not_isolated :
    (exec Occ.step (Occ.fresh : Occ String DbKey) staleMinTrace).any (fun s =>
      s.finished.any fun c => c.level = .snapshotIsolation ∧ ¬s.Isolated c) = true := by
  decide +kernel

end Dtdb.Relational
