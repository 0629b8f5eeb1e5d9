import Dtdb.Storage.CompactLevel

/-! # The flush pipeline

`FlushInv` ties the queue of sealed memtables to level 0: a file of level 0 is a completed
memtable's or older than the whole queue, and once every memtable holding a key is completed the
SSTables alone give the newest one's slot. -/

namespace Dtdb.Storage

open Dtdb.Lib List

variable {K V Λ : Type} [LinearOrder K] [ByteSize K] [ByteSize V]

/-- The queue of sealed memtables: ids fall from front to back and are all allocated. -/
structure QueueOk (e : Engine K V Λ) : Prop where
  sstOrder : e.immutable.Pairwise fun a b => b.sstId < a.sstId
  walOrder : e.immutable.Pairwise fun a b => b.walId < a.walId
  sstIds : ∀ i ∈ e.immutable, i.sstId < e.nextSstId
  walIds : ∀ i ∈ e.immutable, i.walId < e.activeWalId
  walNext : e.activeWalId < e.nextWalId

theorem eq_of_pairwise_lt {α : Type} {f : α → Nat} {l : List α}
    (h : l.Pairwise fun a b => f b < f a) {a b : α} (ha : a ∈ l) (hb : b ∈ l) (hf : f a = f b) :
    a = b :=
  inj_on_of_nodup_map (pairwise_map.2 (h.imp fun hab => ne_of_gt hab)) ha hb hf

theorem QueueOk.eq_of_walId {e : Engine K V Λ} (h : QueueOk e) {i j : ImmMemtable K V}
    (hi : i ∈ e.immutable) (hj : j ∈ e.immutable) (hw : i.walId = j.walId) : i = j :=
  eq_of_pairwise_lt h.walOrder hi hj hw

theorem QueueOk.eq_of_sstId {e : Engine K V Λ} (h : QueueOk e) {i j : ImmMemtable K V}
    (hi : i ∈ e.immutable) (hj : j ∈ e.immutable) (hw : i.sstId = j.sstId) : i = j :=
  eq_of_pairwise_lt h.sstOrder hi hj hw

structure FileOf {cfg : Config K V Λ} {T : Option Λ} {A : Type} (M : Meaning cfg T A)
    (f : Reader K V Λ) (i : ImmMemtable K V) : Prop where
  completed : i.flush = .completed
  id : f.id = i.sstId
  entries : f.entries = i.table.entries
  means : ∀ x ∈ f.entries, M.slot f.layout x.2 = M.slot T x.2

theorem FileOf.get {cfg : Config K V Λ} {T : Option Λ} {A : Type} {M : Meaning cfg T A}
    {f : Reader K V Λ} {i : ImmMemtable K V} (h : FileOf M f i) (k : K) :
    f.get k = i.table.get k := by
  unfold Reader.get
  rw [h.entries]
  rfl

structure FlushInv {cfg : Config K V Λ} {T : Option Λ} {A : Type} (M : Meaning cfg T A)
    (e : Engine K V Λ) : Prop where
  levels : LevelsOk cfg.options.maxLevel e
  queue : QueueOk e
  layout : e.targetLayout = T
  fromQueue : ∀ f ∈ e.level 0,
    (∃ i ∈ e.immutable, FileOf M f i) ∨ ∀ i ∈ e.immutable, f.id < i.sstId
  shadow : ∀ i ∈ e.immutable, i.flush ≠ .completed → ∀ j ∈ e.immutable, j.flush = .completed →
    i.sstId < j.sstId → ∀ k, i.table.get k ≠ none → j.table.get k ≠ none →
    ∃ f ∈ e.level 0, FileOf M f j
  settled : ∀ k, ∀ i ∈ e.immutable, ∀ s, i.table.get k = some s →
    (∀ j ∈ e.immutable, j.table.get k ≠ none → j.flush = .completed ∧ j.sstId ≤ i.sstId) →
    M.hit (e.probe k) = M.slot T s

/-- What holds of the levels and the queue whatever overtakes what. -/
structure Shaped (maxLevel : Nat) (T : Option Λ) (e : Engine K V Λ) : Prop where
  levels : LevelsOk maxLevel e
  queue : QueueOk e
  layout : e.targetLayout = T
  flushed : ∀ f ∈ e.level 0, (∃ i ∈ e.immutable, i.flush = .completed ∧ f.id = i.sstId) ∨
    ∀ i ∈ e.immutable, f.id < i.sstId

theorem FlushInv.shaped {cfg : Config K V Λ} {T : Option Λ} {A : Type} {M : Meaning cfg T A}
    {e : Engine K V Λ} (h : FlushInv M e) : Shaped cfg.options.maxLevel T e where
  levels := h.levels
  queue := h.queue
  layout := h.layout
  flushed f hf := (h.fromQueue f hf).imp_left fun ⟨i, hi, hfi⟩ => ⟨i, hi, hfi.completed, hfi.id⟩

theorem FlushInv.fresh {cfg : Config K V Λ} {A : Type} (M : Meaning cfg none A) :
    FlushInv M (Engine.fresh : Engine K V Λ) where
  levels := ⟨.nil, fun _ _ => .nil, nofun, nofun, nofun, fun _ => .nil⟩
  queue := ⟨.nil, .nil, nofun, nofun, Nat.zero_lt_one⟩
  layout := rfl
  fromQueue := nofun
  shadow := nofun
  settled := fun _ => nofun

namespace Engine

variable {e : Engine K V Λ}

theorem memHit_eq (e : Engine K V Λ) (k : K) :
    e.memHit k = (e.active.get k).or (e.immutable.findSome? fun i => i.table.get k) := by
  unfold memHit
  cases e.active.get k <;> rfl

/-! ## Queue updates -/

theorem mem_setSlot {q : List (ImmMemtable K V)} {w : Nat} {s : SlotState}
    {i : ImmMemtable K V} : i ∈ setSlot q w s ↔
      (∃ j ∈ q, j.walId = w ∧ i = { j with flush := s }) ∨ i ∈ q ∧ i.walId ≠ w := by
  unfold setSlot
  rw [mem_map]
  constructor
  · rintro ⟨j, hj, rfl⟩
    by_cases hw : j.walId = w
    · exact .inl ⟨j, hj, hw, by rw [if_pos hw]⟩
    · rw [if_neg hw]
      exact .inr ⟨hj, hw⟩
  · rintro (⟨j, hj, hw, rfl⟩ | ⟨hi, hw⟩)
    · exact ⟨j, hj, by rw [if_pos hw]⟩
    · exact ⟨i, hi, by rw [if_neg hw]⟩

theorem setSlot_pairwise {q : List (ImmMemtable K V)} {w : Nat} {s : SlotState}
    {R : ImmMemtable K V → ImmMemtable K V → Prop}
    (hR : ∀ a b : ImmMemtable K V, ∀ sa sb, R a b → R { a with flush := sa } { b with flush := sb })
    (h : q.Pairwise R) : (setSlot q w s).Pairwise R := by
  refine pairwise_map.2 (h.imp fun {a b} hab => ?_)
  have := fun sa sb => hR a b sa sb hab
  split <;> split
  · exact this s s
  · exact this s b.flush
  · exact this a.flush s
  · exact this a.flush b.flush

theorem queueOk_setSlot {e : Engine K V Λ} (h : QueueOk e) {e' : Engine K V Λ} {w : Nat}
    {s : SlotState} (himm : e'.immutable = setSlot e.immutable w s)
    (hsst : e'.nextSstId = e.nextSstId) (hact : e'.activeWalId = e.activeWalId)
    (hwal : e'.nextWalId = e.nextWalId) : QueueOk e' where
  sstOrder := by
    rw [himm]
    exact setSlot_pairwise (fun _ _ _ _ hab => hab) h.sstOrder
  walOrder := by
    rw [himm]
    exact setSlot_pairwise (fun _ _ _ _ hab => hab) h.walOrder
  sstIds i hi := by
    rw [himm] at hi
    rw [hsst]
    rcases mem_setSlot.1 hi with ⟨j, hj, -, rfl⟩ | ⟨hi, -⟩
    · exact h.sstIds j hj
    · exact h.sstIds i hi
  walIds i hi := by
    rw [himm] at hi
    rw [hact]
    rcases mem_setSlot.1 hi with ⟨j, hj, -, rfl⟩ | ⟨hi, -⟩
    · exact h.walIds j hj
    · exact h.walIds i hi
  walNext := by rw [hact, hwal]; exact h.walNext

end Engine

end Dtdb.Storage
