import Dtdb.Storage.FlushInv

/-! # The flush invariant, step by step

Every step of the write and flush path keeps `FlushInv`; a commit overlays its mutations on the
view, every other step leaves the view alone.
-/

namespace Dtdb.Storage

open Dtdb.Lib List Option

variable {K V Λ : Type} [LinearOrder K] [ByteSize K] [ByteSize V]
variable {cfg : Config K V Λ} {T : Option Λ} {A : Type} {M : Meaning cfg T A}
variable {e e' : Engine K V Λ} {maxLevel : Nat}

/-! ## Commit -/

theorem Shaped.commit (h : Shaped maxLevel T e) (cfg : Config K V Λ) (es : List (WalEntry K V)) :
    Shaped maxLevel T (e.commit cfg es) :=
  ⟨h.levels.congr rfl le_rfl, { h.queue with }, h.layout, h.flushed⟩

theorem FlushInv.commit (h : FlushInv M e) (es : List (WalEntry K V)) :
    FlushInv M (e.commit cfg es) :=
  have hsh := h.shaped.commit cfg es
  ⟨hsh.levels, hsh.queue, hsh.layout, h.fromQueue, h.shadow, h.settled⟩

theorem Meaning.view_commit (M : Meaning cfg T A) (e : Engine K V Λ) (es : List (WalEntry K V))
    (k : K) : M.view (e.commit cfg es) k
      = match lastWrite (WalEntry.mutations es) k with
        | some s => M.slot T s
        | none => M.view e k := by
  unfold view
  have hmem : (e.commit cfg es).memHit k
      = (lastWrite (WalEntry.mutations es) k).or (e.memHit k) := by
    rw [Engine.memHit_eq, Engine.memHit_eq, ← Option.or_assoc, ← MemTable.get_applyDrain]
    rfl
  rw [hmem]
  cases lastWrite (WalEntry.mutations es) k <;> rfl

/-! ## Seal -/

theorem Meaning.view_seal (M : Meaning cfg T A) (e : Engine K V Λ) (k : K) :
    M.view e.sealActive k = M.view e k := by
  have hmem : e.sealActive.memHit k = e.memHit k := by
    unfold Engine.sealActive
    split
    · rw [Engine.memHit_eq, Engine.memHit_eq, findSome?_cons]
      cases e.active.get k <;> rfl
    · rfl
  have hprobe : e.sealActive.probe k = e.probe k := by
    unfold Engine.sealActive
    split <;> rfl
  unfold view
  rw [hmem, hprobe]

theorem Shaped.sealActive (h : Shaped maxLevel T e) :
    Shaped maxLevel T e.sealActive := by
  unfold Engine.sealActive
  split
  swap
  · exact h
  refine ⟨h.levels.congr rfl (Nat.le_succ _), ⟨?_, ?_, ?_, ?_, Nat.lt_succ_self _⟩, h.layout, ?_⟩
  · exact pairwise_cons.2 ⟨h.queue.sstIds, h.queue.sstOrder⟩
  · exact pairwise_cons.2 ⟨h.queue.walIds, h.queue.walOrder⟩
  · exact forall_mem_cons.2 ⟨Nat.lt_succ_self _,
      fun i hi => (h.queue.sstIds i hi).trans (Nat.lt_succ_self _)⟩
  · exact forall_mem_cons.2 ⟨h.queue.walNext,
      fun i hi => (h.queue.walIds i hi).trans h.queue.walNext⟩
  · intro f hf
    rcases h.flushed f hf with ⟨i, hi, hfi⟩ | hall
    · exact .inl ⟨i, mem_cons_of_mem _ hi, hfi⟩
    · exact .inr (forall_mem_cons.2 ⟨h.levels.ids 0 f hf, hall⟩)

theorem FlushInv.seal (h : FlushInv M e) : FlushInv M e.sealActive := by
  have hsh := h.shaped.sealActive
  unfold Engine.sealActive at hsh ⊢
  split
  swap
  · exact h
  next hne =>
  rw [dif_pos hne] at hsh
  set i₀ : ImmMemtable K V := ⟨e.active, hne, e.activeWalId, e.nextSstId, .pending⟩ with hi₀
  -- the new memtable is the newest and is not completed
  have hlt : ∀ i ∈ e.immutable, i.sstId < i₀.sstId := h.queue.sstIds
  refine ⟨hsh.levels, hsh.queue, hsh.layout, ?_, ?_, ?_⟩
  · intro f hf
    rcases h.fromQueue f hf with ⟨i, hi, hfi⟩ | hall
    · exact .inl ⟨i, mem_cons_of_mem _ hi, hfi⟩
    · exact .inr (forall_mem_cons.2 ⟨h.levels.ids 0 f hf, hall⟩)
  · intro i hi hpend j hj hcomp hij k hik hjk
    rcases mem_cons.1 hj with rfl | hj
    · cases hcomp
    rcases mem_cons.1 hi with rfl | hi
    · exact absurd hij (lt_asymm (hlt j hj))
    · exact h.shadow i hi hpend j hj hcomp hij k hik hjk
  · intro k i hi s hs hall
    have hnot : i₀.table.get k = none := by
      by_contra hne'
      exact absurd (hall i₀ mem_cons_self hne').1 (by simp [hi₀])
    rcases mem_cons.1 hi with rfl | hi
    · rw [hs] at hnot
      cases hnot
    · exact h.settled k i hi s hs fun j hj => hall j (mem_cons_of_mem _ hj)

/-! ## Claim -/

variable {w : Nat}

theorem Engine.claimFlush_eq (h : e.claimFlush w = some e') :
    ∃ i ∈ e.immutable, i.walId = w ∧ i.flush = .pending ∧
      e' = { e with immutable := setSlot e.immutable w .inFlight } := by
  unfold claimFlush at h
  split at h
  · next i hi =>
    split at h
    · next hp =>
      cases h
      exact ⟨i, mem_of_find?_eq_some hi, by simpa using find?_some hi, hp, rfl⟩
    · cases h
  · cases h

theorem Meaning.view_setSlot (M : Meaning cfg T A) (e : Engine K V Λ) (w : Nat) (s : SlotState)
    (k : K) : M.view { e with immutable := Engine.setSlot e.immutable w s } k = M.view e k := by
  unfold view
  have : ({ e with immutable := Engine.setSlot e.immutable w s } : Engine K V Λ).memHit k
      = e.memHit k := by
    rw [Engine.memHit_eq, Engine.memHit_eq]
    refine congrArg _ ((findSome?_map ..).trans (findSome?_congr fun i _ => ?_))
    simp only [Function.comp_apply]
    split <;> rfl
  rw [this]
  rfl

theorem Shaped.setSlot (h : Shaped maxLevel T e) {i₀ : ImmMemtable K V} (hi₀ : i₀ ∈ e.immutable)
    (hpend : i₀.flush ≠ .completed) (s : SlotState) :
    Shaped maxLevel T { e with immutable := Engine.setSlot e.immutable i₀.walId s } := by
  refine ⟨h.levels.congr rfl le_rfl, Engine.queueOk_setSlot h.queue rfl rfl rfl rfl, h.layout, ?_⟩
  intro f hf
  rcases h.flushed f hf with ⟨i, hi, hc, hid⟩ | hall
  · refine .inl ⟨i, Engine.mem_setSlot.2 (.inr ⟨hi, fun hiw => ?_⟩), hc, hid⟩
    exact hpend (h.queue.eq_of_walId hi hi₀ hiw ▸ hc)
  · refine .inr fun i hi => ?_
    rcases Engine.mem_setSlot.1 hi with ⟨j, hj, -, rfl⟩ | ⟨hi, -⟩
    · exact hall j hj
    · exact hall i hi

theorem Shaped.claim (h : Shaped maxLevel T e) (hs : e.claimFlush w = some e') :
    Shaped maxLevel T e' := by
  obtain ⟨i₀, hi₀, rfl, hpend, rfl⟩ := Engine.claimFlush_eq hs
  exact h.setSlot hi₀ (by simp [hpend]) _

theorem FlushInv.setSlot (h : FlushInv M e) {i₀ : ImmMemtable K V} (hi₀ : i₀ ∈ e.immutable)
    (hpend : i₀.flush ≠ .completed) {s : SlotState} (hs : s ≠ .completed) :
    FlushInv M { e with immutable := Engine.setSlot e.immutable i₀.walId s } := by
  have hsh := h.shaped.setSlot hi₀ hpend s
  -- a memtable of the new queue is one of the old, completed if that is
  have hback : ∀ i ∈ Engine.setSlot e.immutable i₀.walId s, ∃ j ∈ e.immutable,
      i.table = j.table ∧ i.sstId = j.sstId ∧ (i.flush = .completed ↔ j.flush = .completed) := by
    intro i hi
    rcases Engine.mem_setSlot.1 hi with ⟨j, hj, hjw, rfl⟩ | ⟨hi, -⟩
    · refine ⟨j, hj, rfl, rfl, ?_⟩
      rw [h.queue.eq_of_walId hj hi₀ hjw]
      exact iff_of_false hs hpend
    · exact ⟨i, hi, rfl, rfl, Iff.rfl⟩
  have hkeep : ∀ i ∈ e.immutable, i.flush = .completed →
      i ∈ Engine.setSlot e.immutable i₀.walId s := by
    intro i hi hc
    refine Engine.mem_setSlot.2 (.inr ⟨hi, fun hiw => ?_⟩)
    exact hpend (h.queue.eq_of_walId hi hi₀ hiw ▸ hc)
  refine ⟨hsh.levels, hsh.queue, hsh.layout, ?_, ?_, ?_⟩
  · intro f hf
    rcases h.fromQueue f hf with ⟨i, hi, hfi⟩ | hall
    · exact .inl ⟨i, hkeep i hi hfi.completed, hfi⟩
    · refine .inr fun i hi => ?_
      obtain ⟨j, hj, -, hid, -⟩ := hback i hi
      exact hid ▸ hall j hj
  · intro i hi hpi j hj hcj hij k hik hjk
    obtain ⟨i', hi', hti, hidi, hci⟩ := hback i hi
    obtain ⟨j', hj', htj, hidj, hcj'⟩ := hback j hj
    obtain ⟨f, hf, hfj⟩ := h.shadow i' hi' (fun hc => hpi (hci.2 hc)) j' hj' (hcj'.1 hcj)
      (hidi ▸ hidj ▸ hij) k (hti ▸ hik) (htj ▸ hjk)
    exact ⟨f, hf, hcj, hidj ▸ hfj.id, htj ▸ hfj.entries, hfj.means⟩
  · intro k i hi t hsi hall
    obtain ⟨i', hi', hti, hidi, -⟩ := hback i hi
    refine h.settled k i' hi' t (hti ▸ hsi) fun j hj hjk => ?_
    by_cases hjw : j.walId = i₀.walId
    · exact absurd (hall _ (Engine.mem_setSlot.2 (.inl ⟨j, hj, hjw, rfl⟩)) hjk).1 hs
    · exact hidi ▸ hall j (Engine.mem_setSlot.2 (.inr ⟨hj, hjw⟩)) hjk

theorem FlushInv.claim (h : FlushInv M e) (hs : e.claimFlush w = some e') :
    FlushInv M e' := by
  obtain ⟨i₀, hi₀, rfl, hpend, rfl⟩ := Engine.claimFlush_eq hs
  exact h.setSlot hi₀ (by simp [hpend]) nofun

/-! ## Finish -/

theorem Engine.finishFlush_eq (h : e.finishFlush w = some e') :
    ∃ i ∈ e.immutable, i.walId = w ∧ i.flush = .inFlight ∧
      e' = { e.writeImmutableSstable i with
        immutable := setSlot e.immutable w .completed } := by
  unfold finishFlush at h
  split at h
  · next i hi =>
    split at h
    · next hp =>
      cases h
      exact ⟨i, mem_of_find?_eq_some hi, by simpa using find?_some hi, hp, rfl⟩
    · cases h
  · cases h

variable {i : ImmMemtable K V}

theorem Shaped.fresh_id (h : Shaped maxLevel T e) (hi : i ∈ e.immutable)
    (hpend : i.flush ≠ .completed) : ∀ f ∈ e.level 0, f.id ≠ i.sstId := by
  intro f hf hid
  rcases h.flushed f hf with ⟨j, hj, hc, hfj⟩ | hall
  · have := h.queue.eq_of_sstId hi hj (hid.symm.trans hfj)
    exact hpend (this ▸ hc)
  · exact absurd (hall i hi) (by omega)

theorem Shaped.levels_write (h : Shaped maxLevel T e) (hi : i ∈ e.immutable)
    (hpend : i.flush ≠ .completed) :
    LevelsOk maxLevel (e.writeImmutableSstable i) :=
  h.levels.insertFile rfl rfl (h.fresh_id hi hpend) (h.queue.sstIds i hi) le_rfl

/-- The last step of a flush: the file joins level 0 and its memtable is completed. -/
def Engine.registerFlush (e : Engine K V Λ) (w : Nat) (f : Reader K V Λ) : Engine K V Λ :=
  { e with
    sstables := e.sstables.insert 0 (insertL0Sorted (e.level 0) f)
    immutable := setSlot e.immutable w .completed }

theorem Shaped.registerFlush (h : Shaped maxLevel T e) (hi : i ∈ e.immutable)
    (hfl : i.flush = .inFlight) {f : Reader K V Λ} (hf : f.level = 0) (hid : f.id = i.sstId) :
    Shaped maxLevel T (e.registerFlush i.walId f) := by
  have hfresh : ∀ g ∈ e.level 0, g.id ≠ f.id := by
    rw [hid]
    exact h.fresh_id hi (by rw [hfl]; nofun)
  refine ⟨h.levels.insertFile rfl hf hfresh (hid ▸ h.queue.sstIds i hi) le_rfl,
    Engine.queueOk_setSlot h.queue rfl rfl rfl rfl, h.layout, fun g hg => ?_⟩
  rw [Engine.level_zero_of_insert rfl, mem_insertL0Sorted h.levels.newestFirst] at hg
  rcases hg with rfl | hg
  · exact .inl ⟨_, Engine.mem_setSlot.2 (.inl ⟨i, hi, rfl, rfl⟩), rfl, hid⟩
  · exact (h.setSlot hi (by simp [hfl]) .completed).flushed g hg

theorem Shaped.finish (h : Shaped maxLevel T e) (hs : e.finishFlush w = some e') :
    Shaped maxLevel T e' := by
  obtain ⟨i, hi, rfl, hfl, rfl⟩ := Engine.finishFlush_eq hs
  exact h.registerFlush hi hfl rfl rfl

theorem FlushInv.probe_write (h : FlushInv M e) (hi : i ∈ e.immutable)
    (hpend : i.flush ≠ .completed) {k : K} (hk : i.table.get k = none) :
    (e.writeImmutableSstable i).probe k = e.probe k :=
  h.levels.probe_insertFile (h.shaped.levels_write hi hpend) rfl hk

theorem probe_newest (hl : LevelsOk cfg.options.maxLevel e)
    (hq : ∀ f ∈ e.level 0, (∃ i ∈ e.immutable, FileOf M f i) ∨ ∀ i ∈ e.immutable, f.id < i.sstId)
    {k : K} {s : Option V} {f : Reader K V Λ} (hf : f ∈ e.level 0) (hfi : FileOf M f i)
    (hi : i ∈ e.immutable) (hs : i.table.get k = some s)
    (hnew : ∀ j ∈ e.immutable, j.flush = .completed → j.table.get k ≠ none → j.sstId ≤ i.sstId) :
    M.hit (e.probe k) = M.slot T s := by
  have hhit : e.levelHit k 0 = some (f.layout, s) := by
    refine hl.newestFirst.hit_eq hf (by rw [hfi.get, hs]) fun g hg hlt => ?_
    by_contra hgk
    rcases hq g hg with ⟨j, hj, hgj⟩ | hall
    · have := hnew j hj hgj.completed (hgj.get k ▸ hgk)
      rw [hfi.id, hgj.id] at hlt
      omega
    · have := hall i hi
      rw [hfi.id] at hlt
      omega
  rw [Engine.probe_of_level0 hl hhit]
  exact hfi.means (k, s) (mem_of_lookup (by rw [← hs, ← hfi.get]; rfl))

theorem FlushInv.finish (h : FlushInv M e) (hs : e.finishFlush w = some e') :
    FlushInv M e' := by
  obtain ⟨i₀, hi₀, hw, hfl, rfl⟩ := Engine.finishFlush_eq hs
  have hpend : i₀.flush ≠ .completed := by rw [hfl]; nofun
  set d : ImmMemtable K V := { i₀ with flush := .completed } with hd
  set q := Engine.setSlot e.immutable w .completed with hq
  have hdq : d ∈ q := Engine.mem_setSlot.2 (.inl ⟨i₀, hi₀, hw, rfl⟩)
  have hmem : ∀ i, i ∈ q ↔ i = d ∨ i ∈ e.immutable ∧ i.walId ≠ w := by
    intro i
    rw [Engine.mem_setSlot]
    refine or_congr_left ⟨fun ⟨j, hj, hjw, hi⟩ => ?_, fun hi => ⟨i₀, hi₀, hw, hi⟩⟩
    rw [hi, h.queue.eq_of_walId hj hi₀ (hjw.trans hw.symm)]
  have hother : ∀ i ∈ e.immutable, i ≠ i₀ → i ∈ q := fun i hi hne =>
    (hmem i).2 (.inr ⟨hi, fun hiw => hne (h.queue.eq_of_walId hi hi₀ (hiw.trans hw.symm))⟩)
  have hlv := h.shaped.levels_write hi₀ hpend
  have hfile : FileOf M (e.immReader i₀) d := ⟨rfl, rfl, rfl, fun x _ => congrArg (M.slot · x.2) h.layout⟩
  have hlevel0 : ∀ f, f ∈ (e.writeImmutableSstable i₀).level 0 ↔
      f = e.immReader i₀ ∨ f ∈ e.level 0 := fun f => by
    rw [Engine.level_zero_of_insert rfl, mem_insertL0Sorted h.levels.newestFirst]
  have hlv' : LevelsOk cfg.options.maxLevel
      ({ e.writeImmutableSstable i₀ with immutable := q } : Engine K V Λ) := hlv.congr rfl le_rfl
  have hfrom : ∀ f ∈ (e.writeImmutableSstable i₀).level 0,
      (∃ i ∈ q, FileOf M f i) ∨ ∀ i ∈ q, f.id < i.sstId := by
    intro f hf
    rcases (hlevel0 f).1 hf with rfl | hf
    · exact .inl ⟨d, hdq, hfile⟩
    rcases h.fromQueue f hf with ⟨i, hi, hfi⟩ | hall
    · exact .inl ⟨i, hother i hi fun heq => hpend (heq ▸ hfi.completed), hfi⟩
    · refine .inr fun i hi => ?_
      rcases (hmem i).1 hi with rfl | ⟨hi, -⟩
      · exact hall i₀ hi₀
      · exact hall i hi
  refine ⟨hlv', Engine.queueOk_setSlot h.queue rfl rfl rfl rfl, h.layout, hfrom, ?_, ?_⟩
  · intro i hi hpi j hj hcj hij k hik hjk
    rcases (hmem i).1 hi with rfl | ⟨hi, -⟩
    · exact absurd rfl hpi
    rcases (hmem j).1 hj with rfl | ⟨hj, -⟩
    · exact ⟨_, (hlevel0 _).2 (.inl rfl), hfile⟩
    · obtain ⟨f, hf, hfj⟩ := h.shadow i hi hpi j hj hcj hij k hik hjk
      exact ⟨f, (hlevel0 f).2 (.inr hf), hfj⟩
  · intro k i hi s hsi hall
    have hnew : ∀ j ∈ q, j.table.get k ≠ none → j.sstId ≤ i.sstId := fun j hj hjk =>
      (hall j hj hjk).2
    rcases (hmem i).1 hi with rfl | ⟨hi, hiw⟩
    · exact probe_newest hlv' hfrom ((hlevel0 _).2 (.inl rfl)) hfile hdq hsi
        fun j hj _ => hnew j hj
    by_cases hk : i₀.table.get k = none
    · -- the flushed memtable does not hold `k`: nothing changed for it
      show M.hit ((e.writeImmutableSstable i₀).probe k) = M.slot T s
      rw [h.probe_write hi₀ hpend hk]
      refine h.settled k i hi s hsi fun j hj hjk => ?_
      exact hall j (hother j hj fun heq => hjk (heq ▸ hk)) hjk
    · -- `i` is newer and completed, and its file still shadows the new one
      have hlt : i₀.sstId < i.sstId := by
        refine lt_of_le_of_ne (hnew d hdq hk) fun heq => hiw ?_
        rw [← h.queue.eq_of_sstId hi₀ hi heq, hw]
      have hci := (hall i ((hmem i).2 (.inr ⟨hi, hiw⟩)) (by rw [hsi]; nofun)).1
      obtain ⟨f, hf, hfi⟩ := h.shadow i₀ hi₀ hpend i hi hci hlt k hk (by rw [hsi]; nofun)
      exact probe_newest hlv' hfrom ((hlevel0 f).2 (.inr hf)) hfi
        ((hmem i).2 (.inr ⟨hi, hiw⟩)) hsi fun j hj _ => hnew j hj

theorem FlushInv.view_finish (h : FlushInv M e) (hs : e.finishFlush w = some e') (k : K) :
    M.view e' k = M.view e k := by
  obtain ⟨i₀, hi₀, hw, hfl, rfl⟩ := Engine.finishFlush_eq hs
  refine (M.view_setSlot (e.writeImmutableSstable i₀) w .completed k).trans ?_
  cases hm : e.memHit k with
  | some s =>
    rw [M.view_of_memHit hm]
    exact M.view_of_memHit hm
  | none =>
    rw [M.view_of_memHit_none hm, M.view_of_memHit_none (e := e.writeImmutableSstable i₀) hm]
    rw [Engine.memHit_eq, or_eq_none_iff, findSome?_eq_none_iff] at hm
    rw [h.probe_write hi₀ (by rw [hfl]; nofun) (hm.2 i₀ hi₀)]

/-! ## Retire -/

theorem Engine.retireOldest_eq (h : e.retireOldest = some e') :
    ∃ q i, e.immutable = q ++ [i] ∧ i.flush = .completed ∧
      e' = { e with immutable := q, immutableCount := e.immutableCount - 1 } := by
  unfold retireOldest at h
  split at h
  · next i hi =>
    obtain ⟨hc, h⟩ := ite_none_right_eq_some.1 h
    cases h
    obtain ⟨q, hq⟩ := getLast?_eq_some_iff.1 hi
    exact ⟨q, i, hq, hc, by rw [hq, dropLast_concat]⟩
  · cases h

theorem Shaped.retire (h : Shaped maxLevel T e) (hs : e.retireOldest = some e') :
    Shaped maxLevel T e' := by
  obtain ⟨q, o, hq, hc, rfl⟩ := Engine.retireOldest_eq hs
  have hsub : ∀ i ∈ q, i ∈ e.immutable := fun i hi => by rw [hq]; exact mem_append_left _ hi
  have hsst := h.queue.sstOrder
  have hwal := h.queue.walOrder
  rw [hq] at hsst hwal
  refine ⟨h.levels.congr rfl le_rfl, ⟨(pairwise_append.1 hsst).1,
    (pairwise_append.1 hwal).1, fun i hi => h.queue.sstIds i (hsub i hi),
    fun i hi => h.queue.walIds i (hsub i hi), h.queue.walNext⟩, h.layout, fun f hf => ?_⟩
  rcases h.flushed f hf with ⟨i, hi, hci, hid⟩ | hall
  · rw [hq, mem_append, mem_singleton] at hi
    rcases hi with hi | rfl
    · exact .inl ⟨i, hi, hci, hid⟩
    · refine .inr fun j hj => ?_
      rw [hid]
      exact (pairwise_append.1 hsst).2.2 j hj i (mem_singleton_self i)
  · exact .inr fun i hi => hall i (hsub i hi)

theorem FlushInv.retire (h : FlushInv M e) (hs : e.retireOldest = some e') : FlushInv M e' := by
  have hsh := h.shaped.retire hs
  obtain ⟨q, o, hq, hc, rfl⟩ := Engine.retireOldest_eq hs
  have hsub : ∀ i ∈ q, i ∈ e.immutable := fun i hi => by rw [hq]; exact mem_append_left _ hi
  have hsst := h.queue.sstOrder
  rw [hq] at hsst
  have holder : ∀ i ∈ q, o.sstId < i.sstId := fun i hi =>
    (pairwise_append.1 hsst).2.2 i hi o (mem_singleton_self o)
  have hcases : ∀ i ∈ e.immutable, i ∈ q ∨ i = o := fun i hi => by
    rw [hq] at hi
    simpa using hi
  refine ⟨hsh.levels, hsh.queue, hsh.layout, ?_, ?_, ?_⟩
  · intro f hf
    rcases h.fromQueue f hf with ⟨i, hi, hfi⟩ | hall
    · rcases hcases i hi with hi | rfl
      · exact .inl ⟨i, hi, hfi⟩
      · exact .inr fun j hj => hfi.id ▸ holder j hj
    · exact .inr fun i hi => hall i (hsub i hi)
  · exact fun i hi hp j hj => h.shadow i (hsub i hi) hp j (hsub j hj)
  · intro k i hi s hsi hall
    refine h.settled k i (hsub i hi) s hsi fun j hj hjk => ?_
    rcases hcases j hj with hj | rfl
    · exact hall j hj hjk
    · exact ⟨hc, (holder i hi).le⟩

theorem FlushInv.view_retire (h : FlushInv M e) (hs : e.retireOldest = some e') (k : K) :
    M.view e' k = M.view e k := by
  obtain ⟨q, o, hq, hc, rfl⟩ := Engine.retireOldest_eq hs
  set e₁ : Engine K V Λ := { e with immutable := q, immutableCount := e.immutableCount - 1 } with he₁
  have hmem : e.memHit k = (e₁.memHit k).or (o.table.get k) := by
    rw [Engine.memHit_eq, Engine.memHit_eq, hq, findSome?_append, findSome?_singleton,
      Option.or_assoc]
  cases hm : e₁.memHit k with
  | some s =>
    rw [hm] at hmem
    rw [M.view_of_memHit hm, M.view_of_memHit hmem]
  | none =>
    rw [hm] at hmem
    cases hok : o.table.get k with
    | none =>
      rw [hok] at hmem
      rw [M.view_of_memHit_none hm, M.view_of_memHit_none hmem]
      rfl
    | some s =>
      -- only the retired memtable held `k`, so the SSTables already answer with its slot
      rw [hok] at hmem
      rw [M.view_of_memHit_none hm, M.view_of_memHit hmem]
      rw [Engine.memHit_eq, or_eq_none_iff, findSome?_eq_none_iff] at hm
      refine h.settled k o (by rw [hq]; simp) s hok fun j hj hjk => ?_
      rw [hq] at hj
      rcases mem_append.1 hj with hj | hj
      · exact absurd (hm.2 j hj) hjk
      · rw [mem_singleton.1 hj]
        exact ⟨hc, le_rfl⟩

/-! ## Compaction -/

/-- No level-0 file newer than an unflushed memtable shares a key with it. -/
def Engine.NoOvertaking (e : Engine K V Λ) : Prop :=
  ∀ i ∈ e.immutable, i.flush ≠ .completed → ∀ f ∈ e.level 0, i.sstId < f.id →
    ∀ x ∈ f.entries, i.table.get x.1 = none

instance (e : Engine K V Λ) : Decidable e.NoOvertaking :=
  inferInstanceAs (Decidable (∀ i ∈ e.immutable, _ → ∀ f ∈ e.level 0, _ → ∀ x ∈ f.entries, _))

theorem Shaped.compacted (h : Shaped cfg.options.maxLevel T e) {n : Nat}
    (hc : Engine.Compacted M n e e') : Shaped cfg.options.maxLevel T e' := by
  refine ⟨hc.levels, ⟨hc.immutable ▸ h.queue.sstOrder, hc.immutable ▸ h.queue.walOrder,
    fun i hi => ?_, fun i hi => ?_, ?_⟩, hc.targetLayout.trans h.layout, fun f hf => ?_⟩
  · rw [hc.immutable] at hi
    exact (h.queue.sstIds i hi).trans_le hc.nextSstId
  · rw [hc.immutable] at hi
    exact hc.activeWalId ▸ h.queue.walIds i hi
  · rw [hc.activeWalId, hc.nextWalId]
    exact h.queue.walNext
  · rw [hc.immutable]
    exact h.flushed f (hc.level0 f hf)

theorem FlushInv.compacted (h : FlushInv M e) {n : Nat} (hc : Engine.Compacted M n e e')
    (hsafe : n = 0 → e.NoOvertaking) : FlushInv M e' := by
  have hsh := h.shaped.compacted hc
  refine ⟨hsh.levels, hsh.queue, hsh.layout, ?_, ?_, ?_⟩
  · intro f hf
    rw [hc.immutable]
    exact h.fromQueue f (hc.level0 f hf)
  · rw [hc.immutable]
    intro i hi hp j hj hcj hij k hik hjk
    obtain ⟨f, hf, hfj⟩ := h.shadow i hi hp j hj hcj hij k hik hjk
    by_cases hn : n = 0
    · -- such a pair is what the condition rules out
      obtain ⟨s, hs⟩ := ne_none_iff_exists'.1 (hfj.get k ▸ hjk)
      exact absurd (hsafe hn i hi hp f hf (hfj.id ▸ hij) (k, s) (mem_of_lookup hs)) hik
    · exact ⟨f, by rw [hc.level0_eq hn]; exact hf, hfj⟩
  · rw [hc.immutable]
    intro k i hi s hsi hall
    rw [hc.means k]
    exact h.settled k i hi s hsi hall

theorem Engine.Compacted.view {n : Nat} (hc : Engine.Compacted M n e e') (k : K) :
    M.view e' k = M.view e k := by
  have hmem : e'.memHit k = e.memHit k := by
    rw [Engine.memHit_eq, Engine.memHit_eq, hc.active, hc.immutable]
  unfold Meaning.view
  rw [hmem, hc.means k]

end Dtdb.Storage
