import Dtdb.Storage.Interleaving

/-! # Flushes that fail and are tried again

A failed write of an SSTable leaves its memtable to be flushed again; a segment that is gone cannot
be removed again. -/

namespace Dtdb.Storage.FlushRetry

open Dtdb.Lib List Option

variable {K V Λ : Type}

/-- How a write ends: without a record, with a record only, or with the file at level 0. -/
inductive Write where
  | failed
  | recorded
  | registered

/-- How a removal ends: the file stays, is gone in a directory that is not synced, or is gone. -/
inductive Removal where
  | failed
  | unsynced
  | done

inductive Act (K V : Type) where
  | commit (entries : List (WalEntry K V))
  | sealActive
  | claim (walId : Nat)
  | write (walId : Nat) (io : Write)
  | retire (io : Removal)

def Act.mutations : Act K V → List (Mutation K V)
  | .commit es => WalEntry.mutations es
  | _ => []

def committed (as : List (Act K V)) : List (Mutation K V) := as.flatMap Act.mutations

variable [LinearOrder K] [ByteSize K] [ByteSize V]

/-- The segment files of the directory and the level-0 ids of the manifest. -/
structure Flusher (K V Λ : Type) [LinearOrder K] [ByteSize K] [ByteSize V] where
  engine : Engine K V Λ
  segments : List Nat
  manifest : List Nat

namespace Flusher

def fresh : Flusher K V Λ := ⟨.fresh, [0], []⟩

/-- The write in flight of `write_immutable_sstable` ends, and with it the slot's claim. -/
def write (s : Flusher K V Λ) (w : Nat) (io : Write) : Option (Bool × Flusher K V Λ) :=
  match s.engine.immutable.find? fun i => i.walId = w, s.engine.finishFlush w with
  | some i, some e =>
    let pending := { s.engine with immutable := Engine.setSlot s.engine.immutable w .pending }
    let manifest := s.manifest.insert i.sstId
    some (match io with
      | .failed => (false, { s with engine := pending })
      | .recorded => (false, { s with engine := pending, manifest := manifest })
      | .registered => (true, { s with engine := e, manifest := manifest }))
  | _, _ => none

/-- A turn of `retire_durable_prefix`; `none` when the loop ends. -/
def retire (s : Flusher K V Λ) (io : Removal) : Option (Bool × Flusher K V Λ) :=
  match s.engine.immutable.getLast?, s.engine.retireOldest with
  | some i, some e =>
    if i.walId ∈ s.segments then
      let rest := s.segments.filter (· ≠ i.walId)
      some (match io with
        | .failed => (false, s)
        | .unsynced => (false, { s with segments := rest })
        | .done => (true, { s with engine := e, segments := rest }))
    else some (false, s)
  | _, _ => none

/-- An act, with whether it ends without an error. -/
def attempt (cfg : Config K V Λ) (s : Flusher K V Λ) : Act K V → Option (Bool × Flusher K V Λ)
  | .commit es => some (true, { s with engine := s.engine.commit cfg es })
  | .sealActive => some (true, { s with
      engine := s.engine.sealActive
      segments := s.segments.insert s.engine.sealActive.activeWalId })
  | .claim w => (s.engine.claimFlush w).map fun e => (true, { s with engine := e })
  | .write w io => s.write w io
  | .retire io => s.retire io

def step (cfg : Config K V Λ) (s : Flusher K V Λ) (a : Act K V) : Option (Flusher K V Λ) :=
  (s.attempt cfg a).map Prod.snd

/-- `flush_immutable` claims and writes the oldest memtable, and `retire_durable_prefix` goes on
while it is completed. -/
def next (s : Flusher K V Λ) : Option (Act K V) :=
  s.engine.immutable.getLast?.map fun i => match i.flush with
    | .pending => .claim i.walId
    | .inFlight => .write i.walId .registered
    | .completed => .retire .done

/-- `flush_pending` with working I/O, at most `n` acts. -/
def flushPending (cfg : Config K V Λ) : Nat → Flusher K V Λ → Option (Except Unit (Flusher K V Λ))
  | 0, _ => none
  | n + 1, s => match s.next with
    | none => some (.ok s)
    | some a => match s.attempt cfg a with
      | some (true, s') => flushPending cfg n s'
      | _ => some (.error ())

/-- No directory sync fails after its segment is gone. -/
def Synced (_ : Flusher K V Λ) (a : Act K V) : Prop :=
  match a with
  | .retire .unsynced => False
  | _ => True

instance (s : Flusher K V Λ) : (a : Act K V) → Decidable (Synced s a)
  | .retire .unsynced => .isFalse id
  | .retire .failed | .retire .done | .commit _ | .sealActive | .claim _ | .write _ _ =>
    .isTrue trivial

/-! ## What every act keeps -/

def Registered (s : Flusher K V Λ) (id : Nat) : Prop :=
  id ∈ (s.engine.level 0).map Reader.id ∧ id ∈ s.manifest

variable {cfg : Config K V Λ} {T : Option Λ} {A : Type} {M : Meaning cfg T A}
variable {ids : List Nat} {s s' : Flusher K V Λ} {i : ImmMemtable K V} {b : Bool}

/-- Segments are there while needed, and the memtables of `ids` are registered or queued. -/
structure Inv (M : Meaning cfg T A) (ids : List Nat) (s : Flusher K V Λ) : Prop where
  flush : FlushInv M s.engine
  active : s.engine.activeWalId ∈ s.segments
  queued : ∀ i ∈ s.engine.immutable, i.walId ∈ s.segments
  registered : ∀ i ∈ s.engine.immutable, i.flush = .completed → Registered s i.sstId
  known : ∀ id ∈ ids, Registered s id ∨ id ∈ s.engine.immutable.map ImmMemtable.sstId

theorem Inv.setSlot (h : Inv M ids s) {e : Engine K V Λ} (hflush : FlushInv M e) {w : Nat}
    {slot : SlotState} {manifest : List Nat}
    (hq : e.immutable = Engine.setSlot s.engine.immutable w slot)
    (ha : e.activeWalId = s.engine.activeWalId)
    (hreg : ∀ id, Registered s id → Registered ⟨e, s.segments, manifest⟩ id)
    (hdone : slot = .completed → ∀ i ∈ s.engine.immutable, i.walId = w →
      Registered ⟨e, s.segments, manifest⟩ i.sstId) : Inv M ids ⟨e, s.segments, manifest⟩ := by
  have hids : e.immutable.map ImmMemtable.sstId = s.engine.immutable.map ImmMemtable.sstId := by
    rw [hq, Engine.setSlot, List.map_map]
    exact map_congr_left fun i _ => by simp only [Function.comp_apply]; split <;> rfl
  refine ⟨hflush, ha ▸ h.active, fun i hi => ?_, fun i hi hc => ?_, fun id hid => ?_⟩
  · rcases Engine.mem_setSlot.1 (hq ▸ hi) with ⟨j, hj, -, rfl⟩ | ⟨hi, -⟩
    · exact h.queued j hj
    · exact h.queued i hi
  · rcases Engine.mem_setSlot.1 (hq ▸ hi) with ⟨j, hj, hw, rfl⟩ | ⟨hi, -⟩
    · exact hdone hc j hj hw
    · exact hreg _ (h.registered i hi hc)
  · exact (h.known id hid).imp (hreg id) fun hid => by rwa [hids]

theorem Inv.write (h : Inv M ids s) {w : Nat} {io : Write} (hs : s.write w io = some (b, s')) :
    Inv M ids s' ∧ ∀ k, M.view s'.engine k = M.view s.engine k := by
  unfold Flusher.write at hs
  split at hs
  swap
  · cases hs
  next i e hfind he =>
  have hflush := h.flush.finish he
  have hview := h.flush.view_finish he
  obtain ⟨j, hj, rfl, hfl, rfl⟩ := Engine.finishFlush_eq he
  obtain rfl := h.flush.queue.eq_of_walId (mem_of_find?_eq_some hfind) hj
    (by simpa using find?_some hfind)
  have hpending := h.flush.setSlot (s := .pending) hj (by simp [hfl]) (by simp)
  have hlevel : ∀ id, id ∈ ((s.engine.writeImmutableSstable i).level 0).map Reader.id ↔
      id = i.sstId ∨ id ∈ (s.engine.level 0).map Reader.id := by
    intro id
    rw [Engine.level_zero_of_insert rfl]
    simp [mem_insertL0Sorted h.flush.levels.newestFirst, Engine.immReader, eq_comm]
  cases io <;> cases hs
  case failed => exact ⟨h.setSlot hpending rfl rfl (fun _ => id) (by simp), M.view_setSlot _ _ _⟩
  case recorded =>
    exact ⟨h.setSlot hpending rfl rfl (fun _ hr => ⟨hr.1, mem_insert_of_mem hr.2⟩) (by simp),
      M.view_setSlot _ _ _⟩
  case registered =>
    refine ⟨h.setSlot hflush rfl rfl (fun id hr => ?_) fun _ i' hi' hw => ?_, hview⟩
    · exact ⟨(hlevel id).2 (.inr hr.1), mem_insert_of_mem hr.2⟩
    · rw [h.flush.queue.eq_of_walId hi' hj hw]
      exact ⟨(hlevel _).2 (.inl rfl), mem_insert_self⟩

theorem Inv.retire (h : Inv M ids s) {io : Removal} (hok : Synced (V := V) s (.retire io))
    (hs : s.retire io = some (b, s')) : Inv M ids s' ∧ ∀ k, M.view s'.engine k = M.view s.engine k := by
  unfold Flusher.retire at hs
  split at hs
  swap
  · cases hs
  next i e hlast he =>
  have hi := mem_of_getLast? hlast
  rw [if_pos (h.queued i hi)] at hs
  cases io <;> cases hs
  case failed => exact ⟨h, fun _ => rfl⟩
  case unsynced => exact hok.elim
  have hflush := h.flush.retire he
  refine ⟨?_, h.flush.view_retire he⟩
  obtain ⟨q, o, hq, hc, rfl⟩ := Engine.retireOldest_eq he
  obtain rfl : o = i := by simpa [hq] using hlast
  have hold : ∀ j ∈ q, j ∈ s.engine.immutable := fun j hj => hq ▸ mem_append_left _ hj
  have horder := h.flush.queue.walOrder
  rw [hq, pairwise_append] at horder
  refine ⟨hflush, ?_, fun j hj => ?_, fun j hj => h.registered j (hold j hj), fun id hid => ?_⟩
  · exact mem_filter.2 ⟨h.active, by simpa using (h.flush.queue.walIds o hi).ne'⟩
  · -- the newer memtables have segments of their own
    exact mem_filter.2 ⟨h.queued j (hold j hj), by simpa using (horder.2.2 j hj o mem_cons_self).ne'⟩
  · rcases h.known id hid with hr | hid
    · exact .inl hr
    · rw [hq, map_append, mem_append, map_singleton, mem_singleton] at hid
      rcases hid with hid | rfl
      · exact .inr hid
      · exact .inl (h.registered o hi hc)

theorem Inv.seal (h : Inv M ids s) : Inv M ids ⟨s.engine.sealActive,
    s.segments.insert s.engine.sealActive.activeWalId, s.manifest⟩ := by
  have hseal := h.flush.seal
  unfold Engine.sealActive at hseal ⊢
  split
  · next hne =>
    rw [dif_pos hne] at hseal
    refine ⟨hseal, mem_insert_self, fun i hi => mem_insert_of_mem ?_, fun i hi hc => ?_, ?_⟩
    · rcases mem_cons.1 hi with rfl | hi
      · exact h.active
      · exact h.queued i hi
    · rcases mem_cons.1 hi with rfl | hi
      · cases hc
      · exact h.registered i hi hc
    · exact fun id hid => (h.known id hid).imp_right (mem_cons_of_mem _)
  · exact ⟨h.flush, mem_insert_self, fun i hi => mem_insert_of_mem (h.queued i hi), h.registered,
      h.known⟩

theorem Inv.attempt (h : Inv M ids s) {a : Act K V} (hok : Synced s a)
    (hs : s.attempt cfg a = some (b, s')) : Inv M ids s' ∧ ∀ k, M.view s'.engine k
      = match lastWrite a.mutations k with
        | some v => M.slot T v
        | none => M.view s.engine k := by
  cases a with
  | commit es =>
    cases hs
    exact ⟨⟨h.flush.commit es, h.active, h.queued, h.registered, h.known⟩, M.view_commit _ es⟩
  | sealActive =>
    cases hs
    exact ⟨h.seal, M.view_seal _⟩
  | claim w =>
    obtain ⟨e, he, hs⟩ := map_eq_some_iff.1 hs
    cases hs
    have hflush := h.flush.claim he
    obtain ⟨i, hi, -, -, rfl⟩ := Engine.claimFlush_eq he
    exact ⟨h.setSlot hflush rfl rfl (fun _ => id) nofun, M.view_setSlot _ w _⟩
  | write w io => exact h.write hs
  | retire io => exact h.retire hok hs

theorem Inv.run {s₀ : Flusher K V Λ} (h₀ : Inv M ids s₀) {as : List (Act K V)}
    (hr : Run (step cfg) Synced s₀ as s) : Inv M ids s ∧
      ∀ k, M.view s.engine k = match lastWrite (committed as) k with
        | some v => M.slot T v
        | none => M.view s₀.engine k := by
  induction hr with
  | nil => exact ⟨h₀, fun _ => rfl⟩
  | @snoc as s s' a _ hok hs ih =>
    obtain ⟨⟨b, _⟩, ha, rfl⟩ := map_eq_some_iff.1 hs
    obtain ⟨hinv, hview⟩ := ih.1.attempt hok ha
    refine ⟨hinv, fun k => ?_⟩
    rw [hview k, ih.2 k, committed, committed, flatMap_append, flatMap_singleton, lastWrite_append]
    cases lastWrite a.mutations k <;> rfl

/-! ## The drain -/

def work (s : Flusher K V Λ) : Nat :=
  3 * s.engine.immutable.length + match s.engine.immutable.getLast? with
    | some i => match i.flush with
      | .pending => 2
      | .inFlight => 1
      | .completed => 0
    | none => 0

theorem find?_walId {e : Engine K V Λ} (h : QueueOk e) (hi : i ∈ e.immutable) :
    (e.immutable.find? fun j => j.walId = i.walId) = some i := by
  obtain ⟨j, hj⟩ := isSome_iff_exists.1
    (find?_isSome (p := fun j : ImmMemtable K V => j.walId = i.walId).2 ⟨i, hi, by simp⟩)
  rw [hj, h.eq_of_walId (mem_of_find?_eq_some hj) hi (by simpa using find?_some hj)]

theorem Inv.next (h : Inv M ids s) {a : Act K V} (ha : s.next = some a) :
    Synced s a ∧ a.mutations = [] ∧ ∃ s', s.attempt cfg a = some (true, s') ∧ s'.work < s.work := by
  obtain ⟨i, hlast, rfl⟩ := map_eq_some_iff.1 ha
  have hi := mem_of_getLast? hlast
  have hfind := find?_walId h.flush.queue hi
  have hset : ∀ slot, (Engine.setSlot s.engine.immutable i.walId slot).getLast?
      = some { i with flush := slot } := by
    simp [Engine.setSlot, hlast]
  have hlen : ∀ slot, (Engine.setSlot s.engine.immutable i.walId slot).length
      = s.engine.immutable.length := fun _ => length_map _
  cases hfl : i.flush with
  | pending =>
    refine ⟨trivial, rfl, ?_⟩
    simp [Flusher.attempt, Engine.claimFlush, hfind, work, hlast, hfl, hset, hlen]
  | inFlight =>
    refine ⟨trivial, rfl, ?_⟩
    simp [Flusher.attempt, Flusher.write, Engine.finishFlush, hfind, work, hlast, hfl, hset, hlen]
  | completed =>
    refine ⟨trivial, rfl, ?_⟩
    have := length_pos_of_mem hi
    simp [Flusher.attempt, Flusher.retire, Engine.retireOldest, h.queued i hi, work, hlast, hfl]
    split
    · split <;> omega
    · omega

theorem Inv.flushPending (h : Inv M ids s) : ∃ n as s', Flusher.flushPending cfg n s = some (.ok s') ∧
    Run (step cfg) Synced s as s' ∧ committed as = [] ∧ s'.engine.immutable = [] := by
  induction hn : s.work using Nat.strong_induction_on generalizing s with
  | _ n ih =>
    subst hn
    cases ha : s.next with
    | none =>
      refine ⟨1, [], s, by simp [Flusher.flushPending, ha], .nil, rfl, ?_⟩
      simpa [Flusher.next] using ha
    | some a =>
      obtain ⟨hok, hmut, s₁, hs₁, hlt⟩ := h.next ha
      obtain ⟨m, as, s', hs', hr, has, hnil⟩ := ih _ hlt (h.attempt hok hs₁).1 rfl
      refine ⟨m + 1, a :: as, s', by simp [Flusher.flushPending, ha, hs₁, hs'], ?_, ?_, hnil⟩
      · exact hr.cons hok (by simp [step, hs₁])
      · simpa [committed, hmut] using has

/-- **Retried flushes.** In every run in which no directory sync fails after a removal, reads return
the last committed write, and with working I/O `flush_pending` then returns, by such acts, with the
queue empty and every memtable of it at level 0 once. -/
theorem flushPending_ok [DecidableEq Λ] (hrw : cfg.KeepsPlain) {as : List (Act K V)}
    (hr : Run (step cfg) Synced .fresh as s) :
    (∀ k, s.engine.get cfg k = .ok (lastWrite (committed as) k).join) ∧
    ∃ n bs s', flushPending cfg n s = some (.ok s') ∧ Run (step cfg) Synced s bs s' ∧
      committed bs = [] ∧ s'.engine.immutable = [] ∧
      ∀ i ∈ s.engine.immutable, ((s'.engine.level 0).map Reader.id).count i.sstId = 1 ∧
        i.sstId ∈ s'.manifest := by
  have h₀ : Inv (Meaning.identity hrw) [] (fresh : Flusher K V Λ) :=
    ⟨.fresh _, by simp [fresh, Engine.fresh], nofun, nofun, nofun⟩
  obtain ⟨hinv, hview⟩ := h₀.run hr
  obtain ⟨n, bs, s', hs', hr', hbs, hnil⟩ := hinv.flushPending
  refine ⟨fun k => Meaning.get_of_view hrw hinv.flush.layout (hview k), n, bs, s', hs', hr', hbs, hnil,
    fun i hi => ?_⟩
  have hqueued : Inv (Meaning.identity hrw) (s.engine.immutable.map ImmMemtable.sstId) s :=
    { hinv with known := fun id => .inr }
  have hend := (hqueued.run hr').1
  rcases hend.known i.sstId (mem_map_of_mem hi) with hreg | hq
  · exact ⟨count_eq_one_of_mem (hend.flush.levels.nodup 0) hreg.1, hreg.2⟩
  · rw [hnil] at hq
    cases hq

def retriedTrace : List (Act DbKey DbValue) :=
  [.commit [.put (.bool true) (.bool false)], .sealActive, .claim 0, .write 0 .recorded, .claim 0,
    .write 0 .registered, .retire .failed]

theorem flushPending_retriedTrace : ∃ s, Run (step plainConfig) Synced .fresh retriedTrace s ∧
    s.engine.immutable.length = 1 ∧
    ∃ n bs s', flushPending plainConfig n s = some (.ok s') ∧
      Run (step plainConfig) Synced s bs s' ∧ committed bs = [] ∧ s'.engine.immutable = [] := by
  refine Run.exists_of_exec (p := fun s => s.engine.immutable.length = 1) (by decide +kernel)
    fun s hr hs => ?_
  obtain ⟨-, n, bs, s', hs', hr', hbs, hnil, -⟩ := flushPending_ok (fun _ _ => rfl) hr
  exact ⟨hs, n, bs, s', hs', hr', hbs, hnil⟩

def unsyncedTrace : List (Act DbKey DbValue) :=
  [.commit [.put (.bool true) (.bool false)], .sealActive, .claim 0, .write 0 .registered,
    .retire .unsynced]

/-- Every later `flush_pending` fails. -/
theorem flushPending_unsyncedTrace : ∃ s, exec (step plainConfig) .fresh unsyncedTrace = some s ∧
    ∀ n, flushPending plainConfig (n + 1) s = some (.error ()) :=
  ⟨_, rfl, fun _ => rfl⟩

end Flusher

end Dtdb.Storage.FlushRetry
