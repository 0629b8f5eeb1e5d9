import Dtdb.Storage.Durability

/-! # Segments that are not synced

A commit only writes its frame, and `sync_wal` makes the frames of the active segment durable.  A
crash keeps of every segment the synced frames and any number of the next ones.  `Since` compares an
engine with a moment at which all frames were synced: what a crash leaves for a key is what it
showed then or what a later commit wrote. -/

namespace Dtdb.Storage

open Dtdb.Lib List Option Function

variable {K V Λ : Type} [LinearOrder K]

/-! ## Frames that a crash keeps -/

section

variable {d : Disk K V Λ}

/-- What is left of the directory when each segment keeps its first frames only. -/
def Disk.truncate (d : Disk K V Λ) (keep : Nat → Nat) : Disk K V Λ :=
  { d with segments := d.segments.mapValues fun w seg => seg.take (keep w) }

def Disk.segment (d : Disk K V Λ) (w : Nat) : Segment K V := (d.segments.get w).getD []

theorem Disk.segment_of_get {w : Nat} {seg : Option (Segment K V)} (h : d.segments.get w = seg) :
    d.segment w = seg.getD [] := by
  rw [segment, h]

/-- The last write of a key in the kept frames, newest segment first. -/
def Disk.keptHit (d : Disk K V Λ) (ids : List Nat) (keep : Nat → Nat) (k : K) :
    Option (Option V) :=
  ids.findSome? fun w => lastWrite (Segment.writes ((d.segment w).take (keep w))) k

/-- A later commit wrote what is found. -/
def Rewritten (since : List (List (WalEntry K V))) (k : K) (x : Option V) : Prop :=
  ∃ b ∈ since, lastWrite (WalEntry.mutations b) k = some x

theorem lastWrite_take (seg : Segment K V) {m n : Nat} (hmn : m ≤ n) (k : K) :
    lastWrite (Segment.writes (seg.take n)) k = lastWrite (Segment.writes (seg.take m)) k ∨
      ∃ b ∈ seg.drop m, ∃ x, lastWrite (WalEntry.mutations b) k = some x ∧
        lastWrite (Segment.writes (seg.take n)) k = some x := by
  have hsplit : seg.take n = seg.take m ++ (seg.drop m).take (n - m) := by
    have hfirst : seg.take m = (seg.take n).take m := by rw [take_take, min_eq_left hmn]
    rw [hfirst, ← drop_take, take_append_drop]
  have hwrites : lastWrite (Segment.writes (seg.take n)) k
      = (lastWrite (Segment.writes ((seg.drop m).take (n - m))) k).or
        (lastWrite (Segment.writes (seg.take m)) k) := by
    rw [hsplit, ← lastWrite_append]
    unfold Segment.writes
    rw [flatMap_append]
  rw [hwrites]
  cases hrest : lastWrite (Segment.writes ((seg.drop m).take (n - m))) k with
  | none => exact .inl rfl
  | some x =>
    obtain ⟨_, hmem, hx⟩ := exists_of_lastWrite_flatten hrest
    obtain ⟨b, hb, rfl⟩ := mem_map.1 hmem
    exact .inr ⟨b, mem_of_mem_take hb, x, hx, rfl⟩

theorem Disk.keptHit_mono {ids : List Nat} {mark keep : Nat → Nat}
    {since : List (List (WalEntry K V))} (hle : ∀ w, mark w ≤ keep w)
    (hsince : ∀ w ∈ ids, ∀ b ∈ (d.segment w).drop (mark w), b ∈ since) (k : K) :
    d.keptHit ids keep k = d.keptHit ids mark k ∨
      ∃ x, Rewritten since k x ∧ d.keptHit ids keep k = some x := by
  unfold keptHit
  induction ids with
  | nil => exact .inl rfl
  | cons w ids ih =>
    rw [findSome?_cons, findSome?_cons]
    have ih := ih fun v hv => hsince v (.tail _ hv)
    rcases lastWrite_take (d.segment w) (hle w) k with heq | ⟨b, hb, x, hx, hkeep⟩
    · rw [heq]
      cases lastWrite (Segment.writes ((d.segment w).take (mark w))) k with
      | some x => exact .inl rfl
      | none => exact ih
    · rw [hkeep]
      exact .inr ⟨x, ⟨b, hsince w mem_cons_self b hb, hx⟩, rfl⟩

/-- The operations that leave the segments alone. -/
def DiskOp.KeepsSegments : DiskOp K V Λ → Prop
  | .manifest _ | .writeFile _ | .removeFile _ => True
  | _ => False

theorem Disk.segments_foldl {ops : List (DiskOp K V Λ)} (h : ∀ op ∈ ops, op.KeepsSegments)
    (d : Disk K V Λ) : (ops.foldl Disk.exec d).segments = d.segments := by
  induction ops generalizing d with
  | nil => rfl
  | cons op ops ih =>
    rw [foldl_cons, ih fun o ho => h o (.tail _ ho)]
    have hop := h op mem_cons_self
    cases op with
    | manifest _ | writeFile _ | removeFile _ => rfl
    | createSegment _ | appendSegment _ _ | removeSegment _ | syncDir => cases hop

theorem Disk.segment_append (d : Disk K V Λ) (a : Nat) (es : List (WalEntry K V)) (w : Nat) :
    (d.exec (.appendSegment a es)).segment w
      = if w = a then d.segment a ++ [es] else d.segment w := by
  show ((d.segments.insert a _).get w).getD [] = _
  rw [SortedMap.get_insert]
  split <;> rfl

theorem Disk.keptHit_congr {d d' : Disk K V Λ} {ids : List Nat} {mark mark' : Nat → Nat} {k : K}
    (h : ∀ w ∈ ids, (d'.segment w).take (mark' w) = (d.segment w).take (mark w)) :
    d'.keptHit ids mark' k = d.keptHit ids mark k :=
  findSome?_congr fun w hw => by rw [h w hw]

end

section

variable {cfg : Config K V Λ} {T : Option Λ} {A : Type}

/-- What the engine showed at that moment, or what a later commit wrote. -/
def Explained (M : Meaning cfg T A) (shown : K → Option A) (since : List (List (WalEntry K V)))
    (k : K) (a : Option A) : Prop :=
  a = shown k ∨ ∃ x, Rewritten since k x ∧ a = M.slot T x

theorem Rewritten.append {since later : List (List (WalEntry K V))} {k : K} {x : Option V}
    (h : Rewritten since k x) : Rewritten (since ++ later) k x := by
  obtain ⟨b, hb, hx⟩ := h
  exact ⟨b, mem_append_left _ hb, hx⟩

theorem Explained.append {shown : K → Option A} {since later : List (List (WalEntry K V))} {k : K}
    {a : Option A} (h : Explained M shown since k a) : Explained M shown (since ++ later) k a :=
  h.imp_right fun ⟨x, hx, ha⟩ => ⟨x, hx.append, ha⟩

end

variable [ByteSize K] [ByteSize V]

/-! ## The model -/

/-- An engine on its directory; `synced` counts the durable frames of each segment. -/
structure SyncedEngine (K V Λ : Type) [LinearOrder K] [ByteSize K] [ByteSize V] where
  disk : Disk K V Λ
  live : Live K V Λ
  synced : Nat → Nat

inductive Background where
  | sealActive
  | claim (walId : Nat)
  | finish (walId : Nat)
  | retire
  | compact (level : Nat)
  | syncWal
deriving DecidableEq

def Engine.segmentIds (e : Engine K V Λ) : List Nat := e.activeWalId :: e.immutable.map (·.walId)

namespace SyncedEngine

def ofDisk (cfg : Config K V Λ) (d : Disk K V Λ) : Option (SyncedEngine K V Λ) :=
  (openPlan cfg d).map fun x => ⟨x.1.foldl Disk.exec d, x.2, fun _ => 0⟩

/-- `sync_wal`: the active segment only. -/
def syncWal (s : SyncedEngine K V Λ) : SyncedEngine K V Λ :=
  { s with
    synced := update s.synced s.live.engine.activeWalId
      (s.disk.segment s.live.engine.activeWalId).length }

/-- Every frame of a sealed segment is durable. -/
def SealedSynced (s : SyncedEngine K V Λ) : Prop :=
  ∀ i ∈ s.live.engine.immutable, (s.disk.segment i.walId).length ≤ s.synced i.walId

instance decidableSealedSynced (s : SyncedEngine K V Λ) : Decidable s.SealedSynced :=
  inferInstanceAs (Decidable (∀ i ∈ s.live.engine.immutable, _ ≤ _))

variable [DecidableEq Λ]

def run (cfg : Config K V Λ) (s : SyncedEngine K V Λ) (ev : Event K V) :
    Option (SyncedEngine K V Λ) :=
  (s.live.step cfg s.disk ev).map fun x =>
    { s with disk := x.1.foldl Disk.exec s.disk, live := x.2 }

def commit (cfg : Config K V Λ) (s : SyncedEngine K V Λ) (es : List (WalEntry K V)) :
    Option (SyncedEngine K V Λ) := s.run cfg (.commit es)

def background (cfg : Config K V Λ) (s : SyncedEngine K V Λ) :
    Background → Option (SyncedEngine K V Λ)
  | .sealActive => s.run cfg .sealActive
  | .claim w => s.run cfg (.claim w)
  | .finish w => s.run cfg (.finish w)
  | .retire => s.run cfg .retire
  | .compact n => s.run cfg (.compact n)
  | .syncWal => some s.syncWal

/-- A level-0 compaction overtakes no unfinished flush. -/
def BackgroundSafe (s : SyncedEngine K V Λ) : Background → Prop
  | .compact 0 => s.live.engine.NoOvertaking
  | _ => True

end SyncedEngine

section

variable {cfg : Config K V Λ} {T : Option Λ} {A : Type} {M : Meaning cfg T A}
variable {d : Disk K V Λ} {e e' : Engine K V Λ} {s : SyncedEngine K V Λ}

/-! ## What the SSTables answer -/

/-- The SSTables answer with the slot of the newest completed memtable that holds the key. -/
def Settled (M : Meaning cfg T A) (e : Engine K V Λ) : Prop :=
  ∀ k, ∀ i ∈ e.immutable, i.flush = .completed → ∀ s, i.table.get k = some s →
    (∀ j ∈ e.immutable, j.flush = .completed → j.table.get k ≠ none → j.sstId ≤ i.sstId) →
    M.hit (e.probe k) = M.slot T s

variable {i : ImmMemtable K V}

namespace Settled

theorem of_empty (h : e.immutable = []) : Settled M e := fun k i hi => by
  rw [h] at hi
  cases hi

theorem commit (h : Settled M e) (es : List (WalEntry K V)) : Settled M (e.commit cfg es) := h

theorem sealActive (h : Settled M e) : Settled M e.sealActive := by
  unfold Engine.sealActive
  split
  · intro k i hi hc s hs hnew
    rcases mem_cons.1 hi with rfl | hi
    · cases hc
    · exact h k i hi hc s hs fun j hj => hnew j (.tail _ hj)
  · exact h

theorem claim (h : Settled M e) (hq : QueueOk e) {w : Nat} (hs : e.claimFlush w = some e') :
    Settled M e' := by
  obtain ⟨i₀, hi₀, hw, hpend, rfl⟩ := Engine.claimFlush_eq hs
  intro k i hi hc s hsi hnew
  rcases Engine.mem_setSlot.1 hi with ⟨j, -, -, rfl⟩ | ⟨hi, -⟩
  · cases hc
  · refine h k i hi hc s hsi fun j hj hcj =>
      hnew j (Engine.mem_setSlot.2 (.inr ⟨hj, fun hjw => ?_⟩)) hcj
    rw [hq.eq_of_walId hj hi₀ (hjw.trans hw.symm), hpend] at hcj
    cases hcj

theorem finish (h : Settled M e) (hinv : FlushInv M e) {w : Nat} (hs : e.finishFlush w = some e') :
    Settled M e' := by
  have hinv' := hinv.finish hs
  obtain ⟨i₀, hi₀, hw, hfl, rfl⟩ := Engine.finishFlush_eq hs
  have hpend : i₀.flush ≠ .completed := by rw [hfl]; nofun
  have hlevel0 : ∀ f, f ∈ (e.writeImmutableSstable i₀).level 0 ↔
      f = e.immReader i₀ ∨ f ∈ e.level 0 := fun f => by
    rw [Engine.level_zero_of_insert rfl, mem_insertL0Sorted hinv.levels.newestFirst]
  have hkeep : ∀ j ∈ e.immutable, j.flush = .completed →
      j ∈ Engine.setSlot e.immutable w .completed := fun j hj hcj => by
    refine Engine.mem_setSlot.2 (.inr ⟨hj, fun hjw => hpend ?_⟩)
    rw [hinv.queue.eq_of_walId hi₀ hj (hw.trans hjw.symm)]
    exact hcj
  intro k i hi hc s hsi hnew
  have hi' := hi
  rcases Engine.mem_setSlot.1 hi with ⟨j, hj, hjw, rfl⟩ | ⟨hi, hiw⟩
  · -- the memtable whose flush completes
    obtain rfl := hinv.queue.eq_of_walId hj hi₀ (hjw.trans hw.symm)
    have hfile : FileOf M (e.immReader j) { j with flush := .completed } :=
      ⟨rfl, rfl, rfl, fun x _ => congrArg (M.slot · x.2) hinv.layout⟩
    exact probe_newest hinv'.levels hinv'.fromQueue ((hlevel0 _).2 (.inl rfl)) hfile hi'
      hsi hnew
  by_cases hk : i₀.table.get k = none
  · show M.hit ((e.writeImmutableSstable i₀).probe k) = M.slot T s
    rw [hinv.probe_write hi₀ hpend hk]
    exact h k i hi hc s hsi fun j hj hcj => hnew j (hkeep j hj hcj) hcj
  · -- an older memtable completes, and the file of `i` is still at level 0
    have hle : i₀.sstId ≤ i.sstId := hnew { i₀ with flush := .completed }
      (Engine.mem_setSlot.2 (.inl ⟨i₀, hi₀, hw, rfl⟩)) rfl hk
    have hlt : i₀.sstId < i.sstId := lt_of_le_of_ne hle fun heq => hiw <| by
      rw [← hinv.queue.eq_of_sstId hi₀ hi heq, hw]
    obtain ⟨f, hf, hfi⟩ := hinv.shadow i₀ hi₀ hpend i hi hc hlt k hk (by rw [hsi]; nofun)
    exact probe_newest hinv'.levels hinv'.fromQueue ((hlevel0 f).2 (.inr hf)) hfi hi'
      hsi hnew

theorem retire (h : Settled M e) (hq : QueueOk e) (hs : e.retireOldest = some e') : Settled M e' := by
  obtain ⟨q, o, himm, -, rfl⟩ := Engine.retireOldest_eq hs
  have hsst := hq.sstOrder
  rw [himm] at hsst
  intro k i hi hc s hsi hnew
  refine h k i (by rw [himm]; exact mem_append_left _ hi) hc s hsi fun j hj hcj hjk => ?_
  rw [himm] at hj
  rcases mem_append.1 hj with hj | hj
  · exact hnew j hj hcj hjk
  · rw [mem_singleton.1 hj]
    exact ((pairwise_append.1 hsst).2.2 i hi o (mem_singleton_self o)).le

theorem compacted (h : Settled M e) {n : Nat} (hc : Engine.Compacted M n e e') : Settled M e' := by
  intro k i hi hci s hsi hnew
  rw [hc.means k]
  rw [hc.immutable] at hi hnew
  exact h k i hi hci s hsi hnew

theorem exists_newest (h : Settled M e) (hq : QueueOk e) {k : K} (hi : i ∈ e.immutable)
    (hc : i.flush = .completed) (hk : i.table.get k ≠ none) :
    ∃ j ∈ e.immutable, ∃ s, j.table.get k = some s ∧ M.hit (e.probe k) = M.slot T s := by
  have hfound : (e.immutable.find? fun j => j.flush = .completed ∧ j.table.get k ≠ none).isSome := by
    rw [find?_isSome]
    exact ⟨i, hi, by simp [hc, hk]⟩
  obtain ⟨j, hj⟩ := isSome_iff_exists.1 hfound
  obtain ⟨hp, newer, older, himm, hnot⟩ := find?_eq_some_iff_append.1 hj
  obtain ⟨hcj, hjk⟩ := of_decide_eq_true hp
  obtain ⟨s, hs⟩ := ne_none_iff_exists'.1 hjk
  have hmem : j ∈ e.immutable := mem_of_find?_eq_some hj
  refine ⟨j, hmem, s, hs, h k j hmem hcj s hs fun x hx hcx hxk => ?_⟩
  have hsst := hq.sstOrder
  rw [himm] at hx hsst
  rcases mem_append.1 hx with hx | hx
  · have hneg := hnot x hx
    rw [decide_eq_true (show _ ∧ _ from ⟨hcx, hxk⟩)] at hneg
    cases hneg
  · rcases mem_cons.1 hx with rfl | hx
    · exact le_rfl
    · exact ((pairwise_cons.1 (pairwise_append.1 hsst).2.1).1 x hx).le

end Settled

/-! ## What the segments keep -/

theorem SegmentsOk.lastWrite_truncate (h : SegmentsOk cfg d.segments e) (hq : QueueOk e)
    (keep : Nat → Nat) (k : K) :
    lastWrite (walWrites (d.truncate keep).segments.entries) k = d.keptHit e.segmentIds keep k := by
  have hentries : (d.truncate keep).segments.entries
      = (e.segmentIds.map fun w => (w, (d.segment w).take (keep w))).reverse := by
    show d.segments.entries.map _ = _
    rw [h.entries hq, List.map_reverse, List.map_map]
    rfl
  rw [lastWrite_walWrites, hentries, reverse_reverse, findSome?_map]
  rfl

/-! ## Since a moment at which every frame was synced -/

/-- All but the first `mark` frames are later commits', and these frames are durable. -/
structure Marked (M : Meaning cfg T A) (since : List (List (WalEntry K V))) (mark : Nat → Nat)
    (s : SyncedEngine K V Λ) : Prop where
  running : Running M s.disk s.live
  settled : Settled M s.live.engine
  synced : ∀ w, mark w ≤ s.synced w
  length : ∀ w ∈ s.live.engine.segmentIds, mark w ≤ (s.disk.segment w).length
  later : ∀ w ∈ s.live.engine.segmentIds, ∀ b ∈ (s.disk.segment w).drop (mark w), b ∈ since

/-- The last write in the marked frames is what was shown; where they have none the SSTables' answer
is explained. -/
structure Since (M : Meaning cfg T A) (shown : K → Option A) (since : List (List (WalEntry K V)))
    (mark : Nat → Nat) (s : SyncedEngine K V Λ) : Prop extends Marked M since mark s where
  logged : ∀ k x, s.disk.keptHit s.live.engine.segmentIds mark k = some x → M.slot T x = shown k
  stored : ∀ k, s.disk.keptHit s.live.engine.segmentIds mark k = none →
    Explained M shown since k (M.hit (s.live.engine.probe k))

variable {shown : K → Option A} {since : List (List (WalEntry K V))} {mark : Nat → Nat}

theorem Running.lastWrite_segment {u : Live K V Λ} (h : Running M d u)
    (hi : i ∈ u.engine.immutable) (k : K) :
    lastWrite (d.segment i.walId).writes k = i.table.get k := by
  obtain ⟨seg, hseg, hlog⟩ := h.segments.queued i hi
  rw [Disk.segment_of_get hseg]
  exact hlog.writes k

theorem Marked.memtable (h : Marked M since mark s) (hi : i ∈ s.live.engine.immutable) {k : K}
    {x : Option V} (hx : i.table.get k = some x) :
    lastWrite (Segment.writes ((s.disk.segment i.walId).take (mark i.walId))) k = some x ∨
      Rewritten since k x := by
  have hid : i.walId ∈ s.live.engine.segmentIds := .tail _ (mem_map_of_mem hi)
  have hwhole : lastWrite (Segment.writes ((s.disk.segment i.walId).take
      (s.disk.segment i.walId).length)) k = some x := by
    rw [take_length, h.running.lastWrite_segment hi, hx]
  rcases lastWrite_take (s.disk.segment i.walId) (h.length i.walId hid) k with heq | ⟨b, hb, y, hy, heq⟩
  · exact .inl (heq.symm.trans hwhole)
  · cases heq.symm.trans hwhole
    exact .inr ⟨b, h.later i.walId hid b hb, hy⟩

theorem Marked.explained_completed (h : Marked M since mark s) {k : K}
    (hi : i ∈ s.live.engine.immutable) (hc : i.flush = .completed) (hk : i.table.get k ≠ none)
    (hmark : ∀ j ∈ s.live.engine.immutable, ∀ x,
      lastWrite (Segment.writes ((s.disk.segment j.walId).take (mark j.walId))) k = some x →
      M.slot T x = shown k) :
    Explained M shown since k (M.hit (s.live.engine.probe k)) := by
  obtain ⟨j, hj, x, hx, hhit⟩ := h.settled.exists_newest h.running.inv.queue hi hc hk
  rw [hhit]
  rcases h.memtable hj hx with hold | hnew
  · exact .inl (hmark j hj x hold)
  · exact .inr ⟨x, hnew, rfl⟩

/-! ## The steps -/

theorem Engine.segmentIds_setSlot (q : List (ImmMemtable K V)) (w : Nat) (s : SlotState) :
    (Engine.setSlot q w s).map (·.walId) = q.map (·.walId) := by
  unfold Engine.setSlot
  rw [List.map_map]
  refine map_congr_left fun i _ => ?_
  show (if i.walId = w then { i with flush := s } else i : ImmMemtable K V).walId = i.walId
  split <;> rfl

theorem Since.start (hrun : Running M s.disk s.live) (hset : Settled M s.live.engine)
    (hsync : ∀ w ∈ s.live.engine.segmentIds, (s.disk.segment w).length ≤ s.synced w) :
    Since M (M.view s.live.engine) [] (fun w => (s.disk.segment w).length) s := by
  have hhit : ∀ k, s.disk.keptHit s.live.engine.segmentIds
      (fun w => (s.disk.segment w).length) k = s.live.engine.memHit k := by
    intro k
    have hall : (s.disk.truncate fun w => (s.disk.segment w).length).segments = s.disk.segments := by
      ext w : 1
      show (s.disk.segments.mapValues _).get w = _
      rw [SortedMap.get_mapValues]
      cases hseg : s.disk.segments.get w with
      | none => rfl
      | some seg =>
        show some (seg.take (s.disk.segment w).length) = some seg
        rw [Disk.segment_of_get hseg]
        exact congrArg some take_length
    rw [← hrun.segments.lastWrite_truncate hrun.inv.queue, hall,
      hrun.segments.memHit hrun.inv.queue]
  refine ⟨⟨hrun, hset, fun w => ?_, fun w _ => le_rfl, fun w _ b hb => ?_⟩, fun k x hx => ?_,
    fun k hk => ?_⟩
  · by_cases hw : w ∈ s.live.engine.segmentIds
    · exact hsync w hw
    · cases hseg : s.disk.segments.get w with
      | none =>
        rw [Disk.segment_of_get hseg]
        exact Nat.zero_le _
      | some seg =>
        refine absurd ?_ hw
        rcases hrun.segments.only w seg hseg with rfl | ⟨i, hi, rfl⟩
        · exact mem_cons_self
        · exact .tail _ (mem_map_of_mem hi)
  · rw [drop_length] at hb
    cases hb
  · rw [hhit] at hx
    exact (M.view_of_memHit hx).symm
  · rw [hhit] at hk
    exact .inl (M.view_of_memHit_none hk).symm

namespace Since

variable (h : Since M shown since mark s)
include h

theorem append (later : List (List (WalEntry K V))) : Since M shown (since ++ later) mark s :=
  ⟨⟨h.running, h.settled, h.synced, h.length, fun w hw b hb =>
    mem_append_left _ (h.later w hw b hb)⟩, h.logged, fun k hk => (h.stored k hk).append⟩

theorem commit {es : List (WalEntry K V)} (hflat : WalEntry.Flat es) (hfits : cfg.fits es = true) :
    Since M shown (since ++ [es]) mark { s with
      disk := s.disk.exec (.appendSegment s.live.engine.activeWalId es)
      live := { s.live with engine := s.live.engine.commit cfg es } } := by
  have hkept : ∀ k, (s.disk.exec (.appendSegment s.live.engine.activeWalId es)).keptHit
      s.live.engine.segmentIds mark k = s.disk.keptHit s.live.engine.segmentIds mark k := by
    intro k
    refine Disk.keptHit_congr fun w hw => ?_
    rw [Disk.segment_append]
    split
    · next heq =>
      rw [heq, take_append_of_le_length (h.length _ mem_cons_self)]
    · rfl
  refine ⟨⟨h.running.commit hflat hfits, h.settled.commit es, h.synced, fun w hw => ?_,
    fun w hw b hb => ?_⟩, fun k x hx => h.logged k x ((hkept k).symm.trans hx),
    fun k hk => (h.stored k ((hkept k).symm.trans hk)).append⟩
  · rw [Disk.segment_append]
    split
    · next heq =>
      rw [heq, length_append]
      exact (h.length _ mem_cons_self).trans (Nat.le_add_right _ _)
    · exact h.length w hw
  · rw [Disk.segment_append] at hb
    split at hb
    · next heq =>
      rw [heq, drop_append_of_le_length (h.length _ mem_cons_self)] at hb
      rcases mem_append.1 hb with hb | hb
      · exact mem_append_left _ (h.later _ mem_cons_self b hb)
      · exact mem_append_right _ hb
    · exact mem_append_left _ (h.later w hw b hb)

theorem sealActive (hne : s.live.engine.active.isEmpty = false) :
    Since M shown since (update mark s.live.engine.nextWalId 0) { s with
      disk := (s.disk.exec (.createSegment s.live.engine.nextWalId)).exec .syncDir
      live := { s.live with engine := s.live.engine.sealActive } } := by
  set next := s.live.engine.nextWalId with hnext
  have hempty : s.disk.segment next = [] :=
    Disk.segment_of_get (h.running.segments.get_next h.running.inv.queue)
  have hsegment : ∀ w, ((s.disk.exec (.createSegment next)).exec .syncDir).segment w
      = s.disk.segment w := by
    intro w
    show ((s.disk.segments.insert next _).get w).getD [] = _
    rw [SortedMap.get_insert]
    split
    · next heq =>
      rw [heq]
      rfl
    · rfl
  have hids : s.live.engine.sealActive.segmentIds = next :: s.live.engine.segmentIds := by
    unfold Engine.sealActive
    rw [dif_pos hne]
    rfl
  have hmark : ∀ w ∈ s.live.engine.segmentIds, update mark next 0 w = mark w := by
    intro w hw
    refine update_of_ne ?_ _ _
    rintro rfl
    have hlt := h.running.inv.queue.walNext
    rcases mem_cons.1 hw with heq | hw
    · omega
    · obtain ⟨i, hi, hiw⟩ := mem_map.1 hw
      have := h.running.inv.queue.walIds i hi
      omega
  have hkept : ∀ k, ((s.disk.exec (.createSegment next)).exec .syncDir).keptHit
      s.live.engine.sealActive.segmentIds (update mark next 0) k
        = s.disk.keptHit s.live.engine.segmentIds mark k := by
    intro k
    rw [hids]
    unfold Disk.keptHit
    rw [findSome?_cons, hsegment, hempty, take_nil]
    exact findSome?_congr fun w hw => by rw [hsegment, hmark w hw]
  refine ⟨⟨h.running.sealActive hne, h.settled.sealActive, fun w => ?_, fun w hw => ?_,
    fun w hw b hb => ?_⟩, fun k x hx => h.logged k x ((hkept k).symm.trans hx), fun k hk => ?_⟩
  · by_cases hw : w = next
    · rw [hw, update_self]
      exact Nat.zero_le _
    · rw [update_of_ne hw]
      exact h.synced w
  · rw [hsegment]
    rcases mem_cons.1 (hids ▸ hw) with rfl | hw
    · rw [update_self]
      exact Nat.zero_le _
    · rw [hmark w hw]
      exact h.length w hw
  · rw [hsegment] at hb
    rcases mem_cons.1 (hids ▸ hw) with rfl | hw
    · rw [hempty, drop_nil] at hb
      cases hb
    · rw [hmark w hw] at hb
      exact h.later w hw b hb
  · have hprobe : s.live.engine.sealActive.probe k = s.live.engine.probe k := by
      unfold Engine.sealActive
      rw [dif_pos hne]
      rfl
    rw [hprobe]
    exact h.stored k ((hkept k).symm.trans hk)

theorem of_segments {d : Disk K V Λ} {u : Live K V Λ} (hrun : Running M d u)
    (hset : Settled M u.engine) (hseg : d.segments = s.disk.segments)
    (hids : u.engine.segmentIds = s.live.engine.segmentIds)
    (hstored : Marked M since mark ⟨d, u, s.synced⟩ → ∀ k,
      s.disk.keptHit s.live.engine.segmentIds mark k = none →
      Explained M shown since k (M.hit (u.engine.probe k))) :
    Since M shown since mark ⟨d, u, s.synced⟩ := by
  have hsegment : d.segment = s.disk.segment := funext fun w => Disk.segment_of_get (by rw [hseg])
  have hkept : ∀ k, d.keptHit u.engine.segmentIds mark k
      = s.disk.keptHit s.live.engine.segmentIds mark k := fun k => by
    unfold Disk.keptHit
    rw [hids, hsegment]
  have hmarked : Marked M since mark ⟨d, u, s.synced⟩ := by
    refine ⟨hrun, hset, h.synced, fun w hw => ?_, fun w hw b hb => ?_⟩
    · rw [hsegment]
      exact h.length w (hids ▸ hw)
    · rw [hsegment] at hb
      exact h.later w (hids ▸ hw) b hb
  exact ⟨hmarked, fun k x hx => h.logged k x ((hkept k).symm.trans hx),
    fun k hk => hstored hmarked k ((hkept k).symm.trans hk)⟩

theorem claim {w : Nat} {e : Engine K V Λ} (he : s.live.engine.claimFlush w = some e)
    (hrun : Running M s.disk { s.live with engine := e }) :
    Since M shown since mark { s with live := { s.live with engine := e } } := by
  have hset := h.settled.claim h.running.inv.queue he
  obtain ⟨i, -, -, -, rfl⟩ := Engine.claimFlush_eq he
  refine h.of_segments hrun hset rfl ?_ fun _ k hk => h.stored k hk
  exact congrArg (_ :: ·) (Engine.segmentIds_setSlot ..)

theorem finish {w : Nat} {e : Engine K V Λ} (he : s.live.engine.finishFlush w = some e)
    {d : Disk K V Λ} {handle : SnapshotHandle Manifest} (hseg : d.segments = s.disk.segments)
    (hrun : Running M d ⟨e, handle⟩) : Since M shown since mark ⟨d, ⟨e, handle⟩, s.synced⟩ := by
  have hset := h.settled.finish h.running.inv he
  obtain ⟨i, hi, hw, hfl, rfl⟩ := Engine.finishFlush_eq he
  have hpend : i.flush ≠ .completed := by rw [hfl]; nofun
  have hids := Engine.segmentIds_setSlot s.live.engine.immutable w .completed
  refine h.of_segments hrun hset hseg (congrArg (_ :: ·) hids) fun hmarked k hk => ?_
  by_cases hik : i.table.get k = none
  · show Explained M shown since k (M.hit ((s.live.engine.writeImmutableSstable i).probe k))
    rw [h.running.inv.probe_write hi hpend hik]
    exact h.stored k hk
  · -- the marked frames do not write the key, so whatever the queue holds for it is later
    refine hmarked.explained_completed
      (Engine.mem_setSlot.2 (.inl ⟨i, hi, hw, rfl⟩)) rfl hik fun j hj x hx => ?_
    have hmem : j.walId ∈ s.live.engine.segmentIds := by
      refine .tail _ ?_
      rw [← hids]
      exact mem_map_of_mem hj
    have hnone := findSome?_eq_none_iff.1 hk j.walId hmem
    rw [Disk.segment_of_get (congrArg (·.get j.walId) hseg)] at hx
    cases hnone.symm.trans hx

theorem retire {e : Engine K V Λ} (he : s.live.engine.retireOldest = some e)
    (hi : s.live.engine.immutable.getLast? = some i)
    (hrun : Running M ((s.disk.exec (.removeSegment i.walId)).exec .syncDir)
      { s.live with engine := e }) :
    Since M shown since mark { s with
      disk := (s.disk.exec (.removeSegment i.walId)).exec .syncDir
      live := { s.live with engine := e } } := by
  have hset := h.settled.retire h.running.inv.queue he
  obtain ⟨q, o, hq, hc, rfl⟩ := Engine.retireOldest_eq he
  obtain rfl : o = i := by
    rw [hq, getLast?_concat] at hi
    exact some.inj hi
  have ho : o ∈ s.live.engine.immutable := by rw [hq]; simp
  obtain ⟨seg, hseg, -⟩ := h.running.segments.queued o ho
  have hids : s.live.engine.segmentIds
      = (s.live.engine.activeWalId :: q.map (·.walId)) ++ [o.walId] := by
    unfold Engine.segmentIds
    rw [hq, map_append]
    rfl
  have hsub : ∀ w ∈ s.live.engine.activeWalId :: q.map (·.walId), w ∈ s.live.engine.segmentIds :=
    fun w hw => by rw [hids]; exact mem_append_left _ hw
  have hne : ∀ w ∈ s.live.engine.activeWalId :: q.map (·.walId), w ≠ o.walId := by
    have hwal := h.running.inv.queue.walOrder
    rw [hq] at hwal
    intro w hw
    rcases mem_cons.1 hw with rfl | hw
    · exact ne_of_gt (h.running.inv.queue.walIds o ho)
    · obtain ⟨j, hj, rfl⟩ := mem_map.1 hw
      exact ne_of_gt ((pairwise_append.1 hwal).2.2 j hj o (mem_singleton_self o))
  have hsegment : ∀ w ∈ s.live.engine.activeWalId :: q.map (·.walId),
      ((s.disk.exec (.removeSegment o.walId)).exec .syncDir).segment w = s.disk.segment w := by
    intro w hw
    refine Disk.segment_of_get ?_
    simp [Disk.exec, hseg, SortedMap.get_erase, hne w hw]
  have hkept : ∀ k, ((s.disk.exec (.removeSegment o.walId)).exec .syncDir).keptHit
      (s.live.engine.activeWalId :: q.map (·.walId)) mark k
        = s.disk.keptHit (s.live.engine.activeWalId :: q.map (·.walId)) mark k :=
    fun k => Disk.keptHit_congr fun w hw => by rw [hsegment w hw]
  have hsplit : ∀ k, s.disk.keptHit s.live.engine.segmentIds mark k
      = (s.disk.keptHit (s.live.engine.activeWalId :: q.map (·.walId)) mark k).or
        (lastWrite (Segment.writes ((s.disk.segment o.walId).take (mark o.walId))) k) := fun k => by
    rw [hids]
    unfold Disk.keptHit
    rw [findSome?_append, findSome?_singleton]
  refine ⟨⟨hrun, hset, h.synced, fun w hw => ?_, fun w hw b hb => ?_⟩, fun k x hx => ?_,
    fun k hk => ?_⟩
  · rw [hsegment w hw]
    exact h.length w (hsub w hw)
  · rw [hsegment w hw] at hb
    exact h.later w (hsub w hw) b hb
  · refine h.logged k x ?_
    rw [hsplit, ← hkept]
    exact congrArg (Option.or · _) hx
  · have hnone := (hkept k).symm.trans hk
    have hold := hsplit k
    rw [hnone] at hold
    cases hmark : lastWrite (Segment.writes ((s.disk.segment o.walId).take (mark o.walId))) k with
    | none => exact h.stored k (hold.trans hmark)
    | some y =>
      -- the retired memtable is the only one whose marked frames write the key
      have hok : o.table.get k ≠ none := by
        have hid : o.walId ∈ s.live.engine.segmentIds := .tail _ (mem_map_of_mem ho)
        have htake := lastWrite_take (s.disk.segment o.walId) (h.length o.walId hid) k
        rw [take_length, h.running.lastWrite_segment ho, hmark] at htake
        rcases htake with heq | ⟨_, -, _, -, heq⟩ <;> simp [heq]
      refine h.explained_completed ho hc hok fun j hj x hx => ?_
      rw [hq] at hj
      rcases mem_append.1 hj with hj | hj
      · have hjk := findSome?_eq_none_iff.1 hnone j.walId (.tail _ (mem_map_of_mem hj))
        cases hjk.symm.trans hx
      · rw [mem_singleton.1 hj, hmark] at hx
        exact h.logged k x (hold.trans (hmark.trans hx))

theorem compact {n : Nat} {e : Engine K V Λ} (hc : Engine.Compacted M n s.live.engine e)
    {d : Disk K V Λ} {handle : SnapshotHandle Manifest} (hseg : d.segments = s.disk.segments)
    (hrun : Running M d ⟨e, handle⟩) : Since M shown since mark ⟨d, ⟨e, handle⟩, s.synced⟩ := by
  refine h.of_segments hrun (h.settled.compacted hc) hseg ?_ fun _ k hk => ?_
  · unfold Engine.segmentIds
    rw [hc.activeWalId, hc.immutable]
  · rw [hc.means k]
    exact h.stored k hk

theorem syncWal : Since M shown since mark s.syncWal := by
  refine ⟨⟨h.running, h.settled, fun w => ?_, h.length, h.later⟩, h.logged, h.stored⟩
  show mark w ≤ update s.synced _ _ w
  by_cases hw : w = s.live.engine.activeWalId
  · rw [hw, update_self]
    exact h.length _ mem_cons_self
  · rw [update_of_ne hw]
    exact h.synced w

end Since

variable [DecidableEq Λ] {s' : SyncedEngine K V Λ}

theorem Since.run (h : Since M shown since mark s) {ev : Event K V} (hs : s.run cfg ev = some s')
    (hok : s.live.StepSafe cfg ev) (hev : ev.mutations = [])
    (hsince : ∀ {ops u}, s.live.step cfg s.disk ev = some (ops, u) →
      Running M (ops.foldl Disk.exec s.disk) u →
      ∃ mark', Since M shown since mark' ⟨ops.foldl Disk.exec s.disk, u, s.synced⟩) :
    (∃ mark', Since M shown since mark' s') ∧
      ∀ k, M.view s'.live.engine k = M.view s.live.engine k := by
  obtain ⟨⟨ops, u⟩, hstep, rfl⟩ := map_eq_some_iff.1 hs
  obtain ⟨hrun, hview⟩ := h.running.step hok hstep
  rw [hev] at hview
  exact ⟨hsince hstep hrun, hview⟩

/-- **One background step.** What may be found is still explained, and reads do not change. -/
theorem Since.step_background (h : Since M shown since mark s) {b : Background}
    (hsafe : s.BackgroundSafe b) (hs : s.background cfg b = some s') :
    (∃ mark', Since M shown since mark' s') ∧
      ∀ k, M.view s'.live.engine k = M.view s.live.engine k := by
  cases b with
  | syncWal =>
    cases hs
    exact ⟨⟨mark, h.syncWal⟩, fun _ => rfl⟩
  | sealActive =>
    refine h.run hs trivial rfl fun hstep hrun => ?_
    obtain ⟨rfl, rfl⟩ := hstep
    by_cases hne : s.live.engine.active.isEmpty = true
    · refine ⟨mark, ?_⟩
      rw [if_pos hne, Engine.sealActive, dif_neg (by simp [hne])]
      exact h
    · rw [if_neg hne]
      exact ⟨_, h.sealActive (by simpa using hne)⟩
  | claim w =>
    refine h.run hs trivial rfl fun hstep hrun => ?_
    obtain ⟨e, he, hpair⟩ := map_eq_some_iff.1 hstep
    cases hpair
    exact ⟨mark, h.claim he hrun⟩
  | finish w =>
    refine h.run hs trivial rfl fun hstep hrun => ?_
    obtain ⟨e, he, i, hi, hpair⟩ := bind_bind_eq_some.1 hstep
    cases hpair
    refine ⟨mark, h.finish he (Disk.segments_foldl (fun op hop => ?_) _) hrun⟩
    rcases mem_cons.1 hop with rfl | hop
    · trivial
    · obtain ⟨_, -, rfl⟩ := mem_map.1 hop
      trivial
  | retire =>
    refine h.run hs trivial rfl fun hstep hrun => ?_
    obtain ⟨e, he, i, hi, hpair⟩ := bind_bind_eq_some.1 hstep
    cases hpair
    exact ⟨mark, h.retire he hi hrun⟩
  | compact n =>
    have hok : s.live.StepSafe cfg (.compact n) := by
      cases n with
      | zero => exact hsafe
      | succ n => trivial
    refine h.run hs hok rfl fun hstep hrun => ?_
    obtain ⟨e, he, hcomp⟩ := Engine.compactLevel_spec M h.running.inv.levels h.running.inv.layout n
    obtain ⟨o, ho⟩ := Engine.compaction_ok M h.running.inv.layout n
    simp only [Live.step, he, ho] at hstep
    cases o with
    | none =>
      cases hstep
      exact ⟨mark, h⟩
    | some c =>
      cases hstep
      refine ⟨mark, h.compact hcomp (Disk.segments_foldl (fun op hop => ?_) _) hrun⟩
      rcases mem_append.1 hop with hop | hop
      · rcases mem_append.1 hop with hop | hop <;>
        · obtain ⟨_, -, rfl⟩ := mem_map.1 hop
          trivial
      · obtain ⟨_, -, rfl⟩ := mem_map.1 hop
        trivial

/-! ## After a crash -/

omit [DecidableEq Λ] in
/-- A truncated directory still stores a meaning: the kept writes over the SSTables. -/
theorem Running.stored_truncate {u : Live K V Λ} (h : Running M d u) (keep : Nat → Nat) :
    Stored M (d.truncate keep) u.manifest.state u.engine fun k =>
      M.over (d.keptHit u.engine.segmentIds keep k) (u.engine.probe k) where
  manifest := h.stored.manifest
  unnamed := h.stored.unnamed
  files := h.stored.files
  levels := h.stored.levels
  segments x hx := by
    obtain ⟨y, hy, rfl⟩ := mem_map.1 hx
    exact fun b hb => h.stored.segments y hy b (mem_of_mem_take hb)
  view k := by rw [h.segments.lastWrite_truncate h.inv.queue]

omit [DecidableEq Λ] in
/-- An engine opens on every directory that stores a meaning, and shows it. -/
theorem SyncedEngine.ofDisk_spec {M : Meaning cfg none A} {m : Manifest} {spec : K → Option A}
    (h : Stored M d m e spec) (hs : d.unsynced = [])
    (hsize : (replay cfg d.segments).isEmpty = true ∨ 0 < (replay cfg d.segments).byteSize) :
    ∃ s, SyncedEngine.ofDisk cfg d = some s ∧ Running M s.disk s.live ∧
      ∀ k, M.view s.live.engine k = spec k := by
  obtain ⟨ops, u, hplan, hlayout, -, hrun, hview⟩ := openPlan_spec h hs (fun _ => rfl) hsize
  rw [Live.setTargetLayout_self hlayout] at hrun hview
  refine ⟨⟨ops.foldl Disk.exec d, u, fun _ => 0⟩, ?_, hrun, hview⟩
  unfold SyncedEngine.ofDisk
  rw [hplan]
  rfl

omit [DecidableEq Λ] in
/-- **Reopen.** After a crash the engine shows, for every key, something explained. -/
theorem Since.reopen {M : Meaning cfg none A} (h : Since M shown since mark s) {keep : Nat → Nat}
    (hkeep : ∀ w, s.synced w ≤ keep w)
    (hsize : (replay cfg (s.disk.truncate keep).segments).isEmpty = true ∨
      0 < (replay cfg (s.disk.truncate keep).segments).byteSize) :
    ∃ s', SyncedEngine.ofDisk cfg (s.disk.truncate keep) = some s' ∧
      Running M s'.disk s'.live ∧
      ∀ k, Explained M shown since k (M.view s'.live.engine k) := by
  obtain ⟨s', hs', hrun, hview⟩ := SyncedEngine.ofDisk_spec (h.running.stored_truncate keep)
    h.running.synced hsize
  refine ⟨s', hs', hrun, fun k => ?_⟩
  rw [hview k]
  have hle : ∀ w, mark w ≤ keep w := fun w => (h.synced w).trans (hkeep w)
  rcases s.disk.keptHit_mono hle h.later k with heq | ⟨x, hx, heq⟩
  · rw [heq]
    cases hmark : s.disk.keptHit s.live.engine.segmentIds mark k with
    | none => exact h.stored k hmark
    | some x => exact .inl (h.logged k x hmark)
  · rw [heq]
    exact .inr ⟨x, hx, rfl⟩

end

end Dtdb.Storage
