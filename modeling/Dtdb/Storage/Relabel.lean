import Dtdb.Storage.Crash

/-! # Changing the target layout

An engine may be given another target layout while it runs.  `Holds P`: every value in the directory
satisfies `P` under the layout it is stored in. -/

namespace Dtdb.Storage

open Dtdb.Lib List Option

variable {K V Λ : Type}

def Puts (P : V → Prop) (muts : List (Mutation K V)) : Prop := ∀ w ∈ muts, ∀ v, w.2 = some v → P v

theorem Puts.append {P : V → Prop} {as bs : List (Mutation K V)} (ha : Puts P as) (hb : Puts P bs) :
    Puts P (as ++ bs) := fun w hw =>
  (mem_append.1 hw).elim (ha w) (hb w)

variable [LinearOrder K]

theorem mem_of_lastWrite {muts : List (Mutation K V)} {k : K} {s : Option V}
    (h : lastWrite muts k = some s) : (k, s) ∈ muts :=
  mem_reverse.1 (mem_of_lookup h)

/-! ## What the directory holds -/

/-- Every value of the file satisfies `P` under the file's layout. -/
def Reader.Holds (P : Option Λ → V → Prop) (f : Reader K V Λ) : Prop :=
  ∀ x ∈ f.entries, ∀ v, x.2 = some v → P f.layout v

structure Disk.Holds (P : Option Λ → V → Prop) (d : Disk K V Λ) : Prop where
  files : ∀ f ∈ d.files, f.Holds P
  segments : ∀ x ∈ d.segments.entries, Puts (P none) x.2.writes
  unsynced : ∀ x ∈ d.unsynced, Puts (P none) x.2.writes

def DiskOp.Holds (P : Option Λ → V → Prop) : DiskOp K V Λ → Prop
  | .writeFile f => f.Holds P
  | .appendSegment _ batch => Puts (P none) (WalEntry.mutations batch)
  | _ => True

section

variable {P : Option Λ → V → Prop} {d : Disk K V Λ}

theorem Disk.Holds.segment (h : d.Holds P) (id : Nat) :
    Puts (P none) ((d.segments.get id).getD []).writes := by
  cases hseg : d.segments.get id with
  | none => exact fun w hw => absurd hw not_mem_nil
  | some seg => exact h.segments (id, seg) (SortedMap.mem_entries.2 hseg)

theorem Disk.Holds.insertSegment (h : d.Holds P) {id : Nat} {seg : Segment K V}
    (hseg : Puts (P none) seg.writes) :
    Disk.Holds P { d with segments := d.segments.insert id seg } := by
  refine ⟨h.files, fun x hx => ?_, h.unsynced⟩
  rcases mem_insertSorted hx with rfl | hx
  · exact hseg
  · exact h.segments x hx

theorem Disk.Holds.exec (h : d.Holds P) {op : DiskOp K V Λ} (hop : op.Holds P) :
    (d.exec op).Holds P := by
  cases op with
  | manifest op => exact ⟨h.files, h.segments, h.unsynced⟩
  | writeFile f =>
    exact ⟨forall_mem_cons.2 ⟨hop, fun g hg => h.files g (mem_of_mem_filter hg)⟩,
      h.segments, h.unsynced⟩
  | removeFile name =>
    exact ⟨fun g hg => h.files g (mem_of_mem_filter hg), h.segments, h.unsynced⟩
  | createSegment id => exact h.insertSegment (h.segment id)
  | appendSegment id batch =>
    refine h.insertSegment ?_
    unfold Segment.writes
    rw [flatMap_append]
    refine (h.segment id).append ?_
    rw [flatMap_singleton]
    exact hop
  | removeSegment id =>
    cases hseg : d.segments.get id with
    | none =>
      rw [show d.exec (.removeSegment id) = d by simp only [Disk.exec, hseg]]
      exact h
    | some seg =>
      have hmem : (id, seg) ∈ d.segments.entries := SortedMap.mem_entries.2 hseg
      simp only [Disk.exec, hseg]
      exact ⟨h.files, fun x hx => h.segments x (mem_of_mem_filter hx),
        forall_mem_cons.2 ⟨h.segments _ hmem, h.unsynced⟩⟩
  | syncDir => exact ⟨h.files, h.segments, by simp [Disk.exec]⟩

theorem Disk.Holds.execAll (h : d.Holds P) {ops : List (DiskOp K V Λ)}
    (hops : ∀ op ∈ ops, op.Holds P) : (ops.foldl Disk.exec d).Holds P := by
  induction ops generalizing d with
  | nil => exact h
  | cons op ops ih =>
    exact ih (h.exec (hops op mem_cons_self)) fun op hop => hops op (.tail _ hop)

theorem Disk.Holds.crash (h : d.Holds P) (back : List Nat) : (d.crash back).Holds P := by
  have hback : ∀ x ∈ d.unsynced.filter fun x => x.1 ∈ back, Puts (P none) x.2.writes :=
    fun x hx => h.unsynced x (mem_of_mem_filter hx)
  refine ⟨h.files, ?_, nofun⟩
  unfold Disk.crash
  generalize d.unsynced.filter (fun x => decide (x.1 ∈ back)) = l at hback
  have hsegs := h.segments
  generalize d.segments = m at hsegs
  induction l generalizing m with
  | nil => exact hsegs
  | cons y l ih =>
    refine ih (fun x hx => hback x (.tail _ hx)) (m.insert y.1 y.2) fun x hx => ?_
    rcases mem_insertSorted hx with rfl | hx
    · exact hback _ mem_cons_self
    · exact hsegs x hx

theorem Disk.Holds.imp {Q : Option Λ → V → Prop} (h : d.Holds P) (hPQ : ∀ l v, P l v → Q l v) :
    d.Holds Q :=
  ⟨fun f hf x hx v hv => hPQ _ v (h.files f hf x hx v hv),
    fun x hx w hw v hv => hPQ _ v (h.segments x hx w hw v hv),
    fun x hx w hw v hv => hPQ _ v (h.unsynced x hx w hw v hv)⟩

/-! ## The operations of an open and of a running engine -/

theorem holds_manifest {ops : List (SnapshotOp Manifest ManifestEdit)} :
    ∀ op ∈ ops.map (DiskOp.manifest : _ → DiskOp K V Λ), op.Holds P := by
  intro op hop
  obtain ⟨_, -, rfl⟩ := mem_map.1 hop
  trivial

theorem holds_flushOps {dir : SnapshotDir Manifest ManifestEdit} {handle : SnapshotHandle Manifest}
    {f : Reader K V Λ} (hf : f.Holds P) : ∀ op ∈ (flushOps dir handle f).1, op.Holds P :=
  forall_mem_cons.2 ⟨hf, holds_manifest⟩

theorem holds_headOps {ops : List (SnapshotOp Manifest ManifestEdit)} {m : Manifest} :
    ∀ op ∈ headOps d ops m, op.Holds P := by
  intro op hop
  rcases mem_append.1 hop with hop | hop
  · exact holds_manifest op hop
  · obtain ⟨_, -, rfl⟩ := mem_map.1 hop
    trivial

theorem holds_segmentOps {segments : SortedMap Nat (Segment K V)} :
    ∀ op ∈ (segmentOps segments : List (DiskOp K V Λ)), op.Holds P := by
  intro op hop
  rcases mem_append.1 hop with hop | hop
  · rcases mem_append.1 hop with hop | hop
    · obtain ⟨_, -, rfl⟩ := mem_map.1 hop
      trivial
    · split at hop
      · cases hop
      · cases mem_singleton.1 hop
        trivial
  · rcases mem_cons.1 hop with rfl | hop
    · trivial
    · cases mem_singleton.1 hop
      trivial

end

theorem Meaning.slot_map {cfg : Config K V Λ} {T T' : Option Λ} {A A' : Type} {M : Meaning cfg T A}
    {M' : Meaning cfg T' A'} {g : A → A'} {l l' : Option Λ} {s : Option V}
    (h : ∀ v, s = some v → M'.den l' v = g (M.den l v)) : M'.slot l' s = (M.slot l s).map g := by
  cases s with
  | none => rfl
  | some v => exact congrArg some (h v rfl)

variable [ByteSize K] [ByteSize V]

section

variable {cfg : Config K V Λ} {T : Option Λ} {A : Type} {M : Meaning cfg T A}
variable {P : Option Λ → V → Prop} {d : Disk K V Λ}

theorem Disk.Holds.recovered (h : d.Holds P) (hok : ∀ x ∈ d.segments.entries, SegmentOk cfg x.2)
    (hsize : 0 < (replay cfg d.segments).byteSize) (id : Nat) :
    (recoveredReader (replay cfg d.segments) hsize id : Reader K V Λ).Holds P := by
  rintro ⟨k, s⟩ hx v rfl
  have hget : (replay cfg d.segments).get k = some (some v) := SortedMap.mem_entries.1 hx
  rw [replay_get hok] at hget
  obtain ⟨x, hx, hw⟩ := mem_flatMap.1 (mem_of_lastWrite hget)
  exact h.segments x hx _ hw v rfl

theorem Disk.Holds.openPlan (h : d.Holds P) (hok : ∀ x ∈ d.segments.entries, SegmentOk cfg x.2)
    {ops : List (DiskOp K V Λ)} {u : Live K V Λ} (hplan : openPlan cfg d = some (ops, u)) :
    ∀ op ∈ ops, op.Holds P := by
  obtain ⟨⟨mops, handle⟩, -, hplan⟩ := bind_eq_some_iff.1 hplan
  dsimp only at hplan
  split at hplan
  · next hsize =>
    cases hplan
    intro op hop
    rcases mem_append.1 hop with hop | hop
    · rcases mem_append.1 hop with hop | hop
      · exact holds_headOps op hop
      · exact holds_flushOps (h.recovered hok hsize _) op hop
    · exact holds_segmentOps op hop
  · cases hplan
    intro op hop
    rcases mem_append.1 hop with hop | hop
    · exact holds_headOps op hop
    · exact holds_segmentOps op hop

variable [DecidableEq Λ]

theorem Engine.layout_of_compaction {e : Engine K V Λ} {n : Nat} {c : Compaction K V Λ}
    (hc : e.compaction cfg n = .ok (some c)) : ∀ f ∈ c.outs, f.layout = e.targetLayout := by
  unfold Engine.compaction at hc
  dsimp only at hc
  split at hc
  · cases hc
  split at hc
  · cases hc
  split at hc
  · cases hc
  · cases hc
    intro f hf
    obtain ⟨x, -, rfl⟩ := mem_map.1 hf
    rfl

theorem Live.holds_step {u u' : Live K V Λ} {ev : Event K V} {ops : List (DiskOp K V Λ)}
    (hlayout : u.engine.targetLayout = T) (hT : ∀ v, P T v) (hputs : Puts (P none) ev.mutations)
    (hs : u.step cfg d ev = some (ops, u')) : ∀ op ∈ ops, op.Holds P := by
  have hfile : ∀ f : Reader K V Λ, f.layout = u.engine.targetLayout → f.Holds P :=
    fun f hf _ _ v _ => hf ▸ hlayout ▸ hT v
  cases ev with
  | startOpen | openStep | crash back => cases hs
  | commit es =>
    cases hs
    intro op hop
    cases mem_singleton.1 hop
    exact hputs
  | sealActive =>
    cases hs
    intro op hop
    split at hop
    · cases hop
    · rcases mem_cons.1 hop with rfl | hop
      · trivial
      · cases mem_singleton.1 hop
        trivial
  | claim w =>
    obtain ⟨e, -, hpair⟩ := map_eq_some_iff.1 hs
    cases hpair
    nofun
  | finish w =>
    obtain ⟨e, -, i, -, hs⟩ := bind_bind_eq_some.1 hs
    cases hs
    exact holds_flushOps (hfile _ rfl)
  | retire =>
    obtain ⟨e, -, i, -, hs⟩ := bind_bind_eq_some.1 hs
    cases hs
    intro op hop
    rcases mem_cons.1 hop with rfl | hop
    · trivial
    · cases mem_singleton.1 hop
      trivial
  | compact n =>
    obtain ⟨e, -, o, ho, hs⟩ := bind_bind_eq_some.1 hs
    cases o with
    | none =>
      cases hs
      nofun
    | some c =>
      cases hs
      have hc : u.engine.compaction cfg n = .ok (some c) := by
        cases hc : u.engine.compaction cfg n with
        | error err =>
          rw [hc] at ho
          cases ho
        | ok o =>
          rw [hc] at ho
          cases ho
          rfl
      intro op hop
      rcases mem_append.1 hop with hop | hop
      · rcases mem_append.1 hop with hop | hop
        · obtain ⟨f, hf, rfl⟩ := mem_map.1 hop
          exact hfile f (Engine.layout_of_compaction hc f hf)
        · exact holds_manifest op hop
      · obtain ⟨_, -, rfl⟩ := mem_map.1 hop
        trivial

end

/-! ## The machine under a target layout -/

namespace Machine

/-- The directory holds `P`, also after the operations an open has left. -/
structure Holds (P : Option Λ → V → Prop) (s : Machine K V Λ) : Prop where
  disk : s.disk.Holds P
  rest : ∀ rest u, s.mode = .opening rest u → ∀ op ∈ rest, op.Holds P

end Machine

section

variable [DecidableEq Λ] {cfg : Config K V Λ} {T : Option Λ} {A : Type} {M : Meaning cfg T A}
variable {P : Option Λ → V → Prop} {spec : K → Option A} {s s' : Machine K V Λ} {ev : Event K V}

theorem Machine.Holds.stepAt (h : s.Holds P) (hmeans : s.Means M spec) (hT : ∀ v, P T v)
    (hputs : Puts (P none) ev.mutations) (hs : s.stepAt cfg T ev = some s') : s'.Holds P := by
  obtain ⟨d, mode⟩ := s
  rcases Machine.stepAt_cases hs with ⟨back, rfl, rfl⟩ | ⟨rfl, rfl, ops, u, hplan, rfl⟩ |
    ⟨rfl, u, rfl, rfl⟩ | ⟨rfl, op, rest, u, rfl, rfl⟩ | ⟨u, ops, u', rfl, hu', rfl⟩
  · exact ⟨h.disk.crash back, nofun⟩
  · obtain ⟨-, m, e, hst⟩ := hmeans
    refine ⟨h.disk, fun rest u' hmode => ?_⟩
    cases hmode
    exact h.disk.openPlan hst.segments hplan
  · exact ⟨h.disk, nofun⟩
  · have hops := h.rest _ _ rfl
    refine ⟨h.disk.exec (hops op mem_cons_self), fun rest' u' hmode => ?_⟩
    cases hmode
    exact fun op hop => hops op (.tail _ hop)
  · exact ⟨h.disk.execAll (Live.holds_step hmeans.1.inv.layout hT hputs hu'), nofun⟩

end

/-! ## Another meaning -/

section

variable {cfg : Config K V Λ} {T T' : Option Λ} {A A' : Type} {M : Meaning cfg T A}
variable {M' : Meaning cfg T' A'} {g : A → A'} {P : Option Λ → V → Prop} {e : Engine K V Λ}

theorem Engine.exists_of_probe {maxLevel : Nat} (h : LevelsOk maxLevel e) {k : K} {l : Option Λ}
    {s : Option V} (hp : e.probe k = some (l, s)) :
    ∃ n, ∃ f ∈ e.level n, f.layout = l ∧ (k, s) ∈ f.entries := by
  rw [Engine.probe_eq h] at hp
  obtain ⟨n, -, hn⟩ := exists_of_findSome?_eq_some hp
  obtain ⟨f, hf, hfk⟩ := exists_of_findSome?_eq_some hn
  obtain ⟨s', hs', hpair⟩ := map_eq_some_iff.1 hfk
  cases hpair
  exact ⟨n, f, hf, rfl, mem_of_lookup hs'⟩

/-- Every value of the engine means the image of what it meant. -/
structure Relabels (M : Meaning cfg T A) (M' : Meaning cfg T' A') (g : A → A') (e : Engine K V Λ) :
    Prop where
  active : ∀ x ∈ e.active.entries, M'.slot T' x.2 = (M.slot T x.2).map g
  queued : ∀ i ∈ e.immutable, ∀ x ∈ i.table.entries, M'.slot T' x.2 = (M.slot T x.2).map g
  files : ∀ n, ∀ f ∈ e.level n, ∀ x ∈ f.entries,
    M'.slot f.layout x.2 = (M.slot f.layout x.2).map g

theorem Relabels.hit (hr : Relabels M M' g e) {maxLevel : Nat} (h : LevelsOk maxLevel e) (k : K) :
    M'.hit (e.probe k) = (M.hit (e.probe k)).map g := by
  cases hp : e.probe k with
  | none => rfl
  | some x =>
    obtain ⟨l, s⟩ := x
    obtain ⟨n, f, hf, rfl, hx⟩ := Engine.exists_of_probe h hp
    exact hr.files n f hf (k, s) hx

theorem Relabels.fileOf (hr : Relabels M M' g e) {f : Reader K V Λ} {i : ImmMemtable K V}
    (hf : f ∈ e.level 0) (hi : i ∈ e.immutable) (h : FileOf M f i) : FileOf M' f i := by
  refine ⟨h.completed, h.id, h.entries, fun x hx => ?_⟩
  rw [hr.files 0 f hf x hx, h.means x hx, hr.queued i hi x (h.entries ▸ hx)]

theorem FlushInv.relabel (h : FlushInv M e) (hr : Relabels M M' g e) :
    FlushInv M' (e.setTargetLayout T') := by
  refine ⟨h.levels.congr rfl le_rfl, { h.queue with }, rfl, fun f hf => ?_, ?_, ?_⟩
  · rcases h.fromQueue f hf with ⟨i, hi, hfi⟩ | hall
    · exact .inl ⟨i, hi, hr.fileOf hf hi hfi⟩
    · exact .inr hall
  · intro i hi hp j hj hcj hij k hik hjk
    obtain ⟨f, hf, hfj⟩ := h.shadow i hi hp j hj hcj hij k hik hjk
    exact ⟨f, hf, hr.fileOf hf hj hfj⟩
  · intro k i hi s hs hall
    have hold := h.settled k i hi s hs hall
    show M'.hit (e.probe k) = _
    rw [hr.hit h.levels, hold, hr.queued i hi (k, s) (mem_of_lookup hs)]

theorem Relabels.view (hr : Relabels M M' g e) {maxLevel : Nat} (h : LevelsOk maxLevel e) (k : K) :
    M'.view (e.setTargetLayout T') k = (M.view e k).map g := by
  cases hm : e.memHit k with
  | none =>
    rw [M.view_of_memHit_none hm, M'.view_of_memHit_none (e := e.setTargetLayout T') hm]
    exact hr.hit h k
  | some s =>
    rw [M.view_of_memHit hm, M'.view_of_memHit (e := e.setTargetLayout T') hm]
    rw [Engine.memHit_eq] at hm
    rcases or_eq_some_iff.1 hm with ha | ⟨-, hq⟩
    · exact hr.active (k, s) (mem_of_lookup ha)
    · obtain ⟨i, hi, hik⟩ := exists_of_findSome?_eq_some hq
      exact hr.queued i hi (k, s) (mem_of_lookup hik)

/-- **Another target layout.** The engine shows the image of what it showed. -/
theorem Running.relabel {d : Disk K V Λ} {u : Live K V Λ} (h : Running M d u) (hd : d.Holds P)
    (M' : Meaning cfg T' A') (g : A → A')
    (hden : ∀ l v, P l v → M'.den l v = g (M.den l v))
    (htop : ∀ v, P none v → M'.den T' v = g (M.den T v)) :
    Running M' d (u.setTargetLayout T') ∧
      ∀ k, M'.view (u.setTargetLayout T').engine k = (M.view u.engine k).map g := by
  have htable : ∀ (w : Nat) (t : MemTable K V),
      (∃ seg, d.segments.get w = some seg ∧ Logs cfg seg t) →
      ∀ x ∈ t.entries, M'.slot T' x.2 = (M.slot T x.2).map g := by
    rintro w t ⟨seg, hseg, hlog⟩ ⟨k, s⟩ hx
    refine Meaning.slot_map fun v hv => htop v ?_
    have hget : t.get k = some s := SortedMap.mem_entries.1 hx
    rw [← hlog.writes k] at hget
    exact hd.segments _ (SortedMap.mem_entries.2 hseg) _ (mem_of_lastWrite hget) v hv
  have hr : Relabels M M' g u.engine := by
    refine ⟨htable _ _ h.segments.active, fun i hi => htable _ _ (h.segments.queued i hi), ?_⟩
    intro n f hf x hx
    have hfile := ((h.files.live n f).1 hf).1
    exact Meaning.slot_map fun v hv => hden _ v (hd.files f hfile x hx v hv)
  exact ⟨⟨h.inv.relabel hr, h.manifest, h.synced, h.files.of_sstables rfl,
    { h.segments with }⟩, hr.view h.inv.levels⟩

end

end Dtdb.Storage
