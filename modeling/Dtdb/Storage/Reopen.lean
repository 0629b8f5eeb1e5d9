import Dtdb.Storage.Machine
import Dtdb.Storage.Recovery

/-! # Opening a directory

`Running` says that a directory is in step with the engine running on it.  However an open is cut
short, the directory keeps its meaning, and an open that completes shows it. -/

namespace Dtdb.Storage

open Dtdb.Lib List Option

variable {K V Λ : Type} [LinearOrder K] [ByteSize K] [ByteSize V]

/-! ## The running engine and its directory -/

/-- The segment holds the writes of the memtable. -/
structure Logs (cfg : Config K V Λ) (seg : Segment K V) (t : MemTable K V) : Prop where
  ok : SegmentOk cfg seg
  writes : ∀ k, lastWrite seg.writes k = t.get k

structure SegmentsOk (cfg : Config K V Λ) (segments : SortedMap Nat (Segment K V))
    (e : Engine K V Λ) : Prop where
  active : ∃ seg, segments.get e.activeWalId = some seg ∧ Logs cfg seg e.active
  queued : ∀ i ∈ e.immutable, ∃ seg, segments.get i.walId = some seg ∧ Logs cfg seg i.table
  only : ∀ w seg, segments.get w = some seg → w = e.activeWalId ∨ ∃ i ∈ e.immutable, i.walId = w

/-- The directory is in step with the engine. -/
structure Running {cfg : Config K V Λ} {T : Option Λ} {A : Type} (M : Meaning cfg T A)
    (d : Disk K V Λ) (u : Live K V Λ) : Prop where
  inv : FlushInv M u.engine
  manifest : d.manifest.Held u.manifest
  synced : d.unsynced = []
  files : FilesOk d.files u.manifest.state u.engine
  segments : SegmentsOk cfg d.segments u.engine

section

variable {cfg : Config K V Λ} {T : Option Λ} {A : Type} {M : Meaning cfg T A}
variable {d : Disk K V Λ} {m : Manifest} {e : Engine K V Λ} {spec : K → Option A}

theorem SegmentsOk.entries {segments : SortedMap Nat (Segment K V)} (h : SegmentsOk cfg segments e)
    (hq : QueueOk e) : segments.entries
      = ((e.activeWalId :: e.immutable.map ImmMemtable.walId).map fun w =>
        (w, (segments.get w).getD [])).reverse := by
  have hasc : Ascending ((e.activeWalId :: e.immutable.map ImmMemtable.walId).map fun w =>
      (w, (segments.get w).getD [])).reverse := by
    refine pairwise_reverse.2 (pairwise_map.2 (pairwise_cons.2 ⟨?_, ?_⟩))
    · intro w hw
      obtain ⟨i, hi, rfl⟩ := mem_map.1 hw
      exact hq.walIds i hi
    · exact pairwise_map.2 hq.walOrder
  refine segments.ascending.ext_mem hasc fun ⟨w, seg⟩ => ?_
  rw [SortedMap.mem_entries, mem_reverse]
  simp only [List.mem_map, List.mem_cons, Prod.mk.injEq]
  constructor
  · intro hget
    refine ⟨w, ?_, rfl, by rw [hget]; rfl⟩
    rcases h.only w seg hget with rfl | ⟨i, hi, rfl⟩
    · exact .inl rfl
    · exact .inr ⟨i, hi, rfl⟩
  · rintro ⟨w', hw', rfl, rfl⟩
    rcases hw' with rfl | ⟨i, hi, rfl⟩
    · obtain ⟨seg, hseg, -⟩ := h.active
      rw [hseg]
      rfl
    · obtain ⟨seg, hseg, -⟩ := h.queued i hi
      rw [hseg]
      rfl

theorem SegmentsOk.memHit {segments : SortedMap Nat (Segment K V)} (h : SegmentsOk cfg segments e)
    (hq : QueueOk e) (k : K) : lastWrite (walWrites segments.entries) k = e.memHit k := by
  rw [lastWrite_walWrites, h.entries hq, reverse_reverse, map_cons, findSome?_cons,
    Engine.memHit_eq, List.map_map, List.findSome?_map]
  have hact : lastWrite ((segments.get e.activeWalId).getD ([] : Segment K V)).writes k
      = e.active.get k := by
    obtain ⟨seg, hseg, hlog⟩ := h.active
    rw [hseg]
    exact hlog.writes k
  have hqueue : e.immutable.findSome? ((fun x : Nat × Segment K V => lastWrite x.2.writes k) ∘
      (fun w => (w, (segments.get w).getD [])) ∘ ImmMemtable.walId)
      = e.immutable.findSome? fun i => i.table.get k :=
    findSome?_congr fun i hi => by
      obtain ⟨seg, hseg, hlog⟩ := h.queued i hi
      simp only [Function.comp_apply, hseg]
      exact hlog.writes k
  rw [hact, hqueue]
  cases e.active.get k <;> rfl

theorem Running.stored {u : Live K V Λ} (h : Running M d u) :
    Stored M d u.manifest.state u.engine (M.view u.engine) where
  manifest := h.manifest.sound
  unnamed hn := by
    rw [h.manifest.current] at hn
    cases hn
  files := h.files
  levels := h.inv.levels
  segments x hx := by
    have hget := SortedMap.mem_entries.1 hx
    rcases h.segments.only x.1 x.2 hget with hw | ⟨i, hi, hw⟩
    · obtain ⟨seg, hseg, hlog⟩ := h.segments.active
      rw [hw, hseg] at hget
      cases hget
      exact hlog.ok
    · obtain ⟨seg, hseg, hlog⟩ := h.segments.queued i hi
      rw [hw, hget] at hseg
      cases hseg
      exact hlog.ok
  view k := by
    rw [h.segments.memHit h.inv.queue]
    rfl

/-! ## The manifest and the orphans -/

omit [ByteSize K] [ByteSize V] in
theorem openManifest_spec (hm : d.manifest.Sound m)
    (hunnamed : d.manifest.current = none → d.files = []) :
    ∃ ops hd, openManifest d = some (ops, hd) ∧ hd.state = m ∧
      Throughout SnapshotDir.exec (·.Sound m) ops d.manifest ∧
      (ops.foldl SnapshotDir.exec d.manifest).Held hd := by
  obtain ⟨ops, hd, hopen, hstate, hthr, hheld⟩ := hm.openOps editBytes
  refine ⟨ops, hd, ?_, hstate, hthr, hheld⟩
  have hedits : (if d.manifest.current.isSome then []
      else d.files.map fun f => ManifestEdit.addSstable f.level f.id) = [] := by
    split
    · rfl
    · next hc =>
      rw [hunnamed (by simpa using hc)]
      rfl
  simp only [openManifest, hopen, hedits]
  rfl

theorem Stored.manifestOps (h : Stored M d m e spec) (hs : d.unsynced = [])
    {ops : List (SnapshotOp Manifest ManifestEdit)}
    (hops : Throughout SnapshotDir.exec (·.Sound m) ops d.manifest) :
    Throughout Disk.exec (Recoverable M spec) (ops.map .manifest) d := by
  have hcur : Throughout SnapshotDir.exec (fun dir => dir.current = none → d.manifest.current = none)
      ops d.manifest :=
    .of_step id fun dir op _ hdir hnone => hdir <| by
      cases op with
      | setCurrent gen => cases hnone
      | _ => exact hnone
  refine Throughout.map
    (fun dir op => show Disk.exec { d with manifest := dir } (.manifest op) = _ from rfl)
    (fun dir hdir => ?_) (hops.and hcur)
  exact (h.setManifest hdir.1 hdir.2).recoverable hs

/-! ## The discovered engine -/

theorem FilesOk.mem_discovered_level (h : FilesOk d.files m e) {n : Nat} {f : Reader K V Λ} :
    f ∈ (discoveredEngine cfg d m).level n ↔ f ∈ e.level n := by
  have hlevel : (discoveredEngine cfg d m).level n
      = sortLevel n ((d.liveFiles m).filter fun f => f.level = n) := discover_level _ n
  have hsort : f ∈ sortLevel n ((d.liveFiles m).filter fun f => f.level = n) ↔
      f ∈ (d.liveFiles m).filter fun f => f.level = n := by
    unfold sortLevel
    split <;> exact mem_insertionSort _
  rw [hlevel, hsort, h.live, Disk.liveFiles, mem_filter]
  simp [and_assoc]

/-- **What an open discovers is well shaped**, if the named files lie within the levels and below
level 0 do not overlap. -/
theorem FilesOk.discovered_levels {maxLevel : Nat} (h : FilesOk d.files m e)
    (hbound : ∀ n, ∀ f ∈ e.level n, n ≤ maxLevel)
    (hapart : ∀ n, 0 < n → ∀ a ∈ e.level n, ∀ b ∈ e.level n, a ≠ b →
      a.lastKey < b.firstKey ∨ b.lastKey < a.firstKey) :
    LevelsOk maxLevel (discoveredEngine cfg d m) := by
  have hfiles : d.files.Nodup := List.Nodup.of_map _ h.names
  have hlevel : ∀ n, (discoveredEngine cfg d m).level n
      = sortLevel n ((d.liveFiles m).filter fun f => f.level = n) := discover_level _
  have hids : ∀ n, (((discoveredEngine cfg d m).level n).map Reader.id).Nodup := by
    intro n
    have hperm : ((discoveredEngine cfg d m).level n).Perm
        ((d.liveFiles m).filter fun f => f.level = n) := by
      rw [hlevel]
      unfold sortLevel
      split <;> exact perm_insertionSort _ _
    rw [(hperm.map _).nodup_iff]
    refine List.Nodup.map_on (fun a ha b hb hid => ?_) ((hfiles.filter _).filter _)
    obtain ⟨ha, hal⟩ := mem_filter.1 ha
    obtain ⟨hb, hbl⟩ := mem_filter.1 hb
    refine h.eq_of_name (mem_of_mem_filter ha) (mem_of_mem_filter hb) ?_
    exact Prod.ext ((of_decide_eq_true hal).trans (of_decide_eq_true hbl).symm) hid
  refine ⟨?_, fun n hn => ?_, fun x hx => ?_, fun n r hr => ?_, fun n r hr => ?_, hids⟩
  · have hsort : ((discoveredEngine cfg d m).level 0).Pairwise fun a b => b.id ≤ a.id := by
      rw [hlevel]
      exact pairwise_insertionSort _ _
    exact (hsort.and (pairwise_map.1 (hids 0))).imp fun {a b} hab =>
      lt_of_le_of_ne hab.1 (Ne.symm hab.2)
  · have hmem : ∀ f ∈ (d.liveFiles m).filter (fun f => f.level = n), f ∈ e.level n := by
      intro f hf
      obtain ⟨hf, hl⟩ := mem_filter.1 hf
      obtain ⟨hf, hn⟩ := mem_filter.1 hf
      exact (h.live n f).2 ⟨hf, of_decide_eq_true hn, of_decide_eq_true hl⟩
    rw [hlevel]
    unfold sortLevel
    rw [if_neg (by omega)]
    refine keyOrdered_insertionSort (List.Pairwise.imp_of_mem (fun {a b} ha hb hab => ?_)
      ((hfiles.filter _).filter _))
    exact hapart n hn a (hmem a ha) b (hmem b hb) hab
  · have hget : (discover _).get x.1 = some x.2 := SortedMap.mem_entries.1 hx
    rw [discover_get, ite_none_right_eq_some, List.any_eq_true] at hget
    obtain ⟨⟨f, hf, hfx⟩, -⟩ := hget
    obtain ⟨hf, hm⟩ := mem_filter.1 hf
    exact hbound x.1 f ((h.live x.1 f).2 ⟨hf, by simpa using hm, of_decide_eq_true hfx⟩)
  · exact ((h.live n r).1 (h.mem_discovered_level.1 hr)).2.2
  · obtain ⟨hf, hm, -⟩ := (h.live n r).1 (h.mem_discovered_level.1 hr)
    exact Nat.lt_succ_of_le (le_maxId (mem_filter.2 ⟨hf, by simpa using hm⟩))

theorem Stored.discovered_level (h : Stored M d m e spec) (n : Nat) :
    (discoveredEngine cfg d m).level n = e.level n := by
  have hlevel : (e.level n).Nodup := List.Nodup.of_map _ (h.levels.nodup n)
  have hfiles : d.files.Nodup := List.Nodup.of_map _ h.files.names
  show ((discover (d.liveFiles m)).get n).getD [] = e.level n
  rw [discover_level]
  refine sortLevel_eq h.levels ((perm_ext_iff_of_nodup ?_ hlevel).2 fun f => ?_)
  · exact (hfiles.filter _).filter _
  · rw [h.files.live, Disk.liveFiles, mem_filter]
    simp [and_assoc]

theorem Stored.discovered (h : Stored M d m e spec) :
    Stored M d m (discoveredEngine cfg d m) spec := by
  have hlv := h.discovered_level
  have hlevels : LevelsOk cfg.options.maxLevel (discoveredEngine cfg d m) := by
    refine h.files.discovered_levels (fun n f hf => ?_) fun n hn a ha b hb =>
      (h.levels.keyOrdered n hn).apart ha hb
    by_contra hlt
    rw [Engine.level_eq_nil_of_bound h.levels (not_le.1 hlt)] at hf
    cases hf
  refine ⟨h.manifest, h.unnamed, ⟨h.files.names, h.files.present, fun n f => ?_⟩, hlevels,
    h.segments, fun k => ?_⟩
  · exact h.files.mem_discovered_level.trans (h.files.live n f)
  · rw [← h.view k, Engine.probe_congr h.levels hlevels fun n => ?_]
    unfold Engine.levelHit
    rw [hlv]

/-! ## The recovered SSTable -/

theorem Stored.flush (h : Stored M d m e spec) (hs : d.unsynced = [])
    {handle : SnapshotHandle Manifest} (hheld : d.manifest.Held handle) (hm : handle.state = m)
    {f : Reader K V Λ} {e' : Engine K V Λ} (hf : f.name ∉ m) (hf0 : f.level = 0)
    (hsst : e'.sstables = e.sstables.insert 0 (insertL0Sorted (e.level 0) f))
    (hl : LevelsOk cfg.options.maxLevel e')
    (hlog : ∀ k, lastWrite (walWrites d.segments.entries) k = none → f.get k = none) :
    Throughout Disk.exec (Recoverable M spec) (flushOps d.manifest handle f).1 d ∧
    ∃ d', (flushOps d.manifest handle f).1.foldl Disk.exec d = d' ∧
      Stored M d' (insert f.name m) e' spec ∧ d'.manifest.Held (flushOps d.manifest handle f).2 ∧
      (flushOps d.manifest handle f).2.state = insert f.name m ∧ d'.segments = d.segments ∧
      d'.unsynced = [] := by
  subst hm
  have hcur : d.manifest.current ≠ none := by rw [hheld.current]; nofun
  have hw := h.writeFile hf hcur
  obtain ⟨ops, hops, hthr, hstate, hheld'⟩ :=
    hheld.appendOps editBytes manifestCompactThreshold [.addSstable f.level f.id]
  have hfst : (flushOps d.manifest handle f).1
      = .writeFile f :: .manifest (.appendLog handle.generation [.addSstable f.level f.id]) ::
        ops.map .manifest := by
    show .writeFile f :: (d.manifest.appendOps editBytes manifestCompactThreshold handle
      [.addSstable f.level f.id]).1.map DiskOp.manifest = _
    rw [hops]
    rfl
  -- every directory from the manifest append on names the new file
  have hreg : ∀ dir : SnapshotDir Manifest ManifestEdit, dir.Sound (insert f.name handle.state) →
      dir.current ≠ none →
      Stored M { d.exec (.writeFile f) with manifest := dir } (insert f.name handle.state) e' spec :=
    fun dir hsound hc => hw.register mem_cons_self hsst hl hf0 hlog hsound hc
  have hafter := (hreg _ hthr.head hcur).manifestOps hs hthr
  refine ⟨?_, _, rfl, ?_⟩
  · rw [hfst]
    exact ⟨h.recoverable hs, hw.recoverable hs, hafter⟩
  · have hfold : (flushOps d.manifest handle f).1.foldl Disk.exec d = { d.exec (.writeFile f) with
        manifest := (d.manifest.appendOps editBytes manifestCompactThreshold handle
          [.addSstable f.level f.id]).1.foldl SnapshotDir.exec d.manifest } :=
      Disk.foldl_manifest _ (d.exec (.writeFile f))
    rw [hfold]
    refine ⟨hreg _ ?_ (by rw [hheld'.current]; nofun), hheld', hstate, rfl, hs⟩
    have := hheld'.sound
    rwa [hstate] at this

variable (cfg d m) in
theorem flushRecovered_levels (h : LevelsOk cfg.options.maxLevel (discoveredEngine cfg d m))
    (ht : 0 < (discoveredEngine cfg d m).active.byteSize) :
    LevelsOk cfg.options.maxLevel ((discoveredEngine cfg d m).flushRecovered (recoveredReader
      (discoveredEngine cfg d m).active ht (discoveredEngine cfg d m).nextSstId)) :=
  h.insertFile rfl rfl (fun g hg => ne_of_lt (h.ids 0 g hg)) (Nat.lt_succ_self _) (Nat.le_succ _)

theorem Stored.covered_flush (h : Stored M d m (discoveredEngine cfg d m) spec)
    (hnone : ∀ v, M.den none v = M.den T v)
    (ht : 0 < (discoveredEngine cfg d m).active.byteSize) (k : K) :
    M.hit (((discoveredEngine cfg d m).flushRecovered (recoveredReader
      (discoveredEngine cfg d m).active ht (discoveredEngine cfg d m).nextSstId)).probe k)
      = spec k := by
  set f : Reader K V Λ := recoveredReader (discoveredEngine cfg d m).active ht
    (discoveredEngine cfg d m).nextSstId
  have hl := flushRecovered_levels cfg d m h.levels ht
  have hget : f.get k = lastWrite (walWrites d.segments.entries) k := replay_get h.segments k
  rw [← h.view k, ← hget]
  cases hk : f.get k with
  | none =>
    show M.hit _ = M.hit _
    rw [h.levels.probe_insertFile hl rfl hk]
  | some s =>
    have hmem : f ∈ ((discoveredEngine cfg d m).flushRecovered f).level 0 := by
      rw [Engine.level_zero_of_insert rfl, mem_insertL0Sorted h.levels.newestFirst]
      exact .inl rfl
    have hhit : ((discoveredEngine cfg d m).flushRecovered f).levelHit k 0 = some (none, s) := by
      refine hl.newestFirst.hit_eq hmem hk fun g hg hlt => ?_
      have : g.id < f.id + 1 := hl.ids 0 g hg
      omega
    rw [Engine.probe_of_level0 hl hhit]
    cases s with
    | none => rfl
    | some v => exact congrArg some (hnone v)

/-! ## The whole open -/

def Live.setTargetLayout (u : Live K V Λ) (layout : Option Λ) : Live K V Λ :=
  { u with engine := u.engine.setTargetLayout layout }

theorem Live.setTargetLayout_self {u : Live K V Λ} {layout : Option Λ}
    (h : u.engine.targetLayout = layout) : u.setTargetLayout layout = u := by
  subst h
  rfl

theorem Stored.running (h : Stored M d m e spec) (hcov : ∀ k, M.hit (e.probe k) = spec k)
    (hs : d.unsynced = []) {handle : SnapshotHandle Manifest} (hheld : d.manifest.Held handle)
    (hm : handle.state = m) (hactive : e.active.isEmpty = true) (himm : e.immutable = [])
    (hnext : e.activeWalId < e.nextWalId)
    (hseg : d.segments = SortedMap.empty.insert e.activeWalId []) :
    Running M d (Live.setTargetLayout ⟨e, handle⟩ T) ∧
      ∀ k, M.view (e.setTargetLayout T) k = spec k := by
  have hnil := MemTable.get_eq_none_of_isEmpty hactive
  have himm' : ∀ i, i ∉ (e.setTargetLayout T).immutable := fun i hi => by
    rw [show (e.setTargetLayout T).immutable = [] from himm] at hi
    cases hi
  have hlevels : LevelsOk cfg.options.maxLevel (e.setTargetLayout T) := h.levels.congr rfl le_rfl
  have hqueue : QueueOk (e.setTargetLayout T) := by
    refine ⟨?_, ?_, fun i hi => absurd hi (himm' i), fun i hi => absurd hi (himm' i), hnext⟩ <;>
    · rw [show (e.setTargetLayout T).immutable = [] from himm]
      exact List.Pairwise.nil
  have hinv : FlushInv M (e.setTargetLayout T) :=
    ⟨hlevels, hqueue, rfl, fun f _ => .inr fun i hi => absurd hi (himm' i),
      fun i hi => absurd hi (himm' i), fun k i hi => absurd hi (himm' i)⟩
  have hfiles : FilesOk d.files handle.state (e.setTargetLayout T) :=
    hm ▸ { h.files with }
  have hsegs : SegmentsOk cfg d.segments (e.setTargetLayout T) := by
    rw [hseg]
    refine ⟨⟨[], SortedMap.get_insert_self .., nofun, fun k => (hnil k).symm⟩,
      fun i hi => absurd hi (himm' i), fun w seg hget => ?_⟩
    rw [SortedMap.get_insert] at hget
    split at hget
    · next hw => exact .inl hw
    · cases hget
  refine ⟨⟨hinv, hheld, hs, hfiles, hsegs⟩, fun k => ?_⟩
  rw [M.view_of_memHit_none, ← hcov k]
  · rfl
  · rw [Engine.memHit_eq, show (e.setTargetLayout T).immutable = [] from himm]
    rw [show (e.setTargetLayout T).active.get k = none from hnil k]
    rfl

theorem Stored.openHead (h : Stored M d m e spec) (hs : d.unsynced = [])
    {ops : List (SnapshotOp Manifest ManifestEdit)} {handle : SnapshotHandle Manifest}
    (hm : handle.state = m) (hthr : Throughout SnapshotDir.exec (·.Sound m) ops d.manifest)
    (hheld : (ops.foldl SnapshotDir.exec d.manifest).Held handle) :
    Throughout Disk.exec (Recoverable M spec) (headOps d ops handle.state) d ∧
    ∃ d', (headOps d ops handle.state).foldl Disk.exec d = d' ∧ Stored M d' m e spec ∧
      d'.manifest = ops.foldl SnapshotDir.exec d.manifest ∧ d'.segments = d.segments ∧
      d'.unsynced = [] := by
  have hcur : (ops.foldl SnapshotDir.exec d.manifest).current ≠ none := by
    rw [hheld.current]; nofun
  have h₁ : Stored M { d with manifest := ops.foldl SnapshotDir.exec d.manifest } m e spec :=
    h.setManifest hthr.last fun hn => absurd hn hcur
  have horph : Throughout Disk.exec (fun d' => Stored M d' m e spec ∧
      d'.manifest = ops.foldl SnapshotDir.exec d.manifest ∧ d'.segments = d.segments ∧
        d'.unsynced = [])
      ((d.files.filter fun f => f.name ∉ handle.state).map fun f => .removeFile f.name) _ :=
    .of_step ⟨h₁, rfl, rfl, hs⟩ fun d' op hop ⟨h', hman, hseg, hu⟩ => by
      obtain ⟨f, hf, rfl⟩ := mem_map.1 hop
      exact ⟨h'.removeFile (hm ▸ by simpa using (mem_filter.1 hf).2), hman, hseg, hu⟩
  refine ⟨(h.manifestOps hs hthr).append ?_, _, rfl, ?_⟩
  · rw [Disk.foldl_manifest]
    exact horph.imp fun d' hd' => hd'.1.recoverable hd'.2.2.2
  · rw [headOps, foldl_append, Disk.foldl_manifest]
    exact horph.last

/-- **Open** succeeds on a directory that stores `spec` and shows it; however it is cut short the
directory can still be recovered. -/
theorem openPlan_spec (h : Stored M d m e spec) (hs : d.unsynced = [])
    (hnone : ∀ v, M.den none v = M.den T v)
    (hsize : (replay cfg d.segments).isEmpty = true ∨ 0 < (replay cfg d.segments).byteSize) :
    ∃ ops u, openPlan cfg d = some (ops, u) ∧ u.engine.targetLayout = none ∧
      Throughout Disk.exec (Recoverable M spec) ops d ∧
      Running M (ops.foldl Disk.exec d) (u.setTargetLayout T) ∧
      ∀ k, M.view (u.setTargetLayout T).engine k = spec k := by
  obtain ⟨mops, hd, hopen, rfl, hthr, hheld⟩ := openManifest_spec h.manifest h.unnamed
  have h₀ := h.discovered
  obtain ⟨hhead, d₁, hd₁, h₁, hman, hseg, hsync⟩ := h₀.openHead hs rfl hthr hheld
  rw [← hman] at hheld
  by_cases ht : 0 < (discoveredEngine cfg d hd.state).active.byteSize
  · -- the replayed writes go to an SSTable first
    have hl := flushRecovered_levels cfg d hd.state h₀.levels ht
    have hname : (recoveredReader (discoveredEngine cfg d hd.state).active ht
        (discoveredEngine cfg d hd.state).nextSstId : Reader K V Λ).name ∉ hd.state := fun hmem => by
      obtain ⟨g, hg, hgn⟩ := h₁.files.present _ hmem
      have hlive := (h₁.files.live 0 g).2 ⟨hg, hgn ▸ hmem, congrArg Prod.fst hgn⟩
      have hid : g.id = (discoveredEngine cfg d hd.state).nextSstId := congrArg Prod.snd hgn
      exact absurd (h₀.levels.ids 0 g hlive) (by rw [hid]; exact lt_irrefl _)
    obtain ⟨hflush, d₂, hd₂, h₂, hheld₂, hstate, hseg₂, hsync₂⟩ := h₁.flush hsync hheld rfl hname rfl
      rfl hl fun k hk => by rw [hseg] at hk; exact (replay_get h₀.segments k).trans hk
    have hcov := h₀.covered_flush hnone ht
    obtain ⟨htail, d₃, hd₃, h₃, hman₃, hseg₃, hsync₃⟩ := h₂.segmentOps hcov hsync₂
    rw [hseg₂, hseg] at htail hd₃ hseg₃
    rw [hman] at hflush hd₂ hheld₂ hstate
    refine ⟨_, _, by simp only [openPlan, hopen, bind_eq_bind, bind_some, dif_pos ht]; rfl,
      rfl, (hhead.append (hd₁ ▸ hflush)).append ?_, ?_⟩
    · rw [foldl_append, hd₁, hd₂]
      exact htail
    · rw [foldl_append, foldl_append, hd₁, hd₂, hd₃]
      exact h₃.running hcov hsync₃ (hman₃ ▸ hheld₂) hstate rfl rfl (Nat.lt_succ_self _) hseg₃
  · have hempty := hsize.resolve_right ht
    have hcov : ∀ k, _ = spec k := fun k => by
      rw [← h₁.view k, ← replay_get h₁.segments, MemTable.get_eq_none_of_isEmpty (hseg ▸ hempty)]
    obtain ⟨htail, d₃, hd₃, h₃, hman₃, hseg₃, hsync₃⟩ := h₁.segmentOps hcov hsync
    rw [hseg] at htail hd₃ hseg₃
    refine ⟨_, _, by simp only [openPlan, hopen, bind_eq_bind, bind_some, dif_neg ht]; rfl,
      rfl, hhead.append (hd₁ ▸ htail), ?_⟩
    rw [foldl_append, hd₁, hd₃]
    exact h₃.running hcov hsync₃ (hman₃ ▸ hheld) rfl hempty rfl (Nat.lt_succ_self _) hseg₃

end

end Dtdb.Storage
