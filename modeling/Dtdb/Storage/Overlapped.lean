import Dtdb.Storage.Durability

/-! # The levels under overlapping flushes and compactions

A flush records its SSTable in the manifest and then adds it to the level map; a compaction selects,
merges, writes its files, records the swap and then makes it, while all else goes on.  `SiteOk`: the
manifest names the files of the levels as they will be once everything it records is done. -/

namespace Dtdb.Storage

open Dtdb.Lib List Option

variable {K V Λ : Type} [LinearOrder K]

/-! ## The moves -/

/-- `runs` are the files still to be written, which get their ids when they are begun. -/
inductive CompactPhase (K V Λ : Type) [LinearOrder K] where
  | selected
  | writing (runs outs : List (Reader K V Λ))
  | recorded (outs : List (Reader K V Λ))

def CompactPhase.runs : CompactPhase K V Λ → List (Reader K V Λ)
  | .writing runs _ => runs
  | _ => []

def CompactPhase.outs : CompactPhase K V Λ → List (Reader K V Λ)
  | .selected => []
  | .writing _ outs => outs
  | .recorded outs => outs

structure Compacting (K V Λ : Type) [LinearOrder K] where
  level : Nat
  sources : List (Reader K V Λ)
  overlapping : List (Reader K V Λ)
  phase : CompactPhase K V Λ

inductive SiteMove (K V Λ : Type) where
  | commit (entries : List (WalEntry K V))
  | sealActive
  | claim (walId : Nat)
  | recordFlush (walId : Nat)
  | registerFlush (walId : Nat)
  | retire
  | setTargetLayout (layout : Option Λ)
  | select (level : Nat)
  | merge
  | write
  | recordSwap
  | swap
  | reopen (back : List Nat)

variable [ByteSize K] [ByteSize V]

/-- `flushing` are the files that the manifest names and the level map does not hold yet. -/
structure Site (K V Λ : Type) [LinearOrder K] [ByteSize K] [ByteSize V] where
  disk : Disk K V Λ
  live : Live K V Λ
  flushing : List (Nat × Reader K V Λ)
  compacting : Option (Compacting K V Λ)

def Compacting.swap (c : Compacting K V Λ) (e : Engine K V Λ) : Engine K V Λ :=
  { e.install c.level c.sources c.overlapping c.phase.outs with nextSstId := e.nextSstId }

namespace Site

/-- An open that completes. -/
def boot (cfg : Config K V Λ) (d : Disk K V Λ) : Option (Site K V Λ) :=
  (openPlan cfg d).map fun x => ⟨x.1.foldl Disk.exec d, x.2, [], none⟩

variable [DecidableEq Λ]

def event (cfg : Config K V Λ) (s : Site K V Λ) (ev : Event K V) : Option (Site K V Λ) :=
  (s.live.step cfg s.disk ev).map fun x =>
    { s with disk := x.1.foldl Disk.exec s.disk, live := x.2 }

/-- `write_immutable_sstable` up to the manifest entry. -/
def recordFlush (s : Site K V Λ) (w : Nat) : Option (Site K V Λ) :=
  match s.live.engine.immutable.find? fun i => i.walId = w with
  | some i =>
    if i.flush = .inFlight ∧ w ∉ s.flushing.map Prod.fst then
      let f := s.live.engine.immReader i
      let x := flushOps s.disk.manifest s.live.manifest f
      some { s with
        disk := x.1.foldl Disk.exec s.disk
        live := { s.live with manifest := x.2 }
        flushing := (w, f) :: s.flushing }
    else none
  | none => none

def registerFlush (s : Site K V Λ) (w : Nat) : Option (Site K V Λ) :=
  match s.flushing.find? fun x => x.1 = w with
  | some x => some { s with
      live := { s.live with engine := s.live.engine.registerFlush w x.2 }
      flushing := s.flushing.filter fun x => x.1 ≠ w }
  | none => none

/-- The head of `compact_level`; `compaction_mutex` lets in one compaction at a time. -/
def select (cfg : Config K V Λ) (s : Site K V Λ) (n : Nat) : Option (Site K V Λ) :=
  if s.compacting.isSome then none
  else
    let sources := s.live.engine.sourceFiles n
    if cfg.options.maxLevel < n + 1 ∨ sources = [] then some s
    else some { s with
      compacting := some ⟨n, sources, s.live.engine.overlappingFiles (n + 1) sources, .selected⟩ }

/-- The merge; a value that cannot be rewritten ends the compaction. -/
def merge (cfg : Config K V Λ) (s : Site K V Λ) : Option (Site K V Λ) :=
  match s.compacting with
  | some ⟨n, sources, overlapping, .selected⟩ =>
    let T := s.live.engine.targetLayout
    match h : rewriteAll cfg T (Lib.merge (mergeSources (sources ++ overlapping))) with
    | .error _ => some { s with compacting := none }
    | .ok rows => some { s with compacting := some ⟨n, sources, overlapping, .writing
        (outputFiles cfg.options.sstableTargetSize 0 (n + 1) T
          (rows.filter (s.live.engine.keepRow cfg (n + 1))) ((rewriteAll_ascending h).filter _)) []⟩ }
  | _ => none

def write (s : Site K V Λ) : Option (Site K V Λ) :=
  match s.compacting with
  | some ⟨n, sources, overlapping, .writing (r :: runs) outs⟩ =>
    let out := { r with id := s.live.engine.nextSstId }
    some { s with
      disk := s.disk.exec (.writeFile out)
      live := { s.live with
        engine := { s.live.engine with nextSstId := s.live.engine.nextSstId + 1 } }
      compacting := some ⟨n, sources, overlapping, .writing runs (outs ++ [out])⟩ }
  | _ => none

def recordSwap (s : Site K V Λ) : Option (Site K V Λ) :=
  match s.compacting with
  | some ⟨n, sources, overlapping, .writing [] outs⟩ =>
    let x := s.disk.manifest.appendOps editBytes manifestCompactThreshold s.live.manifest
      (Compaction.edits ⟨sources, overlapping, outs⟩)
    some { s with
      disk := (x.1.map DiskOp.manifest).foldl Disk.exec s.disk
      live := { s.live with manifest := x.2 }
      compacting := some ⟨n, sources, overlapping, .recorded outs⟩ }
  | _ => none

def swap (s : Site K V Λ) : Option (Site K V Λ) :=
  match s.compacting with
  | some ⟨n, sources, overlapping, .recorded outs⟩ => some { s with
      disk := ((sources ++ overlapping).map fun f => DiskOp.removeFile f.name).foldl Disk.exec s.disk
      live := { s.live with
        engine := Compacting.swap ⟨n, sources, overlapping, .recorded outs⟩ s.live.engine }
      compacting := none }
  | _ => none

def step (cfg : Config K V Λ) (s : Site K V Λ) : SiteMove K V Λ → Option (Site K V Λ)
  | .commit es => s.event cfg (.commit es)
  | .sealActive => s.event cfg .sealActive
  | .claim w => s.event cfg (.claim w)
  | .recordFlush w => s.recordFlush w
  | .registerFlush w => s.registerFlush w
  | .retire => s.event cfg .retire
  | .setTargetLayout layout => some { s with live := s.live.setTargetLayout layout }
  | .select n => s.select cfg n
  | .merge => s.merge cfg
  | .write => s.write
  | .recordSwap => s.recordSwap
  | .swap => s.swap
  | .reopen back => boot cfg (s.disk.crash back)

end Site

/-! ## The invariant -/

/-- Its files are still in their levels, the rest of the target level lies apart, and its output
files fit in between. -/
structure CompactingOk (maxLevel : Nat) (e : Engine K V Λ) (c : Compacting K V Λ) : Prop where
  le : c.level + 1 ≤ maxLevel
  sources : ∀ f ∈ c.sources, f ∈ e.level c.level
  overlapping : ∀ f ∈ c.overlapping, f ∈ e.level (c.level + 1)
  apart : ∀ r ∈ e.remaining (c.level + 1) c.overlapping,
    (∀ f ∈ c.sources ++ c.overlapping, r.lastKey < f.firstKey) ∨
      ∀ f ∈ c.sources ++ c.overlapping, f.lastKey < r.firstKey
  ordered : KeyOrdered (c.phase.outs ++ c.phase.runs)
  level_eq : ∀ o ∈ c.phase.outs ++ c.phase.runs, o.level = c.level + 1
  keys : ∀ o ∈ c.phase.outs ++ c.phase.runs, ∀ x ∈ o.entries,
    ∃ f ∈ c.sources ++ c.overlapping, f.get x.1 ≠ none
  ids : ∀ o ∈ c.phase.outs, o.id < e.nextSstId
  nodup : (c.phase.outs.map Reader.id).Nodup
  fresh : ∀ r ∈ e.level (c.level + 1), ∀ o ∈ c.phase.outs, r.id ≠ o.id

namespace CompactingOk

variable {maxLevel : Nat} {e e' : Engine K V Λ} {c : Compacting K V Λ}

theorem congr (h : CompactingOk maxLevel e c) (h0 : ∀ f ∈ e.level 0, f ∈ e'.level 0)
    (hlevel : ∀ n, n ≠ 0 → e'.level n = e.level n) (hnext : e.nextSstId ≤ e'.nextSstId) :
    CompactingOk maxLevel e' c := by
  have htarget := hlevel (c.level + 1) (Nat.succ_ne_zero _)
  have hrest : e'.remaining (c.level + 1) c.overlapping = e.remaining (c.level + 1) c.overlapping := by
    unfold Engine.remaining
    rw [htarget]
  refine ⟨h.le, fun f hf => ?_, htarget ▸ h.overlapping, hrest ▸ h.apart, h.ordered, h.level_eq,
    h.keys, fun o ho => (h.ids o ho).trans_le hnext, h.nodup, htarget ▸ h.fresh⟩
  by_cases hn : c.level = 0
  · rw [hn]
    exact h0 f (hn ▸ h.sources f hf)
  · rw [hlevel _ hn]
    exact h.sources f hf

theorem joins (h : CompactingOk maxLevel e c) :
    Engine.Joins e c.level c.overlapping c.phase.outs e.nextSstId where
  level o ho := h.level_eq o (mem_append_left _ ho)
  ids := h.ids
  nodup := h.nodup
  fresh := h.fresh
  ordered := (pairwise_append.1 h.ordered).1
  apart r hr o ho := by
    exact Engine.apart_of_keys (h.keys o (mem_append_left _ ho)) (h.apart r hr)

theorem taken (h : CompactingOk maxLevel e c) (hl : LevelsOk maxLevel e) {f : Reader K V Λ}
    (hf : f ∈ c.sources ++ c.overlapping) : f ∈ e.level f.level := by
  rcases mem_append.1 hf with hf | hf
  · rw [hl.level_eq _ f (h.sources f hf)]
    exact h.sources f hf
  · rw [hl.level_eq _ f (h.overlapping f hf)]
    exact h.overlapping f hf

theorem levels_swap (h : CompactingOk maxLevel e c) (hl : LevelsOk maxLevel e) :
    LevelsOk maxLevel (c.swap e) :=
  h.joins.levels hl h.le le_rfl

theorem mem_level_swap (h : CompactingOk maxLevel e c) (hl : LevelsOk maxLevel e) {n : Nat}
    {f : Reader K V Λ} : f ∈ (c.swap e).level n ↔
      f ∈ e.level n ∧ f ∉ c.sources ++ c.overlapping ∨ n = c.level + 1 ∧ f ∈ c.phase.outs :=
  Engine.mem_level_install hl h.sources h.overlapping

end CompactingOk

namespace Site

/-- The levels once the recorded swap is made. -/
def swapped (s : Site K V Λ) : Engine K V Λ :=
  match s.compacting with
  | some ⟨n, sources, overlapping, .recorded outs⟩ =>
    Compacting.swap ⟨n, sources, overlapping, .recorded outs⟩ s.live.engine
  | _ => s.live.engine

/-- The files the manifest should name: those of the levels, with what is recorded applied. -/
def settled (s : Site K V Λ) : Engine K V Λ :=
  { s.swapped with
    sstables := s.swapped.sstables.insert 0 (s.flushing.map Prod.snd ++ s.swapped.level 0) }

variable {s : Site K V Λ} {n : Nat} {f : Reader K V Λ}

theorem mem_level_settled : f ∈ s.settled.level n ↔
    n = 0 ∧ f ∈ s.flushing.map Prod.snd ∨ f ∈ s.swapped.level n := by
  unfold settled Engine.level
  rw [SortedMap.get_insert]
  by_cases hn : n = 0
  · subst hn
    simp
  · simp [hn]

theorem level_settled_of_ne (hn : n ≠ 0) : s.settled.level n = s.swapped.level n := by
  unfold settled Engine.level
  rw [SortedMap.get_insert, if_neg hn]

end Site

def DiskOp.OnSegments : DiskOp K V Λ → Prop
  | .createSegment _ | .appendSegment _ _ | .removeSegment _ | .syncDir => True
  | _ => False

omit [ByteSize K] [ByteSize V] in
theorem Disk.foldl_onSegments {ops : List (DiskOp K V Λ)} (h : ∀ op ∈ ops, op.OnSegments)
    (d : Disk K V Λ) :
    (ops.foldl Disk.exec d).files = d.files ∧ (ops.foldl Disk.exec d).manifest = d.manifest := by
  induction ops generalizing d with
  | nil => exact ⟨rfl, rfl⟩
  | cons op ops ih =>
    have hop : (d.exec op).files = d.files ∧ (d.exec op).manifest = d.manifest := by
      have hseg := h op mem_cons_self
      cases op with
      | removeSegment id =>
        simp only [Disk.exec]
        cases d.segments.get id <;> exact ⟨rfl, rfl⟩
      | createSegment _ | appendSegment _ _ | syncDir => exact ⟨rfl, rfl⟩
      | manifest _ | writeFile _ | removeFile _ => exact hseg.elim
    obtain ⟨hfiles, hman⟩ := ih (fun op hop => h op (.tail _ hop)) (d.exec op)
    exact ⟨hfiles.trans hop.1, hman.trans hop.2⟩

theorem FilesOk.congr {files : List (Reader K V Λ)} {m : Manifest} {e e' : Engine K V Λ}
    (h : FilesOk files m e) (hlevel : ∀ n f, f ∈ e'.level n ↔ f ∈ e.level n) :
    FilesOk files m e' :=
  ⟨h.names, h.present, fun n f => (hlevel n f).trans (h.live n f)⟩

omit [ByteSize K] [ByteSize V] in
theorem onSegments_segmentOps (segments : SortedMap Nat (Segment K V)) :
    ∀ op ∈ (segmentOps segments : List (DiskOp K V Λ)), op.OnSegments := by
  intro op hop
  unfold segmentOps at hop
  simp only [List.mem_append, List.mem_map, List.mem_cons, List.not_mem_nil, or_false] at hop
  rcases hop with (⟨x, -, rfl⟩ | hop) | rfl | rfl
  · trivial
  · split at hop
    · cases hop
    · rw [mem_singleton.1 hop]
      trivial
  · trivial
  · trivial

theorem FilesOk.headOps {d : Disk K V Λ} {m : Manifest} {e : Engine K V Λ} (h : FilesOk d.files m e)
    (ops : List (SnapshotOp Manifest ManifestEdit)) :
    ∃ files, (headOps d ops m).foldl Disk.exec d = { d with
      manifest := ops.foldl SnapshotDir.exec d.manifest, files } ∧ FilesOk files m e := by
  have horphans : ∀ p ∈ (d.files.filter fun f => f.name ∉ m).map Reader.name, p ∉ m := fun p hp => by
    obtain ⟨f, hf, rfl⟩ := mem_map.1 hp
    exact of_decide_eq_true (mem_filter.1 hf).2
  obtain ⟨files, hdisk, hfiles⟩ := FilesOk.removeFiles (d := { d with
    manifest := ops.foldl SnapshotDir.exec d.manifest }) h horphans
  refine ⟨files, ?_, hfiles⟩
  rw [Storage.headOps, List.foldl_append, Disk.foldl_manifest, ← hdisk, List.map_map]
  rfl

/-- **The invariant.** -/
structure SiteOk (maxLevel : Nat) (s : Site K V Λ) : Prop where
  shaped : Shaped maxLevel s.live.engine.targetLayout s.live.engine
  flushing : ∀ x ∈ s.flushing, x.2.level = 0 ∧ ∃ i ∈ s.live.engine.immutable,
    i.walId = x.1 ∧ i.flush = .inFlight ∧ x.2.id = i.sstId
  distinct : (s.flushing.map Prod.fst).Nodup
  compacting : ∀ c ∈ s.compacting, CompactingOk maxLevel s.live.engine c
  written : ∀ c ∈ s.compacting, ∀ o ∈ c.phase.outs, o ∈ s.disk.files
  held : s.disk.manifest.Held s.live.manifest
  files : FilesOk s.disk.files s.live.manifest.state s.settled

namespace SiteOk

variable {maxLevel : Nat} {cfg : Config K V Λ} {s s' : Site K V Λ}

theorem levels_swapped (h : SiteOk maxLevel s) : LevelsOk maxLevel s.swapped := by
  unfold Site.swapped
  split
  · next hc => exact (h.compacting _ hc).levels_swap h.shaped.levels
  · exact h.shaped.levels

theorem mem_swapped_zero (h : SiteOk maxLevel s) {f : Reader K V Λ} (hf : f ∈ s.swapped.level 0) :
    f ∈ s.live.engine.level 0 := by
  unfold Site.swapped at hf
  split at hf
  · next hc =>
    rcases ((h.compacting _ hc).mem_level_swap h.shaped.levels).1 hf with hf | hf
    · exact hf.1
    · exact absurd hf.1 (Nat.succ_ne_zero _).symm
  · exact hf

theorem fresh_of_flushing (h : SiteOk maxLevel s) {x : Nat × Reader K V Λ} (hx : x ∈ s.flushing) :
    ∀ f ∈ s.live.engine.level 0, f.id ≠ x.2.id := by
  obtain ⟨-, i, hi, -, hfl, hid⟩ := h.flushing x hx
  rw [hid]
  exact h.shaped.fresh_id hi (by rw [hfl]; nofun)

theorem name_notMem (h : SiteOk maxLevel s) {i : ImmMemtable K V}
    (hi : i ∈ s.live.engine.immutable) (hfl : i.flush = .inFlight)
    (hw : i.walId ∉ s.flushing.map Prod.fst) : (0, i.sstId) ∉ s.live.manifest.state := by
  intro hmem
  obtain ⟨g, hg, hname⟩ := h.files.present _ hmem
  have hlevel : g.level = 0 := congrArg Prod.fst hname
  have hid : g.id = i.sstId := congrArg Prod.snd hname
  rcases Site.mem_level_settled.1 ((h.files.live 0 g).2 ⟨hg, hname ▸ hmem, hlevel⟩) with
    ⟨-, hflush⟩ | hold
  · obtain ⟨x, hx, rfl⟩ := mem_map.1 hflush
    obtain ⟨-, j, hj, hjw, -, hjid⟩ := h.flushing x hx
    have hij := h.shaped.queue.eq_of_sstId hi hj (hid.symm.trans hjid)
    exact hw (hij ▸ hjw ▸ mem_map_of_mem hx)
  · exact h.shaped.fresh_id hi (by rw [hfl]; nofun) g (h.mem_swapped_zero hold) hid

end SiteOk

end Dtdb.Storage
