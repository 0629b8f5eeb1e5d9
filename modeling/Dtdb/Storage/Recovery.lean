import Mathlib.Data.List.TakeWhile
import Dtdb.Storage.Disk
import Dtdb.Storage.FlushSteps

/-! # What an open finds

`Stored` ties a directory to the engine an open would build from it.  Each operation of an open
keeps it, and the last leaves the directory in step with the engine the open returns. -/

namespace Dtdb.Storage

open Dtdb.Lib List Option

variable {K V Λ : Type} [LinearOrder K]

/-! ## Replay -/

def Segment.writes (seg : Segment K V) : List (Mutation K V) := seg.flatMap WalEntry.mutations

/-- Recovery accepts every frame, and no batch is nested. -/
def SegmentOk (cfg : Config K V Λ) (seg : Segment K V) : Prop :=
  ∀ b ∈ seg, cfg.fits b = true ∧ WalEntry.Flat b

def walWrites (segs : List (Nat × Segment K V)) : List (Mutation K V) :=
  segs.flatMap fun x => x.2.writes

theorem lastWrite_walWrites (segs : List (Nat × Segment K V)) (k : K) :
    lastWrite (walWrites segs) k = segs.reverse.findSome? fun x => lastWrite x.2.writes k := by
  induction segs with
  | nil => rfl
  | cons x segs ih =>
    rw [walWrites, flatMap_cons, lastWrite_append, ← walWrites, ih, reverse_cons,
      findSome?_append, findSome?_singleton]

theorem lastWrite_of_suffix {l r : List (Nat × Segment K V)} (h : l <:+ r) {k : K} {s : Option V}
    (hl : lastWrite (walWrites l) k = some s) : lastWrite (walWrites r) k = some s := by
  obtain ⟨pre, rfl⟩ := h
  rw [walWrites, flatMap_append, lastWrite_append]
  rw [show lastWrite (l.flatMap fun x => x.2.writes) k = some s from hl]
  rfl

variable {segments : SortedMap Nat (Segment K V)}

section

variable [ByteSize K] [ByteSize V]

theorem get_foldl_frames {cfg : Config K V Λ} {seg : Segment K V} (h : SegmentOk cfg seg)
    (m : MemTable K V) (k : K) :
    (seg.foldl (fun m batch => m.applyEntryRecursive (.batch batch)) m).get k
      = (lastWrite seg.writes k).or (m.get k) := by
  induction seg generalizing m with
  | nil => rfl
  | cons b seg ih =>
    have hflat : WalEntry.flatten (.batch b) = WalEntry.mutations b := by
      exact WalEntry.Flat.flattenAll_eq (h b mem_cons_self).2
    rw [foldl_cons, ih (fun b hb => h b (.tail _ hb)), MemTable.get_applyEntryRecursive, hflat,
      ← Option.or_assoc, ← lastWrite_append]
    rfl

theorem replay_get {cfg : Config K V Λ} (h : ∀ x ∈ segments.entries, SegmentOk cfg x.2) (k : K) :
    (replay cfg segments).get k = lastWrite (walWrites segments.entries) k := by
  suffices ∀ (l : List (Nat × Segment K V)) (m : MemTable K V), (∀ x ∈ l, SegmentOk cfg x.2) →
      (l.foldl (fun m x => (recoverFrames cfg x.2).foldl
        (fun m batch => m.applyEntryRecursive (.batch batch)) m) m).get k
        = (lastWrite (walWrites l) k).or (m.get k) by
    rw [replay, this _ _ h, MemTable.get_new, or_none]
  intro l
  induction l with
  | nil => exact fun _ _ => rfl
  | cons x l ih =>
    intro m hl
    have hx := hl x mem_cons_self
    rw [foldl_cons, ih _ (fun y hy => hl y (.tail _ hy)),
      show recoverFrames cfg x.2 = x.2 from takeWhile_eq_self_iff.2 fun b hb => (hx b hb).1,
      get_foldl_frames hx, ← Option.or_assoc, ← lastWrite_append]
    rfl

end

/-! ## Discovered levels -/

theorem discover_get (live : List (Reader K V Λ)) (n : Nat) :
    (discover live).get n = if live.any (fun f => f.level = n)
      then some (sortLevel n (live.filter fun f => f.level = n)) else none := by
  suffices ∀ (l : List (Reader K V Λ)) (m : SortedMap Nat (List (Reader K V Λ))),
      (l.foldl (fun m f => m.insert f.level (sortLevel f.level
        (live.filter fun g => g.level = f.level))) m).get n = if l.any (fun f => f.level = n)
        then some (sortLevel n (live.filter fun f => f.level = n)) else m.get n from
    this live .empty
  intro l
  induction l with
  | nil => exact fun _ => rfl
  | cons f l ih =>
    intro m
    rw [foldl_cons, ih, SortedMap.get_insert]
    by_cases hf : f.level = n
    · subst hf
      simp
    · simp [hf, Ne.symm hf]

theorem discover_level (live : List (Reader K V Λ)) (n : Nat) :
    ((discover live).get n).getD [] = sortLevel n (live.filter fun f => f.level = n) := by
  rw [discover_get]
  split
  · rfl
  · next h =>
    have : live.filter (fun f => decide (f.level = n)) = [] := by
      simpa [filter_eq_nil_iff] using h
    rw [this]
    unfold sortLevel
    split <;> rfl

variable [ByteSize K] [ByteSize V]

theorem sortLevel_eq {maxLevel n : Nat} {e : Engine K V Λ} (h : LevelsOk maxLevel e)
    {l : List (Reader K V Λ)} (hperm : l.Perm (e.level n)) : sortLevel n l = e.level n := by
  unfold sortLevel
  split
  · next hn =>
    subst hn
    have hp := (perm_insertionSort (fun a b : Reader K V Λ => b.id ≤ a.id) l).trans hperm
    refine hp.eq_of_pairwise (fun a b ha hb hab hba => ?_) (pairwise_insertionSort _ l)
      (h.newestFirst.imp fun hab => hab.le)
    exact inj_on_of_nodup_map (h.nodup 0) (hp.mem_iff.1 ha) hb (le_antisymm hba hab)
  · next hn =>
    have hord := h.keyOrdered n (Nat.pos_of_ne_zero hn)
    have hp := (perm_insertionSort
      (fun a b : Reader K V Λ => a.firstKey ≤ b.firstKey) l).trans hperm
    refine hp.eq_of_pairwise (fun a b ha hb hab hba => ?_) (pairwise_insertionSort _ l)
      (hord.imp fun {a b} hab => a.firstKey_le_lastKey.trans hab.le)
    have hk := le_antisymm hab hba
    exact hord.eq_of_range (hp.mem_iff.1 ha) hb ⟨le_rfl, a.firstKey_le_lastKey⟩
      ⟨hk.ge, hk.le.trans b.firstKey_le_lastKey⟩

/-! ## The files an active set names -/

/-- The levels of `e` are the files on disk that the active set names. -/
structure FilesOk (files : List (Reader K V Λ)) (m : Manifest) (e : Engine K V Λ) : Prop where
  names : (files.map Reader.name).Nodup
  present : ∀ p ∈ m, ∃ f ∈ files, f.name = p
  live : ∀ n f, f ∈ e.level n ↔ f ∈ files ∧ f.name ∈ m ∧ f.level = n

namespace FilesOk

variable {files : List (Reader K V Λ)} {m : Manifest} {e e' : Engine K V Λ} {f : Reader K V Λ}

theorem eq_of_name (h : FilesOk files m e) {g : Reader K V Λ} (hf : f ∈ files) (hg : g ∈ files)
    (hn : f.name = g.name) : f = g :=
  inj_on_of_nodup_map h.names hf hg hn

theorem removeFile (h : FilesOk files m e) {name : Nat × Nat} (hn : name ∉ m) :
    FilesOk (files.filter fun g => g.name ≠ name) m e where
  names := h.names.sublist (filter_sublist.map _)
  present p hp := by
    obtain ⟨f, hf, rfl⟩ := h.present p hp
    refine ⟨f, mem_filter.2 ⟨hf, ?_⟩, rfl⟩
    simpa using fun heq : f.name = name => hn (heq ▸ hp)
  live n f := by
    rw [h.live, mem_filter]
    constructor
    · rintro ⟨hf, hm, hl⟩
      exact ⟨⟨hf, by simpa using fun heq : f.name = name => hn (heq ▸ hm)⟩, hm, hl⟩
    · rintro ⟨⟨hf, -⟩, hm, hl⟩
      exact ⟨hf, hm, hl⟩

theorem writeFile (h : FilesOk files m e) (hf : f.name ∉ m) :
    FilesOk (f :: files.filter fun g => g.name ≠ f.name) m e := by
  have hr := h.removeFile hf
  refine ⟨?_, fun p hp => ?_, fun n g => ?_⟩
  · rw [map_cons, nodup_cons]
    refine ⟨fun hmem => ?_, hr.names⟩
    obtain ⟨g, hg, hgn⟩ := mem_map.1 hmem
    simpa [hgn] using (mem_filter.1 hg).2
  · obtain ⟨g, hg, hgp⟩ := hr.present p hp
    exact ⟨g, .tail _ hg, hgp⟩
  · rw [hr.live]
    constructor
    · rintro ⟨hg, hm, hl⟩
      exact ⟨.tail _ hg, hm, hl⟩
    · rintro ⟨hg, hm, hl⟩
      rcases mem_cons.1 hg with rfl | hg
      · exact absurd hm hf
      · exact ⟨hg, hm, hl⟩

theorem register (h : FilesOk files m e) (hf : f ∈ files)
    (hl : ∀ n g, g ∈ e'.level n ↔ g = f ∧ f.level = n ∨ g ∈ e.level n) :
    FilesOk files (insert f.name m) e' where
  names := h.names
  present p hp := by
    rcases Finset.mem_insert.1 hp with rfl | hp
    · exact ⟨f, hf, rfl⟩
    · exact h.present p hp
  live n g := by
    rw [hl, h.live, Finset.mem_insert]
    constructor
    · rintro (⟨rfl, hn⟩ | ⟨hg, hm, hn⟩)
      · exact ⟨hf, .inl rfl, hn⟩
      · exact ⟨hg, .inr hm, hn⟩
    · rintro ⟨hg, hname | hm, hn⟩
      · obtain rfl := h.eq_of_name hg hf hname
        exact .inl ⟨rfl, hn⟩
      · exact .inr ⟨hg, hm, hn⟩

end FilesOk

/-- A slot of the memtables over the SSTables' answer. -/
def Meaning.over {cfg : Config K V Λ} {T : Option Λ} {A : Type} (M : Meaning cfg T A)
    (s : Option (Option V)) (h : Option (Hit V Λ)) : Option A :=
  match s with
  | some s => M.slot T s
  | none => M.hit h

/-- The directory names the active set `m`, whose files are the levels of `e`; the segments' writes
over them mean `spec`. -/
structure Stored {cfg : Config K V Λ} {T : Option Λ} {A : Type} (M : Meaning cfg T A)
    (d : Disk K V Λ) (m : Manifest) (e : Engine K V Λ) (spec : K → Option A) : Prop where
  manifest : d.manifest.Sound m
  unnamed : d.manifest.current = none → d.files = []
  files : FilesOk d.files m e
  levels : LevelsOk cfg.options.maxLevel e
  segments : ∀ x ∈ d.segments.entries, SegmentOk cfg x.2
  view : ∀ k, M.over (lastWrite (walWrites d.segments.entries) k) (e.probe k) = spec k

section

variable {cfg : Config K V Λ} {T : Option Λ} {A : Type} {M : Meaning cfg T A}
variable {d : Disk K V Λ} {m : Manifest} {e : Engine K V Λ} {spec : K → Option A}

theorem Stored.empty {M : Meaning cfg none A} :
    Stored M (.empty : Disk K V Λ) ∅ .fresh fun _ => none where
  manifest := .empty
  unnamed _ := rfl
  files := ⟨.nil, nofun, fun _ _ => ⟨nofun, nofun⟩⟩
  levels := (FlushInv.fresh M).levels
  segments := nofun
  view _ := rfl

/-- Whatever a crash leaves of the directory, it still means `spec`. -/
def Recoverable (M : Meaning cfg T A) (spec : K → Option A) (d : Disk K V Λ) : Prop :=
  ∀ back, d.CrashOk back → ∃ m e, Stored M (d.crash back) m e spec

theorem Stored.recoverable (h : Stored M d m e spec) (hs : d.unsynced = []) :
    Recoverable M spec d := fun back _ => ⟨m, e, by rw [Disk.crash_of_synced hs]; exact h⟩

theorem Stored.setManifest (h : Stored M d m e spec) {dir : SnapshotDir Manifest ManifestEdit}
    (hm : dir.Sound m) (hc : dir.current = none → d.manifest.current = none) :
    Stored M { d with manifest := dir } m e spec :=
  ⟨hm, fun hn => h.unnamed (hc hn), h.files, h.levels, h.segments, h.view⟩

theorem Stored.removeFile (h : Stored M d m e spec) {name : Nat × Nat} (hn : name ∉ m) :
    Stored M (d.exec (.removeFile name)) m e spec :=
  ⟨h.manifest, fun hc => by
    show d.files.filter _ = []
    rw [h.unnamed hc]
    rfl, h.files.removeFile hn, h.levels, h.segments, h.view⟩

theorem Stored.writeFile (h : Stored M d m e spec) {f : Reader K V Λ} (hf : f.name ∉ m)
    (hc : d.manifest.current ≠ none) : Stored M (d.exec (.writeFile f)) m e spec :=
  ⟨h.manifest, fun hn => absurd hn hc, h.files.writeFile hf, h.levels, h.segments, h.view⟩

theorem Stored.register (h : Stored M d m e spec) {f : Reader K V Λ} {e' : Engine K V Λ}
    {dir : SnapshotDir Manifest ManifestEdit} (hf : f ∈ d.files)
    (hs : e'.sstables = e.sstables.insert 0 (insertL0Sorted (e.level 0) f))
    (hl : LevelsOk cfg.options.maxLevel e') (hf0 : f.level = 0)
    (hlog : ∀ k, lastWrite (walWrites d.segments.entries) k = none → f.get k = none)
    (hm : dir.Sound (insert f.name m)) (hc : dir.current ≠ none) :
    Stored M { d with manifest := dir } (insert f.name m) e' spec where
  manifest := hm
  unnamed hn := absurd hn hc
  files := by
    refine h.files.register hf fun n g => ?_
    by_cases hn : n = 0
    · subst hn
      rw [Engine.level_zero_of_insert hs, mem_insertL0Sorted h.levels.newestFirst]
      simp [hf0]
    · rw [Engine.level_of_insert hs hn]
      simp [hf0, Ne.symm hn]
  levels := hl
  segments := h.segments
  view k := by
    rw [← h.view k]
    cases hk : lastWrite (walWrites d.segments.entries) k with
    | some s => rfl
    | none =>
      rw [h.levels.probe_insertFile hl hs (hlog k hk)]

/-! ## Dropping the segments -/

theorem Stored.suffix (h : Stored M d m e spec) (hcov : ∀ k, M.hit (e.probe k) = spec k)
    (hsuf : segments.entries <:+ d.segments.entries) {unsynced : List (Nat × Segment K V)} :
    Stored M { d with segments, unsynced } m e spec where
  manifest := h.manifest
  unnamed := h.unnamed
  files := h.files
  levels := h.levels
  segments x hx := h.segments x (hsuf.subset hx)
  view k := by
    cases hk : lastWrite (walWrites segments.entries) k with
    | none => exact hcov k
    | some s =>
      rw [← h.view k, lastWrite_of_suffix hsuf hk]

theorem Stored.removing (h : Stored M d m e spec) (hcov : ∀ k, M.hit (e.probe k) = spec k)
    {removed kept : List (Nat × Segment K V)} (heq : d.segments.entries = removed ++ kept)
    (hs : segments.entries = kept) :
    Recoverable M spec { d with segments, unsynced := removed.reverse } := by
  intro back hok
  refine ⟨m, e, h.suffix hcov ?_⟩
  rw [heq]
  refine SortedMap.suffix_of_putBack hs (heq ▸ d.segments.ascending) fun x hx => ?_
  exact hok x (mem_reverse.2 hx)

theorem Stored.removeSegments (h : Stored M d m e spec) (hcov : ∀ k, M.hit (e.probe k) = spec k)
    {removed kept : List (Nat × Segment K V)} (heq : d.segments.entries = removed ++ kept)
    (hs : segments.entries = kept) :
    Throughout Disk.exec (Recoverable M spec) (kept.map fun x => .removeSegment x.1)
      { d with segments, unsynced := removed.reverse } ∧
    (kept.map fun x => (DiskOp.removeSegment x.1 : DiskOp K V Λ)).foldl Disk.exec
      { d with segments, unsynced := removed.reverse }
      = { d with segments := .empty, unsynced := d.segments.entries.reverse } := by
  have hrec := h.removing hcov heq hs
  induction kept generalizing removed segments with
  | nil =>
    refine ⟨hrec, ?_⟩
    have : segments = .empty := by
      cases segments
      cases hs
      rfl
    rw [this, heq, append_nil]
    rfl
  | cons x kept ih =>
    have hget : segments.get x.1 = some x.2 := by
      rw [SortedMap.get, hs, lookup_cons_eq_ite, if_pos rfl]
    have hexec : ({ d with segments, unsynced := removed.reverse } : Disk K V Λ).exec
        (.removeSegment x.1)
        = { d with segments := segments.erase x.1, unsynced := (removed ++ [x]).reverse } := by
      simp only [Disk.exec, hget, reverse_append, reverse_singleton, singleton_append]
    have hers : (segments.erase x.1).entries = kept := by
      show segments.entries.filter _ = kept
      have hasc := segments.ascending
      rw [hs] at hasc ⊢
      rw [filter_cons_of_neg (by simp), filter_eq_self]
      intro y hy
      simpa using (ne_of_lt ((ascending_cons.1 hasc).1 y hy)).symm
    have heq' : d.segments.entries = (removed ++ [x]) ++ kept := by
      rw [heq, append_assoc]
      rfl
    obtain ⟨h₁, h₂⟩ := ih heq' hers (h.removing hcov heq' hers)
    refine ⟨⟨hrec, ?_⟩, ?_⟩
    · rw [hexec]
      exact h₁
    · rw [map_cons, foldl_cons, hexec]
      exact h₂

/-- Once the SSTables alone mean `spec`, an empty segment takes the old ones' place. -/
theorem Stored.segmentOps (h : Stored M d m e spec) (hcov : ∀ k, M.hit (e.probe k) = spec k)
    (hsync : d.unsynced = []) :
    Throughout Disk.exec (Recoverable M spec) (segmentOps d.segments) d ∧
      ∃ d', (segmentOps d.segments).foldl Disk.exec d = d' ∧ Stored M d' m e spec ∧
        d'.manifest = d.manifest ∧
        d'.segments = SortedMap.empty.insert (nextSegment d.segments) [] ∧ d'.unsynced = [] := by
  obtain ⟨dir, files, segments, _⟩ := d
  cases hsync
  obtain ⟨h₁, h₂⟩ := h.removeSegments hcov (nil_append _).symm rfl
  have hempty : Stored M ⟨dir, files, .empty, []⟩ m e spec := h.suffix hcov nil_suffix
  have hsegs : ∀ x ∈ (SortedMap.empty.insert (nextSegment segments) ([] : Segment K V)).entries,
      SegmentOk cfg x.2 := fun x hx => by
    rcases mem_insertSorted hx with rfl | hx
    · exact nofun
    · exact absurd hx not_mem_nil
  have hfresh : Stored M ⟨dir, files, SortedMap.empty.insert (nextSegment segments) [], []⟩ m e
      spec := ⟨h.manifest, h.unnamed, h.files, h.levels, hsegs, hcov⟩
  have htail : Throughout Disk.exec (Recoverable M spec)
      [.createSegment (nextSegment segments), .syncDir] ⟨dir, files, .empty, []⟩ :=
    ⟨hempty.recoverable rfl, hfresh.recoverable rfl, hfresh.recoverable rfl⟩
  unfold Storage.segmentOps
  by_cases hnil : segments.isEmpty = true
  · rw [if_pos hnil]
    obtain ⟨_, _⟩ := segments
    cases SortedMap.isEmpty_iff.1 hnil
    exact ⟨htail, _, rfl, hfresh, rfl, rfl, rfl⟩
  · rw [if_neg hnil]
    refine ⟨(h₁.append ?_).append ?_, _, ?_, hfresh, rfl, rfl, rfl⟩
    · rw [h₂]
      exact ⟨h₂ ▸ h₁.last, hempty.recoverable rfl⟩
    · rw [foldl_append, h₂]
      exact htail
    · rw [foldl_append, foldl_append]
      exact congrArg (fun d => Disk.exec (Disk.exec (Disk.exec d .syncDir) (.createSegment _))
        .syncDir) h₂

end

end Dtdb.Storage
