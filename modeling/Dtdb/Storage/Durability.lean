import Dtdb.Storage.Reopen

/-! # The running engine keeps its directory in step

Every step of a running engine leaves `Running` behind: a commit is in its segment, a flush and a
compaction are in the manifest, and a segment goes only with its retired memtable. -/

namespace Dtdb.Storage

open Dtdb.Lib List Option

variable {K V Λ : Type} [LinearOrder K] [ByteSize K] [ByteSize V]
variable {cfg : Config K V Λ} {T : Option Λ} {A : Type} {M : Meaning cfg T A}
variable {d : Disk K V Λ} {u : Live K V Λ} {e e' : Engine K V Λ}

/-! ## Segments -/

theorem Logs.append {seg : Segment K V} {t : MemTable K V} (h : Logs cfg seg t)
    {es : List (WalEntry K V)} (hflat : WalEntry.Flat es) (hfits : cfg.fits es = true) :
    Logs cfg (seg ++ [es]) (t.applyDrain es) where
  ok b hb := by
    rcases mem_append.1 hb with hb | hb
    · exact h.ok b hb
    · rw [mem_singleton.1 hb]
      exact ⟨hfits, hflat⟩
  writes k := by
    have hsnoc : (show Segment K V from seg ++ [es]).writes
        = seg.writes ++ WalEntry.mutations es := by
      simp [Segment.writes]
    rw [hsnoc, lastWrite_append, h.writes, MemTable.get_applyDrain]

namespace SegmentsOk

variable {segments : SortedMap Nat (Segment K V)}

theorem commit (h : SegmentsOk cfg segments e) (hq : QueueOk e) {es : List (WalEntry K V)}
    (hflat : WalEntry.Flat es) (hfits : cfg.fits es = true) :
    SegmentsOk cfg (segments.insert e.activeWalId
      ((segments.get e.activeWalId).getD [] ++ [es])) (e.commit cfg es) where
  active := by
    obtain ⟨seg, hseg, hlog⟩ := h.active
    refine ⟨seg ++ [es], ?_, hlog.append hflat hfits⟩
    rw [hseg]
    exact SortedMap.get_insert_self ..
  queued i hi := by
    obtain ⟨seg, hseg, hlog⟩ := h.queued i hi
    refine ⟨seg, ?_, hlog⟩
    rw [SortedMap.get_insert_of_ne _ _ (ne_of_lt (hq.walIds i hi))]
    exact hseg
  only w seg hw := by
    rw [SortedMap.get_insert] at hw
    split at hw
    · next hwa => exact .inl hwa
    · exact h.only w seg hw

theorem get_next (h : SegmentsOk cfg segments e) (hq : QueueOk e) :
    segments.get e.nextWalId = none := by
  cases hg : segments.get e.nextWalId with
  | none => rfl
  | some seg =>
    have hnext := hq.walNext
    rcases h.only _ seg hg with hw | ⟨i, hi, hw⟩
    · omega
    · have := hq.walIds i hi
      omega

theorem sealActive (h : SegmentsOk cfg segments e) (hq : QueueOk e) (hne : e.active.isEmpty = false) :
    SegmentsOk cfg (segments.insert e.nextWalId ((segments.get e.nextWalId).getD []))
      e.sealActive := by
  rw [h.get_next hq]
  unfold Engine.sealActive
  rw [dif_pos hne]
  have hold : ∀ {w seg}, segments.get w = some seg →
      (segments.insert e.nextWalId ([] : Segment K V)).get w = some seg := fun {w seg} hw => by
    rwa [SortedMap.get_insert_of_ne]
    rintro rfl
    rw [h.get_next hq] at hw
    cases hw
  refine ⟨⟨[], SortedMap.get_insert_self .., nofun, fun k => rfl⟩, fun i hi => ?_,
    fun w seg hw => ?_⟩
  · rcases mem_cons.1 hi with rfl | hi
    · obtain ⟨seg, hseg, hlog⟩ := h.active
      exact ⟨seg, hold hseg, hlog⟩
    · obtain ⟨seg, hseg, hlog⟩ := h.queued i hi
      exact ⟨seg, hold hseg, hlog⟩
  · rw [SortedMap.get_insert] at hw
    split at hw
    · next heq => exact .inl heq
    · rcases h.only w seg hw with rfl | ⟨i, hi, rfl⟩
      · exact .inr ⟨_, mem_cons_self, rfl⟩
      · exact .inr ⟨i, .tail _ hi, rfl⟩

theorem setSlot (h : SegmentsOk cfg segments e) {w : Nat} {s : SlotState}
    (hact : e'.active = e.active) (hwal : e'.activeWalId = e.activeWalId)
    (himm : e'.immutable = Engine.setSlot e.immutable w s) : SegmentsOk cfg segments e' where
  active := by
    rw [hact, hwal]
    exact h.active
  queued i hi := by
    rw [himm] at hi
    rcases Engine.mem_setSlot.1 hi with ⟨j, hj, -, rfl⟩ | ⟨hi, -⟩
    · exact h.queued j hj
    · exact h.queued i hi
  only w' seg hw' := by
    rw [hwal, himm]
    refine (h.only w' seg hw').imp_right fun ⟨i, hi, hiw⟩ => ?_
    by_cases hw : i.walId = w
    · exact ⟨_, Engine.mem_setSlot.2 (.inl ⟨i, hi, hw, rfl⟩), hiw⟩
    · exact ⟨i, Engine.mem_setSlot.2 (.inr ⟨hi, hw⟩), hiw⟩

theorem retire (h : SegmentsOk cfg segments e) (hq : QueueOk e) {q : List (ImmMemtable K V)}
    {o : ImmMemtable K V} (himm : e.immutable = q ++ [o]) (hact : e'.active = e.active)
    (hwal : e'.activeWalId = e.activeWalId) (himm' : e'.immutable = q) :
    SegmentsOk cfg (segments.erase o.walId) e' := by
  have ho : o ∈ e.immutable := by rw [himm]; simp
  have hsub : ∀ i ∈ q, i ∈ e.immutable := fun i hi => by rw [himm]; simp [hi]
  have hwo := hq.walOrder
  rw [himm] at hwo
  have hlt : ∀ i ∈ q, o.walId < i.walId := fun i hi =>
    (pairwise_append.1 hwo).2.2 i hi o (mem_singleton_self o)
  refine ⟨?_, fun i hi => ?_, fun w seg hw => ?_⟩
  · rw [hact, hwal, SortedMap.get_erase, if_neg (ne_of_gt (hq.walIds o ho))]
    exact h.active
  · rw [himm'] at hi
    rw [SortedMap.get_erase, if_neg (ne_of_gt (hlt i hi))]
    exact h.queued i (hsub i hi)
  · rw [SortedMap.get_erase] at hw
    obtain ⟨hne, hw⟩ := ite_none_left_eq_some.1 hw
    rw [hwal, himm']
    refine (h.only w seg hw).imp_right fun ⟨i, hi, hiw⟩ => ⟨i, ?_, hiw⟩
    rw [himm] at hi
    rcases mem_append.1 hi with hi | hi
    · exact hi
    · exact absurd (mem_singleton.1 hi ▸ hiw.symm) hne

end SegmentsOk

/-! ## Files -/

omit [ByteSize K] [ByteSize V] in
theorem mem_removeSstables (m : Manifest) (files : List (Reader K V Λ)) (p : Nat × Nat) :
    p ∈ (files.map fun f => ManifestEdit.removeSstable f.level f.id).foldl Snapshotable.apply m ↔
      p ∈ m ∧ p ∉ files.map Reader.name := by
  induction files generalizing m with
  | nil => simp
  | cons f files ih =>
    rw [map_cons, foldl_cons, ih]
    show p ∈ m.erase f.name ∧ _ ↔ _
    rw [Finset.mem_erase, map_cons, mem_cons]
    tauto

omit [ByteSize K] [ByteSize V] in
theorem mem_addSstables (m : Manifest) (files : List (Reader K V Λ)) (p : Nat × Nat) :
    p ∈ (files.map fun f => ManifestEdit.addSstable f.level f.id).foldl Snapshotable.apply m ↔
      p ∈ m ∨ p ∈ files.map Reader.name := by
  induction files generalizing m with
  | nil => simp
  | cons f files ih =>
    rw [map_cons, foldl_cons, ih]
    show p ∈ insert f.name m ∨ _ ↔ _
    rw [Finset.mem_insert, map_cons, mem_cons]
    tauto

omit [ByteSize K] [ByteSize V] in
theorem Compaction.mem_edits (c : Compaction K V Λ) (m : Manifest) (p : Nat × Nat) :
    p ∈ c.edits.foldl Snapshotable.apply m ↔
      p ∈ m ∧ p ∉ (c.sources ++ c.overlapping).map Reader.name ∨ p ∈ c.outs.map Reader.name := by
  rw [edits, foldl_append, mem_addSstables, mem_removeSstables]

namespace FilesOk

variable {m : Manifest}

theorem of_sstables {files : List (Reader K V Λ)} (h : FilesOk files m e)
    (hs : e'.sstables = e.sstables) : FilesOk files m e' := by
  refine ⟨h.names, h.present, fun n f => ?_⟩
  rw [Engine.level, hs]
  exact h.live n f

theorem writeFiles (h : FilesOk d.files m e) {outs : List (Reader K V Λ)}
    (hout : ∀ f ∈ outs, f.name ∉ m) (hnodup : (outs.map Reader.name).Nodup) :
    ∃ files, (outs.map DiskOp.writeFile).foldl Disk.exec d = { d with files } ∧
      FilesOk files m e ∧ (∀ f ∈ outs, f ∈ files) ∧
      ∀ g ∈ d.files, g.name ∉ outs.map Reader.name → g ∈ files := by
  induction outs generalizing d with
  | nil => exact ⟨d.files, rfl, h, nofun, fun g hg _ => hg⟩
  | cons f outs ih =>
    rw [map_cons, nodup_cons] at hnodup
    obtain ⟨files, hfiles, hok, hin, hkeep⟩ := ih (d := d.exec (.writeFile f))
      (h.writeFile (hout f mem_cons_self)) (fun g hg => hout g (.tail _ hg)) hnodup.2
    refine ⟨files, hfiles, hok, fun g hg => ?_, fun g hg hgn => ?_⟩
    · rcases mem_cons.1 hg with rfl | hg
      · exact hkeep g mem_cons_self hnodup.1
      · exact hin g hg
    · rw [map_cons, mem_cons, not_or] at hgn
      exact hkeep g (.tail _ (mem_filter.2 ⟨hg, by simpa using hgn.1⟩)) hgn.2

theorem swap {files : List (Reader K V Λ)} {m' : Manifest} (h : FilesOk files m e)
    {taken outs : List (Reader K V Λ)} (hin : ∀ f ∈ outs, f ∈ files) (htaken : ∀ f ∈ taken, f ∈ files)
    (hm : ∀ p, p ∈ m' ↔ p ∈ m ∧ p ∉ taken.map Reader.name ∨ p ∈ outs.map Reader.name)
    (hl : ∀ n f, f ∈ e'.level n ↔ f ∈ e.level n ∧ f ∉ taken ∨ f ∈ outs ∧ f.level = n) :
    FilesOk files m' e' := by
  have hname : ∀ {l : List (Reader K V Λ)} {f}, (∀ g ∈ l, g ∈ files) → f ∈ files →
      (f.name ∈ l.map Reader.name ↔ f ∈ l) := fun {l f} hsub hf => by
    constructor
    · intro hmem
      obtain ⟨g, hg, hgn⟩ := mem_map.1 hmem
      rwa [← h.eq_of_name (hsub g hg) hf hgn]
    · exact mem_map_of_mem
  refine ⟨h.names, fun p hp => ?_, fun n f => ?_⟩
  · rcases (hm p).1 hp with ⟨hp, -⟩ | hp
    · exact h.present p hp
    · obtain ⟨f, hf, rfl⟩ := mem_map.1 hp
      exact ⟨f, hin f hf, rfl⟩
  · rw [hl, h.live, hm]
    constructor
    · rintro (⟨⟨hf, hfm, hn⟩, hft⟩ | ⟨hf, hn⟩)
      · exact ⟨hf, .inl ⟨hfm, (hname htaken hf).not.2 hft⟩, hn⟩
      · exact ⟨hin f hf, .inr (mem_map_of_mem hf), hn⟩
    · rintro ⟨hf, ⟨hfm, hft⟩ | hout, hn⟩
      · exact .inl ⟨⟨hf, hfm, hn⟩, (hname htaken hf).not.1 hft⟩
      · exact .inr ⟨(hname hin hf).1 hout, hn⟩

theorem flush {hd : SnapshotHandle Manifest} (h : FilesOk d.files hd.state e)
    (hheld : d.manifest.Held hd) {f : Reader K V Λ} (hf : f.name ∉ hd.state)
    (hl : ∀ n g, g ∈ e'.level n ↔ g = f ∧ f.level = n ∨ g ∈ e.level n) :
    ∃ dir, (flushOps d.manifest hd f).1.foldl Disk.exec d
        = { d.exec (.writeFile f) with manifest := dir } ∧
      dir.Held (flushOps d.manifest hd f).2 ∧
      FilesOk (d.exec (.writeFile f)).files (flushOps d.manifest hd f).2.state e' := by
  obtain ⟨-, -, -, hstate, hheld'⟩ :=
    hheld.appendOps editBytes manifestCompactThreshold [.addSstable f.level f.id]
  have hman : (flushOps d.manifest hd f).2.state = insert f.name hd.state := hstate
  refine ⟨_, Disk.foldl_manifest _ (d.exec (.writeFile f)), hheld', ?_⟩
  rw [hman]
  exact (h.writeFile hf).register mem_cons_self hl

theorem removeFiles (h : FilesOk d.files m e) {names : List (Nat × Nat)} (hn : ∀ n ∈ names, n ∉ m) :
    ∃ files, (names.map DiskOp.removeFile).foldl Disk.exec d = { d with files } ∧
      FilesOk files m e := by
  induction names generalizing d with
  | nil => exact ⟨d.files, rfl, h⟩
  | cons n names ih =>
    obtain ⟨files, hfiles, hok⟩ := ih (d := d.exec (.removeFile n))
      (h.removeFile (hn n mem_cons_self)) fun n hn' => hn n (.tail _ hn')
    exact ⟨files, hfiles, hok⟩

end FilesOk

/-! ## Compaction -/

structure Compaction.Swaps (c : Compaction K V Λ) (e e' : Engine K V Λ) : Prop where
  taken : ∀ f ∈ c.sources ++ c.overlapping, f ∈ e.level f.level
  fresh : ∀ f ∈ c.outs, e.nextSstId ≤ f.id
  nodup : (c.outs.map Reader.name).Nodup
  levels : ∀ n f, f ∈ e'.level n ↔
    f ∈ e.level n ∧ f ∉ c.sources ++ c.overlapping ∨ f ∈ c.outs ∧ f.level = n

theorem Engine.compaction_swaps [DecidableEq Λ] (h : LevelsOk cfg.options.maxLevel e) {n : Nat}
    {c : Compaction K V Λ} (hc : e.compaction cfg n = .ok (some c)) :
    c.Swaps e (e.install n c.sources c.overlapping c.outs) := by
  have hok : n + 1 ≤ cfg.options.maxLevel ∧ e.sourceFiles n ≠ [] := by
    by_contra hnot
    rw [not_and_or, not_le, not_not] at hnot
    rw [compaction_none hnot] at hc
    cases hc
  obtain ⟨hsources, hoverlapping, hlev, hids⟩ : c.sources = e.sourceFiles n ∧
      c.overlapping = e.overlappingFiles (n + 1) (e.sourceFiles n) ∧
      (∀ f ∈ c.outs, f.level = n + 1) ∧
      c.outs.map Reader.id = range' e.nextSstId c.outs.length := by
    obtain ⟨rows, hrows, hcomp⟩ := compaction_eq hok.1 hok.2 hc
    cases hcomp
    have hasc := (rewriteAll_ascending hrows).filter (e.keepRow cfg (n + 1))
    exact ⟨rfl, rfl, fun f hf => (mem_outputFiles (h := hasc) hf).1, outputFiles_ids (h := hasc)⟩
  have hsrc : ∀ f ∈ c.sources, f ∈ e.level n := hsources ▸ sourceFiles_subset
  have hovl : ∀ f ∈ c.overlapping, f ∈ e.level (n + 1) := hoverlapping ▸ overlappingFiles_subset
  refine ⟨fun f hf => ?_, fun f hf => ?_, ?_, fun m f => ?_⟩
  · rcases mem_append.1 hf with hf | hf
    · rw [h.level_eq n f (hsrc f hf)]
      exact hsrc f hf
    · rw [h.level_eq (n + 1) f (hovl f hf)]
      exact hovl f hf
  · have := mem_map_of_mem (f := Reader.id) hf
    rw [hids, mem_range'_1] at this
    exact this.1
  · refine List.Nodup.of_map Prod.snd ?_
    rw [List.map_map, show Prod.snd ∘ Reader.name = (Reader.id : Reader K V Λ → Nat) from rfl, hids]
    exact nodup_range'
  · rw [mem_level_install h hsrc hovl]
    refine or_congr Iff.rfl ⟨fun ⟨hm, hf⟩ => ⟨hf, ?_⟩, fun ⟨hf, hm⟩ => ⟨?_, hf⟩⟩
    · rw [hlev f hf, hm]
    · rw [← hm, hlev f hf]

theorem FilesOk.compact {hd : SnapshotHandle Manifest} (h : FilesOk d.files hd.state e)
    (hids : ∀ n, ∀ r ∈ e.level n, r.id < e.nextSstId) (hheld : d.manifest.Held hd)
    {c : Compaction K V Λ} (hc : c.Swaps e e') :
    ∃ dir files, (compactOps d.manifest hd c).1.foldl Disk.exec d
        = { d with manifest := dir, files } ∧
      dir.Held (compactOps d.manifest hd c).2 ∧ FilesOk files (compactOps d.manifest hd c).2.state e' := by
  have hfile : ∀ f ∈ c.sources ++ c.overlapping, f ∈ d.files := fun f hf =>
    ((h.live _ f).1 (hc.taken f hf)).1
  have hnew : ∀ f ∈ c.outs, f.name ∉ hd.state := fun f hf hm => by
    obtain ⟨g, hg, hgn⟩ := h.present _ hm
    have hlive := (h.live g.level g).2 ⟨hg, hgn ▸ hm, rfl⟩
    have hid : g.id = f.id := congrArg Prod.snd hgn
    have := hids _ g hlive
    have := hc.fresh f hf
    omega
  obtain ⟨files, hfiles, hok, hin, hkeep⟩ := h.writeFiles hnew hc.nodup
  obtain ⟨-, -, -, hstate, hheld'⟩ :=
    hheld.appendOps editBytes manifestCompactThreshold c.edits
  have hswap : FilesOk files (c.edits.foldl Snapshotable.apply hd.state) e' := by
    refine hok.swap hin (fun f hf => hkeep f (hfile f hf) fun hmem => ?_)
      (fun p => c.mem_edits hd.state p) hc.levels
    obtain ⟨g, hg, hgn⟩ := mem_map.1 hmem
    exact hnew g hg (hgn ▸ ((h.live _ f).1 (hc.taken f hf)).2.1)
  have hdropped : ∀ p ∈ (c.sources ++ c.overlapping).map Reader.name,
      p ∉ c.edits.foldl Snapshotable.apply hd.state := by
    intro p hp hmem
    rw [c.mem_edits] at hmem
    rcases hmem with ⟨-, hnot⟩ | hout
    · exact hnot hp
    · obtain ⟨f, hf, rfl⟩ := mem_map.1 hp
      obtain ⟨g, hg, hgn⟩ := mem_map.1 hout
      exact hnew g hg (hgn ▸ ((h.live _ f).1 (hc.taken f hf)).2.1)
  obtain ⟨files', hfiles', hok'⟩ := FilesOk.removeFiles (d := { d with
      manifest := (d.manifest.appendOps editBytes manifestCompactThreshold hd c.edits).1.foldl
        SnapshotDir.exec d.manifest, files }) hswap hdropped
  refine ⟨_, files', ?_, hheld', ?_⟩
  · simp only [compactOps, foldl_append]
    rw [hfiles, Disk.foldl_manifest, ← hfiles', List.map_map]
    rfl
  · show FilesOk files' (d.manifest.appendOps editBytes manifestCompactThreshold hd c.edits).2.state e'
    rw [hstate]
    exact hok'

/-! ## Every step -/

/-- The batch can be replayed whole, and no compaction overtakes a flush. -/
def Live.StepSafe (cfg : Config K V Λ) (u : Live K V Λ) (ev : Event K V) : Prop :=
  match ev with
  | .commit es => WalEntry.Flat es ∧ cfg.fits es = true
  | .compact 0 => u.engine.NoOvertaking
  | _ => True

namespace Running

theorem commit (h : Running M d u) {es : List (WalEntry K V)} (hflat : WalEntry.Flat es)
    (hfits : cfg.fits es = true) :
    Running M (d.exec (.appendSegment u.engine.activeWalId es))
      { u with engine := u.engine.commit cfg es } :=
  ⟨h.inv.commit es, h.manifest, h.synced, h.files.of_sstables rfl, h.segments.commit h.inv.queue hflat hfits⟩

theorem sealActive (h : Running M d u) (hne : u.engine.active.isEmpty = false) :
    Running M ((d.exec (.createSegment u.engine.nextWalId)).exec .syncDir)
      { u with engine := u.engine.sealActive } where
  inv := h.inv.seal
  manifest := h.manifest
  synced := rfl
  files := h.files.of_sstables (by
    rw [Engine.sealActive, dif_pos hne])
  segments := h.segments.sealActive h.inv.queue hne

theorem finish (h : Running M d u) {w : Nat} (he : u.engine.finishFlush w = some e)
    {i : ImmMemtable K V} (hi : u.engine.immutable.find? (fun i => i.walId = w) = some i) :
    Running M ((flushOps d.manifest u.manifest (u.engine.immReader i)).1.foldl Disk.exec d)
      ⟨e, (flushOps d.manifest u.manifest (u.engine.immReader i)).2⟩ := by
  have hinv := h.inv.finish he
  obtain ⟨j, hj, hjw, hfl, rfl⟩ := Engine.finishFlush_eq he
  have hmem := mem_of_find?_eq_some hi
  obtain rfl : i = j := h.inv.queue.eq_of_walId hmem hj
    ((by simpa using find?_some hi : i.walId = w).trans hjw.symm)
  have hpend : i.flush ≠ .completed := by rw [hfl]; nofun
  have hname : (u.engine.immReader i).name ∉ u.manifest.state := fun hm => by
    obtain ⟨g, hg, hgn⟩ := h.files.present _ hm
    have hlive := (h.files.live 0 g).2 ⟨hg, hgn ▸ hm, congrArg Prod.fst hgn⟩
    exact h.inv.shaped.fresh_id hmem hpend g hlive (congrArg Prod.snd hgn)
  have hsst : ({ u.engine.writeImmutableSstable i with
      immutable := Engine.setSlot u.engine.immutable w .completed } : Engine K V Λ).sstables
      = u.engine.sstables.insert 0 (insertL0Sorted (u.engine.level 0) (u.engine.immReader i)) := rfl
  obtain ⟨-, d', hd', hst, hheld, hstate, hseg, hsync⟩ := h.stored.flush h.synced h.manifest rfl
    hname rfl hsst hinv.levels fun k hk => by
      rw [h.segments.memHit h.inv.queue, Engine.memHit_eq, or_eq_none_iff,
        findSome?_eq_none_iff] at hk
      exact hk.2 i hmem
  rw [hd']
  refine ⟨hinv, hheld, hsync, hstate ▸ hst.files, ?_⟩
  rw [hseg]
  exact h.segments.setSlot rfl rfl rfl

theorem retire (h : Running M d u) (he : u.engine.retireOldest = some e) {i : ImmMemtable K V}
    (hi : u.engine.immutable.getLast? = some i) :
    Running M ((d.exec (.removeSegment i.walId)).exec .syncDir) { u with engine := e } := by
  have hinv := h.inv.retire he
  obtain ⟨q, o, hq, -, rfl⟩ := Engine.retireOldest_eq he
  obtain rfl : o = i := by
    rw [hq, getLast?_concat] at hi
    exact some.inj hi
  obtain ⟨seg, hseg, -⟩ := h.segments.queued o (by rw [hq]; simp)
  have hexec : (d.exec (.removeSegment o.walId)).exec .syncDir
      = { d with segments := d.segments.erase o.walId, unsynced := [] } := by
    simp [Disk.exec, hseg]
  rw [hexec]
  exact ⟨hinv, h.manifest, rfl, h.files.of_sstables rfl, h.segments.retire h.inv.queue hq rfl rfl rfl⟩

theorem compact [DecidableEq Λ] (h : Running M d u) {n : Nat} (hsafe : n = 0 → u.engine.NoOvertaking)
    {c : Compaction K V Λ} (hc : u.engine.compaction cfg n = .ok (some c))
    (he : u.engine.compactLevel cfg n = .ok e) :
    Running M ((compactOps d.manifest u.manifest c).1.foldl Disk.exec d)
      ⟨e, (compactOps d.manifest u.manifest c).2⟩ := by
  obtain ⟨e', he', hcomp⟩ := Engine.compactLevel_spec M h.inv.levels h.inv.layout n
  obtain rfl : e' = e := Except.ok.inj (he'.symm.trans he)
  have hinst : e' = u.engine.install n c.sources c.overlapping c.outs := by
    rw [Engine.compactLevel, hc] at he
    exact (Except.ok.inj he).symm
  obtain ⟨dir, files, hops, hheld, hfiles⟩ := h.files.compact h.inv.levels.ids h.manifest
    (Engine.compaction_swaps h.inv.levels hc)
  rw [hops]
  refine ⟨h.inv.compacted hcomp hsafe, hheld, h.synced, hinst ▸ hfiles, ?_⟩
  exact ⟨hcomp.active ▸ hcomp.activeWalId ▸ h.segments.active, hcomp.immutable ▸ h.segments.queued,
    hcomp.activeWalId ▸ hcomp.immutable ▸ h.segments.only⟩

/-- **Running.** Every step keeps the directory in step and overlays the writes it acknowledges. -/
theorem step [DecidableEq Λ] (h : Running M d u) {ev : Event K V} (hok : u.StepSafe cfg ev)
    {ops : List (DiskOp K V Λ)} {u' : Live K V Λ} (hs : u.step cfg d ev = some (ops, u')) :
    Running M (ops.foldl Disk.exec d) u' ∧ ∀ k, M.view u'.engine k
      = match lastWrite ev.mutations k with
        | some s => M.slot T s
        | none => M.view u.engine k := by
  cases ev with
  | startOpen | openStep | crash back => cases hs
  | commit es =>
    cases hs
    exact ⟨h.commit hok.1 hok.2, M.view_commit u.engine es⟩
  | sealActive =>
    obtain ⟨rfl, rfl⟩ := hs
    refine ⟨?_, M.view_seal u.engine⟩
    by_cases hne : u.engine.active.isEmpty = true
    · rw [if_pos hne, Engine.sealActive, dif_neg (by simp [hne])]
      exact h
    · rw [if_neg hne]
      exact h.sealActive (by simpa using hne)
  | claim w =>
    obtain ⟨e, he, hpair⟩ := map_eq_some_iff.1 hs
    cases hpair
    have hinv := h.inv.claim he
    obtain ⟨i, -, -, -, rfl⟩ := Engine.claimFlush_eq he
    exact ⟨⟨hinv, h.manifest, h.synced, h.files.of_sstables rfl, h.segments.setSlot rfl rfl rfl⟩,
      M.view_setSlot u.engine w .inFlight⟩
  | finish w =>
    obtain ⟨e, he, i, hi, hs⟩ := bind_bind_eq_some.1 hs
    cases hs
    exact ⟨h.finish he hi, h.inv.view_finish he⟩
  | retire =>
    obtain ⟨e, he, i, hi, hs⟩ := bind_bind_eq_some.1 hs
    cases hs
    exact ⟨h.retire he hi, h.inv.view_retire he⟩
  | compact n =>
    have hsafe : n = 0 → u.engine.NoOvertaking := by
      rintro rfl
      exact hok
    obtain ⟨e, he, hcomp⟩ := Engine.compactLevel_spec M h.inv.levels h.inv.layout n
    obtain ⟨o, ho⟩ := Engine.compaction_ok M h.inv.layout n
    simp only [Live.step, he, ho] at hs
    cases o with
    | none =>
      cases hs
      exact ⟨h, fun k => rfl⟩
    | some c =>
      cases hs
      exact ⟨h.compact hsafe ho he, hcomp.view⟩

end Running

end Dtdb.Storage
