import Dtdb.Storage.Interleaving
import Dtdb.Storage.Overlapped

/-! # The levels in every run

Each move keeps `SiteOk`, and so the levels are well laid after every run: `levels_of_moves`.
-/

namespace Dtdb.Storage

open Dtdb.Lib List Option

variable {K V Λ : Type} [LinearOrder K] [ByteSize K] [ByteSize V]

namespace SiteOk

variable {maxLevel : Nat} {cfg : Config K V Λ} {s s' : Site K V Λ}

/-! ## Steps that leave the levels alone -/

theorem of_quiet (h : SiteOk maxLevel s)
    (hshaped : Shaped maxLevel s'.live.engine.targetLayout s'.live.engine)
    (hsst : s'.live.engine.sstables = s.live.engine.sstables)
    (hnext : s.live.engine.nextSstId ≤ s'.live.engine.nextSstId)
    (hqueue : ∀ i ∈ s.live.engine.immutable, i.flush = .inFlight → i ∈ s'.live.engine.immutable)
    (hflush : s'.flushing = s.flushing) (hcomp : s'.compacting = s.compacting)
    (hfiles : s'.disk.files = s.disk.files) (hman : s'.disk.manifest = s.disk.manifest)
    (hlive : s'.live.manifest = s.live.manifest) : SiteOk maxLevel s' := by
  have hlevel : ∀ n, s'.live.engine.level n = s.live.engine.level n := fun n => by
    unfold Engine.level
    rw [hsst]
  have hswap : ∀ c : Compacting K V Λ, ∀ n, (c.swap s'.live.engine).level n
      = (c.swap s.live.engine).level n := fun c n => by
    unfold Compacting.swap Engine.install Engine.level
    rw [hsst]
  have hswapped : ∀ n, s'.swapped.level n = s.swapped.level n := fun n => by
    unfold Site.swapped
    rw [hcomp]
    split
    · exact hswap _ n
    · exact hlevel n
  refine ⟨hshaped, fun x hx => ?_, hflush ▸ h.distinct, fun c hc => ?_, ?_, ?_, ?_⟩
  · obtain ⟨hl, i, hi, hw, hfl, hid⟩ := h.flushing x (hflush ▸ hx)
    exact ⟨hl, i, hqueue i hi hfl, hw, hfl, hid⟩
  · refine (h.compacting c (hcomp ▸ hc)).congr (fun f hf => ?_) (fun n _ => hlevel n) hnext
    rwa [hlevel]
  · rw [hcomp, hfiles]
    exact h.written
  · rw [hman, hlive]
    exact h.held
  · rw [hfiles, hlive]
    refine h.files.congr fun n f => ?_
    rw [Site.mem_level_settled, Site.mem_level_settled, hflush, hswapped]

theorem setTargetLayout (h : SiteOk maxLevel s) (layout : Option Λ) :
    SiteOk maxLevel { s with live := s.live.setTargetLayout layout } := by
  exact h.of_quiet ⟨h.shaped.levels.congr rfl le_rfl, { h.shaped.queue with }, rfl,
    h.shaped.flushed⟩ rfl le_rfl (fun i hi _ => hi) rfl rfl rfl rfl rfl

section

variable [DecidableEq Λ]

theorem commit (h : SiteOk maxLevel s) {es : List (WalEntry K V)}
    (hs : s.event cfg (.commit es) = some s') : SiteOk maxLevel s' := by
  cases hs
  exact h.of_quiet (h.shaped.commit cfg es) rfl le_rfl (fun i hi _ => hi) rfl rfl rfl rfl rfl

theorem sealActive (h : SiteOk maxLevel s) (hs : s.event cfg .sealActive = some s') :
    SiteOk maxLevel s' := by
  cases hs
  have hlayout : s.live.engine.sealActive.targetLayout = s.live.engine.targetLayout := by
    unfold Engine.sealActive
    split <;> rfl
  have hops : ∀ op ∈ (if s.live.engine.active.isEmpty then [] else
      [DiskOp.createSegment s.live.engine.nextWalId, .syncDir] : List (DiskOp K V Λ)),
      op.OnSegments := by
    split <;> simp [DiskOp.OnSegments]
  obtain ⟨hfiles, hman⟩ := Disk.foldl_onSegments hops s.disk
  refine h.of_quiet ?_ ?_ ?_ ?_ rfl rfl hfiles hman rfl
  · rw [hlayout]
    exact h.shaped.sealActive
  · show s.live.engine.sealActive.sstables = _
    unfold Engine.sealActive
    split <;> rfl
  · show _ ≤ s.live.engine.sealActive.nextSstId
    unfold Engine.sealActive
    split
    · exact Nat.le_succ _
    · exact le_rfl
  · intro i hi _
    show i ∈ s.live.engine.sealActive.immutable
    unfold Engine.sealActive
    split
    · exact mem_cons_of_mem _ hi
    · exact hi

theorem claim (h : SiteOk maxLevel s) {w : Nat} (hs : s.event cfg (.claim w) = some s') :
    SiteOk maxLevel s' := by
  obtain ⟨x, hx, rfl⟩ := map_eq_some_iff.1 hs
  obtain ⟨e', he', rfl⟩ := map_eq_some_iff.1 hx
  have hshaped := h.shaped.claim he'
  obtain ⟨i₀, hi₀, hw, hpend, rfl⟩ := Engine.claimFlush_eq he'
  refine h.of_quiet hshaped rfl le_rfl (fun i hi hfl => ?_) rfl rfl rfl rfl rfl
  refine Engine.mem_setSlot.2 (.inr ⟨hi, fun hiw => ?_⟩)
  rw [h.shaped.queue.eq_of_walId hi hi₀ (hiw.trans hw.symm), hpend] at hfl
  cases hfl

theorem retire (h : SiteOk maxLevel s) (hs : s.event cfg .retire = some s') :
    SiteOk maxLevel s' := by
  obtain ⟨x, hx, rfl⟩ := map_eq_some_iff.1 hs
  obtain ⟨e', he', i, -, hx⟩ := bind_bind_eq_some.1 hx
  cases hx
  have hshaped := h.shaped.retire he'
  obtain ⟨q, o, hq, hc, rfl⟩ := Engine.retireOldest_eq he'
  have hops : ∀ op ∈ ([.removeSegment i.walId, .syncDir] : List (DiskOp K V Λ)), op.OnSegments := by
    simp [DiskOp.OnSegments]
  obtain ⟨hfiles, hman⟩ := Disk.foldl_onSegments hops s.disk
  refine h.of_quiet hshaped rfl le_rfl (fun j hj hfl => ?_) rfl rfl hfiles hman rfl
  rw [hq, mem_append, mem_singleton] at hj
  rcases hj with hj | rfl
  · exact hj
  · rw [hc] at hfl
    cases hfl

end

/-! ## A flush -/

theorem recordFlush (h : SiteOk maxLevel s) {w : Nat} (hs : s.recordFlush w = some s') :
    SiteOk maxLevel s' := by
  unfold Site.recordFlush at hs
  split at hs
  swap
  · cases hs
  next i hfind =>
  split at hs
  swap
  · cases hs
  next hcond =>
  obtain ⟨hfl, hnew⟩ := hcond
  have hi := mem_of_find?_eq_some hfind
  have hiw : i.walId = w := by simpa using find?_some hfind
  subst hiw
  cases hs
  set f := s.live.engine.immReader i with hf
  have hname : f.name ∉ s.live.manifest.state := h.name_notMem hi hfl hnew
  have hsettled : ∀ n g, g ∈ (Site.settled { s with
      flushing := (i.walId, f) :: s.flushing }).level n ↔
        g = f ∧ f.level = n ∨ g ∈ s.settled.level n := fun n g => by
    rw [Site.mem_level_settled, Site.mem_level_settled, map_cons, mem_cons]
    tauto
  obtain ⟨dir, hdisk, hheld, hfiles⟩ := h.files.flush h.held hname hsettled
  refine ⟨h.shaped, ?_, nodup_cons.2 ⟨hnew, h.distinct⟩, h.compacting, fun c hc o ho => ?_,
    ?_, ?_⟩
  · intro x hx
    rcases mem_cons.1 hx with rfl | hx
    · exact ⟨rfl, i, hi, rfl, hfl, rfl⟩
    · exact h.flushing x hx
  · rw [hdisk]
    refine mem_cons_of_mem _ (mem_filter.2 ⟨h.written c hc o ho, ?_⟩)
    -- an output file is not at level 0
    have hlevel := (h.compacting c hc).level_eq o (mem_append_left _ ho)
    refine decide_eq_true fun heq => ?_
    exact Nat.succ_ne_zero _ (hlevel.symm.trans (congrArg Prod.fst heq))
  · rw [hdisk]
    exact hheld
  · rw [hdisk]
    exact hfiles

theorem registerFlush (h : SiteOk maxLevel s) {w : Nat} (hs : s.registerFlush w = some s') :
    SiteOk maxLevel s' := by
  unfold Site.registerFlush at hs
  split at hs
  swap
  · cases hs
  next x hfind =>
  have hx := mem_of_find?_eq_some hfind
  have hxw : x.1 = w := by simpa using find?_some hfind
  obtain ⟨hf0, i, hi, hw, hfl, hid⟩ := h.flushing x hx
  obtain rfl : i.walId = w := hw.trans hxw
  cases hs
  set e := s.live.engine
  set e' := e.registerFlush i.walId x.2 with he'
  have hfresh := h.fresh_of_flushing hx
  have hlevel0 : ∀ g, g ∈ e'.level 0 ↔ g = x.2 ∨ g ∈ e.level 0 := fun g => by
    rw [show e'.level 0 = insertL0Sorted (e.level 0) x.2 from Engine.level_zero_of_insert rfl]
    exact mem_insertL0Sorted h.shaped.levels.newestFirst
  have hlevel : ∀ n, n ≠ 0 → e'.level n = e.level n := fun n hn => Engine.level_of_insert rfl hn
  have hshaped : Shaped maxLevel e'.targetLayout e' := h.shaped.registerFlush hi hfl hf0 hid
  have hcompacting : ∀ c ∈ s.compacting, CompactingOk maxLevel e' c := fun c hc =>
    (h.compacting c hc).congr (fun f hf => (hlevel0 f).2 (.inr hf)) hlevel le_rfl
  refine ⟨hshaped, fun y hy => ?_, h.distinct.sublist (filter_sublist.map _), hcompacting,
    h.written, h.held, h.files.congr fun n g => ?_⟩
  · obtain ⟨hy, hyw⟩ := mem_filter.1 hy
    obtain ⟨hl, j, hj, hjw, hjf, hjid⟩ := h.flushing y hy
    refine ⟨hl, j, Engine.mem_setSlot.2 (.inr ⟨hj, fun heq => ?_⟩), hjw, hjf, hjid⟩
    exact of_decide_eq_true hyw (hjw.symm.trans heq)
  · -- the file moves from `flushing` to level 0
    have hflush : g ∈ s.flushing.map Prod.snd ↔
        g = x.2 ∨ g ∈ (s.flushing.filter fun y => y.1 ≠ i.walId).map Prod.snd := by
      simp only [List.mem_map, List.mem_filter]
      constructor
      · rintro ⟨y, hy, rfl⟩
        by_cases hyw : y.1 = i.walId
        · rw [inj_on_of_nodup_map h.distinct hy hx (hyw.trans hxw.symm)]
          exact .inl rfl
        · exact .inr ⟨y, ⟨hy, decide_eq_true hyw⟩, rfl⟩
      · rintro (rfl | ⟨y, ⟨hy, -⟩, rfl⟩)
        · exact ⟨x, hx, rfl⟩
        · exact ⟨y, hy, rfl⟩
    have hswapped : ∀ g, g ∈ (Site.swapped { s with
        live := { s.live with engine := e' }
        flushing := s.flushing.filter fun y => y.1 ≠ i.walId }).level n ↔
        n = 0 ∧ g = x.2 ∨ g ∈ s.swapped.level n := fun g => by
      have hengine : g ∈ e'.level n ↔ n = 0 ∧ g = x.2 ∨ g ∈ e.level n := by
        by_cases hn : n = 0
        · subst hn
          rw [hlevel0]
          simp
        · rw [hlevel n hn]
          simp [hn]
      unfold Site.swapped
      dsimp only
      split
      · next m sources overlapping outs hc =>
        have hok := h.compacting _ hc
        have hnot : x.2 ∉ sources ++ overlapping := fun hmem => by
          have hl0 := hok.taken h.shaped.levels hmem
          rw [hf0] at hl0
          exact hfresh _ hl0 rfl
        rw [(hcompacting _ hc).mem_level_swap hshaped.levels, hok.mem_level_swap h.shaped.levels,
          hengine]
        constructor
        · rintro (⟨⟨hn, rfl⟩ | hg, hsrc⟩ | hg)
          · exact .inl ⟨hn, rfl⟩
          · exact .inr (.inl ⟨hg, hsrc⟩)
          · exact .inr (.inr hg)
        · rintro (⟨hn, rfl⟩ | ⟨hg, hsrc⟩ | hg)
          · exact .inl ⟨.inl ⟨hn, rfl⟩, hnot⟩
          · exact .inl ⟨.inr hg, hsrc⟩
          · exact .inr hg
      · exact hengine
    rw [Site.mem_level_settled, Site.mem_level_settled, hswapped]
    tauto

/-! ## A compaction -/

theorem select (h : SiteOk maxLevel s) (hmax : cfg.options.maxLevel = maxLevel) {n : Nat}
    (hs : s.select cfg n = some s') : SiteOk maxLevel s' := by
  obtain ⟨hnone, hs⟩ := ite_none_left_eq_some.1 hs
  dsimp only at hs
  split at hs
  · cases hs
    exact h
  next hcond =>
  obtain ⟨hlt, hne⟩ := not_or.1 hcond
  have hle : n + 1 ≤ maxLevel := hmax ▸ not_lt.1 hlt
  cases hs
  have hswapped : s.swapped = s.live.engine := by
    unfold Site.swapped
    rw [not_isSome_iff_eq_none.1 hnone]
  refine ⟨h.shaped, h.flushing, h.distinct, ?_, ?_, h.held, h.files.congr fun m f => ?_⟩
  · rintro c ⟨⟩
    exact ⟨hle, Engine.sourceFiles_subset, Engine.overlappingFiles_subset,
      fun r hr => Engine.remaining_apart h.shaped.levels hne hr, .nil, nofun, nofun, nofun, .nil,
      fun _ _ => nofun⟩
  · rintro c ⟨⟩
    exact nofun
  · rw [Site.mem_level_settled, Site.mem_level_settled, hswapped]
    rfl

section

variable [DecidableEq Λ]

theorem merge (h : SiteOk maxLevel s) (hs : s.merge cfg = some s') : SiteOk maxLevel s' := by
  unfold Site.merge at hs
  split at hs
  swap
  · cases hs
  next n sources overlapping hc =>
  have hok := h.compacting _ hc
  have hswapped : s.swapped = s.live.engine := by
    unfold Site.swapped
    rw [hc]
  dsimp only at hs
  split at hs
  · cases hs
    refine ⟨h.shaped, h.flushing, h.distinct, nofun, nofun, h.held, h.files.congr fun m f => ?_⟩
    rw [Site.mem_level_settled, Site.mem_level_settled, hswapped]
    rfl
  · next rows hrows =>
    cases hs
    have hasc := (rewriteAll_ascending hrows).filter (s.live.engine.keepRow cfg (n + 1))
    refine ⟨h.shaped, h.flushing, h.distinct, ?_, ?_, h.held, h.files.congr fun m f => ?_⟩
    · rintro c ⟨⟩
      refine ⟨hok.le, hok.sources, hok.overlapping, hok.apart, outputFiles_keyOrdered (h := hasc),
        fun o ho => (mem_outputFiles (h := hasc) ho).1, fun o ho x hx => ?_, nofun, .nil,
        fun _ _ => nofun⟩
      have hmem := (mem_outputFiles (h := hasc) ho).2.2 x hx
      exact Engine.mem_rows hrows (mem_of_mem_filter hmem)
    · rintro c ⟨⟩
      exact nofun
    · rw [Site.mem_level_settled, Site.mem_level_settled, hswapped]
      rfl

end

theorem write (h : SiteOk maxLevel s) (hs : s.write = some s') : SiteOk maxLevel s' := by
  unfold Site.write at hs
  split at hs
  swap
  · cases hs
  next n sources overlapping r runs outs hc =>
  have hok := h.compacting _ hc
  have hswapped : s.swapped = s.live.engine := by
    unfold Site.swapped
    rw [hc]
  cases hs
  set out : Reader K V Λ := { r with id := s.live.engine.nextSstId } with hout
  have hr : r ∈ outs ++ r :: runs := mem_append_right _ mem_cons_self
  have hsplit : ∀ o ∈ (outs ++ [out]) ++ runs, o = out ∨ o ∈ outs ++ r :: runs := by
    intro o ho
    simp only [mem_append, mem_cons] at ho ⊢
    tauto
  -- the new name is past every id of the target level
  have hname : out.name ∉ s.live.manifest.state := fun hmem => by
    obtain ⟨g, hg, hgn⟩ := h.files.present _ hmem
    have hlevel : g.level = n + 1 := (congrArg Prod.fst hgn).trans (hok.level_eq r hr)
    have hid : g.id = s.live.engine.nextSstId := congrArg Prod.snd hgn
    have hlive := (h.files.live (n + 1) g).2 ⟨hg, hgn ▸ hmem, hlevel⟩
    rw [Site.level_settled_of_ne (Nat.succ_ne_zero n), hswapped] at hlive
    exact absurd (h.shaped.levels.ids _ g hlive) (by rw [hid]; exact lt_irrefl _)
  refine ⟨?_, h.flushing, h.distinct, ?_, ?_, h.held, ?_⟩
  · exact ⟨h.shaped.levels.congr rfl (Nat.le_succ _), { h.shaped.queue with
      sstIds := fun i hi => (h.shaped.queue.sstIds i hi).trans (Nat.lt_succ_self _) }, rfl,
      h.shaped.flushed⟩
  · rintro c ⟨⟩
    refine ⟨hok.le, hok.sources, hok.overlapping, hok.apart, ?_, fun o ho => ?_, fun o ho => ?_,
      fun o ho => ?_, ?_, fun g hg o ho => ?_⟩
    · -- ordering looks at the keys, which do not depend on the id
      obtain ⟨houts, hrest, hcross⟩ := pairwise_append.1 hok.ordered
      obtain ⟨hhead, hruns⟩ := pairwise_cons.1 hrest
      show KeyOrdered ((outs ++ [out]) ++ runs)
      rw [append_assoc]
      refine pairwise_append.2 ⟨houts, pairwise_cons.2 ⟨hhead, hruns⟩, ?_⟩
      intro a ha b hb
      rcases mem_cons.1 hb with rfl | hb
      · exact hcross a ha r mem_cons_self
      · exact hcross a ha b (mem_cons_of_mem _ hb)
    · rcases hsplit o ho with rfl | ho
      · exact hok.level_eq r hr
      · exact hok.level_eq o ho
    · rcases hsplit o ho with rfl | ho
      · exact hok.keys r hr
      · exact hok.keys o ho
    · rcases mem_append.1 ho with ho | ho
      · exact (hok.ids o ho).trans (Nat.lt_succ_self _)
      · rw [mem_singleton.1 ho]
        exact Nat.lt_succ_self _
    · show ((outs ++ [out]).map Reader.id).Nodup
      rw [map_append, nodup_append']
      refine ⟨hok.nodup, nodup_singleton _, fun i hi hi' => ?_⟩
      obtain ⟨o, ho, rfl⟩ := mem_map.1 hi
      rw [map_singleton, mem_singleton] at hi'
      exact absurd (hok.ids o ho) (by rw [hi']; exact lt_irrefl _)
    · rcases mem_append.1 ho with ho | ho
      · exact hok.fresh g hg o ho
      · rw [mem_singleton.1 ho]
        exact (h.shaped.levels.ids _ g hg).ne
  · rintro c ⟨⟩ o ho
    rcases mem_append.1 ho with ho | ho
    · refine mem_cons_of_mem _ (mem_filter.2 ⟨h.written _ hc o ho, ?_⟩)
      refine decide_eq_true fun heq => ?_
      have hid : o.id = s.live.engine.nextSstId := congrArg Prod.snd heq
      exact absurd (hok.ids o ho) (by rw [hid]; exact lt_irrefl _)
    · rw [mem_singleton.1 ho]
      exact mem_cons_self
  · refine (h.files.writeFile hname).congr fun m f => ?_
    rw [Site.mem_level_settled, Site.mem_level_settled, hswapped]
    rfl

theorem notMem_taken (h : SiteOk maxLevel s) {c : Compacting K V Λ}
    (hok : CompactingOk maxLevel s.live.engine c) {g : Reader K V Λ}
    (hg : g ∈ s.flushing.map Prod.snd) {f : Reader K V Λ} (hf : f ∈ c.sources ++ c.overlapping) :
    f.name ≠ g.name := by
  intro hname
  obtain ⟨x, hx, rfl⟩ := mem_map.1 hg
  have hlevel : f.level = 0 := (congrArg Prod.fst hname).trans (h.flushing x hx).1
  have hmem := hok.taken h.shaped.levels hf
  rw [hlevel] at hmem
  exact h.fresh_of_flushing hx f hmem (congrArg Prod.snd hname)

theorem recordSwap (h : SiteOk maxLevel s) (hs : s.recordSwap = some s') : SiteOk maxLevel s' := by
  unfold Site.recordSwap at hs
  split at hs
  swap
  · cases hs
  next n sources overlapping outs hc =>
  have hok := h.compacting _ hc
  have hswapped : s.swapped = s.live.engine := by
    unfold Site.swapped
    rw [hc]
  obtain ⟨ops, -, -, hstate, hheld⟩ := h.held.appendOps editBytes manifestCompactThreshold
    (Compaction.edits ⟨sources, overlapping, outs⟩)
  have hok' : CompactingOk maxLevel s.live.engine ⟨n, sources, overlapping, .recorded outs⟩ :=
    { hok with }
  cases hs
  refine ⟨h.shaped, h.flushing, h.distinct, ?_, ?_, ?_, ?_⟩
  · rintro c ⟨⟩
    exact hok'
  · rintro c ⟨⟩ o ho
    rw [Disk.foldl_manifest]
    exact h.written _ hc o ho
  · rw [Disk.foldl_manifest]
    exact hheld
  · rw [Disk.foldl_manifest]
    rw [hstate]
    -- what is swapped out is in the levels, so the manifest named it
    have htaken : ∀ f ∈ sources ++ overlapping, f ∈ s.settled.level f.level := fun f hf => by
      refine Site.mem_level_settled.2 (.inr ?_)
      rw [hswapped]
      exact hok.taken h.shaped.levels hf
    have hedits := Compaction.mem_edits ⟨sources, overlapping, outs⟩ s.live.manifest.state
    refine h.files.swap (h.written _ hc) (fun f hf => ((h.files.live _ f).1 (htaken f hf)).1) hedits
      fun m f => ?_
    rw [Site.mem_level_settled, Site.mem_level_settled, hswapped]
    show _ ∨ f ∈ (Compacting.swap ⟨n, sources, overlapping, .recorded outs⟩ s.live.engine).level m ↔ _
    rw [hok'.mem_level_swap h.shaped.levels]
    have hlevel : f ∈ outs → f.level = n + 1 := fun hf => hok.joins.level f hf
    constructor
    · rintro (⟨rfl, hf⟩ | ⟨hf, hnot⟩ | ⟨rfl, hf⟩)
      · exact .inl ⟨.inl ⟨rfl, hf⟩, fun hmem => h.notMem_taken hok hf hmem rfl⟩
      · exact .inl ⟨.inr hf, hnot⟩
      · exact .inr ⟨hf, hlevel hf⟩
    · rintro (⟨⟨rfl, hf⟩ | hf, hnot⟩ | ⟨hf, rfl⟩)
      · exact .inl ⟨rfl, hf⟩
      · exact .inr (.inl ⟨hf, hnot⟩)
      · exact .inr (.inr ⟨hlevel hf, hf⟩)

theorem swap (h : SiteOk maxLevel s) (hs : s.swap = some s') : SiteOk maxLevel s' := by
  unfold Site.swap at hs
  split at hs
  swap
  · cases hs
  next n sources overlapping outs hc =>
  have hok := h.compacting _ hc
  have hl := h.shaped.levels
  cases hs
  set c : Compacting K V Λ := ⟨n, sources, overlapping, .recorded outs⟩ with hcdef
  have hswapped : s.swapped = c.swap s.live.engine := by
    unfold Site.swapped
    rw [hc]
  have hsettled : ∀ m f, f ∈ s.settled.level m ↔
      m = 0 ∧ f ∈ s.flushing.map Prod.snd ∨ f ∈ (c.swap s.live.engine).level m := fun m f => by
    rw [Site.mem_level_settled, hswapped]
  -- the manifest has forgotten the files that are swapped out
  have hgone : ∀ p ∈ (sources ++ overlapping).map Reader.name, p ∉ s.live.manifest.state := by
    intro p hp hmem
    obtain ⟨f, hf, rfl⟩ := mem_map.1 hp
    obtain ⟨g, hg, hgn⟩ := h.files.present _ hmem
    have hfl : f ∈ s.live.engine.level g.level := by
      rw [show g.level = f.level from congrArg Prod.fst hgn]
      exact hok.taken hl hf
    rcases (hsettled _ g).1 ((h.files.live g.level g).2 ⟨hg, hgn ▸ hmem, rfl⟩) with
      ⟨-, hflush⟩ | hswap
    · exact h.notMem_taken hok hflush hf hgn.symm
    · rcases (hok.mem_level_swap hl).1 hswap with ⟨hgl, hnot⟩ | ⟨hlevel, hout⟩
      · have hid : g.id = f.id := congrArg Prod.snd hgn
        exact hnot (inj_on_of_nodup_map (hl.nodup g.level) hgl hfl hid ▸ hf)
      · rw [hlevel] at hfl
        exact hok.fresh f hfl g hout (congrArg Prod.snd hgn).symm
  obtain ⟨files, hdisk, hfiles⟩ := h.files.removeFiles hgone
  rw [List.map_map] at hdisk
  have hlevel0 : ∀ f ∈ (c.swap s.live.engine).level 0, f ∈ s.live.engine.level 0 := fun f hf => by
    rcases (hok.mem_level_swap hl).1 hf with hf | hf
    · exact hf.1
    · exact absurd hf.1 (Nat.succ_ne_zero _).symm
  have hshaped : Shaped maxLevel (c.swap s.live.engine).targetLayout (c.swap s.live.engine) :=
    ⟨hok.levels_swap hl, { h.shaped.queue with }, rfl, fun f hf => h.shaped.flushed f (hlevel0 f hf)⟩
  refine ⟨hshaped, h.flushing, h.distinct, nofun, nofun, ?_, ?_⟩
  · rw [show (fun f : Reader K V Λ => DiskOp.removeFile f.name) = DiskOp.removeFile ∘ Reader.name from
      rfl, hdisk]
    exact h.held
  · rw [show (fun f : Reader K V Λ => DiskOp.removeFile f.name) = DiskOp.removeFile ∘ Reader.name from
      rfl, hdisk]
    refine hfiles.congr fun m f => ?_
    rw [hsettled, Site.mem_level_settled]
    rfl

/-! ## An open -/

theorem opened {d : Disk K V Λ} {u : Live K V Λ} (hl : LevelsOk maxLevel u.engine)
    (himm : u.engine.immutable = []) (hwal : u.engine.activeWalId < u.engine.nextWalId)
    (hheld : d.manifest.Held u.manifest) (hfiles : FilesOk d.files u.manifest.state u.engine) :
    SiteOk maxLevel ⟨d, u, [], none⟩ := by
  have hempty : ∀ i, i ∉ u.engine.immutable := by simp [himm]
  have hqueue : QueueOk u.engine := by
    refine ⟨?_, ?_, fun i hi => absurd hi (hempty i), fun i hi => absurd hi (hempty i), hwal⟩ <;>
    · rw [himm]
      exact .nil
  refine ⟨⟨hl, hqueue, rfl, fun g _ => .inr fun i hi => absurd hi (hempty i)⟩, nofun, .nil, nofun,
    nofun, hheld, hfiles.congr fun n f => ?_⟩
  rw [Site.mem_level_settled]
  simp only [map_nil, not_mem_nil, and_false, false_or]
  rfl

theorem boot {d : Disk K V Λ} {m : Manifest} {e : Engine K V Λ} (hm : d.manifest.Sound m)
    (hunnamed : d.manifest.current = none → d.files = []) (hfiles : FilesOk d.files m e)
    (hbound : ∀ n, ∀ f ∈ e.level n, n ≤ cfg.options.maxLevel)
    (hapart : ∀ n, 0 < n → ∀ a ∈ e.level n, ∀ b ∈ e.level n, a ≠ b →
      a.lastKey < b.firstKey ∨ b.lastKey < a.firstKey)
    (hs : Site.boot cfg d = some s') : SiteOk cfg.options.maxLevel s' := by
  obtain ⟨ops, hd, hopen, rfl, -, hheld⟩ := openManifest_spec hm hunnamed
  set e₀ := discoveredEngine cfg d hd.state
  have hl₀ : LevelsOk cfg.options.maxLevel e₀ := hfiles.discovered_levels hbound hapart
  have hf₀ : FilesOk d.files hd.state e₀ := hfiles.congr fun n f => hfiles.mem_discovered_level
  obtain ⟨files₁, hhead, hf₁⟩ := FilesOk.headOps hf₀ ops
  have hsegs : ∀ op ∈ (segmentOps d.segments : List (DiskOp K V Λ)), op.OnSegments :=
    onSegments_segmentOps d.segments
  unfold Site.boot openPlan at hs
  rw [hopen] at hs
  simp only [bind_eq_bind, bind_some] at hs
  split at hs
  · -- the replayed writes go to a file of their own
    next ht =>
    cases hs
    set f : Reader K V Λ := recoveredReader e₀.active ht e₀.nextSstId
    have hname : f.name ∉ hd.state := fun hmem => by
      obtain ⟨g, hg, hgn⟩ := hf₁.present _ hmem
      have hlive := (hf₁.live 0 g).2 ⟨hg, hgn ▸ hmem, congrArg Prod.fst hgn⟩
      have hid : g.id = e₀.nextSstId := congrArg Prod.snd hgn
      exact absurd (hl₀.ids 0 g hlive) (by rw [hid]; exact lt_irrefl _)
    have hlevel : ∀ n g, g ∈ (e₀.flushRecovered f).level n ↔ g = f ∧ f.level = n ∨ g ∈ e₀.level n :=
      fun n g => by
        show _ ↔ g = f ∧ 0 = n ∨ _
        by_cases hn : n = 0
        · subst hn
          rw [show (e₀.flushRecovered f).level 0 = insertL0Sorted (e₀.level 0) f from
            Engine.level_zero_of_insert rfl, mem_insertL0Sorted hl₀.newestFirst]
          simp
        · rw [show (e₀.flushRecovered f).level n = e₀.level n from Engine.level_of_insert rfl hn]
          simp [Ne.symm hn]
    obtain ⟨dir, hflush, hheld', hf₂⟩ := FilesOk.flush (d := { d with
        manifest := ops.foldl SnapshotDir.exec d.manifest, files := files₁ }) hf₁ hheld hname hlevel
    dsimp only
    rw [foldl_append, foldl_append, hhead, hflush]
    obtain ⟨hfiles', hman'⟩ := Disk.foldl_onSegments hsegs
      ({ Disk.exec { d with manifest := ops.foldl SnapshotDir.exec d.manifest, files := files₁ }
        (.writeFile f) with manifest := dir } : Disk K V Λ)
    refine opened ((flushRecovered_levels cfg d hd.state hl₀ ht).congr rfl le_rfl) rfl
      (Nat.lt_succ_self _) ?_ ?_
    · rw [hman']
      exact hheld'
    · rw [hfiles']
      exact hf₂
  · cases hs
    dsimp only
    rw [foldl_append, hhead]
    obtain ⟨hfiles', hman'⟩ := Disk.foldl_onSegments hsegs { d with
      manifest := ops.foldl SnapshotDir.exec d.manifest, files := files₁ }
    refine opened hl₀ rfl (Nat.lt_succ_self _) ?_ ?_
    · rw [hman']
      exact hheld
    · rw [hfiles']
      exact hf₁

theorem reopen (h : SiteOk cfg.options.maxLevel s) {back : List Nat}
    (hs : Site.boot cfg (s.disk.crash back) = some s') : SiteOk cfg.options.maxLevel s' := by
  refine boot (d := s.disk.crash back) h.held.sound (fun hnone => ?_) h.files (fun n f hf => ?_)
    (fun n hn a ha b hb => ?_) hs
  · rw [show (s.disk.crash back).manifest.current = _ from h.held.current] at hnone
    cases hnone
  · by_contra hlt
    have hn : n ≠ 0 := by omega
    rw [Site.level_settled_of_ne hn,
      Engine.level_eq_nil_of_bound h.levels_swapped (not_le.1 hlt)] at hf
    cases hf
  · rw [Site.level_settled_of_ne (by omega)] at ha hb
    exact (h.levels_swapped.keyOrdered n hn).apart ha hb

theorem step [DecidableEq Λ] (h : SiteOk cfg.options.maxLevel s) {move : SiteMove K V Λ}
    (hs : s.step cfg move = some s') : SiteOk cfg.options.maxLevel s' := by
  cases move with
  | commit es => exact h.commit hs
  | sealActive => exact h.sealActive hs
  | claim w => exact h.claim hs
  | recordFlush w => exact h.recordFlush hs
  | registerFlush w => exact h.registerFlush hs
  | retire => exact h.retire hs
  | setTargetLayout layout =>
    cases hs
    exact h.setTargetLayout layout
  | select n => exact h.select rfl hs
  | merge => exact h.merge hs
  | write => exact h.write hs
  | recordSwap => exact h.recordSwap hs
  | swap => exact h.swap hs
  | reopen back => exact h.reopen hs

end SiteOk

/-! ## Every run -/

/-- No flush or compaction stands between its manifest entry and its level. -/
def Site.Quiet (s : Site K V Λ) : Prop :=
  s.flushing = [] ∧ ∀ c ∈ s.compacting, ∀ outs, c.phase ≠ .recorded outs

theorem Site.Quiet.swapped {s : Site K V Λ} (h : s.Quiet) : s.swapped = s.live.engine := by
  unfold Site.swapped
  split
  · next outs hc => exact absurd rfl (h.2 _ hc outs)
  · rfl

/-- What the levels and the manifest keep. -/
structure WellLaid (maxLevel : Nat) (s : Site K V Λ) : Prop where
  newestFirst : NewestFirst (s.live.engine.level 0)
  keyOrdered : ∀ n, 0 < n → KeyOrdered (s.live.engine.level n)
  bound : ∀ n, maxLevel < n → s.live.engine.level n = []
  stored : s.disk.manifest.state = some s.live.manifest.state
  named : s.Quiet → ∀ n id,
    (n, id) ∈ s.live.manifest.state ↔ ∃ f ∈ s.live.engine.level n, f.id = id

/-- **The levels.** From a fresh directory, whatever seals, flushes, compactions and reopens overlap:
level 0 is newest first, every deeper level is in key order with disjoint ranges, no level lies past
the last, and the manifest names the files in memory. -/
theorem levels_of_moves [DecidableEq Λ] (cfg : Config K V Λ) {s₀ s : Site K V Λ}
    (hboot : Site.boot cfg .empty = some s₀) {moves : List (SiteMove K V Λ)}
    (hrun : Run (Site.step cfg) (fun _ _ => True) s₀ moves s) : WellLaid cfg.options.maxLevel s := by
  have hempty : SiteOk cfg.options.maxLevel s₀ :=
    SiteOk.boot (d := .empty) (e := .fresh) .empty (fun _ => rfl)
      ⟨.nil, nofun, fun _ _ => ⟨nofun, nofun⟩⟩ nofun nofun hboot
  have h : SiteOk cfg.options.maxLevel s :=
    hrun.invariant (I := fun _ s => SiteOk cfg.options.maxLevel s) hempty
      fun _ _ _ _ h _ hs => h.step hs
  refine ⟨h.shaped.levels.newestFirst, h.shaped.levels.keyOrdered,
    fun _ => Engine.level_eq_nil_of_bound h.shaped.levels, h.held.sound.state, fun hq n id => ?_⟩
  have hlive : ∀ f, f ∈ s.live.engine.level n ↔
      f ∈ s.disk.files ∧ f.name ∈ s.live.manifest.state ∧ f.level = n := fun f => by
    rw [← h.files.live, Site.mem_level_settled, hq.1, hq.swapped]
    simp
  constructor
  · intro hmem
    obtain ⟨f, hf, hname⟩ := h.files.present _ hmem
    exact ⟨f, (hlive f).2 ⟨hf, hname ▸ hmem, congrArg Prod.fst hname⟩, congrArg Prod.snd hname⟩
  · rintro ⟨f, hf, rfl⟩
    obtain ⟨-, hname, rfl⟩ := (hlive f).1 hf
    exact hname

def overlappedMoves : List (SiteMove DbKey DbValue Unit) :=
  [.commit [.put (.bool true) (.bool false)], .sealActive, .commit [.put (.bool true) (.bool true)],
    .sealActive, .claim 0, .claim 1, .recordFlush 1, .registerFlush 1, .select 0, .recordFlush 0,
    .merge, .write, .registerFlush 0, .recordSwap, .swap, .reopen []]

theorem levels_overlappedMoves : ∃ s₀ s, Site.boot plainConfig .empty = some s₀ ∧
    Run (Site.step plainConfig) (fun _ _ => True) s₀ overlappedMoves s ∧
    (s.live.engine.level 0).map Reader.id = [4, 1] ∧ (s.live.engine.level 1).map Reader.id = [3] ∧
    WellLaid plainConfig.options.maxLevel s := by
  obtain ⟨s₀, hboot, s, hexec, h0, h1⟩ : ∃ s₀, Site.boot plainConfig .empty = some s₀ ∧
      ∃ s, exec (guarded (Site.step plainConfig) fun _ _ => True) s₀ overlappedMoves = some s ∧
        (s.live.engine.level 0).map Reader.id = [4, 1] ∧
          (s.live.engine.level 1).map Reader.id = [3] := by
    decide +kernel
  exact ⟨s₀, s, hboot, .of_exec hexec, h0, h1, levels_of_moves plainConfig hboot (.of_exec hexec)⟩

end Dtdb.Storage
