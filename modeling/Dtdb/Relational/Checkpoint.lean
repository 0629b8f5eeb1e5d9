import Dtdb.Relational.Logged
import Dtdb.Storage.Unsynced

/-! # Checkpoints

The database over its files: the transaction log, and an engine on its own directory for every group
and index.  A commit is durable by its log record alone, until a checkpoint syncs every engine and
starts a new log.  A crash keeps of every file what was synced and any part of the rest. -/

namespace Dtdb.Relational

open Dtdb.Lib Dtdb.Storage List Option Function

/-! ## The model -/

def storedEntry : Mutation DbKey Stored → WalEntry DbKey Stored
  | (k, some v) => .put k v
  | (k, none) => .delete k

def walEntries (b : Batch) : List (WalEntry DbKey Stored) := b.map storedEntry

theorem mutations_walEntries (b : Batch) : WalEntry.mutations (walEntries b) = b := by
  induction b with
  | nil => rfl
  | cons x b ih =>
    obtain ⟨k, v⟩ := x
    cases v <;>
    · show _ :: WalEntry.mutations (walEntries b) = _
      rw [ih]

theorem flat_walEntries (b : Batch) : WalEntry.Flat (walEntries b) := by
  intro e he
  obtain ⟨⟨k, v⟩, -, rfl⟩ := mem_map.1 he
  cases v <;> rfl

section

variable {Λ : Type} [ByteSize Stored]

/-- `past` are the records of removed logs, `dirs` the tables whose directory entry is synced,
`oldLogs` the removed logs that a crash may bring back; `logUnsynced`: the log's own entry may be
lost. -/
structure DurableDb (Λ : Type) [ByteSize Stored] where
  logged : Logged
  past : List Prepared
  files : String × EngineName → SyncedEngine DbKey Stored Λ
  dirs : List String
  oldLogs : List (List Prepared)
  logUnsynced : Bool

inductive DurableStep where
  | db (l : DbStep)
  | engine (table : String) (n : EngineName) (b : Background)
  | checkpoint
  | syncDirectory

/-- The frames kept of each segment, the table directories and the log. -/
structure CrashOutcome where
  kept : String × EngineName → Nat → Nat
  dirs : List String
  log : List Prepared

namespace DurableDb

/-- An open database with a new log file; an older one may have been removed. -/
def start (tables : SortedMap String Table) (engines : String → Engines)
    (files : String × EngineName → SyncedEngine DbKey Stored Λ) (dirs : List String)
    (oldLogs : List (List Prepared)) : DurableDb Λ :=
  ⟨.start tables engines, [], files, dirs, oldLogs, true⟩

def committed (s : DurableDb Λ) : List Prepared := s.past ++ s.logged.log

def baseRows (s : DurableDb Λ) (rows : String → DbKey → Option Row) (name : String) :
    DbKey → Option Row :=
  rowsAfter (s.past.map (·.forTable name)) (rows name)

/-- `checkpoint_locked`: every active segment is synced, then the log is replaced. -/
def checkpoint (s : DurableDb Λ) : DurableDb Λ :=
  { s with
    logged := { s.logged with log := [], made := [] }
    past := s.committed
    files := fun x => (s.files x).syncWal
    oldLogs := s.oldLogs ++ [s.logged.log]
    logUnsynced := true }

variable [DecidableEq Λ]

def writeFile (cfg : Config DbKey Stored Λ)
    (files : String × EngineName → SyncedEngine DbKey Stored Λ)
    (x : (String × EngineName) × Batch) :
    Option (String × EngineName → SyncedEngine DbKey Stored Λ) :=
  if x.2.isEmpty then some files
  else ((files x.1).commit cfg (walEntries x.2)).map (update files x.1)

def step (cfg : Config DbKey Stored Λ) (tok : Tokenizers) (s : DurableDb Λ) :
    DurableStep → Option (DurableDb Λ)
  | .db l => do
    let logged ← s.logged.step tok l
    let files ← (Logged.written s.logged.db l).foldlM (writeFile cfg) s.files
    return { s with logged, files }
  | .engine table n b => ((s.files (table, n)).background cfg b).map fun f =>
      { s with files := update s.files (table, n) f }
  | .checkpoint => if s.logged.db.applying.all (·.pending.isEmpty) then some s.checkpoint else none
  | .syncDirectory => some { s with
      dirs := s.logged.db.tables.entries.map Prod.fst
      oldLogs := []
      logUnsynced := false }

/-- Batches can be replayed whole, compactions overtake no flush, and at a checkpoint no sealed
segment has unsynced frames. -/
def StepSafe (cfg : Config DbKey Stored Λ) (s : DurableDb Λ) : DurableStep → Prop
  | .db l => s.logged.StepSafe l ∧
      ∀ x ∈ Logged.written s.logged.db l, cfg.fits (walEntries x.2) = true
  | .engine table n b => (s.files (table, n)).BackgroundSafe b
  | .checkpoint => ∀ x ∈ s.logged.db.tables.entries, ∀ n ∈ x.2.engineNames,
      (s.files (x.1, n)).SealedSynced
  | .syncDirectory => True

/-! ## Crash and reopen -/

/-- The crash loses only what is not synced. -/
def MayLeave (s : DurableDb Λ) (c : CrashOutcome) : Prop :=
  (∀ x w, (s.files x).synced w ≤ c.kept x w) ∧ (∀ name ∈ s.dirs, name ∈ c.dirs) ∧
    (c.log = s.logged.log ∨ s.logUnsynced = true ∧ (c.log = [] ∨ c.log ∈ s.oldLogs))

def found (s : DurableDb Λ) (c : CrashOutcome) : SortedMap String Table :=
  ⟨s.logged.db.tables.entries.filter fun x => x.1 ∈ c.dirs, s.logged.db.tables.ascending.filter _⟩

def remaining (s : DurableDb Λ) (c : CrashOutcome) (x : String × EngineName) :
    Disk DbKey Stored Λ :=
  (s.files x).disk.truncate (c.kept x)

/-- The engines of the tables that are found open, and `engines` are their contents. -/
def Reopens (cfg : Config DbKey Stored Λ) (s : DurableDb Λ) (c : CrashOutcome)
    (engines : String → Engines) : Prop :=
  ∀ name t, (s.found c).get name = some t → ∀ n ∈ t.engineNames, ∃ f,
    SyncedEngine.ofDisk cfg (s.remaining c (name, n)) = some f ∧
      ∀ k, f.live.engine.get cfg k = .ok ((engines name n).get k)

/-- The log that is found is the present one, or nothing was committed since. -/
def LogSafe (s : DurableDb Λ) (log : List Prepared) : Prop :=
  log = s.logged.log ∨ s.logged.log = [] ∧ (log = [] ∨
    ∃ older newer, s.oldLogs = older ++ log :: newer ∧ ∀ l ∈ newer, l = [])

/-- Every table's directory entry is synced, the log that is found may be replayed, and what an
engine replays has some size or is nothing. -/
def CrashSafe (cfg : Config DbKey Stored Λ) (s : DurableDb Λ) (c : CrashOutcome) : Prop :=
  (∀ x ∈ s.logged.db.tables.entries, x.1 ∈ s.dirs) ∧ s.LogSafe c.log ∧
    ∀ x ∈ s.logged.db.tables.entries, ∀ n ∈ x.2.engineNames,
      (replay cfg (s.remaining c (x.1, n)).segments).isEmpty = true ∨
        0 < (replay cfg (s.remaining c (x.1, n)).segments).byteSize

end DurableDb

end

/-! ## What a step does to the engines' contents -/

section

variable {tok : Tokenizers}

theorem Db.engines_control {s s' : Db} {id : Nat} {a : Action String DbKey}
    (h : s.control id a = some s') : s'.engines = s.engines := (sameData_control h).2.1

theorem Db.engines_step {s s' : Db} {l : DbStep} (h : s.step tok l = some s') (name : String)
    (n : EngineName) : s'.engines name n
      = (s.engines name n).applyAll (batchFor (Logged.written s l) (name, n)) := by
  cases l with
  | begin id level =>
    obtain ⟨-, h⟩ := ite_none_left_eq_some.1 h
    obtain ⟨occ, -, rfl⟩ := map_eq_some_iff.1 h
    rfl
  | act id a =>
    obtain ⟨u, -, tx, -, h⟩ := bind_bind_eq_some.1 h
    show s'.engines name n = s.engines name n
    by_cases ha : a = .startApply
    · subst ha
      obtain ⟨-, h⟩ := ite_none_right_eq_some.1 h
      split at h
      · split at h
        · obtain ⟨pending, -, rfl⟩ := map_eq_some_iff.1 h
          rfl
        · obtain ⟨s₁, hs₁, rfl⟩ := map_eq_some_iff.1 h
          exact congrFun (congrFun (engines_control hs₁) name) n
      · cases h
    · rw [(sameData_act ha h).2.1]
  | writeEngine table m =>
    obtain ⟨a, ha, h⟩ := bind_eq_some_iff.1 h
    obtain ⟨x, hx, rfl⟩ := map_eq_some_iff.1 h
    have hkey : x.1 = (table, m) := by simpa using find?_some hx
    have hwritten : Logged.written s (.writeEngine table m) = [x] := by
      simp [Logged.written, ha, hx]
    rw [hwritten]
    show (if (name, n) = (table, m) then (s.engines name n).applyAll x.2 else s.engines name n) = _
    split
    · next heq => simp [batchFor, hkey, heq]
    · next hne => simp [batchFor, hkey, Ne.symm hne, SortedMap.applyAll]
  | finish =>
    obtain ⟨a, -, h⟩ := bind_eq_some_iff.1 h
    split at h
    · obtain ⟨s₁, hs₁, rfl⟩ := map_eq_some_iff.1 h
      exact congrFun (congrFun (engines_control hs₁) name) n
    · cases h

end

/-! ## The invariant -/

section

variable {Λ : Type} [ByteSize Stored] {cfg : Config DbKey Stored Λ} {tok : Tokenizers}

/-- Replaying the newest removed log with a record in it changes nothing. -/
def OldLogsOk (tok : Tokenizers) (tables : SortedMap String Table)
    (rows : String → DbKey → Option Row) (oldLogs : List (List Prepared)) : Prop :=
  ∀ older log newer, oldLogs = older ++ log :: newer → (∀ l ∈ newer, l = []) →
    (∀ r ∈ log, (r.mutations.map Prod.fst).Nodup) ∧ ∃ before : String → DbKey → Option Row,
      ∀ name t, tables.get name = some t →
        (∀ pk row, before name pk = some row → row.length = t.schema.columns.length) ∧
        FaithfulLog tok t (before name) (log.map (·.forTable name)) ∧
        rows name = rowsAfter (log.map (·.forTable name)) (before name)

/-- An engine that showed `base` when all was synced, was given `made` since and shows `now`. -/
def FileInv (hrw : cfg.KeepsPlain) (base now : Store) (made : List Batch)
    (f : SyncedEngine DbKey Stored Λ) : Prop :=
  (∃ mark, Since (Meaning.identity hrw) base.get (made.map walEntries) mark f) ∧
    ∀ k, (Meaning.identity hrw).view f.live.engine k = now.get k

namespace FileInv

variable {hrw : cfg.KeepsPlain} {base now : Store} {made : List Batch}
  {f f' : SyncedEngine DbKey Stored Λ}

theorem commit [DecidableEq Λ] (h : FileInv hrw base now made f) {b : Batch}
    (hfits : cfg.fits (walEntries b) = true) (hf : f.commit cfg (walEntries b) = some f') :
    FileInv hrw base (now.applyAll b) (made ++ [b]) f' := by
  obtain ⟨⟨mark, hsince⟩, hview⟩ := h
  cases hf
  refine ⟨⟨mark, ?_⟩, fun k => ?_⟩
  · rw [map_append]
    exact hsince.commit (flat_walEntries b) hfits
  · rw [Meaning.view_commit, mutations_walEntries, SortedMap.get_applyAll, hview k]
    unfold lastWrite
    cases b.reverse.lookup k with
    | none => rfl
    | some v => exact Meaning.identity_slot hrw none v

theorem skip (h : FileInv hrw base now made f) {b : Batch} (hb : b.isEmpty = true) :
    FileInv hrw base (now.applyAll b) (made ++ [b]) f := by
  obtain ⟨⟨mark, hsince⟩, hview⟩ := h
  cases isEmpty_iff.1 hb
  refine ⟨⟨mark, ?_⟩, hview⟩
  rw [map_append]
  exact hsince.append _

theorem background [DecidableEq Λ] (h : FileInv hrw base now made f) {b : Background}
    (hsafe : f.BackgroundSafe b) (hf : f.background cfg b = some f') :
    FileInv hrw base now made f' := by
  obtain ⟨⟨mark, hsince⟩, hview⟩ := h
  obtain ⟨hsince', hview'⟩ := hsince.step_background hsafe hf
  exact ⟨hsince', fun k => (hview' k).trans (hview k)⟩

theorem syncWal (h : FileInv hrw base now made f) (hsealed : f.SealedSynced) :
    FileInv hrw now now [] f.syncWal := by
  obtain ⟨⟨mark, hsince⟩, hview⟩ := h
  have hsync : ∀ w ∈ f.syncWal.live.engine.segmentIds,
      (f.syncWal.disk.segment w).length ≤ f.syncWal.synced w := by
    intro w hw
    show (f.disk.segment w).length ≤ update f.synced f.live.engine.activeWalId _ w
    rcases mem_cons.1 hw with heq | hw
    · rw [show w = f.live.engine.activeWalId from heq, update_self]
    · obtain ⟨i, hi, rfl⟩ := mem_map.1 hw
      rw [update_of_ne (ne_of_lt (hsince.running.inv.queue.walIds i hi))]
      exact hsealed i hi
  have hstart := Since.start (s := f.syncWal) hsince.running hsince.settled hsync
  rw [show (Meaning.identity hrw).view f.syncWal.live.engine = now.get from funext hview] at hstart
  exact ⟨⟨_, hstart⟩, hview⟩

theorem reopen [DecidableEq Λ] (h : FileInv hrw base now made f) {keep : Nat → Nat}
    (hkeep : ∀ w, f.synced w ≤ keep w)
    (hsize : (replay cfg (f.disk.truncate keep).segments).isEmpty = true ∨
      0 < (replay cfg (f.disk.truncate keep).segments).byteSize) :
    ∃ f' left, SyncedEngine.ofDisk cfg (f.disk.truncate keep) = some f' ∧
      (∀ k, f'.live.engine.get cfg k = .ok (SortedMap.get left k)) ∧
      ∀ k, left.get k = base.get k ∨
        ∃ b ∈ made, ∃ v, lastWrite b k = some v ∧ left.get k = v := by
  obtain ⟨⟨mark, hsince⟩, -⟩ := h
  obtain ⟨f', hf', hrun, hexpl⟩ := hsince.reopen hkeep hsize
  have hcases : ∀ k, (Meaning.identity hrw).view f'.live.engine k = base.get k ∨
      ∃ b ∈ made, ∃ v, lastWrite b k = some v ∧ (Meaning.identity hrw).view f'.live.engine k = v := by
    intro k
    refine (hexpl k).imp_right fun ⟨x, ⟨es, hes, hx⟩, heq⟩ => ?_
    obtain ⟨b, hb, rfl⟩ := mem_map.1 hes
    rw [mutations_walEntries] at hx
    exact ⟨b, hb, x, hx, heq.trans (Meaning.identity_slot hrw none x)⟩
  obtain ⟨left, hleft⟩ := base.exists_get_eq (made.flatten.map Prod.fst)
    fun k hk => by
      refine (hcases k).resolve_right fun ⟨b, hb, v, hv, _⟩ => hk ?_
      have hmem := mem_reverse.1 (mem_of_lookup hv)
      exact mem_map.2 ⟨_, mem_flatten.2 ⟨b, hb, hmem⟩, rfl⟩
  refine ⟨f', left, hf', fun k => ?_, fun k => ?_⟩
  · obtain ⟨w, hget, hw⟩ := (Meaning.identity hrw).get_eq hrun.inv.layout k
    rw [hget, hleft k, ← hw]
    exact congrArg Except.ok (Meaning.identity_slot hrw none w).symm
  · rw [hleft k]
    exact hcases k

end FileInv

namespace DurableDb

variable {tables : SortedMap String Table} {rows : String → DbKey → Option Row}
  {hrw : cfg.KeepsPlain} {s s' : DurableDb Λ}

/-- The log is one of commits on the rows of the last checkpoint, and every engine has it durable.
-/
structure Inv (tok : Tokenizers) (hrw : cfg.KeepsPlain) (tables : SortedMap String Table)
    (rows : String → DbKey → Option Row) (s : DurableDb Λ) (base : String → Engines) : Prop where
  logged : Logged.Inv tok tables (s.baseRows rows) s.logged
  represents : ∀ name t, tables.get name = some t →
    Represents tok t (base name) (s.baseRows rows name)
  files : ∀ name t, tables.get name = some t → ∀ n ∈ t.engineNames,
    FileInv hrw (base name n) (s.logged.db.engines name n) (batchesFor s.logged.made (name, n))
      (s.files (name, n))
  old : OldLogsOk tok tables (s.baseRows rows) s.oldLogs

/-- An engine with everything it holds on disk. -/
structure AtRest (hrw : cfg.KeepsPlain) (m : Store) (f : SyncedEngine DbKey Stored Λ) : Prop where
  running : Running (Meaning.identity hrw) f.disk f.live
  settled : Settled (Meaning.identity hrw) f.live.engine
  synced : ∀ w ∈ f.live.engine.segmentIds, (f.disk.segment w).length ≤ f.synced w
  shows : ∀ k, (Meaning.identity hrw).view f.live.engine k = m.get k

theorem AtRest.fileInv {m : Store} {f : SyncedEngine DbKey Stored Λ} (h : AtRest hrw m f) :
    FileInv hrw m m [] f := by
  have hstart := Since.start h.running h.settled h.synced
  rw [show (Meaning.identity hrw).view f.live.engine = m.get from funext h.shows] at hstart
  exact ⟨⟨_, hstart⟩, h.shows⟩

theorem Inv.start {engines : String → Engines}
    {files : String × EngineName → SyncedEngine DbKey Stored Λ} {dirs : List String}
    {oldLogs : List (List Prepared)}
    (hstart : ∀ name t, tables.get name = some t → Represents tok t (engines name) (rows name))
    (hfiles : ∀ name t, tables.get name = some t → ∀ n ∈ t.engineNames,
      AtRest hrw (engines name n) (files (name, n)))
    (hold : OldLogsOk tok tables rows oldLogs) :
    Inv tok hrw tables rows (.start tables engines files dirs oldLogs) engines where
  logged := .start hstart
  represents := hstart
  files name t ht n hn := (hfiles name t ht n hn).fileInv
  old := hold

variable [DecidableEq Λ] {base : String → Engines}

theorem Inv.db (h : Inv tok hrw tables rows s base) {l : DbStep} (hsafe : s.logged.StepSafe l)
    (hfits : ∀ x ∈ Logged.written s.logged.db l, cfg.fits (walEntries x.2) = true)
    {logged : Logged} (hl : s.logged.step tok l = some logged)
    {files : String × EngineName → SyncedEngine DbKey Stored Λ}
    (hf : (Logged.written s.logged.db l).foldlM (writeFile cfg) s.files = some files) :
    Inv tok hrw tables rows { s with logged, files } base := by
  refine ⟨h.logged.step hsafe hl, h.represents, fun name t ht n hn => ?_, h.old⟩
  obtain ⟨db, hdb, rfl⟩ := map_eq_some_iff.1 hl
  have hfile := h.files name t ht n hn
  show FileInv hrw (base name n) (db.engines name n)
    (batchesFor (s.logged.made ++ Logged.written s.logged.db l) (name, n)) (files (name, n))
  rw [Db.engines_step hdb, batchesFor_append]
  -- a step writes one engine at most
  have hone : Logged.written s.logged.db l = [] ∨ ∃ x, Logged.written s.logged.db l = [x] := by
    unfold Logged.written
    split
    · cases Option.bind _ _ with
      | none => exact .inl rfl
      | some x => exact .inr ⟨x, rfl⟩
    · exact .inl rfl
  rcases hone with hnone | ⟨x, hx⟩
  · rw [hnone] at hf ⊢
    cases hf
    rw [show batchesFor ([] : List ((String × EngineName) × Batch)) (name, n) = [] from rfl,
      append_nil]
    exact hfile
  · rw [hx] at hf hfits ⊢
    obtain ⟨files₁, hw, hf⟩ := bind_eq_some_iff.1 hf
    cases hf
    by_cases hkey : x.1 = (name, n)
    · have hbatch : batchFor [x] (name, n) = x.2 := by simp [batchFor, hkey]
      have hbatches : batchesFor [x] (name, n) = [x.2] := by simp [batchesFor, hkey]
      rw [hbatch, hbatches]
      unfold writeFile at hw
      split at hw
      · next hempty =>
        cases hw
        exact hfile.skip hempty
      · obtain ⟨f, hcommit, rfl⟩ := map_eq_some_iff.1 hw
        rw [hkey] at hcommit ⊢
        rw [update_self]
        exact hfile.commit (hfits x mem_cons_self) hcommit
    · have hbatch : batchFor [x] (name, n) = [] := by simp [batchFor, hkey]
      have hbatches : batchesFor [x] (name, n) = [] := by simp [batchesFor, hkey]
      rw [hbatch, hbatches, append_nil]
      unfold writeFile at hw
      split at hw
      · cases hw
        exact hfile
      · obtain ⟨f, -, rfl⟩ := map_eq_some_iff.1 hw
        rw [update_of_ne (Ne.symm hkey)]
        exact hfile

theorem Inv.engine (h : Inv tok hrw tables rows s base) {x : String × EngineName} {b : Background}
    (hsafe : (s.files x).BackgroundSafe b) {f : SyncedEngine DbKey Stored Λ}
    (hf : (s.files x).background cfg b = some f) :
    Inv tok hrw tables rows { s with files := update s.files x f } base := by
  refine ⟨h.logged, h.represents, fun name t ht n hn => ?_, h.old⟩
  have hfile := h.files name t ht n hn
  show FileInv hrw _ _ _ (update s.files x f (name, n))
  by_cases hkey : (name, n) = x
  · rw [hkey] at hfile ⊢
    rw [update_self]
    exact hfile.background hsafe hf
  · rw [update_of_ne hkey]
    exact hfile

omit [DecidableEq Λ] in
theorem baseRows_checkpoint (s : DurableDb Λ) (rows : String → DbKey → Option Row) :
    s.checkpoint.baseRows rows = s.logged.rowsNow (s.baseRows rows) := by
  funext name
  show rowsAfter ((s.past ++ s.logged.log).map _) _ = _
  unfold Logged.rowsNow baseRows rowsAfter
  rw [map_append, foldl_append]

omit [DecidableEq Λ] in
theorem Inv.checkpoint (h : Inv tok hrw tables rows s base)
    (hidle : s.logged.db.applying.all (·.pending.isEmpty) = true)
    (hsafe : ∀ name t, tables.get name = some t → ∀ n ∈ t.engineNames,
      (s.files (name, n)).SealedSynced) :
    Inv tok hrw tables rows s.checkpoint s.logged.db.engines := by
  have hsettled : s.logged.db.settled = s.logged.db.engines := by
    cases ha : s.logged.db.applying with
    | none => exact Db.settled_of_none ha
    | some a =>
      rw [ha] at hidle
      exact Db.settled_of_empty ha (isEmpty_iff.1 hidle)
  have hpending : ∀ x, s.logged.db.pendingFor x = [] := by
    intro x
    unfold Db.pendingFor
    cases ha : s.logged.db.applying with
    | none => rfl
    | some a =>
      rw [ha] at hidle
      rw [map_some, isEmpty_iff.1 hidle]
      rfl
  have hnow : ∀ name t, tables.get name = some t →
      Represents tok t (s.logged.db.engines name) (s.checkpoint.baseRows rows name) := by
    intro name t ht
    rw [baseRows_checkpoint, ← hsettled]
    exact h.logged.settled name t ht
  refine ⟨⟨h.logged.db, h.logged.catalog, nofun, fun _ _ _ => trivial, fun name t ht => ?_,
    fun name t ht n => ?_⟩, hnow, fun name t ht n hn => ?_, ?_⟩
  · show Represents tok t (s.logged.db.settled name) (s.checkpoint.baseRows rows name)
    rw [hsettled]
    exact hnow name t ht
  · show (_ ++ s.logged.db.pendingFor (name, n)).Sublist _
    rw [hpending]
    exact List.Sublist.refl []
  · exact (h.files name t ht n hn).syncWal (hsafe name t ht n hn)
  · intro older log newer heq hnewer
    rw [baseRows_checkpoint]
    rcases eq_nil_or_concat newer with rfl | ⟨newer, last, rfl⟩
    · -- the log that was just removed
      have happ : s.oldLogs ++ [s.logged.log] = older ++ [log] := heq
      obtain ⟨-, hlog⟩ := append_inj' happ rfl
      cases hlog
      refine ⟨h.logged.nodup, s.baseRows rows, fun name t ht => ?_⟩
      exact ⟨(h.represents name t ht).width, h.logged.faithful name t ht, rfl⟩
    · -- an older one, and the log that was just removed has no record
      have hlast : last = [] := hnewer last (by simp)
      have happ : s.oldLogs ++ [s.logged.log] = (older ++ log :: newer) ++ [last] := by
        rw [concat_eq_append] at heq
        rw [append_assoc]
        exact heq
      obtain ⟨hold, hlog⟩ := append_inj' happ rfl
      have hempty : s.logged.log = [] := by
        cases hlog
        exact hlast
      have hrows : s.logged.rowsNow (s.baseRows rows) = s.baseRows rows := by
        funext name
        unfold Logged.rowsNow
        rw [hempty]
        rfl
      rw [hrows]
      exact h.old older log newer hold fun l hl => hnewer l (by simp [hl])

theorem Inv.step (h : Inv tok hrw tables rows s base) {l : DurableStep} (hsafe : s.StepSafe cfg l)
    (hs : s.step cfg tok l = some s') : ∃ base', Inv tok hrw tables rows s' base' := by
  cases l with
  | db l =>
    obtain ⟨logged, hl, files, hf, hs⟩ := bind_bind_eq_some.1 hs
    cases hs
    exact ⟨base, h.db hsafe.1 hsafe.2 hl hf⟩
  | engine table n b =>
    obtain ⟨f, hf, rfl⟩ := map_eq_some_iff.1 hs
    exact ⟨base, h.engine hsafe hf⟩
  | checkpoint =>
    obtain ⟨hidle, hs⟩ := ite_none_right_eq_some.1 hs
    cases hs
    refine ⟨_, h.checkpoint hidle fun name t ht n hn => ?_⟩
    rw [← h.logged.catalog] at ht
    exact hsafe (name, t) (SortedMap.mem_entries.2 ht) n hn
  | syncDirectory =>
    cases hs
    exact ⟨base, h.logged, h.represents, h.files, fun older log newer heq => by simp at heq⟩

/-! ## After a crash -/

omit [DecidableEq Λ] in
theorem found_eq {c : CrashOutcome} (h : ∀ x ∈ s.logged.db.tables.entries, x.1 ∈ c.dirs) :
    s.found c = s.logged.db.tables := by
  ext name : 1
  show (s.logged.db.tables.entries.filter _).lookup name = s.logged.db.tables.entries.lookup name
  rw [filter_eq_self.2 fun x hx => by simpa using h x hx]

/-- Every engine opens, with a mixture of what it held at the last checkpoint and later writes. -/
theorem Inv.reopens (h : Inv tok hrw tables rows s base) {c : CrashOutcome} (hmay : s.MayLeave c)
    (hsafe : s.CrashSafe cfg c) :
    ∃ engines : String → Engines, s.Reopens cfg c engines ∧ ∀ name t, tables.get name = some t →
      Mixed tok t (base name) (s.logged.log.map (·.forTable name)) (engines name) := by
  have hopen : ∀ name n, ∃ left : Store, ∀ t, tables.get name = some t → n ∈ t.engineNames →
      (∃ f, SyncedEngine.ofDisk cfg (s.remaining c (name, n)) = some f ∧
        ∀ k, f.live.engine.get cfg k = .ok (left.get k)) ∧
      ∀ k, left.get k = (base name n).get k ∨ ∃ b ∈ batchesFor s.logged.made (name, n),
        ∃ v, lastWrite b k = some v ∧ left.get k = v := by
    intro name n
    by_cases hex : ∃ t, tables.get name = some t ∧ n ∈ t.engineNames
    · obtain ⟨t, ht, hn⟩ := hex
      have hmem : (name, t) ∈ s.logged.db.tables.entries := by
        rw [h.logged.catalog]
        exact SortedMap.mem_entries.2 ht
      obtain ⟨f, left, hf, hget, hleft⟩ := (h.files name t ht n hn).reopen (hmay.1 (name, n))
        (hsafe.2.2 (name, t) hmem n hn)
      exact ⟨left, fun t' ht' _ => ⟨⟨f, hf, hget⟩, hleft⟩⟩
    · exact ⟨.empty, fun t ht hn => absurd ⟨t, ht, hn⟩ hex⟩
  choose engines hengines using hopen
  refine ⟨engines, fun name t ht n hn => ?_, fun name t ht n hn k => ?_⟩
  · rw [found_eq fun x hx => hmay.2.1 x.1 (hsafe.1 x hx), h.logged.catalog] at ht
    exact (hengines name n t ht hn).1
  · refine ((hengines name n t ht hn).2 k).imp_right fun ⟨b, hb, v, hv, heq⟩ => ?_
    have hmade := (sublist_append_left ..).trans (h.logged.made name t ht n)
    obtain ⟨w, hw, rfl⟩ := mem_map.1 (hmade.subset hb)
    exact ⟨w, hw, v, hv, heq⟩

omit [DecidableEq Λ] in
theorem rowsAfter_committed (s : DurableDb Λ) (rows : String → DbKey → Option Row) (name : String) :
    rowsAfter (s.committed.map (·.forTable name)) (rows name)
      = rowsAfter (s.logged.log.map (·.forTable name)) (s.baseRows rows name) := by
  unfold committed baseRows rowsAfter
  rw [map_append, foldl_append]

/-- **Durability.** In every run whose checkpoints find no unsynced frame in a sealed segment, and
after every crash that meets `CrashSafe`, the database opens with all its tables, and with exactly
the rows that all transactions so far have left in them. -/
theorem reopen_holds {engines : String → Engines}
    {files : String × EngineName → SyncedEngine DbKey Stored Λ} {dirs : List String}
    {oldLogs : List (List Prepared)}
    (hstart : ∀ name t, tables.get name = some t → Represents tok t (engines name) (rows name))
    (hfiles : ∀ name t, tables.get name = some t → ∀ n ∈ t.engineNames,
      AtRest hrw (engines name n) (files (name, n)))
    (hold : OldLogsOk tok tables rows oldLogs) {ls : List DurableStep}
    (hrun : Run (DurableDb.step cfg tok) (StepSafe cfg) (.start tables engines files dirs oldLogs)
      ls s)
    {c : CrashOutcome} (hmay : s.MayLeave c) (hsafe : s.CrashSafe cfg c) :
    ∃ left recovered, s.Reopens cfg c left ∧
      recoverTransactions tok (s.found c) left c.log = some recovered ∧
      ∀ name t, tables.get name = some t → (s.found c).get name = some t ∧
        Represents tok t (recovered name)
          (rowsAfter (s.committed.map (·.forTable name)) (rows name)) := by
  obtain ⟨base, h⟩ := hrun.invariant (I := fun _ s => ∃ base, Inv tok hrw tables rows s base)
    ⟨engines, .start hstart hfiles hold⟩ fun _ _ _ _ ⟨_, h⟩ hsafe hs => h.step hsafe hs
  obtain ⟨left, hopens, hmixed⟩ := h.reopens hmay hsafe
  have hfound : s.found c = tables :=
    (found_eq fun x hx => hmay.2.1 x.1 (hsafe.1 x hx)).trans h.logged.catalog
  refine ⟨left, ?_⟩
  rw [hfound]
  simp only [rowsAfter_committed]
  rcases hsafe.2.1 with hlog | ⟨hempty, hlog⟩
  · -- the log that is found has every record since the last checkpoint
    obtain ⟨recovered, hrec, hrep, -⟩ := recover_of_mixed h.logged.nodup h.represents
      h.logged.faithful hmixed
    rw [hlog]
    exact ⟨recovered, hopens, hrec, fun name t ht => ⟨ht, hrep name t ht⟩⟩
  · -- there is no record since, so the engines are as they were, whatever is replayed
    rw [hempty] at hmixed ⊢
    have hrep : ∀ name t, tables.get name = some t →
        Represents tok t (left name) (s.baseRows rows name) := fun name t ht =>
      ((hmixed name t ht).ahead (h.represents name t ht) trivial).represents
        (h.represents name t ht).width
    refine ⟨left, hopens, ?_, fun name t ht => ⟨ht, hrep name t ht⟩⟩
    rcases hlog with hnil | ⟨older, newer, hold, hnewer⟩
    · rw [hnil]
      rfl
    · obtain ⟨hnodup, before, hbefore⟩ := h.old older c.log newer hold hnewer
      refine recoverTransactions_eq hnodup (fun name t ht => ?_) fun _ _ => rfl
      obtain ⟨hwidth, hfaithful, hrows⟩ := hbefore name t ht
      have hrep := hrep name t ht
      rw [hrows] at hrep
      exact hrep.replay_again hfaithful hwidth

end DurableDb

end

/-! ## Concrete runs -/

namespace DurableDb

/-- Sizes for the concrete runs. -/
instance storedByteSize : ByteSize Stored := ⟨fun _ => 1⟩

def storedConfig : Config DbKey Stored Unit where
  options := {}
  rewriter := passthrough
  fileSize r := r.entries.length
  frameSize es := es.length

theorem storedConfig_keepsPlain : storedConfig.KeepsPlain := fun _ _ => rfl

instance decidableBackgroundSafe (f : SyncedEngine DbKey Stored Unit) :
    (b : Background) → Decidable (f.BackgroundSafe b)
  | .compact 0 => inferInstanceAs (Decidable f.live.engine.NoOvertaking)
  | .compact (_ + 1) | .sealActive | .claim _ | .finish _ | .retire | .syncWal => .isTrue trivial

instance decidableStepSafe (s : DurableDb Unit) :
    (l : DurableStep) → Decidable (s.StepSafe storedConfig l)
  | .db _ => inferInstanceAs (Decidable (_ ∧ ∀ x ∈ _, _))
  | .engine table n b => inferInstanceAs (Decidable ((s.files (table, n)).BackgroundSafe b))
  | .checkpoint => inferInstanceAs (Decidable (∀ x ∈ s.logged.db.tables.entries,
      ∀ n ∈ x.2.engineNames, (s.files (x.1, n)).SealedSynced))
  | .syncDirectory => .isTrue trivial

def createdEngine : SyncedEngine DbKey Stored Unit :=
  (SyncedEngine.ofDisk storedConfig .empty).get rfl

theorem atRest_createdEngine : AtRest storedConfig_keepsPlain .empty createdEngine := by
  obtain ⟨f, hf, hrun, hview⟩ := SyncedEngine.ofDisk_spec
    (Stored.empty (M := Meaning.identity storedConfig_keepsPlain)) rfl (.inl rfl)
  obtain rfl : f = createdEngine := some.inj (hf.symm.trans (some_get _).symm)
  have hqueue : createdEngine.live.engine.immutable.isEmpty = true := by decide +kernel
  have hsynced : ∀ w ∈ createdEngine.live.engine.segmentIds,
      (createdEngine.disk.segment w).length ≤ createdEngine.synced w := by decide +kernel
  exact ⟨hrun, .of_empty (isEmpty_iff.1 hqueue), hsynced, hview⟩

def freshNotes : DurableDb Unit :=
  .start (SortedMap.empty.insert "t" notes) (fun _ _ => .empty) (fun _ => createdEngine) [] []

def writeNote (id : Nat) (k v : String) : List DurableStep :=
  (writeAndFetch id k v ++ commitFetched id).map .db

/-- A crash that keeps no frame that was not synced. -/
def hardCrash (s : DurableDb Unit) : CrashOutcome where
  kept x w := (s.files x).synced w
  dirs := s.dirs
  log := s.logged.log

theorem mayLeave_hardCrash (s : DurableDb Unit) : s.MayLeave s.hardCrash :=
  ⟨fun _ _ => le_rfl, fun _ h => h, .inl rfl⟩

def syncedTrace : List DurableStep :=
  .syncDirectory :: writeNote 0 "x" "a" ++ [.engine "t" (.group "") .syncWal,
    .engine "t" (.group "") .sealActive, .checkpoint] ++ writeNote 1 "y" "b"

theorem reopen_syncedTrace : ∃ s,
    Run (DurableDb.step storedConfig fun _ => none) (StepSafe storedConfig) freshNotes
      syncedTrace s ∧
    ∃ left recovered, s.Reopens storedConfig s.hardCrash left ∧
      recoverTransactions (fun _ => none) (s.found s.hardCrash) left s.logged.log = some recovered ∧
      (recovered "t" (.group "")).get (.string "x") = some (.row [.string "x", .string "a"]) ∧
      (recovered "t" (.group "")).get (.string "y") = some (.row [.string "y", .string "b"]) := by
  refine Run.exists_of_exec (p := fun s =>
    (∀ x ∈ s.logged.db.tables.entries, x.1 ∈ s.dirs) ∧
    (∀ x ∈ s.logged.db.tables.entries, ∀ n ∈ x.2.engineNames,
      (replay storedConfig (s.remaining s.hardCrash (x.1, n)).segments).isEmpty = true ∨
        0 < (replay storedConfig (s.remaining s.hardCrash (x.1, n)).segments).byteSize) ∧
    rowsAfter (s.committed.map (·.forTable "t")) (fun _ => none) (.string "x")
      = some [.string "x", .string "a"] ∧
    rowsAfter (s.committed.map (·.forTable "t")) (fun _ => none) (.string "y")
      = some [.string "y", .string "b"]) (by decide +kernel) fun s hs ⟨hdirs, hsizes, hx, hy⟩ => ?_
  have hold : OldLogsOk (fun _ => none) (SortedMap.empty.insert "t" notes) (fun _ _ => none) [] :=
    fun older log newer heq => by simp at heq
  obtain ⟨left, recovered, hopens, hrec, hrows⟩ := reopen_holds
    (fun _ t _ => Represents.empty _ t) (fun _ _ _ _ _ => atRest_createdEngine) hold hs
    s.mayLeave_hardCrash ⟨hdirs, .inl rfl, hsizes⟩
  have hrep := (hrows "t" notes (by decide)).2
  refine ⟨left, recovered, hopens, hrec, ?_, ?_⟩
  · rw [hrep.groups "" (by decide), hx]
    rfl
  · rw [hrep.groups "" (by decide), hy]
    rfl

def sealedTrace : List DurableStep :=
  .syncDirectory :: writeNote 0 "x" "a" ++ [.engine "t" (.group "") .sealActive, .checkpoint]

/-- The checkpoint leaves the sealed segment unsynced and drops the log: the row is gone. -/
theorem reopen_sealedTrace : ∃ s,
    exec (DurableDb.step storedConfig fun _ => none) freshNotes sealedTrace = some s ∧
    s.MayLeave s.hardCrash ∧
    rowsAfter (s.committed.map (·.forTable "t")) (fun _ => none) (.string "x")
      = some [.string "x", .string "a"] ∧
    (∃ f, SyncedEngine.ofDisk storedConfig (s.remaining s.hardCrash ("t", .group "")) = some f ∧
      f.live.engine.get storedConfig (.string "x") = .ok none) ∧
    ∀ left recovered, s.Reopens storedConfig s.hardCrash left →
      recoverTransactions (fun _ => none) (s.found s.hardCrash) left s.logged.log = some recovered →
      notes.get (recovered "t") (.string "x") = none := by
  obtain ⟨s, hs, hlog, hfound, hrow, f, hf, hget⟩ : ∃ s,
      exec (step storedConfig fun _ => none) freshNotes sealedTrace = some s ∧
      s.logged.log.isEmpty = true ∧ (s.found s.hardCrash).get "t" = some notes ∧
      rowsAfter (s.committed.map (·.forTable "t")) (fun _ => none) (.string "x")
        = some [.string "x", .string "a"] ∧
      ∃ f, SyncedEngine.ofDisk storedConfig (s.remaining s.hardCrash ("t", .group "")) = some f ∧
        f.live.engine.get storedConfig (.string "x") = .ok none := by
    decide +kernel
  refine ⟨s, hs, s.mayLeave_hardCrash, hrow, ⟨f, hf, hget⟩, fun left recovered hleft hrec => ?_⟩
  rw [isEmpty_iff.1 hlog] at hrec
  cases hrec
  obtain ⟨f', hf', hget'⟩ := hleft "t" notes hfound (.group "") (by decide)
  cases hf.symm.trans hf'
  have hnone : (left "t" (.group "")).get (.string "x") = none :=
    Except.ok.inj ((hget' _).symm.trans hget)
  have hparts : Table.groupRow (left "t") (.string "x") "" = none := by
    unfold Table.groupRow
    rw [hnone]
  have hgroups : notes.schema.localityGroups = [""] := by decide
  unfold Table.get Table.mergeParts
  rw [hgroups, if_neg (by simp [hparts])]

end DurableDb

end Dtdb.Relational
