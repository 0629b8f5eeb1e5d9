import Dtdb.Lib.Path
import Dtdb.Lib.Run

/-! # Database names as paths

`create_db` and `drop_db` join the trimmed name to the data directory as a path.  Where it is one
file name, every database has its own entry, which no other drop touches. -/

namespace Dtdb.Api

open Dtdb.Lib List Option

/-- The characters `str::trim` removes. -/
def isWhitespace (c : Char) : Bool :=
  (0x9 ≤ c.toNat && c.toNat ≤ 0xd) || c.toNat = 0x20 || c.toNat = 0x85 || c.toNat = 0xa0 ||
    c.toNat = 0x1680 || (0x2000 ≤ c.toNat && c.toNat ≤ 0x200a) || c.toNat = 0x2028 ||
    c.toNat = 0x2029 || c.toNat = 0x202f || c.toNat = 0x205f || c.toNat = 0x3000

def trim (s : List Char) : List Char := (s.dropWhile isWhitespace).rdropWhile isWhitespace

def dbOptionsBin : FileName := ⟨"db_options.bin".toList, by decide⟩

/-- Where `Database::open_with_options_and_executor` fails. -/
inductive OpenFault where
  /-- `create_dir_all`, after that many directories -/
  | createDir (made : Nat)
  /-- after `db_options.bin` is written -/
  | load

inductive NameCall where
  | create (name : List Char) (fault : Option OpenFault)
  /-- `kept` is what `remove_dir_all` could not remove -/
  | drop (name : List Char) (kept : List AbsPath)

/-- The names in the catalog, the disk, and every directory opened or deleted. -/
structure NameCatalog where
  names : List (List Char)
  fs : Fs
  touched : List AbsPath

/-- The entries of the data directory that hold a `db_options.bin`. -/
def restoreDatabases (dataDir : AbsPath) (fs : Fs) : List FileName :=
  fs.dirs.filterMap fun p =>
    match p.getLast? with
    | some f => if p = dataDir ++ [f] ∧ p ++ [dbOptionsBin] ∈ fs.files then some f else none
    | none => none

namespace NameCatalog

/-- `DatabaseCatalog::new` on a data directory. -/
def start (dataDir : AbsPath) (fs : Fs) : NameCatalog where
  names := (restoreDatabases dataDir fs).map Subtype.val
  fs
  touched := (restoreDatabases dataDir fs).map fun f => dataDir ++ [f]

def createDb (dataDir : AbsPath) (s : NameCatalog) (name : List Char) (fault : Option OpenFault) :
    NameCatalog :=
  let dbName := trim name
  if dbName = [] then s
  else if dbName ∈ s.names then s
  else
    let dbPath := dataDir.join dbName
    let touched := dbPath :: s.touched
    match fault with
    | some (.createDir made) =>
      { s with fs := s.fs.createDirs ((dataDir.walk dbName).take made), touched }
    | some .load =>
      { s with
        fs := (s.fs.createDirs (dataDir.walk dbName)).writeFile (dbPath ++ [dbOptionsBin])
        touched }
    | none =>
      { names := dbName :: s.names
        fs := (s.fs.createDirs (dataDir.walk dbName)).writeFile (dbPath ++ [dbOptionsBin])
        touched }

def dropDb (dataDir : AbsPath) (s : NameCatalog) (name : List Char) (kept : List AbsPath) :
    NameCatalog :=
  let dbName := trim name
  if dbName = [] then s
  else if dbName ∈ s.names then
    let dbPath := dataDir.join dbName
    { names := s.names.filter (· ≠ dbName)
      fs := s.fs.removeAll dbPath kept
      touched := dbPath :: s.touched }
  else s

def step (dataDir : AbsPath) (s : NameCatalog) : NameCall → Option NameCatalog
  | .create name fault => some (s.createDb dataDir name fault)
  | .drop name kept => some (s.dropDb dataDir name kept)

/-- The trimmed name is refused or is one file name. -/
def NameSafe (_ : NameCatalog) : NameCall → Prop
  | .create name _ | .drop name _ => trim name = [] ∨ IsFileName (trim name)

/-- The directory of an entry and everything below it is as before. -/
def Intact (dataDir : AbsPath) (s s' : NameCatalog) (name : List Char) : Prop :=
  ∀ p, dataDir.join name <+: p → (p ∈ s'.fs.dirs ↔ p ∈ s.fs.dirs) ∧ (p ∈ s'.fs.files ↔ p ∈ s.fs.files)

/-! ## The invariant -/

structure Inv (dataDir : AbsPath) (s : NameCatalog) : Prop where
  fileName : ∀ name ∈ s.names, IsFileName name
  dir : ∀ f : FileName, f.1 ∈ s.names → dataDir ++ [f] ∈ s.fs.dirs
  options : ∀ f : FileName, f.1 ∈ s.names → dataDir ++ [f, dbOptionsBin] ∈ s.fs.files
  touched : ∀ p ∈ s.touched, dataDir.Below p

variable {dataDir : AbsPath} {s s' : NameCatalog} {name : List Char}

theorem mem_restoreDatabases {fs : Fs} {f : FileName} : f ∈ restoreDatabases dataDir fs ↔
    dataDir ++ [f] ∈ fs.dirs ∧ dataDir ++ [f, dbOptionsBin] ∈ fs.files := by
  unfold restoreDatabases
  rw [mem_filterMap]
  constructor
  · rintro ⟨p, hp, hf⟩
    split at hf
    · next g hg =>
      obtain ⟨hok, hf⟩ := ite_none_right_eq_some.1 hf
      cases hf
      rw [hok.1] at hp hok
      exact ⟨hp, by simpa using hok.2⟩
    · cases hf
  · rintro ⟨hd, hf⟩
    refine ⟨_, hd, ?_⟩
    simpa using hf

theorem Inv.start (dataDir : AbsPath) (fs : Fs) : Inv dataDir (start dataDir fs) where
  fileName name h := by
    obtain ⟨f, -, rfl⟩ := mem_map.1 h
    exact f.2
  dir f h := by
    obtain ⟨g, hg, heq⟩ := mem_map.1 h
    rw [← Subtype.ext heq]
    exact (mem_restoreDatabases.1 hg).1
  options f h := by
    obtain ⟨g, hg, heq⟩ := mem_map.1 h
    rw [← Subtype.ext heq]
    exact (mem_restoreDatabases.1 hg).2
  touched p h := by
    obtain ⟨f, -, rfl⟩ := mem_map.1 h
    exact AbsPath.below_append dataDir f

theorem Inv.grow (h : s.Inv dataDir) (fs : Fs) (hd : s.fs.dirs ⊆ fs.dirs)
    (hf : s.fs.files ⊆ fs.files) {p : AbsPath} (hp : dataDir.Below p) :
    Inv dataDir { s with fs, touched := p :: s.touched } where
  fileName := h.fileName
  dir f hn := hd (h.dir f hn)
  options f hn := hf (h.options f hn)
  touched q hq := by
    rcases mem_cons.1 hq with rfl | hq
    · exact hp
    · exact h.touched q hq

theorem Inv.createDb (h : s.Inv dataDir) (hname : trim name = [] ∨ IsFileName (trim name))
    (fault : Option OpenFault) : (s.createDb dataDir name fault).Inv dataDir := by
  unfold NameCatalog.createDb
  dsimp only
  split
  · exact h
  next hne =>
  split
  · exact h
  have hfile := hname.resolve_left hne
  have hbelow : dataDir.Below (dataDir.join (trim name)) := by
    rw [AbsPath.join_fileName hfile]
    exact AbsPath.below_append dataDir _
  split
  · next made =>
    exact h.grow (s.fs.createDirs ((dataDir.walk (trim name)).take made))
      (fun _ => mem_append_right _) (fun _ => id) hbelow
  all_goals
    have hgrown := h.grow ((s.fs.createDirs (dataDir.walk (trim name))).writeFile
      (dataDir.join (trim name) ++ [dbOptionsBin])) (fun _ => mem_append_right _)
      (fun _ => mem_cons_of_mem _) hbelow
  · exact hgrown
  · refine ⟨fun n hn => ?_, fun f hn => ?_, fun f hn => ?_, hgrown.touched⟩
    · rcases mem_cons.1 hn with rfl | hn
      · exact hfile
      · exact h.fileName n hn
    · rcases mem_cons.1 hn with heq | hn
      · refine mem_append_left _ ?_
        rw [AbsPath.walk_fileName hfile, show f = ⟨trim name, hfile⟩ from Subtype.ext heq]
        simp
      · exact hgrown.dir f hn
    · rcases mem_cons.1 hn with heq | hn
      · refine mem_cons.2 (.inl ?_)
        rw [AbsPath.join_fileName hfile, show f = ⟨trim name, hfile⟩ from Subtype.ext heq]
        simp
      · exact hgrown.options f hn

theorem Inv.intact_dropDb (h : s.Inv dataDir) (hname : trim name = [] ∨ IsFileName (trim name))
    (kept : List AbsPath) {m : List Char} (hm : m ∈ (s.dropDb dataDir name kept).names) :
    Intact dataDir s (s.dropDb dataDir name kept) m := by
  unfold NameCatalog.dropDb at hm ⊢
  dsimp only at hm ⊢
  split at hm
  · next hne =>
    rw [if_pos hne]
    exact fun p _ => ⟨Iff.rfl, Iff.rfl⟩
  next hne =>
  rw [if_neg hne]
  split at hm
  · next hin =>
    rw [if_pos hin]
    obtain ⟨hmem, hmne⟩ := mem_filter.1 hm
    have hfile := hname.resolve_left hne
    have hmfile := h.fileName m hmem
    intro p hp
    rw [AbsPath.join_fileName hmfile] at hp
    have hapart : ¬ dataDir.join (trim name) <+: p := by
      rw [AbsPath.join_fileName hfile]
      intro hg
      have := prefix_of_prefix_length_le hg hp (by simp)
      simp at this
      exact of_decide_eq_true hmne this.symm
    simp [Fs.removeAll, hapart]
  · next hin =>
    rw [if_neg hin]
    exact fun p _ => ⟨Iff.rfl, Iff.rfl⟩

theorem Inv.dropDb (h : s.Inv dataDir) (hname : trim name = [] ∨ IsFileName (trim name))
    (kept : List AbsPath) : (s.dropDb dataDir name kept).Inv dataDir := by
  have hnames : ∀ n ∈ (s.dropDb dataDir name kept).names, n ∈ s.names := by
    intro n hn
    unfold NameCatalog.dropDb at hn
    dsimp only at hn
    split at hn
    · exact hn
    · split at hn
      · exact mem_of_mem_filter hn
      · exact hn
  have hkeep : ∀ f : FileName, f.1 ∈ (s.dropDb dataDir name kept).names → ∀ q,
      dataDir ++ [f] <+: q → _ := fun f hf q hq =>
    h.intact_dropDb hname kept hf q (by rw [AbsPath.join_fileName f.2]; exact hq)
  refine ⟨fun n hn => h.fileName n (hnames n hn), fun f hf => ?_, fun f hf => ?_, fun p hp => ?_⟩
  · exact (hkeep f hf _ prefix_rfl).1.2 (h.dir f (hnames _ hf))
  · refine (hkeep f hf _ ?_).2.2 (h.options f (hnames _ hf))
    exact ⟨[dbOptionsBin], by simp⟩
  · unfold NameCatalog.dropDb at hp
    dsimp only at hp
    split at hp
    · exact h.touched p hp
    next hne =>
    split at hp
    · rcases mem_cons.1 hp with rfl | hp
      · rw [AbsPath.join_fileName (hname.resolve_left hne)]
        exact AbsPath.below_append dataDir _
      · exact h.touched p hp
    · exact h.touched p hp

theorem Inv.step (h : s.Inv dataDir) {l : NameCall} (hok : s.NameSafe l)
    (hs : s.step dataDir l = some s') : s'.Inv dataDir := by
  cases l with
  | create name fault =>
    cases hs
    exact h.createDb hok fault
  | drop name kept =>
    cases hs
    exact h.dropDb hok kept

/-- **Names and directories.** After every sequence of creates and drops whose trimmed names are
single file names, every directory opened or deleted lies strictly below the data directory, a
further drop leaves the directories of the other entries as they are, and a restart finds every
database that was created and not dropped. -/
theorem names_confined (dataDir : AbsPath) (fs : Fs) {ls : List NameCall}
    (hr : Run (step dataDir) NameSafe (start dataDir fs) ls s) :
    (∀ p ∈ s.touched, dataDir.Below p) ∧
    (∀ name kept s', s.NameSafe (.drop name kept) → s.step dataDir (.drop name kept) = some s' →
      ∀ m ∈ s'.names, Intact dataDir s s' m) ∧
    ∀ m ∈ s.names, m ∈ (start dataDir s.fs).names := by
  have h : s.Inv dataDir := hr.invariant (I := fun _ s => Inv dataDir s) (.start dataDir fs)
    fun _ _ _ _ h hok hs => h.step hok hs
  refine ⟨h.touched, fun name kept s' hok hs m hm => ?_, fun m hm => ?_⟩
  · cases hs
    exact h.intact_dropDb hok kept hm
  · refine mem_map.2 ⟨⟨m, h.fileName m hm⟩, mem_restoreDatabases.2 ⟨?_, ?_⟩, rfl⟩
    · exact h.dir _ hm
    · exact h.options _ hm

instance decidableNameSafe (s : NameCatalog) : (l : NameCall) → Decidable (s.NameSafe l)
  | .create _ _ | .drop _ _ => inferInstanceAs (Decidable (_ ∨ _))

def srvData : AbsPath := [⟨"srv".toList, by decide⟩, ⟨"data".toList, by decide⟩]

def emptyDisk : Fs := ⟨[[], [⟨"srv".toList, by decide⟩], srvData], []⟩

def plainNames : List NameCall :=
  [.create " a ".toList none, .create "b".toList none, .create "c".toList (some .load),
    .drop "a".toList []]

theorem names_confined_plainNames :
    ∃ s, Run (step srvData) NameSafe (start srvData emptyDisk) plainNames s ∧
      "b".toList ∈ s.names ∧ "b".toList ∈ (start srvData s.fs).names ∧
      ∀ p ∈ s.touched, srvData.Below p := by
  refine Run.exists_of_exec (p := fun s => "b".toList ∈ s.names) (by decide +kernel)
    fun s hr hb => ?_
  obtain ⟨htouched, -, hfound⟩ := names_confined srvData emptyDisk hr
  exact ⟨hb, hfound _ hb, htouched⟩

/-- The database `..` is the parent of the data directory, dropping `a` deletes `a/b` with it, and
`a/b` is not found by a restart. -/
theorem names_escape :
    (∃ s, exec (step srvData) (start srvData emptyDisk) [.create "..".toList none] = some s ∧
      ∃ p ∈ s.touched, ¬ srvData.Below p) ∧
    (∃ s s', exec (step srvData) (start srvData emptyDisk)
        [.create "a".toList none, .create "a/b".toList none] = some s ∧
      s.step srvData (.drop "a".toList []) = some s' ∧ "a/b".toList ∈ s'.names ∧
      srvData.join "a/b".toList ∈ s.fs.dirs ∧ srvData.join "a/b".toList ∉ s'.fs.dirs) ∧
    ∃ s, exec (step srvData) (start srvData emptyDisk) [.create "a/b".toList none] = some s ∧
      "a/b".toList ∈ s.names ∧ "a/b".toList ∉ (start srvData s.fs).names := by
  refine ⟨⟨_, rfl, srvData.join "..".toList, ?_, ?_⟩, ⟨_, _, rfl, rfl, ?_⟩, _, rfl, ?_⟩
  · decide +kernel
  · intro h
    exact absurd h.1 (by decide +kernel)
  · decide +kernel
  · decide +kernel

end NameCatalog

end Dtdb.Api
