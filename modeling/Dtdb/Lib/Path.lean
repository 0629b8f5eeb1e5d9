import Mathlib.Data.List.Basic
import Mathlib.Data.List.Infix
import Mathlib.Data.List.DropRight

/-! # Paths

Absolute paths are lists of file names.  `join` resolves a path string against one, component by
component.  `Fs` is a tree of directories and files without links. -/

namespace Dtdb.Lib

def IsFileName (c : List Char) : Prop := c ≠ [] ∧ '/' ∉ c ∧ c ≠ ['.'] ∧ c ≠ ['.', '.']

instance decidableIsFileName (c : List Char) : Decidable (IsFileName c) :=
  inferInstanceAs (Decidable (_ ∧ _ ∧ _ ∧ _))

abbrev FileName := {c : List Char // IsFileName c}

abbrev AbsPath := List FileName

instance lawfulAbsPath : LawfulBEq AbsPath := inferInstance

namespace AbsPath

def descend (p : AbsPath) (c : List Char) : AbsPath :=
  if h : IsFileName c then p ++ [⟨c, h⟩]
  else if c = ['.', '.'] then p.dropLast
  else p

/-- Where the components of a path string are read from. -/
def start (base : AbsPath) (s : List Char) : AbsPath := if s.head? = some '/' then [] else base

def join (base : AbsPath) (s : List Char) : AbsPath :=
  (s.splitOn '/').foldl descend (base.start s)

/-- Every directory on the way of `join`. -/
def walk (base : AbsPath) (s : List Char) : List AbsPath :=
  (s.splitOn '/').scanl descend (base.start s)

variable {base : AbsPath} {s : List Char}

theorem splitOn_fileName (h : IsFileName s) : s.splitOn '/' = [s] := by
  refine List.splitOnP_eq_singleton fun c hc => ?_
  rw [beq_eq_false_iff_ne]
  rintro rfl
  exact h.2.1 hc

theorem start_fileName (h : IsFileName s) : base.start s = base := by
  unfold start
  rw [if_neg]
  intro hs
  exact h.2.1 (List.mem_of_mem_head? hs)

theorem join_fileName (h : IsFileName s) : base.join s = base ++ [⟨s, h⟩] := by
  rw [join, splitOn_fileName h, start_fileName h]
  exact dif_pos h

theorem walk_fileName (h : IsFileName s) : base.walk s = [base, base ++ [⟨s, h⟩]] := by
  rw [walk, splitOn_fileName h, start_fileName h]
  simp [descend, h]

def Below (base p : AbsPath) : Prop := base <+: p ∧ p ≠ base

theorem below_append (base : AbsPath) (f : FileName) : Below base (base ++ [f]) :=
  ⟨List.prefix_append base [f], by simp⟩

end AbsPath

/-! ## Directory trees -/

structure Fs where
  dirs : List AbsPath
  files : List AbsPath

namespace Fs

def createDirs (fs : Fs) (ps : List AbsPath) : Fs := { fs with dirs := ps ++ fs.dirs }

def writeFile (fs : Fs) (p : AbsPath) : Fs := { fs with files := p :: fs.files }

/-- Remove `p` and all below it but what could not be removed. -/
def removeAll (fs : Fs) (p : AbsPath) (kept : List AbsPath) : Fs where
  dirs := fs.dirs.filter fun q => ¬ p <+: q ∨ q ∈ kept
  files := fs.files.filter fun q => ¬ p <+: q ∨ q ∈ kept

end Fs

end Dtdb.Lib
