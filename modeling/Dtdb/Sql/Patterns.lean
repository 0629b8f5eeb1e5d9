import Dtdb.Lib.Lex
import Dtdb.Sql.Bounds

/-! # LIKE patterns

A pattern is translated to a regular expression.  For the texts that begin with a pattern's letters,
an upper bound increments the last letter that has a successor. -/

namespace Dtdb.Sql

open Dtdb.Lib List Option

/-! ## The regular expression -/

def escaped (c : Char) : Bool := c ∈ "\\.+*?()|[]\x7b\x7d^$".toList

/-- `like_pattern_to_regex`, behind its `(?s)^`. -/
def likePatternToRegex : List Char → List Char
  | [] => ['$']
  | c :: pattern =>
    if c = '%' then '.' :: '*' :: likePatternToRegex pattern
    else if c = '_' then '.' :: likePatternToRegex pattern
    else if escaped c then '\\' :: c :: likePatternToRegex pattern
    else c :: likePatternToRegex pattern

/-- How the regex crate reads such an expression. -/
def parseRegex : List Char → Option (List LikeItem)
  | [] => none
  | ['$'] => some []
  | '.' :: '*' :: cs => (parseRegex cs).map (.anyStar :: ·)
  | '.' :: cs => (parseRegex cs).map (.any :: ·)
  | '\\' :: c :: cs => (parseRegex cs).map (.lit c :: ·)
  | c :: cs => if escaped c then none else (parseRegex cs).map (.lit c :: ·)

theorem head_likePatternToRegex (pattern : List Char) :
    ∃ c cs, likePatternToRegex pattern = c :: cs ∧ c ≠ '*' := by
  cases pattern with
  | nil => exact ⟨_, _, rfl, by decide⟩
  | cons c pattern =>
    rw [likePatternToRegex]
    split_ifs with _ _ hesc
    · exact ⟨_, _, rfl, by decide⟩
    · exact ⟨_, _, rfl, by decide⟩
    · exact ⟨_, _, rfl, by decide⟩
    · exact ⟨_, _, rfl, fun h => hesc (by rw [h]; decide)⟩

/-- A letter of the pattern stands for itself. -/
theorem parse_likePatternToRegex (pattern : List Char) :
    parseRegex (likePatternToRegex pattern) = some (likeItems (String.ofList pattern)) := by
  unfold likeItems
  rw [String.toList_ofList]
  induction pattern with
  | nil => rfl
  | cons c pattern ih =>
    rw [likePatternToRegex, map_cons]
    split_ifs with _ _ hesc
    · simp [parseRegex, ih]
    · obtain ⟨d, ds, hds, hd⟩ := head_likePatternToRegex pattern
      rw [hds] at ih ⊢
      simp [parseRegex, ih, hd]
    · simp [parseRegex, ih]
    · have hne : c ≠ '.' ∧ c ≠ '\\' ∧ c ≠ '$' := by
        refine ⟨?_, ?_, ?_⟩ <;> rintro rfl <;> exact hesc (by decide)
      simp [parseRegex, ih, hne, hesc]

structure RegexCrate where
  new : List Char → Option (String → Bool)
  matches_new : ∀ {source items re}, parseRegex source = some items → new source = some re →
    ∀ text, re text = matchItems items text.toList

def RegexCrate.likeMatch (crate : RegexCrate) (text pattern : String) : Bool :=
  match crate.new (likePatternToRegex pattern.toList) with
  | some re => re text
  | none => false

theorem RegexCrate.likeMatch_eq (crate : RegexCrate) (text pattern : String) :
    crate.likeMatch text pattern = ((crate.new (likePatternToRegex pattern.toList)).isSome &&
      matchItems (likeItems pattern) text.toList) := by
  unfold likeMatch
  cases hre : crate.new (likePatternToRegex pattern.toList) with
  | none => rfl
  | some re => simp [crate.matches_new (parse_likePatternToRegex pattern.toList) hre text]

def Like : List Char → List Char → Prop
  | [], text => text = []
  | c :: pattern, text =>
    if c = '%' then ∃ skipped rest, text = skipped ++ rest ∧ Like pattern rest
    else if c = '_' then ∃ d rest, text = d :: rest ∧ Like pattern rest
    else ∃ rest, text = c :: rest ∧ Like pattern rest

theorem matchItems_iff (pattern text : List Char) :
    matchItems (pattern.map fun c => if c = '%' then .anyStar else if c = '_' then .any else .lit c)
      text = true ↔ Like pattern text := by
  induction pattern generalizing text with
  | nil => simp [matchItems, Like]
  | cons c pattern ih =>
    rw [map_cons, Like]
    split_ifs
    · simp [matchItems, List.any_eq_true, mem_tails, ih]
      exact ⟨fun ⟨rest, ⟨skipped, h⟩, hrest⟩ => ⟨skipped, rest, h.symm, hrest⟩,
        fun ⟨skipped, rest, h, hrest⟩ => ⟨rest, ⟨skipped, h.symm⟩, hrest⟩⟩
    · cases text <;> simp [matchItems, ih]
    · cases text with
      | nil => simp [matchItems]
      | cons d text => simp [matchItems, ih, eq_comm (a := c)]

/-- A crate that accepts whatever it can read. -/
def RegexCrate.all : RegexCrate where
  new source := (parseRegex source).map fun items text => matchItems items text.toList
  matches_new hitems hre text := by
    rw [hitems, map_some, some_inj] at hre
    rw [← hre]

theorem isPrefix_of_matchItems {pattern : List Char} {text : List Char}
    (h : matchItems (pattern.map fun c => if c = '%' then .anyStar else if c = '_' then .any else .lit c)
      text = true) : pattern.takeWhile (fun c => c ≠ '%' && c ≠ '_') <+: text := by
  induction pattern generalizing text with
  | nil => exact nil_prefix
  | cons c pattern ih =>
    rw [takeWhile_cons]
    split
    · next hc =>
      simp only [ne_eq, decide_not, Bool.and_eq_true, Bool.not_eq_eq_eq_not, Bool.not_true,
        decide_eq_false_iff_not] at hc
      rw [map_cons, if_neg hc.1, if_neg hc.2] at h
      cases text with
      | nil => cases h
      | cons d text =>
        simp only [matchItems, Bool.and_eq_true, decide_eq_true_eq] at h
        rw [h.1]
        exact (prefix_cons_inj d).2 (ih h.2)
    · exact nil_prefix

/-! ## Successors -/

theorem lt_iff_nextScalar_le {c d : Char} (h : nextScalar c = some d) (x : Char) : c < x ↔ d ≤ x := by
  show c.toNat < x.toNat ↔ d.toNat ≤ x.toNat
  have hx : x.toNat.isValidChar := x.valid
  have hc : c.toNat.isValidChar := c.valid
  unfold nextScalar at h
  split at h
  · next hgap =>
    cases h
    have hd : (Char.ofNat 0xe000).toNat = 0xe000 := by decide
    omega
  · next hgap =>
    obtain ⟨hlast, h⟩ := ite_none_left_eq_some.1 h
    cases h
    have hvalid : (c.toNat + 1).isValidChar := by
      omega
    unfold Char.ofNat
    rw [dif_pos hvalid]
    exact Nat.lt_iff_add_one_le

theorem nextScalar_eq_none {c : Char} (h : nextScalar c = none) : c.toNat = 0x10ffff := by
  unfold nextScalar at h
  split_ifs at h with _ hc
  exact hc

theorem reverseSuccessor_lt {cs ds : List Char} (h : reverseSuccessor cs = some ds)
    (rest : List Char) : cs.reverse ++ rest < ds.reverse := by
  induction cs generalizing rest with
  | nil => cases h
  | cons c cs ih =>
    unfold reverseSuccessor at h
    rw [reverse_cons, append_assoc]
    cases hn : nextScalar c with
    | none =>
      rw [hn] at h
      exact ih h _
    | some d =>
      rw [hn] at h
      cases h
      rw [reverse_cons]
      exact append_lt_append _ ((lt_iff_nextScalar_le hn d).2 le_rfl) _ _

theorem reverseSuccessor_le {cs w : List Char} (h : ∀ rest, cs.reverse ++ rest < w) :
    ∃ ds, reverseSuccessor cs = some ds ∧ ds.reverse ≤ w := by
  induction cs with
  | nil => exact absurd (h w) (lt_irrefl w)
  | cons c cs ih =>
    simp only [reverse_cons, append_assoc] at h
    unfold reverseSuccessor
    cases hn : nextScalar c with
    | none =>
      have hmax : ∀ x : Char, x ≤ c := fun x => by
        show x.toNat ≤ c.toNat
        have hx : x.toNat.isValidChar := x.valid
        have hc := nextScalar_eq_none hn
        omega
      refine ih fun rest => (not_lt.1 ?_).trans_lt (h rest)
      exact append_left_le (not_lt.2 (le_cons hmax rest))
    | some d =>
      refine ⟨_, rfl, ?_⟩
      rw [reverse_cons]
      exact append_le_of_forall_lt (fun x => (lt_iff_nextScalar_le hn x).1) h

theorem reverseSuccessor_eq_none {cs : List Char} (h : reverseSuccessor cs = none) :
    ∀ c ∈ cs, c.toNat = 0x10ffff := by
  induction cs with
  | nil => nofun
  | cons c cs ih =>
    unfold reverseSuccessor at h
    cases hn : nextScalar c with
    | none =>
      rw [hn] at h
      exact forall_mem_cons.2 ⟨nextScalar_eq_none hn, ih h⟩
    | some d =>
      rw [hn] at h
      cases h

/-- The texts behind all that begin so. -/
def behind (p : String) : Set String := {w | ∀ s : String, p.toList <+: s.toList → s < w}

/-- **The successor of a beginning** is the least text behind all texts that begin so; without one,
the beginning has no other letter than the last and there is no such text. -/
theorem prefixSuccessor_isLeast (p : String) :
    (∀ u, prefixSuccessor p = some u → IsLeast (behind p) u) ∧
      (prefixSuccessor p = none → (∀ c ∈ p.toList, c.toNat = 0x10ffff) ∧ behind p = ∅) := by
  have hle : ∀ w ∈ behind p, ∃ ds, reverseSuccessor p.toList.reverse = some ds ∧ ds.reverse ≤ w.toList := by
    intro w hw
    refine reverseSuccessor_le fun rest => ?_
    have := String.lt_iff_toList_lt.1 (hw (String.ofList (p.toList ++ rest)) (by simp))
    simpa using this
  refine ⟨fun u hu => ?_, fun hnone => ?_⟩
  · obtain ⟨cs, hcs, rfl⟩ := map_eq_some_iff.1 hu
    refine ⟨fun s hs => ?_, fun w hw => ?_⟩
    · obtain ⟨rest, hrest⟩ := hs
      have := reverseSuccessor_lt hcs rest
      rw [reverse_reverse, hrest] at this
      rwa [String.lt_iff_toList_lt, String.toList_ofList]
    · obtain ⟨ds, hds, hw⟩ := hle w hw
      rw [hcs] at hds
      cases hds
      rwa [String.le_iff_toList_le, String.toList_ofList]
  · have hnone := map_eq_none_iff.1 hnone
    refine ⟨by simpa using reverseSuccessor_eq_none hnone, Set.eq_empty_of_forall_notMem fun w hw => ?_⟩
    obtain ⟨ds, hds, -⟩ := hle w hw
    rw [hnone] at hds
    cases hds

end Dtdb.Sql
