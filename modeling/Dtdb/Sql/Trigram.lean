import Mathlib.Data.List.Destutter
import Mathlib.Data.List.Sort
import Dtdb.Sql.Value

/-! # The trigrams of a LIKE pattern

A pattern's literal runs are lowercased one by one, a stored text as a whole; only the capital sigma
depends on the characters around it. -/

namespace Dtdb.Sql

open List

/-- The Unicode tables behind `str::to_lowercase`. -/
structure CaseTables where
  lower : Char → List Char
  cased : Char → Bool
  caseIgnorable : Char → Bool

namespace CaseTables

variable (t : CaseTables)

/-- Whether the first character that is not ignored is cased, if there is one. -/
def firstCased (cs : List Char) : Option Bool := (cs.dropWhile t.caseIgnorable).head?.map t.cased

/-- What stands before is given from its end. -/
def mapUppercaseSigma (before after : List Char) : Char :=
  if (t.firstCased before).getD false && !(t.firstCased after).getD false then 'ς' else 'σ'

def lowerPart (before : List Char) : (part after : List Char) → List Char
  | [], _ => []
  | c :: cs, after =>
    (if c = 'Σ' then [t.mapUppercaseSigma before (cs ++ after)] else t.lower c) ++
      lowerPart (c :: before) cs after

def toLowercase (text : List Char) : List Char := t.lowerPart [] text []

/-! ## The tokenizer -/

def tokenize (text : List Char) : List (List Char) :=
  ((t.toLowercase text).tails.map (take 3)).filter fun w => w.length = 3

structure LikePlan where
  required : List (List Char)
  needsRecheck : Bool

def literalRuns (pattern : String) : List (List Char) :=
  pattern.toList.splitOnP fun c => c = '%' || c = '_'

def planLike (pattern : String) : Option LikePlan :=
  let required := (literalRuns pattern).flatMap t.tokenize
  if required.isEmpty then none
  else some ⟨(required.insertionSort (· ≤ ·)).destutter (· ≠ ·), true⟩

/-! ## Sigmas that a run decides -/

/-- What surrounds an open run does not change how its sigmas are lowercased. -/
def decided (openLeft openRight : Bool) : (left right : Option Bool) → Bool
  | none, right => !openLeft || right = some true
  | some false, _ => true
  | some true, none => !openRight
  | some true, some _ => true

def decidedPart (openLeft openRight : Bool) (before : List Char) : List Char → Bool
  | [] => true
  | c :: cs =>
    (c ≠ 'Σ' || decided openLeft openRight (t.firstCased before) (t.firstCased cs)) &&
      decidedPart openLeft openRight (c :: before) cs

/-- Every sigma is decided; the first and the last run end where the text ends. -/
def decidedRuns (openLeft : Bool) : List (List Char) → Bool
  | [] => true
  | r :: rs => t.decidedPart openLeft (!rs.isEmpty) [] r && decidedRuns true rs

variable {t} {openLeft openRight : Bool} {before after : List Char}

theorem firstCased_append (xs ys : List Char) :
    t.firstCased (xs ++ ys) = (t.firstCased xs).or (t.firstCased ys) := by
  unfold firstCased
  induction xs with
  | nil => rfl
  | cons c cs ih => by_cases h : t.caseIgnorable c = true <;> simp [h, ih]

theorem mapUppercaseSigma_append (hl : openLeft = false → before = [])
    (hr : openRight = false → after = []) {left right : List Char}
    (h : decided openLeft openRight (t.firstCased left) (t.firstCased right) = true) :
    t.mapUppercaseSigma (left ++ before) (right ++ after) = t.mapUppercaseSigma left right := by
  unfold mapUppercaseSigma
  rw [firstCased_append, firstCased_append]
  cases hleft : t.firstCased left with
  | none =>
    rw [hleft] at h
    cases openLeft with
    | false => simp [hl rfl, firstCased]
    | true =>
      have hright : t.firstCased right = some true := by simpa [decided] using h
      simp [hright]
  | some b =>
    cases b with
    | false => rfl
    | true =>
      rw [hleft] at h
      cases hright : t.firstCased right with
      | some _ => rfl
      | none =>
        obtain rfl : openRight = false := by simpa [hright, decided] using h
        simp [hr rfl, firstCased]

theorem lowerPart_append (hl : openLeft = false → before = [])
    (hr : openRight = false → after = []) {left run : List Char}
    (h : t.decidedPart openLeft openRight left run = true) :
    t.lowerPart (left ++ before) run after = t.lowerPart left run [] := by
  induction run generalizing left with
  | nil => rfl
  | cons c cs ih =>
    obtain ⟨hc, hcs⟩ := Bool.and_eq_true_iff.1 h
    rw [lowerPart, lowerPart, append_nil, ← cons_append, ih hcs]
    by_cases hsigma : c = 'Σ'
    · rw [if_pos hsigma, if_pos hsigma, mapUppercaseSigma_append hl hr (by simpa [hsigma] using hc)]
    · rw [if_neg hsigma, if_neg hsigma]

theorem lowerPart_split (before xs ys after : List Char) :
    t.lowerPart before (xs ++ ys) after
      = t.lowerPart before xs (ys ++ after) ++ t.lowerPart (xs.reverse ++ before) ys after := by
  induction xs generalizing before with
  | nil => rfl
  | cons c cs ih => simp [lowerPart, ih]

/-! ## The runs in a text that matches -/

/-- The text consists of the runs with gaps between them. -/
def Laid : List (List Char) → List Char → Prop
  | [], _ => False
  | r :: rs, text => rs = [] ∧ text = r ∨ ∃ gap rest, text = r ++ (gap ++ rest) ∧ Laid rs rest

theorem laid_of_matchItems {pattern text : List Char} (h : matchItems (pattern.map fun c =>
    if c = '%' then .anyStar else if c = '_' then .any else .lit c) text = true) :
    Laid (pattern.splitOnP fun c => c = '%' || c = '_') text := by
  induction pattern generalizing text with
  | nil => exact .inl ⟨rfl, by simpa [matchItems] using h⟩
  | cons c cs ih =>
    rw [splitOnP_cons_eq_if_modifyHead]
    rw [map_cons] at h
    split
    · next hc =>
      right
      split at h
      · obtain ⟨rest, hrest, hitems⟩ := any_eq_true.1 h
        obtain ⟨gap, rfl⟩ := (mem_tails _ _).1 hrest
        exact ⟨gap, rest, rfl, ih hitems⟩
      · rw [if_pos (by simp_all)] at h
        cases text with
        | nil => cases h
        | cons d text => exact ⟨[d], text, rfl, ih h⟩
    · next hc =>
      rw [if_neg (by simp_all), if_neg (by simp_all)] at h
      cases text with
      | nil => cases h
      | cons d text =>
        rw [matchItems, Bool.and_eq_true, decide_eq_true_eq] at h
        obtain ⟨rfl, h⟩ := h
        have hlaid := ih h
        revert hlaid
        cases cs.splitOnP fun c => c = '%' || c = '_' with
        | nil => exact id
        | cons r rs =>
          rintro (⟨rfl, rfl⟩ | ⟨gap, rest, rfl, hrest⟩)
          · exact .inl ⟨rfl, rfl⟩
          · exact .inr ⟨gap, rest, rfl, hrest⟩

theorem infix_of_laid {rs : List (List Char)} {text : List Char}
    (hl : openLeft = false → before = []) (h : Laid rs text)
    (hd : t.decidedRuns openLeft rs = true) :
    ∀ r ∈ rs, t.toLowercase r <:+: t.lowerPart before text [] := by
  induction rs generalizing openLeft before text with
  | nil => nofun
  | cons r rs ih =>
    obtain ⟨hr, hrs⟩ := Bool.and_eq_true_iff.1 hd
    rcases h with ⟨rfl, rfl⟩ | ⟨gap, rest, rfl, hrest⟩
    · have halone := lowerPart_append hl (fun _ => rfl) hr
      simpa [toLowercase] using halone ▸ infix_rfl
    · have hne : rs ≠ [] := fun h => by simp [h, Laid] at hrest
      rw [lowerPart_split, lowerPart_split]
      rintro x (_ | ⟨_, hx⟩)
      · rw [← nil_append before, lowerPart_append hl (by simp [hne]) hr]
        exact (prefix_append ..).isInfix
      · exact (ih (fun h : true = false => nomatch h) hrest hrs x hx).trans
          ((suffix_append ..).trans (suffix_append ..)).isInfix

theorem mem_tokenize {text w : List Char} :
    w ∈ t.tokenize text ↔ w.length = 3 ∧ w <:+: t.toLowercase text := by
  simp only [tokenize, mem_filter, mem_map, mem_tails, decide_eq_true_eq, infix_iff_prefix_suffix]
  constructor
  · rintro ⟨⟨x, hx, rfl⟩, hw⟩
    exact ⟨hw, x, take_prefix 3 x, hx⟩
  · rintro ⟨hw, x, hpre, hx⟩
    exact ⟨⟨x, hx, by rw [prefix_iff_eq_take.1 hpre, hw]⟩, hw⟩

def greek : CaseTables where
  lower c := if c = 'Α' then ['α'] else if c = 'Β' then ['β'] else if c = 'Δ' then ['δ'] else [c]
  cased c := c ∈ ['Α', 'Β', 'Σ', 'Δ', 'α', 'β', 'σ', 'ς', 'δ']
  caseIgnorable c := c = '.'

end CaseTables

end Dtdb.Sql
