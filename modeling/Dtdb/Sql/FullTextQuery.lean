import Mathlib.Algebra.Group.Nat.Even
import Dtdb.Lib.Flow
import Dtdb.Sql.Value

/-! # Queries of the full text search

`FullTextQuery::parse` splits a text into tokens and reads them by recursive descent: OR binds
loosest, and terms side by side are joined by AND. -/

namespace Dtdb.Sql

open List Lib

inductive FullTextQuery where
  | token (w : String)
  | and (l r : FullTextQuery)
  | or (l r : FullTextQuery)
  | phrase (ws : List String)
deriving DecidableEq

inductive LexToken where
  | lParen
  | rParen
  | andOp
  | orOp
  | word (w : String)
  | phraseString (s : String)
deriving DecidableEq

/-- The tokenizer, and what the parser takes from the standard library. -/
structure Lexicon where
  tokenize : String → List String
  toUppercase : String → String
  debug : LexToken → String
  toUppercase_and : toUppercase "AND" = "AND"
  toUppercase_or : toUppercase "OR" = "OR"

variable (x : Lexicon)

/-! ## The parser -/

/-- A character that ends a term. -/
def endsTerm (c : Char) : Bool := isWhitespace c || c = '(' || c = ')' || c = '"'

def lexTerm (term : String) : List LexToken :=
  if x.toUppercase term = "AND" then [.andOp]
  else if x.toUppercase term = "OR" then [.orOp]
  else (x.tokenize term).map .word

def lex : List Char → Except String (List LexToken)
  | [] => .ok []
  | c :: cs =>
    if isWhitespace c then lex cs
    else if c = '(' then do .ok (.lParen :: (← lex cs))
    else if c = ')' then do .ok (.rParen :: (← lex cs))
    else if c = '"' then
      match _h : cs.dropWhile (· ≠ '"') with
      | [] => .error "Unterminated phrase query (missing closing double quote)"
      | _ :: rest => do .ok (.phraseString (.ofList (cs.takeWhile (· ≠ '"'))) :: (← lex rest))
    else do
      .ok (lexTerm x (.ofList (c :: cs.takeWhile (!endsTerm ·))) ++
        (← lex (cs.dropWhile (!endsTerm ·))))
termination_by cs => cs.length
decreasing_by
  all_goals simp only [length_cons, Nat.lt_succ_iff, le_refl, length_dropWhile_le]
  have := length_dropWhile_le (· ≠ '"') cs
  grind

/-- Terms joined by an operator or side by side, and such in parentheses. -/
inductive Shape : List LexToken → Prop
  | word {w} : Shape [.word w]
  | phrase {s} : x.tokenize s ≠ [] → Shape [.phraseString s]
  | paren {l} : Shape l → Shape (.lParen :: (l ++ [.rParen]))
  | joined {l op r} : op ∈ [[], [.andOp], [.orOp]] → Shape l → Shape r → Shape (l ++ (op ++ r))

/-- What is left of `ts` after such tokens. -/
def Follows (ts r : List LexToken) : Prop := ∃ used, Shape x used ∧ ts = used ++ r

theorem Follows.join {x : Lexicon} {start ts r : List LexToken} (op : List LexToken)
    (h : Follows x start (op ++ ts)) (hr : Follows x ts r) (hop : op ∈ [[], [.andOp], [.orOp]]) :
    Follows x start r := by
  obtain ⟨l, hl, rfl⟩ := h
  obtain ⟨l', hl', rfl⟩ := hr
  exact ⟨_, .joined hop hl hl', by simp⟩

/-- The query that was read from `ts`, and the tokens behind it. -/
structure Parsed (ts : List LexToken) where
  query : FullTextQuery
  rest : List LexToken
  follows : Follows x ts rest

variable {x} in
theorem Parsed.lt {ts : List LexToken} (p : Parsed x ts) : p.rest.length < ts.length := by
  obtain ⟨used, h, heq⟩ := p.follows
  have hpos : 0 < used.length := by
    clear heq
    induction h with
    | joined _ _ _ ih => simp [ih]
    | _ => simp
  simp [heq, hpos]

/-- A token that `parse_and` joins to what it has read without an operator. -/
def LexToken.startsTerm : LexToken → Bool
  | .word _ | .phraseString _ | .lParen => true
  | _ => false

mutual

def parsePrimary : (ts : List LexToken) → Except String (Parsed x ts)
  | .word w :: ts => .ok ⟨.token w, ts, _, .word, rfl⟩
  | .phraseString s :: ts =>
    if h : x.tokenize s = [] then .error "Empty FTS phrase is not allowed"
    else .ok ⟨.phrase (x.tokenize s), ts, _, .phrase h, rfl⟩
  | .lParen :: ts => (parseOr ts).bind fun
    | ⟨q, .rParen :: r, h⟩ => .ok ⟨q, r, h.elim fun _ h => ⟨_, h.1.paren, by simp [h.2]⟩⟩
    | _ => .error "Expected closing parenthesis ')'"
  | t :: _ => .error ("Expected term or '(' but found " ++ x.debug t)
  | [] => .error "Unexpected end of query"
termination_by ts => (ts.length, 0)

def parseAnd (ts : List LexToken) : Except String (Parsed x ts) :=
  (parsePrimary ts).bind fun p => andLoop p.query p.follows
termination_by (ts.length, 1)
decreasing_by
  · exact .right _ Nat.one_pos
  · exact .left _ _ p.lt

def andLoop {start : List LexToken} (node : FullTextQuery) :
    {ts : List LexToken} → Follows x start ts → Except String (Parsed x start)
  | .andOp :: ts, h => (parsePrimary ts).bind fun p =>
    andLoop (.and node p.query) (.join [.andOp] h p.follows (by simp))
  | t :: ts, h =>
    if t.startsTerm then (parsePrimary (t :: ts)).bind fun p =>
      andLoop (.and node p.query) (.join [] h p.follows (by simp))
    else .ok ⟨node, t :: ts, h⟩
  | [], h => .ok ⟨node, [], h⟩
termination_by ts => (ts.length, 1)
decreasing_by
  · exact .left _ _ (by simp)
  · exact .left _ _ (p.lt.trans (by simp))
  · exact .right _ Nat.one_pos
  · exact .left _ _ p.lt

def parseOr (ts : List LexToken) : Except String (Parsed x ts) :=
  (parseAnd ts).bind fun p => orLoop p.query p.follows
termination_by (ts.length, 2)
decreasing_by
  · exact .right _ Nat.one_lt_two
  · exact .left _ _ p.lt

def orLoop {start : List LexToken} (node : FullTextQuery) :
    {ts : List LexToken} → Follows x start ts → Except String (Parsed x start)
  | .orOp :: ts, h => (parseAnd ts).bind fun p =>
    orLoop (.or node p.query) (.join [.orOp] h p.follows (by simp))
  | ts, h => .ok ⟨node, ts, h⟩
termination_by ts => (ts.length, 1)
decreasing_by
  · exact .left _ _ (by simp)
  · exact .left _ _ (p.lt.trans (by simp))

end

def FullTextQuery.parse (text : String) : Except String FullTextQuery :=
  (lex x text.toList).bind fun ts =>
    if ts = [] then .error "Empty search query"
    else (parseOr x ts).bind fun p => match p.rest with
      | [] => .ok p.query
      | t :: _ => .error ("Unexpected token: " ++ x.debug t)

/-! ## Texts that are rejected -/

namespace LexToken

def isOperator : LexToken → Bool
  | .andOp | .orOp => true
  | _ => false

def isTerm : LexToken → Bool
  | .word _ => true
  | .phraseString s => x.tokenize s ≠ []
  | _ => false

/-- Every parenthesis has its partner, `d` of them open at the start. -/
def balanced : Nat → List LexToken → Bool
  | d, [] => d = 0
  | d, .lParen :: ts => balanced (d + 1) ts
  | d, .rParen :: ts => d ≠ 0 && balanced (d - 1) ts
  | d, _ :: ts => balanced d ts

end LexToken

open LexToken

/-- A text with a quote or a parenthesis that has no partner, an operator at an end, or no term. -/
def Malformed (text : String) : Prop := ¬ Even (text.toList.count '"') ∨
  ∃ ts, lex x text.toList = .ok ts ∧ (balanced 0 ts = false ∨ (∃ t ∈ ts.head?, t.isOperator = true) ∨
    (∃ t ∈ ts.getLast?, t.isOperator = true) ∨ ∀ t ∈ ts, t.isTerm x = false)

variable {x : Lexicon} {start ts r : List LexToken} {q q' : FullTextQuery}

theorem Shape.balanced_append (h : Shape x ts) (d : Nat) (r : List LexToken) :
    balanced d (ts ++ r) = balanced d r := by
  induction h generalizing d r with
  | word | phrase => rfl
  | paren _ ih => simp [balanced, ih]
  | joined hop _ _ ihl ihr =>
    simp only [mem_cons, not_mem_nil, or_false] at hop
    rcases hop with rfl | rfl | rfl <;> simp [balanced, ihl, ihr]

theorem Shape.ends (h : Shape x ts) : (∃ t ∈ ts.head?, t.isOperator = false) ∧
    (∃ t ∈ ts.getLast?, t.isOperator = false) ∧ ∃ t ∈ ts, t.isTerm x = true := by
  induction h with
  | word => simp [isOperator, isTerm]
  | phrase h => simpa [isOperator, isTerm] using h
  | paren _ ih =>
    obtain ⟨-, -, t, ht, hterm⟩ := ih
    exact ⟨⟨_, rfl, rfl⟩, ⟨_, getLast?_concat (l := lParen :: _), rfl⟩, t, by simp [ht], hterm⟩
  | joined _ _ _ ihl ihr =>
    obtain ⟨⟨t, ht, hhead⟩, -, u, hu, hterm⟩ := ihl
    obtain ⟨-, ⟨v, hv, hlast⟩, -⟩ := ihr
    exact ⟨⟨t, by simp_all, hhead⟩, ⟨v, by simp_all, hlast⟩, u, by simp [hu], hterm⟩

theorem count_dropWhile {p : Char → Bool} {c : Char} (hc : p c = false) (cs : List Char) :
    (cs.dropWhile p).count c = cs.count c := by
  have hzero : (cs.takeWhile p).count c = 0 :=
    count_eq_zero_of_not_mem fun h => by simpa [hc] using mem_takeWhile_imp h
  conv_rhs => rw [← takeWhile_append_dropWhile (p := p) (l := cs), count_append, hzero, zero_add]

/-- Every phrase has both of its quotes. -/
theorem even_of_lex {cs : List Char} (h : lex x cs = .ok ts) : Even (cs.count '"') := by
  fun_induction lex x cs generalizing ts with
  | case1 => simp
  | case2 c cs hc ih =>
    rw [count_cons_of_ne]
    · exact ih h
    · rintro rfl
      cases hc
  | case3 cs _ ih | case4 cs _ _ ih =>
    obtain ⟨us, hus, -⟩ := bind_eq_ok.1 h
    simpa using ih hus
  | case5 => cases h
  | case6 cs head rest hdrop _ _ _ ih =>
    obtain ⟨us, hus, -⟩ := bind_eq_ok.1 h
    have hcount := count_dropWhile (p := (· ≠ '"')) (c := '"') (by simp) cs
    have hhead := head?_dropWhile_not (· ≠ '"') cs
    rw [hdrop] at hcount hhead
    obtain rfl : head = '"' := by simpa using hhead
    rw [count_cons_self, ← hcount, count_cons_self]
    exact (ih hus).add even_two
  | case7 c cs _ _ _ hc ih =>
    obtain ⟨us, hus, -⟩ := bind_eq_ok.1 h
    rw [count_cons_of_ne hc, ← count_dropWhile (p := (!endsTerm ·)) (by rfl)]
    exact ih hus

theorem rejects_of_malformed {text : String} (h : Malformed x text) :
    ∃ e, FullTextQuery.parse x text = .error e := by
  cases hparse : FullTextQuery.parse x text with
  | error e => exact ⟨e, rfl⟩
  | ok q =>
    exfalso
    obtain ⟨ts, hlex, hparse⟩ := bind_eq_ok.1 hparse
    split at hparse
    · cases hparse
    obtain ⟨⟨q', r, used, hused, heq⟩, -, hparse⟩ := bind_eq_ok.1 hparse
    cases r with
    | cons => cases hparse
    | nil =>
      rw [append_nil] at heq
      subst heq
      rcases h with h | ⟨ts', hlex', h⟩
      · exact h (even_of_lex hlex)
      · cases hlex.symm.trans hlex'
        obtain ⟨⟨t, ht, hhead⟩, ⟨u, hu, hlast⟩, v, hv, hterm⟩ := hused.ends
        rcases h with h | ⟨t', ht', h⟩ | ⟨t', ht', h⟩ | h
        · have hbal := hused.balanced_append 0 []
          simp [h, balanced] at hbal
        · cases ht.symm.trans ht'
          cases h.symm.trans hhead
        · cases hu.symm.trans ht'
          cases h.symm.trans hlast
        · cases (h v hv).symm.trans hterm

/-! ## Printed queries -/

variable (x) in
/-- A word that stands for itself. -/
structure Word where
  text : String
  ne : text.toList ≠ []
  plain : ∀ c ∈ text.toList, endsTerm c = false
  own : x.tokenize text = [text]
  notOperator : x.toUppercase text ∉ ["AND", "OR"]

variable (x) in
/-- A phrase that stands for its words. -/
structure Phrase where
  words : List String
  ne : words ≠ []
  plain : '"' ∉ (" ".intercalate words).toList
  own : x.tokenize (" ".intercalate words) = words

variable (x) in
/-- A query tree, with the choice for each AND whether it is written. -/
inductive Tree
  | word (w : Word x)
  | phrase (p : Phrase x)
  | and (written : Bool) (l r : Tree)
  | or (l r : Tree)

/-- In parentheses, if the place asks for them. -/
def wrap {A : Type} (l r : A) (b : Bool) (s : List A) : List A := if b then l :: (s ++ [r]) else s

namespace Tree

def query : Tree x → FullTextQuery
  | word w => .token w.text
  | phrase p => .phrase p.words
  | and _ l r => .and l.query r.query
  | or l r => .or l.query r.query

def isOr : Tree x → Bool
  | or _ _ => true
  | _ => false

def isInner : Tree x → Bool
  | word _ | phrase _ => false
  | _ => true

def print : Tree x → List Char
  | word w => w.text.toList
  | phrase p => '"' :: ((" ".intercalate p.words).toList ++ ['"'])
  | and written l r => wrap '(' ')' l.isOr l.print ++ ' ' ::
    ((if written then ['A', 'N', 'D', ' '] else []) ++ wrap '(' ')' r.isInner r.print)
  | or l r => l.print ++ ' ' :: (['O', 'R', ' '] ++ wrap '(' ')' r.isInner r.print)

end Tree

variable (x) in
/-- In front of a character that ends a term, `s` is read as `ts`. -/
def Lexes (s : List Char) (ts : List LexToken) : Prop :=
  ∀ rest, (∀ c ∈ rest.head?, endsTerm c = true) →
    lex x (s ++ rest) = (lex x rest).bind fun us => .ok (ts ++ us)

namespace Lexes

variable {s s' : List Char} {us : List LexToken}

theorem blank (hs : Lexes x s ts) (hs' : Lexes x s' us) : Lexes x (s ++ ' ' :: s') (ts ++ us) := by
  intro rest hrest
  -- the equation of the whole definition: those of its cases are slow to derive
  rw [append_assoc, cons_append, hs _ (by simp; rfl), lex.eq_def]
  dsimp only
  rw [if_pos (show isWhitespace ' ' = true from rfl), hs' rest hrest]
  cases lex x rest <;> simp [Except.bind]

theorem wrapped (hs : Lexes x s ts) (b : Bool) :
    Lexes x (wrap '(' ')' b s) (wrap .lParen .rParen b ts) := by
  cases b with
  | false => exact hs
  | true =>
    intro rest hrest
    have hopen : ∀ cs, lex x ('(' :: cs) = (lex x cs).bind fun us => .ok (.lParen :: us) := by
      intro cs
      rw [lex.eq_def]
      rfl
    have hclose : lex x (')' :: rest) = (lex x rest).bind fun us => .ok (.rParen :: us) := by
      rw [lex.eq_def]
      rfl
    simp only [wrap, if_true, cons_append, append_assoc, nil_append]
    rw [hopen, hs _ (by simp; rfl), hclose]
    cases lex x rest <;> simp [Except.bind]

theorem term (hne : s ≠ []) (hs : ∀ c ∈ s, endsTerm c = false) :
    Lexes x s (lexTerm x (.ofList s)) := by
  intro rest hrest
  obtain ⟨c, cs, rfl⟩ := exists_cons_of_ne_nil hne
  rw [forall_mem_cons] at hs
  have hc := hs.1
  simp only [endsTerm, Bool.or_eq_false_iff, decide_eq_false_iff_not] at hc
  have hcs : ∀ a ∈ cs, (!endsTerm a) = true := by simpa using hs.2
  have hend : rest.takeWhile (!endsTerm ·) = [] ∧ rest.dropWhile (!endsTerm ·) = rest := by
    cases rest with
    | nil => simp
    | cons a rest => simp [hrest a rfl]
  rw [cons_append, lex.eq_def]
  dsimp only
  rw [takeWhile_append_of_pos hcs, dropWhile_append_of_pos hcs, hend.1, hend.2]
  simp [hc]
  rfl

theorem phrase (hs : '"' ∉ s) : Lexes x ('"' :: (s ++ ['"'])) [.phraseString (.ofList s)] := by
  intro rest _
  have hcs : ∀ a ∈ s, decide (a ≠ '"') = true := fun a ha =>
    decide_eq_true (ne_of_mem_of_not_mem ha hs)
  rw [cons_append, append_assoc, lex.eq_def]
  dsimp only
  rw [if_neg (by decide), if_neg (by decide), if_neg (by decide), if_pos rfl,
    takeWhile_append_of_pos hcs, dropWhile_append_of_pos hcs]
  simp
  rfl

end Lexes

/-- A parser reads `q` and leaves `r`. -/
def Gives (result : Except String (Parsed x ts)) (q : FullTextQuery) (r : List LexToken) : Prop :=
  ∃ h, result = .ok ⟨q, r, h⟩

variable (x) in
/-- `ts` is read as an operand, whatever comes next. -/
def Operand (ts : List LexToken) (q : FullTextQuery) : Prop :=
  ∃ t us, ts = t :: us ∧ t.startsTerm = true ∧ ∀ r, Gives (parsePrimary x (ts ++ r)) q r

variable (x) in
/-- `parse_and` reads `ts` and goes on with what comes next. -/
def ReadsAnd (ts : List LexToken) (q : FullTextQuery) : Prop :=
  ∀ r q' r', (∀ {start} (h : Follows x start r), Gives (andLoop x q h) q' r') →
    Gives (parseAnd x (ts ++ r)) q' r'

variable (x) in
/-- `parse_or` reads `ts` and goes on with what comes next. -/
def ReadsOr (ts : List LexToken) (q : FullTextQuery) : Prop :=
  ∀ r q' r', (∀ t ∈ r.head?, t = .rParen ∨ t = .orOp) →
    (∀ {start} (h : Follows x start r), Gives (orLoop x q h) q' r') → Gives (parseOr x (ts ++ r)) q' r'

theorem gives_andLoop (hts : ∀ t ∈ ts.head?, t = .rParen ∨ t = .orOp) (h : Follows x start ts) :
    Gives (andLoop x q h) q ts := by
  rcases ts with _ | ⟨t, ts⟩
  · rw [andLoop]
    exact ⟨h, rfl⟩
  · have ht : ¬ t.startsTerm = true ∧ t ≠ .andOp := by
      rcases hts t rfl with rfl | rfl <;> simp [startsTerm]
    rw [andLoop, if_neg ht.1]
    · exact ⟨h, rfl⟩
    · exact fun _ heq _ => ht.2 heq

theorem gives_orLoop (hts : ∀ t ∈ ts.head?, t = .rParen) (h : Follows x start ts) :
    Gives (orLoop x q h) q ts := by
  rw [orLoop]
  · exact ⟨h, rfl⟩
  · rintro us - rfl -
    cases hts _ rfl

theorem Operand.readsAnd (h : Operand x ts q) : ReadsAnd x ts q := by
  obtain ⟨_, _, -, -, h⟩ := h
  intro r q' r' hloop
  obtain ⟨hr, h⟩ := h r
  rw [parseAnd, h]
  exact hloop hr

theorem ReadsAnd.readsOr (h : ReadsAnd x ts q) : ReadsOr x ts q := by
  intro r q' r' hr hloop
  obtain ⟨hr, h⟩ := h _ _ _ (gives_andLoop hr)
  rw [parseOr, h]
  exact hloop hr

theorem ReadsOr.operand (h : ReadsOr x ts q) : Operand x (.lParen :: (ts ++ [.rParen])) q := by
  refine ⟨_, _, rfl, rfl, fun r => ?_⟩
  obtain ⟨hr, h⟩ := h (.rParen :: r) _ _ (by simp) (gives_orLoop (by simp))
  rw [cons_append, append_assoc, parsePrimary]
  erw [h]
  exact ⟨_, rfl⟩

theorem ReadsAnd.join (h : ReadsAnd x ts q) (hr : Operand x r q') (written : Bool) :
    ReadsAnd x (ts ++ ((if written then [.andOp] else []) ++ r)) (.and q q') := by
  obtain ⟨t, us, rfl, ht, hr⟩ := hr
  intro rest q'' r' hloop
  obtain ⟨hrest, hr⟩ := hr rest
  rw [append_assoc, append_assoc]
  refine h _ _ _ fun hstart => ?_
  cases written with
  | true =>
    erw [andLoop, hr]
    exact hloop _
  | false =>
    erw [andLoop]
    · rw [if_pos ht]
      erw [hr]
      exact hloop _
    · rintro - rfl -
      cases ht

theorem ReadsOr.join (h : ReadsOr x ts q) (hr : Operand x r q') :
    ReadsOr x (ts ++ .orOp :: r) (.or q q') := by
  intro rest q'' r' hrest hloop
  obtain ⟨hr', hand⟩ := hr.readsAnd _ _ _ (gives_andLoop hrest)
  rw [append_assoc, cons_append]
  refine h _ _ _ (by simp) fun hstart => ?_
  rw [orLoop, hand]
  exact hloop _

/-- The tokens of a printed tree, at each precedence. -/
theorem exists_tokens (t : Tree x) : ∃ ts, Lexes x t.print ts ∧
    Operand x (wrap .lParen .rParen t.isInner ts) t.query ∧
    ReadsAnd x (wrap .lParen .rParen t.isOr ts) t.query ∧ ReadsOr x ts t.query := by
  induction t with
  | word w =>
    have h : Operand x [.word w.text] (.token w.text) := by
      refine ⟨_, _, rfl, rfl, fun r => ?_⟩
      rw [singleton_append, parsePrimary]
      exact ⟨_, rfl⟩
    have hlex := Lexes.term (x := x) w.ne w.plain
    have hop := w.notOperator
    simp only [mem_cons, not_mem_nil, or_false, not_or] at hop
    rw [String.ofList_toList, lexTerm, if_neg hop.1, if_neg hop.2, w.own] at hlex
    exact ⟨_, hlex, h, h.readsAnd, h.readsAnd.readsOr⟩
  | phrase p =>
    have h : Operand x [.phraseString (" ".intercalate p.words)] (.phrase p.words) := by
      refine ⟨_, _, rfl, rfl, fun r => ?_⟩
      simp only [singleton_append, parsePrimary, p.own, dif_neg p.ne]
      exact ⟨_, rfl⟩
    have hlex := Lexes.phrase (x := x) p.plain
    rw [String.ofList_toList] at hlex
    exact ⟨_, hlex, h, h.readsAnd, h.readsAnd.readsOr⟩
  | and written l r ihl ihr =>
    obtain ⟨tl, hl, -, hand, -⟩ := ihl
    obtain ⟨tr, hr, hopd, -⟩ := ihr
    have h := hand.join hopd written
    refine ⟨_, ?_, h.readsOr.operand, h, h.readsOr⟩
    cases written with
    | false => exact (hl.wrapped _).blank (hr.wrapped _)
    | true =>
      have hop : lexTerm x (.ofList ['A', 'N', 'D']) = [.andOp] := if_pos x.toUppercase_and
      have hword : Lexes x ['A', 'N', 'D'] [.andOp] :=
        hop ▸ .term (by simp) (by simp; exact ⟨rfl, rfl, rfl⟩)
      exact (hl.wrapped _).blank (hword.blank (hr.wrapped _))
  | or l r ihl ihr =>
    obtain ⟨tl, hl, -, -, hor⟩ := ihl
    obtain ⟨tr, hr, hopd, -⟩ := ihr
    have h := hor.join hopd
    refine ⟨_, ?_, h.operand, h.operand.readsAnd, h⟩
    have hop : lexTerm x (.ofList ['O', 'R']) = [.orOp] := by
      rw [lexTerm, show String.ofList ['O', 'R'] = "OR" from rfl, x.toUppercase_or]
      rfl
    have hword : Lexes x ['O', 'R'] [.orOp] := hop ▸ .term (by simp) (by simp; exact ⟨rfl, rfl⟩)
    exact hl.blank (hword.blank (hr.wrapped _))

/-- **Queries are read as they are printed**, and malformed texts are rejected. -/
theorem parse_print_and_rejects (x : Lexicon) :
    (∀ t : Tree x, FullTextQuery.parse x (.ofList t.print) = .ok t.query) ∧
    ∀ text, Malformed x text → ∃ e, FullTextQuery.parse x text = .error e := by
  refine ⟨fun t => ?_, fun text h => rejects_of_malformed h⟩
  obtain ⟨ts, hlex, -, -, hor⟩ := exists_tokens t
  replace hlex := hlex [] (by simp)
  replace hor := hor [] _ _ (by simp) (gives_orLoop (by simp))
  rw [append_nil] at hlex hor
  obtain ⟨hts, hor⟩ := hor
  have hne : ts ≠ [] := by
    rintro rfl
    exact absurd (Parsed.mk t.query [] hts).lt (lt_irrefl _)
  rw [FullTextQuery.parse, String.toList_ofList, hlex, lex.eq_def]
  simp only [Except.bind, append_nil, if_neg hne, hor]

end Dtdb.Sql
