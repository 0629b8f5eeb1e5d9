import Dtdb.Lib.Least
import Dtdb.Sql.Optimizer
import Dtdb.Sql.Patterns

/-! # What the chosen range covers

The optimizer trusts that no row outside the range it reads off a predicate satisfies the predicate.
It reads a comparison as if the column stood on the left, and compares keys, variant first. -/

namespace Dtdb.Sql

open Dtdb.Lib Dtdb.Storage Dtdb.Relational List Option

/-! ## Conditions -/

/-- A comparison between a column and a literal. -/
structure Comparison where
  name : String
  op : Operator
  literal : DbValue
  /-- The literal stands on the left. -/
  flipped : Bool

def Operator.compares : Operator → Bool
  | .eq | .lt | .ltEq | .gt | .gtEq | .like => true
  | _ => false

def DbValue.isFloat : DbValue → Bool
  | .float _ => true
  | _ => false

def Comparison.expr (c : Comparison) : Expr :=
  if c.flipped then .binaryOp (.literal c.literal) c.op (.column c.name none)
  else .binaryOp (.column c.name none) c.op (.literal c.literal)

/-- AND, OR and NOT over comparisons of columns with literals. -/
inductive Condition (s : Schema) : Expr → Prop
  | comparison (c : Comparison) : c.op.compares = true → DbValue.isFloat c.literal = false →
      (∀ col ∈ s.columns, col.matchesName c.name → col.dataType ≠ .float) → Condition s c.expr
  | and {l r : Expr} : Condition s l → Condition s r → Condition s (.binaryOp l .and r)
  | or {l r : Expr} : Condition s l → Condition s r → Condition s (.binaryOp l .or r)
  | not {e : Expr} : Condition s e → Condition s (.not e)

def Holds (lib : Library) (s : Schema) (row : Row) (e : Expr) : Prop :=
  ∃ v, e.eval lib s row = .ok v ∧ toBool v = .ok true

section
variable {lib : Library} {s : Schema} {row : Row}

theorem holds_and {l r : Expr} (h : Holds lib s row (.binaryOp l .and r)) :
    Holds lib s row l ∧ Holds lib s row r := by
  obtain ⟨v, heval, hv⟩ := h
  have heval : evalAnd (l.eval lib s row) (r.eval lib s row) = .ok v := heval
  obtain ⟨lv, hl, heval⟩ := bind_eq_ok.1 heval
  split at heval
  · -- NULL AND anything is never true
    exfalso
    obtain ⟨rv, -, heval⟩ := bind_eq_ok.1 heval
    split at heval
    · cases heval
      cases hv
    · obtain ⟨b, -, heval⟩ := bind_eq_ok.1 heval
      split at heval <;> cases heval <;> cases hv
  · obtain ⟨b, hb, heval⟩ := bind_eq_ok.1 heval
    cases b with
    | false =>
      cases heval
      cases hv
    | true =>
      obtain ⟨rv, hr, heval⟩ := bind_eq_ok.1 heval
      refine ⟨⟨lv, hl, hb⟩, rv, hr, ?_⟩
      split at heval
      · cases heval
        cases hv
      · obtain ⟨b, hb, heval⟩ := bind_eq_ok.1 heval
        cases heval
        cases hv
        exact hb

theorem Holds.conjunct {e : Expr} (h : Holds lib s row e) : ∀ a ∈ splitConjuncts e, Holds lib s row a := by
  fun_induction splitConjuncts e with
  | case1 left right ihl ihr =>
    intro a ha
    rcases mem_append.1 ha with ha | ha
    · exact ihl (holds_and h).1 a ha
    · exact ihr (holds_and h).2 a ha
  | case2 e =>
    intro a ha
    exact mem_singleton.1 ha ▸ h

end

/-! ## Keys of values -/

def sameKind : DbValue → DbValue → Bool
  | .int _, .int _ => true
  | .string _, .string _ => true
  | .bool _, .bool _ => true
  | .date _, .date _ => true
  | .time _, .time _ => true
  | .timestamp _, .timestamp _ => true
  | .decimal _ _, .decimal _ _ => true
  | _, _ => false

theorem sameKind_comm (x v : DbValue) : sameKind x v = sameKind v x := by
  cases x <;> cases v <;> rfl

theorem compare_key {P : Type} [LinearOrder P] {f : P → Scalar}
    (hf : ∀ a b, (f a).code < (f b).code ↔ a < b) (a b : P) :
    compare (DbKey.scalar (f a)) (.scalar (f b)) = compare a b := by
  have : StrictMono fun p => DbKey.scalar (f p) := fun a b h => DbKey.scalar_lt_iff.2 ((hf a b).2 h)
  rw [← cmp_eq_compare, ← cmp_eq_compare]
  exact this.cmp_map_eq a b

variable {key lit : DbKey} {x v : DbValue}

theorem compare_of_sameKind {lib : Library} {o : Ordering} (hkind : sameKind x v = true)
    (hx : dbValueToKey x = some key) (hv : valToKey v = some lit)
    (h : compareValues lib x v = .ok o) : compare key lit = o := by
  cases x <;> cases v <;> cases hkind <;> cases hx <;> cases hv <;> cases h <;>
    exact compare_key (fun _ _ => by simp [Scalar.code, Sum.inlₗ]) _ _

theorem sameKind_of_key_eq (hx : dbValueToKey x = some key) (hv : valToKey v = some key) :
    sameKind x v = true := by
  cases x <;> cases hx <;> cases v <;> first | rfl | cases hv

theorem dbValueToKey_of_valToKey (h : valToKey v = some key) :
    dbValueToKey v = some key := by
  cases v <;> first | exact h | cases h

theorem valToKey_of_sameKind (hkind : sameKind x v = true) (hx : dbValueToKey x = some key)
    (hv : valToKey v = some lit) : valToKey x = some key := by
  cases x <;> cases v <;> first | exact hx | (cases hv; done) | cases hkind

/-! ## Steps on keys -/

theorem int_or_lt (key : DbKey) : (∃ n, key = .int n) ∨ ∀ n, DbKey.int n < key := by
  cases key with
  | composite ks => exact .inr fun _ => rfl
  | scalar k =>
    cases k with
    | int m => exact .inl ⟨m, rfl⟩
    | _ => exact .inr fun _ => rfl

theorem string_or_lt (key : DbKey) :
    (∃ s, key = .string s) ∨ (∀ s, DbKey.string s < key) ∨ ∀ s, key < .string s := by
  cases key with
  | composite ks => exact .inr (.inl fun _ => rfl)
  | scalar k =>
    cases k with
    | string s => exact .inl ⟨s, rfl⟩
    | bool b => exact .inr (.inl fun _ => rfl)
    | _ => exact .inr (.inr fun _ => rfl)

theorem string_lt_string {s t : String} : DbKey.string s < .string t ↔ s.toList < t.toList :=
  DbKey.scalar_lt_iff.trans (by
    simp only [Scalar.code, Sum.inlₗ, Sum.inrₗ, Sum.Lex.inr_lt_inr_iff, Sum.Lex.inl_lt_inl_iff]
    exact String.lt_iff_toList_lt)

theorem startAfter_le {a : DbKey} (ha : startAfter lit = some a) (hne : key ≠ lit) :
    a ≤ key ↔ lit < key := by
  unfold startAfter at ha
  split at ha
  · next v =>
    obtain ⟨w, hw, rfl⟩ := map_eq_some_iff.1 ha
    have hw := checkedI64_eq hw
    rcases int_or_lt key with ⟨n, rfl⟩ | h
    · rw [← not_lt, DbKey.int_lt_int, DbKey.int_lt_int]
      omega
    · exact iff_of_true (h w).le (h v)
  · next text =>
    cases ha
    rcases string_or_lt key with ⟨t, rfl⟩ | h | h
    · rw [← not_lt, string_lt_string, string_lt_string, not_lt, String.toList_push,
        ← lt_iff_concat_le]
      exact fun c => Nat.zero_le _
    · exact iff_of_true (h _).le (h _)
    · exact iff_of_false (h _).not_ge (h _).not_gt
  · cases ha
    exact ⟨fun h => lt_of_le_of_ne h (Ne.symm hne), le_of_lt⟩

theorem le_endBefore {b : DbKey} (hb : endBefore lit = some b) (hne : key ≠ lit) :
    key ≤ b ↔ key < lit := by
  unfold endBefore at hb
  split at hb
  · next v =>
    obtain ⟨w, hw, rfl⟩ := map_eq_some_iff.1 hb
    have hw := checkedI64_eq hw
    rcases int_or_lt key with ⟨n, rfl⟩ | h
    · rw [← not_lt, DbKey.int_lt_int, DbKey.int_lt_int]
      omega
    · exact iff_of_false (h w).not_ge (h v).not_gt
  · cases hb
    exact ⟨fun h => lt_of_le_of_ne h hne, le_of_lt⟩

/-! ## One comparison -/

def InRange (range : PlanKey × PlanKey) (key : DbKey) : Prop :=
  ∃ start stop, range = (.value start, .value stop) ∧ start ≤ key ∧ key ≤ stop

def Inside (range : Option (PlanKey × PlanKey)) (key : DbKey) : Prop := ∀ r ∈ range, InRange r key

@[simp] theorem inside_none (key : DbKey) : Inside none key := by simp [Inside]

@[simp] theorem inside_some {start stop : DbKey} :
    Inside (some (.value start, .value stop)) key ↔ start ≤ key ∧ key ≤ stop := by
  simp [Inside, InRange]

/-- A literal from which a bound is made; nothing lies beyond the extreme integers. -/
def Bounding : Operator → DbKey → Prop
  | .gt, lit => (startAfter lit).isSome
  | .lt, lit => (endBefore lit).isSome
  | _, _ => True

def WithinType (t : DataType) (key : DbKey) : Operator → Prop
  | .gt | .gtEq => key ≤ (rangeBounds t).2
  | .lt | .ltEq => (rangeBounds t).1 ≤ key
  | _ => True

namespace Comparison

variable (c : Comparison)

/-- The comparison as the optimizer reads it: the column on the left, keys for values. -/
def Reads (t : DataType) (key : DbKey) : Prop :=
  match c.op with
  | .like => ∀ pattern text, c.flipped = false → t = .string → c.literal = .string pattern →
    likeLiteralPrefix pattern = some text → prefixSuccessor text = none → key ≤ (rangeBounds t).2
  | op => ∀ lit, valToKey c.literal = some lit → Bounding op lit →
    op.holds (compare key lit) = true ∧ WithinType t key op

/-- An inequality with the literal on the left, a literal of another variant, or a key outside the
bounds of its type. -/
def Misread (t : DataType) (x : DbValue) (key : DbKey) : Prop :=
  c.flipped = true ∧ c.op ≠ .eq ∨ sameKind x c.literal = false ∨
    ¬ ((rangeBounds t).1 ≤ key ∧ key ≤ (rangeBounds t).2)

def TrueOf (lib : Library) (x : DbValue) : Prop :=
  if c.flipped then applyOperator lib c.op c.literal x = .ok (.bool true)
  else applyOperator lib c.op x c.literal = .ok (.bool true)

variable {c} {lib : Library} {x : DbValue} {key lit : DbKey} {t : DataType}

theorem TrueOf.compares (h : c.TrueOf lib x) (hop : c.op.compares = true) (hlike : c.op ≠ .like) :
    ∃ o, c.op.holds o = true ∧ (c.flipped = true ∧ compareValues lib c.literal x = .ok o ∨
      c.flipped = false ∧ compareValues lib x c.literal = .ok o) := by
  have hinv : ∀ l r, applyOperator lib c.op l r = .ok (.bool true) →
      ∃ o, c.op.holds o = true ∧ compareValues lib l r = .ok o := by
    intro l r h
    have happly : applyOperator lib c.op l r
        = (compareValues lib l r).bind fun o => .ok (.bool (c.op.holds o)) := by
      cases hc : c.op <;> rw [hc] at hop hlike <;> first | rfl | exact absurd rfl hlike | cases hop
    rw [happly] at h
    obtain ⟨o, ho, h⟩ := bind_eq_ok.1 h
    exact ⟨o, DbValue.bool.inj (Except.ok.inj h), ho⟩
  unfold TrueOf at h
  split at h
  · next hf =>
    obtain ⟨o, ho, hcmp⟩ := hinv _ _ h
    exact ⟨o, ho, .inl ⟨hf, hcmp⟩⟩
  · next hf =>
    obtain ⟨o, ho, hcmp⟩ := hinv _ _ h
    exact ⟨o, ho, .inr ⟨by simpa using hf, hcmp⟩⟩

theorem TrueOf.compare_key (h : c.TrueOf lib x) (hop : c.op.compares = true) (hlike : c.op ≠ .like)
    (hkind : sameKind x c.literal = true) (hx : dbValueToKey x = some key)
    (hv : valToKey c.literal = some lit) :
    c.op.holds (if c.flipped then compare lit key else compare key lit) = true := by
  obtain ⟨o, ho, ⟨hf, hcmp⟩ | ⟨hf, hcmp⟩⟩ := h.compares hop hlike
  · have hkind' : sameKind c.literal x = true := by rw [sameKind_comm, hkind]
    rw [hf, if_pos rfl, compare_of_sameKind hkind' (dbValueToKey_of_valToKey hv)
      (valToKey_of_sameKind hkind hx hv) hcmp]
    exact ho
  · rw [hf, if_neg Bool.false_ne_true, compare_of_sameKind hkind hx hv hcmp]
    exact ho

theorem TrueOf.key_ne (h : c.TrueOf lib x) (hop : c.op = .lt ∨ c.op = .gt)
    (hx : dbValueToKey x = some key) (hv : valToKey c.literal = some lit) : key ≠ lit := by
  rintro rfl
  have hcmp := h.compare_key (by rcases hop with h | h <;> rw [h] <;> rfl)
    (by rcases hop with h | h <;> rw [h] <;> exact Operator.noConfusion)
    (sameKind_of_key_eq hx hv) hx hv
  rw [ite_self, compare_eq_iff_eq.2 rfl] at hcmp
  rcases hop with hop | hop <;> rw [hop] at hcmp <;> cases hcmp

theorem TrueOf.like_prefix (h : c.TrueOf lib x) (hop : c.op = .like) (hf : c.flipped = false)
    (pattern text : String) (hv : c.literal = .string pattern)
    (hp : likeLiteralPrefix pattern = some text) :
    ∃ s rest, x = .string s ∧ s.toList = text.toList ++ rest := by
  unfold TrueOf at h
  rw [hf, if_neg Bool.false_ne_true, hop, hv] at h
  obtain ⟨s, hs, h⟩ := bind_eq_ok.1 h
  have hx : x = .string s := by
    cases x <;> cases hs
    rfl
  have hmatch : likeMatch lib s pattern = true := DbValue.bool.inj (Except.ok.inj h)
  obtain ⟨rest, hrest⟩ := isPrefix_of_matchItems (Bool.and_eq_true_iff.1 hmatch).2
  refine ⟨s, rest, hx, ?_⟩
  unfold likeLiteralPrefix at hp
  dsimp only at hp
  split at hp
  · cases hp
  · cases hp
    rw [String.toList_ofList, hrest]

def likeRange (t : DataType) : DbValue → Option (PlanKey × PlanKey)
  | .string pattern => if t = .string then (likeLiteralPrefix pattern).map fun text =>
      (.value (.string text), .value ((prefixSuccessor text).elim (rangeBounds .string).2 .string))
    else none
  | _ => none

def range (c : Comparison) (t : DataType) : Option (PlanKey × PlanKey) :=
  match c.op with
  | .eq => (valToKey c.literal).map fun k => (.value k, .value k)
  | .like => if c.flipped then none else likeRange t c.literal
  | op => (valToKey c.literal).bind fun k => comparisonBounds op t (.value k)

theorem extractBounds_expr (c : Comparison) (hop : c.op.compares = true) (colName : String)
    (t : DataType) : extractBoundsForColumn colName t c.expr
      = if columnNamesMatch c.name colName then c.range t else none := by
  have hcmp : ∀ l r, c.expr = .binaryOp l c.op r → getColumnComparison l r colName
      = if columnNamesMatch c.name colName then (valToKey c.literal).map .value else none := by
    intro l r h
    unfold expr at h
    split at h <;> cases h <;> rfl
  have hlike : ∀ l r, c.expr = .binaryOp l c.op r → extractLikePrefixBounds l r colName t
      = if columnNamesMatch c.name colName then if c.flipped then none else likeRange t c.literal
        else none := by
    intro l r h
    unfold expr at h
    unfold extractLikePrefixBounds
    split at h
    · next hf =>
      cases h
      simp [hf]
    · next hf =>
      cases h
      unfold likeRange
      by_cases ht : t = .string
      · simp only [ht, ne_eq, not_true_eq_false, if_false, if_true, hf]
        cases c.literal <;> simp
      · simp only [ht, ne_eq, not_false_eq_true, if_true, if_false]
        cases c.literal <;> simp
  obtain ⟨l, r, hexpr⟩ : ∃ l r, c.expr = .binaryOp l c.op r := by
    unfold expr
    split <;> exact ⟨_, _, rfl⟩
  have hcmp := hcmp l r hexpr
  have hlike := hlike l r hexpr
  rw [hexpr]
  unfold range
  cases hc : c.op <;> rw [hc] at hop <;> cases hop
  case like => exact hlike
  all_goals
    simp only [extractBoundsForColumn, hcmp]
    split
    · cases valToKey c.literal <;> rfl
    · rfl

theorem inside_bounds (t : DataType) {op : Operator} (hop : op.compares = true) (hlike : op ≠ .like)
    (hne : op = .lt ∨ op = .gt → key ≠ lit) :
    Inside (if op = .eq then some (.value lit, .value lit) else comparisonBounds op t (.value lit))
        key ↔ (Bounding op lit → op.holds (compare key lit) = true ∧ WithinType t key op) := by
  cases op <;> cases hop
  case like => exact absurd rfl hlike
  case eq =>
    simp only [if_true, inside_some, Bounding, Operator.holds, WithinType, forall_const, and_true,
      decide_eq_true_eq, compare_eq_iff_eq]
    exact ⟨fun h => le_antisymm h.2 h.1, fun h => ⟨h.ge, h.le⟩⟩
  case gt =>
    unfold comparisonBounds Bounding PlanKey.step
    cases ha : startAfter lit with
    | none => simp [ha]
    | some start =>
      simp [ha, Operator.holds, WithinType, compare_gt_iff_gt, startAfter_le ha (hne (.inr rfl))]
  case lt =>
    unfold comparisonBounds Bounding PlanKey.step
    cases hb : endBefore lit with
    | none => simp [hb]
    | some stop =>
      simp [hb, Operator.holds, WithinType, compare_lt_iff_lt, le_endBefore hb (hne (.inl rfl)),
        and_comm]
  case gtEq =>
    simp [comparisonBounds, Bounding, Operator.holds, WithinType, compare_gt_iff_gt,
      le_iff_lt_or_eq (a := lit), eq_comm (a := lit)]
  case ltEq =>
    simp [comparisonBounds, Bounding, Operator.holds, WithinType, compare_lt_iff_lt,
      le_iff_lt_or_eq, and_comm]

/-- **A true comparison** has the key in its range exactly if it holds as it is read. -/
theorem inside_range_iff (h : c.TrueOf lib x) (hop : c.op.compares = true)
    (hx : dbValueToKey x = some key) : Inside (c.range t) key ↔ c.Reads t key := by
  have hne : c.op = .lt ∨ c.op = .gt → ∀ lit, valToKey c.literal = some lit → key ≠ lit :=
    fun hstrict lit hv => h.key_ne hstrict hx hv
  have hprefix := h.like_prefix
  unfold range Reads
  cases hc : c.op <;> rw [hc] at hop hne hprefix <;> cases hop
  case like =>
    constructor
    · intro hin pattern text hf ht hv hp hsucc
      simp [hf, hv, likeRange, ht, hp, hsucc] at hin
      exact ht ▸ hin.2
    · intro hreads r hr
      dsimp only at hr
      obtain ⟨hf, hr⟩ := ite_none_left_eq_some.1 hr
      unfold likeRange at hr
      split at hr
      · next pattern hv =>
        obtain ⟨ht, hr⟩ := ite_none_right_eq_some.1 hr
        obtain ⟨text, hp, rfl⟩ := map_eq_some_iff.1 hr
        obtain ⟨s, rest, rfl, hs⟩ := hprefix rfl (by simpa using hf) pattern text hv hp
        cases hx
        refine ⟨_, _, rfl, ?_, ?_⟩
        · rw [← not_lt, string_lt_string, not_lt, hs]
          exact le_append _ _
        cases hsucc : prefixSuccessor text with
        | none => exact ht ▸ hreads pattern text (by simpa using hf) ht hv hp hsucc
        | some succ =>
          obtain ⟨cs, hcs, rfl⟩ := map_eq_some_iff.1 hsucc
          refine le_of_lt (string_lt_string.2 ?_)
          have := reverseSuccessor_lt hcs rest
          rw [reverse_reverse] at this
          rw [hs, String.toList_ofList]
          exact this
      · cases hr
  all_goals
    cases hv : valToKey c.literal with
    | none => simp
    | some lit => simpa using inside_bounds t rfl Operator.noConfusion fun h => hne h lit hv

theorem reads_of_not_misread (h : c.TrueOf lib x) (hop : c.op.compares = true)
    (hx : dbValueToKey x = some key) (hread : ¬ c.Misread t x key) : c.Reads t key := by
  unfold Misread at hread
  push Not at hread
  obtain ⟨hside, hkind, hlo, hhi⟩ := hread
  have hkind : sameKind x c.literal = true := by simpa using hkind
  have hwithin : ∀ op, WithinType t key op := by
    intro op
    cases op <;> first | exact hhi | exact hlo | exact trivial
  have hholds : c.op ≠ .like → ∀ lit, valToKey c.literal = some lit →
      c.op.holds (compare key lit) = true := by
    intro hlike lit hv
    have hcmp := h.compare_key hop hlike hkind hx hv
    cases hf : c.flipped with
    | false =>
      rw [hf, if_neg Bool.false_ne_true] at hcmp
      exact hcmp
    | true =>
      rw [hf, if_pos rfl, hside hf] at hcmp
      rw [hside hf]
      simp only [Operator.holds, decide_eq_true_eq, compare_eq_iff_eq] at hcmp ⊢
      exact hcmp.symm
  unfold Reads
  cases hc : c.op <;> rw [hc] at hop hholds <;> cases hop
  case like => exact fun _ _ _ _ _ _ _ => hhi
  all_goals exact fun lit hv _ => ⟨hholds Operator.noConfusion lit hv, hwithin _⟩

end Comparison

/-! ## Predicates -/

theorem columnNamesMatch_comm (a b : String) : columnNamesMatch a b = columnNamesMatch b a := by
  unfold columnNamesMatch
  rw [Bool.beq_comm, Bool.or_assoc, Bool.or_assoc, Bool.or_comm (endsWithDotSuffix a b)]

variable {name : String} {col : Column}

theorem resolveColumn_eq {s : Schema} {i j : Nat} (hcol : s.columns[i]? = some col)
    (hmatch : columnNamesMatch name col.name = true) (h : resolveColumn s name = .ok j) :
    j = i := by
  have hmem : i ∈ matchingColumns s name := by
    refine mem_map.2 ⟨(col, i), mem_filter.2 ⟨?_, ?_⟩, rfl⟩
    · exact mk_mem_zipIdx_iff_getElem?.2 hcol
    · rwa [columnNamesMatch_comm] at hmatch
  unfold resolveColumn at h
  split at h
  · cases h
  · next k hk =>
    cases h
    rw [hk] at hmem
    exact (mem_singleton.1 hmem).symm
  · cases h

theorem applyOperator_bool {lib : Library} {op : Operator} {l r : DbValue}
    (hop : op.compares = true) (h : applyOperator lib op l r = .ok v) : ∃ b, v = .bool b := by
  cases op <;> cases hop
  case like =>
    obtain ⟨_, -, _, -, h⟩ := bind_bind_eq_ok.1 h
    exact ⟨_, (Except.ok.inj h).symm⟩
  all_goals
    obtain ⟨_, -, h⟩ := bind_eq_ok.1 h
    exact ⟨_, (Except.ok.inj h).symm⟩

theorem evalBinary_true {lib : Library} {op : Operator} {l r : Except Fault DbValue}
    (hop : op.compares = true) (h : evalBinary lib op l r = .ok v) (hv : toBool v = .ok true) :
    ∃ lv rv, l = .ok lv ∧ r = .ok rv ∧ lv ≠ .null ∧ rv ≠ .null ∧
      applyOperator lib op lv rv = .ok (.bool true) := by
  have hb : ∀ l r, evalBinary lib op l r = l.bind fun l => r.bind fun r =>
      if l = .null ∨ r = .null then .ok .null else applyOperator lib op l r := by
    cases op <;> cases hop <;> exact fun _ _ => rfl
  rw [hb] at h
  obtain ⟨lv, hl, rv, hr, h⟩ := bind_bind_eq_ok.1 h
  split at h
  · cases h
    cases hv
  · next hnull =>
    push Not at hnull
    obtain ⟨b, rfl⟩ := applyOperator_bool hop h
    cases hv
    exact ⟨lv, rv, hl, hr, hnull.1, hnull.2, h⟩

section
variable {lib : Library} {s : Schema} {row : Row} {col : Column} {i : Nat}

theorem eval_column (hcol : s.columns[i]? = some col)
    (hmatch : columnNamesMatch name col.name = true)
    (h : (Expr.column name none).eval lib s row = .ok x) : row[i]? = some x := by
  obtain ⟨j, hj, h⟩ := bind_eq_ok.1 h
  have h : rowValue row j = .ok x := h
  rw [resolveColumn_eq hcol hmatch hj] at h
  unfold rowValue at h
  split at h
  · next v hv =>
    cases h
    exact hv
  · cases h

theorem holds_comparison {c : Comparison} (hop : c.op.compares = true)
    (hcol : s.columns[i]? = some col) (hmatch : columnNamesMatch c.name col.name = true)
    (h : Holds lib s row c.expr) : ∃ x, row[i]? = some x ∧ x ≠ .null ∧ c.TrueOf lib x := by
  obtain ⟨v, h, hv⟩ := h
  unfold Comparison.expr at h
  unfold Comparison.TrueOf
  split at h
  · next hf =>
    obtain ⟨lv, rv, hl, hr, -, hrnull, happly⟩ := evalBinary_true hop h hv
    cases hl
    refine ⟨rv, eval_column hcol hmatch hr, hrnull, ?_⟩
    rw [if_pos hf]
    exact happly
  · next hf =>
    obtain ⟨lv, rv, hl, hr, hlnull, -, happly⟩ := evalBinary_true hop h hv
    cases hr
    refine ⟨lv, eval_column hcol hmatch hl, hlnull, ?_⟩
    rw [if_neg hf]
    exact happly

end

def Valued (range : Option (PlanKey × PlanKey)) : Prop :=
  ∀ r ∈ range, ∃ start stop, r = (.value start, .value stop)

theorem valued_meetRanges {l r : Option (PlanKey × PlanKey)} (hl : Valued l) (hr : Valued r) :
    Valued (meetRanges l r) := by
  cases l with
  | none => exact hr
  | some l =>
    cases r with
    | none => exact hl
    | some r =>
      obtain ⟨a, b, rfl⟩ := hl l rfl
      obtain ⟨c, d, rfl⟩ := hr r rfl
      rintro _ ⟨⟩
      exact ⟨_, _, rfl⟩

theorem inside_meetRanges {l r : Option (PlanKey × PlanKey)} (hl : Valued l) (hr : Valued r)
    (key : DbKey) : Inside (meetRanges l r) key ↔ Inside l key ∧ Inside r key := by
  cases l with
  | none => simp [meetRanges]
  | some l =>
    cases r with
    | none => simp [meetRanges]
    | some r =>
      obtain ⟨a, b, rfl⟩ := hl l rfl
      obtain ⟨c, d, rfl⟩ := hr r rfl
      simp only [meetRanges, laterStart, earlierEnd, inside_some, max_le_iff, le_min_iff]
      exact and_and_and_comm

namespace Comparison

theorem valued_range (c : Comparison) (t : DataType) : Valued (c.range t) := by
  have hcmp : ∀ op lit, Valued (comparisonBounds op t (.value lit)) := by
    intro op lit r hr
    cases op <;> first | cases hr | skip
    case gtEq => exact ⟨_, _, rfl⟩
    case ltEq => exact ⟨_, _, rfl⟩
    case gt =>
      obtain ⟨start, hs, rfl⟩ := map_eq_some_iff.1 hr
      obtain ⟨k, -, rfl⟩ := map_eq_some_iff.1 hs
      exact ⟨_, _, rfl⟩
    case lt =>
      obtain ⟨stop, hs, rfl⟩ := map_eq_some_iff.1 hr
      obtain ⟨k, -, rfl⟩ := map_eq_some_iff.1 hs
      exact ⟨_, _, rfl⟩
  intro r hr
  unfold range at hr
  split at hr
  · obtain ⟨k, -, rfl⟩ := map_eq_some_iff.1 hr
    exact ⟨_, _, rfl⟩
  · split at hr
    · cases hr
    · unfold likeRange at hr
      split at hr
      · split at hr
        · obtain ⟨text, -, rfl⟩ := map_eq_some_iff.1 hr
          exact ⟨_, _, rfl⟩
        · cases hr
      · cases hr
  · obtain ⟨lit, -, hr⟩ := bind_eq_some_iff.1 hr
    exact hcmp _ lit r hr

theorem splitConjuncts_expr (c : Comparison) (hop : c.op.compares = true) :
    splitConjuncts c.expr = [c.expr] := by
  unfold expr
  split <;> cases hc : c.op <;> rw [hc] at hop <;> cases hop <;> rfl

end Comparison

/-- Nothing from disjunctions and negations, the common part from a conjunction. -/
structure ReadOff (s : Schema) (colName : String) (t : DataType) (e : Expr) : Prop where
  valued : Valued (extractBoundsForColumn colName t e)
  inside : ∀ key, Inside (extractBoundsForColumn colName t e) key ↔
    ∀ a ∈ splitConjuncts e, Inside (extractBoundsForColumn colName t a) key
  found : ∀ r, extractBoundsForColumn colName t e = some r →
    ∃ a ∈ splitConjuncts e, (extractBoundsForColumn colName t a).isSome
  atoms : ∀ a ∈ splitConjuncts e, extractBoundsForColumn colName t a = none ∨
    ∃ c : Comparison, a = c.expr ∧ c.op.compares = true ∧ DbValue.isFloat c.literal = false ∧
      ∀ col ∈ s.columns, col.matchesName c.name → col.dataType ≠ .float

theorem Condition.getColumnComparison_eq_none {s : Schema} {l r : Expr} (h : Condition s l)
    (colName : String) : getColumnComparison l r colName = none := by
  cases h with
  | comparison c =>
    unfold Comparison.expr
    split <;> rfl
  | _ => rfl

theorem ReadOff.of_none {s : Schema} {colName : String} {t : DataType} {e : Expr}
    (hsplit : splitConjuncts e = [e]) (h : extractBoundsForColumn colName t e = none) :
    ReadOff s colName t e := by
  refine ⟨?_, ?_, ?_, ?_⟩
  · rw [h]
    rintro _ ⟨⟩
  · simp [hsplit]
  · rw [h]
    rintro _ ⟨⟩
  · simp [hsplit, h]

/-- **Ranges are read off the conjuncts.** -/
theorem Condition.readOff {s : Schema} {e : Expr} (h : Condition s e) (colName : String)
    (t : DataType) : ReadOff s colName t e := by
  induction h with
  | comparison c hop hv hcols =>
    have hsplit := c.splitConjuncts_expr hop
    refine ⟨?_, by simp [hsplit], fun r hr => ⟨c.expr, by simp [hsplit], by simp [hr]⟩, ?_⟩
    · rw [c.extractBounds_expr hop]
      split
      · exact c.valued_range t
      · rintro _ ⟨⟩
    · intro a ha
      rw [hsplit, mem_singleton] at ha
      exact .inr ⟨c, ha, hop, hv, hcols⟩
  | and hl hr ihl ihr =>
    refine ⟨valued_meetRanges ihl.valued ihr.valued, fun key => ?_, fun r hr => ?_, fun a ha => ?_⟩
    · rw [extractBoundsForColumn, inside_meetRanges ihl.valued ihr.valued, ihl.inside, ihr.inside,
        splitConjuncts, forall_mem_append]
    · have hor : ∀ l r : Option (PlanKey × PlanKey), (meetRanges l r).isSome → l.isSome ∨ r.isSome := by
        intro l r h
        cases l <;> simp_all [meetRanges]
      rcases hor _ _ (isSome_of_eq_some hr) with h | h
      · obtain ⟨a, ha, hsome⟩ := ihl.found _ (some_get h).symm
        exact ⟨a, mem_append_left _ ha, hsome⟩
      · obtain ⟨a, ha, hsome⟩ := ihr.found _ (some_get h).symm
        exact ⟨a, mem_append_right _ ha, hsome⟩
    · rcases mem_append.1 ha with ha | ha
      · exact ihl.atoms a ha
      · exact ihr.atoms a ha
  | or hl hr =>
    refine .of_none rfl ?_
    rw [extractBoundsForColumn, hl.getColumnComparison_eq_none]
    all_goals simp
  | not h => exact .of_none rfl rfl

/-! ## Rows -/

namespace Comparison

theorem TrueOf.exists_key {c : Comparison} {lib : Library} {t : DataType} (h : c.TrueOf lib x)
    (hop : c.op.compares = true) (hnull : x ≠ .null) (hx : DbValue.isFloat x = false)
    (hrange : (c.range t).isSome = true) :
    ∃ key, dbValueToKey x = some key := by
  by_cases hlike : c.op = .like
  · have hf : c.flipped = false := by
      by_contra hf
      have hf : c.flipped = true := by simpa using hf
      simp [range, hlike, hf] at hrange
    unfold TrueOf at h
    rw [hf, if_neg Bool.false_ne_true, hlike] at h
    obtain ⟨s, hs, -⟩ := bind_eq_ok.1 h
    cases x <;> cases hs
    exact ⟨_, rfl⟩
  · have hlit : (valToKey c.literal).isSome = true := by
      by_contra hlit
      rw [not_isSome_iff_eq_none] at hlit
      unfold range at hrange
      rw [hlit] at hrange
      split at hrange
      · cases hrange
      · next heq => exact hlike heq
      · cases hrange
    obtain ⟨o, -, hcmp⟩ := h.compares hop hlike
    cases x with
    | null => exact absurd rfl hnull
    | float => cases hx
    | bytes b =>
      cases hv : c.literal <;> rw [hv] at hlit hcmp <;>
        first | (cases hlit; done) | (rcases hcmp with ⟨-, h⟩ | ⟨-, h⟩ <;> cases h)
    | _ => exact ⟨_, rfl⟩

end Comparison

section
variable {lib : Library} {s : Schema} {row : Row} {col : Column} {i : Nat} {e : Expr}

/-- **The range of a predicate** holds the key of a row on which it is true, exactly if each
conjunct that may be misread holds as it is read. -/
theorem inside_iff (he : Condition s e) (h : Holds lib s row e) (hcol : s.columns[i]? = some col)
    (hrow : row[i]? = some x) (hx : dbValueToKey x = some key) :
    Inside (extractBoundsForColumn col.name col.dataType e) key ↔
      ∀ c : Comparison, c.expr ∈ splitConjuncts e → c.op.compares = true →
        columnNamesMatch c.name col.name = true → c.Misread col.dataType x key →
        c.Reads col.dataType key := by
  have hread := he.readOff col.name col.dataType
  have htrue : ∀ c : Comparison, c.expr ∈ splitConjuncts e → c.op.compares = true →
      columnNamesMatch c.name col.name = true → c.TrueOf lib x := by
    intro c hc hop hmatch
    obtain ⟨y, hy, -, htrue⟩ := holds_comparison hop hcol hmatch (h.conjunct _ hc)
    rw [hrow] at hy
    cases hy
    exact htrue
  rw [hread.inside]
  constructor
  · intro hin c hc hop hmatch _
    have := hin _ hc
    rw [c.extractBounds_expr hop, if_pos hmatch] at this
    exact (Comparison.inside_range_iff (htrue c hc hop hmatch) hop hx).1 this
  · intro hreads a ha
    rcases hread.atoms a ha with hnone | ⟨c, rfl, hop, -, -⟩
    · rw [hnone]
      exact inside_none key
    · rw [c.extractBounds_expr hop]
      split
      · next hmatch =>
        have htrue := htrue c ha hop hmatch
        rw [Comparison.inside_range_iff htrue hop hx]
        by_cases hmis : c.Misread col.dataType x key
        · exact hreads c ha hop hmatch hmis
        · exact Comparison.reads_of_not_misread htrue hop hx hmis
      · exact inside_none key

theorem exists_key_of_range (he : Condition s e) (h : Holds lib s row e)
    (hcol : s.columns[i]? = some col) (hvalid : s.validateRow row = .ok ())
    (hrange : (extractBoundsForColumn col.name col.dataType e).isSome = true) :
    ∃ x key, row[i]? = some x ∧ dbValueToKey x = some key := by
  have hread := he.readOff col.name col.dataType
  obtain ⟨a, ha, hsome⟩ := hread.found _ (some_get hrange).symm
  rcases hread.atoms a ha with hnone | ⟨c, rfl, hop, -, hfloat⟩
  · rw [hnone] at hsome
    cases hsome
  · rw [c.extractBounds_expr hop] at hsome
    split at hsome
    · next hmatch =>
      obtain ⟨x, hrow, hnull, htrue⟩ := holds_comparison hop hcol hmatch (h.conjunct _ ha)
      have hx : DbValue.isFloat x = false := by
        rw [columnNamesMatch_comm] at hmatch
        have hne := hfloat col (mem_of_getElem? hcol) hmatch
        rcases Schema.accepts_of_validateRow hvalid hcol hrow with rfl | hacc
        · rfl
        · cases x <;> first | rfl | skip
          cases hd : col.dataType <;> rw [hd] at hacc hne <;> first | exact absurd rfl hne | cases hacc
      obtain ⟨key, hkey⟩ := htrue.exists_key hop hnull hx hsome
      exact ⟨x, key, hrow, hkey⟩
    · cases hsome

end

/-! ## The chosen path -/

def keyAt (s : Schema) (row : Row) (name : String) : Option DbKey :=
  (s.columns.findIdx? fun c => c.matchesName name).bind fun i => row[i]?.bind dbValueToKey

/-- The row's primary key, or its value in the leading column of the index, is in the range. -/
def InsideOf (s : Schema) (row : Row) : LogicalPlan → Prop
  | .scan _ _ (some range) => ∃ key, s.extractPrimaryKey row = some key ∧ InRange range key
  | .indexScan _ indexName _ (some range) => ∃ idx ∈ s.indexes, idx.name = indexName ∧
    ∃ name key, idx.columns.head? = some name ∧ keyAt s row name = some key ∧ InRange range key
  | _ => True

/-- An index has entries only for rows with a key in each of its columns. -/
def OnPath (s : Schema) (row : Row) : LogicalPlan → Prop
  | .indexScan tableName indexName schema range =>
    InsideOf s row (.indexScan tableName indexName schema range) ∧ (range.isSome = true →
      ∀ idx ∈ s.indexes, idx.name = indexName → ∀ name ∈ idx.columns, (keyAt s row name).isSome = true)
  | plan => InsideOf s row plan

/-- The ways into a table besides the full scan. -/
inductive Access where
  | primaryKey
  | index (idx : IndexDefinition)

def Access.Of (s : Schema) : Access → Prop
  | .primaryKey => True
  | .index idx => idx ∈ s.indexes

def Reread (predicate : Expr) (col : Column) (i : Nat) (row : Row) : Prop :=
  ∀ x key, row[i]? = some x → dbValueToKey x = some key →
    ∀ c : Comparison, c.expr ∈ splitConjuncts predicate → c.op.compares = true →
      columnNamesMatch c.name col.name = true → c.Misread col.dataType x key →
      c.Reads col.dataType key

def FirstNamed (s : Schema) (name : String) (col : Column) (i : Nat) : Prop :=
  s.columns.findIdx? (fun c => c.matchesName name) = some i ∧ s.columns[i]? = some col

namespace Optimizer

variable (o : Optimizer) (tableName : String) (s : Schema) (predicate : Expr)
  (queryColumns : List String)

def accessPath : Access → Option (ℚ × LogicalPlan)
  | .primaryKey => o.keyPath tableName s predicate queryColumns
  | .index idx => o.indexPath tableName s predicate queryColumns idx

def fullScan : ℚ × LogicalPlan :=
  (estimateScanCost s (o.stats tableName) none queryColumns, .scan tableName s none)

def Cheapest (a : Access) : Prop :=
  a.Of s ∧ ∃ p, o.accessPath tableName s predicate queryColumns a = some p ∧
    IsFirstLeast Prod.fst (o.fullScan tableName s queryColumns)
      (o.paths tableName s predicate queryColumns) p

/-- Every row on which the predicate is true is in the range of the chosen path. -/
def Covers (rows : List Row) : Prop :=
  (∀ row ∈ rows, Holds o.lib s row predicate →
    InsideOf s row (o.selectBestScanPath tableName s predicate queryColumns)) ∧
  {row | row ∈ rows ∧ OnPath s row (o.selectBestScanPath tableName s predicate queryColumns) ∧
    Holds o.lib s row predicate} = {row | row ∈ rows ∧ Holds o.lib s row predicate}

/-- The range of an access is right for the rows on which the predicate is true. -/
def Sound (rows : List Row) : Access → Prop
  | .primaryKey => ∀ x, s.primaryKey = [x] → ∀ row ∈ rows, Holds o.lib s row predicate →
    Reread predicate x.1 x.2 row
  | .index idx => idx.indexType = .btree → ∀ row ∈ rows, Holds o.lib s row predicate →
    (∀ name col i, idx.columns.head? = some name → FirstNamed s name col i →
      Reread predicate col i row) ∧
    ∀ name ∈ idx.columns.tail, (keyAt s row name).isSome = true

variable {o tableName s predicate queryColumns} {p : ℚ × LogicalPlan}

theorem exists_access (h : p ∈ o.paths tableName s predicate queryColumns) :
    ∃ a : Access, a.Of s ∧ o.accessPath tableName s predicate queryColumns a = some p := by
  rcases mem_append.1 h with h | h
  · exact ⟨.primaryKey, trivial, mem_toList.1 h⟩
  · obtain ⟨idx, hidx, hp⟩ := mem_filterMap.1 h
    exact ⟨.index idx, hidx, hp⟩

theorem selectBestScanPath_cases (o : Optimizer) (tableName : String) (s : Schema)
    (predicate : Expr) (queryColumns : List String) :
    o.selectBestScanPath tableName s predicate queryColumns = .scan tableName s none ∨
      ∃ a, o.Cheapest tableName s predicate queryColumns a := by
  rcases exists_isFirstLeast Prod.fst (o.fullScan tableName s queryColumns)
    (o.paths tableName s predicate queryColumns) with hmin | ⟨p, hp⟩
  · exact .inl (congrArg Prod.snd (firstLeast_eq_self hmin))
  · obtain ⟨l, r, hlr, -⟩ := id hp
    obtain ⟨a, ha, hpath⟩ := exists_access (p := p) (by rw [hlr]; simp)
    exact .inr ⟨a, ha, p, hpath, hp⟩

theorem inRange_iff {row : Row} {i : Nat} {range : PlanKey × PlanKey} (he : Condition s predicate)
    (h : Holds o.lib s row predicate) (hvalid : s.validateRow row = .ok ())
    (hcol : s.columns[i]? = some col)
    (hrange : extractBoundsForColumn col.name col.dataType predicate = some range) :
    (∃ key, row[i]?.bind dbValueToKey = some key ∧ InRange range key) ↔
      Reread predicate col i row := by
  have hinside : ∀ key, Inside (extractBoundsForColumn col.name col.dataType predicate) key ↔
      InRange range key := by
    intro key
    rw [hrange]
    simp [Inside]
  constructor
  · rintro ⟨key, hkey, hin⟩ x key' hx hkey'
    rw [hx, bind_some, hkey'] at hkey
    cases hkey
    exact (inside_iff he h hcol hx hkey').1 ((hinside _).2 hin)
  · intro hreread
    obtain ⟨x, key, hx, hkey⟩ := exists_key_of_range he h hcol hvalid (by rw [hrange]; rfl)
    refine ⟨key, by rw [hx]; exact hkey, (hinside key).1 ?_⟩
    exact (inside_iff he h hcol hx hkey).2 (hreread x key hx hkey)

theorem firstNamed_of_find? (h : s.columns.find? (fun c => c.matchesName name) = some col) :
    ∃ i, FirstNamed s name col i := by
  obtain ⟨hcol, i, hi, rfl, hfirst⟩ := find?_eq_some_iff_getElem.1 h
  exact ⟨i, findIdx?_eq_some_iff_getElem.2 ⟨hi, hcol, fun j hj => by simpa using hfirst j hj⟩,
    getElem?_eq_getElem hi⟩

theorem plan_of_indexPath {idx : IndexDefinition}
    (h : o.indexPath tableName s predicate queryColumns idx = some p) :
    (idx.indexType = .fullText ∧ ∃ query, p.2 = .fullTextScan tableName idx.name s query) ∨
    idx.indexType = .btree ∧ ∃ name col i range, idx.columns.head? = some name ∧
      FirstNamed s name col i ∧ extractBoundsForColumn col.name col.dataType predicate = some range ∧
      p.2 = .indexScan tableName idx.name s (some range) := by
  obtain ⟨name, hname, col, hcol, h⟩ := bind_bind_eq_some.1 h
  split at h
  · next hft =>
    refine .inl ⟨hft, ?_⟩
    split at h
    · obtain ⟨query, -, h⟩ := bind_eq_some_iff.1 h
      cases h
      exact ⟨_, rfl⟩
    · obtain ⟨st, -, _, -, h⟩ := bind_bind_eq_some.1 h
      obtain ⟨_, -, _, -, h⟩ := bind_bind_eq_some.1 h
      split at h
      · cases h
      · cases h
        exact ⟨_, rfl⟩
  · next hft =>
    split at h
    · cases h
    · obtain ⟨range, hr, h⟩ := bind_eq_some_iff.1 h
      cases h
      obtain ⟨i, hi⟩ := firstNamed_of_find? hcol
      refine .inr ⟨?_, name, col, i, range, hname, hi, hr, rfl⟩
      cases hd : idx.indexType
      · rfl
      · exact absurd hd hft

theorem column_of_primaryKey {x : Column × Nat} (h : s.primaryKey = [x]) :
    s.columns[x.2]? = some x.1 := by
  have hmem : x ∈ s.primaryKey := by
    rw [h]
    exact mem_singleton.2 rfl
  exact mk_mem_zipIdx_iff_getElem?.1 (mem_of_mem_filter hmem)

theorem onPath_keyPath {row : Row} (he : Condition s predicate)
    (hvalid : s.validateRow row = .ok ()) (h : Holds o.lib s row predicate)
    (hp : o.keyPath tableName s predicate queryColumns = some p) :
    (InsideOf s row p.2 ↔ OnPath s row p.2) ∧
      (OnPath s row p.2 ↔ ∀ x, s.primaryKey = [x] → Reread predicate x.1 x.2 row) := by
  obtain ⟨range, hr, hp⟩ := bind_eq_some_iff.1 hp
  cases hp
  refine ⟨Iff.rfl, ?_⟩
  unfold extractKeyRange at hr
  split at hr
  · next x hx =>
    rw [hx]
    have hiff := inRange_iff he h hvalid (column_of_primaryKey hx) hr
    have hkey : s.extractPrimaryKey row = row[x.2]?.bind dbValueToKey := by
      unfold Schema.extractPrimaryKey
      rw [hx]
    show (∃ key, s.extractPrimaryKey row = some key ∧ InRange range key) ↔ _
    rw [hkey, hiff]
    simp
  · cases hr

theorem keyAt_of_firstNamed {row : Row} {i : Nat} (h : FirstNamed s name col i) :
    keyAt s row name = row[i]?.bind dbValueToKey := by
  unfold keyAt
  rw [h.1]
  rfl

theorem onPath_indexPath {row : Row} {idx : IndexDefinition}
    (hnames : (s.indexes.map IndexDefinition.name).Nodup) (hidx : idx ∈ s.indexes)
    (he : Condition s predicate) (hvalid : s.validateRow row = .ok ())
    (h : Holds o.lib s row predicate)
    (hp : o.indexPath tableName s predicate queryColumns idx = some p) :
    (InsideOf s row p.2 ∧ OnPath s row p.2) ↔ (idx.indexType = .btree →
      (∀ name col i, idx.columns.head? = some name → FirstNamed s name col i →
        Reread predicate col i row) ∧
      ∀ name ∈ idx.columns.tail, (keyAt s row name).isSome = true) := by
  rcases plan_of_indexPath hp with ⟨hft, query, hplan⟩ | ⟨hbt, name, col, i, range, hname, hcol, hr, hplan⟩
  · rw [hplan, hft]
    exact iff_of_true ⟨trivial, trivial⟩ nofun
  rw [hplan]
  have hiff := inRange_iff he h hvalid hcol.2 hr
  obtain ⟨names, hcols⟩ := head?_eq_some_iff.1 hname
  have hinside : InsideOf s row (.indexScan tableName idx.name s (some range)) ↔
      Reread predicate col i row := by
    rw [← hiff]
    constructor
    · rintro ⟨idx', hmem, hsame, name', key, hhead, hkey, hin⟩
      obtain rfl := inj_on_of_nodup_map hnames hmem hidx hsame
      rw [hname] at hhead
      cases hhead
      exact ⟨key, (keyAt_of_firstNamed hcol).symm.trans hkey, hin⟩
    · rintro ⟨key, hkey, hin⟩
      exact ⟨idx, hidx, rfl, name, key, hname, (keyAt_of_firstNamed hcol).trans hkey, hin⟩
  have hreread : Reread predicate col i row ↔ ∀ name col i, idx.columns.head? = some name →
      FirstNamed s name col i → Reread predicate col i row := by
    constructor
    · intro hread name' col' i' hhead hcol'
      rw [hname] at hhead
      cases hhead
      obtain rfl := some.inj (hcol.1.symm.trans hcol'.1)
      obtain rfl := some.inj (hcol.2.symm.trans hcol'.2)
      exact hread
    · exact fun hall => hall name col i hname hcol
  rw [← hreread]
  constructor
  · rintro ⟨hin, -, hkeys⟩ -
    refine ⟨hinside.1 hin, fun n hn => hkeys rfl idx hidx rfl n (mem_of_mem_tail hn)⟩
  · intro hsound
    obtain ⟨hread, hkeys⟩ := hsound hbt
    have hin := hinside.2 hread
    refine ⟨hin, hin, fun _ idx' hmem hsame n hn => ?_⟩
    obtain rfl := inj_on_of_nodup_map hnames hmem hidx hsame
    rw [hcols] at hn hkeys
    rcases mem_cons.1 hn with rfl | hn
    · obtain ⟨key, hkey, -⟩ := hiff.2 hread
      rw [keyAt_of_firstNamed hcol, hkey]
      rfl
    · exact hkeys n hn

theorem covers_iff_forall {rows : List Row} {plan : LogicalPlan}
    (h : o.selectBestScanPath tableName s predicate queryColumns = plan) :
    o.Covers tableName s predicate queryColumns rows ↔
      ∀ row ∈ rows, Holds o.lib s row predicate → InsideOf s row plan ∧ OnPath s row plan := by
  unfold Covers
  rw [h]
  constructor
  · rintro ⟨hin, hset⟩ row hrow hholds
    have hmem : row ∈ {row | row ∈ rows ∧ Holds o.lib s row predicate} := ⟨hrow, hholds⟩
    rw [← hset] at hmem
    exact ⟨hin row hrow hholds, hmem.2.1⟩
  · intro hall
    refine ⟨fun row hrow hholds => (hall row hrow hholds).1, ?_⟩
    ext row
    constructor
    · rintro ⟨hrow, -, hholds⟩
      exact ⟨hrow, hholds⟩
    · rintro ⟨hrow, hholds⟩
      exact ⟨hrow, (hall row hrow hholds).2, hholds⟩

def keySchema : Schema := ⟨[⟨0, "k", .int, true, false, none, none, false⟩], 1, []⟩

def fresh : Optimizer := ⟨.ascii, fun _ => none⟩

def threeBelow : Comparison := ⟨"k", .lt, .int ⟨3, by decide⟩, true⟩

theorem condition_threeBelow : Condition keySchema threeBelow.expr :=
  .comparison _ rfl rfl (by decide)

theorem selectBestScanPath_threeBelow :
    fresh.selectBestScanPath "t" keySchema threeBelow.expr ["k"] = .scan "t" keySchema
      (some (.value (.int ⟨-2 ^ 63, by decide⟩), .value (.int ⟨2, by decide⟩))) := by
  show (if _ < _ then _ else _ : ℚ × LogicalPlan).2 = _
  rw [if_pos (by decide +kernel)]
  rfl

end Optimizer

end Dtdb.Sql
