import Mathlib.Tactic.NormNum
import Mathlib.Tactic.Positivity
import Dtdb.Relational.IndexScan

/-! # Which keys the full ranges hold

`primary_key_bounds` and `key_bounds` are meant to bracket every key of a table and of an index.
Their upper ends are sentinels, and some keys lie beyond them. -/

namespace Dtdb.Relational

open Dtdb.Lib Dtdb.Storage DataType List Option

/-! ## Values at and beyond the upper end -/

/-- A time as `NaiveTime` holds it, leap seconds included. -/
def NativeTime (t : NaiveTime) : Prop := (ofLex t).1 < 86400 ∧ (ofLex t).2 < 2000000000

/-- A value that its Rust type holds. -/
def Native : DbValue → Prop
  | .date d => minDate ≤ d ∧ d ≤ maxDate
  | .time t => NativeTime t
  | .timestamp t => (minDate ≤ (ofLex t).1 ∧ (ofLex t).1 ≤ maxDate) ∧ NativeTime (ofLex t).2
  | .decimal m s => |m| < 2 ^ 96 ∧ s ≤ 28
  | _ => True

def lastLeap (t : NaiveTime) : Bool := (ofLex t).1 = 86399 ∧ 1000000000 ≤ (ofLex t).2

def topChar : Char := Char.ofNat 0x10ffff

def beyond : DbValue → Bool
  | .string s => s.toList.head? = some topChar ∧ s.toList.tail ≠ []
  | .time t => lastLeap t
  | .timestamp t => (ofLex t).1 = maxDate ∧ lastLeap (ofLex t).2
  | _ => false

def atTop : DbValue → Bool
  | .int n => n.1 = 2 ^ 63 - 1
  | .bool b => b
  | .date d => d = maxDate
  | .time t => t = maxTime
  | .timestamp t => (ofLex t).1 = maxDate ∧ (ofLex t).2 = maxTime
  | .decimal m s => (m : ℚ) / 10 ^ s = maxDecimal
  | .string s => s = String.singleton topChar
  | _ => false

/-- Some value is beyond its upper end and all before it are at theirs. -/
def exceeds : List DbValue → Bool
  | [] => false
  | v :: vs => beyond v || atTop v && exceeds vs

/-! ## One column -/

theorem scalar_le_iff {a b : Scalar} : DbKey.scalar a ≤ .scalar b ↔ a.code ≤ b.code := by
  rw [← not_lt, DbKey.scalar_lt_iff, not_lt]

theorem le_maxTime {t : NaiveTime} (h : NativeTime t) : t ≤ maxTime ↔ lastLeap t = false := by
  obtain ⟨hs, hn⟩ := h
  rw [Prod.Lex.le_iff]
  simp only [maxTime, lastLeap, ofLex_toLex, decide_eq_false_iff_not]
  omega

theorem le_topChar (c : Char) : c ≤ topChar := by
  rcases c.valid with h | h <;> exact UInt32.le_iff_toNat_le.2 (by
    show c.val.toNat ≤ 0x10ffff
    omega)

theorem string_le_top {s : String} : s ≤ String.singleton topChar ↔ beyond (.string s) = false := by
  rw [← not_lt, String.lt_iff_toList_lt]
  cases hs : s.toList with
  | nil => simp [beyond, hs]
  | cons c cs =>
    have hc := not_lt.2 (le_topChar c)
    cases cs <;> simp [beyond, hs, cons_lt_cons_iff, hc, eq_comm]

/-- **The range of a type**: every key is above its lower end, and those of the values beyond are
above its upper end. -/
theorem keyBounds_spec {t : DataType} {v : DbValue} {key : DbKey} (hv : Native v)
    (hacc : t.accepts v = true) (hkey : dbValueToKey v = some key) :
    t.keyBounds.1 ≤ key ∧ (key ≤ t.keyBounds.2 ↔ beyond v = false) ∧
      (key = t.keyBounds.2 ↔ atTop v = true) := by
  cases t <;> cases v <;> cases hacc <;> cases hkey <;>
    simp only [keyBounds, scalar_le_iff, Scalar.code, Sum.inlₗ, Sum.inrₗ, Sum.Lex.inl_le_inl_iff,
      Sum.Lex.inr_le_inr_iff, DbKey.scalar.injEq, Scalar.date.injEq, Scalar.time.injEq,
      Scalar.timestamp.injEq, Scalar.decimal.injEq, Scalar.string.injEq, Scalar.bool.injEq]
  case int.int.refl.refl n =>
    refine ⟨Sum.Lex.inl_le_inl_iff.2 n.2.1, ?_, ?_⟩
    · exact iff_of_true (Sum.Lex.inl_le_inl_iff.2 (Int.le_sub_one_of_lt n.2.2)) rfl
    · simp [atTop, decide_eq_true_eq]
      exact ⟨fun h => congrArg Subtype.val (Scalar.int.inj h),
        fun h => congrArg Scalar.int (Subtype.ext h)⟩
  case string.string.refl.refl s =>
    exact ⟨not_lt.1 fun h => not_lt_nil _ (String.lt_iff_toList_lt.1 h), string_le_top,
      decide_eq_true_iff.symm⟩
  case bool.bool.refl.refl b => cases b <;> simp [beyond, atTop]
  case date.date.refl.refl d => simp [beyond, atTop, hv.1, hv.2]
  case time.time.refl.refl t =>
    exact ⟨Prod.Lex.le_iff.2 (by simp only [ofLex_toLex]; omega), le_maxTime hv,
      by simp [atTop]⟩
  case timestamp.timestamp.refl.refl t =>
    obtain ⟨⟨hlo, hhi⟩, htime⟩ := hv
    have htop := le_maxTime htime
    refine ⟨Prod.Lex.le_iff.2 ?_, Prod.Lex.le_iff.trans ?_, ?_⟩
    · rcases hlo.lt_or_eq with h | h
      · exact .inl h
      · exact .inr ⟨h, Prod.Lex.le_iff.2 (by simp only [ofLex_toLex]; omega)⟩
    · simp only [ofLex_toLex, htop, beyond, decide_eq_false_iff_not, not_and, Bool.not_eq_true]
      constructor
      · rintro (h | ⟨-, h⟩) heq
        · exact absurd heq h.ne
        · exact h
      · intro h
        rcases hhi.lt_or_eq with hlt | heq
        · exact .inl hlt
        · exact .inr ⟨heq, h heq⟩
    · simp [atTop, decide_eq_true_eq]
      exact Prod.ext_iff
  case decimal.decimal.refl.refl m s =>
    have hle : |(m : ℚ) / 10 ^ s| ≤ maxDecimal := by
      rw [abs_div, abs_of_pos (by positivity : (0 : ℚ) < 10 ^ s)]
      have hm : |(m : ℚ)| ≤ maxDecimal := by
        have hlt : |m| < 2 ^ 96 := hv.1
        have hint : |m| ≤ 79228162514264337593543950335 := by omega
        unfold maxDecimal
        exact_mod_cast hint
      exact (div_le_self (abs_nonneg _) (one_le_pow₀ (by norm_num))).trans hm
    exact ⟨(abs_le.1 hle).1, iff_of_true (abs_le.1 hle).2 rfl, by simp [atTop]⟩

/-! ## Composite keys -/

theorem composite_cons_le {k b : DbKey} {ks bs : List DbKey} :
    DbKey.composite (k :: ks) ≤ .composite (b :: bs) ↔
      k < b ∨ k = b ∧ DbKey.composite ks ≤ .composite bs := by
  rw [DbKey.le_iff, DbKey.le_iff, DbKey.cmp, DbKey.cmp, DbKey.cmpList, Ordering.then_eq_lt,
    DbKey.cmp_eq_iff, ← DbKey.lt_def]
  simp only [DbKey.composite.injEq, cons.injEq]
  tauto

def Typed (row : Row) (pk : List (Column × Nat)) : Prop :=
  ∀ x ∈ pk, ∀ v, row[x.2]? = some v → Native v ∧ (v = .null ∨ x.1.dataType.accepts v = true)

theorem Typed.bounds {row : Row} {pk : List (Column × Nat)} (h : Typed row pk) {x : Column × Nat}
    (hx : x ∈ pk) {key : DbKey} (hkey : row[x.2]?.bind dbValueToKey = some key) :
    x.1.dataType.keyBounds.1 ≤ key ∧
      (key ≤ x.1.dataType.keyBounds.2 ↔ beyond (row[x.2]?.getD .null) = false) ∧
      (key = x.1.dataType.keyBounds.2 ↔ atTop (row[x.2]?.getD .null) = true) := by
  obtain ⟨v, hv, hkey⟩ := bind_eq_some_iff.1 hkey
  obtain ⟨hnative, rfl | hacc⟩ := h x hx v hv
  · cases hkey
  · rw [hv]
    exact keyBounds_spec hnative hacc hkey

theorem Typed.composite_bounds {row : Row} {pk : List (Column × Nat)} (h : Typed row pk)
    {keys : List DbKey} (hkeys : (pk.mapM fun x => row[x.2]?.bind dbValueToKey) = some keys) :
    DbKey.composite (pk.map fun x => x.1.dataType.keyBounds.1) ≤ .composite keys ∧
      (DbKey.composite keys ≤ .composite (pk.map fun x => x.1.dataType.keyBounds.2) ↔
        exceeds (pk.map fun x => row[x.2]?.getD .null) = false) := by
  induction pk generalizing keys with
  | nil =>
    cases hkeys
    exact ⟨le_rfl, iff_of_true le_rfl rfl⟩
  | cons x pk ih =>
    rw [mapM_cons] at hkeys
    obtain ⟨k, hk, ks, hks, hkeys⟩ := bind_bind_eq_some.1 hkeys
    cases hkeys
    obtain ⟨hlo, hhi, htop⟩ := h.bounds mem_cons_self hk
    obtain ⟨hlos, hhis⟩ := ih (fun y hy => h y (mem_cons_of_mem x hy)) hks
    have hne := not_congr htop
    rw [Bool.not_eq_true] at hne
    simp only [map_cons, composite_cons_le, exceeds, Bool.or_eq_false_iff,
      Bool.and_eq_false_iff, hhis]
    refine ⟨hlo.lt_or_eq.imp_right fun heq => ⟨heq, hlos⟩, ?_⟩
    rw [← hhi, ← hne, lt_iff_le_and_ne]
    constructor
    · rintro (⟨hle, hne⟩ | ⟨heq, hrest⟩)
      · exact ⟨hle, .inl hne⟩
      · exact ⟨heq.le, .inr hrest⟩
    · rintro ⟨hle, hne | hrest⟩
      · exact .inl ⟨hle, hne⟩
      · exact hle.lt_or_eq.imp (fun hlt => ⟨hle, hlt.ne⟩) fun heq => ⟨heq, hrest⟩

/-! ## The keys of a row -/

def Schema.keyValues (s : Schema) (row : Row) : List DbValue :=
  s.primaryKey.map fun x => row[x.2]?.getD .null

structure Schema.KeysInRange (s : Schema) (row : Row) : Prop where
  primary : ∀ key, s.extractPrimaryKey row = some key →
    ∃ lo hi, s.primaryKeyBounds = some (lo, hi) ∧ lo ≤ key ∧ key ≤ hi
  indexed : ∀ idx ∈ s.indexes, idx.indexType = .btree → ∀ name ∈ idx.columns, ∀ i c v key,
    s.columnIndex name = some i → s.columns[i]? = some c → row[i]? = some v →
    dbValueToKey v = some key → c.dataType.keyBounds.1 ≤ key ∧ key ≤ c.dataType.keyBounds.2

/-- No value in a primary key or an ordered index exceeds its type's range. -/
structure Schema.NoneBeyond (s : Schema) (row : Row) : Prop where
  primary : (∀ v ∈ s.keyValues row, (dbValueToKey v).isSome) → exceeds (s.keyValues row) = false
  indexed : ∀ idx ∈ s.indexes, idx.indexType = .btree → ∀ name ∈ idx.columns, ∀ i v,
    s.columnIndex name = some i → row[i]? = some v → beyond v = false

theorem typed_of_validateRow {s : Schema} {row : Row} (hvalid : s.validateRow row = .ok ())
    (hnative : ∀ v ∈ row, Native v) : Typed row s.columns.zipIdx := by
  rintro ⟨c, i⟩ hx v hv
  have hc : s.columns[i]? = some c := mem_zipIdx_iff_getElem?.1 hx
  exact ⟨hnative v (mem_of_getElem? hv), Schema.accepts_of_validateRow hvalid hc hv⟩

theorem dbValueToKey_getD (o : Option DbValue) :
    dbValueToKey (o.getD .null) = o.bind dbValueToKey := by
  cases o <;> rfl

theorem isSome_mapM_key (row : Row) (pk : List (Column × Nat)) :
    (pk.mapM fun x => row[x.2]?.bind dbValueToKey).isSome ↔
      ∀ v ∈ pk.map fun x => row[x.2]?.getD .null, (dbValueToKey v).isSome := by
  simp only [isSome_iff_exists, List.forall_mem_map, dbValueToKey_getD]
  constructor
  · rintro ⟨keys, h⟩ x hx
    obtain ⟨k, -, hk⟩ := exists_of_mapM h hx
    exact ⟨k, hk⟩
  · exact fun h => exists_mapM fun x hx => isSome_iff_exists.mpr (h x hx)

theorem inRange_iff {found : Option DbKey} {lo hi : DbKey} {P : Prop}
    (h : ∀ key, found = some key → lo ≤ key ∧ (key ≤ hi ↔ P)) :
    (∀ key, found = some key →
      ∃ lo' hi', some (lo, hi) = some (lo', hi') ∧ lo' ≤ key ∧ key ≤ hi') ↔ (found.isSome → P) := by
  cases found with
  | none => simp
  | some key =>
    obtain ⟨hlo, hhi⟩ := h key rfl
    simp [hlo, hhi]

theorem Schema.primary_iff {s : Schema} {row : Row} (h : Typed row s.primaryKey) :
    (∀ key, s.extractPrimaryKey row = some key →
      ∃ lo hi, s.primaryKeyBounds = some (lo, hi) ∧ lo ≤ key ∧ key ≤ hi) ↔
    ((∀ v ∈ s.keyValues row, (dbValueToKey v).isSome) → exceeds (s.keyValues row) = false) := by
  unfold extractPrimaryKey primaryKeyBounds keyValues
  match hpk : s.primaryKey with
  | [] => simp [exceeds]
  | [x] =>
    rw [hpk] at h
    simp only [map_cons, map_nil, forall_mem_singleton, exceeds, Bool.and_false,
      Bool.or_false, dbValueToKey_getD]
    exact inRange_iff fun key hkey =>
      ⟨(h.bounds mem_cons_self hkey).1, (h.bounds mem_cons_self hkey).2.1⟩
  | x :: y :: zs =>
    rw [hpk] at h
    rw [← isSome_mapM_key, ← isSome_map]
    refine inRange_iff fun key hkey => ?_
    obtain ⟨keys, hkeys, rfl⟩ := map_eq_some_iff.1 hkey
    exact h.composite_bounds hkeys

theorem beyond_of_no_key {v : DbValue} (h : dbValueToKey v = none) : beyond v = false := by
  cases v <;> first | rfl | cases h

/-- **Which rows the full ranges hold**: exactly those without a value that exceeds its type's. -/
theorem Schema.keysInRange_iff {s : Schema} {row : Row} (hvalid : s.validateRow row = .ok ())
    (hnative : ∀ v ∈ row, Native v) : s.KeysInRange row ↔ s.NoneBeyond row := by
  have htyped := typed_of_validateRow hvalid hnative
  have hprimary := primary_iff fun x (hx : x ∈ s.primaryKey) => htyped x (mem_of_mem_filter hx)
  constructor
  · intro h
    refine ⟨hprimary.1 h.primary, fun idx hidx hbtree name hname i v hi hv => ?_⟩
    cases hkey : dbValueToKey v with
    | none => exact beyond_of_no_key hkey
    | some key =>
      obtain ⟨c, hc, -⟩ := getElem?_of_columnIndex hi
      have hb := htyped.bounds (x := (c, i)) (mem_zipIdx_iff_getElem?.2 hc)
        (by rw [hv]; exact hkey)
      rw [hv] at hb
      exact hb.2.1.1 (h.indexed idx hidx hbtree name hname i c v key hi hc hv hkey).2
  · intro h
    refine ⟨hprimary.2 h.primary, fun idx hidx hbtree name hname i c v key hi hc hv hkey => ?_⟩
    have hb := htyped.bounds (x := (c, i)) (mem_zipIdx_iff_getElem?.2 hc)
      (by rw [hv]; exact hkey)
    rw [hv] at hb
    exact ⟨hb.1, hb.2.1.2 (h.indexed idx hidx hbtree name hname i v hi hv)⟩

def timedWords : Schema where
  columns := [⟨0, "word", .string, true, false, none, none, false⟩,
    ⟨1, "at", .time, true, false, none, none, false⟩]
  nextColumnId := 2
  indexes := []

/-- A leap second behind an ordinary word is inside. -/
theorem keysInRange_timedWords :
    timedWords.KeysInRange [.string "b", .time (toLex (86399, 1500000000))] := by
  refine (Schema.keysInRange_iff rfl ?_).2 ⟨fun _ => by decide, nofun⟩
  simp [Native, NativeTime]

/-- A word above U+10FFFF is accepted and its key is above the upper bound. -/
theorem word_beyond_bounds :
    let row : Row := [.string (String.ofList [topChar, topChar]), .time (toLex (0, 0))]
    timedWords.validateRow row = .ok () ∧
      ∃ key lo hi, timedWords.extractPrimaryKey row = some key ∧
        timedWords.primaryKeyBounds = some (lo, hi) ∧ hi < key :=
  ⟨rfl, _, _, _, rfl, rfl, by decide⟩

end Dtdb.Relational
