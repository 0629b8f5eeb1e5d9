import Mathlib.Logic.Equiv.Nat
import Dtdb.Lib.Wire
import Dtdb.Relational.OpenTable

/-! # Rows as bytes

`Row::to_bytes` writes the values one after another, each as its variant's number and its payload.
`Row::from_bytes_projected` consumes every column and builds only those that are asked for. -/

namespace Dtdb.Relational

open Dtdb.Lib Dtdb.Storage List Option

/-! ## The wire format -/

/-- Even for the numbers from zero up, odd below. -/
def zigzag (n : I64) : Nat := if 0 ≤ n.1 then (2 * n.1).toNat else (-2 * n.1 - 1).toNat

/-- `((z >> 1) as i64) ^ -((z & 1) as i64)`. -/
def unzigzag (z : BitVec 64) : I64 :=
  let v := (z >>> 1) ^^^ -(z &&& 1#64)
  ⟨v.toInt, BitVec.le_toInt v, BitVec.toInt_lt⟩

theorem half_ofNat {m b : Nat} (hm : m < 2 ^ 63) (hb : b < 2) :
    (BitVec.ofNat 64 (2 * m + b)) >>> 1 = BitVec.ofNat 64 m := by
  apply BitVec.eq_of_toNat_eq
  rw [BitVec.toNat_ushiftRight, BitVec.toNat_ofNat, BitVec.toNat_ofNat]
  omega

theorem parity_ofNat {m b : Nat} (hb : b < 2) :
    (BitVec.ofNat 64 (2 * m + b)) &&& 1#64 = BitVec.ofNat 64 b := by
  apply BitVec.eq_of_toNat_eq
  rw [BitVec.toNat_and, BitVec.toNat_ofNat, BitVec.toNat_ofNat, BitVec.toNat_ofNat,
    Nat.and_one_is_mod]
  omega

theorem toInt_ofNat_of_lt {m : Nat} (hm : m < 2 ^ 63) : (BitVec.ofNat 64 m).toInt = m := by
  rw [BitVec.toInt_eq_toNat_bmod, BitVec.toNat_ofNat]
  simp only [Int.bmod]
  omega

theorem unzigzag_even {m : Nat} (hm : m < 2 ^ 63) : (unzigzag (BitVec.ofNat 64 (2 * m))).1 = m := by
  have hhalf := half_ofNat hm (b := 0) (by decide)
  have hpar := parity_ofNat (m := m) (b := 0) (by decide)
  rw [Nat.add_zero] at hhalf hpar
  simp only [unzigzag, hhalf, hpar]
  simp [toInt_ofNat_of_lt hm]

theorem unzigzag_odd {m : Nat} (hm : m < 2 ^ 63) :
    (unzigzag (BitVec.ofNat 64 (2 * m + 1))).1 = -m - 1 := by
  simp only [unzigzag, half_ofNat hm (b := 1) (by decide),
    parity_ofNat (b := 1) (by decide)]
  have hneg : -BitVec.ofNat 64 1 = BitVec.allOnes 64 := by decide
  rw [hneg, BitVec.xor_allOnes, BitVec.toInt_not]
  rw [BitVec.toNat_ofNat]
  simp only [Int.bmod]
  omega

theorem unzigzag_zigzag (n : I64) : unzigzag (BitVec.ofNat 64 (zigzag n)) = n := by
  obtain ⟨n, hlo, hhi⟩ := n
  apply Subtype.ext
  unfold zigzag
  split
  · next h =>
    obtain ⟨m, rfl⟩ := Int.eq_ofNat_of_zero_le h
    have hm : (2 * (m : Int)).toNat = 2 * m := by omega
    rw [hm, unzigzag_even (by omega)]
  · next h =>
    obtain ⟨m, hm⟩ := Int.eq_ofNat_of_zero_le (a := -n - 1) (by simp at h; omega)
    have hz : (-2 * n - 1).toNat = 2 * m + 1 := by omega
    rw [hz, unzigzag_odd (by omega)]
    show -(m : Int) - 1 = n
    omega

theorem zigzag_lt (n : I64) : zigzag n < 2 ^ 64 := by
  obtain ⟨n, hlo, hhi⟩ := n
  unfold zigzag
  split
  · show (2 * n).toNat < 2 ^ 64
    omega
  · show (-2 * n - 1).toNat < 2 ^ 64
    omega

/-- How the values that are written as texts are written: the text behind its length. -/
structure TextWires where
  date : Wire NaiveDate
  time : Wire NaiveTime
  timestamp : Wire NaiveDateTime
  decimal : Wire (Int × Nat)

variable (x : TextWires)

def intWire : Wire I64 :=
  Wire.nat.iso zigzag (fun z => unzigzag (BitVec.ofNat 64 z)) unzigzag_zigzag

def variantTag : DbValue → Nat
  | .int _ => 0
  | .float _ => 1
  | .string _ => 2
  | .bytes _ => 3
  | .bool _ => 4
  | .null => 5
  | .date _ => 6
  | .time _ => 7
  | .timestamp _ => 8
  | .decimal _ _ => 9

theorem variantTag_lt (v : DbValue) : variantTag v < 10 := by
  cases v <;> simp [variantTag]

def encodePayload : DbValue → Bytes
  | .int n => intWire.encode n
  | .float w => Wire.word.encode w
  | .string s => Wire.text.encode s
  | .bytes b => Wire.blob.encode b
  | .bool b => Wire.flag.encode b
  | .null => []
  | .date d => x.date.encode d
  | .time t => x.time.encode t
  | .timestamp t => x.timestamp.encode t
  | .decimal m s => x.decimal.encode (m, s)

def decodePayload : Nat → Bytes → Option (DbValue × Bytes)
  | 0, bs => (intWire.decode bs).map fun r => (.int r.1, r.2)
  | 1, bs => (Wire.word.decode bs).map fun r => (.float r.1, r.2)
  | 2, bs => (Wire.text.decode bs).map fun r => (.string r.1, r.2)
  | 3, bs => (Wire.blob.decode bs).map fun r => (.bytes r.1, r.2)
  | 4, bs => (Wire.flag.decode bs).map fun r => (.bool r.1, r.2)
  | 5, bs => some (.null, bs)
  | 6, bs => (x.date.decode bs).map fun r => (.date r.1, r.2)
  | 7, bs => (x.time.decode bs).map fun r => (.time r.1, r.2)
  | 8, bs => (x.timestamp.decode bs).map fun r => (.timestamp r.1, r.2)
  | 9, bs => (x.decimal.decode bs).map fun r => (.decimal r.1.1 r.1.2, r.2)
  | _, _ => none

/-- A value: an enumeration is its variant's number and the variant's payload. -/
def valueWire : Wire DbValue where
  encode v := Wire.nat.encode (variantTag v) ++ encodePayload x v
  decode bs := (Wire.nat.decode bs).bind fun r => decodePayload x r.1 r.2
  decode_encode v rest := by
    rw [append_assoc, Wire.nat.decode_encode, bind_some]
    cases v <;> simp [decodePayload, encodePayload, variantTag, Wire.decode_encode]

namespace Row

def toBytes (r : Row) : Bytes := (valueWire x).list.encode r

end Row

/-! ## The cursor -/

inductive RowError where
  | corruption (msg : String)
  | invalidUtf8
  | undecodable
  | serialization
deriving DecidableEq

/-- The loop of `read_varint_u64` from its `i`-th byte. -/
def readVarintFrom (i : Nat) (value : UInt64) (shift : Nat) :
    Bytes → Except RowError (UInt64 × Bytes)
  | [] => .error (.corruption "truncated varint")
  | byte :: buf =>
    if 10 ≤ i then .error (.corruption "varint too long")
    else
      let value := value ||| ((byte &&& 0x7F).toUInt64 <<< UInt64.ofNat shift)
      if byte &&& 0x80 = 0 then .ok (value, buf) else readVarintFrom (i + 1) value (shift + 7) buf

def readVarintU64 (cursor : Bytes) : Except RowError (UInt64 × Bytes) := readVarintFrom 0 0 0 cursor

def readVarintI64 (cursor : Bytes) : Except RowError (I64 × Bytes) := do
  let (z, cursor) ← readVarintU64 cursor
  return (unzigzag z.toBitVec, cursor)

def takeBytes (cursor : Bytes) (n : Nat) : Except RowError (Bytes × Bytes) :=
  if cursor.length < n then .error (.corruption "truncated row payload")
  else .ok (cursor.splitAt n)

/-- The arms of the match on a column's tag. -/
def readPayload (keep : Bool) (preTagCursor : Bytes) :
    Nat → Bytes → Except RowError (DbValue × Bytes)
  | 0, cursor => do
    let (val, cursor) ← readVarintI64 cursor
    return (if keep then .int val else .null, cursor)
  | 1, cursor => do
    let (raw, cursor) ← takeBytes cursor 8
    return (if keep then .float (BitVec.ofNat 64 (ofLeBytes raw)) else .null, cursor)
  | 2, cursor => do
    let (len, cursor) ← readVarintU64 cursor
    let (raw, cursor) ← takeBytes cursor len.toNat
    if keep then
      match Wire.ofUtf8 raw with
      | some s => return (.string s, cursor)
      | none => throw .invalidUtf8
    else return (.null, cursor)
  | 3, cursor => do
    let (len, cursor) ← readVarintU64 cursor
    let (raw, cursor) ← takeBytes cursor len.toNat
    return (if keep then .bytes raw else .null, cursor)
  | 4, cursor => do
    let (raw, cursor) ← takeBytes cursor 1
    return (if keep then .bool (raw.headD 0 != 0) else .null, cursor)
  | 5, cursor => .ok (.null, cursor)
  | other, _ =>
    if other ≤ 9 then
      match (valueWire x).decode preTagCursor with
      | some (val, remaining) => .ok (if keep then val else .null, remaining)
      | none => .error .undecodable
    else .error (.corruption s!"Unknown DbValue variant tag: {other}")

/-- One turn of `from_bytes_projected`; NULL where the column is not kept. -/
def readColumn (keep : Bool) (cursor : Bytes) : Except RowError (DbValue × Bytes) := do
  let (tag, payload) ← readVarintU64 cursor
  readPayload x keep cursor tag.toNat payload

/-- The columns from the `i`-th on. -/
def readColumns (projected : List Nat) : Nat → Nat → Bytes → Except RowError Row
  | 0, _, _ => .ok []
  | left + 1, i, cursor => do
    let (value, cursor) ← readColumn x (projected.contains i) cursor
    let values ← readColumns projected left (i + 1) cursor
    return value :: values

def fromBytesProjected (bytes : Bytes) : Option (List Nat) → Except RowError Row
  | none =>
    match (valueWire x).list.fromBytes bytes with
    | some row => .ok row
    | none => .error .serialization
  | some projected => do
    let (len, cursor) ← readVarintU64 bytes
    readColumns x projected len.toNat 0 cursor

/-! ## The cursor reads what was written -/

theorem low_bits (b : UInt8) : (b &&& 0x7F).toUInt64.toNat = b.toNat % 128 := by
  exact Nat.and_two_pow_sub_one_eq_mod b.toNat 7

theorem high_bit (b : UInt8) : b &&& 0x80 = 0 ↔ b.toNat < 128 := by
  have h : ∀ n < 256, (UInt8.ofNat n &&& 0x80 = 0 ↔ (UInt8.ofNat n).toNat < 128) := by
    decide +kernel
  have hb := h b.toNat b.toNat_lt
  rwa [UInt8.ofNat_toNat] at hb

theorem toNat_or_shift {value : UInt64} (byte : UInt64) {i : Nat} (hi : 7 * i < 64)
    (hv : value.toNat < 2 ^ (7 * i)) (hsum : value.toNat + byte.toNat * 2 ^ (7 * i) < 2 ^ 64) :
    (value ||| (byte <<< UInt64.ofNat (7 * i))).toNat
      = value.toNat + byte.toNat * 2 ^ (7 * i) := by
  have hshift : (UInt64.ofNat (7 * i)).toNat % 64 = 7 * i := by
    rw [UInt64.toNat_ofNat_of_lt' (by show 7 * i < 2 ^ 64; omega)]
    omega
  rw [UInt64.toNat_or, UInt64.toNat_shiftLeft, hshift, Nat.shiftLeft_eq,
    Nat.mod_eq_of_lt (by omega), Nat.or_comm, Nat.mul_comm byte.toNat,
    ← Nat.two_pow_add_eq_or_of_lt hv]
  omega

theorem readVarintFrom_encodeVarint {fuel m i : Nat} (value : UInt64) (hm : m < fuel)
    (hi : 7 * i < 64) (hv : value.toNat < 2 ^ (7 * i))
    (hsum : value.toNat + m * 2 ^ (7 * i) < 2 ^ 64) (rest : Bytes) :
    readVarintFrom i value (7 * i) (Wire.encodeVarint fuel m ++ rest)
      = .ok (UInt64.ofNat (value.toNat + m * 2 ^ (7 * i)), rest) := by
  induction fuel generalizing m i value with
  | zero => omega
  | succ fuel ih =>
    rw [Wire.encodeVarint]
    split
    · next hlt =>
      have hb : (UInt8.ofNat m).toNat = m := UInt8.toNat_ofNat_of_lt (by simp [UInt8.size]; omega)
      have hlow : (UInt8.ofNat m &&& 0x7F).toUInt64.toNat = m := by
        rw [low_bits, hb, Nat.mod_eq_of_lt hlt]
      rw [cons_append, nil_append, readVarintFrom, if_neg (by omega),
        if_pos ((high_bit _).2 (by omega))]
      rw [← hlow] at hsum
      have hval := toNat_or_shift _ hi hv hsum
      rw [hlow] at hval
      rw [← hval, UInt64.ofNat_toNat]
    · next hge =>
      have hb : (UInt8.ofNat (128 + m % 128)).toNat = 128 + m % 128 :=
        UInt8.toNat_ofNat_of_lt (by simp [UInt8.size]; omega)
      have hlow : (UInt8.ofNat (128 + m % 128) &&& 0x7F).toUInt64.toNat = m % 128 := by
        rw [low_bits]
        omega
      have hsplit : m * 2 ^ (7 * i) = m % 128 * 2 ^ (7 * i) + m / 128 * 2 ^ (7 * (i + 1)) := by
        have hdiv : m = m % 128 + m / 128 * 2 ^ 7 := by omega
        rw [show 7 * (i + 1) = 7 + 7 * i by omega, pow_add, ← Nat.mul_assoc, ← Nat.add_mul, ← hdiv]
      -- a byte that is not the last leaves a number above it
      have hnext : 7 * (i + 1) < 64 := by
        have hone : 1 * 2 ^ (7 * (i + 1)) ≤ m / 128 * 2 ^ (7 * (i + 1)) :=
          Nat.mul_le_mul_right _ (by omega)
        exact (Nat.pow_lt_pow_iff_right (by decide : 1 < 2)).1 (by omega)
      have hnow : value.toNat + m % 128 * 2 ^ (7 * i) < 2 ^ (7 * (i + 1)) := by
        have hle : m % 128 * 2 ^ (7 * i) ≤ 127 * 2 ^ (7 * i) := Nat.mul_le_mul_right _ (by omega)
        rw [show 7 * (i + 1) = 7 + 7 * i by omega, pow_add]
        omega
      have hval := toNat_or_shift (UInt8.ofNat (128 + m % 128) &&& 0x7F).toUInt64 hi hv
        (by rw [hlow]; omega)
      rw [hlow] at hval
      rw [cons_append, readVarintFrom, if_neg (by omega),
        if_neg (by rw [high_bit]; omega)]
      show readVarintFrom (i + 1) _ (7 * (i + 1)) _ = _
      rw [ih _ (by omega) hnext (by rw [hval]; exact hnow) (by rw [hval]; omega), hval, hsplit,
        Nat.add_assoc]

theorem readVarintU64_nat {n : Nat} (h : n < 2 ^ 64) (rest : Bytes) :
    readVarintU64 (Wire.nat.encode n ++ rest) = .ok (UInt64.ofNat n, rest) := by
  have hread := readVarintFrom_encodeVarint (i := 0) 0 (Nat.lt_succ_self n)
    (by decide) (by decide) (by simpa using h) rest
  rw [UInt64.toNat_zero, Nat.zero_add, pow_zero, Nat.mul_one] at hread
  exact hread

theorem readVarintI64_int (n : I64) (rest : Bytes) :
    readVarintI64 (intWire.encode n ++ rest) = .ok (n, rest) := by
  have hread := readVarintU64_nat (zigzag_lt n) rest
  show (readVarintU64 (Wire.nat.encode (zigzag n) ++ rest) >>= _) = _
  rw [hread]
  show Except.ok (unzigzag (UInt64.ofNat (zigzag n)).toBitVec, rest) = _
  rw [UInt64.toBitVec_ofNat', unzigzag_zigzag]

theorem takeBytes_append {raw : Bytes} {n : Nat} (h : raw.length = n) (rest : Bytes) :
    takeBytes (raw ++ rest) n = .ok (raw, rest) := by
  subst h
  unfold takeBytes
  rw [if_neg (by simp), splitAt_eq, take_left, drop_left]

theorem readVarintU64_blob {b : Bytes} (h : b.length < 2 ^ 64) (rest : Bytes) :
    readVarintU64 (Wire.blob.encode b ++ rest) = .ok (UInt64.ofNat b.length, b ++ rest) := by
  show readVarintU64 ((Wire.nat.encode b.length ++ b) ++ rest) = _
  rw [append_assoc, readVarintU64_nat h]

/-- A payload that memory can hold. -/
def Addressable : DbValue → Prop
  | .string s => (Wire.utf8 s).length < 2 ^ 64
  | .bytes b => b.length < 2 ^ 64
  | _ => True

/-- **One turn consumes exactly the bytes of one value.** -/
theorem readColumn_encode (keep : Bool) {v : DbValue} (h : Addressable v) (rest : Bytes) :
    readColumn x keep ((valueWire x).encode v ++ rest)
      = .ok (if keep then v else .null, rest) := by
  have htag : readVarintU64 ((valueWire x).encode v ++ rest)
      = .ok (UInt64.ofNat (variantTag v), encodePayload x v ++ rest) := by
    show readVarintU64 ((Wire.nat.encode (variantTag v) ++ encodePayload x v) ++ rest) = _
    rw [append_assoc]
    exact readVarintU64_nat (by have := variantTag_lt v; omega) _
  unfold readColumn
  rw [htag]
  show readPayload x keep _ (UInt64.ofNat (variantTag v)).toNat _ = _
  rw [UInt64.toNat_ofNat_of_lt' (by have := variantTag_lt v; show variantTag v < 2 ^ 64; omega)]
  cases v with
  | int n =>
    rw [variantTag, encodePayload, readPayload, readVarintI64_int]
    rfl
  | float w =>
    rw [variantTag, encodePayload, readPayload, takeBytes_append (Wire.length_word w)]
    show Except.ok (if keep then DbValue.float (BitVec.ofNat 64 (ofLeBytes (leBytes 8 w.toNat)))
      else .null, rest) = _
    rw [ofLeBytes_leBytes_of_lt w.isLt, BitVec.ofNat_toNat, BitVec.setWidth_eq]
  | string s =>
    rw [variantTag, encodePayload, readPayload,
        show Wire.text.encode s = Wire.blob.encode (Wire.utf8 s) from rfl, readVarintU64_blob h]
    show (takeBytes (Wire.utf8 s ++ rest) (UInt64.ofNat (Wire.utf8 s).length).toNat >>= _) = _
    rw [UInt64.toNat_ofNat_of_lt' h, takeBytes_append rfl]
    cases keep with
    | true =>
      show (match Wire.ofUtf8 (Wire.utf8 s) with
        | some s => (Except.ok (DbValue.string s, rest) : Except RowError (DbValue × Bytes))
        | none => .error .invalidUtf8) = _
      rw [Wire.ofUtf8_utf8]
      rfl
    | false => rfl
  | bytes b =>
    rw [variantTag, encodePayload, readPayload, readVarintU64_blob h]
    show (takeBytes (b ++ rest) (UInt64.ofNat b.length).toNat >>= _) = _
    rw [UInt64.toNat_ofNat_of_lt' h, takeBytes_append rfl]
    rfl
  | bool b =>
    rw [variantTag, readPayload, takeBytes_append (n := 1) rfl]
    cases b <;> rfl
  | null => cases keep <;> rfl
  | date d | time t | timestamp t | decimal m s =>
    rw [readPayload, if_pos (by simp [variantTag]), (valueWire x).decode_encode] <;>
      simp [variantTag]

/-- A row that memory can hold: a length is a `usize`. -/
structure Row.Addressable (r : Row) : Prop where
  width : r.length < 2 ^ 64
  values : ∀ v ∈ r, Relational.Addressable v

theorem readColumns_encode (projected : List Nat) {r : Row} (h : ∀ v ∈ r, Addressable v)
    (i : Nat) (rest : Bytes) :
    readColumns x projected r.length i (r.flatMap (valueWire x).encode ++ rest)
      = .ok ((r.zipIdx i).map fun y => if y.2 ∈ projected then y.1 else .null) := by
  induction r generalizing i with
  | nil => rfl
  | cons v r ih =>
    have hv := readColumn_encode x (projected.contains i) (h v mem_cons_self)
      (r.flatMap (valueWire x).encode ++ rest)
    have hr := ih (fun w hw => h w (mem_cons_of_mem v hw)) (i + 1)
    rw [flatMap_cons, append_assoc, length_cons, readColumns, hv]
    show (readColumns x projected r.length (i + 1) (r.flatMap (valueWire x).encode ++ rest)
      >>= _) = _
    rw [hr, zipIdx_cons, map_cons]
    show Except.ok (_ :: _) = _
    simp only [contains_iff_mem]

/-- The projected read of a written row is the row with the other columns NULL. -/
theorem fromBytesProjected_eq {r : Row} (h : r.Addressable) (projected : List Nat) :
    fromBytesProjected x (r.toBytes x) (some projected) = .ok (projectRow (some projected) r) := by
  show (readVarintU64 (Wire.nat.encode r.length ++ r.flatMap (valueWire x).encode) >>= _) = _
  rw [readVarintU64_nat h.width]
  show readColumns x projected (UInt64.ofNat r.length).toNat 0 _ = _
  have hread := readColumns_encode x projected h.values 0 []
  rw [append_nil] at hread
  rw [UInt64.toNat_ofNat_of_lt' h.width, hread]
  rfl

/-- **Projected reads of a written row**: it succeeds, with the row's values at the positions asked
for and NULL elsewhere. -/
theorem fromBytesProjected_toBytes {r : Row} (h : r.Addressable) (projected : List Nat) :
    ∃ out, fromBytesProjected x (r.toBytes x) (some projected) = .ok out ∧
      out.length = r.length ∧
      ∀ i < r.length, out[i]? = if i ∈ projected then r[i]? else some .null := by
  refine ⟨projectRow (some projected) r, fromBytesProjected_eq x h projected, ?_, ?_⟩
  · simp [projectRow]
  · intro i hi
    simp only [projectRow, getElem?_map, getElem?_zipIdx, Nat.zero_add,
      getElem?_eq_getElem hi, map_some]
    split <;> rfl

def numberWires : TextWires where
  date := Wire.nat.iso Equiv.intEquivNat Equiv.intEquivNat.symm Equiv.intEquivNat.left_inv
  time := (Wire.nat.pair Wire.nat).iso ofLex toLex fun _ => rfl
  timestamp := (Wire.nat.pair (Wire.nat.pair Wire.nat)).iso
    (fun t => (Equiv.intEquivNat (ofLex t).1, ofLex (ofLex t).2))
    (fun t => toLex (Equiv.intEquivNat.symm t.1, toLex t.2)) fun t => by
      rw [Equiv.symm_apply_apply]
      rfl
  decimal := (Wire.nat.pair Wire.nat).iso (fun d => (Equiv.intEquivNat d.1, d.2))
    (fun d => (Equiv.intEquivNat.symm d.1, d.2)) fun d => by rw [Equiv.symm_apply_apply]

def mixedRow : Row :=
  [.int ⟨-1, by decide⟩, .string "ab", .bytes [7], .date 3, .float 0, .decimal (-5) 2]

theorem mixedRow_projected :
    mixedRow.Addressable ∧
      ∃ out, fromBytesProjected numberWires (mixedRow.toBytes numberWires) (some [0, 3]) = .ok out ∧
        out.length = mixedRow.length ∧
        ∀ i < mixedRow.length, out[i]? = if i ∈ [0, 3] then mixedRow[i]? else some .null := by
  have h : mixedRow.Addressable := by
    refine ⟨by decide, ?_⟩
    simp only [mixedRow, forall_mem_cons, not_mem_nil, false_implies, implies_true,
      and_true]
    exact ⟨trivial, by show (Wire.utf8 "ab").length < 2 ^ 64; decide +kernel,
      by show length _ < 2 ^ 64; decide, trivial, trivial, trivial⟩
  exact ⟨h, fromBytesProjected_toBytes numberWires h [0, 3]⟩

/-! ## Where the reader can panic -/

/-- `read_varint_u64` with `left` bytes to go. -/
def varintAt (buf : Bytes) : Nat → Nat → UInt64 → Nat → Option (Except RowError (UInt64 × Bytes))
  | 0, _, _, _ => some (.error (.corruption "truncated varint"))
  | left + 1, i, value, shift =>
    if 10 ≤ i then some (.error (.corruption "varint too long"))
    else buf[i]?.bind fun byte =>
      let value := value ||| ((byte &&& 0x7F).toUInt64 <<< UInt64.ofNat shift)
      if byte &&& 0x80 = 0 then
        if i + 1 ≤ buf.length then some (.ok (value, buf.drop (i + 1))) else none
      else varintAt buf left (i + 1) value (shift + 7)

def varintChecked (cursor : Bytes) : Option (Except RowError (UInt64 × Bytes)) :=
  varintAt cursor cursor.length 0 0 0

/-- `take_bytes`, and its slice taken for `n` bytes; both may panic. -/
def sliceChecked (cursor : Bytes) (n : Nat) : Option Unit :=
  match takeBytes cursor n with
  | .ok (raw, _) => if n ≤ cursor.length ∧ raw.length = n then some () else none
  | .error _ => some ()

/-- What an arm reads before it builds its value. -/
def armChecked : Nat → Bytes → Option Unit
  | 0, cursor => (varintChecked cursor).map fun _ => ()
  | 1, cursor => sliceChecked cursor 8
  | 2, cursor | 3, cursor => (varintChecked cursor).bind fun
    | .ok (len, rest) => sliceChecked rest len.toNat
    | .error _ => some ()
  | 4, cursor => sliceChecked cursor 1
  | _, _ => some ()

def columnChecked (keep : Bool) (cursor : Bytes) : Option (Except RowError (DbValue × Bytes)) :=
  (varintChecked cursor).bind fun
    | .ok (tag, payload) => (armChecked tag.toNat payload).map fun _ => readColumn x keep cursor
    | .error e => some (.error e)

def columnsChecked (projected : List Nat) : Nat → Nat → Bytes → Option (Except RowError Row)
  | 0, _, _ => some (.ok [])
  | left + 1, i, cursor => (columnChecked x (projected.contains i) cursor).bind fun
    | .ok (value, rest) => (columnsChecked projected left (i + 1) rest).map fun r => r.map (value :: ·)
    | .error e => some (.error e)

/-- `Row::from_bytes_projected`; `Vec::with_capacity` panics past `isize::MAX` bytes. -/
def fromBytesChecked (size : Nat) (bytes : Bytes) :
    Option (List Nat) → Option (Nat × Except RowError Row)
  | none => some (0, fromBytesProjected x bytes none)
  | some projected => (varintChecked bytes).bind fun
    | .ok (len, cursor) =>
      if len.toNat * size < 2 ^ 63 then
        (columnsChecked x projected len.toNat 0 cursor).map (len.toNat, ·)
      else none
    | .error e => some (0, .error e)

theorem varintAt_eq (buf : Bytes) {left i : Nat} (h : i + left = buf.length) (value : UInt64)
    (shift : Nat) : varintAt buf left i value shift
      = some (readVarintFrom i value shift (buf.drop i)) := by
  induction left generalizing i value shift with
  | zero =>
    rw [drop_of_length_le (by omega)]
    rfl
  | succ left ih =>
    have hi : i < buf.length := by omega
    rw [drop_eq_getElem_cons hi, varintAt, readVarintFrom, getElem?_eq_getElem hi, bind_some]
    split
    · rfl
    · dsimp only
      split
      · exact if_pos hi
      · exact ih (by omega) _ _

theorem varintChecked_eq (cursor : Bytes) : varintChecked cursor = some (readVarintU64 cursor) :=
  varintAt_eq cursor (Nat.zero_add _) 0 0

theorem sliceChecked_eq (cursor : Bytes) (n : Nat) : sliceChecked cursor n = some () := by
  unfold sliceChecked takeBytes
  by_cases h : cursor.length < n
  · rw [if_pos h]
  · rw [if_neg h, splitAt_eq]
    exact if_pos ⟨by omega, by rw [length_take]; omega⟩

theorem armChecked_eq (tag : Nat) (cursor : Bytes) : armChecked tag cursor = some () := by
  unfold armChecked
  split
  · rw [varintChecked_eq, map_some]
  · exact sliceChecked_eq _ _
  · rw [varintChecked_eq, bind_some]
    split
    · exact sliceChecked_eq _ _
    · rfl
  · rw [varintChecked_eq, bind_some]
    split
    · exact sliceChecked_eq _ _
    · rfl
  · exact sliceChecked_eq _ _
  · rfl

theorem columnChecked_eq (keep : Bool) (cursor : Bytes) :
    columnChecked x keep cursor = some (readColumn x keep cursor) := by
  unfold columnChecked
  rw [varintChecked_eq, bind_some]
  split
  · rw [armChecked_eq, map_some]
  · next h =>
    unfold readColumn
    rw [h]
    rfl

theorem columnsChecked_eq (projected : List Nat) (left i : Nat) (cursor : Bytes) :
    columnsChecked x projected left i cursor = some (readColumns x projected left i cursor) := by
  induction left generalizing i cursor with
  | zero => rfl
  | succ left ih =>
    rw [columnsChecked, columnChecked_eq, bind_some, readColumns]
    cases readColumn x (projected.contains i) cursor with
    | error e => rfl
    | ok r =>
      show (columnsChecked x projected left (i + 1) r.2).map _
        = some (readColumns x projected left (i + 1) r.2 >>= fun values => pure (r.1 :: values))
      rw [ih, map_some]
      cases readColumns x projected left (i + 1) r.2 <;> rfl

/-- **A projected read of any bytes** returns and reserves at most one value for each of them,
exactly if the number of values that they announce is so small. -/
theorem fromBytesChecked_iff (size : Nat) (bytes : Bytes) (projection : Option (List Nat)) :
    (∃ n, fromBytesChecked x size bytes projection
        = some (n, fromBytesProjected x bytes projection) ∧ n ≤ bytes.length) ↔
      ∀ projected len cursor, projection = some projected → readVarintU64 bytes = .ok (len, cursor) →
        len.toNat ≤ bytes.length ∧ len.toNat * size < 2 ^ 63 := by
  cases projection with
  | none => exact iff_of_true ⟨0, rfl, Nat.zero_le _⟩ nofun
  | some projected =>
    unfold fromBytesChecked fromBytesProjected
    simp only [varintChecked_eq, bind_some]
    cases hread : readVarintU64 bytes with
    | error e => exact iff_of_true ⟨0, rfl, Nat.zero_le _⟩ nofun
    | ok r =>
      obtain ⟨len, cursor⟩ := r
      simp only [columnsChecked_eq, map_some]
      constructor
      · rintro ⟨n, hn, hle⟩ _ _ _ ⟨⟩ ⟨⟩
        split at hn
        · next hsize =>
          cases hn
          exact ⟨hle, hsize⟩
        · cases hn
      · intro h
        obtain ⟨hle, hsize⟩ := h projected len cursor rfl rfl
        exact ⟨len.toNat, if_pos hsize, hle⟩

/-- Ten bytes that announce `u64::MAX` values. -/
theorem fromBytesChecked_widest :
    fromBytesChecked numberWires 24
      [255, 255, 255, 255, 255, 255, 255, 255, 255, 1] (some []) = none := by
  decide +kernel

end Dtdb.Relational
