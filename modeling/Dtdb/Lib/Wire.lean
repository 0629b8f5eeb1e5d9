import Dtdb.Lib.Bytes

/-! # Self-delimiting encodings

Numbers as bytes of seven bits, pairs by juxtaposition, options by a tag, lists by their length.  A
decoder leaves what follows the value, so encodings compose. -/

namespace Dtdb.Lib

open List Option

structure Wire (A : Type) where
  encode : A → Bytes
  decode : Bytes → Option (A × Bytes)
  decode_encode : ∀ a rest, decode (encode a ++ rest) = some (a, rest)

namespace Wire

variable {A B : Type}

/-! ## Numbers -/

/-- At most `fuel` bytes before the last. -/
def encodeVarint : Nat → Nat → Bytes
  | 0, _ => []
  | fuel + 1, n =>
    if n < 128 then [UInt8.ofNat n]
    else UInt8.ofNat (128 + n % 128) :: encodeVarint fuel (n / 128)

def decodeVarint : Bytes → Option (Nat × Bytes)
  | [] => none
  | b :: bs =>
    if b.toNat < 128 then some (b.toNat, bs)
    else (decodeVarint bs).map fun x => (b.toNat - 128 + 128 * x.1, x.2)

theorem decodeVarint_encodeVarint {fuel n : Nat} (h : n < fuel) (rest : Bytes) :
    decodeVarint (encodeVarint fuel n ++ rest) = some (n, rest) := by
  induction fuel generalizing n with
  | zero => omega
  | succ fuel ih =>
    rw [encodeVarint]
    split
    · next hlt =>
      have hb : (UInt8.ofNat n).toNat = n := UInt8.toNat_ofNat_of_lt (by simp [UInt8.size]; omega)
      simp [decodeVarint, hb, hlt]
    · next hge =>
      have hb : (UInt8.ofNat (128 + n % 128)).toNat = 128 + n % 128 :=
        UInt8.toNat_ofNat_of_lt (by simp [UInt8.size]; omega)
      have hrest := ih (n := n / 128) (by omega)
      rw [cons_append, decodeVarint, if_neg (by omega), hrest, map_some]
      simp only [some.injEq, Prod.mk.injEq, and_true]
      omega

def nat : Wire Nat where
  encode n := encodeVarint (n + 1) n
  decode := decodeVarint
  decode_encode n rest := decodeVarint_encodeVarint (Nat.lt_succ_self n) rest

/-! ## Structures -/

def pair (a : Wire A) (b : Wire B) : Wire (A × B) where
  encode x := a.encode x.1 ++ b.encode x.2
  decode bs := (a.decode bs).bind fun x => (b.decode x.2).map fun y => ((x.1, y.1), y.2)
  decode_encode x rest := by
    rw [append_assoc, a.decode_encode, bind_some, b.decode_encode]
    rfl

def iso (a : Wire A) (toA : B → A) (ofA : A → B) (h : ∀ b, ofA (toA b) = b) : Wire B where
  encode b := a.encode (toA b)
  decode bs := (a.decode bs).map fun x => (ofA x.1, x.2)
  decode_encode b rest := by
    rw [a.decode_encode, map_some, h]

def option (a : Wire A) : Wire (Option A) where
  encode
    | none => [0]
    | some x => 1 :: a.encode x
  decode
    | [] => none
    | tag :: bs => if tag = 0 then some (none, bs) else (a.decode bs).map fun x => (some x.1, x.2)
  decode_encode
    | none, rest => by simp
    | some x, rest => by simp [a.decode_encode]

def decodeMany (a : Wire A) : Nat → Bytes → Option (List A × Bytes)
  | 0, bs => some ([], bs)
  | n + 1, bs => (a.decode bs).bind fun x =>
    (decodeMany a n x.2).map fun y => (x.1 :: y.1, y.2)

theorem decodeMany_flatMap (a : Wire A) (l : List A) (rest : Bytes) :
    decodeMany a l.length (l.flatMap a.encode ++ rest) = some (l, rest) := by
  induction l with
  | nil => rfl
  | cons x l ih =>
    rw [flatMap_cons, append_assoc, length_cons, decodeMany, a.decode_encode,
      bind_some, ih]
    rfl

def list (a : Wire A) : Wire (List A) where
  encode l := nat.encode l.length ++ l.flatMap a.encode
  decode bs := (nat.decode bs).bind fun x => decodeMany a x.1 x.2
  decode_encode l rest := by
    rw [append_assoc, nat.decode_encode, bind_some, decodeMany_flatMap]

/-! ## Payloads behind their length -/

def blob : Wire Bytes where
  encode b := nat.encode b.length ++ b
  decode bs := (nat.decode bs).bind fun x => readExact x.1 x.2
  decode_encode b rest := by
    rw [append_assoc, nat.decode_encode, bind_some, readExact_append rfl]

def utf8 (s : String) : Bytes := s.toUTF8.data.toList

def ofUtf8 (b : Bytes) : Option String := String.fromUTF8? ⟨b.toArray⟩

theorem ofUtf8_utf8 (s : String) : ofUtf8 (utf8 s) = some s := by
  unfold ofUtf8 utf8 String.fromUTF8?
  exact dif_pos s.isValidUTF8

def text : Wire String where
  encode s := blob.encode (utf8 s)
  decode bs := (blob.decode bs).bind fun x => (ofUtf8 x.1).map fun s => (s, x.2)
  decode_encode s rest := by
    rw [blob.decode_encode, bind_some, ofUtf8_utf8, map_some]

def word : Wire (BitVec 64) where
  encode w := leBytes 8 w.toNat
  decode bs := (readExact 8 bs).map fun x => (BitVec.ofNat 64 (ofLeBytes x.1), x.2)
  decode_encode w rest := by
    have hw : w.toNat < 256 ^ 8 := w.isLt
    rw [readExact_append (length_leBytes ..), map_some, ofLeBytes_leBytes_of_lt hw,
      BitVec.ofNat_toNat, BitVec.setWidth_eq]

theorem length_word (w : BitVec 64) : (word.encode w).length = 8 := length_leBytes ..

/-- One byte, which is zero for `false`. -/
def flag : Wire Bool where
  encode b := [if b then 1 else 0]
  decode
    | [] => none
    | b :: bs => some (b != 0, bs)
  decode_encode b rest := by cases b <;> rfl

/-- `from_bytes`: the value at the front. -/
def fromBytes (a : Wire A) (bs : Bytes) : Option A := (a.decode bs).map Prod.fst

theorem fromBytes_encode (a : Wire A) (x : A) : a.fromBytes (a.encode x) = some x := by
  have h := a.decode_encode x []
  rw [append_nil] at h
  rw [fromBytes, h]
  rfl

end Wire

end Dtdb.Lib
