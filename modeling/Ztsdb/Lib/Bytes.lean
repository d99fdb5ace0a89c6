import Mathlib

/-!
# Little-endian words and flat codecs

Bytes are a list; a word of `k` bytes is written least significant byte first.
A `Flat` type is one whose values are copied byte by byte in and out of memory:
every value takes `width` bytes, and any `width` bytes read back as a value.
Runs of such values are written one after the other with nothing between them,
which is what `encode` and `decode` do.
-/

namespace Ztsdb.Lib

/-- `k` bytes of `n`, least significant first. -/
def leBytes : Nat → Nat → List UInt8
  | 0, _ => []
  | k + 1, n => UInt8.ofNat (n % 256) :: leBytes k (n / 256)

/-- The number a little-endian byte string stands for. -/
def leNat : List UInt8 → Nat
  | [] => 0
  | b :: bs => b.toNat + 256 * leNat bs

@[simp] theorem length_leBytes (k n : Nat) : (leBytes k n).length = k := by
  induction k generalizing n with
  | zero => rfl
  | succ k ih => rw [leBytes, List.length_cons, ih]

theorem leNat_leBytes (k n : Nat) : leNat (leBytes k n) = n % 256 ^ k := by
  induction k generalizing n with
  | zero => rw [leBytes, leNat, pow_zero, Nat.mod_one]
  | succ k ih =>
      have hb : (UInt8.ofNat (n % 256)).toNat = n % 256 := by
        rw [UInt8.toNat_ofNat']
        omega
      rw [leBytes, leNat, ih, hb, Nat.pow_succ', Nat.mod_mul]

theorem leNat_lt (bs : List UInt8) : leNat bs < 256 ^ bs.length := by
  induction bs with
  | nil => simp [leNat]
  | cons b bs ih =>
      have hb := b.toNat_lt
      rw [leNat, List.length_cons, Nat.pow_succ']
      omega

/-- The bytes of `mem` from `off` on, `len` of them at most. -/
def slice (off len : Nat) (mem : List UInt8) : List UInt8 := (mem.drop off).take len

theorem length_slice {off len : Nat} {mem : List UInt8} (h : off + len ≤ mem.length) :
    (slice off len mem).length = len := by
  rw [slice, List.length_take, List.length_drop]
  omega

/-- A read at the boundary of two blocks sees the second one. -/
theorem slice_append_left (bs rest : List UInt8) :
    slice 0 bs.length (bs ++ rest) = bs := by
  rw [slice, List.drop_zero, List.take_left]

theorem slice_append_right (front bs rest : List UInt8) {len : Nat}
    (h : len = bs.length) : slice front.length len (front ++ (bs ++ rest)) = bs := by
  rw [slice, List.drop_left, h, List.take_left]

/-- A read that stays inside the first block does not see what follows it. -/
theorem slice_append {off len : Nat} {bs : List UInt8} (rest : List UInt8)
    (h : off + len ≤ bs.length) : slice off len (bs ++ rest) = slice off len bs := by
  rw [slice, slice, List.drop_append_of_le_length (by omega),
    List.take_append_of_le_length (by rw [List.length_drop]; omega)]

/-- A type whose values are copied byte by byte: `width` bytes each, no padding
between them. -/
class Flat (T : Type) where
  width : Nat
  toBytes : T → List UInt8
  ofBytes : List UInt8 → T
  width_pos : 0 < width
  length_toBytes : ∀ t, (toBytes t).length = width
  ofBytes_toBytes : ∀ t, ofBytes (toBytes t) = t

namespace Flat

variable {T : Type} [Flat T]

attribute [simp] length_toBytes ofBytes_toBytes

/-- The memory image of a run of values. -/
def encode (ts : List T) : List UInt8 := ts.flatMap toBytes

/-- `n` values read one after the other. -/
def decode : Nat → List UInt8 → List T
  | 0, _ => []
  | n + 1, bs => ofBytes (bs.take (width T)) :: decode n (bs.drop (width T))

@[simp] theorem encode_nil : encode ([] : List T) = [] := rfl

@[simp] theorem encode_cons (t : T) (ts : List T) :
    encode (t :: ts) = toBytes t ++ encode ts := rfl

theorem encode_append (ts us : List T) : encode (ts ++ us) = encode ts ++ encode us :=
  List.flatMap_append

@[simp] theorem length_encode (ts : List T) :
    (encode ts).length = ts.length * width T := by
  induction ts with
  | nil => rw [encode_nil, List.length_nil, List.length_nil, Nat.zero_mul]
  | cons t ts ih =>
      rw [encode_cons, List.length_append, ih, length_toBytes, List.length_cons]
      ring

@[simp] theorem length_decode (n : Nat) (bs : List UInt8) :
    (decode n bs : List T).length = n := by
  induction n generalizing bs with
  | zero => rfl
  | succ n ih => rw [decode, List.length_cons, ih]

/-- Reading back what was written, whatever follows it. -/
theorem decode_encode (ts : List T) (rest : List UInt8) :
    decode ts.length (encode ts ++ rest) = ts := by
  induction ts with
  | nil => rfl
  | cons t ts ih =>
      have hw : width T = (toBytes t).length := (length_toBytes t).symm
      rw [List.length_cons, decode, encode_cons, List.append_assoc, hw, List.take_left,
        List.drop_left, ofBytes_toBytes, ih]

end Flat

end Ztsdb.Lib
