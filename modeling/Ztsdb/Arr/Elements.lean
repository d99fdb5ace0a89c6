import Mathlib
import Ztsdb.Arr.Machine

/-!
# Element types

The types an array holds, with the bytes they take in memory, their type number
(`TYPE_NB`) and the comparator `std::less` gives them. A double is its 64 bits:
only its order and its bits are used. A `ZString` is the text in its buffer, up to
the first zero byte or to the end of the buffer when there is none.
-/

namespace Ztsdb.Arr

open Ztsdb.Lib

theorem leNat_leBytes_of_lt {k n : Nat} (h : n < 256 ^ k) : leNat (leBytes k n) = n := by
  rw [leNat_leBytes, Nat.mod_eq_of_lt h]

/-- A comparator that compares integer keys is a strict weak order. -/
theorem isStrictWeakOrder_of_key {α : Type} (key : α → Int) :
    IsStrictWeakOrder α (fun a b => decide (key a < key b) = true) where
  irrefl a := by simp
  trans a b c hab hbc := by
    simp only [decide_eq_true_eq] at hab hbc ⊢
    omega
  incomp_trans a b c hab hbc := by
    simp only [decide_eq_true_eq] at hab hbc ⊢
    omega

/-- `idx_type`: the extents of an array. -/
abbrev idx_type := UInt64

/-- `std::less<idx_type>`. -/
def lessIdx (a b : idx_type) : Bool := decide ((a.toNat : Int) < b.toNat)

instance : IsStrictWeakOrder idx_type (fun a b => lessIdx a b = true) :=
  isStrictWeakOrder_of_key fun a : idx_type => (a.toNat : Int)

instance : Raw idx_type where
  width := 8
  toBytes t := leBytes 8 t.toNat
  ofBytes bs := UInt64.ofNat (leNat bs)
  width_pos := by decide
  length_toBytes _ := length_leBytes 8 _
  ofBytes_toBytes t := by
    rw [leNat_leBytes_of_lt (by have := t.toNat_lt; norm_num; omega), UInt64.ofNat_toNat]
  getInitValue := 0
  typenumber := 0
  typenumber_lt := by norm_num

/-- A `double`, by its bits. -/
structure Double where
  bits : UInt64
deriving DecidableEq, Repr

namespace Double

/-- The bits without the sign: larger for a larger magnitude, past the infinity for
a NaN. -/
def magnitude (x : Double) : Nat := x.bits.toNat % 2 ^ 63

def isNaN (x : Double) : Bool := decide (0x7ff0000000000000 < x.magnitude)

/-- The place of a double that is not a NaN on the number line; both zeros are at 0. -/
def place (x : Double) : Int :=
  if x.bits.toNat < 2 ^ 63 then x.magnitude else -x.magnitude

/-- `std::less<double>`. -/
def less (x y : Double) : Bool := !x.isNaN && !y.isNaN && decide (x.place < y.place)

instance : Raw Double where
  width := 8
  toBytes t := Flat.toBytes t.bits
  ofBytes bs := ⟨Flat.ofBytes bs⟩
  width_pos := by decide
  length_toBytes t := Flat.length_toBytes t.bits
  ofBytes_toBytes t := by rw [Flat.ofBytes_toBytes]
  getInitValue := ⟨0⟩
  typenumber := 0
  typenumber_lt := by norm_num

end Double

/-- `bool`: one byte, anything but zero is true. -/
instance : Raw Bool where
  width := 1
  toBytes t := [if t then 1 else 0]
  ofBytes bs := bs.headD 0 != 0
  width_pos := by decide
  length_toBytes _ := rfl
  ofBytes_toBytes t := by cases t <;> rfl
  getInitValue := false
  typenumber := 1
  typenumber_lt := by norm_num

/-- `std::less<bool>`. -/
def lessBool (a b : Bool) : Bool := !a && b

/-- `Global::dtime`: nanoseconds since the epoch, signed. -/
structure dtime where
  ns : Int64
deriving DecidableEq, Repr

/-- `std::less<dtime>`. -/
def dtime.less (a b : dtime) : Bool := decide (a.ns.toInt < b.ns.toInt)

instance : IsStrictWeakOrder dtime (fun a b => dtime.less a b = true) :=
  isStrictWeakOrder_of_key fun a : dtime => a.ns.toInt

theorem int64_ofBytes (t : Int64) :
    (⟨Flat.ofBytes (Flat.toBytes t.toUInt64)⟩ : Int64) = t := by
  rw [Flat.ofBytes_toBytes]

instance : Raw dtime where
  width := 8
  toBytes t := Flat.toBytes t.ns.toUInt64
  ofBytes bs := ⟨⟨Flat.ofBytes bs⟩⟩
  width_pos := by decide
  length_toBytes t := Flat.length_toBytes t.ns.toUInt64
  ofBytes_toBytes t := by rw [int64_ofBytes]
  getInitValue := ⟨0⟩
  typenumber := 2
  typenumber_lt := by norm_num

/-- `Global::duration`: signed nanoseconds. -/
structure duration where
  ns : Int64
deriving DecidableEq, Repr

/-- `std::less<duration>`. -/
def duration.less (a b : duration) : Bool := decide (a.ns.toInt < b.ns.toInt)

instance : Raw duration where
  width := 8
  toBytes t := Flat.toBytes t.ns.toUInt64
  ofBytes bs := ⟨⟨Flat.ofBytes bs⟩⟩
  width_pos := by decide
  length_toBytes t := Flat.length_toBytes t.ns.toUInt64
  ofBytes_toBytes t := by rw [int64_ofBytes]
  getInitValue := ⟨0⟩
  typenumber := 4
  typenumber_lt := by norm_num

/-- `DEFAULT_STRING_SIZE`. -/
def STRING_SIZE : Nat := 128

/-- `zstring`: the text in a buffer of `STRING_SIZE` bytes. At full length the
buffer has no terminator. -/
structure ZString where
  chars : List UInt8
  short : chars.length ≤ STRING_SIZE
  nonzero : (0 : UInt8) ∉ chars
deriving DecidableEq

namespace ZString

/-- The text of a buffer: up to the first zero byte. -/
def ofBuffer (bs : List UInt8) : ZString where
  chars := (bs.take STRING_SIZE).takeWhile (· != 0)
  short := by
    have h := List.Sublist.length_le (List.takeWhile_sublist (· != 0) (l := bs.take STRING_SIZE))
    rw [List.length_take] at h
    omega
  nonzero := by
    intro h
    have := List.mem_takeWhile_imp h
    simp at this

/-- From a string: what `strncpy` takes of it. -/
def ofString (bs : List UInt8) : ZString := ofBuffer (bs.take (STRING_SIZE - 1))

/-- The empty string. -/
def empty : ZString := ⟨[], by simp [STRING_SIZE], by simp⟩

/-- `operator<`, byte by byte. -/
def less (a b : ZString) : Bool := decide (a.chars.map UInt8.toNat < b.chars.map UInt8.toNat)

theorem ofBuffer_padded (s : ZString) :
    ofBuffer (s.chars ++ List.replicate (STRING_SIZE - s.chars.length) 0) = s := by
  have hlen : (s.chars ++ List.replicate (STRING_SIZE - s.chars.length) (0 : UInt8)).length
      = STRING_SIZE := by
    rw [List.length_append, List.length_replicate]
    have := s.short
    omega
  have hall : ∀ c ∈ s.chars, (c != 0) = true := by
    intro c hc
    rw [bne_iff_ne]
    intro h0
    exact s.nonzero (h0 ▸ hc)
  have hchars : (ofBuffer (s.chars ++
      List.replicate (STRING_SIZE - s.chars.length) 0)).chars = s.chars := by
    change (List.take STRING_SIZE (s.chars ++ _)).takeWhile (· != 0) = s.chars
    rw [List.take_of_length_le (by omega), List.takeWhile_append_of_pos hall]
    rcases STRING_SIZE - s.chars.length with _ | k
    · simp
    · simp [List.replicate_succ]
  cases s with
  | mk chars short nonzero =>
      simp only [ofBuffer, mk.injEq] at hchars ⊢
      exact hchars

instance : Raw ZString where
  width := STRING_SIZE
  toBytes s := s.chars ++ List.replicate (STRING_SIZE - s.chars.length) 0
  ofBytes := ofBuffer
  width_pos := by decide
  length_toBytes s := by
    rw [List.length_append, List.length_replicate]
    have := s.short
    omega
  ofBytes_toBytes := ofBuffer_padded
  getInitValue := empty
  typenumber := 3
  typenumber_lt := by norm_num

end ZString

end Ztsdb.Arr
