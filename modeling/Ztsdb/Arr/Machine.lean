import Mathlib
import Ztsdb.Lib.Outcome
import Ztsdb.Lib.Bytes
import Ztsdb.Lib.Adjacent

/-!
# The machine under the arrays

`size_t` is a `Nat` kept below `2 ^ 64` by an explicit `wrap` wherever the
source computes with it. An allocator answers a request for so many bytes at
some offset of the block it holds; it may refuse, and what it grants is filled
with whatever the storage held. The element types of the arrays are the flat
ones of the source: `width` is `sizeof(T)`, and each has a type number.
-/

namespace Ztsdb.Arr

open Ztsdb.Lib

/-- Arithmetic of `size_t`. -/
def wrap (n : Nat) : Nat := n % 2 ^ 64

/-- Subtraction of `size_t`. -/
def wsub (m n : Nat) : Nat := wrap (m + (2 ^ 64 - n))

/-- `std::numeric_limits<size_t>::max()`. -/
def sizeMax : Nat := 2 ^ 64 - 1

theorem wrap_of_lt {n : Nat} (h : n < 2 ^ 64) : wrap n = n := Nat.mod_eq_of_lt h

theorem wsub_of_le {m n : Nat} (hm : m < 2 ^ 64) (h : n ≤ m) : wsub m n = m - n := by
  rw [wsub, wrap]
  omega

theorem wrap_lt (n : Nat) : wrap n < 2 ^ 64 := Nat.mod_lt _ (by norm_num)

/-- The exceptions the arrays throw, with their texts. -/
inductive Exn where
  | invalidArgument (what : String)
  | outOfRange (what : String)
  | rangeError (what : String)
  | logicError (what : String)
  | systemError (what : String)
  | lengthError (what : String)
  | badAlloc
deriving DecidableEq, Repr

/-- An allocator, as the vector that owns it sees it: whether it grants `n` bytes
counted from byte `off` of the block it holds, and what the bytes of fresh storage
happen to be. -/
structure Allocator where
  grant : Nat → Nat → Bool
  junk : Nat → UInt8

/-- `malloc` and `realloc` with `limit` bytes to give: `memallocator`, which cannot
reallocate at an offset. -/
def memallocator (limit : Nat) : Allocator where
  grant off n := decide (off = 0 ∧ n ≤ limit)
  junk _ := 0

/-- The element types: flat values with the type number of `TypeNumber<T>` and the
value of `getInitValue<T>()`. -/
class Raw (T : Type) extends Flat T where
  getInitValue : T
  typenumber : Nat
  typenumber_lt : typenumber < 2 ^ 64

/-- `sizeof(RawVector<T>)`: the three words `typenumber`, `n` and `ordered`. -/
def sizeofRawVector : Nat := 24

/-- A word of memory, `none` outside it. -/
def readWord (mem : List UInt8) (off : Nat) : Option Nat :=
  if off + 8 ≤ mem.length then some (leNat (slice off 8 mem)) else none

theorem readWord_lt {mem : List UInt8} {off w : Nat} (h : readWord mem off = some w) :
    w < 2 ^ 64 := by
  unfold readWord at h
  split at h
  · next hin =>
      cases h
      have hlt := leNat_lt (slice off 8 mem)
      rw [length_slice hin] at hlt
      exact hlt
  · cases h

theorem readWord_append {mem : List UInt8} {off : Nat} (rest : List UInt8)
    (h : off + 8 ≤ mem.length) : readWord (mem ++ rest) off = readWord mem off := by
  rw [readWord, readWord, if_pos h, if_pos (by rw [List.length_append]; omega),
    slice_append rest h]

theorem readWord_of_le (mem : List UInt8) (off : Nat) (h : off + 8 ≤ mem.length) :
    ∃ w, readWord mem off = some w := by
  rw [readWord, if_pos h]
  exact ⟨_, rfl⟩

theorem readWord_leBytes {front rest : List UInt8} {n off : Nat} (hoff : off = front.length)
    (hn : n < 2 ^ 64) : readWord (front ++ (leBytes 8 n ++ rest)) off = some n := by
  have hlen : off + 8 ≤ (front ++ (leBytes 8 n ++ rest)).length := by
    simp only [List.length_append, length_leBytes]
    omega
  rw [readWord, if_pos hlen, hoff, slice_append_right _ _ _ (length_leBytes 8 n).symm,
    leNat_leBytes, Nat.mod_eq_of_lt (by norm_num; exact hn)]

/-! ## Growth

`growCapacity` and `getTotalSize` guard against overflow; `memsize`, which
`resize` uses, does not. -/

/-- The capacity to reserve for `n` elements: `VECTOR_INITIAL_ALLOC` for a short
vector, else four thirds of `n`, capped at the largest `size_t`. -/
def growCapacity (n : Nat) : Nat :=
  if 0 < n ∧ n > sizeMax / 4 then sizeMax
  else if n < 1024 / 2 then 1024
  else wrap (n * 4) / 3

/-- Bytes of a block for `n` elements, the largest `size_t` when they do not fit. -/
def getTotalSize (sz n : Nat) : Nat :=
  if 0 < n ∧ n > sizeMax / sz - sizeofRawVector then sizeMax
  else wrap (n * sz + sizeofRawVector)

/-- Bytes of a block for `n` elements, modulo the size of `size_t`. -/
def memsize (sz n : Nat) : Nat := wrap (wrap (n * sz) + sizeofRawVector)

theorem growCapacity_of_le {n : Nat} (h : n ≤ sizeMax / 4) :
    growCapacity n = if n < 512 then 1024 else n * 4 / 3 := by
  have h4 : n * 4 < 2 ^ 64 := by
    simp only [sizeMax] at h
    omega
  rw [growCapacity, if_neg (by omega), wrap_of_lt h4]

theorem growCapacity_of_gt {n : Nat} (h : sizeMax / 4 < n) : growCapacity n = sizeMax := by
  rw [growCapacity, if_pos ⟨by omega, h⟩]

/-- A reservation never falls short, except at the cap. -/
theorem lt_growCapacity {n : Nat} (h : growCapacity n < sizeMax) : n < growCapacity n := by
  rcases Nat.lt_or_ge (sizeMax / 4) n with hn | hn
  · rw [growCapacity_of_gt hn] at h
    omega
  · rw [growCapacity_of_le hn]
    split
    · omega
    · omega

theorem memsize_eq (sz n : Nat) : memsize sz n = wrap (n * sz + sizeofRawVector) := by
  rw [memsize, wrap, wrap, wrap, Nat.mod_add_mod]

theorem memsize_of_lt {sz n : Nat} (h : sizeofRawVector + n * sz < 2 ^ 64) :
    memsize sz n = sizeofRawVector + n * sz := by
  rw [memsize_eq, wrap_of_lt (by omega), Nat.add_comm]

/-- The block of a reservation holds it exactly when the size did not wrap. -/
theorem le_memsize_iff (sz n : Nat) :
    sizeofRawVector + n * sz ≤ memsize sz n ↔ sizeofRawVector + n * sz < 2 ^ 64 := by
  constructor
  · intro h
    have := wrap_lt (n * sz + sizeofRawVector)
    rw [memsize_eq] at h
    omega
  · intro h
    rw [memsize_of_lt h]

theorem getTotalSize_of_lt {sz n : Nat} (h : sizeofRawVector + n * sz < 2 ^ 64) :
    sizeofRawVector + n * sz ≤ getTotalSize sz n := by
  rw [getTotalSize]
  split
  · simp only [sizeMax]
    omega
  · rw [wrap_of_lt (by omega)]
    omega

theorem le_getTotalSize_iff (sz n : Nat) :
    sizeofRawVector + n * sz ≤ getTotalSize sz n ↔ sizeofRawVector + n * sz < 2 ^ 64 := by
  constructor
  · intro h
    have hlt : getTotalSize sz n < 2 ^ 64 := by
      rw [getTotalSize]
      split
      · simp [sizeMax]
      · exact wrap_lt _
    omega
  · exact getTotalSize_of_lt

end Ztsdb.Arr
