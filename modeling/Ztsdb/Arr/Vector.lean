import Mathlib
import Ztsdb.Arr.Machine

/-!
# `Vector`

A vector owns one block: a header of three words (`typenumber`, `n`, `ordered`)
and room for `capacity` elements. The model keeps the elements as a list and,
beside the fields of the source, the number of bytes of the block it was last
granted, since whether a write stays inside its block depends on it. The type
number is the one of the element type in every vector the constructors build,
so it is not stored.

The comparator `O` is an argument of the functions that use it. Storage that
the source leaves uninitialised holds what the allocator says was there.
-/

namespace Ztsdb.Arr

open Ztsdb.Lib

/-- A vector of elements `v` with its `ordered` flag, reserved `capacity`, the
bytes of its block and its allocator (none for a null pointer). -/
structure Vector (T : Type) where
  v : List T
  ordered : Bool
  capacity : Nat
  block : Nat
  alloc : Option Allocator

/-- The value in place `i` of storage nobody wrote. -/
def Allocator.uninit (a : Allocator) (T : Type) [Raw T] (i : Nat) : T :=
  Flat.ofBytes ((List.range (Flat.width T)).map fun k =>
    a.junk (sizeofRawVector + i * Flat.width T + k))

/-- What `std::sort` promises for a comparator: some permutation of the elements
in which none is smaller than an earlier one. -/
structure StdSort {T : Type} (O : T → T → Bool) where
  run : List T → List T
  perm : ∀ l, (run l).Perm l
  sorted : ∀ l, (run l).Pairwise (fun a b => O b a = false)

/-- `size()`. -/
def Vector.size {T : Type} (s : Vector T) : Nat := s.v.length

namespace Vector

variable {T : Type} [Raw T] (O : T → T → Bool)

/-- The block has room for the header and `k` elements. -/
def Fits (s : Vector T) (k : Nat) : Prop := sizeofRawVector + k * Flat.width T ≤ s.block

instance (s : Vector T) (k : Nat) : Decidable (s.Fits k) := by
  unfold Fits
  infer_instance

/-! ## Constructors -/

/-- What the constructors share: a block for `capacity` elements, then the header
and the elements written into it. -/
def construct (what : String) (alloc : Option Allocator) (capacity : Nat)
    (elts : Allocator → List T) (ordered : Bool) : Outcome Exn Unit (Vector T) :=
  match alloc with
  | none => .throw (.invalidArgument what) ()
  | some a =>
    let sz := getTotalSize (Flat.width T) capacity
    if a.grant 0 sz then
      if sizeofRawVector + (elts a).length * Flat.width T ≤ sz then
        .ok { v := elts a, ordered, capacity, block := sz, alloc } ()
      else .fault
    else .throw (.systemError "malloc") ()

/-- A vector that was constructed: its fields, and its elements inside its block. -/
theorem construct_eq_ok {what : String} {alloc : Option Allocator} {capacity : Nat}
    {elts : Allocator → List T} {ordered : Bool} {s : Vector T} {u : Unit}
    (h : construct what alloc capacity elts ordered = .ok s u) :
    ∃ a, alloc = some a ∧ s.Fits s.size ∧
      s = ⟨elts a, ordered, capacity, getTotalSize (Flat.width T) capacity, alloc⟩ := by
  unfold construct at h
  cases ha : alloc with
  | none =>
      rw [ha] at h
      cases h
  | some a =>
      rw [ha] at h
      simp only at h
      split at h
      · split at h
        · next hfit =>
            cases h
            exact ⟨a, rfl, hfit, rfl⟩
        · cases h
      · cases h

/-- Basic constructor with initial value. -/
def ofFill (n : Nat) (value : T) (alloc : Option Allocator) : Outcome Exn Unit (Vector T) :=
  construct "Vector<T>: null allocator" alloc (growCapacity n)
    (fun _ => List.replicate n value) (if n > 1 then O value value else true)

/-- Allocated but empty. -/
def ofRsv (n : Nat) (alloc : Option Allocator) : Outcome Exn Unit (Vector T) :=
  construct "Vector<T,O>: null allocator" alloc (growCapacity n) (fun _ => []) true

/-- Defined length, elements uninitialized. -/
def ofNoinit (n : Nat) (alloc : Option Allocator) : Outcome Exn Unit (Vector T) :=
  construct "Vector<T,O>: null allocator" alloc (growCapacity n)
    (fun a => (List.range n).map (a.uninit T)) true

/-- From a pair of iterators over `l`. -/
def ofRange (l : List T) (alloc : Option Allocator) : Outcome Exn Unit (Vector T) :=
  construct "Vector<T,O>: null allocator" alloc (growCapacity l.length)
    (fun _ => l) (adjacent O l)

/-- From an initializer list. -/
def ofList (l : List T) (alloc : Option Allocator) : Outcome Exn Unit (Vector T) :=
  construct "Vector<T,O>: null allocator" alloc (growCapacity l.length)
    (fun _ => l) (adjacent O l)

/-- Copy constructor: the capacity of the original, its header and its elements. -/
def copy (s : Vector T) (alloc : Option Allocator) : Outcome Exn Unit (Vector T) :=
  construct "Vector<T>: null allocator" alloc s.capacity (fun _ => s.v) s.ordered

/-! ## Buffers -/

def getBufferSize (s : Vector T) : Nat := sizeofRawVector + s.size * Flat.width T

/-- The header, then the elements. -/
def toBuffer (s : Vector T) : List UInt8 :=
  leBytes 8 (Raw.typenumber T) ++ (leBytes 8 s.size ++
    (leBytes 8 (if s.ordered then 1 else 0) ++ Flat.encode s.v))

/-! ## Element writes -/

/-- Writing past the last element: the new element and the flag. -/
def place (x : T) (s : Vector T) : Outcome Exn (Vector T) Unit :=
  if s.Fits (s.size + 1) then
    .ok () { s with
      v := s.v ++ [x]
      ordered := if 0 < s.size then s.ordered && before O s.v s.size x else true }
  else .fault

def push_back (x : T) (s : Vector T) : Outcome Exn (Vector T) Unit :=
  if wrap (s.size + 1) > s.capacity then
    match s.alloc with
    | none =>
      .throw (.rangeError "vector::push_back: cannot reallocate with null allocator") s
    | some a =>
      -- the capacity is set before the request that may be refused
      let s := { s with capacity := growCapacity s.size }
      let sz := getTotalSize (Flat.width T) s.capacity
      if a.grant 0 sz then place O x { s with block := sz }
      else .throw (.systemError "realloc") s
  else place O x s

/-- `setv`: the flag is checked against both neighbours. -/
def setv (i : Nat) (t : T) (s : Vector T) : Outcome Exn (Vector T) Unit :=
  if s.size ≤ i then .throw (.rangeError "subscript out of bounds") s
  else .ok () { s with
    v := s.v.set i t
    ordered := s.ordered && (before O s.v i t && after O s.v i t) }

/-- `setv_checkbefore`: the flag is checked against the element before. -/
def setv_checkbefore (i : Nat) (t : T) (s : Vector T) : Outcome Exn (Vector T) Unit :=
  if s.size ≤ i then .throw (.rangeError "subscript out of bounds") s
  else .ok () { s with v := s.v.set i t, ordered := s.ordered && before O s.v i t }

/-- `*iter = x` at place `i`: dereferencing clears the flag first. -/
def writeIter (i : Nat) (x : T) (s : Vector T) : Outcome Exn (Vector T) Unit :=
  if i < s.size then .ok () { s with v := s.v.set i x, ordered := false } else .fault

/-! ## Resizing -/

/-- The elements `l`, cut or continued by uninitialised ones to `n` of them. -/
def redim (a : Allocator) (n : Nat) (l : List T) : List T :=
  l.take n ++ (List.range' l.length (n - l.length)).map (a.uninit T)

/-- `resize(n, from)`: drop the first `frm` elements and make the rest `n` long. -/
def resize (n frm : Nat) (s : Vector T) : Outcome Exn (Vector T) Unit :=
  if s.size < frm then .throw (.outOfRange "resize from out of bounds") s
  else if frm ≠ 0 ∨ n ≠ s.size then
    match s.alloc with
    | none =>
      .throw (.rangeError "vector::resize: cannot reallocate with null allocator") s
    | some a =>
      let s := { s with capacity := growCapacity n }
      let sz := memsize (Flat.width T) s.capacity
      if a.grant (frm * Flat.width T) sz then
        -- the header is written back into the new block
        if sizeofRawVector ≤ sz then
          .ok () { s with v := redim a n (s.v.drop frm), block := sz }
        else .fault
      else .throw (.systemError "realloc") s
  else .ok () s

/-! The four ends of `resize`. -/

theorem resize_beyond {n frm : Nat} {s : Vector T} (h : s.size < frm) :
    s.resize n frm = .throw (.outOfRange "resize from out of bounds") s := by
  rw [resize, if_pos h]

theorem resize_same (s : Vector T) : s.resize s.size 0 = .ok () s := by
  rw [resize, if_neg (Nat.not_lt_zero _), if_neg (by omega)]

theorem resize_null {n frm : Nat} {s : Vector T} (hfrm : frm ≤ s.size)
    (hne : frm ≠ 0 ∨ n ≠ s.size) (ha : s.alloc = none) :
    s.resize n frm =
      .throw (.rangeError "vector::resize: cannot reallocate with null allocator") s := by
  rw [resize, if_neg (Nat.not_lt.mpr hfrm), if_pos hne, ha]

theorem resize_refused {n frm : Nat} {s : Vector T} {a : Allocator} (hfrm : frm ≤ s.size)
    (hne : frm ≠ 0 ∨ n ≠ s.size) (ha : s.alloc = some a)
    (hg : a.grant (frm * Flat.width T) (memsize (Flat.width T) (growCapacity n)) = false) :
    s.resize n frm = .throw (.systemError "realloc") { s with capacity := growCapacity n } := by
  simp only [resize, if_neg (Nat.not_lt.mpr hfrm), if_pos hne, ha, hg, Bool.false_eq_true,
    if_false]

theorem resize_granted {n frm : Nat} {s : Vector T} {a : Allocator} (hfrm : frm ≤ s.size)
    (hne : frm ≠ 0 ∨ n ≠ s.size) (ha : s.alloc = some a)
    (hg : a.grant (frm * Flat.width T) (memsize (Flat.width T) (growCapacity n)) = true) :
    s.resize n frm =
      if sizeofRawVector ≤ memsize (Flat.width T) (growCapacity n) then
        .ok () { s with
          v := redim a n (s.v.drop frm)
          capacity := growCapacity n
          block := memsize (Flat.width T) (growCapacity n) }
      else .fault := by
  simp only [resize, if_neg (Nat.not_lt.mpr hfrm), if_pos hne, ha, hg, if_true]

/-- What a resize that returned did: nothing, or the elements it kept in a new block. -/
theorem resize_eq_ok {n frm : Nat} {s s' : Vector T} {u : Unit}
    (h : s.resize n frm = .ok u s') :
    (frm = 0 ∧ n = s.size ∧ s' = s) ∨
      ∃ a, s.alloc = some a ∧ frm ≤ s.size ∧ s' = { s with
        v := redim a n (s.v.drop frm)
        capacity := growCapacity n
        block := memsize (Flat.width T) (growCapacity n) } := by
  rcases Nat.lt_or_ge s.size frm with hlt | hfrm
  · rw [resize_beyond hlt] at h
    cases h
  by_cases hne : frm ≠ 0 ∨ n ≠ s.size
  · cases ha : s.alloc with
    | none =>
        rw [resize_null hfrm hne ha] at h
        cases h
    | some a =>
        by_cases hg : a.grant (frm * Flat.width T) (memsize (Flat.width T) (growCapacity n)) = true
        · rw [resize_granted hfrm hne ha hg] at h
          split at h
          · cases h
            exact .inr ⟨a, rfl, hfrm, by rw [ha]⟩
          · cases h
        · rw [resize_refused hfrm hne ha (Bool.not_eq_true _ ▸ hg)] at h
          cases h
  · obtain ⟨rfl, rfl⟩ : frm = 0 ∧ n = s.size := by omega
    rw [resize_same] at h
    cases h
    exact .inl ⟨rfl, rfl, rfl⟩

/-- A vector resized by a granted request, nothing dropped. -/
def grown (a : Allocator) (n : Nat) (s : Vector T) : Vector T :=
  { s with
    v := redim a n s.v
    capacity := growCapacity n
    block := memsize (Flat.width T) (growCapacity n) }

theorem resize_zero_granted {n : Nat} {s : Vector T} {a : Allocator} (hne : n ≠ s.size)
    (ha : s.alloc = some a)
    (hg : a.grant 0 (memsize (Flat.width T) (growCapacity n)) = true) :
    s.resize n 0 =
      if sizeofRawVector ≤ memsize (Flat.width T) (growCapacity n) then .ok () (s.grown a n)
      else .fault := by
  rw [resize_granted (Nat.zero_le _) (.inr hne) ha (by rw [Nat.zero_mul]; exact hg)]
  rfl

/-- `resize(n, from, v)`: the places after the kept elements get `value`. -/
def resizeFill (n frm : Nat) (value : T) (s : Vector T) : Outcome Exn (Vector T) Unit :=
  if s.size ≤ frm then .throw (.outOfRange "resize from out of bounds") s
  else
    let start_fill := s.size - frm
    (s.resize n frm).bind fun _ s =>
      if n ≤ start_fill then .ok () s
      else if s.Fits n then
        .ok () { s with v := s.v.take start_fill ++ List.replicate (n - start_fill) value }
      else .fault

/-- The loop of `erase`: `k` elements from place `i` on take the value `diff`
places further, each through an iterator. -/
def moveDown (diff : Nat) : Nat → Nat → Vector T → Outcome Exn (Vector T) Unit
  | _, 0, s => .ok () s
  | i, k + 1, s =>
    match s.v[i + diff]? with
    | some x => (writeIter i x s).bind fun _ s => moveDown diff (i + 1) k s
    | none => .fault

/-- `erase(position)`. -/
def erase (position : Nat) (s : Vector T) : Outcome Exn (Vector T) Unit :=
  if position < s.size then
    (moveDown 1 position (s.size - 1 - position) s).bind fun _ s => s.resize (s.size - 1) 0
  else .fault

/-- `erase(first, last)`. -/
def eraseRange (first last : Nat) (s : Vector T) : Outcome Exn (Vector T) Unit :=
  if first ≤ last ∧ last ≤ s.size then
    let diff := last - first
    (moveDown diff first (s.size - last) s).bind fun _ s => s.resize (s.size - diff) 0
  else .fault

/-- `init(count, value)`. -/
def init (count : Nat) (value : T) (s : Vector T) : Outcome Exn (Vector T) Unit :=
  (s.resize count 0).bind fun _ s =>
    if s.Fits count then
      .ok () { s with
        v := List.replicate count value
        ordered := if count > 1 then O value value else true }
    else .fault

/-- `insert` at the end. The order inside `xs` is not looked at: the writes through the
iterator have cleared the flag by then. -/
def insertEnd (xs : List T) (s : Vector T) : Outcome Exn (Vector T) Unit :=
  if xs = [] then .ok () s
  else (s.resize (wrap (s.size + xs.length)) 0).bind fun _ s' =>
    if s'.Fits (s.size + xs.length) then
      .ok () { s' with v := s.v ++ xs, ordered := s.ordered && seam O s.v xs }
    else .fault

/-! ## Appending a buffer -/

/-- The memory image of the elements from place `i` on, its first bytes overwritten
by `bytes`, read back as elements. -/
def overwrite (i : Nat) (bytes : List UInt8) (l : List T) : List T :=
  l.take i ++ Flat.decode (l.length - i) (bytes ++ (Flat.encode (l.drop i)).drop bytes.length)

/-- `append` once the vector is resized: the copy into the places from `old_n` on,
then the flag, which looks at the seam. -/
def copyElts (mem : List UInt8) (n : Nat) (ordered : Bool) (old_n : Nat) (s : Vector T) :
    Outcome Exn (Vector T) Unit :=
  let sz := wrap (n * Flat.width T)
  if sizeofRawVector + old_n * Flat.width T + sz ≤ s.block ∧
      sizeofRawVector + sz ≤ mem.length then
    let s := { s with v := overwrite old_n (slice sizeofRawVector sz mem) s.v }
    if n = 0 then .ok () s
    else if old_n = 0 then .ok () { s with ordered := s.ordered && ordered }
    else if s.Fits (old_n + 1) then
      match s.v[old_n]? with
      | some x => .ok () { s with ordered := s.ordered && ordered && before O s.v old_n x }
      | none => .fault
    else .fault
  else .fault

/-- `append` after its checks. -/
def appendElts (mem : List UInt8) (n : Nat) (ordered : Bool) (s : Vector T) :
    Outcome Exn (Vector T) Unit :=
  (s.resize (wrap (s.size + n)) 0).bind fun _ s' => copyElts O mem n ordered s.size s'

/-- `append(buf, len)`; `mem` is the memory from `buf` on. The result is the number
of bytes the vector in the buffer takes. -/
def append (mem : List UInt8) (len : Nat) (s : Vector T) : Outcome Exn (Vector T) Nat :=
  if len < sizeofRawVector then
    .throw (.outOfRange "invalid append buffer: too short") s
  else
    match readWord mem 0, readWord mem 8, readWord mem 16 with
    | some typenumber, some n, some ordered =>
      let totalsz := wrap (sizeofRawVector + wrap (n * Flat.width T))
      if len < totalsz then .throw (.outOfRange "missing data") s
      else if Raw.typenumber T ≠ typenumber then .throw (.outOfRange "incorrect type") s
      else (s.appendElts O mem n (decide (ordered % 2 = 1))).bind fun _ s => .ok totalsz s
    | _, _, _ => .fault

/-! What is read back of a buffer that a vector wrote. -/

section ToBuffer

variable (y : Vector T) (rest : List UInt8)

theorem toBuffer_append : y.toBuffer ++ rest =
    leBytes 8 (Raw.typenumber T) ++ (leBytes 8 y.size ++
      (leBytes 8 (if y.ordered then 1 else 0) ++ (Flat.encode y.v ++ rest))) := by
  simp only [toBuffer, List.append_assoc]

@[simp] theorem length_toBuffer : y.toBuffer.length = y.getBufferSize := by
  simp only [toBuffer, getBufferSize, List.length_append, length_leBytes, Flat.length_encode,
    sizeofRawVector, size]
  omega

theorem readWord_toBuffer_typenumber :
    readWord (y.toBuffer ++ rest) 0 = some (Raw.typenumber T) := by
  rw [toBuffer_append]
  exact readWord_leBytes List.length_nil.symm Raw.typenumber_lt

theorem readWord_toBuffer_size (h : y.size < 2 ^ 64) :
    readWord (y.toBuffer ++ rest) 8 = some y.size := by
  rw [toBuffer_append]
  exact readWord_leBytes (length_leBytes 8 _).symm h

theorem readWord_toBuffer_ordered :
    readWord (y.toBuffer ++ rest) 16 = some (if y.ordered then 1 else 0) := by
  rw [toBuffer_append, ← List.append_assoc]
  refine readWord_leBytes ?_ ?_
  · rw [List.length_append, length_leBytes, length_leBytes]
  · split
    · norm_num
    · norm_num

theorem slice_toBuffer :
    slice sizeofRawVector (y.size * Flat.width T) (y.toBuffer ++ rest) = Flat.encode y.v := by
  have hfront : sizeofRawVector = (leBytes 8 (Raw.typenumber T) ++ (leBytes 8 y.size ++
      leBytes 8 (if y.ordered then 1 else 0))).length := by
    simp only [List.length_append, length_leBytes, sizeofRawVector]
  have happ : y.toBuffer ++ rest = (leBytes 8 (Raw.typenumber T) ++ (leBytes 8 y.size ++
      leBytes 8 (if y.ordered then 1 else 0))) ++ (Flat.encode y.v ++ rest) := by
    simp only [toBuffer, List.append_assoc]
  rw [happ, hfront, size, slice_append_right _ _ _ (Flat.length_encode y.v).symm]

/-- `append` of a written buffer, wherever it ends in memory. -/
theorem append_toBuffer (len : Nat) (s : Vector T) (hy : y.getBufferSize < 2 ^ 64) :
    s.append O (y.toBuffer ++ rest) len =
      if len < sizeofRawVector then
        .throw (.outOfRange "invalid append buffer: too short") s
      else if len < y.getBufferSize then .throw (.outOfRange "missing data") s
      else (s.appendElts O (y.toBuffer ++ rest) y.size y.ordered).bind
        fun _ s => .ok y.getBufferSize s := by
  have hle := Nat.le_mul_of_pos_right y.size (Flat.width_pos (T := T))
  have hsum : sizeofRawVector + y.size * Flat.width T = y.getBufferSize := rfl
  have hn : y.size < 2 ^ 64 := by omega
  have hsz : wrap (y.size * Flat.width T) = y.size * Flat.width T := wrap_of_lt (by omega)
  have hflag : decide ((if y.ordered then 1 else 0) % 2 = 1) = y.ordered := by
    cases y.ordered <;> rfl
  rw [append, readWord_toBuffer_typenumber, readWord_toBuffer_ordered,
    readWord_toBuffer_size _ _ hn]
  simp only [hsz, hsum, wrap_of_lt hy, hflag, ne_eq, not_true_eq_false, if_false]

end ToBuffer

/-! ## Whole-vector operations -/

/-- `sort()` with the comparator of the vector. -/
def sort (S : StdSort O) (s : Vector T) : Vector T :=
  if s.ordered then s else { s with v := S.run s.v, ordered := true }

def checkAndSetOrdered (s : Vector T) : Vector T := { s with ordered := adjacent O s.v }

/-- The loop of `apply` from place `i`, `k` elements to go; `u i` is `u[i]...`, which
throws where an argument has no element `i`. -/
def applyFrom {U : Type} (F : T → U → T) (u : Nat → Option U) :
    Nat → Nat → Vector T → Outcome Exn (Vector T) Unit
  | _, 0, s => .ok () s
  | i, k + 1, s =>
    match s.v[i]?, u i with
    | some x, some y =>
      (setv_checkbefore O i (F x y) s).bind fun _ s => applyFrom F u (i + 1) k s
    | _, _ => .throw (.outOfRange "subscript out of bounds") s

/-- `apply<F>(u...)`. -/
def apply {U : Type} (F : T → U → T) (u : Nat → Option U) (s : Vector T) :
    Outcome Exn (Vector T) Unit :=
  applyFrom O F u 0 s.size { s with ordered := true }

/-- `apply_scalar_post<F>(u)`. -/
def apply_scalar_post {U : Type} (F : T → U → T) (u : U) (s : Vector T) :
    Outcome Exn (Vector T) Unit :=
  applyFrom O F (fun _ => some u) 0 s.size { s with ordered := true }

end Vector

end Ztsdb.Arr
