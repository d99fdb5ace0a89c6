import Mathlib
import Ztsdb.Arr.Elements

/-!
# `flexallocator`

The allocator that can give up the front of a block: it maps whole pages, gives
whole leading pages back and hides what is left of the first page behind an
offset that the vector does not know of. The vector reallocates at the address
of its first kept element less a header, and writes its header there.

Memory is a byte for each mapped address. A mapping call is answered by the
system, which may refuse, and which chooses where a mapping is or moves to; what
stays mapped keeps its bytes. The addresses of a mapping do not wrap.
-/

namespace Ztsdb.Arr

open Ztsdb.Lib

/-- Memory by address, `none` where nothing is mapped. -/
abbrev Mem := Nat → Option UInt8

namespace Mem

/-- The `len` bytes from `a` on, when all of them are mapped. -/
def read (m : Mem) : Nat → Nat → Option (List UInt8)
  | _, 0 => some []
  | a, len + 1 =>
    match m a, m.read (a + 1) len with
    | some b, some bs => some (b :: bs)
    | _, _ => none

/-- The memory with `bs` laid over it from `a` on. -/
def overlay (m : Mem) (a : Nat) (bs : List UInt8) : Mem := fun x =>
  if a ≤ x then (bs[x - a]?).or (m x) else m x

/-- `memcpy` of `bs` to `a`, when all of it is mapped. -/
def write (m : Mem) (a : Nat) (bs : List UInt8) : Option Mem :=
  if (List.range bs.length).all fun k => (m (a + k)).isSome then some (m.overlay a bs) else none

/-- A new mapping of `n` zero bytes at `t`. -/
def map (m : Mem) (t n : Nat) : Mem := fun x => if t ≤ x ∧ x < t + n then some 0 else m x

def unmap (m : Mem) (t n : Nat) : Mem := fun x => if t ≤ x ∧ x < t + n then none else m x

/-- The mapping of `n` bytes at `t` moved to `t'` and made `n'` bytes long. -/
def remap (m : Mem) (t n n' t' : Nat) : Mem := fun x =>
  if t' ≤ x ∧ x < t' + n' then if x - t' < n then m (t + (x - t')) else some 0
  else m.unmap t n x

/-- All of `[a, a + len)` is mapped. -/
def Mapped (m : Mem) (a len : Nat) : Prop := ∀ k < len, (m (a + k)).isSome

variable {m m' : Mem} {a b len : Nat} {bs : List UInt8}

theorem Mapped.mono {n : Nat} (h : m.Mapped a len) (hn : b + n ≤ len) : m.Mapped (a + b) n := by
  intro k hk
  rw [Nat.add_assoc]
  exact h (b + k) (by omega)

theorem Mapped.take {n : Nat} (h : m.Mapped a len) (hn : n ≤ len) : m.Mapped a n :=
  fun k hk => h k (by omega)

/-- A read depends on the bytes read alone. -/
theorem read_congr (h : ∀ k < len, m' (b + k) = m (a + k)) : m'.read b len = m.read a len := by
  induction len generalizing a b with
  | zero => rfl
  | succ len ih =>
      have h0 : m' b = m a := h 0 (by omega)
      have hrest : m'.read (b + 1) len = m.read (a + 1) len := by
        apply ih
        intro k hk
        have := h (k + 1) (by omega)
        rwa [show b + (k + 1) = b + 1 + k by omega, show a + (k + 1) = a + 1 + k by omega] at this
      rw [read, read, h0, hrest]

theorem read_of_mapped (h : m.Mapped a len) : ∃ bs, m.read a len = some bs ∧ bs.length = len := by
  induction len generalizing a with
  | zero => exact ⟨[], rfl, rfl⟩
  | succ len ih =>
      obtain ⟨b, hb⟩ := Option.isSome_iff_exists.mp (h 0 (by omega))
      obtain ⟨bs, hbs, hlen⟩ := ih (h.mono (by omega : 1 + len ≤ len + 1))
      rw [Nat.add_zero] at hb
      refine ⟨b :: bs, ?_, by rw [List.length_cons, hlen]⟩
      rw [read, hb, hbs]

theorem write_of_mapped (h : m.Mapped a bs.length) : m.write a bs = some (m.overlay a bs) := by
  rw [write, if_pos (List.all_eq_true.mpr fun k hk => h k (List.mem_range.mp hk))]

theorem overlay_inside {k : Nat} (h : k < bs.length) : m.overlay a bs (a + k) = some bs[k] := by
  rw [overlay, if_pos (by omega), Nat.add_sub_cancel_left, List.getElem?_eq_getElem h]
  rfl

theorem overlay_beyond {k : Nat} (h : bs.length ≤ k) : m.overlay a bs (a + k) = m (a + k) := by
  rw [overlay, if_pos (by omega), Nat.add_sub_cancel_left, List.getElem?_eq_none h,
    Option.none_or]

/-- What is laid over memory reads back. -/
theorem read_overlay (front rest : List UInt8) :
    (m.overlay a (front ++ (bs ++ rest))).read (a + front.length) bs.length = some bs := by
  induction bs generalizing front with
  | nil => rfl
  | cons b bs ih =>
      have hat : m.overlay a (front ++ (b :: bs ++ rest)) (a + front.length) = some b := by
        rw [overlay_inside (by simp)]
        simp
      have hrest := ih (front ++ [b])
      rw [List.append_assoc, List.singleton_append, List.length_append,
        List.length_singleton, ← Nat.add_assoc] at hrest
      rw [List.length_cons, read, hat, List.cons_append, hrest]

theorem Mapped.overlay (h : m.Mapped a len) : (m.overlay b bs).Mapped a len := by
  intro k hk
  rw [Mem.overlay]
  split
  · cases hbs : bs[a + k - b]? with
    | none => simpa using h k hk
    | some x => rfl
  · exact h k hk

end Mem

/-- The answers of the system to the mapping calls, `none` and `false` for a refusal. -/
structure Os where
  mmap : Nat → Option Nat
  munmap : Nat → Nat → Bool
  mremap : Nat → Nat → Nat → Option Nat

/-- `MAP_FAILED`. -/
def MAP_FAILED : Nat := 2 ^ 64 - 1

structure Flexallocator where
  offset : Nat
  t : Nat
  n : Nat
  pagesz : Nat
  pagesz_pos : 0 < pagesz

/-- `n` bytes rounded up to whole pages. -/
def inPages (pagesz n : Nat) : Nat := (n / pagesz + if n % pagesz = 0 then 0 else 1) * pagesz

theorem le_inPages {pagesz : Nat} (hpos : 0 < pagesz) (n : Nat) : n ≤ inPages pagesz n := by
  have hdiv := Nat.div_add_mod n pagesz
  have hmod := Nat.mod_lt n hpos
  rw [inPages, Nat.add_mul, Nat.mul_comm (n / pagesz)]
  split
  · omega
  · rw [Nat.one_mul]
    omega

/-- The difference of two addresses as a `size_t`. -/
def ptrDiff (a b : Nat) : Nat := (((a : Int) - b) % 2 ^ 64).toNat

theorem ptrDiff_add {b d : Nat} (h : d < 2 ^ 64) : ptrDiff (b + d) b = d := by
  rw [ptrDiff]
  omega

namespace Flexallocator

def allocate (os : Os) (n_p : Nat) (f : Flexallocator) (m : Mem) :
    Outcome Exn (Flexallocator × Mem) Nat :=
  let n := wrap (inPages f.pagesz n_p)
  match os.mmap n with
  | none => .throw (.systemError "mmap (PRIVATE|ANON)") ({ f with n, t := MAP_FAILED }, m)
  | some t => .ok t ({ f with n, t }, m.map t n)

/-- `reallocate` at the address the outside knows: the mapping grows or shrinks at its end. -/
def reallocateEnd (os : Os) (n_p : Nat) (f : Flexallocator) (m : Mem) :
    Outcome Exn (Flexallocator × Mem) Nat :=
  let n_p := wrap (inPages f.pagesz (wrap (n_p + f.offset)))
  if f.n ≠ n_p then
    match os.mremap f.t f.n n_p with
    | none => .throw (.systemError "mremap") ({ f with t := MAP_FAILED }, m)
    | some t => .ok (t + f.offset) ({ f with t, n := n_p }, m.remap f.t f.n n_p t)
  else .ok (f.t + f.offset) (f, m)

def reallocate (os : Os) (t_p n_p : Nat) (f : Flexallocator) (m : Mem) :
    Outcome Exn (Flexallocator × Mem) Nat :=
  if t_p < f.t then
    .throw (.outOfRange "can't reallocate with an address before start of mapping") (f, m)
  else if t_p = f.t + f.offset then f.reallocateEnd os n_p m
  else if f.t + f.n < t_p then
    .throw (.outOfRange "can't reallocate with an address beyond end of mapping") (f, m)
  else
    let sz := ptrDiff t_p (f.t + f.offset)
    let pages := sz / f.pagesz
    let f := { f with offset := sz % f.pagesz }
    -- either way the call goes on at the address the outside knows from now on
    if pages ≠ 0 then
      if os.munmap f.t (pages * f.pagesz) then
        { f with t := f.t + pages * f.pagesz, n := wsub f.n (pages * f.pagesz) }.reallocateEnd os
          (wrap (n_p + f.offset)) (m.unmap f.t (pages * f.pagesz))
      else .throw (.systemError "munmap") (f, m)
    else f.reallocateEnd os (wrap (n_p + f.offset)) m

end Flexallocator

/-- A vector of elements `T` on a `flexallocator`: the address of its header and
elements, its capacity, its allocator and the memory. -/
structure FlexVector (T : Type) where
  c : Nat
  capacity : Nat
  alloc : Flexallocator
  mem : Mem

namespace FlexVector

variable {T : Type} [Raw T]

/-- `c->n`. -/
def size (s : FlexVector T) : Option Nat := (s.mem.read (s.c + 8) 8).map leNat

/-- `c->v[i]`. -/
def elt (s : FlexVector T) (i : Nat) : Option T :=
  (s.mem.read (s.c + sizeofRawVector + i * Flat.width T) (Flat.width T)).map Flat.ofBytes

/-- What the constructors share: a block for `capacity` elements, the header of a vector
of `n` elements, and those of its elements that are initialised. -/
def construct (os : Os) (pagesz : { p : Nat // 0 < p }) (capacity n : Nat) (elts : List T)
    (ordered : Bool) : Outcome Exn Unit (FlexVector T) :=
  match (⟨0, 0, 0, pagesz.1, pagesz.2⟩ : Flexallocator).allocate os
      (getTotalSize (Flat.width T) capacity) (fun _ => none) with
  | .ok c (alloc, mem) =>
    match mem.write c (leBytes 8 (Raw.typenumber T) ++ (leBytes 8 n ++
        (leBytes 8 (if ordered then 1 else 0) ++ Flat.encode elts))) with
    | none => .fault
    | some mem =>
      if sizeofRawVector + n * Flat.width T ≤ alloc.n then .ok ⟨c, capacity, alloc, mem⟩ ()
      else .fault
  | .throw e _ => .throw e ()
  | .fault => .fault

def resize (os : Os) (n frm : Nat) (s : FlexVector T) : Outcome Exn (FlexVector T) Unit :=
  match s.size, s.mem.read s.c sizeofRawVector with
  | some size, some rv =>
    if size < frm then .throw (.outOfRange "resize from out of bounds") s
    else if frm ≠ 0 ∨ n ≠ size then
      let s : FlexVector T := { s with capacity := growCapacity n }
      match s.alloc.reallocate os (s.c + frm * Flat.width T)
          (memsize (Flat.width T) s.capacity) s.mem with
      | .ok c (alloc, mem) =>
        -- the header is copied to its new place, and its `n` is set there
        match (mem.write c rv).bind fun mem => mem.write (c + 8) (leBytes 8 n) with
        | some mem => .ok () { s with c, alloc, mem }
        | none => .fault
      | .throw e (alloc, mem) => .throw e { s with alloc, mem }
      | .fault => .fault
    else .ok () s
  | _, _ => .fault

/-- The vectors that constructors and calls of `resize` which return make, each call
under its condition. -/
inductive Reach (C : Nat → Nat → FlexVector T → Prop) : FlexVector T → Prop
  | construct {os : Os} {pagesz : { p : Nat // 0 < p }} {capacity n : Nat} {elts : List T}
      {ordered : Bool} {s : FlexVector T} :
      n < 2 ^ 64 → construct os pagesz capacity n elts ordered = .ok s () → Reach C s
  | resize {os : Os} {n frm : Nat} {s s' : FlexVector T} :
      Reach C s → n < 2 ^ 64 → C n frm s → s.resize os n frm = .ok () s' → Reach C s'

/-- The elements kept by `resize(n, frm)` are the elements from `frm` on. A call that does
not return had a mapping call refused. -/
def Keeps (os : Os) (n frm : Nat) (s : FlexVector T) : Prop :=
  (s.resize os n frm).Holds
    (fun _ s' => s'.size = some n ∧ ∀ size, s.size = some size → ∀ i < min n (size - frm),
      ∃ x, s.elt (frm + i) = some x ∧ s'.elt i = some x)
    (fun e _ => e = .systemError "munmap" ∨ e = .systemError "mremap")

/-- Nothing changes; or the front is kept or was never trimmed to within a page, and the
bytes asked for can be counted. -/
def Safe (n frm : Nat) (s : FlexVector T) : Prop :=
  frm = 0 ∧ s.size = some n ∨ (frm = 0 ∨ s.alloc.offset = 0) ∧
    inPages s.alloc.pagesz (sizeofRawVector + growCapacity n * Flat.width T +
      if frm = 0 then s.alloc.offset else 2 * (frm * Flat.width T % s.alloc.pagesz)) < 2 ^ 64

end FlexVector

end Ztsdb.Arr
