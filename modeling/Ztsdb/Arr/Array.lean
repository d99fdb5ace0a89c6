import Mathlib
import Ztsdb.Arr.Dname

/-!
# `Array`

An array is a vector of extents, one vector for each column, and the names of each
dimension. Nothing in the type ties the three together: an operation updates the
columns first and the extents last.

`append` reads what a peer sent: a vector of extents, then one vector for each
column. The extents are looked at in place, where the buffer has them; the buffer
has no check but those of the columns.
-/

namespace Ztsdb.Arr

open Ztsdb.Lib

/-- Where an array takes the allocators of its vectors from. -/
structure AllocFactory where
  column : Nat → Allocator
  named : String → Allocator

structure Array (T : Type) where
  dim : Vector idx_type
  v : List (Vector T)
  names : List Dname
  allocf : AllocFactory

/-- A `Vector<idx_type>` over a buffer: the count of its header. -/
def viewSize (mem : List UInt8) : Option Nat := readWord mem 8

/-- The element `j` of such a vector, wherever its header says it ends. -/
def viewElt (mem : List UInt8) (j : Nat) : Option Nat :=
  readWord mem (sizeofRawVector + 8 * j)

namespace Array

/-- The extents from `j` on, `k` of them, are those of `u` but in dimension `i`. -/
def checkSame (u : Nat → Option Nat) (i : Nat) : Nat → Nat → List idx_type → Option Bool
  | _, 0, _ => some true
  | _, _ + 1, [] => some true
  | j, k + 1, x :: v =>
    if j = i then checkSame u i (j + 1) k v
    else match u j with
      | none => none
      | some w => if x.toNat ≠ w then some false else checkSame u i (j + 1) k v

/-- The extents of `u` from `j` on, `k` of them, are 1 but in dimension `i`. -/
def checkOnes (u : Nat → Option Nat) (i : Nat) : Nat → Nat → Option Bool
  | _, 0 => some true
  | j, k + 1 =>
    if j = i then checkOnes u i (j + 1) k
    else match u j with
      | none => none
      | some w => if w ≠ 1 then some false else checkOnes u i (j + 1) k

/-- `checkdims(v, u, i)` for a `u` of `un` extents: `none` where it reads an extent
that is not there. -/
def checkdims (v : List idx_type) (un : Nat) (u : Nat → Option Nat) (i : Nat) :
    Option Bool :=
  if v.length = 0 ∨ un = 0 then some true
  else
    let up := min v.length un
    match checkSame u i 0 up v with
    | some true =>
      match checkOnes (fun j => (v[j]?).map UInt64.toNat) i up (v.length - up) with
      | some true => checkOnes u i up (un - up)
      | r => r
    | r => r

variable {T : Type} [Raw T] (O : T → T → Bool)

def ncols (a : Array T) : Nat := a.v.length

def nrows (a : Array T) : Nat :=
  match a.dim.v with
  | [] => 0
  | d :: _ => d.toNat

/-- `isOrdered()`: all columns are. -/
def isOrdered (a : Array T) : Bool := a.v.all fun c => c.ordered

/-! ## Buffers -/

/-- `dim.getBufferSize() + v.size() * v[0]->getBufferSize()`. -/
def getBufferSize (a : Array T) : Option Nat :=
  match a.v with
  | [] => none
  | c :: _ => some (a.dim.getBufferSize + a.v.length * c.getBufferSize)

/-- The extents, then the columns. -/
def toBuffer (a : Array T) : List UInt8 :=
  a.dim.toBuffer ++ a.v.flatMap Vector.toBuffer

/-! ## Append -/

/-- The columns take their parts of the buffer one after the other, from byte `offset`
on. -/
def appendCols (mem : List UInt8) (buflen : Nat) :
    Nat → List (Vector T) → Outcome Exn (List (Vector T)) Nat
  | offset, [] => .ok offset []
  | offset, c :: cs =>
    match c.append O (mem.drop offset) (wsub buflen offset) with
    | .ok k c' => (appendCols mem buflen (wrap (offset + k)) cs).mapState (c' :: ·)
    | .throw e c' => .throw e (c' :: cs)
    | .fault => .fault

/-- `resize(n, from)` of every column. -/
def resizeCols (n frm : Nat) : List (Vector T) → Outcome Exn (List (Vector T)) Unit
  | [] => .ok () []
  | c :: cs =>
    match c.resize n frm with
    | .ok _ c' => (resizeCols n frm cs).mapState (c' :: ·)
    | .throw e c' => .throw e (c' :: cs)
    | .fault => .fault

/-- The end of `append`: the names and the extent of the first dimension. -/
def addRows (heap : Allocator) (n : Nat) (a : Array T) : Outcome Exn (Array T) Unit :=
  match a.names with
  | [] => .fault
  | nm :: nms =>
    ((nm.addrows heap n).mapState fun nm => { a with names := nm :: nms }).bind fun _ a' =>
      match a.dim.v with
      | [] => .fault
      | d :: _ =>
        (Vector.setv lessIdx 0 (d + UInt64.ofNat n) a.dim).mapState fun dim => { a' with dim }

/-- `append(buf, buflen, offset)`; `mem` is the memory from `buf` on. The result is the
number of bytes read. -/
def append (heap : Allocator) (mem : List UInt8) (buflen : Nat) (a : Array T) :
    Outcome Exn (Array T) Nat :=
  match a.dim.v with
  | [] => .throw (.outOfRange "append on null array not implemented") a
  | d :: _ =>
    match viewSize mem with
    | none => .fault
    | some adim =>
      match checkdims a.dim.v adim (viewElt mem) 0 with
      | none => .fault
      | some false => .throw (.outOfRange "incorrect dimensions for append") a
      | some true =>
        let cols := (appendCols O mem buflen
            (wrap (sizeofRawVector + wrap (8 * adim))) a.v).tryCatch fun e cols =>
          -- stay in a coherent state
          (resizeCols d.toNat 0 cols).bind fun _ cols => .throw e cols
        (cols.mapState fun v => { a with v }).bind fun offset a' =>
          match viewElt mem 0 with
          | none => .fault
          | some rows => (addRows heap rows a').bind fun _ a' => .ok offset a'

/-! ## Resize -/

/-- `resize` of the null array: it becomes a vector without elements. -/
def resizeNull (heap : Allocator) (a : Array T) : Outcome Exn (Array T) Unit :=
  match a.dim.v with
  | _ :: _ => .ok () a
  | [] =>
    ((Vector.push_back lessIdx 0 a.dim).mapState fun dim => { a with dim }).bind fun _ a =>
      match Dname.ofExtent heap 0 with
      | .ok nm _ => .ok () { a with names := a.names ++ [nm] }
      | .throw e _ => .throw e a
      | .fault => .fault

/-- `resize` of an array without columns: it gets one. -/
def resizeNoCols (heap : Allocator) (a : Array T) : Outcome Exn (Array T) Unit :=
  match a.v with
  | _ :: _ => .ok () a
  | [] =>
    match Vector.ofFill O a.nrows (Raw.getInitValue : T) (some heap) with
    | .ok c _ => .ok () { a with v := [c] }
    | .throw e _ => .throw e a
    | .fault => .fault

/-- `resize(0, sz, from)`. -/
def resize (heap : Allocator) (sz frm : Nat) (a : Array T) : Outcome Exn (Array T) Unit :=
  (resizeNull heap a).bind fun _ a =>
    (resizeNoCols O heap a).bind fun _ a =>
      ((resizeCols sz frm a.v).mapState fun v => { a with v }).bind fun _ a =>
        ((Vector.setv lessIdx 0 (UInt64.ofNat sz) a.dim).mapState
            fun dim => { a with dim }).bind fun _ a =>
          match a.names with
          | [] => .fault
          | nm :: nms => (nm.resize sz frm).mapState fun nm => { a with names := nm :: nms }

end Array

end Ztsdb.Arr
