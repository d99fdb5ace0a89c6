import Mathlib
import Ztsdb.Arr.Zts

/-!
# The constructors of arrays and of series

An array asks its factory for one allocator for each of its vectors: the extents,
the columns by number, the names of each dimension. A constructor that throws leaves
no array, so none of these has a state.

The number of columns is the product of the extents but the first, multiplied as
`size_t` and held in a double, which is exact below `2 ^ 53`.
-/

namespace Ztsdb.Arr

open Ztsdb.Lib

/-- `MemAllocFactory`: everything from one heap. -/
def memFactory (heap : Allocator) : AllocFactory where
  column _ := heap
  named _ := heap

namespace Array

variable {T : Type} [Raw T] (O : T → T → Bool)

/-- `accumulate(dim.begin()+1, dim.end(), 1.0, multiplies)`. -/
def ncolsOf (dim : List idx_type) : Nat :=
  match dim with
  | [] => 0
  | _ :: ds => ds.foldl (fun acc d => wrap (acc * d.toNat)) 1

/-- The names of dimension `j`, given or not. -/
def buildName (allocf : AllocFactory) (names_p : List (Vector ZString)) (j : Nat)
    (d : idx_type) : Outcome Exn Unit Dname :=
  let unnamed := (Vector.ofFill ZString.less 0 ZString.empty
    (some (allocf.named s!"names{j}"))).bind fun names _ => Dname.ofNames d.toNat names
  match names_p[j]? with
  | none => unnamed
  | some names =>
    if 0 < names.size then
      if names.size ≠ d.toNat then
        .throw (.rangeError
          ("length of 'dimnames' [" ++ toString (j + 1) ++ "] not equal to array extent")) ()
      else (names.copy (some (allocf.named s!"names{j}"))).bind fun names _ =>
        Dname.ofNames d.toNat names
    else unnamed

/-- Build the names in each dimension. -/
def buildNames (dim : List idx_type) (allocf : AllocFactory)
    (names_p : List (Vector ZString)) : Outcome Exn Unit (List Dname) :=
  if names_p.length ≠ 0 ∧ names_p.length ≠ dim.length then
    .throw (.rangeError ("length of 'dimnames' [" ++ toString names_p.length ++
      "] must match that of 'dims' [" ++ toString dim.length ++ "]")) ()
  else Outcome.collect (dim.zipIdx.map fun (d, j) => buildName allocf names_p j d)

/-- `Array(rsv, dim, names)`: columns with room for the rows, but without elements. -/
def ofRsv (dim_p : Vector idx_type) (names_p : List (Vector ZString)) (allocf : AllocFactory) :
    Outcome Exn Unit (Array T) :=
  (dim_p.copy (some (allocf.named "dim"))).bind fun dim _ =>
    match dim.v with
    | [] => .ok { dim, v := [], names := [], allocf } ()
    | d :: _ =>
      (Outcome.collect ((List.range (ncolsOf dim.v)).map fun n =>
        Vector.ofRsv d.toNat (some (allocf.column n)))).bind fun v _ =>
          (buildNames dim.v allocf names_p).bind fun names _ =>
            .ok { dim, v, names, allocf } ()

/-- The column `n` of an array of `d` rows, cut out of `v_p`. -/
def cutColumn (v_p : Vector T) (d : Nat) (allocf : AllocFactory) (n : Nat) :
    Outcome Exn Unit (Vector T) :=
  match v_p.v with
  | [] => Vector.ofFill O d Raw.getInitValue (some (allocf.column n))
  | [x] => Vector.ofFill O d x (some (allocf.column n))
  | _ => Vector.ofRange O ((v_p.v.drop (n * d)).take d) (some (allocf.column n))

/-- `Array(dim, v, names)`, the main constructor. -/
def ofVector (dim_p : Vector idx_type) (v_p : Vector T) (names_p : List (Vector ZString))
    (allocf : AllocFactory) : Outcome Exn Unit (Array T) :=
  (dim_p.copy (some (allocf.named "dim"))).bind fun dim _ =>
    let ncols := ncolsOf dim.v
    let d := (dim.v.map UInt64.toNat).headD 0
    if 1 < v_p.size ∧ v_p.size ≠ ncols * d then
      .throw (.rangeError "data does not fit array dimensions") ()
    else
      (Outcome.collect ((List.range ncols).map (cutColumn O v_p d allocf))).bind fun v _ =>
        (buildNames dim.v allocf names_p).bind fun names _ =>
          .ok { dim, v, names, allocf } ()

/-- What is in the files of an array: the vector of a name or of a column, none where
the file cannot be mapped. -/
structure Files (T : Type) where
  dim : Option (Vector idx_type)
  column : Nat → Option (Vector T)
  names : Nat → Option (Vector ZString)

/-- A vector from its file. -/
def mapped {U : Type} (file : Option (Vector U)) : Outcome Exn Unit (Vector U) :=
  match file with
  | some s => .ok s ()
  | none => .throw (.systemError "mmap") ()

/-- `Array(allocf)`: the array its files hold. -/
def ofFiles (files : Files T) (allocf : AllocFactory) : Outcome Exn Unit (Array T) :=
  (mapped files.dim).bind fun dim _ =>
    (Outcome.collect ((List.range (ncolsOf dim.v)).map fun j => mapped (files.column j))).bind
      fun v _ =>
        (Outcome.collect (dim.v.zipIdx.map fun (d, j) =>
          (mapped (files.names j)).bind fun names _ => Dname.ofNames d.toNat names)).bind
            fun names _ => .ok { dim, v, names, allocf } ()

/-- The copy constructor. -/
def copy (u : Array T) (allocf : AllocFactory) : Outcome Exn Unit (Array T) :=
  (u.dim.copy (some (allocf.named "dim"))).bind fun dim _ =>
    (Outcome.collect (u.v.zipIdx.map fun (c, i) => c.copy (some (allocf.column i)))).bind
      fun v _ =>
        (Outcome.collect (u.names.zipIdx.map fun (nm, i) =>
          (nm.names.copy (some (allocf.named s!"names{i}"))).bind fun names _ =>
            match dim.v[i]? with
            | some d => Dname.ofNames d.toNat names
            | none => .throw (.outOfRange "subscript out of bounds") ())).bind fun names _ =>
          .ok { dim, v, names, allocf } ()

/-- `size()`: the elements of all columns. -/
def size (a : Array T) : Nat := wrap (a.v.length * a.nrows)

/-- The loop of `drop` from place `i` down: an extent of 1 goes with its names. -/
def dropFrom : Nat → Vector idx_type × List Dname →
    Outcome Exn (Vector idx_type × List Dname) Unit
  | 0, s => .ok () s
  | i + 1, (dim, names) =>
    match dim.v[i + 1]? with
    | none => .fault
    | some d =>
      -- dereferencing clears the flag
      let dim := { dim with ordered := false }
      if d = 1 then
        ((dim.erase (i + 1)).mapState fun dim => (dim, names.eraseIdx (i + 1))).bind fun _ s =>
          dropFrom i s
      else dropFrom i (dim, names)

/-- `drop(a)`: without the extents of 1 but the first. -/
def drop (a : Array T) : Outcome Exn (Array T) Unit :=
  (dropFrom (a.dim.size - 1) (a.dim, a.names)).mapState fun s =>
    { a with dim := s.1, names := s.2 }

end Array

namespace zts

/-- `checkDims(a, idx)`: what it throws, if anything. -/
def checkDims (a : Array Double) (idx : Array dtime) : Option Exn :=
  if idx.dim.size ≠ 1 then some (.rangeError "zts index must be a vector")
  else if idx.size ≠ (if a.dim.size ≠ 0 then a.nrows else idx.size) then
    some (.rangeError "mismatched dimensions for index and data")
  else none

/-- The end of a constructor: the index loses its extents of 1, then the dimensions are
checked and, where `order` is set, the flag of the index. -/
def finish (order : Bool) (a : Array Double) (idx : Array dtime) : Outcome Exn Unit zts :=
  match idx.drop with
  | .fault => .fault
  | .throw e _ => .throw e ()
  | .ok _ idx =>
    match checkDims a idx with
    | some e => .throw e ()
    | none =>
      if order && !idx.isOrdered then
        .throw (.rangeError "index is not in ascending order") ()
      else .ok { a, idx } ()

/-- `zts(rsv, dim, cnames)`. -/
def ofRsv (heap : Allocator) (dim_p : Vector idx_type) (cnames : List (Vector ZString)) :
    Outcome Exn Unit zts :=
  (Array.ofRsv dim_p cnames (memFactory heap)).bind fun a _ =>
    match dim_p.v with
    | [] => .fault
    | d :: _ =>
      (Vector.ofList lessIdx [d] (some heap)).bind fun idim _ =>
        (Array.ofRsv idim [] (memFactory heap)).bind fun idx _ => finish false a idx

/-- `zts(dim, idx, v, cnames)`. -/
def ofParts (heap : Allocator) (dim_p : Vector idx_type) (idx_p : Vector dtime)
    (v_p : Vector Double) (cnames : List (Vector ZString)) (allocf_a allocf_idx : AllocFactory) :
    Outcome Exn Unit zts :=
  (Array.ofVector Double.less dim_p v_p cnames allocf_a).bind fun a _ =>
    (Vector.ofList lessIdx [UInt64.ofNat idx_p.size] (some heap)).bind fun idim _ =>
      (Array.ofVector dtime.less idim idx_p [] allocf_idx).bind fun idx _ => finish true a idx

/-- `zts(idx, a)`. -/
def ofArrays (idx_p : Array dtime) (a_p : Array Double) (allocf_a allocf_idx : AllocFactory) :
    Outcome Exn Unit zts :=
  (a_p.copy allocf_a).bind fun a _ =>
    (idx_p.copy allocf_idx).bind fun idx _ => finish true a idx

/-- `zts(allocf_a, allocf_idx)`, from files. -/
def ofFiles (files_a : Array.Files Double) (files_idx : Array.Files dtime)
    (allocf_a allocf_idx : AllocFactory) : Outcome Exn Unit zts :=
  (Array.ofFiles files_a allocf_a).bind fun a _ =>
    (Array.ofFiles files_idx allocf_idx).bind fun idx _ => finish true a idx

/-- The copy constructor. -/
def copy (z : zts) (allocf_a allocf_idx : AllocFactory) : Outcome Exn Unit zts :=
  (z.a.copy allocf_a).bind fun a _ =>
    (z.idx.copy allocf_idx).bind fun idx _ => finish false a idx

end zts

end Ztsdb.Arr
