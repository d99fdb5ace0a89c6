import Mathlib
import Ztsdb.Arr.Make

/-!
# Binding, row subsets and vectors appended

`abind` grows an array in any dimension: in the first it pushes the rows of the other
array onto the columns, elsewhere it appends empty columns, fills them from the back
and swaps the old ones into place. Its loops run on `size_t` counters that wrap below
zero after the last round; the extents are multiplied in an `int`.

None of these functions puts anything back when it throws midway.
-/

namespace Ztsdb.Arr

open Ztsdb.Lib

namespace Vector

variable {T : Type} [Raw T] (O : T → T → Bool)

/-- `push_back` of all of `xs`. -/
def pushAll : List T → Vector T → Outcome Exn (Vector T) Unit
  | [], s => .ok () s
  | x :: xs, s => (s.push_back O x).bind fun _ s => pushAll xs s

end Vector

namespace Array

variable {T : Type} [Raw T] (O : T → T → Bool)

/-- The first column takes `xs`. -/
def pushFirst (xs : List T) (a : Array T) : Outcome Exn (Array T) Unit :=
  match a.v with
  | [] => .fault
  | c :: cs => (c.pushAll O xs).mapState fun c => { a with v := c :: cs }

/-- The extent of dimension `d` becomes `f` of it. -/
def setDim (d : Nat) (f : idx_type → idx_type) (a : Array T) : Outcome Exn (Array T) Unit :=
  match a.dim.v[d]? with
  | none => .fault
  | some x => (Vector.setv lessIdx d (f x) a.dim).mapState fun dim => { a with dim }

/-- A change of the names of dimension `d`. -/
def onName (d : Nat) (f : Dname → Outcome Exn Dname Unit) (a : Array T) :
    Outcome Exn (Array T) Unit :=
  match a.names[d]? with
  | none => .fault
  | some nm => (f nm).mapState fun nm => { a with names := a.names.set d nm }

/-! ## `concat` -/

/-- `concat(u, prefix)`: a vector behind a vector. -/
def concat (heap : Allocator) (u : Array T) (pre : List UInt8) (a : Array T) :
    Outcome Exn (Array T) Unit :=
  if 1 < a.dim.size ∨ 1 < u.dim.size then
    .throw (.rangeError "concat can only handle dim==0 and vectors") a
  else
    match u.v, u.names, u.dim.v with
    | c :: _, nm :: _, n :: _ =>
      (a.pushFirst O c.v).bind fun _ a =>
        match nm.copy heap with
        | .fault => .fault
        | .throw e _ => .throw e a
        | .ok newnames _ =>
          match newnames.addprefix pre with
          | .fault => .fault
          | .throw e _ => .throw e a
          | .ok _ newnames =>
            (a.onName 0 (Dname.addafter heap newnames)).bind fun _ a => a.setDim 0 (· + n)
    | _, _, _ => .fault

/-- `concat(u, name)`: one element. The vector grows where it has no dimension or no
column yet. -/
def concatOne (heap : Allocator) (x : T) (name : ZString) (a : Array T) :
    Outcome Exn (Array T) Unit :=
  if 1 < a.dim.size then
    .throw (.rangeError "concat can only handle dim==0 and vectors") a
  else
    (resizeNull heap a).bind fun _ a => (resizeNoCols O heap a).bind fun _ a =>
      (a.pushFirst O [x]).bind fun _ a =>
        (a.onName 0 (Dname.addname name)).bind fun _ a => a.setDim 0 (· + 1)

/-! ## `abind` -/

/-- `transpose` of a vector: a matrix of one row. -/
def transpose (heap : Allocator) (t : Array T) : Outcome Exn Unit (Array T) :=
  match t.v, t.names, t.dim.v with
  | c :: _, nm :: _, n :: _ =>
    (Vector.ofList lessIdx [1, n] (some heap)).bind fun dim _ =>
      (Vector.ofFill ZString.less 0 ZString.empty (some heap)).bind fun none _ =>
        (c.copy (some heap)).bind fun v_p _ =>
          ofVector O dim v_p [none, nm.names] (memFactory heap)
  | _, _, _ => .fault

/-- `dim.push_back(n)`. -/
def pushDim (n : Nat) (a : Array T) : Outcome Exn (Array T) Unit :=
  (a.dim.push_back lessIdx (UInt64.ofNat n)).mapState fun dim => { a with dim }

/-- The names of dimension `j`, of extent `n`, behind the others. -/
def pushName (j n : Nat) (a : Array T) : Outcome Exn (Array T) Unit :=
  match (Vector.ofFill ZString.less 0 ZString.empty
      (some (a.allocf.named s!"names{j}"))).bind fun names _ => Dname.ofNames n names with
  | .ok nm _ => .ok () { a with names := a.names ++ [nm] }
  | .throw e _ => .throw e a
  | .fault => .fault

/-- More dimensions, of extents `ns`, from `j` on: the names of each first, or its extent. -/
def addDims (namesFirst : Bool) : Nat → List Nat → Array T → Outcome Exn (Array T) Unit
  | _, [], a => .ok () a
  | j, n :: ns, a =>
    (if namesFirst then (a.pushName j n).bind fun _ a => a.pushDim n
      else (a.pushDim n).bind fun _ a => a.pushName j n).bind fun _ a =>
        addDims namesFirst (j + 1) ns a

/-- The extents that `abind` gives to an array without any: those of `u`, 0 in
dimension `d`. -/
def nullDims (u : Array T) (d : Nat) : List Nat :=
  u.dim.v.zipIdx.map fun (x, j) => if j = d then 0 else x.toNat

/-- The extents up to dimension `d` that an array of `k` dimensions gets. -/
def moreDims (noCols : Bool) (k d : Nat) : List Nat :=
  (List.range' k (d + 1 - k)).map fun j => if noCols && decide (j = d) then 0 else 1

/-- The rows of `u` pushed onto the columns, from column `j` on. A column that is not
there is made. -/
def bindRows (allocf : AllocFactory) : Nat → List (Vector T) → List (Vector T) →
    Outcome Exn (List (Vector T)) Unit
  | _, [], cs => .ok () cs
  | j, u :: us, c :: cs =>
    match c.pushAll O u.v with
    | .ok _ c' => (bindRows allocf (j + 1) us cs).mapState (c' :: ·)
    | .throw e c' => .throw e (c' :: cs)
    | .fault => .fault
  | j, u :: us, [] =>
    match Vector.ofRsv u.size (some (allocf.named (toString j))) with
    | .ok c _ =>
      match Vector.pushAll O u.v c with
      | .ok _ c' => (bindRows allocf (j + 1) us []).mapState (c' :: ·)
      | .throw e c' => .throw e [c']
      | .fault => .fault
    | .throw e _ => .throw e []
    | .fault => .fault

/-- Empty columns behind those of an array of `d` rows, from number `j` on. -/
def newCols (allocf : AllocFactory) (d : Nat) : Nat → Nat → List (Vector T) →
    Outcome Exn (List (Vector T)) Unit
  | _, 0, cs => .ok () cs
  | j, k + 1, cs =>
    match Vector.ofRsv d (some (allocf.named (toString j))) with
    | .ok c _ => newCols allocf d (j + 1) k (cs ++ [c])
    | .throw e _ => .throw e cs
    | .fault => .fault

/-- A `size_t` that went through an `int`. -/
def intOf (n : Nat) : Nat :=
  if n % 2 ^ 32 < 2 ^ 31 then n % 2 ^ 32 else n % 2 ^ 32 + (2 ^ 64 - 2 ^ 32)

/-- `accumulate(…, 1, multiplies<idx_type>())`. -/
def intProd (ds : List idx_type) : Nat := ds.foldl (fun acc d => intOf (wrap (acc * d.toNat))) 1

/-- Where the loop over the columns is. -/
structure Cursor where
  destoff : Nat
  srcoff : Nat
  uoff : Nat
  needSwap : Bool

/-- `k` columns of `u` are copied, the last ones first. -/
def fillCols (us : List (Vector T)) : Nat → Cursor → List (Vector T) →
    Outcome Exn (List (Vector T)) Cursor
  | 0, q, v => .ok q v
  | k + 1, q, v =>
    match us[q.uoff]? with
    | none => .fault
    | some u =>
      let next : Cursor := { q with
        destoff := wsub q.destoff 1
        uoff := if 0 < q.uoff then q.uoff - 1 else q.uoff
        needSwap := if 0 < q.uoff then q.needSwap else false }
      match v[q.destoff]? with
      | none => if u.v = [] then fillCols us k next v else .fault
      | some c =>
        match c.pushAll O u.v with
        | .ok _ c' => fillCols us k next (v.set q.destoff c')
        | .throw e c' => .throw e (v.set q.destoff c')
        | .fault => .fault

/-- `k` columns change places, the last ones first. -/
def swapCols : Nat → Cursor → List (Vector T) → Outcome Exn (List (Vector T)) Cursor
  | 0, q, v => .ok q v
  | k + 1, q, v =>
    match v[q.srcoff]?, v[q.destoff]? with
    | some c, some c' =>
      swapCols k { q with destoff := wsub q.destoff 1, srcoff := wsub q.srcoff 1 }
        ((v.set q.srcoff c').set q.destoff c)
    | _, _ => .fault

/-- `n` rounds: a slice of `u` is copied, then a slice of the array moved up. -/
def bindCols (us : List (Vector T)) (ucols cols : Nat) : Nat → Cursor → List (Vector T) →
    Outcome Exn (List (Vector T)) Unit
  | 0, _, v => .ok () v
  | n + 1, q, v =>
    (fillCols O us ucols { q with needSwap := true } v).bind fun q v =>
      if q.needSwap then
        (swapCols cols q v).bind fun q v => bindCols us ucols cols n q v
      else bindCols us ucols cols n q v

/-- The columns of `abind` in a dimension `d` other than the first. -/
def bindColumns (u : Array T) (d : Nat) (a : Array T) : Outcome Exn (Array T) Unit :=
  let origSize := a.v.length
  ((newCols a.allocf a.nrows origSize u.v.length a.v).mapState fun v => { a with v }).bind
    fun _ a =>
      if u.dim.v = [] then .fault
      else
        let ucols := intProd ((u.dim.v.drop 1).take d)
        let cols := intProd ((a.dim.v.drop 1).take d)
        let n := intProd (a.dim.v.drop (d + 1))
        let q : Cursor := {
          destoff := wsub a.v.length 1
          srcoff := wsub origSize 1
          uoff := wsub u.v.length 1
          needSwap := true }
        -- the extents were read through an iterator
        (bindCols O u.v ucols cols n q a.v).mapState fun v =>
          { a with v, dim := { a.dim with ordered := false } }

/-- The names that an array without names takes over from `u`, dimension by dimension
from `i` on. -/
def takeNames (heap : Allocator) (us : List Dname) (d : Nat) : Nat → List Dname →
    Outcome Exn (List Dname) Unit
  | _, [] => .ok () []
  | i, nm :: nms =>
    match us[i]? with
    | some u =>
      if i ≠ d ∧ nm.hasNames = false ∧ u.hasNames = true then
        match u.copy heap with
        | .ok nm' _ => (takeNames heap us d (i + 1) nms).mapState (nm' :: ·)
        | .throw e _ => .throw e (nm :: nms)
        | .fault => .fault
      else (takeNames heap us d (i + 1) nms).mapState (nm :: ·)
    | none => (takeNames heap us d (i + 1) nms).mapState (nm :: ·)

/-- The names in dimension `d` that come with `u`. -/
def newNames (heap : Allocator) (u : Array T) (d : Nat) (pre : List UInt8) :
    Outcome Exn Unit Dname :=
  let newnames : Outcome Exn Unit Dname :=
    if d < u.dim.size then
      match u.names[d]? with
      | some nm => nm.copy heap
      | none => .fault
    else Dname.ofExtent heap 1
  newnames.bind fun newnames _ =>
    match newnames.addprefix pre with
    | .ok _ newnames => .ok newnames ()
    | .throw e _ => .throw e ()
    | .fault => .fault

/-- `abind` of two arrays none of which is a vector to be turned into a row. -/
def abindRest (heap : Allocator) (u : Array T) (d : Nat) (pre : List UInt8) (a : Array T) :
    Outcome Exn (Array T) Unit :=
  match checkdims a.dim.v u.dim.size (fun j => (u.dim.v[j]?).map UInt64.toNat) d with
  | none => .fault
  | some false => .throw (.rangeError "incorrect dimensions for abind") a
  | some true =>
    (if a.dim.size = 0 then a.addDims false 0 (nullDims u d) else .ok () a).bind fun _ a =>
      (a.addDims true a.dim.size (moreDims a.v.isEmpty a.dim.size d)).bind fun _ a =>
        (if d = 0 then (bindRows O a.allocf 0 u.v a.v).mapState fun v => { a with v }
          else bindColumns O u d a).bind fun _ a =>
          match newNames heap u d pre with
          | .fault => .fault
          | .throw e _ => .throw e a
          | .ok newnames _ =>
            (a.onName d (Dname.addafter heap newnames)).bind fun _ a =>
              ((takeNames heap u.names d 0 a.names).mapState fun names => { a with names }).bind
                fun _ a => a.setDim d (· + ((u.dim.v[d]?).getD 1))

/-- `abind(u, d, prefix)` of an array other than this one. -/
def abind (heap : Allocator) (u : Array T) (d : Nat) (pre : List UInt8) (a : Array T) :
    Outcome Exn (Array T) Unit :=
  if d = 0 ∧ a.dim.size = 1 then
    match transpose O heap a with
    | .fault => .fault
    | .throw e _ => .throw e a
    | .ok a _ =>
      match if u.dim.size = 1 then transpose O heap u else u.copy (memFactory heap) with
      | .fault => .fault
      | .throw e _ => .throw e a
      | .ok u _ => abindRest O heap u 0 pre a
  else if d = 0 ∧ u.dim.size = 1 then
    match transpose O heap u with
    | .fault => .fault
    | .throw e _ => .throw e a
    | .ok u _ => abindRest O heap u 0 pre a
  else abindRest O heap u d pre a

/-! ## Rows -/

/-- The loop of `subsetRows` over the columns: `k` rows from `frm` on. -/
def subsetCols (k frm : Nat) : List (Vector T) → List (Vector T) →
    Outcome Exn Unit (List (Vector T))
  | [], rs => .ok rs ()
  | _ :: cs, [] => if k = 0 then subsetCols k frm cs [] else .fault
  | c :: cs, r :: rs =>
    match r.pushAll O ((c.v.drop frm).take k) with
    | .ok _ r =>
      if c.size < frm + k ∧ k ≠ 0 then
        if c.size = 0 then .fault else .throw (.outOfRange "subscript out of bounds") ()
      else (subsetCols k frm cs rs).bind fun rs _ => .ok (r :: rs) ()
    | .throw e _ => .throw e ()
    | .fault => .fault

/-- The names of `n` rows from `frm` on, from place `i` on. -/
def subsetNames (nm : Dname) (frm : Nat) : Nat → Nat → Dname → Outcome Exn Dname Unit
  | _, 0, r => .ok () r
  | i, k + 1, r =>
    if nm.sz ≤ frm + i then .throw (.rangeError "subscript out of bounds") r
    else (r.assign i (nm.names.v.getD (frm + i) ZString.empty)).bind fun _ r =>
      subsetNames nm frm (i + 1) k r

/-- `subsetRows(n, from)`; the sum is a `size_t`. -/
def subsetRows (heap : Allocator) (n frm : Nat) (a : Array T) : Outcome Exn Unit (Array T) :=
  match a.dim.v with
  | [] => .fault
  | d :: _ =>
    let upto := wrap (frm + n)
    if d.toNat < upto then .throw (.rangeError "range out of bounds") ()
    else
      (a.dim.copy (some heap)).bind fun aDim _ =>
        match Vector.setv lessIdx 0 (UInt64.ofNat n) aDim with
        | .fault => .fault
        | .throw e _ => .throw e ()
        | .ok _ aDim =>
          (ofRsv aDim [] (memFactory heap)).bind fun r _ =>
            (subsetCols O (upto - frm) frm a.v r.v).bind fun v _ =>
              match a.names, r.names with
              | [], _ => .throw (.outOfRange "name index out of bound") ()
              | _ :: _, [] => .fault
              | nm :: nms, rnm :: _ =>
                match if nm.hasNames then subsetNames nm frm 0 (upto - frm) rnm
                  else .ok () rnm with
                | .fault => .fault
                | .throw e _ => .throw e ()
                | .ok _ rnm =>
                  (Outcome.collect (nms.map fun nm => nm.copy heap)).bind fun rnms _ =>
                    .ok { r with v, names := rnm :: rnms } ()

/-! ## `appendVector` -/

/-- The elements of a `Vector<T>` over a buffer, where they all are in memory. -/
def viewElts (T : Type) [Raw T] (mem : List UInt8) (n : Nat) : Option (List T) :=
  if sizeofRawVector + n * Flat.width T ≤ mem.length then
    some (Flat.decode n (slice sizeofRawVector (n * Flat.width T) mem))
  else none

/-- The elements `data` in pieces of `nrows`, one for each column. -/
def spread (nrows : Nat) : List T → List (Vector T) → Outcome Exn (List (Vector T)) Unit
  | _, [] => .ok () []
  | data, c :: cs =>
    match c.pushAll O (data.take nrows) with
    | .ok _ c' => (spread nrows (data.drop nrows) cs).mapState (c' :: ·)
    | .throw e c' => .throw e (c' :: cs)
    | .fault => .fault

/-- `appendVector(buf, buflen)`: the length is not looked at. -/
def appendVector (heap : Allocator) (mem : List UInt8) (a : Array T) :
    Outcome Exn (Array T) Unit :=
  if a.v = [] then .throw (.outOfRange "appendVector on null array not implemented") a
  else
    match viewSize mem with
    | none => .fault
    | some n =>
      if n % a.v.length ≠ 0 then .throw (.outOfRange "appendVector: incorrect vector size") a
      else
        match viewElts T mem n with
        | none => .fault
        | some data =>
          let nrows := n / a.v.length
          ((spread O nrows data a.v).mapState fun v => { a with v }).bind fun _ a =>
            (a.onName 0 (Dname.addrows heap nrows)).bind fun _ a =>
              a.setDim 0 (· + UInt64.ofNat nrows)

/-- `operator[](i)`, the array as one column vector. -/
def elem (i : Nat) (a : Array T) : Outcome Exn Unit T :=
  match a.dim.v with
  | [] => .fault
  | d :: _ =>
    if d = 0 then .throw (.rangeError "subscript out of bounds") ()
    else
      match a.v[i / d.toNat]? with
      | none => .throw (.rangeError "subscript out of bounds") ()
      | some c =>
        match c.v[i % d.toNat]? with
        | some x => .ok x ()
        | none => if c.size = 0 then .fault else .throw (.outOfRange "subscript out of bounds") ()

end Array

namespace zts

/-! ## Series -/

/-- The index goes back to the rows of the data, then the exception. -/
def rollback (heap : Allocator) (e : Exn) (z : zts) : Outcome Exn zts Unit :=
  ((z.idx.resize dtime.less heap z.a.nrows 0).mapState fun idx => { z with idx }).bind
    fun _ z => .throw e z

/-- The times of a buffer, `k` of them from number `j` on, one by one behind the index. -/
def pushTimes (heap : Allocator) (mem : List UInt8) : Nat → Nat → zts → Outcome Exn zts Unit
  | _, 0, z => .ok () z
  | j, k + 1, z =>
    match viewElt mem j with
    | none => .fault
    | some w =>
      let e : dtime := ⟨(UInt64.ofNat w).toInt64⟩
      let late : Outcome Exn Unit Bool :=
        if z.idx.size = 0 then .ok false ()
        else (z.idx.elem (z.idx.size - 1)).bind fun last _ => .ok (!dtime.less last e) ()
      match late with
      | .fault => .fault
      | .throw e _ => .throw e z
      | .ok true _ => rollback heap (.outOfRange "append index not ascending") z
      | .ok false _ =>
        ((z.idx.concatOne dtime.less heap e ZString.empty).mapState
          fun idx => { z with idx }).bind fun _ z => pushTimes heap mem (j + 1) k z

/-- `appendVector(buf, buflen)`: the length is not looked at. -/
def appendVector (heap : Allocator) (mem : List UInt8) (z : zts) : Outcome Exn zts Unit :=
  if z.a.dim.size = 0 then
    .throw (.outOfRange "append vector on null zts not implemented") z
  else
    match viewSize mem with
    | none => .fault
    | some k =>
      if k = 0 then
        .throw (.outOfRange "arr::zts::appendVector: time vector has size 0") z
      else
        (pushTimes heap mem 0 k z).bind fun _ z =>
          let data := mem.drop (wrap (sizeofRawVector + wrap (k * Flat.width dtime)))
          match viewSize data with
          | none => .fault
          | some n =>
            if n % k ≠ 0 then
              rollback heap (.outOfRange "mismatch between index and data") z
            else if z.a.v = [] then .fault
            else if n / z.a.v.length ≠ k then
              rollback heap (.outOfRange "size mismatch between idx and array") z
            else
              ((z.a.appendVector Double.less heap data).mapState
                fun a => { z with a }).tryCatch fun e z => rollback heap e z

/-- `resize(d, sz, from)`: the rows, whatever `d` is. -/
def resize (heap : Allocator) (sz frm : Nat) (z : zts) : Outcome Exn zts Unit :=
  ((z.idx.resize dtime.less heap sz frm).mapState fun idx => { z with idx }).bind fun _ z =>
    (z.a.resize Double.less heap sz frm).mapState fun a => { z with a }

/-- `subsetRows(from, to)`: the two are taken for the count and the first row. -/
def subsetRows (heap : Allocator) (frm upto : Nat) (z : zts) : Outcome Exn Unit zts :=
  (z.idx.subsetRows dtime.less heap frm upto).bind fun idx _ =>
    (z.a.subsetRows Double.less heap frm upto).bind fun a _ =>
      ofArrays idx a (memFactory heap) (memFactory heap)

/-- `abind(z, d, prefix)` with another series. -/
def abind (heap : Allocator) (u : zts) (d : Nat) (pre : List UInt8) (z : zts) :
    Outcome Exn zts Unit :=
  (if d = 0 then
      -- if binding vertically, also bind the index
      (Array.concat dtime.less heap u.idx [] z.idx).mapState fun idx => { z with idx }
    else .ok () z).bind fun _ z =>
    (Array.abind Double.less heap u.a d pre z.a).mapState fun a => { z with a }

/-- `abind(z, d, prefix)` with the series itself. -/
def abindSelf (heap : Allocator) (d : Nat) (z : zts) : Outcome Exn zts Unit :=
  (if d = 0 then
      (Array.concat dtime.less heap z.idx [] z.idx).mapState fun idx => { z with idx }
    else .ok () z).bind fun _ z => .throw (.rangeError "cannot bind to self.") z

/-- `abind(u, d, prefix)` with an array. -/
def abindArray (heap : Allocator) (u : Array Double) (d : Nat) (pre : List UInt8) (z : zts) :
    Outcome Exn zts Unit :=
  if d = 0 then
    .throw (.rangeError "can't bind an array to a zts in first dimension") z
  else (Array.abind Double.less heap u d pre z.a).mapState fun a => { z with a }

end zts

end Ztsdb.Arr
