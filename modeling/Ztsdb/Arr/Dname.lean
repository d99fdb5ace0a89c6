import Mathlib
import Ztsdb.Arr.Vector
import Ztsdb.Arr.Elements

/-!
# Dimension names

A `Dname` is the extent of a dimension and, when it has names, one name for each
place; without names its vector of names is empty. The map from names back to
places is left out: nothing here looks a name up.

`heap` is the allocator that temporaries come from.
-/

namespace Ztsdb.Arr

open Ztsdb.Lib

structure Dname where
  sz : Nat
  names : Vector ZString

namespace Dname

def hasNames (d : Dname) : Bool := decide (d.sz ≠ 0 ∧ d.sz = d.names.size)

/-- `Dname(n)`: an extent without names. -/
def ofExtent (heap : Allocator) (n : Nat) : Outcome Exn Unit Dname :=
  match Vector.ofFill ZString.less 0 ZString.empty (some heap) with
  | .ok names _ => .ok { sz := n, names } ()
  | .throw e _ => .throw e ()
  | .fault => .fault

/-- `std::vector<zstring>(n, "")`. -/
def nostrings (heap : Allocator) (n : Nat) : Except Exn (List ZString) :=
  if (2 ^ 63 - 1) / STRING_SIZE < n then
    .error (.lengthError "cannot create std::vector larger than max_size()")
  else if n = 0 ∨ heap.grant 0 (n * STRING_SIZE) then
    .ok (List.replicate n ZString.empty)
  else .error .badAlloc

/-- `addafter(dn)`: when either side has names, the other gets empty ones. -/
def addafter (heap : Allocator) (dn d : Dname) : Outcome Exn Dname Unit :=
  let names : Outcome Exn (Vector ZString) Unit :=
    if d.names.size = 0 then
      if dn.names.size = 0 then .ok () d.names
      else (d.names.init ZString.less d.sz ZString.empty).bind fun _ names =>
        names.insertEnd ZString.less dn.names.v
    else if dn.names.size = 0 then
      match nostrings heap dn.sz with
      | .ok nostrings => d.names.insertEnd ZString.less nostrings
      | .error e => .throw e d.names
    else d.names.insertEnd ZString.less dn.names.v
  (names.mapState fun names => { d with names }).bind fun _ d' =>
    .ok () { d' with sz := wrap (d.sz + dn.sz) }

/-- `Dname(n, names)`. -/
def ofNames (n : Nat) (names : Vector ZString) : Outcome Exn Unit Dname :=
  if names.size ≠ 0 ∧ names.size ≠ n then
    .throw (.rangeError "length of 'dimnames' not equal to array extent") ()
  else .ok { sz := n, names } ()

/-- A copy, with the names in memory of `alloc`. -/
def copy (alloc : Allocator) (d : Dname) : Outcome Exn Unit Dname :=
  (d.names.copy (some alloc)).bind fun names _ => .ok { d with names } ()

/-- `addafter(s)`. -/
def addname (s : ZString) (d : Dname) : Outcome Exn Dname Unit :=
  if s = ZString.empty ∧ d.names.size = 0 then .ok () { d with sz := wrap (d.sz + 1) }
  else
    let names : Outcome Exn (Vector ZString) Unit :=
      if d.names.size = 0 then d.names.init ZString.less d.sz ZString.empty else .ok () d.names
    ((names.bind fun _ names => names.push_back ZString.less s).mapState
      fun names => { d with names }).bind fun _ d' => .ok () { d' with sz := wrap (d.sz + 1) }

/-- `assign(i, s)`. -/
def assign (i : Nat) (s : ZString) (d : Dname) : Outcome Exn Dname Unit :=
  if d.sz ≤ i then .throw (.rangeError "index out of bound") d
  else if s = ZString.empty ∧ d.names.size = 0 then .ok () d
  else
    let names : Outcome Exn (Vector ZString) Unit :=
      if d.hasNames then
        (Vector.setv ZString.less i s d.names).bind fun _ names =>
          if names.v.all (fun s => s.chars.isEmpty) then names.resize 0 0 else .ok () names
      else (d.names.init ZString.less d.sz ZString.empty).bind fun _ names =>
        Vector.setv ZString.less i s names
    names.mapState fun names => { d with names }

/-- The digits of `std::to_string`. -/
def digits (n : Nat) : List UInt8 := (Nat.toDigits 10 n).map fun c => UInt8.ofNat c.toNat

/-- The name in place `i` of `k` under a prefix. -/
def prefixed (pre : List UInt8) (k i : Nat) (s : ZString) : ZString :=
  if s ≠ ZString.empty then ZString.ofString (pre ++ 46 :: s.chars)
  else if k = 1 then ZString.ofString pre
  else ZString.ofString (pre ++ digits (i + 1))

/-- The loop of `addprefix`: the last `k` names. -/
def prefixFrom (pre : List UInt8) : Nat → Vector ZString → Outcome Exn (Vector ZString) Unit
  | 0, names => .ok () names
  | k + 1, names =>
    let i := names.size - (k + 1)
    match names.v[i]? with
    | some s =>
      (Vector.setv ZString.less i (prefixed pre names.size i s) names).bind fun _ names =>
        prefixFrom pre k names
    | none => .fault

/-- `addprefix(prefix)`. -/
def addprefix (pre : List UInt8) (d : Dname) : Outcome Exn Dname Unit :=
  if pre = [] then .ok () d
  else
    let names : Outcome Exn (Vector ZString) Unit :=
      if d.sz ≠ d.names.size then d.names.init ZString.less d.sz ZString.empty else .ok () d.names
    (names.bind fun _ names => prefixFrom pre names.size names).mapState
      fun names => { d with names }

/-- `addafter(Dname(n))`. -/
def addrows (heap : Allocator) (n : Nat) (d : Dname) : Outcome Exn Dname Unit :=
  match ofExtent heap n with
  | .ok dn _ => addafter heap dn d
  | .throw e _ => .throw e d
  | .fault => .fault

/-- `resize(n, from)`. Names that are all empty are dropped. -/
def resize (n frm : Nat) (d : Dname) : Outcome Exn Dname Unit :=
  if d.names.size = 0 then .ok () { d with sz := n }
  else
    ((d.names.resizeFill n frm ZString.empty).bind fun _ names =>
      if names.v.all (fun s => s.chars.isEmpty) then names.resize 0 0
      else .ok () names).mapState fun names => { sz := n, names }

end Dname

end Ztsdb.Arr
