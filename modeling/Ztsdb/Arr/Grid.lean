import Mathlib
import Ztsdb.Arr.Index
import Ztsdb.Arr.Elements

/-!
# Subsets of arrays

What an array holds, apart from where it holds it: the extents, one list for each column,
and the names of each dimension. `subset` is the indexing operator: one index for each
dimension, the columns in the order of an odometer over the indices of the dimensions after
the first. With a single index an array of more dimensions is taken as the vector of its
elements, and the index goes on from one column to the next.

That columns are vectors which have to grow plays no part here; a place where the source
reads or writes outside what it holds is a fault, and so is a loop that does not end.
-/

namespace Ztsdb.Arr

open Ztsdb.Lib

/-- What a `Dname` holds: an extent, and a name for each place or none at all. -/
structure Names where
  sz : Nat
  names : List ZString
  deriving DecidableEq

namespace Names

/-- `Dname(n)`. -/
def ofExtent (n : Nat) : Names := ⟨n, []⟩

/-- `addafter(s)`. -/
def addafter (d : Names) (s : ZString) : Names :=
  if s = ZString.empty ∧ d.names.length = 0 then { d with sz := d.sz + 1 }
  else
    { sz := d.sz + 1
      names := (if d.names.length = 0 then List.replicate d.sz ZString.empty else d.names) ++ [s] }

/-- `operator[](n)`: no name is the empty one. -/
def get (d : Names) (n : Nat) : Except Exn ZString :=
  if d.sz ≤ n then .error (.rangeError "subscript out of bounds")
  else if d.names.length = 0 then .ok ZString.empty
  else match d.names[n]? with
    | some s => .ok s
    | none => .error (.outOfRange "subscript out of bounds")

/-- `tonames.addafter(fromnames.names[j])`. -/
def copyAt (j : Nat) (fromnames tonames : Names) : Except Exn Names :=
  if fromnames.sz ≤ j then .error (.rangeError "subscript out of bounds")
  else match fromnames.names[j]? with
    | some s => .ok (tonames.addafter s)
    | none => .error (.outOfRange "subscript out of bounds")

end Names

/-! ## What the indices do with the columns of an array, and with names -/

namespace NullIndex

def selectNames (_ : NullIndex) (_ fromnames : Names) : Except Exn Names := .ok fromnames

end NullIndex

namespace IntIndex

/-- The loop over the columns: from place `ii` on, `vi` listed, the first position of the
column is `pos`. -/
def subsetColLoop {T : Type} (v : List T) (pos : Nat) :
    Nat → List Nat → List T → Except Exn (List T × Nat)
  | ii, [], rv => .ok (rv, ii)
  | ii, x :: vi, rv =>
    -- if no index falls inside the extent of v, then return
    if x < pos ∨ v.length + pos ≤ x then .ok (rv, ii)
    else (pushAt v (x - pos) rv).bind (subsetColLoop v pos (ii + 1) vi)

def subsetCol {T : Type} (idx : IntIndex) (rv v : List T) (c : IdxPos) (pos : Nat) :
    Except Exn (List T × IdxPos) :=
  (subsetColLoop v pos c.i (idx.vi.drop c.i) rv).map fun p => (p.1, { c with i := p.2 })

/-- The loop of `selectNames`. -/
def selectLoop (fromnames : Names) : List Nat → Names → Except Exn Names
  | [], tonames => .ok tonames
  | j :: vi, tonames => (fromnames.copyAt j tonames).bind (selectLoop fromnames vi)

def selectNames (idx : IntIndex) (tonames fromnames : Names) : Except Exn Names :=
  if fromnames.names.length > 0 then selectLoop fromnames idx.vi tonames
  else .ok (.ofExtent idx.vi.length)

end IntIndex

namespace IntIndexNeg

/-- The loop over the columns: `k` positions from `iv` on, `vi` listed from place `ii` on. -/
def subsetColLoop {T : Type} (v : List T) (pos : Nat) :
    Nat → Nat → Nat → List Nat → List T → Except Exn (List T × IdxPos)
  | 0, iv, ii, _, rv => .ok (rv, ⟨iv, ii⟩)
  | k + 1, iv, ii, vi, rv =>
    if pos + v.length ≤ iv then .ok (rv, ⟨iv, ii⟩)
    else if vi.head? = some iv then subsetColLoop v pos k (iv + 1) (ii + 1) vi.tail rv
    else (pushAt v (iv - pos) rv).bind (subsetColLoop v pos k (iv + 1) ii vi)

def subsetCol {T : Type} (idx : IntIndexNeg) (rv v : List T) (c : IdxPos) (pos : Nat) :
    Except Exn (List T × IdxPos) :=
  subsetColLoop v pos (idx.sz - c.val) c.val c.i (idx.vi.drop c.i) rv

/-- The loop of `selectNames`: `k` positions from `j` on. -/
def selectLoop (fromnames : Names) : Nat → Nat → List Nat → Names → Except Exn Names
  | 0, _, _, tonames => .ok tonames
  | k + 1, j, vi, tonames =>
    if fromnames.sz ≤ j then .error (.rangeError "subscript out of bounds")
    else if vi.head? = some j then selectLoop fromnames k (j + 1) vi.tail tonames
    else (fromnames.copyAt j tonames).bind (selectLoop fromnames k (j + 1) vi)

def selectNames (idx : IntIndexNeg) (tonames fromnames : Names) : Except Exn Names :=
  if fromnames.names.length > 0 then selectLoop fromnames idx.sz 0 idx.vi tonames
  else .ok (.ofExtent idx.size)

end IntIndexNeg

namespace BoolIndex

/-- The loop over the columns: the elements of the column, and the truth values from place
`ii` on. -/
def subsetColLoop {T : Type} : List T → Nat → List Bool → List T → Except Exn (List T × Nat)
  | [], ii, _, rv => .ok (rv, ii)
  | _ :: _, _, [], _ => .error (.rangeError "subscript out of bounds")
  | x :: v, ii, b :: vb, rv => subsetColLoop v (ii + 1) vb (if b then rv ++ [x] else rv)

def subsetCol {T : Type} (idx : BoolIndex) (rv v : List T) (c : IdxPos) (_pos : Nat) :
    Except Exn (List T × IdxPos) :=
  (subsetColLoop v c.i (idx.vb.drop c.i) rv).map fun p => (p.1, { c with i := p.2 })

/-- The loop of `selectNames`, from position `j` on. -/
def selectLoop (fromnames : Names) : Nat → List Bool → Names → Except Exn Names
  | _, [], tonames => .ok tonames
  | j, b :: vb, tonames =>
    if b then (fromnames.copyAt j tonames).bind (selectLoop fromnames (j + 1) vb)
    else selectLoop fromnames (j + 1) vb tonames

def selectNames (idx : BoolIndex) (tonames fromnames : Names) : Except Exn Names :=
  if fromnames.names.length > 0 then selectLoop fromnames 0 idx.vb tonames
  else .ok (.ofExtent idx.size)

end BoolIndex

namespace Index

/-- `subset(rv, v, ii, iv, pos)`, with `ii` and `iv` in the cursor. -/
def subsetCol {T : Type} : Index → List T → List T → IdxPos → Nat → Except Exn (List T × IdxPos)
  | .null idx, rv, v, c, _ => (idx.subset rv v).map fun r => (r, c)
  | .int idx, rv, v, c, pos => idx.subsetCol rv v c pos
  | .intNeg idx, rv, v, c, pos => idx.subsetCol rv v c pos
  | .bool idx, rv, v, c, pos => idx.subsetCol rv v c pos

def selectNames : Index → Names → Names → Except Exn Names
  | .null idx => idx.selectNames
  | .int idx => idx.selectNames
  | .intNeg idx => idx.selectNames
  | .bool idx => idx.selectNames

/-! ## The odometer -/

/-- The column at the cursors, `mul` columns for each step of the first of them. -/
def column : Nat → Nat → List Nat → List IdxPos → Except Exn Nat
  | mul, col, d :: dim, c :: val =>
    if d ≤ c.val then .error (.rangeError "subscript out of bounds")
    else column (mul * d) (col + c.val * mul) dim val
  | _, col, _, _ => .ok col

/-- `getfirst` of each index, unless one has no position. -/
def firsts : List Index → Option (List IdxPos)
  | [] => some []
  | i :: is =>
    match Indexing.getfirst i ⟨0, 0⟩ with
    | (true, c) => (firsts is).map (c :: ·)
    | (false, _) => none

/-- `getnext` of the first index that has a next position; those before it start again. -/
def nexts : List Index → List IdxPos → Option (List IdxPos)
  | i :: is, c :: cs =>
    match Indexing.getnext i c with
    | (true, c') => some (c' :: cs)
    | (false, c') => (nexts is cs).map (c' :: ·)
  | _, _ => none

/-- The column that an odometer shows, with its cursors. -/
def shown (dim : List Nat) : Option (List IdxPos) → Except Exn (Option (Nat × List IdxPos))
  | none => .ok none
  | some cs => (column 1 0 dim cs).map fun col => some (col, cs)

def getfirstcol (is : List Index) (dim : List Nat) : Except Exn (Option (Nat × List IdxPos)) :=
  shown dim (firsts is)

def getnextcol (is : List Index) (dim : List Nat) (cs : List IdxPos) :
    Except Exn (Option (Nat × List IdxPos)) := shown dim (nexts is cs)

end Index

/-- What throws, as an outcome. -/
def thrown {α : Type} : Except Exn α → Outcome Exn Unit α
  | .ok a => .ok a ()
  | .error e => .throw e ()

/-- The loop over the columns of the odometer, `fuel` of them at most. -/
def eachCol {σ : Type} (is : List Index) (dim : List Nat) (body : Nat → σ → Outcome Exn Unit σ) :
    Nat → Option (Nat × List IdxPos) → σ → Outcome Exn Unit σ
  | 0, _, _ => .fault
  | _ + 1, none, s => .ok s ()
  | fuel + 1, some (col, cs), s =>
    (body col s).bind fun s _ =>
      (thrown (Index.getnextcol is dim cs)).bind fun r _ => eachCol is dim body fuel r s

/-! ## Arrays -/

structure Grid (T : Type) where
  dim : List Nat
  v : List (List T)
  names : List Names

namespace Grid

variable {T : Type}

/-- The loop of the operator with a single index, over the columns from position `pos` on. -/
def subsetOneLoop (i : Index) (dim0 : Nat) : List (List T) → List T → IdxPos → Nat →
    Except Exn (List T)
  | [], rv, _, _ => .ok rv
  | v :: vs, rv, c, pos =>
    (i.subsetCol rv v c pos).bind fun p => subsetOneLoop i dim0 vs p.1 p.2 (pos + dim0)

/-- An array as a vector, with one index. -/
def subsetOne (i : Index) (a : Grid T) : Outcome Exn Unit (Grid T) :=
  (thrown (subsetOneLoop i (a.dim.headD 0) a.v [] ⟨0, 0⟩ 0)).bind fun rv _ =>
    .ok ⟨[rv.length], [rv], [.ofExtent rv.length]⟩ ()

/-- The extents without those that are dropped. -/
def dropDims (drop : Bool) (dropfirst : Nat) (rdim : List Nat) : List Nat :=
  if drop = true ∧ dropfirst < rdim.length then
    let kept := rdim.take dropfirst ++ (rdim.drop dropfirst).filter (· ≠ 1)
    if kept = [] then [1] else kept
  else rdim

/-- `(*v[col])[uidx]` goes to the column of the result that is being filled. -/
def pushElt (v : List (List T)) (uidx rows col : Nat) :
    List (List T) × Nat → Outcome Exn Unit (List (List T) × Nat)
  | (rv, rcol) =>
    match v[col]? with
    | none => .throw (.rangeError "subscript out of bounds") ()
    | some vc =>
      match vc[uidx]? with
      | none => .throw (.outOfRange "subscript out of bounds") ()
      | some x =>
        match rv[rcol]? with
        | none => .fault
        | some rc =>
          .ok (rv.set rcol (rc ++ [x]), if rc.length + 1 = rows then rcol + 1 else rcol) ()

/-- The subset of a column is a column of the result. -/
def pushCol (v : List (List T)) (i0 : Index) (col : Nat) :
    List (List T) × Nat → Outcome Exn Unit (List (List T) × Nat)
  | (rv, rcol) =>
    match v[col]? with
    | none => .fault
    | some c =>
      match rv[rcol]? with
      | none => .fault
      | some rc => (thrown (i0.subset rc c)).bind fun rc _ => .ok (rv.set rcol rc, rcol + 1) ()

/-- Indices that do not know their size: the extent is corrected. -/
def correctDim (drop : Bool) (dropfirst : Nat) (rdim : List Nat) (rv : List (List T)) :
    Except Exn (List Nat) :=
  match rv, rdim with
  | c :: _, r :: rs =>
    if c.length = r then .ok rdim
    else if drop = true ∧ dropfirst = 0 ∧ c.length = 1 ∧ rv.length ≠ 1 then
      .error (.rangeError "resize first dim to 1 not implemented")
    else .ok (c.length :: rs)
  | _, _ => .ok rdim

/-- Dimension `j` of extent `r` is dropped. -/
def dropped (drop : Bool) (dropfirst : Nat) (rdim : List Nat) (j r : Nat) : Bool :=
  let scalarResult := decide (rdim = [1])
  (decide (j = 0) && drop && decide (dropfirst = 0) && decide (r = 1) && !scalarResult) ||
    (decide (0 < j) && drop && decide (dropfirst ≤ j) && decide (r = 1))

/-- The names of the dimensions from `j` on that are not dropped; `rds` are the extents of the
result that are left. -/
def resultNames (drop : Bool) (dropfirst : Nat) (rdim : List Nat) :
    Nat → List Index → List Names → List Nat → List Nat → Outcome Exn Unit (List Names)
  | j, i :: is, n :: ns, r :: rs, rds =>
    if dropped drop dropfirst rdim j r then
      resultNames drop dropfirst rdim (j + 1) is ns rs rds
    else
      (if n.names.length > 0 then thrown (i.selectNames (.ofExtent 0) n)
        else match rds with
          | [] => .throw (.outOfRange "subscript out of bounds") ()
          | d :: _ => .ok (.ofExtent d) ()).bind fun nm _ =>
        (resultNames drop dropfirst rdim (j + 1) is ns rs rds.tail).bind fun nms _ =>
          .ok (nm :: nms) ()
  | _, _, _, _, _ => .ok [] ()

/-- What is run when there is an index for each dimension. -/
def subsetAll (is : List Index) (drop : Bool) (dropfirst : Nat) (a : Grid T) :
    Outcome Exn Unit (Grid T) :=
  let rdimUndropped := is.map Indexing.size
  let rdim := dropDims drop dropfirst rdimUndropped
  let rncols := if rdim.length = 1 then 1 else rdim.tail.prod
  let rv : List (List T) := List.replicate rncols []
  let fuel := rdimUndropped.tail.prod + 1
  match is, a.dim with
  | i0 :: rest, d0 :: dim =>
    (if drop = true ∧ dropfirst = 0 ∧ Indexing.size i0 = 1 then
      match Indexing.getfirst i0 ⟨0, 0⟩ with
      | (false, _) => .throw (.rangeError "failed getfirst on dim[0] = 1") ()
      | (true, c) =>
        if d0 ≤ c.val then .throw (.rangeError "subscript out of bounds") ()
        else
          (thrown (Index.getfirstcol rest dim)).bind fun r _ =>
            (eachCol rest dim (pushElt a.v c.val (rdim.headD 0)) fuel r (rv, 0)).bind fun s _ =>
              .ok (s.1, rdim) ()
    else
      (thrown (Index.getfirstcol rest dim)).bind fun r _ =>
        (eachCol rest dim (pushCol a.v i0) fuel r (rv, 0)).bind fun s _ =>
          (thrown (correctDim drop dropfirst rdim s.1)).bind fun rdim _ =>
            .ok (s.1, rdim) ()).bind fun p _ =>
      (resultNames drop dropfirst p.2 0 is a.names rdimUndropped p.2).bind fun rnames _ =>
        .ok ⟨p.2, p.1, rnames⟩ ()
  | _, _ => .fault

/-- `operator()(vector<INDEX>, drop, dropfirst)`. -/
def subset (is : List Index) (drop : Bool) (dropfirst : Nat) (a : Grid T) :
    Outcome Exn Unit (Grid T) :=
  match is with
  | [i] =>
    if 1 < a.dim.length then subsetOne i a
    else if a.dim.length ≠ 1 then .throw (.rangeError "incorrect number of dimensions") ()
    else subsetAll [i] drop dropfirst a
  | _ =>
    if is.length ≠ a.dim.length then
      .throw (.rangeError "incorrect number of dimensions") ()
    else subsetAll is drop dropfirst a

/-- The columns and the names are as the extents say. -/
structure WellFormed (a : Grid T) : Prop where
  ne : a.dim ≠ []
  cols : a.v.length = a.dim.tail.prod
  rows : ∀ c ∈ a.v, c.length = a.dim.headD 0
  recs : a.names.map Names.sz = a.dim
  named : ∀ n ∈ a.names, n.names = [] ∨ n.names.length = n.sz

/-- The vector of the elements, column after column. -/
def asVector (a : Grid T) : Grid T :=
  ⟨[a.v.flatten.length], [a.v.flatten], [.ofExtent a.v.flatten.length]⟩

end Grid

end Ztsdb.Arr
