import Mathlib
import Ztsdb.Arr.AssignTrace
import Ztsdb.Arr.NameMap
import Ztsdb.Arr.Odometer
import Ztsdb.Arr.Subassign
import Ztsdb.Arr.TimeIndex
import Ztsdb.Arr.ZtsRollback

/-!
# Sub-assignment to arrays

`a[i, j, ...] <- u` checks the number of indices and, for an array of replacements, their
number against the sizes of the indices. Everything else is found out while it writes: that
a position or a column is out of range, that a dimension has no such name, that the cursor of
an index comes to more places than the index counts.

The model follows the loops of the source, one over the columns that the cursors of the
dimensions after the first come to, and one in each column over the cursor of the first. The
trace of an assignment is what they do, without the contents of the array.
-/

namespace Ztsdb.Arr

open Ztsdb.Lib

/-! ## Indices of all types -/

/-- `NameIndex`. -/
structure NameIndex where
  vs : List (List UInt8)
  names : NameRecord

namespace NameIndex

def getfirst (idx : NameIndex) (c : IdxPos) : Except Exn (Bool × IdxPos) :=
  match idx.vs with
  | [] => .ok (false, c)
  | s :: _ => (idx.names.get s).map fun p => (true, ⟨p, 0⟩)

def getnext (idx : NameIndex) (c : IdxPos) : Except Exn (Bool × IdxPos) :=
  match idx.vs[c.i + 1]? with
  | some s => (idx.names.get s).map fun p => (true, ⟨p, c.i + 1⟩)
  | none => (idx.getfirst ⟨c.val, c.i + 1⟩).map fun p => (false, p.2)

def trueSize (idx : NameIndex) : Nat := idx.vs.length

end NameIndex

/-- The variant of all types of indices; `T` has the times. -/
inductive VIdx (T : Type) [LinearOrder T] where
  | null (idx : NullIndex)
  | int (idx : IntIndex_T)
  | intNeg (idx : IntIndexNeg)
  | name (idx : NameIndex)
  | bool (idx : BoolIndex)
  | dtime (d : DtimeIndex T)
  | interval (d : IntervalIndex T)

namespace VIdx

variable {T : Type} [LinearOrder T]

def getfirst : VIdx T → IdxPos → Except Exn (Bool × IdxPos)
  | .null idx, c => .ok (idx.getfirst c)
  | .int idx, c => .ok (idx.getfirst c)
  | .intNeg idx, c => .ok (idx.getfirst c)
  | .name idx, c => idx.getfirst c
  | .bool idx, c => .ok (idx.getfirst c)
  | .dtime d, c => .ok (d.getfirst c)
  | .interval d, c => .ok (d.getfirst c)

def getnext : VIdx T → IdxPos → Except Exn (Bool × IdxPos)
  | .null idx, c => .ok (idx.getnext c)
  | .int idx, c => .ok (idx.getnext c)
  | .intNeg idx, c => .ok (idx.getnext c)
  | .name idx, c => idx.getnext c
  | .bool idx, c => .ok (idx.getnext c)
  | .dtime d, c => .ok (d.getnext c)
  | .interval d, c => .ok (d.getnext c)

def trueSize : VIdx T → Nat
  | .null idx => idx.trueSize
  | .int idx => idx.trueSize
  | .intNeg idx => idx.trueSize
  | .name idx => idx.trueSize
  | .bool idx => idx.trueSize
  | .dtime d => d.trueSize
  | .interval d => d.trueSize

/-- The positions that an index stands for. -/
def Selects : VIdx T → Nat → Prop
  | .null idx, p => p < idx.sz
  | .int idx, p => p ∈ idx.vi
  | .intNeg idx, p => p < idx.sz ∧ p ∉ idx.vi
  | .name idx, p => ∃ s ∈ idx.vs, idx.names.get s = .ok p
  | .bool idx, p => idx.vb[p]? = some true
  | .dtime d, p => ∃ t ∈ d.idx, d.vd[p]? = some t
  | .interval d, p => ∃ x ∈ d.idx, ∃ t, d.vi[p]? = some t ∧ x.Has t

/-! ## The odometer -/

/-- `getfirst` of each index, unless one has no position. -/
def firsts : List (VIdx T) → Except Exn (Option (List IdxPos))
  | [] => .ok (some [])
  | i :: is =>
    match i.getfirst ⟨0, 0⟩ with
    | .error e => .error e
    | .ok (true, c) => (firsts is).map (Option.map (c :: ·))
    | .ok (false, _) => .ok none

/-- `getnext` of the first index that has a next position. -/
def nexts : List (VIdx T) → List IdxPos → Except Exn (Option (List IdxPos))
  | i :: is, c :: cs =>
    match i.getnext c with
    | .error e => .error e
    | .ok (true, c') => .ok (some (c' :: cs))
    | .ok (false, c') => (nexts is cs).map (Option.map (c' :: ·))
  | _, _ => .ok none

def getfirstcol (is : List (VIdx T)) (dim : List Nat) :
    Except Exn (Option (Nat × List IdxPos)) := (firsts is).bind (Index.shown dim)

def getnextcol (is : List (VIdx T)) (dim : List Nat) (cs : List IdxPos) :
    Except Exn (Option (Nat × List IdxPos)) := (nexts is cs).bind (Index.shown dim)

end VIdx

/-! ## One column -/

section Column

variable {T E : Type} [LinearOrder T] (O : E → E → Bool) (src : Nat → Option E)

/-- One write of an assignment: replacement `place` goes to `pos`. -/
def assignOne (checkbefore : Bool) (pos place : Nat) (rv : Vector E) :
    Outcome Exn (Vector E) Unit :=
  match src place with
  | none => .throw (.outOfRange "subscript out of bounds") rv
  | some x => if checkbefore then rv.setv_checkbefore O pos x else rv.setv O pos x

/-- The loop of `NullIndex`: `k` elements from place `j` on. -/
def NullIndex.assignLoop (checkbefore : Bool) : Nat → Nat → Nat → Vector E →
    Outcome Exn (Vector E) Nat
  | 0, _, vj, rv => .ok vj rv
  | k + 1, j, vj, rv =>
    (assignOne O src checkbefore j vj rv).bind fun _ rv =>
      assignLoop checkbefore k (j + 1) (vj + 1) rv

/-- The loop of `IntIndex_T`, over its two vectors. -/
def IntIndex_T.assignLoop (vj : Nat) : List Nat → List Nat → Vector E →
    Outcome Exn (Vector E) Unit
  | p :: vidx, q :: uidx, rv =>
    (assignOne O src (decide (vidx.head? = some (p + 1))) p (vj + q) rv).bind fun _ rv =>
      assignLoop vj vidx uidx rv
  | _, _, rv => .ok () rv

/-- The loop of `subassign_generic`: position `j` is written when the next one is known, the
difference of the two being taken without a sign. -/
def genericLoop (idx : VIdx T) : Nat → Nat → IdxPos → Nat → Vector E → Outcome Exn (Vector E) Nat
  | 0, _, _, _, _ => .fault
  | n + 1, j, c, vj, rv =>
    match idx.getnext c with
    | .error e => .throw e rv
    | .ok (true, c') =>
      (assignOne O src (decide (c'.val = j) || decide (c'.val = j + 1)) j vj rv).bind fun _ rv =>
        genericLoop idx n c'.val c' (vj + 1) rv
    | .ok (false, _) =>
      (assignOne O src false j vj rv).bind fun _ rv => .ok (vj + 1) rv

/-- `subassign_generic`, with `n` rounds of its loop at most. -/
def subassign_generic (n : Nat) (idx : VIdx T) (vj : Nat) (rv : Vector E) :
    Outcome Exn (Vector E) Nat :=
  match idx.getfirst ⟨0, 0⟩ with
  | .error e => .throw e rv
  | .ok (false, _) => .ok vj rv
  | .ok (true, c) => genericLoop O src idx n c.val c vj rv

/-- `subassign` and `subassignScalar` of an index. They differ in the check that `NullIndex`
makes, and in what takes the place of the replacements. -/
def VIdx.assign (scalar : Bool) (n : Nat) (vj : Nat) (rv : Vector E) :
    VIdx T → Outcome Exn (Vector E) Nat
  | .null _ => NullIndex.assignLoop O src (!scalar) rv.size 0 vj rv
  | .int idx => (IntIndex_T.assignLoop O src vj idx.vidx idx.uidx rv).bind fun _ rv =>
      .ok (vj + idx.vi.length) rv
  | idx => subassign_generic O src n idx vj rv

/-- The replacements of an array, converted. -/
def elements {U : Type} (convert : U → E) (u : List U) (k : Nat) : Option E := u[k]?.map convert

theorem IntIndex_T.subassign_eq {U : Type} (convert : U → E) (idx : IntIndex_T) (u : List U)
    (vj n : Nat) (rv : Vector E) : idx.subassign O convert u vj rv =
      (VIdx.int (T := T) idx).assign O (elements convert u) false n vj rv := by
  have hloop (vidx uidx : List Nat) (rv : Vector E) :
      IntIndex_T.subassignLoop O convert u vj vidx uidx rv =
        IntIndex_T.assignLoop O (elements convert u) vj vidx uidx rv := by
    induction vidx generalizing uidx rv with
    | nil => rw [subassignLoop, assignLoop] <;> (intros; contradiction)
    | cons p vidx ih =>
        cases uidx with
        | nil => rw [subassignLoop, assignLoop] <;> (intros; contradiction)
        | cons q uidx =>
            rw [subassignLoop, assignLoop, assignOne, elements]
            cases u[vj + q]? with
            | none => rfl
            | some x => simp only [Option.map_some, decide_eq_true_eq, ih]
  rw [subassign, hloop]
  rfl

end Column

/-! ## All columns -/

section Columns

variable {T E : Type} [LinearOrder T] (O : E → E → Bool) (src : Nat → Option E) (scalar : Bool)
  (n : Nat)

/-- The loop over the columns that the cursors of `rest` come to. -/
def assignCols (i0 : Option (VIdx T)) (rest : List (VIdx T)) (dim : List Nat) :
    Nat → Option (Nat × List IdxPos) → Nat → List (Vector E) → Outcome Exn (List (Vector E)) Unit
  | 0, _, _, _ => .fault
  | _ + 1, none, _, cols => .ok () cols
  | fuel + 1, some (col, cs), vj, cols =>
    if cols.length ≤ col then .throw (.rangeError "subscript out of bounds") cols
    else
      match i0, cols[col]? with
      | some i, some c =>
        ((i.assign O src scalar n vj c).mapState fun c => cols.set col c).bind fun vj cols =>
          match VIdx.getnextcol rest dim cs with
          | .error e => .throw e cols
          | .ok r => assignCols i0 rest dim fuel r vj cols
      | _, _ => .fault

/-- What the two operators do once their checks are passed, with `n` rounds of each loop at
most. -/
def assignAll (is : List (VIdx T)) (dim : List Nat) (cols : List (Vector E)) :
    Outcome Exn (List (Vector E)) Unit :=
  match VIdx.getfirstcol is.tail dim.tail with
  | .error e => .throw e cols
  | .ok r => assignCols O src scalar n is.head? is.tail dim.tail n r 0 cols

/-- The number of replacements asked for; there has to be an index. -/
def VIdx.nelts : List (VIdx T) → Option Nat
  | [] => none
  | i :: is => some (is.foldl (fun k d => wrap (k * d.trueSize)) i.trueSize)

namespace Array

variable {U : Type} (convert : U → E)

/-- The extents as numbers. -/
def extents {E : Type} (a : Array E) : List Nat := a.dim.v.map UInt64.toNat

/-- `operator()(i, u)` with an array `u`. -/
def subassign (is : List (VIdx T)) (u : List U) (a : Array E) : Outcome Exn (Array E) Unit :=
  if is.length ≠ a.dim.size then .throw (.rangeError "incorrect number of dimensions") a
  else
    match VIdx.nelts is with
    | none => .fault
    | some k =>
      if k ≠ u.length then
        .throw (.rangeError
          "number of items to replace is not equal to the replacement length") a
      else
        (assignAll O (elements convert u) false n is a.extents a.v).mapState
          fun v => { a with v }

/-- `operator()(i, u)` with a scalar `u`. -/
def subassignScalar (is : List (VIdx T)) (u : U) (a : Array E) : Outcome Exn (Array E) Unit :=
  if is.length ≠ a.dim.size then .throw (.rangeError "incorrect number of dimensions") a
  else
    (assignAll O (fun _ => some (convert u)) true n is a.extents a.v).mapState
      fun v => { a with v }

end Array

end Columns

/-! ## The trace -/

section Traces

variable {T : Type} [LinearOrder T] (scalar : Bool) (n : Nat)

namespace Trace

/-- `NullIndex`: `k` elements of column `col` from place `j` on. -/
def ofNull (checkbefore : Bool) (col : Nat) : Nat → Nat → Nat → (Nat → Trace) → Trace
  | 0, _, vj, rest => rest vj
  | k + 1, j, vj, rest =>
    .write col j vj checkbefore (ofNull checkbefore col k (j + 1) (vj + 1) rest)

def ofInt (col vj : Nat) : List Nat → List Nat → Trace → Trace
  | p :: vidx, q :: uidx, rest =>
    .write col p (vj + q) (decide (vidx.head? = some (p + 1))) (ofInt col vj vidx uidx rest)
  | _, _, rest => rest

def ofGeneric (idx : VIdx T) (col : Nat) : Nat → Nat → IdxPos → Nat → (Nat → Trace) → Trace
  | 0, _, _, _, _ => .fault
  | m + 1, j, c, vj, rest =>
    match idx.getnext c with
    | .error e => .fail e
    | .ok (true, c') =>
      .write col j vj (decide (c'.val = j) || decide (c'.val = j + 1))
        (ofGeneric idx col m c'.val c' (vj + 1) rest)
    | .ok (false, _) => .write col j vj false (rest (vj + 1))

/-- The writes of an index to column `col` of `size` elements, and what follows. -/
def ofColumn (col size vj : Nat) (rest : Nat → Trace) : VIdx T → Trace
  | .null _ => ofNull (!scalar) col size 0 vj rest
  | .int idx => ofInt col vj idx.vidx idx.uidx (rest (vj + idx.vi.length))
  | idx =>
    match idx.getfirst ⟨0, 0⟩ with
    | .error e => .fail e
    | .ok (false, _) => rest vj
    | .ok (true, c) => ofGeneric idx col n c.val c vj rest

def ofColumns (i0 : Option (VIdx T)) (is : List (VIdx T)) (dim sizes : List Nat) :
    Nat → Option (Nat × List IdxPos) → Nat → Trace
  | 0, _, _ => .fault
  | _ + 1, none, _ => .done
  | fuel + 1, some (col, cs), vj =>
    .column col
      (match i0 with
      | none => .fault
      | some i =>
        ofColumn scalar n col (sizes.getD col 0) vj (fun vj =>
          match VIdx.getnextcol is dim cs with
          | .error e => .fail e
          | .ok r => ofColumns i0 is dim sizes fuel r vj) i)

/-- The trace of an assignment to columns of these sizes. -/
def ofAssign (is : List (VIdx T)) (dim sizes : List Nat) : Trace :=
  match VIdx.getfirstcol is.tail dim.tail with
  | .error e => .fail e
  | .ok r => ofColumns scalar n is.head? is.tail dim.tail sizes n r 0

end Trace

/-! The code does what its trace says. -/

section Exec

variable {E : Type} {O : E → E → Bool} {src : Nat → Option E}

theorem exec_write_eq {cols : List (Vector E)} {col : Nat} {c : Vector E} (hc : cols[col]? = some c)
    (checkbefore : Bool) (pos place : Nat) (t : Trace) :
    (Trace.write col pos place checkbefore t).exec O src cols =
      ((assignOne O src checkbefore pos place c).mapState fun c => cols.set col c).bind
        fun _ cols => t.exec O src cols := by
  rw [Trace.exec, assignOne]
  cases src place with
  | none =>
      obtain ⟨hlt, rfl⟩ := List.getElem?_eq_some_iff.1 hc
      rw [Outcome.mapState_throw, Outcome.bind_throw, List.set_getElem_self hlt]
  | some x => simp only [hc]

theorem set_same {cols : List (Vector E)} {col : Nat} {c : Vector E} (hc : cols[col]? = some c) :
    cols.set col c = cols := by
  obtain ⟨hlt, rfl⟩ := List.getElem?_eq_some_iff.1 hc
  exact List.set_getElem_self hlt

theorem getElem?_set_same {cols : List (Vector E)} {col : Nat} {c : Vector E} (c' : Vector E)
    (hc : cols[col]? = some c) : (cols.set col c')[col]? = some c' :=
  List.getElem?_set_self (List.getElem?_eq_some_iff.1 hc).1

theorem exec_ofNull {cols : List (Vector E)} {col : Nat} {c : Vector E} (hc : cols[col]? = some c)
    (cb : Bool) (k j vj : Nat) (rest : Nat → Trace) :
    (Trace.ofNull cb col k j vj rest).exec O src cols =
      ((NullIndex.assignLoop O src cb k j vj c).mapState fun c => cols.set col c).bind
        fun vj cols => (rest vj).exec O src cols := by
  induction k generalizing cols c j vj with
  | zero =>
      rw [Trace.ofNull, NullIndex.assignLoop, Outcome.mapState_ok, Outcome.bind_ok, set_same hc]
  | succ k ih =>
      rw [Trace.ofNull, exec_write_eq hc, NullIndex.assignLoop]
      cases assignOne O src cb j vj c with
      | fault => rfl
      | throw e c' => rfl
      | ok u c' =>
          simp only [Outcome.mapState_ok, Outcome.bind_ok]
          rw [ih (getElem?_set_same c' hc)]
          simp only [List.set_set]

theorem exec_ofInt {cols : List (Vector E)} {col : Nat} {c : Vector E} (hc : cols[col]? = some c)
    (vj : Nat) (vidx uidx : List Nat) (rest : Trace) :
    (Trace.ofInt col vj vidx uidx rest).exec O src cols =
      ((IntIndex_T.assignLoop O src vj vidx uidx c).mapState fun c => cols.set col c).bind
        fun _ cols => rest.exec O src cols := by
  induction vidx generalizing cols c uidx with
  | nil =>
      rw [Trace.ofInt, IntIndex_T.assignLoop, Outcome.mapState_ok, Outcome.bind_ok, set_same hc]
      · nofun
      · nofun
  | cons p vidx ih =>
      cases uidx with
      | nil =>
          rw [Trace.ofInt, IntIndex_T.assignLoop, Outcome.mapState_ok, Outcome.bind_ok, set_same hc]
          · nofun
          · nofun
      | cons q uidx =>
          rw [Trace.ofInt, exec_write_eq hc, IntIndex_T.assignLoop]
          cases assignOne O src (decide (vidx.head? = some (p + 1))) p (vj + q) c with
          | fault => rfl
          | throw e c' => rfl
          | ok u c' =>
              simp only [Outcome.mapState_ok, Outcome.bind_ok]
              rw [ih (getElem?_set_same c' hc)]
              simp only [List.set_set]

theorem exec_ofGeneric {cols : List (Vector E)} {col : Nat} {c : Vector E}
    (hc : cols[col]? = some c) (idx : VIdx T) (m j : Nat) (p : IdxPos) (vj : Nat)
    (rest : Nat → Trace) :
    (Trace.ofGeneric idx col m j p vj rest).exec O src cols =
      ((genericLoop O src idx m j p vj c).mapState fun c => cols.set col c).bind
        fun vj cols => (rest vj).exec O src cols := by
  induction m generalizing cols c j p vj with
  | zero => rfl
  | succ m ih =>
      rw [Trace.ofGeneric, genericLoop]
      rcases idx.getnext p with e | ⟨_ | _, p'⟩
      · show Outcome.throw e cols = .throw e (cols.set col c)
        rw [set_same hc]
      · simp only
        rw [exec_write_eq hc]
        cases assignOne O src false j vj c with
        | fault => rfl
        | throw e c' => rfl
        | ok u c' => rfl
      · simp only
        rw [exec_write_eq hc]
        cases assignOne O src (decide (p'.val = j) || decide (p'.val = j + 1)) j vj c with
        | fault => rfl
        | throw e c' => rfl
        | ok u c' =>
            simp only [Outcome.mapState_ok, Outcome.bind_ok]
            rw [ih (getElem?_set_same c' hc)]
            simp only [List.set_set]

theorem exec_ofColumn {cols : List (Vector E)} {col : Nat} {c : Vector E}
    (hc : cols[col]? = some c) (idx : VIdx T) (vj : Nat) (rest : Nat → Trace) :
    (Trace.ofColumn scalar n col c.size vj rest idx).exec O src cols =
      ((idx.assign O src scalar n vj c).mapState fun c => cols.set col c).bind
        fun vj cols => (rest vj).exec O src cols := by
  have hgeneric (i : VIdx T) :
      (match i.getfirst ⟨0, 0⟩ with
        | .error e => Trace.fail e
        | .ok (false, _) => rest vj
        | .ok (true, p) => Trace.ofGeneric i col n p.val p vj rest).exec O src cols =
      ((subassign_generic O src n i vj c).mapState fun c => cols.set col c).bind
        fun vj cols => (rest vj).exec O src cols := by
    rw [subassign_generic]
    rcases i.getfirst ⟨0, 0⟩ with e | ⟨_ | _, p⟩
    · show Outcome.throw e cols = .throw e (cols.set col c)
      rw [set_same hc]
    · show (rest vj).exec O src cols = (rest vj).exec O src (cols.set col c)
      rw [set_same hc]
    · exact exec_ofGeneric hc i n p.val p vj rest
  cases idx with
  | null idx => exact exec_ofNull hc (!scalar) c.size 0 vj rest
  | int idx =>
      rw [Trace.ofColumn, exec_ofInt hc, VIdx.assign]
      cases IntIndex_T.assignLoop O src vj idx.vidx idx.uidx c <;> rfl
  | intNeg idx => exact hgeneric (.intNeg idx)
  | name idx => exact hgeneric (.name idx)
  | bool idx => exact hgeneric (.bool idx)
  | dtime d => exact hgeneric (.dtime d)
  | interval d => exact hgeneric (.interval d)

/-! An assignment to a column leaves its size. -/

theorem assignOne_size {cb : Bool} {pos place : Nat} {rv rv' : Vector E} {u : Unit}
    (h : assignOne O src cb pos place rv = .ok u rv') : rv'.size = rv.size := by
  rw [assignOne] at h
  split at h
  · cases h
  · next x _ =>
      rcases @Trace.write_cases E O pos rv x cb with ⟨-, e, hwrite⟩ | ⟨-, o, hwrite⟩
      · rw [hwrite] at h
        cases h
      · rw [hwrite] at h
        cases h
        exact List.length_set

theorem NullIndex.assignLoop_size {cb : Bool} {k j vj vj' : Nat} {rv rv' : Vector E}
    (h : NullIndex.assignLoop O src cb k j vj rv = .ok vj' rv') : rv'.size = rv.size := by
  induction k generalizing j vj rv with
  | zero =>
      cases h
      rfl
  | succ k ih =>
      rw [NullIndex.assignLoop, Outcome.bind_eq_ok] at h
      obtain ⟨_, t, ht, h⟩ := h
      exact (ih h).trans (assignOne_size ht)

theorem IntIndex_T.assignLoop_size {vj : Nat} {vidx uidx : List Nat} {rv rv' : Vector E} {u : Unit}
    (h : IntIndex_T.assignLoop O src vj vidx uidx rv = .ok u rv') : rv'.size = rv.size := by
  fun_induction IntIndex_T.assignLoop O src vj vidx uidx rv with
  | case1 rv p vidx q uidx ih =>
      rw [Outcome.bind_eq_ok] at h
      obtain ⟨_, t, ht, h⟩ := h
      exact (ih t h).trans (assignOne_size ht)
  | case2 =>
      cases h
      rfl

theorem genericLoop_size {idx : VIdx T} {m j : Nat} {p : IdxPos} {vj vj' : Nat}
    {rv rv' : Vector E} (h : genericLoop O src idx m j p vj rv = .ok vj' rv') :
    rv'.size = rv.size := by
  induction m generalizing j p vj rv with
  | zero => cases h
  | succ m ih =>
      rw [genericLoop] at h
      rcases hnext : idx.getnext p with e | ⟨_ | _, p'⟩
      · rw [hnext] at h
        cases h
      · rw [hnext] at h
        simp only [Outcome.bind_eq_ok] at h
        obtain ⟨_, t, ht, h⟩ := h
        cases h
        exact assignOne_size ht
      · rw [hnext] at h
        simp only [Outcome.bind_eq_ok] at h
        obtain ⟨_, t, ht, h⟩ := h
        exact (ih h).trans (assignOne_size ht)

theorem VIdx.assign_size {idx : VIdx T} {vj vj' : Nat} {rv rv' : Vector E}
    (h : idx.assign O src scalar n vj rv = .ok vj' rv') : rv'.size = rv.size := by
  have hgeneric (i : VIdx T) (h : subassign_generic O src n i vj rv = .ok vj' rv') :
      rv'.size = rv.size := by
    rw [subassign_generic] at h
    rcases hfirst : i.getfirst ⟨0, 0⟩ with e | ⟨_ | _, p⟩
    · rw [hfirst] at h
      cases h
    · rw [hfirst] at h
      cases h
      rfl
    · rw [hfirst] at h
      exact genericLoop_size h
  cases idx with
  | null idx => exact NullIndex.assignLoop_size h
  | int idx =>
      rw [VIdx.assign, Outcome.bind_eq_ok] at h
      obtain ⟨_, t, ht, h⟩ := h
      cases h
      exact IntIndex_T.assignLoop_size ht
  | intNeg idx => exact hgeneric (.intNeg idx) h
  | name idx => exact hgeneric (.name idx) h
  | bool idx => exact hgeneric (.bool idx) h
  | dtime d => exact hgeneric (.dtime d) h
  | interval d => exact hgeneric (.interval d) h

theorem exec_ofColumns {cols : List (Vector E)} {sizes : List Nat}
    (hsizes : cols.map Vector.size = sizes) (i0 : Option (VIdx T)) (is : List (VIdx T))
    (dim : List Nat) (fuel : Nat) (r : Option (Nat × List IdxPos)) (vj : Nat) :
    (Trace.ofColumns scalar n i0 is dim sizes fuel r vj).exec O src cols =
      assignCols O src scalar n i0 is dim fuel r vj cols := by
  induction fuel generalizing cols r vj with
  | zero => rfl
  | succ fuel ih =>
      cases r with
      | none => rfl
      | some r =>
          obtain ⟨col, cs⟩ := r
          rw [Trace.ofColumns.eq_def, assignCols.eq_def]
          simp only [Trace.exec]
          split
          · rfl
          next hlt =>
          cases i0 with
          | none => rfl
          | some i =>
              have hc : cols[col]? = some cols[col] :=
                List.getElem?_eq_getElem (Nat.lt_of_not_le hlt)
              generalize cols[col] = c at hc
              have hsize : sizes.getD col 0 = c.size := by
                rw [← hsizes, List.getD_eq_getElem?_getD, List.getElem?_map, hc]
                rfl
              simp only [hc]
              rw [hsize, exec_ofColumn scalar n hc]
              cases hrun : i.assign O src scalar n vj c with
              | fault => rfl
              | throw e c' => rfl
              | ok vj' c' =>
                  simp only [Outcome.mapState_ok, Outcome.bind_ok]
                  cases VIdx.getnextcol is dim cs with
                  | error e => rfl
                  | ok r' =>
                      refine ih ?_ r' vj'
                      rw [List.map_set, VIdx.assign_size scalar n hrun, hsizes]
                      refine List.ext_getElem? fun k => ?_
                      rw [List.getElem?_set]
                      split
                      · next hk =>
                          subst hk
                          rw [← hsizes, List.getElem?_map, hc, List.length_map,
                            if_pos (Nat.lt_of_not_le hlt)]
                          rfl
                      · rfl

/-- The code does what the trace of its indices says. -/
theorem exec_ofAssign {cols : List (Vector E)} {sizes : List Nat}
    (hsizes : cols.map Vector.size = sizes) (is : List (VIdx T)) (dim : List Nat) :
    (Trace.ofAssign scalar n is dim sizes).exec O src cols =
      assignAll O src scalar n is dim cols := by
  rw [Trace.ofAssign, assignAll]
  cases VIdx.getfirstcol is.tail dim.tail with
  | error e => rfl
  | ok r => exact exec_ofColumns scalar n hsizes is.head? is.tail dim.tail n r 0

end Exec

end Traces

/-! ## All or nothing -/

/-- What is assigned: an array, by its elements, or a scalar. -/
inductive Replacement (U : Type) where
  | array (u : List U)
  | scalar (u : U)

namespace Replacement

variable {U E : Type}

/-- The number of elements of an array. -/
def kind : Replacement U → Option Nat
  | .array u => some u.length
  | .scalar _ => none

def values : Replacement U → List U
  | .array u => u
  | .scalar u => [u]

/-- The replacements by their places, converted. -/
def source (convert : U → E) : Replacement U → Nat → Option E
  | .array u => elements convert u
  | .scalar u => fun _ => some (convert u)

/-- Whether there is a replacement at place `k`. -/
def available (kind : Option Nat) (k : Nat) : Bool := kind.all fun m => decide (k < m)

theorem available_eq (convert : U → E) (r : Replacement U) (k : Nat) :
    available r.kind k = (r.source convert k).isSome := by
  cases r with
  | array u =>
      rw [source, elements, Option.isSome_map]
      show decide (k < u.length) = _
      rw [Bool.eq_iff_iff, decide_eq_true_eq, isSome_getElem?]
  | scalar u => rfl

theorem mem_values {convert : U → E} {r : Replacement U} {k : Nat} {y : E}
    (h : r.source convert k = some y) : ∃ x ∈ r.values, convert x = y := by
  cases r with
  | array u =>
      obtain ⟨x, hx, rfl⟩ := Option.map_eq_some_iff.1 h
      exact ⟨x, List.mem_of_getElem? hx, rfl⟩
  | scalar u =>
      cases h
      exact ⟨u, List.mem_singleton_self u, rfl⟩

/-- The same value everywhere. -/
def constant (x : U) : Option Nat → Replacement U
  | some k => .array (List.replicate k x)
  | none => .scalar x

theorem kind_constant (x : U) (kind : Option Nat) : (constant x kind).kind = kind := by
  cases kind with
  | none => rfl
  | some k => exact congrArg some List.length_replicate

theorem eq_of_mem_constant {x y : U} {kind : Option Nat} (h : y ∈ (constant x kind).values) :
    y = x := by
  cases kind with
  | none => exact List.mem_singleton.1 h
  | some k => exact List.eq_of_mem_replicate h

end Replacement

namespace Array

variable {T E U : Type} [LinearOrder T] (O : E → E → Bool) (convert : U → E)

/-- The two operators, with `n` rounds of each loop at most. -/
def assign (n : Nat) (is : List (VIdx T)) : Replacement U → Array E → Outcome Exn (Array E) Unit
  | .array u, a => a.subassign O n convert is u
  | .scalar u, a => a.subassignScalar O n convert is u

/-- Every selected position holds one of the replacements. -/
def Assigned (is : List (VIdx T)) (r : Replacement U) (a : Array E) : Prop :=
  ∀ p, List.Forall₂ VIdx.Selects is p →
    ∃ x ∈ r.values, cell a.v (lin a.extents.tail p.tail) (p.headD 0) = some (convert x)

/-- The assignment returns with all that is selected assigned, or throws with all elements and
flags as they were. -/
def AssignAllOrNothing (is : List (VIdx T)) (r : Replacement U) (a : Array E) : Prop :=
  ∃ n, (a.assign O convert n is r).Holds (fun _ a' => a'.Assigned convert is r)
    fun _ a' => content a'.v = content a.v

/-- The condition on the indices, the extents, the sizes of the columns and the number of
replacements: the call is refused before its loops; or its trace stops before the first write,
or comes to its end over every selected position. -/
def AssignMeets (is : List (VIdx T)) (dim sizes : List Nat) (kind : Option Nat) : Prop :=
  is.length ≠ dim.length ∨ (∃ k m, kind = some k ∧ VIdx.nelts is = some m ∧ m ≠ k) ∨
    (∀ k, kind = some k → VIdx.nelts is = some k) ∧ ∃ n,
      (Trace.ofAssign kind.isNone n is dim sizes).barren sizes (Replacement.available kind) = true ∨
        (Trace.ofAssign kind.isNone n is dim sizes).fits sizes
            (Replacement.available kind) = true ∧
          ∀ p, List.Forall₂ VIdx.Selects is p →
            (Trace.ofAssign kind.isNone n is dim sizes).writesTo (lin dim.tail p.tail)
              (p.headD 0) = true

variable {O convert} {n : Nat} {is : List (VIdx T)} {r : Replacement U} {a : Array E}

theorem assign_of_length (h : is.length ≠ a.dim.size) :
    a.assign O convert n is r = .throw (.rangeError "incorrect number of dimensions") a := by
  cases r with
  | array u => exact if_pos h
  | scalar u => exact if_pos h

theorem assign_of_count {k m : Nat} (hlen : is.length = a.dim.size) (hk : r.kind = some k)
    (hm : VIdx.nelts is = some m) (hne : m ≠ k) : a.assign O convert n is r =
      .throw (.rangeError "number of items to replace is not equal to the replacement length") a := by
  cases r with
  | array u =>
      cases hk
      rw [assign, subassign, if_neg (not_not.2 hlen), hm]
      exact if_pos hne
  | scalar u => cases hk

theorem assign_of_none {k : Nat} (hlen : is.length = a.dim.size) (hk : r.kind = some k)
    (hm : VIdx.nelts is = none) : a.assign O convert n is r = .fault := by
  cases r with
  | array u => rw [assign, subassign, if_neg (not_not.2 hlen), hm]
  | scalar u => cases hk

/-- With its checks passed an assignment is the execution of its trace. -/
theorem assign_eq_exec (hlen : is.length = a.dim.size)
    (hk : ∀ k, r.kind = some k → VIdx.nelts is = some k) :
    a.assign O convert n is r =
      ((Trace.ofAssign r.kind.isNone n is a.extents (a.v.map Vector.size)).exec O
        (r.source convert) a.v).mapState fun v => { a with v } := by
  rw [exec_ofAssign r.kind.isNone n rfl]
  cases r with
  | array u =>
      rw [assign, subassign, if_neg (not_not.2 hlen), hk u.length rfl]
      exact if_neg (not_not.2 rfl)
  | scalar u => exact if_neg (not_not.2 hlen)

theorem cell_of_content {cols cols' : List (Vector E)} (h : content cols' = content cols)
    (col pos : Nat) : cell cols' col pos = cell cols col pos := by
  have hcell (cs : List (Vector E)) :
      cell cs col pos = (content cs)[col]?.bind fun q => q.1[pos]? := by
    rw [cell, content, List.getElem?_map]
    cases cs[col]? <;> rfl
  rw [hcell, hcell, h]

theorem extents_length (a : Array E) : a.extents.length = a.dim.size := List.length_map ..

/-- An array of this shape that holds one value everywhere. -/
def blank (dim : List idx_type) (sizes : List Nat) (y : E) : Array E where
  dim := { v := dim, ordered := false, capacity := dim.length, block := 0, alloc := none }
  v := sizes.map fun m =>
    { v := List.replicate m y, ordered := false, capacity := m, block := 0, alloc := none }
  names := []
  allocf := ⟨fun _ => memallocator 0, fun _ => memallocator 0⟩

theorem sizes_blank (dim : List idx_type) (sizes : List Nat) (y : E) :
    (blank dim sizes y).v.map Vector.size = sizes := by
  rw [blank, List.map_map]
  refine (List.map_congr_left fun m _ => ?_).trans (List.map_id sizes)
  exact List.length_replicate

theorem cell_blank {dim : List idx_type} {sizes : List Nat} {y z : E} {col pos : Nat}
    (h : cell (blank dim sizes y).v col pos = some z) : z = y := by
  rw [cell, blank, List.getElem?_map] at h
  obtain ⟨c, hc, hz⟩ := Option.bind_eq_some_iff.1 h
  obtain ⟨m, -, rfl⟩ := Option.map_eq_some_iff.1 hc
  exact List.eq_of_mem_replicate (List.mem_of_getElem? hz)

/-- Under the condition the assignment is all or nothing, whatever is in the array. -/
theorem allOrNothing_of_meets {dim sizes : List Nat} {kind : Option Nat} (hdim : a.extents = dim)
    (hsizes : a.v.map Vector.size = sizes) (hkind : r.kind = kind)
    (h : AssignMeets is dim sizes kind) : a.AssignAllOrNothing O convert is r := by
  subst hdim hkind
  by_cases hlen : is.length = a.dim.size
  case neg =>
    refine ⟨0, ?_⟩
    rw [assign_of_length hlen]
    rfl
  rcases h with hne | ⟨k, m, hk, hm, hne⟩ | ⟨hcount, n, hrun⟩
  · exact absurd (hlen.trans (extents_length a).symm) hne
  · refine ⟨0, ?_⟩
    rw [assign_of_count hlen hk hm hne]
    rfl
  have havail := Replacement.available_eq convert r
  refine ⟨n, ?_⟩
  rw [assign_eq_exec hlen hcount, hsizes]
  rcases hrun with hbarren | ⟨hfits, hcovers⟩
  · obtain ⟨e, hexec⟩ := @Trace.exec_of_barren _ O _ _ _ _ _ havail hsizes hbarren
    rw [hexec]
    rfl
  · obtain ⟨v, hexec, hcells⟩ := @Trace.exec_of_fits _ O _ _ _ _ _ havail hsizes hfits
    rw [hexec]
    intro p hp
    obtain ⟨k, y, hy, hcell⟩ := (hcells _ _).1 (hcovers p hp)
    obtain ⟨x, hx, rfl⟩ := Replacement.mem_values hy
    exact ⟨x, hx, hcell⟩

/-- An array that holds one value, and another one to be put into it, tell the condition. -/
theorem meets_of_blank {x₀ x₁ : U} (hne : convert x₀ ≠ convert x₁) {dim : List idx_type}
    {sizes : List Nat} {kind : Option Nat}
    (h : (blank dim sizes (convert x₁)).AssignAllOrNothing O convert is (.constant x₀ kind)) :
    AssignMeets is (dim.map UInt64.toNat) sizes kind := by
  obtain ⟨n, h⟩ := h
  have hkind := Replacement.kind_constant x₀ kind
  have hsizes := sizes_blank dim sizes (convert x₁)
  by_cases hlen : is.length = (blank dim sizes (convert x₁)).dim.size
  case neg => exact .inl (by rwa [List.length_map])
  refine .inr ?_
  by_cases hcount : ∀ k, (Replacement.constant x₀ kind).kind = some k → VIdx.nelts is = some k
  case neg =>
    simp only [not_forall] at hcount
    obtain ⟨k, hk, hnelts⟩ := hcount
    cases hm : VIdx.nelts is with
    | none =>
        rw [assign_of_none hlen hk hm] at h
        exact h.elim
    | some m =>
        rw [hkind] at hk
        exact .inl ⟨k, m, hk, rfl, fun heq => hnelts (by rw [hm, heq])⟩
  have havail := Replacement.available_eq convert (.constant x₀ kind)
  have hsrc : ∀ k y, (Replacement.constant x₀ kind).source convert k = some y →
      y = convert x₀ := by
    intro k y hy
    obtain ⟨x, hx, rfl⟩ := Replacement.mem_values hy
    rw [Replacement.eq_of_mem_constant hx]
  rw [assign_eq_exec hlen hcount, hsizes] at h
  rw [hkind] at h havail hcount
  refine .inr ⟨hcount, n, ?_⟩
  rw [show (blank dim sizes (convert x₁)).extents = dim.map UInt64.toNat from rfl] at h
  cases hexec : (Trace.ofAssign kind.isNone n is (dim.map UInt64.toNat) sizes).exec O
      ((Replacement.constant x₀ kind).source convert) (blank dim sizes (convert x₁)).v with
  | fault =>
      rw [hexec] at h
      exact h.elim
  | throw e v =>
      rw [hexec] at h
      left
      by_contra hbarren
      rw [Bool.not_eq_true] at hbarren
      obtain ⟨col, pos, hcell⟩ := Trace.wrote_of_throw hsrc havail hsizes hbarren hexec
      rw [cell_of_content (show content v = _ from h)] at hcell
      exact hne (cell_blank hcell)
  | ok u v =>
      rw [hexec] at h
      have hfits := Trace.fits_of_ok havail hsizes hexec
      obtain ⟨v', hexec', hcells⟩ := @Trace.exec_of_fits _ O _ _ _ _ _ havail hsizes hfits
      rw [hexec'] at hexec
      cases hexec
      refine .inr ⟨hfits, fun p hp => ?_⟩
      by_contra hno
      rw [Bool.not_eq_true] at hno
      obtain ⟨x, hx, hcell⟩ := h p hp
      rw [Replacement.eq_of_mem_constant hx] at hcell
      exact hne (cell_blank (((hcells _ _).2 hno).symm.trans hcell))

end Array

end Ztsdb.Arr
