import Mathlib
import Ztsdb.Arr.Vector
import Ztsdb.Arr.Elements

/-!
# Alignment of times

`align_closest` and `align_idx` go over the times `y` and find, for each, a time of `x` in
a window around it: the closest one. The place they have come to in `x` only moves forward.
They are two copies of one loop, which differ in what they append, and in whether they look
at `x` one place past its end.

Times are 64-bit counts of nanoseconds and wrap. That the vector of the results has to grow
plays no part here.
-/

namespace Ztsdb.Arr

open Ztsdb.Lib

def dtime.plus (t : dtime) (u : duration) : dtime := ⟨t.ns + u.ns⟩

def dtime.minus (a b : dtime) : duration := ⟨a.ns - b.ns⟩

/-- `tz::abs`. -/
def duration.abs (d : duration) : duration := if d.less ⟨0⟩ then ⟨-d.ns⟩ else d

/-- A vector one element of which stands for all, and how its elements are added to a time.
The constructor reads the first element. -/
structure PseudoVector (U : Type) where
  v : List U
  ne : v ≠ []
  plus : dtime → U → dtime

/-- `operator[]`. -/
def PseudoVector.get {U : Type} (p : PseudoVector U) (i : Nat) : Except Exn U :=
  match (if p.v.length = 1 then p.v[0]? else p.v[i]?) with
  | some u => .ok u
  | none => .error (.outOfRange "subscript out of bounds")

/-- A duration for all places. -/
def PseudoVector.ofDuration (d : duration) : PseudoVector duration := ⟨[d], List.cons_ne_nil _ _, dtime.plus⟩

namespace align

variable {T U V : Type}

/-- Past the times before the window, from place `ix` on. -/
def advance (ystart : dtime) : Nat → List dtime → Nat
  | ix, [] => ix
  | ix, t :: xs => if t.less ystart then advance ystart (ix + 1) xs else ix

/-- The same in `align_idx`, which reads the place behind the last one. An empty vector is read
wherever it is asked. -/
def advanceIdx (x : List dtime) (ystart : dtime) : Nat → List dtime → Outcome Exn Unit Nat
  | _, [] => if x = [] then .fault else .throw (.outOfRange "subscript out of bounds") ()
  | ix, t :: xs => if t.less ystart then advanceIdx x ystart (ix + 1) xs else .ok ix ()

/-- Forward while the next time is in the window and closer. -/
def nearest (y yend : dtime) : Nat → List dtime → Nat
  | ix, t :: u :: xs =>
    if !yend.less u && (u.minus y).abs.less (t.minus y).abs then nearest y yend (ix + 1) (u :: xs)
    else ix
  | ix, _ => ix

/-- The loop of `align_closest`, for the times from place `iy` on. -/
def closestLoop (x : List dtime) (xdata : List T) (start : PseudoVector U) (stop : PseudoVector V)
    (nan : T) : Nat → List dtime → Nat → List T → Outcome Exn (List T) Unit
  | _, [], _, ydata => .ok () ydata
  | iy, y :: ys, ix, ydata =>
    match start.get iy, stop.get iy with
    | .error e, _ => .throw e ydata
    | _, .error e => .throw e ydata
    | .ok s, .ok e =>
      let ystart := start.plus y s
      let yend := stop.plus y e
      let ix := advance ystart ix (x.drop ix)
      match x[ix]? with
      | none => closestLoop x xdata start stop nan (iy + 1) ys ix (ydata ++ [nan])
      | some t =>
        if yend.less t then closestLoop x xdata start stop nan (iy + 1) ys ix (ydata ++ [nan])
        else
          let ix := nearest y yend ix (x.drop ix)
          match xdata[ix]? with
          | none => .throw (.outOfRange "subscript out of bounds") ydata
          | some d => closestLoop x xdata start stop nan (iy + 1) ys ix (ydata ++ [d])

/-- The loop of `align_idx`; places are counted from 1. -/
def idxLoop (x : List dtime) (start : PseudoVector U) (stop : PseudoVector V) :
    Nat → List dtime → Nat → List (Option Nat) → Outcome Exn Unit (List (Option Nat))
  | _, [], _, res => .ok res ()
  | iy, y :: ys, ix, res =>
    match start.get iy, stop.get iy with
    | .error e, _ => .throw e ()
    | _, .error e => .throw e ()
    | .ok s, .ok e =>
      let ystart := start.plus y s
      let yend := stop.plus y e
      (advanceIdx x ystart ix (x.drop ix)).bind fun ix _ =>
        match x[ix]? with
        | none => idxLoop x start stop (iy + 1) ys ix (res ++ [none])
        | some t =>
          if yend.less t then idxLoop x start stop (iy + 1) ys ix (res ++ [none])
          else
            let ix := nearest y yend ix (x.drop ix)
            idxLoop x start stop (iy + 1) ys ix (res ++ [some (ix + 1)])

end align

open align

/-- `align_closest(x, y, xdata, ydata, start, end)`; `nan` is what `NANF::f` gives. -/
def align_closest {T U V : Type} (x y : List dtime) (xdata ydata : List T) (start : PseudoVector U)
    (stop : PseudoVector V) (nan : T) : Outcome Exn (List T) Unit :=
  if xdata.length ≠ x.length then .throw (.outOfRange "'xdata' must have same size as 'x'") ydata
  else closestLoop x xdata start stop nan 0 y 0 ydata

/-- `align_idx(x, y, start, end)`: for each time a place of `x`, or none for a NaN. -/
def align_idx {U V : Type} (x y : List dtime) (start : PseudoVector U) (stop : PseudoVector V) :
    Outcome Exn Unit (List (Option Nat)) :=
  idxLoop x start stop 0 y 0 []

end Ztsdb.Arr
