import Mathlib
import Ztsdb.Arr.Array

/-!
# `zts`

A time series is two arrays that are owned and updated apart: the index, a vector
of times, and the data. `append` takes from a buffer first what belongs to the
index and then what belongs to the data, and puts the index back when it finds
that the rest cannot be taken.
-/

namespace Ztsdb.Arr

open Ztsdb.Lib

structure zts where
  a : Array Double
  idx : Array dtime

namespace zts

/-- `idx->getcol(0).forceOrdered()`. -/
def forceOrdered (a : Array dtime) : Outcome Exn (Array dtime) Unit :=
  match a.v with
  | [] => .throw (.outOfRange "getcol: column out of range") a
  | c :: cs => .ok () { a with v := { c with ordered := true } :: cs }

/-- `append(buf, buflen, offset)`; `mem` is the memory from `buf` on. The result is the
last value of `offset`: what the data took. -/
def append (heap : Allocator) (mem : List UInt8) (buflen : Nat) (z : zts) :
    Outcome Exn zts Nat :=
  if z.a.dim.size = 0 then .throw (.outOfRange "append on null zts not implemented") z
  else
    ((z.idx.append dtime.less heap mem buflen).mapState fun idx => { z with idx }).bind
      fun offset z =>
        if z.idx.isOrdered then
          ((z.a.append Double.less heap (mem.drop offset) (wsub buflen offset)).mapState
              fun a => { z with a }).tryCatch fun e z =>
            -- stay in a coherent state!
            ((z.idx.resize dtime.less heap z.a.nrows 0).mapState
              fun idx => { z with idx }).bind fun _ z => .throw e z
        else
          (((z.idx.resize dtime.less heap z.a.nrows 0).bind fun _ idx =>
            forceOrdered idx).mapState fun idx => { z with idx }).bind fun _ z =>
              .throw (.rangeError "index not ascending") z

/-- `to_buffer`: the index, then the data, behind `offset` bytes of the caller. -/
def toBuffer (offset : Nat) (z : zts) : List UInt8 :=
  List.replicate offset 0 ++ (z.idx.toBuffer ++ z.a.toBuffer)

end zts

end Ztsdb.Arr
