import Mathlib

/-!
# Time zones

A zone is a table of transitions, each to one of its types, and the type for the times
before them. The offset at a time is looked up by a binary search on the seconds of the
time, or step by step from the position of the lookup before.

A time is its count of nanoseconds and a `time_t` is a count of seconds, as integers: only
the conversion from seconds to nanoseconds is taken to wrap. Division truncates.
-/

namespace Ztsdb.Tz

/-- `Global::dtime::duration::period::den`. -/
def den : Int := 1000000000

/-- `ats * 1s` in nanoseconds. -/
def nsOf (at' : Int) : Int := (at' * den).bmod (2 ^ 64)

/-- `ttinfo`: the offset in seconds and where the abbreviation is. -/
structure ttinfo where
  tt_gmtoff : Int
  tt_abbrind : Nat
deriving DecidableEq, Inhabited

/-- `state`: the transitions, `ats` and `types` side by side, the types and the default
type. -/
structure Zone where
  transitions : List (Int × Nat)
  ttis : List ttinfo
  defaulttype : Nat
deriving DecidableEq

namespace Zone

variable (z : Zone)

def timecnt : Nat := z.transitions.length

/-- `ats[i]`. -/
def ats (i : Nat) : Int := (z.transitions.getD i default).1

/-- `types[i]`. -/
def types (i : Nat) : Nat := (z.transitions.getD i default).2

/-- `ttis[type]`; the table is zero where nothing was loaded. -/
def tti (type : Nat) : ttinfo := z.ttis.getD type ⟨0, 0⟩

/-- `ttis[type].tt_gmtoff * 1s`. -/
def gmtoff (type : Nat) : Int := (z.tti type).tt_gmtoff * den

/-- The loop of the binary search `bs`, `none` where it leaves the table. -/
def bsLoop (t : Int) (first last : Nat) : Option Nat :=
  if first ≤ last then
    let middle := (first + last) / 2
    if z.timecnt ≤ middle then none
    else if z.ats middle < t then bsLoop t (middle + 1) last
    else if z.ats middle = t then some middle
    else if middle = 0 then none
    else bsLoop t first (middle - 1)
  else some ((first + last) / 2)
termination_by last + 1 - first

def bs (t : Int) : Option Nat := z.bsLoop t 0 (z.timecnt - 1)

/-- `getoffset(dt)`: the offset and where its abbreviation is. -/
def getoffset (dt : Int) : Option (Int × Nat) :=
  let d := dt.tdiv den
  if z.timecnt ≠ 0 ∧ z.ats 0 < d then
    (z.bs d).map fun i => (z.gmtoff (z.types i), (z.tti (z.types i)).tt_abbrind)
  else some (z.gmtoff z.defaulttype, (z.tti z.defaulttype).tt_abbrind)

/-- `getoffset(dt, pos)`: the offset and the position found. -/
def getoffsetPos (dt : Int) : Option (Int × Int) :=
  let d := dt.tdiv den
  if z.timecnt ≠ 0 ∧ z.ats 0 < d then
    (z.bs d).map fun i => (z.gmtoff (z.types i), (i : Int))
  else some (z.gmtoff z.defaulttype, -1)

/-- The loop that walks forwards. -/
def advance (dt : Int) (pos : Nat) : Nat :=
  if pos + 1 < z.timecnt ∧ nsOf (z.ats (pos + 1)) < dt then advance dt (pos + 1) else pos
termination_by z.timecnt - pos

/-- The loop that walks backwards. -/
def retreat (dt : Int) : Nat → Nat
  | 0 => 0
  | pos + 1 => if dt < nsOf (z.ats (pos + 1)) then retreat dt pos else pos + 1

/-- `getoffset(dt, pos, dir)`: the offset and the position after it. -/
def getoffsetDir (dt pos dir : Int) : Option (Int × Int) :=
  match pos with
  | .ofNat pos =>
    if 0 ≤ dir then
      let pos := z.advance dt pos
      some (z.gmtoff (z.types pos), (pos : Int))
    else
      let pos := z.retreat dt pos
      if nsOf (z.ats pos) < dt then some (z.gmtoff (z.types pos), (pos : Int))
      else some (z.gmtoff z.defaulttype, (pos : Int))
  | .negSucc _ => z.getoffsetPos dt

/-- The transitions are strictly ascending. -/
def Ascending : Prop := z.transitions.Pairwise fun a b => a.1 < b.1

instance : Decidable z.Ascending := inferInstanceAs (Decidable (List.Pairwise _ _))

/-- The last transition at or before a time. -/
def lastAt (dt : Int) : Option Nat :=
  ((List.range z.timecnt).filter fun i => z.ats i * den ≤ dt).getLast?

/-- The type a time has: that of its last transition, or the default. -/
def typeAt (i : Option Nat) : Nat := i.elim z.defaulttype z.types

variable {z : Zone}

theorem ats_lt (h : z.Ascending) {i j : Nat} (hij : i < j) (hj : j < z.timecnt) :
    z.ats i < z.ats j := by
  have hi : i < z.timecnt := hij.trans hj
  have hpair := List.pairwise_iff_getElem.mp h i j hi hj hij
  rwa [ats, ats, List.getD_eq_getElem _ _ hi, List.getD_eq_getElem _ _ hj]

theorem ats_le (h : z.Ascending) {i j : Nat} (hij : i ≤ j) (hj : j < z.timecnt) :
    z.ats i ≤ z.ats j := by
  rcases Nat.lt_or_eq_of_le hij with hlt | rfl
  · exact (ats_lt h hlt hj).le
  · exact le_rfl

/-- The search ends at the last transition at or before `t`. -/
theorem bsLoop_eq (h : z.Ascending) {t : Int} {first last : Nat} (hlast : last < z.timecnt)
    (hfirst : first ≤ last + 1) (h0 : z.ats 0 < t) (hbelow : ∀ i < first, z.ats i < t)
    (habove : ∀ i, last < i → i < z.timecnt → t < z.ats i) :
    ∃ m, z.bsLoop t first last = some m ∧ m < z.timecnt ∧ z.ats m ≤ t ∧
      ∀ i, m < i → i < z.timecnt → t < z.ats i := by
  fun_induction bsLoop z t first last with
  | case1 first last hle middle hout => omega
  | case2 first last hle middle hin hlt ih =>
      refine ih hlast (by omega) (fun i hi => ?_) habove
      exact (ats_le h (by omega) (by omega)).trans_lt hlt
  | case3 first last hle middle hin hlt heq =>
      refine ⟨middle, rfl, by omega, heq.le, fun i hi hn => ?_⟩
      rw [← heq]
      exact ats_lt h hi hn
  | case4 first last hle middle hin hlt hne hzero =>
      rw [hzero] at hlt
      exact absurd h0 hlt
  | case5 first last hle middle hin hlt hne hpos ih =>
      refine ih (by omega) (by omega) hbelow fun i hi hn => ?_
      have hmid : t < z.ats middle := by omega
      exact hmid.trans_le (ats_le h (by omega) hn)
  | case6 first last hgt =>
      have hend : (first + last) / 2 = last := by omega
      refine ⟨last, by rw [hend], hlast, (hbelow last (by omega)).le, habove⟩

theorem bs_eq (h : z.Ascending) {t : Int} (hcnt : z.timecnt ≠ 0) (h0 : z.ats 0 < t) :
    ∃ m, z.bs t = some m ∧ m < z.timecnt ∧ z.ats m ≤ t ∧
      ∀ i, m < i → i < z.timecnt → t < z.ats i :=
  bsLoop_eq h (by omega) (by omega) h0 (fun _ hi => absurd hi (Nat.not_lt_zero _))
    fun i hi hn => by omega

end Zone

end Ztsdb.Tz
