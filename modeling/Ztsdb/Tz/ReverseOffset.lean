import Mathlib
import Ztsdb.Arr.Elements
import Ztsdb.Lib.OrdMap
import Ztsdb.Lib.Outcome
import Ztsdb.Tz.Zone

/-!
# The offsets of a local time

`buildRl` turns the transitions of a zone into a map from local times to the types a time
that is shown so can have: none in a gap, two in an overlap. `getReverseOffset` looks a local
time up in it, and `dtime_from_numbers` takes the offset when there is one.

The map is the inverse of the lookup that counts a transition from its instant on. The plain
lookup differs from that one at the first transition, and where a local time and the time
itself are on different sides of 1970, so that one of them is truncated upwards.
-/

namespace Ztsdb.Tz

open Ztsdb.Lib Ztsdb.Arr

/-- `std::numeric_limits<time_t>::min()`. -/
def timeMin : Int := -2 ^ 63

/-- `std::numeric_limits<time_t>::max()`. -/
def timeMax : Int := 2 ^ 63 - 1

/-- `year_month_day::to_days`; a year is a `short`. -/
def to_days (y : Int) (m d : Nat) : Int :=
  let y := y.bmod (2 ^ 16) - if m ≤ 2 then 1 else 0
  let era := (if 0 ≤ y then y else y - 399).tdiv 400
  let yoe := (y - era * 400).toNat
  let doy := (153 * (if 2 < m then m - 3 else m + 9) + 2) / 5 + d - 1
  let doe := yoe * 365 + yoe / 4 - yoe / 100 + doy
  era * 146097 + doe - 719468

/-- The time of the numbers as they stand. -/
def localTime (y : Int) (m d h mn sec nsec : Nat) : dtime :=
  ⟨Int64.ofInt ((to_days y m d * 86400 + (h * 3600 + mn * 60 + sec)) * den + nsec)⟩

namespace Zone

variable (z : Zone)

/-- The offset of a type in seconds. -/
def gm (type : Nat) : Int := (z.tti type).tt_gmtoff

/-- What a transition from the type `prev` enters in the map. -/
def entries (prev : Nat) (tr : Int × Nat) : List (Int × Finset Nat) :=
  let cur := tr.2
  let offsetdiff := z.gm cur - z.gm prev
  if 0 < offsetdiff then
    -- the time jumps forwards: there are times that are not shown
    [(tr.1 + z.gm prev, ∅), (tr.1 + z.gm cur, {cur})]
  else if offsetdiff < 0 then
    -- the time goes backwards: there are times that are shown twice
    [(tr.1 + z.gm cur, {prev, cur}), (tr.1 + z.gm prev, {cur})]
  else [(tr.1 + z.gm cur, {cur})]

/-- The loop of `buildRl`. -/
def buildLoop (prev : Nat) : List (Int × Nat) → List (Int × Finset Nat) → List (Int × Finset Nat)
  | [], rl => rl
  | tr :: trs, rl =>
    buildLoop tr.2 trs ((z.entries prev tr).foldl (fun rl e => OrdMap.assign e.1 e.2 rl) rl)

def buildRl : List (Int × Finset Nat) :=
  let rl := OrdMap.assign timeMin {z.defaulttype} []
  if z.timecnt = 0 then OrdMap.assign timeMax {z.defaulttype} rl
  else z.buildLoop z.defaulttype z.transitions rl

/-- `getReverseOffset`, `none` where there is nothing in front of `upper_bound`. -/
def getReverseOffset (dt : dtime) : Option (Finset Int) :=
  (OrdMap.floor? z.buildRl (dt.ns.toInt.tdiv den)).map fun typeset => typeset.image z.gmtoff

/-- `dtime_from_numbers`. -/
def dtime_from_numbers (y : Int) (m d h mn sec nsec : Nat) : Outcome Exn Unit Int :=
  if m < 1 ∨ 12 < m then .throw (.rangeError "month must be >= 1 and <= 12") ()
  else if d < 1 ∨ 31 < d then .throw (.rangeError "day must be >= 1 and <= 31") ()
  else if 23 < h then .throw (.rangeError "hour must be < 24") ()
  else if 59 < mn then .throw (.rangeError "minute must be < 60") ()
  else if 59 < sec then .throw (.rangeError "second must be < 60") ()
  else if 999999999 < nsec then .throw (.rangeError "second must be < 1000000000") ()
  else
    let dt := localTime y m d h mn sec nsec
    match z.getReverseOffset dt with
    | none => .fault
    | some rvoset =>
      match rvoset.sort (· ≤ ·) with
      | [] => .throw (.rangeError "datetime is not representable") ()
      | [o] => .ok (dt.ns.toInt - o) ()
      | [_, _] => .throw (.rangeError "datetime is ambiguous") ()
      | o :: _ => .ok (dt.ns.toInt - o) ()

/-- The numbers that `dtime_from_numbers` looks up. -/
def Checked (m d h mn sec nsec : Nat) : Prop :=
  1 ≤ m ∧ m ≤ 12 ∧ 1 ≤ d ∧ d ≤ 31 ∧ h ≤ 23 ∧ mn ≤ 59 ∧ sec ≤ 59 ∧ nsec ≤ 999999999

/-- The types that times of the zone have. -/
def used : List Nat := z.defaulttype :: z.transitions.map Prod.snd

/-- The transitions are further apart than any two offsets, and the local times of the
transitions are in the range of `time_t`. -/
structure Regular : Prop where
  apart : z.transitions.Pairwise fun a b =>
    a.1 < b.1 ∧ ∀ t ∈ z.used, ∀ t' ∈ z.used, z.gm t - z.gm t' < b.1 - a.1
  fits : ∀ tr ∈ z.transitions, ∀ t ∈ z.used,
    timeMin ≤ tr.1 + z.gm t ∧ tr.1 + z.gm t ≤ timeMax

/-- The transitions, each with the types before and after it. -/
def steps (prev : Nat) : List (Int × Nat) → List (Nat × Int × Nat)
  | [] => []
  | tr :: trs => (prev, tr) :: steps tr.2 trs

/-- `getReverseOffset` is the inverse of `getoffset` at the local time `dt`, and
`dtime_from_numbers` takes the time that is shown as `dt` when there is one. -/
structure Inverts (dt : dtime) : Prop where
  offsets : ∃ R, z.getReverseOffset dt = some R ∧
    ∀ o, o ∈ R ↔ (z.getoffset (dt.ns.toInt - o)).map Prod.fst = some o
  accepts : ∀ y m d h mn sec nsec, Checked m d h mn sec nsec →
    localTime y m d h mn sec nsec = dt →
    ((∃ t, z.dtime_from_numbers y m d h mn sec nsec = .ok t ()) ↔
      ∃! o, (z.getoffset (dt.ns.toInt - o)).map Prod.fst = some o)
  shows : ∀ y m d h mn sec nsec t, localTime y m d h mn sec nsec = dt →
    z.dtime_from_numbers y m d h mn sec nsec = .ok t () →
    ∃ o, (z.getoffset t).map Prod.fst = some o ∧ t + o = dt.ns.toInt

/-- The plain lookup counts a transition as passed in these seconds; the first one from the
next second on. -/
def Passed (d at' : Int) : Prop := if at' = z.ats 0 then at' < d else at' ≤ d

instance (d at' : Int) : Decidable (z.Passed d at') := by
  unfold Passed
  infer_instance

/-- For every transition that changes the offset and either of its two offsets: the local
time is past the transition shown with the offset exactly when the time with the offset
taken off is past the transition. -/
def Sides (dt : dtime) : Prop :=
  ∀ s ∈ steps z.defaulttype z.transitions, z.gm s.1 ≠ z.gm s.2.2 →
    ∀ t ∈ [s.1, s.2.2], (s.2.1 + z.gm t ≤ dt.ns.toInt.tdiv den ↔
      z.Passed ((dt.ns.toInt - z.gmtoff t).tdiv den) s.2.1)

instance (dt : dtime) : Decidable (z.Sides dt) :=
  inferInstanceAs (Decidable (∀ s ∈ steps z.defaulttype z.transitions, _))

end Zone

end Ztsdb.Tz
