import Mathlib
import Ztsdb.Lib.Decimal
import Ztsdb.Tz.ReverseOffset

/-!
# Times as texts

`to_string` writes a time with its date, its time of day, the nanoseconds when there are any
and the name of the zone. `dtime_from_string` reads it with a format: what stands in brackets
may be missing, and what is left of the text or of the format at the end does not matter.

Characters are bytes. The quotient that `to_string` takes in `double` is exact before it is
rounded down.
-/

namespace Ztsdb.Tz

open Ztsdb.Lib Ztsdb.Lib.Decimal Ztsdb.Arr

/-- `year_month_day::from_days`. -/
def from_days (dp : Int) : Int × Nat × Nat :=
  let z := dp + 719468
  let era := (if 0 ≤ z then z else z - 146096).tdiv 146097
  let doe := (z - era * 146097).toNat
  let yoe := (doe - doe / 1460 + doe / 36524 - doe / 146096) / 365
  let y := yoe + era * 400
  let doy := doe - (365 * yoe + yoe / 4 - yoe / 100)
  let mp := (5 * doy + 2) / 153
  let d := doy - (153 * mp + 2) / 5 + 1
  let m := if mp < 10 then mp + 3 else mp - 9
  ((y + if m ≤ 2 then 1 else 0).bmod (2 ^ 16), m, d)

/-- A year is written with at least four digits. -/
def yearText (y : Int) : List UInt8 :=
  if y < 0 then 45 :: pad 4 y.natAbs else pad 4 y.toNat

/-- `floor<days>`. -/
def floorDays (dt : Int) : Int :=
  let t := dt.tdiv (86400 * den)
  if dt < t * (86400 * den) then t - 1 else t

/-- `to_string(dt, format, timezone, timezone_str)`. -/
def to_string (dt : dtime) (timezone : Zone) (timezone_str : List UInt8) : Option (List UInt8) :=
  (timezone.getoffset dt.ns.toInt).map fun offset_abbrev =>
    let count := (Int64.ofInt (dt.ns.toInt + offset_abbrev.1)).toInt
    let (y, m, d) := from_days (floorDays count)
    let zd := count.tdiv den
    let nsec := count - zd * den
    let (nsec, zd) := if nsec < 0 then (nsec + den, zd - 1) else (nsec, zd)
    let z := zd / (3600 * 24)
    let zrem := (zd - z * (3600 * 24)).toNat
    let h := zrem / 3600
    let hrem := zrem % 3600
    let mn := hrem / 60
    let s := hrem % 60
    yearText y ++ 45 :: (pad 2 m ++ 45 :: (pad 2 d ++ 32 :: (pad 2 h ++ 58 :: (pad 2 mn ++
      58 :: (pad 2 s ++ ((if nsec ≠ 0 then 46 :: pad 9 nsec.toNat else []) ++
        32 :: timezone_str))))))

/-- `to_string(dt, format, timezone, timezone_str, false, fractional)`. -/
def to_stringFractional (dt : dtime) (timezone : Zone) (timezone_str : List UInt8)
    (fractional : Bool) : Option (List UInt8) :=
  (timezone.getoffset dt.ns.toInt).map fun offset_abbrev =>
    let count := (Int64.ofInt (dt.ns.toInt + offset_abbrev.1)).toInt
    let (y, m, d) := from_days (floorDays count)
    let zd := count.tdiv den
    let nsec := count - zd * den
    let (nsec, zd) := if nsec < 0 then (nsec + den, zd - 1) else (nsec, zd)
    let z := zd / (3600 * 24)
    let zrem := (zd - z * (3600 * 24)).toNat
    let h := zrem / 3600
    let hrem := zrem % 3600
    let mn := hrem / 60
    let s := hrem % 60
    yearText y ++ 45 :: (pad 2 m ++ 45 :: (pad 2 d ++ 32 :: (pad 2 h ++ 58 :: (pad 2 mn ++
      58 :: (pad 2 s ++ ((if nsec ≠ 0 ∨ fractional then 46 :: pad 9 nsec.toNat else []) ++
        32 :: timezone_str))))))

theorem to_stringFractional_false (dt : dtime) (timezone : Zone) (timezone_str : List UInt8) :
    to_stringFractional dt timezone timezone_str false = to_string dt timezone timezone_str := by
  simp only [to_stringFractional, to_string, Bool.false_eq_true, or_false]

/-! ## Reading -/

/-- Behind the next closing bracket of the format. -/
def skipOptional : List UInt8 → List UInt8
  | [] => []
  | c :: fp => if c = 93 then fp else skipOptional fp

/-- `readInt`: the number and the rest. -/
def readInt (sp : List UInt8) (expectmin expectmax padding : Nat) :
    Except Exn (Nat × List UInt8) :=
  let (res, i, rest) := readDigits expectmax 0 sp
  if expectmin ≤ i then .ok (if padding = 0 then res else res * 10 ^ (padding - i), rest)
  else .error (.rangeError "couldn't parse datetime element")

/-- The characters of the name of a zone. -/
def isZoneChar (c : UInt8) : Bool :=
  decide (65 ≤ c ∧ c ≤ 90 ∨ 97 ≤ c ∧ c ≤ 122 ∨ c = 95 ∨ 47 ≤ c ∧ c ≤ 57)

/-- `readString`. -/
def readString (sp : List UInt8) : Except Exn (List UInt8 × List UInt8) :=
  if sp.takeWhile isZoneChar = [] then
    .error (.rangeError "couldn't parse datetime timezone")
  else .ok (sp.takeWhile isZoneChar, sp.dropWhile isZoneChar)

/-- What has been read of a time. -/
structure Timetuple where
  y : Int := 0
  m : Nat := 0
  d : Nat := 0
  h : Nat := 0
  mn : Nat := 0
  sec : Nat := 0
  nsec : Nat := 0
  tz : List UInt8 := []
  deriving DecidableEq

/-- What a format character stands for. -/
def Timetuple.read (f : UInt8) (sp : List UInt8) (t : Timetuple) :
    Except Exn (Timetuple × List UInt8) :=
  if f = 109 then (readInt sp 1 2 0).map fun (m, sp) => ({ t with m }, sp)
  else if f = 100 then (readInt sp 1 2 0).map fun (d, sp) => ({ t with d }, sp)
  else if f = 121 then (readInt sp 2 2 0).map fun (y, sp) => ({ t with y := 2000 + y }, sp)
  else if f = 89 then (readInt sp 4 4 0).map fun (y, sp) => ({ t with y }, sp)
  else if f = 72 then (readInt sp 1 2 0).map fun (h, sp) => ({ t with h }, sp)
  else if f = 77 then (readInt sp 1 2 0).map fun (mn, sp) => ({ t with mn }, sp)
  else if f = 83 then (readInt sp 1 2 0).map fun (sec, sp) => ({ t with sec }, sp)
  else if f = 115 then (readInt sp 0 9 9).map fun (nsec, sp) => ({ t with nsec }, sp)
  else if f = 90 then (readString sp).map fun (tz, sp) => ({ t with tz }, sp)
  else .error (.rangeError "unknown datetime format character")

/-- `readDtime`; each round goes on in the format, and `fuel` of them are enough when it is no
shorter than that. -/
def readDtime : Nat → List UInt8 → List UInt8 → Bool → Timetuple → Except Exn Timetuple
  | 0, _, _, _, t => .ok t
  | _ + 1, [], _, _, t => .ok t
  | _ + 1, _ :: _, [], _, t => .ok t
  | fuel + 1, s :: sp, f :: fp, optional, t =>
    if f = 91 then readDtime fuel (s :: sp) fp true t
    else if f = 93 then readDtime fuel (s :: sp) fp false t
    else if f = 37 then
      match fp with
      | [] => .error (.rangeError "missing format control character")
      | f :: fp =>
        match t.read f (s :: sp) with
        | .error e => .error e
        | .ok (t, sp) => readDtime fuel sp fp optional t
    else if s = f then readDtime fuel sp fp optional t
    else if optional then readDtime fuel (s :: sp) (skipOptional (f :: fp)) false t
    else .error (.rangeError "invalid date format")

/-- `%Y-%m-%d %H:%M:%S[.%s] %Z`. -/
def defaultFormat : List UInt8 :=
  [37, 89, 45, 37, 109, 45, 37, 100, 32, 37, 72, 58, 37, 77, 58, 37, 83, 91, 46, 37, 115, 93, 32,
    37, 90]

/-- `dtime_from_string(s, zones, fmt, tz)`, with the zones by their names. -/
def dtime_from_string (tzones : List UInt8 → Except Exn Zone) (s fmt tz_given : List UInt8) :
    Outcome Exn Unit dtime :=
  match readDtime fmt.length s fmt false {} with
  | .error e => .throw e ()
  | .ok t =>
    if t.tz = [] ∧ tz_given = [] then .throw (.rangeError "timezone must be specified") ()
    else
      match tzones (if t.tz ≠ [] then t.tz else tz_given) with
      | .error e => .throw e ()
      | .ok zone =>
        (zone.dtime_from_numbers t.y t.m t.d t.h t.mn t.sec t.nsec).bind fun dt _ =>
          .ok ⟨Int64.ofInt dt⟩ ()

end Ztsdb.Tz
