import Mathlib
import Ztsdb.Tz.Floor
import Ztsdb.Tz.Lookup
import Ztsdb.Tz.TimeRoundTrip

/-!
# Floor and ceiling in a zone

`floor_tz` goes back to the first instant of the local day, month or year, and `ceiling_tz`
steps one field of the date forward. The step of a month does not carry: after December comes
the January of the same year.

The calendar is counted in months: `monthStart` is the first day of a month, with the years
beginning in March so that the leap day is the last one.
-/

namespace Ztsdb.Tz

open Ztsdb.Lib Ztsdb.Arr

/-- The nanoseconds of a day. -/
def dayNs : Int := 86400 * den

/-- `month::operator++`. -/
def nextMonth (m : Nat) : Nat := if m + 1 = 13 then 1 else m + 1

/-- The day that `floor_tz` goes back to. -/
def floorDay (p : Period) (t_days : Int) : Except Exn Int :=
  let (y, m, _) := from_days t_days
  match p with
  | .DAY => .ok t_days
  | .MONTH => .ok (to_days y m 1)
  | .YEAR => .ok (to_days y 1 1)
  | _ => .error (.outOfRange "unknown duration type")

/-- The day that `ceiling_tz` goes on to. -/
def ceilingDay (p : Period) (t_days : Int) : Except Exn Int :=
  let (y, m, d) := from_days t_days
  match p with
  | .DAY => .ok (to_days y m (d + 1))
  | .MONTH => .ok (to_days y (nextMonth m) 1)
  | .YEAR => .ok (to_days (y + 1) 1 1)
  | _ => .error (.outOfRange "unknown duration type")

/-- What both do around the choice of the day. -/
def roundTz (day : Int → Except Exn Int) (direction : Int) (t : dtime) (z : Zone) :
    Outcome Exn Unit dtime :=
  match z.getoffsetDir t.ns.toInt (-1) direction with
  | none => .fault
  | some (offset, pos) =>
    match day (floorDays (Int64.ofInt (t.ns.toInt + offset)).toInt) with
    | .error e => .throw e ()
    | .ok t_days =>
      match z.getoffsetDir (Int64.ofInt (t_days * dayNs)).toInt pos direction with
      | none => .fault
      | some (offset, _) => .ok ⟨Int64.ofInt (t_days * dayNs - offset)⟩ ()

/-- `ztsdb::floor_tz`. -/
def floor_tz (t : dtime) (p : Period) (z : Zone) : Outcome Exn Unit dtime :=
  roundTz (floorDay p) (-1) t z

/-- `ztsdb::ceiling_tz`. -/
def ceiling_tz (t : dtime) (p : Period) (z : Zone) : Outcome Exn Unit dtime :=
  roundTz (ceilingDay p) 1 t z

/-! ## The calendar in months -/

/-- The days before a year that begins in March. -/
def marchDays (y : Int) : Int := 365 * y + y / 4 - y / 100 + y / 400

/-- The first day of a month; January of the year 0 is the month 0. -/
def monthStart (k : Int) : Int :=
  marchDays ((k - 2) / 12) + (153 * ((k - 2) % 12) + 2) / 5 - 719468

/-- The month that a day is in. -/
def monthOf (day : Int) : Int := 12 * (from_days day).1 + (from_days day).2.1 - 1

theorem marchDays_lt (y : Int) : marchDays y + 365 ≤ marchDays (y + 1) := by
  rw [marchDays, marchDays]
  omega

theorem monthStart_lt_succ (k : Int) : monthStart k < monthStart (k + 1) := by
  have hyear := marchDays_lt ((k - 2) / 12)
  rw [monthStart, monthStart]
  by_cases hlast : (k - 2) % 12 = 11
  · have hq : (k + 1 - 2) / 12 = (k - 2) / 12 + 1 := by omega
    have hr : (k + 1 - 2) % 12 = 0 := by omega
    rw [hq, hr, hlast]
    omega
  · have hq : (k + 1 - 2) / 12 = (k - 2) / 12 := by omega
    have hr : (k + 1 - 2) % 12 = (k - 2) % 12 + 1 := by omega
    rw [hq, hr]
    omega

theorem monthStart_strictMono : StrictMono monthStart := strictMono_int_of_lt_succ monthStart_lt_succ

/-- The quotient of the vendored library is rounded down. -/
theorem tdiv_floor {n : Int} (hn : 0 < n) (a : Int) :
    (if 0 ≤ a then a else a - (n - 1)).tdiv n = a / n := by
  split
  · next h0 => exact Int.tdiv_eq_ediv_of_nonneg h0
  · next hneg =>
      have hflip : (a - (n - 1)).tdiv n = -((n - 1 - a) / n) := by
        rw [← Int.tdiv_eq_ediv_of_nonneg (by omega : 0 ≤ n - 1 - a), ← Int.neg_tdiv, Int.neg_sub]
      rw [hflip]
      have h1 := Int.ediv_mul_le (n - 1 - a) hn.ne'
      have h2 := Int.lt_ediv_add_one_mul_self (n - 1 - a) hn
      refine le_antisymm ?_ ?_
      · rw [Int.le_ediv_iff_mul_le hn]
        linarith
      · have h3 : a / n < -((n - 1 - a) / n) + 1 := by
          rw [Int.ediv_lt_iff_lt_mul hn]
          linarith
        omega

/-- The days of a month follow its first one. -/
theorem to_days_eq {y : Int} {m d : Nat} (hy : -30000 ≤ y) (hy' : y ≤ 30000) (hm : 1 ≤ m)
    (hm' : m ≤ 12) (hd : 1 ≤ d) : to_days y m d = monthStart (12 * y + m - 1) + d - 1 := by
  have hsmall : y.bmod (2 ^ 16) = y := Int.bmod_eq_of_le (by omega) (by omega)
  have hera := tdiv_floor (n := 400) (by decide) (y - if m ≤ 2 then 1 else 0)
  obtain ⟨yoe, hyoe⟩ : ∃ yoe : Nat, (y - if m ≤ 2 then 1 else 0) % 400 = yoe :=
    ⟨((y - if m ≤ 2 then 1 else 0) % 400).toNat, by omega⟩
  have hrest : ((y - if m ≤ 2 then 1 else 0) - (y - if m ≤ 2 then 1 else 0) / 400 * 400).toNat = yoe := by
    omega
  have hmonth : (12 * y + m - 1 - 2) / 12 = (y - if m ≤ 2 then 1 else 0) ∧
      (12 * y + m - 1 - 2) % 12 = (if 2 < m then m - 3 else m + 9 : Nat) := by
    by_cases h2 : m ≤ 2
    · rw [if_pos h2, if_neg (by omega)]
      omega
    · rw [if_neg h2, if_pos (by omega)]
      omega
  rw [to_days, hsmall]
  simp only [show (400 : Int) - 1 = 399 from rfl] at hera
  simp only [hera, hrest]
  rw [monthStart, hmonth.1, hmonth.2, marchDays]
  generalize (y - if m ≤ 2 then 1 else 0) = y' at hyoe ⊢
  generalize (if 2 < m then m - 3 else m + 9) = mp
  push_cast
  omega

/-- The days of an era before a year of it. -/
def eraDays (yoe : Nat) : Nat := 365 * yoe + yoe / 4 - yoe / 100

theorem marchDays_era (era : Int) {yoe : Nat} (hyoe : yoe ≤ 399) :
    marchDays (yoe + era * 400) = 146097 * era + eraDays yoe := by
  rw [marchDays, eraDays]
  omega

/-- The month of an era, counted from March. -/
theorem monthStart_march (era : Int) {yoe mp : Nat} (hyoe : yoe ≤ 399) (hmp : mp ≤ 11) :
    monthStart (12 * (yoe + era * 400) + mp + 2) =
      146097 * era + eraDays yoe + (153 * mp + 2) / 5 - 719468 := by
  have hq : (12 * (yoe + era * 400) + mp + 2 - 2) / 12 = (yoe : Int) + era * 400 := by omega
  have hr : (12 * (yoe + era * 400) + mp + 2 - 2) % 12 = (mp : Int) := by omega
  rw [monthStart, hq, hr, marchDays_era era hyoe]

/-- The next one begins behind the days of the month. -/
theorem lt_monthStart_march (era : Int) {yoe doy : Nat} (hyoe : yoe ≤ 399) (hdoy : doy ≤ 365)
    (hnext : yoe < 399 → eraDays yoe + doy < eraDays (yoe + 1))
    (hlast : eraDays yoe + doy < 146097) :
    146097 * era + eraDays yoe + doy - 719468 <
      monthStart (12 * (yoe + era * 400) + ((5 * doy + 2) / 153 : Nat) + 3) := by
  obtain ⟨mp, hmp⟩ : ∃ mp, (5 * doy + 2) / 153 = mp := ⟨_, rfl⟩
  rw [hmp]
  rcases Nat.lt_or_ge mp 11 with hin | hend
  · have h := monthStart_march era hyoe (show mp + 1 ≤ 11 by omega)
    push_cast at h
    rw [show 12 * ((yoe : Int) + era * 400) + mp + 3 = 12 * (yoe + era * 400) + (mp + 1) + 2 by ring, h]
    omega
  · -- after February the next year begins
    have hq : 12 * ((yoe : Int) + era * 400) + mp + 3 = 12 * (yoe + era * 400 + 1) + 2 := by omega
    rcases Nat.lt_or_eq_of_le hyoe with hyoe | rfl
    · have h := @monthStart_march era (yoe + 1) 0 (by omega) (by omega)
      have hnext := hnext hyoe
      push_cast at h
      rw [hq, show 12 * ((yoe : Int) + era * 400 + 1) + 2 = 12 * (yoe + 1 + era * 400) + 0 + 2 by ring, h]
      omega
    · have h := @monthStart_march (era + 1) 0 0 (by omega) (by omega)
      have h0 : eraDays 0 = 0 := rfl
      rw [h0] at h
      push_cast at h
      rw [hq, show 12 * ((399 : Nat) + era * 400 + 1) + 2 = 12 * (0 + (era + 1) * 400) + 0 + 2 by
        push_cast; ring, h]
      omega

/-- A day lies between the first one of its month and that of the next. -/
theorem from_days_between {day : Int} (h : -700000 ≤ day) (h' : day ≤ 700000) {y : Int} {m d : Nat}
    (heq : from_days day = (y, m, d)) :
    -30000 ≤ y ∧ y < 30000 ∧ 1 ≤ m ∧ m ≤ 12 ∧ 1 ≤ d ∧ d ≤ 31 ∧
      monthStart (12 * y + m - 1) + d - 1 = day ∧ day < monthStart (12 * y + m) := by
  obtain ⟨z, hz⟩ : ∃ z : Nat, day + 719468 = z := ⟨(day + 719468).toNat, by omega⟩
  have hera := tdiv_floor (n := 146097) (by decide) z
  simp only [show (146097 : Int) - 1 = 146096 from rfl] at hera
  have hrem : ((z : Int) - (z : Int) / 146097 * 146097).toNat = z % 146097 := by omega
  rw [from_days, hz] at heq
  simp only [hera, hrem] at heq
  generalize hdoe : z % 146097 = doe at heq
  generalize hyoe : (doe - doe / 1460 + doe / 36524 - doe / 146096) / 365 = yoe at heq
  obtain ⟨hyoe399, hstart, hend, hnext⟩ := yoe_spec (by omega) hyoe.symm
  generalize hdoy : doe - (365 * yoe + yoe / 4 - yoe / 100) = doy at heq
  generalize hmp : (5 * doy + 2) / 153 = mp at heq
  obtain ⟨hy, hmd⟩ := Prod.mk.inj heq
  obtain ⟨hm, hd⟩ := Prod.mk.inj hmd
  obtain ⟨hm1, hm12, hd1, hd31, -⟩ := doy_spec (by omega) hmp.symm hd.symm hm.symm
  rw [hm] at hy
  generalize hera' : (z : Int) / 146097 = era at hy
  have hsmall : ((yoe : Int) + era * 400 + if m ≤ 2 then 1 else 0).bmod (2 ^ 16) =
      yoe + era * 400 + if m ≤ 2 then 1 else 0 := by
    apply Int.bmod_eq_of_le <;> split <;> omega
  rw [hsmall] at hy
  have hmp11 : mp ≤ 11 := by
    clear hyoe hnext hdoe hrem
    omega
  -- the month counted from March, and the year that begins there
  have hmonth : 12 * y + m - 1 = 12 * (yoe + era * 400) + mp + 2 := by
    clear hyoe hnext hdoy hmp hdoe hrem hera' hstart hend
    rw [← hy]
    split at hm
    · rw [if_neg (by omega)]
      omega
    · rw [if_pos (by omega)]
      omega
  have hlast : eraDays yoe + doy < 146097 := by
    clear hyoe hnext hmp
    rw [eraDays]
    omega
  have hsum : day = 146097 * era + eraDays yoe + doy - 719468 := by
    clear hyoe hnext hmp hlast
    rw [eraDays]
    omega
  have hbefore := lt_monthStart_march era hyoe399 (by omega)
    (fun hlt => by have := hnext hlt; rw [eraDays, eraDays]; omega) hlast
  have hfirst := monthStart_march era hyoe399 hmp11
  refine ⟨?_, ?_, hm1, hm12, hd1, hd31, ?_, ?_⟩
  · rw [← hy]
    split <;> omega
  · rw [← hy]
    split <;> omega
  · rw [hmonth, hfirst, hsum]
    clear hyoe hnext hbefore hfirst hsum hdoy
    omega
  · rw [hsum, show 12 * y + m = 12 * (yoe + era * 400) + mp + 3 by omega]
    rwa [hmp] at hbefore

/-! ## The first instants -/

/-- The days that a unit begins with. -/
def Starts : Period → Int → Prop
  | .MONTH, day => ∃ k, day = monthStart k
  | .YEAR, day => ∃ y, day = monthStart (12 * y)
  | _, _ => True

/-- The first day of the unit that a day is in. -/
def firstDay : Period → Int → Int
  | .MONTH, day => monthStart (monthOf day)
  | .YEAR, day => monthStart (12 * (monthOf day / 12))
  | _, day => day

/-- The first day of the next one. -/
def nextDay : Period → Int → Int
  | .MONTH, day => monthStart (monthOf day + 1)
  | .YEAR, day => monthStart (12 * (monthOf day / 12 + 1))
  | _, day => day + 1

/-- The first and the next day are the ones around a day. -/
theorem firstDay_spec (p : Period) {day : Int} (h : -700000 ≤ day) (h' : day ≤ 700000) :
    Starts p (firstDay p day) ∧ Starts p (nextDay p day) ∧ firstDay p day ≤ day ∧
      day < nextDay p day ∧ ∀ s, Starts p s → s ≤ firstDay p day ∨ nextDay p day ≤ s := by
  obtain ⟨⟨y, m, d⟩, hymd⟩ : ∃ ymd, from_days day = ymd := ⟨_, rfl⟩
  obtain ⟨-, -, hm, hm', hd, -, hfirst, hnext⟩ := from_days_between h h' hymd
  have hmonth : monthOf day = 12 * y + m - 1 := by rw [monthOf, hymd]
  have hmono := monthStart_strictMono
  cases p with
  | MONTH =>
      rw [firstDay, nextDay, hmonth, Int.sub_add_cancel]
      refine ⟨⟨_, rfl⟩, ⟨_, rfl⟩, by omega, hnext, ?_⟩
      rintro s ⟨k, rfl⟩
      rcases le_or_gt k (12 * y + m - 1) with hk | hk
      · exact Or.inl (hmono.monotone hk)
      · exact Or.inr (hmono.monotone (by omega))
  | YEAR =>
      have hyear : (12 * y + m - 1) / 12 = y := by omega
      rw [firstDay, nextDay, hmonth, hyear]
      have hbelow : monthStart (12 * y) ≤ monthStart (12 * y + m - 1) := hmono.monotone (by omega)
      have habove : monthStart (12 * y + m) ≤ monthStart (12 * (y + 1)) := hmono.monotone (by omega)
      refine ⟨⟨_, rfl⟩, ⟨_, rfl⟩, by omega, by omega, ?_⟩
      rintro s ⟨k, rfl⟩
      rcases le_or_gt k y with hk | hk
      · exact Or.inl (hmono.monotone (by omega))
      · exact Or.inr (hmono.monotone (by omega))
  | _ =>
      rw [firstDay, nextDay]
      · exact ⟨trivial, trivial, le_rfl, by omega, fun s _ => by omega⟩
      all_goals nofun

theorem yearStart_le (y : Int) : monthStart (12 * (y + 1)) ≤ monthStart (12 * y) + 366 := by
  have hq : (12 * y - 2) / 12 = y - 1 := by omega
  have hq' : (12 * (y + 1) - 2) / 12 = y := by omega
  have hr : (12 * y - 2) % 12 = 10 := by omega
  have hr' : (12 * (y + 1) - 2) % 12 = 10 := by omega
  rw [monthStart, monthStart, hq, hq', hr, hr', marchDays, marchDays]
  omega

/-- No unit is longer than a leap year. -/
theorem lt_firstDay (p : Period) {day : Int} (h : -700000 ≤ day) (h' : day ≤ 700000) :
    day < firstDay p day + 366 := by
  obtain ⟨-, -, -, hnext, -⟩ := firstDay_spec .YEAR h h'
  have hyear := yearStart_le (monthOf day / 12)
  rw [nextDay] at hnext
  cases p with
  | MONTH =>
      have : monthStart (12 * (monthOf day / 12)) ≤ monthStart (monthOf day) :=
        monthStart_strictMono.monotone (by omega)
      rw [firstDay]
      omega
  | YEAR =>
      rw [firstDay]
      omega
  | _ =>
      rw [firstDay]
      · omega
      all_goals nofun

/-- Two instants around a time are the first ones of two units that follow each other. -/
structure Brackets (p : Period) (off t f c : Int) : Prop where
  le : f ≤ t
  lt : t < c
  first : ∃ day, Starts p day ∧ f = day * dayNs - off
  next : ∃ day, Starts p day ∧ c = day * dayNs - off
  none : ∀ day, Starts p day → day * dayNs - off ≤ f ∨ c ≤ day * dayNs - off

variable {p : Period} {off t f c f' c' : Int}

theorem Brackets.unique (h : Brackets p off t f c) (h' : Brackets p off t f' c') :
    f = f' ∧ c = c' := by
  obtain ⟨d1, hd1, rfl⟩ := h.first
  obtain ⟨d2, hd2, rfl⟩ := h.next
  obtain ⟨d3, hd3, rfl⟩ := h'.first
  obtain ⟨d4, hd4, rfl⟩ := h'.next
  have := h.le
  have := h.lt
  have := h'.le
  have := h'.lt
  have := h.none _ hd3
  have := h.none _ hd4
  have := h'.none _ hd1
  have := h'.none _ hd2
  omega

/-- The first days around the local day of a time. -/
theorem brackets_days (p : Period) (off t : Int) (h : -700000 ≤ (t + off) / dayNs)
    (h' : (t + off) / dayNs ≤ 700000) :
    Brackets p off t (firstDay p ((t + off) / dayNs) * dayNs - off)
      (nextDay p ((t + off) / dayNs) * dayNs - off) := by
  obtain ⟨hs, hs', hle, hlt, hnone⟩ := firstDay_spec p h h'
  generalize firstDay p ((t + off) / dayNs) = f at *
  generalize nextDay p ((t + off) / dayNs) = c at *
  refine ⟨?_, ?_, ⟨f, hs, rfl⟩, ⟨c, hs', rfl⟩, fun day hday => ?_⟩
  · rw [dayNs, den] at *
    omega
  · rw [dayNs, den] at *
    omega
  · have := hnone day hday
    rw [dayNs, den]
    omega

/-! ## One offset -/

/-- The units of the calendar. -/
def calendar : List Period := [.DAY, .MONTH, .YEAR]

/-- The types that are used have one offset, a 32-bit count of seconds. -/
structure Zone.Fixed (z : Zone) (off : Int) : Prop where
  gmtoff : ∀ type ∈ z.used, z.gmtoff type = off
  range : -2 ^ 31 * den ≤ off ∧ off < 2 ^ 31 * den

/-- The day of a time as it is computed: the local time may wrap. -/
def wrappedDay (t : dtime) (off : Int) : Int := (Int64.ofInt (t.ns.toInt + off)).toInt / dayNs

/-- The month after a month, in the same year. -/
def monthInYear (k : Int) : Int := if k % 12 = 11 then k - 11 else k + 1

/-- The day that the ceiling steps to. -/
def steppedDay : Period → Int → Int
  | .MONTH, day => monthStart (monthInYear (monthOf day))
  | .YEAR, day => monthStart (12 * (monthOf day / 12 + 1))
  | _, day => day + 1

/-- The step of a month is right but for December. -/
theorem steppedDay_eq {day : Int} (h : ∀ k, p = .MONTH → monthOf day ≠ 12 * k + 11) :
    steppedDay p day = nextDay p day := by
  cases p with
  | MONTH =>
      have hdec : monthOf day % 12 ≠ 11 := fun hmod => h (monthOf day / 12) rfl (by omega)
      rw [steppedDay, nextDay, monthInYear, if_neg hdec]
  | _ => rfl

theorem wrappedDay_bounds (t : dtime) (off : Int) :
    -700000 ≤ wrappedDay t off ∧ wrappedDay t off ≤ 700000 := by
  have hlo := Int64.le_toInt (Int64.ofInt (t.ns.toInt + off))
  have hhi := Int64.toInt_lt (Int64.ofInt (t.ns.toInt + off))
  rw [wrappedDay, dayNs, den]
  omega

theorem floorDay_eq (hp : p ∈ calendar) {day : Int} (h : -700000 ≤ day) (h' : day ≤ 700000) :
    floorDay p day = .ok (firstDay p day) := by
  obtain ⟨⟨y, m, d⟩, hymd⟩ : ∃ ymd, from_days day = ymd := ⟨_, rfl⟩
  obtain ⟨hy, hy', hm, hm', -⟩ := from_days_between h h' hymd
  have hmonth : monthOf day = 12 * y + m - 1 := by rw [monthOf, hymd]
  simp only [calendar, List.mem_cons, List.not_mem_nil, or_false] at hp
  rw [floorDay, hymd]
  rcases hp with rfl | rfl | rfl
  · rfl
  · simp only
    rw [firstDay, hmonth, to_days_eq hy hy'.le hm hm' le_rfl]
    simp
  · have hyear : (12 * y + m - 1) / 12 = y := by omega
    simp only
    rw [firstDay, hmonth, hyear, to_days_eq hy hy'.le le_rfl (by omega) le_rfl]
    simp

theorem ceilingDay_eq (hp : p ∈ calendar) {day : Int} (h : -700000 ≤ day) (h' : day ≤ 700000) :
    ceilingDay p day = .ok (steppedDay p day) := by
  obtain ⟨⟨y, m, d⟩, hymd⟩ : ∃ ymd, from_days day = ymd := ⟨_, rfl⟩
  obtain ⟨hy, hy', hm, hm', hd, -, hfirst, -⟩ := from_days_between h h' hymd
  have hmonth : monthOf day = 12 * y + m - 1 := by rw [monthOf, hymd]
  simp only [calendar, List.mem_cons, List.not_mem_nil, or_false] at hp
  rw [ceilingDay, hymd]
  rcases hp with rfl | rfl | rfl
  · have hnext : steppedDay .DAY day = day + 1 := rfl
    simp only
    rw [hnext, to_days_eq hy hy'.le hm hm' (by omega)]
    push_cast
    congr 1
    omega
  · have hnext : 12 * y + ((nextMonth m : Nat) : Int) - 1 = monthInYear (12 * y + m - 1) := by
      rw [nextMonth, monthInYear]
      split <;> split <;> omega
    have hbounds : 1 ≤ nextMonth m ∧ nextMonth m ≤ 12 := by
      rw [nextMonth]
      split <;> omega
    simp only
    rw [steppedDay, hmonth, to_days_eq hy hy'.le hbounds.1 hbounds.2 le_rfl, hnext]
    simp
  · have hyear : (12 * y + m - 1) / 12 = y := by omega
    have hnext : steppedDay .YEAR day = monthStart (12 * (y + 1)) := by
      rw [steppedDay, hmonth, hyear]
    simp only
    rw [hnext, to_days_eq (by omega) (by omega) le_rfl (by omega) le_rfl]
    simp

variable {z : Zone} {t : dtime}

/-- In such a zone both functions are the choice of the day. -/
theorem roundTz_eq (hz : z.Fixed off) (day : Int → Except Exn Int) (direction : Int) (t : dtime) :
    roundTz day direction t z =
      match day (wrappedDay t off) with
      | .error e => .throw e ()
      | .ok t_days => .ok ⟨Int64.ofInt (t_days * dayNs - off)⟩ () := by
  have hstart : z.Held (-1) := by
    rw [Zone.Held]
    omega
  obtain ⟨type, htype, pos, hget, hheld⟩ := Zone.getoffsetDir_total t.ns.toInt direction hstart
  rw [hz.gmtoff type htype] at hget
  rw [roundTz, hget]
  simp only [floorDays_eq]
  rw [← dayNs, ← wrappedDay]
  cases day (wrappedDay t off) with
  | error e => rfl
  | ok t_days =>
      obtain ⟨type', htype', pos', hget', -⟩ :=
        Zone.getoffsetDir_total (Int64.ofInt (t_days * dayNs)).toInt direction hheld
      rw [hz.gmtoff type' htype'] at hget'
      simp only [hget']

/-- Both are times, the first instants of two units with the time between them. -/
def Rounded (t : dtime) (p : Period) (z : Zone) (off : Int) : Prop :=
  ∃ f c, floor_tz t p z = .ok f () ∧ ceiling_tz t p z = .ok c () ∧
    Brackets p off t.ns.toInt f.ns.toInt c.ns.toInt

/-- A count of nanoseconds of 64 bits. -/
def Fits (x : Int) : Prop := -2 ^ 63 ≤ x ∧ x < 2 ^ 63

instance (x : Int) : Decidable (Fits x) := inferInstanceAs (Decidable (_ ∧ _))

/-- The local time and the instants around it are times, and the step of a month is not from
December. -/
structure InReach (t : dtime) (p : Period) (off : Int) : Prop where
  shown : Fits (t.ns.toInt + off)
  first : Fits (firstDay p ((t.ns.toInt + off) / dayNs) * dayNs - off)
  next : Fits (nextDay p ((t.ns.toInt + off) / dayNs) * dayNs - off)
  month : ∀ k, p = .MONTH → monthOf ((t.ns.toInt + off) / dayNs) ≠ 12 * k + 11

theorem Int64.exists_toInt_ofInt (x : Int) : ∃ k, (Int64.ofInt x).toInt = x - 2 ^ 64 * k := by
  refine ⟨(x - x.bmod (2 ^ 64)) / 2 ^ 64, ?_⟩
  have := Int.dvd_self_sub_bmod (x := x) (m := 2 ^ 64)
  rw [Int64.toInt_ofInt, Int.mul_ediv_cancel' (by exact_mod_cast this)]
  norm_num

theorem Fits.toInt_ofInt {x : Int} (h : Fits x) : (Int64.ofInt x).toInt = x := by
  rw [Int64.toInt_ofInt]
  exact bmod_of_fits h.1 h.2

/-- Two days give the same time only when they are the same. -/
theorem day_eq_of_toInt {a b : Int} (h : (Int64.ofInt (a * dayNs - off)).toInt = b * dayNs - off)
    (hab : |a - b| < 2 ^ 48) : a = b := by
  obtain ⟨k, hk⟩ := Int64.exists_toInt_ofInt (a * dayNs - off)
  have hmul : (a - b) * 1318359375 = 2 ^ 48 * k := by
    rw [hk, dayNs, den] at h
    linarith
  have hcop : IsCoprime (2 ^ 48 : Int) 1318359375 := by norm_num
  have hdvd : (2 ^ 48 : Int) ∣ a - b := hcop.dvd_of_dvd_mul_right ⟨k, hmul⟩
  exact Int.sub_eq_zero.mp (Int.eq_zero_of_abs_lt_dvd hdvd hab)

theorem floor_tz_eq (hz : z.Fixed off) (hp : p ∈ calendar) (t : dtime) :
    floor_tz t p z = .ok ⟨Int64.ofInt (firstDay p (wrappedDay t off) * dayNs - off)⟩ () := by
  obtain ⟨hlo, hhi⟩ := wrappedDay_bounds t off
  rw [floor_tz, roundTz_eq hz, floorDay_eq hp hlo hhi]

theorem ceiling_tz_eq (hz : z.Fixed off) (hp : p ∈ calendar) (t : dtime) :
    ceiling_tz t p z = .ok ⟨Int64.ofInt (steppedDay p (wrappedDay t off) * dayNs - off)⟩ () := by
  obtain ⟨hlo, hhi⟩ := wrappedDay_bounds t off
  rw [ceiling_tz, roundTz_eq hz, ceilingDay_eq hp hlo hhi]

/-- A local time that wraps is on a day far away. -/
theorem fits_of_near (t : dtime) (h : -1000 < wrappedDay t off - (t.ns.toInt + off) / dayNs)
    (h' : wrappedDay t off - (t.ns.toInt + off) / dayNs < 1000) : Fits (t.ns.toInt + off) := by
  have hlo := Int64.le_toInt (Int64.ofInt (t.ns.toInt + off))
  have hhi := Int64.toInt_lt (Int64.ofInt (t.ns.toInt + off))
  obtain ⟨k, hk⟩ := Int64.exists_toInt_ofInt (t.ns.toInt + off)
  rw [wrappedDay, dayNs, den] at h h'
  rw [Fits]
  omega

/-- The floor and the ceiling of a day, a month or a year are the instants around a time when
these are in reach, and a month is not stepped from December. -/
theorem rounded_iff (hz : z.Fixed off) (hp : p ∈ calendar) (t : dtime) :
    Rounded t p z off ↔ InReach t p off := by
  have hlo := Int64.le_toInt t.ns
  have hhi := Int64.toInt_lt t.ns
  have hbounds : -700000 ≤ (t.ns.toInt + off) / dayNs ∧ (t.ns.toInt + off) / dayNs ≤ 700000 := by
    obtain ⟨hoff, hoff'⟩ := hz.range
    rw [den] at hoff hoff'
    rw [dayNs, den]
    omega
  have hbrackets := brackets_days p off t.ns.toInt hbounds.1 hbounds.2
  obtain ⟨-, -, hle, -⟩ := firstDay_spec p hbounds.1 hbounds.2
  have hnear := lt_firstDay p hbounds.1 hbounds.2
  obtain ⟨hw, hw'⟩ := wrappedDay_bounds t off
  rw [Rounded, floor_tz_eq hz hp, ceiling_tz_eq hz hp]
  constructor
  · rintro ⟨f, c, hf, hc, hfc⟩
    cases hf
    cases hc
    obtain ⟨hfirst, hnext⟩ := hfc.unique hbrackets
    obtain ⟨-, -, hwle, -⟩ := firstDay_spec p hw hw'
    have hwnear := lt_firstDay p hw hw'
    have hsame := day_eq_of_toInt hfirst (abs_lt.mpr (by omega))
    have hshown : Fits (t.ns.toInt + off) := fits_of_near t (by omega) (by omega)
    have hday : wrappedDay t off = (t.ns.toInt + off) / dayNs := by
      rw [wrappedDay, hshown.toInt_ofInt]
    rw [hday] at hfirst hnext
    refine ⟨hshown, ?_, ?_, ?_⟩
    · rw [← hfirst]
      exact ⟨Int64.le_toInt _, Int64.toInt_lt _⟩
    · rw [← hnext]
      exact ⟨Int64.le_toInt _, Int64.toInt_lt _⟩
    · rintro k rfl hdec
      have hback : 12 * k + 11 - 11 = 12 * k := by omega
      have hcarry : 12 * k + 11 + 1 = 12 * (k + 1) := by omega
      have hlast : (12 * k + 11) % 12 = 11 := by omega
      have hyear := yearStart_le k
      have hyear' : monthStart (12 * k) < monthStart (12 * (k + 1)) :=
        monthStart_strictMono (by omega)
      rw [steppedDay, nextDay, monthInYear, hdec, if_pos hlast, hback, hcarry] at hnext
      have heq := day_eq_of_toInt hnext (abs_lt.mpr (by omega))
      omega
  · intro h
    have hday : wrappedDay t off = (t.ns.toInt + off) / dayNs := by
      rw [wrappedDay, h.shown.toInt_ofInt]
    have hstep := steppedDay_eq h.month
    refine ⟨_, _, rfl, rfl, ?_⟩
    rw [hday, hstep, h.first.toInt_ofInt, h.next.toInt_ofInt]
    exact hbrackets

theorem Zone.fixed_behind : Zone.Fixed ⟨[], [⟨-18000, 0⟩], 0⟩ (-18000 * den) :=
  ⟨by decide, by decide⟩

/-- The first of March 2024 at midnight is the 29th of February five hours behind. -/
theorem rounded_iff_leap :
    Rounded ⟨1709251200000000000⟩ .MONTH ⟨[], [⟨-18000, 0⟩], 0⟩ (-18000 * den) :=
  (rounded_iff Zone.fixed_behind (by simp [calendar]) _).mpr
    ⟨by decide, by decide, by decide, by
      intro k _
      have hmonth : monthOf (((⟨1709251200000000000⟩ : dtime).ns.toInt + -18000 * den) / dayNs) =
          24289 := by decide
      omega⟩

/-- Five hours behind, 1970 begins in December. -/
theorem not_rounded :
    ¬∀ t, ∀ p ∈ calendar, ∀ z off, Zone.Fixed z off → Rounded t p z off := by
  intro h
  obtain ⟨f, c, -, hc, hfc⟩ := h ⟨0⟩ .MONTH (by simp [calendar]) _ _ Zone.fixed_behind
  rw [ceiling_tz_eq Zone.fixed_behind (by simp [calendar])] at hc
  cases hc
  have := hfc.lt
  revert this
  decide

end Ztsdb.Tz
