import Mathlib
import Ztsdb.Arr.AlignSpec
import Ztsdb.Tz.Zone

/-!
# Floor and ceiling of times

`floor` casts a time to counts of a unit and back, and `ceiling` is the floor of the time one
unit later. A cast truncates, so the floor of a time before 1970 is above it unless the time is
a multiple of the unit; and the time one unit later wraps at the end of the range.
-/

namespace Ztsdb.Tz

open Ztsdb.Lib Ztsdb.Arr

/-- `tz::Period`. -/
inductive Period where
  | NANO | MICRO | MILLI | SECOND | MINUTE | HOUR | DAY | WEEK | MONTH | YEAR

/-- `average_duration`, in nanoseconds. -/
def average_duration : Period → Int
  | .NANO => 1
  | .MICRO => 1000
  | .MILLI => 1000000
  | .SECOND => den
  | .MINUTE => 60 * den
  | .HOUR => 3600 * den
  | .DAY => 24 * (3600 * den)
  | .WEEK => 7 * (24 * (3600 * den))
  | .MONTH => 31 * (24 * (3600 * den))
  | .YEAR => 365 * (24 * (3600 * den))

/-- `time_point_cast` to counts of `n` nanoseconds, and back. -/
def time_point_cast (n : Int) (t : dtime) : dtime := ⟨Int64.ofInt (t.ns.toInt.tdiv n * n)⟩

/-- `ztsdb::floor`. -/
def floor (t : dtime) : Period → Except Exn dtime
  | .HOUR => .ok (time_point_cast (3600 * den) t)
  | .MINUTE => .ok (time_point_cast (60 * den) t)
  | .SECOND => .ok (time_point_cast den t)
  | .MILLI => .ok (time_point_cast 1000000 t)
  | .MICRO => .ok (time_point_cast 1000 t)
  | .NANO => .ok (time_point_cast 1 t)
  | _ => .error (.outOfRange "unknown duration type")

/-- `ztsdb::ceiling`. -/
def ceiling (t : dtime) (p : Period) : Except Exn dtime :=
  floor (t.plus ⟨Int64.ofInt (average_duration p)⟩) p

/-! ## Truncated multiples -/

section Multiples

variable {n x : Int}

/-- What truncation takes a number to: down from above zero, up from below. -/
theorem tdiv_mul_bounds (hn : 0 < n) :
    (0 ≤ x → x.tdiv n * n ≤ x ∧ x < x.tdiv n * n + n) ∧
      (x ≤ 0 → x ≤ x.tdiv n * n ∧ x.tdiv n * n < x + n) := by
  have hsplit := Int.tdiv_mul_add_tmod x n
  have hlt : (x.tmod n).natAbs < n.natAbs := by
    rw [Int.natAbs_tmod]
    exact Nat.mod_lt _ (by omega)
  refine ⟨fun h0 => ?_, fun h0 => ?_⟩
  · have := Int.tmod_nonneg n h0
    omega
  · have := Int.tmod_nonneg n (show 0 ≤ -x by omega)
    rw [Int.neg_tmod] at this
    omega

/-- A multiple is below the next one by at least as much. -/
theorem add_le_of_dvd {a b : Int} (ha : n ∣ a) (hb : n ∣ b) (hlt : a < b) : a + n ≤ b := by
  have := Int.le_of_dvd (show 0 < b - a by omega) (dvd_sub hb ha)
  omega

theorem isGreatest_tdiv_mul_iff (hn : 0 < n) :
    IsGreatest {m | n ∣ m ∧ m ≤ x} (x.tdiv n * n) ↔ 0 ≤ x ∨ n ∣ x := by
  obtain ⟨hpos, hneg⟩ := @tdiv_mul_bounds n x hn
  constructor
  · intro ⟨⟨_, hle⟩, _⟩
    rcases le_or_gt 0 x with h0 | h0
    · exact Or.inl h0
    · have heq : x.tdiv n * n = x := le_antisymm hle (hneg h0.le).1
      exact Or.inr (Dvd.intro_left _ heq)
  · intro h
    have hle : x.tdiv n * n ≤ x := by
      rcases h with h0 | hdvd
      · exact (hpos h0).1
      · rw [Int.tdiv_mul_cancel hdvd]
    refine ⟨⟨dvd_mul_left _ _, hle⟩, fun m ⟨hm, hmx⟩ => ?_⟩
    by_contra hlt
    have := add_le_of_dvd (dvd_mul_left n (x.tdiv n)) hm (not_le.mp hlt)
    rcases le_total 0 x with h0 | h0
    · have := hpos h0
      omega
    · have := hneg h0
      omega

theorem isLeast_tdiv_mul_iff (hn : 0 < n) :
    IsLeast {m | n ∣ m ∧ x < m} ((x + n).tdiv n * n) ↔ 0 ≤ x + n ∨ n ∣ x := by
  obtain ⟨hpos, hneg⟩ := @tdiv_mul_bounds n (x + n) hn
  have hdvd : n ∣ x + n ↔ n ∣ x := dvd_add_self_right
  constructor
  · intro ⟨⟨hmul, hlt⟩, hleast⟩
    rcases le_or_gt 0 (x + n) with h0 | h0
    · exact Or.inl h0
    · -- the multiple one below would do as well
      right
      by_contra hx
      have hle := hleast ⟨dvd_sub hmul (dvd_refl n), by
        have h1 := (hneg h0.le).1
        rcases Int.lt_or_eq_of_le h1 with h2 | h2
        · omega
        · exact absurd (hdvd.mp (h2 ▸ hmul)) hx⟩
      omega
  · intro h
    have hbounds : x < (x + n).tdiv n * n ∧ (x + n).tdiv n * n ≤ x + n := by
      rcases h with h0 | hx
      · have := hpos h0
        omega
      · rw [Int.tdiv_mul_cancel (hdvd.mpr hx)]
        omega
    refine ⟨⟨dvd_mul_left _ _, hbounds.1⟩, fun m ⟨hm, hxm⟩ => ?_⟩
    by_contra hlt
    have := add_le_of_dvd hm (dvd_mul_left n ((x + n).tdiv n)) (not_le.mp hlt)
    omega

end Multiples

/-! ## Floor and ceiling -/

variable {t : dtime} {p : Period} {n : Int}

/-- A cast never wraps. -/
theorem toInt_time_point_cast (hn : 0 < n) (t : dtime) :
    (time_point_cast n t).ns.toInt = t.ns.toInt.tdiv n * n := by
  have hlo := Int64.le_toInt t.ns
  have hhi := Int64.toInt_lt t.ns
  obtain ⟨hpos, hneg⟩ := @tdiv_mul_bounds n t.ns.toInt hn
  have hfits : -2 ^ 63 ≤ t.ns.toInt.tdiv n * n ∧ t.ns.toInt.tdiv n * n < 2 ^ 63 := by
    rcases le_total 0 t.ns.toInt with h0 | h0
    · have := hpos h0
      have := Int.mul_nonneg (Int.tdiv_nonneg h0 hn.le) hn.le
      omega
    · have := hneg h0
      have := Int.mul_nonneg (Int.tdiv_nonneg (show 0 ≤ -t.ns.toInt by omega) hn.le) hn.le
      rw [Int.neg_tdiv, Int.neg_mul] at this
      omega
  rw [time_point_cast, Int64.toInt_ofInt]
  exact bmod_of_fits hfits.1 hfits.2

/-- The units that a time is counted in. -/
def units : List Period := [.MICRO, .MILLI, .SECOND, .MINUTE, .HOUR]

theorem average_duration_bounds (hp : p ∈ units) :
    0 < average_duration p ∧ average_duration p < 2 ^ 63 := by
  simp only [units, List.mem_cons, List.not_mem_nil, or_false] at hp
  rcases hp with rfl | rfl | rfl | rfl | rfl <;> decide

theorem floor_unit (hp : p ∈ units) (t : dtime) :
    floor t p = .ok (time_point_cast (average_duration p) t) := by
  simp only [units, List.mem_cons, List.not_mem_nil, or_false] at hp
  rcases hp with rfl | rfl | rfl | rfl | rfl <;> rfl

/-- The floor is the greatest multiple of the unit not above the time, and the ceiling the
smallest one above it. -/
structure Rounds (t : dtime) (p : Period) : Prop where
  floor : ∃ f, floor t p = .ok f ∧
    IsGreatest {m | average_duration p ∣ m ∧ m ≤ t.ns.toInt} f.ns.toInt
  ceiling : ∃ c, ceiling t p = .ok c ∧
    IsLeast {m | average_duration p ∣ m ∧ t.ns.toInt < m} c.ns.toInt

/-- The floor and the ceiling are right from 1970 on and for multiples of the unit, as long as
the time one unit later is a time. -/
theorem rounds_iff (t : dtime) (hp : p ∈ units) :
    Rounds t p ↔ (0 ≤ t.ns.toInt ∨ average_duration p ∣ t.ns.toInt) ∧
      t.ns.toInt + average_duration p < 2 ^ 63 := by
  obtain ⟨hn, hlt⟩ := average_duration_bounds hp
  have hlo := Int64.le_toInt t.ns
  have hhi := Int64.toInt_lt t.ns
  have hunit : (Int64.ofInt (average_duration p)).toInt = average_duration p := by
    rw [Int64.toInt_ofInt]
    exact bmod_of_fits (by omega) hlt
  have hfloor : (∃ f, floor t p = .ok f ∧
      IsGreatest {m | average_duration p ∣ m ∧ m ≤ t.ns.toInt} f.ns.toInt) ↔
        0 ≤ t.ns.toInt ∨ average_duration p ∣ t.ns.toInt := by
    rw [← isGreatest_tdiv_mul_iff hn, ← toInt_time_point_cast hn, floor_unit hp]
    simp
  by_cases hwrap : t.ns.toInt + average_duration p < 2 ^ 63
  · have hplus : (t.plus ⟨Int64.ofInt (average_duration p)⟩).ns.toInt =
        t.ns.toInt + average_duration p := by
      rw [dtime.toInt_plus (by rw [hunit]; omega) (by rw [hunit]; omega), hunit]
    have hceiling : (∃ c, ceiling t p = .ok c ∧
        IsLeast {m | average_duration p ∣ m ∧ t.ns.toInt < m} c.ns.toInt) ↔
          0 ≤ t.ns.toInt + average_duration p ∨ average_duration p ∣ t.ns.toInt := by
      rw [← isLeast_tdiv_mul_iff hn, ← hplus, ← toInt_time_point_cast hn, ceiling, floor_unit hp]
      simp
    constructor
    · intro ⟨hf, _⟩
      exact ⟨hfloor.mp hf, hwrap⟩
    · intro ⟨h, _⟩
      exact ⟨hfloor.mpr h, hceiling.mpr (h.imp_left fun h0 => by omega)⟩
  · -- one unit later is before 1970
    refine iff_of_false (fun h => ?_) fun h => hwrap h.2
    obtain ⟨c, hc, ⟨-, hlt'⟩, -⟩ := h.ceiling
    rw [ceiling, floor_unit hp] at hc
    cases hc
    rw [toInt_time_point_cast hn, dtime.plus, Int64.toInt_add, hunit] at hlt'
    have hmod : (t.ns.toInt + average_duration p).bmod (2 ^ 64) =
        t.ns.toInt + average_duration p - 2 ^ 64 := by
      rw [← Int.sub_bmod_right _ (2 ^ 64)]
      exact bmod_of_fits (by omega) (by omega)
    obtain ⟨-, hneg⟩ := @tdiv_mul_bounds _ (t.ns.toInt + average_duration p - 2 ^ 64) hn
    rw [hmod] at hlt'
    have := hneg (by omega)
    omega

/-- Half an hour past midnight on the first of January 1970, to the hour. -/
theorem rounds_iff_half : Rounds ⟨1800000000000⟩ .HOUR :=
  (rounds_iff ⟨1800000000000⟩ (by simp [units])).mpr ⟨by decide, by decide⟩

/-- Half an hour to midnight before 1970: the floor is the midnight to come. -/
theorem not_rounds : ¬∀ t, ∀ p ∈ units, Rounds t p := by
  intro h
  obtain ⟨f, hf, ⟨-, hle⟩, -⟩ := (h ⟨-1800000000000⟩ .HOUR (by simp [units])).floor
  cases hf
  revert hle
  decide

end Ztsdb.Tz
