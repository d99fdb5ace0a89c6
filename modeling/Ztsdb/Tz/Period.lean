import Mathlib
import Ztsdb.Tz.ReverseSpec
import Ztsdb.Tz.TimeText
import Ztsdb.Tz.ZoneOffset

/-!
# Periods

`plus` adds days to a time as so many times 24 hours and corrects the sum by the difference
of two offsets: the one at the time and the one found by walking from there to the sum. The
types the two lookups find are told here by comparing the transitions with the two times. The
sum is then right exactly when the difference of their offsets is that of the zone.
-/

namespace Ztsdb.Tz

/-- `tz::period`: months, days and a duration in nanoseconds. -/
structure period where
  months : Int
  days : Int
  dur : Int
deriving DecidableEq

/-- `operator-` of a period. -/
def period.neg (p : period) : period := ⟨-p.months, -p.days, -p.dur⟩

/-- `year_month_day::operator+=(months)`; a year is a `short`. -/
def addMonths (ymd : Int × Nat × Nat) (dm : Int) : Int × Nat × Nat :=
  let dmi := (ymd.2.1 : Int) - 1 + dm
  let dy := (if 0 ≤ dmi then dmi else dmi - 11).tdiv 12
  ((ymd.1 + dy).bmod (2 ^ 16), (dmi - dy * 12 + 1).toNat, ymd.2.2)

/-- `tz::plus`. -/
def plus (dt : Int) (p : period) (z : Zone) : Option Int :=
  (z.getoffsetDir dt (-1) 1).bind fun (offset, pos) =>
    let res :=
      if p.months ≠ 0 then
        let dt_floor := floorDays (dt + offset)
        let timeofday_offset := dt + offset - dt_floor * (86400 * den)
        let (y, m, d) := addMonths (from_days dt_floor) p.months
        to_days y m d * (86400 * den) - offset + timeofday_offset
      else dt
    (z.getoffsetDir dt pos 1).bind fun (offset, pos) =>
      let res := res + p.days * (24 * 3600 * den) + p.dur
      let direction := if dt ≤ res then 1 else -1
      (z.getoffsetDir res pos direction).map fun (newoffset, _) =>
        if newoffset ≠ offset then res + (offset - newoffset) else res

/-- `tz::minus`. -/
def minus (dt : Int) (p : period) (z : Zone) : Option Int := plus dt p.neg z

namespace Zone

/-- The offset of the zone at a time. -/
def offsetAt (z : Zone) (t : Int) : Int := z.gmtoff (z.typeAt (z.lastAt t))

/-- The time `t` is shown as the time `dt` is, `n` days on, and no other time is. -/
def Moved (z : Zone) (dt n t : Int) : Prop :=
  ∀ s, s + z.offsetAt s = dt + z.offsetAt dt + n * (86400 * den) ↔ s = t

/-- The transitions are more than two days apart, and their changes are less than a day. -/
def Spaced (z : Zone) : Prop :=
  z.transitions.Pairwise (fun a b => a.1 + 2 * 86400 < b.1) ∧
    ∀ s ∈ steps z.defaulttype z.transitions, |z.gm s.2.2 - z.gm s.1| < 86400

instance (z : Zone) : Decidable z.Spaced := inferInstanceAs (Decidable (_ ∧ _))

/-! ## What the lookups compare -/

/-- The first lookup finds a position. -/
def Seen (z : Zone) (dt : Int) : Prop := z.timecnt ≠ 0 ∧ z.ats 0 < dt.tdiv den

instance (z : Zone) (dt : Int) : Decidable (z.Seen dt) := inferInstanceAs (Decidable (_ ∧ _))

/-- A transition is found by the seconds of `dt` or passed before `t`. -/
def Gone (z : Zone) (dt t at' : Int) : Prop := z.Passed (dt.tdiv den) at' ∨ nsOf at' < t

instance (z : Zone) (dt t at' : Int) : Decidable (z.Gone dt t at') :=
  inferInstanceAs (Decidable (_ ∨ _))

/-- The type found by the seconds of a time. -/
def typeSeen (z : Zone) (dt : Int) : Nat :=
  typeBy (fun a => decide (z.Passed (dt.tdiv den) a)) z.defaulttype z.transitions

/-- The type found by walking forwards to `t`. -/
def typeForth (z : Zone) (dt t : Int) : Nat :=
  typeBy (fun a => decide (z.Gone dt t a)) z.defaulttype z.transitions

/-- The type found by walking backwards to `t` over transitions, the last one first: at the
very instant of one it is the default type. -/
def typeBack (z : Zone) (t : Int) : List (Int × Nat) → Nat
  | [] => z.defaulttype
  | tr :: trs =>
    if nsOf tr.1 < t then tr.2 else if t < nsOf tr.1 then z.typeBack t trs else z.defaulttype

/-- The type that `plus` finds at its first time. -/
def typeAfter (z : Zone) (dt : Int) : Nat :=
  if z.Seen dt then z.typeForth dt dt else z.defaulttype

/-- The type that `plus` finds at the sum. -/
def typeWalked (z : Zone) (dt res : Int) : Nat :=
  if ¬z.Seen dt then z.typeSeen res
  else if dt ≤ res then z.typeForth dt res
  else z.typeBack res (z.transitions.takeWhile fun tr => z.Gone dt dt tr.1).reverse

/-! ## The lookups -/

/-- Where a prefix that holds ends. -/
theorem takeWhile_stop {passed : Int → Bool} {m : Nat} {trs : List (Int × Nat)}
    (hm : m < trs.length) (hin : ∀ i (hi : i < trs.length), i ≤ m → passed trs[i].1 = true)
    (hout : ∀ hi : m + 1 < trs.length, passed trs[m + 1].1 = false) :
    trs.takeWhile (fun tr => passed tr.1) = trs.take (m + 1) := by
  induction trs generalizing m with
  | nil => exact absurd hm (Nat.not_lt_zero _)
  | cons tr trs ih =>
      have h0 : passed tr.1 = true := hin 0 (by simp) (Nat.zero_le _)
      rw [List.takeWhile_cons, if_pos h0, List.take_succ_cons]
      congr 1
      cases m with
      | zero =>
          cases trs with
          | nil => rfl
          | cons tr' trs =>
              rw [List.takeWhile_cons_of_neg, List.take_zero]
              rw [Bool.not_eq_true]
              exact hout (by simp)
      | succ m =>
          refine ih (by simpa using hm) (fun i hi hle => ?_) fun hi => ?_
          · exact hin (i + 1) (by simpa using hi) (by omega)
          · exact hout (by simpa using hi)

/-- The type after some transitions is that of the last of them. -/
theorem typeBy_takeWhile (passed : Int → Bool) (prev : Nat) (trs : List (Int × Nat)) :
    typeBy passed prev trs =
      (((trs.takeWhile fun tr => passed tr.1).getLast?).map Prod.snd).getD prev := by
  induction trs generalizing prev with
  | nil => rfl
  | cons tr trs ih =>
      rw [typeBy, List.takeWhile_cons]
      split
      · rw [ih, List.getLast?_cons]
        cases (trs.takeWhile fun tr => passed tr.1).getLast? <;> rfl
      · rfl

variable {z : Zone} {dt t : Int}

theorem transitions_getElem {i : Nat} (hi : i < z.transitions.length) :
    z.transitions[i] = (z.ats i, z.types i) := by
  rw [ats, types, List.getD_eq_getElem _ _ hi]

/-- The type at the last position of those that have passed, the next one being not. -/
theorem typeBy_stop {passed : Int → Bool} {m : Nat} (hm : m < z.timecnt)
    (hin : ∀ i ≤ m, passed (z.ats i) = true)
    (hout : m + 1 < z.timecnt → passed (z.ats (m + 1)) = false) :
    typeBy passed z.defaulttype z.transitions = z.types m ∧
      z.transitions.takeWhile (fun tr => passed tr.1) = z.transitions.take (m + 1) := by
  have htake : z.transitions.takeWhile (fun tr => passed tr.1) = z.transitions.take (m + 1) := by
    refine takeWhile_stop hm (fun i hi hle => ?_) fun hi => ?_
    · rw [transitions_getElem hi]
      exact hin i hle
    · rw [transitions_getElem hi]
      exact hout hi
  refine ⟨?_, htake⟩
  rw [typeBy_takeWhile, htake, List.take_succ_eq_append_getElem hm, List.getLast?_concat,
    transitions_getElem hm]
  rfl

/-- The lookup by the seconds, with the position found. -/
theorem getoffsetPos_seen (h : z.Ascending) (dt : Int) :
    (z.Seen dt ∧ ∃ m < z.timecnt, z.getoffsetPos dt = some (z.gmtoff (z.types m), (m : Int)) ∧
      ∀ i < z.timecnt, (z.Passed (dt.tdiv den) (z.ats i) ↔ i ≤ m)) ∨
    ¬z.Seen dt ∧ z.getoffsetPos dt = some (z.gmtoff z.defaulttype, -1) ∧
      ∀ i < z.timecnt, ¬z.Passed (dt.tdiv den) (z.ats i) := by
  rw [getoffsetPos]
  by_cases hseen : z.Seen dt
  · obtain ⟨m, hbs, hm, hle, hlater⟩ := bs_eq h hseen.1 hseen.2
    refine Or.inl ⟨hseen, m, hm, ?_, fun i hi => ⟨fun hp => ?_, fun him => ?_⟩⟩
    · rw [if_pos ⟨hseen.1, hseen.2⟩, hbs]
      rfl
    · by_contra hmi
      have := hlater i (by omega) hi
      have := hp.le
      omega
    · have hats := ats_le h him hm
      have h0 := hseen.2
      rw [Passed]
      split <;> omega
  · refine Or.inr ⟨hseen, if_neg hseen, fun i hi hp => ?_⟩
    have h0 : ¬z.ats 0 < dt.tdiv den := fun hlt => hseen ⟨by omega, hlt⟩
    have hats := ats_le h (Nat.zero_le i) hi
    rw [Passed] at hp
    split at hp <;> omega

theorem typeSeen_eq (h : z.Ascending) (dt : Int) :
    (z.getoffsetPos dt).map Prod.fst = some (z.gmtoff (z.typeSeen dt)) := by
  rw [← getoffset_eq, getoffset_typeBy h]
  rfl

/-- A forward walk passes what it walks over. -/
theorem advance_passed (pos : Nat) :
    ∀ j, pos < j → j ≤ z.advance dt pos → nsOf (z.ats j) < dt := by
  fun_induction advance z dt pos with
  | case1 pos hgo ih =>
      intro j hj hle
      rcases Nat.lt_or_eq_of_le (Nat.succ_le_of_lt hj) with hlt | heq
      · exact ih j hlt hle
      · rw [← heq]
        exact hgo.2
  | case2 pos hstop =>
      intro j hj hle
      omega

/-- A walk forwards from the position found by the seconds of `dt`, over transitions that
are gone already, to the last one gone. -/
theorem typeForth_advance {m pos : Nat} (hm : m ≤ pos) (hpos : pos < z.timecnt)
    (hseen : ∀ i < z.timecnt, (z.Passed (dt.tdiv den) (z.ats i) ↔ i ≤ m))
    (hgone : ∀ i ≤ pos, z.Gone dt t (z.ats i)) :
    z.typeForth dt t = z.types (z.advance t pos) ∧
      z.transitions.takeWhile (fun tr => z.Gone dt t tr.1) =
        z.transitions.take (z.advance t pos + 1) := by
  obtain ⟨hle, hlt, -, hnext⟩ := @advance_spec z t pos hpos
  refine typeBy_stop hlt (fun i hi => ?_) fun hi => ?_
  · rw [decide_eq_true_eq]
    rcases Nat.lt_or_ge pos i with hafter | hbefore
    · exact Or.inr (advance_passed pos i hafter hi)
    · exact hgone i hbefore
  · rw [decide_eq_false_iff_not]
    rintro (hp | hp)
    · have := (hseen _ hi).mp hp
      omega
    · have := hnext hi
      omega

/-- A walk backwards, with the comparison at its end. -/
theorem typeBack_retreat {pos : Nat} (hpos : pos < z.timecnt) :
    z.typeBack t (z.transitions.take (pos + 1)).reverse =
      if nsOf (z.ats (z.retreat t pos)) < t then z.types (z.retreat t pos)
      else z.defaulttype := by
  induction pos with
  | zero =>
      rw [List.take_succ_eq_append_getElem hpos, List.reverse_concat, typeBack,
        transitions_getElem hpos, retreat]
      simp only [List.take_zero, List.reverse_nil, typeBack, ite_self]
  | succ pos ih =>
      rw [List.take_succ_eq_append_getElem hpos, List.reverse_concat, typeBack,
        transitions_getElem hpos, retreat]
      simp only
      by_cases hback : t < nsOf (z.ats (pos + 1))
      · rw [if_neg (not_lt.mpr hback.le), if_pos hback, if_pos hback]
        exact ih (by omega)
      · rw [if_neg hback, if_neg hback]

theorem getoffsetDir_forth (dt : Int) (pos : Nat) :
    z.getoffsetDir dt (pos : Int) 1 =
      some (z.gmtoff (z.types (z.advance dt pos)), (z.advance dt pos : Int)) := by
  rw [← Int.ofNat_eq_natCast, getoffsetDir, if_pos (by decide)]

theorem getoffsetDir_back (dt : Int) {pos : Nat} (hpos : pos < z.timecnt) :
    ∃ pos', z.getoffsetDir dt (pos : Int) (-1) =
      some (z.gmtoff (z.typeBack dt (z.transitions.take (pos + 1)).reverse), pos') := by
  refine ⟨z.retreat dt pos, ?_⟩
  rw [typeBack_retreat hpos, ← Int.ofNat_eq_natCast, getoffsetDir, if_neg (by decide)]
  simp only
  split <;> rfl

/-! ## Days added -/

/-- The sum of days and its correction, of what the three lookups find. -/
theorem plus_of_lookups {n off off' newoffset pos pos' : Int}
    (hfirst : z.getoffsetDir dt (-1) 1 = some (off, pos))
    (hsecond : z.getoffsetDir dt pos 1 = some (off', pos'))
    (hsum : ∃ pos'', z.getoffsetDir (dt + n * (86400 * den)) pos'
      (if dt ≤ dt + n * (86400 * den) then 1 else -1) = some (newoffset, pos'')) :
    plus dt ⟨0, n, 0⟩ z = some (dt + n * (86400 * den) + (off' - newoffset)) := by
  have hdays : dt + n * (24 * 3600 * den) + 0 = dt + n * (86400 * den) := by
    rw [den]
    omega
  obtain ⟨pos'', hsum⟩ := hsum
  rw [plus, hfirst, Option.bind_some]
  simp only [ne_eq, not_true_eq_false, if_false]
  rw [hsecond, Option.bind_some]
  simp only [hdays]
  rw [hsum, Option.map_some, Option.some_inj]
  -- the correction that is skipped is of nothing
  split <;> omega

/-- Days added, in the types that the lookups find. -/
theorem plus_days (h : z.Ascending) (dt n : Int) :
    plus dt ⟨0, n, 0⟩ z = some (dt + n * (86400 * den) + (z.gmtoff (z.typeAfter dt) -
      z.gmtoff (z.typeWalked dt (dt + n * (86400 * den))))) := by
  rcases getoffsetPos_seen h dt with ⟨hsn, m, hm, hget, hseen⟩ | ⟨hsn, hget, -⟩
  · have hin : ∀ i ≤ m, z.Gone dt dt (z.ats i) := fun i hi =>
      Or.inl ((hseen i (by omega)).mpr hi)
    obtain ⟨hafter, htake⟩ := typeForth_advance le_rfl hm hseen hin
    obtain ⟨hle, hpos, -⟩ := @advance_spec z dt m hm
    rw [typeAfter, if_pos hsn, typeWalked, if_neg (not_not.mpr hsn), hafter]
    refine plus_of_lookups hget (getoffsetDir_forth dt m) ?_
    generalize dt + n * (86400 * den) = res
    by_cases hforth : dt ≤ res
    · have hin' : ∀ i ≤ z.advance dt m, z.Gone dt res (z.ats i) := by
        intro i hi
        rcases Nat.lt_or_ge m i with hwalked | hfound
        · exact Or.inr ((advance_passed m i hwalked hi).trans_le hforth)
        · exact Or.inl ((hseen i (by omega)).mpr hfound)
      obtain ⟨hwalk, -⟩ := typeForth_advance hle hpos hseen hin'
      rw [if_pos hforth, if_pos hforth, getoffsetDir_forth, hwalk]
      exact ⟨_, rfl⟩
    · rw [if_neg hforth, if_neg hforth, htake]
      exact getoffsetDir_back res hpos
  · obtain ⟨⟨off, pos⟩, hp, hoff⟩ :=
      Option.map_eq_some_iff.mp (typeSeen_eq h (dt + n * (86400 * den)))
    rw [typeAfter, if_neg hsn, typeWalked, if_pos hsn, ← hoff]
    exact plus_of_lookups hget hget ⟨pos, hp⟩

/-- A walk forwards stays where it is as long as the next transition has not passed. -/
theorem IsLast.advance_eq {m : Nat} (hlast : z.IsLast dt m)
    (hns : ∀ i < z.timecnt, nsOf (z.ats i) = z.ats i * den) : z.advance dt m = m := by
  rw [advance, if_neg]
  intro hgo
  have hlater := hlast.later (m + 1) (Nat.lt_succ_self m) hgo.1
  rw [hns _ hgo.1] at hgo
  omega

/-- Away from the boundaries the sum is right when the correction does not take it over a
change of the offset. -/
theorem plus_days_clear (h : z.Ascending) {n : Int}
    (hns : ∀ i < z.timecnt, nsOf (z.ats i) = z.ats i * den) (hdt : z.Truncates dt)
    (hres : z.Truncates (dt + n * (86400 * den)))
    (hoff : ∀ i < z.timecnt, z.ats i * den ≠ dt + n * (86400 * den)) (ht : z.Moved dt n t)
    (hside : z.offsetAt t = z.offsetAt (dt + n * (86400 * den))) :
    plus dt ⟨0, n, 0⟩ z = some t := by
  have hwall := (ht t).mpr rfl
  rw [hside] at hwall
  generalize hdir : (if dt ≤ dt + n * (86400 * den) then 1 else -1 : Int) = dir
  have htowards : ∀ s ∈ some dt, Towards dir s (dt + n * (86400 * den)) := by
    intro s hs
    obtain rfl := Option.mem_some_iff.mp hs
    rw [Towards, ← hdir]
    by_cases hle : dt ≤ dt + n * (86400 * den)
    · rw [if_pos hle, if_pos (by decide)]
      exact hle
    · rw [if_neg hle, if_neg (by decide)]
      omega
  have hclear : ∀ pos, z.Clear dir (dt + n * (86400 * den)) pos := fun pos =>
    ⟨hres, fun _ => ⟨hns, fun i hi heq => absurd heq (hoff i hi)⟩⟩
  have hright : dt + n * (86400 * den) + (z.offsetAt dt - z.offsetAt (dt + n * (86400 * den))) =
      t := by omega
  rw [← hright]
  rcases getoffsetPos_eq h hdt with ⟨m, hget, hlast⟩ | ⟨hget, hnone⟩
  · have hplaced : Placed z dir (some dt) m := by
      refine Or.inr ⟨m, dt, rfl, hlast.lt, rfl, ?_⟩
      split
      · exact hlast.passed
      · exact hlast.later
    obtain ⟨pos', hwalk, -⟩ := getoffsetDir_eq h hplaced htowards (hclear m)
    have hstay := getoffsetDir_forth (z := z) dt m
    rw [hlast.advance_eq hns] at hstay
    have hdt' : z.offsetAt dt = z.gmtoff (z.types m) := by
      rw [offsetAt, hlast.lastAt]
      rfl
    rw [hdt']
    exact plus_of_lookups hget hstay ⟨pos', by rw [hdir]; exact hwalk⟩
  · obtain ⟨pos', hwalk, -⟩ := getoffsetDir_eq h (Or.inl rfl) htowards (hclear (-1))
    have hdt' : z.offsetAt dt = z.gmtoff z.defaulttype := by
      rw [offsetAt, hnone]
      rfl
    rw [hdt']
    exact plus_of_lookups hget hget ⟨pos', by rw [hdir]; exact hwalk⟩

/-- The offset of a zone with one transition. -/
theorem offsetAt_one (at' o o' : Int) (i i' : Nat) (s : Int) :
    offsetAt ⟨[(at', 1)], [⟨o, i⟩, ⟨o', i'⟩], 0⟩ s =
      if at' * den ≤ s then o' * den else o * den := by
  split
  · next hle =>
      have hlast : IsLast ⟨[(at', 1)], [⟨o, i⟩, ⟨o', i'⟩], 0⟩ s 0 :=
        ⟨Nat.one_pos, hle, fun j hj hn => by
          rw [timecnt, List.length_singleton] at hn
          omega⟩
      rw [offsetAt, hlast.lastAt]
      rfl
  · next hlt =>
      rw [offsetAt, lastAt_eq_none]
      · rfl
      · intro j hj
        rw [timecnt, List.length_singleton, Nat.lt_one_iff] at hj
        rw [hj]
        exact not_le.mp hlt

end Zone

end Ztsdb.Tz
