import Mathlib
import Ztsdb.Tz.TimeText
import Ztsdb.Tz.ZoneOffset

/-!
# Times are read as they were written

The days of the calendar are those that were counted, the time of day is put together from
its parts, and every number is written with the digits that the format takes. In a zone
without transitions that is not off, a time is read back from its text.
-/

namespace Ztsdb.Tz

open Ztsdb.Lib Ztsdb.Lib.Decimal Ztsdb.Arr

/-! ## The calendar -/

/-- The year of an era that a day is in, from which the day of the year is counted. -/
theorem yoe_spec {doe yoe : Nat} (h : doe < 146097)
    (hy : yoe = (doe - doe / 1460 + doe / 36524 - doe / 146096) / 365) :
    yoe ≤ 399 ∧ 365 * yoe + yoe / 4 - yoe / 100 ≤ doe ∧
      doe ≤ 365 * yoe + yoe / 4 - yoe / 100 + 365 ∧
      (yoe < 399 → doe < 365 * (yoe + 1) + (yoe + 1) / 4 - (yoe + 1) / 100) := by
  by_cases hlast : doe = 146096
  · subst hlast hy
    decide
  · -- the century, the day in it, and the cycle of four years
    obtain ⟨b, r, rfl, hr, hb⟩ : ∃ b r, doe = 36524 * b + r ∧ r < 36524 ∧ b ≤ 3 :=
      ⟨doe / 36524, doe % 36524, by omega, by omega, by omega⟩
    obtain ⟨q, hq, hq'⟩ : ∃ q, 1460 * q ≤ 24 * b + r ∧ 24 * b + r < 1460 * q + 1460 :=
      ⟨(24 * b + r) / 1460, by omega, by omega⟩
    have hyear : yoe = 100 * b + (r - q) / 365 := by
      have h1 : (36524 * b + r) / 1460 = 25 * b + q := by omega
      have h2 : (36524 * b + r) / 36524 = b := by omega
      have h3 : (36524 * b + r) / 146096 = 0 := by omega
      rw [hy, h1, h2, h3]
      omega
    obtain ⟨k, j, hkj, hj⟩ : ∃ k j, (r - q) / 365 = 4 * k + j ∧ j ≤ 3 :=
      ⟨(r - q) / 365 / 4, (r - q) / 365 % 4, by omega, by omega⟩
    have hqr : q ≤ r := by omega
    have hkq : k ≤ q := by omega
    have hk : k ≤ 24 := by omega
    have hqk : q ≤ k + 1 := by omega
    rw [hkj] at hyear
    have h4 : yoe / 4 = 25 * b + k := by omega
    have h100 : yoe / 100 = b := by omega
    refine ⟨?_, ?_, ?_, fun hlt => ?_⟩
    · omega
    · omega
    · omega
    · by_cases hj3 : j = 3
      · have h4' : (yoe + 1) / 4 = 25 * b + k + 1 := by omega
        by_cases hk24 : k = 24
        · have h100' : (yoe + 1) / 100 = b + 1 := by omega
          rw [h4', h100']
          omega
        · have h100' : (yoe + 1) / 100 = b := by omega
          rw [h4', h100']
          omega
      · have h4' : (yoe + 1) / 4 = 25 * b + k := by omega
        have h100' : (yoe + 1) / 100 = b := by omega
        rw [h4', h100']
        omega

/-- The month and the day of a day of the year, which are counted from March. -/
theorem doy_spec {doy mp d m : Nat} (h : doy ≤ 365) (hmp : mp = (5 * doy + 2) / 153)
    (hd : d = doy - (153 * mp + 2) / 5 + 1) (hm : m = if mp < 10 then mp + 3 else mp - 9) :
    1 ≤ m ∧ m ≤ 12 ∧ 1 ≤ d ∧ d ≤ 31 ∧
      (153 * (if 2 < m then m - 3 else m + 9) + 2) / 5 + d - 1 = doy := by
  have hle : mp ≤ 11 := by omega
  split at hm
  · rw [if_pos (by omega), hm]
    omega
  · rw [if_neg (by omega), hm]
    omega

/-- The days of the times that there are: back to the day they were, with parts in their
ranges. -/
theorem from_days_spec {dp y : Int} {m d : Nat} (h : -106752 ≤ dp) (h' : dp ≤ 106751)
    (heq : from_days dp = (y, m, d)) :
    1600 ≤ y ∧ y ≤ 2400 ∧ 1 ≤ m ∧ m ≤ 12 ∧ 1 ≤ d ∧ d ≤ 31 ∧ to_days y m d = dp := by
  obtain ⟨z, hz⟩ : ∃ z : Nat, dp + 719468 = z := ⟨(dp + 719468).toNat, by omega⟩
  have hera : (z : Int).tdiv 146097 = ((z / 146097 : Nat) : Int) := by
    rw [Int.tdiv_eq_ediv_of_nonneg (Int.natCast_nonneg z)]
    omega
  have hrem : ((z : Int) - ((z / 146097 : Nat) : Int) * 146097).toNat = z % 146097 := by omega
  have hdoe : z % 146097 < 146097 := Nat.mod_lt _ (by decide)
  rw [from_days, hz] at heq
  simp only [if_pos (Int.natCast_nonneg z), hera, hrem] at heq
  generalize hmod : z % 146097 = doe at heq hdoe
  generalize hyoe : (doe - doe / 1460 + doe / 36524 - doe / 146096) / 365 = yoe at heq
  obtain ⟨hyoe399, hstart, hend, -⟩ := yoe_spec hdoe hyoe.symm
  generalize hdoy : doe - (365 * yoe + yoe / 4 - yoe / 100) = doy at heq
  generalize hmp : (5 * doy + 2) / 153 = mp at heq
  obtain ⟨hy, hmd⟩ := Prod.mk.inj heq
  obtain ⟨hm, hd⟩ := Prod.mk.inj hmd
  obtain ⟨hm1, hm12, hd1, hd31, hback⟩ := doy_spec (by omega) hmp.symm hd.symm hm.symm
  rw [hm] at hy
  -- the year is a small one, and the same again without its last months
  have hsmall : ((yoe : Int) + ((z / 146097 : Nat) : Int) * 400 +
      if m ≤ 2 then 1 else 0).bmod (2 ^ 16) = yoe + ((z / 146097 : Nat) : Int) * 400 +
        if m ≤ 2 then 1 else 0 := by
    apply Int.bmod_eq_of_le <;> split <;> omega
  rw [hsmall] at hy
  have hyear : y.bmod (2 ^ 16) - (if m ≤ 2 then 1 else 0) =
      ((yoe + z / 146097 * 400 : Nat) : Int) := by
    rw [← hy, hsmall]
    push_cast
    omega
  have hera' : ((yoe + z / 146097 * 400 : Nat) : Int).tdiv 400 = ((z / 146097 : Nat) : Int) := by
    rw [Int.tdiv_eq_ediv_of_nonneg (Int.natCast_nonneg _)]
    omega
  have hyoe' : (((yoe + z / 146097 * 400 : Nat) : Int) -
      ((z / 146097 : Nat) : Int) * 400).toNat = yoe := by omega
  refine ⟨?_, ?_, hm1, hm12, hd1, hd31, ?_⟩
  · rw [← hy]
    split <;> omega
  · rw [← hy]
    split <;> omega
  · have hday : yoe * 365 + yoe / 4 - yoe / 100 + doy = doe := by
      rw [Nat.mul_comm yoe, ← hdoy, Nat.add_sub_cancel' hstart]
    have hsplit : ((z / 146097 : Nat) : Int) * 146097 + ((z % 146097 : Nat) : Int) = z := by
      exact_mod_cast Nat.div_add_mod' z 146097
    rw [to_days]
    simp only [hyear, if_pos (Int.natCast_nonneg _), hera', hyoe', hback]
    rw [hday, ← hmod, hsplit, ← hz, Int.add_sub_cancel]

/-! ## The time of day -/

theorem floorDays_eq (dt : Int) : floorDays dt = dt / (86400 * den) := by
  rw [floorDays, den]
  rcases le_or_gt 0 dt with h | h
  · rw [Int.tdiv_eq_ediv_of_nonneg h, if_neg (by omega)]
  · have hneg : dt.tdiv (86400 * 1000000000) = -(-dt / (86400 * 1000000000)) := by
      rw [← Int.tdiv_eq_ediv_of_nonneg (by omega : 0 ≤ -dt), Int.neg_tdiv, neg_neg]
    rw [hneg]
    split <;> omega

/-- Seconds and nanoseconds, with the nanoseconds of a time before 1970 counted up from the
second before. -/
theorem seconds_eq (count : Int) :
    (if count - count.tdiv den * den < 0 then (count - count.tdiv den * den + den, count.tdiv den - 1)
      else (count - count.tdiv den * den, count.tdiv den)) = (count % den, count / den) := by
  rw [den]
  rcases le_or_gt 0 count with h | h
  · rw [Int.tdiv_eq_ediv_of_nonneg h, if_neg (by omega)]
    congr 1
    omega
  · have hneg : count.tdiv 1000000000 = -(-count / 1000000000) := by
      rw [← Int.tdiv_eq_ediv_of_nonneg (by omega : 0 ≤ -count), Int.neg_tdiv, neg_neg]
    rw [hneg]
    split
    · congr 1 <;> omega
    · congr 1 <;> omega

/-! ## Texts -/

theorem readInt_fixed {w n lo : Nat} (h : n < 10 ^ w) (hlo : lo ≤ w) (s : List UInt8) :
    readInt (fixed w n ++ s) lo w 0 = .ok (n, s) := by
  rw [readInt, readDigits_fixed h]
  simp only [if_pos hlo, if_true]

theorem readInt_padded {w n lo : Nat} (h : n < 10 ^ w) (hlo : lo ≤ w) (s : List UInt8) :
    readInt (fixed w n ++ s) lo w w = .ok (n, s) := by
  rw [readInt, readDigits_fixed h]
  simp only [if_pos hlo, Nat.sub_self, Nat.pow_zero, Nat.mul_one, ite_self]

section Format

variable {fuel : Nat} {c f : UInt8} {sp sp' fp : List UInt8} {optional : Bool} {t t' : Timetuple}

theorem readDtime_field (hsp : sp ≠ []) (hread : t.read f sp = .ok (t', sp')) :
    readDtime (fuel + 1) sp (37 :: f :: fp) optional t = readDtime fuel sp' fp optional t' := by
  obtain ⟨s, sp, rfl⟩ := List.exists_cons_of_ne_nil hsp
  conv => lhs; unfold readDtime
  rw [if_neg (by decide), if_neg (by decide), if_pos rfl]
  simp only [hread]

theorem readDtime_char (h91 : c ≠ 91) (h93 : c ≠ 93) (h37 : c ≠ 37) :
    readDtime (fuel + 1) (c :: sp) (c :: fp) optional t = readDtime fuel sp fp optional t := by
  conv => lhs; unfold readDtime
  rw [if_neg h91, if_neg h93, if_neg h37, if_pos rfl]

theorem readDtime_open (hsp : sp ≠ []) :
    readDtime (fuel + 1) sp (91 :: fp) optional t = readDtime fuel sp fp true t := by
  obtain ⟨s, sp, rfl⟩ := List.exists_cons_of_ne_nil hsp
  conv => lhs; unfold readDtime
  rw [if_pos rfl]

theorem readDtime_close (hsp : sp ≠ []) :
    readDtime (fuel + 1) sp (93 :: fp) optional t = readDtime fuel sp fp false t := by
  obtain ⟨s, sp, rfl⟩ := List.exists_cons_of_ne_nil hsp
  conv => lhs; unfold readDtime
  rw [if_neg (by decide), if_pos rfl]

/-- What is optional is passed over. -/
theorem readDtime_skip (h91 : f ≠ 91) (h93 : f ≠ 93) (h37 : f ≠ 37) (hne : c ≠ f) :
    readDtime (fuel + 1) (c :: sp) (f :: fp) true t =
      readDtime fuel (c :: sp) (skipOptional (f :: fp)) false t := by
  conv => lhs; unfold readDtime
  rw [if_neg h91, if_neg h93, if_neg h37, if_neg hne, if_pos rfl]

end Format

section Fields

variable (t : Timetuple) (s : List UInt8) {n : Nat}

theorem read_Y (h : n < 10 ^ 4) : t.read 89 (fixed 4 n ++ s) = .ok ({ t with y := n }, s) := by
  rw [Timetuple.read, if_neg (by decide), if_neg (by decide), if_neg (by decide), if_pos rfl,
    readInt_fixed h le_rfl]
  rfl

theorem read_m (h : n < 10 ^ 2) : t.read 109 (fixed 2 n ++ s) = .ok ({ t with m := n }, s) := by
  rw [Timetuple.read, if_pos rfl, readInt_fixed h (by decide)]
  rfl

theorem read_d (h : n < 10 ^ 2) : t.read 100 (fixed 2 n ++ s) = .ok ({ t with d := n }, s) := by
  rw [Timetuple.read, if_neg (by decide), if_pos rfl, readInt_fixed h (by decide)]
  rfl

theorem read_H (h : n < 10 ^ 2) : t.read 72 (fixed 2 n ++ s) = .ok ({ t with h := n }, s) := by
  rw [Timetuple.read, if_neg (by decide), if_neg (by decide), if_neg (by decide),
    if_neg (by decide), if_pos rfl, readInt_fixed h (by decide)]
  rfl

theorem read_M (h : n < 10 ^ 2) : t.read 77 (fixed 2 n ++ s) = .ok ({ t with mn := n }, s) := by
  rw [Timetuple.read, if_neg (by decide), if_neg (by decide), if_neg (by decide),
    if_neg (by decide), if_neg (by decide), if_pos rfl, readInt_fixed h (by decide)]
  rfl

theorem read_S (h : n < 10 ^ 2) : t.read 83 (fixed 2 n ++ s) = .ok ({ t with sec := n }, s) := by
  rw [Timetuple.read, if_neg (by decide), if_neg (by decide), if_neg (by decide),
    if_neg (by decide), if_neg (by decide), if_neg (by decide), if_pos rfl,
    readInt_fixed h (by decide)]
  rfl

theorem read_s (h : n < 10 ^ 9) : t.read 115 (fixed 9 n ++ s) = .ok ({ t with nsec := n }, s) := by
  rw [Timetuple.read, if_neg (by decide), if_neg (by decide), if_neg (by decide),
    if_neg (by decide), if_neg (by decide), if_neg (by decide), if_neg (by decide), if_pos rfl,
    readInt_padded h (by decide)]
  rfl

end Fields

theorem fixed_append_ne_nil (w n : Nat) (s : List UInt8) : fixed (w + 1) n ++ s ≠ [] := by
  rw [fixed, List.append_assoc]
  simp

/-- The text of a time with its numbers, and with the fraction as it is written. -/
def timeText (y m d h mn sec : Nat) (fraction zone : List UInt8) : List UInt8 :=
  fixed 4 y ++ 45 :: (fixed 2 m ++ 45 :: (fixed 2 d ++ 32 :: (fixed 2 h ++ 58 :: (fixed 2 mn ++
    58 :: (fixed 2 sec ++ (fraction ++ 32 :: zone))))))

/-- The text of a time with its numbers. -/
def textOf (y m d h mn sec nsec : Nat) (zone : List UInt8) : List UInt8 :=
  fixed 4 y ++ 45 :: (fixed 2 m ++ 45 :: (fixed 2 d ++ 32 :: (fixed 2 h ++ 58 :: (fixed 2 mn ++
    58 :: (fixed 2 sec ++ ((if nsec ≠ 0 then 46 :: fixed 9 nsec else []) ++ 32 :: zone))))))

/-- A text is read with the format that it is written in. -/
theorem readDtime_timeText {y m d h mn sec nsec : Nat} (hy : y < 10 ^ 4) (hm : m < 10 ^ 2)
    (hd : d < 10 ^ 2) (hh : h < 10 ^ 2) (hmn : mn < 10 ^ 2) (hsec : sec < 10 ^ 2)
    (hnsec : nsec < 10 ^ 9) {fraction : List UInt8}
    (hfraction : fraction = [] ∧ nsec = 0 ∨ fraction = 46 :: fixed 9 nsec) {zone : List UInt8}
    (hzone : zone ≠ []) (hchars : ∀ c ∈ zone, isZoneChar c = true) :
    readDtime defaultFormat.length (timeText y m d h mn sec fraction zone) defaultFormat false {} =
      .ok ⟨y, m, d, h, mn, sec, nsec, zone⟩ := by
  have hread (t : Timetuple) : t.read 90 zone = .ok ({ t with tz := zone }, []) := by
    have htake : zone.takeWhile isZoneChar = zone := List.takeWhile_eq_self_iff.mpr hchars
    rw [Timetuple.read, if_neg (by decide), if_neg (by decide), if_neg (by decide),
      if_neg (by decide), if_neg (by decide), if_neg (by decide), if_neg (by decide),
      if_neg (by decide), if_pos rfl, readString, htake, if_neg hzone,
      List.dropWhile_eq_nil_iff.mpr hchars]
    rfl
  rw [defaultFormat, timeText]
  show readDtime 25 _ _ _ _ = _
  rw [readDtime_field (fixed_append_ne_nil _ _ _) (read_Y _ _ hy),
    readDtime_char (by decide) (by decide) (by decide),
    readDtime_field (fixed_append_ne_nil _ _ _) (read_m _ _ hm),
    readDtime_char (by decide) (by decide) (by decide),
    readDtime_field (fixed_append_ne_nil _ _ _) (read_d _ _ hd),
    readDtime_char (by decide) (by decide) (by decide),
    readDtime_field (fixed_append_ne_nil _ _ _) (read_H _ _ hh),
    readDtime_char (by decide) (by decide) (by decide),
    readDtime_field (fixed_append_ne_nil _ _ _) (read_M _ _ hmn),
    readDtime_char (by decide) (by decide) (by decide),
    readDtime_field (fixed_append_ne_nil _ _ _) (read_S _ _ hsec)]
  rcases hfraction with ⟨rfl, rfl⟩ | rfl
  · -- the fraction is missing, and the format is taken up behind it
    rw [List.nil_append, readDtime_open (List.cons_ne_nil _ _),
      readDtime_skip (by decide) (by decide) (by decide) (by decide)]
    show readDtime _ _ [32, 37, 90] _ _ = _
    rw [readDtime_char (by decide) (by decide) (by decide), readDtime_field hzone (hread _)]
    rfl
  · rw [List.cons_append, readDtime_open (List.cons_ne_nil _ _),
      readDtime_char (by decide) (by decide) (by decide),
      readDtime_field (fixed_append_ne_nil _ _ _) (read_s _ _ hnsec),
      readDtime_close (List.cons_ne_nil _ _),
      readDtime_char (by decide) (by decide) (by decide), readDtime_field hzone (hread _)]
    rfl

/-! ## Round trip -/

/-- A zone without transitions that is not off, as the one of UTC. -/
structure Level (z : Zone) : Prop where
  transitions : z.transitions = []
  offset : (z.tti z.defaulttype).tt_gmtoff = 0

variable {z : Zone}

theorem gmtoff_level (h : Level z) : z.gmtoff z.defaulttype = 0 := by
  rw [Zone.gmtoff, h.offset, Int.zero_mul]

theorem getoffset_level (h : Level z) (dt : Int) :
    z.getoffset dt = some (0, (z.tti z.defaulttype).tt_abbrind) := by
  have hcnt : z.timecnt = 0 := by rw [Zone.timecnt, h.transitions, List.length_nil]
  rw [Zone.getoffset, hcnt, gmtoff_level h]
  simp only [ne_eq, not_true_eq_false, false_and, if_false]

theorem getReverseOffset_level (h : Level z) (dt : dtime) : z.getReverseOffset dt = some {0} := by
  have hcnt : z.timecnt = 0 := by rw [Zone.timecnt, h.transitions, List.length_nil]
  have hrl : z.buildRl = [(timeMin, {z.defaulttype}), (timeMax, {z.defaulttype})] := by
    rw [Zone.buildRl, hcnt]
    rfl
  have hlo : timeMin ≤ dt.ns.toInt.tdiv den := by
    have hle := Int64.le_toInt dt.ns
    obtain ⟨-, hlt⟩ := Zone.tdiv_bounds dt.ns.toInt
    rw [timeMin]
    rw [den] at hlt ⊢
    omega
  rw [Zone.getReverseOffset, hrl, OrdMap.floor?, if_pos hlo, OrdMap.floor?]
  split
  · simp [OrdMap.floor?, gmtoff_level h]
  · simp [gmtoff_level h]

/-- The numbers of a time in such a zone give the time that they stand for. -/
theorem dtime_from_numbers_level (h : Level z) {y : Int} {m d hr mn sec nsec : Nat}
    (hc : Zone.Checked m d hr mn sec nsec) :
    z.dtime_from_numbers y m d hr mn sec nsec =
      .ok (localTime y m d hr mn sec nsec).ns.toInt () := by
  obtain ⟨hm, hm', hd, hd', hh, hmn, hsec, hnsec⟩ := hc
  rw [Zone.dtime_from_numbers, if_neg (by omega), if_neg (by omega), if_neg (by omega),
    if_neg (by omega), if_neg (by omega), if_neg (by omega)]
  simp only [getReverseOffset_level h, Finset.sort_singleton, Int.sub_zero]

/-- The text of a time in such a zone, and the numbers it is written with. -/
theorem to_stringFractional_level (h : Level z) (dt : dtime) (zone : List UInt8)
    (fractional : Bool) :
    ∃ y m d hr mn sec nsec, to_stringFractional dt z zone fractional =
        some (timeText y m d hr mn sec
          (if nsec ≠ 0 ∨ fractional then 46 :: fixed 9 nsec else []) zone) ∧
      y < 10 ^ 4 ∧ Zone.Checked m d hr mn sec nsec ∧ localTime y m d hr mn sec nsec = dt := by
  have hlo := Int64.le_toInt dt.ns
  have hhi := Int64.toInt_lt dt.ns
  have hcount : (Int64.ofInt (dt.ns.toInt + 0)).toInt = dt.ns.toInt := by
    rw [Int.add_zero, Int64.ofInt_toInt]
  obtain ⟨⟨y, m, d⟩, hymd⟩ : ∃ p, from_days (floorDays dt.ns.toInt) = p := ⟨_, rfl⟩
  have hdays := floorDays_eq dt.ns.toInt
  obtain ⟨hy, hy', hm, hm', hd, hd', hback⟩ := from_days_spec
    (by rw [hdays, den]; omega) (by rw [hdays, den]; omega) hymd
  have hseconds := seconds_eq dt.ns.toInt
  obtain ⟨count, hn⟩ : ∃ count, dt.ns.toInt = count := ⟨_, rfl⟩
  rw [hn] at hlo hhi hcount hymd hdays hseconds
  rw [den] at hdays
  -- the nanoseconds and the seconds of the day
  obtain ⟨nsec, hnsec⟩ : ∃ n : Nat, count % 1000000000 = n := ⟨(count % 1000000000).toNat, by omega⟩
  obtain ⟨zrem, hzrem⟩ : ∃ n : Nat, count / 1000000000 % 86400 = n :=
    ⟨(count / 1000000000 % 86400).toNat, by omega⟩
  have hrem : (count / 1000000000 - count / 1000000000 / (3600 * 24) * (3600 * 24)).toNat = zrem := by
    omega
  refine ⟨y.toNat, m, d, zrem / 3600, zrem % 3600 / 60, zrem % 3600 % 60, nsec, ?_, by omega,
    ⟨hm, hm', hd, hd', by omega, by omega, by omega, by omega⟩, ?_⟩
  · have hyear : yearText y = fixed 4 y.toNat := by
      rw [yearText, if_neg (by omega), pad_eq_fixed (by omega) (by decide)]
    rw [to_stringFractional, hn, getoffset_level h, Option.map_some]
    simp only [hcount, hymd, hseconds]
    rw [den, hnsec, hrem, hyear, Int.toNat_natCast, pad_eq_fixed (by omega) (by decide),
      pad_eq_fixed (by omega) (by decide), pad_eq_fixed (by omega) (by decide),
      pad_eq_fixed (by omega) (by decide), pad_eq_fixed (by omega) (by decide),
      pad_eq_fixed (by omega) (by decide), timeText]
    simp only [ne_eq, Nat.cast_eq_zero]
  · have hsum : (to_days y m d * 86400 + ((zrem / 3600 * 3600 + zrem % 3600 / 60 * 60 +
        zrem % 3600 % 60 : Nat) : Int)) * den + nsec = count := by
      rw [hback, hn, hdays, den]
      omega
    rw [localTime, Int.toNat_of_nonneg (by omega)]
    push_cast at hsum ⊢
    rw [hsum, ← hn, Int64.ofInt_toInt]

theorem to_string_level (h : Level z) (dt : dtime) (zone : List UInt8) :
    ∃ y m d hr mn sec nsec, to_string dt z zone = some (textOf y m d hr mn sec nsec zone) ∧
      y < 10 ^ 4 ∧ Zone.Checked m d hr mn sec nsec ∧ localTime y m d hr mn sec nsec = dt := by
  obtain ⟨y, m, d, hr, mn, sec, nsec, htext, hspec⟩ := to_stringFractional_level h dt zone false
  refine ⟨y, m, d, hr, mn, sec, nsec, ?_, hspec⟩
  rw [← to_stringFractional_false, htext, timeText, textOf]
  simp only [Bool.false_eq_true, or_false]

/-- A time in such a zone is read as it was written, with a fraction or without. -/
theorem dtime_from_string_to_stringFractional (h : Level z) (dt : dtime) (fractional : Bool)
    {zone : List UInt8} (hzone : zone ≠ []) (hchars : ∀ c ∈ zone, isZoneChar c = true)
    {tzones : List UInt8 → Except Exn Zone} (hfind : tzones zone = .ok z) :
    ∃ text, to_stringFractional dt z zone fractional = some text ∧
      dtime_from_string tzones text defaultFormat [] = .ok dt () := by
  obtain ⟨y, m, d, hr, mn, sec, nsec, htext, hy, hc, hlocal⟩ :=
    to_stringFractional_level h dt zone fractional
  refine ⟨_, htext, ?_⟩
  have hbounds := hc
  obtain ⟨-, hm, -, hd, hh, hmn, hsec, hnsec⟩ := hbounds
  have hfraction : (if nsec ≠ 0 ∨ fractional then 46 :: fixed 9 nsec else []) = [] ∧ nsec = 0 ∨
      (if nsec ≠ 0 ∨ fractional then 46 :: fixed 9 nsec else []) = 46 :: fixed 9 nsec := by
    split
    · exact Or.inr rfl
    · next hnone => exact Or.inl ⟨rfl, not_not.mp fun hne => hnone (Or.inl hne)⟩
  rw [dtime_from_string, readDtime_timeText hy (by omega) (by omega) (by omega) (by omega)
    (by omega) (by omega) hfraction hzone hchars]
  simp only [hzone, false_and, if_false, ne_eq, not_false_eq_true, if_true, hfind,
    dtime_from_numbers_level h hc, Outcome.bind_ok, hlocal, Int64.ofInt_toInt]

theorem dtime_from_string_to_string (h : Level z) (dt : dtime) {zone : List UInt8}
    (hzone : zone ≠ []) (hchars : ∀ c ∈ zone, isZoneChar c = true)
    {tzones : List UInt8 → Except Exn Zone} (hfind : tzones zone = .ok z) :
    ∃ text, to_string dt z zone = some text ∧
      dtime_from_string tzones text defaultFormat [] = .ok dt () := by
  rw [← to_stringFractional_false]
  exact dtime_from_string_to_stringFractional h dt false hzone hchars hfind

end Ztsdb.Tz
