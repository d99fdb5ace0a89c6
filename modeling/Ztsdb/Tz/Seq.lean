import Mathlib
import Ztsdb.Tz.FloorTz
import Ztsdb.Tz.Lookup
import Ztsdb.Tz.Period

/-!
# Sequences of times

`seq` adds a period to a time again and again until it passes another one. Months, days and the
changes of the zone may take a step anywhere, and what ends the loop is that every time has to
come nearer than the one before; it is compared after it has been stored.

Times and distances are counts of 64 bits, and their sums and differences wrap.
-/

namespace Ztsdb.Tz

open Ztsdb.Lib Ztsdb.Arr

/-- `tz::plus` on counts of 64 bits. -/
def wrappedPlus (dt : dtime) (p : period) (z : Zone) : Option dtime :=
  (z.getoffsetDir dt.ns.toInt (-1) 1).bind fun (offset, pos) =>
    let shown := (Int64.ofInt (dt.ns.toInt + offset)).toInt
    let res :=
      if p.months ≠ 0 then
        let dt_floor := floorDays shown
        let timeofday_offset := shown - dt_floor * (86400 * den)
        let (y, m, d) := addMonths (from_days dt_floor) p.months
        to_days y m d * (86400 * den) - offset + timeofday_offset
      else dt.ns.toInt
    (z.getoffsetDir dt.ns.toInt pos 1).bind fun (offset, pos) =>
      let res := (Int64.ofInt (res + p.days * (24 * 3600 * den) + p.dur)).toInt
      let direction := if dt.ns.toInt ≤ res then 1 else -1
      (z.getoffsetDir res pos direction).map fun (newoffset, _) =>
        ⟨Int64.ofInt (if newoffset ≠ offset then res + (offset - newoffset) else res)⟩

/-- `tz::abs`. -/
def durationAbs (d : Int64) : Int64 := if 0 ≤ d then d else -d

/-- A time has gone past `to`, seen from the side that `pos` tells. -/
def past (pos : Bool) (to_ next : dtime) : Bool :=
  if pos then decide (to_.ns < next.ns) else decide (next.ns < to_.ns)

/-- The loop of `seq`: what is stored behind `back`. -/
def seqLoop (to_ : dtime) (byPeriod : period) (z : Zone) (pos : Bool) (back : dtime)
    (olddist : Int64) : Outcome Exn Unit (List dtime) :=
  match wrappedPlus back byPeriod z with
  | none => .fault
  | some next =>
    if past pos to_ next then .ok [] ()
    else
      let dist := durationAbs (to_.ns - next.ns)
      if olddist ≤ dist then .throw (.rangeError "incorrect specification for 'to'/'by'") ()
      else (seqLoop to_ byPeriod z pos next dist).bind fun r _ => .ok (next :: r) ()
termination_by (olddist.toInt + 2 ^ 63).toNat
decreasing_by
  have hnot : ¬olddist ≤ durationAbs (to_.ns - next.ns) := by assumption
  have hlt := Int64.lt_iff_toInt_lt.mp (Int64.not_le.mp hnot)
  have hlo := Int64.le_toInt (durationAbs (to_.ns - next.ns))
  omega

/-- `ztsdb::seq(from, to, by, z)`. -/
def seq (from_ to_ : dtime) (byPeriod : period) (z : Zone) : Outcome Exn Unit (List dtime) :=
  let diff := to_.ns - from_.ns
  (seqLoop to_ byPeriod z (decide (0 ≤ diff)) from_ (durationAbs diff)).bind fun r _ =>
    .ok (from_ :: r) ()

/-! ## The steps -/

/-- There is a sum at every time. -/
theorem wrappedPlus_total (dt : dtime) (p : period) (z : Zone) : ∃ t, wrappedPlus dt p z = some t := by
  have hstart : z.Held (-1) := by
    rw [Zone.Held]
    omega
  obtain ⟨_, -, pos, hget, hheld⟩ := Zone.getoffsetDir_total dt.ns.toInt 1 hstart
  obtain ⟨_, -, pos', hget', hheld'⟩ := Zone.getoffsetDir_total dt.ns.toInt 1 hheld
  rw [wrappedPlus, hget, Option.bind_some]
  simp only [hget', Option.bind_some]
  generalize (Int64.ofInt _).toInt = res
  obtain ⟨_, -, _, hlast, -⟩ := Zone.getoffsetDir_total res (if dt.ns.toInt ≤ res then 1 else -1) hheld'
  rw [hlast]
  exact ⟨_, rfl⟩

/-- The time a step leads to. -/
def stepped (byPeriod : period) (z : Zone) (t : dtime) : dtime := (wrappedPlus t byPeriod z).getD t

theorem wrappedPlus_eq (byPeriod : period) (z : Zone) (t : dtime) :
    wrappedPlus t byPeriod z = some (stepped byPeriod z t) := by
  obtain ⟨t', ht'⟩ := wrappedPlus_total t byPeriod z
  rw [stepped, ht', Option.getD_some]

/-- The times that the steps from a time lead to. -/
def orbit (byPeriod : period) (z : Zone) (t : dtime) : Nat → dtime
  | 0 => t
  | n + 1 => orbit byPeriod z (stepped byPeriod z t) n

/-- How far a time is from `to`, as it is computed. -/
def computedDist (to_ t : dtime) : Int64 := durationAbs (to_.ns - t.ns)

/-- The steps go past `to` behind the `n`-th one, and every one before comes nearer, in the
distances as they are computed. -/
structure Passes (to_ : dtime) (byPeriod : period) (z : Zone) (pos : Bool) (t : dtime) (n : Nat) :
    Prop where
  nearer : ∀ i < n, past pos to_ (orbit byPeriod z t (i + 1)) = false ∧
    computedDist to_ (orbit byPeriod z t (i + 1)) < computedDist to_ (orbit byPeriod z t i)
  past : past pos to_ (orbit byPeriod z t (n + 1)) = true

variable {to_ t : dtime} {byPeriod : period} {z : Zone} {pos : Bool}

theorem passes_zero_iff :
    Passes to_ byPeriod z pos t 0 ↔ past pos to_ (stepped byPeriod z t) = true :=
  ⟨fun h => h.past, fun h => ⟨fun i hi => absurd hi (Nat.not_lt_zero i), h⟩⟩

theorem passes_succ_iff {n : Nat} :
    Passes to_ byPeriod z pos t (n + 1) ↔ past pos to_ (stepped byPeriod z t) = false ∧
      computedDist to_ (stepped byPeriod z t) < computedDist to_ t ∧
      Passes to_ byPeriod z pos (stepped byPeriod z t) n := by
  constructor
  · intro h
    obtain ⟨hnot, hlt⟩ := h.nearer 0 (Nat.zero_lt_succ n)
    exact ⟨hnot, hlt, fun i hi => h.nearer (i + 1) (by omega), h.past⟩
  · intro ⟨hnot, hlt, h⟩
    refine ⟨fun i hi => ?_, h.past⟩
    cases i with
    | zero => exact ⟨hnot, hlt⟩
    | succ i => exact h.nearer i (by omega)

/-- The loop throws, or it has stored the steps up to the one that goes past. -/
theorem seqLoop_spec (t : dtime) :
    (∃ n, Passes to_ byPeriod z pos t n ∧ seqLoop to_ byPeriod z pos t (computedDist to_ t) =
      .ok ((List.range n).map fun i => orbit byPeriod z t (i + 1)) ()) ∨
    (∀ n, ¬Passes to_ byPeriod z pos t n) ∧
      ∃ e, seqLoop to_ byPeriod z pos t (computedDist to_ t) = .throw e () := by
  generalize hdist : computedDist to_ t = dist
  fun_induction seqLoop to_ byPeriod z pos t dist with
  | case1 t dist hnone =>
      rw [wrappedPlus_eq] at hnone
      cases hnone
  | case2 t dist next hnext hpast =>
      rw [wrappedPlus_eq] at hnext
      cases hnext
      exact Or.inl ⟨0, passes_zero_iff.mpr hpast, rfl⟩
  | case3 t dist next hnext hpast dist' hle =>
      rw [wrappedPlus_eq] at hnext
      cases hnext
      rw [Bool.not_eq_true] at hpast
      refine Or.inr ⟨fun n h => ?_, _, rfl⟩
      cases n with
      | zero => exact Bool.noConfusion (hpast.symm.trans (passes_zero_iff.mp h))
      | succ n =>
          obtain ⟨-, hlt, -⟩ := passes_succ_iff.mp h
          rw [hdist] at hlt
          exact absurd hle (Int64.not_le.mpr hlt)
  | case4 t dist next hnext hpast dist' hlt ih =>
      rw [wrappedPlus_eq] at hnext
      cases hnext
      rw [Bool.not_eq_true] at hpast
      have hnear : computedDist to_ (stepped byPeriod z t) < computedDist to_ t := by
        rw [hdist]
        exact Int64.not_le.mp hlt
      rcases ih rfl with ⟨n, hn, hrun⟩ | ⟨hnone, e, hrun⟩
      · refine Or.inl ⟨n + 1, passes_succ_iff.mpr ⟨hpast, hnear, hn⟩, ?_⟩
        rw [hrun, Outcome.bind_ok, List.range_succ_eq_map, List.map_cons, List.map_map]
        rfl
      · refine Or.inr ⟨fun n h => ?_, e, by rw [hrun, Outcome.bind_throw]⟩
        cases n with
        | zero => exact Bool.noConfusion (hpast.symm.trans (passes_zero_iff.mp h))
        | succ n => exact hnone n (passes_succ_iff.mp h).2.2

theorem orbit_succ (n : Nat) : orbit byPeriod z t (n + 1) = stepped byPeriod z (orbit byPeriod z t n) := by
  induction n generalizing t with
  | zero => rfl
  | succ n ih => exact ih

/-- The side of `to` that the first difference tells. -/
def side (from_ to_ : dtime) : Bool := decide (0 ≤ to_.ns - from_.ns)

variable {from_ : dtime}

/-- `seq` throws, or it returns the steps up to the one that goes past. -/
theorem seq_spec :
    (∃ n, Passes to_ byPeriod z (side from_ to_) from_ n ∧ seq from_ to_ byPeriod z =
      .ok ((List.range (n + 1)).map (orbit byPeriod z from_)) ()) ∨
    (∀ n, ¬Passes to_ byPeriod z (side from_ to_) from_ n) ∧
      ∃ e, seq from_ to_ byPeriod z = .throw e () := by
  have hseq : seq from_ to_ byPeriod z =
      (seqLoop to_ byPeriod z (side from_ to_) from_ (computedDist to_ from_)).bind fun r _ =>
        .ok (from_ :: r) () := rfl
  rw [hseq]
  rcases @seqLoop_spec to_ byPeriod z (side from_ to_) from_ with ⟨n, hn, hrun⟩ | ⟨hnone, e, hrun⟩
  · refine Or.inl ⟨n, hn, ?_⟩
    rw [hrun, Outcome.bind_ok, List.range_succ_eq_map, List.map_cons, List.map_map]
    rfl
  · exact Or.inr ⟨hnone, e, by rw [hrun, Outcome.bind_throw]⟩

/-! ## What a sequence is -/

/-- A time is past `to`, seen from `from`. -/
def Beyond (from_ to_ x : dtime) : Prop :=
  if from_.ns.toInt ≤ to_.ns.toInt then to_.ns.toInt < x.ns.toInt else x.ns.toInt < to_.ns.toInt

/-- The first element is `from`, every other one is the sum of the one before and the period and
comes nearer to `to`, none is past `to`, and the next one would be. -/
structure IsSeq (from_ to_ : dtime) (byPeriod : period) (z : Zone) (r : List dtime) : Prop where
  head : r.head? = some from_
  step : r.IsChain fun a b => wrappedPlus a byPeriod z = some b ∧
    |to_.ns.toInt - b.ns.toInt| < |to_.ns.toInt - a.ns.toInt|
  within : ∀ x ∈ r, ¬Beyond from_ to_ x
  next : ∃ last ∈ r.getLast?, ∃ t, wrappedPlus last byPeriod z = some t ∧ Beyond from_ to_ t

/-- `seq` returns such a sequence, or it throws. -/
def Sequences (from_ to_ : dtime) (byPeriod : period) (z : Zone) : Prop :=
  (∃ r, seq from_ to_ byPeriod z = .ok r () ∧ IsSeq from_ to_ byPeriod z r) ∨
    ∃ e, seq from_ to_ byPeriod z = .throw e ()

/-- The steps do not go past `to`, or the differences to it are not wrapped on the way. -/
def Unwrapped (from_ to_ : dtime) (byPeriod : period) (z : Zone) : Prop :=
  ∀ n, Passes to_ byPeriod z (side from_ to_) from_ n →
    Fits (to_.ns.toInt - from_.ns.toInt) ∧
      ∀ i < n, |to_.ns.toInt - (orbit byPeriod z from_ (i + 1)).ns.toInt| < 2 ^ 63

/-! ## Differences that are not wrapped -/

theorem toInt_sub_of_fits (h : Fits (to_.ns.toInt - t.ns.toInt)) :
    (to_.ns - t.ns).toInt = to_.ns.toInt - t.ns.toInt := by
  rw [Int64.toInt_sub]
  exact bmod_of_fits h.1 h.2

theorem past_iff {x : dtime} (h : Fits (to_.ns.toInt - from_.ns.toInt)) :
    past (side from_ to_) to_ x = true ↔ Beyond from_ to_ x := by
  have hside : side from_ to_ = true ↔ from_.ns.toInt ≤ to_.ns.toInt := by
    rw [side, decide_eq_true_iff, Int64.le_iff_toInt_le, toInt_sub_of_fits h]
    simp
  rw [past, Beyond]
  by_cases hle : from_.ns.toInt ≤ to_.ns.toInt
  · rw [if_pos (hside.mpr hle), if_pos hle, decide_eq_true_iff, Int64.lt_iff_toInt_lt]
  · rw [if_neg fun h => hle (hside.mp h), if_neg hle, decide_eq_true_iff, Int64.lt_iff_toInt_lt]

theorem toInt_computedDist (h : |to_.ns.toInt - t.ns.toInt| < 2 ^ 63) :
    (computedDist to_ t).toInt = |to_.ns.toInt - t.ns.toInt| := by
  obtain ⟨hlo, hhi⟩ := abs_lt.mp h
  have hfits := @toInt_sub_of_fits to_ t ⟨hlo.le, hhi⟩
  rw [computedDist, durationAbs]
  split
  · next h0 =>
      have hpos : 0 ≤ (to_.ns - t.ns).toInt := Int64.le_iff_toInt_le.mp h0
      rw [hfits] at hpos ⊢
      rw [abs_of_nonneg hpos]
  · next hneg =>
      have hlt : (to_.ns - t.ns).toInt < 0 := Int64.lt_iff_toInt_lt.mp (Int64.not_le.mp hneg)
      rw [hfits] at hlt
      rw [Int64.toInt_neg, hfits, abs_of_neg hlt, bmod_of_fits (by omega) (by omega)]

/-- A difference that wraps has the other sign. -/
theorem side_of_not_fits (h : ¬Fits (to_.ns.toInt - from_.ns.toInt)) :
    side from_ to_ = true ↔ ¬from_.ns.toInt ≤ to_.ns.toInt := by
  have hfrom := Int64.le_toInt from_.ns
  have hfrom' := Int64.toInt_lt from_.ns
  have hto := Int64.le_toInt to_.ns
  have hto' := Int64.toInt_lt to_.ns
  rw [side, decide_eq_true_iff, Int64.le_iff_toInt_le, Int64.toInt_sub]
  rw [Fits] at h
  by_cases hle : from_.ns.toInt ≤ to_.ns.toInt
  · have hwrap : (to_.ns.toInt - from_.ns.toInt).bmod (2 ^ 64) =
        to_.ns.toInt - from_.ns.toInt - 2 ^ 64 := by
      rw [← Int.sub_bmod_right _ (2 ^ 64)]
      exact bmod_of_fits (by omega) (by omega)
    rw [hwrap]
    simp only [Int64.toInt_zero]
    omega
  · have hwrap : (to_.ns.toInt - from_.ns.toInt).bmod (2 ^ 64) =
        to_.ns.toInt - from_.ns.toInt + 2 ^ 64 := by
      rw [← Int.add_bmod_right _ (2 ^ 64)]
      exact bmod_of_fits (by omega) (by omega)
    rw [hwrap]
    simp only [Int64.toInt_zero]
    omega

/-- What the next element is past tells on which side `to` was taken to be. -/
theorem fits_of_beyond {x : dtime} (hpast : past (side from_ to_) to_ x = true)
    (hbeyond : Beyond from_ to_ x) : Fits (to_.ns.toInt - from_.ns.toInt) := by
  by_contra hnot
  have hside := side_of_not_fits hnot
  rw [past] at hpast
  rw [Beyond] at hbeyond
  by_cases hle : from_.ns.toInt ≤ to_.ns.toInt
  · rw [if_neg fun h => hside.mp h hle, decide_eq_true_iff, Int64.lt_iff_toInt_lt] at hpast
    rw [if_pos hle] at hbeyond
    omega
  · rw [if_pos (hside.mpr hle), decide_eq_true_iff, Int64.lt_iff_toInt_lt] at hpast
    rw [if_neg hle] at hbeyond
    omega

/-! ## Sequences and their differences -/

/-- The elements of a sequence in the terms of the steps. -/
theorem isSeq_orbit_iff (n : Nat) :
    IsSeq from_ to_ byPeriod z ((List.range (n + 1)).map (orbit byPeriod z from_)) ↔
      (∀ i < n, |to_.ns.toInt - (orbit byPeriod z from_ (i + 1)).ns.toInt| <
        |to_.ns.toInt - (orbit byPeriod z from_ i).ns.toInt|) ∧
      (∀ i ≤ n, ¬Beyond from_ to_ (orbit byPeriod z from_ i)) ∧
      Beyond from_ to_ (orbit byPeriod z from_ (n + 1)) := by
  have hchain : ((List.range (n + 1)).map (orbit byPeriod z from_)).IsChain (fun a b =>
      wrappedPlus a byPeriod z = some b ∧
        |to_.ns.toInt - b.ns.toInt| < |to_.ns.toInt - a.ns.toInt|) ↔
      ∀ i < n, |to_.ns.toInt - (orbit byPeriod z from_ (i + 1)).ns.toInt| <
        |to_.ns.toInt - (orbit byPeriod z from_ i).ns.toInt| := by
    rw [List.isChain_map, List.isChain_range_succ]
    refine forall₂_congr fun i _ => ?_
    rw [wrappedPlus_eq, ← orbit_succ]
    simp
  have hlast : ((List.range (n + 1)).map (orbit byPeriod z from_)).getLast? =
      some (orbit byPeriod z from_ n) := by
    rw [List.range_succ, List.map_append, List.map_singleton, List.getLast?_concat]
  constructor
  · intro h
    obtain ⟨last, hmem, t, ht, hbeyond⟩ := h.next
    rw [hlast] at hmem
    cases hmem
    rw [wrappedPlus_eq, ← orbit_succ] at ht
    cases ht
    refine ⟨hchain.mp h.step, fun i hi => h.within _ (List.mem_map_of_mem ?_), hbeyond⟩
    exact List.mem_range.mpr (by omega)
  · intro ⟨hstep, hwithin, hbeyond⟩
    refine ⟨?_, hchain.mpr hstep, fun x hx => ?_, _, hlast, _, ?_, hbeyond⟩
    · rw [List.range_succ_eq_map]
      rfl
    · obtain ⟨i, hi, rfl⟩ := List.mem_map.mp hx
      exact hwithin i (by have := List.mem_range.mp hi; omega)
    · rw [wrappedPlus_eq, orbit_succ]

theorem not_beyond_self : ¬Beyond from_ to_ from_ := by
  rw [Beyond]
  split <;> omega

theorem Passes.unique {m n : Nat} (hm : Passes to_ byPeriod z pos t m)
    (hn : Passes to_ byPeriod z pos t n) : m = n := by
  rcases lt_trichotomy m n with hlt | heq | hlt
  · exact Bool.noConfusion ((hn.nearer m hlt).1.symm.trans hm.past)
  · exact heq
  · exact Bool.noConfusion ((hm.nearer n hlt).1.symm.trans hn.past)

/-- Where every time comes nearer, none is farther than the first one. -/
theorem dist_lt_first {n : Nat} (h : ∀ i < n,
      |to_.ns.toInt - (orbit byPeriod z from_ (i + 1)).ns.toInt| <
        |to_.ns.toInt - (orbit byPeriod z from_ i).ns.toInt|) {i : Nat} (hi : i < n) :
    |to_.ns.toInt - (orbit byPeriod z from_ (i + 1)).ns.toInt| <
      |to_.ns.toInt - from_.ns.toInt| := by
  induction i with
  | zero => exact h 0 hi
  | succ i ih => exact (h (i + 1) hi).trans (ih (by omega))

theorem unwrapped_of_sequences (h : Sequences from_ to_ byPeriod z) :
    Unwrapped from_ to_ byPeriod z := by
  intro n hn
  rcases @seq_spec to_ byPeriod z from_ with ⟨m, hm, hok⟩ | ⟨hnone, -⟩
  · obtain rfl := hm.unique hn
    rcases h with ⟨r, hrun, hr⟩ | ⟨e, hthrow⟩
    · rw [hrun] at hok
      cases hok
      obtain ⟨hstep, -, hbeyond⟩ := (isSeq_orbit_iff m).mp hr
      have hfits := fits_of_beyond hm.past hbeyond
      refine ⟨hfits, fun i hi => (dist_lt_first hstep hi).trans_le ?_⟩
      rw [abs_le]
      rw [Fits] at hfits
      omega
    · rw [hthrow] at hok
      cases hok
  · exact absurd hn (hnone n)

theorem sequences_of_unwrapped (h : Unwrapped from_ to_ byPeriod z) :
    Sequences from_ to_ byPeriod z := by
  rcases @seq_spec to_ byPeriod z from_ with ⟨n, hn, hok⟩ | ⟨-, hthrow⟩
  · obtain ⟨hfits, hnear⟩ := h n hn
    refine Or.inl ⟨_, hok, (isSeq_orbit_iff n).mpr ⟨fun i hi => ?_, fun i hi => ?_, ?_⟩⟩
    · have hnext := hnear i hi
      rcases lt_or_ge |to_.ns.toInt - (orbit byPeriod z from_ i).ns.toInt| (2 ^ 63) with hlt | hge
      · have hdist := Int64.lt_iff_toInt_lt.mp (hn.nearer i hi).2
        rwa [toInt_computedDist hnext, toInt_computedDist hlt] at hdist
      · exact hnext.trans_le hge
    · cases i with
      | zero => exact not_beyond_self
      | succ i =>
          rw [← past_iff hfits, (hn.nearer i hi).1]
          exact Bool.false_ne_true
    · exact (past_iff hfits).mp hn.past
  · exact Or.inr hthrow

/-- `seq` ends, and it is right when no difference is wrapped on its way, and on no other input. -/
theorem sequences_iff (from_ to_ : dtime) (byPeriod : period) (z : Zone) :
    Sequences from_ to_ byPeriod z ↔ Unwrapped from_ to_ byPeriod z :=
  ⟨unwrapped_of_sequences, sequences_of_unwrapped⟩

/-- By a year from 1700 to 2200, five hundred years that 64 bits do not hold: only the first time
is returned. -/
theorem not_sequences : ¬∀ from_ to_ byPeriod z, Sequences from_ to_ byPeriod z := by
  intro h
  have hnext : stepped ⟨12, 0, 0⟩ ⟨[], [⟨0, 0⟩], 0⟩ ⟨-8520336000000000000⟩ =
      ⟨-8488800000000000000⟩ := by decide
  have hpast : Passes ⟨7258118400000000000⟩ ⟨12, 0, 0⟩ ⟨[], [⟨0, 0⟩], 0⟩
      (side ⟨-8520336000000000000⟩ ⟨7258118400000000000⟩) ⟨-8520336000000000000⟩ 0 := by
    rw [passes_zero_iff, hnext]
    decide
  obtain ⟨hfits, -⟩ := unwrapped_of_sequences (h _ _ _ _) 0 hpast
  revert hfits
  decide

end Ztsdb.Tz
