import Mathlib
import Ztsdb.Arr.Machine
import Ztsdb.Tz.Zone

/-!
# The binary search

The search for the transition of a time, with its bounds as `size_t`. A round reads the entry in
the middle, and goes on above it, below it, or stops. Below the first entry the upper bound would
wrap, and the search would read on far behind the table.

On an ascending table and a time behind its first entry neither comes about: whatever the number
of rounds, the entries below the lower bound are before the time, and those above the upper bound
behind it.
-/

namespace Ztsdb.Tz.BinarySearch

open Ztsdb.Arr

/-- The variables of `bs`. -/
structure Bounds where
  first : Nat
  last : Nat
  middle : Nat
deriving DecidableEq

/-- What comes of a round. -/
inductive Turn where
  | ends
  | outside
  | goes (s : Bounds)
deriving DecidableEq

def Bounds.make (first last : Nat) : Bounds := ⟨first, last, wrap (first + last) / 2⟩

/-- The variables before the loop. -/
def start (n : Nat) : Bounds := .make 0 (wsub n 1)

/-- The condition of the loop and its body. -/
def turn (t : Int) (ats : List Int) (s : Bounds) : Turn :=
  if s.first ≤ s.last then
    match ats[s.middle]? with
    | none => .outside
    | some x =>
      if x < t then .goes (.make (wrap (s.middle + 1)) s.last)
      else if x = t then .ends
      else .goes (.make s.first (wsub s.middle 1))
  else .ends

/-- `bs`, where the loop ends within so many rounds. -/
def bsFrom (t : Int) (ats : List Int) : Nat → Bounds → Option Nat
  | 0, _ => none
  | k + 1, s =>
    match turn t ats s with
    | .ends => some s.middle
    | .outside => none
    | .goes s => bsFrom t ats k s

/-- The rounds that are made. -/
inductive Reached (t : Int) (ats : List Int) : Bounds → Prop where
  | start : Reached t ats (start ats.length)
  | goes {s s' : Bounds} : Reached t ats s → turn t ats s = .goes s' → Reached t ats s'

/-- A round reads an entry of the table, if it reads at all, and no bound wraps. -/
structure Safe (t : Int) (ats : List Int) (s : Bounds) : Prop where
  reads : s.first ≤ s.last → s.middle < ats.length
  sum : s.first + s.last < 2 ^ 64
  below : s.first ≤ s.last → ∀ x, ats[s.middle]? = some x → t < x → s.middle ≠ 0

/-- The greatest place of an entry that is at most `t`. -/
def Greatest (t : Int) (ats : List Int) (m : Nat) : Prop :=
  (∃ x, ats[m]? = some x ∧ x ≤ t) ∧ ∀ i x, ats[i]? = some x → x ≤ t → i ≤ m

/-- The invariant of the loop. -/
structure Inv (t : Int) (ats : List Int) (s : Bounds) : Prop where
  middle : s.middle = (s.first + s.last) / 2
  last : s.last < ats.length
  first : s.first ≤ s.last + 1
  before : ∀ i x, i < s.first → ats[i]? = some x → x < t
  behind : ∀ i x, s.last < i → ats[i]? = some x → t < x

section Search

variable {t : Int} {ats : List Int} {s s' : Bounds}

theorem inv_make {first last : Nat} (hint : ats.length < 2 ^ 31) (hlast : last < ats.length)
    (hfirst : first ≤ last + 1) (hbefore : ∀ i x, i < first → ats[i]? = some x → x < t)
    (hbehind : ∀ i x, last < i → ats[i]? = some x → t < x) : Inv t ats (.make first last) where
  middle := by
    change wrap (first + last) / 2 = (first + last) / 2
    rw [wrap_of_lt (by omega)]
  last := hlast
  first := hfirst
  before := hbefore
  behind := hbehind

theorem inv_start (hlen : 0 < ats.length) (hint : ats.length < 2 ^ 31) :
    Inv t ats (start ats.length) := by
  rw [start, wsub_of_le (by omega) hlen]
  refine inv_make hint (by omega) (Nat.zero_le _) (fun i x hi => absurd hi (Nat.not_lt_zero i)) ?_
  intro i x hi hx
  have := (List.getElem?_eq_some_iff.mp hx).1
  omega

theorem get_lt (hasc : ats.Pairwise (· < ·)) {i j : Nat} {x y : Int} (hi : ats[i]? = some x)
    (hj : ats[j]? = some y) (hij : i < j) : x < y := by
  obtain ⟨hi', rfl⟩ := List.getElem?_eq_some_iff.mp hi
  obtain ⟨hj', rfl⟩ := List.getElem?_eq_some_iff.mp hj
  exact List.pairwise_iff_getElem.mp hasc i j hi' hj' hij

theorem get_le (hasc : ats.Pairwise (· < ·)) {i j : Nat} {x y : Int} (hi : ats[i]? = some x)
    (hj : ats[j]? = some y) (hij : i ≤ j) : x ≤ y := by
  rcases Nat.lt_or_eq_of_le hij with hlt | rfl
  · exact (get_lt hasc hi hj hlt).le
  · exact (Option.some.inj (hi.symm.trans hj)).le

/-- What is at most `t` at a place, with everything behind it greater, is the greatest. -/
theorem greatest_of {m : Nat} {x : Int} (hm : ats[m]? = some x) (hle : x ≤ t)
    (hbehind : ∀ i x, m < i → ats[i]? = some x → t < x) : Greatest t ats m :=
  ⟨⟨x, hm, hle⟩, fun i y hy hyt => Nat.not_lt.mp fun hi => absurd hyt (hbehind i y hi hy).not_ge⟩

/-- A round stops at the greatest entry, or goes on with less to search. -/
theorem turn_spec (hasc : ats.Pairwise (· < ·)) (hint : ats.length < 2 ^ 31)
    (hfirst : ∀ x, ats[0]? = some x → x < t) (h : Inv t ats s) :
    turn t ats s = .ends ∧ Greatest t ats s.middle ∨
      ∃ s', turn t ats s = .goes s' ∧ Inv t ats s' ∧
        s'.last + 1 - s'.first < s.last + 1 - s.first := by
  have hlast := h.last
  have hbounds := h.first
  have hmiddle := h.middle
  by_cases hle : s.first ≤ s.last
  · obtain ⟨x, hx⟩ : ∃ x, ats[s.middle]? = some x :=
      ⟨_, List.getElem?_eq_getElem (by omega)⟩
    rw [turn, if_pos hle, hx]
    simp only
    by_cases hlt : x < t
    · rw [if_pos hlt, wrap_of_lt (by omega)]
      refine .inr ⟨_, rfl, inv_make hint hlast (by omega) (fun i y hi hy => ?_) h.behind, ?_⟩
      · exact (get_le hasc hy hx (by omega)).trans_lt hlt
      · change s.last + 1 - (s.middle + 1) < _
        omega
    · rw [if_neg hlt]
      by_cases heq : x = t
      · rw [if_pos heq]
        refine .inl ⟨rfl, greatest_of hx heq.le fun i y hi hy => ?_⟩
        rw [← heq]
        exact get_lt hasc hx hy hi
      · have hgt : t < x := by omega
        have hne : s.middle ≠ 0 := by
          intro h0
          rw [h0] at hx
          exact absurd (hfirst x hx) hlt
        rw [if_neg heq, wsub_of_le (by omega) (by omega)]
        refine .inr ⟨_, rfl, inv_make hint (by omega) (by omega) h.before fun i y hi hy => ?_, ?_⟩
        · exact hgt.trans_le (get_le hasc hx hy (by omega))
        · change s.middle - 1 + 1 - s.first < _
          omega
  · have hend : s.middle = s.last := by omega
    obtain ⟨x, hx⟩ : ∃ x, ats[s.last]? = some x := ⟨_, List.getElem?_eq_getElem hlast⟩
    rw [turn, if_neg hle, hend]
    exact .inl ⟨rfl, greatest_of hx (h.before _ _ (by omega) hx).le h.behind⟩

theorem Inv.safe (hint : ats.length < 2 ^ 31) (hfirst : ∀ x, ats[0]? = some x → x < t)
    (h : Inv t ats s) : Safe t ats s := by
  have hlast := h.last
  have hbounds := h.first
  have hmiddle := h.middle
  refine ⟨fun hle => by omega, by omega, fun _ x hx hlt h0 => ?_⟩
  rw [h0] at hx
  exact absurd (hfirst x hx) (by omega)

theorem reached_inv (hasc : ats.Pairwise (· < ·)) (hlen : 0 < ats.length)
    (hint : ats.length < 2 ^ 31) (hfirst : ∀ x, ats[0]? = some x → x < t)
    (h : Reached t ats s) : Inv t ats s := by
  induction h with
  | start => exact inv_start hlen hint
  | goes _ hturn ih =>
      rcases turn_spec hasc hint hfirst ih with ⟨hends, -⟩ | ⟨s', hgoes, hs', -⟩
      · rw [hends] at hturn
        cases hturn
      · rw [hgoes] at hturn
        obtain rfl := Turn.goes.inj hturn
        exact hs'

/-- So many rounds are enough as there is to search. -/
theorem bsFrom_spec (hasc : ats.Pairwise (· < ·)) (hint : ats.length < 2 ^ 31)
    (hfirst : ∀ x, ats[0]? = some x → x < t) {k : Nat} (h : Inv t ats s)
    (hk : s.last + 1 - s.first < k) :
    ∃ m, bsFrom t ats k s = some m ∧ Greatest t ats m := by
  induction k generalizing s with
  | zero => exact absurd hk (Nat.not_lt_zero _)
  | succ k ih =>
      rw [bsFrom]
      rcases turn_spec hasc hint hfirst h with ⟨hends, hgreatest⟩ | ⟨s', hgoes, hs', hless⟩
      · rw [hends]
        exact ⟨s.middle, rfl, hgreatest⟩
      · rw [hgoes]
        exact ih hs' (by omega)

/-- The search stops after no more rounds than there are entries, and one; it reads the entries of
the table only, wraps no bound, and finds the greatest entry that is at most `t`. -/
theorem bs_greatest (hasc : ats.Pairwise (· < ·)) (hlen : 0 < ats.length)
    (hint : ats.length < 2 ^ 31) (hfirst : ∀ x, ats[0]? = some x → x < t) :
    (∀ s, Reached t ats s → Safe t ats s) ∧
      ∃ m, bsFrom t ats (ats.length + 1) (start ats.length) = some m ∧ Greatest t ats m := by
  refine ⟨fun s hs => (reached_inv hasc hlen hint hfirst hs).safe hint hfirst, ?_⟩
  refine bsFrom_spec hasc hint hfirst (inv_start hlen hint) ?_
  change wsub ats.length 1 + 1 - 0 < ats.length + 1
  rw [wsub_of_le (by omega) hlen]
  omega

theorem bs_greatest_three :
    (∀ s, Reached 25 [10, 20, 30] s → Safe 25 [10, 20, 30] s) ∧
      ∃ m, bsFrom 25 [10, 20, 30] 4 (start 3) = some m ∧ Greatest 25 [10, 20, 30] m :=
  bs_greatest (by decide) (by decide) (by decide) fun x hx => by cases hx; decide

theorem Greatest.eq {m m' : Nat} (h : Greatest t ats m) (h' : Greatest t ats m') : m = m' := by
  obtain ⟨⟨x, hx, hxt⟩, hmax⟩ := h
  obtain ⟨⟨x', hx', hxt'⟩, hmax'⟩ := h'
  exact Nat.le_antisymm (hmax' _ _ hx hxt) (hmax _ _ hx' hxt')

end Search

/-! ## The search of a zone -/

section Zone

variable {z : Zone} {t : Int}

/-- The entries of a zone. -/
def table (z : Zone) : List Int := z.transitions.map Prod.fst

theorem length_table : (table z).length = z.timecnt := List.length_map _

theorem table_get {i : Nat} (hi : i < z.timecnt) : (table z)[i]? = some (z.ats i) := by
  have hi' : i < z.transitions.length := hi
  rw [table, List.getElem?_map, List.getElem?_eq_getElem hi', Zone.ats,
    List.getD_eq_getElem _ _ hi']
  rfl

/-- The search that does not come to what wraps is this one. -/
theorem bs_eq_bsFrom (h : z.Ascending) (hcnt : z.timecnt ≠ 0) (hint : z.timecnt < 2 ^ 31)
    (h0 : z.ats 0 < t) :
    z.bs t = bsFrom t (table z) ((table z).length + 1) (start (table z).length) := by
  have hasc : (table z).Pairwise (· < ·) := List.pairwise_map.mpr h
  have hlen : 0 < (table z).length := by
    rw [length_table]
    omega
  have hlen' : (table z).length < 2 ^ 31 := by rwa [length_table]
  have hfirst : ∀ x, (table z)[0]? = some x → x < t := by
    intro x hx
    rw [table_get (by omega)] at hx
    rwa [← Option.some.inj hx]
  have hrounds : (start (table z).length).last + 1 - 0 < (table z).length + 1 := by
    change wsub (table z).length 1 + 1 - 0 < _
    rw [wsub_of_le (by omega) hlen]
    omega
  obtain ⟨m, hm, hgreatest⟩ := bsFrom_spec hasc hlen' hfirst (inv_start hlen hlen') hrounds
  obtain ⟨m', hm', hlt, hle, hlater⟩ := Zone.bs_eq h hcnt h0
  rw [hm, hm']
  refine congrArg some (Greatest.eq (greatest_of (table_get hlt) hle fun i x hi hx => ?_) hgreatest)
  have hi' : i < z.timecnt := by
    rw [← length_table]
    exact (List.getElem?_eq_some_iff.mp hx).1
  rw [table_get hi'] at hx
  rw [← Option.some.inj hx]
  exact hlater i hi hi'

end Zone

end Ztsdb.Tz.BinarySearch
