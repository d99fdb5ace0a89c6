import Mathlib
import Ztsdb.Arr.IntervalSet

/-!
# The difference of intervals

The sweep keeps where the current interval of the first vector starts, which moves when an
interval of the second vector cuts a piece off. An end is compared with a start by
comparisons of two ends or of two starts; these are right unless both are open at the same
time, where they take the two intervals for overlapping although that time is in neither.
The time is then part of the result.
-/

namespace Ztsdb.Arr
namespace interval
variable {T : Type} [LinearOrder T]

/-- The loop of `setdiff` and what follows it: what is pushed from here on, with the start of
the current interval of the first vector. -/
def setdiffIvLoop : T → Bool → List (interval T) → List (interval T) → Option (List (interval T))
  | _, _, [], _ => some []
  | start, sopen, i :: v1, [] => (make start i.e sopen i.eopen).map (· :: v1)
  | start, sopen, i :: v1, j :: v2 =>
    if end_lt_start i j then
      (make start i.e sopen i.eopen).bind fun k =>
        (setdiffIvLoop (v1.headD i).s (v1.headD i).sopen v1 (j :: v2)).map (k :: ·)
    else if start_lt j.e j.eopen start sopen then setdiffIvLoop start sopen (i :: v1) v2
    else if start_lt start sopen j.s j.sopen then
      (make start j.s sopen (!j.sopen)).bind fun k =>
        (if end_gt i.e i.eopen j.e j.eopen then setdiffIvLoop j.e (!j.eopen) (i :: v1) v2
        else setdiffIvLoop (v1.headD i).s (v1.headD i).sopen v1 (j :: v2)).map (k :: ·)
    else if start_ge start sopen j.s j.sopen && end_ge j.e j.eopen i.e i.eopen then
      setdiffIvLoop (v1.headD i).s (v1.headD i).sopen v1 (j :: v2)
    else setdiffIvLoop j.e (!j.eopen) (i :: v1) v2
  termination_by _ _ v1 v2 => v1.length + v2.length

/-- The times of what is left of a vector whose first interval starts elsewhere now. -/
def CoversFrom (start : T) (sopen : Bool) (v : List (interval T)) (t : T) : Prop :=
  match v with
  | [] => False
  | i :: v => ((start < t ∨ t = start ∧ sopen = false) ∧ (t < i.e ∨ t = i.e ∧ i.eopen = false)) ∨
      Covers v t

def StartsFrom (start : T) (sopen : Bool) (v : List (interval T)) (t : T) : Prop :=
  match v with
  | [] => False
  | _ :: v => (start = t ∧ sopen = true) ∨ StartsAt v t

/-- The difference, and the times that come into it although they are in neither vector:
where the second vector ends and the first starts, or the first ends and the second starts,
all open. -/
def Rest (start : T) (sopen : Bool) (v1 v2 : List (interval T)) (t : T) : Prop :=
  (CoversFrom start sopen v1 t ∧ ¬ Covers v2 t) ∨
    (¬ CoversFrom start sopen v1 t ∧ ¬ Covers v2 t ∧
      ((StartsFrom start sopen v1 t ∧ EndsAt v2 t) ∨
        (EndsAt v1 t ∧ StartsAt v2 t ∧ ¬ EndsAt v2 t)))

/-- The current interval does not end where it starts, or is closed there. -/
def CurProper (start : T) (sopen : Bool) (v : List (interval T)) : Prop :=
  match v with
  | [] => True
  | i :: _ => start < i.e ∨ (start = i.e ∧ sopen = false ∧ i.eopen = false)

theorem rest_head {v1 v2 : List (interval T)} {i : interval T} {t : T} :
    Rest (v1.headD i).s (v1.headD i).sopen v1 v2 t ↔
      (Covers v1 t ∧ ¬ Covers v2 t) ∨ (¬ Covers v1 t ∧ ¬ Covers v2 t ∧ ((StartsAt v1 t ∧ EndsAt v2 t) ∨
        (EndsAt v1 t ∧ StartsAt v2 t ∧ ¬ EndsAt v2 t))) := by
  cases v1 with
  | nil => simp [Rest, CoversFrom, StartsFrom]
  | cons k v1 => simp [Rest, CoversFrom, StartsFrom, Has]

/-! ## One lemma for each branch

What is left before the branch and after it differ by what is pushed. `t` is placed with
respect to an end; what lies behind the two intervals in the vectors is then known. -/

section Branches

variable {start : T} {sopen : Bool} {i j : interval T} {v1 v2 : List (interval T)} {t : T}

theorem rest_before (hb1 : Behind i v1 t) (hb2 : Behind j v2 t) (hj : j.Proper)
    (hp : CurProper start sopen (i :: v1))
    (h : end_lt_start i j = true) :
    Rest start sopen (i :: v1) (j :: v2) t ↔
      ((start < t ∨ t = start ∧ sopen = false) ∧ (t < i.e ∨ t = i.e ∧ i.eopen = false)) ∨
        Rest (v1.headD i).s (v1.headD i).sopen v1 (j :: v2) t := by
  obtain ⟨hc1, hs1, he1⟩ := hb1
  obtain ⟨hc2, hs2, he2⟩ := hb2
  have hle := j.le
  rw [rest_head]
  rw [end_lt_start, end_lt_iff] at h
  simp only [Rest, CoversFrom, StartsFrom, covers_cons, startsAt_cons, endsAt_cons, CurProper,
    Has, Proper] at *
  generalize Covers v1 t = C1 at *
  generalize StartsAt v1 t = S1 at *
  generalize EndsAt v1 t = E1 at *
  generalize Covers v2 t = C2 at *
  generalize StartsAt v2 t = S2 at *
  generalize EndsAt v2 t = E2 at *
  rcases lt_trichotomy t i.e with ht | ht | ht
  · grind
  · grind
  · grind

theorem rest_skip (hb1 : Behind i v1 t) (hb2 : Behind j v2 t) (hj : j.Proper)
    (hp : CurProper start sopen (i :: v1))
    (h : start_lt j.e j.eopen start sopen = true) :
    Rest start sopen (i :: v1) (j :: v2) t ↔
      Rest start sopen (i :: v1) v2 t := by
  obtain ⟨hc1, hs1, he1⟩ := hb1
  obtain ⟨hc2, hs2, he2⟩ := hb2
  have hle := j.le
  rw [start_lt_iff] at h
  simp only [Rest, CoversFrom, StartsFrom, covers_cons, startsAt_cons, endsAt_cons, CurProper,
    Has, Proper] at *
  generalize Covers v1 t = C1 at *
  generalize StartsAt v1 t = S1 at *
  generalize EndsAt v1 t = E1 at *
  generalize Covers v2 t = C2 at *
  generalize StartsAt v2 t = S2 at *
  generalize EndsAt v2 t = E2 at *
  rcases lt_trichotomy t start with ht | ht | ht
  · grind
  · grind
  · grind

theorem rest_cut (hb1 : Behind i v1 t) (hb2 : Behind j v2 t) (hj : j.Proper)
    (hp : CurProper start sopen (i :: v1))
    (h : start_lt start sopen j.s j.sopen = true)
    (hend : end_gt i.e i.eopen j.e j.eopen = true) :
    Rest start sopen (i :: v1) (j :: v2) t ↔
      ((start < t ∨ t = start ∧ sopen = false) ∧ (t < j.s ∨ t = j.s ∧ (!j.sopen) = false)) ∨
        Rest j.e (!j.eopen) (i :: v1) v2 t := by
  have hn1 := hb1.none_of_lt
  have hn2 := hb2.none_of_lt
  obtain ⟨hc1, hs1, he1⟩ := hb1
  obtain ⟨hc2, hs2, he2⟩ := hb2
  have hle := j.le
  rw [start_lt_iff] at h
  rw [end_gt_iff, end_lt_iff] at hend
  simp only [Rest, CoversFrom, StartsFrom, covers_cons, startsAt_cons, endsAt_cons, CurProper,
    Has, Proper] at *
  generalize Covers v1 t = C1 at *
  generalize StartsAt v1 t = S1 at *
  generalize EndsAt v1 t = E1 at *
  generalize Covers v2 t = C2 at *
  generalize StartsAt v2 t = S2 at *
  generalize EndsAt v2 t = E2 at *
  rcases lt_trichotomy t j.e with ht | rfl | ht
  · -- nothing that follows the two intervals is in sight yet
    have hte : t < i.e := by grind
    obtain ⟨hC1, hS1, hE1⟩ := hn1 hte
    obtain ⟨hC2, hS2, hE2⟩ := hn2 ht
    have hje : ¬ j.e = t := ne_of_gt ht
    have hie : ¬ i.e = t := ne_of_gt hte
    clear hend hj hp hc1 hs1 he1 hc2 hs2 he2
    grind
  · grind
  · have hst : start < t := by grind
    have hjs : j.s < t := by grind
    have hjt : ¬ t < j.s ∧ ¬ t = j.s ∧ ¬ t < j.e ∧ ¬ t = j.e ∧ ¬ j.e = t ∧ ¬ j.s = t ∧
        ¬ start = t := by grind
    simp only [hst, ht, hjt, true_or, true_and, false_and, or_false, false_or, and_false]

theorem rest_last (hb1 : Behind i v1 t) (hb2 : Behind j v2 t) (hj : j.Proper)
    (hp : CurProper start sopen (i :: v1))
    (h0 : ¬ end_lt_start i j = true) (h : start_lt start sopen j.s j.sopen = true)
    (hend : ¬ end_gt i.e i.eopen j.e j.eopen = true) :
    Rest start sopen (i :: v1) (j :: v2) t ↔
      ((start < t ∨ t = start ∧ sopen = false) ∧ (t < j.s ∨ t = j.s ∧ (!j.sopen) = false)) ∨
        Rest (v1.headD i).s (v1.headD i).sopen v1 (j :: v2) t := by
  have hn1 := hb1.none_of_lt
  have hn2 := hb2.none_of_lt
  obtain ⟨hc1, hs1, he1⟩ := hb1
  obtain ⟨hc2, hs2, he2⟩ := hb2
  have hle := j.le
  rw [rest_head]
  rw [end_lt_start, end_lt_iff] at h0
  rw [start_lt_iff] at h
  rw [end_gt_iff, end_lt_iff] at hend
  simp only [Rest, CoversFrom, StartsFrom, covers_cons, startsAt_cons, endsAt_cons, CurProper,
    Has, Proper] at *
  generalize Covers v1 t = C1 at *
  generalize StartsAt v1 t = S1 at *
  generalize EndsAt v1 t = E1 at *
  generalize Covers v2 t = C2 at *
  generalize StartsAt v2 t = S2 at *
  generalize EndsAt v2 t = E2 at *
  rcases lt_trichotomy t i.e with ht | rfl | ht
  · -- nothing that follows the two intervals is in sight yet
    have htj : t < j.e := by grind
    obtain ⟨hC1, hS1, hE1⟩ := hn1 ht
    obtain ⟨hC2, hS2, hE2⟩ := hn2 htj
    have hje : ¬ j.e = t := ne_of_gt htj
    have hie : ¬ i.e = t := ne_of_gt ht
    clear h0 hend hj hp hc1 hs1 he1 hc2 hs2 he2
    grind
  · grind
  · have hpiece : ¬ t < j.s ∧ ¬ t = j.s := by grind
    have hcur : ¬ t < i.e ∧ ¬ t = i.e ∧ ¬ i.e = t ∧ ¬ start = t := by grind
    simp only [hpiece, hcur, false_and, or_false, false_or, and_false]

theorem rest_inside (hb1 : Behind i v1 t) (hb2 : Behind j v2 t) (hj : j.Proper)
    (hp : CurProper start sopen (i :: v1))
    (h : ¬ start_lt start sopen j.s j.sopen = true)
    (hend : ¬ end_lt j.e j.eopen i.e i.eopen = true) :
    Rest start sopen (i :: v1) (j :: v2) t ↔
      Rest (v1.headD i).s (v1.headD i).sopen v1 (j :: v2) t := by
  have hn1 := hb1.none_of_lt
  have hn2 := hb2.none_of_lt
  obtain ⟨hc1, hs1, he1⟩ := hb1
  obtain ⟨hc2, hs2, he2⟩ := hb2
  have hle := j.le
  rw [rest_head]
  rw [start_lt_iff] at h
  rw [end_lt_iff] at hend
  simp only [Rest, CoversFrom, StartsFrom, covers_cons, startsAt_cons, endsAt_cons, CurProper,
    Has, Proper] at *
  generalize Covers v1 t = C1 at *
  generalize StartsAt v1 t = S1 at *
  generalize EndsAt v1 t = E1 at *
  generalize Covers v2 t = C2 at *
  generalize StartsAt v2 t = S2 at *
  generalize EndsAt v2 t = E2 at *
  rcases lt_trichotomy t i.e with ht | rfl | ht
  · have htj : t < j.e := by grind
    obtain ⟨hC1, hS1, hE1⟩ := hn1 ht
    obtain ⟨hC2, hS2, hE2⟩ := hn2 htj
    have hje : ¬ j.e = t := ne_of_gt htj
    have hie : ¬ i.e = t := ne_of_gt ht
    clear hend hj hp hc1 hs1 he1 hc2 hs2 he2
    grind
  · grind
  · have hcur : ¬ t < i.e ∧ ¬ t = i.e ∧ ¬ i.e = t ∧ ¬ start = t := by grind
    simp only [hcur, false_and, or_false, false_or, and_false]

theorem rest_front (hb1 : Behind i v1 t) (hb2 : Behind j v2 t) (hj : j.Proper)
    (h0 : ¬ start_lt j.e j.eopen start sopen = true)
    (h : ¬ start_lt start sopen j.s j.sopen = true)
    (hend : end_lt j.e j.eopen i.e i.eopen = true) :
    Rest start sopen (i :: v1) (j :: v2) t ↔
      Rest j.e (!j.eopen) (i :: v1) v2 t := by
  have hn1 := hb1.none_of_lt
  have hn2 := hb2.none_of_lt
  obtain ⟨hc1, hs1, he1⟩ := hb1
  obtain ⟨hc2, hs2, he2⟩ := hb2
  have hle := j.le
  rw [start_lt_iff] at h0 h
  rw [end_lt_iff] at hend
  simp only [Rest, CoversFrom, StartsFrom, covers_cons, startsAt_cons, endsAt_cons,
    Has, Proper] at *
  generalize Covers v1 t = C1 at *
  generalize StartsAt v1 t = S1 at *
  generalize EndsAt v1 t = E1 at *
  generalize Covers v2 t = C2 at *
  generalize StartsAt v2 t = S2 at *
  generalize EndsAt v2 t = E2 at *
  rcases lt_trichotomy t j.e with ht | rfl | ht
  · have hte : t < i.e := by grind
    obtain ⟨hC1, hS1, hE1⟩ := hn1 hte
    obtain ⟨hC2, hS2, hE2⟩ := hn2 ht
    have hje : ¬ j.e = t := ne_of_gt ht
    have hie : ¬ i.e = t := ne_of_gt hte
    clear hend hj hc1 hs1 he1 hc2 hs2 he2
    grind
  · grind
  · have hst : start < t := by grind
    have hjt : ¬ t < j.e ∧ ¬ t = j.e ∧ ¬ j.e = t ∧ ¬ j.s = t ∧ ¬ start = t := by grind
    simp only [hst, ht, hjt, true_or, true_and, false_and, or_false, false_or, and_false]

end Branches

/-! ## The sweep -/

theorem curProper_head {v1 : List (interval T)} (i : interval T) (h : Apart v1) :
    CurProper (v1.headD i).s (v1.headD i).sopen v1 := by
  cases v1 with
  | nil => trivial
  | cons k v1 =>
      rcases h.head with hlt | ⟨hs, he⟩
      · exact .inl hlt
      · rcases lt_or_eq_of_le k.le with hlt | heq
        · exact .inl hlt
        · exact .inr ⟨heq, hs, he⟩

theorem curProper_cut {i j : interval T} {v1 : List (interval T)}
    (h : end_lt j.e j.eopen i.e i.eopen = true) : CurProper j.e (!j.eopen) (i :: v1) := by
  rw [end_lt_iff] at h
  rcases h with h | ⟨h, ho, hi⟩
  · exact .inl h
  · exact .inr ⟨h, by simp [ho], hi⟩

theorem CurProper.le {start : T} {sopen : Bool} {i : interval T} {v1 : List (interval T)}
    (h : CurProper start sopen (i :: v1)) : start ≤ i.e := by
  rcases h with h | h
  · exact le_of_lt h
  · exact le_of_eq h.1

theorem setdiffIvLoop_spec (start : T) (sopen : Bool) (v1 v2 : List (interval T)) (h1 : Apart v1)
    (h2 : Apart v2) (hp : CurProper start sopen v1) :
    ∃ r, setdiffIvLoop start sopen v1 v2 = some r ∧ ∀ t, Covers r t ↔ Rest start sopen v1 v2 t := by
  fun_induction setdiffIvLoop start sopen v1 v2 with
  | case1 start sopen v2 =>
      refine ⟨[], rfl, fun t => ?_⟩
      simp [Rest, CoversFrom, StartsFrom]
  | case2 start sopen i v1 =>
      refine ⟨⟨start, i.e, sopen, i.eopen, hp.le⟩ :: v1, ?_, fun t => ?_⟩
      · rw [make, dif_pos hp.le]
        rfl
      · simp [Rest, CoversFrom, Has]
  | case3 start sopen i v1 j v2 hbefore ih =>
      obtain ⟨r, hr, hmem⟩ := ih h1.tail h2 (curProper_head i h1.tail)
      refine ⟨⟨start, i.e, sopen, i.eopen, hp.le⟩ :: r, ?_, fun t => ?_⟩
      · rw [make, dif_pos hp.le, hr]
        rfl
      · rw [covers_cons, hmem, rest_before (h1.behind t) (h2.behind t) h2.head hp hbefore]
        rfl
  | case4 start sopen i v1 j v2 hbefore hskip ih =>
      obtain ⟨r, hr, hmem⟩ := ih h1 h2.tail hp
      exact ⟨r, hr, fun t => by
        rw [hmem, rest_skip (h1.behind t) (h2.behind t) h2.head hp hskip]⟩
  | case5 start sopen i v1 j v2 hbefore hskip hlt ih1 ih2 =>
      have hle : start ≤ j.s := by
        rcases start_lt_iff.1 hlt with h | h
        · exact le_of_lt h
        · exact le_of_eq h.1
      by_cases hend : end_gt i.e i.eopen j.e j.eopen = true
      · obtain ⟨r, hr, hmem⟩ := ih1 h1 h2.tail (curProper_cut (end_gt_iff.1 hend))
        refine ⟨⟨start, j.s, sopen, !j.sopen, hle⟩ :: r, ?_, fun t => ?_⟩
        · rw [make, dif_pos hle, if_pos hend, hr]
          rfl
        · rw [covers_cons, hmem, rest_cut (h1.behind t) (h2.behind t) h2.head hp hlt hend]
          rfl
      · obtain ⟨r, hr, hmem⟩ := ih2 h1.tail h2 (curProper_head i h1.tail)
        refine ⟨⟨start, j.s, sopen, !j.sopen, hle⟩ :: r, ?_, fun t => ?_⟩
        · rw [make, dif_pos hle, if_neg hend, hr]
          rfl
        · rw [covers_cons, hmem,
            rest_last (h1.behind t) (h2.behind t) h2.head hp hbefore hlt hend]
          rfl
  | case6 start sopen i v1 j v2 hbefore hskip hlt hin ih =>
      rw [Bool.and_eq_true, end_ge, Bool.not_eq_true'] at hin
      obtain ⟨r, hr, hmem⟩ := ih h1.tail h2 (curProper_head i h1.tail)
      exact ⟨r, hr, fun t => by
        rw [hmem, rest_inside (h1.behind t) (h2.behind t) h2.head hp hlt (by simp [hin.2])]⟩
  | case7 start sopen i v1 j v2 hbefore hskip hlt hin ih =>
      -- the interval starts no earlier, so it is its end that reaches further
      have hend : end_lt j.e j.eopen i.e i.eopen = true := by
        rw [Bool.not_eq_true] at hlt
        simpa [start_ge, end_ge, hlt] using hin
      obtain ⟨r, hr, hmem⟩ := ih h1 h2.tail (curProper_cut hend)
      exact ⟨r, hr, fun t => by
        rw [hmem, rest_front (h1.behind t) (h2.behind t) h2.head hskip hlt hend]⟩

/-- What runs over the elements: the start of the first interval is read before anything is
looked at. -/
def setdiffIvAll : List (interval T) → List (interval T) → Option (List (interval T))
  | [], _ => none
  | i :: v1, v2 => setdiffIvLoop i.s i.sopen (i :: v1) v2

def setdiffIv (sort : StdSort (less (T := T))) (v1 v2 : Vector (interval T)) :
    Option (List (interval T)) :=
  conditional_sort_intervals sort setdiffIvAll v1 v2

end interval

end Ztsdb.Arr
