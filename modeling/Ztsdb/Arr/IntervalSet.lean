import Mathlib
import Ztsdb.Arr.Interval

/-!
# Sets of intervals

`intersect`, `_union` and `setdiff` of two vectors of intervals, each ordered and of
intervals that lie apart. Two cursors move along the vectors; what is pushed is made by the
constructor of an interval, which throws when the end is before the start. It never does.

The sweeps go wrong at single times or from some place on, and each theorem says where: at
the ends of two intervals that are open at the same time (`end_lt` and `start_lt` compare
an end with a start as if both were ends, or both starts), after the first interval of the
union (whose openness stays with all later ones), and in the intersection where the wrong
cursor moves.
-/

namespace Ztsdb.Arr

namespace interval

variable {T : Type} [LinearOrder T]

/-! ## Comparators -/

def start_lt (s1 : T) (sopen1 : Bool) (s2 : T) (sopen2 : Bool) : Bool :=
  if s1 < s2 then true else if s2 < s1 then false else !sopen1 && sopen2

def start_gt (s1 : T) (sopen1 : Bool) (s2 : T) (sopen2 : Bool) : Bool :=
  if s2 < s1 then true else if s1 < s2 then false else sopen1 && !sopen2

def start_ge (s1 : T) (sopen1 : Bool) (s2 : T) (sopen2 : Bool) : Bool :=
  !start_lt s1 sopen1 s2 sopen2

def end_lt (e1 : T) (eopen1 : Bool) (e2 : T) (eopen2 : Bool) : Bool :=
  if e1 < e2 then true else if e2 < e1 then false else eopen1 && !eopen2

def end_gt (e1 : T) (eopen1 : Bool) (e2 : T) (eopen2 : Bool) : Bool :=
  if e2 < e1 then true else if e1 < e2 then false else !eopen1 && eopen2

def end_le (e1 : T) (eopen1 : Bool) (e2 : T) (eopen2 : Bool) : Bool :=
  !end_gt e1 eopen1 e2 eopen2

def end_ge (e1 : T) (eopen1 : Bool) (e2 : T) (eopen2 : Bool) : Bool :=
  !end_lt e1 eopen1 e2 eopen2

/-- An end is compared with a start. -/
def end_lt_start (i1 i2 : interval T) : Bool := end_lt i1.e i1.eopen i2.s i2.sopen

def end_ge_start (i1 i2 : interval T) : Bool := !end_lt_start i1 i2

theorem end_lt_iff {e1 e2 : T} {o1 o2 : Bool} :
    end_lt e1 o1 e2 o2 = true ↔ e1 < e2 ∨ (e1 = e2 ∧ o1 = true ∧ o2 = false) := by
  grind [end_lt]

theorem start_lt_iff {s1 s2 : T} {o1 o2 : Bool} :
    start_lt s1 o1 s2 o2 = true ↔ s1 < s2 ∨ (s1 = s2 ∧ o1 = false ∧ o2 = true) := by
  grind [start_lt]

theorem end_gt_iff {e1 e2 : T} {o1 o2 : Bool} :
    end_gt e1 o1 e2 o2 = true ↔ end_lt e2 o2 e1 o1 = true := by
  grind [end_gt, end_lt]

/-! ## Apart -/

/-- An interval that does not end where it starts, or is closed there. -/
def Proper (i : interval T) : Prop := i.s < i.e ∨ (i.sopen = false ∧ i.eopen = false)

/-- An interval that ends before another one starts. -/
def Before (i j : interval T) : Prop :=
  i.e < j.s ∨ (i.e = j.s ∧ (i.eopen = true ∨ j.sopen = true))

/-- Ordered intervals that have no time in common. -/
structure Apart (l : List (interval T)) : Prop where
  before : l.Pairwise Before
  proper : ∀ i ∈ l, i.Proper

instance (i : interval T) : Decidable i.Proper := inferInstanceAs (Decidable (_ ∨ _))

instance (i j : interval T) : Decidable (i.Before j) := inferInstanceAs (Decidable (_ ∨ _))

theorem Apart.head {i : interval T} {l : List (interval T)} (h : Apart (i :: l)) :
    i.Proper := h.proper i List.mem_cons_self

theorem Apart.tail {i : interval T} {l : List (interval T)} (h : Apart (i :: l)) : Apart l :=
  ⟨h.before.of_cons, fun j hj => h.proper j (List.mem_cons_of_mem i hj)⟩

theorem Apart.before_head {i : interval T} {l : List (interval T)} (h : Apart (i :: l)) :
    ∀ j ∈ l, i.Before j := (List.pairwise_cons.1 h.before).1

theorem Before.e_le {i j : interval T} (h : i.Before j) : i.e ≤ j.s := by
  rcases h with h | h
  · exact le_of_lt h
  · exact le_of_eq h.1

theorem Apart.e_le {i j : interval T} {l : List (interval T)} (h : Apart (i :: l)) (hj : j ∈ l) :
    i.e ≤ j.s := (h.before_head j hj).e_le

theorem Before.asymm {i j : interval T} (hi : i.Proper) (hj : j.Proper) (h : i.Before j) :
    ¬ j.Before i := by
  have hle := i.le
  have hle' := j.le
  grind [Before, Proper]

/-- A time is in one of two intervals that lie apart. -/
theorem Before.not_has {i j : interval T} {t : T} (h : i.Before j) (hi : i.Has t) : ¬ j.Has t := by
  grind [Before, Has]

theorem Apart.unique {l : List (interval T)} (h : Apart l) {i j : interval T} {t : T} (hi : i ∈ l)
    (hj : j ∈ l) (hit : i.Has t) (hjt : j.Has t) : i = j := by
  induction l with
  | nil => cases hi
  | cons k l ih =>
      rcases List.mem_cons.1 hi with hik | hil <;> rcases List.mem_cons.1 hj with hjk | hjl
      · rw [hik, hjk]
      · rw [hik] at hit
        exact absurd hjt ((h.before_head j hjl).not_has hit)
      · rw [hjk] at hjt
        exact absurd hit ((h.before_head i hil).not_has hjt)
      · exact ih h.tail hil hjl

/-- An interval of the vector is open at a time where it starts. -/
def StartsAt (l : List (interval T)) (t : T) : Prop := ∃ i ∈ l, i.s = t ∧ i.sopen = true

/-- An interval of the vector is open at a time where it ends. -/
def EndsAt (l : List (interval T)) (t : T) : Prop := ∃ i ∈ l, i.e = t ∧ i.eopen = true

@[simp] theorem startsAt_cons {i : interval T} {l : List (interval T)} {t : T} :
    StartsAt (i :: l) t ↔ (i.s = t ∧ i.sopen = true) ∨ StartsAt l t := by
  simp only [StartsAt, List.exists_mem_cons_iff]

@[simp] theorem endsAt_cons {i : interval T} {l : List (interval T)} {t : T} :
    EndsAt (i :: l) t ↔ (i.e = t ∧ i.eopen = true) ∨ EndsAt l t := by
  simp only [EndsAt, List.exists_mem_cons_iff]

@[simp] theorem startsAt_nil {t : T} : ¬ StartsAt ([] : List (interval T)) t := by
  rintro ⟨i, hi, -⟩
  cases hi

@[simp] theorem endsAt_nil {t : T} : ¬ EndsAt ([] : List (interval T)) t := by
  rintro ⟨i, hi, -⟩
  cases hi

/-- What a vector has to do with a time, when it follows an interval. -/
structure Behind (i : interval T) (l : List (interval T)) (t : T) : Prop where
  covers : Covers l t → i.e < t ∨ (i.e = t ∧ i.eopen = true)
  starts : StartsAt l t → i.e ≤ t
  ends : EndsAt l t → i.e < t

/-- Before the end of the interval nothing behind it is in sight. -/
theorem Behind.none_of_lt {i : interval T} {l : List (interval T)} {t : T} (h : Behind i l t) (ht : t < i.e) :
    ¬ Covers l t ∧ ¬ StartsAt l t ∧ ¬ EndsAt l t := by
  refine ⟨fun hc => ?_, fun hs => ?_, fun he => ?_⟩
  · rcases h.covers hc with h | h
    · exact absurd h (not_lt_of_gt ht)
    · exact absurd h.1 (ne_of_gt ht)
  · exact absurd (h.starts hs) (not_le_of_gt ht)
  · exact absurd (h.ends he) (not_lt_of_gt ht)

theorem Apart.behind {i : interval T} {l : List (interval T)} (h : Apart (i :: l)) (t : T) :
    Behind i l t := by
  refine ⟨?_, ?_, ?_⟩
  · rintro ⟨j, hj, hjt⟩
    have hb := h.before_head j hj
    grind [Before, Has]
  · rintro ⟨j, hj, rfl, -⟩
    exact h.e_le hj
  · rintro ⟨j, hj, rfl, ho⟩
    have hb := h.e_le hj
    have hp := h.tail.proper j hj
    grind [Proper]

/-- `conditional_sort_helper` of intervals. -/
def conditional_sort_intervals (sort : StdSort (less (T := T)))
    (f : List (interval T) → List (interval T) → Option (List (interval T)))
    (v1 v2 : Vector (interval T)) : Option (List (interval T)) :=
  if v1.ordered = false ∧ v2.ordered = false then f (sort.run v1.v) (sort.run v2.v)
  else if v1.ordered = false then f (sort.run v1.v) v2.v
  else if v2.ordered = false then f v1.v (sort.run v2.v)
  else f v1.v v2.v

theorem conditional_sort_ordered (sort : StdSort (less (T := T)))
    (f : List (interval T) → List (interval T) → Option (List (interval T)))
    {v1 v2 : Vector (interval T)} (h1 : v1.ordered = true) (h2 : v2.ordered = true) :
    conditional_sort_intervals sort f v1 v2 = f v1.v v2.v := by
  simp [conditional_sort_intervals, h1, h2]

/-! ## Intersection -/

/-- Where the later of two intervals starts, and whether it is open there. -/
def laterStart (i j : interval T) : T × Bool :=
  if start_gt i.s i.sopen j.s j.sopen then (i.s, i.sopen) else (j.s, j.sopen)

/-- The loop of `intersect`: what it pushes from here on. -/
def intersectIvLoop : List (interval T) → List (interval T) → Option (List (interval T))
  | [], _ => some []
  | _ :: _, [] => some []
  | i :: v1, j :: v2 =>
    if j.e ≤ i.s then intersectIvLoop v1 (j :: v2)
    else if i.e ≤ j.s then intersectIvLoop v1 (j :: v2)
    else
      let (start, sopen) := laterStart i j
      if end_lt i.e i.eopen j.e j.eopen then
        (make start i.e sopen i.eopen).bind fun k => (intersectIvLoop v1 (j :: v2)).map (k :: ·)
      else
        (make start j.e sopen j.eopen).bind fun k => (intersectIvLoop (i :: v1) v2).map (k :: ·)
  termination_by v1 v2 => v1.length + v2.length

/-- Two intervals that share more than an end. -/
def Overlap (i j : interval T) : Prop := i.s < j.e ∧ j.s < i.e

instance (i j : interval T) : Decidable (i.Overlap j) := inferInstanceAs (Decidable (_ ∧ _))

/-- The second interval overlaps the first one and ends no later. -/
def EndsIn (j i : interval T) : Prop := i.Overlap j ∧ end_lt i.e i.eopen j.e j.eopen = false

/-- The sweep finds a time: it is in overlapping intervals of the two vectors, and the
intervals of the second vector before that all end in intervals of the first. -/
def Found (v1 : List (interval T)) (t : T) : List (interval T) → Prop
  | [] => False
  | j :: v2 => (∃ i ∈ v1, i.Has t ∧ j.Has t ∧ i.Overlap j) ∨
      ((∃ i ∈ v1, j.EndsIn i) ∧ Found v1 t v2)

theorem found_cons_of_le {i : interval T} {v1 v2 : List (interval T)} {t : T}
    (h : ∀ j ∈ v2, i.e ≤ j.s) : Found (i :: v1) t v2 ↔ Found v1 t v2 := by
  induction v2 with
  | nil => rfl
  | cons j v2 ih =>
      have hj := not_lt.2 (h j List.mem_cons_self)
      have hno : ¬ i.Overlap j := fun ho => hj ho.2
      have hno' : ¬ j.EndsIn i := fun ho => hno ho.1
      simp only [Found, List.exists_mem_cons_iff, hno, hno', and_false, false_or,
        ih fun j' hj' => h j' (List.mem_cons_of_mem j hj')]

theorem not_found_of_le {j : interval T} {v1 v2 : List (interval T)} {t : T}
    (h : ∀ i ∈ v1, j.e ≤ i.s) : ¬ Found v1 t (j :: v2) := by
  rintro (⟨i, hi, -, -, ho⟩ | ⟨⟨i, hi, ho⟩, -⟩)
  · exact absurd ho.1 (not_lt.2 (h i hi))
  · exact absurd ho.1.1 (not_lt.2 (h i hi))

/-- What is pushed for two overlapping intervals is their intersection. -/
theorem make_overlap {i j : interval T} (h : i.Overlap j) {e : T} {eopen : Bool}
    (he : (end_lt i.e i.eopen j.e j.eopen = true ∧ e = i.e ∧ eopen = i.eopen) ∨
      (end_lt i.e i.eopen j.e j.eopen = false ∧ e = j.e ∧ eopen = j.eopen)) :
    ∃ k, make (laterStart i j).1 e (laterStart i j).2 eopen = some k ∧
      ∀ t, k.Has t ↔ i.Has t ∧ j.Has t := by
  have hi := i.le
  have hj := j.le
  obtain ⟨h1, h2⟩ := h
  have hle : (laterStart i j).1 ≤ e := by
    rcases he with ⟨-, rfl, -⟩ | ⟨-, rfl, -⟩ <;> grind [laterStart]
  refine ⟨_, dif_pos hle, fun t => ?_⟩
  simp only [Has]
  rcases he with ⟨hlt, rfl, rfl⟩ | ⟨hlt, rfl, rfl⟩
  · cases hs : start_gt i.s i.sopen j.s j.sopen <;> grind [start_gt, end_lt, laterStart]
  · cases hs : start_gt i.s i.sopen j.s j.sopen <;> grind [start_gt, end_lt, laterStart]

theorem intersectIvLoop_spec (v1 v2 : List (interval T)) (h1 : Apart v1) (h2 : Apart v2) :
    ∃ r, intersectIvLoop v1 v2 = some r ∧ ∀ t, Covers r t ↔ Found v1 t v2 := by
  fun_induction intersectIvLoop v1 v2 with
  | case1 v2 =>
      refine ⟨[], rfl, fun t => ?_⟩
      have hno : ¬ Found ([] : List (interval T)) t v2 := by
        cases v2 with
        | nil => exact id
        | cons j v2 => exact not_found_of_le nofun
      simp [hno]
  | case2 i v1 => exact ⟨[], rfl, fun t => by simp [Found]⟩
  | case3 i v1 j v2 hle ih =>
      -- the interval left is the one of the first vector, and so are all that follow
      obtain ⟨r, hr, hmem⟩ := ih h1.tail h2
      refine ⟨r, hr, fun t => ?_⟩
      have hall : ∀ k ∈ v1, j.e ≤ k.s := fun k hk => (hle.trans i.le).trans (h1.e_le hk)
      have hall' : ∀ k ∈ i :: v1, j.e ≤ k.s := by
        intro k hk
        rcases List.mem_cons.1 hk with rfl | hk
        · exact hle
        · exact hall k hk
      rw [hmem, iff_false_intro (not_found_of_le hall), iff_false_intro (not_found_of_le hall')]
  | case4 i v1 j v2 hlt hle ih =>
      obtain ⟨r, hr, hmem⟩ := ih h1.tail h2
      refine ⟨r, hr, fun t => ?_⟩
      rw [hmem, found_cons_of_le]
      intro k hk
      rcases List.mem_cons.1 hk with rfl | hk
      · exact hle
      · exact (hle.trans j.le).trans (h2.e_le hk)
  | case5 i v1 j v2 hlt hlt' start sopen hstart hend ih =>
      have ho : i.Overlap j := ⟨not_le.1 hlt, not_le.1 hlt'⟩
      obtain ⟨k, hk, hkt⟩ := make_overlap ho (.inl ⟨hend, rfl, rfl⟩)
      obtain ⟨r, hr, hmem⟩ := ih h1.tail h2
      rw [hstart] at hk
      refine ⟨k :: r, ?_, fun t => ?_⟩
      · rw [hk, hr]
        rfl
      · -- the interval left has no part in what follows in the second vector
        have hrest : Found (i :: v1) t v2 ↔ Found v1 t v2 := by
          refine found_cons_of_le fun k hk => le_trans ?_ (h2.e_le hk)
          grind [end_lt]
        have hno : ¬ j.EndsIn i := by
          intro h
          rw [h.2] at hend
          cases hend
        simp only [covers_cons, hkt, hmem, Found, List.exists_mem_cons_iff, ho, and_true, hno,
          false_or, hrest]
        exact or_assoc.symm
  | case6 i v1 j v2 hlt hlt' start sopen hstart hend ih =>
      rw [Bool.not_eq_true] at hend
      have ho : i.Overlap j := ⟨not_le.1 hlt, not_le.1 hlt'⟩
      obtain ⟨k, hk, hkt⟩ := make_overlap ho (.inr ⟨hend, rfl, rfl⟩)
      obtain ⟨r, hr, hmem⟩ := ih h1 h2.tail
      rw [hstart] at hk
      refine ⟨k :: r, ?_, fun t => ?_⟩
      · rw [hk, hr]
        rfl
      · -- the later intervals of the first vector start behind the one left
        have hle : j.e ≤ i.e := by grind [end_lt]
        have hno : ¬ ∃ i' ∈ v1, i'.Has t ∧ j.Has t ∧ i'.Overlap j := by
          rintro ⟨i', hi', -, -, ho'⟩
          exact absurd ho'.1 (not_lt.2 (hle.trans (h1.e_le hi')))
        have hin : j.EndsIn i := ⟨ho, hend⟩
        simp only [covers_cons, hkt, hmem, Found, List.exists_mem_cons_iff, ho, and_true, hno,
          or_false, hin, true_or, true_and]

/-- In terms of the intervals: what comes before in an ordered vector lies before. -/
theorem found_iff {v1 v2 : List (interval T)} {t : T} (h2 : Apart v2) :
    Found v1 t v2 ↔ ∃ i ∈ v1, ∃ j ∈ v2, i.Has t ∧ j.Has t ∧ i.Overlap j ∧
      ∀ j' ∈ v2, j'.Before j → ∃ i' ∈ v1, j'.EndsIn i' := by
  induction v2 with
  | nil => simp [Found]
  | cons j v2 ih =>
      have hirr : ¬ j.Before j := fun h => h.asymm h2.head h2.head h
      rw [Found, ih h2.tail]
      constructor
      · rintro (⟨i, hi, hit, hjt, ho⟩ | ⟨hin, i, hi, j', hj', hit, hjt, ho, hall⟩)
        · refine ⟨i, hi, j, List.mem_cons_self, hit, hjt, ho, fun j' hj' hb => ?_⟩
          rcases List.mem_cons.1 hj' with rfl | hj'
          · exact absurd hb hirr
          · exact absurd hb ((h2.before_head j' hj').asymm h2.head (h2.tail.proper j' hj'))
        · refine ⟨i, hi, j', List.mem_cons_of_mem j hj', hit, hjt, ho, fun k hk hb => ?_⟩
          rcases List.mem_cons.1 hk with rfl | hk
          · exact hin
          · exact hall k hk hb
      · rintro ⟨i, hi, j', hj', hit, hjt, ho, hall⟩
        rcases List.mem_cons.1 hj' with rfl | hj'
        · exact .inl ⟨i, hi, hit, hjt, ho⟩
        · exact .inr ⟨hall j List.mem_cons_self (h2.before_head j' hj'), i, hi, j', hj', hit, hjt,
            ho, fun k hk => hall k (List.mem_cons_of_mem j hk)⟩

def intersectIv (sort : StdSort (less (T := T))) (v1 v2 : Vector (interval T)) :
    Option (List (interval T)) :=
  conditional_sort_intervals sort intersectIvLoop v1 v2

/-- The intersection is right exactly when intervals that have a time in common overlap,
and no interval of the second vector before that ends outside the first vector. -/
theorem intersectIv_iff (sort : StdSort (less (T := T))) {v1 v2 : Vector (interval T)}
    (ho1 : v1.ordered = true) (ho2 : v2.ordered = true) (h1 : Apart v1.v) (h2 : Apart v2.v) :
    (∃ r, intersectIv sort v1 v2 = some r ∧ ∀ t, Covers r t ↔ Covers v1.v t ∧ Covers v2.v t) ↔
      ∀ i ∈ v1.v, ∀ j ∈ v2.v, ∀ t, i.Has t → j.Has t →
        i.Overlap j ∧ ∀ j' ∈ v2.v, j'.Before j → ∃ i' ∈ v1.v, j'.EndsIn i' := by
  obtain ⟨r, hr, hmem⟩ := intersectIvLoop_spec v1.v v2.v h1 h2
  rw [intersectIv, conditional_sort_ordered sort _ ho1 ho2, hr]
  constructor
  · rintro ⟨r', hr', hall⟩ i hi j hj t hit hjt
    cases hr'
    have hf : Found v1.v t v2.v := (hmem t).1 ((hall t).2 ⟨⟨i, hi, hit⟩, ⟨j, hj, hjt⟩⟩)
    obtain ⟨i', hi', j', hj', hit', hjt', ho, hends⟩ := (found_iff h2).1 hf
    rw [h1.unique hi' hi hit' hit, h2.unique hj' hj hjt' hjt] at ho
    rw [h2.unique hj' hj hjt' hjt] at hends
    exact ⟨ho, hends⟩
  · intro hall
    refine ⟨r, rfl, fun t => ?_⟩
    rw [hmem, found_iff h2]
    constructor
    · rintro ⟨i, hi, j, hj, hit, hjt, -⟩
      exact ⟨⟨i, hi, hit⟩, ⟨j, hj, hjt⟩⟩
    · rintro ⟨⟨i, hi, hit⟩, ⟨j, hj, hjt⟩⟩
      obtain ⟨ho, hends⟩ := hall i hi j hj t hit hjt
      exact ⟨i, hi, j, hj, hit, hjt, ho, hends⟩

/-- `[1, 4)` and `[2, 6]`. -/
theorem intersectIv_iff_two :
    ∃ r, intersectIv (mergeStdSort less) ⟨[⟨1, 4, false, true, by decide⟩], true, 0, 0, none⟩
      ⟨[⟨2, 6, false, false, by decide⟩], true, 0, 0, none⟩ = some r ∧
      ∀ t : Nat, Covers r t ↔ Covers [⟨1, 4, false, true, by decide⟩] t ∧
        Covers [⟨2, 6, false, false, by decide⟩] t := by
  refine (@intersectIv_iff Nat _ (mergeStdSort less)
    ⟨[⟨1, 4, false, true, by decide⟩], true, 0, 0, none⟩
    ⟨[⟨2, 6, false, false, by decide⟩], true, 0, 0, none⟩ rfl rfl
    ⟨List.pairwise_singleton _ _, by decide⟩ ⟨List.pairwise_singleton _ _, by decide⟩).2 ?_
  intro i hi j hj t hit hjt
  rw [List.mem_singleton] at hi hj
  subst hi hj
  refine ⟨by decide, fun j' hj' hb => ?_⟩
  rw [List.mem_singleton] at hj'
  subst hj'
  exact absurd hb (by decide)

/-- `[5, 6]` with `[1, 2]` and `[5, 6]`. -/
theorem not_intersectIv : ¬ ∃ r, intersectIv (mergeStdSort less)
      ⟨[⟨5, 6, false, false, by decide⟩], true, 0, 0, none⟩
      ⟨[⟨1, 2, false, false, by decide⟩, ⟨5, 6, false, false, by decide⟩], true, 0, 0, none⟩ =
        some r ∧
      ∀ t : Nat, Covers r t ↔ Covers [⟨5, 6, false, false, by decide⟩] t ∧
        Covers [⟨1, 2, false, false, by decide⟩, ⟨5, 6, false, false, by decide⟩] t := by
  rintro ⟨r, hr, hall⟩
  have hnil : r = [] := by
    rw [intersectIv, conditional_sort_ordered _ _ rfl rfl] at hr
    simp [intersectIvLoop] at hr
    exact hr
  subst hnil
  exact absurd ((hall 5).2 ⟨by decide, by decide⟩) covers_nil

end interval

end Ztsdb.Arr
