import Mathlib
import Ztsdb.Arr.VectorSet

/-!
# Intervals, and sets of times

An interval has two ends, each of them open or closed, and does not end before it starts.
Intervals are ordered by where they start, first by the time and then closed before open,
and then by where they end.

`intersect` and `setdiff` of times and intervals are the loops of two vectors of one type:
a time is smaller than an interval when it lies before its start, and greater when it lies
behind its end. The loop never goes back to an interval it has left. It need not: a time
behind the end of an interval is followed by times that are behind it too, and a time
before the start of an interval is before the start of all that follow in the order,
nested or not.
-/

namespace Ztsdb.Arr

open Ztsdb.Lib

/-- `tz::interval`, with what its constructor checks. -/
structure interval (T : Type) [LE T] where
  s : T
  e : T
  sopen : Bool
  eopen : Bool
  le : s ≤ e
  deriving DecidableEq

namespace interval

variable {T : Type} [LinearOrder T]

/-- The constructor; `none` where it throws. -/
def make (s e : T) (sopen eopen : Bool) : Option (interval T) :=
  if h : s ≤ e then some ⟨s, e, sopen, eopen, h⟩ else none

/-- `operator<`. -/
def less (i1 i2 : interval T) : Bool :=
  if i1.s < i2.s then true
  else if i1.s = i2.s then
    if i1.sopen = false ∧ i2.sopen = true then true
    else if i1.sopen = true ∧ i2.sopen = false then false
    else if i1.e < i2.e then true
    else if i1.e = i2.e then
      if i1.eopen = i2.eopen then false else i1.eopen && !i2.eopen
    else false
  else false

/-- `operator<` of a time and an interval. -/
def timeLt (t : T) (i : interval T) : Bool :=
  if t < i.s then true else if t = i.s then i.sopen else false

/-- `operator>` of a time and an interval. -/
def timeGt (t : T) (i : interval T) : Bool :=
  if i.e < t then true else if t = i.e then i.eopen else false

/-- The times of an interval. -/
def Has (i : interval T) (t : T) : Prop :=
  (i.s < t ∨ t = i.s ∧ i.sopen = false) ∧ (t < i.e ∨ t = i.e ∧ i.eopen = false)

instance (i : interval T) (t : T) : Decidable (i.Has t) := inferInstanceAs (Decidable (_ ∧ _))

/-- The times of some intervals. -/
def Covers (l : List (interval T)) (t : T) : Prop := ∃ i ∈ l, i.Has t

instance (l : List (interval T)) (t : T) : Decidable (Covers l t) :=
  inferInstanceAs (Decidable (∃ i ∈ l, i.Has t))

@[simp] theorem covers_nil {t : T} : ¬ Covers ([] : List (interval T)) t := by
  rintro ⟨i, hi, -⟩
  cases hi

@[simp] theorem covers_cons {i : interval T} {l : List (interval T)} {t : T} :
    Covers (i :: l) t ↔ i.Has t ∨ Covers l t := by
  simp only [Covers, List.mem_cons, exists_eq_or_imp]

theorem covers_congr {l l' : List (interval T)} (h : l.Perm l') {t : T} :
    Covers l t ↔ Covers l' t := by
  simp only [Covers, h.mem_iff]

/-- A time is in an interval when it lies on neither side of it. -/
theorem has_iff {i : interval T} {t : T} :
    i.Has t ↔ timeLt t i = false ∧ timeGt t i = false := by
  grind [Has, timeLt, timeGt]

/-- What intervals are ordered by, from the left. -/
def key (i : interval T) : T ×ₗ Bool ×ₗ T ×ₗ Bool :=
  toLex (i.s, toLex (i.sopen, toLex (i.e, !i.eopen)))

theorem less_iff {i j : interval T} : less i j = true ↔ key i < key j := by
  obtain ⟨s1, e1, so1, eo1, _⟩ := i
  obtain ⟨s2, e2, so2, eo2, _⟩ := j
  simp only [key, less, Prod.Lex.toLex_lt_toLex, Bool.lt_iff]
  cases so1 <;> cases so2 <;> cases eo1 <;> cases eo2 <;> grind

instance : IsStrictWeakOrder (interval T) (fun i j => less i j = true) where
  irrefl i := by
    rw [less_iff]
    exact lt_irrefl _
  trans i j k hij hjk := by
    rw [less_iff] at hij hjk ⊢
    exact lt_trans hij hjk
  incomp_trans i j k hij hjk := by
    simp only [less_iff, not_lt] at hij hjk ⊢
    exact ⟨le_trans hjk.1 hij.1, le_trans hij.2 hjk.2⟩

/-- An interval does not start before another one. -/
def StartLe (i j : interval T) : Prop := i.s < j.s ∨ i.s = j.s ∧ (i.sopen = true → j.sopen = true)

theorem StartLe.of_less {i j : interval T} (h : less j i = false) : StartLe i j := by
  grind [less, StartLe]

theorem StartLe.trans {i j k : interval T} (h : StartLe i j) (h' : StartLe j k) : StartLe i k := by
  grind [StartLe]

/-- A time before the start of an interval is not in one that starts later. -/
theorem StartLe.not_has {i j : interval T} {t : T} (h : StartLe i j) (ht : timeLt t i = true) :
    ¬ j.Has t := by
  grind [StartLe, timeLt, Has]

theorem not_has_of_gt {i : interval T} {t u : T} (h : timeGt t i = true) (hle : t ≤ u) :
    ¬ i.Has u := by
  grind [timeGt, Has]

theorem startLe_run (sort : StdSort (less (T := T))) (l : List (interval T)) :
    (sort.run l).Pairwise StartLe := (sort.sorted l).imp StartLe.of_less

theorem startLe_of_noneSmaller {l : List (interval T)} (h : NoneSmaller less l) :
    l.Pairwise StartLe := by
  have hchain : l.IsChain StartLe := h.imp fun _ _ hab => StartLe.of_less hab
  exact (@List.isChain_iff_pairwise _ _ l ⟨fun h h' => h.trans h'⟩).mp hchain

end interval

namespace Vector

open interval

variable {T : Type} [LinearOrder T]

/-- The loop of `intersect` with intervals. -/
def intersectTimesLoop : List T → List (interval T) → List T → List T
  | [], _, res => res
  | _ :: _, [], res => res
  | t :: ts, i :: is, res =>
    if timeLt t i then intersectTimesLoop ts (i :: is) res
    else if timeGt t i then intersectTimesLoop (t :: ts) is res
    else intersectTimesLoop ts (i :: is) (pushNew t res)
  termination_by ts is => ts.length + is.length

/-- The loop of `setdiff` with intervals, and what it picks up at the end. -/
def setdiffTimesLoop : List T → List (interval T) → List T → List T
  | [], _, res => res
  | t :: ts, [], res => res ++ t :: ts
  | t :: ts, i :: is, res =>
    if timeLt t i then setdiffTimesLoop ts (i :: is) (res ++ [t])
    else if timeGt t i then setdiffTimesLoop (t :: ts) is res
    else setdiffTimesLoop ts (i :: is) res
  termination_by ts is => ts.length + is.length

/-- `conditional_sort_helper` of times and intervals. -/
def conditional_sort_times (sort : StdSort (less (T := T)))
    (sortIv : StdSort (interval.less (T := T))) (f : List T → List (interval T) → List T)
    (v1 : Vector T) (v2 : Vector (interval T)) : List T :=
  if v1.ordered = false ∧ v2.ordered = false then f (sort.run v1.v) (sortIv.run v2.v)
  else if v1.ordered = false then f (sort.run v1.v) v2.v
  else if v2.ordered = false then f v1.v (sortIv.run v2.v)
  else f v1.v v2.v

def intersectTimes (sort : StdSort (less (T := T))) (sortIv : StdSort (interval.less (T := T)))
    (v1 : Vector T) (v2 : Vector (interval T)) : List T :=
  conditional_sort_times sort sortIv (fun ts is => intersectTimesLoop ts is []) v1 v2

def setdiffTimes (sort : StdSort (less (T := T))) (sortIv : StdSort (interval.less (T := T)))
    (v1 : Vector T) (v2 : Vector (interval T)) : List T :=
  conditional_sort_times sort sortIv (fun ts is => setdiffTimesLoop ts is []) v1 v2

theorem not_covers_of_lt {t : T} {i : interval T} {is : List (interval T)}
    (his : (i :: is).Pairwise StartLe) (h : timeLt t i = true) : ¬ Covers (i :: is) t := by
  rintro ⟨j, hj, hhas⟩
  rcases List.mem_cons.1 hj with rfl | hj
  · exact absurd (has_iff.1 hhas).1 (by simp [h])
  · exact ((List.pairwise_cons.1 his).1 j hj).not_has h hhas

/-- An interval that a time is behind of covers none of the times from there on. -/
theorem covers_of_gt {t u : T} {ts : List T} {i : interval T} {is : List (interval T)}
    (hts : (t :: ts).Pairwise (· ≤ ·)) (h : timeGt t i = true) (hu : u ∈ t :: ts) :
    Covers (i :: is) u ↔ Covers is u := by
  have hle : t ≤ u := by
    rcases List.mem_cons.1 hu with rfl | hu
    · exact le_rfl
    · exact (List.pairwise_cons.1 hts).1 u hu
  rw [covers_cons, or_iff_right (not_has_of_gt h hle)]

theorem intersectTimesLoop_spec (ts : List T) (is : List (interval T)) (res : List T)
    (hts : ts.Pairwise (· ≤ ·)) (his : is.Pairwise StartLe) (hasc : res.Pairwise (· < ·))
    (hle : ∀ r ∈ res, ∀ t ∈ ts, r ≤ t) :
    (intersectTimesLoop ts is res).Pairwise (· < ·) ∧
      ∀ u, u ∈ intersectTimesLoop ts is res ↔ u ∈ res ∨ (u ∈ ts ∧ Covers is u) := by
  fun_induction intersectTimesLoop ts is res with
  | case1 is res => simp [hasc]
  | case2 t ts res => simp [hasc]
  | case3 t ts i is res hlt ih =>
      obtain ⟨h1, h2⟩ := ih hts.of_cons his hasc fun r hr u hu => hle r hr u (List.mem_cons_of_mem t hu)
      refine ⟨h1, fun u => ?_⟩
      rw [h2, List.mem_cons (b := t)]
      refine or_congr_right ⟨fun h => ⟨.inr h.1, h.2⟩, fun h => ⟨?_, h.2⟩⟩
      rcases h.1 with rfl | hmem
      · exact absurd h.2 (not_covers_of_lt his hlt)
      · exact hmem
  | case4 t ts i is res _ hgt ih =>
      obtain ⟨h1, h2⟩ := ih hts his.of_cons hasc hle
      refine ⟨h1, fun u => ?_⟩
      rw [h2]
      exact or_congr_right (and_congr_right fun hu => (covers_of_gt hts hgt hu).symm)
  | case5 t ts i is res hlt hgt ih =>
      obtain ⟨ht, hts'⟩ := List.pairwise_cons.1 hts
      have hhas : i.Has t := has_iff.2 ⟨by simpa using hlt, by simpa using hgt⟩
      have hle' : ∀ r ∈ pushNew t res, ∀ u ∈ ts, r ≤ u := by
        intro r hr u hu
        rcases mem_pushNew.1 hr with hr | rfl
        · exact hle r hr u (List.mem_cons_of_mem t hu)
        · exact ht u hu
      obtain ⟨h1, h2⟩ := ih hts' his
        (pairwise_pushNew hasc fun r hr => hle r hr t List.mem_cons_self) hle'
      refine ⟨h1, fun u => ?_⟩
      rw [h2, mem_pushNew, List.mem_cons (b := t), or_assoc]
      refine or_congr_right ⟨fun h => ?_, fun h => ?_⟩
      · rcases h with rfl | h
        · exact ⟨.inl rfl, covers_cons.2 (.inl hhas)⟩
        · exact ⟨.inr h.1, h.2⟩
      · rcases h.1 with rfl | hu
        · exact .inl rfl
        · exact .inr ⟨hu, h.2⟩

theorem setdiffTimesLoop_spec (ts : List T) (is : List (interval T)) (res : List T)
    (hts : ts.Pairwise (· ≤ ·)) (his : is.Pairwise StartLe) :
    setdiffTimesLoop ts is res = res ++ ts.filter fun t => decide (¬ Covers is t) := by
  fun_induction setdiffTimesLoop ts is res with
  | case1 is res => simp
  | case2 t ts res => simp
  | case3 t ts i is res hlt ih =>
      rw [ih hts.of_cons his, List.append_assoc, List.singleton_append,
        List.filter_cons_of_pos (by simpa using not_covers_of_lt his hlt)]
  | case4 t ts i is res _ hgt ih =>
      rw [ih hts his.of_cons]
      congr 1
      apply List.filter_congr
      intro u hu
      rw [decide_eq_decide, covers_of_gt hts hgt hu]
  | case5 t ts i is res hlt hgt ih =>
      have hhas : i.Has t := has_iff.2 ⟨by simpa using hlt, by simpa using hgt⟩
      rw [ih hts.of_cons his, List.filter_cons_of_neg (by simp [hhas])]

/-- Whatever was sorted, the loop sees the times and the intervals in order. -/
theorem conditional_sort_times_eq (sort : StdSort (less (T := T)))
    (sortIv : StdSort (interval.less (T := T))) (f : List T → List (interval T) → List T)
    {v1 : Vector T} {v2 : Vector (interval T)} (h1 : FlagOk less v1) (h2 : FlagOk interval.less v2) :
    ∃ ts is, conditional_sort_times sort sortIv f v1 v2 = f ts is ∧ ts.Perm v1.v ∧
      is.Perm v2.v ∧ ts.Pairwise (· ≤ ·) ∧ is.Pairwise StartLe := by
  rw [conditional_sort_times]
  cases ho1 : v1.ordered with
  | false =>
      cases ho2 : v2.ordered with
      | false =>
          exact ⟨_, _, rfl, sort.perm _, sortIv.perm _, sorted_run sort _, startLe_run sortIv _⟩
      | true =>
          exact ⟨_, _, rfl, sort.perm _, .refl _, sorted_run sort _,
            startLe_of_noneSmaller (h2 ho2)⟩
  | true =>
      cases ho2 : v2.ordered with
      | false =>
          exact ⟨_, _, rfl, .refl _, sortIv.perm _, sorted_of_noneSmaller (h1 ho1),
            startLe_run sortIv _⟩
      | true =>
          exact ⟨_, _, rfl, .refl _, .refl _, sorted_of_noneSmaller (h1 ho1),
            startLe_of_noneSmaller (h2 ho2)⟩

/-- `intersect` is the times in some interval, ascending; `setdiff` is the vector sorted,
without them. -/
theorem times_spec (sort : StdSort (less (T := T))) (sortIv : StdSort (interval.less (T := T)))
    {v : Vector T} {iv : Vector (interval T)} (h1 : FlagOk less v) (h2 : FlagOk interval.less iv) :
    ((intersectTimes sort sortIv v iv).Pairwise (· < ·) ∧
      ∀ t, t ∈ intersectTimes sort sortIv v iv ↔ t ∈ v.v ∧ Covers iv.v t) ∧
    ((setdiffTimes sort sortIv v iv).Pairwise (· ≤ ·) ∧
      (setdiffTimes sort sortIv v iv).Perm (v.v.filter fun t => decide (¬ Covers iv.v t))) ∧
    ∀ t ∈ v.v, (t ∈ intersectTimes sort sortIv v iv ↔ ¬ t ∈ setdiffTimes sort sortIv v iv) := by
  obtain ⟨ts, is, heq, hp1, hp2, hs1, hs2⟩ := conditional_sort_times_eq sort sortIv
    (fun ts is => intersectTimesLoop ts is []) h1 h2
  obtain ⟨ts', is', heq', hp1', hp2', hs1', hs2'⟩ := conditional_sort_times_eq sort sortIv
    (fun ts is => setdiffTimesLoop ts is []) h1 h2
  obtain ⟨hasc, hmem⟩ := intersectTimesLoop_spec ts is [] hs1 hs2 .nil nofun
  have hin (t : T) : t ∈ intersectTimes sort sortIv v iv ↔ t ∈ v.v ∧ Covers iv.v t := by
    rw [intersectTimes, heq, hmem, hp1.mem_iff, covers_congr hp2]
    exact or_iff_right List.not_mem_nil
  have hdiff : setdiffTimes sort sortIv v iv = ts'.filter fun t => decide (¬ Covers iv.v t) := by
    rw [setdiffTimes, heq', setdiffTimesLoop_spec ts' is' [] hs1' hs2', List.nil_append]
    congr 1
    funext t
    rw [decide_eq_decide, covers_congr hp2']
  refine ⟨⟨?_, hin⟩, ⟨?_, ?_⟩, fun t ht => ?_⟩
  · rw [intersectTimes, heq]
    exact hasc
  · rw [hdiff]
    exact hs1'.filter _
  · rw [hdiff]
    exact hp1'.filter _
  · rw [hin, hdiff, List.mem_filter, hp1'.mem_iff, decide_eq_true_eq]
    tauto

/-- Nested intervals, and a time that is there twice. -/
theorem times_spec_nested :
    (5 : Nat) ∈ intersectTimes (mergeStdSort less) (mergeStdSort interval.less)
      ⟨[5, 9, 5], false, 0, 0, none⟩
      ⟨[⟨1, 8, false, true, by decide⟩, ⟨2, 3, false, false, by decide⟩], false, 0, 0, none⟩ :=
  ((@times_spec Nat _ (mergeStdSort less) (mergeStdSort interval.less)
    ⟨[5, 9, 5], false, 0, 0, none⟩
    ⟨[⟨1, 8, false, true, by decide⟩, ⟨2, 3, false, false, by decide⟩], false, 0, 0, none⟩
    nofun nofun).1.2 5).2 ⟨by decide, by decide⟩

end Vector

end Ztsdb.Arr
