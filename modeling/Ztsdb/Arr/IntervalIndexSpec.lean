import Mathlib
import Ztsdb.Arr.TimeIndex

/-!
# What an index of intervals selects

The cursor of an `IntervalIndex` finds the times of one interval after the other, each
search starting anew in the whole vector, and gives up when the vector ends. `intersect`
goes over times and intervals once. Where the intervals are in their order and have no time
in common they select the same: a time of a later interval that was not behind all the times
of an earlier one would be in that one too.
-/

namespace Ztsdb.Arr

open interval

variable {T : Type} [LinearOrder T]

/-- The intervals have no time in common. -/
def interval.Disjoint (l : List (interval T)) : Prop :=
  l.Pairwise fun x y => ∀ t, x.Has t → ¬y.Has t

namespace IntervalIndex

theorem mem_places {x : interval T} {k p : Nat} {vi : List T} :
    p ∈ places x k vi ↔ ∃ i t, p = k + i ∧ vi[i]? = some t ∧ x.Has t := by
  induction vi generalizing k with
  | nil => simp [places]
  | cons u vi ih =>
      have htail : p ∈ places x (k + 1) vi ↔
          ∃ i t, p = k + (i + 1) ∧ (u :: vi)[i + 1]? = some t ∧ x.Has t := by
        rw [ih]
        simp only [List.getElem?_cons_succ, Nat.add_assoc, Nat.add_comm 1]
      have hsplit : (∃ i t, p = k + i ∧ (u :: vi)[i]? = some t ∧ x.Has t) ↔
          (p = k ∧ x.Has u) ∨ p ∈ places x (k + 1) vi := by
        rw [htail]
        constructor
        · rintro ⟨i, t, hp, ht, hhas⟩
          cases i with
          | zero =>
              cases ht
              exact .inl ⟨hp, hhas⟩
          | succ i => exact .inr ⟨i, t, hp, ht, hhas⟩
        · rintro (⟨rfl, hhas⟩ | ⟨i, t, hp, ht, hhas⟩)
          · exact ⟨0, u, rfl, rfl, hhas⟩
          · exact ⟨i + 1, t, hp, ht, hhas⟩
      rw [hsplit, places]
      split
      · next hu => rw [List.mem_cons, and_iff_left hu]
      · next hu => rw [or_iff_right fun h => hu h.2]

theorem pairwise_places (x : interval T) (k : Nat) (vi : List T) :
    (places x k vi).Pairwise (· < ·) := by
  induction vi generalizing k with
  | nil => exact .nil
  | cons u vi ih =>
      rw [places]
      split
      · refine List.pairwise_cons.2 ⟨?_, ih (k + 1)⟩
        intro p hp
        obtain ⟨i, t, rfl, -⟩ := mem_places.1 hp
        omega
      · exact ih (k + 1)

/-- A time of a later interval lies behind the times of an earlier one. -/
theorem lt_of_disjoint {x y : interval T} {t u : T} (hstart : StartLe x y)
    (hdis : ∀ t, x.Has t → ¬y.Has t) (ht : x.Has t) (hu : y.Has u) : t < u := by
  by_contra hle
  refine hdis u ?_ hu
  grind [StartLe, Has]

theorem reach_sublist (vi : List T) (idx : List (interval T)) : (reach vi idx).Sublist idx := by
  induction idx with
  | nil => exact .slnil
  | cons x idx ih =>
      rw [reach]
      split
      · exact List.singleton_sublist.2 List.mem_cons_self
      · exact ih.cons_cons x

/-- The intervals that the cursor does not get to have none of the times. -/
theorem covers_reach {vi : List T} {idx : List (interval T)} (hvi : vi.Pairwise (· < ·))
    (hord : idx.Pairwise StartLe) (hdis : interval.Disjoint idx) {t : T} (ht : t ∈ vi) :
    Covers (reach vi idx) t ↔ Covers idx t := by
  induction idx with
  | nil => exact Iff.rfl
  | cons x idx ih =>
      obtain ⟨hstart, hord'⟩ := List.pairwise_cons.1 hord
      obtain ⟨hno, hdis'⟩ := List.pairwise_cons.1 hdis
      rw [reach]
      split
      · next hlast =>
          obtain ⟨u, hu, hhas⟩ := hlast
          rw [covers_cons, covers_cons]
          refine or_congr_right ⟨fun h => absurd h covers_nil, ?_⟩
          rintro ⟨y, hy, hyt⟩
          have hlt : u < t := lt_of_disjoint (hstart y hy) (hno y hy) hhas hyt
          have hle : t ≤ u := Vector.le_getLast hvi hu t ht
          exact absurd hlt (not_lt.2 hle)
      · rw [covers_cons, covers_cons, ih hord' hdis']

/-- The positions found are in order, and each is found once. -/
theorem pairwise_found {vi : List T} {idx : List (interval T)} (hvi : vi.Pairwise (· < ·))
    (hord : idx.Pairwise StartLe) (hdis : interval.Disjoint idx) :
    (found vi idx).Pairwise (· < ·) := by
  rw [found, List.pairwise_flatMap]
  refine ⟨fun x _ => pairwise_places x 0 vi, ?_⟩
  refine ((hord.and hdis).sublist (reach_sublist vi idx)).imp ?_
  rintro x y ⟨hstart, hno⟩ p hp q hq
  obtain ⟨i, t, rfl, ht, hxt⟩ := mem_places.1 hp
  obtain ⟨j, u, rfl, hu, hyu⟩ := mem_places.1 hq
  have hlt : t < u := lt_of_disjoint hstart hno hxt hyu
  by_contra hge
  obtain ⟨hi, rfl⟩ := List.getElem?_eq_some_iff.1 ht
  obtain ⟨hj, rfl⟩ := List.getElem?_eq_some_iff.1 hu
  have hle : vi[j] ≤ vi[i] := Vector.getElem_mono (hvi.imp le_of_lt) (by omega) hi
  exact absurd hlt (not_lt.2 hle)

theorem mem_found {vi : List T} {idx : List (interval T)} {p : Nat} :
    p ∈ found vi idx ↔ ∃ t, vi[p]? = some t ∧ Covers (reach vi idx) t := by
  rw [found, List.mem_flatMap]
  constructor
  · rintro ⟨x, hx, hp⟩
    obtain ⟨i, t, rfl, ht, hhas⟩ := mem_places.1 hp
    exact ⟨t, by rwa [Nat.zero_add], x, hx, hhas⟩
  · rintro ⟨t, ht, x, hx, hhas⟩
    exact ⟨x, hx, mem_places.2 ⟨p, t, (Nat.zero_add p).symm, ht, hhas⟩⟩

/-- Positions in order select values in order. -/
theorem exists_selected {vi : List T} (hvi : vi.Pairwise (· < ·)) {ps : List Nat}
    (hps : ps.Pairwise (· < ·)) (hin : ∀ p ∈ ps, ∃ t, vi[p]? = some t) :
    ∃ l : List T, ps.map (vi[·]?) = l.map some ∧ l.Pairwise (· < ·) := by
  induction ps with
  | nil => exact ⟨[], rfl, .nil⟩
  | cons p ps ih =>
      obtain ⟨hp, hps'⟩ := List.pairwise_cons.1 hps
      obtain ⟨l, hl, hasc⟩ := ih hps' fun q hq => hin q (List.mem_cons_of_mem p hq)
      obtain ⟨t, ht⟩ := hin p List.mem_cons_self
      refine ⟨t :: l, by rw [List.map_cons, List.map_cons, ht, hl], List.pairwise_cons.2 ⟨?_, hasc⟩⟩
      intro u hu
      have hmem : some u ∈ ps.map (vi[·]?) := hl ▸ List.mem_map.2 ⟨u, hu, rfl⟩
      obtain ⟨q, hq, hqu⟩ := List.mem_map.1 hmem
      obtain ⟨hi, rfl⟩ := List.getElem?_eq_some_iff.1 ht
      obtain ⟨hj, rfl⟩ := List.getElem?_eq_some_iff.1 hqu
      exact List.pairwise_iff_getElem.1 hvi p q hi hj (hp q hq)

/-- The cursor goes through the positions in order, and they select what `intersect` gives. -/
theorem selects_intersect (sort : StdSort (@Vector.less T _)) (sortIv : StdSort (@interval.less T _))
    (times : Vector T) (ivs : Vector (interval T)) (hvi : times.v.Pairwise (· < ·))
    (hord : NoneSmaller interval.less ivs.v) (hdis : interval.Disjoint ivs.v) (val : Nat) :
    ∃ fuel ps e, sweep (TimeIndex.interval ⟨ivs.v, times.v⟩) fuel ⟨val, 0⟩ = some (ps, e) ∧
      ps.Pairwise (· < ·) ∧
      ps.map (times.v[·]?) = (Vector.intersectTimes sort sortIv times ivs).map some := by
  have hstart := startLe_of_noneSmaller hord
  obtain ⟨fuel, e, hrun⟩ := (⟨ivs.v, times.v⟩ : IntervalIndex T).exists_sweep hvi val
  have hflag : Vector.FlagOk Vector.less times := by
    intro _
    refine (List.isChain_iff_pairwise.2 hvi).imp fun a b hab => ?_
    rw [Vector.less, decide_eq_false_iff_not]
    exact not_lt_of_gt hab
  obtain ⟨⟨hasc, hmem⟩, -⟩ := Vector.times_spec sort sortIv hflag fun _ => hord
  have hfound := pairwise_found hvi hstart hdis
  obtain ⟨l, hl, hlasc⟩ := exists_selected hvi hfound fun p hp =>
    (mem_found.1 hp).imp fun t ht => ht.1
  refine ⟨fuel, found times.v ivs.v, e, hrun, hfound, ?_⟩
  have heq : l = Vector.intersectTimes sort sortIv times ivs := by
    refine hlasc.eq_of_mem_iff hasc fun t => ?_
    have hsel : t ∈ l ↔ ∃ p ∈ found times.v ivs.v, times.v[p]? = some t := by
      have hsome : some t ∈ l.map some ↔ t ∈ l := by simp
      rw [← hsome, ← hl, List.mem_map]
    rw [hsel, hmem]
    constructor
    · rintro ⟨p, hp, ht⟩
      obtain ⟨u, hu, hcov⟩ := mem_found.1 hp
      obtain rfl : t = u := Option.some.inj (ht.symm.trans hu)
      have hin := List.mem_of_getElem? ht
      exact ⟨hin, (covers_reach hvi hstart hdis hin).1 hcov⟩
    · rintro ⟨hin, hcov⟩
      obtain ⟨p, hp⟩ := List.mem_iff_getElem?.1 hin
      exact ⟨p, mem_found.2 ⟨t, hp, (covers_reach hvi hstart hdis hin).2 hcov⟩, hp⟩
  rw [hl, heq]

/-- Intervals that meet at an open end, and one without a time. -/
theorem selects_intersect_three :
    ∃ fuel ps e, sweep (TimeIndex.interval ⟨[⟨1, 3, false, true, by decide⟩,
        ⟨3, 4, false, false, by decide⟩, ⟨6, 7, true, true, by decide⟩], [1, 2, 3, 6]⟩ : TimeIndex Nat)
        fuel ⟨0, 0⟩ = some (ps, e) ∧ ps.Pairwise (· < ·) := by
  obtain ⟨fuel, ps, e, hrun, hasc, -⟩ := @selects_intersect Nat _ (mergeStdSort Vector.less)
    (mergeStdSort interval.less) ⟨[1, 2, 3, 6], true, 0, 0, none⟩
    ⟨[⟨1, 3, false, true, by decide⟩, ⟨3, 4, false, false, by decide⟩,
      ⟨6, 7, true, true, by decide⟩], true, 0, 0, none⟩ (by decide)
    (.cons_cons rfl (.cons_cons rfl (.singleton _))) (by
      rw [interval.Disjoint, List.pairwise_cons, List.pairwise_pair]
      simp only [List.mem_cons, List.not_mem_nil, or_false, forall_eq_or_imp, forall_eq, Has]
      refine ⟨⟨fun t h => ?_, fun t h => ?_⟩, fun t h => ?_⟩ <;> simp at h ⊢ <;> omega) 0
  exact ⟨fuel, ps, e, hrun, hasc⟩

end IntervalIndex

end Ztsdb.Arr
