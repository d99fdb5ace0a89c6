import Mathlib
import Ztsdb.Arr.Subassign

/-!
# The flag after an assignment to listed positions

`subassign` checks each write against its neighbours as they are at its turn. For every two
neighbours of the result the later write checks the values that stay, so a true flag can be
trusted. An earlier write is checked too, against a neighbour that is about to be
overwritten, unless that is the element after it and its write is the next one. When such
a check fails the flag is lost, whatever the result.
-/

namespace Ztsdb.Arr

open Ztsdb.Lib

namespace IntIndex_T

section Checks

variable {T : Type} [LinearOrder T]

theorem before_less_iff {l : List T} {p : Nat} {x : T} :
    before Vector.less l p x = true ↔ ∀ q z, p = q + 1 → l[q]? = some z → z < x := by
  cases p with
  | zero =>
      refine ⟨fun _ q z hq => absurd hq (by omega), fun _ => rfl⟩
  | succ p =>
      constructor
      · rintro h q z hq hz
        obtain rfl : p = q := by omega
        rw [before_succ hz, Vector.less, decide_eq_true_eq] at h
        exact h
      · intro h
        cases hz : l[p]? with
        | none => simp only [before, hz]
        | some z =>
            rw [before_succ hz, Vector.less, decide_eq_true_eq]
            exact h p z rfl hz

theorem after_less_iff {l : List T} {p : Nat} {x : T} :
    Lib.after Vector.less l p x = true ↔ ∀ z, l[p + 1]? = some z → x < z := by
  rw [Lib.after]
  cases hz : l[p + 1]? with
  | none => exact ⟨fun _ z h => (Option.some_ne_none z h.symm).elim, fun _ => rfl⟩
  | some z =>
      simp only [Vector.less, decide_eq_true_eq, Option.some.injEq, forall_eq']

theorem pairwise_lt_iff {l : List T} :
    l.Pairwise (· < ·) ↔ ∀ (q : Nat) (a b : T), l[q]? = some a → l[q + 1]? = some b → a < b := by
  rw [← List.isChain_iff_pairwise, List.isChain_iff_getElem]
  constructor
  · intro h q a b ha hb
    obtain ⟨hq, rfl⟩ := List.getElem?_eq_some_iff.1 hb
    obtain ⟨_, rfl⟩ := List.getElem?_eq_some_iff.1 ha
    exact h q hq
  · intro h q hq
    exact h q _ _ (List.getElem?_eq_getElem (by omega)) (List.getElem?_eq_getElem hq)

/-- The checks, each against what is there after the writes before it. -/
theorem fits_iff {ws : List (Nat × T)} {l : List T} :
    fits Vector.less ws l = true ↔ ∀ (i p : Nat) (x : T), ws[i]? = some (p, x) →
      before Vector.less (writes (ws.take i) l) p x = true ∧
        (ws[i + 1]?.map Prod.fst = some (p + 1) ∨
          Lib.after Vector.less (writes (ws.take i) l) p x = true) := by
  induction ws generalizing l with
  | nil => simp [fits]
  | cons w ws ih =>
      obtain ⟨p, x⟩ := w
      rw [fits, Bool.and_eq_true, Bool.and_eq_true, Bool.or_eq_true, decide_eq_true_eq, ih,
        List.head?_map]
      constructor
      · rintro ⟨hhead, htail⟩ i p' x' hi
        cases i with
        | zero =>
            cases hi
            simpa [writes, List.head?_eq_getElem?] using hhead
        | succ i => exact htail i p' x' hi
      · intro h
        refine ⟨?_, fun i p' x' hi => h (i + 1) p' x' hi⟩
        simpa [writes, List.head?_eq_getElem?] using h 0 p x rfl

/-! ## Writes in time -/

variable {ws : List (Nat × T)} {l : List T}

/-- For every two neighbours that are both written: when the second is written first, its
value exceeds the old one of the first; when the first is written first, and the second not
right behind it, its value is below the old one of the second. -/
def Timely (ws : List (Nat × T)) (l : List T) : Prop :=
  ∀ (i j p : Nat) (x y : T), ws[i]? = some (p, x) → ws[j]? = some (p + 1, y) →
    (j < i → ∀ z, l[p]? = some z → z < y) ∧ (i + 1 < j → ∀ z, l[p + 1]? = some z → x < z)

/-- A check against the element before. -/
theorem lt_of_fits_before (hfit : fits Vector.less ws l = true) {j q : Nat} {y z : T}
    (hj : ws[j]? = some (q + 1, y)) (hz : (writes (ws.take j) l)[q]? = some z) : z < y :=
  before_less_iff.1 (fits_iff.1 hfit j (q + 1) y hj).1 q z rfl hz

/-- A check against the element after, when the next write is not there. -/
theorem lt_of_fits_after (hfit : fits Vector.less ws l = true) {i p : Nat} {x z : T}
    (hi : ws[i]? = some (p, x)) (hnext : ws[i + 1]?.map Prod.fst ≠ some (p + 1))
    (hz : (writes (ws.take i) l)[p + 1]? = some z) : x < z :=
  after_less_iff.1 ((fits_iff.1 hfit i p x hi).2.resolve_left hnext) z hz

/-- Of two neighbours in the result the one written later was checked against the other. -/
theorem pairwise_of_fits (hnd : (ws.map Prod.fst).Nodup) (hin : ∀ w ∈ ws, w.1 < l.length)
    (hasc : l.Pairwise (· < ·)) (hfit : fits Vector.less ws l = true) :
    (writes ws l).Pairwise (· < ·) := by
  have hlt {i q : Nat} {x : T} (hi : ws[i]? = some (q, x)) : q < l.length :=
    hin _ (List.mem_of_getElem? hi)
  have hnew {i q : Nat} {x : T} (hi : ws[i]? = some (q, x)) : (writes ws l)[q]? = some x :=
    getElem?_writes_nodup hnd hi (hlt hi)
  rw [pairwise_lt_iff]
  intro q a b ha hb
  rcases exists_or_forall_ne ws q with ⟨i, x, hi⟩ | hq
  · obtain rfl : x = a := Option.some.inj ((hnew hi).symm.trans ha)
    rcases exists_or_forall_ne ws (q + 1) with ⟨j, y, hj⟩ | hq'
    · obtain rfl : y = b := Option.some.inj ((hnew hj).symm.trans hb)
      have hne := ne_of_neighbours hi hj
      rcases Nat.lt_or_ge i j with hij | hji
      · exact lt_of_fits_before hfit hj (getElem?_past hnd hij hi (hlt hi))
      · exact lt_of_fits_after hfit hi (not_next hnd hj (by omega))
          (getElem?_past hnd (by omega) hj (hlt hj))
    · obtain ⟨hcur, hfin⟩ := getElem?_never (l := l) hq' i
      rw [hfin] at hb
      refine lt_of_fits_after hfit hi ?_ (hcur.trans hb)
      intro h
      obtain ⟨w, hw, hwq⟩ := Option.map_eq_some_iff.1 h
      exact hq' w (List.mem_of_getElem? hw) hwq
  · rcases exists_or_forall_ne ws (q + 1) with ⟨j, y, hj⟩ | hq'
    · obtain rfl : y = b := Option.some.inj ((hnew hj).symm.trans hb)
      obtain ⟨hcur, hfin⟩ := getElem?_never (l := l) hq j
      rw [hfin] at ha
      exact lt_of_fits_before hfit hj (hcur.trans ha)
    · rw [(getElem?_never (l := l) hq 0).2] at ha
      rw [(getElem?_never (l := l) hq' 0).2] at hb
      exact pairwise_lt_iff.1 hasc q a b ha hb

/-- The one written first was checked against what the other held. -/
theorem timely_of_fits (hnd : (ws.map Prod.fst).Nodup) (hfit : fits Vector.less ws l = true) :
    Timely ws l := by
  intro i j p x y hi hj
  refine ⟨fun hji z hz => ?_, fun hij z hz => ?_⟩
  · exact lt_of_fits_before hfit hj ((getElem?_future hnd hji.le hi).trans hz)
  · exact lt_of_fits_after hfit hi (not_next hnd hj (by omega))
      ((getElem?_future hnd (by omega) hj).trans hz)

theorem fits_of_timely (hnd : (ws.map Prod.fst).Nodup) (hin : ∀ w ∈ ws, w.1 < l.length)
    (hasc : (writes ws l).Pairwise (· < ·)) (htime : Timely ws l) :
    fits Vector.less ws l = true := by
  have hfin := pairwise_lt_iff.1 hasc
  have hlt {i q : Nat} {x : T} (hi : ws[i]? = some (q, x)) : q < l.length :=
    hin _ (List.mem_of_getElem? hi)
  have hnew {i q : Nat} {x : T} (hi : ws[i]? = some (q, x)) : (writes ws l)[q]? = some x :=
    getElem?_writes_nodup hnd hi (hlt hi)
  rw [fits_iff]
  intro i p x hi
  refine ⟨before_less_iff.2 ?_, ?_⟩
  · rintro q z rfl hz
    rcases exists_or_forall_ne ws q with ⟨j, y, hj⟩ | hq
    · have hne := ne_of_neighbours hj hi
      rcases Nat.lt_or_ge j i with hji | hij
      · rw [getElem?_past hnd hji hj (hlt hj)] at hz
        cases hz
        exact hfin q _ _ (hnew hj) (hnew hi)
      · rw [getElem?_future hnd hij hj] at hz
        exact (htime j i q y x hj hi).1 (by omega) z hz
    · obtain ⟨hcur, hend⟩ := getElem?_never (l := l) hq i
      exact hfin q _ _ (hend.trans (hcur.symm.trans hz)) (hnew hi)
  · rw [or_iff_not_imp_left]
    intro hnext
    refine after_less_iff.2 fun z hz => ?_
    rcases exists_or_forall_ne ws (p + 1) with ⟨j, y, hj⟩ | hq
    · have hne := ne_of_neighbours hi hj
      rcases Nat.lt_or_ge j i with hji | hij
      · rw [getElem?_past hnd hji hj (hlt hj)] at hz
        cases hz
        exact hfin p _ _ (hnew hi) (hnew hj)
      · have hne' : j ≠ i + 1 := by
          rintro rfl
          rw [hj] at hnext
          exact hnext rfl
        rw [getElem?_future hnd hij hj] at hz
        exact (htime i j p x y hi hj).2 (by omega) z hz
    · obtain ⟨hcur, hend⟩ := getElem?_never (l := l) hq i
      exact hfin p _ _ (hnew hi) (hend.trans (hcur.symm.trans hz))

/-- All checks succeed just when the writes are timely and leave an ascending list. -/
theorem fits_iff_timely (hnd : (ws.map Prod.fst).Nodup) (hin : ∀ w ∈ ws, w.1 < l.length)
    (hasc : l.Pairwise (· < ·)) :
    fits Vector.less ws l = true ↔ (writes ws l).Pairwise (· < ·) ∧ Timely ws l :=
  ⟨fun h => ⟨pairwise_of_fits hnd hin hasc h, timely_of_fits hnd h⟩,
    fun h => fits_of_timely hnd hin h.1 h.2⟩

/-! ## The flag -/

variable {U : Type}

/-- `Timely` for an index: places `a` and `b` of it list two neighbours. -/
def InTime (sort : ∀ vi, StdSort (byValue vi)) (vi : Vector Nat) (us : List T) (l : List T) :
    Prop :=
  ∀ (a b p : Nat) (x y : T), vi.v[a]? = some p → vi.v[b]? = some (p + 1) → us[a]? = some x →
    us[b]? = some y →
    (turn sort vi b < turn sort vi a → ∀ z, l[p]? = some z → z < y) ∧
      (turn sort vi a + 1 < turn sort vi b → ∀ z, l[p + 1]? = some z → x < z)

theorem timely_iff_inTime {sort : ∀ vi, StdSort (byValue vi)} {vi : Vector Nat} {us : List T}
    (hws : InTurns sort vi us ws) : Timely ws l ↔ InTime sort vi us l := by
  constructor
  · intro h a b p x y ha hb hx hy
    obtain ⟨x', hx', hwa⟩ := hws.write ha
    obtain ⟨y', hy', hwb⟩ := hws.write hb
    obtain rfl : x = x' := Option.some.inj (hx.symm.trans hx')
    obtain rfl : y = y' := Option.some.inj (hy.symm.trans hy')
    exact h _ _ p x y hwa hwb
  · intro h i j p x y hi hj
    obtain ⟨a, rfl, ha, hx⟩ := hws.place hi
    obtain ⟨b, rfl, hb, hy⟩ := hws.place hj
    exact h a b p x y ha hb hx hy

/-- After an assignment to distinct positions of an ascending vector the flag tells whether
it still ascends, just when, if it does, the writes were in time. -/
theorem subassign_ordered_iff (sort : ∀ vi, StdSort (byValue vi)) (vi : Vector Nat)
    (convert : U → T) {u : List U} {vj : Nat} (rv : Vector T) (ho : rv.ordered = true)
    (hasc : rv.v.Pairwise (· < ·)) (hnd : vi.v.Nodup) (hin : ∀ p ∈ vi.v, p < rv.size)
    (hu : vj + vi.size ≤ u.length) :
    (∃ rv', subassign Vector.less convert (make sort vi) u vj rv = .ok (vj + vi.size) rv' ∧
      (rv'.ordered = true ↔ rv'.v.Pairwise (· < ·))) ↔
    ((replaced vi.v ((u.drop vj).map convert) rv.v).Pairwise (· < ·) →
      InTime sort vi ((u.drop vj).map convert) rv.v) := by
  obtain ⟨ws, hws, hok⟩ := subassign_eq_ok sort vi Vector.less convert rv hin hu
  have hflag : (rv.ordered && fits Vector.less ws rv.v) = true ↔
      (writes ws rv.v).Pairwise (· < ·) ∧ InTime sort vi ((u.drop vj).map convert) rv.v := by
    rw [ho, Bool.true_and, fits_iff_timely (hws.nodup hnd) (fun w hw => hin _ (hws.mem hw)) hasc,
      timely_iff_inTime hws]
  rw [← hws.writes_eq_replaced hnd hin]
  constructor
  · rintro ⟨rv', hok', hiff⟩ hpair
    rw [hok] at hok'
    cases hok'
    exact (hflag.1 (hiff.2 hpair)).2
  · intro htime
    exact ⟨_, hok, hflag.trans ⟨fun h => h.1, fun h => ⟨h, htime h⟩⟩⟩

/-- Positions flagged as ordered. -/
theorem subassign_ordered_iff_ascending :
    ∃ rv' : Vector Nat, subassign Vector.less id (make (fun vi => mergeStdSort (byValue vi))
        ⟨[0, 2], true, 0, 0, none⟩) [5, 25] 0 ⟨[10, 20, 30], true, 0, 0, none⟩ = .ok 2 rv' ∧
      (rv'.ordered = true ↔ rv'.v.Pairwise (· < ·)) :=
  (@subassign_ordered_iff Nat _ Nat (fun vi => mergeStdSort (byValue vi))
    ⟨[0, 2], true, 0, 0, none⟩ id [5, 25] 0 ⟨[10, 20, 30], true, 0, 0, none⟩ rfl (by decide)
    (by decide) (by decide) (by decide)).2 (by
      intro _ a b p x y ha hb
      have hlt : a < 2 := (List.getElem?_eq_some_iff.1 ha).1
      have hlt' : b < 2 := (List.getElem?_eq_some_iff.1 hb).1
      interval_cases a <;> interval_cases b <;> cases ha <;> cases hb)

/-- The third place is written before the first two, and is compared with what the second
one held. -/
theorem subassign_flag_lost :
    ∃ rv' : Vector Nat, subassign Vector.less id (make (fun vi => mergeStdSort (byValue vi))
        ⟨[1, 2, 0], false, 0, 0, none⟩) [2, 3, 1] 0 ⟨[10, 20, 30], true, 0, 0, none⟩ = .ok 3 rv' ∧
      ¬(rv'.ordered = true ↔ rv'.v.Pairwise (· < ·)) := by
  have hidx : sort_idx (fun vi => mergeStdSort (byValue vi)) [1, 2, 0] = [2, 0, 1] := by
    simp [sort_idx, mergeStdSort, byValue, List.mergeSort, List.range, List.range.loop]
  have hmake : make (fun vi => mergeStdSort (byValue vi)) ⟨[1, 2, 0], false, 0, 0, none⟩ =
      ⟨⟨[1, 2, 0]⟩, [2, 0, 1], [1, 2, 0]⟩ := by
    rw [make_of_unordered _ _ rfl, hidx]
    rfl
  rw [hmake]
  exact ⟨⟨[1, 2, 3], false, 0, 0, none⟩, rfl, by decide⟩

end Checks

end IntIndex_T

end Ztsdb.Arr
