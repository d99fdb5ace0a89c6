import Mathlib

/-!
# Writes to a list, one after the other

A place holds what the last write to it put there, and what it held before when none was
to it. Where every place is written at most once, each write is the last one to its place.
-/

namespace Ztsdb.Lib

variable {α : Type}

/-- The writes `ws`, each a place and a value, in their order. -/
def writes : List (Nat × α) → List α → List α
  | [], l => l
  | w :: ws, l => writes ws (l.set w.1 w.2)

@[simp] theorem length_writes (ws : List (Nat × α)) (l : List α) :
    (writes ws l).length = l.length := by
  induction ws generalizing l with
  | nil => rfl
  | cons w ws ih => rw [writes, ih, List.length_set]

/-- A place that no write is to. -/
theorem getElem?_writes_of_ne {ws : List (Nat × α)} {l : List α} {p : Nat}
    (h : ∀ w ∈ ws, w.1 ≠ p) : (writes ws l)[p]? = l[p]? := by
  induction ws generalizing l with
  | nil => rfl
  | cons w ws ih =>
      rw [writes, ih fun v hv => h v (List.mem_cons_of_mem w hv),
        List.getElem?_set_ne (h w List.mem_cons_self)]

/-- The last write to its place. -/
theorem getElem?_writes_last {ws : List (Nat × α)} {l : List α} {i p : Nat} {x : α}
    (hi : ws[i]? = some (p, x)) (hlast : ∀ j w, i < j → ws[j]? = some w → w.1 ≠ p)
    (hp : p < l.length) : (writes ws l)[p]? = some x := by
  induction ws generalizing l i with
  | nil => cases hi
  | cons w ws ih =>
      cases i with
      | zero =>
          cases hi
          rw [writes, getElem?_writes_of_ne, List.getElem?_set_self hp]
          intro v hv
          obtain ⟨j, hj⟩ := List.mem_iff_getElem?.1 hv
          exact hlast (j + 1) v (Nat.succ_pos j) hj
      | succ i =>
          refine ih hi (fun j v hij hv => ?_) (by rwa [List.length_set])
          exact hlast (j + 1) v (Nat.succ_lt_succ hij) hv

theorem exists_or_forall_ne (ws : List (Nat × α)) (q : Nat) :
    (∃ (j : Nat) (y : α), ws[j]? = some (q, y)) ∨ ∀ w ∈ ws, w.1 ≠ q := by
  by_cases h : ∃ w ∈ ws, w.1 = q
  · obtain ⟨⟨_, y⟩, hw, rfl⟩ := h
    obtain ⟨j, hj⟩ := List.mem_iff_getElem?.1 hw
    exact .inl ⟨j, y, hj⟩
  · exact .inr fun w hw hq => h ⟨w, hw, hq⟩

/-! ## An element moved down -/

theorem eraseIdx_set_next {l : List α} {j : Nat} {y : α} (h : l[j + 1]? = some y) :
    (l.set j y).eraseIdx (j + 1) = l.eraseIdx j := by
  refine List.ext_getElem? fun m => ?_
  rw [List.getElem?_eraseIdx, List.getElem?_eraseIdx, List.getElem?_set, List.getElem?_set]
  grind

theorem take_eq_eraseIdx {l : List α} {j : Nat} (h : l.length ≤ j + 1) :
    l.take j = l.eraseIdx j := by
  rw [List.eraseIdx_eq_take_drop_succ, List.drop_eq_nil_of_le h, List.append_nil]

/-! ## Places written at most once -/

variable {ws : List (Nat × α)} {l : List α}

theorem place_inj (hnd : (ws.map Prod.fst).Nodup) {i j q : Nat} {x y : α}
    (hi : ws[i]? = some (q, x)) (hj : ws[j]? = some (q, y)) : i = j := by
  have hi' : (ws.map Prod.fst)[i]? = some q := by rw [List.getElem?_map, hi]; rfl
  have hj' : (ws.map Prod.fst)[j]? = some q := by rw [List.getElem?_map, hj]; rfl
  exact (List.getElem?_inj (List.getElem?_eq_some_iff.1 hi').1 hnd).1 (hi'.trans hj'.symm)

/-- A write to a place of its own. -/
theorem getElem?_writes_nodup {i p : Nat} {x : α} (hnd : (ws.map Prod.fst).Nodup)
    (hi : ws[i]? = some (p, x)) (hp : p < l.length) : (writes ws l)[p]? = some x := by
  refine getElem?_writes_last hi ?_ hp
  rintro j ⟨p', x'⟩ hij hj rfl
  exact absurd (place_inj hnd hi hj) (by omega)

/-- A place that was written before. -/
theorem getElem?_past (hnd : (ws.map Prod.fst).Nodup) {i j q : Nat} {y : α} (hji : j < i)
    (hj : ws[j]? = some (q, y)) (hq : q < l.length) : (writes (ws.take i) l)[q]? = some y := by
  refine getElem?_writes_nodup ?_ (by rwa [List.getElem?_take_of_lt hji]) hq
  exact hnd.sublist ((List.take_sublist i ws).map _)

/-- A place that is written later. -/
theorem getElem?_future (hnd : (ws.map Prod.fst).Nodup) {i j q : Nat} {y : α} (hij : i ≤ j)
    (hj : ws[j]? = some (q, y)) : (writes (ws.take i) l)[q]? = l[q]? := by
  refine getElem?_writes_of_ne ?_
  rintro ⟨_, x⟩ hw rfl
  obtain ⟨k, hk⟩ := List.mem_iff_getElem?.1 hw
  rw [List.getElem?_take] at hk
  split at hk
  · next hki =>
      have hkj := place_inj hnd hk hj
      omega
  · cases hk

/-- A place that is never written. -/
theorem getElem?_never {q : Nat} (h : ∀ w ∈ ws, w.1 ≠ q) (i : Nat) :
    (writes (ws.take i) l)[q]? = l[q]? ∧ (writes ws l)[q]? = l[q]? :=
  ⟨getElem?_writes_of_ne fun w hw => h w (List.mem_of_mem_take hw), getElem?_writes_of_ne h⟩

/-- The next write is not the one to the element after. -/
theorem not_next (hnd : (ws.map Prod.fst).Nodup) {i j p : Nat} {y : α}
    (hj : ws[j]? = some (p + 1, y)) (hne : j ≠ i + 1) : ws[i + 1]?.map Prod.fst ≠ some (p + 1) := by
  intro h
  obtain ⟨⟨_, x⟩, hi, rfl⟩ := Option.map_eq_some_iff.1 h
  exact hne (place_inj hnd hj hi)

theorem ne_of_neighbours {i j p : Nat} {x y : α} (hi : ws[i]? = some (p, x))
    (hj : ws[j]? = some (p + 1, y)) : i ≠ j := by
  rintro rfl
  rw [hi] at hj
  simp at hj

end Ztsdb.Lib
