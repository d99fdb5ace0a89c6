import Mathlib
import Ztsdb.Arr.VectorSet

/-!
# Sets of elements of vectors, by position

`intersect_idx`, `union_idx` and `setdiff_idx` run the merges of `VectorSet` and push
positions, counted from one, in place of values. Here are the loops, what sorting does to
positions, and the intersection and the difference; what `union_idx` gives is in `UnionIdx`.

A duplicate is told by the element before the cursor. `intersect_idx` looks at it at the
first place too, where there is none: the subscript wraps around and the access throws.
`setdiff_idx` has no such test, but the positions it gives are those of the sorted copies.
-/

namespace Ztsdb.Arr

open Ztsdb.Lib

namespace Vector

section Places

variable {T : Type}

/-- `v[i - 1]`. Before the first place the subscript wraps around to one that no vector
has. -/
def previous (v : List T) : Nat → Outcome Exn Unit T
  | 0 => .throw (.outOfRange "subscript out of bounds") ()
  | i + 1 =>
    match v[i]? with
    | some x => .ok x ()
    | none => .throw (.outOfRange "subscript out of bounds") ()

/-- The two results, each with a position more. -/
def push2 {I J : Type} (i : I) (j : J) (res : List I × List J) : List I × List J :=
  (res.1 ++ [i], res.2 ++ [j])

/-- The element of `l` at a position counted from one. -/
def pick (l : List T) (k : Nat) : Option T := if k = 0 then none else l[k - 1]?

theorem previous_eq {v : List T} {i : Nat} (hpos : 0 < i) (h : i ≤ v.length) :
    previous v i = .ok v[i - 1] () := by
  obtain ⟨k, rfl⟩ := Nat.exists_eq_succ_of_ne_zero (Nat.pos_iff_ne_zero.1 hpos)
  rw [previous, List.getElem?_eq_getElem (by omega)]
  rfl

theorem pick_succ {l : List T} {i : Nat} (h : i < l.length) : pick l (i + 1) = some l[i] := by
  rw [pick, if_neg (Nat.succ_ne_zero i), Nat.add_sub_cancel, List.getElem?_eq_getElem h]

theorem mem_take_iff {v : List T} {i : Nat} {a : T} :
    a ∈ v.take i ↔ ∃ k, ∃ h : k < v.length, k < i ∧ v[k] = a := by
  rw [List.mem_take_iff_getElem]
  constructor
  · rintro ⟨k, hk, rfl⟩
    exact ⟨k, by omega, by omega, rfl⟩
  · rintro ⟨k, hk, hki, rfl⟩
    exact ⟨k, by omega, rfl⟩

theorem mem_take_succ {v : List T} {i : Nat} (h : i < v.length) {a : T} :
    a ∈ v.take (i + 1) ↔ a ∈ v.take i ∨ a = v[i] := by
  rw [List.take_succ_eq_append_getElem h, List.mem_append, List.mem_singleton]

theorem mem_drop_iff {v : List T} {i : Nat} (h : i < v.length) {a : T} :
    a ∈ v.drop i ↔ a = v[i] ∨ a ∈ v.drop (i + 1) := by
  rw [List.drop_eq_getElem_cons h, List.mem_cons]

/-- The positions select the values, from both vectors. -/
def Selects (v1 v2 : List T) (res : List Nat × List Nat) (vals : List T) : Prop :=
  res.1.map (pick v1) = vals.map some ∧ res.2.map (pick v2) = vals.map some

theorem Selects.push {v1 v2 : List T} {res : List Nat × List Nat} {vals : List T} {i1 i2 : Nat}
    (h : Selects v1 v2 res vals) (h1 : i1 < v1.length) (h2 : i2 < v2.length)
    (heq : v1[i1] = v2[i2]) :
    Selects v1 v2 (push2 (i1 + 1) (i2 + 1) res) (vals ++ [v1[i1]]) := by
  refine ⟨?_, ?_⟩
  · rw [push2, List.map_append, List.map_append, h.1, List.map_singleton, pick_succ h1,
      List.map_singleton]
  · rw [push2, List.map_append, List.map_append, h.2, List.map_singleton, pick_succ h2, ← heq,
      List.map_singleton]

theorem mem_drop_of_succ {v : List T} {i : Nat} {a : T} (h : a ∈ v.drop (i + 1)) :
    a ∈ v.drop i := by
  rw [← List.drop_drop] at h
  exact List.mem_of_mem_drop h

end Places

section Loops

variable {T : Type} [LinearOrder T]

/-- The loop of `intersect_idx`. -/
def intersectIdxLoop (v1 v2 : List T) (i1 i2 : Nat) (res : List Nat × List Nat) :
    Outcome Exn Unit (List Nat × List Nat) :=
  if h : i1 < v1.length ∧ i2 < v2.length then
    if v1[i1] < v2[i2] then intersectIdxLoop v1 v2 (i1 + 1) i2 res
    else if v2[i2] < v1[i1] then intersectIdxLoop v1 v2 i1 (i2 + 1) res
    else if v1.length = 0 then
      intersectIdxLoop v1 v2 (i1 + 1) i2 (push2 (i1 + 1) (i2 + 1) res)
    else (previous v1 i1).bind fun x _ =>
      intersectIdxLoop v1 v2 (i1 + 1) i2
        (if v1[i1] ≠ x then push2 (i1 + 1) (i2 + 1) res else res)
  else .ok res ()
  termination_by (v1.length - i1) + (v2.length - i2)

/-- The last loops of `setdiff_idx`: the places from `i` on. -/
def pickUpPlaces (v : List T) (i : Nat) (res : List Nat) : List Nat :=
  if i < v.length then pickUpPlaces v (i + 1) (res ++ [i + 1]) else res
  termination_by v.length - i

/-- The loop of `setdiff_idx`, and what it picks up at the end. -/
def setdiffIdxLoop (v1 v2 : List T) (i1 i2 : Nat) (res : List Nat × List Nat) :
    List Nat × List Nat :=
  if h : i1 < v1.length ∧ i2 < v2.length then
    if v1[i1] < v2[i2] then setdiffIdxLoop v1 v2 (i1 + 1) i2 (res.1 ++ [i1 + 1], res.2)
    else if v2[i2] < v1[i1] then setdiffIdxLoop v1 v2 i1 (i2 + 1) (res.1, res.2 ++ [i2 + 1])
    else setdiffIdxLoop v1 v2 (i1 + 1) (i2 + 1) res
  else (pickUpPlaces v1 i1 res.1, pickUpPlaces v2 i2 res.2)
  termination_by (v1.length - i1) + (v2.length - i2)

/-- `i == 0 || x != v[i - 1]`. -/
def isNew (x : T) (v : List T) (i : Nat) : Outcome Exn Unit Bool :=
  if i = 0 then .ok true ()
  else (previous v i).bind fun y _ => .ok (decide (x ≠ y)) ()

/-- The last loops of `union_idx`: what is left of one vector; `put` pushes a place. -/
def pickUpIdx {R : Type} (v : List T) (put : Nat → R → R) (i : Nat) (res : R) :
    Outcome Exn Unit R :=
  if h : i < v.length then
    (isNew v[i] v i).bind fun new _ =>
      pickUpIdx v put (i + 1) (if new then put (i + 1) res else res)
  else .ok res ()
  termination_by v.length - i

/-- The loop of `union_idx`, and what follows it. NaN is `none`. -/
def unionIdxLoop (v1 v2 : List T) (i1 i2 : Nat) (res : List (Option Nat) × List (Option Nat)) :
    Outcome Exn Unit (List (Option Nat) × List (Option Nat)) :=
  if h : i1 < v1.length ∧ i2 < v2.length then
    if v1[i1] < v2[i2] then
      (isNew v1[i1] v1 i1).bind fun new _ =>
        unionIdxLoop v1 v2 (i1 + 1) i2 (if new then push2 (some (i1 + 1)) none res else res)
    else if v2[i2] < v1[i1] then
      -- the place before `i2` is looked at in the first vector
      (isNew v2[i2] v1 i2).bind fun new _ =>
        unionIdxLoop v1 v2 i1 (i2 + 1) (if new then push2 none (some (i2 + 1)) res else res)
    else
      (isNew v1[i1] v1 i1).bind fun new _ =>
        unionIdxLoop v1 v2 (i1 + 1) (i2 + 1)
          (if new then push2 (some (i1 + 1)) (some (i2 + 1)) res else res)
  else
    (pickUpIdx v1 (fun k => push2 (some k) none) i1 res).bind fun res _ =>
      pickUpIdx v2 (fun k => push2 none (some k)) i2 res
  termination_by (v1.length - i1) + (v2.length - i2)

/-- `conditional_sort_idx_helper`: as for the values, and the result is not translated. -/
def conditional_sort_idx_helper {R : Type} (sort : StdSort (@less T _))
    (f : List T → List T → R) (v1 v2 : Vector T) : R :=
  if v1.ordered = false ∧ v2.ordered = false then f (sort.run v1.v) (sort.run v2.v)
  else if v1.ordered = false then f (sort.run v1.v) v2.v
  else if v2.ordered = false then f v1.v (sort.run v2.v)
  else f v1.v v2.v

def intersect_idx (sort : StdSort (@less T _)) (v1 v2 : Vector T) :
    Outcome Exn Unit (List Nat × List Nat) :=
  conditional_sort_idx_helper sort (fun xs ys => intersectIdxLoop xs ys 0 0 ([], [])) v1 v2

def setdiff_idx (sort : StdSort (@less T _)) (v1 v2 : Vector T) : List Nat × List Nat :=
  conditional_sort_idx_helper sort (fun xs ys => setdiffIdxLoop xs ys 0 0 ([], [])) v1 v2

def union_idx (sort : StdSort (@less T _)) (v1 v2 : Vector T) :
    Outcome Exn Unit (List (Option Nat) × List (Option Nat)) :=
  conditional_sort_idx_helper sort (fun xs ys => unionIdxLoop xs ys 0 0 ([], [])) v1 v2

/-- What a function of two ordered lists is given for a vector. -/
def arranged (sort : StdSort (@less T _)) (v : Vector T) : List T :=
  if v.ordered then v.v else sort.run v.v

theorem conditional_sort_idx_helper_eq {R : Type} (sort : StdSort (@less T _))
    (f : List T → List T → R) (v1 v2 : Vector T) :
    conditional_sort_idx_helper sort f v1 v2 = f (arranged sort v1) (arranged sort v2) := by
  rw [conditional_sort_idx_helper, arranged, arranged]
  cases v1.ordered with
  | false => cases v2.ordered <;> rfl
  | true => cases v2.ordered <;> rfl

theorem conditional_sort_helper_eq_arranged (sort : StdSort (@less T _))
    (f : List T → List T → List T) (v1 v2 : Vector T) :
    conditional_sort_helper sort f v1 v2 = f (arranged sort v1) (arranged sort v2) :=
  conditional_sort_idx_helper_eq sort f v1 v2

theorem perm_arranged (sort : StdSort (@less T _)) (v : Vector T) :
    (arranged sort v).Perm v.v := by
  rw [arranged]
  split
  · exact .refl _
  · exact sort.perm _

theorem sorted_arranged (sort : StdSort (@less T _)) {v : Vector T} (h : FlagOk less v) :
    (arranged sort v).Pairwise (· ≤ ·) := by
  rw [arranged]
  split
  · next ho => exact sorted_of_noneSmaller (h ho)
  · exact sorted_run sort _

/-- Sorting moves nothing in a sorted vector. -/
theorem arranged_eq (sort : StdSort (@less T _)) {v : Vector T}
    (h : v.v.Pairwise (· ≤ ·)) : arranged sort v = v.v := by
  rw [arranged]
  split
  · rfl
  · exact (sort.perm v.v).eq_of_pairwise (fun a b _ _ hab hba => le_antisymm hab hba)
      (sorted_run sort v.v) h

/-! ## The intersection -/

/-- What holds of the values pushed when the cursors of `intersect_idx` stand at `i1` and
`i2`. -/
structure Met (v1 v2 : List T) (i1 i2 : Nat) (vals : List T) : Prop where
  asc : vals.Pairwise (· < ·)
  sub : ∀ r ∈ vals, r ∈ v1.take i1
  seen : ∀ a ∈ v1.take i1, a ∈ v2.drop i2 → a ∈ vals

/-- A value pushed before does not exceed the elements from the cursor on. -/
theorem Met.le {v1 v2 : List T} {i1 i2 : Nat} {vals : List T} (h : Met v1 v2 i1 i2 vals)
    (hv1 : v1.Pairwise (· ≤ ·)) (h1 : i1 < v1.length) : ∀ r ∈ vals, r ≤ v1[i1] := by
  intro r hr
  obtain ⟨k, hk, hki, rfl⟩ := mem_take_iff.1 (h.sub r hr)
  exact getElem_mono hv1 (by omega) h1

/-- Where the vectors meet, the element before the cursor tells what the last value pushed
would have told. -/
theorem Met.pushNew_eq {v1 v2 : List T} {i1 i2 : Nat} {vals : List T}
    (h : Met v1 v2 i1 i2 vals) (hv1 : v1.Pairwise (· ≤ ·)) (hpos : 0 < i1)
    (h1 : i1 < v1.length) (hmem : v1[i1] ∈ v2.drop i2) :
    pushNew v1[i1] vals = if v1[i1] ≠ v1[i1 - 1] then vals ++ [v1[i1]] else vals := by
  rw [pushNew]
  by_cases hp : v1[i1] = v1[i1 - 1]
  · have hprev : v1[i1] ∈ v1.take i1 := mem_take_iff.2 ⟨i1 - 1, by omega, by omega, hp.symm⟩
    have hin : v1[i1] ∈ vals := h.seen _ hprev hmem
    obtain ⟨y, hy⟩ := Option.isSome_iff_exists.1 (List.getLast?_isSome.2 (List.ne_nil_of_mem hin))
    have hlast : y = v1[i1] :=
      le_antisymm (h.le hv1 h1 y (List.mem_of_getLast? hy)) (le_getLast h.asc hy _ hin)
    rw [if_neg, if_neg (not_not.2 hp)]
    rw [not_or, not_not, hy, hlast]
    exact ⟨List.ne_nil_of_mem hin, rfl⟩
  · rw [if_pos, if_pos hp]
    right
    intro hlast
    obtain ⟨k, hk, hki, heq⟩ := mem_take_iff.1 (h.sub _ (List.mem_of_getLast? hlast))
    have hle : v1[k] ≤ v1[i1 - 1] := getElem_mono hv1 (by omega) (by omega)
    have hle' : v1[i1 - 1] ≤ v1[i1] := getElem_mono hv1 (by omega) h1
    rw [heq] at hle
    exact hp (le_antisymm hle hle')

/-- Below the element at the cursor is nothing of what is left. -/
theorem not_mem_drop {v : List T} (hv : v.Pairwise (· ≤ ·)) {i : Nat} (h : i < v.length) {a : T}
    (hlt : a < v[i]) : a ∉ v.drop i := by
  have hd : (v.drop i).Pairwise (· ≤ ·) := hv.drop
  rw [List.drop_eq_getElem_cons h] at hd ⊢
  exact not_mem_of_lt hd hlt

theorem Met.lt {v1 v2 : List T} {i1 i2 : Nat} {vals : List T} (h : Met v1 v2 i1 i2 vals)
    (hv2 : v2.Pairwise (· ≤ ·)) (h1 : i1 < v1.length) (h2 : i2 < v2.length)
    (hlt : v1[i1] < v2[i2]) : Met v1 v2 (i1 + 1) i2 vals := by
  refine ⟨h.asc, fun r hr => (mem_take_succ h1).2 (.inl (h.sub r hr)), ?_⟩
  intro a ha hin
  rcases (mem_take_succ h1).1 ha with ha | rfl
  · exact h.seen a ha hin
  · exact absurd hin (not_mem_drop hv2 h2 hlt)

theorem Met.gt {v1 v2 : List T} {i1 i2 : Nat} {vals : List T} (h : Met v1 v2 i1 i2 vals)
    (h2 : i2 < v2.length) : Met v1 v2 i1 (i2 + 1) vals :=
  ⟨h.asc, h.sub, fun a ha hin => h.seen a ha ((mem_drop_iff h2).2 (.inr hin))⟩

theorem Met.eq {v1 v2 : List T} {i1 i2 : Nat} {vals : List T} (h : Met v1 v2 i1 i2 vals)
    (hv1 : v1.Pairwise (· ≤ ·)) (h1 : i1 < v1.length) :
    Met v1 v2 (i1 + 1) i2 (pushNew v1[i1] vals) := by
  refine ⟨pairwise_pushNew h.asc (h.le hv1 h1), ?_, ?_⟩
  · intro r hr
    rcases mem_pushNew.1 hr with hr | rfl
    · exact (mem_take_succ h1).2 (.inl (h.sub r hr))
    · exact (mem_take_succ h1).2 (.inr rfl)
  · intro a ha hin
    rcases (mem_take_succ h1).1 ha with ha | rfl
    · exact mem_pushNew.2 (.inl (h.seen a ha hin))
    · exact mem_pushNew.2 (.inr rfl)

/-- The loop follows the one over the values, unless the vectors meet at the first place. -/
theorem intersectIdxLoop_eq_ok {v1 v2 : List T} (hv1 : v1.Pairwise (· ≤ ·))
    (hv2 : v2.Pairwise (· ≤ ·)) (i1 i2 : Nat) (res : List Nat × List Nat) {vals : List T}
    (h : Met v1 v2 i1 i2 vals) (hres : Selects v1 v2 res vals)
    (hfirst : i1 = 0 → ∀ x ∈ v1.head?, x ∉ v2.drop i2) :
    ∃ res', intersectIdxLoop v1 v2 i1 i2 res = .ok res' () ∧
      Selects v1 v2 res' (intersectLoop (v1.drop i1) (v2.drop i2) vals) := by
  fun_induction intersectIdxLoop v1 v2 i1 i2 res generalizing vals with
  | case1 i1 i2 res hin hlt ih =>
      obtain ⟨h1, h2⟩ := hin
      rw [List.drop_eq_getElem_cons h1, List.drop_eq_getElem_cons h2, intersectLoop, if_pos hlt,
        ← List.drop_eq_getElem_cons h2]
      exact ih (h.lt hv2 h1 h2 hlt) hres fun h0 => absurd h0 (Nat.succ_ne_zero i1)
  | case2 i1 i2 res hin hge hlt ih =>
      obtain ⟨h1, h2⟩ := hin
      rw [List.drop_eq_getElem_cons h1, List.drop_eq_getElem_cons h2, intersectLoop, if_neg hge,
        if_pos hlt, ← List.drop_eq_getElem_cons h1]
      refine ih (h.gt h2) hres fun h0 x hx hmem => ?_
      exact hfirst h0 x hx ((mem_drop_iff h2).2 (.inr hmem))
  | case3 i1 i2 res hin _ _ hnil _ => exact absurd hin.1 (by omega)
  | case4 i1 i2 res hin hge hge' hne ih =>
      obtain ⟨h1, h2⟩ := hin
      have heq : v1[i1] = v2[i2] := le_antisymm (not_lt.1 hge') (not_lt.1 hge)
      have hmem : v1[i1] ∈ v2.drop i2 := (mem_drop_iff h2).2 (.inl heq)
      have hpos : 0 < i1 := by
        refine Nat.pos_of_ne_zero fun h0 => hfirst h0 v1[i1] ?_ hmem
        subst h0
        rw [List.head?_eq_getElem?, List.getElem?_eq_getElem h1]
        rfl
      have hpush := h.pushNew_eq hv1 hpos h1 hmem
      rw [previous_eq hpos h1.le, Outcome.bind_ok, List.drop_eq_getElem_cons h1,
        List.drop_eq_getElem_cons h2, intersectLoop, if_neg hge, if_neg hge',
        ← List.drop_eq_getElem_cons h2]
      refine ih _ (h.eq hv1 h1) ?_ fun h0 => absurd h0 (Nat.succ_ne_zero i1)
      rw [hpush]
      split
      · exact hres.push h1 h2 heq
      · exact hres
  | case5 i1 i2 res hout =>
      refine ⟨res, rfl, ?_⟩
      rcases Nat.lt_or_ge i1 v1.length with h1 | h1
      · rw [List.drop_eq_getElem_cons h1, List.drop_eq_nil_of_le (by omega : v2.length ≤ i2),
          intersectLoop]
        exact hres
      · rw [List.drop_eq_nil_of_le h1, intersectLoop]
        exact hres

/-- A first element that the other vector has is looked for before itself. -/
theorem intersectIdxLoop_throws {v1 v2 : List T} (hv2 : v2.Pairwise (· ≤ ·)) {x : T}
    {xs : List T} (hcons : v1 = x :: xs) (i2 : Nat) (res : List Nat × List Nat)
    (hmem : x ∈ v2.drop i2) :
    intersectIdxLoop v1 v2 0 i2 res = .throw (.outOfRange "subscript out of bounds") () := by
  subst hcons
  induction hn : v2.length - i2 generalizing i2 with
  | zero =>
      rw [List.drop_eq_nil_of_le (by omega)] at hmem
      cases hmem
  | succ n ih =>
      have h2 : i2 < v2.length := by omega
      rw [intersectIdxLoop, dif_pos ⟨by simp, h2⟩]
      simp only [List.getElem_cons_zero]
      have hle : v2[i2] ≤ x := by
        by_contra hlt
        exact not_mem_drop hv2 h2 (not_le.1 hlt) hmem
      rw [if_neg (not_lt.2 hle)]
      rcases lt_or_eq_of_le hle with hlt | heq
      · rw [if_pos hlt]
        refine ih (i2 + 1) ?_ (by omega)
        rcases (mem_drop_iff h2).1 hmem with rfl | hmem
        · exact absurd hlt (lt_irrefl _)
        · exact hmem
      · rw [if_neg (not_lt.2 (ge_of_eq heq)), if_neg (by simp), previous, Outcome.bind_throw]

/-- `intersect_idx` selects from both vectors what `intersect` gives, unless the first
element of the first vector is in the second. -/
theorem intersect_idx_iff (sort : StdSort (@less T _)) {v1 v2 : Vector T}
    (h1 : v1.v.Pairwise (· ≤ ·)) (h2 : v2.v.Pairwise (· ≤ ·)) :
    (∃ is js, intersect_idx sort v1 v2 = .ok (is, js) () ∧ is.length = js.length ∧
      is.map (pick v1.v) = (intersect sort v1 v2).map some ∧
      js.map (pick v2.v) = (intersect sort v1 v2).map some) ↔
    ∀ x ∈ v1.v.head?, x ∉ v2.v := by
  rw [intersect_idx, conditional_sort_idx_helper_eq, intersect,
    conditional_sort_helper_eq_arranged, arranged_eq sort h1, arranged_eq sort h2]
  constructor
  · rintro ⟨is, js, hok, -⟩ x hx hmem
    obtain ⟨xs, hcons⟩ := List.head?_eq_some_iff.1 hx
    rw [intersectIdxLoop_throws h2 hcons 0 _ hmem] at hok
    cases hok
  · intro hfirst
    have hmet : Met v1.v v2.v 0 0 [] :=
      ⟨.nil, fun r hr => absurd hr List.not_mem_nil, fun a ha => by cases ha⟩
    obtain ⟨⟨is, js⟩, hok, hsel1, hsel2⟩ :=
      intersectIdxLoop_eq_ok h1 h2 0 0 ([], []) hmet ⟨rfl, rfl⟩ fun _ => hfirst
    rw [List.drop_zero, List.drop_zero] at hsel1 hsel2
    refine ⟨is, js, hok, ?_, hsel1, hsel2⟩
    have hlen : (is.map (pick v1.v)).length = (js.map (pick v2.v)).length := by
      rw [hsel1, hsel2]
    rwa [List.length_map, List.length_map] at hlen

/-- Two vectors that meet behind the first place, with a duplicate. -/
theorem intersect_idx_iff_twos :
    ∃ is js, intersect_idx (mergeStdSort less) (⟨[1, 2, 2], true, 0, 0, none⟩ : Vector Nat)
      ⟨[2, 2, 3], true, 0, 0, none⟩ = .ok (is, js) () ∧ is.length = js.length ∧
      is.map (pick [1, 2, 2]) = (intersect (mergeStdSort less)
        (⟨[1, 2, 2], true, 0, 0, none⟩ : Vector Nat) ⟨[2, 2, 3], true, 0, 0, none⟩).map some ∧
      js.map (pick [2, 2, 3]) = (intersect (mergeStdSort less)
        (⟨[1, 2, 2], true, 0, 0, none⟩ : Vector Nat) ⟨[2, 2, 3], true, 0, 0, none⟩).map some :=
  (@intersect_idx_iff Nat _ (mergeStdSort less) ⟨[1, 2, 2], true, 0, 0, none⟩
    ⟨[2, 2, 3], true, 0, 0, none⟩ (by decide) (by decide)).2 (by decide)

/-- A vector is intersected with itself. -/
theorem intersect_idx_itself :
    ¬ ∃ is js, intersect_idx (mergeStdSort less) (⟨[1, 2], true, 0, 0, none⟩ : Vector Nat)
      ⟨[1, 2], true, 0, 0, none⟩ = .ok (is, js) () := by
  rintro ⟨is, js, hok⟩
  rw [intersect_idx, conditional_sort_idx_helper_eq,
    arranged_eq _ (by decide : ([1, 2] : List Nat).Pairwise (· ≤ ·)),
    intersectIdxLoop_throws (by decide) rfl 0 _ (by decide)] at hok
  cases hok

/-! ## The difference -/

/-- The places, counted from one, of the elements of `l` that are not in `w`, when the
first of `l` has `i` elements before it. -/
def absent (w : List T) (i : Nat) (l : List T) : List Nat :=
  ((l.zipIdx i).filter fun p => decide (p.1 ∉ w)).map fun p => p.2 + 1

theorem absent_cons {w l : List T} {i : Nat} {x : T} (h : x ∉ w) :
    absent w i (x :: l) = (i + 1) :: absent w (i + 1) l := by
  rw [absent, List.zipIdx_cons, List.filter_cons_of_pos (by simpa using h), List.map_cons, absent]

theorem absent_cons_of_mem {w l : List T} {i : Nat} {x : T} (h : x ∈ w) :
    absent w i (x :: l) = absent w (i + 1) l := by
  rw [absent, List.zipIdx_cons, List.filter_cons_of_neg (by simpa using h), absent]

theorem absent_congr {w w' l : List T} {i : Nat} (h : ∀ x ∈ l, x ∈ w ↔ x ∈ w') :
    absent w i l = absent w' i l := by
  rw [absent, absent]
  congr 1
  apply List.filter_congr
  intro p hp
  have hmem : p.1 ∈ l := by
    obtain ⟨-, -, heq⟩ := List.mem_zipIdx hp
    rw [heq]
    exact List.getElem_mem _
  rw [decide_eq_decide, h p.1 hmem]

theorem pickUpPlaces_eq (v : List T) (i : Nat) (res : List Nat) :
    pickUpPlaces v i res = res ++ absent [] i (v.drop i) := by
  fun_induction pickUpPlaces v i res with
  | case1 i res hlt ih =>
      rw [ih, List.drop_eq_getElem_cons hlt, absent_cons List.not_mem_nil, List.append_assoc,
        List.singleton_append]
  | case2 i res hge =>
      rw [List.drop_eq_nil_of_le (by omega)]
      exact (List.append_nil res).symm

/-- An element that is not in `l` may be passed. -/
theorem absent_drop_succ {v l : List T} {i k : Nat} (h : i < v.length) (hnot : v[i] ∉ l) :
    absent (v.drop i) k l = absent (v.drop (i + 1)) k l := by
  refine absent_congr fun a ha => ?_
  rw [mem_drop_iff h]
  refine or_iff_right ?_
  rintro rfl
  exact hnot ha

/-- In a strictly ascending vector no element comes again. -/
theorem not_mem_drop_succ {v : List T} (hv : v.Pairwise (· < ·)) {i : Nat} (h : i < v.length) :
    v[i] ∉ v.drop (i + 1) := by
  have hd : (v.drop i).Pairwise (· < ·) := hv.drop
  rw [List.drop_eq_getElem_cons h] at hd
  intro hmem
  exact lt_irrefl _ ((List.pairwise_cons.1 hd).1 _ hmem)

/-- The loop of `setdiff_idx` finds the elements that the other vector does not have. -/
theorem setdiffIdxLoop_eq {v1 v2 : List T} (hv1 : v1.Pairwise (· < ·))
    (hv2 : v2.Pairwise (· < ·)) (i1 i2 : Nat) (res : List Nat × List Nat) :
    setdiffIdxLoop v1 v2 i1 i2 res =
      (res.1 ++ absent (v2.drop i2) i1 (v1.drop i1),
        res.2 ++ absent (v1.drop i1) i2 (v2.drop i2)) := by
  have hle1 : v1.Pairwise (· ≤ ·) := hv1.imp le_of_lt
  have hle2 : v2.Pairwise (· ≤ ·) := hv2.imp le_of_lt
  fun_induction setdiffIdxLoop v1 v2 i1 i2 res with
  | case1 i1 i2 res hin hlt ih =>
      obtain ⟨h1, h2⟩ := hin
      have hnot := not_mem_drop hle2 h2 hlt
      rw [ih, absent_drop_succ h1 hnot, List.drop_eq_getElem_cons h1, absent_cons hnot,
        List.append_assoc, List.singleton_append]
  | case2 i1 i2 res hin _ hlt ih =>
      obtain ⟨h1, h2⟩ := hin
      have hnot := not_mem_drop hle1 h1 hlt
      rw [ih, absent_drop_succ h2 hnot, List.drop_eq_getElem_cons h2, absent_cons hnot,
        List.append_assoc, List.singleton_append]
  | case3 i1 i2 res hin hge hge' ih =>
      -- the element is in both vectors, and behind the cursors in neither
      obtain ⟨h1, h2⟩ := hin
      have heq : v1[i1] = v2[i2] := le_antisymm (not_lt.1 hge') (not_lt.1 hge)
      have hmem1 : v1[i1] ∈ v2.drop i2 := (mem_drop_iff h2).2 (.inl heq)
      have hmem2 : v2[i2] ∈ v1.drop i1 := (mem_drop_iff h1).2 (.inl heq.symm)
      have hnot1 : v1[i1] ∉ v2.drop (i2 + 1) := heq ▸ not_mem_drop_succ hv2 h2
      have hnot2 : v2[i2] ∉ v1.drop (i1 + 1) := heq ▸ not_mem_drop_succ hv1 h1
      rw [ih, ← absent_drop_succ h1 hnot1, ← absent_drop_succ h2 hnot2,
        ← absent_cons_of_mem hmem1, ← absent_cons_of_mem hmem2, ← List.drop_eq_getElem_cons h1,
        ← List.drop_eq_getElem_cons h2]
  | case4 i1 i2 res hout =>
      rw [pickUpPlaces_eq, pickUpPlaces_eq]
      rcases Nat.lt_or_ge i1 v1.length with h1 | h1
      · rw [List.drop_eq_nil_of_le (by omega : v2.length ≤ i2)]
        rfl
      · rw [List.drop_eq_nil_of_le h1]
        rfl

theorem mem_absent {w l : List T} {k : Nat} :
    k ∈ absent w 0 l ↔ ∃ i, ∃ h : i < l.length, l[i] ∉ w ∧ k = i + 1 := by
  rw [absent, List.mem_map]
  constructor
  · rintro ⟨⟨x, i⟩, hp, rfl⟩
    obtain ⟨hmem, hnot⟩ := List.mem_filter.1 hp
    obtain ⟨hi, heq⟩ := List.getElem?_eq_some_iff.1 (List.mem_zipIdx_iff_getElem?.1 hmem)
    refine ⟨i, hi, ?_, rfl⟩
    rw [heq]
    simpa using hnot
  · rintro ⟨i, hi, hnot, rfl⟩
    refine ⟨(l[i], i), List.mem_filter.2 ⟨?_, by simpa using hnot⟩, rfl⟩
    rw [List.mem_zipIdx_iff_getElem?]
    exact List.getElem?_eq_getElem hi

/-- The places found in a list select from that list. -/
theorem map_pick_absent (w v : List T) (i : Nat) :
    (absent w i (v.drop i)).map (pick v) =
      ((v.drop i).filter fun x => decide (x ∉ w)).map some := by
  induction hn : v.length - i generalizing i with
  | zero =>
      rw [List.drop_eq_nil_of_le (by omega)]
      rfl
  | succ n ih =>
      have hi : i < v.length := by omega
      rw [List.drop_eq_getElem_cons hi]
      by_cases hw : v[i] ∈ w
      · rw [absent_cons_of_mem hw, List.filter_cons_of_neg (by simpa using hw)]
        exact ih (i + 1) (by omega)
      · rw [absent_cons hw, List.filter_cons_of_pos (by simpa using hw), List.map_cons,
          List.map_cons, pick_succ hi, ih (i + 1) (by omega)]

/-- Which elements are in `w`, place by place. -/
def shared (w l : List T) : List Bool := l.map fun x => decide (x ∈ w)

theorem absent_of_shared {w l l' : List T} (i : Nat) (h : shared w l = shared w l') :
    absent w i l = absent w i l' := by
  induction l generalizing i l' with
  | nil =>
      cases l' with
      | nil => rfl
      | cons x l' => cases h
  | cons x l ih =>
      cases l' with
      | nil => cases h
      | cons x' l' =>
          obtain ⟨hhead, htail⟩ := List.cons_eq_cons.1 h
          rw [decide_eq_decide] at hhead
          by_cases hx : x ∈ w
          · rw [absent_cons_of_mem hx, absent_cons_of_mem (hhead.1 hx), ih (i + 1) htail]
          · rw [absent_cons hx, absent_cons (mt hhead.2 hx), ih (i + 1) htail]

/-- The places of the elements that `w` has not, in a rearranged list, select these elements
from the list itself just when the elements that `w` has stand where they stood. -/
theorem map_pick_absent_iff {w v s : List T} (hnd : v.Nodup) (hperm : s.Perm v) :
    ((absent w 0 s).map (pick v)).Perm ((v.filter fun x => decide (x ∉ w)).map some) ↔
      shared w s = shared w v := by
  constructor
  · intro h
    apply List.ext_getElem
    · rw [shared, shared, List.length_map, List.length_map, hperm.length_eq]
    intro k hk hk'
    rw [shared, List.length_map] at hk hk'
    simp only [shared, List.getElem_map, decide_eq_decide]
    rw [← not_iff_not]
    constructor
    · intro hnot
      have hmem : some v[k] ∈ (absent w 0 s).map (pick v) :=
        List.mem_map.2 ⟨k + 1, mem_absent.2 ⟨k, hk, hnot, rfl⟩, pick_succ hk'⟩
      obtain ⟨a, ha, heq⟩ := List.mem_map.1 (h.mem_iff.1 hmem)
      cases heq
      simpa using (List.mem_filter.1 ha).2
    · intro hnot
      have hmem : some v[k] ∈ (v.filter fun x => decide (x ∉ w)).map some :=
        List.mem_map.2 ⟨_, List.mem_filter.2 ⟨List.getElem_mem hk', by simpa using hnot⟩, rfl⟩
      obtain ⟨j, hj, heq⟩ := List.mem_map.1 (h.mem_iff.2 hmem)
      obtain ⟨i, hi, hnot', rfl⟩ := mem_absent.1 hj
      rw [pick_succ (hperm.length_eq ▸ hi)] at heq
      obtain rfl : i = k := (List.Nodup.getElem_inj_iff hnd).1 (Option.some.inj heq)
      exact hnot'
  · intro h
    have hall := map_pick_absent w v 0
    rw [List.drop_zero] at hall
    rw [absent_of_shared 0 h, hall]

theorem strict_arranged (sort : StdSort (@less T _)) {v : Vector T} (h : FlagOk less v)
    (hnd : v.v.Nodup) : (arranged sort v).Pairwise (· < ·) := by
  have hnd' : (arranged sort v).Pairwise (· ≠ ·) := (perm_arranged sort v).nodup_iff.2 hnd
  exact (sorted_arranged sort h).imp₂ (fun _ _ hle hne => lt_of_le_of_ne hle hne) hnd'

/-- `setdiff_idx` gives positions into its arguments just when sorting an argument, where
that is done, leaves the elements that both have at their places. -/
theorem setdiff_idx_iff (sort : StdSort (@less T _)) {v1 v2 : Vector T} (h1 : FlagOk less v1)
    (h2 : FlagOk less v2) (hnd1 : v1.v.Nodup) (hnd2 : v2.v.Nodup) :
    (((setdiff_idx sort v1 v2).1.map (pick v1.v)).Perm
        ((v1.v.filter fun x => decide (x ∉ v2.v)).map some) ∧
      ((setdiff_idx sort v1 v2).2.map (pick v2.v)).Perm
        ((v2.v.filter fun x => decide (x ∉ v1.v)).map some)) ↔
    (v1.ordered = true ∨ shared v2.v (sort.run v1.v) = shared v2.v v1.v) ∧
      (v2.ordered = true ∨ shared v1.v (sort.run v2.v) = shared v1.v v2.v) := by
  have hp1 := perm_arranged sort v1
  have hp2 := perm_arranged sort v2
  rw [setdiff_idx, conditional_sort_idx_helper_eq,
    setdiffIdxLoop_eq (strict_arranged sort h1 hnd1) (strict_arranged sort h2 hnd2)]
  simp only [List.drop_zero, List.nil_append]
  rw [absent_congr fun a _ => hp2.mem_iff, absent_congr fun a _ => hp1.mem_iff,
    map_pick_absent_iff hnd1 hp1, map_pick_absent_iff hnd2 hp2]
  refine and_congr ?_ ?_
  · rw [arranged]
    cases v1.ordered <;> simp
  · rw [arranged]
    cases v2.ordered <;> simp

/-- An argument that is not flagged, though sorting it would move nothing that matters. -/
theorem setdiff_idx_iff_swapped :
    ((setdiff_idx (mergeStdSort less) (⟨[2, 1, 3], false, 0, 0, none⟩ : Vector Nat)
        ⟨[3], true, 0, 0, none⟩).1.map (pick [2, 1, 3])).Perm [some 2, some 1] :=
  ((@setdiff_idx_iff Nat _ (mergeStdSort less) ⟨[2, 1, 3], false, 0, 0, none⟩
    ⟨[3], true, 0, 0, none⟩ nofun (fun _ => .singleton 3) (by decide) (by decide)).2
    ⟨.inr (by simp [mergeStdSort, less, shared, List.mergeSort]), .inl rfl⟩).1

/-- The three goes behind the one, and the place of the one is taken from it. -/
theorem setdiff_idx_descending :
    ¬ ((setdiff_idx (mergeStdSort less) (⟨[3, 1], false, 0, 0, none⟩ : Vector Nat)
        ⟨[3], true, 0, 0, none⟩).1.map (pick [3, 1])).Perm
        (([3, 1].filter fun x => decide (x ∉ [3])).map some) := by
  have hsorted : arranged (mergeStdSort less) (⟨[3, 1], false, 0, 0, none⟩ : Vector Nat) = [1, 3] := by
    simp [arranged, mergeStdSort, less, List.mergeSort]
  have hflag : arranged (mergeStdSort less) (⟨[3], true, 0, 0, none⟩ : Vector Nat) = [3] := rfl
  rw [setdiff_idx, conditional_sort_idx_helper_eq, hsorted, hflag,
    setdiffIdxLoop_eq (by decide) (by decide)]
  decide

end Loops

end Vector

end Ztsdb.Arr
