import Mathlib
import Ztsdb.Arr.VectorOrder

/-!
# Sets of elements of vectors

`intersect`, `_union` and `setdiff` sort what is not flagged as ordered and then merge:
two cursors move along the vectors, and the smaller element decides which. Duplicates go
where a result is compared with its last element, and after the end of one vector where
an element is compared with the one before it.

The loops are on what is left of each vector. What they push is a list; that it goes into
a vector that may have to grow plays no part here.
-/

namespace Ztsdb.Arr

open Ztsdb.Lib

namespace Vector

section Loops

variable {T : Type} [LinearOrder T]

/-- `operator<` of the elements. -/
def less (a b : T) : Bool := decide (a < b)

/-- A push, unless the last element is the same. -/
def pushNew (x : T) (res : List T) : List T :=
  if res = [] ∨ res.getLast? ≠ some x then res ++ [x] else res

/-- The loop of `intersect`. -/
def intersectLoop : List T → List T → List T → List T
  | [], _, res => res
  | _ :: _, [], res => res
  | x :: xs, y :: ys, res =>
    if x < y then intersectLoop xs (y :: ys) res
    else if y < x then intersectLoop (x :: xs) ys res
    else intersectLoop xs (y :: ys) (pushNew x res)
  termination_by xs ys => xs.length + ys.length

/-- The last loops of `_union`: what is left of one vector, after element `prev` of it. -/
def pickUp : Option T → List T → List T → List T
  | _, [], res => res
  | prev, x :: xs, res => pickUp (some x) xs (if prev = some x then res else res ++ [x])

/-- The loop of `_union`, with the elements before the cursors, and what follows it. -/
def unionLoop : Option T → Option T → List T → List T → List T → List T
  | p1, p2, [], ys, res => pickUp p2 ys (pickUp p1 [] res)
  | p1, p2, x :: xs, [], res => pickUp p2 [] (pickUp p1 (x :: xs) res)
  | p1, p2, x :: xs, y :: ys, res =>
    if x < y then unionLoop (some x) p2 xs (y :: ys) (pushNew x res)
    else if y < x then unionLoop p1 (some y) (x :: xs) ys (pushNew y res)
    else unionLoop (some x) (some y) xs ys (pushNew x res)
  termination_by _ _ xs ys => xs.length + ys.length

/-- The loop of `setdiff`, and what it picks up at the end. -/
def setdiffLoop : List T → List T → List T → List T
  | [], _, res => res
  | x :: xs, [], res => res ++ x :: xs
  | x :: xs, y :: ys, res =>
    if x < y then setdiffLoop xs (y :: ys) (res ++ [x])
    else if y < x then setdiffLoop (x :: xs) ys res
    else setdiffLoop xs (y :: ys) res
  termination_by xs ys => xs.length + ys.length

/-- `conditional_sort_helper`: a vector that is not ordered is sorted first. -/
def conditional_sort_helper (sort : StdSort (less (T := T))) (f : List T → List T → List T)
    (v1 v2 : Vector T) : List T :=
  if v1.ordered = false ∧ v2.ordered = false then f (sort.run v1.v) (sort.run v2.v)
  else if v1.ordered = false then f (sort.run v1.v) v2.v
  else if v2.ordered = false then f v1.v (sort.run v2.v)
  else f v1.v v2.v

def intersect (sort : StdSort (less (T := T))) (v1 v2 : Vector T) : List T :=
  conditional_sort_helper sort (fun xs ys => intersectLoop xs ys []) v1 v2

def _union (sort : StdSort (less (T := T))) (v1 v2 : Vector T) : List T :=
  conditional_sort_helper sort (fun xs ys => unionLoop none none xs ys []) v1 v2

def setdiff (sort : StdSort (less (T := T))) (v1 v2 : Vector T) : List T :=
  conditional_sort_helper sort (fun xs ys => setdiffLoop xs ys []) v1 v2

/-! ## Pushing -/

theorem mem_pushNew {x a : T} {res : List T} : a ∈ pushNew x res ↔ a ∈ res ∨ a = x := by
  rw [pushNew]
  split
  · rw [List.mem_append, List.mem_singleton]
  · next h =>
      rw [not_or, not_not] at h
      have hmem : x ∈ res := List.mem_of_getLast? h.2
      refine ⟨.inl, fun ha => ?_⟩
      rcases ha with ha | rfl
      · exact ha
      · exact hmem

theorem getElem_mono {v : List T} (hv : v.Pairwise (· ≤ ·)) {i j : Nat} (hij : i ≤ j)
    (hj : j < v.length) : v[i] ≤ v[j] := by
  rcases Nat.eq_or_lt_of_le hij with rfl | hlt
  · exact le_refl _
  · exact List.pairwise_iff_getElem.1 hv i j (by omega) hj hlt

theorem le_getLast {res : List T} {x : T} (hasc : res.Pairwise (· < ·)) (hx : res.getLast? = some x) :
    ∀ r ∈ res, r ≤ x := by
  obtain ⟨l, rfl⟩ := List.getLast?_eq_some_iff.1 hx
  intro r hr
  rcases List.mem_append.1 hr with hr | hr
  · exact le_of_lt ((List.pairwise_append.1 hasc).2.2 r hr x (List.mem_singleton_self x))
  · exact le_of_eq (List.mem_singleton.1 hr)

theorem pairwise_concat {res : List T} {x : T} (hasc : res.Pairwise (· < ·)) (hlt : ∀ r ∈ res, r < x) :
    (res ++ [x]).Pairwise (· < ·) := by
  rw [List.pairwise_append]
  refine ⟨hasc, List.pairwise_singleton _ x, ?_⟩
  intro r hr y hy
  rw [List.mem_singleton.1 hy]
  exact hlt r hr

/-- A push of an element that nothing exceeds. -/
theorem pairwise_pushNew {x : T} {res : List T} (hasc : res.Pairwise (· < ·))
    (hle : ∀ r ∈ res, r ≤ x) : (pushNew x res).Pairwise (· < ·) := by
  rw [pushNew]
  split
  · next h =>
      refine pairwise_concat hasc fun r hr => lt_of_le_of_ne (hle r hr) ?_
      rintro rfl
      rcases h with rfl | h
      · cases hr
      · obtain ⟨y, hy⟩ := Option.isSome_iff_exists.1 (List.getLast?_isSome.2 (List.ne_nil_of_mem hr))
        have hmem : y ∈ res := List.mem_of_getLast? hy
        have heq : r = y := le_antisymm (le_getLast hasc hy r hr) (hle y hmem)
        rw [hy, ← heq] at h
        exact h rfl
  · exact hasc

/-! ## The loops on sorted lists -/

theorem not_mem_of_lt {x y : T} {ys : List T} (hys : (y :: ys).Pairwise (· ≤ ·)) (h : x < y) :
    x ∉ y :: ys := by
  intro hmem
  rcases List.mem_cons.1 hmem with rfl | hmem
  · exact lt_irrefl x h
  · exact absurd ((List.pairwise_cons.1 hys).1 x hmem) (not_le_of_gt h)

theorem intersectLoop_spec (xs ys res : List T) (hxs : xs.Pairwise (· ≤ ·))
    (hys : ys.Pairwise (· ≤ ·)) (hasc : res.Pairwise (· < ·)) (hle : ∀ r ∈ res, ∀ x ∈ xs, r ≤ x) :
    (intersectLoop xs ys res).Pairwise (· < ·) ∧
      ∀ a, a ∈ intersectLoop xs ys res ↔ a ∈ res ∨ (a ∈ xs ∧ a ∈ ys) := by
  fun_induction intersectLoop xs ys res with
  | case1 ys res => simp [hasc]
  | case2 x xs res => simp [hasc]
  | case3 x xs y ys res hlt ih =>
      -- nothing in the other list is as small as `x`
      obtain ⟨h1, h2⟩ := ih hxs.of_cons hys hasc fun r hr a ha => hle r hr a (List.mem_cons_of_mem x ha)
      refine ⟨h1, fun a => ?_⟩
      rw [h2, List.mem_cons (b := x)]
      refine or_congr_right ⟨fun h => ⟨.inr h.1, h.2⟩, fun h => ⟨?_, h.2⟩⟩
      rcases h.1 with rfl | hmem
      · exact absurd h.2 (not_mem_of_lt hys hlt)
      · exact hmem
  | case4 x xs y ys res _ hlt ih =>
      obtain ⟨h1, h2⟩ := ih hxs hys.of_cons hasc hle
      refine ⟨h1, fun a => ?_⟩
      rw [h2, List.mem_cons (b := y)]
      refine or_congr_right ⟨fun h => ⟨h.1, .inr h.2⟩, fun h => ⟨h.1, ?_⟩⟩
      rcases h.2 with rfl | hmem
      · exact absurd h.1 (not_mem_of_lt hxs hlt)
      · exact hmem
  | case5 x xs y ys res hge hge' ih =>
      obtain rfl : x = y := le_antisymm (not_lt.1 hge') (not_lt.1 hge)
      obtain ⟨hx, hxs'⟩ := List.pairwise_cons.1 hxs
      have hle' : ∀ r ∈ pushNew x res, ∀ a ∈ xs, r ≤ a := by
        intro r hr a ha
        rcases mem_pushNew.1 hr with hr | rfl
        · exact hle r hr a (List.mem_cons_of_mem x ha)
        · exact hx a ha
      obtain ⟨h1, h2⟩ := ih hxs' hys
        (pairwise_pushNew hasc fun r hr => hle r hr x List.mem_cons_self) hle'
      refine ⟨h1, fun a => ?_⟩
      rw [h2, mem_pushNew, List.mem_cons (l := xs)]
      refine ⟨fun h => ?_, fun h => ?_⟩
      · rcases h with (h | rfl) | ⟨h, h'⟩
        · exact .inl h
        · exact .inr ⟨.inl rfl, List.mem_cons_self⟩
        · exact .inr ⟨.inr h, h'⟩
      · rcases h with h | ⟨rfl | h, h'⟩
        · exact .inl (.inl h)
        · exact .inl (.inr rfl)
        · exact .inr ⟨h, h'⟩

/-- What a cursor of `_union` knows of its vector: nothing pushed exceeds what is left, and
an element that is left and was pushed is the one before the cursor. -/
structure Ahead (prev : Option T) (xs res : List T) : Prop where
  le : ∀ r ∈ res, ∀ x ∈ xs, r ≤ x
  seen : ∀ x ∈ xs, x ∈ res → prev = some x
  pushed : ∀ p, prev = some p → p ∈ res

theorem Ahead.tail {prev : Option T} {x : T} {xs res : List T} (h : Ahead prev (x :: xs) res)
    (hxs : (x :: xs).Pairwise (· ≤ ·)) : Ahead (some x) xs (pushNew x res) := by
  obtain ⟨hx, -⟩ := List.pairwise_cons.1 hxs
  refine ⟨?_, ?_, ?_⟩
  · intro r hr a ha
    rcases mem_pushNew.1 hr with hr | rfl
    · exact h.le r hr a (List.mem_cons_of_mem x ha)
    · exact hx a ha
  · intro a ha hr
    rcases mem_pushNew.1 hr with hr | rfl
    · rw [le_antisymm (hx a ha) (h.le a hr x List.mem_cons_self)]
    · rfl
  · intro p hp
    cases hp
    exact mem_pushNew.2 (.inr rfl)

/-- A push of an element below all that is left. -/
theorem Ahead.push {prev : Option T} {x : T} {ys res : List T} (h : Ahead prev ys res)
    (hlt : ∀ y ∈ ys, x < y) : Ahead prev ys (pushNew x res) := by
  refine ⟨?_, ?_, ?_⟩
  · intro r hr y hy
    rcases mem_pushNew.1 hr with hr | rfl
    · exact h.le r hr y hy
    · exact le_of_lt (hlt y hy)
  · intro y hy hr
    rcases mem_pushNew.1 hr with hr | rfl
    · exact h.seen y hy hr
    · exact absurd (hlt y hy) (lt_irrefl y)
  · intro p hp
    exact mem_pushNew.2 (.inl (h.pushed p hp))

/-- The element before the cursor tells what the last value pushed would have told. -/
theorem Ahead.pushNew_eq {prev : Option T} {x : T} {xs res : List T} (h : Ahead prev (x :: xs) res)
    (hasc : res.Pairwise (· < ·)) :
    pushNew x res = if prev = some x then res else res ++ [x] := by
  rw [pushNew]
  by_cases hp : prev = some x
  · have hmem := h.pushed x hp
    obtain ⟨y, hy⟩ := Option.isSome_iff_exists.1 (List.getLast?_isSome.2 (List.ne_nil_of_mem hmem))
    have heq : y = x := le_antisymm
      (h.le y (List.mem_of_getLast? hy) x List.mem_cons_self) (le_getLast hasc hy x hmem)
    rw [if_pos hp, if_neg]
    rw [not_or, not_not, hy, heq]
    exact ⟨List.ne_nil_of_mem hmem, rfl⟩
  · rw [if_neg hp, if_pos]
    right
    intro hlast
    exact hp (h.seen x List.mem_cons_self (List.mem_of_getLast? hlast))

theorem lt_all {x y : T} {ys : List T} (hys : (y :: ys).Pairwise (· ≤ ·)) (h : x < y) :
    ∀ z ∈ y :: ys, x < z := by
  intro z hz
  rcases List.mem_cons.1 hz with rfl | hz
  · exact h
  · exact lt_of_lt_of_le h ((List.pairwise_cons.1 hys).1 z hz)

theorem pickUp_spec (prev : Option T) (xs res : List T) (hxs : xs.Pairwise (· ≤ ·))
    (hasc : res.Pairwise (· < ·)) (h : Ahead prev xs res) :
    (pickUp prev xs res).Pairwise (· < ·) ∧ ∀ a, a ∈ pickUp prev xs res ↔ a ∈ res ∨ a ∈ xs := by
  induction xs generalizing prev res with
  | nil => simp [pickUp, hasc]
  | cons x xs ih =>
      obtain ⟨hx, hxs'⟩ := List.pairwise_cons.1 hxs
      rw [pickUp, ← h.pushNew_eq hasc]
      obtain ⟨h1, h2⟩ := ih (some x) (pushNew x res) hxs'
        (pairwise_pushNew hasc fun r hr => h.le r hr x List.mem_cons_self) (h.tail hxs)
      refine ⟨h1, fun a => ?_⟩
      rw [h2, mem_pushNew, List.mem_cons, or_assoc]

theorem unionLoop_spec (p1 p2 : Option T) (xs ys res : List T) (hxs : xs.Pairwise (· ≤ ·))
    (hys : ys.Pairwise (· ≤ ·)) (hasc : res.Pairwise (· < ·)) (h1 : Ahead p1 xs res)
    (h2 : Ahead p2 ys res) :
    (unionLoop p1 p2 xs ys res).Pairwise (· < ·) ∧
      ∀ a, a ∈ unionLoop p1 p2 xs ys res ↔ a ∈ res ∨ a ∈ xs ∨ a ∈ ys := by
  fun_induction unionLoop p1 p2 xs ys res with
  | case1 p1 p2 ys res =>
      obtain ⟨hasc', hmem⟩ := pickUp_spec p2 ys res hys hasc h2
      rw [pickUp]
      refine ⟨hasc', fun a => ?_⟩
      rw [hmem]
      simp
  | case2 p1 p2 x xs res =>
      obtain ⟨hasc', hmem⟩ := pickUp_spec p1 (x :: xs) res hxs hasc h1
      rw [pickUp]
      refine ⟨hasc', fun a => ?_⟩
      rw [hmem]
      simp
  | case3 p1 p2 x xs y ys res hlt ih =>
      obtain ⟨hasc', hmem⟩ := ih hxs.of_cons hys
        (pairwise_pushNew hasc fun r hr => h1.le r hr x List.mem_cons_self) (h1.tail hxs)
        (h2.push (lt_all hys hlt))
      refine ⟨hasc', fun a => ?_⟩
      rw [hmem, mem_pushNew, List.mem_cons (b := x), or_assoc, or_assoc]
  | case4 p1 p2 x xs y ys res _ hlt ih =>
      obtain ⟨hasc', hmem⟩ := ih hxs hys.of_cons
        (pairwise_pushNew hasc fun r hr => h2.le r hr y List.mem_cons_self)
        (h1.push (lt_all hxs hlt)) (h2.tail hys)
      refine ⟨hasc', fun a => ?_⟩
      rw [hmem, mem_pushNew, List.mem_cons (b := y), or_assoc]
      exact or_congr_right ⟨fun h => by tauto, fun h => by tauto⟩
  | case5 p1 p2 x xs y ys res hge hge' ih =>
      obtain rfl : x = y := le_antisymm (not_lt.1 hge') (not_lt.1 hge)
      obtain ⟨hasc', hmem⟩ := ih hxs.of_cons hys.of_cons
        (pairwise_pushNew hasc fun r hr => h1.le r hr x List.mem_cons_self) (h1.tail hxs)
        (h2.tail hys)
      refine ⟨hasc', fun a => ?_⟩
      rw [hmem, mem_pushNew, List.mem_cons, List.mem_cons]
      tauto

theorem setdiffLoop_spec (xs ys res : List T) (hxs : xs.Pairwise (· ≤ ·))
    (hys : ys.Pairwise (· ≤ ·)) :
    setdiffLoop xs ys res = res ++ xs.filter fun x => decide (x ∉ ys) := by
  fun_induction setdiffLoop xs ys res with
  | case1 ys res => simp
  | case2 x xs res => simp
  | case3 x xs y ys res hlt ih =>
      rw [ih hxs.of_cons hys, List.append_assoc, List.singleton_append,
        List.filter_cons_of_pos (by simpa using not_mem_of_lt hys hlt)]
  | case4 x xs y ys res _ hlt ih =>
      rw [ih hxs hys.of_cons]
      congr 1
      apply List.filter_congr
      intro a ha
      have hne : a ≠ y := by
        rintro rfl
        exact not_mem_of_lt hxs hlt ha
      simp [hne]
  | case5 x xs y ys res hge hge' ih =>
      obtain rfl : x = y := le_antisymm (not_lt.1 hge') (not_lt.1 hge)
      rw [ih hxs.of_cons hys, List.filter_cons_of_neg (by simp)]

/-! ## The sets -/

theorem sorted_of_noneSmaller {l : List T} (h : NoneSmaller less l) : l.Pairwise (· ≤ ·) := by
  rw [← List.isChain_iff_pairwise]
  refine h.imp fun a b hab => ?_
  rw [less, decide_eq_false_iff_not] at hab
  exact not_lt.1 hab

theorem sorted_run (sort : StdSort (less (T := T))) (l : List T) :
    (sort.run l).Pairwise (· ≤ ·) := by
  refine (sort.sorted l).imp fun {a b} hab => ?_
  rw [less, decide_eq_false_iff_not] at hab
  exact not_lt.1 hab

/-- Whatever was sorted, the loop sees the elements of both vectors in order. -/
theorem conditional_sort_helper_eq (sort : StdSort (less (T := T))) (f : List T → List T → List T)
    {v1 v2 : Vector T} (h1 : FlagOk less v1) (h2 : FlagOk less v2) :
    ∃ xs ys, conditional_sort_helper sort f v1 v2 = f xs ys ∧ xs.Perm v1.v ∧ ys.Perm v2.v ∧
      xs.Pairwise (· ≤ ·) ∧ ys.Pairwise (· ≤ ·) := by
  rw [conditional_sort_helper]
  cases ho1 : v1.ordered with
  | false =>
      cases ho2 : v2.ordered with
      | false =>
          exact ⟨_, _, rfl, sort.perm _, sort.perm _, sorted_run sort _, sorted_run sort _⟩
      | true =>
          exact ⟨_, _, rfl, sort.perm _, .refl _, sorted_run sort _,
            sorted_of_noneSmaller (h2 ho2)⟩
  | true =>
      cases ho2 : v2.ordered with
      | false =>
          exact ⟨_, _, rfl, .refl _, sort.perm _, sorted_of_noneSmaller (h1 ho1),
            sorted_run sort _⟩
      | true =>
          exact ⟨_, _, rfl, .refl _, .refl _, sorted_of_noneSmaller (h1 ho1),
            sorted_of_noneSmaller (h2 ho2)⟩

/-- `intersect` and `_union` are the values in both and in either, ascending; `setdiff` is
the first vector sorted, without the values of the second. -/
theorem sets_spec (sort : StdSort (less (T := T))) {v1 v2 : Vector T} (h1 : FlagOk less v1)
    (h2 : FlagOk less v2) :
    ((intersect sort v1 v2).Pairwise (· < ·) ∧
      ∀ a, a ∈ intersect sort v1 v2 ↔ a ∈ v1.v ∧ a ∈ v2.v) ∧
    ((_union sort v1 v2).Pairwise (· < ·) ∧
      ∀ a, a ∈ _union sort v1 v2 ↔ a ∈ v1.v ∨ a ∈ v2.v) ∧
    (setdiff sort v1 v2).Pairwise (· ≤ ·) ∧
      (setdiff sort v1 v2).Perm (v1.v.filter fun a => decide (a ∉ v2.v)) := by
  have hahead (l : List T) : Ahead none l [] := ⟨nofun, nofun, nofun⟩
  refine ⟨?_, ?_, ?_⟩
  · obtain ⟨xs, ys, heq, hp1, hp2, hs1, hs2⟩ := conditional_sort_helper_eq sort
      (fun xs ys => intersectLoop xs ys []) h1 h2
    obtain ⟨hasc, hmem⟩ := intersectLoop_spec xs ys [] hs1 hs2 .nil nofun
    rw [intersect, heq]
    refine ⟨hasc, fun a => ?_⟩
    rw [hmem, hp1.mem_iff, hp2.mem_iff]
    exact or_iff_right List.not_mem_nil
  · obtain ⟨xs, ys, heq, hp1, hp2, hs1, hs2⟩ := conditional_sort_helper_eq sort
      (fun xs ys => unionLoop none none xs ys []) h1 h2
    obtain ⟨hasc, hmem⟩ := unionLoop_spec none none xs ys [] hs1 hs2 .nil (hahead xs) (hahead ys)
    rw [_union, heq]
    refine ⟨hasc, fun a => ?_⟩
    rw [hmem, hp1.mem_iff, hp2.mem_iff]
    exact or_iff_right List.not_mem_nil
  · obtain ⟨xs, ys, heq, hp1, hp2, hs1, hs2⟩ := conditional_sort_helper_eq sort
      (fun xs ys => setdiffLoop xs ys []) h1 h2
    rw [setdiff, heq, setdiffLoop_spec xs ys [] hs1 hs2, List.nil_append]
    refine ⟨hs1.filter _, ?_⟩
    have hcongr : (fun a => decide (a ∉ ys)) = fun a => decide (a ∉ v2.v) := by
      funext a
      rw [decide_eq_decide, hp2.mem_iff]
    rw [hcongr]
    exact hp1.filter _

instance : IsStrictWeakOrder T (fun a b => less a b = true) where
  irrefl a := by simp [less]
  trans a b c hab hbc := by
    rw [less, decide_eq_true_eq] at hab hbc ⊢
    exact lt_trans hab hbc
  incomp_trans a b c hab hbc := by
    simp only [less, decide_eq_true_eq, not_lt] at hab hbc ⊢
    exact ⟨le_trans hbc.1 hab.1, le_trans hab.2 hbc.2⟩

/-- A vector with a duplicate, and one that is flagged. -/
theorem sets_spec_two :
    (3 : Nat) ∈ _union (mergeStdSort less) ⟨[3, 1, 3], false, 0, 0, none⟩ ⟨[1, 2], true, 0, 0, none⟩ :=
  ((@sets_spec Nat _ (mergeStdSort less) ⟨[3, 1, 3], false, 0, 0, none⟩
    ⟨[1, 2], true, 0, 0, none⟩ nofun fun _ => .cons_cons rfl (.singleton 2)).2.1.2 3).2
    (.inl List.mem_cons_self)

end Loops

end Vector

end Ztsdb.Arr
