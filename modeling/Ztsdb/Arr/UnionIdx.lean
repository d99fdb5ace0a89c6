import Mathlib
import Ztsdb.Arr.VectorSetIdx

/-!
# `union_idx`

The merge of `_union`, which pushes for each value its places in the two vectors, NaN
where it has none. A duplicate is told by the element before the cursor. When it is the
second vector's element that is the smaller one, the loop looks at the element before that
place in the first vector: there may be none, and what is there says little.

`Judged` is what the two vectors must satisfy at a place of the second one for this to do
no harm. The proof follows the loop of `_union`: until a place is misjudged both push the
same, and from then on the result is longer, or the loop has thrown.
-/

namespace Ztsdb.Arr

open Ztsdb.Lib

namespace Vector

section Places

variable {T : Type}

/-- The element before place `i`. -/
def before? (v : List T) (i : Nat) : Option T := if i = 0 then none else v[i - 1]?

theorem before?_succ {v : List T} {i : Nat} (h : i < v.length) : before? v (i + 1) = some v[i] := by
  rw [before?, if_neg (Nat.succ_ne_zero i), Nat.add_sub_cancel, List.getElem?_eq_getElem h]

/-! ## Places and values -/

/-- The index says where the value is in the vector: nowhere when it is NaN. -/
def At (v : List T) (k : Option Nat) (x : T) : Prop :=
  (k = none ↔ x ∉ v) ∧ ∀ i, k = some i → pick v i = some x

/-- What was pushed: the places of the values, or, once a place was misjudged, more. -/
structure Follows (v1 v2 : List T) (res : List (Option Nat) × List (Option Nat))
    (vals : List T) (E : Prop) : Prop where
  exact : E → List.Forall₂ (At v1) res.1 vals ∧ List.Forall₂ (At v2) res.2 vals
  longer : ¬E → vals.length < res.1.length

theorem forall₂_concat {α β : Type} {R : α → β → Prop} {as : List α} {bs : List β} {a : α} {b : β}
    (h : List.Forall₂ R as bs) (hab : R a b) : List.Forall₂ R (as ++ [a]) (bs ++ [b]) := by
  induction h with
  | nil => exact .cons hab .nil
  | cons hr _ ih => exact .cons hr ih

theorem Follows.push {v1 v2 : List T} {res : List (Option Nat) × List (Option Nat)}
    {vals : List T} {E : Prop} (h : Follows v1 v2 res vals E) {k1 k2 : Option Nat} {x : T}
    (h1 : At v1 k1 x) (h2 : At v2 k2 x) : Follows v1 v2 (push2 k1 k2 res) (vals ++ [x]) E := by
  refine ⟨fun he => ?_, fun he => ?_⟩
  · obtain ⟨hf1, hf2⟩ := h.exact he
    exact ⟨forall₂_concat hf1 h1, forall₂_concat hf2 h2⟩
  · have hlong := h.longer he
    rw [push2, List.length_append, List.length_append]
    exact Nat.add_lt_add_right hlong _

/-- A place pushed without a value. -/
theorem Follows.extra {v1 v2 : List T} {res : List (Option Nat) × List (Option Nat)}
    {vals : List T} {E : Prop} (h : Follows v1 v2 res vals E) (k1 k2 : Option Nat) :
    Follows v1 v2 (push2 k1 k2 res) vals False := by
  refine ⟨nofun, fun _ => ?_⟩
  rw [push2, List.length_append, List.length_singleton]
  by_cases he : E
  · rw [(h.exact he).1.length_eq]
    exact Nat.lt_succ_self _
  · exact Nat.lt_succ_of_lt (h.longer he)

theorem Follows.congr {v1 v2 : List T} {res : List (Option Nat) × List (Option Nat)}
    {vals : List T} {E E' : Prop} (h : Follows v1 v2 res vals E) (hiff : E ↔ E') :
    Follows v1 v2 res vals E' := by
  rw [← hiff]
  exact h

theorem at_place {v : List T} {i : Nat} (h : i < v.length) : At v (some (i + 1)) v[i] := by
  refine ⟨⟨nofun, fun hnot => absurd (List.getElem_mem h) hnot⟩, ?_⟩
  rintro _ ⟨⟩
  exact pick_succ h

theorem at_none {v : List T} {x : T} (h : x ∉ v) : At v none x := ⟨⟨fun _ => h, fun _ => rfl⟩, nofun⟩

end Places

section Loops

variable {T : Type} [LinearOrder T]

/-- At place `j` of the second vector the first one tells whether the element is new. It is
asked when something in the first vector is greater and all that is equal has been met. -/
def Judged (v1 v2 : List T) (j : Nat) : Prop :=
  ∀ y ∈ v2[j]?, 0 < j → (∃ z ∈ v1, y < z) → v1.count y ≤ (v2.take j).count y →
    j ≤ v1.length ∧ (v2[j - 1]? = some y → v1[j - 1]? = some y)

instance (v1 v2 : List T) (j : Nat) : Decidable (Judged v1 v2 j) := by
  unfold Judged
  infer_instance

/-! ## The cursors -/

theorem isNew_self {v : List T} {i : Nat} (h : i < v.length) :
    isNew v[i] v i = .ok (decide (before? v i ≠ some v[i])) () := by
  rw [isNew, before?]
  split
  · rfl
  · next hne =>
      rw [previous_eq (Nat.pos_of_ne_zero hne) h.le, Outcome.bind_ok,
        List.getElem?_eq_getElem (by omega)]
      congr 1
      rw [decide_eq_decide, Ne, Ne, Option.some_inj, eq_comm]

/-- In a sorted vector an element was passed just when it stands before the cursor. -/
theorem mem_take_iff_before? {v : List T} (hv : v.Pairwise (· ≤ ·)) {i : Nat} {x : T}
    (hle : ∀ a ∈ v.take i, a ≤ x) (hi : i ≤ v.length) : x ∈ v.take i ↔ before? v i = some x := by
  rw [before?]
  constructor
  · intro hmem
    obtain ⟨k, hk, hki, rfl⟩ := mem_take_iff.1 hmem
    have hlast : v[i - 1] ≤ v[k] := hle _ (mem_take_iff.2 ⟨i - 1, by omega, by omega, rfl⟩)
    rw [if_neg (by omega), List.getElem?_eq_getElem (by omega),
      le_antisymm hlast (getElem_mono hv (by omega) (by omega))]
  · intro h
    split at h
    · cases h
    · next hne =>
        obtain ⟨hlt, rfl⟩ := List.getElem?_eq_some_iff.1 h
        exact mem_take_iff.2 ⟨i - 1, hlt, by omega, rfl⟩

/-- What is behind the cursors does not exceed what is before them, and an element that is
still to come in one vector was met as often in it as in the other. -/
structure Abreast (v1 v2 : List T) (i1 i2 : Nat) : Prop where
  le1 : ∀ x ∈ v1.take i1, ∀ y ∈ v2.drop i2, x ≤ y
  le2 : ∀ y ∈ v2.take i2, ∀ x ∈ v1.drop i1, y ≤ x
  count1 : ∀ a ∈ v2.drop i2, (v1.take i1).count a ≤ (v2.take i2).count a
  count2 : ∀ a ∈ v1.drop i1, (v2.take i2).count a ≤ (v1.take i1).count a

theorem Abreast.swap {v1 v2 : List T} {i1 i2 : Nat} (h : Abreast v1 v2 i1 i2) :
    Abreast v2 v1 i2 i1 := ⟨h.le2, h.le1, h.count2, h.count1⟩

theorem count_take_succ {v : List T} {i : Nat} (h : i < v.length) (a : T) :
    (v.take (i + 1)).count a = (v.take i).count a + if v[i] = a then 1 else 0 := by
  rw [List.take_succ_eq_append_getElem h, List.count_append, List.count_singleton]
  simp only [beq_iff_eq]

/-- The cursor moves past an element smaller than all that is left of the other vector. -/
theorem Abreast.lt {v1 v2 : List T} {i1 i2 : Nat} (h : Abreast v1 v2 i1 i2)
    (h1 : i1 < v1.length) (hlt : ∀ y ∈ v2.drop i2, v1[i1] < y) : Abreast v1 v2 (i1 + 1) i2 := by
  refine ⟨?_, ?_, ?_, ?_⟩
  · intro x hx y hy
    rcases (mem_take_succ h1).1 hx with hx | rfl
    · exact h.le1 x hx y hy
    · exact le_of_lt (hlt y hy)
  · intro y hy x hx
    exact h.le2 y hy x (mem_drop_of_succ hx)
  · intro a ha
    rw [count_take_succ h1, if_neg (ne_of_lt (hlt a ha)), Nat.add_zero]
    exact h.count1 a ha
  · intro a ha
    rw [count_take_succ h1]
    exact Nat.le_add_right_of_le (h.count2 a (mem_drop_of_succ ha))

/-- Both cursors move past an element they share. -/
theorem Abreast.eq {v1 v2 : List T} {i1 i2 : Nat} (h : Abreast v1 v2 i1 i2)
    (hv1 : v1.Pairwise (· ≤ ·)) (hv2 : v2.Pairwise (· ≤ ·)) (h1 : i1 < v1.length)
    (h2 : i2 < v2.length) (heq : v1[i1] = v2[i2]) : Abreast v1 v2 (i1 + 1) (i2 + 1) := by
  have hd1 : (v1.drop i1).Pairwise (· ≤ ·) := hv1.drop
  have hd2 : (v2.drop i2).Pairwise (· ≤ ·) := hv2.drop
  rw [List.drop_eq_getElem_cons h1] at hd1
  rw [List.drop_eq_getElem_cons h2] at hd2
  refine ⟨?_, ?_, ?_, ?_⟩
  · intro x hx y hy
    rcases (mem_take_succ h1).1 hx with hx | rfl
    · exact h.le1 x hx y (mem_drop_of_succ hy)
    · rw [heq]
      exact (List.pairwise_cons.1 hd2).1 y hy
  · intro y hy x hx
    rcases (mem_take_succ h2).1 hy with hy | rfl
    · exact h.le2 y hy x (mem_drop_of_succ hx)
    · rw [← heq]
      exact (List.pairwise_cons.1 hd1).1 x hx
  · intro a ha
    rw [count_take_succ h1, count_take_succ h2, heq]
    exact Nat.add_le_add_right (h.count1 a (mem_drop_of_succ ha)) _
  · intro a ha
    rw [count_take_succ h1, count_take_succ h2, heq]
    exact Nat.add_le_add_right (h.count2 a (mem_drop_of_succ ha)) _

/-- What the first vector has met no copy of and has before its cursor, the second one has
met no copy of either. -/
theorem Abreast.not_mem_take {v1 v2 : List T} {i1 i2 : Nat} (h : Abreast v1 v2 i1 i2) {x : T}
    (hx : x ∈ v1.drop i1) (hnew : x ∉ v1.take i1) : x ∉ v2.take i2 := by
  have hle := h.count2 x hx
  rw [List.count_eq_zero_of_not_mem hnew, Nat.le_zero] at hle
  exact List.count_eq_zero.1 hle

/-! ## The merge -/

/-- The state of both loops between two turns. -/
structure Merging (v1 v2 : List T) (i1 i2 : Nat) (vals : List T) : Prop where
  abreast : Abreast v1 v2 i1 i2
  asc : vals.Pairwise (· < ·)
  ahead1 : Ahead (before? v1 i1) (v1.drop i1) vals
  ahead2 : Ahead (before? v2 i2) (v2.drop i2) vals

theorem Merging.swap {v1 v2 : List T} {i1 i2 : Nat} {vals : List T}
    (h : Merging v1 v2 i1 i2 vals) : Merging v2 v1 i2 i1 vals :=
  ⟨h.abreast.swap, h.asc, h.ahead2, h.ahead1⟩

theorem Merging.start (v1 v2 : List T) : Merging v1 v2 0 0 [] :=
  ⟨⟨nofun, nofun, fun _ _ => le_refl _, fun _ _ => le_refl _⟩, .nil, ⟨nofun, nofun, nofun⟩,
    ⟨nofun, nofun, nofun⟩⟩

/-- The push of the element at the first cursor, told by the element before it. -/
theorem Merging.pushNew_eq {v1 v2 : List T} {i1 i2 : Nat} {vals : List T}
    (h : Merging v1 v2 i1 i2 vals) (h1 : i1 < v1.length) :
    pushNew v1[i1] vals = if before? v1 i1 = some v1[i1] then vals else vals ++ [v1[i1]] := by
  have ha := h.ahead1
  rw [List.drop_eq_getElem_cons h1] at ha
  exact ha.pushNew_eq h.asc

theorem Merging.lt {v1 v2 : List T} {i1 i2 : Nat} {vals : List T}
    (h : Merging v1 v2 i1 i2 vals) (hv1 : v1.Pairwise (· ≤ ·)) (h1 : i1 < v1.length)
    (hlt : ∀ y ∈ v2.drop i2, v1[i1] < y) : Merging v1 v2 (i1 + 1) i2 (pushNew v1[i1] vals) := by
  have hd1 : (v1.drop i1).Pairwise (· ≤ ·) := hv1.drop
  have ha := h.ahead1
  rw [List.drop_eq_getElem_cons h1] at hd1 ha
  refine ⟨h.abreast.lt h1 hlt, ?_, ?_, h.ahead2.push hlt⟩
  · exact pairwise_pushNew h.asc fun r hr => ha.le r hr _ List.mem_cons_self
  · rw [before?_succ h1]
    exact ha.tail hd1

theorem Merging.eq {v1 v2 : List T} {i1 i2 : Nat} {vals : List T}
    (h : Merging v1 v2 i1 i2 vals) (hv1 : v1.Pairwise (· ≤ ·)) (hv2 : v2.Pairwise (· ≤ ·))
    (h1 : i1 < v1.length) (h2 : i2 < v2.length) (heq : v1[i1] = v2[i2]) :
    Merging v1 v2 (i1 + 1) (i2 + 1) (pushNew v1[i1] vals) := by
  have hd1 : (v1.drop i1).Pairwise (· ≤ ·) := hv1.drop
  have hd2 : (v2.drop i2).Pairwise (· ≤ ·) := hv2.drop
  have ha1 := h.ahead1
  have ha2 := h.ahead2
  rw [List.drop_eq_getElem_cons h1] at hd1 ha1
  rw [List.drop_eq_getElem_cons h2] at hd2 ha2
  refine ⟨h.abreast.eq hv1 hv2 h1 h2 heq, ?_, ?_, ?_⟩
  · exact pairwise_pushNew h.asc fun r hr => ha1.le r hr _ List.mem_cons_self
  · rw [before?_succ h1]
    exact ha1.tail hd1
  · rw [before?_succ h2, heq]
    exact ha2.tail hd2

/-- An element that is new in its vector and below what is left of the other is not in the
other at all. -/
theorem Merging.not_mem {v1 v2 : List T} {i1 i2 : Nat} {vals : List T}
    (h : Merging v1 v2 i1 i2 vals) (hv1 : v1.Pairwise (· ≤ ·)) (h1 : i1 < v1.length)
    (hlt : ∀ y ∈ v2.drop i2, v1[i1] < y) (hnew : before? v1 i1 ≠ some v1[i1]) : v1[i1] ∉ v2 := by
  have hle : ∀ a ∈ v1.take i1, a ≤ v1[i1] := by
    intro a ha
    obtain ⟨k, hk, hki, rfl⟩ := mem_take_iff.1 ha
    exact getElem_mono hv1 (by omega) h1
  have hfresh : v1[i1] ∉ v1.take i1 := mt (mem_take_iff_before? hv1 hle h1.le).1 hnew
  rw [← List.take_append_drop i2 v2, List.mem_append, not_or]
  refine ⟨h.abreast.not_mem_take ((mem_drop_iff h1).2 (.inl rfl)) hfresh, fun hmem => ?_⟩
  exact lt_irrefl _ (hlt _ hmem)

/-- The last loop pushes what `_union` pushes; `F` is what a push keeps. -/
theorem pickUpIdx_eq_ok {R : Type} (put : Nat → R → R) (F : R → List T → Prop) {v w : List T}
    (hv : v.Pairwise (· ≤ ·))
    (hput : ∀ i res vals, (h : i < v.length) → v[i] ∉ w → F res vals →
      F (put (i + 1) res) (vals ++ [v[i]]))
    (i j : Nat) (res : R) {vals : List T} (hm : Merging v w i j vals) (hw : w.drop j = [])
    (hF : F res vals) :
    ∃ res', pickUpIdx v put i res = .ok res' () ∧ F res' (pickUp (before? v i) (v.drop i) vals) := by
  induction hn : v.length - i generalizing i res vals with
  | zero =>
      rw [pickUpIdx, dif_neg (by omega), List.drop_eq_nil_of_le (by omega), pickUp]
      exact ⟨res, rfl, hF⟩
  | succ n ih =>
      have hi : i < v.length := by omega
      have hbelow : ∀ y ∈ w.drop j, v[i] < y := by
        rw [hw]
        exact fun y hy => by cases hy
      have hpush := hm.pushNew_eq hi
      have hF' : F (if decide (before? v i ≠ some v[i]) = true then put (i + 1) res else res)
          (pushNew v[i] vals) := by
        rw [hpush]
        by_cases hnew : before? v i = some v[i]
        · simpa [hnew] using hF
        · simpa [hnew] using hput i res vals hi (hm.not_mem hv hi hbelow hnew) hF
      have hrest := ih (i + 1) _ (hm.lt hv hi hbelow) hF' (by omega)
      rw [before?_succ hi] at hrest
      rw [pickUpIdx, dif_pos hi, isNew_self hi, Outcome.bind_ok, List.drop_eq_getElem_cons hi,
        pickUp, ← hpush]
      exact hrest

/-! ## The place that is looked at in the other vector -/

/-- The copies of an element smaller than the first cursor's have all been met. -/
theorem count_take_of_lt {v : List T} (hv : v.Pairwise (· ≤ ·)) {i : Nat} (h : i < v.length)
    {y : T} (hlt : y < v[i]) : v.count y = (v.take i).count y := by
  conv_lhs => rw [← List.take_append_drop i v]
  rw [List.count_append, List.count_eq_zero_of_not_mem (not_mem_drop hv h hlt), Nat.add_zero]

/-- At a judged place the first vector's element tells what the second's would tell. -/
theorem isNew_of_judged {v1 v2 : List T} {i1 i2 : Nat} (ha : Abreast v1 v2 i1 i2)
    (hv1 : v1.Pairwise (· ≤ ·)) (hv2 : v2.Pairwise (· ≤ ·)) (h1 : i1 < v1.length)
    (h2 : i2 < v2.length) (hlt : v2[i2] < v1[i1]) (hj : Judged v1 v2 i2) :
    isNew v2[i2] v1 i2 = .ok (decide (before? v2 i2 ≠ some v2[i2])) () := by
  have hin : v2[i2] ∈ v2.drop i2 := (mem_drop_iff h2).2 (.inl rfl)
  have hmet : v1.count v2[i2] ≤ (v2.take i2).count v2[i2] := by
    rw [count_take_of_lt hv1 h1 hlt]
    exact ha.count1 _ hin
  rw [isNew]
  split
  · next h0 =>
      subst h0
      rfl
  · next h0 =>
      have hpos : 0 < i2 := Nat.pos_of_ne_zero h0
      obtain ⟨hle, himp⟩ :=
        hj v2[i2] (List.getElem?_eq_getElem h2) hpos ⟨_, List.getElem_mem h1, hlt⟩ hmet
      rw [previous_eq hpos hle, Outcome.bind_ok]
      congr 1
      rw [decide_eq_decide, not_iff_not, eq_comm]
      constructor
      · intro heq
        -- the element was met in the first vector, so it was met in the second
        have hpast : i2 - 1 < i1 := by
          by_contra hge
          exact absurd (heq ▸ hlt) (not_lt.2 (getElem_mono hv1 (not_lt.1 hge) (by omega)))
        have hone : 0 < (v1.take i1).count v2[i2] :=
          List.count_pos_iff.2 (mem_take_iff.2 ⟨i2 - 1, by omega, hpast, heq⟩)
        have hmem : v2[i2] ∈ v2.take i2 :=
          List.count_pos_iff.1 (lt_of_lt_of_le hone (ha.count1 _ hin))
        refine (mem_take_iff_before? hv2 ?_ h2.le).1 hmem
        intro a hat
        obtain ⟨k, hk, hki, rfl⟩ := mem_take_iff.1 hat
        exact getElem_mono hv2 (by omega) h2
      · intro hprev
        rw [before?, if_neg h0] at hprev
        exact (List.getElem?_eq_some_iff.1 (himp hprev)).2

/-- At a misjudged place the subscript throws, or a duplicate is taken for a new element. -/
theorem isNew_of_not_judged {v1 v2 : List T} {i2 : Nat} (h2 : i2 < v2.length)
    (hj : ¬Judged v1 v2 i2) :
    (∃ e, isNew v2[i2] v1 i2 = .throw e ()) ∨
      isNew v2[i2] v1 i2 = .ok true () ∧ before? v2 i2 = some v2[i2] := by
  simp only [Judged, List.getElem?_eq_getElem h2, Option.mem_some_iff, forall_eq',
    Classical.not_imp] at hj
  obtain ⟨hpos, -, -, hnot⟩ := hj
  have h0 : i2 ≠ 0 := Nat.pos_iff_ne_zero.1 hpos
  rw [isNew, if_neg h0]
  by_cases hle : i2 ≤ v1.length
  · right
    obtain ⟨hdup, hother⟩ := Classical.not_imp.1 fun himp => hnot ⟨hle, himp⟩
    rw [previous_eq hpos hle, Outcome.bind_ok, before?, if_neg h0]
    refine ⟨?_, hdup⟩
    congr 1
    rw [decide_eq_true_eq]
    intro heq
    rw [List.getElem?_eq_getElem (by omega), heq] at hother
    exact hother rfl
  · left
    obtain ⟨k, rfl⟩ := Nat.exists_eq_succ_of_ne_zero h0
    refine ⟨.outOfRange "subscript out of bounds", ?_⟩
    rw [previous, List.getElem?_eq_none (by omega)]
    rfl

/-- Where both vectors have the element, its copies have not all been met. -/
theorem judged_of_eq {v1 v2 : List T} {i1 i2 : Nat} (ha : Abreast v1 v2 i1 i2)
    (h1 : i1 < v1.length) (h2 : i2 < v2.length) (heq : v1[i1] = v2[i2]) : Judged v1 v2 i2 := by
  intro y hy hpos _ hmet
  rw [List.getElem?_eq_getElem h2, Option.mem_some_iff] at hy
  subst hy
  have hin : v2[i2] ∈ v1.drop i1 := (mem_drop_iff h1).2 (.inl heq.symm)
  have hone : 0 < (v1.drop i1).count v2[i2] := List.count_pos_iff.2 hin
  have hsum : v1.count v2[i2] = (v1.take i1).count v2[i2] + (v1.drop i1).count v2[i2] := by
    rw [← List.count_append, List.take_append_drop]
  have hle := ha.count2 _ hin
  omega

/-- Behind the end of the first vector nothing of it is greater. -/
theorem judged_of_end {v1 v2 : List T} {i1 i2 : Nat} (ha : Abreast v1 v2 i1 i2)
    (hout : ¬(i1 < v1.length ∧ i2 < v2.length)) {j : Nat} (hj : i2 ≤ j) : Judged v1 v2 j := by
  intro y hy _ hgreater _
  obtain ⟨hlt, rfl⟩ := List.getElem?_eq_some_iff.1 hy
  obtain ⟨z, hz, hlt'⟩ := hgreater
  have hmem : v2[j] ∈ v2.drop i2 := List.mem_drop_iff_getElem.2 ⟨j - i2, by omega, by congr 1; omega⟩
  have htake : z ∈ v1.take i1 := by
    rw [List.take_of_length_le (by omega)]
    exact hz
  exact absurd hlt' (not_lt.2 (ha.le1 z htake _ hmem))

/-! ## The loop -/

theorem forall_ge_succ {P : Nat → Prop} {n : Nat} (h : P n) :
    (∀ j, n + 1 ≤ j → P j) ↔ ∀ j, n ≤ j → P j := by
  constructor
  · intro hall j hj
    rcases Nat.eq_or_lt_of_le hj with rfl | hlt
    · exact h
    · exact hall j hlt
  · intro hall j hj
    exact hall j (by omega)

/-- The element at the first cursor, when it is below what is left of the second vector. -/
theorem Follows.lt {v1 v2 : List T} {i1 i2 : Nat} {res : List (Option Nat) × List (Option Nat)}
    {vals : List T} {E : Prop} (hf : Follows v1 v2 res vals E) (hm : Merging v1 v2 i1 i2 vals)
    (hv1 : v1.Pairwise (· ≤ ·)) (h1 : i1 < v1.length) (hlt : ∀ y ∈ v2.drop i2, v1[i1] < y) :
    Follows v1 v2
      (if decide (before? v1 i1 ≠ some v1[i1]) = true then push2 (some (i1 + 1)) none res else res)
      (pushNew v1[i1] vals) E := by
  rw [hm.pushNew_eq h1]
  by_cases hnew : before? v1 i1 = some v1[i1]
  · simpa [hnew] using hf
  · simpa [hnew] using hf.push (at_place h1) (at_none (hm.not_mem hv1 h1 hlt hnew))

/-- The same for the second cursor, when the test told what it should. -/
theorem Follows.gt {v1 v2 : List T} {i1 i2 : Nat} {res : List (Option Nat) × List (Option Nat)}
    {vals : List T} {E : Prop} (hf : Follows v1 v2 res vals E) (hm : Merging v1 v2 i1 i2 vals)
    (hv2 : v2.Pairwise (· ≤ ·)) (h2 : i2 < v2.length) (hlt : ∀ x ∈ v1.drop i1, v2[i2] < x) :
    Follows v1 v2
      (if decide (before? v2 i2 ≠ some v2[i2]) = true then push2 none (some (i2 + 1)) res else res)
      (pushNew v2[i2] vals) E := by
  rw [hm.swap.pushNew_eq h2]
  by_cases hnew : before? v2 i2 = some v2[i2]
  · simpa [hnew] using hf
  · simpa [hnew] using hf.push (at_none (hm.swap.not_mem hv2 h2 hlt hnew)) (at_place h2)

theorem Follows.eq {v1 v2 : List T} {i1 i2 : Nat} {res : List (Option Nat) × List (Option Nat)}
    {vals : List T} {E : Prop} (hf : Follows v1 v2 res vals E) (hm : Merging v1 v2 i1 i2 vals)
    (h1 : i1 < v1.length) (h2 : i2 < v2.length) (heq : v1[i1] = v2[i2]) :
    Follows v1 v2
      (if decide (before? v1 i1 ≠ some v1[i1]) = true then
        push2 (some (i1 + 1)) (some (i2 + 1)) res else res)
      (pushNew v1[i1] vals) E := by
  have hat : At v2 (some (i2 + 1)) v1[i1] := heq ▸ at_place h2
  rw [hm.pushNew_eq h1]
  by_cases hnew : before? v1 i1 = some v1[i1]
  · simpa [hnew] using hf
  · simpa [hnew] using hf.push (at_place h1) hat

/-- What follows the loop of `union_idx`, when one vector is at its end. -/
theorem pickUpIdx_both {v1 v2 : List T} (hv1 : v1.Pairwise (· ≤ ·)) (hv2 : v2.Pairwise (· ≤ ·))
    {i1 i2 : Nat} {res : List (Option Nat) × List (Option Nat)} {vals : List T} {E : Prop}
    (hm : Merging v1 v2 i1 i2 vals) (hf : Follows v1 v2 res vals E)
    (hout : v1.drop i1 = [] ∨ v2.drop i2 = []) :
    ∃ res', ((pickUpIdx v1 (fun k => push2 (some k) none) i1 res).bind fun res _ =>
        pickUpIdx v2 (fun k => push2 none (some k)) i2 res) = .ok res' () ∧
      Follows v1 v2 res' (unionLoop (before? v1 i1) (before? v2 i2) (v1.drop i1) (v2.drop i2) vals)
        E := by
  have hnil {v : List T} {i : Nat} (put : Nat → _ → _)
      (res : List (Option Nat) × List (Option Nat)) (hd : v.drop i = []) :
      pickUpIdx v put i res = .ok res () := by
    rw [pickUpIdx, dif_neg]
    exact not_lt.2 (List.drop_eq_nil_iff.1 hd)
  rcases hout with hout | hout
  · obtain ⟨res', hok, hf'⟩ := pickUpIdx_eq_ok (fun k => push2 none (some k))
      (fun res vals => Follows v1 v2 res vals E) hv2
      (fun i res vals h hnot hf => hf.push (at_none hnot) (at_place h)) i2 i1 res hm.swap hout hf
    rw [hnil _ _ hout, Outcome.bind_ok, hout, unionLoop, pickUp]
    exact ⟨res', hok, hf'⟩
  · obtain ⟨res', hok, hf'⟩ := pickUpIdx_eq_ok (fun k => push2 (some k) none)
      (fun res vals => Follows v1 v2 res vals E) hv1
      (fun i res vals h hnot hf => hf.push (at_place h) (at_none hnot)) i1 i2 res hm hout hf
    refine ⟨res', ?_, ?_⟩
    · rw [hok, Outcome.bind_ok, hnil _ _ hout]
    · rw [hout]
      cases hd : v1.drop i1 with
      | nil =>
          rw [hd] at hf'
          rw [unionLoop]
          exact hf'
      | cons x xs =>
          rw [hd] at hf'
          rw [unionLoop]
          exact hf'

/-- The loop of `union_idx` does what the one of `_union` does while the places of the second
vector are judged. -/
theorem unionIdxLoop_holds {v1 v2 : List T} (hv1 : v1.Pairwise (· ≤ ·))
    (hv2 : v2.Pairwise (· ≤ ·)) (i1 i2 : Nat) (res : List (Option Nat) × List (Option Nat))
    {vals : List T} {E : Prop} (hm : Merging v1 v2 i1 i2 vals) (hf : Follows v1 v2 res vals E) :
    (unionIdxLoop v1 v2 i1 i2 res).Holds
      (fun res' _ => Follows v1 v2 res'
        (unionLoop (before? v1 i1) (before? v2 i2) (v1.drop i1) (v2.drop i2) vals)
        (E ∧ ∀ j, i2 ≤ j → Judged v1 v2 j))
      (fun _ _ => ¬∀ j, i2 ≤ j → Judged v1 v2 j) := by
  fun_induction unionIdxLoop v1 v2 i1 i2 res generalizing vals E with
  | case1 i1 i2 res hin hlt ih =>
      obtain ⟨h1, h2⟩ := hin
      have hd2 : (v2.drop i2).Pairwise (· ≤ ·) := hv2.drop
      rw [List.drop_eq_getElem_cons h2] at hd2
      have hbelow : ∀ y ∈ v2.drop i2, v1[i1] < y := by
        rw [List.drop_eq_getElem_cons h2]
        exact lt_all hd2 hlt
      have hrest := ih _ (hm.lt hv1 h1 hbelow) (hf.lt hm hv1 h1 hbelow)
      rw [before?_succ h1, List.drop_eq_getElem_cons h2] at hrest
      rw [isNew_self h1, Outcome.bind_ok, List.drop_eq_getElem_cons h1,
        List.drop_eq_getElem_cons h2, unionLoop, if_pos hlt]
      exact hrest
  | case2 i1 i2 res hin hge hlt ih =>
      obtain ⟨h1, h2⟩ := hin
      have hd1 : (v1.drop i1).Pairwise (· ≤ ·) := hv1.drop
      rw [List.drop_eq_getElem_cons h1] at hd1
      have hbelow : ∀ x ∈ v1.drop i1, v2[i2] < x := by
        rw [List.drop_eq_getElem_cons h1]
        exact lt_all hd1 hlt
      have hm' := (hm.swap.lt hv2 h2 hbelow).swap
      rw [List.drop_eq_getElem_cons h1, List.drop_eq_getElem_cons h2, unionLoop, if_neg hge,
        if_pos hlt]
      by_cases hj : Judged v1 v2 i2
      · have hrest := ih _ hm' (hf.gt hm hv2 h2 hbelow)
        rw [before?_succ h2, List.drop_eq_getElem_cons h1, forall_ge_succ hj] at hrest
        rw [isNew_of_judged hm.abreast hv1 hv2 h1 h2 hlt hj, Outcome.bind_ok]
        exact hrest
      · have hno : ¬∀ j, i2 ≤ j → Judged v1 v2 j := fun hall => hj (hall i2 (le_refl _))
        rcases isNew_of_not_judged h2 hj with ⟨e, hthrow⟩ | ⟨htrue, hdup⟩
        · rw [hthrow, Outcome.bind_throw]
          exact hno
        · -- the duplicate is pushed, and the result stays too long
          have hextra : Follows v1 v2 (push2 none (some (i2 + 1)) res) (pushNew v2[i2] vals)
              False := by
            rw [hm.swap.pushNew_eq h2, if_pos hdup]
            exact hf.extra _ _
          have hrest := ih true hm' hextra
          rw [before?_succ h2, List.drop_eq_getElem_cons h1] at hrest
          rw [htrue, Outcome.bind_ok]
          refine Outcome.Holds.imp hrest (fun res' _ hf' => hf'.congr ?_) fun _ _ _ => hno
          exact ⟨fun h => h.1.elim, fun h => (hno h.2).elim⟩
  | case3 i1 i2 res hin hge hge' ih =>
      obtain ⟨h1, h2⟩ := hin
      have heq : v1[i1] = v2[i2] := le_antisymm (not_lt.1 hge') (not_lt.1 hge)
      have hrest := ih _ (hm.eq hv1 hv2 h1 h2 heq) (hf.eq hm h1 h2 heq)
      rw [before?_succ h1, before?_succ h2, forall_ge_succ (judged_of_eq hm.abreast h1 h2 heq)]
        at hrest
      rw [isNew_self h1, Outcome.bind_ok, List.drop_eq_getElem_cons h1,
        List.drop_eq_getElem_cons h2, unionLoop, if_neg hge, if_neg hge']
      exact hrest
  | case4 i1 i2 res hout =>
      have hall : ∀ j, i2 ≤ j → Judged v1 v2 j := fun j hj => judged_of_end hm.abreast hout hj
      have hend : v1.drop i1 = [] ∨ v2.drop i2 = [] := by
        rw [List.drop_eq_nil_iff, List.drop_eq_nil_iff]
        omega
      obtain ⟨res', hok, hf'⟩ := pickUpIdx_both hv1 hv2 hm hf hend
      rw [hok]
      exact hf'.congr ⟨fun he => ⟨he, hall⟩, fun he => he.1⟩

/-- `union_idx` gives the places of the values of `_union` in both vectors just when every
place of the second vector is judged. -/
theorem union_idx_iff (sort : StdSort (@less T _)) {v1 v2 : Vector T}
    (h1 : v1.v.Pairwise (· ≤ ·)) (h2 : v2.v.Pairwise (· ≤ ·)) :
    (∃ is js : List (Option Nat), union_idx sort v1 v2 = .ok (is, js) () ∧
      is.length = (_union sort v1 v2).length ∧ js.length = (_union sort v1 v2).length ∧
      ∀ (k : Nat) (x : T), (_union sort v1 v2)[k]? = some x →
        ∃ i j : Option Nat, is[k]? = some i ∧ js[k]? = some j ∧ At v1.v i x ∧ At v2.v j x) ↔
    ∀ j, Judged v1.v v2.v j := by
  have hrun := unionIdxLoop_holds h1 h2 0 0 ([], []) (Merging.start v1.v v2.v)
    (⟨fun _ => ⟨.nil, .nil⟩, fun h => absurd trivial h⟩ : Follows v1.v v2.v ([], []) [] True)
  rw [List.drop_zero, List.drop_zero] at hrun
  rw [union_idx, conditional_sort_idx_helper_eq, _union, conditional_sort_helper_eq_arranged,
    arranged_eq sort h1, arranged_eq sort h2]
  constructor
  · rintro ⟨is, js, hok, hlen, -, -⟩
    rw [hok] at hrun
    by_contra hj
    have hlong := hrun.longer fun he => hj fun j => he.2 j (Nat.zero_le j)
    exact absurd hlong (not_lt.2 (le_of_eq hlen))
  · intro hj
    cases hloop : unionIdxLoop v1.v v2.v 0 0 ([], []) with
    | ok res u =>
        rw [hloop] at hrun
        obtain ⟨hf1, hf2⟩ := hrun.exact ⟨trivial, fun j _ => hj j⟩
        refine ⟨res.1, res.2, rfl, hf1.length_eq, hf2.length_eq, ?_⟩
        intro k x hx
        obtain ⟨hk, rfl⟩ := List.getElem?_eq_some_iff.1 hx
        have hk1 : k < res.1.length := hf1.length_eq ▸ hk
        have hk2 : k < res.2.length := hf2.length_eq ▸ hk
        exact ⟨_, _, List.getElem?_eq_getElem hk1, List.getElem?_eq_getElem hk2,
          hf1.get hk1 hk, hf2.get hk2 hk⟩
    | throw e u =>
        rw [hloop] at hrun
        exact absurd (fun j _ => hj j) hrun
    | fault =>
        rw [hloop] at hrun
        exact hrun.elim

/-- Duplicates in both vectors, and elements of the second one between. -/
theorem union_idx_iff_duplicates :
    ∃ is js : List (Option Nat), union_idx (mergeStdSort less)
      (⟨[1, 1, 4], true, 0, 0, none⟩ : Vector Nat) ⟨[1, 2, 5, 5], true, 0, 0, none⟩ =
        .ok (is, js) () := by
  have hj : ∀ j, Judged ([1, 1, 4] : List Nat) [1, 2, 5, 5] j := by
    intro j
    rcases Nat.lt_or_ge j 4 with hlt | hge
    · interval_cases j <;> decide
    · intro y hy
      rw [List.getElem?_eq_none hge] at hy
      cases hy
  obtain ⟨is, js, hok, -⟩ := (@union_idx_iff Nat _ (mergeStdSort less)
    ⟨[1, 1, 4], true, 0, 0, none⟩ ⟨[1, 2, 5, 5], true, 0, 0, none⟩ (by decide) (by decide)).2 hj
  exact ⟨is, js, hok⟩

/-- The second vector's cursor is ahead of the end of the first vector. -/
theorem union_idx_shorter :
    ¬∃ is js : List (Option Nat), union_idx (mergeStdSort less)
      (⟨[5], true, 0, 0, none⟩ : Vector Nat) ⟨[1, 2, 3], true, 0, 0, none⟩ = .ok (is, js) () := by
  rintro ⟨is, js, hok⟩
  rw [union_idx, conditional_sort_idx_helper_eq, arranged, if_pos rfl, arranged, if_pos rfl] at hok
  simp [unionIdxLoop, isNew, previous] at hok

/-- A duplicate of the second vector that the first one does not show. -/
theorem union_idx_duplicate :
    union_idx (mergeStdSort less) (⟨[2], true, 0, 0, none⟩ : Vector Nat)
      ⟨[1, 1], true, 0, 0, none⟩ =
    .ok ([none, none, some 1], [some 1, some 2, none]) () := by
  rw [union_idx, conditional_sort_idx_helper_eq, arranged, if_pos rfl, arranged, if_pos rfl]
  simp [unionIdxLoop, isNew, previous, pickUpIdx, push2]

end Loops

end Vector

end Ztsdb.Arr
