import Mathlib
import Ztsdb.Arr.Window
import Ztsdb.Lib.RingBuffer

/-!
# Running sums

`rollmean_inplace`, `rollvar_inplace` and `rollcov` keep the sum of a window: a value is added when
its row is reached and subtracted when it leaves. The columns may be overwritten meanwhile, so the
values are kept in a ring. The ring has the least power of two of slots that holds the window. It
is written at the rows that have a value only, and goes from one column to the next as it is.

Numbers are rational, and `none` is NaN.
-/

namespace Ztsdb.Arr

open Ztsdb.Lib

namespace Columns

/-- An operation on numbers, NaN where one of them is. -/
def nanOr (op : ℚ → ℚ → ℚ) (x y : Option ℚ) : Option ℚ := x.bind fun a => y.map (op a)

/-- `while (ringsz < window) ringsz <<= 1;`, at most `k` times. -/
def growRing (window : Nat) : Nat → Nat → Nat
  | 0, ringsz => ringsz
  | k + 1, ringsz => if ringsz < window then growRing window k (ringsz <<< 1) else ringsz

/-- The 64 bits of a size are left after as many rounds. -/
def ringsz (window : Nat) : Nat := growRing window 64 1

theorem growRing_pow {window k n : Nat} (hn : ∃ e, n = 2 ^ e) : ∃ e, growRing window k n = 2 ^ e := by
  induction k generalizing n with
  | zero => exact hn
  | succ k ih =>
      rw [growRing]
      split
      · obtain ⟨e, rfl⟩ := hn
        exact ih ⟨e + 1, by rw [Nat.shiftLeft_eq, Nat.pow_one, Nat.pow_succ]⟩
      · exact hn

/-- `vector<T> ring(ringsz)`. -/
def freshRing (window : Nat) : RingBuffer (Option ℚ) where
  slots := List.replicate (ringsz window) (some 0)
  pow := by
    rw [List.length_replicate]
    exact growRing_pow ⟨0, rfl⟩

/-- What a ring holds for each row. -/
def RingHolds (ringsz : Nat) (u : Nat → ℚ) (g : RingBuffer (Option ℚ)) : Prop :=
  g.size = ringsz ∧ ∀ i, g.get i = some (u i)

theorem ringHolds_fresh {window : Nat} : RingHolds (ringsz window) (fun _ => 0) (freshRing window) := by
  have hsize : (freshRing window).size = ringsz window := List.length_replicate
  have hslots : (freshRing window).slots = List.replicate (ringsz window) (some 0) := rfl
  refine ⟨hsize, fun i => ?_⟩
  have hget := (freshRing window).get?_eq i
  rw [hslots, List.getElem?_replicate,
    if_pos (hsize ▸ Nat.mod_lt i (freshRing window).size_pos)] at hget
  exact (Option.some.inj hget).symm

/-- Two optional results that are decided by two conditions. -/
theorem ite_some_eq_iff {P Q : Prop} [Decidable P] [Decidable Q] {x y : ℚ} :
    (if P then some x else none) = (if Q then some y else none) ↔ (Q ↔ P) ∧ (Q → x = y) := by
  by_cases hq : Q
  · by_cases hp : P
    · rw [if_pos hp, if_pos hq, Option.some.injEq]
      exact ⟨fun h => ⟨iff_of_true hq hp, fun _ => h⟩, fun h => h.2 hq⟩
    · rw [if_neg hp, if_pos hq]
      exact iff_of_false (Option.some_ne_none _).symm fun h => hp (h.1.1 hq)
  · by_cases hp : P
    · rw [if_pos hp, if_neg hq]
      exact iff_of_false (Option.some_ne_none _) fun h => hq (h.1.2 hp)
    · rw [if_neg hp, if_neg hq]
      exact iff_of_true rfl ⟨iff_of_false hq hp, fun h => absurd h hq⟩

/-- A sum with its ring. -/
structure Tally where
  ring : RingBuffer (Option ℚ)
  sum : Option ℚ

/-- `sum += x; ring[r & (ringsz-1)] = x;` -/
def Tally.enter (r : Nat) (x : Option ℚ) (t : Tally) : Tally :=
  ⟨t.ring.put r x, nanOr (· + ·) t.sum x⟩

/-- `sum -= outvalue;` -/
def Tally.leave (outvalue : Option ℚ) (t : Tally) : Tally := { t with sum := nanOr (· - ·) t.sum outvalue }

/-! ## What is in them -/

section Spec

variable (ringsz window : Nat) (u : Nat → ℚ) (f : Nat → Option ℚ)

/-- What the ring holds for row `i` when row `r` is reached: the last value that was put there, or
what was there at first. -/
def ringAt : Nat → Nat → ℚ
  | 0, i => u i
  | r + 1, i => if i % ringsz = r % ringsz then (f r).getD (ringAt r i) else ringAt r i

/-- The sum of the values above row `r`. -/
def total : Nat → ℚ
  | 0 => 0
  | r + 1 => total r + (f r).getD 0

/-- The sum of what is taken from the ring above row `r`. -/
def taken : Nat → ℚ
  | 0 => 0
  | r + 1 => taken r + if window ≤ r then ringAt ringsz u f r r else 0

/-- What the values that have left the window by row `r` have been taken short. -/
def off (r : Nat) : ℚ := total f (r + 1 - window) - taken ringsz window u f (r + 1)

end Spec

theorem total_add (f : Nat → Option ℚ) (a k : Nat) :
    total f (a + k) = total f a + ((List.range' a k).filterMap f).sum := by
  induction k with
  | zero => rw [Nat.add_zero, List.range'_zero, List.filterMap_nil, List.sum_nil, add_zero]
  | succ k ih =>
      rw [← Nat.add_assoc, total, ih, List.range'_1_concat, List.filterMap_append, List.sum_append,
        add_assoc]
      congr 2
      cases hx : f (a + k) with
      | none => rw [List.filterMap_cons_none hx, List.filterMap_nil, Option.getD_none, List.sum_nil]
      | some x =>
          rw [List.filterMap_cons_some hx, List.filterMap_nil, Option.getD_some, List.sum_singleton]

/-- The sum in a tally is that of the window and what the values that have left have been taken
short. -/
theorem total_sub_taken (ringsz window : Nat) (u : Nat → ℚ) (f : Nat → Option ℚ) (r : Nat) :
    total f (r + 1) - taken ringsz window u f (r + 1) =
      (inWindow window f r).sum + off ringsz window u f r := by
  have hsplit := total_add f (r + 1 - window) (r + 1 - (r + 1 - window))
  rw [show r + 1 - window + (r + 1 - (r + 1 - window)) = r + 1 by omega] at hsplit
  rw [hsplit, inWindow, off]
  ring

/-! Without missing values, and with a ring as long as the window, nothing is lost. -/

section Full

variable {ringsz window : Nat} {u : Nat → ℚ} {f : Nat → Option ℚ} {r : Nat}

/-- A value stays in the ring until its slot is reached again. -/
theorem ringAt_last {q k i : Nat} (hq : (f q).isSome) (hi : i % ringsz = q % ringsz)
    (hk : k < ringsz) : ringAt ringsz u f (q + 1 + k) i = (f q).getD 0 := by
  induction k with
  | zero =>
      obtain ⟨x, hx⟩ := Option.isSome_iff_exists.1 hq
      rw [Nat.add_zero, ringAt, if_pos hi, hx, Option.getD_some, Option.getD_some]
  | succ k ih =>
      have hne : i % ringsz ≠ (q + 1 + k) % ringsz := by
        intro heq
        rw [hi] at heq
        have hdvd := (Nat.modEq_iff_dvd' (by omega : q ≤ q + 1 + k)).1 heq
        exact absurd (Nat.le_of_dvd (by omega) hdvd) (by omega)
      rw [← Nat.add_assoc, ringAt, if_neg hne, ih (by omega)]

theorem taken_full (hring : ringsz = window) (hw : 0 < window) (hfull : ∀ i, i < r → (f i).isSome) :
    taken ringsz window u f r = total f (r - window) := by
  subst hring
  induction r with
  | zero => rw [taken, Nat.zero_sub, total]
  | succ r ih =>
      rw [taken, ih fun i hi => hfull i (by omega)]
      by_cases hle : ringsz ≤ r
      · have hlast := ringAt_last (u := u) (f := f) (q := r - ringsz) (k := ringsz - 1) (i := r)
          (hfull _ (by omega)) (Nat.mod_eq_sub_mod hle) (by omega)
        rw [show r - ringsz + 1 + (ringsz - 1) = r by omega] at hlast
        rw [if_pos hle, hlast, show r + 1 - ringsz = r - ringsz + 1 by omega, total]
      · rw [if_neg hle, add_zero, show r + 1 - ringsz = r - ringsz by omega]

theorem off_full (hring : ringsz = window) (hw : 0 < window) (hfull : ∀ i, i ≤ r → (f i).isSome) :
    off ringsz window u f r = 0 := by
  rw [off, taken_full hring hw fun i hi => hfull i (by omega), sub_self]

theorem present_full {T : Type} {h : Nat → Option T} (hfull : ∀ i, i < r → (h i).isSome) :
    present h r = r :=
  Nat.count_of_forall fun i hi => hfull i hi

theorem length_inWindow_full {T : Type} {h : Nat → Option T} (hfull : ∀ i, i ≤ r → (h i).isSome) :
    (inWindow window h r).length = r + 1 - (r + 1 - window) := by
  rw [inWindow, List.length_filterMap_eq_countP, List.countP_eq_length.2, List.length_range']
  intro i hi
  rw [List.mem_range'_1] at hi
  exact hfull i (by omega)

end Full

/-- A tally before row `r`. -/
structure Tally.Before (ringsz window : Nat) (u : Nat → ℚ) (f : Nat → Option ℚ) (r : Nat)
    (t : Tally) : Prop where
  size : t.ring.size = ringsz
  held : ∀ i, t.ring.get i = some (ringAt ringsz u f r i)
  sum : t.sum = some (total f r - taken ringsz window u f r)

/-- A sum starts with the ring as it was left. -/
theorem RingHolds.before {ringsz window : Nat} {u : Nat → ℚ} {f : Nat → Option ℚ}
    {g : RingBuffer (Option ℚ)} (hg : RingHolds ringsz u g) :
    (⟨g, some 0⟩ : Tally).Before ringsz window u f 0 :=
  ⟨hg.1, hg.2, by rw [total, taken, sub_zero]⟩

/-- What a row does to a tally. -/
def Tally.row (window r : Nat) (x : Option ℚ) (t : Tally) : Tally :=
  let t' := if x.isSome then t.enter r x else t
  if window ≤ r then t'.leave (t.ring.get r) else t'

theorem Tally.Before.row {ringsz window : Nat} {u : Nat → ℚ} {f : Nat → Option ℚ} {r : Nat}
    {t : Tally} (ht : t.Before ringsz window u f r) :
    (t.row window r (f r)).Before ringsz window u f (r + 1) := by
  have hleave : ∀ t' : Tally, t'.ring.size = ringsz →
      (∀ i, t'.ring.get i = some (ringAt ringsz u f (r + 1) i)) →
      t'.sum = some (total f (r + 1) - taken ringsz window u f r) →
      (if window ≤ r then t'.leave (t.ring.get r) else t').Before ringsz window u f (r + 1) := by
    intro t' hsize hheld hsum
    rw [ht.held r]
    split
    · next hle =>
        refine ⟨hsize, hheld, ?_⟩
        rw [Tally.leave, hsum, taken, if_pos hle]
        exact congrArg some (by ring)
    · next hle => exact ⟨hsize, hheld, by rw [hsum, taken, if_neg hle, add_zero]⟩
  rw [Tally.row]
  cases hx : f r with
  | none =>
      refine hleave t ht.size (fun i => ?_) ?_
      · rw [ht.held, ringAt, hx, Option.getD_none, ite_self]
      · rw [ht.sum, total, hx, Option.getD_none, add_zero]
  | some x =>
      refine hleave (t.enter r (some x)) ?_ (fun i => ?_) ?_
      · rw [Tally.enter, RingBuffer.size_put, ht.size]
      · rw [Tally.enter, RingBuffer.get_put, ht.held, ht.size, ringAt, hx, Option.getD_some]
        split <;> rfl
      · rw [Tally.enter, ht.sum, total, hx, Option.getD_some]
        exact congrArg some (by ring)

/-! The count of the values goes with a tally. -/

/-- `++nbv` for a value, `--nbv` for what leaves. -/
def countRow (window r : Nat) (x : Bool) (nbv : Nat) : Nat :=
  let nbv := if x then wrap (nbv + 1) else nbv
  if window ≤ r then wsub nbv 1 else nbv

/-- The count before row `r`: one has been counted out for each row that has left the window. -/
def CountBefore {T : Type} (window : Nat) (f : Nat → Option T) (r nbv : Nat) : Prop :=
  nbv < 2 ^ 64 ∧ (nbv + (r - window)) % 2 ^ 64 = present f r % 2 ^ 64

section Count

variable {T : Type} {window nbvalid nbv r : Nat} {f : Nat → Option T}

theorem CountBefore.zero : CountBefore window f 0 0 :=
  ⟨Nat.two_pow_pos 64, by rw [Nat.zero_sub, present, Nat.count_zero]⟩

theorem CountBefore.row (h : CountBefore window f r nbv) :
    CountBefore window f (r + 1) (countRow window r (f r).isSome nbv) := by
  obtain ⟨hlt, hcount⟩ := h
  rw [countRow, CountBefore, present_succ]
  by_cases hx : (f r).isSome
  · by_cases hle : window ≤ r
    · rw [if_pos hx, if_pos hx, if_pos hle, wsub, wrap, wrap]
      omega
    · rw [if_pos hx, if_pos hx, if_neg hle, wrap]
      omega
  · by_cases hle : window ≤ r
    · rw [if_neg hx, if_neg hx, if_pos hle, wsub, wrap]
      omega
    · rw [if_neg hx, if_neg hx, if_neg hle]
      omega

/-- Counting out the rows that have left in place of their values leaves `nbvalid` of them. When
more rows have left than there were values, the count has gone below zero and is beyond any
`nbvalid`. -/
def Reaches (window nbvalid : Nat) (f : Nat → Option T) (r : Nat) : Prop :=
  present f (r + 1) < r + 1 - window ∨ nbvalid + (r + 1 - window) ≤ present f (r + 1)

instance : Decidable (Reaches window nbvalid f r) := inferInstanceAs (Decidable (_ ∨ _))

theorem CountBefore.nbvalid_le (h : CountBefore window f (r + 1) nbv) (hr : r < 2 ^ 63)
    (hnb : nbvalid ≤ 2 ^ 63) : nbvalid ≤ nbv ↔ Reaches window nbvalid f r := by
  obtain ⟨hlt, hcount⟩ := h
  have hp : present f (r + 1) ≤ r + 1 := present_le
  rw [Reaches]
  omega

/-- The count itself. -/
def counted (window : Nat) (f : Nat → Option T) (r : Nat) : Nat :=
  wsub (present f (r + 1)) (r + 1 - window)

theorem CountBefore.eq (h : CountBefore window f (r + 1) nbv) (hr : r < 2 ^ 63) :
    nbv = counted window f r := by
  obtain ⟨hlt, hcount⟩ := h
  have hp : present f (r + 1) ≤ r + 1 := present_le
  rw [counted, wsub, wrap]
  omega

theorem counted_full (hfull : ∀ i, i ≤ r → (f i).isSome) (hr : r < 2 ^ 63) :
    counted window f r = (inWindow window f r).length := by
  rw [counted, present_full (r := r + 1) fun i hi => hfull i (by omega), length_inWindow_full hfull,
    wsub_of_le (by omega) (by omega)]

theorem reaches_full (hfull : ∀ i, i ≤ r → (f i).isSome) :
    Valid window nbvalid f r ↔ Reaches window nbvalid f r := by
  rw [Valid, Reaches, length_inWindow_full hfull,
    present_full (r := r + 1) fun i hi => hfull i (by omega)]
  omega

end Count

end Columns

end Ztsdb.Arr
