import Mathlib
import Ztsdb.Arr.Columns

/-!
# The last value carried forward

`locf_inplace` goes down a column and fills a missing cell from the cell just above, which it has
filled before. How far the value has come is not seen there: `last_idx` keeps the row of the
value, and the first missing cell after a value sets it.
-/

namespace Ztsdb.Arr

open Ztsdb.Lib

namespace Columns

variable {T : Type} {h : Nat → Option T} {r : Nat}

/-- The row just above, as a `long`. -/
def rowAbove (r : Nat) : Int := ((r - 1 : Nat) : Int).bmod (2 ^ 64)

/-- A signed number as an index. -/
def toIdx (i : Int) : Nat := (i % 2 ^ 64).toNat

/-- One row, with `last_idx`. -/
def locfRow (n : Int) (r : Nat) (s : List (Option T) × Int) :
    Outcome Exn (List (Option T) × Int) Unit :=
  (read s s.1 r).bind fun x s =>
    if x.isNone then
      let last_idx := if s.2 < 0 then rowAbove r else s.2
      if toIdx (r - last_idx) ≤ toIdx n then
        (read s s.1 (r - 1)).bind fun y s => (setv r y s.1).mapState fun col => (col, last_idx)
      else (setv r none s.1).mapState fun col => (col, last_idx)
    else .ok () (s.1, -1)

/-- One column, from its second row on. -/
def locfCol (rows : Nat) (n : Int) (col : List (Option T)) : Outcome Exn (List (Option T)) Unit :=
  (forUp (locfRow n) (rows - 1) 1 (col, -1)).mapState Prod.fst

def locf_inplace (n : Int) (a : Columns (Option T)) : Outcome Exn (List (List (Option T))) Unit :=
  eachCol (locfCol a.rows n) a.v

/-! ## What it is for -/

/-- The last row above `r` that has a value. -/
def lastAbove (h : Nat → Option T) : Nat → Option Nat
  | 0 => none
  | r + 1 => if (h r).isSome then some r else lastAbove h r

/-- A missing cell gets the last value above it, when that is at most `n` rows above. -/
def carry (n : Nat) (h : Nat → Option T) (r : Nat) : Option T :=
  if (h r).isSome then h r
  else (lastAbove h r).bind fun p => if r - p ≤ n then h p else none

def carried (n : Nat) (col : List (Option T)) : List (Option T) :=
  tab col.length (carry n (cells col))

/-- It is the last one: it has a value, and there is none from there to `r`. -/
theorem lastAbove_eq_some {p : Nat} :
    lastAbove h r = some p ↔ p < r ∧ (h p).isSome ∧ ∀ q, p < q → q < r → h q = none := by
  induction r with
  | zero => simp only [lastAbove, reduceCtorEq, Nat.not_lt_zero, false_and]
  | succ r ih =>
      rw [lastAbove]
      by_cases hr : (h r).isSome
      · rw [if_pos hr, Option.some.injEq]
        constructor
        · intro hp
          subst hp
          exact ⟨Nat.lt_succ_self r, hr, fun q hq hq' => absurd hq' (by omega)⟩
        · intro ⟨hp, _, hlast⟩
          by_contra hne
          rw [hlast r (by omega) (Nat.lt_succ_self r)] at hr
          cases hr
      · rw [if_neg hr, ih]
        constructor
        · intro ⟨hp, hsome, hlast⟩
          refine ⟨by omega, hsome, fun q hq hq' => ?_⟩
          rcases Nat.lt_succ_iff_lt_or_eq.1 hq' with hlt | rfl
          · exact hlast q hq hlt
          · exact Option.not_isSome_iff_eq_none.1 hr
        · intro ⟨hp, hsome, hlast⟩
          have hne : p ≠ r := fun he => hr (he ▸ hsome)
          exact ⟨by omega, hsome, fun q hq hq' => hlast q hq (by omega)⟩

theorem lastAbove_lt {p : Nat} (hp : lastAbove h r = some p) : p < r := (lastAbove_eq_some.1 hp).1

theorem carry_some {n : Nat} (hr : (h r).isSome) : carry n h r = h r := by rw [carry, if_pos hr]

/-- The row that `last_idx` holds for a missing cell: that of the last value, or the first row. -/
def anchor (h : Nat → Option T) (r : Nat) : Nat := (lastAbove h r).getD 0

theorem anchor_lt (hr : 0 < r) : anchor h r < r := by
  rw [anchor]
  cases hp : lastAbove h r with
  | none => exact hr
  | some p => exact lastAbove_lt hp

theorem anchor_succ : anchor h (r + 1) = if (h r).isSome then r else anchor h r := by
  rw [anchor, lastAbove, anchor]
  split <;> rfl

/-- A missing cell is filled from the one above it. -/
theorem carry_succ {n : Nat} (hr : h (r + 1) = none) :
    carry n h (r + 1) = if r + 1 - anchor h (r + 1) ≤ n then carry n h r else none := by
  have hnot : ¬ (h (r + 1)).isSome := by
    rw [hr]
    exact Bool.false_ne_true
  rw [carry, if_neg hnot, anchor, lastAbove, carry]
  by_cases hsome : (h r).isSome
  · rw [if_pos hsome, if_pos hsome]
    rfl
  · rw [if_neg hsome, if_neg hsome]
    cases hp : lastAbove h r with
    | none =>
        simp only [Option.bind_none, ite_self]
    | some p =>
        simp only [Option.bind_some, Option.getD_some]
        by_cases hn : r + 1 - p ≤ n
        · rw [if_pos hn, if_pos hn, if_pos (by omega)]
        · rw [if_neg hn, if_neg hn]

/-! ## The run over a column -/

/-- `last_idx` before row `r`. -/
def lastIdx (h : Nat → Option T) (r : Nat) : Int :=
  if r = 1 ∨ (h (r - 1)).isSome then -1 else anchor h (r - 1)

theorem rowAbove_of_le (hr : r ≤ 2 ^ 63) : rowAbove r = (r - 1 : Nat) :=
  Int.bmod_eq_of_le (by omega) (by omega)

theorem toIdx_of_nonneg {i : Int} (hi : 0 ≤ i) (hlt : i < 2 ^ 64) : toIdx i = i.toNat := by
  rw [toIdx, Int.emod_eq_of_lt hi hlt]

/-- What a missing cell makes of `last_idx`. -/
theorem lastIdx_missing (hpos : 0 < r) (hr : r ≤ 2 ^ 63) :
    (if lastIdx h r < 0 then rowAbove r else lastIdx h r) = anchor h r := by
  obtain ⟨q, rfl⟩ : ∃ q, r = q + 1 := ⟨r - 1, by omega⟩
  have hidx : lastIdx h (q + 1) = if q + 1 = 1 ∨ (h q).isSome then -1 else (anchor h q : Int) := rfl
  rw [rowAbove_of_le hr, Nat.add_sub_cancel, anchor_succ]
  by_cases hsome : (h q).isSome
  · rw [hidx, if_pos (Or.inr hsome), if_pos (by decide), if_pos hsome]
  · rw [if_neg hsome]
    by_cases hq : q = 0
    · subst hq
      rw [hidx, if_pos (Or.inl rfl), if_pos (by decide)]
      rfl
    · rw [hidx, if_neg (not_or.2 ⟨by omega, hsome⟩), if_neg (by omega)]

/-- The column before row `r`: filled above it. -/
def filledTo (n : Nat) (h : Nat → Option T) (rows r : Nat) : List (Option T) × Int :=
  (tab rows (overwritten (carry n h) h r), lastIdx h r)

theorem locfRow_filledTo {n : Int} {rows : Nat} (hn : 0 ≤ n) (hn' : n < 2 ^ 63) (hpos : 0 < r)
    (hr : r < rows) (hrows : rows < 2 ^ 63) :
    locfRow n r (filledTo n.toNat h rows r) = .ok () (filledTo n.toNat h rows (r + 1)) := by
  rw [locfRow, filledTo, filledTo, ← update_overwritten]
  simp only
  rw [read_tab _ _ hr, Outcome.bind_ok, overwritten_from le_rfl]
  cases hx : h r with
  | some x =>
      have hsome : (h r).isSome := by
        rw [hx]
        rfl
      have hsame : Function.update (overwritten (carry n.toNat h) h r) r (carry n.toNat h r) =
          overwritten (carry n.toNat h) h r := by
        refine Function.update_eq_self_iff.2 ?_
        rw [carry_some hsome, overwritten_from le_rfl]
      rw [hsame, lastIdx, lastIdx, Nat.add_sub_cancel, if_pos (Or.inr hsome)]
      rfl
  | none =>
      have hnext : lastIdx h (r + 1) = anchor h r := by
        rw [lastIdx, Nat.add_sub_cancel, if_neg]
        rw [hx]
        exact not_or.2 ⟨by omega, Bool.false_ne_true⟩
      have hlt := anchor_lt (h := h) hpos
      obtain ⟨q, rfl⟩ : ∃ q, r = q + 1 := ⟨r - 1, by omega⟩
      rw [if_pos (by rfl), lastIdx_missing hpos (by omega), toIdx_of_nonneg (by omega) (by omega),
        toIdx_of_nonneg hn (by omega), hnext,
        show (((q + 1 : Nat) : Int) - anchor h (q + 1)).toNat = q + 1 - anchor h (q + 1) by omega,
        carry_succ hx]
      split
      · rw [Nat.add_sub_cancel, read_tab _ _ (by omega), Outcome.bind_ok, setv_tab _ _ hr,
          Outcome.mapState_ok, overwritten_above (Nat.lt_succ_self q)]
      · rw [setv_tab _ _ hr, Outcome.mapState_ok]

theorem locfCol_tab {n : Int} {rows : Nat} (hn : 0 ≤ n) (hn' : n < 2 ^ 63) (hrows : rows < 2 ^ 63) :
    locfCol rows n (tab rows h) = .ok () (tab rows (carry n.toNat h)) := by
  rcases Nat.eq_zero_or_pos rows with rfl | hpos
  · rfl
  · have hfirst : overwritten (carry n.toNat h) h 1 = h := by
      rw [← update_overwritten, overwritten_zero]
      refine Function.update_eq_self_iff.2 ?_
      rw [carry]
      split
      · rfl
      · next hnone => exact (Option.not_isSome_iff_eq_none.1 hnone).symm
    have hstart : filledTo n.toNat h rows 1 = (tab rows h, -1) := by
      rw [filledTo, hfirst, lastIdx, if_pos (.inl rfl)]
    rw [locfCol, ← hstart, forUp_eq_ok (S := filledTo n.toNat h rows) fun i hi hi' =>
      locfRow_filledTo hn hn' (by omega) (by omega) hrows, Outcome.mapState_ok, filledTo,
      Nat.add_sub_cancel' hpos, tab_overwritten]

theorem lastAbove_congr {g : Nat → Option T} (hg : ∀ i, i < r → g i = h i) :
    lastAbove g r = lastAbove h r := by
  induction r with
  | zero => rfl
  | succ r ih =>
      rw [lastAbove, lastAbove, hg r (Nat.lt_succ_self r), ih fun i hi => hg i (by omega)]

theorem carry_congr {n : Nat} {g : Nat → Option T} (hg : ∀ i, i ≤ r → g i = h i) :
    carry n g r = carry n h r := by
  rw [carry, carry, hg r le_rfl, lastAbove_congr fun i hi => hg i hi.le]
  cases hp : lastAbove h r with
  | none => rfl
  | some p => rw [Option.bind_some, Option.bind_some, hg p (lastAbove_lt hp).le]

theorem carried_tab {n rows : Nat} : carried n (tab rows h) = tab rows (carry n h) := by
  rw [carried, length_tab]
  exact tab_congr fun i hi => carry_congr fun j hj => cells_tab h (by omega)

/-- Every missing cell, and no other, is filled as far as asked. -/
theorem locf_inplace_eq {n : Int} (a : Columns (Option T)) (hn : 0 ≤ n) (hn' : n < 2 ^ 63) :
    locf_inplace n a = .ok () (a.v.map (carried n.toNat)) := by
  refine eachCol_eq_ok fun c hc => ?_
  obtain ⟨h, rfl⟩ := exists_tab hc
  rw [locfCol_tab hn hn' (a.held (List.ne_nil_of_mem hc)), carried_tab]

/-- One column of five rows, filled for one row. -/
theorem locf_inplace_eq_one :
    locf_inplace 1 (⟨5, [[none, some 1, none, none, some 2]], by decide, by decide, by decide⟩ :
      Columns (Option Int)) = .ok () [[none, some 1, some 1, none, some 2]] :=
  locf_inplace_eq _ (by decide) (by decide)

end Columns

end Ztsdb.Arr
