import Mathlib
import Ztsdb.Arr.RunningSum

/-!
# Rolling mean

`rollmean_inplace` divides the running sum of the window by the length of the window, also when
some of its values are missing, and counts one value out for each row that has left.
-/

namespace Ztsdb.Arr

open Ztsdb.Lib

namespace Columns

/-- One row: the column, the sum with its ring, and `nbv`. -/
def meanRow (window nbvalid r : Nat) (s : List (Option ℚ) × Tally × Nat) :
    Outcome Exn (List (Option ℚ) × Tally × Nat) Unit :=
  (read s s.1 r).bind fun x s =>
    let outvalue := s.2.1.ring.get r
    let t := if x.isSome then s.2.1.enter r x else s.2.1
    let nbv := if x.isSome then wrap (s.2.2 + 1) else s.2.2
    let t' := if window ≤ r ∧ outvalue.isSome then t.leave outvalue else t
    let nbv' := if window ≤ r ∧ outvalue.isSome then wsub nbv 1 else nbv
    let y := if nbvalid ≤ nbv' then nanOr (· / ·) t'.sum (some window) else none
    (setv r y s.1).mapState fun col => (col, t', nbv')

/-- One column, with the ring. -/
def meanCol (rows window nbvalid : Nat) (s : List (Option ℚ) × RingBuffer (Option ℚ)) :
    Outcome Exn (List (Option ℚ) × RingBuffer (Option ℚ)) Unit :=
  (forUp (meanRow window nbvalid) rows 0 (s.1, ⟨s.2, some 0⟩, 0)).mapState
    fun s => (s.1, s.2.1.ring)

def rollmean_inplace (window nbvalid : Nat) (a : Columns (Option ℚ)) :
    Outcome Exn (List (List (Option ℚ))) Unit :=
  (eachColWith (meanCol a.rows window nbvalid) a.v (freshRing window)).mapState Prod.fst

/-! ## What it is for -/

/-- The mean of each window that has `nbvalid` values. -/
def rolledMean (window nbvalid : Nat) (f : Nat → Option ℚ) (r : Nat) : Option ℚ :=
  if Valid window nbvalid f r then
    some ((inWindow window f r).sum / (inWindow window f r).length)
  else none

def rolledMeanCol (window nbvalid : Nat) (col : List (Option ℚ)) : List (Option ℚ) :=
  tab col.length (rolledMean window nbvalid (cells col))

section Run

variable {ringsz rows window nbvalid r : Nat} {u : Nat → ℚ} {f : Nat → Option ℚ}

/-- What comes out instead, when the ring holds `u` at first. -/
def meanOut (ringsz window nbvalid : Nat) (u : Nat → ℚ) (f : Nat → Option ℚ) (r : Nat) : Option ℚ :=
  if Reaches window nbvalid f r then
    some (((inWindow window f r).sum + off ringsz window u f r) / window)
  else none

/-- The condition on a row: the rows that have left tell as well as their values if the window is
valid, and when it is, what the ring has lost and the missing values of the window cancel. -/
def MeanRight (ringsz window nbvalid : Nat) (u : Nat → ℚ) (f : Nat → Option ℚ) (r : Nat) : Prop :=
  (Valid window nbvalid f r ↔ Reaches window nbvalid f r) ∧
    (Valid window nbvalid f r →
      ((inWindow window f r).sum + off ringsz window u f r) / window =
        (inWindow window f r).sum / (inWindow window f r).length)

instance : Decidable (MeanRight ringsz window nbvalid u f r) :=
  inferInstanceAs (Decidable ((_ ↔ _) ∧ (_ → _)))

theorem meanOut_eq_iff : meanOut ringsz window nbvalid u f r = rolledMean window nbvalid f r ↔
    MeanRight ringsz window nbvalid u f r :=
  ite_some_eq_iff

/-- It holds when nothing is missing, the ring is as long as the window, and partial windows are
not asked for. -/
theorem meanRight_of_full (hring : ringsz = window) (hnb : nbvalid = window) (hw : 0 < window)
    (hfull : ∀ i, i ≤ r → (f i).isSome) : MeanRight ringsz window nbvalid u f r := by
  have hlen : (inWindow window f r).length = r + 1 - (r + 1 - window) := length_inWindow_full hfull
  subst hnb
  refine ⟨reaches_full hfull, fun hv => ?_⟩
  rw [Valid, hlen] at hv
  rw [off_full hring hw hfull, add_zero, hlen, show r + 1 - (r + 1 - nbvalid) = nbvalid by omega]

/-- The state before row `r`. -/
structure MeanBefore (ringsz rows window nbvalid : Nat) (u : Nat → ℚ) (f : Nat → Option ℚ)
    (r : Nat) (s : List (Option ℚ) × Tally × Nat) : Prop where
  col : s.1 = tab rows (overwritten (meanOut ringsz window nbvalid u f) f r)
  tally : s.2.1.Before ringsz window u f r
  count : CountBefore window f r s.2.2

theorem meanRow_step (hr : r < rows) (hrows : rows < 2 ^ 63) (hnb : nbvalid ≤ rows)
    {s : List (Option ℚ) × Tally × Nat} (hs : MeanBefore ringsz rows window nbvalid u f r s) :
    ∃ s', meanRow window nbvalid r s = .ok () s' ∧
      MeanBefore ringsz rows window nbvalid u f (r + 1) s' := by
  obtain ⟨col, t, nbv⟩ := s
  obtain ⟨hcol, ht, hcount⟩ := hs
  simp only at hcol ht hcount
  subst hcol
  have hout : (t.ring.get r).isSome := by
    rw [ht.held]
    rfl
  have ht' := ht.row
  have hcount' := hcount.row
  have hy : (if nbvalid ≤ countRow window r (f r).isSome nbv then
      nanOr (· / ·) (t.row window r (f r)).sum (some (window : ℚ)) else none) =
        meanOut ringsz window nbvalid u f r := by
    rw [meanOut]
    refine if_congr (hcount'.nbvalid_le (by omega) (by omega)) ?_ rfl
    rw [ht'.sum, total_sub_taken]
    rfl
  refine ⟨(_, t.row window r (f r), countRow window r (f r).isSome nbv), ?_, rfl, ht', hcount'⟩
  rw [meanRow]
  simp only
  rw [read_tab _ _ hr, Outcome.bind_ok, overwritten_from le_rfl, ← update_overwritten, ← hy]
  simp only [hout, and_true]
  rw [setv_tab _ _ hr, Outcome.mapState_ok]
  rfl

theorem meanCol_eq (hrows : rows < 2 ^ 63) (hnb : nbvalid ≤ rows) {c : List (Option ℚ)}
    (hlen : c.length = rows) {g : RingBuffer (Option ℚ)} (hg : RingHolds ringsz u g) :
    ∃ g', meanCol rows window nbvalid (c, g) =
        .ok () (tab rows (meanOut ringsz window nbvalid u (cells c)), g') ∧
      RingHolds ringsz (ringAt ringsz u (cells c) rows) g' := by
  have hstart : MeanBefore ringsz rows window nbvalid u (cells c) 0 (c, ⟨g, some 0⟩, 0) :=
    ⟨by rw [overwritten_zero, tab_cells hlen], hg.before, CountBefore.zero⟩
  obtain ⟨s, hrun, hs⟩ := forUp_invariant (k := rows) hstart fun i s _ hi hs =>
    meanRow_step (by omega) hrows hnb hs
  rw [Nat.zero_add] at hs
  refine ⟨s.2.1.ring, ?_, hs.tally.size, hs.tally.held⟩
  rw [meanCol, hrun, Outcome.mapState_ok, hs.col, tab_overwritten]

end Run

/-! ## The whole array -/

section Whole

variable {window nbvalid : Nat} {a : Columns (Option ℚ)}

/-- The condition on the columns, each with what the ring holds by then: zeros at first. -/
def MeanRightAll (window nbvalid : Nat) (a : Columns (Option ℚ)) : Prop :=
  Along (fun u c => ∀ r, r < a.rows → MeanRight (ringsz window) window nbvalid u (cells c) r)
    (fun u c => ringAt (ringsz window) u (cells c) a.rows) (fun _ => 0) a.v

instance : Decidable (MeanRightAll window nbvalid a) := inferInstanceAs (Decidable (Along _ _ _ _))

theorem meanCol_eq_iff {ringsz rows : Nat} {u : Nat → ℚ} {c : List (Option ℚ)}
    (hlen : c.length = rows) :
    tab rows (meanOut ringsz window nbvalid u (cells c)) = rolledMeanCol window nbvalid c ↔
      ∀ r, r < rows → MeanRight ringsz window nbvalid u (cells c) r := by
  rw [rolledMeanCol, hlen]
  constructor
  · intro heq r hr
    exact meanOut_eq_iff.1 (tab_inj heq hr)
  · intro hright
    exact tab_congr fun r hr => meanOut_eq_iff.2 (hright r hr)

end Whole

end Columns

end Ztsdb.Arr
