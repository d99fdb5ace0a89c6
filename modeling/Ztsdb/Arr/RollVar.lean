import Mathlib
import Ztsdb.Arr.RollCov

/-!
# Rolling variance

`rollvar_inplace` keeps the sums of the values and of their squares, each with its ring, and
overwrites a cell when its value has been added. A negative estimate is taken for a rounding error.
-/

namespace Ztsdb.Arr

open Ztsdb.Lib

namespace Columns

/-- The two sums and `nbv`, with the row's value and without what leaves. -/
def varNext (window r : Nat) (x : Option ℚ) (t : Tally × Tally × Nat) : Tally × Tally × Nat :=
  let outvalue := t.1.ring.get r
  let outvalue2 := t.2.1.ring.get r
  let t' := if x.isSome then
    (t.1.enter r x, t.2.1.enter r (nanOr (· * ·) x x), wrap (t.2.2 + 1)) else t
  if window ≤ r ∧ outvalue.isSome then
    (t'.1.leave outvalue, t'.2.1.leave outvalue2, wsub t'.2.2 1) else t'

/-- `x < 0`, false for NaN. -/
def negative : Option ℚ → Bool
  | some x => x < 0
  | none => false

/-- One row. -/
def varRow (window nbvalid r : Nat) (s : List (Option ℚ) × Tally × Tally × Nat) :
    Outcome Exn (List (Option ℚ) × Tally × Tally × Nat) Unit :=
  (read s s.1 r).bind fun x s =>
    let t := varNext window r x s.2
    if nbvalid ≤ t.2.2 then
      ((setv r (unbiased t.1.sum t.1.sum t.2.1.sum t.2.2) s.1).bind fun _ col =>
        (read col col r).bind fun y col =>
          if negative y then setv r (some 0) col else .ok () col).mapState fun col => (col, t)
    else (setv r none s.1).mapState fun col => (col, t)

/-- One column, with the rings. -/
def varCol (rows window nbvalid : Nat)
    (s : List (Option ℚ) × RingBuffer (Option ℚ) × RingBuffer (Option ℚ)) :
    Outcome Exn (List (Option ℚ) × RingBuffer (Option ℚ) × RingBuffer (Option ℚ)) Unit :=
  (forUp (varRow window nbvalid) rows 0 (s.1, ⟨s.2.1, some 0⟩, ⟨s.2.2, some 0⟩, 0)).mapState
    fun s => (s.1, s.2.1.ring, s.2.2.1.ring)

def rollvar_inplace (window nbvalid : Nat) (a : Columns (Option ℚ)) :
    Outcome Exn (List (List (Option ℚ))) Unit :=
  (eachColWith (varCol a.rows window nbvalid) a.v (freshRing window, freshRing window)).mapState
    Prod.fst

/-! ## What it is for -/

/-- The covariance of a column with itself. -/
def rolledVarCol (window nbvalid : Nat) (col : List (Option ℚ)) : List (Option ℚ) :=
  tab col.length (rolledCov window nbvalid (cells col) (cells col))

section Run

variable {ringsz rows window nbvalid r : Nat} {u : (Nat → ℚ) × (Nat → ℚ)} {f : Nat → Option ℚ}

def squares (f : Nat → Option ℚ) (r : Nat) : Option ℚ := (f r).map fun x => x * x

/-- The estimate, with what the rings have lost. -/
def varEstimate (ringsz window : Nat) (u : (Nat → ℚ) × (Nat → ℚ)) (f : Nat → Option ℚ) (r : Nat) : ℚ :=
  let w := inWindow window f r
  estimate (counted window f r) (w.sum + off ringsz window u.1 f r) (w.sum + off ringsz window u.1 f r)
    ((w.map fun x => x * x).sum + off ringsz window u.2 (squares f) r)

/-- What comes out for a row, when the rings hold `u` at first. -/
def varOut (ringsz window nbvalid : Nat) (u : (Nat → ℚ) × (Nat → ℚ)) (f : Nat → Option ℚ) (r : Nat) :
    Option ℚ :=
  if Reaches window nbvalid f r then
    some (if varEstimate ringsz window u f r < 0 then 0 else varEstimate ringsz window u f r)
  else none

/-- The condition on a row. -/
def VarRight (ringsz window nbvalid : Nat) (u : (Nat → ℚ) × (Nat → ℚ)) (f : Nat → Option ℚ) (r : Nat) :
    Prop :=
  (Valid window nbvalid (both f f) r ↔ Reaches window nbvalid f r) ∧
    (Valid window nbvalid (both f f) r →
      (if varEstimate ringsz window u f r < 0 then 0 else varEstimate ringsz window u f r) =
        covariance (inWindow window (both f f) r))

instance : Decidable (VarRight ringsz window nbvalid u f r) :=
  inferInstanceAs (Decidable ((_ ↔ _) ∧ (_ → _)))

theorem varOut_eq_iff : varOut ringsz window nbvalid u f r = rolledCov window nbvalid f f r ↔
    VarRight ringsz window nbvalid u f r :=
  ite_some_eq_iff

theorem both_self : both f f r = (f r).map fun x => (x, x) := by
  rw [both]
  cases f r <;> rfl

theorem covariance_self_nonneg {l : List ℚ} (hl : l ≠ []) : 0 ≤ covariance (l.map fun x => (x, x)) := by
  rw [covariance, List.map_map, List.length_map]
  have hlen : (1 : ℚ) ≤ l.length := by
    exact_mod_cast List.length_pos_iff.2 hl
  refine div_nonneg (List.sum_nonneg ?_) (by linarith)
  intro y hy
  obtain ⟨x, -, rfl⟩ := List.mem_map.1 hy
  simp only [List.map_map, Function.comp_def]
  exact mul_self_nonneg _

/-- It holds when nothing is missing and the ring is as long as the window. -/
theorem varRight_of_full (hring : ringsz = window) (hnb : 0 < nbvalid) (hw : 0 < window)
    (hr : r < 2 ^ 63) (hfull : ∀ i, i ≤ r → (f i).isSome) :
    VarRight ringsz window nbvalid u f r := by
  have hboth : inWindow window (both f f) r = (inWindow window f r).map fun x => (x, x) := by
    rw [← inWindow_map]
    congr 1
    funext i
    exact both_self
  have hvalid : Valid window nbvalid (both f f) r ↔ Valid window nbvalid f r := by
    rw [Valid, Valid, hboth, List.length_map]
  rw [VarRight, hvalid]
  refine ⟨reaches_full hfull, fun hv => ?_⟩
  have hne : inWindow window f r ≠ [] := List.ne_nil_of_length_pos (Nat.lt_of_lt_of_le hnb hv)
  have hsq : off ringsz window u.2 (squares f) r = 0 := off_full hring hw fun i hi => by
    rw [squares, Option.isSome_map]
    exact hfull i hi
  have hest : varEstimate ringsz window u f r = covariance (inWindow window (both f f) r) := by
    rw [varEstimate, off_full hring hw hfull, hsq, counted_full hfull hr, hboth,
      covariance_eq (fun hnil => hne (List.map_eq_nil_iff.1 hnil)), List.length_map, List.map_map,
      List.map_map, List.map_map]
    simp only [add_zero, Function.comp_def, List.map_id_fun', id]
  have hnonneg := covariance_self_nonneg hne
  rw [← hboth, ← hest] at hnonneg
  rw [if_neg (not_lt.2 hnonneg), hest]

/-- The state before row `r`. -/
structure VarBefore (ringsz rows window nbvalid : Nat) (u : (Nat → ℚ) × (Nat → ℚ))
    (f : Nat → Option ℚ) (r : Nat) (s : List (Option ℚ) × Tally × Tally × Nat) : Prop where
  col : s.1 = tab rows (overwritten (varOut ringsz window nbvalid u f) f r)
  x : s.2.1.Before ringsz window u.1 f r
  x2 : s.2.2.1.Before ringsz window u.2 (squares f) r
  count : CountBefore window f r s.2.2.2

/-- What leaves is a number. -/
theorem varNext_eq {x : Option ℚ} {t : Tally × Tally × Nat} (hx : (t.1.ring.get r).isSome) :
    varNext window r x t = (t.1.row window r x, t.2.1.row window r (squares (fun _ => x) r),
      countRow window r x.isSome t.2.2) := by
  rw [varNext]
  simp only [hx, and_true]
  by_cases hle : window ≤ r
  · rw [if_pos hle]
    cases x <;> simp only [Tally.row, countRow, if_pos hle] <;> rfl
  · rw [if_neg hle]
    cases x <;> simp only [Tally.row, countRow, if_neg hle] <;> rfl

theorem varRow_step (hr : r < rows) (hrows : rows < 2 ^ 63) (hnb : 2 ≤ nbvalid)
    (hnb' : nbvalid ≤ rows) {s : List (Option ℚ) × Tally × Tally × Nat}
    (hs : VarBefore ringsz rows window nbvalid u f r s) :
    ∃ s', varRow window nbvalid r s = .ok () s' ∧
      VarBefore ringsz rows window nbvalid u f (r + 1) s' := by
  obtain ⟨col, t⟩ := s
  have hcol : col = tab rows (overwritten (varOut ringsz window nbvalid u f) f r) := hs.col
  subst hcol
  have hout : (t.1.ring.get r).isSome := by
    rw [hs.x.held]
    rfl
  have hx := hs.x.row
  have hx2 := hs.x2.row
  have hcount := hs.count.row
  have hreach : nbvalid ≤ countRow window r (f r).isSome t.2.2 ↔ Reaches window nbvalid f r :=
    hcount.nbvalid_le (by omega) (by omega)
  refine ⟨(_, t.1.row window r (f r), t.2.1.row window r (squares f r),
    countRow window r (f r).isSome t.2.2), ?_, rfl, hx, hx2, hcount⟩
  rw [varRow]
  simp only
  rw [read_tab _ _ hr, Outcome.bind_ok, overwritten_from le_rfl]
  simp only
  rw [varNext_eq hout]
  simp only
  by_cases hle : nbvalid ≤ countRow window r (f r).isSome t.2.2
  · have hest : unbiased (t.1.row window r (f r)).sum (t.1.row window r (f r)).sum
        (t.2.1.row window r (squares f r)).sum (countRow window r (f r).isSome t.2.2) =
          some (varEstimate ringsz window u f r) := by
      rw [hx.sum, hx2.sum, unbiased_some (n := countRow window r (f r).isSome t.2.2) (by omega)
        hcount.1, total_sub_taken, total_sub_taken, hcount.eq (by omega), varEstimate, ← inWindow_map]
      rfl
    have hvar : varOut ringsz window nbvalid u f r =
        some (if varEstimate ringsz window u f r < 0 then 0 else varEstimate ringsz window u f r) :=
      if_pos (hreach.1 hle)
    rw [if_pos hle, ← update_overwritten, hvar]
    change ((setv r (unbiased _ _ (t.2.1.row window r (squares f r)).sum _) _).bind _).mapState _ = _
    rw [hest, setv_tab _ _ hr, Outcome.bind_ok, read_tab _ _ hr, Outcome.bind_ok, Function.update_self,
      negative]
    by_cases hneg : varEstimate ringsz window u f r < 0
    · rw [if_pos (decide_eq_true hneg), if_pos hneg, setv_tab _ _ hr, Function.update_idem,
        Outcome.mapState_ok]
      rfl
    · rw [if_neg (by rw [decide_eq_true_eq]; exact hneg), if_neg hneg, Outcome.mapState_ok]
      rfl
  · have hvar : varOut ringsz window nbvalid u f r = none := if_neg fun h => hle (hreach.2 h)
    rw [if_neg hle, setv_tab _ _ hr, Outcome.mapState_ok, ← update_overwritten, hvar]
    rfl

theorem varCol_eq (hrows : rows < 2 ^ 63) (hnb : 2 ≤ nbvalid) (hnb' : nbvalid ≤ rows)
    {c : List (Option ℚ)} (hlen : c.length = rows)
    {t : RingBuffer (Option ℚ) × RingBuffer (Option ℚ)}
    (ht : RingHolds ringsz u.1 t.1 ∧ RingHolds ringsz u.2 t.2) :
    ∃ t', varCol rows window nbvalid (c, t) =
        .ok () (tab rows (varOut ringsz window nbvalid u (cells c)), t') ∧
      RingHolds ringsz (ringAt ringsz u.1 (cells c) rows) t'.1 ∧
        RingHolds ringsz (ringAt ringsz u.2 (squares (cells c)) rows) t'.2 := by
  have hstart : VarBefore ringsz rows window nbvalid u (cells c) 0
      (c, ⟨t.1, some 0⟩, ⟨t.2, some 0⟩, 0) :=
    ⟨by rw [overwritten_zero, tab_cells hlen], ht.1.before, ht.2.before, CountBefore.zero⟩
  obtain ⟨s, hrun, hs⟩ := forUp_invariant (k := rows) hstart fun i s _ hi hs =>
    varRow_step (by omega) hrows hnb hnb' hs
  rw [Nat.zero_add] at hs
  refine ⟨(s.2.1.ring, s.2.2.1.ring), ?_, ⟨hs.x.size, hs.x.held⟩, hs.x2.size, hs.x2.held⟩
  rw [varCol, hrun, Outcome.mapState_ok, hs.col, tab_overwritten]

end Run

/-! ## The whole array -/

section Whole

variable {window nbvalid : Nat} {x y : Columns (Option ℚ)}

/-- The condition on the columns, each with what the rings hold by then. -/
def VarRightAll (window nbvalid : Nat) (a : Columns (Option ℚ)) : Prop :=
  Along (fun u c => ∀ r, r < a.rows → VarRight (ringsz window) window nbvalid u (cells c) r)
    (fun u c => (ringAt (ringsz window) u.1 (cells c) a.rows,
      ringAt (ringsz window) u.2 (squares (cells c)) a.rows)) ((fun _ => 0), (fun _ => 0)) a.v

instance : Decidable (VarRightAll window nbvalid x) := inferInstanceAs (Decidable (Along _ _ _ _))

/-- The variances come out exactly under the condition. -/
theorem rollvar_iff (hnb : 2 ≤ nbvalid) (hnb' : nbvalid ≤ window) (hw : window ≤ x.rows) :
    rollvar_inplace window nbvalid x = .ok () (x.v.map (rolledVarCol window nbvalid)) ↔
      VarRightAll window nbvalid x := by
  have hiff := @eachColWith_iff (Option ℚ) _ _ (varCol x.rows window nbvalid)
    (rolledVarCol window nbvalid)
    (fun u t => RingHolds (ringsz window) u.1 t.1 ∧ RingHolds (ringsz window) u.2 t.2)
    (fun u c => tab x.rows (varOut (ringsz window) window nbvalid u (cells c)))
    (fun u c => (ringAt (ringsz window) u.1 (cells c) x.rows,
      ringAt (ringsz window) u.2 (squares (cells c)) x.rows)) x.v ((fun _ => 0), (fun _ => 0))
    (freshRing window, freshRing window)
    (fun c hc u t ht =>
      varCol_eq (x.held (List.ne_nil_of_mem hc)) hnb (hnb'.trans hw) (x.full c hc) ht)
    ⟨ringHolds_fresh, ringHolds_fresh⟩
  have hcol : ∀ c ∈ x.v, ∀ u,
      (∀ r, r < x.rows → VarRight (ringsz window) window nbvalid u (cells c) r) ↔
        tab x.rows (varOut (ringsz window) window nbvalid u (cells c)) =
          rolledVarCol window nbvalid c := by
    intro c hc u
    rw [rolledVarCol, x.full c hc]
    constructor
    · intro hright
      exact tab_congr fun r hr => varOut_eq_iff.2 (hright r hr)
    · intro heq r hr
      exact varOut_eq_iff.1 (tab_inj heq hr)
  rw [VarRightAll, along_congr hcol, ← hiff, rollvar_inplace]
  exact mapState_fst_eq_ok

end Whole

end Columns

end Ztsdb.Arr
