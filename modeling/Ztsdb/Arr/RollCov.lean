import Mathlib
import Ztsdb.Arr.RunningSum

/-!
# Rolling covariance

`rollcov` keeps three running sums for a pair of columns, of the rows where both have a value. The
pairs follow one another with the columns of `y` moving fastest, and each gives the next column of
the result, an array of three dimensions; in such an array the second coordinate moves fastest.
-/

namespace Ztsdb.Arr

open Ztsdb.Lib

namespace Columns

/-- The sums of `x`, of `y` and of their products. -/
structure Tallies where
  x : Tally
  y : Tally
  xy : Tally
  nbv : Nat

/-- `(sum_xy - sum_x*sum_y / nbv) / (nbv - 1)` -/
def unbiased (sum_x sum_y sum_xy : Option ℚ) (nbv : Nat) : Option ℚ :=
  nanOr (· / ·) (nanOr (· - ·) sum_xy (nanOr (· / ·) (nanOr (· * ·) sum_x sum_y) (some nbv)))
    (some (wsub nbv 1))

/-- The sums with the row's values, and without what leaves. -/
def Tallies.next (window r : Nat) (x y : Option ℚ) (t : Tallies) : Tallies :=
  let outvalue_x := t.x.ring.get r
  let outvalue_y := t.y.ring.get r
  let outvalue_xy := t.xy.ring.get r
  let t' : Tallies := if x.isSome ∧ y.isSome then
    ⟨t.x.enter r x, t.y.enter r y, t.xy.enter r (nanOr (· * ·) x y), wrap (t.nbv + 1)⟩ else t
  if window ≤ r ∧ outvalue_x.isSome ∧ outvalue_y.isSome then
    ⟨t'.x.leave outvalue_x, t'.y.leave outvalue_y, t'.xy.leave outvalue_xy, wsub t'.nbv 1⟩ else t'

/-- One row of a pair of columns: what has been pushed onto the column of the result, and the
sums. -/
def covRow (cx cy : List (Option ℚ)) (window nbvalid r : Nat) (s : List (Option ℚ) × Tallies) :
    Outcome Exn (List (Option ℚ) × Tallies) Unit :=
  (read s cx r).bind fun x s => (read s cy r).bind fun y s =>
    let t := s.2.next window r x y
    let z := if nbvalid ≤ t.nbv then unbiased t.x.sum t.y.sum t.xy.sum t.nbv else none
    .ok () (s.1 ++ [z], t)

/-- The three rings. -/
abbrev Rings := RingBuffer (Option ℚ) × RingBuffer (Option ℚ) × RingBuffer (Option ℚ)

/-- The column of a pair. -/
def covCol (window nbvalid nrows : Nat) (p : List (Option ℚ) × List (Option ℚ)) (g : Rings) :
    Outcome Exn Rings (List (Option ℚ)) :=
  match forUp (covRow p.1 p.2 window nbvalid) nrows 0
      ([], ⟨⟨g.1, some 0⟩, ⟨g.2.1, some 0⟩, ⟨g.2.2, some 0⟩, 0⟩) with
  | .ok _ s => .ok s.1 (s.2.x.ring, s.2.y.ring, s.2.xy.ring)
  | .throw e s => .throw e (s.2.x.ring, s.2.y.ring, s.2.xy.ring)
  | .fault => .fault

/-- The columns of the pairs. -/
def covCols (window nbvalid nrows : Nat) : List (List (Option ℚ) × List (Option ℚ)) → Rings →
    Outcome Exn Rings (List (List (Option ℚ)))
  | [], g => .ok [] g
  | p :: ps, g => (covCol window nbvalid nrows p g).bind fun c g =>
    (covCols window nbvalid nrows ps g).bind fun cs g => .ok (c :: cs) g

/-- `for colx … for coly …` -/
def pairs (x y : Columns (Option ℚ)) : List (List (Option ℚ) × List (Option ℚ)) :=
  x.v.flatMap fun cx => y.v.map fun cy => (cx, cy)

/-- An array of three dimensions. -/
structure Cube (T : Type) where
  dim : Nat × Nat × Nat
  v : List (List T)

/-- `operator[]({r, i, j})`, without its exceptions. -/
def Cube.elt {T : Type} (z : Cube T) (r i j : Nat) : Option T :=
  if r < z.dim.1 ∧ i < z.dim.2.1 ∧ j < z.dim.2.2 then
    (z.v[i + j * z.dim.2.1]?).bind fun col => col[r]?
  else none

/-- The extent of the first dimension is set after the first column of `x`. -/
def rollcov (window nbvalid : Nat) (x y : Columns (Option ℚ)) : Outcome Exn Rings (Cube (Option ℚ)) :=
  let g : Rings := (freshRing window, freshRing window, freshRing window)
  if x.rows = y.rows then
    (covCols window nbvalid y.rows (pairs x y) g).bind fun v g =>
      .ok ⟨(if x.v = [] then 0 else y.rows, x.v.length, y.v.length), v⟩ g
  else .throw (.rangeError "invalid dimensions") g

/-! ## What it is for -/

/-- The rows where both columns have a value. -/
def both (f g : Nat → Option ℚ) (r : Nat) : Option (ℚ × ℚ) :=
  (f r).bind fun a => (g r).map fun b => (a, b)

def mean (l : List ℚ) : ℚ := l.sum / l.length

/-- The unbiased covariance. -/
def covariance (l : List (ℚ × ℚ)) : ℚ :=
  (l.map fun p => (p.1 - mean (l.map Prod.fst)) * (p.2 - mean (l.map Prod.snd))).sum / (l.length - 1)

/-- The covariance of each window that has `nbvalid` rows with both values. -/
def rolledCov (window nbvalid : Nat) (f g : Nat → Option ℚ) (r : Nat) : Option ℚ :=
  if Valid window nbvalid (both f g) r then some (covariance (inWindow window (both f g) r)) else none

/-! The covariance by sums. -/

/-- The estimator of the source, on numbers. -/
def estimate (n : Nat) (sx sy sxy : ℚ) : ℚ := (sxy - sx * sy / n) / (n - 1)

theorem sum_dev (l : List (ℚ × ℚ)) (a b : ℚ) :
    (l.map fun p => (p.1 - a) * (p.2 - b)).sum =
      (l.map fun p => p.1 * p.2).sum - b * (l.map Prod.fst).sum - a * (l.map Prod.snd).sum +
        l.length * (a * b) := by
  induction l with
  | nil => simp only [List.map_nil, List.sum_nil, List.length_nil, Nat.cast_zero]; ring
  | cons p l ih =>
      simp only [List.map_cons, List.sum_cons, List.length_cons, Nat.cast_add, Nat.cast_one, ih]
      ring

theorem covariance_eq {l : List (ℚ × ℚ)} (hl : l ≠ []) :
    covariance l = estimate l.length (l.map Prod.fst).sum (l.map Prod.snd).sum
      (l.map fun p => p.1 * p.2).sum := by
  have hn : (l.length : ℚ) ≠ 0 := by
    rw [Nat.cast_ne_zero]
    exact List.length_pos_iff.2 hl |>.ne'
  rw [covariance, sum_dev, estimate, mean, mean, List.length_map, List.length_map]
  congr 1
  field_simp
  ring

theorem unbiased_some {n : Nat} {sx sy sxy : ℚ} (hn : 1 ≤ n) (hn' : n < 2 ^ 64) :
    unbiased (some sx) (some sy) (some sxy) n = some (estimate n sx sy sxy) := by
  have hsub : ((wsub n 1 : Nat) : ℚ) = n - 1 := by
    rw [wsub_of_le hn' hn, Nat.cast_sub hn, Nat.cast_one]
  rw [unbiased, hsub]
  rfl

/-! ## The run over a pair -/

section Run

variable {ringsz window nbvalid r nrows : Nat} {f g : Nat → Option ℚ}

def lefts (f g : Nat → Option ℚ) (r : Nat) : Option ℚ := (both f g r).map Prod.fst

def rights (f g : Nat → Option ℚ) (r : Nat) : Option ℚ := (both f g r).map Prod.snd

def products (f g : Nat → Option ℚ) (r : Nat) : Option ℚ := (both f g r).map fun p => p.1 * p.2

theorem inWindow_map {T U : Type} {h : Nat → Option T} {φ : T → U} :
    inWindow window (fun r => (h r).map φ) r = (inWindow window h r).map φ := by
  rw [inWindow, inWindow, List.map_filterMap]

/-- What the three rings hold. -/
abbrev Held := (Nat → ℚ) × (Nat → ℚ) × (Nat → ℚ)

/-- What they hold after a pair. -/
def heldAfter (ringsz nrows : Nat) (u : Held) (f g : Nat → Option ℚ) : Held :=
  (ringAt ringsz u.1 (lefts f g) nrows, ringAt ringsz u.2.1 (rights f g) nrows,
    ringAt ringsz u.2.2 (products f g) nrows)

/-- The estimate from the sums of the window, each with what its ring has lost, and the count that
goes with them. -/
def covEstimate (ringsz window : Nat) (u : Held) (f g : Nat → Option ℚ) (r : Nat) : ℚ :=
  let w := inWindow window (both f g) r
  estimate (counted window (both f g) r)
    ((w.map Prod.fst).sum + off ringsz window u.1 (lefts f g) r)
    ((w.map Prod.snd).sum + off ringsz window u.2.1 (rights f g) r)
    ((w.map fun p => p.1 * p.2).sum + off ringsz window u.2.2 (products f g) r)

/-- What comes out for a row, when the rings hold `u` at first. -/
def covOut (ringsz window nbvalid : Nat) (u : Held) (f g : Nat → Option ℚ) (r : Nat) : Option ℚ :=
  if Reaches window nbvalid (both f g) r then some (covEstimate ringsz window u f g r) else none

/-- The state before row `r`. -/
structure CovBefore (ringsz window nbvalid : Nat) (u : Held) (f g : Nat → Option ℚ) (r : Nat)
    (s : List (Option ℚ) × Tallies) : Prop where
  col : s.1 = tab r (covOut ringsz window nbvalid u f g)
  x : s.2.x.Before ringsz window u.1 (lefts f g) r
  y : s.2.y.Before ringsz window u.2.1 (rights f g) r
  xy : s.2.xy.Before ringsz window u.2.2 (products f g) r
  count : CountBefore window (both f g) r s.2.nbv

/-- What a row does to the sums. -/
def Tallies.row (window r : Nat) (x y : Option ℚ) (t : Tallies) : Tallies where
  x := t.x.row window r (lefts (fun _ => x) (fun _ => y) r)
  y := t.y.row window r (rights (fun _ => x) (fun _ => y) r)
  xy := t.xy.row window r (products (fun _ => x) (fun _ => y) r)
  nbv := countRow window r (both (fun _ => x) (fun _ => y) r).isSome t.nbv

/-- What leaves is a number. -/
theorem Tallies.next_eq {x y : Option ℚ} {t : Tallies} (hx : (t.x.ring.get r).isSome)
    (hy : (t.y.ring.get r).isSome) : t.next window r x y = t.row window r x y := by
  rw [Tallies.next, Tallies.row]
  simp only [hx, hy, and_true]
  by_cases hle : window ≤ r
  · rw [if_pos hle]
    cases x <;> cases y <;> simp only [Tally.row, countRow, if_pos hle] <;> rfl
  · rw [if_neg hle]
    cases x <;> cases y <;> simp only [Tally.row, countRow, if_neg hle] <;> rfl

theorem tab_succ {T : Type} (h : Nat → T) (n : Nat) : tab (n + 1) h = tab n h ++ [h n] := by
  rw [tab, tab, List.range_succ, List.map_append, List.map_cons, List.map_nil]

/-- The output of the sums after a row. -/
theorem CovBefore.out {u : Held} {t : Tallies} {col : List (Option ℚ)}
    (h : CovBefore ringsz window nbvalid u f g (r + 1) (col, t)) (hr : r < 2 ^ 63) (hnb : 2 ≤ nbvalid)
    (hnb' : nbvalid ≤ 2 ^ 63) :
    (if nbvalid ≤ t.nbv then unbiased t.x.sum t.y.sum t.xy.sum t.nbv else none) =
      covOut ringsz window nbvalid u f g r := by
  have hreach := h.count.nbvalid_le hr hnb'
  rw [covOut]
  by_cases hle : nbvalid ≤ t.nbv
  · rw [if_pos hle, if_pos (hreach.1 hle), h.x.sum, h.y.sum, h.xy.sum,
      unbiased_some (n := t.nbv) (by omega) h.count.1, total_sub_taken, total_sub_taken, total_sub_taken,
      h.count.eq hr, covEstimate, ← inWindow_map, ← inWindow_map, ← inWindow_map]
    rfl
  · rw [if_neg hle, if_neg fun hreach' => hle (hreach.2 hreach')]

theorem covRow_step {cx cy : List (Option ℚ)} {u : Held} (hx : cx.length = nrows)
    (hy : cy.length = nrows) (hr : r < nrows) (hrows : nrows < 2 ^ 63) (hnb : 2 ≤ nbvalid)
    (hnb' : nbvalid ≤ nrows) {s : List (Option ℚ) × Tallies}
    (hs : CovBefore ringsz window nbvalid u (cells cx) (cells cy) r s) :
    ∃ s', covRow cx cy window nbvalid r s = .ok () s' ∧
      CovBefore ringsz window nbvalid u (cells cx) (cells cy) (r + 1) s' := by
  obtain ⟨col, t⟩ := s
  have hcol : col = tab r (covOut ringsz window nbvalid u (cells cx) (cells cy)) := hs.col
  have hout : ∀ c : Tally, (∃ u f, c.Before ringsz window u f r) → (c.ring.get r).isSome := by
    intro c ⟨u, f, hc⟩
    rw [hc.held]
    rfl
  have hread : ∀ c : List (Option ℚ), c.length = nrows →
      read (col, t) c r = .ok (cells c r) (col, t) := by
    intro c hc
    have := read_tab (col, t) (cells c) hr
    rwa [tab_cells hc] at this
  have hnext : CovBefore ringsz window nbvalid u (cells cx) (cells cy) (r + 1)
      (tab (r + 1) (covOut ringsz window nbvalid u (cells cx) (cells cy)),
        t.row window r (cells cx r) (cells cy r)) :=
    ⟨rfl, hs.x.row, hs.y.row, hs.xy.row, hs.count.row⟩
  refine ⟨_, ?_, hnext⟩
  rw [covRow, hread cx hx, Outcome.bind_ok, hread cy hy, Outcome.bind_ok]
  simp only
  rw [Tallies.next_eq (hout t.x ⟨_, _, hs.x⟩) (hout t.y ⟨_, _, hs.y⟩), tab_succ, ← hcol,
    ← hnext.out (by omega) hnb (by omega)]

/-- The condition on a row of a pair `p`, when it is for the pair `q` that its place in the result
is. -/
def CovRight (ringsz window nbvalid : Nat) (u : Held) (p q : List (Option ℚ) × List (Option ℚ))
    (r : Nat) : Prop :=
  (Valid window nbvalid (both (cells q.1) (cells q.2)) r ↔
      Reaches window nbvalid (both (cells p.1) (cells p.2)) r) ∧
    (Valid window nbvalid (both (cells q.1) (cells q.2)) r →
      covEstimate ringsz window u (cells p.1) (cells p.2) r =
        covariance (inWindow window (both (cells q.1) (cells q.2)) r))

instance (u : Held) (p q : List (Option ℚ) × List (Option ℚ)) :
    Decidable (CovRight ringsz window nbvalid u p q r) :=
  inferInstanceAs (Decidable ((_ ↔ _) ∧ (_ → _)))

/-- It holds when nothing is missing, the ring is as long as the window, and the pair is the one
that its place is for. -/
theorem covRight_of_full {u : Held} {p : List (Option ℚ) × List (Option ℚ)}
    (hring : ringsz = window) (hnb : 0 < nbvalid) (hw : 0 < window) (hr : r < 2 ^ 63)
    (hfull : ∀ i, i ≤ r → (both (cells p.1) (cells p.2) i).isSome) :
    CovRight ringsz window nbvalid u p p r := by
  refine ⟨reaches_full hfull, fun hv => ?_⟩
  have hoff : ∀ (v : Nat → ℚ) (φ : ℚ × ℚ → ℚ),
      off ringsz window v (fun i => (both (cells p.1) (cells p.2) i).map φ) r = 0 := by
    intro v φ
    refine off_full hring hw fun i hi => ?_
    rw [Option.isSome_map]
    exact hfull i hi
  have hne : inWindow window (both (cells p.1) (cells p.2)) r ≠ [] :=
    List.ne_nil_of_length_pos (Nat.lt_of_lt_of_le hnb hv)
  have hx : off ringsz window u.1 (lefts (cells p.1) (cells p.2)) r = 0 := hoff _ _
  have hy : off ringsz window u.2.1 (rights (cells p.1) (cells p.2)) r = 0 := hoff _ _
  have hxy : off ringsz window u.2.2 (products (cells p.1) (cells p.2)) r = 0 := hoff _ _
  rw [covEstimate, hx, hy, hxy, counted_full hfull hr, covariance_eq hne]
  simp only [add_zero]

theorem covCol_eq {u : Held} {p : List (Option ℚ) × List (Option ℚ)} (hx : p.1.length = nrows)
    (hy : p.2.length = nrows) (hrows : nrows < 2 ^ 63) (hnb : 2 ≤ nbvalid) (hnb' : nbvalid ≤ nrows)
    {t : Rings} (ht : RingHolds ringsz u.1 t.1 ∧ RingHolds ringsz u.2.1 t.2.1 ∧
      RingHolds ringsz u.2.2 t.2.2) :
    ∃ t' : Rings, covCol window nbvalid nrows p t =
        .ok (tab nrows (covOut ringsz window nbvalid u (cells p.1) (cells p.2))) t' ∧
      let u' := heldAfter ringsz nrows u (cells p.1) (cells p.2)
      RingHolds ringsz u'.1 t'.1 ∧ RingHolds ringsz u'.2.1 t'.2.1 ∧ RingHolds ringsz u'.2.2 t'.2.2 := by
  have hstart : CovBefore ringsz window nbvalid u (cells p.1) (cells p.2) 0
      ([], ⟨⟨t.1, some 0⟩, ⟨t.2.1, some 0⟩, ⟨t.2.2, some 0⟩, 0⟩) :=
    ⟨rfl, ht.1.before, ht.2.1.before, ht.2.2.before, CountBefore.zero⟩
  obtain ⟨s, hrun, hs⟩ := forUp_invariant (k := nrows) hstart fun i s _ hi hs =>
    covRow_step hx hy (by omega) hrows hnb hnb' hs
  rw [Nat.zero_add] at hs
  refine ⟨(s.2.x.ring, s.2.y.ring, s.2.xy.ring), ?_, ⟨hs.x.size, hs.x.held⟩,
    ⟨hs.y.size, hs.y.held⟩, hs.xy.size, hs.xy.held⟩
  rw [covCol, hrun, ← hs.col]

/-- The columns of the pairs. -/
def covOuts (ringsz window nbvalid nrows : Nat) :
    Held → List (List (Option ℚ) × List (Option ℚ)) → List (List (Option ℚ))
  | _, [] => []
  | u, p :: ps => tab nrows (covOut ringsz window nbvalid u (cells p.1) (cells p.2)) ::
      covOuts ringsz window nbvalid nrows (heldAfter ringsz nrows u (cells p.1) (cells p.2)) ps

theorem covCols_eq {u : Held} {ps : List (List (Option ℚ) × List (Option ℚ))}
    (hps : ∀ p ∈ ps, p.1.length = nrows ∧ p.2.length = nrows)
    (hrows : ps ≠ [] → nrows < 2 ^ 63) (hnb : 2 ≤ nbvalid) (hnb' : nbvalid ≤ nrows)
    {t : Rings} (ht : RingHolds ringsz u.1 t.1 ∧ RingHolds ringsz u.2.1 t.2.1 ∧
      RingHolds ringsz u.2.2 t.2.2) :
    ∃ t', covCols window nbvalid nrows ps t = .ok (covOuts ringsz window nbvalid nrows u ps) t' := by
  induction ps generalizing u t with
  | nil => exact ⟨t, rfl⟩
  | cons p ps ih =>
      obtain ⟨hx, hy⟩ := hps p List.mem_cons_self
      have hlt := hrows (List.cons_ne_nil p ps)
      obtain ⟨t₁, hcol, ht₁⟩ :=
        @covCol_eq ringsz window nbvalid nrows u p hx hy hlt hnb hnb' t ht
      obtain ⟨t₂, hcols⟩ := ih (fun q hq => hps q (List.mem_cons_of_mem p hq)) (fun _ => hlt) ht₁
      exact ⟨t₂, by rw [covCols, hcol, Outcome.bind_ok, hcols, Outcome.bind_ok, covOuts]⟩

theorem covOuts_eq_iff {u : Held} {ps qs : List (List (Option ℚ) × List (Option ℚ))}
    (hlen : ps.length = qs.length) :
    covOuts ringsz window nbvalid nrows u ps =
        qs.map (fun q => tab nrows (rolledCov window nbvalid (cells q.1) (cells q.2))) ↔
      Along (fun u e => ∀ r, r < nrows → CovRight ringsz window nbvalid u e.1 e.2 r)
        (fun u e => heldAfter ringsz nrows u (cells e.1.1) (cells e.1.2)) u (ps.zip qs) := by
  induction ps generalizing u qs with
  | nil =>
      rw [List.length_nil, eq_comm, List.length_eq_zero_iff] at hlen
      subst hlen
      exact iff_of_true rfl trivial
  | cons p ps ih =>
      cases qs with
      | nil => cases hlen
      | cons q qs =>
          rw [covOuts, List.map_cons, List.cons.injEq, List.zip_cons_cons, Along,
            ih (Nat.succ.inj hlen)]
          refine and_congr_left fun _ => ?_
          constructor
          · intro heq r hr
            exact ite_some_eq_iff.1 (tab_inj heq hr)
          · intro hright
            exact tab_congr fun r hr => ite_some_eq_iff.2 (hright r hr)

end Run

/-! ## The whole array -/

section Whole

variable {window nbvalid : Nat} {x y : Columns (Option ℚ)}

/-- The pairs that the columns of the result are for. -/
def wanted (x y : Columns (Option ℚ)) : List (List (Option ℚ) × List (Option ℚ)) :=
  y.v.flatMap fun cy => x.v.map fun cx => (cx, cy)

/-- The condition on the pairs, each beside the one that its place is for. -/
def CovRightAll (window nbvalid : Nat) (x y : Columns (Option ℚ)) : Prop :=
  Along (fun u e => ∀ r, r < x.rows → CovRight (ringsz window) window nbvalid u e.1 e.2 r)
    (fun u e => heldAfter (ringsz window) x.rows u (cells e.1.1) (cells e.1.2))
    ((fun _ => 0), (fun _ => 0), (fun _ => 0)) ((pairs x y).zip (wanted x y))

instance : Decidable (CovRightAll window nbvalid x y) := inferInstanceAs (Decidable (Along _ _ _ _))

/-- Every element of the result is the covariance of the two columns it is for. -/
def Covers (window nbvalid : Nat) (x y : Columns (Option ℚ)) (z : Cube (Option ℚ)) : Prop :=
  ∀ i cx j cy, x.v[i]? = some cx → y.v[j]? = some cy → ∀ r, r < x.rows →
    z.elt r i j = some (rolledCov window nbvalid (cells cx) (cells cy) r)

theorem length_pairs : (pairs x y).length = (wanted x y).length := by
  rw [pairs, wanted, List.length_flatMap, List.length_flatMap]
  simp only [List.length_map, List.map_const', List.sum_replicate, smul_eq_mul]
  exact Nat.mul_comm ..

/-- The second coordinate moves fastest. -/
theorem getElem?_wanted {xs ys : List (List (Option ℚ))} {i j : Nat} {cx cy : List (Option ℚ)}
    (hi : xs[i]? = some cx) (hj : ys[j]? = some cy) :
    (ys.flatMap fun cy => xs.map fun cx => (cx, cy))[i + j * xs.length]? = some (cx, cy) := by
  have hlt : i < xs.length := (List.getElem?_eq_some_iff.1 hi).1
  induction ys generalizing j with
  | nil => cases hj
  | cons c ys ih =>
      rw [List.flatMap_cons]
      cases j with
      | zero =>
          rw [List.getElem?_cons_zero, Option.some.injEq] at hj
          subst hj
          rw [Nat.zero_mul, Nat.add_zero, List.getElem?_append_left (by rw [List.length_map]; exact hlt),
            List.getElem?_map, hi]
          rfl
      | succ j =>
          rw [List.getElem?_cons_succ] at hj
          rw [List.getElem?_append_right (by rw [List.length_map, Nat.succ_mul]; omega), List.length_map,
            ← ih hj]
          congr 1
          rw [Nat.succ_mul]
          omega

theorem length_wanted : (wanted x y).length = y.v.length * x.v.length := by
  rw [wanted, List.length_flatMap]
  simp only [List.length_map, List.map_const', List.sum_replicate, smul_eq_mul]

theorem length_covOuts {ringsz nrows : Nat} {u : Held}
    {ps : List (List (Option ℚ) × List (Option ℚ))} :
    (covOuts ringsz window nbvalid nrows u ps).length = ps.length ∧
      ∀ c ∈ covOuts ringsz window nbvalid nrows u ps, c.length = nrows := by
  induction ps generalizing u with
  | nil => exact ⟨rfl, fun c hc => absurd hc List.not_mem_nil⟩
  | cons p ps ih =>
      rw [covOuts]
      refine ⟨congrArg Nat.succ ih.1, fun c hc => ?_⟩
      rcases List.mem_cons.1 hc with rfl | hc
      · exact length_tab _ _
      · exact ih.2 c hc

/-- The result covers the pairs when its columns are those of the pairs they are for. -/
theorem covers_iff {cs : List (List (Option ℚ))} (hlen : cs.length = (wanted x y).length)
    (hfull : ∀ c ∈ cs, c.length = x.rows) :
    Covers window nbvalid x y ⟨(if x.v = [] then 0 else x.rows, x.v.length, y.v.length), cs⟩ ↔
      cs = (wanted x y).map fun q => tab x.rows (rolledCov window nbvalid (cells q.1) (cells q.2)) := by
  constructor
  · intro hcov
    apply List.ext_getElem?
    intro k
    rcases Nat.lt_or_ge k cs.length with hk | hk
    · have hprod : k < y.v.length * x.v.length := by rw [← length_wanted, ← hlen]; exact hk
      have hn : 0 < x.v.length := by
        by_contra hzero
        rw [Nat.eq_zero_of_not_pos hzero, Nat.mul_zero] at hprod
        omega
      have hi := List.getElem?_eq_getElem (Nat.mod_lt k hn)
      have hj := List.getElem?_eq_getElem (Nat.div_lt_of_lt_mul (by rw [Nat.mul_comm]; exact hprod) :
        k / x.v.length < y.v.length)
      have hwanted := getElem?_wanted hi hj
      have hsplit : k % x.v.length + k / x.v.length * x.v.length = k := Nat.mod_add_div' k _
      rw [hsplit] at hwanted
      rw [List.getElem?_map, wanted, hwanted, List.getElem?_eq_getElem hk]
      refine congrArg some ?_
      have hclen := hfull cs[k] (List.getElem_mem hk)
      apply List.ext_getElem?
      intro r
      rcases Nat.lt_or_ge r x.rows with hr | hr
      · have helt := hcov _ _ _ _ hi hj r hr
        rw [Cube.elt, if_pos] at helt
        · simp only [hsplit, List.getElem?_eq_getElem hk, Option.bind_some] at helt
          rw [helt, getElem?_tab _ hr]
        · exact ⟨by rw [if_neg (List.ne_nil_of_length_pos hn)]; exact hr, Nat.mod_lt k hn,
            (List.getElem?_eq_some_iff.1 hj).1⟩
      · rw [List.getElem?_eq_none (by omega), List.getElem?_eq_none (by rw [length_tab]; exact hr)]
    · rw [List.getElem?_eq_none hk, List.getElem?_eq_none (by rw [List.length_map, ← hlen]; exact hk)]
  · intro hcs i cx j cy hi hj r hr
    have hil := (List.getElem?_eq_some_iff.1 hi).1
    have hjl := (List.getElem?_eq_some_iff.1 hj).1
    rw [Cube.elt, if_pos]
    · simp only
      rw [hcs, List.getElem?_map, wanted, getElem?_wanted hi hj, Option.map_some, Option.bind_some,
        getElem?_tab _ hr]
    · exact ⟨by rw [if_neg (List.ne_nil_of_length_pos (by omega))]; exact hr, hil, hjl⟩

/-- The covariances come out exactly under the condition. -/
theorem rollcov_iff (hrows : x.rows = y.rows) (hnb : 2 ≤ nbvalid) (hnb' : nbvalid ≤ window)
    (hw : window ≤ x.rows) :
    (∃ z g, rollcov window nbvalid x y = .ok z g ∧ Covers window nbvalid x y z) ↔
      CovRightAll window nbvalid x y := by
  have hps : ∀ p ∈ pairs x y, p.1.length = x.rows ∧ p.2.length = x.rows := by
    intro p hp
    obtain ⟨cx, hcx, hp⟩ := List.mem_flatMap.1 hp
    obtain ⟨cy, hcy, rfl⟩ := List.mem_map.1 hp
    exact ⟨x.full cx hcx, by rw [hrows]; exact y.full cy hcy⟩
  have hheld : pairs x y ≠ [] → x.rows < 2 ^ 63 := by
    intro hne
    refine x.held fun hnil => hne ?_
    rw [pairs, hnil, List.flatMap_nil]
  obtain ⟨g, hcols⟩ := @covCols_eq (ringsz window) window nbvalid x.rows
    ((fun _ => 0), (fun _ => 0), fun _ => 0) (pairs x y) hps hheld hnb (hnb'.trans hw)
    (freshRing window, freshRing window, freshRing window)
    ⟨ringHolds_fresh, ringHolds_fresh, ringHolds_fresh⟩
  have hrun : rollcov window nbvalid x y = .ok ⟨(if x.v = [] then 0 else x.rows, x.v.length,
      y.v.length), covOuts (ringsz window) window nbvalid x.rows
        ((fun _ => 0), (fun _ => 0), fun _ => 0) (pairs x y)⟩ g := by
    rw [rollcov, if_pos hrows, ← hrows, hcols, Outcome.bind_ok]
  have hlen := @length_covOuts window nbvalid (ringsz window) x.rows
    ((fun _ => 0), (fun _ => 0), fun _ => 0) (pairs x y)
  rw [CovRightAll, ← covOuts_eq_iff length_pairs,
    ← covers_iff (hlen.1.trans length_pairs) hlen.2, hrun]
  constructor
  · intro ⟨z, g', hz, hcov⟩
    cases hz
    exact hcov
  · intro hcov
    exact ⟨_, _, rfl, hcov⟩

end Whole

end Columns

end Ztsdb.Arr
