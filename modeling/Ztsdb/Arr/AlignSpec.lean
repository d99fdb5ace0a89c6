import Mathlib
import Ztsdb.Arr.Align

/-!
# What the alignments find

Over an ascending vector the distance to a time falls and then rises, so that the first place
where it stops falling is the closest one. And it lies no further back than the one of an
earlier time: what the cursor has left behind is before the window, or further away than the
time the cursor is at.
-/

namespace Ztsdb.Arr

open Ztsdb.Lib

@[simp] theorem dtime.less_iff {a b : dtime} : a.less b = true ↔ a.ns.toInt < b.ns.toInt :=
  decide_eq_true_iff

@[simp] theorem dtime.not_less_iff {a b : dtime} : a.less b = false ↔ b.ns.toInt ≤ a.ns.toInt := by
  rw [dtime.less, decide_eq_false_iff_not, Int.not_lt]

theorem bmod_of_fits {n : Int} (h : -2 ^ 63 ≤ n) (h' : n < 2 ^ 63) : n.bmod (2 ^ 64) = n :=
  Int.bmod_eq_of_le (by omega) (by omega)

/-- A sum that fits is the sum. -/
theorem dtime.toInt_plus {t : dtime} {u : duration} (h : -2 ^ 63 ≤ t.ns.toInt + u.ns.toInt)
    (h' : t.ns.toInt + u.ns.toInt < 2 ^ 63) : (t.plus u).ns.toInt = t.ns.toInt + u.ns.toInt := by
  rw [plus, Int64.toInt_add, bmod_of_fits h h']

/-- The distance of two times whose difference, and its opposite, fit. -/
theorem dtime.toInt_abs_minus {t u : dtime} (h : -2 ^ 63 < t.ns.toInt - u.ns.toInt)
    (h' : t.ns.toInt - u.ns.toInt < 2 ^ 63) :
    (t.minus u).abs.ns.toInt = (t.ns.toInt - u.ns.toInt).natAbs := by
  have hminus : (t.ns - u.ns).toInt = t.ns.toInt - u.ns.toInt := by
    rw [Int64.toInt_sub, bmod_of_fits (by omega) h']
  have hzero : (0 : Int64).toInt = 0 := rfl
  rw [minus, duration.abs, duration.less]
  simp only [hminus, hzero, decide_eq_true_eq]
  split
  · rw [Int64.toInt_neg, hminus, bmod_of_fits (by omega) (by omega)]
    omega
  · rw [hminus]
    omega

theorem dtime.closer_iff {t u y : dtime} (ht : -2 ^ 63 < t.ns.toInt - y.ns.toInt)
    (ht' : t.ns.toInt - y.ns.toInt < 2 ^ 63) (hu : -2 ^ 63 < u.ns.toInt - y.ns.toInt)
    (hu' : u.ns.toInt - y.ns.toInt < 2 ^ 63) :
    (u.minus y).abs.less (t.minus y).abs = true ↔
      (u.ns.toInt - y.ns.toInt).natAbs < (t.ns.toInt - y.ns.toInt).natAbs := by
  rw [duration.less, decide_eq_true_eq, toInt_abs_minus ht ht', toInt_abs_minus hu hu']
  omega

namespace align

/-- Strictly ascending. -/
def Ascending (x : List dtime) : Prop := x.Pairwise fun a b => a.less b = true

theorem Ascending.lt {x : List dtime} (h : Ascending x) {j k : Nat} {t u : dtime} (ht : x[j]? = some t)
    (hu : x[k]? = some u) (hjk : j < k) : t.ns.toInt < u.ns.toInt := by
  obtain ⟨hj, rfl⟩ := List.getElem?_eq_some_iff.1 ht
  obtain ⟨hk, rfl⟩ := List.getElem?_eq_some_iff.1 hu
  exact dtime.less_iff.1 (List.pairwise_iff_getElem.1 h j k hj hk hjk)

theorem Ascending.le {x : List dtime} (h : Ascending x) {j k : Nat} {t u : dtime} (ht : x[j]? = some t)
    (hu : x[k]? = some u) (hjk : j ≤ k) : t.ns.toInt ≤ u.ns.toInt := by
  rcases Nat.lt_or_eq_of_le hjk with hlt | rfl
  · exact le_of_lt (h.lt ht hu hlt)
  · rw [ht] at hu
    cases hu
    exact le_rfl

theorem drop_eq_cons {x xs : List dtime} {ix : Nat} {t : dtime} (h : x.drop ix = t :: xs) :
    x[ix]? = some t ∧ x.drop (ix + 1) = xs := by
  have hget := congrArg (·[0]?) h
  have hdrop := congrArg (List.drop 1) h
  simp only [List.getElem?_drop, Nat.add_zero, List.getElem?_cons_zero] at hget
  rw [List.drop_drop] at hdrop
  exact ⟨hget, hdrop⟩

/-- What is passed lies before the window, and what comes next does not. -/
theorem advance_spec {x : List dtime} {ystart : dtime} {ix : Nat} :
    ix ≤ advance ystart ix (x.drop ix) ∧
      (∀ k t, ix ≤ k → k < advance ystart ix (x.drop ix) → x[k]? = some t → t.less ystart = true) ∧
      ∀ t, x[advance ystart ix (x.drop ix)]? = some t → t.less ystart = false := by
  generalize hxs : x.drop ix = xs
  induction xs generalizing ix with
  | nil =>
      rw [advance]
      refine ⟨le_rfl, fun k t hk hk' => absurd hk' (by omega), fun t ht => ?_⟩
      rw [List.getElem?_eq_none (List.drop_eq_nil_iff.1 hxs)] at ht
      cases ht
  | cons u xs ih =>
      obtain ⟨hu, hdrop⟩ := drop_eq_cons hxs
      rw [advance]
      split
      next hlt =>
        obtain ⟨hle, hpassed, hnext⟩ := ih hdrop
        refine ⟨by omega, fun k t hk hk' ht => ?_, hnext⟩
        rcases Nat.lt_or_eq_of_le hk with hk | rfl
        · exact hpassed k t hk hk' ht
        · rw [hu] at ht
          cases ht
          exact hlt
      next hge =>
        refine ⟨le_rfl, fun k t hk hk' => absurd hk' (by omega), fun t ht => ?_⟩
        rw [hu] at ht
        cases ht
        simpa using hge

/-- Each place that is passed is further away than the next, and the last one is not. -/
theorem nearest_spec {x : List dtime} {y yend : dtime} {ix : Nat} (hix : ix < x.length) :
    ix ≤ nearest y yend ix (x.drop ix) ∧ nearest y yend ix (x.drop ix) < x.length ∧
      (∀ k t u, ix ≤ k → k < nearest y yend ix (x.drop ix) → x[k]? = some t → x[k + 1]? = some u →
        yend.less u = false ∧ (u.minus y).abs.less (t.minus y).abs = true) ∧
      ∀ t u, x[nearest y yend ix (x.drop ix)]? = some t →
        x[nearest y yend ix (x.drop ix) + 1]? = some u →
        yend.less u = true ∨ (u.minus y).abs.less (t.minus y).abs = false := by
  generalize hxs : x.drop ix = xs
  induction xs generalizing ix with
  | nil => exact absurd (List.drop_eq_nil_iff.1 hxs) (by omega)
  | cons t xs ih =>
      obtain ⟨ht, hdrop⟩ := drop_eq_cons hxs
      cases xs with
      | nil =>
          rw [nearest]
          refine ⟨le_rfl, hix, fun k t u hk hk' => absurd hk' (by omega), fun t' u _ hu => ?_⟩
          rw [List.getElem?_eq_none (List.drop_eq_nil_iff.1 hdrop)] at hu
          cases hu
          exact nofun
      | cons u xs =>
          obtain ⟨hu, -⟩ := drop_eq_cons hdrop
          rw [nearest]
          split
          next hgo =>
            rw [Bool.and_eq_true, Bool.not_eq_true'] at hgo
            obtain ⟨hle, hlt, hpassed, hlast⟩ := ih (List.getElem?_eq_some_iff.1 hu).1 hdrop
            refine ⟨by omega, hlt, fun k t' u' hk hk' ht' hu' => ?_, hlast⟩
            rcases Nat.lt_or_eq_of_le hk with hk | rfl
            · exact hpassed k t' u' hk hk' ht' hu'
            · rw [ht] at ht'
              rw [hu] at hu'
              cases ht'
              cases hu'
              exact hgo
          next hstay =>
            refine ⟨le_rfl, hix, fun k t u hk hk' => absurd hk' (by omega), fun t' u' ht' hu' => ?_⟩
            rw [ht] at ht'
            rw [hu] at hu'
            cases ht'
            cases hu'
            simpa [Bool.and_eq_true, imp_iff_not_or] using hstay

/-! ## The closest one -/

/-- The window and the time are given as numbers. What is before place `ix` is before the window,
or further away than the time there, which is not past the window. -/
def Behind (x : List dtime) (lo hi t : Int) (ix : Nat) : Prop :=
  ∀ k u, k < ix → x[k]? = some u → u.ns.toInt < lo ∨ ∃ w, x[ix]? = some w ∧ w.ns.toInt ≤ hi ∧
    (w.ns.toInt - t).natAbs < (u.ns.toInt - t).natAbs

/-- A later window leaves behind what an earlier one did. -/
theorem Behind.later {x : List dtime} {s e t t' : Int} {ix : Nat} (hx : Ascending x)
    (h : Behind x (t + s) (t + e) t ix) (ht : t ≤ t') : Behind x (t' + s) (t' + e) t' ix := by
  intro k u hk hu
  rcases h k u hk hu with hlt | ⟨w, hw, hhi, hcloser⟩
  · exact .inl (by omega)
  · have huw := hx.lt hu hw hk
    exact .inr ⟨w, hw, by omega, by omega⟩

theorem Behind.advance {x : List dtime} {ystart : dtime} {lo hi t : Int} {ix : Nat} (hx : Ascending x)
    (hlo : ystart.ns.toInt = lo) (h : Behind x lo hi t ix) :
    Behind x lo hi t (advance ystart ix (x.drop ix)) := by
  obtain ⟨hle, hpassed, -⟩ := @advance_spec x ystart ix
  intro k u hk hu
  rcases Nat.lt_or_ge k ix with hkx | hkx
  · rcases h k u hkx hu with hlt | ⟨w, hw, hhi, hcloser⟩
    · exact .inl hlt
    · rcases Nat.lt_or_eq_of_le hle with hlt | heq
      · have hwlo := dtime.less_iff.1 (hpassed ix w le_rfl hlt hw)
        have huw := hx.lt hu hw hkx
        exact .inl (by omega)
      · rw [← heq]
        exact .inr ⟨w, hw, hhi, hcloser⟩
  · have hulo := dtime.less_iff.1 (hpassed k u hkx hk hu)
    exact .inl (by omega)

/-- Place `j` of `x` is in the window from `lo` to `hi`. What else is there is further away from
`t`, or as far away and later. -/
def Closest (x : List dtime) (lo hi t : Int) (j : Nat) : Prop :=
  ∃ u, x[j]? = some u ∧ lo ≤ u.ns.toInt ∧ u.ns.toInt ≤ hi ∧
    ∀ k w, x[k]? = some w → lo ≤ w.ns.toInt → w.ns.toInt ≤ hi →
      (u.ns.toInt - t).natAbs < (w.ns.toInt - t).natAbs ∨
        (u.ns.toInt - t).natAbs = (w.ns.toInt - t).natAbs ∧ j ≤ k

/-- The window of a time, and its distances, fit into 64 bits. -/
def Fits (s e : duration) (y : dtime) : Prop :=
  -2 ^ 63 < s.ns.toInt ∧ -2 ^ 63 ≤ y.ns.toInt + s.ns.toInt ∧ y.ns.toInt + s.ns.toInt < 2 ^ 63 ∧
    -2 ^ 63 ≤ y.ns.toInt + e.ns.toInt ∧ y.ns.toInt + e.ns.toInt < 2 ^ 63

/-- From a time in the window, the search ends at the closest one. -/
theorem nearest_closest {x : List dtime} {s e : duration} {y t : dtime} {ix : Nat} (hx : Ascending x)
    (hfit : Fits s e y) (ht : x[ix]? = some t) (hlo : y.ns.toInt + s.ns.toInt ≤ t.ns.toInt)
    (hhi : t.ns.toInt ≤ y.ns.toInt + e.ns.toInt)
    (h : Behind x (y.ns.toInt + s.ns.toInt) (y.ns.toInt + e.ns.toInt) y.ns.toInt ix) :
    Closest x (y.ns.toInt + s.ns.toInt) (y.ns.toInt + e.ns.toInt) y.ns.toInt
        (nearest y (y.plus e) ix (x.drop ix)) ∧
      Behind x (y.ns.toInt + s.ns.toInt) (y.ns.toInt + e.ns.toInt) y.ns.toInt
        (nearest y (y.plus e) ix (x.drop ix)) := by
  obtain ⟨hs, hfs, hfs', hfe, hfe'⟩ := hfit
  have hyend : (y.plus e).ns.toInt = y.ns.toInt + e.ns.toInt := dtime.toInt_plus hfe hfe'
  have he := e.ns.toInt_lt
  obtain ⟨hle, hlt, hpassed, hlast⟩ := @nearest_spec x y (y.plus e) ix (List.getElem?_eq_some_iff.1 ht).1
  generalize hjx : nearest y (y.plus e) ix (x.drop ix) = jx at hle hlt hpassed hlast
  -- up to the last place, each time is in the window and closer than the one before
  have hwalk : ∀ j, ix ≤ j → j ≤ jx → ∃ u, x[j]? = some u ∧ y.ns.toInt + s.ns.toInt ≤ u.ns.toInt ∧
      u.ns.toInt ≤ y.ns.toInt + e.ns.toInt ∧
      Behind x (y.ns.toInt + s.ns.toInt) (y.ns.toInt + e.ns.toInt) y.ns.toInt j := by
    intro j hj
    induction j, hj using Nat.le_induction with
    | base => exact fun _ => ⟨t, ht, hlo, hhi, h⟩
    | succ j hj ih =>
        intro hjle
        obtain ⟨u, hu, hulo, huhi, hbehind⟩ := ih (by omega)
        have hw : x[j + 1]? = some x[j + 1] := List.getElem?_eq_getElem (by omega)
        obtain ⟨hin, hcloser⟩ := hpassed j u x[j + 1] hj hjle hu hw
        have huw := hx.lt hu hw (Nat.lt_succ_self j)
        rw [dtime.not_less_iff, hyend] at hin
        rw [dtime.closer_iff (by omega) (by omega) (by omega) (by omega)] at hcloser
        refine ⟨x[j + 1], hw, by omega, hin, fun k v hk hv => ?_⟩
        rcases Nat.lt_succ_iff_lt_or_eq.1 hk with hk | rfl
        · rcases hbehind k v hk hv with hbefore | ⟨u', hu', -, hfar⟩
          · exact .inl hbefore
          · rw [hu] at hu'
            cases hu'
            exact .inr ⟨x[j + 1], hw, hin, by omega⟩
        · rw [hu] at hv
          cases hv
          exact .inr ⟨x[k + 1], hw, hin, hcloser⟩
  obtain ⟨u, hu, hulo, huhi, hbehind⟩ := hwalk jx hle le_rfl
  refine ⟨⟨u, hu, hulo, huhi, fun k w hw hwlo hwhi => ?_⟩, hbehind⟩
  rcases Nat.lt_or_ge k jx with hk | hk
  · rcases hbehind k w hk hw with hbefore | ⟨u', hu', -, hfar⟩
    · exact absurd hwlo (by omega)
    · rw [hu] at hu'
      cases hu'
      exact .inl hfar
  · rcases Nat.lt_or_eq_of_le hk with hk | rfl
    · -- the distance has stopped falling, and rises from here on
      have hklen := (List.getElem?_eq_some_iff.1 hw).1
      have hv : x[jx + 1]? = some x[jx + 1] := List.getElem?_eq_getElem (by omega)
      have huv := hx.lt hu hv (Nat.lt_succ_self jx)
      have hvw := hx.le hv hw hk
      rcases hlast u x[jx + 1] hu hv with hout | hfar
      · rw [dtime.less_iff, hyend] at hout
        exact absurd hwhi (by omega)
      · rw [← Bool.not_eq_true, dtime.closer_iff (by omega) (by omega) (by omega) (by omega)] at hfar
        omega
    · rw [hu] at hw
      cases hw
      exact .inr ⟨rfl, le_rfl⟩

variable {T : Type}

/-- What belongs to a time: the data of the closest time in its window, and `nan` when there is no
time in it. -/
def Matched (x : List dtime) (xdata : List T) (s e : duration) (nan : T) (y : dtime) (d : T) : Prop :=
  (∃ j, Closest x (y.ns.toInt + s.ns.toInt) (y.ns.toInt + e.ns.toInt) y.ns.toInt j ∧ xdata[j]? = some d) ∨
    (∀ t ∈ x, ¬ (y.ns.toInt + s.ns.toInt ≤ t.ns.toInt ∧ t.ns.toInt ≤ y.ns.toInt + e.ns.toInt)) ∧ d = nan

/-- The same duration for the first `n` places. -/
def Constant (p : PseudoVector duration) (n : Nat) (d : duration) : Prop :=
  p.plus = dtime.plus ∧ ∀ i < n, p.get i = .ok d

/-- The times that are left find what belongs to them. -/
theorem closestLoop_spec {x ys : List dtime} {xdata ydata : List T} {start stop : PseudoVector duration}
    {s e : duration} {nan : T} {iy ix : Nat} (hx : Ascending x) (hlen : xdata.length = x.length)
    (hstart : Constant start (iy + ys.length) s) (hstop : Constant stop (iy + ys.length) e)
    (hys : ys.Pairwise fun a b => b.less a = false) (hfit : ∀ y ∈ ys, Fits s e y)
    (h : ∀ y ∈ ys, Behind x (y.ns.toInt + s.ns.toInt) (y.ns.toInt + e.ns.toInt) y.ns.toInt ix) :
    ∃ r, closestLoop x xdata start stop nan iy ys ix ydata = .ok () (ydata ++ r) ∧
      List.Forall₂ (Matched x xdata s e nan) ys r := by
  induction ys generalizing iy ix ydata with
  | nil => exact ⟨[], by rw [closestLoop, List.append_nil], .nil⟩
  | cons y ys ih =>
      obtain ⟨hfirst, hrest⟩ := List.pairwise_cons.1 hys
      have hfity := hfit y List.mem_cons_self
      obtain ⟨hs, hfs, hfs', hfe, hfe'⟩ := hfity
      have hystart : (start.plus y s).ns.toInt = y.ns.toInt + s.ns.toInt := by
        rw [hstart.1, dtime.toInt_plus hfs hfs']
      have hyend : (stop.plus y e).ns.toInt = y.ns.toInt + e.ns.toInt := by
        rw [hstop.1, dtime.toInt_plus hfe hfe']
      have hbehind := (h y List.mem_cons_self).advance hx hystart
      obtain ⟨-, -, hnext⟩ := @advance_spec x (start.plus y s) ix
      rw [List.length_cons] at hstart hstop
      have hlt : iy < iy + (ys.length + 1) := by omega
      rw [closestLoop, hstart.2 iy hlt, hstop.2 iy hlt]
      simp only
      generalize advance (start.plus y s) ix (x.drop ix) = jx at hbehind hnext
      have hlater {kx : Nat} (hk : Behind x (y.ns.toInt + s.ns.toInt) (y.ns.toInt + e.ns.toInt) y.ns.toInt kx) :
          ∀ y' ∈ ys, Behind x (y'.ns.toInt + s.ns.toInt) (y'.ns.toInt + e.ns.toInt) y'.ns.toInt kx :=
        fun y' hy' => hk.later hx (dtime.not_less_iff.1 (hfirst y' hy'))
      have hgo (d : T) {kx : Nat} (hd : Matched x xdata s e nan y d)
          (hk : Behind x (y.ns.toInt + s.ns.toInt) (y.ns.toInt + e.ns.toInt) y.ns.toInt kx) :
          ∃ r, closestLoop x xdata start stop nan (iy + 1) ys kx (ydata ++ [d]) = .ok () (ydata ++ r) ∧
            List.Forall₂ (Matched x xdata s e nan) (y :: ys) r := by
        have harith : iy + 1 + ys.length = iy + (ys.length + 1) := by omega
        obtain ⟨r, hr, hall⟩ := @ih (ydata ++ [d]) (iy + 1) kx (by rw [harith]; exact hstart)
          (by rw [harith]; exact hstop) hrest (fun y' hy' => hfit y' (List.mem_cons_of_mem y hy')) (hlater hk)
        exact ⟨d :: r, by rw [hr, List.append_assoc]; rfl, .cons hd hall⟩
      -- nothing is in the window when the time at the cursor is not
      have hnone (hout : ∀ t, x[jx]? = some t → y.ns.toInt + e.ns.toInt < t.ns.toInt) :
          Matched x xdata s e nan y nan := by
        refine .inr ⟨fun t ht => ?_, rfl⟩
        rintro ⟨htlo, hthi⟩
        obtain ⟨k, hk⟩ := List.mem_iff_getElem?.1 ht
        rcases Nat.lt_or_ge k jx with hkj | hkj
        · rcases hbehind k t hkj hk with hbefore | ⟨w, hw, hwhi, -⟩
          · omega
          · have := hout w hw
            omega
        · have hjlen := Nat.lt_of_le_of_lt hkj (List.getElem?_eq_some_iff.1 hk).1
          have hj : x[jx]? = some x[jx] := List.getElem?_eq_getElem hjlen
          have hjout := hout _ hj
          have hle := hx.le hj hk hkj
          omega
      cases ht : x[jx]? with
      | none => exact hgo nan (hnone fun t ht' => by rw [ht] at ht'; cases ht') hbehind
      | some t =>
          simp only
          cases hout : (stop.plus y e).less t with
          | true =>
              rw [dtime.less_iff, hyend] at hout
              rw [if_pos rfl]
              exact hgo nan (hnone fun t' ht' => by rw [ht] at ht'; cases ht'; exact hout) hbehind
          | false =>
              rw [dtime.not_less_iff, hyend] at hout
              have hlo := hnext t ht
              rw [dtime.not_less_iff, hystart] at hlo
              rw [hstop.1]
              obtain ⟨hclosest, hbehind'⟩ := nearest_closest hx ⟨hs, hfs, hfs', hfe, hfe'⟩ ht hlo hout hbehind
              generalize nearest y (y.plus e) jx (x.drop jx) = kx at hclosest hbehind'
              obtain ⟨u, hu, -⟩ := id hclosest
              have hklen := (List.getElem?_eq_some_iff.1 hu).1
              rw [← hlen] at hklen
              have hd : xdata[kx]? = some xdata[kx] := List.getElem?_eq_getElem hklen
              simp only [Bool.false_eq_true, if_false, hd]
              exact hgo _ (.inl ⟨kx, hclosest, hd⟩) hbehind'

end align

open align

/-- `align_closest` appends for each time what belongs to it, where the windows fit into the
machine's times. -/
theorem align_closest_spec {T : Type} {x y : List dtime} {xdata : List T} (ydata : List T)
    {start stop : PseudoVector duration} {s e : duration} (nan : T) (hx : Ascending x)
    (hlen : xdata.length = x.length) (hy : y.Pairwise fun a b => b.less a = false)
    (hstart : Constant start y.length s) (hstop : Constant stop y.length e)
    (hfit : ∀ t ∈ y, Fits s e t) :
    ∃ r, align_closest x y xdata ydata start stop nan = .ok () (ydata ++ r) ∧
      List.Forall₂ (Matched x xdata s e nan) y r := by
  rw [align_closest, if_neg (not_not.2 hlen)]
  exact closestLoop_spec hx hlen (by rw [Nat.zero_add]; exact hstart) (by rw [Nat.zero_add]; exact hstop) hy hfit
    fun _ _ k u hk => absurd hk (Nat.not_lt_zero k)

/-- Four times, the windows of the second and the third overlapping. -/
theorem align_closest_spec_four :
    ∃ r, align_closest [⟨1⟩, ⟨3⟩, ⟨6⟩] [⟨2⟩, ⟨4⟩, ⟨5⟩, ⟨9⟩] [10, 20, 30] [] (.ofDuration ⟨-2⟩) (.ofDuration ⟨1⟩) 0 =
        .ok () ([] ++ r) ∧
      List.Forall₂ (Matched [⟨1⟩, ⟨3⟩, ⟨6⟩] [10, 20, 30] ⟨-2⟩ ⟨1⟩ 0) [⟨2⟩, ⟨4⟩, ⟨5⟩, ⟨9⟩] r :=
  align_closest_spec [] 0 (by show List.Pairwise _ _; decide) rfl (by decide)
    ⟨rfl, fun _ _ => rfl⟩ ⟨rfl, fun _ _ => rfl⟩ (by
      simp only [List.forall_mem_cons, Fits]
      decide)

/-- The window of the last time there is ends beyond it, and wraps. -/
theorem not_align_closest :
    ¬ ∃ r, align_closest [⟨Int64.maxValue⟩] [⟨Int64.maxValue⟩] [7] [] (.ofDuration ⟨0⟩) (.ofDuration ⟨1⟩) 0 =
        .ok () ([] ++ r) ∧
      List.Forall₂ (Matched [⟨Int64.maxValue⟩] [7] ⟨0⟩ ⟨1⟩ 0) [⟨Int64.maxValue⟩] r := by
  rintro ⟨r, hr, hall⟩
  have hrun : align_closest [⟨Int64.maxValue⟩] [⟨Int64.maxValue⟩] [7] [] (.ofDuration ⟨0⟩) (.ofDuration ⟨1⟩) 0 =
      .ok () [0] := rfl
  rw [hrun] at hr
  obtain rfl : r = [0] := by
    injection hr with _ hr
    exact hr.symm
  cases hall with
  | cons hm _ =>
      rcases hm with ⟨j, -, hj⟩ | ⟨hnone, -⟩
      · cases j with
        | zero => cases hj
        | succ j => cases hj
      · exact hnone _ List.mem_cons_self (by decide)

/-! ## The two loops -/

namespace align

/-- What one loop appends against what the other does. -/
def SameAs {T : Type} (xdata : List T) (nan : T) : Option Nat → T → Prop
  | none, d => d = nan
  | some p, d => 0 < p ∧ xdata[p - 1]? = some d

variable {U V : Type}

theorem advanceIdx_eq {x xs : List dtime} {ystart : dtime} {ix : Nat}
    (h : ∃ t ∈ xs, t.less ystart = false) : advanceIdx x ystart ix xs = .ok (advance ystart ix xs) () := by
  induction xs generalizing ix with
  | nil =>
      obtain ⟨t, ht, -⟩ := h
      cases ht
  | cons u xs ih =>
      rw [advanceIdx, advance]
      split
      next hu =>
        refine ih ?_
        obtain ⟨t, ht, hge⟩ := h
        rcases List.mem_cons.1 ht with rfl | ht
        · rw [hu] at hge
          cases hge
        · exact ⟨t, ht, hge⟩
      next => rfl

/-- It returns only where it has found a time that is not before the window. -/
theorem advanceIdx_eq_ok {x xs : List dtime} {ystart : dtime} {ix jx : Nat} {u : Unit}
    (h : advanceIdx x ystart ix xs = .ok jx u) : ∃ t ∈ xs, t.less ystart = false := by
  induction xs generalizing ix with
  | nil =>
      rw [advanceIdx] at h
      split at h <;> cases h
  | cons t xs ih =>
      rw [advanceIdx] at h
      split at h
      next =>
        obtain ⟨v, hv, hge⟩ := ih h
        exact ⟨v, List.mem_cons_of_mem t hv, hge⟩
      next hge => exact ⟨t, List.mem_cons_self, by simpa using hge⟩

/-- For each of the times from place `iy` on there is a time of `x` that is not before its
window. -/
def Reaches (x : List dtime) (start : PseudoVector U) (stop : PseudoVector V) (iy : Nat) (ys : List dtime) :
    Prop :=
  ∀ i y, ys[i]? = some y → ∃ s e, start.get (iy + i) = .ok s ∧ stop.get (iy + i) = .ok e ∧
    ∃ t ∈ x, t.less (start.plus y s) = false

theorem Reaches.tail {x ys : List dtime} {start : PseudoVector U} {stop : PseudoVector V} {iy : Nat} {y : dtime}
    (h : Reaches x start stop iy (y :: ys)) : Reaches x start stop (iy + 1) ys := by
  intro i t ht
  have := h (i + 1) t ht
  rwa [show iy + (i + 1) = iy + 1 + i by omega] at this

theorem loops_same {x ys : List dtime} {start : PseudoVector U} {stop : PseudoVector V} {iy ix : Nat}
    (res : List (Option Nat)) (hx : Ascending x) (h : Reaches x start stop iy ys)
    (hix : x ≠ [] → ix < x.length) :
    ∃ r, idxLoop x start stop iy ys ix res = .ok (res ++ r) () ∧
      ∀ (T : Type) (xdata ydata : List T) (nan : T), xdata.length = x.length → ∃ l,
        closestLoop x xdata start stop nan iy ys ix ydata = .ok () (ydata ++ l) ∧
          List.Forall₂ (SameAs xdata nan) r l := by
  induction ys generalizing iy ix res with
  | nil =>
      refine ⟨[], by rw [idxLoop, List.append_nil], fun T xdata ydata nan _ => ⟨[], ?_, .nil⟩⟩
      rw [closestLoop, List.append_nil]
  | cons y ys ih =>
      obtain ⟨s, e, hs, he, t, ht, hge⟩ := h 0 y rfl
      rw [Nat.add_zero] at hs he
      have hne : x ≠ [] := List.ne_nil_of_mem ht
      have hlt := hix hne
      -- the last time is not before the window, and the cursor is not past it
      have hlast : ∃ u ∈ x.drop ix, u.less (start.plus y s) = false := by
        obtain ⟨k, hk⟩ := List.mem_iff_getElem?.1 ht
        have hklt := (List.getElem?_eq_some_iff.1 hk).1
        have hu : x[x.length - 1]? = some x[x.length - 1] := List.getElem?_eq_getElem (by omega)
        refine ⟨x[x.length - 1], ?_, ?_⟩
        · rw [List.mem_iff_getElem?]
          exact ⟨x.length - 1 - ix, by rw [List.getElem?_drop, ← hu]; congr 1; omega⟩
        · have hle := hx.le hk hu (by omega)
          rw [dtime.not_less_iff] at hge ⊢
          omega
      have hadv := @advanceIdx_eq x _ _ ix hlast
      have hjx : advance (start.plus y s) ix (x.drop ix) < x.length := by
        obtain ⟨hle, hpassed, -⟩ := @advance_spec x (start.plus y s) ix
        by_contra hge'
        obtain ⟨u, hu, huge⟩ := hlast
        obtain ⟨m, hm⟩ := List.mem_iff_getElem?.1 hu
        rw [List.getElem?_drop] at hm
        have hmlt := (List.getElem?_eq_some_iff.1 hm).1
        rw [hpassed (ix + m) u (by omega) (by omega) hm] at huge
        cases huge
      have hgo (o : Option Nat) {kx : Nat} (hk : kx < x.length)
          (ho : ∀ p, o = some p → 0 < p ∧ p ≤ x.length) :
          ∃ r, idxLoop x start stop (iy + 1) ys kx (res ++ [o]) = .ok (res ++ r) () ∧
            ∀ (T : Type) (xdata ydata : List T) (nan : T), xdata.length = x.length → ∃ l,
              closestLoop x xdata start stop nan (iy + 1) ys kx
                  (ydata ++ [o.elim nan fun p => xdata.getD (p - 1) nan]) = .ok () (ydata ++ l) ∧
                List.Forall₂ (SameAs xdata nan) r l := by
        obtain ⟨r, hr, hall⟩ := ih (res ++ [o]) h.tail fun _ => hk
        refine ⟨o :: r, by rw [hr, List.append_assoc]; rfl, fun T xdata ydata nan hlen => ?_⟩
        obtain ⟨l, hl, hsame⟩ := hall T xdata (ydata ++ [o.elim nan fun p => xdata.getD (p - 1) nan]) nan hlen
        refine ⟨_ :: l, by rw [hl, List.append_assoc]; rfl, .cons ?_ hsame⟩
        cases o with
        | none => rfl
        | some p =>
            obtain ⟨hp, hple⟩ := ho p rfl
            refine ⟨hp, ?_⟩
            have hplt : p - 1 < xdata.length := by omega
            rw [Option.elim_some, List.getD_eq_getElem?_getD, List.getElem?_eq_getElem hplt]
            rfl
      have ht' : x[advance (start.plus y s) ix (x.drop ix)]? = some x[advance (start.plus y s) ix (x.drop ix)] :=
        List.getElem?_eq_getElem hjx
      rw [idxLoop, hs, he]
      simp only [hadv, Outcome.bind_ok, ht', closestLoop, hs, he]
      split
      next => exact hgo none hjx nofun
      next =>
        obtain ⟨-, hklt, -, -⟩ := @nearest_spec x y (stop.plus y e) _ hjx
        generalize nearest y (stop.plus y e) _ _ = kx at hklt
        obtain ⟨r, hr, hall⟩ := hgo (some (kx + 1)) hklt fun p hp => by
          cases hp
          omega
        refine ⟨r, hr, fun T xdata ydata nan hlen => ?_⟩
        obtain ⟨l, hl, hsame⟩ := hall T xdata ydata nan hlen
        have hkd : kx < xdata.length := by omega
        refine ⟨l, ?_, hsame⟩
        rw [← hl, List.getElem?_eq_getElem hkd]
        simp only [Option.elim_some, Nat.add_sub_cancel, List.getD_eq_getElem?_getD,
          List.getElem?_eq_getElem hkd, Option.getD_some]

theorem idxLoop_reaches {x ys : List dtime} {start : PseudoVector U} {stop : PseudoVector V} {iy ix : Nat}
    {res r : List (Option Nat)} {u : Unit} (h : idxLoop x start stop iy ys ix res = .ok r u) :
    Reaches x start stop iy ys := by
  induction ys generalizing iy ix res with
  | nil => exact fun i y hy => by cases hy
  | cons y ys ih =>
      rw [idxLoop] at h
      split at h
      next => cases h
      next => cases h
      next s e hs he =>
        rw [Outcome.bind_eq_ok] at h
        obtain ⟨jx, _, hadv, h⟩ := h
        obtain ⟨t, ht, hge⟩ := advanceIdx_eq_ok hadv
        have hrest : Reaches x start stop (iy + 1) ys := by
          split at h
          next => exact ih h
          next =>
            split at h
            next => exact ih h
            next => exact ih h
        intro i y' hy'
        cases i with
        | zero =>
            cases hy'
            exact ⟨s, e, hs, he, t, List.mem_of_mem_drop ht, hge⟩
        | succ i =>
            have := hrest i y' hy'
            rwa [show iy + 1 + i = iy + (i + 1) by omega] at this

end align

/-- `align_idx` returns the places whose data `align_closest` appends, whatever the data is, and a
NaN where it appends one. -/
def SameMatches {U V : Type} (x y : List dtime) (start : PseudoVector U) (stop : PseudoVector V) : Prop :=
  ∃ r, align_idx x y start stop = .ok r () ∧
    ∀ (T : Type) (xdata ydata : List T) (nan : T), xdata.length = x.length → ∃ l,
      align_closest x y xdata ydata start stop nan = .ok () (ydata ++ l) ∧
        List.Forall₂ (SameAs xdata nan) r l

/-- They are the same exactly when no window starts behind the last time of `x`. -/
theorem sameMatches_iff {U V : Type} {x : List dtime} (y : List dtime) (start : PseudoVector U)
    (stop : PseudoVector V) (hx : Ascending x) :
    SameMatches x y start stop ↔ ∀ i t, y[i]? = some t → ∃ s e, start.get i = .ok s ∧ stop.get i = .ok e ∧
      ∃ u ∈ x, u.less (start.plus t s) = false := by
  have hreach : Reaches x start stop 0 y ↔ ∀ i t, y[i]? = some t → ∃ s e, start.get i = .ok s ∧
      stop.get i = .ok e ∧ ∃ u ∈ x, u.less (start.plus t s) = false := by
    simp only [Reaches, Nat.zero_add]
  rw [← hreach]
  constructor
  · rintro ⟨r, hr, -⟩
    exact idxLoop_reaches hr
  · intro h
    obtain ⟨r, hr, hall⟩ := loops_same [] hx h fun hne => List.length_pos_of_ne_nil hne
    refine ⟨r, hr, fun T xdata ydata nan hlen => ?_⟩
    obtain ⟨l, hl, hsame⟩ := hall T xdata ydata nan hlen
    exact ⟨l, by rw [align_closest, if_neg (not_not.2 hlen), hl], hsame⟩

/-- Two times, the second with an empty window. -/
theorem sameMatches_iff_two :
    SameMatches [⟨1⟩, ⟨8⟩] [⟨2⟩, ⟨5⟩] (.ofDuration ⟨-1⟩) (.ofDuration ⟨0⟩) :=
  (sameMatches_iff [⟨2⟩, ⟨5⟩] (.ofDuration ⟨-1⟩) (.ofDuration ⟨0⟩) (by show List.Pairwise _ _; decide)).2 (by
    intro i t ht
    match i, ht with
    | 0, ht =>
        cases ht
        exact ⟨⟨-1⟩, ⟨0⟩, rfl, rfl, ⟨1⟩, List.mem_cons_self, by decide⟩
    | 1, ht =>
        cases ht
        exact ⟨⟨-1⟩, ⟨0⟩, rfl, rfl, ⟨8⟩, List.mem_cons_of_mem _ List.mem_cons_self, by decide⟩)

/-- A time whose window starts behind the only time of `x`: it is read one place past its end. -/
theorem not_sameMatches : ¬ SameMatches [⟨1⟩] [⟨9⟩] (.ofDuration ⟨-1⟩) (.ofDuration ⟨0⟩) := by
  rintro ⟨r, hr, -⟩
  have hrun : align_idx [⟨1⟩] [⟨9⟩] (.ofDuration ⟨-1⟩) (.ofDuration ⟨0⟩) =
      .throw (.outOfRange "subscript out of bounds") () := rfl
  rw [hrun] at hr
  cases hr

end Ztsdb.Arr
