import Mathlib
import Ztsdb.Arr.AlignSpec

/-!
# A function of each window

`align_func` applies a function to the data in the window of each time of `y`. The search for a
window starts at the place where the one before it started, since windows can overlap. So what
lies before the start of an earlier window is never found again, whether it is in a later window
or not.
-/

namespace Ztsdb.Arr

open Ztsdb.Lib

namespace align

variable {T U : Type}

/-- `std::lower_bound` from place `ix` on, by what it finds in an ascending vector. -/
def lower_bound_from (x : List dtime) (ix : Nat) (t : dtime) : Nat := advance t ix (x.drop ix)

/-- The loop of `align_func`, for the times from place `iy` on. -/
def funcLoop (F : List T → U) (x : List dtime) (xdata : List T) (start stop : PseudoVector duration) :
    Nat → List dtime → Nat → List U → Outcome Exn (List U) Unit
  | _, [], _, ydata => .ok () ydata
  | iy, y :: ys, ix, ydata =>
    match start.get iy, stop.get iy with
    | .error e, _ => .throw e ydata
    | _, .error e => .throw e ydata
    | .ok s, .ok e =>
      let ystart := start.plus y s
      let yend := stop.plus y e
      let ix := lower_bound_from x ix ystart
      match x[ix]? with
      | none => funcLoop F x xdata start stop (iy + 1) ys ix (ydata ++ [F []])
      | some t =>
        if t.less yend then
          let first_ix := ix
          let ix := lower_bound_from x ix yend
          let ix := advance yend ix (x.drop ix)
          -- the intervals could overlap
          funcLoop F x xdata start stop (iy + 1) ys first_ix
            (ydata ++ [F ((xdata.drop first_ix).take (ix - first_ix))])
        else funcLoop F x xdata start stop (iy + 1) ys ix (ydata ++ [F []])

end align

open align

/-- `align_func(x, y, xdata, ydata, start, end)`. -/
def align_func {T U : Type} (F : List T → U) (x y : List dtime) (xdata : List T) (ydata : List U)
    (start stop : PseudoVector duration) : Outcome Exn (List U) Unit :=
  if xdata.length ≠ x.length then .throw (.outOfRange "'xdata' must have same size as 'x'") ydata
  else funcLoop F x xdata start stop 0 y 0 ydata

namespace align

variable {T U : Type} {x y : List dtime} {start stop : PseudoVector duration}

/-! ## What is found -/

/-- From place `ix` on, what is before the bound is less, and nothing else is. -/
theorem lt_lower_bound_from_iff (hx : Ascending x) {ix k : Nat} {t u : dtime} (hk : ix ≤ k)
    (hu : x[k]? = some u) : k < lower_bound_from x ix t ↔ u.less t = true := by
  obtain ⟨-, hpassed, hnext⟩ := @advance_spec x t ix
  rw [lower_bound_from]
  constructor
  · intro hlt
    exact hpassed k u hk hlt hu
  · intro hless
    by_contra hge
    have hklen := (List.getElem?_eq_some_iff.1 hu).1
    have hstop : x[advance t ix (x.drop ix)]? = some x[advance t ix (x.drop ix)] :=
      List.getElem?_eq_getElem (by omega)
    have hle := hx.le hstop hu (by omega)
    have hnot := hnext _ hstop
    rw [dtime.not_less_iff] at hnot
    rw [dtime.less_iff] at hless
    omega

theorem le_lower_bound_from (x : List dtime) (ix : Nat) (t : dtime) : ix ≤ lower_bound_from x ix t :=
  (@advance_spec x t ix).1

theorem advance_le (t : dtime) (ix : Nat) (xs : List dtime) : advance t ix xs ≤ ix + xs.length := by
  induction xs generalizing ix with
  | nil => exact le_rfl
  | cons u xs ih =>
      rw [advance, List.length_cons]
      split
      · have := ih (ix + 1)
        omega
      · omega

theorem lower_bound_from_le {ix : Nat} (t : dtime) (h : ix ≤ x.length) :
    lower_bound_from x ix t ≤ x.length := by
  have := advance_le t ix (x.drop ix)
  rw [List.length_drop] at this
  rw [lower_bound_from]
  omega

/-- The step behind the bound finds nothing more. -/
theorem lt_advance_lower_bound_iff (hx : Ascending x) {ix k : Nat} {t u : dtime} (hk : ix ≤ k)
    (hu : x[k]? = some u) :
    k < advance t (lower_bound_from x ix t) (x.drop (lower_bound_from x ix t)) ↔ u.less t = true := by
  rcases Nat.lt_or_ge k (lower_bound_from x ix t) with hlt | hge
  · have hless := (lt_lower_bound_from_iff hx hk hu).1 hlt
    have hle := (@advance_spec x t (lower_bound_from x ix t)).1
    exact ⟨fun _ => hless, fun _ => by omega⟩
  · exact lt_lower_bound_from_iff hx hge hu

/-- The data of a run of places is the data of the times with a property, when these are the
times at those places. -/
theorem map_snd_filter_zip {xdata : List T} {P : dtime → Bool} {a b : Nat}
    (hlen : xdata.length = x.length)
    (h : ∀ k t, x[k]? = some t → (P t = true ↔ a ≤ k ∧ k < b)) :
    ((x.zip xdata).filter fun p => P p.1).map Prod.snd = (xdata.drop a).take (b - a) := by
  induction x generalizing xdata a b with
  | nil =>
      rw [List.eq_nil_of_length_eq_zero hlen]
      simp
  | cons t x ih =>
      obtain ⟨d, xdata, rfl⟩ := List.exists_cons_of_ne_nil (List.ne_nil_of_length_eq_add_one hlen)
      have hlen' : xdata.length = x.length := Nat.succ.inj hlen
      have hhead := h 0 t rfl
      rw [List.zip_cons_cons, List.filter_cons]
      cases a with
      | zero =>
          cases b with
          | zero =>
              have hrest := @ih xdata 0 0 hlen' fun k u hu => by
                have := h (k + 1) u hu
                exact ⟨fun hP => absurd (this.1 hP).2 (by omega), fun hk => absurd hk.2 (by omega)⟩
              rw [if_neg fun hP => absurd (hhead.1 hP).2 (by omega), hrest]
              rfl
          | succ b =>
              have hrest := @ih xdata 0 b hlen' fun k u hu => by
                have := h (k + 1) u hu
                exact ⟨fun hP => ⟨Nat.zero_le k, by have := this.1 hP; omega⟩,
                  fun hk => this.2 ⟨Nat.zero_le _, by omega⟩⟩
              rw [if_pos (hhead.2 ⟨le_rfl, Nat.succ_pos b⟩), List.map_cons, hrest]
              rfl
      | succ a =>
          have hrest := @ih xdata a (b - 1) hlen' fun k u hu => by
            have := h (k + 1) u hu
            exact ⟨fun hP => by have := this.1 hP; omega, fun hk => this.2 (by omega)⟩
          rw [if_neg fun hP => absurd (hhead.1 hP).1 (by omega), hrest, List.drop_succ_cons]
          congr 1
          omega

/-- `l` is the data at a run of places of `x`: those of the times with a property. -/
def Picks (x : List dtime) (xdata : List T) (P : dtime → Prop) (l : List T) : Prop :=
  ∃ a b, l = (xdata.drop a).take (b - a) ∧ ∀ k t, x[k]? = some t → (P t ↔ a ≤ k ∧ k < b)

/-- A time is in front of the start of one of the first `i` windows. -/
def LeftBehind (y : List dtime) (start : PseudoVector duration) (i : Nat) (t : dtime) : Prop :=
  ∃ j u s, j < i ∧ y[j]? = some u ∧ start.get j = .ok s ∧ t.less (start.plus u s) = true

theorem leftBehind_succ {i : Nat} {u t : dtime} {s : duration} (hu : y[i]? = some u)
    (hs : start.get i = .ok s) :
    LeftBehind y start (i + 1) t ↔ LeftBehind y start i t ∨ t.less (start.plus u s) = true := by
  constructor
  · intro h
    obtain ⟨j, u', s', hj, hu', hs', hless⟩ := h
    rcases Nat.lt_or_eq_of_le (Nat.lt_succ_iff.1 hj) with hlt | rfl
    · exact .inl ⟨j, u', s', hlt, hu', hs', hless⟩
    · rw [hu] at hu'
      rw [hs] at hs'
      cases hu'
      cases hs'
      exact .inr hless
  · intro h
    rcases h with ⟨j, u', s', hj, hu', hs', hless⟩ | hless
    · exact ⟨j, u', s', by omega, hu', hs', hless⟩
    · exact ⟨i, u, s, Nat.lt_succ_self i, hu, hs, hless⟩

/-- What the function is applied to for the time at place `i`. -/
def Found (y : List dtime) (start stop : PseudoVector duration) (i : Nat) (t : dtime) : Prop :=
  ¬ LeftBehind y start (i + 1) t ∧
    ∃ u e, y[i]? = some u ∧ stop.get i = .ok e ∧ t.less (stop.plus u e) = true

theorem found_at_iff {i : Nat} {u t : dtime} {e : duration} (hu : y[i]? = some u)
    (he : stop.get i = .ok e) :
    Found y start stop i t ↔
      ¬ LeftBehind y start (i + 1) t ∧ t.less (stop.plus u e) = true := by
  rw [Found]
  refine and_congr_right fun _ => ⟨fun h => ?_, fun h => ⟨u, e, hu, he, h⟩⟩
  obtain ⟨u', e', hu', he', hless⟩ := h
  rw [hu] at hu'
  rw [he] at he'
  cases hu'
  cases he'
  exact hless

/-- Nothing is found when the time at the cursor is past the window. -/
theorem picks_nil {xdata : List T} {P : dtime → Prop} {jx : Nat} {z : dtime} (hx : Ascending x)
    (hP : ∀ k t, x[k]? = some t → (P t ↔ jx ≤ k ∧ t.less z = true))
    (hout : ∀ t, x[jx]? = some t → t.less z = false) : Picks x xdata P [] := by
  refine ⟨jx, jx, by rw [Nat.sub_self]; rfl, fun k t ht => ?_⟩
  rw [hP k t ht]
  refine ⟨fun h => ?_, fun h => absurd h.2 (by omega)⟩
  obtain ⟨hk, hless⟩ := h
  have hlt := Nat.lt_of_le_of_lt hk (List.getElem?_eq_some_iff.1 ht).1
  have hj : x[jx]? = some x[jx] := List.getElem?_eq_getElem hlt
  have hle := hx.le hj ht hk
  have hge := hout _ hj
  rw [dtime.less_iff] at hless
  rw [dtime.not_less_iff] at hge
  omega

/-- There is an element for each place of `y`. -/
def Given (v : PseudoVector duration) (n : Nat) : Prop :=
  ∀ i, i < n → ∃ d, v.get i = .ok d

/-- The loop from place `iy` on: the cursor has passed just what was left behind. -/
theorem funcLoop_eq (F : List T → U) {xdata : List T} {ys : List dtime} {iy ix : Nat} {ydata : List U}
    (hx : Ascending x) (hstart : Given start y.length)
    (hstop : Given stop y.length) (hys : y.drop iy = ys)
    (hix : ∀ k t, x[k]? = some t → (k < ix ↔ LeftBehind y start iy t)) :
    ∃ ls : List (List T), funcLoop F x xdata start stop iy ys ix ydata = .ok () (ydata ++ ls.map F) ∧
      ls.length = ys.length ∧
      ∀ i l, ls[i]? = some l → Picks x xdata (Found y start stop (iy + i)) l := by
  induction ys generalizing iy ix ydata with
  | nil =>
      refine ⟨[], ?_, rfl, fun i l hl => by cases hl⟩
      rw [funcLoop, List.map_nil, List.append_nil]
  | cons u ys ih =>
      obtain ⟨hu, hdrop⟩ := drop_eq_cons hys
      have hiy := (List.getElem?_eq_some_iff.1 hu).1
      obtain ⟨s, hs⟩ := hstart iy hiy
      obtain ⟨e, he⟩ := hstop iy hiy
      rw [funcLoop, hs, he]
      simp only
      -- the cursor has passed what the start of this window leaves behind, too
      have hnext : ∀ k t, x[k]? = some t →
          (k < lower_bound_from x ix (start.plus u s) ↔ LeftBehind y start (iy + 1) t) := by
        intro k t ht
        rw [leftBehind_succ hu hs, ← hix k t ht]
        rcases Nat.lt_or_ge k ix with hlt | hge
        · have hle := le_lower_bound_from x ix (start.plus u s)
          exact ⟨fun _ => .inl hlt, fun _ => by omega⟩
        · rw [lt_lower_bound_from_iff hx hge ht]
          exact ⟨.inr, fun h => h.resolve_left (by omega)⟩
      generalize lower_bound_from x ix (start.plus u s) = jx at hnext
      have hgo (l : List T) (hl : Picks x xdata (Found y start stop iy) l) :
          ∃ ls : List (List T), funcLoop F x xdata start stop (iy + 1) ys jx (ydata ++ [F l]) =
              .ok () (ydata ++ ls.map F) ∧ ls.length = (u :: ys).length ∧
            ∀ i l, ls[i]? = some l → Picks x xdata (Found y start stop (iy + i)) l := by
        obtain ⟨ls, hrun, hcount, hall⟩ := @ih (iy + 1) jx (ydata ++ [F l]) hdrop hnext
        refine ⟨l :: ls, by rw [hrun, List.append_assoc]; rfl, by rw [List.length_cons, hcount]; rfl, ?_⟩
        intro i l' hl'
        cases i with
        | zero =>
            cases hl'
            exact hl
        | succ i =>
            have := hall i l' hl'
            rwa [Nat.add_assoc, Nat.add_comm 1] at this
      have hfound (k : Nat) (t : dtime) (ht : x[k]? = some t) :
          Found y start stop iy t ↔ jx ≤ k ∧ t.less (stop.plus u e) = true := by
        rw [found_at_iff hu he, ← hnext k t ht, Nat.not_lt]
      cases ht : x[jx]? with
      | none => exact hgo [] (picks_nil hx hfound fun t ht' => by rw [ht] at ht'; cases ht')
      | some t =>
          simp only
          cases hin : t.less (stop.plus u e) with
          | false =>
              rw [if_neg Bool.false_ne_true]
              exact hgo [] (picks_nil hx hfound fun t' ht' => by rw [ht] at ht'; cases ht'; exact hin)
          | true =>
              rw [if_pos rfl]
              refine hgo _ ⟨jx, _, rfl, fun k t ht => ?_⟩
              rw [hfound k t ht]
              exact and_congr_right fun hk => (lt_advance_lower_bound_iff hx hk ht).symm

/-- What is found at the places of a run is picked out by any test that holds there. -/
theorem Picks.eq_filter {xdata : List T} {P : dtime → Prop} {Q : dtime → Bool} {l : List T}
    (hlen : xdata.length = x.length) (h : Picks x xdata P l) (hPQ : ∀ t ∈ x, P t ↔ Q t = true) :
    l = ((x.zip xdata).filter fun p => Q p.1).map Prod.snd := by
  obtain ⟨a, b, rfl, hrun⟩ := h
  refine (map_snd_filter_zip hlen fun k t ht => ?_).symm
  rw [← hPQ t (List.mem_of_getElem? ht), hrun k t ht]

/-- Of the places themselves, those of the times with the property are picked. -/
theorem Picks.mem_range_iff {P : dtime → Prop} {l : List Nat} (h : Picks x (List.range x.length) P l)
    {k : Nat} {t : dtime} (ht : x[k]? = some t) : k ∈ l ↔ P t := by
  obtain ⟨a, b, rfl, hrun⟩ := h
  have hk := (List.getElem?_eq_some_iff.1 ht).1
  rw [hrun k t ht, List.mem_iff_getElem?]
  constructor
  · intro hmem
    obtain ⟨i, hi⟩ := hmem
    obtain ⟨hlt, hget⟩ := List.getElem?_eq_some_iff.1 hi
    rw [List.getElem_take, List.getElem_drop, List.getElem_range] at hget
    rw [List.length_take] at hlt
    omega
  · intro hin
    refine ⟨k - a, ?_⟩
    rw [List.getElem?_take_of_lt (by omega), List.getElem?_drop, Nat.add_sub_cancel' hin.1,
      List.getElem?_range hk]

/-! ## The windows -/

/-- One duration for all places, or one for each of `n`. -/
structure Durations (v : PseudoVector duration) (n : Nat) : Prop where
  plus : v.plus = dtime.plus
  length : v.v.length = 1 ∨ v.v.length = n

theorem Durations.given {v : PseudoVector duration} {n : Nat} (h : Durations v n) : Given v n := by
  intro i hi
  rw [PseudoVector.get]
  by_cases hone : v.v.length = 1
  · obtain ⟨d, hd⟩ := List.length_eq_one_iff.1 hone
    exact ⟨d, by rw [hd]; rfl⟩
  · have hlt : i < v.v.length := by
      rw [h.length.resolve_left hone]
      exact hi
    exact ⟨v.v[i], by rw [if_neg hone, List.getElem?_eq_getElem hlt]⟩

/-- From the start of the window of `y` on and before its end. -/
def inWindow (y : dtime) (s e : duration) (t : dtime) : Bool :=
  decide (y.ns.toInt + s.ns.toInt ≤ t.ns.toInt ∧ t.ns.toInt < y.ns.toInt + e.ns.toInt)

/-- Place `i` of `y` and what belongs to it. -/
structure At (y : List dtime) (start stop : PseudoVector duration) (i : Nat) (u : dtime)
    (s e : duration) : Prop where
  time : y[i]? = some u
  start : start.get i = .ok s
  stop : stop.get i = .ok e

/-- Whatever the data and the function are, for each time of `y` the function is applied to the
data in its window. -/
def AppliesToWindows (x y : List dtime) (start stop : PseudoVector duration) : Prop :=
  ∀ (T U : Type) (F : List T → U) (xdata : List T) (ydata : List U), xdata.length = x.length →
    ∃ r, align_func F x y xdata ydata start stop = .ok () (ydata ++ r) ∧ r.length = y.length ∧
      ∀ i u s e, At y start stop i u s e →
        r[i]? = some (F (((x.zip xdata).filter fun p => inWindow u s e p.1).map Prod.snd))

/-- In the window of a time are the times of `x` that come before its end and from the start of
its window and of those before it on, where starts and ends are sums of 64 bits. -/
def InReach (x y : List dtime) (start stop : PseudoVector duration) : Prop :=
  ∀ i u s e, At y start stop i u s e → ∀ t ∈ x, inWindow u s e t = true ↔
    t.less (stop.plus u e) = true ∧
      ∀ j w d, j ≤ i → y[j]? = some w → start.get j = .ok d → t.less (start.plus w d) = false

theorem found_iff {i : Nat} {u t : dtime} {s e : duration} (h : At y start stop i u s e) :
    Found y start stop i t ↔ t.less (stop.plus u e) = true ∧
      ∀ j w d, j ≤ i → y[j]? = some w → start.get j = .ok d → t.less (start.plus w d) = false := by
  rw [found_at_iff h.time h.stop, And.comm]
  refine and_congr_right fun _ => ⟨fun hnot => ?_, fun hall => ?_⟩
  · intro j w d hj hw hd
    by_contra hless
    exact hnot ⟨j, w, d, Nat.lt_succ_of_le hj, hw, hd, Bool.eq_true_of_not_eq_false hless⟩
  · intro hbehind
    obtain ⟨j, w, d, hj, hw, hd, hless⟩ := hbehind
    rw [hall j w d (Nat.le_of_lt_succ hj) hw hd] at hless
    cases hless

/-- No sum of a time and its duration leaves the 64 bits. -/
def NoWrap (y : List dtime) (v : PseudoVector duration) : Prop :=
  ∀ i u d, y[i]? = some u → v.get i = .ok d → (v.plus u d).ns.toInt = u.ns.toInt + d.ns.toInt

/-- Without wraps: no time in a window is in front of the start of an earlier one. -/
theorem inReach_iff_of_noWrap (hstart : NoWrap y start) (hstop : NoWrap y stop) :
    InReach x y start stop ↔ ∀ i u s e, At y start stop i u s e → ∀ t ∈ x, inWindow u s e t = true →
      ∀ j w d, j < i → y[j]? = some w → start.get j = .ok d → w.ns.toInt + d.ns.toInt ≤ t.ns.toInt := by
  constructor
  · intro h i u s e hat t ht hin j w d hj hw hd
    have hge := ((h i u s e hat t ht).1 hin).2 j w d (Nat.le_of_lt hj) hw hd
    rwa [dtime.not_less_iff, hstart j w d hw hd] at hge
  · intro h i u s e hat t ht
    constructor
    · intro hin
      have hbounds := of_decide_eq_true hin
      refine ⟨?_, fun j w d hj hw hd => ?_⟩
      · rw [dtime.less_iff, hstop i u e hat.time hat.stop]
        exact hbounds.2
      · rw [dtime.not_less_iff, hstart j w d hw hd]
        rcases Nat.lt_or_eq_of_le hj with hlt | rfl
        · exact h i u s e hat t ht hin j w d hlt hw hd
        · rw [hat.time] at hw
          rw [hat.start] at hd
          cases hw
          cases hd
          exact hbounds.1
    · intro hreach
      obtain ⟨hless, hall⟩ := hreach
      have hge := hall i u s le_rfl hat.time hat.start
      rw [dtime.less_iff, hstop i u e hat.time hat.stop] at hless
      rw [dtime.not_less_iff, hstart i u s hat.time hat.start] at hge
      exact decide_eq_true ⟨hge, hless⟩

/-- One run for all the data. -/
theorem align_func_eq {T U : Type} (F : List T → U) {xdata : List T} (ydata : List U)
    (hx : Ascending x) (hlen : xdata.length = x.length) (hstart : Given start y.length)
    (hstop : Given stop y.length) :
    ∃ ls : List (List T), align_func F x y xdata ydata start stop = .ok () (ydata ++ ls.map F) ∧
      ls.length = y.length ∧ ∀ i l, ls[i]? = some l → Picks x xdata (Found y start stop i) l := by
  obtain ⟨ls, hrun, hcount, hall⟩ := @funcLoop_eq _ _ x y start stop F xdata y 0 0 ydata hx hstart hstop rfl
    fun k t _ => ⟨fun hk => absurd hk (Nat.not_lt_zero k), fun hbehind => by
      obtain ⟨j, _, _, hj, _⟩ := hbehind
      exact absurd hj (Nat.not_lt_zero j)⟩
  refine ⟨ls, by rw [align_func, if_neg (not_not.2 hlen), hrun], hcount, fun i l hl => ?_⟩
  have := hall i l hl
  rwa [Nat.zero_add] at this

end align

/-- `align_func` applies its function to the windows exactly when the time that a window starts
at is not behind one where an earlier window starts, as far as there is data between them. -/
theorem appliesToWindows_iff {x y : List dtime} {start stop : PseudoVector duration} (hx : Ascending x)
    (hstart : Durations start y.length) (hstop : Durations stop y.length) :
    AppliesToWindows x y start stop ↔ InReach x y start stop := by
  constructor
  · intro h i u s e hat t ht
    obtain ⟨k, hk⟩ := List.mem_iff_getElem?.1 ht
    -- the data are the places, and the function is the identity
    have hlen : (List.range x.length).length = x.length := List.length_range
    obtain ⟨r, hrun, -, hr⟩ := h Nat (List Nat) id (List.range x.length) [] hlen
    obtain ⟨ls, hrun', -, hall⟩ := align_func_eq id [] hx hlen hstart.given hstop.given
    rw [hrun, List.map_id] at hrun'
    injection hrun' with _ hls
    rw [List.nil_append, List.nil_append] at hls
    subst hls
    have hpicks := hall i _ (hr i u s e hat)
    rw [← found_iff hat, ← hpicks.mem_range_iff hk, id, List.mem_map]
    constructor
    · intro hin
      refine ⟨(t, k), List.mem_filter.2 ⟨?_, hin⟩, rfl⟩
      have hklt := (List.getElem?_eq_some_iff.1 hk).1
      refine List.mem_of_getElem? (i := k) ?_
      rw [List.getElem?_zip_eq_some]
      exact ⟨hk, List.getElem?_range hklt⟩
    · intro hmem
      obtain ⟨⟨t', k'⟩, hp, rfl⟩ := hmem
      obtain ⟨hzip, hin⟩ := List.mem_filter.1 hp
      obtain ⟨j, hj⟩ := List.mem_iff_getElem?.1 hzip
      rw [List.getElem?_zip_eq_some] at hj
      obtain ⟨hj, hjk⟩ := hj
      rw [List.getElem?_range (List.getElem?_eq_some_iff.1 hj).1] at hjk
      cases hjk
      rw [hk] at hj
      cases hj
      exact hin
  · intro h T U F xdata ydata hlen
    obtain ⟨ls, hrun, hcount, hall⟩ := align_func_eq F ydata hx hlen hstart.given hstop.given
    refine ⟨ls.map F, hrun, by rw [List.length_map, hcount], fun i u s e hat => ?_⟩
    have hi : i < ls.length := by
      rw [hcount]
      exact (List.getElem?_eq_some_iff.1 hat.time).1
    have hl : ls[i]? = some ls[i] := List.getElem?_eq_getElem hi
    rw [List.getElem?_map, hl, Option.map_some,
      (hall i _ hl).eq_filter hlen fun t ht => (found_iff hat).trans (h i u s e hat t ht).symm]

/-- Two windows that overlap. -/
theorem appliesToWindows_iff_two :
    AppliesToWindows [⟨1⟩, ⟨3⟩, ⟨6⟩] [⟨4⟩, ⟨5⟩] (.ofDuration ⟨-2⟩) (.ofDuration ⟨2⟩) := by
  refine (appliesToWindows_iff (by show List.Pairwise _ _; decide) ⟨rfl, .inl rfl⟩ ⟨rfl, .inl rfl⟩).2 ?_
  have hwrap (d : duration) (hd : d = ⟨-2⟩ ∨ d = ⟨2⟩) : NoWrap [⟨4⟩, ⟨5⟩] (.ofDuration d) := by
    intro i u d' hu hd'
    cases hd'
    have hmem := List.mem_of_getElem? hu
    simp only [List.mem_cons, List.not_mem_nil, or_false] at hmem
    rcases hd with rfl | rfl <;> rcases hmem with rfl | rfl <;> rfl
  refine (inReach_iff_of_noWrap (hwrap _ (.inl rfl)) (hwrap _ (.inr rfl))).2 ?_
  intro i u s e hat t ht hin j w d hj hw hd
  cases hat.start
  cases hd
  have hbounds := of_decide_eq_true hin
  have hle : w.ns.toInt ≤ u.ns.toInt := by
    have hsorted : List.Pairwise (fun a b : dtime => a.ns.toInt ≤ b.ns.toInt) [⟨4⟩, ⟨5⟩] := by decide
    obtain ⟨hjlt, rfl⟩ := List.getElem?_eq_some_iff.1 hw
    obtain ⟨hilt, rfl⟩ := List.getElem?_eq_some_iff.1 hat.time
    exact List.pairwise_iff_getElem.1 hsorted j i hjlt hilt hj
  omega

/-- The window of the second time starts, and has data, before that of the first. -/
theorem not_appliesToWindows :
    ¬ AppliesToWindows [⟨1⟩, ⟨5⟩] [⟨5⟩, ⟨5⟩] ⟨[⟨-1⟩, ⟨-4⟩], List.cons_ne_nil _ _, dtime.plus⟩
      (.ofDuration ⟨1⟩) := by
  intro h
  obtain ⟨r, hrun, -, hr⟩ := h Nat (List Nat) id [10, 20] [] rfl
  have hrun' : align_func id [⟨1⟩, ⟨5⟩] [⟨5⟩, ⟨5⟩] [10, 20] []
      ⟨[⟨-1⟩, ⟨-4⟩], List.cons_ne_nil _ _, dtime.plus⟩ (.ofDuration ⟨1⟩) = .ok () [[20], [20]] := rfl
  rw [hrun'] at hrun
  injection hrun with _ hls
  have hsecond := hr 1 ⟨5⟩ ⟨-4⟩ ⟨1⟩ ⟨rfl, rfl, rfl⟩
  rw [← List.nil_append r, ← hls] at hsecond
  exact absurd hsecond (by decide)

end Ztsdb.Arr
