import Mathlib
import Ztsdb.Arr.Window

/-!
# Rolling minimum and maximum

`rollmin_inplace` and `rollmax_inplace` go down a column with the candidates for the minimum of
the window, each with its row. A new value drops the candidates at the back that it beats; the
candidates at the front that have left the window are dropped when the minimum is wanted.

`nbv` counts the values in the window. A value that leaves it is looked for in the column, at a
row that has been overwritten: what is counted out there is the minimum of an earlier window.
-/

namespace Ztsdb.Arr

open Ztsdb.Lib

namespace Columns

variable {T : Type}

/-- `minima` with its counters. -/
structure Deque (T : Type) where
  minima : List (T × Nat)
  front : Nat
  back : Nat
  nbv : Nat

variable (drops : T → T → Bool)

/-- `while (back > front && minima[back-1].first >= x) --back;` -/
def popBack (front : Nat) (minima : List (T × Nat)) (x : T) : Nat → Option Nat
  | 0 => some 0
  | back + 1 =>
    if front < back + 1 then
      match minima[back]? with
      | none => none
      | some m => if drops m.1 x then popBack front minima x back else some (back + 1)
    else some (back + 1)

/-- `while (minima[front].second <= upto) ++front;`, on the entries from `front` on. -/
def popFront (upto : Nat) : List (T × Nat) → Nat → Option Nat
  | [], _ => none
  | m :: ms, front => if m.2 ≤ upto then popFront upto ms (front + 1) else some front

/-- The value of row `r`, when there is one. -/
def enter (r : Nat) (x : Option T) (s : List (Option T) × Deque T) :
    Outcome Exn (List (Option T) × Deque T) Unit :=
  match x with
  | none => .ok () s
  | some x =>
    match popBack drops s.2.front s.2.minima x s.2.back with
    | none => .fault
    | some back =>
      if back < s.2.minima.length then
        .ok () (s.1, { s.2 with
          minima := s.2.minima.set back (x, r)
          back := back + 1
          nbv := wrap (s.2.nbv + 1) })
      else .fault

/-- The count without the row that leaves the window. -/
def leave (window r : Nat) (s : List (Option T) × Deque T) :
    Outcome Exn (List (Option T) × Deque T) Unit :=
  if window ≤ r then
    (read s s.1 (r - window)).bind fun y s =>
      .ok () (s.1, if y.isSome then { s.2 with nbv := wsub s.2.nbv 1 } else s.2)
  else .ok () s

/-- The output of row `r`. -/
def emit (window nbvalid r : Nat) (s : List (Option T) × Deque T) :
    Outcome Exn (List (Option T) × Deque T) Unit :=
  if nbvalid ≤ s.2.nbv then
    match if window ≤ r then popFront (r - window) (s.2.minima.drop s.2.front) s.2.front
      else some s.2.front with
    | none => .fault
    | some front =>
      match s.2.minima[front]? with
      | none => .fault
      | some m => (setv r (some m.1) s.1).mapState fun col => (col, { s.2 with front := front })
  else (setv r none s.1).mapState fun col => (col, s.2)

def rollRow (window nbvalid r : Nat) (s : List (Option T) × Deque T) :
    Outcome Exn (List (Option T) × Deque T) Unit :=
  (read s s.1 r).bind fun x s => (enter drops r x s).bind fun _ s =>
    (leave window r s).bind fun _ s => emit window nbvalid r s

/-- One column, with the array of the candidates; its counters start at zero. -/
def rollCol (rows window nbvalid : Nat) (s : List (Option T) × List (T × Nat)) :
    Outcome Exn (List (Option T) × List (T × Nat)) Unit :=
  (forUp (rollRow drops window nbvalid) rows 0 (s.1, ⟨s.2, 0, 0, 0⟩)).mapState
    fun s => (s.1, s.2.minima)

/-- Both functions, for what drops a candidate. -/
def rollBy [Zero T] (window nbvalid : Nat) (a : Columns (Option T)) :
    Outcome Exn (List (List (Option T))) Unit :=
  (eachColWith (rollCol drops a.rows window nbvalid) a.v (List.replicate a.rows (0, 0))).mapState
    Prod.fst

def rollmin_inplace [Zero T] [LinearOrder T] (window nbvalid : Nat) (a : Columns (Option T)) :
    Outcome Exn (List (List (Option T))) Unit :=
  rollBy (fun m x => x ≤ m) window nbvalid a

def rollmax_inplace [Zero T] [LinearOrder T] (window nbvalid : Nat) (a : Columns (Option T)) :
    Outcome Exn (List (List (Option T))) Unit :=
  rollBy (fun m x => m ≤ x) window nbvalid a

/-! ## What they are for -/

/-- The best of each window that has `nbvalid` values. -/
def rolled (best : List T → Option T) (window nbvalid : Nat) (h : Nat → Option T) (r : Nat) :
    Option T :=
  if Valid window nbvalid h r then best (inWindow window h r) else none

def rolledCol (best : List T → Option T) (window nbvalid : Nat) (col : List (Option T)) :
    List (Option T) :=
  tab col.length (rolled best window nbvalid (cells col))

/-- The rows above row `n` whose windows have `nbvalid` values. -/
def validAbove (window nbvalid : Nat) (h : Nat → Option T) (n : Nat) : Nat :=
  Nat.count (Valid window nbvalid h) n

/-- Counting out the valid windows in place of the values that have left tells if there are
`nbvalid` values in the window. When more are counted out than there were values, the count has
gone below zero and is beyond any `nbvalid`. -/
def Counts (window nbvalid : Nat) (h : Nat → Option T) (r : Nat) : Prop :=
  Valid window nbvalid h r ↔
    present h (r + 1) < validAbove window nbvalid h (r + 1 - window) ∨
      nbvalid + validAbove window nbvalid h (r + 1 - window) ≤ present h (r + 1)

instance (window nbvalid : Nat) (h : Nat → Option T) (r : Nat) :
    Decidable (Counts window nbvalid h r) :=
  inferInstanceAs (Decidable (Valid window nbvalid h r ↔ _ ∨ _))

/-! ## The candidates -/

/-- What the choice of the best needs: an order, in which it is the first, and that a candidate
is dropped for one that is not behind it. -/
structure Picks (drops : T → T → Bool) (le : T → T → Prop) (best : List T → Option T) : Prop where
  drops_iff : ∀ a b, drops a b = true ↔ le b a
  total : ∀ a b, le a b ∨ le b a
  trans : ∀ a b c, le a b → le b c → le a c
  eq_some : ∀ l x, x ∈ l → (∀ y ∈ l, le x y) → best l = some x
  isSome : ∀ l, l ≠ [] → (best l).isSome

section Run

variable {drops} {le : T → T → Prop} {best : List T → Option T} {h : Nat → Option T}
  {m : Nat → T × Nat} {rows window nbvalid r front back : Nat} {x : T}

/-- What is dropped at the back, and the candidate that stays there. -/
theorem popBack_tab (hback : back ≤ rows) (hfront : front ≤ back) :
    ∃ b, popBack drops front (tab rows m) x back = some b ∧ front ≤ b ∧ b ≤ back ∧
      (∀ i, b ≤ i → i < back → drops (m i).1 x = true) ∧
      (front < b → drops (m (b - 1)).1 x = false) := by
  induction back with
  | zero => exact ⟨0, rfl, by omega, le_rfl, fun i _ hi => absurd hi (by omega), fun hlt => by omega⟩
  | succ back ih =>
      rw [popBack, getElem?_tab m (by omega)]
      by_cases hlt : front < back + 1
      · rw [if_pos hlt]
        cases hd : drops (m back).1 x with
        | true =>
            simp only [hd, if_true]
            obtain ⟨b, hb, hfb, hbb, hdrop, hkeep⟩ := ih (by omega) (by omega)
            refine ⟨b, hb, hfb, by omega, fun i hi hi' => ?_, hkeep⟩
            rcases Nat.lt_succ_iff_lt_or_eq.1 hi' with hlt | rfl
            · exact hdrop i hi hlt
            · exact hd
        | false =>
            simp only [hd, Bool.false_eq_true, if_false]
            exact ⟨back + 1, rfl, hfront, le_rfl, fun i hi hi' => absurd hi' (by omega), fun _ => hd⟩
      · rw [if_neg hlt]
        exact ⟨back + 1, rfl, hfront, le_rfl, fun i hi hi' => absurd hi' (by omega),
          fun hlt' => absurd hlt' hlt⟩

theorem drop_tab (hfront : front < rows) :
    (tab rows m).drop front = m front :: (tab rows m).drop (front + 1) := by
  rw [List.drop_eq_getElem_cons (by rw [length_tab]; exact hfront)]
  congr 1
  have := getElem?_tab m hfront
  rwa [List.getElem?_eq_getElem (by rw [length_tab]; exact hfront), Option.some.injEq] at this

/-- The front stops at a candidate that is not dropped, if there is one. -/
theorem popFront_tab {upto i : Nat} (hi : front ≤ i) (hrows : i < rows) (hupto : upto < (m i).2) :
    ∃ f, popFront upto ((tab rows m).drop front) front = some f ∧ front ≤ f ∧ f ≤ i ∧
      (∀ j, front ≤ j → j < f → (m j).2 ≤ upto) ∧ upto < (m f).2 := by
  obtain ⟨k, rfl⟩ : ∃ k, i = front + k := ⟨i - front, by omega⟩
  induction k generalizing front with
  | zero =>
      rw [Nat.add_zero] at hupto hrows
      rw [drop_tab hrows, popFront, if_neg (Nat.not_le.2 hupto)]
      exact ⟨front, rfl, le_rfl, le_rfl, fun j hj hj' => absurd hj' (by omega), hupto⟩
  | succ k ih =>
      rw [drop_tab (by omega), popFront]
      by_cases hle : (m front).2 ≤ upto
      · rw [if_pos hle]
        have hk : front + 1 + k = front + (k + 1) := by omega
        obtain ⟨f, hf, hlo, hhi, hdrop, hkeep⟩ := ih (by omega) (by rw [hk]; exact hrows)
          (by rw [hk]; exact hupto)
        refine ⟨f, hf, by omega, by omega, fun j hj hj' => ?_, hkeep⟩
        rcases Nat.eq_or_lt_of_le hj with rfl | hlt
        · exact hle
        · exact hdrop j hlt hj'
      · rw [if_neg hle]
        exact ⟨front, rfl, le_rfl, by omega, fun j hj hj' => absurd hj' (by omega),
          Nat.not_le.1 hle⟩

/-- The candidates for the rows above `r`: each is the value of its row, they are in order, and
every value in a window that is still to come has one that is as good and leaves later. -/
structure Candidates (le : T → T → Prop) (window : Nat) (h : Nat → Option T) (m : Nat → T × Nat)
    (front back r : Nat) : Prop where
  front_le : front ≤ back
  back_le : back ≤ r
  real : ∀ i, front ≤ i → i < back → (m i).2 < r ∧ h (m i).2 = some (m i).1
  sorted : ∀ i j, front ≤ i → i < j → j < back → (m i).2 < (m j).2 ∧ le (m i).1 (m j).1
  covers : ∀ p x, p < r → r ≤ p + window → h p = some x →
    ∃ i, front ≤ i ∧ i < back ∧ p ≤ (m i).2 ∧ le (m i).1 x

theorem Candidates.zero : Candidates le window h m 0 0 0 where
  front_le := le_rfl
  back_le := le_rfl
  real _ _ hi := absurd hi (Nat.not_lt_zero _)
  sorted _ _ _ _ hj := absurd hj (Nat.not_lt_zero _)
  covers _ _ hp := absurd hp (Nat.not_lt_zero _)

theorem Candidates.skip (hc : Candidates le window h m front back r) (hr : h r = none) :
    Candidates le window h m front back (r + 1) where
  front_le := hc.front_le
  back_le := hc.back_le.trans (Nat.le_succ r)
  real i hi hi' := ⟨(hc.real i hi hi').1.trans (Nat.lt_succ_self r), (hc.real i hi hi').2⟩
  sorted := hc.sorted
  covers p x hp hpw hx := by
    have hne : p ≠ r := by
      intro he
      rw [he, hr] at hx
      cases hx
    exact hc.covers p x (by omega) (by omega) hx

theorem Candidates.push (hp : Picks drops le best) (hc : Candidates le window h m front back r) (hx : h r = some x) {b : Nat}
    (hfb : front ≤ b) (hbb : b ≤ back) (hdrop : ∀ i, b ≤ i → i < back → drops (m i).1 x = true)
    (hkeep : front < b → drops (m (b - 1)).1 x = false) :
    Candidates le window h (Function.update m b (x, r)) front (b + 1) (r + 1) := by
  have hself : Function.update m b (x, r) b = (x, r) := Function.update_self ..
  have hold : ∀ i, i < b → Function.update m b (x, r) i = m i := fun i hi =>
    Function.update_of_ne (by omega) ..
  -- what stays is as good as what comes
  have hbest : ∀ i, front ≤ i → i < b → le (m i).1 x := by
    intro i hi hib
    have hlast : le (m (b - 1)).1 x := by
      refine (hp.total _ _).resolve_right fun hle => ?_
      have := hkeep (by omega)
      rw [(hp.drops_iff _ _).2 hle] at this
      cases this
    rcases Nat.lt_or_ge i (b - 1) with hlt | hge
    · exact hp.trans _ _ _ (hc.sorted i (b - 1) hi hlt (by omega)).2 hlast
    · obtain rfl : i = b - 1 := by omega
      exact hlast
  have hback := hc.back_le
  refine ⟨by omega, by omega, fun i hi hi' => ?_, fun i j hi hij hj => ?_, fun p y hpr hpw hy => ?_⟩
  · rcases Nat.lt_succ_iff_lt_or_eq.1 hi' with hlt | rfl
    · rw [hold i hlt]
      obtain ⟨hrow, hval⟩ := hc.real i hi (by omega)
      exact ⟨by omega, hval⟩
    · rw [hself]
      exact ⟨Nat.lt_succ_self r, hx⟩
  · rw [hold i (by omega)]
    rcases Nat.lt_succ_iff_lt_or_eq.1 hj with hlt | rfl
    · rw [hold j hlt]
      exact hc.sorted i j hi hij (by omega)
    · rw [hself]
      exact ⟨(hc.real i hi (by omega)).1, hbest i hi hij⟩
  · rcases Nat.lt_succ_iff_lt_or_eq.1 hpr with hlt | rfl
    · obtain ⟨i, hi, hib, hrow, hle⟩ := hc.covers p y hlt (by omega) hy
      rcases Nat.lt_or_ge i b with hib' | hge
      · exact ⟨i, hi, by omega, by rw [hold i hib']; exact hrow, by rw [hold i hib']; exact hle⟩
      · refine ⟨b, hfb, Nat.lt_succ_self b, by rw [hself]; exact hlt.le, ?_⟩
        rw [hself]
        exact hp.trans _ _ _ ((hp.drops_iff _ _).1 (hdrop i hge hib)) hle
    · obtain rfl : x = y := by
        rw [hx] at hy
        exact Option.some.inj hy
      refine ⟨b, hfb, Nat.lt_succ_self b, by rw [hself], ?_⟩
      rw [hself]
      exact (hp.total x x).elim id id

/-- The candidates and the count before row `r`. -/
structure Running (le : T → T → Prop) (rows window nbvalid : Nat) (h : Nat → Option T) (r : Nat)
    (d : Deque T) : Prop where
  candidates : ∃ m, d.minima = tab rows m ∧ Candidates le window h m d.front d.back r
  nbv_lt : d.nbv < 2 ^ 64
  count : (d.nbv + validAbove window nbvalid h (r - window)) % 2 ^ 64 = present h r % 2 ^ 64

theorem validAbove_succ : validAbove window nbvalid h (r + 1) =
    validAbove window nbvalid h r + if Valid window nbvalid h r then 1 else 0 :=
  Nat.count_succ ..

/-- A row's value comes in; the count does not know yet what leaves. -/
theorem enter_step (hp : Picks drops le best) {d : Deque T} {col : List (Option T)} (hr : r < rows)
    (hd : Running le rows window nbvalid h r d) :
    ∃ d', enter drops r (h r) (col, d) = .ok () (col, d') ∧
      (∃ m, d'.minima = tab rows m ∧ Candidates le window h m d'.front d'.back (r + 1)) ∧
        d'.nbv < 2 ^ 64 ∧
          (d'.nbv + validAbove window nbvalid h (r - window)) % 2 ^ 64 = present h (r + 1) % 2 ^ 64 := by
  obtain ⟨m, hm, hc⟩ := hd.candidates
  have hcount := hd.count
  have hlt := hd.nbv_lt
  rw [present_succ]
  cases hx : h r with
  | none => exact ⟨d, rfl, ⟨m, hm, hc.skip hx⟩, hlt, hcount⟩
  | some x =>
      have hback := hc.back_le
      obtain ⟨b, hb, hfb, hbb, hdrop, hkeep⟩ :=
        @popBack_tab T drops m rows d.front d.back x (by omega) hc.front_le
      refine ⟨{ d with minima := d.minima.set b (x, r), back := b + 1, nbv := wrap (d.nbv + 1) },
        ?_, ⟨Function.update m b (x, r), ?_, ?_⟩, ?_, ?_⟩
      · rw [enter]
        simp only
        rw [hm, hb]
        simp only
        rw [length_tab, if_pos (by omega)]
      · rw [hm, set_tab]
      · exact hc.push hp hx hfb hbb hdrop hkeep
      · exact Nat.mod_lt _ (by decide)
      · simp only [wrap, Option.isSome_some, if_true]
        omega

/-- The cell of a row that leaves the window tells if its own window was valid. -/
theorem isSome_rolled (hp : Picks drops le best) (hnb : 0 < nbvalid) :
    (rolled best window nbvalid h r).isSome ↔ Valid window nbvalid h r := by
  rw [rolled]
  by_cases hv : Valid window nbvalid h r
  · rw [if_pos hv]
    exact iff_of_true (hp.isSome _ (List.ne_nil_of_length_pos (Nat.lt_of_lt_of_le hnb hv))) hv
  · rw [if_neg hv]
    exact iff_of_false Bool.false_ne_true hv

/-- Counting out: the column has the outputs of the rows above `r`. -/
theorem leave_step (hp : Picks drops le best) (hnb : 0 < nbvalid) (hw : 0 < window)
    {d : Deque T} (hr : r < rows)
    (hm : ∃ m, d.minima = tab rows m ∧ Candidates le window h m d.front d.back (r + 1))
    (hlt : d.nbv < 2 ^ 64)
    (hcount : (d.nbv + validAbove window nbvalid h (r - window)) % 2 ^ 64 =
      present h (r + 1) % 2 ^ 64) :
    ∃ d', leave window r (tab rows (overwritten (rolled best window nbvalid h) h r), d) =
        .ok () (tab rows (overwritten (rolled best window nbvalid h) h r), d') ∧
      Running le rows window nbvalid h (r + 1) d' := by
  rw [leave]
  by_cases hle : window ≤ r
  · have hout : (overwritten (rolled best window nbvalid h) h r (r - window)).isSome ↔
        Valid window nbvalid h (r - window) := by
      rw [overwritten_above (by omega)]
      exact isSome_rolled hp hnb
    have hnext : r + 1 - window = r - window + 1 := by omega
    rw [if_pos hle]
    simp only
    rw [read_tab _ _ (by omega), Outcome.bind_ok]
    refine ⟨_, rfl, ?_⟩
    by_cases hv : Valid window nbvalid h (r - window)
    · rw [if_pos (hout.2 hv)]
      refine ⟨hm, Nat.mod_lt _ (by decide), ?_⟩
      rw [hnext, validAbove_succ, if_pos hv]
      simp only [wsub, wrap]
      omega
    · rw [if_neg fun hsome => hv (hout.1 hsome)]
      refine ⟨hm, hlt, ?_⟩
      rw [hnext, validAbove_succ, if_neg hv, Nat.add_zero]
      exact hcount
  · rw [if_neg hle]
    refine ⟨d, rfl, hm, hlt, ?_⟩
    rw [show r + 1 - window = r - window by omega]
    exact hcount

/-- What the count says. -/
theorem Running.nbvalid_le {d : Deque T} (hd : Running le rows window nbvalid h (r + 1) d)
    (hr : r < rows) (hrows : rows < 2 ^ 63) (hnb : nbvalid ≤ rows) :
    nbvalid ≤ d.nbv ↔ present h (r + 1) < validAbove window nbvalid h (r + 1 - window) ∨
      nbvalid + validAbove window nbvalid h (r + 1 - window) ≤ present h (r + 1) := by
  have hcount := hd.count
  have hlt := hd.nbv_lt
  have hp : present h (r + 1) ≤ r + 1 := present_le
  have hv : validAbove window nbvalid h (r + 1 - window) ≤ r + 1 - window := Nat.count_le _
  omega

/-- The front of a window that has a value. -/
theorem front_step (hc : Candidates le window h m front back (r + 1)) (hr : r < rows)
    (hne : inWindow window h r ≠ []) :
    ∃ f, (if window ≤ r then popFront (r - window) ((tab rows m).drop front) front
        else some front) = some f ∧
      front ≤ f ∧ f < back ∧ (∀ j, front ≤ j → j < f → (m j).2 + window ≤ r) ∧
        r < (m f).2 + window := by
  obtain ⟨y, hy⟩ := List.exists_mem_of_ne_nil _ hne
  obtain ⟨p, hp, hpw, hval⟩ := mem_inWindow.1 hy
  obtain ⟨i, hi, hib, hpi, -⟩ := hc.covers p y (by omega) (by omega) hval
  have hback := hc.back_le
  by_cases hle : window ≤ r
  · obtain ⟨f, hf, hlo, hhi, hdrop, hkeep⟩ :=
      @popFront_tab T m rows front (r - window) i hi (by omega) (by omega)
    refine ⟨f, by rw [if_pos hle, hf], hlo, by omega, fun j hj hjf => ?_, by omega⟩
    have := hdrop j hj hjf
    omega
  · exact ⟨front, if_neg hle, le_rfl, by omega, fun j hj hjf => absurd hjf (by omega), by omega⟩

/-- What has left the window is not needed any more. -/
theorem Candidates.expire (hc : Candidates le window h m front back (r + 1)) {f : Nat}
    (hlo : front ≤ f) (hhi : f < back) (hgone : ∀ j, front ≤ j → j < f → (m j).2 + window ≤ r) :
    Candidates le window h m f back (r + 1) where
  front_le := hhi.le
  back_le := hc.back_le
  real i hi hib := hc.real i (hlo.trans hi) hib
  sorted i j hi hij hjb := hc.sorted i j (hlo.trans hi) hij hjb
  covers p x hp hpw hx := by
    obtain ⟨i, hi, hib, hpi, hle⟩ := hc.covers p x hp hpw hx
    refine ⟨i, ?_, hib, hpi, hle⟩
    by_contra hif
    have := hgone i hi (by omega)
    omega

/-- The candidate at the front is the best of the window. -/
theorem Candidates.best_eq (hp : Picks drops le best)
    (hc : Candidates le window h m front back (r + 1)) (hfb : front < back)
    (hlive : r < (m front).2 + window) : best (inWindow window h r) = some (m front).1 := by
  obtain ⟨hrow, hval⟩ := hc.real front le_rfl hfb
  refine hp.eq_some _ _ (mem_inWindow.2 ⟨(m front).2, by omega, hlive, hval⟩) fun y hy => ?_
  obtain ⟨p, hpr, hpw, hy⟩ := mem_inWindow.1 hy
  obtain ⟨i, hi, hib, hpi, hle⟩ := hc.covers p y (by omega) (by omega) hy
  rcases Nat.eq_or_lt_of_le hi with rfl | hlt
  · exact hle
  · exact hp.trans _ _ _ (hc.sorted front i le_rfl hlt hib).2 hle

/-- The output of a row, when the count tells if its window is valid. -/
theorem emit_step (hp : Picks drops le best) {d : Deque T}
    (hr : r < rows) (hrows : rows < 2 ^ 63) (hnb : 0 < nbvalid) (hnb' : nbvalid ≤ rows)
    (hd : Running le rows window nbvalid h (r + 1) d) (hcounts : Counts window nbvalid h r) :
    ∃ d', emit window nbvalid r (tab rows (overwritten (rolled best window nbvalid h) h r), d) =
        .ok () (tab rows (overwritten (rolled best window nbvalid h) h (r + 1)), d') ∧
      Running le rows window nbvalid h (r + 1) d' := by
  rw [Counts, ← hd.nbvalid_le hr hrows hnb'] at hcounts
  have hwrite : ∀ y, y = rolled best window nbvalid h r →
      setv r y (tab rows (overwritten (rolled best window nbvalid h) h r)) =
        .ok () (tab rows (overwritten (rolled best window nbvalid h) h (r + 1))) := by
    intro y hy
    rw [setv_tab _ _ hr, hy, update_overwritten]
  rw [emit]
  by_cases hv : Valid window nbvalid h r
  · obtain ⟨m, hm, hc⟩ := hd.candidates
    obtain ⟨f, hf, hlo, hhi, hgone, hlive⟩ :=
      front_step hc hr (List.ne_nil_of_length_pos (Nat.lt_of_lt_of_le hnb hv))
    have hc' := hc.expire hlo hhi hgone
    have hback := hc.back_le
    rw [if_pos (hcounts.1 hv)]
    simp only
    rw [hm, hf]
    simp only
    rw [getElem?_tab m (by omega)]
    simp only
    rw [hwrite, Outcome.mapState_ok]
    · exact ⟨_, rfl, ⟨m, rfl, hc'⟩, hd.nbv_lt, hd.count⟩
    · rw [rolled, if_pos hv, hc'.best_eq hp hhi hlive]
  · rw [if_neg fun hle => hv (hcounts.2 hle)]
    simp only
    rw [hwrite, Outcome.mapState_ok]
    · exact ⟨d, rfl, hd⟩
    · rw [rolled, if_neg hv]

/-- The output of a row is wrong when the count does not tell it. -/
theorem emit_off (hp : Picks drops le best) {d : Deque T} {g : Nat → Option T}
    (hr : r < rows) (hrows : rows < 2 ^ 63) (hnb : 0 < nbvalid) (hnb' : nbvalid ≤ rows)
    (hd : Running le rows window nbvalid h (r + 1) d) (hcounts : ¬ Counts window nbvalid h r) :
    emit window nbvalid r (tab rows g, d) = .fault ∨
      ∃ y d', y ≠ rolled best window nbvalid h r ∧
        emit window nbvalid r (tab rows g, d) = .ok () (tab rows (Function.update g r y), d') := by
  rw [Counts, ← hd.nbvalid_le hr hrows hnb'] at hcounts
  have hsome : (rolled best window nbvalid h r).isSome ↔ Valid window nbvalid h r :=
    isSome_rolled hp hnb
  rw [emit]
  by_cases hle : nbvalid ≤ d.nbv
  · have hnone : rolled best window nbvalid h r = none :=
      Option.not_isSome_iff_eq_none.1 fun hs => hcounts (iff_of_true (hsome.1 hs) hle)
    rw [if_pos hle, hnone]
    split
    · exact .inl rfl
    · next f hf =>
        simp only
        split
        · exact .inl rfl
        · next e he =>
            rw [setv_tab _ _ hr, Outcome.mapState_ok]
            exact .inr ⟨_, _, Option.some_ne_none _, rfl⟩
  · have hv : Valid window nbvalid h r := by
      by_contra hv
      exact hcounts (iff_of_false hv hle)
    rw [if_neg hle, setv_tab _ _ hr, Outcome.mapState_ok]
    refine .inr ⟨none, d, fun hnone => ?_, rfl⟩
    have := hsome.2 hv
    rw [← hnone] at this
    cases this

/-- The counts before row `r` and all outputs above it are right. -/
def BeforeRow (le : T → T → Prop) (best : List T → Option T) (rows window nbvalid : Nat)
    (h : Nat → Option T) (r : Nat) (s : List (Option T) × Deque T) : Prop :=
  s.1 = tab rows (overwritten (rolled best window nbvalid h) h r) ∧
    Running le rows window nbvalid h r s.2

/-- A row up to its output. -/
theorem rollRow_eq (hp : Picks drops le best) (hnb : 0 < nbvalid) (hw : 0 < window) (hr : r < rows)
    {s : List (Option T) × Deque T} (hs : BeforeRow le best rows window nbvalid h r s) :
    ∃ d, Running le rows window nbvalid h (r + 1) d ∧ rollRow drops window nbvalid r s =
      emit window nbvalid r (tab rows (overwritten (rolled best window nbvalid h) h r), d) := by
  obtain ⟨col, d⟩ := s
  obtain ⟨hcol, hd⟩ := hs
  simp only at hcol hd
  subst hcol
  obtain ⟨d₁, henter, hm, hlt, hcount⟩ :=
    @enter_step T drops le best h rows window nbvalid r hp d
      (tab rows (overwritten (rolled best window nbvalid h) h r)) hr hd
  obtain ⟨d₂, hleave, hd₂⟩ := leave_step hp hnb hw hr hm hlt hcount
  refine ⟨d₂, hd₂, ?_⟩
  rw [rollRow]
  simp only
  rw [read_tab _ _ hr, Outcome.bind_ok, overwritten_from le_rfl, henter, Outcome.bind_ok, hleave,
    Outcome.bind_ok]

theorem rollRow_step (hp : Picks drops le best) (hnb : 0 < nbvalid) (hnb' : nbvalid ≤ rows)
    (hw : 0 < window) (hr : r < rows) (hrows : rows < 2 ^ 63) {s : List (Option T) × Deque T}
    (hs : BeforeRow le best rows window nbvalid h r s) (hcounts : Counts window nbvalid h r) :
    ∃ s', rollRow drops window nbvalid r s = .ok () s' ∧
      BeforeRow le best rows window nbvalid h (r + 1) s' := by
  obtain ⟨d, hd, hrow⟩ := rollRow_eq hp hnb hw hr hs
  obtain ⟨d', hemit, hd'⟩ := emit_step hp hr hrows hnb hnb' hd hcounts
  exact ⟨_, by rw [hrow, hemit], rfl, hd'⟩

/-- A row writes no other cell. -/
theorem rollRow_keeps {i : Nat} {y : Option T} {s : List (Option T) × Deque T} (hi : i ≠ r)
    (hs : s.1[r]? = some y) : (rollRow drops window nbvalid i s).Keeps fun s => s.1[r]? = some y := by
  have hset : ∀ (x : Option T) (col : List (Option T)), col[r]? = some y →
      (setv i x col).Keeps fun col => col[r]? = some y := by
    intro x col hcol
    rw [setv]
    split
    · exact Outcome.keeps_throw hcol
    · exact Outcome.keeps_ok (by rw [List.getElem?_set_ne hi, hcol])
  have hread : ∀ (s : List (Option T) × Deque T) (j : Nat), s.1[r]? = some y →
      (read s s.1 j).Keeps fun s => s.1[r]? = some y := by
    intro s j hs
    rw [read]
    split
    · exact Outcome.keeps_fault
    · split
      · exact Outcome.keeps_ok hs
      · exact Outcome.keeps_throw hs
  rw [rollRow]
  refine (hread s i hs).bind fun x s hs => Outcome.Keeps.bind ?_ fun _ s hs =>
    Outcome.Keeps.bind ?_ fun _ s hs => ?_
  · cases x with
    | none => exact Outcome.keeps_ok hs
    | some x =>
        rw [enter]
        split
        · exact Outcome.keeps_fault
        · split
          · exact Outcome.keeps_ok hs
          · exact Outcome.keeps_fault
  · rw [leave]
    split
    · exact (hread s _ hs).bind fun _ s hs => Outcome.keeps_ok hs
    · exact Outcome.keeps_ok hs
  · rw [emit]
    split
    · split
      · exact Outcome.keeps_fault
      · split
        · exact Outcome.keeps_fault
        · exact (hset _ _ hs).mapState
    · exact (hset _ _ hs).mapState

theorem BeforeRow.zero {minima : List (T × Nat)} (hm : ∃ m, minima = tab rows m) :
    BeforeRow le best rows window nbvalid h 0 (tab rows h, ⟨minima, 0, 0, 0⟩) := by
  obtain ⟨m, hm⟩ := hm
  refine ⟨by rw [overwritten_zero], ⟨m, hm, Candidates.zero⟩, Nat.two_pow_pos 64, ?_⟩
  rw [Nat.zero_sub, validAbove, present, Nat.count_zero, Nat.count_zero]

/-- A column whose counts are right. -/
theorem rollCol_tab (hp : Picks drops le best) (hnb : 0 < nbvalid) (hnb' : nbvalid ≤ rows)
    (hw : 0 < window) (hrows : rows < 2 ^ 63) (hcounts : ∀ r, r < rows → Counts window nbvalid h r)
    {minima : List (T × Nat)} (hm : ∃ m, minima = tab rows m) :
    ∃ minima', rollCol drops rows window nbvalid (tab rows h, minima) =
      .ok () (tab rows (rolled best window nbvalid h), minima') ∧ ∃ m, minima' = tab rows m := by
  obtain ⟨s, hrun, hcol, hd⟩ := forUp_invariant (k := rows)
    (P := BeforeRow le best rows window nbvalid h) (BeforeRow.zero hm) fun i s _ hi hs =>
      rollRow_step hp hnb hnb' hw (by omega) hrows hs (hcounts i (by omega))
  obtain ⟨m, hm', -⟩ := hd.candidates
  refine ⟨s.2.minima, ?_, m, hm'⟩
  rw [rollCol, hrun, Outcome.mapState_ok, hcol, Nat.zero_add, tab_overwritten]

/-- The rows that are left of a run that ends with the outputs asked for. -/
theorem counts_of_forUp (hp : Picks drops le best) (hnb : 0 < nbvalid) (hnb' : nbvalid ≤ rows)
    (hw : 0 < window) (hrows : rows < 2 ^ 63) {k : Nat} {s e : List (Option T) × Deque T}
    (hk : r + k = rows) (hs : BeforeRow le best rows window nbvalid h r s)
    (hrun : forUp (rollRow drops window nbvalid) k r s = .ok () e)
    (he : e.1 = tab rows (rolled best window nbvalid h)) :
    (∃ m, e.2.minima = tab rows m) ∧ ∀ i, r ≤ i → i < rows → Counts window nbvalid h i := by
  induction k generalizing r s with
  | zero =>
      cases hrun
      obtain ⟨m, hm, -⟩ := hs.2.candidates
      exact ⟨⟨m, hm⟩, fun i hi hi' => absurd hi' (by omega)⟩
  | succ k ih =>
      rw [forUp] at hrun
      by_cases hcounts : Counts window nbvalid h r
      · obtain ⟨s', hrow, hs'⟩ := rollRow_step hp hnb hnb' hw (by omega) hrows hs hcounts
        rw [hrow, Outcome.bind_ok] at hrun
        obtain ⟨hm, hrest⟩ := ih (by omega) hs' hrun
        refine ⟨hm, fun i hi hi' => ?_⟩
        rcases Nat.eq_or_lt_of_le hi with rfl | hlt
        · exact hcounts
        · exact hrest i hlt hi'
      · -- the cell of this row is wrong, and stays so
        obtain ⟨d, hd, hrow⟩ := rollRow_eq hp hnb hw (by omega) hs
        rw [hrow] at hrun
        rcases emit_off hp (by omega) hrows hnb hnb' hd hcounts with hfault | ⟨y, d', hne, hemit⟩
        · rw [hfault] at hrun
          cases hrun
        · rw [hemit, Outcome.bind_ok] at hrun
          have hcell : (tab rows (Function.update (overwritten (rolled best window nbvalid h) h r)
              r y))[r]? = some y := by
            rw [getElem?_tab _ (by omega), Function.update_self]
          have hkeeps := forUp_keeps (P := fun s : List (Option T) × Deque T => s.1[r]? = some y)
            (s := (tab rows (Function.update (overwritten (rolled best window nbvalid h) h r) r y),
              d')) (k := k) (r := r + 1) hcell fun i s hi _ hs =>
                @rollRow_keeps T drops window nbvalid r i y s (by omega) hs
          rw [hrun] at hkeeps
          have hkept : e.1[r]? = some y := hkeeps e rfl
          rw [he, getElem?_tab _ (by omega)] at hkept
          exact absurd (Option.some.inj hkept).symm hne

end Run

/-! ## The whole array -/

section Whole

variable {drops} {le : T → T → Prop} {best : List T → Option T} {window nbvalid : Nat}

/-- Both counts agree in every column of the array. -/
def CountsAll (window nbvalid : Nat) (a : Columns (Option T)) : Prop :=
  ∀ c ∈ a.v, ∀ r, r < a.rows → Counts window nbvalid (cells c) r

instance (window nbvalid : Nat) (a : Columns (Option T)) : Decidable (CountsAll window nbvalid a) :=
  inferInstanceAs (Decidable (∀ c ∈ a.v, ∀ r, r < a.rows → _))

theorem rolledCol_eq {c : List (Option T)} {n : Nat} (hlen : c.length = n) :
    rolledCol best window nbvalid c = tab n (rolled best window nbvalid (cells c)) := by
  rw [rolledCol, hlen]

theorem rollBy_iff [Zero T] (hp : Picks drops le best) {a : Columns (Option T)} (hnb : 0 < nbvalid)
    (hnb' : nbvalid ≤ window) (hw : window ≤ a.rows) :
    rollBy drops window nbvalid a = .ok () (a.v.map (rolledCol best window nbvalid)) ↔
      CountsAll window nbvalid a := by
  have hzeros : ∃ m, List.replicate a.rows ((0 : T), 0) = tab a.rows m :=
    ⟨fun _ => (0, 0), by rw [tab, List.map_const', List.length_range]⟩
  have hheld : ∀ c ∈ a.v, a.rows < 2 ^ 63 := fun c hc => a.held (List.ne_nil_of_mem hc)
  constructor
  · intro hrun
    rw [rollBy] at hrun
    obtain ⟨⟨cs, t⟩, hrun, hcs⟩ := Outcome.mapState_eq_ok.1 hrun
    simp only at hcs
    subst hcs
    refine eachColWith_sound (P := fun t => ∃ m, t = tab a.rows m) (fun c hc t t' ht hf => ?_)
      hzeros hrun
    have hcol := tab_cells (a.full c hc)
    rw [rollCol] at hf
    obtain ⟨e, hfor, he⟩ := Outcome.mapState_eq_ok.1 hf
    simp only [Prod.mk.injEq] at he hfor
    have hstart := @BeforeRow.zero T le best (cells c) a.rows window nbvalid t ht
    rw [hcol] at hstart
    obtain ⟨hm, hcounts⟩ := counts_of_forUp hp hnb (by omega) (by omega) (hheld c hc)
      (Nat.zero_add a.rows) hstart hfor (by rw [he.1, rolledCol_eq (a.full c hc)])
    exact ⟨he.2 ▸ hm, fun r hr => hcounts r (Nat.zero_le r) hr⟩
  · intro hcounts
    obtain ⟨t, hrun, -⟩ := eachColWith_eq_ok (f := rollCol drops a.rows window nbvalid)
      (g := rolledCol best window nbvalid) (P := fun t => ∃ m, t = tab a.rows m)
      (fun c hc t ht => by
        have hcol := rollCol_tab hp hnb (by omega) (by omega) (hheld c hc) (hcounts c hc) ht
        rwa [tab_cells (a.full c hc), ← rolledCol_eq (a.full c hc)] at hcol)
      hzeros
    rw [rollBy, hrun, Outcome.mapState_ok]

variable [LinearOrder T]

theorem picks_min : Picks (fun m x : T => x ≤ m) (· ≤ ·) List.min? where
  drops_iff a b := decide_eq_true_iff
  total := le_total
  trans _ _ _ := le_trans
  eq_some l x hx hle := List.min?_eq_some_iff.2 ⟨hx, hle⟩
  isSome l hl := by rw [List.isSome_min?_iff]; exact hl

theorem picks_max : Picks (fun m x : T => m ≤ x) (· ≥ ·) List.max? where
  drops_iff a b := decide_eq_true_iff
  total a b := le_total b a
  trans _ _ _ hab hbc := le_trans hbc hab
  eq_some l x hx hle := List.max?_eq_some_iff.2 ⟨hx, hle⟩
  isSome l hl := by rw [List.isSome_max?_iff]; exact hl

variable [Zero T] {a : Columns (Option T)}

/-- Both functions do as asked exactly when the counts agree. -/
theorem rollmin_rollmax_iff (hnb : 2 ≤ nbvalid) (hnb' : nbvalid ≤ window) (hw : window ≤ a.rows) :
    (rollmin_inplace window nbvalid a = .ok () (a.v.map (rolledCol List.min? window nbvalid)) ∧
      rollmax_inplace window nbvalid a = .ok () (a.v.map (rolledCol List.max? window nbvalid))) ↔
        CountsAll window nbvalid a := by
  rw [rollmin_inplace, rollmax_inplace, rollBy_iff picks_min (by omega) hnb' hw,
    rollBy_iff picks_max (by omega) hnb' hw, and_self]

/-- A column that begins with a missing cell. -/
theorem rollmin_rollmax_iff_three :
    rollmin_inplace 2 2 (⟨3, [[none, some 2, some 1]], by decide, by decide, by decide⟩ :
        Columns (Option Int)) = .ok () ([[none, some 2, some 1]].map (rolledCol List.min? 2 2)) ∧
      rollmax_inplace 2 2 (⟨3, [[none, some 2, some 1]], by decide, by decide, by decide⟩ :
        Columns (Option Int)) = .ok () ([[none, some 2, some 1]].map (rolledCol List.max? 2 2)) :=
  (rollmin_rollmax_iff (by decide) (by decide) (by decide)).2 (by decide)

/-- One value in the window is taken for two: the value that has left is not seen to be one, since
its cell is missing by then. -/
theorem not_rollmin_rollmax :
    ¬ (rollmin_inplace 2 2 (⟨3, [[some 1, none, some 2]], by decide, by decide, by decide⟩ :
        Columns (Option Int)) = .ok () ([[some 1, none, some 2]].map (rolledCol List.min? 2 2)) ∧
      rollmax_inplace 2 2 (⟨3, [[some 1, none, some 2]], by decide, by decide, by decide⟩ :
        Columns (Option Int)) = .ok () ([[some 1, none, some 2]].map (rolledCol List.max? 2 2))) := by
  intro ⟨hmin, _⟩
  have hrun : rollmin_inplace 2 2 (⟨3, [[some 1, none, some 2]], by decide, by decide, by decide⟩ :
      Columns (Option Int)) = .ok () [[none, none, some 2]] := rfl
  rw [hrun] at hmin
  injection hmin with _ hmin
  exact absurd hmin (by decide)

end Whole

end Columns

end Ztsdb.Arr
