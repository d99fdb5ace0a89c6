import Mathlib
import Ztsdb.Arr.AlignFunc

/-!
# An operation on two series

`op_zts` goes over the times of `x` and combines the data of each with the data of `y` up to
it. The segment of `y` that a time of `x` stands for ends at the first time of `y` that is not
before it; when there is none, nothing is done, so that what is left of `y` stays as it is even
where it lies before that time.
-/

namespace Ztsdb.Arr

open Ztsdb.Lib

namespace align

variable {T : Type}

/-- `applyd<FIter, F>` over the places from `s` to `e`. -/
def applyd (F : T → T → T) (d : T) (s e : Nat) (l : List T) : List T :=
  l.take s ++ ((l.drop s).take (e - s)).map (F · d) ++ l.drop e

/-- The loop of `op_zts`, for the times of `x` from place `ix` on. -/
def opLoop (F : T → T → T) (y : List dtime) (xdata : List T) :
    Nat → List dtime → Nat → List T → Outcome Exn (List T) Unit
  | _, [], _, ydata => .ok () ydata
  | ix, t :: xs, iy_s, ydata =>
    let iy_e := lower_bound_from y iy_s t
    if iy_e = y.length then opLoop F y xdata (ix + 1) xs iy_s ydata
    else
      match xdata[ix]? with
      | none => .throw (.outOfRange "subscript out of bounds") ydata
      | some d =>
        if ydata.length < iy_e then .fault
        else opLoop F y xdata (ix + 1) xs iy_e (applyd F d iy_s iy_e ydata)

end align

open align

/-- `op_zts(x, y, xdata, ydata)`. -/
def op_zts {T : Type} (F : T → T → T) (x y : List dtime) (xdata ydata : List T) :
    Outcome Exn (List T) Unit :=
  if xdata.length ≠ x.length then .throw (.outOfRange "'xdata' must have same size as 'x'") ydata
  else opLoop F y xdata 0 x 0 ydata

namespace align

variable {T : Type} {x y : List dtime}

theorem length_applyd (F : T → T → T) (d : T) {s e : Nat} {l : List T} (hse : s ≤ e)
    (he : e ≤ l.length) : (applyd F d s e l).length = l.length := by
  rw [applyd, List.length_append, List.length_append, List.length_map, List.length_take,
    List.length_take, List.length_drop, List.length_drop]
  omega

/-- The places from `s` to `e` are combined, the others stay. -/
theorem getElem?_applyd (F : T → T → T) (d : T) {s e : Nat} {l : List T} (hse : s ≤ e)
    (he : e ≤ l.length) (j : Nat) :
    (applyd F d s e l)[j]? = if s ≤ j ∧ j < e then l[j]?.map (F · d) else l[j]? := by
  have hfront : (l.take s).length = s := by
    rw [List.length_take]
    omega
  have hmid : (((l.drop s).take (e - s)).map (F · d)).length = e - s := by
    rw [List.length_map, List.length_take, List.length_drop]
    omega
  rw [applyd, List.append_assoc]
  rcases Nat.lt_or_ge j s with hlt | hge
  · rw [List.getElem?_append_left (by omega), List.getElem?_take_of_lt hlt, if_neg (by omega)]
  · rw [List.getElem?_append_right (by omega), hfront]
    rcases Nat.lt_or_ge j e with hin | hout
    · rw [List.getElem?_append_left (by omega), if_pos ⟨hge, hin⟩, List.getElem?_map,
        List.getElem?_take_of_lt (by omega), List.getElem?_drop, Nat.add_sub_cancel' hge]
    · rw [List.getElem?_append_right (by omega), hmid, if_neg (by omega), List.getElem?_drop]
      congr 1
      omega

/-- Place `i` of `xs` is the first one with a time later than `u`. -/
def FirstLater (xs : List dtime) (u : dtime) (i : Nat) : Prop :=
  ∃ t, xs[i]? = some t ∧ u.less t = true ∧ ∀ k w, k < i → xs[k]? = some w → u.less w = false

/-- A time of `y` is not before `t`. -/
def Reached (y : List dtime) (t : dtime) : Prop := ∃ u ∈ y, u.less t = false

/-- What the loop makes of one element: combined where the first later time is reached. -/
def Combined (F : T → T → T) (y xs : List dtime) (ds : List T) (u : dtime) (d d' : T) : Prop :=
  (∀ i t v, FirstLater xs u i → xs[i]? = some t → ds[i]? = some v →
    (Reached y t → d' = F d v) ∧ (¬ Reached y t → d' = d)) ∧
    ((∀ i, ¬ FirstLater xs u i) → d' = d)

theorem FirstLater.cons_iff {t u : dtime} {xs : List dtime} {i : Nat} :
    FirstLater (t :: xs) u i ↔
      (u.less t = true ∧ i = 0) ∨ (u.less t = false ∧ ∃ k, i = k + 1 ∧ FirstLater xs u k) := by
  cases i with
  | zero =>
      constructor
      · intro h
        obtain ⟨t', ht', hless, -⟩ := h
        cases ht'
        exact .inl ⟨hless, rfl⟩
      · intro h
        rcases h with ⟨hless, -⟩ | ⟨-, k, hk, -⟩
        · exact ⟨t, rfl, hless, fun k w hk => absurd hk (Nat.not_lt_zero k)⟩
        · cases hk
  | succ i =>
      constructor
      · intro h
        obtain ⟨t', ht', hless, hall⟩ := h
        refine .inr ⟨hall 0 t (Nat.succ_pos i) rfl, i, rfl, t', ht', hless, fun k w hk hw => ?_⟩
        exact hall (k + 1) w (Nat.succ_lt_succ hk) hw
      · intro h
        rcases h with ⟨-, hi⟩ | ⟨hge, k, hk, t', ht', hless, hall⟩
        · cases hi
        · cases hk
          refine ⟨t', ht', hless, fun k w hk hw => ?_⟩
          cases k with
          | zero =>
              cases hw
              exact hge
          | succ k => exact hall k w (Nat.lt_of_succ_lt_succ hk) hw

theorem not_reached {t w : dtime} (hbefore : ∀ z ∈ y, z.less t = true)
    (hw : w = t ∨ t.less w = true) : ¬ Reached y w := by
  intro hreached
  obtain ⟨z, hz, hge⟩ := hreached
  have hzt := dtime.less_iff.1 (hbefore z hz)
  rw [dtime.not_less_iff] at hge
  rcases hw with rfl | hw
  · omega
  · rw [dtime.less_iff] at hw
    omega

/-! One more time in front of those still to come. -/

/-- Neither it nor those after it are reached. -/
theorem Combined.unreached {F : T → T → T} {xs : List dtime} {ds : List T} {t u : dtime}
    {v d d' : T} (hlen : ds.length = xs.length) (hnot : ∀ w ∈ t :: xs, ¬ Reached y w)
    (h : Combined F y xs ds u d d') : Combined F y (t :: xs) (v :: ds) u d d' := by
  obtain ⟨hlater, hnone⟩ := h
  have hsame : d' = d := by
    by_cases hex : ∃ k, FirstLater xs u k
    · obtain ⟨k, hk⟩ := hex
      obtain ⟨w, hw, -⟩ := id hk
      have hklt : k < ds.length := by
        rw [hlen]
        exact (List.getElem?_eq_some_iff.1 hw).1
      exact (hlater k w ds[k] hk hw (List.getElem?_eq_getElem hklt)).2
        (hnot w (.tail t (List.mem_of_getElem? hw)))
    · exact hnone fun k hk => hex ⟨k, hk⟩
  refine ⟨fun i t' v' _ ht' _ => ⟨fun hreached => ?_, fun _ => hsame⟩, fun _ => hsame⟩
  exact absurd hreached (hnot t' (List.mem_of_getElem? ht'))

/-- It is the first later one, and reached. -/
theorem Combined.first {F : T → T → T} {xs : List dtime} {ds : List T} {t u : dtime} {v d : T}
    (hless : u.less t = true) (hreached : Reached y t) :
    Combined F y (t :: xs) (v :: ds) u d (F d v) := by
  constructor
  · intro i t' v' hfl ht' hv'
    rw [FirstLater.cons_iff, hless] at hfl
    rcases hfl with ⟨-, rfl⟩ | ⟨hcontra, -⟩
    · cases ht'
      cases hv'
      exact ⟨fun _ => rfl, fun hnot => absurd hreached hnot⟩
    · cases hcontra
  · intro hnone
    exact absurd (FirstLater.cons_iff.2 (.inl ⟨hless, rfl⟩)) (hnone 0)

/-- It is not later. -/
theorem Combined.later {F : T → T → T} {xs : List dtime} {ds : List T} {t u : dtime}
    {v d d' : T} (hge : u.less t = false) (h : Combined F y xs ds u d d') :
    Combined F y (t :: xs) (v :: ds) u d d' := by
  obtain ⟨hlater, hnone⟩ := h
  constructor
  · intro i t' v' hfl ht' hv'
    rw [FirstLater.cons_iff, hge] at hfl
    rcases hfl with ⟨hcontra, -⟩ | ⟨-, k, rfl, hfl⟩
    · cases hcontra
    · exact hlater k t' v' hfl ht' hv'
  · intro hnot
    exact hnone fun k hk => hnot (k + 1) (FirstLater.cons_iff.2 (.inr ⟨hge, k, rfl, hk⟩))

/-- The loop from place `iy_s` of `y` on. -/
theorem opLoop_eq (F : T → T → T) {xdata ds : List T} {xs : List dtime} {ix iy_s : Nat} {ydata : List T}
    (hy : Ascending y) (hxs : Ascending xs) (hds : xdata.drop ix = ds) (hlen : ds.length = xs.length)
    (hydata : ydata.length = y.length) (hiy : iy_s ≤ y.length) :
    ∃ r, opLoop F y xdata ix xs iy_s ydata = .ok () r ∧ r.length = y.length ∧
      (∀ j, j < iy_s → r[j]? = ydata[j]?) ∧
      ∀ j u d, iy_s ≤ j → y[j]? = some u → ydata[j]? = some d →
        ∃ d', r[j]? = some d' ∧ Combined F y xs ds u d d' := by
  induction xs generalizing ix iy_s ds ydata with
  | nil =>
      rw [opLoop]
      refine ⟨ydata, rfl, hydata, fun _ _ => rfl, fun j u d _ _ hd => ⟨d, hd, ?_, fun _ => rfl⟩⟩
      intro i t v _ ht
      cases ht
  | cons t xs ih =>
      obtain ⟨v, ds, rfl⟩ := List.exists_cons_of_ne_nil (List.ne_nil_of_length_eq_add_one hlen)
      have hv : xdata[ix]? = some v := by
        have := congrArg (·[0]?) hds
        simpa only [List.getElem?_drop, Nat.add_zero, List.getElem?_cons_zero] using this
      have hds' : xdata.drop (ix + 1) = ds := by
        have := congrArg (List.drop 1) hds
        rwa [List.drop_drop] at this
      have hlen' : ds.length = xs.length := Nat.succ.inj hlen
      obtain ⟨hfirst, hxs'⟩ := List.pairwise_cons.1 hxs
      have hle := le_lower_bound_from y iy_s t
      have hiye := lower_bound_from_le t hiy
      have hbound : ∀ j u, iy_s ≤ j → y[j]? = some u → (j < lower_bound_from y iy_s t ↔ u.less t = true) :=
        fun j u hj hu => lt_lower_bound_from_iff hy hj hu
      rw [opLoop]
      generalize lower_bound_from y iy_s t = iy_e at hle hiye hbound
      by_cases hend : iy_e = y.length
      · rw [if_pos hend]
        obtain ⟨r, hrun, hr, hkeep, hall⟩ := @ih ds (ix + 1) iy_s ydata hxs' hds' hlen' hydata hiy
        refine ⟨r, hrun, hr, hkeep, fun j u d hj hu hd => ?_⟩
        obtain ⟨d', hd', hcomb⟩ := hall j u d hj hu hd
        -- every time of `y` is before `t`, and so before the times after it
        have hbefore : ∀ w ∈ y, w.less t = true := by
          intro w hw
          obtain ⟨k, hk⟩ := List.mem_iff_getElem?.1 hw
          have hklen := (List.getElem?_eq_some_iff.1 hk).1
          have hjlen := (List.getElem?_eq_some_iff.1 hu).1
          rcases Nat.lt_or_ge k iy_s with hlt | hge
          · have hwu := hy.lt hk hu (by omega)
            have hut := dtime.less_iff.1 ((hbound j u hj hu).1 (by omega))
            rw [dtime.less_iff]
            omega
          · exact (hbound k w hge hk).1 (by omega)
        refine ⟨d', hd', hcomb.unreached hlen' fun w hw => not_reached hbefore ?_⟩
        exact (List.mem_cons.1 hw).imp_right (hfirst w)
      · rw [if_neg hend, hv]
        have hlt : iy_e < y.length := by omega
        simp only
        rw [if_neg (by omega)]
        -- the time of `y` that the segment ends at is not before `t`
        have hreached : Reached y t := by
          have hw : y[iy_e]? = some y[iy_e] := List.getElem?_eq_getElem hlt
          refine ⟨y[iy_e], List.getElem_mem hlt, ?_⟩
          by_contra hless
          have := (hbound iy_e _ hle hw).2 (Bool.eq_true_of_not_eq_false hless)
          omega
        have hlength := length_applyd F v hle (hiye.trans_eq hydata.symm)
        have hget := getElem?_applyd F v hle (hiye.trans_eq hydata.symm)
        obtain ⟨r, hrun, hr, hkeep, hall⟩ :=
          @ih ds (ix + 1) iy_e (applyd F v iy_s iy_e ydata) hxs' hds' hlen' (hlength.trans hydata) hiye
        refine ⟨r, hrun, hr, fun j hj => ?_, fun j u d hj hu hd => ?_⟩
        · rw [hkeep j (by omega), hget j, if_neg (by omega)]
        · rcases Nat.lt_or_ge j iy_e with hin | hout
          · refine ⟨F d v, ?_, .first ((hbound j u hj hu).1 hin) hreached⟩
            rw [hkeep j hin, hget j, if_pos ⟨hj, hin⟩, hd]
            rfl
          · have hge : u.less t = false := by
              rw [← Bool.not_eq_true, ← hbound j u hj hu]
              omega
            obtain ⟨d', hd', hcomb⟩ := hall j u d hout hu (by rw [hget j, if_neg (by omega), hd])
            exact ⟨d', hd', hcomb.later hge⟩

end align

/-- Each of the data of `y` with a later time in `x` is combined with the data of the earliest
one, and every other one is left as it is. -/
def Replaces {T : Type} (F : T → T → T) (x y : List dtime) (xdata ydata : List T) : Prop :=
  ∃ r, op_zts F x y xdata ydata = .ok () r ∧ r.length = ydata.length ∧
    ∀ (j : Nat) (u : dtime) (d : T), y[j]? = some u → ydata[j]? = some d →
      (∀ (i : Nat) (v : T), FirstLater x u i → xdata[i]? = some v → r[j]? = some (F d v)) ∧
        ((∀ i, ¬ FirstLater x u i) → r[j]? = some d)

/-- It does so exactly when the operation changes nothing where the earliest later time is
later than all of `y`. -/
theorem replaces_iff {T : Type} (F : T → T → T) {x y : List dtime} {xdata ydata : List T}
    (hx : Ascending x) (hy : Ascending y) (hxdata : xdata.length = x.length)
    (hydata : ydata.length = y.length) :
    Replaces F x y xdata ydata ↔
      ∀ (i j : Nat) (t u : dtime) (v d : T), FirstLater x u i → x[i]? = some t → xdata[i]? = some v → y[j]? = some u →
        ydata[j]? = some d → (∀ w ∈ y, w.less t = true) → F d v = d := by
  obtain ⟨r, hrun, hr, -, hall⟩ := @opLoop_eq T y F xdata xdata x 0 0 ydata hy hx rfl hxdata hydata (Nat.zero_le y.length)
  have hop : op_zts F x y xdata ydata = .ok () r := by
    rw [op_zts, if_neg (not_not.2 hxdata), hrun]
  have hbeyond (t : dtime) : ¬ Reached y t ↔ ∀ w ∈ y, w.less t = true := by
    simp only [Reached, not_exists, not_and, Bool.not_eq_false]
  constructor
  · intro h i j t u v d hfl ht hv hu hd hlast
    obtain ⟨r', hop', -, hspec⟩ := h
    rw [hop] at hop'
    cases hop'
    obtain ⟨d', hd', hlater, -⟩ := hall j u d (Nat.zero_le j) hu hd
    have hsame := (hlater i t v hfl ht hv).2 ((hbeyond t).2 hlast)
    have hnew := (hspec j u d hu hd).1 i v hfl hv
    rw [hd', hsame] at hnew
    exact (Option.some.inj hnew).symm
  · intro h
    refine ⟨r, hop, hr.trans hydata.symm, fun j u d hu hd => ?_⟩
    obtain ⟨d', hd', hlater, hnone⟩ := hall j u d (Nat.zero_le j) hu hd
    refine ⟨fun i v hfl hv => ?_, fun hnot => by rw [hd', hnone hnot]⟩
    obtain ⟨t, ht, -⟩ := id hfl
    obtain ⟨hin, hout⟩ := hlater i t v hfl ht hv
    rw [hd']
    by_cases hreached : Reached y t
    · rw [hin hreached]
    · rw [hout hreached, h i j t u v d hfl ht hv hu hd ((hbeyond t).1 hreached)]

/-- The second time of `x` is the last one of `y`. -/
theorem replaces_iff_two :
    Replaces (T := Nat) (· + ·) [⟨2⟩, ⟨5⟩] [⟨1⟩, ⟨3⟩, ⟨5⟩] [10, 20] [1, 2, 3] := by
  have hx : Ascending [⟨2⟩, ⟨5⟩] := by show List.Pairwise _ _; decide
  have hy : Ascending [⟨1⟩, ⟨3⟩, ⟨5⟩] := by show List.Pairwise _ _; decide
  have hxdata : [10, 20].length = [(⟨2⟩ : dtime), ⟨5⟩].length := rfl
  have hydata : [1, 2, 3].length = [(⟨1⟩ : dtime), ⟨3⟩, ⟨5⟩].length := rfl
  refine (replaces_iff _ hx hy hxdata hydata).2 ?_
  intro i j t u v d hfl ht hv hu hd hlast
  have hmem := List.mem_of_getElem? ht
  have hlt := hlast ⟨5⟩ (by decide)
  simp only [List.mem_cons, List.not_mem_nil, or_false] at hmem
  rcases hmem with rfl | rfl
  · exact absurd hlt (by decide)
  · exact absurd hlt (by decide)

/-- The only time of `x` is later than all of `y`: nothing is added. -/
theorem not_replaces : ¬ Replaces (T := Nat) (· + ·) [⟨9⟩] [⟨1⟩, ⟨2⟩] [10] [1, 2] := by
  intro h
  obtain ⟨r, hrun, -, hspec⟩ := h
  have hrun' : op_zts (· + ·) [⟨9⟩] [⟨1⟩, ⟨2⟩] [10] [1, 2] = .ok () [1, 2] := rfl
  rw [hrun'] at hrun
  cases hrun
  have hnew := (hspec 0 ⟨1⟩ 1 rfl rfl).1 0 10 ⟨⟨9⟩, rfl, rfl, fun k w hk => absurd hk (Nat.not_lt_zero k)⟩ rfl
  exact absurd hnew (by decide)

end Ztsdb.Arr
