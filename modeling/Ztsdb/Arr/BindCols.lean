import Mathlib
import Ztsdb.Arr.ArrayAppend
import Ztsdb.Arr.Bind

/-!
# The columns of `abind`

In a dimension other than the first, the loop fills and moves columns from the back.
All the while the columns stand in three blocks: full ones that are still to be moved,
then empty ones, then full ones in their final place. `Filled` is that invariant; the
two cursors are the ends of the empty block, each kept one below and so one wrap away
from an underflow.

The rest is arithmetic: the products of the extents that drive the loop multiply up to
the numbers of columns when both arrays have as many as their extents say.
-/

namespace Ztsdb.Arr

open Ztsdb.Lib

namespace Vector

variable {T : Type} [Raw T] (O : T → T → Bool)

theorem place_eq_ok {x : T} {s s' : Vector T} {u : Unit} (h : place O x s = .ok u s') :
    s'.v = s.v ++ [x] ∧ s'.alloc = s.alloc := by
  rw [place] at h
  split at h
  · cases h
    exact ⟨rfl, rfl⟩
  · cases h

theorem push_back_eq_ok {x : T} {s s' : Vector T} {u : Unit} (h : push_back O x s = .ok u s') :
    s'.v = s.v ++ [x] ∧ s'.alloc = s.alloc := by
  rw [push_back] at h
  split at h
  · split at h
    · cases h
    · simp only at h
      split at h
      · have hp := place_eq_ok O h
        exact hp
      · cases h
  · exact place_eq_ok O h

theorem pushAll_eq_ok {xs : List T} {s s' : Vector T} {u : Unit}
    (h : pushAll O xs s = .ok u s') : s'.v = s.v ++ xs ∧ s'.alloc = s.alloc := by
  induction xs generalizing s with
  | nil =>
      cases h
      exact ⟨(List.append_nil _).symm, rfl⟩
  | cons x xs ih =>
      rw [pushAll, Outcome.bind_eq_ok] at h
      obtain ⟨_, t, ht, h⟩ := h
      obtain ⟨hv, ha⟩ := push_back_eq_ok O ht
      obtain ⟨hv', ha'⟩ := ih h
      exact ⟨by rw [hv', hv, List.append_assoc]; rfl, ha'.trans ha⟩

theorem size_of_pushAll {xs : List T} {s s' : Vector T} {u : Unit}
    (h : pushAll O xs s = .ok u s') : s'.size = s.size + xs.length := by
  rw [Vector.size, (pushAll_eq_ok O h).1, List.length_append, Vector.size]

end Vector

theorem wsub_wsub {p : Nat} (h : 0 < p) (hlt : p < 2 ^ 64) : wsub (wsub p 1) 1 = wsub (p - 1) 1 := by
  rw [wsub_of_le hlt h]

namespace Array

open Ztsdb.Arr.Vector

variable {T : Type} (O : T → T → Bool)

/-- Columns of `R` rows but for those from `p` up to `q`, which are empty. -/
def Filled (R : Nat) (v : List (Vector T)) (p q : Nat) : Prop :=
  ∀ i c, v[i]? = some c → c.size = if p ≤ i ∧ i < q then 0 else R

theorem Filled.all {R p : Nat} {v : List (Vector T)} (h : Filled R v p p) :
    ∀ c ∈ v, c.size = R := by
  intro c hc
  obtain ⟨i, hi, rfl⟩ := List.getElem_of_mem hc
  rw [h i _ (List.getElem?_eq_getElem hi), if_neg (by omega)]

theorem Filled.set {R p q : Nat} {v : List (Vector T)} {c : Vector T} (h : Filled R v p q)
    (hpq : p < q) (hc : c.size = R) : Filled R (v.set (q - 1) c) p (q - 1) := by
  intro i d hd
  rw [List.getElem?_set] at hd
  split at hd
  · next hi =>
      split at hd
      · cases hd
        rw [hc, if_neg (by omega)]
      · cases hd
  · next hi =>
      rw [h i d hd]
      congr 1
      exact propext (by omega)

theorem Filled.append {R : Nat} {v es : List (Vector T)} (hv : ∀ c ∈ v, c.size = R)
    (hes : ∀ c ∈ es, c.size = 0) : Filled R (v ++ es) v.length (v.length + es.length) := by
  intro i c hc
  rcases Nat.lt_or_ge i v.length with hlt | hge
  · rw [List.getElem?_append_left hlt] at hc
    rw [hv c (List.mem_of_getElem? hc), if_neg (by omega)]
  · rw [List.getElem?_append_right hge] at hc
    have := (List.getElem?_eq_some_iff.1 hc).1
    rw [hes c (List.mem_of_getElem? hc), if_pos (by omega)]

/-- The last full column before the empty ones goes behind them. -/
theorem Filled.swap {R p q : Nat} {v : List (Vector T)} {c c' : Vector T} (h : Filled R v p q)
    (hp : 0 < p) (hpq : p ≤ q) (hc : v[p - 1]? = some c) (hc' : v[q - 1]? = some c') :
    Filled R ((v.set (p - 1) c').set (q - 1) c) (p - 1) (q - 1) := by
  have hsize := h _ _ hc
  have hsize' := h _ _ hc'
  rw [if_neg (by omega)] at hsize
  intro i d hd
  rw [List.getElem?_set] at hd
  split at hd
  · next hi =>
      split at hd
      · cases hd
        rw [hsize, if_neg (by omega)]
      · cases hd
  · next hi =>
      rw [List.getElem?_set] at hd
      split at hd
      · next hi' =>
          split at hd
          · cases hd
            rw [hsize', ← hi']
            congr 1
            exact propext (by omega)
          · cases hd
      · rw [h i d hd]
        congr 1
        exact propext (by omega)

theorem swapCols_filled {R p Q : Nat} {k : Nat} {q q' : Cursor} {v v' : List (Vector T)}
    (hk : k ≤ p) (hpQ : p ≤ Q) (hQ : Q ≤ v.length) (hlt : v.length < 2 ^ 64)
    (hv : Filled R v p Q) (hdest : q.destoff = wsub Q 1) (hsrc : q.srcoff = wsub p 1)
    (h : swapCols k q v = .ok q' v') :
    v'.length = v.length ∧ Filled R v' (p - k) (Q - k) ∧ q'.destoff = wsub (Q - k) 1 ∧
      q'.srcoff = wsub (p - k) 1 ∧ q'.uoff = q.uoff := by
  induction k generalizing q v p Q with
  | zero =>
      cases h
      exact ⟨rfl, hv, hdest, hsrc, rfl⟩
  | succ k ih =>
      have hd : q.destoff = Q - 1 := by rw [hdest, wsub_of_le (by omega) (by omega)]
      have hs : q.srcoff = p - 1 := by rw [hsrc, wsub_of_le (by omega) (by omega)]
      rw [swapCols] at h
      split at h
      · next c c' hc hc' =>
          rw [hs] at hc
          rw [hd] at hc'
          have hswap := hv.swap (by omega) hpQ hc hc'
          rw [← hs, ← hd] at hswap
          have hstep := ih (p := p - 1) (Q := Q - 1) (q := { q with
              destoff := wsub q.destoff 1
              srcoff := wsub q.srcoff 1 })
            (by omega) (by omega) (by rw [List.length_set, List.length_set]; omega)
            (by rw [List.length_set, List.length_set]; exact hlt)
            (by rw [hs, hd] at hswap ⊢; exact hswap)
            (by simp only; rw [hdest, wsub_wsub (by omega) (by omega)])
            (by simp only; rw [hsrc, wsub_wsub (by omega) (by omega)]) h
          obtain ⟨hlen, hfill, hd', hs', hu'⟩ := hstep
          rw [List.length_set, List.length_set] at hlen
          rw [Nat.sub_sub, Nat.sub_sub, Nat.add_comm 1] at hfill
          rw [Nat.sub_sub, Nat.add_comm 1] at hd' hs'
          exact ⟨hlen, hfill, hd', hs', hu'⟩
      · cases h

variable [Raw T]

/-- A fill takes `k` columns of `u`, the last of the `r` that are left first, and cuts the
empty block by as many. -/
theorem fillCols_filled {R p Q r : Nat} {us : List (Vector T)} (hus : ∀ u ∈ us, u.size = R)
    {k : Nat} {q q' : Cursor} {v v' : List (Vector T)} (hk : k ≤ r) (hpk : p + k ≤ Q)
    (hQ : Q ≤ v.length) (hlt : v.length < 2 ^ 64) (hr : r < 2 ^ 64) (hv : Filled R v p Q)
    (hdest : q.destoff = wsub Q 1) (huoff : q.uoff = wsub r 1)
    (h : fillCols O us k q v = .ok q' v') :
    v'.length = v.length ∧ Filled R v' p (Q - k) ∧ q'.destoff = wsub (Q - k) 1 ∧
      q'.srcoff = q.srcoff ∧
      (k < r → q'.uoff = wsub (r - k) 1 ∧ q'.needSwap = q.needSwap) ∧
      (k = 0 → q'.uoff = q.uoff ∧ q'.needSwap = q.needSwap) ∧
      (k = r → 0 < r → q'.needSwap = false) := by
  induction k generalizing q v Q r with
  | zero =>
      cases h
      refine ⟨rfl, hv, hdest, rfl, fun _ => ⟨huoff, rfl⟩, fun _ => ⟨rfl, rfl⟩, ?_⟩
      intro h0 hpos
      omega
  | succ k ih =>
      rw [fillCols] at h
      have hd : q.destoff = Q - 1 := by rw [hdest, wsub_of_le (by omega) (by omega)]
      have hu : q.uoff = r - 1 := by rw [huoff, wsub_of_le hr (by omega)]
      split at h
      · cases h
      · next u hmem =>
          obtain ⟨c, hc⟩ : ∃ c, v[q.destoff]? = some c :=
            ⟨_, List.getElem?_eq_getElem (by omega)⟩
          rw [hc] at h
          simp only at h
          split at h
          · next c' hpush =>
              have hempty := hv _ _ hc
              rw [if_pos (by omega)] at hempty
              have hfull : c'.size = R := by
                rw [size_of_pushAll O hpush, hempty, Nat.zero_add]
                exact hus u (List.mem_of_getElem? hmem)
              have hset := hv.set (by omega) hfull
              rw [← hd] at hset
              rcases Nat.lt_or_ge 1 r with hr1 | hr1
              · -- a column of `u` is left after this one
                have hstep := ih (r := r - 1) (Q := Q - 1) (q := { q with
                    destoff := wsub q.destoff 1
                    uoff := if 0 < q.uoff then q.uoff - 1 else q.uoff
                    needSwap := if 0 < q.uoff then q.needSwap else false })
                  (by omega) (by omega) (by rw [List.length_set]; omega)
                  (by rw [List.length_set]; exact hlt) (by omega)
                  (by rw [hd] at hset ⊢; exact hset)
                  (by simp only; rw [hdest, wsub_wsub (by omega) (by omega)])
                  (by simp only; rw [hu, if_pos (by omega), wsub_of_le (by omega) (by omega)])
                  h
                obtain ⟨hlen, hfill, hd', hs', hlt', hz', heq'⟩ := hstep
                rw [List.length_set] at hlen
                refine ⟨hlen, by rwa [Nat.sub_sub, Nat.add_comm 1] at hfill,
                  by rwa [Nat.sub_sub, Nat.add_comm 1] at hd', hs', ?_, ?_, ?_⟩
                · intro hkr
                  obtain ⟨ha, hb⟩ := hlt' (by omega)
                  refine ⟨by rwa [Nat.sub_sub, Nat.add_comm 1] at ha, ?_⟩
                  simpa [hu, show 0 < r - 1 by omega] using hb
                · intro h0
                  omega
                · intro hkr hpos
                  exact heq' (by omega) (by omega)
              · -- the last column of `u`
                obtain rfl : k = 0 := by omega
                rw [fillCols, Outcome.ok.injEq] at h
                obtain ⟨rfl, rfl⟩ := h
                refine ⟨List.length_set, ?_, ?_, rfl, ?_, ?_, ?_⟩
                · rw [hd] at hset ⊢
                  exact hset
                · simp only
                  rw [hdest, wsub_wsub (by omega) (by omega)]
                · intro hkr
                  omega
                · intro h0
                  omega
                · intro _ _
                  simp only
                  rw [hu, if_neg (by omega)]
          · cases h
          · cases h

/-- `n` rounds of the loop leave no column empty. -/
theorem bindCols_filled {R ucols cols n : Nat} {us : List (Vector T)}
    (hus : ∀ u ∈ us, u.size = R) {q : Cursor} {v v' : List (Vector T)} {u : Unit}
    (hlen : n * cols + n * ucols ≤ v.length) (hlt : v.length < 2 ^ 64)
    (hv : Filled R v (n * cols) (n * cols + n * ucols))
    (hdest : q.destoff = wsub (n * cols + n * ucols) 1) (hsrc : q.srcoff = wsub (n * cols) 1)
    (huoff : q.uoff = wsub (n * ucols) 1) (h : bindCols O us ucols cols n q v = .ok u v') :
    v'.length = v.length ∧ ∀ c ∈ v', c.size = R := by
  induction n generalizing q v with
  | zero =>
      cases h
      rw [Nat.zero_mul, Nat.zero_mul] at hv
      exact ⟨rfl, hv.all⟩
  | succ n ih =>
      rw [Nat.succ_mul, Nat.succ_mul] at hlen hv hdest
      rw [Nat.succ_mul] at hsrc huoff
      rw [bindCols, Outcome.bind_eq_ok] at h
      obtain ⟨q1, v1, hfill, h⟩ := h
      obtain ⟨hlen1, hv1, hd1, hs1, hmore, hzero, hlast⟩ := fillCols_filled O hus
        (k := ucols) (q := { q with needSwap := true }) (r := n * ucols + ucols) (Q := n * cols + cols + (n * ucols + ucols))
        (p := n * cols + cols) (by omega) (by omega) hlen hlt (by omega) hv hdest huoff hfill
      split at h
      · next hswap =>
          have hround : q1.uoff = wsub (n * ucols) 1 := by
            rcases Nat.eq_zero_or_pos ucols with h0 | hpos
            · rw [(hzero h0).1]
              simp only
              rw [huoff, h0, Nat.mul_zero]
            · have : ucols ≠ n * ucols + ucols := by
                intro heq
                rw [hlast heq (by omega)] at hswap
                cases hswap
              rw [(hmore (by omega)).1]
              congr 1
              omega
          rw [Outcome.bind_eq_ok] at h
          obtain ⟨q2, v2, hswapped, h⟩ := h
          obtain ⟨hlen2, hv2, hd2, hs2, hu2⟩ := swapCols_filled (p := n * cols + cols)
            (Q := n * cols + cols + (n * ucols + ucols) - ucols) (by omega) (by omega)
            (by omega) (by omega) hv1 hd1 (hs1.trans hsrc) hswapped
          have hp : n * cols + cols - cols = n * cols := by omega
          have hq : n * cols + cols + (n * ucols + ucols) - ucols - cols =
              n * cols + n * ucols := by omega
          rw [hp] at hv2 hs2
          rw [hq] at hv2 hd2
          obtain ⟨hlen', hall⟩ := ih (by omega) (by omega) hv2 hd2 hs2 (hu2.trans hround) h
          exact ⟨by omega, hall⟩
      · next hswap =>
          -- the last column of `u` was taken, so this was the last round
          have heq : n * ucols = 0 ∧ 0 < ucols := by
            rcases Nat.eq_zero_or_pos ucols with h0 | hpos
            · exact absurd (hzero h0).2 hswap
            · refine ⟨?_, hpos⟩
              by_contra hne
              exact hswap (hmore (by omega)).2
          obtain rfl : n = 0 := by
            rcases Nat.mul_eq_zero.1 heq.1 with hn | hu
            · exact hn
            · omega
          cases h
          rw [show 0 * cols + cols + (0 * ucols + ucols) - ucols = 0 * cols + cols by omega] at hv1
          exact ⟨hlen1, hv1.all⟩

theorem newCols_eq_ok {allocf : AllocFactory} {d j k : Nat} {cs cs' : List (Vector T)} {u : Unit}
    (h : newCols allocf d j k cs = .ok u cs') :
    ∃ es : List (Vector T), cs' = cs ++ es ∧ es.length = k ∧ ∀ c ∈ es, c.size = 0 := by
  induction k generalizing j cs with
  | zero =>
      cases h
      exact ⟨[], (List.append_nil _).symm, rfl, fun c hc => by cases hc⟩
  | succ k ih =>
      rw [newCols] at h
      split at h
      · next c _ hc =>
          obtain ⟨es, hes, hlen, hall⟩ := ih h
          obtain ⟨b, -, -, heq⟩ := construct_eq_ok hc
          refine ⟨c :: es, by rw [hes, List.append_assoc]; rfl, by rw [List.length_cons, hlen], ?_⟩
          rw [List.forall_mem_cons]
          exact ⟨by rw [heq]; rfl, hall⟩
      · cases h
      · cases h

end Array

/-! ## Extents -/

namespace Array

/-- The extent of dimension `j`, 1 where there is none. -/
def ext (l : List idx_type) (j : Nat) : Nat := (l.map UInt64.toNat).getD j 1

/-- The number of columns that the extents ask for. -/
def colsOf : List idx_type → Nat
  | [] => 0
  | _ :: ds => (ds.map UInt64.toNat).prod

theorem intOf_mod (n : Nat) : intOf n % 2 ^ 32 = n % 2 ^ 32 := by
  rw [intOf]
  split
  · exact Nat.mod_mod _ _
  · omega

theorem intOf_congr {m n : Nat} (h : m % 2 ^ 32 = n % 2 ^ 32) : intOf m = intOf n := by
  rw [intOf, intOf, h]

theorem intOf_of_lt {n : Nat} (h : n < 2 ^ 31) : intOf n = n := by
  rw [intOf, Nat.mod_eq_of_lt (by omega), if_pos h]

theorem intOf_mul (m n : Nat) : intOf (intOf m * n) = intOf (m * n) := by
  apply intOf_congr
  rw [Nat.mul_mod, intOf_mod, ← Nat.mul_mod]

theorem intOf_wrap (n : Nat) : intOf (wrap n) = intOf n := by
  apply intOf_congr
  rw [wrap]
  omega

/-- The product in an `int` is the product, once wrapped. -/
theorem intProd_eq (ds : List idx_type) : intProd ds = intOf (ds.map UInt64.toNat).prod := by
  have hfold : ∀ acc, ds.foldl (fun acc d => intOf (wrap (acc * d.toNat))) (intOf acc) =
      intOf (acc * (ds.map UInt64.toNat).prod) := by
    induction ds with
    | nil =>
        intro acc
        rw [List.foldl_nil, List.map_nil, List.prod_nil, Nat.mul_one]
    | cons d ds ih =>
        intro acc
        rw [List.foldl_cons, intOf_wrap, intOf_mul, ih, List.map_cons, List.prod_cons,
          Nat.mul_assoc]
  rw [intProd, ← Nat.one_mul (ds.map UInt64.toNat).prod, ← hfold 1, intOf_of_lt (by omega)]

/-- Counts that multiply to fewer than `2 ^ 31` columns survive the `int`, all but one
that is multiplied by 0. -/
theorem intOf_counts {n c k : Nat} (hc : n * c < 2 ^ 31) (hk : n * k < 2 ^ 31) :
    intOf n * intOf c = n * c ∧ intOf n * intOf k = n * k := by
  have hz : intOf 0 = 0 := intOf_of_lt (by omega)
  rcases Nat.eq_zero_or_pos n with rfl | hn
  · simp [hz]
  have hcle := Nat.le_mul_of_pos_left c hn
  have hkle := Nat.le_mul_of_pos_left k hn
  rw [intOf_of_lt (show c < 2 ^ 31 by omega), intOf_of_lt (show k < 2 ^ 31 by omega)]
  rcases Nat.eq_zero_or_pos c with rfl | hc0
  · rcases Nat.eq_zero_or_pos k with rfl | hk0
    · simp
    · have := Nat.le_mul_of_pos_right n hk0
      rw [intOf_of_lt (show n < 2 ^ 31 by omega)]
      exact ⟨rfl, rfl⟩
  · have := Nat.le_mul_of_pos_right n hc0
    rw [intOf_of_lt (show n < 2 ^ 31 by omega)]
    exact ⟨rfl, rfl⟩

/-- The columns in three factors' worth: those of the dimensions up to `d`, those of the
dimensions after it. -/
theorem colsOf_split {l : List idx_type} (h : l ≠ []) (d : Nat) :
    colsOf l = (((l.drop 1).take d).map UInt64.toNat).prod *
      ((l.drop (d + 1)).map UInt64.toNat).prod := by
  obtain ⟨x, xs, rfl⟩ := List.exists_cons_of_ne_nil h
  rw [colsOf, List.drop_one, List.tail_cons, List.drop_succ_cons, ← List.prod_append,
    ← List.map_append, List.take_append_drop]

theorem prod_drop_of_ext {l l' : List idx_type} {d : Nat} (h : ∀ j, j ≠ d → ext l j = ext l' j) :
    ((l.drop (d + 1)).map UInt64.toNat).prod = ((l'.drop (d + 1)).map UInt64.toNat).prod := by
  apply prod_eq_of_getD
  intro j
  have := h (d + 1 + j) (by omega)
  rw [ext, ext, List.getD_eq_getElem?_getD, List.getD_eq_getElem?_getD] at this
  rw [List.getD_eq_getElem?_getD, List.getD_eq_getElem?_getD, List.map_drop, List.map_drop,
    List.getElem?_drop, List.getElem?_drop]
  exact this

variable {T : Type} [Raw T] (O : T → T → Bool)

/-- Binding in a dimension other than the first, column by column: as many columns as the
two arrays have, none of them shorter than before. -/
theorem bindColumns_eq_ok {R d : Nat} {u a a' : Array T} {w : Unit} (hu : u.dim.v ≠ [])
    (ha : a.dim.v ≠ []) (hucols : u.v.length = colsOf u.dim.v)
    (hacols : a.v.length = colsOf a.dim.v) (hfew : a.v.length + u.v.length < 2 ^ 31)
    (hext : ∀ j, j ≠ d → ext a.dim.v j = ext u.dim.v j) (hur : ∀ c ∈ u.v, c.size = R)
    (har : ∀ c ∈ a.v, c.size = R) (h : bindColumns O u d a = .ok w a') :
    a'.dim.v = a.dim.v ∧ a'.names = a.names ∧ a'.v.length = a.v.length + u.v.length ∧
      ∀ c ∈ a'.v, c.size = R := by
  rw [bindColumns, Outcome.bind_eq_ok] at h
  obtain ⟨_, b, hnew, h⟩ := h
  obtain ⟨v, hv, rfl⟩ := Outcome.mapState_eq_ok.1 hnew
  obtain ⟨es, rfl, hes, hempty⟩ := newCols_eq_ok hv
  simp only [if_neg hu] at h
  obtain ⟨v', hv', rfl⟩ := Outcome.mapState_eq_ok.1 h
  -- the counts of the loop
  have hsplit := colsOf_split ha d
  have husplit := colsOf_split hu d
  rw [← prod_drop_of_ext hext] at husplit
  rw [intProd_eq, intProd_eq, intProd_eq] at hv'
  rw [hsplit, Nat.mul_comm] at hacols
  rw [husplit, Nat.mul_comm] at hucols
  obtain ⟨hc, hk⟩ := intOf_counts (n := ((a.dim.v.drop (d + 1)).map UInt64.toNat).prod)
    (c := (((a.dim.v.drop 1).take d).map UInt64.toNat).prod)
    (k := (((u.dim.v.drop 1).take d).map UInt64.toNat).prod) (by omega) (by omega)
  rw [← hacols] at hc
  rw [← hucols] at hk
  have hlen : (a.v ++ es).length = a.v.length + u.v.length := by
    rw [List.length_append, hes]
  have hfilled := Filled.append har hempty
  rw [hes, ← hc, ← hk] at hfilled
  obtain ⟨hlen', hall⟩ := bindCols_filled O hur (by omega) (by omega) hfilled
    (by simp only; rw [hlen, hc, hk]) (by simp only; rw [hc]) (by simp only; rw [hk]) hv'
  exact ⟨rfl, rfl, hlen'.trans hlen, hall⟩

end Array

end Ztsdb.Arr
