import Mathlib
import Ztsdb.Arr.GridBind

/-!
# What `abind` gives

The extents of an array go on with 1 for ever, and the coordinates of an element with 0. So
read, the two arrays of a bind have the same extents but in one dimension, and the place of
an element in the result differs from its place in the array it comes from only in what that
dimension adds.
-/

namespace Ztsdb.Arr

open Ztsdb.Lib

/-! ## Places in unbounded dimensions -/

/-- The extent of dimension `j`, 1 where there is none. -/
def extOf (dim : List Nat) (j : Nat) : Nat := dim.getD j 1

/-- The coordinate in dimension `j`, 0 where there is none. -/
def coord (p : List Nat) (j : Nat) : Nat := p.getD j 0

/-- The first `n` coordinates. -/
def fit : Nat → (Nat → Nat) → List Nat
  | 0, _ => []
  | n + 1, c => c 0 :: fit n fun j => c (j + 1)

/-- The place of the coordinates `c` in the first `k` dimensions of extents `e`. -/
def place : Nat → (Nat → Nat) → (Nat → Nat) → Nat
  | 0, _, _ => 0
  | k + 1, e, c => c 0 + e 0 * place k (fun j => e (j + 1)) fun j => c (j + 1)

/-- The number of places in the first `k` dimensions. -/
def places : Nat → (Nat → Nat) → Nat
  | 0, _ => 1
  | k + 1, e => e 0 * places k fun j => e (j + 1)

theorem fit_coord (p : List Nat) : fit p.length (coord p) = p := by
  induction p with
  | nil => rfl
  | cons x p ih => exact congrArg (x :: ·) ih

theorem lin_fit (dim : List Nat) (c : Nat → Nat) :
    lin dim (fit dim.length c) = place dim.length (extOf dim) c := by
  induction dim generalizing c with
  | nil => rfl
  | cons d dim ih => exact congrArg (fun x => c 0 + d * x) (ih fun j => c (j + 1))

theorem below_fit {dim : List Nat} {c : Nat → Nat} (h : ∀ j, c j < extOf dim j) :
    Below (fit dim.length c) dim := by
  induction dim generalizing c with
  | nil => exact .nil
  | cons d dim ih => exact .cons (h 0) (ih fun j => h (j + 1))

theorem coord_lt {p dim : List Nat} (h : Below p dim) (j : Nat) : coord p j < extOf dim j := by
  induction h generalizing j with
  | nil => exact Nat.one_pos
  | cons hx _ ih =>
      cases j with
      | zero => exact hx
      | succ j => exact ih j

theorem place_add (m k : Nat) (e c : Nat → Nat) :
    place (m + k) e c = place m e c + places m e * place k (fun j => e (m + j)) fun j => c (m + j) := by
  induction m generalizing e c with
  | zero => simp [place, places]
  | succ m ih =>
      rw [Nat.add_right_comm, place, place, places, ih]
      simp only [Nat.add_right_comm m 1]
      ring

theorem places_add (m k : Nat) (e : Nat → Nat) :
    places (m + k) e = places m e * places k fun j => e (m + j) := by
  induction m generalizing e with
  | zero => simp [places]
  | succ m ih =>
      rw [Nat.add_right_comm, places, places, ih, Nat.mul_assoc]
      simp only [Nat.add_right_comm m 1]

theorem place_zero {k : Nat} {e c : Nat → Nat} (h : ∀ j, c j = 0) : place k e c = 0 := by
  induction k generalizing e c with
  | zero => rfl
  | succ k ih => rw [place, h 0, ih fun j => h (j + 1), Nat.mul_zero]

theorem place_congr {k : Nat} {e e' c c' : Nat → Nat} (he : ∀ j < k, e j = e' j)
    (hc : ∀ j < k, c j = c' j) : place k e c = place k e' c' := by
  induction k generalizing e e' c c' with
  | zero => rfl
  | succ k ih =>
      rw [place, place, he 0 (Nat.succ_pos k), hc 0 (Nat.succ_pos k),
        ih (fun j hj => he (j + 1) (Nat.succ_lt_succ hj)) fun j hj => hc (j + 1) (Nat.succ_lt_succ hj)]

theorem places_congr {k : Nat} {e e' : Nat → Nat} (h : ∀ j < k, e j = e' j) :
    places k e = places k e' := by
  induction k generalizing e e' with
  | zero => rfl
  | succ k ih =>
      rw [places, places, h 0 (Nat.succ_pos k), ih fun j hj => h (j + 1) (Nat.succ_lt_succ hj)]

theorem place_lt {k : Nat} {e c : Nat → Nat} (h : ∀ j < k, c j < e j) : place k e c < places k e := by
  induction k generalizing e c with
  | zero => exact Nat.one_pos
  | succ k ih =>
      rw [place, places]
      exact add_mul_lt (h 0 (Nat.succ_pos k)) (ih fun j hj => h (j + 1) (Nat.succ_lt_succ hj))

theorem prod_take (dim : List Nat) (k : Nat) : (dim.take k).prod = places k (extOf dim) := by
  induction k generalizing dim with
  | zero => rw [List.take_zero]; rfl
  | succ k ih =>
      cases dim with
      | nil =>
          have h := ih []
          rw [List.take_nil] at h ⊢
          exact h.trans (Nat.one_mul _).symm
      | cons d dim =>
          rw [List.take_succ_cons, List.prod_cons, ih]
          rfl

theorem extOf_drop (dim : List Nat) (k j : Nat) : extOf (dim.drop k) j = extOf dim (k + j) := by
  rw [extOf, extOf, List.getD_eq_getElem?_getD, List.getD_eq_getElem?_getD, List.getElem?_drop]

theorem prod_drop {dim : List Nat} {K : Nat} (h : dim.length ≤ K) (k : Nat) :
    (dim.drop k).prod = places K fun j => extOf dim (k + j) := by
  rw [← List.take_of_length_le (show (dim.drop k).length ≤ K by rw [List.length_drop]; omega), prod_take]
  exact places_congr fun j _ => extOf_drop dim k j

/-- Any number of dimensions gives the place, as long as none is left out. -/
theorem place_eq_lin {dim : List Nat} {c : Nat → Nat} (h : ∀ j, c j < extOf dim j) {K : Nat}
    (hK : dim.length ≤ K) : place K (extOf dim) c = lin dim (fit dim.length c) := by
  have hbeyond (j : Nat) : c (dim.length + j) = 0 := by
    have hj := h (dim.length + j)
    rw [extOf, List.getD_eq_default _ _ (Nat.le_add_right _ _)] at hj
    omega
  obtain ⟨m, rfl⟩ := Nat.exists_eq_add_of_le hK
  rw [place_add, place_zero hbeyond, Nat.mul_zero, Nat.add_zero, lin_fit]

namespace Grid

variable {T : Type}

/-- The columns are as the extents say. -/
structure Shaped (a : Grid T) : Prop where
  ne : a.dim ≠ []
  cols : a.v.length = a.dim.tail.prod
  rows : ∀ c ∈ a.v, c.length = a.dim.headD 0

theorem WellFormed.shaped {a : Grid T} (h : a.WellFormed) : a.Shaped := ⟨h.ne, h.cols, h.rows⟩

/-- The number of the column of an element, counted in `K` dimensions after the first. -/
def columnPlace (K : Nat) (e c : Nat → Nat) : Nat := place K (fun j => e (j + 1)) fun j => c (j + 1)

/-- An element is found in its column. -/
theorem elem_fit {a : Grid T} (h : a.Shaped) {c : Nat → Nat} (hc : ∀ j, c j < extOf a.dim j) {K : Nat}
    (hK : a.dim.length ≤ K + 1) : ∃ x, a.elem (fit a.dim.length c) = .ok x () ∧
      a.v[columnPlace K (extOf a.dim) c]?.bind (·[c 0]?) = some x := by
  have hb := below_fit hc
  obtain ⟨hne, hcols, hrows⟩ := h
  cases hd : a.dim with
  | nil => exact absurd hd hne
  | cons d ds =>
      rw [hd] at hcols hrows hb hc hK
      have hplace : columnPlace K (extOf (d :: ds)) c = lin ds (fit ds.length fun j => c (j + 1)) :=
        place_eq_lin (fun j => hc (j + 1)) (Nat.le_of_succ_le_succ hK)
      obtain _ | ⟨h0, hps⟩ := hb
      obtain ⟨x, hx, hcol⟩ := elem_col hd hcols hrows h0 hps
      exact ⟨x, hx, hplace ▸ hcol⟩

/-- The columns are all places in the dimensions after the first. -/
theorem length_cols {a : Grid T} (h : a.Shaped) {K : Nat} (hK : a.dim.length ≤ K + 1) :
    a.v.length = places K fun j => extOf a.dim (j + 1) := by
  obtain ⟨hne, hcols, -⟩ := h
  cases hd : a.dim with
  | nil => exact absurd hd hne
  | cons d ds =>
      rw [hd] at hcols hK
      have hprod := @prod_drop ds K (Nat.le_of_succ_le_succ hK) 0
      rw [List.drop_zero] at hprod
      rw [hcols, List.tail_cons, hprod]
      exact places_congr fun j _ => by rw [Nat.zero_add]; rfl

/-- `r` is `t` and `u` side by side in dimension `d`. -/
structure IsBind (t u : Grid T) (d : Nat) (r : Grid T) : Prop where
  sum : extOf r.dim d = extOf t.dim d + extOf u.dim d
  others : ∀ j, j ≠ d → extOf r.dim j = extOf t.dim j
  len : r.dim.length = max t.dim.length (d + 1)
  elt : ∀ p, Below p r.dim → ∃ x, r.elem p = .ok x () ∧
    if coord p d < extOf t.dim d then t.elem (fit t.dim.length (coord p)) = .ok x ()
    else u.elem (fit u.dim.length fun j => if j = d then coord p d - extOf t.dim d else coord p j) = .ok x ()

/-- Extents that differ in dimension `d` only can be bound. -/
theorem checkdims_of_extOf {v u : List Nat} {d : Nat} (h : ∀ j, j ≠ d → extOf v j = extOf u j) :
    checkdims v u d = true := by
  have hone {l : List Nat} {j : Nat} (hj : j < l.length) (h1 : extOf l j = 1) : l[j]? = some 1 := by
    rw [extOf, List.getD_eq_getElem?_getD, List.getElem?_eq_getElem hj] at h1
    rw [List.getElem?_eq_getElem hj]
    exact congrArg some h1
  have hout {l : List Nat} {j : Nat} (hj : l.length ≤ j) : extOf l j = 1 := List.getD_eq_default _ _ hj
  rw [checkdims]
  split
  next => rfl
  next =>
    simp only [Bool.and_eq_true, List.all_eq_true, Bool.or_eq_true, decide_eq_true_eq, List.mem_range,
      List.mem_range'_1]
    refine ⟨⟨fun j hj => ?_, fun j hj => ?_⟩, fun j hj => ?_⟩
    · refine or_iff_not_imp_left.2 fun hne => ?_
      have hjv : j < v.length := by omega
      have hju : j < u.length := by omega
      have heq := h j hne
      rw [extOf, extOf, List.getD_eq_getElem?_getD, List.getD_eq_getElem?_getD,
        List.getElem?_eq_getElem hjv, List.getElem?_eq_getElem hju] at heq
      rw [List.getElem?_eq_getElem hjv, List.getElem?_eq_getElem hju]
      exact congrArg some heq
    · refine or_iff_not_imp_left.2 fun hne => hone (by omega) ?_
      rw [h j hne, hout (by omega)]
    · refine or_iff_not_imp_left.2 fun hne => hone (by omega) ?_
      rw [← h j hne, hout (by omega)]

/-! ## The counts of columns -/

theorem intProd_eq (ds : List Nat) : intProd ds = Array.intOf ds.prod := by
  have hfold : ∀ acc, ds.foldl (fun acc d => Array.intOf (wrap (acc * d))) (Array.intOf acc) =
      Array.intOf (acc * ds.prod) := by
    induction ds with
    | nil =>
        intro acc
        rw [List.foldl_nil, List.prod_nil, Nat.mul_one]
    | cons d ds ih =>
        intro acc
        rw [List.foldl_cons, Array.intOf_wrap, Array.intOf_mul, ih, List.prod_cons, Nat.mul_assoc]
  have h := hfold 1
  rwa [Nat.one_mul, Array.intOf_of_lt (by omega)] at h

/-- The slices are the same with counts that went through an `int`, when all fit in one. -/
theorem blocks_intOf {α : Type} {cols ucols n : Nat} {ts us : List α} (hc : n * cols < 2 ^ 31)
    (hu : n * ucols < 2 ^ 31) :
    blocks (Array.intOf cols) (Array.intOf ucols) ts us (Array.intOf n) = blocks cols ucols ts us n := by
  rcases Nat.eq_zero_or_pos n with rfl | hn
  · rw [Array.intOf_of_lt (show (0 : Nat) < 2 ^ 31 by omega)]
    rfl
  have hcle := Nat.le_mul_of_pos_left cols hn
  have hule := Nat.le_mul_of_pos_left ucols hn
  rw [Array.intOf_of_lt (show cols < 2 ^ 31 by omega), Array.intOf_of_lt (show ucols < 2 ^ 31 by omega)]
  rcases Nat.eq_zero_or_pos cols with hc0 | hcpos
  · rcases Nat.eq_zero_or_pos ucols with hu0 | hupos
    · have hnil (k : Nat) : blocks 0 0 ts us k = [] := List.flatMap_eq_nil_iff.2 (by simp)
      rw [hc0, hu0, hnil, hnil]
    · have hle := Nat.le_mul_of_pos_right n hupos
      rw [Array.intOf_of_lt (show n < 2 ^ 31 by omega)]
  · have hle := Nat.le_mul_of_pos_right n hcpos
    rw [Array.intOf_of_lt (show n < 2 ^ 31 by omega)]

/-- The columns of a bind in dimension `d`: slices of both arrays in turn. -/
theorem bindColumns_eq {u a : Grid T} {d : Nat} (hu : u.dim ≠ []) {cols ucols n : Nat}
    (hcols : ((a.dim.drop 1).take d).prod = cols) (hucols : ((u.dim.drop 1).take d).prod = ucols)
    (hn : (a.dim.drop (d + 1)).prod = n) (ha : a.v.length = n * cols) (huv : u.v.length = n * ucols)
    (hfew : a.v.length + u.v.length < 2 ^ 31) :
    bindColumns u d a = some (blocks cols ucols a.v u.v n) := by
  have hcn : n * cols < 2 ^ 31 := by omega
  have hun : n * ucols < 2 ^ 31 := by omega
  obtain ⟨hc', hu'⟩ := Array.intOf_counts hcn hun
  have hsum : (a.v ++ List.replicate u.v.length ([] : List T)).length = n * cols + n * ucols := by
    rw [List.length_append, List.length_replicate, ha, huv]
  have hrun := @bindCols_eq T a.v u.v (Array.intOf cols) (Array.intOf ucols) (Array.intOf n) []
    ⟨wsub (a.v ++ List.replicate u.v.length []).length 1, wsub a.v.length 1, wsub u.v.length 1, true⟩
    (by omega) (by omega) (by omega) (by rw [hc', hu', hsum]) (by rw [hc', ha]) (by rw [hu', huv])
  rw [hc', hu', ← ha, ← huv, List.take_length, List.append_nil, List.append_nil, blocks_intOf hcn hun] at hrun
  rw [bindColumns, if_neg hu, intProd_eq, intProd_eq, intProd_eq, hcols, hucols, hn]
  exact hrun

/-! ## The dimension of the bind among the others -/

theorem columnPlace_split (d K : Nat) (e c : Nat → Nat) :
    columnPlace (d + 1 + K) e c = place d (fun j => e (j + 1)) (fun j => c (j + 1)) +
      places d (fun j => e (j + 1)) * c (d + 1) +
      places d (fun j => e (j + 1)) * e (d + 1) *
        place K (fun j => e (d + 1 + j + 1)) fun j => c (d + 1 + j + 1) := by
  rw [columnPlace, place_add, place_add, places_add]
  simp [place, places]

theorem places_split (d K : Nat) (e : Nat → Nat) :
    places (d + 1 + K) (fun j => e (j + 1)) =
      places d (fun j => e (j + 1)) * e (d + 1) * places K fun j => e (d + 1 + j + 1) := by
  rw [places_add, places_add]
  simp [places]

theorem mem_blocks {α : Type} {cols ucols n : Nat} {ts us : List α} {x : α}
    (h : x ∈ blocks cols ucols ts us n) : x ∈ ts ∨ x ∈ us := by
  obtain ⟨j, -, hx⟩ := List.mem_flatMap.1 h
  rcases List.mem_append.1 hx with hx | hx
  · exact .inl (List.mem_of_mem_drop (List.mem_of_mem_take hx))
  · exact .inr (List.mem_of_mem_drop (List.mem_of_mem_take hx))

theorem headD_eq_extOf {dim : List Nat} (h : dim ≠ []) : dim.headD 0 = extOf dim 0 := by
  cases dim with
  | nil => exact absurd rfl h
  | cons d ds => rfl

/-- The counts of slices and of columns in them, for a dimension after the first. -/
theorem length_cols_split {a : Grid T} (h : a.Shaped) (d : Nat) {K : Nat} (hK : a.dim.length ≤ K) :
    a.v.length = places K (fun j => extOf a.dim (d + 1 + j + 1)) *
      (places d (fun j => extOf a.dim (j + 1)) * extOf a.dim (d + 1)) := by
  rw [length_cols h (show a.dim.length ≤ d + 1 + K + 1 by omega), places_split d K (extOf a.dim), Nat.mul_comm]

section Bind

variable {t u r : Grid T} {d K : Nat}
  (ht : t.Shaped) (hu : u.Shaped) (hr : r.Shaped)
  (hdims : ∀ j, j ≠ d + 1 → extOf t.dim j = extOf u.dim j)
  (hsum : extOf r.dim (d + 1) = extOf t.dim (d + 1) + extOf u.dim (d + 1))
  (hothers : ∀ j, j ≠ d + 1 → extOf r.dim j = extOf t.dim j)
  (hKt : t.dim.length ≤ K) (hKu : u.dim.length ≤ K) (hKr : r.dim.length ≤ d + 1 + K + 1)
  (hv : r.v = blocks (places d (fun j => extOf t.dim (j + 1)) * extOf t.dim (d + 1))
    (places d (fun j => extOf t.dim (j + 1)) * extOf u.dim (d + 1)) t.v u.v
    (places K fun j => extOf t.dim (d + 1 + j + 1)))

include ht hu hr hdims hsum hothers hKt hKu hKr hv

/-- Every element of slices in turn is that of one of the two arrays. -/
theorem elem_blocks (p : List Nat) (hp : Below p r.dim) : ∃ x, r.elem p = .ok x () ∧
    if coord p (d + 1) < extOf t.dim (d + 1) then t.elem (fit t.dim.length (coord p)) = .ok x ()
    else u.elem (fit u.dim.length fun j =>
      if j = d + 1 then coord p (d + 1) - extOf t.dim (d + 1) else coord p j) = .ok x () := by
  have hc := coord_lt hp
  obtain ⟨x, hx, hcol⟩ := elem_fit hr hc hKr
  rw [← hp.length_eq, fit_coord] at hx
  refine ⟨x, hx, ?_⟩
  -- the extents before and after the dimension are the same in all three
  have hubefore : ∀ j < d, extOf u.dim (j + 1) = extOf t.dim (j + 1) := fun j hj =>
    (hdims (j + 1) (by omega)).symm
  have huafter : ∀ j < K, extOf u.dim (d + 1 + j + 1) = extOf t.dim (d + 1 + j + 1) := fun j _ =>
    (hdims _ (by omega)).symm
  have hrbefore : ∀ j < d, extOf r.dim (j + 1) = extOf t.dim (j + 1) := fun j hj => hothers (j + 1) (by omega)
  have hrafter : ∀ j < K, extOf r.dim (d + 1 + j + 1) = extOf t.dim (d + 1 + j + 1) := fun j _ =>
    hothers _ (by omega)
  have hL : place d (fun j => extOf t.dim (j + 1)) (fun j => coord p (j + 1)) <
      places d fun j => extOf t.dim (j + 1) :=
    place_lt fun j hj => hrbefore j hj ▸ hc (j + 1)
  have hH : place K (fun j => extOf t.dim (d + 1 + j + 1)) (fun j => coord p (d + 1 + j + 1)) <
      places K fun j => extOf t.dim (d + 1 + j + 1) :=
    place_lt fun j hj => hrafter j hj ▸ hc (d + 1 + j + 1)
  have hcd := hc (d + 1)
  rw [hsum] at hcd
  rw [columnPlace_split, place_congr hrbefore fun _ _ => rfl, places_congr hrbefore,
    place_congr hrafter fun _ _ => rfl, hsum, hv, Nat.mul_add] at hcol
  generalize hLe : place d (fun j => extOf t.dim (j + 1)) (fun j => coord p (j + 1)) = L at hL hcol
  generalize hPe : places d (fun j => extOf t.dim (j + 1)) = P at hL hcol hv
  generalize hHe : place K (fun j => extOf t.dim (d + 1 + j + 1)) (fun j => coord p (d + 1 + j + 1)) = H
    at hH hcol
  have hi : L + P * coord p (d + 1) < P * extOf t.dim (d + 1) + P * extOf u.dim (d + 1) := by
    rw [← Nat.mul_add]
    exact add_mul_lt hL hcd
  have htlen : places K (fun j => extOf t.dim (d + 1 + j + 1)) * (P * extOf t.dim (d + 1)) ≤ t.v.length := by
    rw [length_cols_split ht d hKt, hPe]
  have hulen : places K (fun j => extOf t.dim (d + 1 + j + 1)) * (P * extOf u.dim (d + 1)) ≤ u.v.length := by
    rw [length_cols_split hu d hKu, places_congr huafter, places_congr hubefore, hPe]
  rw [getElem?_blocks htlen hulen hi hH] at hcol
  by_cases hlt : coord p (d + 1) < extOf t.dim (d + 1)
  · have hct : ∀ j, coord p j < extOf t.dim j := fun j => by
      by_cases hj : j = d + 1
      · exact hj ▸ hlt
      · exact hothers j hj ▸ hc j
    obtain ⟨y, hy, hycol⟩ := @elem_fit T t ht (coord p) hct (d + 1 + K) (by omega)
    have hicols : L + P * coord p (d + 1) < P * extOf t.dim (d + 1) := add_mul_lt hL hlt
    rw [columnPlace_split, hLe, hPe, hHe] at hycol
    rw [if_pos hicols, hycol] at hcol
    rw [if_pos hlt, ← Option.some.inj hcol]
    exact hy
  · have hle := Nat.le_of_not_lt hlt
    rw [if_neg hlt]
    generalize hcu : (fun j => if j = d + 1 then coord p (d + 1) - extOf t.dim (d + 1) else coord p j) = cu
    have hcud : cu (d + 1) = coord p (d + 1) - extOf t.dim (d + 1) := by rw [← hcu]; exact if_pos rfl
    have hcuj : ∀ j, j ≠ d + 1 → cu j = coord p j := fun j hj => by rw [← hcu]; exact if_neg hj
    have hcult : ∀ j, cu j < extOf u.dim j := fun j => by
      by_cases hj : j = d + 1
      · rw [hj, hcud]
        omega
      · rw [hcuj j hj, ← hdims j hj, ← hothers j hj]
        exact hc j
    obtain ⟨y, hy, hycol⟩ := @elem_fit T u hu cu hcult (d + 1 + K) (by omega)
    have hPle : P * extOf t.dim (d + 1) ≤ P * coord p (d + 1) := Nat.mul_le_mul_left P hle
    rw [columnPlace_split, place_congr hubefore fun j hj => hcuj (j + 1) (by omega), places_congr hubefore,
      place_congr huafter fun j _ => hcuj _ (by omega), hcud, hLe, hPe, hHe, hcuj 0 (by omega)] at hycol
    rw [if_neg (by omega), Nat.add_sub_assoc hPle, ← Nat.mul_sub, hycol] at hcol
    rw [← Option.some.inj hcol]
    exact hy

end Bind

/-- The result is shaped: its columns are those of the two arrays. -/
theorem shaped_blocks {t u r : Grid T} {d K : Nat} (ht : t.Shaped) (hu : u.Shaped) (hne : r.dim ≠ [])
    (hdims : ∀ j, j ≠ d + 1 → extOf t.dim j = extOf u.dim j)
    (hsum : extOf r.dim (d + 1) = extOf t.dim (d + 1) + extOf u.dim (d + 1))
    (hothers : ∀ j, j ≠ d + 1 → extOf r.dim j = extOf t.dim j)
    (hKt : t.dim.length ≤ K) (hKu : u.dim.length ≤ K) (hKr : r.dim.length ≤ d + 1 + K + 1)
    (hv : r.v = blocks (places d (fun j => extOf t.dim (j + 1)) * extOf t.dim (d + 1))
      (places d (fun j => extOf t.dim (j + 1)) * extOf u.dim (d + 1)) t.v u.v
      (places K fun j => extOf t.dim (d + 1 + j + 1))) : r.Shaped := by
  refine ⟨hne, ?_, fun c hc => ?_⟩
  · have htlen := length_cols_split ht d hKt
    have hulen := length_cols_split hu d hKu
    rw [places_congr fun j _ => (hdims (d + 1 + j + 1) (by omega)).symm,
      places_congr fun j hj => (hdims (j + 1) (by omega)).symm] at hulen
    have hprod := @prod_drop r.dim.tail (d + 1 + K) (by rw [List.length_tail]; omega) 0
    rw [List.drop_zero] at hprod
    rw [hv, length_blocks htlen.ge hulen.ge, hprod]
    have htail : (fun j => extOf r.dim.tail (0 + j)) = fun j => extOf r.dim (j + 1) := by
      funext j
      rw [← List.drop_one, extOf_drop, Nat.zero_add, Nat.add_comm]
    rw [htail, places_split, places_congr fun j hj => hothers (j + 1) (by omega),
      places_congr fun j _ => hothers (d + 1 + j + 1) (by omega), hsum, ← Nat.mul_add, Nat.mul_comm]
  · have h0 : r.dim.headD 0 = t.dim.headD 0 := by
      rw [headD_eq_extOf hne, headD_eq_extOf ht.ne, hothers 0 (by omega)]
    have h0u : r.dim.headD 0 = u.dim.headD 0 := by
      rw [h0, headD_eq_extOf ht.ne, headD_eq_extOf hu.ne, hdims 0 (by omega)]
    rw [hv] at hc
    rcases mem_blocks hc with hc | hc
    · rw [h0, ht.rows c hc]
    · rw [h0u, hu.rows c hc]

/-! ## More dimensions -/

theorem length_moreDims (noCols : Bool) (k d : Nat) : (Array.moreDims noCols k d).length = d + 1 - k := by
  rw [Array.moreDims, List.length_map, List.length_range']

/-- The dimensions that are added have extent 1, or 0 where the columns will be. -/
theorem extOf_moreDims (noCols : Bool) (dim : List Nat) (d j : Nat) :
    extOf (dim ++ Array.moreDims noCols dim.length d) j =
      if noCols = true ∧ dim.length ≤ d ∧ j = d then 0 else extOf dim j := by
  rcases Nat.lt_or_ge j dim.length with hlt | hge
  · rw [extOf, List.getD_append _ _ _ _ hlt, if_neg (by omega)]
    rfl
  · have hout : extOf dim j = 1 := List.getD_eq_default _ _ hge
    rw [extOf, List.getD_append_right _ _ _ _ hge, hout, List.getD_eq_getElem?_getD, Array.moreDims,
      List.getElem?_map]
    rcases Nat.lt_or_ge (j - dim.length) (d + 1 - dim.length) with hin | hbeyond
    · rw [List.getElem?_range' hin, show dim.length + 1 * (j - dim.length) = j by omega]
      by_cases hj : noCols = true ∧ j = d
      · rw [if_pos ⟨hj.1, by omega, hj.2⟩, hj.1, hj.2]
        simp
      · rw [if_neg fun hc => hj ⟨hc.1, hc.2.2⟩]
        cases noCols with
        | false => rfl
        | true => simpa using fun h => hj ⟨rfl, h⟩
    · rw [List.getElem?_eq_none (by rw [List.length_range']; exact hbeyond), if_neg (by omega)]
      rfl

theorem extOf_set {dim : List Nat} {d : Nat} (h : d < dim.length) (x j : Nat) :
    extOf (dim.set d x) j = if j = d then x else extOf dim j := by
  rw [extOf, List.getD_eq_getElem?_getD, List.getElem?_set]
  by_cases hj : d = j
  · rw [if_pos hj, if_pos h, if_pos hj.symm]
    rfl
  · rw [if_neg hj, if_neg (Ne.symm hj), extOf, List.getD_eq_getElem?_getD]

/-- The dimensions of `t` once there is a dimension `d`. -/
def moreThan (t : Grid T) (d : Nat) : List Nat :=
  t.dim ++ Array.moreDims t.v.isEmpty t.dim.length d

theorem length_moreThan (t : Grid T) (d : Nat) : (moreThan t d).length = max t.dim.length (d + 1) := by
  rw [moreThan, List.length_append, length_moreDims]
  omega

theorem extOf_moreThan (t : Grid T) (d j : Nat) :
    extOf (moreThan t d) j = if t.v = [] ∧ t.dim.length ≤ d ∧ j = d then 0 else extOf t.dim j := by
  rw [moreThan, extOf_moreDims]
  simp only [List.isEmpty_iff]

/-- `t` with a dimension `d`. -/
def widened (t : Grid T) (d : Nat) : Grid T :=
  addDims (Array.moreDims t.v.isEmpty t.dim.length d) t

/-- What `abind` comes down to in a dimension after the first. -/
theorem abind_eq {t u : Grid T} {d : Nat} (ht : t.dim ≠ []) (hd : d ≠ 0)
    (hdims : ∀ j, j ≠ d → extOf t.dim j = extOf u.dim j) :
    abind u d t = (bindColumns u d (widened t d)).elim .fault (withColumns u d (widened t d)) := by
  have hzero (n : Nat) : ¬ (d = 0 ∧ n = 1) := fun h => hd h.1
  rw [abind, if_neg (hzero _), if_neg (hzero _), abindRest, checkdims_of_extOf hdims, if_neg (by simp),
    if_neg ht]
  show (if d = 0 then _ else bindColumns u d (widened t d)).elim _ (withColumns u d (widened t d)) = _
  rw [if_neg hd]

theorem withColumns_eq {t u : Grid T} {d : Nat} (ht : t.WellFormed) (hu : u.WellFormed) (v : List (List T)) :
    ∃ nms, withColumns u d (widened t d) v =
      .ok ⟨(moreThan t d).set d (wrap (extOf (moreThan t d) d + extOf u.dim d)), v, nms⟩ () := by
  have htn : t.names.length = t.dim.length := by rw [← ht.recs, List.length_map]
  have hun : u.names.length = u.dim.length := by rw [← hu.recs, List.length_map]
  obtain ⟨newnames, hnew⟩ : ∃ nm, newNames u d = some nm := by
    rw [newNames]
    split
    next h => exact ⟨_, List.getElem?_eq_getElem (hun ▸ h)⟩
    next => exact ⟨_, rfl⟩
  have hdlt : d < (moreThan t d).length := by
    rw [length_moreThan]
    omega
  have hext : (widened t d).dim[d]? = some (extOf (moreThan t d) d) := by
    show (moreThan t d)[d]? = _
    rw [extOf, List.getD_eq_getElem?_getD, List.getElem?_eq_getElem hdlt]
    rfl
  have hdnm : d < (widened t d).names.length := by
    show d < (t.names ++ (Array.moreDims t.v.isEmpty t.dim.length d).map Names.ofExtent).length
    rw [List.length_append, htn, List.length_map, length_moreDims]
    omega
  refine ⟨takeNames u.names d 0 ((widened t d).names.set d (newnames.addNames (widened t d).names[d])), ?_⟩
  rw [withColumns, hnew, hext, List.getElem?_eq_getElem hdnm]
  rfl

/-- The columns of the result. -/
theorem bindColumns_widened {t u : Grid T} {d K : Nat} (ht : t.Shaped) (hu : u.Shaped)
    (hdims : ∀ j, j ≠ d + 1 → extOf t.dim j = extOf u.dim j) (hfew : t.v.length + u.v.length < 2 ^ 31)
    (hcols : t.v ≠ [] ∨ d + 1 < t.dim.length) (hKt : t.dim.length + d + 2 ≤ K) (hKu : u.dim.length ≤ K) :
    bindColumns u (d + 1) (widened t (d + 1)) =
      some (blocks (places d (fun j => extOf t.dim (j + 1)) * extOf t.dim (d + 1))
        (places d (fun j => extOf t.dim (j + 1)) * extOf u.dim (d + 1)) t.v u.v
        (places K fun j => extOf t.dim (d + 1 + j + 1))) := by
  have hext (j : Nat) : extOf (moreThan t (d + 1)) j = extOf t.dim j := by
    rw [extOf_moreThan, if_neg]
    rintro ⟨hnil, hle, -⟩
    rcases hcols with h | h
    · exact h hnil
    · omega
  have htake {dim : List Nat} : ((dim.drop 1).take (d + 1)).prod =
      places d (fun j => extOf dim (j + 1)) * extOf dim (d + 1) := by
    have hdrop : extOf (dim.drop 1) = fun j => extOf dim (j + 1) :=
      funext fun j => by rw [extOf_drop, Nat.add_comm]
    rw [prod_take, hdrop, places_add, places, places, Nat.mul_one]
  have huv := length_cols_split hu d hKu
  rw [places_congr fun j _ => (hdims (d + 1 + j + 1) (by omega)).symm,
    places_congr fun j hj => (hdims (j + 1) (by omega)).symm] at huv
  refine bindColumns_eq hu.ne ?_ ?_ ?_ (length_cols_split ht d (by omega)) huv hfew
  · show (((moreThan t (d + 1)).drop 1).take (d + 1)).prod = _
    rw [htake]
    simp only [hext]
  · rw [htake, places_congr fun j hj => (hdims (j + 1) (by omega)).symm]
  · show ((moreThan t (d + 1)).drop (d + 1 + 1)).prod = _
    rw [prod_drop (show (moreThan t (d + 1)).length ≤ K by rw [length_moreThan]; omega)]
    simp only [hext]
    exact places_congr fun j _ => by rw [Nat.add_right_comm]

/-- `abind` of arrays with the same extents but in dimension `d`, which is not the first, gives
the two side by side exactly when `t` has a column or that dimension, and the sum of the two
extents does not wrap. -/
theorem abind_iff {t u : Grid T} (ht : t.WellFormed) (hu : u.WellFormed) {d : Nat} (hd : 0 < d)
    (hdims : ∀ j, j ≠ d → extOf t.dim j = extOf u.dim j) (hfew : t.v.length + u.v.length < 2 ^ 31) :
    (∃ r, abind u d t = .ok r () ∧ IsBind t u d r) ↔
      (t.v ≠ [] ∨ d < t.dim.length) ∧ extOf t.dim d + extOf u.dim d < 2 ^ 64 := by
  have hdlt : d < (moreThan t d).length := by
    rw [length_moreThan]
    omega
  rw [abind_eq ht.ne (by omega) hdims]
  constructor
  · rintro ⟨r, hr, hbind⟩
    have hsum := hbind.sum
    obtain ⟨v, hv⟩ : ∃ v, bindColumns u d (widened t d) = some v := by
      cases hv : bindColumns u d (widened t d) with
      | none =>
          rw [hv] at hr
          cases hr
      | some v => exact ⟨v, rfl⟩
    obtain ⟨nms, hwith⟩ := withColumns_eq (d := d) ht hu v
    rw [hv, Option.elim_some, hwith] at hr
    cases hr
    have hwrap : wrap (extOf (moreThan t d) d + extOf u.dim d) = extOf t.dim d + extOf u.dim d := by
      rw [← hsum]
      exact ((extOf_set hdlt _ d).trans (if_pos rfl)).symm
    have hext := extOf_moreThan t d d
    rw [wrap] at hwrap
    refine ⟨?_, by omega⟩
    by_contra hno
    have hnil : t.v = [] := by
      by_contra h
      exact hno (.inl h)
    have hle : t.dim.length ≤ d := Nat.le_of_not_lt fun h => hno (.inr h)
    have hone : extOf t.dim d = 1 := List.getD_eq_default _ _ hle
    rw [if_pos ⟨hnil, hle, rfl⟩] at hext
    have hmod := Nat.mod_le (extOf (moreThan t d) d + extOf u.dim d) (2 ^ 64)
    omega
  · rintro ⟨hcols, hlt⟩
    obtain ⟨d, rfl⟩ := Nat.exists_eq_succ_of_ne_zero (show d ≠ 0 by omega)
    generalize hK : t.dim.length + u.dim.length + d + 2 = K
    obtain ⟨nms, hwith⟩ := withColumns_eq (d := d + 1) ht hu
      (blocks (places d (fun j => extOf t.dim (j + 1)) * extOf t.dim (d + 1))
        (places d (fun j => extOf t.dim (j + 1)) * extOf u.dim (d + 1)) t.v u.v
        (places K fun j => extOf t.dim (d + 1 + j + 1)))
    have hrun := @bindColumns_widened T t u d K ht.shaped hu.shaped hdims hfew hcols (by omega) (by omega)
    have hmore : extOf (moreThan t (d + 1)) = extOf t.dim := by
      funext j
      rw [extOf_moreThan, if_neg]
      rintro ⟨hnil, hle, -⟩
      rcases hcols with h | h
      · exact h hnil
      · exact Nat.not_le_of_lt h hle
    rw [Nat.succ_eq_add_one] at *
    rw [hrun, Option.elim_some, hwith, hmore, wrap, Nat.mod_eq_of_lt hlt]
    refine ⟨_, rfl, ?_⟩
    have hext (j : Nat) := extOf_set hdlt (extOf t.dim (d + 1) + extOf u.dim (d + 1)) j
    have hsum := (hext (d + 1)).trans (if_pos rfl)
    have hothers : ∀ j, j ≠ d + 1 → _ := fun j hj =>
      ((hext j).trans (if_neg hj)).trans (congrFun hmore j)
    have hlen : ((moreThan t (d + 1)).set (d + 1) (extOf t.dim (d + 1) + extOf u.dim (d + 1))).length =
        max t.dim.length (d + 1 + 1) := by rw [List.length_set, length_moreThan]
    have hne : (moreThan t (d + 1)).set (d + 1) (extOf t.dim (d + 1) + extOf u.dim (d + 1)) ≠ [] := by
      rw [← List.length_pos_iff, hlen]
      omega
    have hKr : ((moreThan t (d + 1)).set (d + 1) (extOf t.dim (d + 1) + extOf u.dim (d + 1))).length ≤
        d + 1 + K + 1 := by
      rw [hlen]
      omega
    refine ⟨hsum, hothers, hlen, ?_⟩
    have hshaped := @shaped_blocks T t u ⟨_, _, nms⟩ d K ht.shaped hu.shaped hne hdims hsum hothers (by omega) (by omega) hKr rfl
    exact elem_blocks ht.shaped hu.shaped hshaped hdims hsum hothers (by omega) (by omega) hKr rfl

/-- Two columns and one, side by side. -/
theorem abind_iff_two :
    let t : Grid Nat := ⟨[1, 2], [[10], [20]], [.ofExtent 1, .ofExtent 2]⟩
    let u : Grid Nat := ⟨[1, 1], [[30]], [.ofExtent 1, .ofExtent 1]⟩
    ∃ r, abind u 1 t = .ok r () ∧ IsBind t u 1 r := by
  intro t u
  have ht : t.WellFormed := ⟨by decide, by decide, by decide, by decide, by decide⟩
  have hu : u.WellFormed := ⟨by decide, by decide, by decide, by decide, by decide⟩
  have hdims : ∀ j, j ≠ 1 → extOf t.dim j = extOf u.dim j
    | 0, _ => rfl
    | 1, h => absurd rfl h
    | _ + 2, _ => rfl
  exact (abind_iff ht hu Nat.one_pos hdims (by decide)).2 ⟨.inl (List.cons_ne_nil _ _), by decide⟩

/-- A matrix without columns, bound in a third dimension with extent 3: the sum is 3, not 4. -/
theorem not_abind :
    let t : Grid Nat := ⟨[2, 0], [], [.ofExtent 2, .ofExtent 0]⟩
    let u : Grid Nat := ⟨[2, 0, 3], [], [.ofExtent 2, .ofExtent 0, .ofExtent 3]⟩
    ¬ ∃ r, abind u 2 t = .ok r () ∧ IsBind t u 2 r := by
  rintro t u ⟨r, hr, hbind⟩
  have hrun : abind u 2 t = .ok ⟨[2, 0, 3], [], [.ofExtent 2, .ofExtent 0, .ofExtent 3]⟩ () := rfl
  rw [hrun] at hr
  cases hr
  exact absurd hbind.sum (by decide)

end Grid

end Ztsdb.Arr
