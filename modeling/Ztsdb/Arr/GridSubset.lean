import Mathlib
import Ztsdb.Arr.Odometer

/-!
# Subsets of arrays, element by element

With one index for each dimension, what lands in the columns of the result are the elements
at the selected positions, in their order: column by column when the first dimension stays,
and one by one into columns of another length when it is dropped. The extents of 1 that are
dropped do not change the place of an element, so its coordinates are those of the places in
the indices, without the dropped ones.
-/

namespace Ztsdb.Arr

open Ztsdb.Lib

/-! ## The loop over the columns -/

/-- When all columns are there and the body keeps `Inv`, which is about the tuples to come. -/
theorem runCols_ok {σ : Type} {dim : List Nat} {body : Nat → σ → Outcome Exn Unit σ}
    (Inv : List (List Nat) → σ → Prop)
    (hbody : ∀ t ts s, Inv (t :: ts) s → Below t dim → ∃ s', body (lin dim t) s = .ok s' () ∧ Inv ts s')
    {ts : List (List Nat)} (hts : ∀ t ∈ ts, Below t dim) {s : σ} (h : Inv ts s) :
    ∃ s', runCols dim body ts s = .ok s' () ∧ Inv [] s' := by
  induction ts generalizing s with
  | nil => exact ⟨s, rfl, h⟩
  | cons t ts ih =>
      have ht := hts t List.mem_cons_self
      obtain ⟨s', hs', hinv⟩ := hbody t ts s h ht
      obtain ⟨s'', hs'', h0⟩ := ih (fun u hu => hts u (List.mem_cons_of_mem t hu)) hinv
      refine ⟨s'', ?_, h0⟩
      rw [runCols, columnAt_below ht]
      show (body (lin dim t) s).bind _ = _
      rw [hs']
      exact hs''

/-- A tuple that is out of bounds, at the latest, makes the loop throw. -/
theorem runCols_throw {σ : Type} {dim : List Nat} {body : Nat → σ → Outcome Exn Unit σ}
    (Inv : List (List Nat) → σ → Prop)
    (hbody : ∀ t ts s, Inv (t :: ts) s → Below t dim →
      (∃ s', body (lin dim t) s = .ok s' () ∧ Inv ts s') ∨ ∃ e, body (lin dim t) s = .throw e ())
    {ts : List (List Nat)} (hlen : ∀ t ∈ ts, t.length = dim.length)
    (hts : ¬ ∀ t ∈ ts, Below t dim) {s : σ} (h : Inv ts s) :
    ∃ e, runCols dim body ts s = .throw e () := by
  induction ts generalizing s with
  | nil => exact absurd nofun hts
  | cons t ts ih =>
      rw [runCols]
      by_cases ht : Below t dim
      · rw [columnAt_below ht]
        show ∃ e, (body (lin dim t) s).bind _ = _
        rcases hbody t ts s h ht with ⟨s', hs', hinv⟩ | ⟨e, he⟩
        · rw [hs']
          refine ih (fun u hu => hlen u (List.mem_cons_of_mem t hu)) (fun hall => hts fun u hu => ?_) hinv
          rcases List.mem_cons.1 hu with rfl | hu
          · exact ht
          · exact hall u hu
        · rw [he]
          exact ⟨e, rfl⟩
      · rw [columnAt, column_of_not_below (hlen t List.mem_cons_self) ht]
        exact ⟨_, rfl⟩

/-! ## Extents without those that are dropped -/

/-- What is left of `l` without the places where `sizes` has a 1, when these are dropped. -/
def kept {α : Type} (drop : Bool) : List Nat → List α → List α
  | d :: sizes, x :: l => if drop = true ∧ d = 1 then kept drop sizes l else x :: kept drop sizes l
  | _, _ => []

theorem kept_cons {α : Type} (drop : Bool) (d : Nat) (sizes : List Nat) (x : α) (l : List α) :
    kept drop (d :: sizes) (x :: l) =
      if drop = true ∧ d = 1 then kept drop sizes l else x :: kept drop sizes l := rfl

/-- What the operator leaves of what goes with the extents: at least one. -/
def keptBy {α : Type} (drop : Bool) (sizes : List Nat) (l : List α) : List α :=
  if kept drop sizes sizes = [] then l.take 1 else kept drop sizes l

section Kept

variable {drop : Bool}

theorem kept_false (sizes : List Nat) : kept false sizes sizes = sizes := by
  induction sizes with
  | nil => rfl
  | cons d sizes ih => rw [kept_cons, if_neg (fun h => Bool.false_ne_true h.1), ih]

theorem kept_true (sizes : List Nat) : kept true sizes sizes = sizes.filter (· ≠ 1) := by
  induction sizes with
  | nil => rfl
  | cons d sizes ih =>
      rw [kept_cons, ih]
      by_cases hd : d = 1 <;> simp [hd]

theorem prod_kept (sizes : List Nat) : (kept drop sizes sizes).prod = sizes.prod := by
  induction sizes with
  | nil => rfl
  | cons d sizes ih =>
      rw [kept_cons]
      split
      next hd => rw [ih, List.prod_cons, hd.2, Nat.one_mul]
      next => rw [List.prod_cons, ih, List.prod_cons]

theorem lin_kept {sizes q : List Nat} (h : Below q sizes) :
    lin (kept drop sizes sizes) (kept drop sizes q) = lin sizes q := by
  induction h with
  | nil => rfl
  | @cons x d q sizes hx _ ih =>
      rw [kept_cons, kept_cons, lin]
      split
      next hd =>
        rw [ih]
        have hx0 : x = 0 := by omega
        rw [hx0, hd.2, Nat.one_mul, Nat.zero_add]
      next => rw [lin, ih]

theorem below_kept {sizes q : List Nat} (h : Below q sizes) :
    Below (kept drop sizes q) (kept drop sizes sizes) := by
  induction h with
  | nil => exact .nil
  | @cons x d q sizes hx _ ih =>
      rw [kept_cons, kept_cons]
      split
      next => exact ih
      next => exact .cons hx ih

/-- Every place among the extents that are left is that of a place among all of them. -/
theorem exists_kept {sizes p : List Nat} (h : Below p (kept drop sizes sizes)) :
    ∃ q, Below q sizes ∧ kept drop sizes q = p := by
  induction sizes generalizing p with
  | nil =>
      cases h
      exact ⟨[], .nil, rfl⟩
  | cons d sizes ih =>
      rw [kept_cons] at h
      split at h
      next hd =>
        obtain ⟨q, hq, hp⟩ := ih h
        exact ⟨0 :: q, .cons (hd.2 ▸ Nat.one_pos) hq, by rw [kept_cons, if_pos hd, hp]⟩
      next hd =>
        obtain _ | ⟨hx, hp⟩ := h
        obtain ⟨q, hq, hp'⟩ := ih hp
        exact ⟨_ :: q, .cons hx hq, by rw [kept_cons, if_neg hd, hp']⟩

theorem all_one {sizes : List Nat} (h : kept drop sizes sizes = []) : ∀ d ∈ sizes, drop = true ∧ d = 1 := by
  induction sizes with
  | nil => nofun
  | cons e sizes ih =>
      rw [kept_cons] at h
      split at h
      next he =>
        intro d hd
        rcases List.mem_cons.1 hd with rfl | hd
        · exact he
        · exact ih h d hd
      next => cases h

theorem kept_nil {α : Type} {sizes : List Nat} (h : kept drop sizes sizes = []) {l : List α} :
    kept drop sizes l = [] := by
  induction sizes generalizing l with
  | nil => rfl
  | cons d sizes ih =>
      cases l with
      | nil => rfl
      | cons x l =>
          rw [kept_cons] at h ⊢
          split at h
          next hd =>
            rw [if_pos hd]
            exact ih h
          next => cases h

theorem lin_all_one {sizes q : List Nat} (h : Below q sizes) (hone : ∀ d ∈ sizes, drop = true ∧ d = 1) :
    lin sizes q = 0 := by
  induction h with
  | nil => rfl
  | @cons x d q sizes hx _ ih =>
      have hd := (hone d List.mem_cons_self).2
      rw [lin, ih fun e he => hone e (List.mem_cons_of_mem d he)]
      omega

theorem below_keptBy {sizes q : List Nat} (h : Below q sizes) :
    Below (keptBy drop sizes q) (keptBy drop sizes sizes) := by
  rw [keptBy, keptBy]
  split
  next =>
    cases h with
    | nil => exact .nil
    | cons hx _ => exact .cons hx .nil
  next => exact below_kept h

theorem lin_keptBy {sizes q : List Nat} (h : Below q sizes) :
    lin (keptBy drop sizes sizes) (keptBy drop sizes q) = lin sizes q := by
  rw [keptBy, keptBy]
  split
  next hk =>
    rw [lin_all_one h (all_one hk)]
    cases h with
    | nil => rfl
    | @cons x d _ sizes hx _ =>
        have hd := (all_one hk d List.mem_cons_self).2
        show x + d * 0 = 0
        omega
  next => exact lin_kept h

theorem exists_keptBy {sizes p : List Nat} (h : Below p (keptBy drop sizes sizes)) :
    ∃ q, Below q sizes ∧ keptBy drop sizes q = p := by
  unfold keptBy at h ⊢
  split at h
  next hk =>
    simp only [if_pos hk]
    cases sizes with
    | nil =>
        cases h
        exact ⟨[], .nil, rfl⟩
    | cons d sizes =>
        obtain _ | ⟨hx, hp⟩ := h
        cases hp
        refine ⟨_ :: List.replicate sizes.length 0, .cons hx ?_, rfl⟩
        have hone := fun e he => (all_one hk e (List.mem_cons_of_mem d he)).2
        rw [List.eq_replicate_of_mem hone, List.length_replicate]
        exact List.forall₂_iff_get.2 ⟨by simp, by simp⟩
  next hk =>
    simp only [if_neg hk]
    exact exists_kept h

theorem keptBy_cons {α : Type} {d : Nat} {sizes : List Nat} {x : α} {l : List α}
    (h : ¬ (drop = true ∧ d = 1)) : keptBy drop (d :: sizes) (x :: l) = x :: kept drop sizes l := by
  rw [keptBy, kept_cons, if_neg h, if_neg (List.cons_ne_nil _ _), kept_cons, if_neg h]

theorem keptBy_one {α : Type} {d : Nat} (hd : d = 1) {sizes : List Nat} {x : α} {l : List α} :
    keptBy true (d :: sizes) (x :: l) = if kept true sizes sizes = [] then [x] else kept true sizes l := by
  have hsizes : kept true (d :: sizes) (d :: sizes) = kept true sizes sizes := if_pos ⟨rfl, hd⟩
  have hl : kept true (d :: sizes) (x :: l) = kept true sizes l := if_pos ⟨rfl, hd⟩
  rw [keptBy, hsizes, hl]
  rfl

theorem keptBy_ne_nil {sizes : List Nat} (h : sizes ≠ []) : keptBy drop sizes sizes ≠ [] := by
  rw [keptBy]
  split
  next => simpa using h
  next hk => exact hk

theorem prod_keptBy (sizes : List Nat) : (keptBy drop sizes sizes).prod = sizes.prod := by
  rw [keptBy]
  split
  next hk =>
    rw [← @prod_kept drop sizes, hk]
    cases sizes with
    | nil => rfl
    | cons d sizes =>
        show d * 1 = 1
        rw [(all_one hk d List.mem_cons_self).2]
  next => exact prod_kept sizes

end Kept

/-- Not a logical index. -/
def Index.Plain (i : Index) : Prop := ∀ b, i ≠ .bool b

namespace Grid

variable {T : Type}

/-- `operator[](vector<idx_type>)`. -/
def elem (p : List Nat) (a : Grid T) : Outcome Exn Unit T :=
  if p.length ≠ a.dim.length then .throw (.rangeError "index dimension mismatch") ()
  else match p, a.dim with
    | p0 :: ps, d0 :: ds =>
      if d0 ≤ p0 then .throw (.rangeError "subscript out of bounds") ()
      else (thrown (columnAt ds ps)).bind fun col _ =>
        match a.v[col]? with
        | none => .fault
        | some vc =>
          match vc[p0]? with
          | none => .throw (.outOfRange "subscript out of bounds") ()
          | some x => .ok x ()
    | _, _ => .fault

/-- The element at a place of its column. -/
theorem elem_col {a : Grid T} {d p0 : Nat} {ds ps : List Nat} (hd : a.dim = d :: ds)
    (hcols : a.v.length = ds.prod) (hrows : ∀ c ∈ a.v, c.length = d) (h0 : p0 < d) (hps : Below ps ds) :
    ∃ x, a.elem (p0 :: ps) = .ok x () ∧ a.v[lin ds ps]?.bind (·[p0]?) = some x := by
  have hlt : lin ds ps < a.v.length := hcols ▸ lin_lt hps
  have hlen : p0 < (a.v[lin ds ps]).length := by
    rw [hrows _ (List.getElem_mem hlt)]
    exact h0
  have hl : ps.length = ds.length := hps.length_eq
  refine ⟨(a.v[lin ds ps])[p0], ?_, ?_⟩
  · simp only [elem, hd, List.length_cons, hl, ne_eq, not_true_eq_false, if_false,
      Nat.not_le_of_lt h0, columnAt_below hps, thrown, Outcome.bind_ok,
      List.getElem?_eq_getElem hlt, List.getElem?_eq_getElem hlen]
  · rw [List.getElem?_eq_getElem hlt]
    exact List.getElem?_eq_getElem hlen

/-- The element at a place of the columns one after the other. -/
theorem elem_eq {a : Grid T} (hcols : a.v.length = a.dim.tail.prod)
    (hrows : ∀ c ∈ a.v, c.length = a.dim.headD 0) (hne : a.dim ≠ []) {p : List Nat} (hp : Below p a.dim) :
    ∃ x, a.elem p = .ok x () ∧ a.v.flatten[lin a.dim p]? = some x := by
  cases hd : a.dim with
  | nil => exact absurd hd hne
  | cons d ds =>
      rw [hd] at hcols hrows hp
      cases hp with
      | @cons p0 _ ps _ h0 hps =>
          obtain ⟨x, hx, hcol⟩ := elem_col hd hcols hrows h0 hps
          have hflat : (a.v.flatMap fun c => c)[p0 + d * lin ds ps]? = _ := getElem?_flatMap hrows h0
          rw [List.flatMap_id'] at hflat
          exact ⟨x, hx, hflat.trans hcol⟩

/-- The elements at the selected positions, in order. -/
def values (a : Grid T) (is : List Index) : List (Option T) :=
  (combos (is.map Index.positions)).map fun t => a.v.flatten[lin a.dim t]?

theorem values_cons {a : Grid T} {d0 : Nat} {ds : List Nat} {i0 : Index} {rest : List Index}
    (hd : a.dim = d0 :: ds) (hrows : ∀ c ∈ a.v, c.length = d0)
    (h0 : ∀ p ∈ i0.positions, p < d0) :
    a.values (i0 :: rest) = (combos (rest.map Index.positions)).flatMap fun t =>
      i0.positions.map fun p => a.v[lin ds t]?.bind (·[p]?) := by
  rw [values, List.map_cons, combos, List.map_flatMap]
  refine List.flatMap_congr fun t _ => ?_
  rw [List.map_map]
  refine List.map_congr_left fun p hp => ?_
  have hflat := @getElem?_flatMap _ _ (fun c : List T => c) d0 a.v hrows p (lin ds t) (h0 p hp)
  rw [List.flatMap_id'] at hflat
  show a.v.flatten[lin a.dim (p :: t)]? = _
  rw [hd, lin, hflat]

/-- What the loops have to come to: columns of `R` elements, those selected in order. -/
structure Filled (a : Grid T) (is : List Index) (R n : Nat) (rv : List (List T)) : Prop where
  cols : rv.length = n
  rows : ∀ c ∈ rv, c.length = R
  elts : rv.flatten.map some = a.values is

/-! ## Columns of the result from columns -/

theorem flatten_replicate_nil (n : Nat) : (List.replicate n ([] : List T)).flatten = [] := by
  induction n with
  | zero => rfl
  | succ n ih => rw [List.replicate_succ, List.flatten_cons, ih, List.append_nil]

/-- The body puts the selected elements of a column into the next column of the result. -/
theorem pushCol_ok {v : List (List T)} {i0 : Index} {col : Nat} {vc : List T} (hc : v[col]? = some vc)
    (hfit : i0.Fits vc.length) (hin : ∀ p ∈ i0.positions, p < vc.length) (done : List (List T)) (n : Nat) :
    ∃ l : List T, l.map some = i0.positions.map (vc[·]?) ∧
      pushCol v i0 col (done ++ List.replicate (n + 1) [], done.length) =
        .ok (done ++ [l] ++ List.replicate n [], (done ++ [l]).length) () := by
  obtain ⟨-, hsub⟩ : _ ∧ i0.subset [] vc = pushEach vc i0.positions [] := by
    rcases Index.subset_eq hfit with h | ⟨hno, -⟩
    · exact h
    · exact absurd hin hno
  obtain ⟨r, hr⟩ := pushEach_of_lt ([] : List T) hin
  obtain ⟨l, hl, hmap⟩ := pushEach_eq_ok hr
  rw [List.nil_append] at hl hr
  subst hl
  refine ⟨r, hmap, ?_⟩
  have hget : (done ++ List.replicate (n + 1) ([] : List T))[done.length]? = some [] := by
    rw [List.replicate_succ, List.getElem?_append_right (Nat.le_refl _), Nat.sub_self]
    rfl
  simp only [pushCol, hc, hget, hsub, hr, thrown, Outcome.bind_ok]
  rw [List.replicate_succ, List.set_append_right _ _ (Nat.le_refl _), Nat.sub_self, List.set_cons_zero,
    List.append_assoc, List.length_append]
  rfl

/-- An index over a column of a well formed array. -/
theorem fits_of_over {i : Index} {n : Nat} (hover : i.Over n) (hplain : i.Plain) : i.Fits n := by
  cases i with
  | null idx => exact hover
  | int idx => trivial
  | intNeg idx => exact hover
  | bool idx => exact absurd rfl (hplain idx)

/-- The elements that a column index selects in the columns of the tuples `us`. -/
def columnValues (a : Grid T) (ds : List Nat) (ps : List Nat) (us : List (List Nat)) : List (Option T) :=
  us.flatMap fun t => ps.map fun p => a.v[lin ds t]?.bind (·[p]?)

/-- The columns of the result that are filled when the tuples `us` are left. -/
structure Pushed (a : Grid T) (ds : List Nat) (i0 : Index) (total : List (Option T)) (n : Nat)
    (us : List (List Nat)) (s : List (List T) × Nat) (done : List (List T)) : Prop where
  state : s = (done ++ List.replicate us.length [], done.length)
  count : done.length + us.length = n
  rows : ∀ c ∈ done, c.length = Indexing.size i0
  elts : done.flatten.map some ++ columnValues a ds i0.positions us = total

theorem pushCol_step {a : Grid T} {d0 : Nat} {ds : List Nat} {i0 : Index} {total : List (Option T)} {n : Nat}
    (hrows : ∀ c ∈ a.v, c.length = d0) (hcols : a.v.length = ds.prod) (hfit : i0.Fits d0)
    (h0 : ∀ p ∈ i0.positions, p < d0) (t : List Nat) (us : List (List Nat)) (s : List (List T) × Nat)
    (h : ∃ done, Pushed a ds i0 total n (t :: us) s done) (ht : Below t ds) :
    ∃ s', pushCol a.v i0 (lin ds t) s = .ok s' () ∧ ∃ done, Pushed a ds i0 total n us s' done := by
  obtain ⟨done, hp⟩ := h
  have hlt : lin ds t < a.v.length := hcols ▸ lin_lt ht
  have hc := List.getElem?_eq_getElem hlt
  have hclen := hrows _ (List.getElem_mem hlt)
  obtain ⟨l, hmap, hok⟩ := pushCol_ok hc (hclen ▸ hfit) (hclen ▸ h0) done us.length
  refine ⟨_, hp.state ▸ hok, done ++ [l], rfl, ?_, ?_, ?_⟩
  · have hcount := hp.count
    rw [List.length_cons] at hcount
    rw [List.length_append, List.length_singleton]
    omega
  · intro c hmem
    rcases List.mem_append.1 hmem with hmem | hmem
    · exact hp.rows c hmem
    · rw [List.mem_singleton.1 hmem, ← i0.length_positions]
      simpa using congrArg List.length hmap
  · rw [← hp.elts, columnValues, columnValues, List.flatMap_cons, hc, List.flatten_append,
      List.flatten_singleton, List.map_append, hmap, List.append_assoc]
    rfl

theorem pushed_start (a : Grid T) (ds : List Nat) (i0 : Index) (ts : List (List Nat)) :
    Pushed a ds i0 (columnValues a ds i0.positions ts) ts.length ts (List.replicate ts.length [], 0) [] :=
  ⟨rfl, Nat.zero_add _, nofun, rfl⟩

theorem runCols_pushCol {a : Grid T} {d0 : Nat} {ds : List Nat} {i0 : Index} {rest : List Index}
    (hd : a.dim = d0 :: ds) (hrows : ∀ c ∈ a.v, c.length = d0) (hcols : a.v.length = ds.prod)
    (hfit : i0.Fits d0) (h0 : ∀ p ∈ i0.positions, p < d0)
    (hr : ∀ t ∈ combos (rest.map Index.positions), Below t ds) :
    ∃ rv n, runCols ds (pushCol a.v i0) (combos (rest.map Index.positions))
        (List.replicate (combos (rest.map Index.positions)).length [], 0) = .ok (rv, n) () ∧
      Filled a (i0 :: rest) (Indexing.size i0) (combos (rest.map Index.positions)).length rv := by
  obtain ⟨s', hrun, done, hend⟩ := runCols_ok
    (fun us s => ∃ done, Pushed a ds i0 _ _ us s done) (pushCol_step hrows hcols hfit h0) hr
    ⟨[], pushed_start a ds i0 _⟩
  have hs : s' = (done, done.length) := by
    rw [hend.state, List.length_nil, List.replicate_zero, List.append_nil]
  refine ⟨done, done.length, hs ▸ hrun, hend.count, hend.rows, ?_⟩
  rw [values_cons hd hrows h0]
  simpa [columnValues] using hend.elts

/-! ## Columns of the result from single elements -/

/-- What is filled when `k` elements are left: full columns, and one that is not unless there
is none to come. -/
inductive Filling (R : Nat) : Nat → List (List T) × Nat → List T → Prop
  | full {done : List (List T)} (h : ∀ c ∈ done, c.length = R) :
      Filling R 0 (done, done.length) done.flatten
  | part {done : List (List T)} {b : List T} {m : Nat} (h : ∀ c ∈ done, c.length = R) (hb : b.length < R) :
      Filling R (R - b.length + R * m) (done ++ b :: List.replicate m [], done.length) (done.flatten ++ b)

/-- One more element. -/
theorem pushElt_ok {v : List (List T)} {uidx col R k : Nat} {vc : List T} {x : T}
    {s : List (List T) × Nat} {l : List T} (hc : v[col]? = some vc) (hx : vc[uidx]? = some x)
    (h : Filling R (k + 1) s l) :
    ∃ s', pushElt v uidx R col s = .ok s' () ∧ Filling R k s' (l ++ [x]) ∧ s'.1.length = s.1.length := by
  generalize hk : k + 1 = k' at h
  cases h with
  | full h => cases hk
  | @part done b m h hb =>
      have hget : (done ++ b :: List.replicate m [])[done.length]? = some b := by
        rw [List.getElem?_append_right (Nat.le_refl _), Nat.sub_self]
        rfl
      have hset (y : List T) : (done ++ b :: List.replicate m []).set done.length y =
          done ++ y :: List.replicate m [] := by
        rw [List.set_append_right _ _ (Nat.le_refl _), Nat.sub_self, List.set_cons_zero]
      simp only [pushElt, hc, hx, hget, hset]
      refine ⟨_, rfl, ?_, by simp⟩
      by_cases hfull : b.length + 1 = R
      · rw [if_pos hfull]
        have hrows : ∀ c ∈ done ++ [b ++ [x]], c.length = R := by
          intro c hmem
          rcases List.mem_append.1 hmem with hmem | hmem
          · exact h c hmem
          · rw [List.mem_singleton.1 hmem, List.length_append]
            exact hfull
        have hflat : done.flatten ++ b ++ [x] = (done ++ [b ++ [x]]).flatten := by simp
        cases m with
        | zero =>
            have hk0 : k = 0 := by
              rw [Nat.mul_zero] at hk
              omega
            rw [hk0, hflat]
            simpa using Filling.full hrows
        | succ m =>
            have hk0 : k = R - ([] : List T).length + R * m := by
              rw [Nat.mul_succ] at hk
              show k = R - 0 + R * m
              omega
            rw [hk0, hflat]
            simpa [List.replicate_succ] using Filling.part (b := []) (m := m) hrows (by show 0 < R; omega)
      · rw [if_neg hfull]
        have hk0 : k = R - (b ++ [x]).length + R * m := by
          rw [List.length_append, List.length_singleton]
          omega
        rw [hk0, List.append_assoc]
        exact .part h (by rw [List.length_append, List.length_singleton]; omega)

/-- Empty columns to begin with. -/
theorem filling_start {R n : Nat} (hR : 0 < R) : Filling (T := T) R (R * n) (List.replicate n [], 0) [] := by
  cases n with
  | zero => exact @Filling.full T R [] nofun
  | succ n =>
      have h := @Filling.part T R [] [] n nofun hR
      rwa [List.length_nil, Nat.sub_zero, Nat.add_comm, ← Nat.mul_succ] at h

theorem filling_end {R : Nat} {s : List (List T) × Nat} {l : List T} (h : Filling R 0 s l) :
    (∀ c ∈ s.1, c.length = R) ∧ s.1.flatten = l := by
  generalize hk : 0 = k at h
  cases h with
  | full h => exact ⟨h, rfl⟩
  | part h hb => omega

/-- What is filled when the tuples `us` are left. -/
structure Gathered (a : Grid T) (ds : List Nat) (p R : Nat) (total : List (Option T)) (n : Nat)
    (us : List (List Nat)) (s : List (List T) × Nat) (l : List T) : Prop where
  filling : Filling R us.length s l
  cols : s.1.length = n
  elts : l.map some ++ columnValues a ds [p] us = total

theorem pushElt_step {a : Grid T} {d0 : Nat} {ds : List Nat} {p R n : Nat} {total : List (Option T)}
    (hrows : ∀ c ∈ a.v, c.length = d0) (hcols : a.v.length = ds.prod) (hp : p < d0)
    (t : List Nat) (us : List (List Nat)) (s : List (List T) × Nat)
    (h : ∃ l, Gathered a ds p R total n (t :: us) s l) (ht : Below t ds) :
    ∃ s', pushElt a.v p R (lin ds t) s = .ok s' () ∧ ∃ l, Gathered a ds p R total n us s' l := by
  obtain ⟨l, hg⟩ := h
  have hlt : lin ds t < a.v.length := hcols ▸ lin_lt ht
  have hc := List.getElem?_eq_getElem hlt
  have hclen := hrows _ (List.getElem_mem hlt)
  have hx := List.getElem?_eq_getElem (show p < (a.v[lin ds t]).length by rw [hclen]; exact hp)
  obtain ⟨s', hs', hfill, hlen⟩ := pushElt_ok hc hx hg.filling
  refine ⟨s', hs', _, hfill, hlen.trans hg.cols, ?_⟩
  rw [← hg.elts, columnValues, columnValues, List.flatMap_cons, hc, List.map_append, List.append_assoc]
  congr 1
  show _ = [(a.v[lin ds t])[p]?] ++ _
  rw [hx]
  rfl

theorem gathered_start (a : Grid T) (ds : List Nat) {p R n : Nat} {ts : List (List Nat)}
    (hR : 0 < R) (hn : R * n = ts.length) :
    Gathered a ds p R (columnValues a ds [p] ts) n ts (List.replicate n [], 0) [] :=
  ⟨hn ▸ filling_start hR, List.length_replicate, rfl⟩

theorem runCols_pushElt {a : Grid T} {d0 : Nat} {ds : List Nat} {i0 : Index} {rest : List Index}
    {p R n : Nat} (hd : a.dim = d0 :: ds) (hrows : ∀ c ∈ a.v, c.length = d0) (hcols : a.v.length = ds.prod)
    (hpos : i0.positions = [p]) (hp : p < d0) (hn : R * n = (combos (rest.map Index.positions)).length)
    (hr : ∀ t ∈ combos (rest.map Index.positions), Below t ds) :
    ∃ rv m, runCols ds (pushElt a.v p R) (combos (rest.map Index.positions)) (List.replicate n [], 0) =
        .ok (rv, m) () ∧ Filled a (i0 :: rest) R n rv := by
  have h0 : ∀ q ∈ i0.positions, q < d0 := by
    rw [hpos]
    simpa using hp
  have hval := @values_cons _ a _ _ _ rest hd hrows h0
  rw [hpos] at hval
  generalize combos (rest.map Index.positions) = ts at hn hval hr ⊢
  rcases Nat.eq_zero_or_pos R with hR | hR
  · -- there is nothing to select
    have hts : ts = [] := by
      rw [hR, Nat.zero_mul] at hn
      exact List.length_eq_zero_iff.1 hn.symm
    subst hts
    refine ⟨List.replicate n [], 0, rfl, List.length_replicate, fun c hc => ?_, ?_⟩
    · rw [(List.mem_replicate.1 hc).2, hR]
      rfl
    · rw [flatten_replicate_nil, hval]
      rfl
  · obtain ⟨⟨rv, m⟩, hrun, l, hg⟩ := runCols_ok
      (fun us s => ∃ l, Gathered a ds p R _ n us s l) (pushElt_step hrows hcols hp) hr
      ⟨[], gathered_start a ds hR hn⟩
    obtain ⟨hfull, hflat⟩ := filling_end hg.filling
    refine ⟨rv, m, hrun, hg.cols, hfull, ?_⟩
    rw [show rv.flatten = l from hflat, hval]
    simpa [columnValues] using hg.elts

end Grid

/-! ## Names -/

namespace Names

/-- The names are `ss`, written out or not there because they are all empty. -/
structure Holds (d : Names) (ss : List ZString) : Prop where
  size : d.sz = ss.length
  names : d.names = ss ∨ d.names = [] ∧ ∀ s ∈ ss, s = ZString.empty

theorem holds_ofExtent_zero : Holds (.ofExtent 0) [] := ⟨rfl, .inl rfl⟩

theorem Holds.addafter {d : Names} {ss : List ZString} (h : Holds d ss) (s : ZString) :
    Holds (d.addafter s) (ss ++ [s]) := by
  have hsize : d.sz + 1 = (ss ++ [s]).length := by rw [List.length_append, h.size]; rfl
  rw [Names.addafter]
  split
  next hs =>
    refine ⟨hsize, .inr ⟨List.length_eq_zero_iff.1 hs.2, fun s' hs' => ?_⟩⟩
    rcases List.mem_append.1 hs' with hs' | hs'
    · rcases h.names with hn | hn
      · rw [← hn, List.length_eq_zero_iff.1 hs.2] at hs'
        cases hs'
      · exact hn.2 s' hs'
    · rw [List.mem_singleton.1 hs', hs.1]
  next hs =>
    refine ⟨hsize, .inl ?_⟩
    show (if d.names.length = 0 then _ else _) ++ [s] = _
    rcases h.names with hn | ⟨hn, hempty⟩
    · split
      next hz =>
        have hss : ss = [] := by rw [← hn, List.length_eq_zero_iff.1 hz]
        rw [h.size, hss]
        rfl
      next => rw [hn]
    · rw [if_pos (by rw [hn]; rfl), h.size, ← List.eq_replicate_of_mem hempty]

theorem Holds.get {d : Names} {ss : List ZString} (h : Holds d ss) {x : Nat} {s : ZString}
    (hx : ss[x]? = some s) : d.get x = .ok s := by
  have hlt : x < d.sz := h.size ▸ (List.getElem?_eq_some_iff.1 hx).1
  rw [Names.get, if_neg (Nat.not_le_of_lt hlt)]
  rcases h.names with hn | ⟨hn, hempty⟩
  · rw [hn]
    split
    next hz =>
      rw [List.length_eq_zero_iff.1 hz] at hx
      cases hx
    next => rw [hx]
  · rw [if_pos (by rw [hn]; rfl), hempty s (List.mem_of_getElem? hx)]

/-- Written out names are found where they are. -/
theorem get_of_written {d : Names} (h : d.names.length = d.sz) {p : Nat} (hp : p < d.sz) :
    ∃ s, d.names[p]? = some s ∧ d.get p = .ok s := by
  have hs := List.getElem?_eq_getElem (h ▸ hp)
  exact ⟨_, hs, Holds.get ⟨h.symm, .inl rfl⟩ hs⟩

end Names

/-- The names of the selected positions. -/
structure Index.Carries (i : Index) (n nm : Names) : Prop where
  size : nm.sz = Indexing.size i
  named : nm.names = [] ∨ nm.names.length = nm.sz
  get : ∀ x p, i.positions[x]? = some p → nm.get x = n.get p

theorem Index.carries_of_holds {i : Index} {n nm : Names} {ss : List ZString} (h : nm.Holds ss)
    (hss : ss.map Except.ok = i.positions.map n.get) : i.Carries n nm := by
  have hlen : ss.length = i.positions.length := by simpa using congrArg List.length hss
  refine ⟨by rw [h.size, hlen, i.length_positions], ?_, fun x p hx => ?_⟩
  · rcases h.names with hn | hn
    · exact .inr (by rw [hn, h.size])
    · exact .inl hn.1
  · have hget : (ss.map Except.ok)[x]? = some (n.get p) := by rw [hss, List.getElem?_map, hx]; rfl
    rw [List.getElem?_map] at hget
    cases hs : ss[x]? with
    | none => rw [hs] at hget; cases hget
    | some s =>
        rw [hs] at hget
        rw [h.get hs]
        exact Option.some.inj hget

/-- The names of the positions `js`, one after the other. -/
theorem IntIndex.selectLoop_holds {n : Names} (hn : n.names.length = n.sz) {js : List Nat}
    (h : ∀ j ∈ js, j < n.sz) {d : Names} {ss : List ZString} (hd : d.Holds ss) :
    ∃ d' ss', IntIndex.selectLoop n js d = .ok d' ∧ d'.Holds (ss ++ ss') ∧
      ss'.map Except.ok = js.map n.get := by
  induction js generalizing d ss with
  | nil => exact ⟨d, [], rfl, by rwa [List.append_nil], rfl⟩
  | cons j js ih =>
      have hj := h j List.mem_cons_self
      obtain ⟨s, hs, hget⟩ := Names.get_of_written hn hj
      obtain ⟨d', ss', hloop, hholds, hmap⟩ := ih (fun k hk => h k (List.mem_cons_of_mem j hk)) (hd.addafter s)
      refine ⟨d', s :: ss', ?_, ?_, ?_⟩
      · rw [IntIndex.selectLoop, Names.copyAt, if_neg (Nat.not_le_of_lt hj), hs]
        exact hloop
      · rwa [List.append_assoc] at hholds
      · rw [List.map_cons, List.map_cons, hmap, hget]

/-- The negative indices go over the other positions. -/
theorem IntIndexNeg.selectLoop_eq {n : Names} (k j : Nat) (vi : List Nat) (d : Names)
    (h : IntIndexNeg.Ahead (j + k) j vi) (hk : j + k ≤ n.sz) :
    IntIndexNeg.selectLoop n k j vi d = IntIndex.selectLoop n (IntIndexNeg.others k j vi) d := by
  induction k generalizing j vi d with
  | zero => rfl
  | succ k ih =>
      rw [IntIndexNeg.selectLoop, if_neg (by omega)]
      cases vi with
      | nil =>
          rw [if_neg (by simp), IntIndexNeg.others_succ fun x hx => absurd hx List.not_mem_nil,
            IntIndex.selectLoop]
          congr 1
          funext d'
          exact ih (j + 1) [] d' ⟨.nil, nofun, nofun⟩ (by omega)
      | cons x vi =>
          by_cases hx : x = j
          · subst hx
            rw [if_pos (by rfl), IntIndexNeg.others_succ_cons]
            refine ih (x + 1) vi d ?_ (by omega)
            rw [Nat.add_assoc, Nat.add_comm 1]
            exact h.tail
          · have hahead := h.next hx
            rw [if_neg (by simpa using hx), IntIndexNeg.others_succ hahead, IntIndex.selectLoop]
            congr 1
            funext d'
            refine ih (j + 1) (x :: vi) d' ⟨h.asc, hahead, fun y hy => ?_⟩ (by omega)
            have hy' := h.lt y hy
            omega

theorem Index.selectNames_carries {i : Index} (hi : i.Plain) {n : Names} (hover : i.Over n.sz)
    (hn : n.names.length = n.sz) (hpos : n.names.length > 0) (h : ∀ p ∈ i.positions, p < n.sz) :
    ∃ nm, i.selectNames (.ofExtent 0) n = .ok nm ∧ i.Carries n nm := by
  cases i with
  | null idx =>
      refine ⟨n, rfl, hover.symm, .inr hn, fun x p hx => ?_⟩
      have hx' : (List.range' 0 idx.sz)[x]? = some p := hx
      have hlt : x < idx.sz := by simpa using (List.getElem?_eq_some_iff.1 hx').1
      rw [List.getElem?_range' hlt] at hx'
      rw [← Option.some.inj hx', Nat.zero_add, Nat.one_mul]
  | int idx =>
      obtain ⟨d, ss, hloop, hholds, hmap⟩ := IntIndex.selectLoop_holds hn h Names.holds_ofExtent_zero
      refine ⟨d, ?_, Index.carries_of_holds hholds hmap⟩
      show idx.selectNames _ n = _
      rw [IntIndex.selectNames, if_pos hpos]
      exact hloop
  | intNeg idx =>
      obtain ⟨d, ss, hloop, hholds, hmap⟩ := IntIndex.selectLoop_holds hn h Names.holds_ofExtent_zero
      refine ⟨d, ?_, Index.carries_of_holds hholds hmap⟩
      show idx.selectNames _ n = _
      have hsz : idx.sz = n.sz := hover
      rw [IntIndexNeg.selectNames, if_pos hpos,
        IntIndexNeg.selectLoop_eq idx.sz 0 idx.vi _ idx.ahead_zero (by omega)]
      exact hloop
  | bool idx => exact absurd rfl (hi idx)

/-- No names stand for empty ones. -/
theorem Index.ofExtent_carries {i : Index} {n : Names} (hn : n.names = []) (h : ∀ p ∈ i.positions, p < n.sz) :
    i.Carries n (.ofExtent (Indexing.size i)) := by
  refine ⟨rfl, .inl rfl, fun x p hx => ?_⟩
  have hlt : x < Indexing.size i := i.length_positions ▸ (List.getElem?_eq_some_iff.1 hx).1
  have hle : ¬ (Names.ofExtent (Indexing.size i)).sz ≤ x := Nat.not_le_of_lt hlt
  rw [Names.get, Names.get, if_neg hle, if_neg (Nat.not_le_of_lt (h p (List.mem_of_getElem? hx))), hn]
  rfl

namespace Grid

/-! ## The extents of the result -/

theorem dropDims_eq (drop : Bool) {sizes : List Nat} (h : sizes ≠ []) :
    dropDims drop 0 sizes = keptBy drop sizes sizes := by
  have hlen : 0 < sizes.length := List.length_pos_iff.2 h
  rw [dropDims, keptBy]
  cases drop with
  | false => rw [if_neg (fun hc => Bool.false_ne_true hc.1), kept_false, if_neg h]
  | true =>
      rw [if_pos ⟨rfl, hlen⟩]
      show (if [] ++ sizes.filter (· ≠ 1) = [] then [1] else [] ++ sizes.filter (· ≠ 1)) = _
      rw [List.nil_append, ← kept_true]
      split
      next hk =>
        cases sizes with
        | nil => exact absurd rfl h
        | cons d sizes =>
            show [1] = [d]
            rw [(all_one hk d List.mem_cons_self).2]
      next => rfl

/-- The number of columns for the extents of the result. -/
theorem ncols_eq {rdim : List Nat} (h : rdim ≠ []) :
    (if rdim.length = 1 then 1 else rdim.tail.prod) = rdim.tail.prod := by
  split
  next hlen =>
    obtain ⟨d, rfl⟩ := List.length_eq_one_iff.1 hlen
    rfl
  next => rfl

theorem headD_mul_prod {rdim : List Nat} (h : rdim ≠ []) : rdim.headD 0 * rdim.tail.prod = rdim.prod := by
  cases rdim with
  | nil => exact absurd rfl h
  | cons d ds => exact List.prod_cons.symm

theorem correctDim_eq {T : Type} (drop : Bool) {rdim : List Nat} {rv : List (List T)}
    (h : ∀ c ∈ rv, c.length = rdim.headD 0) : correctDim drop 0 rdim rv = .ok rdim := by
  cases rv with
  | nil => rfl
  | cons c rv =>
      cases rdim with
      | nil => rfl
      | cons r rs => exact if_pos (h c List.mem_cons_self)

/-! ## The names of the result -/

/-- An index over a dimension with the names `n`, all positions in range. -/
structure Selects (i : Index) (n : Names) : Prop where
  plain : i.Plain
  fits : i.Over n.sz
  named : n.names = [] ∨ n.names.length = n.sz
  inRange : ∀ p ∈ i.positions, p < n.sz

/-- A dimension that is not dropped. -/
theorem resultNames_keep {drop : Bool} {rdim : List Nat} {j : Nat} {i : Index} {is : List Index}
    {n : Names} {ns : List Names} {rs rds : List Nat} (h : Selects i n)
    (hkeep : dropped drop 0 rdim j (Indexing.size i) = false) :
    ∃ nm, i.Carries n nm ∧
      resultNames drop 0 rdim j (i :: is) (n :: ns) (Indexing.size i :: rs) (Indexing.size i :: rds) =
        (resultNames drop 0 rdim (j + 1) is ns rs rds).bind fun nms _ => .ok (nm :: nms) () := by
  rw [resultNames, hkeep]
  by_cases hpos : n.names.length > 0
  · have hn := h.named.resolve_left fun hnil => by simp [hnil] at hpos
    obtain ⟨nm, hsel, hcar⟩ := i.selectNames_carries h.plain h.fits hn hpos h.inRange
    refine ⟨nm, hcar, ?_⟩
    rw [if_neg Bool.false_ne_true, if_pos hpos, hsel]
    rfl
  · have hnil : n.names = [] := List.length_eq_zero_iff.1 (Nat.eq_zero_of_not_pos hpos)
    refine ⟨_, Index.ofExtent_carries hnil h.inRange, ?_⟩
    rw [if_neg Bool.false_ne_true, if_neg hpos]
    rfl

/-- A dimension that is dropped. -/
theorem resultNames_drop {drop : Bool} {rdim : List Nat} {j : Nat} {i : Index} {is : List Index}
    {n : Names} {ns : List Names} {r : Nat} {rs rds : List Nat} (h : dropped drop 0 rdim j r = true) :
    resultNames drop 0 rdim j (i :: is) (n :: ns) (r :: rs) rds =
      resultNames drop 0 rdim (j + 1) is ns rs rds := if_pos h

theorem resultNames_rest {drop : Bool} {rdim : List Nat} {is : List Index} {ns : List Names}
    (h : List.Forall₂ Selects is ns) (j : Nat) (hj : 0 < j) :
    ∃ nms, resultNames drop 0 rdim j is ns (is.map Indexing.size)
        (kept drop (is.map Indexing.size) (is.map Indexing.size)) = .ok nms () ∧
      List.Forall₂ (fun p nm => p.1.Carries p.2 nm) (kept drop (is.map Indexing.size) (is.zip ns)) nms := by
  induction h generalizing j with
  | nil => exact ⟨[], rfl, .nil⟩
  | @cons i n is ns hsel _ ih =>
      obtain ⟨nms, hrest, hcar⟩ := ih (j + 1) (Nat.succ_pos j)
      rw [List.map_cons, List.zip_cons_cons, kept_cons, kept_cons]
      by_cases hd : drop = true ∧ Indexing.size i = 1
      · have hdrop : dropped drop 0 rdim j (Indexing.size i) = true := by
          simp [dropped, hd.1, hd.2, hj]
        rw [if_pos hd, if_pos hd, resultNames_drop hdrop]
        exact ⟨nms, hrest, hcar⟩
      · have hkeep : dropped drop 0 rdim j (Indexing.size i) = false := by
          simpa [dropped, hj, Nat.ne_of_gt hj] using hd
        obtain ⟨nm, hnm, heq⟩ := @resultNames_keep drop rdim j i is n ns (is.map Indexing.size)
          (kept drop (is.map Indexing.size) (is.map Indexing.size)) hsel hkeep
        rw [if_neg hd, if_neg hd, heq, hrest]
        exact ⟨nm :: nms, rfl, .cons hnm hcar⟩

theorem not_one_mem_kept (sizes : List Nat) : 1 ∉ kept true sizes sizes := by
  rw [kept_true, List.mem_filter]
  simp

/-- The records of the dimensions that stay. -/
theorem resultNames_spec {drop : Bool} {is : List Index} {ns : List Names} (h : List.Forall₂ Selects is ns) :
    ∃ nms, resultNames drop 0 (keptBy drop (is.map Indexing.size) (is.map Indexing.size)) 0 is ns
        (is.map Indexing.size) (keptBy drop (is.map Indexing.size) (is.map Indexing.size)) = .ok nms () ∧
      List.Forall₂ (fun p nm => p.1.Carries p.2 nm) (keptBy drop (is.map Indexing.size) (is.zip ns)) nms := by
  cases h with
  | nil => exact ⟨[], rfl, .nil⟩
  | @cons i n is ns hsel hrest =>
      rw [List.map_cons, List.zip_cons_cons]
      by_cases hd : drop = true ∧ Indexing.size i = 1
      · obtain ⟨rfl, hone⟩ := hd
        rw [keptBy_one hone, keptBy_one hone]
        split
        next hk =>
          -- all extents are 1: the first stays, and none of the others
          obtain ⟨nm, hnm, heq⟩ := @resultNames_keep true [Indexing.size i] 0 i is n ns (is.map Indexing.size) []
            hsel (by simp [dropped, hone])
          obtain ⟨nms, hnms, hcar⟩ := @resultNames_rest true [Indexing.size i] is ns hrest 1 Nat.one_pos
          rw [hk] at hnms
          have hnil : nms = [] := by
            rw [kept_nil hk] at hcar
            cases hcar
            rfl
          refine ⟨[nm], ?_, .cons hnm .nil⟩
          show resultNames true 0 [Indexing.size i] 0 _ _ _ [Indexing.size i] = _
          rw [heq, hnms, hnil]
          rfl
        next hk =>
          have hrd : kept true (is.map Indexing.size) (is.map Indexing.size) ≠ [1] := fun h1 =>
            not_one_mem_kept (is.map Indexing.size) (by rw [h1]; exact List.mem_cons_self)
          obtain ⟨nms, hnms, hcar⟩ := @resultNames_rest true
            (kept true (is.map Indexing.size) (is.map Indexing.size)) is ns hrest 1 Nat.one_pos
          refine ⟨nms, ?_, hcar⟩
          rw [resultNames_drop (by simp [dropped, hone, hrd]), hnms]
      · rw [keptBy_cons hd, keptBy_cons hd]
        have hkeep (rdim : List Nat) : dropped drop 0 rdim 0 (Indexing.size i) = false := by
          cases drop with
          | false => rfl
          | true => simp [dropped, show Indexing.size i ≠ 1 from fun h => hd ⟨rfl, h⟩]
        obtain ⟨nm, hnm, heq⟩ := @resultNames_keep drop
          (Indexing.size i :: kept drop (is.map Indexing.size) (is.map Indexing.size)) 0 i is n ns
          (is.map Indexing.size) (kept drop (is.map Indexing.size) (is.map Indexing.size)) hsel (hkeep _)
        obtain ⟨nms, hnms, hcar⟩ := @resultNames_rest drop
          (Indexing.size i :: kept drop (is.map Indexing.size) (is.map Indexing.size)) is ns hrest 1 Nat.one_pos
        refine ⟨nm :: nms, ?_, .cons hnm hcar⟩
        rw [heq, hnms]
        rfl

/-! ## The operator -/

theorem shape_of_forall₂ {a : Grid T} (h : a.WellFormed) {is : List Index} (hplain : ∀ i ∈ is, i.Plain)
    (hover : List.Forall₂ (fun i d => i.Over d) is a.dim)
    (hin : List.Forall₂ (fun i d => ∀ p ∈ i.positions, p < d) is a.dim) :
    List.Forall₂ Selects is a.names := by
  rw [← h.recs, List.forall₂_map_right_iff] at hover hin
  have hnamed := h.named
  generalize a.names = ns at hover hin hnamed
  clear h
  induction hover with
  | nil => exact .nil
  | @cons i n is ns hi _ ih =>
      obtain _ | ⟨hr, hin⟩ := hin
      exact .cons ⟨hplain i List.mem_cons_self, hi, hnamed n List.mem_cons_self, hr⟩
        (ih (fun j hj => hplain j (List.mem_cons_of_mem i hj)) hin
          fun m hm => hnamed m (List.mem_cons_of_mem n hm))

/-- Plain indices go over their positions and start again. -/
theorem cycles_of_plain {i : Index} (h : i.Plain) : Cycles i i.positions := by
  cases i with
  | null idx => exact idx.cycles
  | int idx => exact idx.cycles
  | intNeg idx => exact idx.cycles
  | bool idx => exact absurd rfl (h idx)

theorem below_of_mem_combos {pss : List (List Nat)} {dim : List Nat}
    (h : List.Forall₂ (fun ps d => ∀ p ∈ ps, p < d) pss dim) : ∀ t ∈ combos pss, Below t dim := by
  induction h with
  | nil =>
      intro t ht
      rw [combos, List.mem_singleton] at ht
      exact ht ▸ .nil
  | @cons ps d pss dim hps _ ih =>
      intro t ht
      rw [combos, List.mem_flatMap] at ht
      obtain ⟨u, hu, ht⟩ := ht
      obtain ⟨x, hx, rfl⟩ := List.mem_map.1 ht
      exact .cons (hps x hx) (ih u hu)

/-- All tuples are in range only when all positions are. -/
theorem inRange_of_below {pss : List (List Nat)} {dim : List Nat} (hlen : pss.length = dim.length)
    (hne : ∀ ps ∈ pss, ps ≠ []) (h : ∀ t ∈ combos pss, Below t dim) :
    List.Forall₂ (fun ps d => ∀ p ∈ ps, p < d) pss dim := by
  induction pss generalizing dim with
  | nil =>
      rw [List.length_nil, eq_comm, List.length_eq_zero_iff] at hlen
      exact hlen ▸ .nil
  | cons ps pss ih =>
      cases dim with
      | nil => cases hlen
      | cons d dim =>
          have hcons {x : Nat} {u : List Nat} (hx : x ∈ ps) (hu : u ∈ combos pss) : Below (x :: u) (d :: dim) :=
            h _ (List.mem_flatMap.2 ⟨u, hu, List.mem_map.2 ⟨x, hx, rfl⟩⟩)
          have hne' := fun qs hqs => hne qs (List.mem_cons_of_mem ps hqs)
          obtain ⟨x, hx⟩ := List.exists_mem_of_ne_nil ps (hne ps List.mem_cons_self)
          obtain ⟨u, hu⟩ : ∃ u, u ∈ combos pss := by
            refine List.exists_mem_of_length_pos ?_
            rw [length_combos]
            exact List.prod_pos fun n hn => by
              obtain ⟨qs, hqs, rfl⟩ := List.mem_map.1 hn
              exact List.length_pos_iff.2 (hne' qs hqs)
          refine .cons (fun y hy => ?_) (ih (Nat.succ.inj hlen) hne' fun w hw => ?_)
          · obtain _ | ⟨hlt, -⟩ := hcons hy hu
            exact hlt
          · obtain _ | ⟨-, hb⟩ := hcons hx hw
            exact hb

/-- The subset of `a` by one index for each dimension. -/
structure IsSubset (a : Grid T) (is : List Index) (drop : Bool) (r : Grid T) : Prop where
  dim : r.dim = keptBy drop (is.map Indexing.size) (is.map Indexing.size)
  elt : ∀ q, Below q (is.map Indexing.size) → ∃ x,
    r.elem (keptBy drop (is.map Indexing.size) q) = .ok x () ∧
      a.elem (selected (is.map Index.positions) q) = .ok x ()
  all : ∀ p, Below p r.dim → ∃ q, Below q (is.map Indexing.size) ∧ keptBy drop (is.map Indexing.size) q = p
  names : List.Forall₂ (fun p nm => p.1.Carries p.2 nm) (keptBy drop (is.map Indexing.size) (is.zip a.names))
    r.names

theorem isSubset_of_filled {a : Grid T} (h : a.WellFormed) {is : List Index} {drop : Bool} (hne : is ≠ [])
    (hin : List.Forall₂ (fun i d => ∀ p ∈ i.positions, p < d) is a.dim) {rdim : List Nat}
    (hrdim : rdim = keptBy drop (is.map Indexing.size) (is.map Indexing.size)) {rv : List (List T)}
    (hfill : Filled a is (rdim.headD 0) rdim.tail.prod rv) {nms : List Names}
    (hnms : List.Forall₂ (fun p nm => p.1.Carries p.2 nm)
      (keptBy drop (is.map Indexing.size) (is.zip a.names)) nms) :
    IsSubset a is drop ⟨rdim, rv, nms⟩ := by
  have hrne : rdim ≠ [] := hrdim ▸ keptBy_ne_nil (by simpa using hne)
  have hlens : is.map Indexing.size = (is.map Index.positions).map List.length := by
    rw [List.map_map]
    exact List.map_congr_left fun i _ => i.length_positions.symm
  refine ⟨hrdim, fun q hq => ?_, fun p hp => exists_keptBy (hrdim ▸ hp), hnms⟩
  have hb : Below (keptBy drop (is.map Indexing.size) q) rdim := hrdim ▸ below_keptBy hq
  obtain ⟨x, hx, hflat⟩ := elem_eq (a := ⟨rdim, rv, nms⟩) hfill.cols hfill.rows hrne hb
  refine ⟨x, hx, ?_⟩
  have hin' : List.Forall₂ (fun ps d => ∀ p ∈ ps, p < d) (is.map Index.positions) a.dim :=
    List.forall₂_map_left_iff.2 hin
  have hget := getElem?_combos (hlens ▸ hq)
  obtain ⟨y, hy, hflat'⟩ := elem_eq h.cols h.rows h.ne
    (below_of_mem_combos hin' _ (List.mem_of_getElem? hget))
  have helts : (rv.flatten.map some)[lin (is.map Indexing.size) q]? = some (some y) := by
    rw [hfill.elts, values, List.getElem?_map, hlens, hget]
    exact congrArg some hflat'
  have hplace : rv.flatten[lin (is.map Indexing.size) q]? = some x := by
    have hplace : rv.flatten[lin rdim (keptBy drop (is.map Indexing.size) q)]? = some x := hflat
    rwa [hrdim, lin_keptBy hq] at hplace
  rw [List.getElem?_map, hplace] at helts
  rw [hy, show x = y from Option.some.inj (Option.some.inj helts)]

/-- With one index for each dimension. -/
theorem subset_eq_all {a : Grid T} {is : List Index} (h : is.length = a.dim.length) (drop : Bool)
    (dropfirst : Nat) : a.subset is drop dropfirst = a.subsetAll is drop dropfirst := by
  cases is with
  | nil =>
      rw [subset, if_neg (by simp [h])]
      exact fun i hi => by cases hi
  | cons i is =>
      cases is with
      | nil =>
          rw [List.length_singleton] at h
          rw [subset, if_neg (by omega), if_neg (by omega)]
      | cons j is =>
          rw [subset, if_neg (by simp [h])]
          exact fun i hi => by cases hi

/-- What is left to do when the columns are filled. -/
def finish (a : Grid T) (is : List Index) (drop : Bool) (rdim : List Nat) (rv : List (List T)) :
    Outcome Exn Unit (Grid T) :=
  (resultNames drop 0 rdim 0 is a.names (is.map Indexing.size) rdim).bind fun rnames _ =>
    .ok ⟨rdim, rv, rnames⟩ ()

theorem subsetAll_keep {a : Grid T} {d0 : Nat} {ds : List Nat} {i0 : Index} {rest : List Index} {drop : Bool}
    (hd : a.dim = d0 :: ds) (hrest : ∀ i ∈ rest, Cycles i i.positions)
    (h : ¬ (drop = true ∧ Indexing.size i0 = 1)) {rdim : List Nat}
    (hrdim : rdim = keptBy drop ((i0 :: rest).map Indexing.size) ((i0 :: rest).map Indexing.size)) :
    a.subsetAll (i0 :: rest) drop 0 =
      (runCols ds (pushCol a.v i0) (combos (rest.map Index.positions))
        (List.replicate (combos (rest.map Index.positions)).length [], 0)).bind fun s _ =>
          (thrown (correctDim drop 0 rdim s.1)).bind fun rdim _ => finish a (i0 :: rest) drop rdim s.1 := by
  have hdims : dropDims drop 0 ((i0 :: rest).map Indexing.size) = rdim :=
    hrdim ▸ dropDims_eq drop (by simp)
  have hne : rdim ≠ [] := hrdim ▸ keptBy_ne_nil (by simp)
  have hncols : rdim.tail.prod = (combos (rest.map Index.positions)).length := by
    rw [hrdim, List.map_cons, keptBy_cons h, List.tail_cons, prod_kept, length_combos_positions]
  rw [← eachCol_eq hrest]
  unfold subsetAll
  simp only [hd, hdims, ncols_eq hne]
  rw [hncols, if_neg fun hc => h ⟨hc.1, hc.2.2⟩]
  simp only [Outcome.bind_assoc]
  rfl

theorem subsetAll_drop {a : Grid T} {d0 : Nat} {ds : List Nat} {i0 : Index} {rest : List Index} {c : IdxPos}
    (hd : a.dim = d0 :: ds) (hrest : ∀ i ∈ rest, Cycles i i.positions)
    (h : Indexing.size i0 = 1) (hget : Indexing.getfirst i0 ⟨0, 0⟩ = (true, c)) {rdim : List Nat}
    (hrdim : rdim = keptBy true ((i0 :: rest).map Indexing.size) ((i0 :: rest).map Indexing.size)) :
    a.subsetAll (i0 :: rest) true 0 =
      if d0 ≤ c.val then .throw (.rangeError "subscript out of bounds") ()
      else (runCols ds (pushElt a.v c.val (rdim.headD 0)) (combos (rest.map Index.positions))
        (List.replicate rdim.tail.prod [], 0)).bind fun s _ => finish a (i0 :: rest) true rdim s.1 := by
  have hdims : dropDims true 0 ((i0 :: rest).map Indexing.size) = rdim :=
    hrdim ▸ dropDims_eq true (by simp)
  have hne : rdim ≠ [] := hrdim ▸ keptBy_ne_nil (by simp)
  rw [← eachCol_eq hrest]
  unfold subsetAll
  simp only [hd, hdims, ncols_eq hne, hget]
  rw [if_pos ⟨trivial, trivial, h⟩]
  by_cases hc : d0 ≤ c.val
  · rw [if_pos hc, if_pos hc]
    rfl
  · rw [if_neg hc, if_neg hc]
    simp only [Outcome.bind_assoc]
    rfl

theorem finish_ok {a : Grid T} (h : a.WellFormed) {is : List Index} {drop : Bool}
    (hsel : List.Forall₂ Selects is a.names) (hne : is ≠ [])
    (hin : List.Forall₂ (fun i d => ∀ p ∈ i.positions, p < d) is a.dim) {rdim : List Nat}
    (hrdim : rdim = keptBy drop (is.map Indexing.size) (is.map Indexing.size)) {rv : List (List T)}
    (hfill : Filled a is (rdim.headD 0) rdim.tail.prod rv) :
    ∃ r, finish a is drop rdim rv = .ok r () ∧ IsSubset a is drop r := by
  obtain ⟨nms, hnms, hcar⟩ := @resultNames_spec drop _ _ hsel
  rw [← hrdim] at hnms
  refine ⟨⟨rdim, rv, nms⟩, ?_, isSubset_of_filled h hne hin hrdim hfill hcar⟩
  rw [finish, hnms]
  rfl

theorem length_of_mem_combos {pss : List (List Nat)} {t : List Nat} (h : t ∈ combos pss) :
    t.length = pss.length := (mem_combos.1 h).length_eq

/-- Out of range in the first dimension or in another: the loop over whole columns throws. -/
theorem runCols_pushCol_throw {a : Grid T} {d0 : Nat} {ds : List Nat} {i0 : Index} {rest : List Index}
    (hrows : ∀ c ∈ a.v, c.length = d0) (hcols : a.v.length = ds.prod) (hfit : i0.Fits d0)
    (hlen : rest.length = ds.length) (hne : combos (rest.map Index.positions) ≠ [])
    (h : ¬ ((∀ p ∈ i0.positions, p < d0) ∧ ∀ t ∈ combos (rest.map Index.positions), Below t ds)) :
    ∃ e, runCols ds (pushCol a.v i0) (combos (rest.map Index.positions))
      (List.replicate (combos (rest.map Index.positions)).length [], 0) = .throw e () := by
  have hlens : ∀ t ∈ combos (rest.map Index.positions), t.length = ds.length := fun t ht => by
    rw [length_of_mem_combos ht, List.length_map, hlen]
  by_cases h0 : ∀ p ∈ i0.positions, p < d0
  · exact runCols_throw (fun us s => ∃ done, Pushed a ds i0 _ _ us s done)
      (fun t us s hs ht => .inl (pushCol_step hrows hcols hfit h0 t us s hs ht)) hlens
      (fun hr => h ⟨h0, hr⟩) ⟨[], pushed_start a ds i0 _⟩
  · generalize combos (rest.map Index.positions) = ts at hlens hne ⊢
    cases ts with
    | nil => exact absurd rfl hne
    | cons t us =>
        rw [runCols]
        by_cases ht : Below t ds
        · have hlt : lin ds t < a.v.length := hcols ▸ lin_lt ht
          have hc := List.getElem?_eq_getElem hlt
          have hclen := hrows _ (List.getElem_mem hlt)
          have hthrow : i0.subset [] (a.v[lin ds t]) = .error (.rangeError "subscript out of bounds") := by
            rcases Index.subset_eq (i := i0) (l := a.v[lin ds t]) (hclen ▸ hfit) with ⟨hall, -⟩ | ⟨-, hno⟩
            · exact absurd (hclen ▸ hall) h0
            · exact hno
          refine ⟨.rangeError "subscript out of bounds", ?_⟩
          rw [columnAt_below ht]
          show (pushCol a.v i0 (lin ds t) (List.replicate (us.length + 1) [], 0)).bind _ = _
          simp only [pushCol, hc, List.replicate_succ, List.getElem?_cons_zero, hthrow, thrown,
            Outcome.bind_throw]
        · rw [columnAt, column_of_not_below (hlens t List.mem_cons_self) ht]
          exact ⟨_, rfl⟩

theorem combos_ne_nil {pss : List (List Nat)} (h : ∀ ps ∈ pss, ps ≠ []) : combos pss ≠ [] := by
  refine List.length_pos_iff.1 ?_
  rw [length_combos]
  refine List.prod_pos fun n hn => ?_
  obtain ⟨ps, hps, rfl⟩ := List.mem_map.1 hn
  exact List.length_pos_iff.2 (h ps hps)

/-- The index `i` selects positions below `d`. -/
def InRange (i : Index) (d : Nat) : Prop := ∀ p ∈ i.positions, p < d

section Spec

variable {a : Grid T} {d0 : Nat} {ds : List Nat} {i0 : Index} {rest : List Index}

/-- The tuples of the positions of the other dimensions. -/
theorem below_of_inRange (h : List.Forall₂ InRange rest ds) :
    ∀ t ∈ combos (rest.map Index.positions), Below t ds :=
  below_of_mem_combos (List.forall₂_map_left_iff.2 h)

theorem inRange_of_all_below (hlen : rest.length = ds.length) (hne : ∀ i ∈ rest, i.positions ≠ [])
    (h : ∀ t ∈ combos (rest.map Index.positions), Below t ds) : List.Forall₂ InRange rest ds := by
  have hpss := inRange_of_below (by rwa [List.length_map]) (fun ps hps => by
    obtain ⟨i, hi, rfl⟩ := List.mem_map.1 hps
    exact hne i hi) h
  have hrest : List.Forall₂ (fun i d => ∀ p ∈ i.positions, p < d) rest ds := List.forall₂_map_left_iff.1 hpss
  exact hrest

theorem combos_positions_ne_nil {is : List Index} (h : ∀ i ∈ is, i.positions ≠ []) :
    combos (is.map Index.positions) ≠ [] := by
  refine combos_ne_nil fun ps hps => ?_
  obtain ⟨i, hi, rfl⟩ := List.mem_map.1 hps
  exact h i hi

variable (h : a.WellFormed) (hd : a.dim = d0 :: ds) (hplain : ∀ i ∈ i0 :: rest, i.Plain)
  (hover : List.Forall₂ (fun i d => i.Over d) (i0 :: rest) (d0 :: ds))

include h hd hplain hover

/-- The first dimension stays. -/
theorem subsetAll_keep_spec {drop : Bool} (hone : ¬ (drop = true ∧ Indexing.size i0 = 1)) :
    (List.Forall₂ InRange (i0 :: rest) (d0 :: ds) →
      ∃ r, a.subsetAll (i0 :: rest) drop 0 = .ok r () ∧ IsSubset a (i0 :: rest) drop r) ∧
    ((∀ i ∈ i0 :: rest, i.positions ≠ []) → ¬ List.Forall₂ InRange (i0 :: rest) (d0 :: ds) →
      ∃ e, a.subsetAll (i0 :: rest) drop 0 = .throw e ()) := by
  have hrows : ∀ c ∈ a.v, c.length = d0 := fun c hc => by rw [h.rows c hc, hd]; rfl
  have hcols : a.v.length = ds.prod := by rw [h.cols, hd]; rfl
  have hfit : i0.Fits d0 := by
    obtain _ | ⟨h0, -⟩ := hover
    exact fits_of_over h0 (hplain i0 List.mem_cons_self)
  have hcyc : ∀ i ∈ rest, Cycles i i.positions := fun i hi =>
    cycles_of_plain (hplain i (List.mem_cons_of_mem i0 hi))
  generalize hrdim : keptBy drop ((i0 :: rest).map Indexing.size) ((i0 :: rest).map Indexing.size) = rdim
  rw [subsetAll_keep hd hcyc hone hrdim.symm]
  refine ⟨fun hin => ?_, fun hne hin => ?_⟩
  · have hsel := shape_of_forall₂ h hplain (hd ▸ hover) (hd ▸ hin)
    obtain _ | ⟨h0, hr⟩ := hin
    obtain ⟨rv, n, hrun, hfill⟩ := runCols_pushCol hd hrows hcols hfit h0 (below_of_inRange hr)
    have hhead : rdim.headD 0 = Indexing.size i0 := by
      rw [← hrdim, List.map_cons, keptBy_cons hone]
      rfl
    have htail : rdim.tail.prod = (combos (rest.map Index.positions)).length := by
      rw [← hrdim, List.map_cons, keptBy_cons hone, List.tail_cons, prod_kept, length_combos_positions]
    rw [← hhead, ← htail] at hfill
    rw [hrun]
    show ∃ r, (thrown (correctDim drop 0 rdim rv)).bind _ = _ ∧ _
    rw [correctDim_eq drop hfill.rows]
    exact finish_ok h hsel (List.cons_ne_nil _ _) (hd ▸ List.Forall₂.cons h0 hr) hrdim.symm hfill
  · have hlen : rest.length = ds.length := Nat.succ.inj hover.length_eq
    have hne' := fun i hi => hne i (List.mem_cons_of_mem i0 hi)
    obtain ⟨e, he⟩ := runCols_pushCol_throw hrows hcols hfit hlen (combos_positions_ne_nil hne')
      fun hc => hin (.cons hc.1 (inRange_of_all_below hlen hne' hc.2))
    rw [he]
    exact ⟨e, rfl⟩

/-- The first dimension is dropped. -/
theorem subsetAll_drop_spec (hone : Indexing.size i0 = 1) :
    (List.Forall₂ InRange (i0 :: rest) (d0 :: ds) →
      ∃ r, a.subsetAll (i0 :: rest) true 0 = .ok r () ∧ IsSubset a (i0 :: rest) true r) ∧
    ((∀ i ∈ i0 :: rest, i.positions ≠ []) → ¬ List.Forall₂ InRange (i0 :: rest) (d0 :: ds) →
      ∃ e, a.subsetAll (i0 :: rest) true 0 = .throw e ()) := by
  have hrows : ∀ c ∈ a.v, c.length = d0 := fun c hc => by rw [h.rows c hc, hd]; rfl
  have hcols : a.v.length = ds.prod := by rw [h.cols, hd]; rfl
  have hcyc : ∀ i ∈ rest, Cycles i i.positions := fun i hi =>
    cycles_of_plain (hplain i (List.mem_cons_of_mem i0 hi))
  generalize hrdim : keptBy true ((i0 :: rest).map Indexing.size) ((i0 :: rest).map Indexing.size) = rdim
  have hrne : rdim ≠ [] := hrdim ▸ keptBy_ne_nil (by simp)
  have hn : rdim.headD 0 * rdim.tail.prod = (combos (rest.map Index.positions)).length := by
    rw [headD_mul_prod hrne, ← hrdim, prod_keptBy, List.map_cons, List.prod_cons, hone, Nat.one_mul,
      length_combos_positions]
  obtain ⟨p, hp⟩ : ∃ p, i0.positions = [p] :=
    List.length_eq_one_iff.1 (i0.length_positions.trans hone)
  obtain ⟨k, hget⟩ := Index.getfirst_single hp
  rw [subsetAll_drop hd hcyc hone hget hrdim.symm]
  refine ⟨fun hin => ?_, fun hne hin => ?_⟩
  · have hsel := shape_of_forall₂ h hplain (hd ▸ hover) (hd ▸ hin)
    obtain _ | ⟨h0, hr⟩ := hin
    have hlt : p < d0 := h0 p (hp ▸ List.mem_cons_self)
    obtain ⟨rv, m, hrun, hfill⟩ := runCols_pushElt hd hrows hcols hp hlt hn (below_of_inRange hr)
    rw [if_neg (Nat.not_le_of_lt hlt), hrun]
    exact finish_ok h hsel (List.cons_ne_nil _ _) (hd ▸ List.Forall₂.cons h0 hr) hrdim.symm hfill
  · by_cases hlt : d0 ≤ p
    · rw [if_pos hlt]
      exact ⟨_, rfl⟩
    · rw [if_neg hlt]
      have hlen : rest.length = ds.length := Nat.succ.inj hover.length_eq
      have hne' := fun i hi => hne i (List.mem_cons_of_mem i0 hi)
      have h0 : InRange i0 d0 := by
        intro q hq
        rw [hp, List.mem_singleton] at hq
        exact hq ▸ Nat.lt_of_not_le hlt
      have hR : 0 < rdim.headD 0 := by
        have hpos := List.length_pos_iff.2 (combos_positions_ne_nil hne')
        rw [← hn] at hpos
        exact Nat.pos_of_mul_pos_right hpos
      obtain ⟨e, he⟩ := runCols_throw (fun us s => ∃ l, Gathered a ds p (rdim.headD 0) _ _ us s l)
        (fun t us s hs ht => .inl (pushElt_step hrows hcols (Nat.lt_of_not_le hlt) t us s hs ht))
        (fun t ht => by rw [length_of_mem_combos ht, List.length_map, hlen])
        (fun hr => hin (.cons h0 (inRange_of_all_below hlen hne' hr)))
        ⟨[], gathered_start a ds hR hn⟩
      rw [he]
      exact ⟨e, rfl⟩

end Spec

/-- A subset by one plain index for each dimension: all is in range and the result is what the
indices select, or, unless an index is empty, it throws. -/
theorem subset_spec {a : Grid T} (h : a.WellFormed) {is : List Index} (hplain : ∀ i ∈ is, i.Plain)
    (hover : List.Forall₂ (fun i d => i.Over d) is a.dim) (drop : Bool) :
    (List.Forall₂ InRange is a.dim → ∃ r, a.subset is drop 0 = .ok r () ∧ IsSubset a is drop r) ∧
    ((∀ i ∈ is, i.positions ≠ []) → ¬ List.Forall₂ InRange is a.dim →
      ∃ e, a.subset is drop 0 = .throw e ()) := by
  rw [subset_eq_all hover.length_eq]
  cases hd : a.dim with
  | nil => exact absurd hd h.ne
  | cons d0 ds =>
      cases is with
      | nil =>
          have hlen := hover.length_eq
          rw [hd] at hlen
          cases hlen
      | cons i0 rest =>
          by_cases hone : drop = true ∧ Indexing.size i0 = 1
          · obtain ⟨rfl, hone⟩ := hone
            exact subsetAll_drop_spec h hd hplain (hd ▸ hover) hone
          · exact subsetAll_keep_spec h hd hplain (hd ▸ hover) hone

theorem subset_spec_two :
    let a : Grid Nat := ⟨[2, 3], [[1, 2], [3, 4], [5, 6]], [.ofExtent 2, .ofExtent 3]⟩
    (∃ r, a.subset [.int ⟨[1]⟩, .int ⟨[2, 0]⟩] true 0 = .ok r () ∧
      IsSubset a [.int ⟨[1]⟩, .int ⟨[2, 0]⟩] true r) ∧
    ∃ e, a.subset [.int ⟨[1]⟩, .int ⟨[3]⟩] true 0 = .throw e () := by
  intro a
  have h : a.WellFormed := ⟨by decide, by decide, by decide, by decide, by decide⟩
  have hplain (l l' : List Nat) : ∀ i ∈ [Index.int ⟨l⟩, Index.int ⟨l'⟩], i.Plain := by
    rintro i hi b rfl
    simp at hi
  refine ⟨(subset_spec h (hplain [1] [2, 0]) (.cons trivial (.cons trivial .nil)) true).1 ?_,
    (subset_spec h (hplain [1] [3]) (.cons trivial (.cons trivial .nil)) true).2 ?_ ?_⟩
  · exact .cons (by decide : ∀ p ∈ [1], p < 2) (.cons (by decide : ∀ p ∈ [2, 0], p < 3) .nil)
  · intro i hi
    rcases List.mem_pair.1 hi with rfl | rfl <;> exact List.cons_ne_nil _ _
  · rintro (_ | ⟨-, _ | ⟨hin, -⟩⟩)
    exact absurd (hin 3 List.mem_cons_self) (by decide)

end Grid

end Ztsdb.Arr
