import Mathlib
import Ztsdb.Arr.BindCols

/-!
# `abind` keeps the shape of an array

An array is well shaped when the number of its columns, their lengths and the number of
its names follow from the extents. `abind` first brings the extents of the two arrays
to the same number of dimensions, then the columns, then the extent of its dimension:
the products of the extents add up as the columns do.

The lemmas are about calls that returned. What one that threw leaves behind is not
shaped; there is no general statement to make about it.
-/

namespace Ztsdb.Arr

open Ztsdb.Lib

namespace Array

open Ztsdb.Arr.Vector

section Extents

/-- Extents of dimension `d` set to `z`: what the other dimensions multiply to, times `z`. -/
theorem prod_set_eq (l : List Nat) {e : Nat} (he : e < l.length) (z : Nat) :
    (l.set e z).prod = (l.take e).prod * (l.drop (e + 1)).prod * z := by
  rw [List.prod_set, if_pos he]
  ring

theorem colsOf_eq_prod_drop {l : List idx_type} (h : l ≠ []) :
    colsOf l = ((l.map UInt64.toNat).drop 1).prod := by
  obtain ⟨x, xs, rfl⟩ := List.exists_cons_of_ne_nil h
  rfl

theorem colsOf_append {l l' : List idx_type} (h : l ≠ []) :
    colsOf (l ++ l') = colsOf l * (l'.map UInt64.toNat).prod := by
  obtain ⟨x, xs, rfl⟩ := List.exists_cons_of_ne_nil h
  rw [List.cons_append, colsOf, colsOf, List.map_append, List.prod_append]

/-- The columns of `l'` in terms of the extents of `l` it shares in all dimensions but `d`. -/
theorem colsOf_eq_set {l l' : List idx_type} {d : Nat} (hl : d < l.length) (hd : 0 < d)
    (hl' : l' ≠ []) (h : ∀ j, j ≠ d → ext l j = ext l' j) :
    colsOf l' = (((l.map UInt64.toNat).drop 1).set (d - 1) (ext l' d)).prod := by
  rw [colsOf_eq_prod_drop hl']
  apply prod_eq_of_getD
  intro j
  have hlen : ((l.map UInt64.toNat).drop 1).length = l.length - 1 := by
    rw [List.length_drop, List.length_map]
  rw [List.getD_eq_getElem?_getD, List.getD_eq_getElem?_getD, List.getElem?_drop,
    List.getElem?_set]
  by_cases hj : d - 1 = j
  · rw [if_pos hj, if_pos (by omega), ext, List.getD_eq_getElem?_getD,
      show 1 + j = d by omega]
    rfl
  · have := h (1 + j) (by omega)
    rw [if_neg hj, List.getElem?_drop]
    rw [ext, ext, List.getD_eq_getElem?_getD, List.getD_eq_getElem?_getD] at this
    exact this.symm

theorem ext_eq_getElem {l : List idx_type} {d : Nat} (h : d < l.length) :
    ext l d = l[d].toNat := by
  rw [ext, List.getD_eq_getElem?_getD, List.getElem?_map, List.getElem?_eq_getElem h]
  rfl

/-- The extent of `d` grows by that of `l'`, and the columns with it. -/
theorem colsOf_add {l l' : List idx_type} {d : Nat} {y : idx_type} (hl : d < l.length)
    (hd : 0 < d) (hl' : l' ≠ []) (h : ∀ j, j ≠ d → ext l j = ext l' j) (hy : ext l' d = y.toNat)
    (hfew : colsOf l + colsOf l' < 2 ^ 31) :
    colsOf (l.set d (l[d] + y)) = colsOf l + colsOf l' := by
  have hne : l ≠ [] := List.ne_nil_of_length_pos (by omega)
  have hlen : ((l.map UInt64.toNat).drop 1).length = l.length - 1 := by
    rw [List.length_drop, List.length_map]
  have he : d - 1 < ((l.map UInt64.toNat).drop 1).length := by omega
  have hself := colsOf_eq_set hl hd hne fun j _ => rfl
  have hother := colsOf_eq_set hl hd hl' h
  have hset : colsOf (l.set d (l[d] + y)) =
      (((l.map UInt64.toNat).drop 1).set (d - 1) (l[d] + y).toNat).prod := by
    obtain ⟨x, xs, rfl⟩ := List.exists_cons_of_ne_nil hne
    obtain ⟨e, rfl⟩ : ∃ e, d = e + 1 := ⟨d - 1, by omega⟩
    rw [List.set_cons_succ, colsOf, List.map_set]
    rfl
  rw [prod_set_eq _ he, ext_eq_getElem hl] at hself
  rw [prod_set_eq _ he, hy] at hother
  rw [prod_set_eq _ he] at hset
  rw [hself, hother] at hfew ⊢
  rw [hset]
  rcases Nat.eq_zero_or_pos ((((l.map UInt64.toNat).drop 1).take (d - 1)).prod *
    (((l.map UInt64.toNat).drop 1).drop (d - 1 + 1)).prod) with h0 | hpos
  · rw [h0]
    simp
  · have hx := Nat.le_mul_of_pos_left l[d].toNat hpos
    have hy := Nat.le_mul_of_pos_left y.toNat hpos
    rw [UInt64.toNat_add, Nat.mod_eq_of_lt (by omega), Nat.mul_add]

theorem ext_append {l l' : List idx_type} {d : Nat}
    (h : ∀ j, j ≠ d - l.length → ext l' j = 1) (hd : l.length ≤ d) {j : Nat} (hj : j ≠ d) :
    ext (l ++ l') j = ext l j := by
  rw [ext, ext, List.getD_eq_getElem?_getD, List.getD_eq_getElem?_getD, List.map_append]
  rcases Nat.lt_or_ge j l.length with hlt | hge
  · rw [List.getElem?_append_left (by rw [List.length_map]; exact hlt)]
  · have := h (j - l.length) (by omega)
    rw [ext, List.getD_eq_getElem?_getD] at this
    rw [List.getElem?_append_right (by rw [List.length_map]; exact hge), List.length_map, this,
      List.getElem?_eq_none (by rw [List.length_map]; exact hge)]
    rfl

end Extents

variable {T : Type} (O : T → T → Bool)

/-- As many columns, rows and names as the extents say. -/
structure Shaped (a : Array T) : Prop where
  cols : a.v.length = colsOf a.dim.v
  few : a.v.length < 2 ^ 31
  rows : ∀ c ∈ a.v, c.size = a.nrows
  names : a.names.length = a.dim.size

theorem nrows_eq_ext {a : Array T} (h : a.dim.v ≠ []) : a.nrows = ext a.dim.v 0 := by
  obtain ⟨d, ds, hd⟩ := List.exists_cons_of_ne_nil h
  rw [nrows, hd]
  rfl

/-! ## One command at a time -/

theorem pushDim_eq_ok {n : Nat} {a a' : Array T} {u : Unit} (h : a.pushDim n = .ok u a') :
    a'.dim.v = a.dim.v ++ [UInt64.ofNat n] ∧ a'.v = a.v ∧ a'.names = a.names := by
  obtain ⟨dim, hdim, rfl⟩ := Outcome.mapState_eq_ok.1 h
  exact ⟨(push_back_eq_ok lessIdx hdim).1, rfl, rfl⟩

theorem pushName_eq_ok {j n : Nat} {a a' : Array T} {u : Unit} (h : a.pushName j n = .ok u a') :
    a'.dim = a.dim ∧ a'.v = a.v ∧ a'.names.length = a.names.length + 1 := by
  rw [pushName] at h
  split at h
  · cases h
    exact ⟨rfl, rfl, List.length_append⟩
  · cases h
  · cases h

theorem addDims_eq_ok {namesFirst : Bool} {j : Nat} {ns : List Nat} {a a' : Array T} {u : Unit}
    (h : a.addDims namesFirst j ns = .ok u a') :
    a'.dim.v = a.dim.v ++ ns.map UInt64.ofNat ∧ a'.v = a.v ∧
      a'.names.length = a.names.length + ns.length := by
  induction ns generalizing a j with
  | nil =>
      cases h
      exact ⟨(List.append_nil _).symm, rfl, rfl⟩
  | cons n ns ih =>
      rw [addDims, Outcome.bind_eq_ok] at h
      obtain ⟨_, b, hb, h⟩ := h
      obtain ⟨hd', hv', hn'⟩ := ih h
      obtain ⟨hd, hv, hn⟩ : b.dim.v = a.dim.v ++ [UInt64.ofNat n] ∧ b.v = a.v ∧
          b.names.length = a.names.length + 1 := by
        split at hb
        · rw [Outcome.bind_eq_ok] at hb
          obtain ⟨_, c, hc, hb⟩ := hb
          obtain ⟨hd1, hv1, hn1⟩ := pushName_eq_ok hc
          obtain ⟨hd2, hv2, hn2⟩ := pushDim_eq_ok hb
          exact ⟨by rw [hd2, hd1], hv2.trans hv1, by rw [hn2, hn1]⟩
        · rw [Outcome.bind_eq_ok] at hb
          obtain ⟨_, c, hc, hb⟩ := hb
          obtain ⟨hd1, hv1, hn1⟩ := pushDim_eq_ok hc
          obtain ⟨hd2, hv2, hn2⟩ := pushName_eq_ok hb
          exact ⟨by rw [hd2, hd1], hv2.trans hv1, by rw [hn2, hn1]⟩
      refine ⟨?_, hv'.trans hv, ?_⟩
      · rw [hd', hd, List.append_assoc]
        rfl
      · rw [hn', hn, List.length_cons]
        omega

theorem setDim_eq_ok {d : Nat} {f : idx_type → idx_type} {a a' : Array T} {u : Unit}
    (h : a.setDim d f = .ok u a') :
    ∃ x, a.dim.v[d]? = some x ∧ a'.dim.v = a.dim.v.set d (f x) ∧ a'.v = a.v ∧
      a'.names = a.names := by
  rw [setDim] at h
  split at h
  · cases h
  · next x hx =>
      obtain ⟨dim, hdim, rfl⟩ := Outcome.mapState_eq_ok.1 h
      rw [setv] at hdim
      split at hdim
      · cases hdim
      · cases hdim
        exact ⟨x, hx, rfl, rfl, rfl⟩

theorem onName_eq_ok {d : Nat} {f : Dname → Outcome Exn Dname Unit} {a a' : Array T} {u : Unit}
    (h : a.onName d f = .ok u a') :
    a'.dim = a.dim ∧ a'.v = a.v ∧ a'.names.length = a.names.length := by
  rw [onName] at h
  split at h
  · cases h
  · obtain ⟨nm, -, rfl⟩ := Outcome.mapState_eq_ok.1 h
    exact ⟨rfl, rfl, List.length_set⟩

theorem takeNames_eq_ok {heap : Allocator} {us : List Dname} {d i : Nat} {nms nms' : List Dname}
    {u : Unit} (h : takeNames heap us d i nms = .ok u nms') : nms'.length = nms.length := by
  induction nms generalizing i nms' with
  | nil =>
      cases h
      rfl
  | cons nm nms ih =>
      rw [takeNames] at h
      split at h
      · split at h
        · split at h
          · obtain ⟨r, hr, rfl⟩ := Outcome.mapState_eq_ok.1 h
            rw [List.length_cons, List.length_cons, ih hr]
          · cases h
          · cases h
        · obtain ⟨r, hr, rfl⟩ := Outcome.mapState_eq_ok.1 h
          rw [List.length_cons, List.length_cons, ih hr]
      · obtain ⟨r, hr, rfl⟩ := Outcome.mapState_eq_ok.1 h
        rw [List.length_cons, List.length_cons, ih hr]

/-! ## The two arrays in as many dimensions -/

theorem ofNat_nullDims (u : Array T) (d : Nat) :
    (nullDims u d).map UInt64.ofNat = u.dim.v.set d 0 := by
  apply List.ext_getElem?
  intro j
  rw [nullDims, List.getElem?_map, List.getElem?_map, List.getElem?_zipIdx, List.getElem?_set]
  cases hj : u.dim.v[j]? with
  | none =>
      have hlen := List.getElem?_eq_none_iff.1 hj
      by_cases hd : d = j
      · rw [if_pos hd, if_neg (by omega)]
        rfl
      · rw [if_neg hd]
        rfl
  | some x =>
      have hlen := (List.getElem?_eq_some_iff.1 hj).1
      simp only [Option.map_some, Nat.zero_add]
      by_cases hd : d = j
      · rw [if_pos hd.symm, if_pos hd, if_pos (by omega)]
        rfl
      · rw [if_neg (fun h => hd h.symm), if_neg hd, UInt64.ofNat_toNat]

theorem ext_moreDims {noCols : Bool} {k d j : Nat} (hj : j ≠ d - k) :
    ext ((moreDims noCols k d).map UInt64.ofNat) j = 1 := by
  rw [ext, List.getD_eq_getElem?_getD, List.map_map, moreDims, List.map_map, List.getElem?_map]
  cases hr : (List.range' k (d + 1 - k))[j]? with
  | none => rfl
  | some x =>
      have hlen := (List.getElem?_eq_some_iff.1 hr).1
      rw [List.length_range'] at hlen
      rw [List.getElem?_range' hlen] at hr
      cases hr
      have hne : ¬ k + j = d := by omega
      simp [hne]

theorem length_moreDims (noCols : Bool) (k d : Nat) :
    (moreDims noCols k d).length = d + 1 - k := by
  rw [moreDims, List.length_map, List.length_range']

theorem prod_moreDims {k d : Nat} :
    (((moreDims false k d).map UInt64.ofNat).map UInt64.toNat).prod = 1 := by
  apply List.prod_eq_one
  intro x hx
  obtain ⟨y, hy, rfl⟩ := List.mem_map.1 hx
  obtain ⟨z, hz, rfl⟩ := List.mem_map.1 hy
  obtain ⟨w, -, rfl⟩ := List.mem_map.1 hz
  rfl

theorem prod_moreDims_zero {k d : Nat} (h : k ≤ d) :
    (((moreDims true k d).map UInt64.ofNat).map UInt64.toNat).prod = 0 := by
  apply List.prod_eq_zero
  refine List.mem_map.2 ⟨0, List.mem_map.2 ⟨0, List.mem_map.2 ⟨d, ?_, ?_⟩, rfl⟩, rfl⟩
  · rw [List.mem_range']
    exact ⟨d - k, by omega, by omega⟩
  · simp

/-- The two arrays after the first has got the dimensions it lacks: the extents agree but
in dimension `d`, and the columns of the first are still as many as its extents say,
unless it was null and rows are bound. -/
theorem sameDims_eq_ok {u a b : Array T} {d : Nat} {w : Unit} (ha : a.Shaped)
    (hu : u.dim.v ≠ [])
    (hcheck : checkdims a.dim.v u.dim.size (fun j => (u.dim.v[j]?).map UInt64.toNat) d = some true)
    (h : ((if a.dim.size = 0 then a.addDims false 0 (nullDims u d) else .ok () a).bind fun _ a =>
      a.addDims true a.dim.size (moreDims a.v.isEmpty a.dim.size d)) = .ok w b) :
    b.v = a.v ∧ b.names.length = b.dim.size ∧ d < b.dim.v.length ∧
      (∀ j, j ≠ d → ext b.dim.v j = ext u.dim.v j) ∧
      (0 < d → b.v.length = colsOf b.dim.v) ∧
      (d = 0 → b.nrows = a.nrows ∧ (a.dim.v ≠ [] → b.dim.v = a.dim.v)) := by
  rw [Outcome.bind_eq_ok] at h
  obtain ⟨_, c, hc, h⟩ := h
  obtain ⟨hd2, hv2, hn2⟩ := addDims_eq_ok h
  rw [length_moreDims] at hn2
  -- the extents after the first step
  have hfirst : c.v = a.v ∧ c.names.length = c.dim.size ∧ c.dim.v ≠ [] ∧
      (∀ j, j ≠ d → ext c.dim.v j = ext u.dim.v j) ∧
      (a.dim.v = [] → c.dim.v = u.dim.v.set d 0) ∧ (a.dim.v ≠ [] → c = a) := by
    split at hc
    · next h0 =>
        have hnil : a.dim.v = [] := List.eq_nil_of_length_eq_zero h0
        obtain ⟨hd1, hv1, hn1⟩ := addDims_eq_ok hc
        rw [hnil, List.nil_append, ofNat_nullDims] at hd1
        refine ⟨hv1, ?_, ?_, ?_, fun _ => hd1, fun hne => absurd hnil hne⟩
        · rw [hn1, ha.names, h0, Vector.size, hd1, List.length_set, nullDims, List.length_map,
            List.length_zipIdx, Nat.zero_add]
        · rw [hd1]
          intro hset
          exact hu ((List.set_eq_nil_iff _ _).1 hset)
        · intro j hj
          rw [hd1, ext, ext, List.map_set, List.getD_eq_getElem?_getD, List.getD_eq_getElem?_getD,
            List.getElem?_set_ne (Ne.symm hj)]
    · next h0 =>
        cases hc
        have hne : a.dim.v ≠ [] := fun hnil => h0 (by rw [Vector.size, hnil]; rfl)
        exact ⟨rfl, ha.names, hne, fun j hj => getD_eq_of_checkdims hne hu hcheck hj,
          fun hnil => absurd hnil hne, fun _ => rfl⟩
  obtain ⟨hv1, hn1, hne, hext, hnull, hsame⟩ := hfirst
  have hlen : b.dim.v.length = c.dim.v.length + (d + 1 - c.dim.v.length) := by
    rw [hd2, List.length_append, List.length_map, length_moreDims, Vector.size]
  have hpos := List.length_pos_of_ne_nil hne
  refine ⟨hv2.trans hv1, ?_, by omega, ?_, ?_, ?_⟩
  · rw [hn2, hn1, Vector.size, Vector.size, hlen]
  · intro j hj
    rw [hd2]
    rcases Nat.lt_or_ge d c.dim.v.length with hlt | hge
    · rw [Vector.size, moreDims, show d + 1 - c.dim.v.length = 0 by omega, List.range'_zero,
        List.map_nil, List.map_nil, List.append_nil, hext j hj]
    · rw [Vector.size, ext_append (fun i hi => ext_moreDims hi) hge hj, hext j hj]
  · intro hd
    rw [hv2, hv1, hd2, colsOf_append hne]
    by_cases hnil : a.dim.v = []
    · -- a null array has no columns, and the extents have a 0
      have hcols := ha.cols
      rw [hnil] at hcols
      have hempty : a.v = [] := List.eq_nil_of_length_eq_zero hcols
      rw [hcols, colsOf, hv1, hempty, Vector.size]
      rcases Nat.lt_or_ge d c.dim.v.length with hlt | hge
      · have hz : colsOf c.dim.v = 0 := by
          rw [hnull hnil, colsOf_eq_prod_drop (by rw [← hnull hnil]; exact hne)]
          apply List.prod_eq_zero
          have hset := hnull hnil
          rw [List.mem_iff_getElem?]
          refine ⟨d - 1, ?_⟩
          rw [List.getElem?_drop, List.getElem?_map, show 1 + (d - 1) = d by omega,
            List.getElem?_set_self (by rw [hset, List.length_set] at hlt; exact hlt)]
          rfl
        rw [hz, Nat.zero_mul]
      · rw [List.isEmpty_nil, prod_moreDims_zero hge, Nat.mul_zero]
    · have hca := hsame hnil
      rw [hca]
      cases hav : a.v.isEmpty with
      | false => rw [prod_moreDims, Nat.mul_one, ha.cols]
      | true =>
          have hcols := ha.cols
          rw [List.isEmpty_iff.1 hav] at hcols ⊢
          rw [← hcols, List.length_nil, Nat.zero_mul]
  · intro h0
    have hnone : b.dim.v = c.dim.v := by
      rw [hd2, Vector.size, moreDims, show d + 1 - c.dim.v.length = 0 by omega, List.range'_zero,
        List.map_nil, List.map_nil, List.append_nil]
    refine ⟨?_, fun hne => by rw [hnone, hsame hne]⟩
    by_cases hnil : a.dim.v = []
    · have hset := hnull hnil
      obtain ⟨x, xs, hx⟩ := List.exists_cons_of_ne_nil hu
      rw [nrows, nrows, hnone, hset, hnil, hx, h0]
      rfl
    · rw [nrows, nrows, hnone, hsame hnil]

/-! ## Rows -/

variable [Raw T]

/-- The rows of `u` on columns of `n` rows each, or on none. -/
theorem bindRows_eq_ok {m n j : Nat} {allocf : AllocFactory} {us cs cs' : List (Vector T)}
    {w : Unit} (hus : ∀ u ∈ us, u.size = m) (hcs : ∀ c ∈ cs, c.size = n)
    (hlen : cs.length = us.length ∨ cs = [] ∧ n = 0)
    (h : bindRows O allocf j us cs = .ok w cs') :
    cs'.length = us.length ∧ ∀ c ∈ cs', c.size = n + m := by
  induction us generalizing cs cs' j with
  | nil =>
      cases h
      rcases hlen with hlen | ⟨rfl, -⟩
      · rw [List.eq_nil_of_length_eq_zero hlen]
        exact ⟨rfl, fun c hc => by cases hc⟩
      · exact ⟨rfl, fun c hc => by cases hc⟩
  | cons u us ih =>
      have hu := hus u List.mem_cons_self
      have hrest := fun x hx => hus x (List.mem_cons_of_mem u hx)
      cases cs with
      | cons c cs =>
          rw [bindRows] at h
          split at h
          · next c' hpush =>
              obtain ⟨r, hr, rfl⟩ := Outcome.mapState_eq_ok.1 h
              have hl : cs.length = us.length := by
                rcases hlen with hlen | ⟨hnil, -⟩
                · exact Nat.succ.inj hlen
                · cases hnil
              obtain ⟨hlen', hall⟩ := ih hrest (fun d hd => hcs d (List.mem_cons_of_mem c hd))
                (.inl hl) hr
              refine ⟨by rw [List.length_cons, List.length_cons, hlen'], ?_⟩
              rw [List.forall_mem_cons]
              refine ⟨?_, hall⟩
              rw [size_of_pushAll O hpush, hcs c List.mem_cons_self]
              exact congrArg (n + ·) hu
          · cases h
          · cases h
      | nil =>
          rw [bindRows] at h
          obtain rfl : n = 0 := by
            rcases hlen with hlen | ⟨-, h0⟩
            · cases hlen
            · exact h0
          split at h
          · next c _ hc =>
              split at h
              · next c' hpush =>
                  obtain ⟨r, hr, rfl⟩ := Outcome.mapState_eq_ok.1 h
                  obtain ⟨hlen', hall⟩ := ih hrest (fun d hd => by cases hd) (.inr ⟨rfl, rfl⟩) hr
                  obtain ⟨b, -, -, heq⟩ := construct_eq_ok hc
                  refine ⟨by rw [List.length_cons, List.length_cons, hlen'], ?_⟩
                  rw [List.forall_mem_cons]
                  refine ⟨?_, hall⟩
                  rw [size_of_pushAll O hpush, heq]
                  exact congrArg (0 + ·) hu
              · cases h
              · cases h
          · cases h
          · cases h

/-! ## `abind` -/

/-- Rows bound: the columns are those of `u`, longer by the rows of `a`. -/
theorem abindRest_rows {heap : Allocator} {u a a' : Array T} {pre : List UInt8} {w : Unit}
    (ha : a.Shaped) (hu : u.Shaped) (hune : u.dim.v ≠ []) (hsum : a.nrows + u.nrows < 2 ^ 64)
    (h : abindRest O heap u 0 pre a = .ok w a') :
    a'.Shaped ∧ a'.nrows = a.nrows + u.nrows ∧ a'.dim.v ≠ [] := by
  unfold abindRest at h
  split at h
  · cases h
  · cases h
  next hcheck =>
  rw [Outcome.bind_eq_ok] at h
  obtain ⟨_, b, hb, h⟩ := h
  rw [Outcome.bind_eq_ok] at h
  obtain ⟨_, c, hc, h⟩ := h
  have hdims := sameDims_eq_ok ha hune hcheck (Outcome.bind_eq_ok.2 ⟨_, b, hb, hc⟩)
  obtain ⟨hcv, hcn, hclen, hext, -, hzero⟩ := hdims
  obtain ⟨hcrows, hcdim⟩ := hzero rfl
  rw [Outcome.bind_eq_ok] at h
  obtain ⟨_, e, he, h⟩ := h
  rw [if_pos rfl] at he
  obtain ⟨v, hv, rfl⟩ := Outcome.mapState_eq_ok.1 he
  have hcols : colsOf c.dim.v = colsOf u.dim.v := by
    rw [colsOf_eq_prod_drop (List.ne_nil_of_length_pos hclen), colsOf_eq_prod_drop hune]
    have := prod_drop_of_ext hext
    rwa [List.map_drop, List.map_drop] at this
  have hlen : c.v.length = u.v.length ∨ c.v = [] ∧ a.nrows = 0 := by
    by_cases hnil : a.dim.v = []
    · right
      have hacols := ha.cols
      rw [hnil, colsOf] at hacols
      exact ⟨by rw [hcv]; exact List.eq_nil_of_length_eq_zero hacols, by rw [nrows, hnil]⟩
    · left
      rw [hcv, ha.cols, hu.cols, ← hcols, hcdim hnil]
  obtain ⟨hvlen, hall⟩ := bindRows_eq_ok O hu.rows (by rw [hcv]; exact ha.rows) hlen hv
  split at h
  · cases h
  · cases h
  next newnames _ _ =>
  rw [Outcome.bind_eq_ok] at h
  obtain ⟨_, f, hf, h⟩ := h
  rw [Outcome.bind_eq_ok] at h
  obtain ⟨_, g, hg, h⟩ := h
  obtain ⟨hfd, hfv, hfn⟩ := onName_eq_ok hf
  obtain ⟨names, hnames, rfl⟩ := Outcome.mapState_eq_ok.1 hg
  obtain ⟨x, hx, hd', hv', hn'⟩ := setDim_eq_ok h
  -- the extent
  obtain ⟨y, ys, hy⟩ := List.exists_cons_of_ne_nil hune
  obtain ⟨z, zs, hz⟩ := List.exists_cons_of_ne_nil (List.ne_nil_of_length_pos hclen)
  simp only [hfd, hz, List.getElem?_cons_zero, Option.some.injEq] at hx
  subst hx
  simp only [hfd, hz, hy, List.getElem?_cons_zero, Option.getD_some, List.set_cons_zero] at hd'
  have hrows : a'.nrows = a.nrows + u.nrows := by
    have hzn : z.toNat = a.nrows := by rw [← hcrows, nrows, hz]
    have hyn : y.toNat = u.nrows := by rw [nrows, hy]
    rw [nrows, hd']
    simp only
    rw [UInt64.toNat_add, hzn, hyn, Nat.mod_eq_of_lt hsum]
  have hvl : a'.v = v := hv'.trans hfv
  refine ⟨⟨?_, ?_, ?_, ?_⟩, hrows, by rw [hd']; exact List.cons_ne_nil _ _⟩
  · rw [hvl, hvlen, hu.cols, ← hcols, hd', hz]
    rfl
  · rw [hvl, hvlen]
    exact hu.few
  · rw [hvl, hrows]
    exact hall
  · rw [hn', takeNames_eq_ok hnames, hfn, Vector.size, hd', List.length_cons]
    simp only
    rw [hcn, Vector.size, hz, List.length_cons]

/-- Another dimension bound: the columns of both, in as many rows. -/
theorem abindRest_columns {heap : Allocator} {u a a' : Array T} {d : Nat} {pre : List UInt8}
    {w : Unit} (ha : a.Shaped) (hu : u.Shaped) (hune : u.dim.v ≠ []) (hd : 0 < d)
    (hfew : a.v.length + u.v.length < 2 ^ 31) (h : abindRest O heap u d pre a = .ok w a') :
    a'.Shaped ∧ a'.nrows = u.nrows ∧ a'.dim.v ≠ [] ∧ (a.dim.v ≠ [] → a.nrows = u.nrows) := by
  unfold abindRest at h
  split at h
  · cases h
  · cases h
  next hcheck =>
  rw [Outcome.bind_eq_ok] at h
  obtain ⟨_, b, hb, h⟩ := h
  rw [Outcome.bind_eq_ok] at h
  obtain ⟨_, c, hc, h⟩ := h
  have hdims := sameDims_eq_ok ha hune hcheck (Outcome.bind_eq_ok.2 ⟨_, b, hb, hc⟩)
  obtain ⟨hcv, hcn, hclen, hext, hccols, -⟩ := hdims
  have hcne : c.dim.v ≠ [] := List.ne_nil_of_length_pos (by omega)
  rw [Outcome.bind_eq_ok] at h
  obtain ⟨_, e, he, h⟩ := h
  rw [if_neg (by omega)] at he
  have hanr : a.dim.v ≠ [] → a.nrows = u.nrows := by
    intro hne
    rw [nrows_eq_ext hne, nrows_eq_ext hune]
    exact getD_eq_of_checkdims hne hune hcheck (by omega)
  have hrows : ∀ x ∈ c.v, x.size = u.nrows := by
    intro x hx
    rw [hcv] at hx
    have hne : a.dim.v ≠ [] := by
      intro hnil
      have hacols := ha.cols
      rw [hnil, colsOf] at hacols
      rw [List.eq_nil_of_length_eq_zero hacols] at hx
      cases hx
    rw [ha.rows x hx, hanr hne]
  obtain ⟨hed, hen, helen, hall⟩ := bindColumns_eq_ok O hune hcne hu.cols (hccols hd)
    (by rw [hcv]; exact hfew) hext hu.rows hrows he
  split at h
  · cases h
  · cases h
  next newnames _ _ =>
  rw [Outcome.bind_eq_ok] at h
  obtain ⟨_, f, hf, h⟩ := h
  rw [Outcome.bind_eq_ok] at h
  obtain ⟨_, g, hg, h⟩ := h
  obtain ⟨hfd, hfv, hfn⟩ := onName_eq_ok hf
  obtain ⟨names, hnames, rfl⟩ := Outcome.mapState_eq_ok.1 hg
  obtain ⟨x, hx, hd', hv', hn'⟩ := setDim_eq_ok h
  simp only [hfd, hed, List.getElem?_eq_getElem hclen, Option.some.injEq] at hx
  subst hx
  simp only [hfd, hed] at hd'
  have hvl : a'.v = e.v := hv'.trans hfv
  have hy : ext u.dim.v d = ((u.dim.v[d]?).getD 1).toNat := by
    rw [ext, List.getD_eq_getElem?_getD, List.getElem?_map]
    cases u.dim.v[d]? <;> rfl
  have hcolsc := hccols hd
  have hadd := colsOf_add hclen hd hune hext hy (by rw [← hcolsc, ← hu.cols, hcv]; exact hfew)
  have hne' : a'.dim.v ≠ [] := by
    rw [hd']
    intro hset
    exact hcne ((List.set_eq_nil_iff _ _).1 hset)
  have hrows' : a'.nrows = u.nrows := by
    rw [nrows_eq_ext hne', nrows_eq_ext hune, ← hext 0 (by omega), hd', ext, ext, List.map_set,
      List.getD_eq_getElem?_getD, List.getD_eq_getElem?_getD, List.getElem?_set_ne (by omega)]
  refine ⟨⟨?_, ?_, ?_, ?_⟩, hrows', hne', hanr⟩
  · rw [hvl, helen, hcolsc, hu.cols, hd', hadd]
  · rw [hvl, helen, hcv]
    exact hfew
  · rw [hvl, hrows']
    exact hall
  · rw [hn', takeNames_eq_ok hnames, hfn, Vector.size, hd', List.length_set, hen, hcn]
    rfl

end Array

end Ztsdb.Arr
