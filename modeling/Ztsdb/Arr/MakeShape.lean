import Mathlib
import Ztsdb.Arr.BindShape
import Ztsdb.Arr.ZtsRollback

/-!
# What the constructors build

An array from a constructor has the columns its extents ask for, as long as the first
extent says, or no elements where the rows were only reserved. A copy has the contents
of the original, and `drop` changes neither the columns nor their number.
-/

namespace Ztsdb.Arr

open Ztsdb.Lib

namespace Vector

variable {T : Type} (O : T → T → Bool)

theorem moveDown_eq_ok {i k : Nat} {s s' : Vector T} {u : Unit} (hi : i + k + 1 = s.size)
    (h : moveDown 1 i k s = .ok u s') :
    s'.size = s.size ∧ s'.v.take (s.size - 1) = s.v.eraseIdx i := by
  induction k generalizing i s with
  | zero =>
      cases h
      refine ⟨rfl, ?_⟩
      rw [Vector.size] at hi
      rw [Vector.size, List.eraseIdx_eq_take_drop_succ, List.drop_eq_nil_of_le (by omega), List.append_nil,
        ← hi]
      rfl
  | succ k ih =>
      rw [Vector.size] at hi
      rw [moveDown, List.getElem?_eq_getElem (show i + 1 < s.v.length by omega)] at h
      simp only at h
      rw [Outcome.bind_eq_ok] at h
      obtain ⟨_, t, ht, h⟩ := h
      rw [writeIter, if_pos (by rw [Vector.size]; omega)] at ht
      cases ht
      have hsize : ({ s with v := s.v.set i s.v[i + 1], ordered := false } : Vector T).size =
          s.size := List.length_set
      obtain ⟨hlen, htake⟩ := ih (by rw [hsize, Vector.size]; omega) h
      rw [hsize] at hlen htake
      refine ⟨hlen, htake.trans ?_⟩
      apply List.ext_getElem
      · rw [List.length_eraseIdx_of_lt (by rw [List.length_set]; omega),
          List.length_eraseIdx_of_lt (by omega), List.length_set]
      · intro j h1 h2
        rw [List.getElem_eraseIdx, List.getElem_eraseIdx]
        by_cases hj : j < i
        · simp [hj, show j < i + 1 by omega, show i ≠ j by omega]
        · by_cases hji : j = i
          · subst hji
            simp
          · simp [hj, show ¬ j < i + 1 by omega, show i ≠ j + 1 by omega]

variable [Raw T]

theorem copy_eq_ok {s s' : Vector T} {alloc : Option Allocator} {u : Unit}
    (h : s.copy alloc = .ok s' u) : s'.v = s.v ∧ s'.ordered = s.ordered := by
  obtain ⟨a, -, -, heq⟩ := construct_eq_ok h
  rw [heq]
  exact ⟨rfl, rfl⟩

theorem size_ofFill {n : Nat} {value : T} {alloc : Option Allocator} {s : Vector T} {u : Unit}
    (h : ofFill O n value alloc = .ok s u) : s.v = List.replicate n value := by
  obtain ⟨a, -, -, heq⟩ := construct_eq_ok h
  rw [heq]

theorem ofRange_eq_ok {l : List T} {alloc : Option Allocator} {s : Vector T} {u : Unit}
    (h : ofRange O l alloc = .ok s u) : s.v = l ∧ s.ordered = adjacent O l := by
  obtain ⟨a, -, -, heq⟩ := construct_eq_ok h
  rw [heq]
  exact ⟨rfl, rfl⟩

theorem size_ofRsv {n : Nat} {alloc : Option Allocator} {s : Vector T} {u : Unit}
    (h : ofRsv n alloc = .ok s u) : s.size = 0 := by
  obtain ⟨a, -, -, heq⟩ := construct_eq_ok h
  rw [heq]
  rfl

/-- A resize that keeps at most what is there takes a piece of it. -/
theorem resize_eq_take {n frm : Nat} {s s' : Vector T} {u : Unit} (hn : frm + n ≤ s.size)
    (h : s.resize n frm = .ok u s') : s'.v = (s.v.drop frm).take n := by
  rcases resize_eq_ok h with ⟨rfl, hn', rfl⟩ | ⟨a, -, hfrm, rfl⟩
  · rw [List.drop_zero, hn', Vector.size, List.take_length]
  · show redim a n (s.v.drop frm) = _
    rw [redim_of_le]
    rw [List.length_drop]
    rw [Vector.size] at hn
    omega

theorem erase_eq_ok {i : Nat} {s s' : Vector T} {u : Unit} (h : s.erase i = .ok u s') :
    s'.v = s.v.eraseIdx i := by
  rw [erase] at h
  split at h
  · next hi =>
      rw [Outcome.bind_eq_ok] at h
      obtain ⟨_, t, ht, h⟩ := h
      obtain ⟨hsize, htake⟩ := moveDown_eq_ok (by omega) ht
      rw [← htake, resize_eq_take (by omega) h, List.drop_zero, hsize]
  · cases h

end Vector

namespace Array

open Ztsdb.Arr.Vector

/-- The number of columns, as it is computed. -/
theorem ncolsOf_eq {dim : List idx_type} (h : colsOf dim < 2 ^ 64) : ncolsOf dim = colsOf dim := by
  cases dim with
  | nil => rfl
  | cons d ds =>
      have hfold : ∀ acc, ds.foldl (fun acc d => wrap (acc * d.toNat)) (wrap acc) =
          wrap (acc * (ds.map UInt64.toNat).prod) := by
        clear h
        induction ds with
        | nil =>
            intro acc
            rw [List.foldl_nil, List.map_nil, List.prod_nil, Nat.mul_one]
        | cons d ds ih =>
            intro acc
            have hmul : wrap (wrap acc * d.toNat) = wrap (acc * d.toNat) := by
              rw [wrap, wrap, wrap, Nat.mod_mul_mod]
            rw [List.foldl_cons, hmul, ih, List.map_cons, List.prod_cons, Nat.mul_assoc]
      have := hfold 1
      rw [wrap_of_lt (show 1 < 2 ^ 64 by omega), Nat.one_mul] at this
      rw [ncolsOf, this]
      exact wrap_of_lt h

theorem buildNames_eq_ok {dim : List idx_type} {allocf : AllocFactory}
    {names_p : List (Vector ZString)} {names : List Dname} {u : Unit}
    (h : buildNames dim allocf names_p = .ok names u) : names.length = dim.length := by
  rw [buildNames] at h
  split at h
  · cases h
  · rw [← (Outcome.collect_eq_ok h).length_eq, List.length_map, List.length_zipIdx]

variable {T : Type} (O : T → T → Bool)

/-- Equal contents, extents and numbers of names make arrays of one shape. -/
theorem Shaped.congr {a a' : Array T} (h : a.Shaped) (hd : a'.dim.v = a.dim.v)
    (hn : a'.names.length = a.names.length) (hv : a'.v.map (·.v) = a.v.map (·.v)) : a'.Shaped := by
  have hlen : a'.v.length = a.v.length := by
    rw [← List.length_map (f := (·.v)), hv, List.length_map]
  refine ⟨by rw [hlen, hd, h.cols], by rw [hlen]; exact h.few, ?_, ?_⟩
  · have hrows : ∀ l ∈ a'.v.map (·.v), l.length = a.nrows := by
      rw [hv, List.forall_mem_map]
      exact h.rows
    rw [List.forall_mem_map] at hrows
    rw [nrows, hd]
    exact hrows
  · rw [hn, h.names, Vector.size, Vector.size, hd]

/-- `drop` takes away extents of 1 with their names, never the first. -/
theorem dropFrom_eq_ok {i : Nat} {dim dim' : Vector idx_type} {names names' : List Dname} {u : Unit}
    (hn : names.length = dim.size) (h : dropFrom i (dim, names) = .ok u (dim', names')) :
    dim'.v.head? = dim.v.head? ∧ colsOf dim'.v = colsOf dim.v ∧ names'.length = dim'.size := by
  induction i generalizing dim names with
  | zero =>
      cases h
      exact ⟨rfl, rfl, hn⟩
  | succ i ih =>
      rw [dropFrom] at h
      split at h
      · cases h
      next d hd =>
      have hlt := (List.getElem?_eq_some_iff.1 hd).1
      simp only at h
      split at h
      · next h1 =>
          subst h1
          rw [Outcome.bind_eq_ok] at h
          obtain ⟨_, s, hs, h⟩ := h
          obtain ⟨e, he, rfl⟩ := Outcome.mapState_eq_ok.1 hs
          have hev := erase_eq_ok he
          have hlen : e.size = dim.size - 1 := by
            rw [Vector.size, hev, List.length_eraseIdx_of_lt hlt]
            rfl
          obtain ⟨hhead, hcols, hnames⟩ := ih (by
            rw [List.length_eraseIdx_of_lt (by rw [hn]; exact hlt), hn, hlen]) h
          refine ⟨?_, ?_, hnames⟩
          · rw [hhead, hev, List.head?_eq_getElem?, List.head?_eq_getElem?,
              List.getElem?_eraseIdx_of_lt (Nat.succ_pos i)]
          · rw [hcols, hev]
            obtain ⟨x, xs, hx⟩ := List.exists_cons_of_ne_nil (List.ne_nil_of_length_pos
              (Nat.lt_of_le_of_lt (Nat.zero_le _) hlt))
            simp only [hx] at hd ⊢
            rw [List.getElem?_cons_succ] at hd
            obtain ⟨hi, hxi⟩ := List.getElem?_eq_some_iff.1 hd
            rw [List.eraseIdx_cons_succ, colsOf, colsOf, List.eraseIdx_eq_take_drop_succ,
              List.map_append, List.prod_append]
            have hsplit : xs = xs.take i ++ (1 :: xs.drop (i + 1)) := by
              rw [← hxi, ← List.drop_eq_getElem_cons hi, List.take_append_drop]
            conv_rhs => rw [hsplit]
            rw [List.map_append, List.prod_append, List.map_cons, List.prod_cons]
            show _ = _ * (1 * _)
            rw [Nat.one_mul]
      · exact @ih { dim with ordered := false } _ hn h

theorem drop_eq_ok {a a' : Array T} {u : Unit} (ha : a.Shaped) (h : a.drop = .ok u a') :
    a'.Shaped ∧ a'.nrows = a.nrows ∧ a'.v = a.v := by
  rw [drop] at h
  obtain ⟨⟨dim, names⟩, hs, rfl⟩ := Outcome.mapState_eq_ok.1 h
  obtain ⟨hhead, hcols, hnames⟩ := dropFrom_eq_ok ha.names hs
  have hnr : ({ a with dim := dim, names := names } : Array T).nrows = a.nrows := by
    rw [nrows, nrows]
    simp only
    cases hd : a.dim.v with
    | nil =>
        rw [hd, List.head?_nil, List.head?_eq_none_iff] at hhead
        rw [hhead]
    | cons x xs =>
        rw [hd, List.head?_cons, List.head?_eq_some_iff] at hhead
        obtain ⟨ys, hys⟩ := hhead
        rw [hys]
  exact ⟨⟨ha.cols.trans hcols.symm, ha.few, by rw [hnr]; exact ha.rows, hnames⟩, hnr, rfl⟩

variable [Raw T]

/-- Reserved rows: the columns are there, without elements. -/
theorem ofRsv_eq_ok {dim_p : Vector idx_type} {names_p : List (Vector ZString)}
    {allocf : AllocFactory} {a : Array T} {u : Unit} (h : ofRsv dim_p names_p allocf = .ok a u) :
    a.dim.v = dim_p.v ∧ a.v.length = ncolsOf dim_p.v ∧ (∀ c ∈ a.v, c.size = 0) ∧
      a.names.length = dim_p.size := by
  rw [ofRsv, Outcome.bind_eq_ok] at h
  obtain ⟨dim, _, hdim, h⟩ := h
  have hv := (copy_eq_ok hdim).1
  rw [← hv, Vector.size, ← hv]
  split at h
  · next hnil =>
      cases h
      rw [hnil]
      exact ⟨rfl, rfl, List.forall_mem_nil _, rfl⟩
  · next d ds hd =>
      rw [Outcome.bind_eq_ok] at h
      obtain ⟨v, _, hcols, h⟩ := h
      rw [Outcome.bind_eq_ok] at h
      obtain ⟨names, _, hnames, h⟩ := h
      cases h
      have hall := Outcome.collect_eq_ok hcols
      refine ⟨rfl, ?_, ?_, buildNames_eq_ok hnames⟩
      · rw [← hall.length_eq, List.length_map, List.length_range]
      · intro c hc
        obtain ⟨i, hi, rfl⟩ := List.getElem_of_mem hc
        have hmk := (List.forall₂_iff_get.1 hall).2 i (by rw [hall.length_eq]; exact hi) hi
        rw [List.get_eq_getElem, List.getElem_map] at hmk
        exact size_ofRsv hmk

theorem cutColumn_size {v_p c : Vector T} {ncols d n : Nat} {allocf : AllocFactory} {u : Unit}
    (hn : n < ncols) (hsize : 1 < v_p.size → v_p.size = ncols * d)
    (h : cutColumn O v_p d allocf n = .ok c u) : c.size = d := by
  rw [cutColumn] at h
  split at h
  · rw [Vector.size, size_ofFill O h, List.length_replicate]
  · rw [Vector.size, size_ofFill O h, List.length_replicate]
  · next hne hne1 =>
      have hlen : 1 < v_p.v.length := by
        cases hv : v_p.v with
        | nil => exact absurd hv hne
        | cons x xs =>
            cases xs with
            | nil => exact absurd hv (hne1 x)
            | cons y ys =>
                rw [List.length_cons, List.length_cons]
                omega
      have := hsize hlen
      rw [Vector.size] at this
      have hle : (n + 1) * d ≤ ncols * d := Nat.mul_le_mul_right d hn
      rw [Nat.succ_mul] at hle
      rw [Vector.size, (ofRange_eq_ok O h).1, List.length_take, List.length_drop]
      omega

theorem ofVector_eq_ok {dim_p : Vector idx_type} {v_p : Vector T}
    {names_p : List (Vector ZString)} {allocf : AllocFactory} {a : Array T} {u : Unit}
    (h : ofVector O dim_p v_p names_p allocf = .ok a u) :
    a.dim.v = dim_p.v ∧ a.v.length = ncolsOf dim_p.v ∧ (∀ c ∈ a.v, c.size = a.nrows) ∧
      a.names.length = dim_p.size ∧
      ∀ (i : Nat) (hi : i < a.v.length),
        cutColumn O v_p a.nrows allocf i = .ok a.v[i] () := by
  rw [ofVector, Outcome.bind_eq_ok] at h
  obtain ⟨dim, _, hdim, h⟩ := h
  have hv := (copy_eq_ok hdim).1
  rw [← hv, Vector.size, ← hv]
  simp only at h
  split at h
  · cases h
  next hfit =>
  rw [Outcome.bind_eq_ok] at h
  obtain ⟨v, _, hcols, h⟩ := h
  rw [Outcome.bind_eq_ok] at h
  obtain ⟨names, _, hnames, h⟩ := h
  cases h
  have hall := Outcome.collect_eq_ok hcols
  have hlen : v.length = ncolsOf dim.v := by
    rw [← hall.length_eq, List.length_map, List.length_range]
  have hnr : ({ dim, v, names, allocf } : Array T).nrows = (dim.v.map UInt64.toNat).headD 0 := by
    rw [nrows]
    cases dim.v <;> rfl
  have hcut : ∀ (i : Nat) (hi : i < v.length),
      cutColumn O v_p ((dim.v.map UInt64.toNat).headD 0) allocf i = .ok v[i] () := by
    intro i hi
    have hmk := (List.forall₂_iff_get.1 hall).2 i (by rw [hall.length_eq]; exact hi) hi
    rwa [List.get_eq_getElem, List.getElem_map, List.getElem_range] at hmk
  rw [hnr]
  refine ⟨rfl, hlen, ?_, buildNames_eq_ok hnames, hcut⟩
  intro c hc
  obtain ⟨i, hi, rfl⟩ := List.getElem_of_mem hc
  have hlt : i < ncolsOf dim.v := by rw [← hlen]; exact hi
  exact cutColumn_size O hlt (by omega) (hcut i hi)

theorem ofVector_shaped {dim_p : Vector idx_type} {v_p : Vector T}
    {names_p : List (Vector ZString)} {allocf : AllocFactory} {a : Array T} {u : Unit}
    (hfew : colsOf dim_p.v < 2 ^ 31) (h : ofVector O dim_p v_p names_p allocf = .ok a u) :
    a.Shaped := by
  obtain ⟨hd, hlen, hrows, hnames, -⟩ := ofVector_eq_ok O h
  rw [ncolsOf_eq (by omega)] at hlen
  exact ⟨by rw [hlen, hd], by rw [hlen]; exact hfew, hrows, by rw [hnames, Vector.size, Vector.size, hd]⟩

/-- An array of one dimension from a vector of as many elements: its column is the vector. -/
theorem ofVector_vector {dim_p : Vector idx_type} {v_p : Vector T}
    {names_p : List (Vector ZString)} {allocf : AllocFactory} {a : Array T} {u : Unit}
    (hdim : dim_p.v = [UInt64.ofNat v_p.size]) (hsize : v_p.size < 2 ^ 64)
    (h : ofVector O dim_p v_p names_p allocf = .ok a u) :
    ∃ c, a.v = [c] ∧ c.v = v_p.v ∧ (c.ordered = true → c.v.IsChain fun x y => O x y = true) := by
  obtain ⟨hd, hlen, -, -, hcut⟩ := ofVector_eq_ok O h
  rw [hdim] at hlen
  obtain ⟨c, hc⟩ := List.length_eq_one_iff.1 (hlen.trans rfl)
  have hnr : a.nrows = v_p.size := by
    rw [nrows, hd, hdim]
    show (UInt64.ofNat v_p.size).toNat = v_p.size
    rw [UInt64.toNat_ofNat', Nat.mod_eq_of_lt hsize]
  have hcol := hcut 0 (by rw [hc]; exact Nat.one_pos)
  simp only [hc, List.getElem_cons_zero, hnr] at hcol
  refine ⟨c, hc, ?_⟩
  rw [cutColumn, Vector.size] at hcol
  split at hcol
  · next hnil =>
      rw [size_ofFill O hcol, hnil]
      exact ⟨rfl, fun _ => List.isChain_nil⟩
  · next x hx =>
      rw [size_ofFill O hcol, hx]
      exact ⟨rfl, fun _ => List.isChain_singleton x⟩
  · obtain ⟨hv, ho⟩ := ofRange_eq_ok O hcol
    rw [Nat.zero_mul, List.drop_zero, List.take_length] at hv ho
    rw [hv, ho]
    exact ⟨rfl, adjacent_iff.1⟩

/-- A copy has the extents, the number of names and the columns of the original. -/
theorem copy_eq_ok {a a' : Array T} {allocf : AllocFactory} {u : Unit}
    (h : a.copy allocf = .ok a' u) :
    a'.dim.v = a.dim.v ∧ a'.names.length = a.names.length ∧ content a'.v = content a.v := by
  rw [copy, Outcome.bind_eq_ok] at h
  obtain ⟨dim, _, hdim, h⟩ := h
  rw [Outcome.bind_eq_ok] at h
  obtain ⟨v, _, hcols, h⟩ := h
  rw [Outcome.bind_eq_ok] at h
  obtain ⟨names, _, hnames, h⟩ := h
  cases h
  have hall := Outcome.collect_eq_ok hcols
  refine ⟨(Vector.copy_eq_ok hdim).1, ?_, ?_⟩
  · rw [← (Outcome.collect_eq_ok hnames).length_eq, List.length_map, List.length_zipIdx]
  · have hlen : v.length = a.v.length := by
      rw [← hall.length_eq, List.length_map, List.length_zipIdx]
    apply List.ext_getElem
    · rw [content, content, List.length_map, List.length_map, hlen]
    · intro i h1 h2
      rw [content, List.length_map] at h1
      have hmk := (List.forall₂_iff_get.1 hall).2 i (by rw [hall.length_eq]; exact h1) h1
      rw [List.get_eq_getElem, List.getElem_map, List.getElem_zipIdx] at hmk
      obtain ⟨hv, ho⟩ := Vector.copy_eq_ok hmk
      simp only [content, List.getElem_map]
      rw [← hv, ← ho]
      rfl

/-- A vector of one row transposed: a matrix of one row and one column. -/
theorem transpose_eq_ok {heap : Allocator} {t t' : Array T} {u : Unit} (hone : t.nrows = 1)
    (h : transpose O heap t = .ok t' u) :
    t'.Shaped ∧ t'.nrows = 1 ∧ t'.dim.v ≠ [] := by
  rw [transpose] at h
  split at h
  · next c cs nm nms n ds hc hnm hn =>
      rw [Outcome.bind_eq_ok] at h
      obtain ⟨dim, _, hdim, h⟩ := h
      rw [Outcome.bind_eq_ok] at h
      obtain ⟨none, _, hnone, h⟩ := h
      rw [Outcome.bind_eq_ok] at h
      obtain ⟨v_p, _, hv, h⟩ := h
      have hdv : dim.v = [1, n] := by
        obtain ⟨b, -, -, heq⟩ := construct_eq_ok hdim
        rw [heq]
      have hn1 : n.toNat = 1 := by rw [← hone, nrows, hn]
      have hcols : colsOf dim.v = 1 := by
        rw [hdv, colsOf, List.map_singleton, List.prod_singleton, hn1]
      obtain ⟨hd, -⟩ := ofVector_eq_ok O h
      refine ⟨ofVector_shaped O (by rw [hcols]; norm_num) h, ?_, ?_⟩
      · rw [nrows, hd, hdv]
        rfl
      · rw [hd, hdv]
        exact List.cons_ne_nil _ _
  · cases h

theorem subsetCols_eq_ok {k frm : Nat} {cs rs rs' : List (Vector T)} {u : Unit}
    (hlen : rs.length = cs.length) (hrs : ∀ r ∈ rs, r.size = 0)
    (h : subsetCols O k frm cs rs = .ok rs' u) :
    rs'.map (·.v) = cs.map fun c => (c.v.drop frm).take k := by
  induction cs generalizing rs rs' with
  | nil =>
      cases h
      rw [List.eq_nil_of_length_eq_zero hlen]
      rfl
  | cons c cs ih =>
      cases rs with
      | nil => cases hlen
      | cons r rs =>
          rw [subsetCols] at h
          split at h
          · next r' hpush =>
              split at h
              · split at h
                · cases h
                · cases h
              · rw [Outcome.bind_eq_ok] at h
                obtain ⟨rs1, _, hrest, h⟩ := h
                cases h
                have hnil : r.v = [] :=
                  List.eq_nil_of_length_eq_zero (hrs r List.mem_cons_self)
                rw [List.map_cons, List.map_cons, (pushAll_eq_ok O hpush).1, hnil,
                  List.nil_append, ih (Nat.succ.inj hlen)
                    (fun x hx => hrs x (List.mem_cons_of_mem r hx)) hrest]
          · cases h
          · cases h

/-- A row subset: `n` rows from `frm` on of every column. -/
theorem subsetRows_eq_ok {heap : Allocator} {n frm : Nat} {a r : Array T} {u : Unit}
    (ha : a.Shaped) (hne : a.dim.v ≠ []) (hsum : frm + n < 2 ^ 64)
    (h : subsetRows O heap n frm a = .ok r u) :
    r.Shaped ∧ r.nrows = n ∧ r.dim.size = a.dim.size ∧
      r.v.map (·.v) = a.v.map fun c => (c.v.drop frm).take n := by
  obtain ⟨d, ds, hd⟩ := List.exists_cons_of_ne_nil hne
  rw [subsetRows, hd] at h
  simp only [wrap_of_lt hsum, Nat.add_sub_cancel_left] at h
  split at h
  · cases h
  next hle =>
  rw [Outcome.bind_eq_ok] at h
  obtain ⟨aDim, _, hdim, h⟩ := h
  have haDim : aDim.v = d :: ds := (Vector.copy_eq_ok hdim).1.trans hd
  rw [setv, if_neg (by rw [Vector.size, haDim, List.length_cons]; omega)] at h
  simp only [haDim, List.set_cons_zero] at h
  rw [Outcome.bind_eq_ok] at h
  obtain ⟨s, _, hs, h⟩ := h
  obtain ⟨hsd, hslen, hsrows, hsnames⟩ := ofRsv_eq_ok hs
  simp only at hsd hslen
  have hacols := ha.cols
  rw [hd] at hacols
  have hsmall : colsOf (UInt64.ofNat n :: ds) < 2 ^ 64 :=
    Nat.lt_trans (lt_of_eq_of_lt hacols.symm ha.few) (by norm_num)
  rw [ncolsOf_eq hsmall] at hslen
  rw [Outcome.bind_eq_ok] at h
  obtain ⟨v, _, hv, h⟩ := h
  have hmap := subsetCols_eq_ok O (by rw [hslen, hacols]; rfl) hsrows hv
  split at h
  · cases h
  · cases h
  next nm nms rnm rnms hnm hrnm =>
  have hr : ∃ rnm' rnms', r = { s with v := v, names := rnm' :: rnms' } ∧
      rnms'.length = nms.length := by
    split at h
    · cases h
    · cases h
    · next rnm' _ =>
        rw [Outcome.bind_eq_ok] at h
        obtain ⟨rnms', _, hrn, h⟩ := h
        cases h
        exact ⟨rnm', rnms', rfl, by rw [← (Outcome.collect_eq_ok hrn).length_eq, List.length_map]⟩
  obtain ⟨rnm', rnms', rfl, hrlen⟩ := hr
  have hnr : ({ s with v := v, names := rnm' :: rnms' } : Array T).nrows = n := by
    rw [nrows]
    simp only [hsd]
    rw [UInt64.toNat_ofNat', Nat.mod_eq_of_lt (by omega)]
  have hvlen : v.length = a.v.length := by
    rw [← List.length_map (f := (·.v)), hmap, List.length_map]
  refine ⟨⟨?_, ?_, ?_, ?_⟩, hnr, ?_, hmap⟩
  · simp only
    rw [hvlen, hacols, hsd]
    rfl
  · simp only
    rw [hvlen]
    exact ha.few
  · rw [hnr]
    have hall : ∀ l ∈ v.map (·.v), l.length = n := by
      rw [hmap, List.forall_mem_map]
      intro c hc
      have hrow : c.v.length = d.toNat := by
        have := ha.rows c hc
        rwa [nrows, hd] at this
      rw [List.length_take, List.length_drop, hrow]
      omega
    rwa [List.forall_mem_map] at hall
  · have han := ha.names
    rw [hnm, Vector.size, hd, List.length_cons, List.length_cons] at han
    simp only [List.length_cons, hrlen, Vector.size, hsd]
    omega
  · simp only [Vector.size, hsd, hd, List.length_cons]

end Array

end Ztsdb.Arr
