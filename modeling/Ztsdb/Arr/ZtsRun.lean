import Mathlib
import Ztsdb.Arr.ZtsLife

/-!
# Every run of safe steps leaves a sound series

One lemma for each command: what it leaves, returned or thrown, keeps the invariant when
the step was safe. An append that is undone puts back the rows; that neither it nor the
rollback touches the number of columns, of dimensions and of names is their frame.
-/

namespace Ztsdb.Arr

open Ztsdb.Lib

namespace Array

open Ztsdb.Arr.Vector

/-! ## What an append and a resize leave alone -/

section Frame

variable {T : Type}

/-- The number of columns, the extents but the first and the number of names are kept. -/
structure Framed (a a' : Array T) : Prop where
  cols : a'.v.length = a.v.length
  dims : a'.dim.v.drop 1 = a.dim.v.drop 1
  ndims : a'.dim.size = a.dim.size
  names : a'.names.length = a.names.length

theorem Framed.refl (a : Array T) : Framed a a := ⟨rfl, rfl, rfl, rfl⟩

theorem Framed.trans {a b c : Array T} (h : Framed a b) (h' : Framed b c) : Framed a c :=
  ⟨h'.cols.trans h.cols, h'.dims.trans h.dims, h'.ndims.trans h.ndims, h'.names.trans h.names⟩

/-- The frame and the lengths of the columns make the shape. -/
theorem Framed.shaped {a a' : Array T} (h : Framed a a') (ha : a.Shaped)
    (hrows : ∀ c ∈ a'.v, c.size = a'.nrows) : a'.Shaped := by
  have hcols : colsOf a'.dim.v = colsOf a.dim.v := by
    have hlen := h.ndims
    have hdrop := h.dims
    rw [Vector.size, Vector.size] at hlen
    cases hd : a.dim.v with
    | nil =>
        rw [hd] at hlen
        rw [List.eq_nil_of_length_eq_zero hlen]
    | cons x xs =>
        rw [hd] at hlen hdrop
        obtain ⟨y, ys, hy⟩ := List.exists_cons_of_length_eq_add_one hlen
        rw [hy] at hdrop ⊢
        rw [colsOf, colsOf]
        exact congrArg _ (congrArg _ hdrop)
  exact ⟨by rw [h.cols, hcols, ha.cols], by rw [h.cols]; exact ha.few, hrows,
    by rw [h.names, h.ndims, ha.names]⟩

theorem setv_keeps {x : idx_type} {dim : Vector idx_type} {i : Nat} :
    (Vector.setv lessIdx i x dim).Keeps fun dim' => dim'.v = dim.v ∨ dim'.v = dim.v.set i x := by
  rw [setv]
  split
  · exact Outcome.keeps_throw (.inl rfl)
  · exact Outcome.keeps_ok (.inr rfl)

/-- The first extent set, in whatever else has become of the array. -/
theorem framed_setv {a b : Array T} {x : idx_type} (h : Framed a b) :
    ((Vector.setv lessIdx 0 x a.dim).mapState fun dim => { b with dim }).Keeps (Framed a) := by
  refine Outcome.Keeps.mapState fun dim hdim => ?_
  rcases setv_keeps dim hdim with hv | hv
  · exact ⟨h.cols, by rw [hv], by rw [Vector.size, Vector.size, hv], h.names⟩
  · refine ⟨h.cols, ?_, by rw [Vector.size, Vector.size, hv, List.length_set], h.names⟩
    simp only [hv]
    rw [List.drop_set]
    rfl

theorem onName_keeps {a : Array T} {nm : Dname} {nms : List Dname}
    {f : Dname → Outcome Exn Dname Unit} (hn : a.names = nm :: nms) :
    ((f nm).mapState fun nm => { a with names := nm :: nms }).Keeps (Framed a) :=
  Outcome.Keeps.mapState fun nm' _ =>
    ⟨rfl, rfl, rfl, by rw [hn, List.length_cons, List.length_cons]⟩

theorem addRows_framed {heap : Allocator} {n : Nat} (a : Array T) :
    (addRows heap n a).Keeps (Framed a) := by
  rw [addRows]
  split
  · exact Outcome.keeps_fault
  · next nm nms hn =>
      refine Outcome.Keeps.bind (onName_keeps hn) fun _ b hb => ?_
      split
      · exact Outcome.keeps_fault
      · exact framed_setv hb

variable [Raw T] (O : T → T → Bool)

theorem appendCols_keeps {mem : List UInt8} {buflen offset : Nat} {cs : List (Vector T)} :
    (appendCols O mem buflen offset cs).Keeps fun cs' => cs'.length = cs.length := by
  induction cs generalizing offset with
  | nil => exact Outcome.keeps_ok rfl
  | cons c cs ih =>
      rw [appendCols]
      split
      · exact Outcome.Keeps.mapState fun s hs => congrArg (· + 1) (ih s hs)
      · exact Outcome.keeps_throw rfl
      · exact Outcome.keeps_fault

theorem resizeCols_keeps {n frm : Nat} {cs : List (Vector T)} :
    (resizeCols n frm cs).Keeps fun cs' => cs'.length = cs.length := by
  induction cs with
  | nil => exact Outcome.keeps_ok rfl
  | cons c cs ih =>
      rw [resizeCols]
      split
      · exact Outcome.Keeps.mapState fun s hs => congrArg (· + 1) (ih s hs)
      · exact Outcome.keeps_throw rfl
      · exact Outcome.keeps_fault

theorem append_framed {heap : Allocator} {mem : List UInt8} {buflen : Nat} (a : Array T) :
    (a.append O heap mem buflen).Keeps (Framed a) := by
  unfold append
  split
  · exact Outcome.keeps_throw (Framed.refl a)
  split
  · exact Outcome.keeps_fault
  split
  · exact Outcome.keeps_fault
  · exact Outcome.keeps_throw (Framed.refl a)
  refine Outcome.Keeps.bind (Outcome.Keeps.mapState ?_) fun offset b hb => ?_
  · refine Outcome.Keeps.tryCatch (P := fun cs => Framed a { a with v := cs })
      (fun cs hcs => ⟨appendCols_keeps O cs hcs, rfl, rfl, rfl⟩) fun e cs hcs => ?_
    refine Outcome.Keeps.bind (fun cs' hcs' => ?_) fun _ cs' hcs' => Outcome.keeps_throw hcs'
    exact ⟨(resizeCols_keeps cs' hcs').trans hcs.cols, rfl, rfl, rfl⟩
  · split
    · exact Outcome.keeps_fault
    refine Outcome.Keeps.bind (fun c hc => ?_) fun _ c hc => Outcome.keeps_ok hc
    exact hb.trans (addRows_framed b c hc)

/-- A resize of an array with a dimension and a column. -/
theorem resize_framed {heap : Allocator} {sz frm : Nat} {a : Array T} (hd : a.dim.size ≠ 0)
    (hv : a.v.length ≠ 0) : (a.resize O heap sz frm).Keeps (Framed a) := by
  obtain ⟨d, ds, hdim⟩ := List.exists_cons_of_ne_nil (List.ne_nil_of_length_pos (Nat.pos_of_ne_zero hd))
  obtain ⟨c, cs, hcols⟩ := List.exists_cons_of_ne_nil (List.ne_nil_of_length_pos (Nat.pos_of_ne_zero hv))
  rw [resize, resizeNull, hdim, Outcome.bind_ok, resizeNoCols, hcols, Outcome.bind_ok]
  refine Outcome.Keeps.bind (P := Framed a) (Outcome.Keeps.mapState fun cs' hcs' => ?_) fun _ b hb => ?_
  · exact ⟨by rw [resizeCols_keeps _ hcs', hcols], rfl, rfl, rfl⟩
  refine Outcome.Keeps.bind (P := Framed a) (fun b' hb' => hb.trans (framed_setv (.refl b) b' hb'))
    fun _ b' hb' => ?_
  split
  · exact Outcome.keeps_fault
  · next hn => exact fun s hs => hb'.trans (onName_keeps hn s hs)

end Frame

/-! ## A resize that returned -/

variable {T : Type} [Raw T] (O : T → T → Bool)

theorem resizeCols_eq_ok {sz frm n : Nat} {cs cs' : List (Vector T)} {u : Unit}
    (hcs : ∀ c ∈ cs, c.size = n) (hn : frm + sz ≤ n) (h : resizeCols sz frm cs = .ok u cs') :
    cs'.map (·.v) = cs.map fun c => (c.v.drop frm).take sz := by
  induction cs generalizing cs' with
  | nil =>
      cases h
      rfl
  | cons c cs ih =>
      rw [resizeCols] at h
      split at h
      · next c' hc' =>
          obtain ⟨r, hr, rfl⟩ := Outcome.mapState_eq_ok.1 h
          rw [List.map_cons, List.map_cons, ih (fun d hd => hcs d (List.mem_cons_of_mem c hd)) hr,
            resize_eq_take (by rw [hcs c List.mem_cons_self]; exact hn) hc']
      · cases h
      · cases h

/-- The refusal of a single column leaves its elements. -/
theorem resizeCols_refused {sz frm : Nat} {c : Vector T} {cs' : List (Vector T)} {e : Exn}
    (h : resizeCols sz frm [c] = .throw e cs') : cs'.map (·.v) = [c.v] := by
  rw [resizeCols] at h
  split at h
  · cases h
  · next hc' =>
      cases h
      rw [Vector.resize] at hc'
      split at hc'
      · cases hc'
        rfl
      · split at hc'
        · split at hc'
          · cases hc'
            rfl
          · simp only at hc'
            split at hc'
            · split at hc'
              · cases hc'
              · cases hc'
            · cases hc'
              rfl
        · cases hc'
  · cases h

theorem resize_cut {heap : Allocator} {sz frm : Nat} {a a' : Array T} {u : Unit} (ha : a.Shaped)
    (hd : a.dim.v ≠ []) (hv : a.v ≠ []) (hn : frm + sz ≤ a.nrows)
    (h : a.resize O heap sz frm = .ok u a') :
    a'.Shaped ∧ a'.nrows = sz ∧ a'.v.map (·.v) = a.v.map fun c => (c.v.drop frm).take sz := by
  have hlt : a.nrows < 2 ^ 64 := by
    rw [nrows_eq_ext hd]
    obtain ⟨d, ds, hdim⟩ := List.exists_cons_of_ne_nil hd
    rw [hdim]
    exact d.toNat_lt
  have hframe : Framed a a' := resize_framed O
    (fun h0 => hd (List.eq_nil_of_length_eq_zero h0))
    (fun h0 => hv (List.eq_nil_of_length_eq_zero h0)) a' (by rw [h]; rfl)
  obtain ⟨d, ds, hdim⟩ := List.exists_cons_of_ne_nil hd
  obtain ⟨c, cs, hcols⟩ := List.exists_cons_of_ne_nil hv
  rw [resize, resizeNull, hdim, Outcome.bind_ok, resizeNoCols, hcols, Outcome.bind_ok,
    Outcome.bind_eq_ok] at h
  obtain ⟨_, b, hb, h⟩ := h
  obtain ⟨v, hv', rfl⟩ := Outcome.mapState_eq_ok.1 hb
  have hmap := resizeCols_eq_ok ha.rows hn hv'
  rw [Outcome.bind_eq_ok] at h
  obtain ⟨_, b', hset, h⟩ := h
  obtain ⟨dim, hdim', rfl⟩ := Outcome.mapState_eq_ok.1 hset
  obtain ⟨dim'', hset', hdv⟩ := setv_head lessIdx (UInt64.ofNat sz) hdim
  simp only at hdim'
  rw [hset'] at hdim'
  cases hdim'
  have ha' : a'.v = v ∧ a'.dim = dim := by
    simp only at h
    split at h
    · cases h
    · obtain ⟨nm, -, rfl⟩ := Outcome.mapState_eq_ok.1 h
      exact ⟨rfl, rfl⟩
  have hnr : a'.nrows = sz := by
    rw [nrows, ha'.2, hdv]
    show (UInt64.ofNat sz).toNat = sz
    rw [UInt64.toNat_ofNat', Nat.mod_eq_of_lt (by omega)]
  refine ⟨hframe.shaped ha ?_, hnr, by rw [ha'.1, hmap]⟩
  have hall : ∀ l ∈ a'.v.map (·.v), l.length = sz := by
    rw [ha'.1, hmap, List.forall_mem_map]
    intro c hc
    have hrow : c.v.length = a.nrows := ha.rows c hc
    rw [List.length_take, List.length_drop, hrow]
    omega
  rw [List.forall_mem_map] at hall
  rw [hnr]
  exact hall

/-- Null data resized is a vector of as many rows. -/
theorem resize_null {heap : Allocator} {sz frm : Nat} {a a' : Array T} {u : Unit} (ha : a.Shaped)
    (hd : a.dim.v = []) (hlt : sz < 2 ^ 64) (h : a.resize O heap sz frm = .ok u a') :
    a'.Shaped ∧ a'.nrows = sz := by
  have hv : a.v = [] := by
    have hcols := ha.cols
    rw [hd] at hcols
    exact List.eq_nil_of_length_eq_zero hcols
  have hn : a.names = [] := by
    have hnames := ha.names
    rw [Vector.size, hd] at hnames
    exact List.eq_nil_of_length_eq_zero hnames
  rw [resize, Outcome.bind_eq_ok] at h
  obtain ⟨_, b, hb, h⟩ := h
  obtain ⟨hbd, hbv, hbn⟩ : b.dim.v = [0] ∧ b.v = [] ∧ ∃ nm, b.names = [nm] := by
    rw [resizeNull, hd] at hb
    simp only at hb
    rw [Outcome.bind_eq_ok] at hb
    obtain ⟨_, b1, hb1, hb⟩ := hb
    obtain ⟨dim, hdim, rfl⟩ := Outcome.mapState_eq_ok.1 hb1
    split at hb
    · next nm _ _ =>
        cases hb
        exact ⟨by rw [(push_back_eq_ok lessIdx hdim).1, hd]; rfl, hv, nm, by rw [hn]; rfl⟩
    · cases hb
    · cases hb
  obtain ⟨nm, hbn⟩ := hbn
  rw [Outcome.bind_eq_ok] at h
  obtain ⟨_, e, he, h⟩ := h
  obtain ⟨c, rfl⟩ : ∃ c, e = { b with v := [c] } := by
    rw [resizeNoCols, hbv] at he
    simp only at he
    split at he
    · next c _ _ =>
        cases he
        exact ⟨c, rfl⟩
    · cases he
    · cases he
  rw [Outcome.bind_eq_ok] at h
  obtain ⟨_, f, hf, h⟩ := h
  obtain ⟨v, hcols, rfl⟩ := Outcome.mapState_eq_ok.1 hf
  obtain ⟨c', rfl, hc'⟩ : ∃ c', v = [c'] ∧ c'.size = sz := by
    rw [resizeCols] at hcols
    split at hcols
    · next c' hc' =>
        cases hcols
        refine ⟨c', rfl, ?_⟩
        rcases resize_eq_ok hc' with ⟨-, rfl, rfl⟩ | ⟨al, -, -, rfl⟩
        · rfl
        · exact length_redim _ _ _
    · cases hcols
    · cases hcols
  obtain ⟨dim'', hset, hdv⟩ := setv_head lessIdx (UInt64.ofNat sz) hbd
  simp only [hset, Outcome.mapState_ok, Outcome.bind_ok, hbn] at h
  obtain ⟨nm', -, rfl⟩ := Outcome.mapState_eq_ok.1 h
  have hnr : (UInt64.ofNat sz).toNat = sz := by
    rw [UInt64.toNat_ofNat', Nat.mod_eq_of_lt hlt]
  refine ⟨⟨?_, ?_, ?_, ?_⟩, ?_⟩
  · simp only [hdv]
    rfl
  · show 1 < 2 ^ 31
    norm_num
  · intro x hx
    rw [List.mem_singleton.1 hx, hc', nrows]
    simp only [hdv, hnr]
  · simp only [Vector.size, hdv]
    rfl
  · rw [nrows]
    simp only [hdv, hnr]

end Array

namespace zts

open Ztsdb.Arr.Vector Ztsdb.Arr.Array

/-! ## The commands -/

theorem Inv.nonempty {z : zts} (h : z.Inv) : z.idx.dim.size ≠ 0 ∧ z.idx.v.length ≠ 0 := by
  obtain ⟨c, hc⟩ := h.column
  rw [h.vector, hc]
  exact ⟨Nat.one_ne_zero, Nat.one_ne_zero⟩

/-- An append frames both arrays, also when the index is put back. -/
theorem append_frames {heap : Allocator} {mem : List UInt8} {z : zts} (hz : z.Inv) :
    (z.append heap mem mem.length).Keeps fun z' => Framed z.idx z'.idx ∧ Framed z.a z'.a := by
  have hback {i : Array dtime} {n : Nat} (hi : Framed z.idx i) :
      (i.resize dtime.less heap n 0).Keeps (Framed z.idx) := fun j hj =>
    hi.trans (resize_framed dtime.less (by rw [hi.ndims]; exact hz.nonempty.1)
      (by rw [hi.cols]; exact hz.nonempty.2) j hj)
  rw [append]
  split
  · exact Outcome.keeps_throw ⟨.refl _, .refl _⟩
  refine Outcome.Keeps.bind (Outcome.Keeps.mapState fun i hi =>
    ⟨append_framed dtime.less z.idx i hi, Framed.refl z.a⟩) fun offset z' hz' => ?_
  split
  · refine Outcome.Keeps.tryCatch (Outcome.Keeps.mapState fun a ha =>
      ⟨hz'.1, hz'.2.trans (append_framed Double.less z'.a a ha)⟩) fun e y hy => ?_
    exact Outcome.Keeps.bind (Outcome.Keeps.mapState fun i hi => ⟨hback hy.1 i hi, hy.2⟩)
      fun _ y' hy' => Outcome.keeps_throw hy'
  · refine Outcome.Keeps.bind (Outcome.Keeps.mapState fun i hi => ?_)
      fun _ y' hy' => Outcome.keeps_throw hy'
    refine Outcome.Keeps.bind (P := fun j => Framed z.idx j ∧ Framed z.a z'.a)
      (fun j hj => ⟨hback hz'.1 j hj, hz'.2⟩) (fun _ j hj => ?_) i hi
    rw [forceOrdered]
    split
    · exact Outcome.keeps_throw hj
    · next c cs hc =>
        exact Outcome.keeps_ok ⟨⟨by rw [← hj.1.cols, hc]; rfl, hj.1.dims, hj.1.ndims, hj.1.names⟩,
          hj.2⟩

/-- Rows kept in their frame keep the invariant. -/
theorem Inv.of_framed {z z' : zts} (hz : z.Inv) (hi : Framed z.idx z'.idx) (ha : Framed z.a z'.a)
    (hirows : ∀ c ∈ z'.idx.v, c.size = z'.idx.nrows) (harows : ∀ c ∈ z'.a.v, c.size = z'.a.nrows)
    (hrows : z.a.dim.v ≠ [] → z'.a.nrows = z'.idx.nrows)
    (hasc : ∀ c ∈ z'.idx.v, c.v.IsChain fun s t => dtime.less s t = true) : z'.Inv := by
  refine ⟨hi.shaped hz.idx hirows, ha.shaped hz.a harows, hi.ndims.trans hz.vector, ?_, hasc⟩
  intro hne
  apply hrows
  intro hnil
  have hlen := ha.ndims
  rw [Vector.size, Vector.size, hnil] at hlen
  exact hne (List.eq_nil_of_length_eq_zero hlen)

/-- The same rows in the same extents. -/
theorem Inv.of_same {z z' : zts} (hz : z.Inv) (hi : Framed z.idx z'.idx) (ha : z'.a = z.a)
    (hd : z'.idx.dim.v = z.idx.dim.v) (hv : z'.idx.v.map (·.v) = z.idx.v.map (·.v)) : z'.Inv := by
  have hn : z'.idx.nrows = z.idx.nrows := by rw [nrows, nrows, hd]
  have hall {P : List dtime → Prop} (h : ∀ c ∈ z.idx.v, P c.v) : ∀ c ∈ z'.idx.v, P c.v := by
    have hmap : ∀ l ∈ z'.idx.v.map (·.v), P l := by
      rw [hv, List.forall_mem_map]
      exact h
    rwa [List.forall_mem_map] at hmap
  refine hz.of_framed hi (by rw [ha]; exact .refl _) ?_ (by rw [ha]; exact hz.a.rows)
    (fun hne => by rw [ha, hn]; exact hz.rows hne) (hall hz.ascending)
  rw [hn]
  exact hall (P := fun l => l.length = z.idx.nrows) hz.idx.rows

theorem Inv.matched {z : zts} (h : z.Inv) (hne : z.a.dim.v ≠ []) : z.Matched :=
  ⟨h.dim, h.column, h.idx.rows, h.a.rows, h.rows hne, h.ascending, h.idx.names, h.a.names⟩

theorem append_inv {heap : Allocator} {mem : List UInt8} {z : zts} (hz : z.Inv)
    (hh : z.Hosted heap) (hmem : mem.length < 2 ^ 62) (hmeets : z.Meets heap mem) :
    (z.append heap mem mem.length).Keeps Inv := by
  by_cases hnull : z.a.dim.v = []
  · rw [append_null hnull]
    exact Outcome.keeps_throw hz
  · have hread := hmeets.resolve_left hnull
    have hholds := (holds_append_iff hnull (hz.matched hnull) hh hmem).2 hread
    have hframes := @append_frames heap mem z hz
    cases hrun : z.append heap mem mem.length with
    | ok k z' =>
        rw [hrun] at hholds hframes
        obtain ⟨hi, ha⟩ := hframes z' rfl
        exact Outcome.keeps_ok (hz.of_framed hi ha hholds.idxRows hholds.aRows
          (fun _ => hholds.rows) hholds.ascending)
    | throw e z' =>
        rw [hrun] at hholds hframes
        obtain ⟨hi, ha⟩ := hframes z' rfl
        have hv := (content_eq_iff.1 hholds.idx).1
        have hav := (content_eq_iff.1 hholds.a).1
        refine Outcome.keeps_throw (hz.of_framed hi ha ?_ ?_ ?_ ?_)
        · rw [nrows, hholds.idxDim]
          have hall : ∀ l ∈ z'.idx.v.map (·.v), l.length = z.idx.nrows := by
            rw [hv, List.forall_mem_map]
            exact hz.idx.rows
          rwa [List.forall_mem_map] at hall
        · rw [nrows, hholds.aDim]
          have hall : ∀ l ∈ z'.a.v.map (·.v), l.length = z.a.nrows := by
            rw [hav, List.forall_mem_map]
            exact hz.a.rows
          rwa [List.forall_mem_map] at hall
        · intro hne
          rw [nrows, nrows, hholds.aDim, hholds.idxDim]
          exact hz.rows hne
        · have hall : ∀ l ∈ z'.idx.v.map (·.v), l.IsChain fun s t => dtime.less s t = true := by
            rw [hv, List.forall_mem_map]
            exact hz.ascending
          rwa [List.forall_mem_map] at hall
    | fault => exact Outcome.keeps_fault

theorem resize_inv {heap : Allocator} {sz frm : Nat} {z : zts} (hz : z.Inv)
    (h : z.CanResize heap sz frm) : (z.resize heap sz frm).Keeps Inv := by
  obtain ⟨hn, hcols, hruns⟩ := h
  obtain ⟨n, hd⟩ := hz.dim
  obtain ⟨c, hc⟩ := hz.column
  have hne : z.idx.dim.v ≠ [] := by rw [hd]; exact List.cons_ne_nil n []
  have hvne : z.idx.v ≠ [] := by rw [hc]; exact List.cons_ne_nil c []
  rcases hruns with ⟨e, cs, hthrow⟩ | ⟨⟨i, hi⟩, a', ha'⟩
  · -- the index is refused before anything changed
    have hrun : z.resize heap sz frm = .throw e { z with idx := { z.idx with v := cs } } := by
      rw [resize, Array.resize, resizeNull, hd, Outcome.bind_ok, resizeNoCols, hc,
        Outcome.bind_ok, hthrow]
      rfl
    have hv : cs.map (·.v) = z.idx.v.map (·.v) := by
      rw [hc] at hthrow
      rw [resizeCols_refused hthrow, hc, List.map_singleton]
    have hlen : cs.length = z.idx.v.length := by
      rw [← List.length_map (f := (·.v)), hv, List.length_map]
    rw [hrun]
    exact Outcome.keeps_throw (hz.of_same ⟨hlen, rfl, rfl, rfl⟩ rfl rfl hv)
  · have hrun : z.resize heap sz frm = .ok () { z with idx := i, a := a' } := by
      rw [resize, hi, Outcome.mapState_ok, Outcome.bind_ok, ha']
      rfl
    rw [hrun]
    obtain ⟨hishape, hinr, hiv⟩ := resize_cut dtime.less hz.idx hne hvne hn hi
    have hframe : Framed z.idx i := resize_framed dtime.less hz.nonempty.1 hz.nonempty.2 i
      (by rw [hi]; rfl)
    have hdata : a'.Shaped ∧ a'.nrows = sz := by
      by_cases hnull : z.a.dim.v = []
      · have hlt : z.idx.nrows < 2 ^ 64 := by
          rw [nrows, hd]
          exact n.toNat_lt
        exact resize_null Double.less hz.a hnull (by omega) ha'
      · obtain ⟨hs, hnr, -⟩ := resize_cut Double.less hz.a hnull (fun hv => hnull (hcols hv))
          (by rw [hz.rows hnull]; exact hn) ha'
        exact ⟨hs, hnr⟩
    refine Outcome.keeps_ok ⟨hishape, hdata.1, hframe.ndims.trans hz.vector,
      fun _ => hdata.2.trans hinr.symm, ?_⟩
    have hall : ∀ l ∈ i.v.map (·.v), l.IsChain fun s t => dtime.less s t = true := by
      rw [hiv, List.forall_mem_map]
      intro d hdm
      exact ((hz.ascending d hdm).drop frm).take sz
    rwa [List.forall_mem_map] at hall

theorem bindColumns_inv {heap : Allocator} {u : Array Double} {d : Nat} {pre : List UInt8} {z : zts}
    (hz : z.Inv) (hd : d ≠ 0) (h : z.CanBindColumns heap u d pre) :
    ((Array.abind Double.less heap u d pre z.a).mapState fun a => { z with a }).Keeps Inv := by
  obtain ⟨hu, hune, hnull, hfew, hrun⟩ := h
  have hrest : Array.abind Double.less heap u d pre z.a =
      abindRest Double.less heap u d pre z.a := by
    rw [Array.abind, if_neg (fun h => hd h.1), if_neg (fun h => hd h.1)]
  rw [hrest] at hrun ⊢
  cases hcheck : checkdims z.a.dim.v u.dim.size (fun j => (u.dim.v[j]?).map UInt64.toNat) d with
  | none =>
      unfold abindRest
      rw [hcheck]
      exact Outcome.keeps_fault
  | some b =>
      cases b with
      | false =>
          unfold abindRest
          rw [hcheck]
          exact Outcome.keeps_throw hz
      | true =>
          obtain ⟨a', ha'⟩ := hrun hcheck
          obtain ⟨hs, hnr, -, hrows⟩ := abindRest_columns Double.less hz.a hu hune
            (Nat.pos_of_ne_zero hd) hfew ha'
          rw [ha']
          refine Outcome.keeps_ok ⟨hz.idx, hs, hz.vector, fun _ => ?_, hz.ascending⟩
          show a'.nrows = z.idx.nrows
          rw [hnr]
          by_cases hnil : z.a.dim.v = []
          · exact hnull hnil
          · rw [← hrows hnil, hz.rows hnil]

/-- The times of `u` behind those of `z`. -/
theorem concat_eq_ok {heap : Allocator} {u z : zts} {i : Array dtime} {w : Unit} (hz : z.Inv)
    (hu : u.Inv) (hsum : z.idx.nrows + u.idx.nrows < 2 ^ 64)
    (h : Array.concat dtime.less heap u.idx [] z.idx = .ok w i) :
    i.Shaped ∧ i.dim.size = 1 ∧ i.nrows = z.idx.nrows + u.idx.nrows ∧
      ∃ c c' e, z.idx.v = [c] ∧ u.idx.v = [c'] ∧ i.v = [e] ∧ e.v = c.v ++ c'.v := by
  obtain ⟨n, hd⟩ := hz.dim
  obtain ⟨c, hc⟩ := hz.column
  obtain ⟨m, hud⟩ := hu.dim
  obtain ⟨c', huc⟩ := hu.column
  have hnames := hu.idx.names
  rw [hu.vector] at hnames
  obtain ⟨nm, hnm⟩ := List.length_eq_one_iff.1 hnames
  rw [Array.concat, if_neg (by rw [hz.vector, hu.vector]; omega), huc, hud, hnm] at h
  simp only at h
  rw [Outcome.bind_eq_ok] at h
  obtain ⟨_, b, hb, h⟩ := h
  rw [pushFirst, hc] at hb
  obtain ⟨e, he, rfl⟩ := Outcome.mapState_eq_ok.1 hb
  split at h
  · cases h
  · cases h
  next newnames _ _ =>
  split at h
  · cases h
  · cases h
  rw [Outcome.bind_eq_ok] at h
  obtain ⟨_, f, hf, h⟩ := h
  obtain ⟨hfd, hfv, hfn⟩ := onName_eq_ok hf
  obtain ⟨x, hx, hid, hiv, hin⟩ := setDim_eq_ok h
  rw [hfd] at hx hid
  simp only [hd, List.getElem?_cons_zero, Option.some.injEq, List.set_cons_zero] at hx hid
  subst hx
  have hev := (pushAll_eq_ok dtime.less he).1
  have hcr := hz.idx.rows c (by rw [hc]; exact List.mem_singleton_self c)
  have hcr' := hu.idx.rows c' (by rw [huc]; exact List.mem_singleton_self c')
  rw [nrows, hd] at hcr hsum
  rw [nrows, hud] at hcr' hsum
  simp only at hcr hcr' hsum
  have hnr : i.nrows = n.toNat + m.toNat := by
    rw [nrows, hid]
    simp only
    rw [UInt64.toNat_add, Nat.mod_eq_of_lt hsum]
  refine ⟨⟨?_, ?_, ?_, ?_⟩, ?_, ?_, c, c', e, hc, huc, hiv.trans hfv, hev⟩
  · rw [hiv, hfv, hid]
    rfl
  · rw [hiv, hfv]
    show 1 < 2 ^ 31
    norm_num
  · rw [hiv, hfv, hnr]
    intro y hy
    rw [List.mem_singleton.1 hy, size_of_pushAll dtime.less he, hcr]
    exact congrArg (n.toNat + ·) hcr'
  · rw [hin, hfn, Vector.size, hid]
    exact hz.idx.names.trans hz.vector
  · rw [Vector.size, hid]
    rfl
  · rw [hnr, nrows, nrows, hd, hud]

theorem bindRows_inv {heap : Allocator} {u : zts} {pre : List UInt8} {z : zts} (hz : z.Inv)
    (hu : u.Inv) (h : CanBindRows heap u pre z) : (zts.abind heap u 0 pre z).Keeps Inv := by
  obtain ⟨hbefore, hsum, hune, hnull, hone, hone', ⟨i, hi⟩, a', ha'⟩ := h
  obtain ⟨hishape, hivec, hinr, c, c', e, hc, hc', he, hev⟩ := concat_eq_ok hz hu hsum hi
  have hrun : zts.abind heap u 0 pre z = .ok () { z with idx := i, a := a' } := by
    rw [abind, if_pos rfl, hi, Outcome.mapState_ok, Outcome.bind_ok, ha']
    rfl
  have hun : u.a.nrows = u.idx.nrows := hu.rows hune
  have hzn : z.a.nrows = z.idx.nrows := by
    by_cases hnil : z.a.dim.v = []
    · rw [hnull hnil, nrows, hnil]
    · exact hz.rows hnil
  have hdata : a'.Shaped ∧ a'.nrows = z.idx.nrows + u.idx.nrows := by
    rw [← hzn, ← hun] at hsum ⊢
    unfold Array.abind at ha'
    split at ha'
    · next hv =>
        split at ha'
        · cases ha'
        · cases ha'
        next t _ ht =>
        obtain ⟨hts, htn, -⟩ := transpose_eq_ok Double.less (hone hv.2) ht
        split at ha'
        · cases ha'
        · cases ha'
        next y _ hy =>
        have huy : y.Shaped ∧ y.nrows = u.a.nrows ∧ y.dim.v ≠ [] := by
          split at hy
          · next hv' =>
              obtain ⟨hys, hyn, hyne⟩ := transpose_eq_ok Double.less (hone' hv') hy
              exact ⟨hys, by rw [hyn, hone' hv'], hyne⟩
          · obtain ⟨hyd, -, -⟩ := Array.copy_eq_ok hy
            exact ⟨shaped_copy hu.a hy, by rw [nrows, nrows, hyd], by rw [hyd]; exact hune⟩
        obtain ⟨hs, hnr, -⟩ := abindRest_rows Double.less hts huy.1 huy.2.2
          (by rw [htn, huy.2.1, ← hone hv.2]; exact hsum) ha'
        exact ⟨hs, by rw [hnr, htn, huy.2.1, hone hv.2]⟩
    · split at ha'
      · next hv =>
          split at ha'
          · cases ha'
          · cases ha'
          next y _ hy =>
          obtain ⟨hys, hyn, hyne⟩ := transpose_eq_ok Double.less (hone' hv.2) hy
          obtain ⟨hs, hnr, -⟩ := abindRest_rows Double.less hz.a hys hyne
            (by rw [hyn, ← hone' hv.2]; exact hsum) ha'
          exact ⟨hs, by rw [hnr, hyn, hone' hv.2]⟩
      · obtain ⟨hs, hnr, -⟩ := abindRest_rows Double.less hz.a hu.a hune hsum ha'
        exact ⟨hs, hnr⟩
  rw [hrun]
  refine Outcome.keeps_ok ⟨hishape, hdata.1, hivec, fun _ => hdata.2.trans hinr.symm, ?_⟩
  intro x hx
  rw [he, List.mem_singleton] at hx
  have hcm : c ∈ z.idx.v := by rw [hc]; exact List.mem_singleton_self c
  have hcm' : c' ∈ u.idx.v := by rw [hc']; exact List.mem_singleton_self c'
  rw [hx, hev, isChain_append_seam]
  exact ⟨hz.ascending c hcm, hu.ascending c' hcm', seam_iff.2 (hbefore c hcm c' hcm')⟩

end zts

end Ztsdb.Arr
