import Mathlib
import Ztsdb.Arr.ZtsRun

/-!
# Vectors of rows, and the runs

`appendVector` pushes the times one by one. After `j` of them the index is as long as its
extent and its names say and the data is as it was, so that a time out of order, or data
that does not fit, finds everything in place for the rows to be taken back.

With it there is a lemma for every command, and the invariant holds over all runs of safe
steps.
-/

namespace Ztsdb.Lib.Flat

variable {T : Type} [Flat T]

/-- One of the values read. -/
theorem getElem?_decode {n j : Nat} (bs : List UInt8) (h : j < n) :
    (decode n bs : List T)[j]? = some (ofBytes (slice (j * width T) (width T) bs)) := by
  induction n generalizing j bs with
  | zero => exact absurd h (Nat.not_lt_zero j)
  | succ n ih =>
      rw [decode]
      cases j with
      | zero => rw [List.getElem?_cons_zero, Nat.zero_mul, slice, List.drop_zero]
      | succ j =>
          rw [List.getElem?_cons_succ, ih _ (by omega), slice, slice, List.drop_drop,
            Nat.succ_mul, Nat.add_comm (width T)]

end Ztsdb.Lib.Flat

namespace Ztsdb.Arr

open Ztsdb.Lib

namespace Vector

variable {T : Type} [Raw T] (O : T → T → Bool)

theorem pushAll_append {xs ys : List T} {s : Vector T} :
    pushAll O (xs ++ ys) s = (pushAll O xs s).bind fun _ s => pushAll O ys s := by
  induction xs generalizing s with
  | nil => rfl
  | cons x xs ih =>
      rw [List.cons_append, pushAll, pushAll]
      cases s.push_back O x with
      | ok u t =>
          rw [Outcome.bind_ok, Outcome.bind_ok]
          exact ih
      | throw e t => rfl
      | fault => rfl

/-- Where all are taken, so is each after those before it. -/
theorem pushAll_take_succ {ts : List T} {j : Nat} {s s' t : Vector T} {x : T}
    (h : pushAll O ts s = .ok () s') (hj : ts[j]? = some x)
    (ht : pushAll O (ts.take j) s = .ok () t) :
    ∃ t', t.push_back O x = .ok () t' ∧ pushAll O (ts.take (j + 1)) s = .ok () t' := by
  have hsplit : ts = ts.take j ++ (x :: ts.drop (j + 1)) := by
    obtain ⟨hlt, rfl⟩ := List.getElem?_eq_some_iff.1 hj
    rw [← List.drop_eq_getElem_cons hlt, List.take_append_drop]
  have hnext : ts.take (j + 1) = ts.take j ++ [x] := by
    rw [List.take_add_one, hj]
    rfl
  rw [hsplit, pushAll_append, ht, Outcome.bind_ok, pushAll, Outcome.bind_eq_ok] at h
  obtain ⟨_, t', ht', -⟩ := h
  refine ⟨t', ht', ?_⟩
  rw [hnext, pushAll_append, ht, Outcome.bind_ok, pushAll, ht', Outcome.bind_ok]
  rfl

end Vector

namespace Array

open Ztsdb.Arr.Vector

variable {T : Type} [Raw T] (O : T → T → Bool)

/-- The columns with their pieces of the data. -/
theorem spread_eq_ok {nrows m : Nat} {data : List T} {cs cs' : List (Vector T)} {u : Unit}
    (hcs : ∀ c ∈ cs, c.size = m) (hdata : data.length = nrows * cs.length)
    (h : spread O nrows data cs = .ok u cs') :
    cs'.length = cs.length ∧ ∀ c ∈ cs', c.size = m + nrows := by
  induction cs generalizing data cs' with
  | nil =>
      cases h
      exact ⟨rfl, nofun⟩
  | cons c cs ih =>
      rw [List.length_cons, Nat.mul_succ] at hdata
      rw [spread] at h
      split at h
      · next c' hc' =>
          obtain ⟨r, hr, rfl⟩ := Outcome.mapState_eq_ok.1 h
          obtain ⟨hlen, hall⟩ := ih (fun d hd => hcs d (List.mem_cons_of_mem c hd))
            (by rw [List.length_drop]; omega) hr
          refine ⟨by rw [List.length_cons, hlen, List.length_cons], ?_⟩
          intro d hd
          rcases List.mem_cons.1 hd with rfl | hd
          · rw [size_of_pushAll O hc', hcs c List.mem_cons_self, List.length_take]
            omega
          · exact hall d hd
      · cases h
      · cases h

/-- The data with `n / ncols` more rows. -/
theorem appendVector_eq_ok {heap : Allocator} {mem : List UInt8} {a a' : Array T} {k : Nat}
    {u : Unit} (ha : a.Shaped) (hd : a.dim.v ≠ [])
    (hk : ∀ n, viewSize mem = some n → n / a.v.length = k) (hlt : a.nrows + k < 2 ^ 64)
    (h : a.appendVector O heap mem = .ok u a') : a'.Shaped ∧ a'.nrows = a.nrows + k := by
  obtain ⟨d, ds, hdim⟩ := List.exists_cons_of_ne_nil hd
  unfold appendVector at h
  split at h
  · cases h
  split at h
  · cases h
  next hv n hn =>
  have hk := hk n hn
  split at h
  · cases h
  next hmod =>
  split at h
  · cases h
  next data hdata =>
  have hlen : data.length = k * a.v.length := by
    unfold viewElts at hdata
    split at hdata
    · cases hdata
      rw [Flat.length_decode, ← hk, Nat.div_mul_cancel (Nat.dvd_of_mod_eq_zero (not_not.1 hmod))]
    · cases hdata
  simp only [hk] at h
  rw [Outcome.bind_eq_ok] at h
  obtain ⟨_, b, hb, h⟩ := h
  obtain ⟨v, hspread, rfl⟩ := Outcome.mapState_eq_ok.1 hb
  obtain ⟨hvl, hrows⟩ := spread_eq_ok O ha.rows hlen hspread
  rw [Outcome.bind_eq_ok] at h
  obtain ⟨_, f, hf, h⟩ := h
  obtain ⟨hfd, hfv, hfn⟩ := onName_eq_ok hf
  obtain ⟨x, hx, had, hav, han⟩ := setDim_eq_ok h
  rw [hfd] at hx had
  simp only [hdim, List.getElem?_cons_zero, Option.some.injEq, List.set_cons_zero] at hx had
  subst hx
  have hnr : a'.nrows = a.nrows + k := by
    have hd0 : a.nrows = d.toNat := by rw [nrows, hdim]
    rw [hd0] at hlt ⊢
    rw [nrows, had]
    simp only
    rw [UInt64.toNat_add, UInt64.toNat_ofNat', Nat.mod_eq_of_lt (show k < 2 ^ 64 by omega),
      Nat.mod_eq_of_lt hlt]
  have hframe : Framed a a' := ⟨by rw [hav, hfv, hvl], by rw [had, hdim]; rfl,
    by rw [Vector.size, Vector.size, had, hdim]; rfl, by rw [han, hfn]⟩
  refine ⟨hframe.shaped ha ?_, hnr⟩
  rw [hav, hfv, hnr]
  exact hrows

end Array

namespace zts

open Ztsdb.Arr.Vector Ztsdb.Arr.Array

/-! ## `appendVector` -/

/-- The series after `j` of the times `ts`. -/
structure Pushed (ts : List dtime) (j : Nat) (z z' : zts) : Prop where
  a : z'.a = z.a
  cols : ∃ c c', z.idx.v = [c] ∧ z'.idx.v = [c'] ∧ c.pushAll dtime.less (ts.take j) = .ok () c'
  dim : ∃ n, z.idx.dim.v = [n] ∧ z'.idx.dim.v = [n + UInt64.ofNat j]
  names : ∃ nm nm', z.idx.names = [nm] ∧ z'.idx.names = [nm'] ∧ addnames j nm = .ok () nm'
  ascending : ∀ c ∈ z'.idx.v, c.v.IsChain fun s t => dtime.less s t = true

section Push

variable {ts : List dtime} {j k : Nat} {z z' : zts} {heap : Allocator} {mem : List UInt8}

theorem Pushed.framed (h : Pushed ts j z z') : Framed z.idx z'.idx := by
  obtain ⟨c, c', hc, hc', -⟩ := h.cols
  obtain ⟨n, hn, hn'⟩ := h.dim
  obtain ⟨nm, nm', hnm, hnm', -⟩ := h.names
  exact ⟨by rw [hc, hc']; rfl, by rw [hn, hn']; rfl, by rw [Vector.size, Vector.size, hn, hn']; rfl,
    by rw [hnm, hnm']; rfl⟩

/-- The rows of an index that is as long as it says. -/
theorem Pushed.size (hz : z.Inv) (h : Pushed ts j z z') (hj : j ≤ ts.length)
    (hlt : z.idx.nrows + ts.length < 2 ^ 64) :
    z'.idx.nrows = z.idx.nrows + j ∧ ∀ c ∈ z'.idx.v, c.size = z.idx.nrows + j := by
  obtain ⟨c, c', hc, hc', hpush⟩ := h.cols
  obtain ⟨n, hn, hn'⟩ := h.dim
  have hrow := hz.idx.rows c (by rw [hc]; exact List.mem_singleton_self c)
  have hn0 : z.idx.nrows = n.toNat := by rw [nrows, hn]
  refine ⟨?_, fun d hd => ?_⟩
  · rw [hn0] at hlt ⊢
    rw [nrows, hn']
    simp only
    rw [UInt64.toNat_add, UInt64.toNat_ofNat', Nat.mod_eq_of_lt (show j < 2 ^ 64 by omega),
      Nat.mod_eq_of_lt (by omega)]
  · rw [hc', List.mem_singleton] at hd
    rw [hd, size_of_pushAll dtime.less hpush, hrow, List.length_take, Nat.min_eq_left hj]

/-- Whatever was pushed is taken back. -/
theorem rollback_inv (hz : z.Inv) (h : Pushed ts j z z') (hne : z.a.dim.v ≠ [])
    (hhost : ∀ c ∈ z.idx.v, c.Hosted)
    (hnames : ∀ nm ∈ z.idx.names, ∃ nm' nm'', addnames j nm = .ok () nm' ∧
      nm'.resize z.idx.nrows 0 = .ok () nm'') (e : Exn) :
    ∃ z'', rollback heap e z' = .throw e z'' ∧ z''.Inv := by
  obtain ⟨c, c', hc, hc', hpush⟩ := h.cols
  obtain ⟨n, hn, hn'⟩ := h.dim
  obtain ⟨nm, nm', hnm, hnm', hadd⟩ := h.names
  obtain ⟨nm₁, nm₂, hadd', hback⟩ := hnames nm (by rw [hnm]; exact List.mem_singleton_self nm)
  rw [hadd] at hadd'
  cases hadd'
  obtain ⟨hv, halloc⟩ := pushAll_eq_ok dtime.less hpush
  have hext : List.Forall₂ Extends z.idx.v z'.idx.v := by
    rw [hc, hc']
    exact .cons ⟨⟨_, hv⟩, halloc⟩ .nil
  obtain ⟨i, hi, hdim, hvs, -⟩ := resize_back dtime.less heap rfl
    (fun d hd => ⟨hhost d hd, hz.idx.rows d hd⟩) (by rw [hc]; exact List.cons_ne_nil c []) hext hn
    ⟨_, hn'⟩ hnm' hback
  have hframe : Framed z.idx i := h.framed.trans (resize_framed dtime.less
    (by rw [h.framed.ndims]; exact hz.nonempty.1) (by rw [h.framed.cols]; exact hz.nonempty.2) i
    (by rw [hi]; rfl))
  refine ⟨_, ?_, @Inv.of_same z { z' with idx := i } hz hframe h.a hdim hvs⟩
  rw [rollback, h.a, hz.rows hne, hi, Outcome.mapState_ok, Outcome.bind_ok]

/-- The time at place `j` of the buffer. -/
theorem viewElt_of_viewElts (hts : viewElts dtime mem k = some ts) (hj : j < k) :
    ∃ w, viewElt mem j = some w ∧ ts[j]? = some ⟨(UInt64.ofNat w).toInt64⟩ := by
  unfold viewElts at hts
  split at hts
  · next hfit =>
      have hw : Flat.width dtime = 8 := rfl
      have h24 : sizeofRawVector = 24 := rfl
      rw [hw] at hfit
      cases hts
      have hin : sizeofRawVector + 8 * j + 8 ≤ mem.length := by omega
      refine ⟨_, if_pos hin, ?_⟩
      rw [Flat.getElem?_decode _ hj]
      have hslice : slice (j * 8) 8 (slice sizeofRawVector (k * 8) mem) =
          slice (sizeofRawVector + 8 * j) 8 mem := by
        rw [slice, slice, slice, List.drop_take, List.take_take, List.drop_drop,
          Nat.min_eq_left (by omega), Nat.mul_comm j 8]
      exact congrArg (fun bs => some (⟨⟨UInt64.ofNat (leNat bs)⟩⟩ : dtime)) hslice
  · cases hts

/-- The last time of the index. -/
theorem elem_last {i : Array dtime} {c : Vector dtime} {n : Nat} (hc : i.v = [c])
    (hcs : c.size = n) (hn : i.nrows = n) (hpos : n ≠ 0) (hlt : n < 2 ^ 64) :
    ∃ t, c.v.getLast? = some t ∧ i.size = n ∧ i.elem (i.size - 1) = .ok t () := by
  have hsize : i.size = n := by rw [Array.size, hc, List.length_singleton, Nat.one_mul, hn, wrap_of_lt hlt]
  have hd : ∃ d ds, i.dim.v = d :: ds ∧ d.toNat = n := by
    rw [nrows] at hn
    split at hn
    · exact absurd hn.symm hpos
    · next d ds hd => exact ⟨d, ds, hd, hn⟩
  obtain ⟨d, ds, hd, hdn⟩ := hd
  have hdne : d ≠ 0 := by
    intro h0
    rw [h0] at hdn
    exact hpos hdn.symm
  have hlast : n - 1 < c.v.length := by
    rw [Vector.size] at hcs
    omega
  refine ⟨c.v[n - 1], ?_, hsize, ?_⟩
  · rw [List.getLast?_eq_getElem?, ← List.getElem?_eq_getElem hlast]
    rw [Vector.size] at hcs
    rw [hcs]
  · rw [hsize, elem, hd]
    simp only
    rw [if_neg hdne, hdn, Nat.div_eq_of_lt (by omega), hc, Nat.mod_eq_of_lt (by omega)]
    simp only [List.getElem?_cons_zero, List.getElem?_eq_getElem hlast]

/-- One more time behind the index. -/
theorem concatOne_eq {i : Array dtime} {c c' : Vector dtime} {n : idx_type} {nm nm' : Dname}
    {x : dtime} (hc : i.v = [c]) (hd : i.dim.v = [n]) (hn : i.names = [nm])
    (hpush : c.push_back dtime.less x = .ok () c') (hadd : nm.addname ZString.empty = .ok () nm') :
    ∃ i', i.concatOne dtime.less heap x ZString.empty = .ok () i' ∧ i'.v = [c'] ∧
      i'.dim.v = [n + 1] ∧ i'.names = [nm'] := by
  have hall : c.pushAll dtime.less [x] = .ok () c' := by
    rw [pushAll, hpush, Outcome.bind_ok]
    rfl
  obtain ⟨dim', hset, hdv⟩ := setv_head lessIdx (n + 1) hd
  refine ⟨{ i with v := [c'], names := [nm'], dim := dim' }, ?_, rfl, hdv, rfl⟩
  have hone : ¬1 < i.dim.size := by
    rw [Vector.size, hd]
    exact Nat.lt_irrefl 1
  rw [concatOne, if_neg hone, resizeNull, hd, Outcome.bind_ok, resizeNoCols, hc, Outcome.bind_ok,
    pushFirst, hc]
  simp only
  rw [hall, Outcome.mapState_ok, Outcome.bind_ok, onName]
  simp only [hn, List.getElem?_cons_zero, hadd, Outcome.mapState_ok, Outcome.bind_ok]
  rw [setDim]
  simp only [hd, List.getElem?_cons_zero, hset, Outcome.mapState_ok, List.set_cons_zero]

/-- The loop ends with all times pushed, or with those pushed taken back. -/
theorem pushTimes_holds (hz : z.Inv) (hne : z.a.dim.v ≠ [])
    (hts : viewElts dtime mem k = some ts) (hlt : z.idx.nrows + k < 2 ^ 64)
    (hcols : ∀ c ∈ z.idx.v, c.Hosted ∧ ∃ c', c.pushAll dtime.less ts = .ok () c')
    (hnames : ∀ nm ∈ z.idx.names, ∀ j ≤ k, ∃ nm' nm'', addnames j nm = .ok () nm' ∧
      nm'.resize z.idx.nrows 0 = .ok () nm'') {m : Nat} (hm : j + m = k)
    (h : Pushed ts j z z') :
    (pushTimes heap mem j m z').Holds (fun _ z' => Pushed ts k z z') fun _ z' => z'.Inv := by
  have hlen : ts.length = k := by
    unfold viewElts at hts
    split at hts
    · cases hts
      exact Flat.length_decode _ _
    · cases hts
  induction m generalizing j z' with
  | zero =>
      rw [Nat.add_zero] at hm
      subst hm
      exact h
  | succ m ih =>
      have hj : j < k := by omega
      obtain ⟨w, hw, hx⟩ := viewElt_of_viewElts hts hj
      obtain ⟨hnr, hsizes⟩ := h.size hz (by omega) (by rw [hlen]; exact hlt)
      obtain ⟨c, c', hc, hc', hpush⟩ := h.cols
      obtain ⟨n, hn, hn'⟩ := h.dim
      obtain ⟨nm, nm', hnm, hnm', hadd⟩ := h.names
      have hcm : c ∈ z.idx.v := by rw [hc]; exact List.mem_singleton_self c
      have hcm' : c' ∈ z'.idx.v := by rw [hc']; exact List.mem_singleton_self c'
      obtain ⟨t, ht⟩ := (hcols c hcm).2
      obtain ⟨c'', hback, hpush'⟩ := pushAll_take_succ dtime.less ht hx hpush
      obtain ⟨nm'', -, hadd', -⟩ := hnames nm (by rw [hnm]; exact List.mem_singleton_self nm)
        (j + 1) hj
      rw [addnames, hadd, Outcome.bind_ok] at hadd'
      have hcv := (push_back_eq_ok dtime.less hback).1
      -- the time is late, or the index takes it
      have hlate : (rollback heap (.outOfRange "append index not ascending") z').Holds
          (fun _ z' => Pushed ts k z z') fun _ z' => z'.Inv := by
        obtain ⟨z'', hroll, hinv⟩ := rollback_inv hz h hne (fun d hd => (hcols d hd).1)
          (fun nm hnm => hnames nm hnm j hj.le) (.outOfRange "append index not ascending")
        rw [hroll]
        exact hinv
      have htakes (hasc : c''.v.IsChain fun s t => dtime.less s t = true) :
          (((z'.idx.concatOne dtime.less heap ⟨(UInt64.ofNat w).toInt64⟩ ZString.empty).mapState
            fun idx => { z' with idx }).bind fun _ z => pushTimes heap mem (j + 1) m z).Holds
            (fun _ z' => Pushed ts k z z') fun _ z' => z'.Inv := by
        obtain ⟨i', hi', hiv, hid, hin⟩ := @concatOne_eq heap _ _ _ _ _ _ _ hc' hn' hnm' hback
          hadd'
        rw [hi', Outcome.mapState_ok, Outcome.bind_ok]
        refine ih (by omega) ⟨h.a, ⟨c, c'', hc, hiv, hpush'⟩, ⟨n, hn, ?_⟩,
          ⟨nm, nm'', hnm, hin, ?_⟩, ?_⟩
        · rw [hid, add_assoc, UInt64.ofNat_add]
          rfl
        · rw [addnames, hadd, Outcome.bind_ok, hadd']
        · intro d hd
          rw [hiv, List.mem_singleton] at hd
          rw [hd]
          exact hasc
      have hnil : z'.idx.nrows = 0 → c'.v = [] := fun h0 => by
        have hs := hsizes c' hcm'
        rw [← hnr, h0] at hs
        exact List.eq_nil_of_length_eq_zero hs
      rw [pushTimes, hw]
      simp only
      by_cases h0 : z'.idx.nrows = 0
      · have hsize : z'.idx.size = 0 := by rw [Array.size, h0, Nat.mul_zero]; rfl
        rw [if_pos hsize]
        refine htakes ?_
        rw [hcv, hnil h0]
        exact List.isChain_singleton _
      · obtain ⟨t, hlast, hsize, helem⟩ := elem_last hc' (hsizes c' hcm') hnr
          (by rw [← hnr]; exact h0) (by omega)
        rw [if_neg (by rw [hsize, ← hnr]; exact h0), helem, Outcome.bind_ok]
        cases hless : dtime.less t ⟨(UInt64.ofNat w).toInt64⟩ with
        | false => exact hlate
        | true =>
            refine htakes ?_
            rw [hcv, isChain_append_seam]
            refine ⟨h.ascending c' hcm', List.isChain_singleton _, seam_iff.2 ?_⟩
            intro a ha b hbm
            rw [hlast] at ha
            cases ha
            cases hbm
            exact hless

theorem appendVector_inv (hz : z.Inv) (h : z.CanAppendVector heap mem) :
    (z.appendVector heap mem).Keeps Inv := by
  rw [appendVector]
  split
  · exact Outcome.keeps_throw hz
  next hdim =>
  have hne : z.a.dim.v ≠ [] := fun hnil => hdim (by rw [Vector.size, hnil]; rfl)
  split
  · exact Outcome.keeps_fault
  next k hk =>
  split
  · exact Outcome.keeps_throw hz
  next hk0 =>
  obtain ⟨ts, hts, hlt, hcols, hnames, hdata⟩ := h k hk hk0 hne
  have hstart : Pushed ts 0 z z := by
    obtain ⟨c, hc⟩ := hz.column
    obtain ⟨n, hn⟩ := hz.dim
    have hnl := hz.idx.names
    rw [hz.vector] at hnl
    obtain ⟨nm, hnm⟩ := List.length_eq_one_iff.1 hnl
    exact ⟨rfl, ⟨c, c, hc, hc, rfl⟩, ⟨n, hn, hn.trans (congrArg (fun d => [d]) (add_zero n).symm)⟩,
      ⟨nm, nm, hnm, hnm, rfl⟩, hz.ascending⟩
  have hholds := @pushTimes_holds ts 0 k z z heap mem hz hne hts hlt hcols hnames k
    (Nat.zero_add k) hstart
  cases hpush : pushTimes heap mem 0 k z with
  | fault => exact Outcome.keeps_fault
  | throw e z' =>
      rw [hpush] at hholds
      exact Outcome.keeps_throw hholds
  | ok u z' =>
      rw [hpush] at hholds
      have hp : Pushed ts k z z' := hholds
      have hback := @rollback_inv ts k z z' heap hz hp hne (fun d hd => (hcols d hd).1)
        fun nm hnm => hnames nm hnm k le_rfl
      have hroll : ∀ e, (rollback heap e z').Keeps Inv := by
        intro e
        obtain ⟨z'', hz'', hinv⟩ := hback e
        rw [hz'']
        exact Outcome.keeps_throw hinv
      rw [Outcome.bind_ok]
      simp only
      split
      · exact Outcome.keeps_fault
      next n hn =>
      split
      · exact hroll _
      next hmod =>
      split
      · exact Outcome.keeps_fault
      split
      · exact hroll _
      next hv hdiv =>
      by_cases hmod' : z'.a.v.length ∣ n
      case neg =>
        -- refused by the data, which is still as it was
        have hthrow : z'.a.appendVector Double.less heap
            (mem.drop (wrap (sizeofRawVector + wrap (k * Flat.width dtime)))) =
              .throw (.outOfRange "appendVector: incorrect vector size") z'.a := by
          unfold Array.appendVector
          rw [if_neg hv, hn]
          simp only
          rw [if_pos fun h0 => hmod' (Nat.dvd_of_mod_eq_zero h0)]
        rw [hthrow]
        exact hroll _
      have hmod' := Nat.mod_eq_zero_of_dvd hmod'
      rw [hp.a] at hdiv hmod' ⊢
      rw [not_not] at hdiv
      obtain ⟨a', ha'⟩ := hdata n hn hmod' hdiv
      rw [ha', Outcome.mapState_ok, Outcome.tryCatch_ok]
      have hlen : ts.length = k := by
        unfold viewElts at hts
        split at hts
        · cases hts
          exact Flat.length_decode _ _
        · cases hts
      obtain ⟨hnr, hsizes⟩ := hp.size hz hlen.ge (by rw [hlen]; exact hlt)
      obtain ⟨hs, han⟩ := appendVector_eq_ok Double.less hz.a hne
        (fun m hm => by rw [hn] at hm; cases hm; exact hdiv) (by rw [hz.rows hne]; exact hlt) ha'
      refine Outcome.keeps_ok ⟨hp.framed.shaped hz.idx (fun c hc => ?_), hs,
        hp.framed.ndims.trans hz.vector, fun _ => ?_, hp.ascending⟩
      · rw [hnr]
        exact hsizes c hc
      · show a'.nrows = z'.idx.nrows
        rw [han, hnr, hz.rows hne]

end Push

/-! ## Every command -/

theorem abindSelf_inv {heap : Allocator} {d : Nat} {z : zts} (hz : z.Inv)
    (h : d = 0 → z.idx.nrows = 0 ∧
      ∃ i, Array.concat dtime.less heap z.idx [] z.idx = .ok () i) :
    (z.abindSelf heap d).Keeps Inv := by
  rw [abindSelf]
  split
  · next hd =>
      obtain ⟨hzero, i, hi⟩ := h hd
      obtain ⟨hs, hvec, hnr, c, c', e, hc, hc', he, hev⟩ :=
        concat_eq_ok hz hz (by rw [hzero]; norm_num) hi
      rw [hi, Outcome.mapState_ok, Outcome.bind_ok]
      have hnil : ∀ x ∈ z.idx.v, x.v = [] := fun x hx =>
        List.eq_nil_of_length_eq_zero ((hz.idx.rows x hx).trans hzero)
      refine Outcome.keeps_throw ⟨hs, hz.a, hvec, fun hne => ?_, fun x hx => ?_⟩
      · show z.a.nrows = i.nrows
        rw [hnr, hz.rows hne, hzero]
      · rw [he, List.mem_singleton] at hx
        rw [hx, hev, hnil c (by rw [hc]; exact List.mem_singleton_self c),
          hnil c' (by rw [hc']; exact List.mem_singleton_self c')]
        exact List.isChain_nil
  · exact Outcome.keeps_throw hz

/-- What a safe step leaves, returned or thrown. -/
theorem step_inv {op : Op} {z : zts} (hz : z.Inv) (hu : ∀ u ∈ op.operands, u.Inv)
    (h : op.Safe z) : (op.run z).Keeps Inv := by
  obtain ⟨-, h⟩ := h
  cases op with
  | append heap mem =>
      exact Outcome.Keeps.bind (append_inv hz h.1 h.2.1 h.2.2) fun _ s hs => Outcome.keeps_ok hs
  | appendVector heap mem => exact appendVector_inv hz h
  | resize heap sz frm => exact resize_inv hz h
  | abind heap u d pre =>
      have hui := hu u (List.mem_singleton_self u)
      simp only at h
      split at h
      · next hd =>
          subst hd
          exact bindRows_inv hz hui h
      · next hd =>
          rw [Op.run, zts.abind, if_neg hd, Outcome.bind_ok]
          exact bindColumns_inv hz hd h
  | abindSelf heap d => exact abindSelf_inv hz h
  | abindArray heap u d pre =>
      rw [Op.run, abindArray]
      split
      · exact Outcome.keeps_throw hz
      · next hd => exact bindColumns_inv hz hd (h hd)

/-- The invariant holds over all runs of safe steps. -/
theorem reach_inv {z : zts} (h : Reach Make.Safe Derive.Safe Op.Safe z) : z.Inv := by
  induction h with
  | make hm hrun => exact make_inv hm hrun
  | derive _ hd hrun hz => exact derive_inv hz hd hrun
  | step _ _ hc hrun hz hu => exact step_inv hz hu hc _ hrun
  | wild _ _ hc hrun _ _ => exact absurd hrun hc.1

/-- A vector granted out of a megabyte. -/
def granted {T : Type} [Raw T] (v : List T) : Vector T where
  v
  ordered := true
  capacity := 1024
  block := getTotalSize (Flat.width T) 1024
  alloc := some (memallocator 1000000)

/-- One column of values `vals` at the times `idx`. -/
def column (idx : List dtime) (vals : List Double) : Make :=
  .parts (memallocator 1000000) (granted [UInt64.ofNat vals.length, 1]) (granted idx)
    (granted vals) [granted [], granted []] (memFactory (memallocator 1000000))
    (memFactory (memallocator 1000000))

end zts

end Ztsdb.Arr
