import Mathlib
import Ztsdb.Arr.ZtsReach

/-!
# When `zts::appendVector` takes all or nothing

`appendVector` looks at each time only when those before it are in the index, and at the
doubles only when all of them are. The tests on the counts, a remainder, a quotient cut
down and the remainder that the data takes itself, come to a product: the number of the
doubles is that of the times for each column.

Where a test fails the index goes back to the rows of the data. That puts the times back,
and the names where they do not end up all empty. It is not done where a request for
memory is refused: `concat` is called outside of any `try`, and the columns that have
their doubles keep them. The condition says of the requests and of the names, before the
call, that none of this comes about.
-/

namespace Ztsdb.Arr

open Ztsdb.Lib

namespace Vector

variable {T : Type} [Raw T] (O : T → T → Bool)

/-- A refused element leaves those that are there. -/
theorem push_back_eq_throw {x : T} {s s' : Vector T} {e : Exn}
    (h : s.push_back O x = .throw e s') : s'.v = s.v := by
  have hplace : ∀ t : Vector T, place O x t ≠ .throw e s' := by
    intro t ht
    rw [place] at ht
    split at ht <;> cases ht
  rw [push_back] at h
  split at h
  · split at h
    · cases h
      rfl
    · simp only at h
      split at h
      · exact absurd h (hplace _)
      · cases h
        rfl
  · exact absurd h (hplace _)

end Vector

/-- The names that come behind one name come behind all. -/
theorem zts.addnames_succ (j : Nat) (nm : Dname) :
    addnames (j + 1) nm = (nm.addname ZString.empty).bind fun _ nm => addnames j nm := by
  induction j with
  | zero =>
      rw [addnames, addnames, Outcome.bind_ok]
      cases nm.addname ZString.empty <;> rfl
  | succ j ih =>
      rw [addnames, ih, Outcome.bind_assoc]
      rfl

namespace Array

open Ztsdb.Arr.Vector Ztsdb.Arr.zts

variable {T : Type} [Raw T] (O : T → T → Bool)

/-! ## Elements behind a vector -/

/-- `concat` of each of `xs`, none with a name. -/
def concatAll (heap : Allocator) : List T → Array T → Outcome Exn (Array T) Unit
  | [], a => .ok () a
  | x :: xs, a => (a.concatOne O heap x ZString.empty).bind fun _ a => concatAll heap xs a

variable {heap : Allocator} {a : Array T} {c : Vector T} {n : idx_type} {nm : Dname}

/-- One more element: the column first, then the names, then the extent. -/
theorem concatOne_of_vector (x : T) (name : ZString) (hc : a.v = [c]) (hd : a.dim.v = [n])
    (hn : a.names = [nm]) : ∃ dim : Vector idx_type, dim.v = [n + 1] ∧
      a.concatOne O heap x name = ((c.push_back O x).mapState fun c => { a with v := [c] }).bind
        fun _ b => ((nm.addname name).mapState fun nm => { b with names := [nm] }).bind
          fun _ b => .ok () { b with dim } := by
  obtain ⟨dim, hset, hdv⟩ := setv_head lessIdx (n + 1) hd
  refine ⟨dim, hdv, ?_⟩
  have hone : ¬1 < a.dim.size := by
    rw [Vector.size, hd]
    exact Nat.lt_irrefl 1
  rw [concatOne, if_neg hone, resizeNull, hd, Outcome.bind_ok, resizeNoCols, hc, Outcome.bind_ok,
    pushFirst, hc]
  simp only [pushAll]
  cases c.push_back O x with
  | fault => rfl
  | throw e c' => rfl
  | ok u c' =>
      simp only [Outcome.bind_ok, Outcome.mapState_ok, onName, hn, List.getElem?_cons_zero,
        List.set_cons_zero]
      cases nm.addname name with
      | fault => rfl
      | throw e nm' => rfl
      | ok u nm' =>
          simp only [Outcome.mapState_ok, Outcome.bind_ok, setDim, hd, List.getElem?_cons_zero,
            hset]

/-- Where the column and the names take them all, so does the vector. -/
theorem concatAll_granted {xs : List T} {c' : Vector T} {nm' : Dname} (hc : a.v = [c])
    (hd : a.dim.v = [n]) (hn : a.names = [nm]) (hpush : c.pushAll O xs = .ok () c')
    (hadd : addnames xs.length nm = .ok () nm') :
    ∃ b, a.concatAll O heap xs = .ok () b ∧ b.v = [c'] ∧
      b.dim.v = [n + UInt64.ofNat xs.length] ∧ b.names = [nm'] := by
  induction xs generalizing a c n nm with
  | nil =>
      cases hpush
      cases hadd
      exact ⟨a, rfl, hc, by rw [hd]; exact congrArg (fun d => [d]) (add_zero n).symm, hn⟩
  | cons x xs ih =>
      rw [pushAll, Outcome.bind_eq_ok] at hpush
      obtain ⟨_, c₁, hc₁, hpush⟩ := hpush
      rw [List.length_cons, addnames_succ, Outcome.bind_eq_ok] at hadd
      obtain ⟨_, nm₁, hnm₁, hadd⟩ := hadd
      obtain ⟨dim, hdim, hone⟩ := @concatOne_of_vector T _ O heap a c n nm x ZString.empty hc hd hn
      rw [hc₁, Outcome.mapState_ok, Outcome.bind_ok, hnm₁, Outcome.mapState_ok,
        Outcome.bind_ok] at hone
      obtain ⟨b, hb, hbv, hbd, hbn⟩ := @ih { a with v := [c₁], names := [nm₁], dim } c₁ _ nm₁ rfl
        hdim rfl hpush hadd
      refine ⟨b, ?_, hbv, ?_, hbn⟩
      · rw [concatAll, hone, Outcome.bind_ok]
        exact hb
      · rw [hbd, List.length_cons, Nat.add_comm, UInt64.ofNat_add, add_assoc]
        rfl

/-- Elsewhere it never returns, and leaves a longer column unless the first element was
refused. -/
theorem concatAll_refused {xs : List T} (hc : a.v = [c]) (hd : a.dim.v = [n])
    (hn : a.names = [nm])
    (h : ¬((∃ c', c.pushAll O xs = .ok () c') ∧ ∃ nm', addnames xs.length nm = .ok () nm')) :
    (∃ x e c', xs.head? = some x ∧ c.push_back O x = .throw e c' ∧
        a.concatAll O heap xs = .throw e { a with v := [c'] }) ∨
      a.concatAll O heap xs = .fault ∨
      ∃ e b c', a.concatAll O heap xs = .throw e b ∧ b.v = [c'] ∧ c.size < c'.size := by
  induction xs generalizing a c n nm with
  | nil => exact absurd ⟨⟨c, rfl⟩, nm, rfl⟩ h
  | cons x xs ih =>
      obtain ⟨dim, hdim, hone⟩ := @concatOne_of_vector T _ O heap a c n nm x ZString.empty hc hd hn
      rw [concatAll, hone]
      rw [pushAll, List.length_cons, addnames_succ] at h
      cases hpush : c.push_back O x with
      | fault => exact .inr (.inl rfl)
      | throw e c' => exact .inl ⟨x, e, c', rfl, hpush, rfl⟩
      | ok u c₁ =>
          have hsize : c₁.size = c.size + 1 := by
            rw [Vector.size, (push_back_eq_ok O hpush).1, List.length_append, Vector.size,
              List.length_singleton]
          simp only [Outcome.mapState_ok, Outcome.bind_ok]
          cases hadd : nm.addname ZString.empty with
          | fault => exact .inr (.inl rfl)
          | throw e nm' =>
              exact .inr (.inr ⟨e, _, c₁, rfl, rfl, by omega⟩)
          | ok u nm₁ =>
              rw [hpush, Outcome.bind_ok, hadd, Outcome.bind_ok] at h
              simp only [Outcome.mapState_ok, Outcome.bind_ok]
              rcases @ih { a with v := [c₁], names := [nm₁], dim } c₁ _ nm₁ rfl hdim rfl h with
                ⟨y, e, c', -, hy, hb⟩ | hb | ⟨e, b, c', hb, hbv, hlt⟩
              · refine .inr (.inr ⟨e, _, c', hb, rfl, ?_⟩)
                have hlen : c'.size = c₁.size := congrArg List.length (push_back_eq_throw O hy)
                omega
              · exact .inr (.inl hb)
              · exact .inr (.inr ⟨e, b, c', hb, hbv, by omega⟩)

/-! ## The way back -/

/-- The columns and the extent always go back; how the names end is how the call ends. -/
theorem resize_back_names (heap : Allocator) {a' : Array T} {d : idx_type}
    {ds : List idx_type} {nms : List Dname} (hw : Flat.width T = 8)
    (hcs : ∀ c ∈ a.v, c.Hosted ∧ c.size = a.nrows) (hv : a.v ≠ [])
    (hext : List.Forall₂ Extends a.v a'.v) (hd : a.dim.v = d :: ds)
    (hd' : ∃ e, a'.dim.v = e :: ds) (hn : a'.names = nm :: nms) :
    ∃ (v : List (Vector T)) (dim : Vector idx_type),
      v.map (·.v) = a.v.map (·.v) ∧ dim.v = a.dim.v ∧
      a'.resize O heap a.nrows 0 =
        (nm.resize a.nrows 0).mapState fun nm => { a' with v, dim, names := nm :: nms } := by
  obtain ⟨e, he⟩ := hd'
  obtain ⟨cs'', hcs'', hvs, -⟩ := resizeCols_back hw hcs hext
  obtain ⟨c', cs', hv'⟩ : ∃ c' cs', a'.v = c' :: cs' := by
    apply List.exists_cons_of_ne_nil
    intro hnil
    rw [hnil] at hext
    exact hv (List.forall₂_nil_right_iff.1 hext)
  obtain ⟨dim'', hset, hdim⟩ := setv_head lessIdx (UInt64.ofNat a.nrows) he
  refine ⟨cs'', dim'', hvs, ?_, ?_⟩
  · rw [hdim, hd, nrows, hd, UInt64.ofNat_toNat]
  · rw [resize, resizeNull, he, Outcome.bind_ok, resizeNoCols, hv', Outcome.bind_ok, hcs'',
      Outcome.mapState_ok, Outcome.bind_ok]
    simp only
    rw [hset, Outcome.mapState_ok, Outcome.bind_ok]
    simp only [hn]

/-! ## The data -/

/-- Column `j` gets the `j`-th of the pieces. -/
theorem spread_pieces {k : Nat} {data : List T} {cs cs' : List (Vector T)}
    (h : spread O k data cs = .ok () cs') :
    cs'.map (·.v) = cs.zipIdx.map fun p => p.1.v ++ (data.drop (p.2 * k)).take k := by
  induction cs generalizing data cs' with
  | nil =>
      cases h
      rfl
  | cons c cs ih =>
      rw [spread] at h
      split at h
      · next c' hc' =>
          obtain ⟨r, hr, rfl⟩ := Outcome.mapState_eq_ok.1 h
          rw [List.map_cons, ih hr, (pushAll_eq_ok O hc').1, List.zipIdx_cons, List.map_cons,
            Nat.zero_mul, List.drop_zero, List.zipIdx_succ, List.map_map]
          refine congrArg _ (List.map_congr_left fun p _ => ?_)
          show p.1.v ++ _ = p.1.v ++ _
          rw [List.drop_drop, Nat.succ_mul, Nat.add_comm]
      · cases h
      · cases h

/-- Where the counts fit, `appendVector` spreads the elements. -/
theorem appendVector_eq_spread {mem : List UInt8} {data : List T} {k : Nat} (hv : a.v ≠ [])
    (hsize : viewSize mem = some data.length) (hdata : viewElts T mem data.length = some data)
    (hk : data.length = k * a.v.length) : a.appendVector O heap mem =
      ((spread O k data a.v).mapState fun v => { a with v }).bind fun _ a =>
        (a.onName 0 (Dname.addrows heap k)).bind fun _ a => a.setDim 0 (· + UInt64.ofNat k) := by
  have hdiv : data.length / a.v.length = k := by
    rw [hk, Nat.mul_div_cancel _ (List.length_pos_iff.2 hv)]
  unfold appendVector
  rw [if_neg hv, hsize]
  simp only
  rw [if_neg (by rw [not_not, hk]; exact Nat.mul_mod_left _ _), hdata]
  simp only [hdiv]

/-- The data takes the elements where the columns and the names of the rows do. -/
theorem appendVector_granted_iff {mem : List UInt8} {data : List T} {k : Nat} {d : idx_type}
    {ds : List idx_type} {nms : List Dname} (hv : a.v ≠ []) (hd : a.dim.v = d :: ds)
    (hn : a.names = nm :: nms) (hsize : viewSize mem = some data.length)
    (hdata : viewElts T mem data.length = some data) (hk : data.length = k * a.v.length) :
    (∃ a', a.appendVector O heap mem = .ok () a') ↔
      (∃ cs, spread O k data a.v = .ok () cs) ∧ ∃ nm', nm.addrows heap k = .ok () nm' := by
  rw [appendVector_eq_spread O hv hsize hdata hk]
  constructor
  · rintro ⟨a', ha'⟩
    rw [Outcome.bind_eq_ok] at ha'
    obtain ⟨_, b, hb, ha'⟩ := ha'
    obtain ⟨cs, hcs, rfl⟩ := Outcome.mapState_eq_ok.1 hb
    rw [Outcome.bind_eq_ok] at ha'
    obtain ⟨_, b, hb, -⟩ := ha'
    rw [onName] at hb
    simp only [hn, List.getElem?_cons_zero] at hb
    obtain ⟨nm', hnm', -⟩ := Outcome.mapState_eq_ok.1 hb
    exact ⟨⟨cs, hcs⟩, nm', hnm'⟩
  · rintro ⟨⟨cs, hcs⟩, nm', hnm'⟩
    obtain ⟨dim, hset, -⟩ := setv_head lessIdx (d + UInt64.ofNat k) hd
    refine ⟨{ a with v := cs, names := nm' :: nms, dim }, ?_⟩
    rw [hcs, Outcome.mapState_ok, Outcome.bind_ok, onName]
    simp only [hn, List.getElem?_cons_zero, hnm', Outcome.mapState_ok, Outcome.bind_ok,
      List.set_cons_zero, setDim, hd, hset]

/-- What the data holds then. -/
theorem appendVector_extends {mem : List UInt8} {data : List T} {k : Nat} {a' : Array T}
    (hv : a.v ≠ []) (hd : a.dim.v ≠ []) (hrows : ∀ c ∈ a.v, c.size = a.nrows)
    (hsize : viewSize mem = some data.length) (hdata : viewElts T mem data.length = some data)
    (hk : data.length = k * a.v.length) (hlt : a.nrows + k < 2 ^ 64)
    (h : a.appendVector O heap mem = .ok () a') :
    a'.v.map (·.v) = a.v.zipIdx.map (fun p => p.1.v ++ (data.drop (p.2 * k)).take k) ∧
      (∀ c ∈ a'.v, c.size = a'.nrows) ∧ a'.nrows = a.nrows + k := by
  rw [appendVector_eq_spread O hv hsize hdata hk, Outcome.bind_eq_ok] at h
  obtain ⟨_, b, hb, h⟩ := h
  obtain ⟨cs, hcs, rfl⟩ := Outcome.mapState_eq_ok.1 hb
  rw [Outcome.bind_eq_ok] at h
  obtain ⟨_, f, hf, h⟩ := h
  obtain ⟨hfd, hfv, -⟩ := onName_eq_ok hf
  obtain ⟨x, hx, had, hav, -⟩ := setDim_eq_ok h
  obtain ⟨d, ds, hdim⟩ := List.exists_cons_of_ne_nil hd
  rw [hfd] at hx had
  simp only [hdim, List.getElem?_cons_zero, Option.some.injEq, List.set_cons_zero] at hx had
  subst hx
  have hd0 : a.nrows = d.toNat := by rw [nrows, hdim]
  have hnr : a'.nrows = a.nrows + k := by
    rw [hd0] at hlt ⊢
    rw [nrows, had]
    simp only
    rw [UInt64.toNat_add, UInt64.toNat_ofNat', Nat.mod_eq_of_lt (show k < 2 ^ 64 by omega),
      Nat.mod_eq_of_lt hlt]
  refine ⟨?_, ?_, hnr⟩
  · rw [hav, hfv]
    exact spread_pieces O hcs
  · rw [hav, hfv, hnr]
    exact (spread_eq_ok O hrows hk hcs).2

end Array

namespace zts

open Ztsdb.Arr.Vector Ztsdb.Arr.Array

/-! ## The times -/

/-- The first of the times that rise, each above the one before it and the first of all
above `last`. -/
def rising : Option dtime → List dtime → List dtime
  | _, [] => []
  | last, t :: ts => if last.any fun l => !dtime.less l t then [] else t :: rising (some t) ts

/-- All of them rise where they ascend from `last` on. -/
theorem rising_eq_iff {last : Option dtime} {ts : List dtime} : rising last ts = ts ↔
    ts.IsChain (fun s t => dtime.less s t = true) ∧
      ∀ l ∈ last, ∀ t ∈ ts.head?, dtime.less l t = true := by
  induction ts generalizing last with
  | nil => exact ⟨fun _ => ⟨List.isChain_nil, fun _ _ t ht => nomatch ht⟩, fun _ => rfl⟩
  | cons t ts ih =>
      have hany : (last.any fun l => !dtime.less l t) = true ↔
          ¬∀ l ∈ last, dtime.less l t = true := by
        cases last with
        | none => simp
        | some l => simp
      rw [rising, List.isChain_cons]
      by_cases h : (last.any fun l => !dtime.less l t) = true
      · rw [if_pos h]
        refine ⟨nofun, fun hc => absurd (fun l hl => hc.2 l hl t rfl) (hany.1 h)⟩
      · rw [if_neg h, List.cons.injEq, ih]
        rw [hany, not_not] at h
        constructor
        · rintro ⟨-, hchain, hhead⟩
          refine ⟨⟨hhead t rfl, hchain⟩, ?_⟩
          intro l hl u hu
          cases hu
          exact h l hl
        · rintro ⟨⟨hhead, hchain⟩, -⟩
          refine ⟨rfl, hchain, ?_⟩
          intro l hl
          cases hl
          exact hhead

/-- The loop pushes the times that rise, and goes back where there are more. -/
theorem pushTimes_eq {heap : Allocator} {mem : List UInt8} {ts : List dtime} {z : zts}
    {c : Vector dtime} {n : idx_type} {nm : Dname} {j m k : Nat}
    (hts : viewElts dtime mem k = some ts) (hm : j + m = k) (hc : z.idx.v = [c])
    (hd : z.idx.dim.v = [n]) (hn : z.idx.names = [nm]) (hrow : c.size = z.idx.nrows)
    (hlt : z.idx.nrows + m < 2 ^ 64) :
    pushTimes heap mem j m z =
      ((z.idx.concatAll dtime.less heap (rising c.v.getLast? (ts.drop j))).mapState
        fun idx => { z with idx }).bind fun _ z' =>
          if rising c.v.getLast? (ts.drop j) = ts.drop j then .ok () z'
          else rollback heap (.outOfRange "append index not ascending") z' := by
  have hlen : ts.length = k := by
    unfold viewElts at hts
    split at hts
    · cases hts
      exact Flat.length_decode _ _
    · cases hts
  induction m generalizing j z c n nm with
  | zero =>
      have hnil : ts.drop j = [] := List.drop_eq_nil_of_le (by omega)
      rw [hnil]
      rfl
  | succ m ih =>
      obtain ⟨w, hw, hx⟩ := viewElt_of_viewElts hts (show j < k by omega)
      obtain ⟨hjl, hjx⟩ := List.getElem?_eq_some_iff.1 hx
      have hdrop : ts.drop j = ⟨(UInt64.ofNat w).toInt64⟩ :: ts.drop (j + 1) := by
        rw [List.drop_eq_getElem_cons hjl, hjx]
      have hlate : (if z.idx.size = 0 then .ok false ()
          else (z.idx.elem (z.idx.size - 1)).bind fun last _ =>
            .ok (!dtime.less last ⟨(UInt64.ofNat w).toInt64⟩) () : Outcome Exn Unit Bool) =
          .ok (c.v.getLast?.any fun l => !dtime.less l ⟨(UInt64.ofNat w).toInt64⟩) () := by
        by_cases h0 : z.idx.nrows = 0
        · have hnil : c.v = [] := List.eq_nil_of_length_eq_zero (hrow.trans h0)
          rw [if_pos (by rw [Array.size, h0, Nat.mul_zero]; rfl), hnil]
          rfl
        · obtain ⟨l, hlast, hsize, helem⟩ := elem_last hc hrow rfl h0 (by omega)
          rw [if_neg (by rw [hsize]; exact h0), helem, Outcome.bind_ok, hlast]
          rfl
      rw [pushTimes, hw]
      simp only
      rw [hlate, hdrop, rising]
      generalize (⟨(UInt64.ofNat w).toInt64⟩ : dtime) = t
      cases hany : c.v.getLast?.any fun l => !dtime.less l t with
      | true =>
          rw [if_pos rfl, concatAll, Outcome.mapState_ok, Outcome.bind_ok,
            if_neg (List.cons_ne_nil _ _).symm]
      | false =>
          rw [if_neg Bool.false_ne_true, concatAll]
          simp only [List.cons.injEq, true_and]
          obtain ⟨dim, hdim, hone⟩ := @concatOne_of_vector _ _ dtime.less heap _ _ _ _ t
            ZString.empty hc hd hn
          rw [hone]
          cases hpush : c.push_back dtime.less t with
          | fault => rfl
          | throw e c' => rfl
          | ok u c₁ =>
              simp only [Outcome.mapState_ok, Outcome.bind_ok]
              cases nm.addname ZString.empty with
              | fault => rfl
              | throw e nm' => rfl
              | ok u nm₁ =>
                  have hv := (push_back_eq_ok dtime.less hpush).1
                  have hnr : z.idx.nrows = n.toNat := by rw [nrows, hd]
                  have hrow' : c₁.size = z.idx.nrows + 1 := by
                    rw [Vector.size, hv, List.length_append, ← Vector.size, hrow]
                    rfl
                  have hnr' : (n + 1).toNat = z.idx.nrows + 1 := by
                    rw [UInt64.toNat_add, hnr]
                    exact Nat.mod_eq_of_lt (by rw [hnr] at hlt; show n.toNat + 1 < 2 ^ 64; omega)
                  have hnr₁ : ({ z.idx with v := [c₁], names := [nm₁], dim } : Array dtime).nrows =
                      z.idx.nrows + 1 := by
                    rw [nrows]
                    simp only [hdim]
                    exact hnr'
                  simp only [Outcome.mapState_ok, Outcome.bind_ok]
                  rw [@ih { z with idx := { z.idx with v := [c₁], names := [nm₁], dim } } c₁ _ nm₁
                    (j + 1) (by omega) rfl hdim rfl (hrow'.trans hnr₁.symm)
                    (by rw [hnr₁]; omega)]
                  rw [hv, List.getLast?_concat]

/-! ## All or nothing -/

/-- The buffer holds a vector of times, and one of doubles behind it. -/
structure Carries (mem : List UInt8) (ts : List dtime) (data : List Double) : Prop where
  count : viewSize mem = some ts.length
  times : viewElts dtime mem ts.length = some ts
  dataCount : viewSize (mem.drop (sizeofRawVector + ts.length * Flat.width dtime)) =
    some data.length
  doubles : viewElts Double (mem.drop (sizeofRawVector + ts.length * Flat.width dtime))
    data.length = some data

/-- Two vectors written one behind the other are carried. -/
theorem carries_toBuffer {i : Vector dtime} {d : Vector Double} (rest : List UInt8)
    (hi : i.size < 2 ^ 64) (hd : d.size < 2 ^ 64) :
    Carries (i.toBuffer ++ (d.toBuffer ++ rest)) i.v d.v := by
  have hview {T : Type} [Raw T] (y : Vector T) (rest : List UInt8) :
      viewElts T (y.toBuffer ++ rest) y.v.length = some y.v := by
    have hslice : slice sizeofRawVector (y.v.length * Flat.width T) (y.toBuffer ++ rest) =
        Flat.encode y.v := slice_toBuffer y rest
    unfold viewElts
    rw [if_pos, hslice, ← List.append_nil (Flat.encode y.v), Flat.decode_encode]
    rw [List.length_append, Vector.length_toBuffer, Vector.getBufferSize, Vector.size]
    exact Nat.le_add_right _ _
  have hdrop : (i.toBuffer ++ (d.toBuffer ++ rest)).drop
      (sizeofRawVector + i.v.length * Flat.width dtime) = d.toBuffer ++ rest :=
    List.drop_left' (Vector.length_toBuffer i)
  refine ⟨readWord_toBuffer_size i _ hi, hview i _, ?_, ?_⟩
  · rw [hdrop]
    exact readWord_toBuffer_size d _ hd
  · rw [hdrop]
    exact hview d _

/-- The last time of the index. -/
def lastTime (z : zts) : Option dtime := z.idx.v.head?.bind fun c => c.v.getLast?

/-- Times that ascend from the last one of the index on, with a double for each of them in
each column. -/
structure Fitting (ts : List dtime) (data : List Double) (z : zts) : Prop where
  nonempty : ts ≠ []
  ascending : ts.IsChain fun s t => dtime.less s t = true
  above : ∀ l ∈ z.lastTime, ∀ t ∈ ts.head?, dtime.less l t = true
  doubles : data.length = ts.length * z.a.v.length

/-- The times are behind the index, and the doubles column by column behind the data. -/
structure Extended (ts : List dtime) (data : List Double) (z z' : zts) : Prop where
  times : z'.idx.v.map (·.v) = z.idx.v.map fun c => c.v ++ ts
  doubles : z'.a.v.map (·.v) =
    z.a.v.zipIdx.map fun p => p.1.v ++ (data.drop (p.2 * ts.length)).take ts.length
  columns : ∀ c ∈ z'.a.v, c.size = z'.a.nrows
  idxRows : z'.idx.nrows = z.idx.nrows + ts.length
  aRows : z'.a.nrows = z.a.nrows + ts.length

/-- The elements, the extents and the names are those of `z`. -/
structure Unchanged (z z' : zts) : Prop where
  idx : z'.idx.v.map (·.v) = z.idx.v.map (·.v)
  a : z'.a.v.map (·.v) = z.a.v.map (·.v)
  idxDim : z'.idx.dim.v = z.idx.dim.v
  aDim : z'.a.dim.v = z.a.dim.v
  idxNames : z'.idx.names.map (fun nm => (nm.sz, nm.names.v)) =
    z.idx.names.map fun nm => (nm.sz, nm.names.v)
  aNames : z'.a.names.map (fun nm => (nm.sz, nm.names.v)) =
    z.a.names.map fun nm => (nm.sz, nm.names.v)

/-- A fitting buffer is appended, any other leaves no trace. -/
def VectorAllOrNothing (heap : Allocator) (mem : List UInt8) (ts : List dtime)
    (data : List Double) (z : zts) : Prop :=
  (z.appendVector heap mem).Holds (fun _ z' => z.Fitting ts data ∧ z.Extended ts data z')
    fun _ z' => ¬z.Fitting ts data ∧ z.Unchanged z'

/-! ## The condition -/

/-- No request is refused for the times, their names, the doubles and theirs. -/
structure Granted (heap : Allocator) (ts : List dtime) (data : List Double) (z : zts) :
    Prop where
  times : ∀ c ∈ z.idx.v, ∃ c', c.pushAll dtime.less ts = .ok () c'
  idxNames : ∀ nm ∈ z.idx.names, ∃ nm', addnames ts.length nm = .ok () nm'
  doubles : ∃ cs, spread Double.less ts.length data z.a.v = .ok () cs
  aNames : ∀ nm ∈ z.a.names.head?, ∃ nm', nm.addrows heap ts.length = .ok () nm'

/-- The names `nm` come back from `nm'` when these are cut to `n`: it drops names that are
all empty. -/
def Restores (n : Nat) (nm nm' : Dname) : Prop :=
  (nm'.resize n 0).Holds (fun _ r => r.sz = nm.sz ∧ r.names.v = nm.names.v)
    fun _ r => r.sz = nm.sz ∧ r.names.v = nm.names.v

/-- The first time that is pushed is refused, or none of those pushed is, and the names come
back. -/
def GoesBack (ts : List dtime) (z : zts) : Prop :=
  (∃ t ∈ (rising z.lastTime ts).head?, ∃ c ∈ z.idx.v, ∃ e c',
      c.push_back dtime.less t = .throw e c') ∨
    (∀ c ∈ z.idx.v, ∃ c', c.pushAll dtime.less (rising z.lastTime ts) = .ok () c') ∧
      ∀ nm ∈ z.idx.names, ∃ nm', addnames (rising z.lastTime ts).length nm = .ok () nm' ∧
        Restores z.idx.nrows nm nm'

/-- The condition under which `appendVector` is all or nothing; no times are nothing. -/
def VectorMeets (heap : Allocator) (ts : List dtime) (data : List Double) (z : zts) : Prop :=
  ts ≠ [] → (z.Fitting ts data → z.Granted heap ts data) ∧
    (¬z.Fitting ts data → z.GoesBack ts)

section Run

variable {heap : Allocator} {mem : List UInt8} {ts : List dtime} {data : List Double} {z : zts}
  {c : Vector dtime} {nm : Dname}

/-- The rollback of an index that took some of the times. -/
theorem holds_rollback_iff {Q : Unit → zts → Prop} {i : Array dtime} {c' : Vector dtime}
    {nm' : Dname} {m : idx_type} {e : Exn} (hz : z.Matched) (hh : ∀ c ∈ z.idx.v, c.Hosted)
    (hc : z.idx.v = [c]) (hn : z.idx.names = [nm]) (hext : Extends c c') (hi : i.v = [c'])
    (hid : i.dim.v = [m]) (hin : i.names = [nm']) :
    (rollback heap e { z with idx := i }).Holds Q (fun _ z' => z.Unchanged z') ↔
      Restores z.idx.nrows nm nm' := by
  obtain ⟨n, hd⟩ := hz.vector
  obtain ⟨v, dim, hv, hdim, hback⟩ := @resize_back_names _ _ dtime.less z.idx nm' heap i n [] []
    rfl (fun d hd => ⟨hh d hd, hz.idxRows d hd⟩) (by rw [hc]; exact List.cons_ne_nil c [])
    (by rw [hc, hi]; exact .cons hext .nil) hd ⟨m, hid⟩ hin
  have hunchanged (r : Dname) : z.Unchanged { z with idx := { i with v, dim, names := [r] } } ↔
      r.sz = nm.sz ∧ r.names.v = nm.names.v := by
    refine ⟨fun h => ?_, fun h => ⟨hv, rfl, hdim, rfl, ?_, rfl⟩⟩
    · have hnames := h.idxNames
      rw [hn] at hnames
      simpa using hnames
    · rw [hn]
      simpa using h
  rw [rollback, hz.rows, hback, Restores]
  cases nm'.resize z.idx.nrows 0 with
  | fault => exact Iff.rfl
  | throw e' r => exact hunchanged r
  | ok u r => exact hunchanged r

theorem rollback_ne_ok {e : Exn} {z' : zts} : rollback heap e z ≠ .ok () z' := by
  intro h
  rw [rollback, Outcome.bind_eq_ok] at h
  obtain ⟨_, _, -, h⟩ := h
  cases h

/-- The times of the buffer that fit are all those that rise. -/
theorem Fitting.rising (h : z.Fitting ts data) : zts.rising z.lastTime ts = ts :=
  rising_eq_iff.2 ⟨h.ascending, h.above⟩

theorem rollback_bind {e : Exn} {k : Unit → zts → Outcome Exn zts Unit} :
    (rollback heap e z).bind k = rollback heap e z := by
  rw [rollback, Outcome.bind_assoc]
  rfl

/-- `appendVector` once the times are in the index: `k` of them, and `mem` is the rest of the
buffer. -/
def appendDoubles (heap : Allocator) (mem : List UInt8) (k : Nat) (z : zts) :
    Outcome Exn zts Unit :=
  match viewSize mem with
  | none => .fault
  | some n =>
    if n % k ≠ 0 then rollback heap (.outOfRange "mismatch between index and data") z
    else if z.a.v = [] then .fault
    else if n / z.a.v.length ≠ k then
      rollback heap (.outOfRange "size mismatch between idx and array") z
    else
      ((z.a.appendVector Double.less heap mem).mapState fun a => { z with a }).tryCatch
        fun e z => rollback heap e z

/-- The times that rise, then the rest or the way back. -/
theorem appendVector_eq (hz : z.Matched) (ha : z.a.dim.v ≠ []) (hmem : mem.length < 2 ^ 62)
    (hb : Carries mem ts data) (hne : ts ≠ []) (hc : z.idx.v = [c]) (hn : z.idx.names = [nm])
    (hlt : z.idx.nrows + ts.length < 2 ^ 64) :
    z.appendVector heap mem =
      ((z.idx.concatAll dtime.less heap (rising z.lastTime ts)).mapState
        fun idx => { z with idx }).bind fun _ z' =>
          if rising z.lastTime ts = ts then
            appendDoubles heap (mem.drop (sizeofRawVector + ts.length * Flat.width dtime))
              ts.length z'
          else rollback heap (.outOfRange "append index not ascending") z' := by
  obtain ⟨n, hd⟩ := hz.vector
  have hlast : z.lastTime = c.v.getLast? := by rw [lastTime, hc]; rfl
  have hnull : ¬ z.a.dim.size = 0 := fun h0 => ha (List.eq_nil_of_length_eq_zero h0)
  have hlen : ¬ ts.length = 0 := fun h0 => hne (List.eq_nil_of_length_eq_zero h0)
  -- the place of the doubles does not wrap
  have hwrap : wrap (sizeofRawVector + wrap (ts.length * Flat.width dtime)) =
      sizeofRawVector + ts.length * Flat.width dtime := by
    have hfit : sizeofRawVector + ts.length * Flat.width dtime ≤ mem.length := by
      have htimes := hb.times
      unfold viewElts at htimes
      split at htimes
      · next h => exact h
      · cases htimes
    rw [wrap_of_lt (show ts.length * Flat.width dtime < 2 ^ 64 by omega),
      wrap_of_lt (by omega)]
  rw [appendVector, if_neg hnull, hb.count]
  simp only
  rw [if_neg hlen, pushTimes_eq hb.times (Nat.zero_add _) hc hd hn
    (hz.idxRows c (by rw [hc]; exact List.mem_singleton_self c)) hlt, List.drop_zero, hwrap,
    hlast, Outcome.bind_assoc]
  refine congrArg _ (funext fun _ => funext fun z' => ?_)
  split
  · rfl
  · exact rollback_bind

/-- The doubles of a fitting buffer are taken or not, any others lead back. -/
theorem holds_appendDoubles_iff {i : Array dtime} {c' : Vector dtime} {nm' : Dname} {m : idx_type}
    (hz : z.Matched) (ha : z.a.dim.v ≠ []) (hv : z.a.v ≠ []) (hh : ∀ c ∈ z.idx.v, c.Hosted)
    (hb : Carries mem ts data) (hne : ts ≠ []) (hc : z.idx.v = [c]) (hn : z.idx.names = [nm])
    (hlt : z.idx.nrows + ts.length < 2 ^ 64) (hrise : rising z.lastTime ts = ts)
    (hpush : c.pushAll dtime.less ts = .ok () c') (hi : i.v = [c']) (hid : i.dim.v = [m])
    (him : m.toNat = z.idx.nrows + ts.length) (hin : i.names = [nm']) :
    (appendDoubles heap (mem.drop (sizeofRawVector + ts.length * Flat.width dtime)) ts.length
        { z with idx := i }).Holds (fun _ z' => z.Fitting ts data ∧ z.Extended ts data z')
        (fun _ z' => ¬z.Fitting ts data ∧ z.Unchanged z') ↔
      (z.Fitting ts data → (∃ cs, spread Double.less ts.length data z.a.v = .ok () cs) ∧
        ∀ nm ∈ z.a.names.head?, ∃ nm', nm.addrows heap ts.length = .ok () nm') ∧
      (¬z.Fitting ts data → Restores z.idx.nrows nm nm') := by
  obtain ⟨hcv, halloc⟩ := pushAll_eq_ok dtime.less hpush
  have hpos : 0 < ts.length := List.length_pos_iff.2 hne
  have hback (e : Exn) (hfit : ¬z.Fitting ts data) :
      (rollback heap e { z with idx := i }).Holds
          (fun _ z' => z.Fitting ts data ∧ z.Extended ts data z')
          (fun _ z' => ¬z.Fitting ts data ∧ z.Unchanged z') ↔
        Restores z.idx.nrows nm nm' := by
    simp only [hfit, not_false_eq_true, true_and, false_and]
    exact @holds_rollback_iff heap z c nm (fun _ _ => False) i c' nm' m e hz hh hc hn
      ⟨⟨_, hcv⟩, halloc⟩ hi hid hin
  have hiff : z.Fitting ts data ↔ data.length = ts.length * z.a.v.length := by
    refine ⟨fun h => h.doubles, fun h => ⟨hne, ?_, ?_, h⟩⟩
    · exact (rising_eq_iff.1 hrise).1
    · exact (rising_eq_iff.1 hrise).2
  rw [appendDoubles, hb.dataCount]
  simp only
  by_cases hmod : data.length % ts.length ≠ 0
  · have hfit : ¬z.Fitting ts data := by
      rw [hiff]
      intro h
      rw [h] at hmod
      exact hmod (Nat.mul_mod_right _ _)
    rw [if_pos hmod, hback _ hfit]
    simp only [hfit, false_imp_iff, not_false_eq_true, true_imp_iff, true_and]
  rw [if_neg hmod, if_neg hv]
  by_cases hdiv : data.length / z.a.v.length ≠ ts.length
  · have hfit : ¬z.Fitting ts data := by
      rw [hiff]
      intro h
      rw [h] at hdiv
      exact hdiv (Nat.mul_div_cancel _ (List.length_pos_iff.2 hv))
    rw [if_pos hdiv, hback _ hfit]
    simp only [hfit, false_imp_iff, not_false_eq_true, true_imp_iff, true_and]
  rw [if_neg hdiv]
  rw [not_not] at hdiv
  by_cases hfit : z.Fitting ts data
  · simp only [hfit, not_true_eq_false, false_imp_iff, true_imp_iff, and_true, true_and, false_and]
    have hk := hfit.doubles
    obtain ⟨d, ds, hdim⟩ := List.exists_cons_of_ne_nil ha
    obtain ⟨anm, anms, hanm⟩ : ∃ anm anms, z.a.names = anm :: anms := by
      apply List.exists_cons_of_ne_nil
      intro hnil
      have hlen := hz.aNames
      rw [hnil, Vector.size, hdim] at hlen
      cases hlen
    rw [hanm, List.head?_cons]
    simp only [Option.mem_def, Option.some.injEq, forall_eq']
    rw [← @appendVector_granted_iff _ _ Double.less heap z.a anm _ _ _ d ds anms hv hdim hanm
      hb.dataCount hb.doubles hk]
    cases happ : z.a.appendVector Double.less heap
        (mem.drop (sizeofRawVector + ts.length * Flat.width dtime)) with
    | fault => exact ⟨False.elim, fun h => by cases h.choose_spec⟩
    | throw e a' =>
        refine ⟨fun h => ?_, fun h => by cases h.choose_spec⟩
        rw [Outcome.mapState_throw, Outcome.tryCatch_throw] at h
        cases hroll : rollback heap e { a := a', idx := i } with
        | fault =>
            rw [hroll] at h
            exact h.elim
        | throw e' z' =>
            rw [hroll] at h
            exact h.elim
        | ok u z' => exact absurd hroll rollback_ne_ok
    | ok u a' =>
        refine ⟨fun _ => ⟨a', rfl⟩, fun _ => ?_⟩
        obtain ⟨hdv, hcols, hrows⟩ := appendVector_extends Double.less hv ha hz.aRows hb.dataCount
          hb.doubles hk (by rw [hz.rows]; exact hlt) happ
        refine ⟨?_, hdv, hcols, ?_, hrows⟩
        · show i.v.map (·.v) = _
          rw [hi, hc, List.map_singleton, List.map_singleton, hcv]
        · show i.nrows = _
          rw [nrows, hid]
          exact him
  · -- the data sees for itself that the counts do not fit
    have hmod' : data.length % z.a.v.length ≠ 0 := by
      intro h0
      refine hfit (hiff.2 ?_)
      rw [← hdiv, Nat.div_mul_cancel (Nat.dvd_of_mod_eq_zero h0)]
    have hthrow : z.a.appendVector Double.less heap
        (mem.drop (sizeofRawVector + ts.length * Flat.width dtime)) =
          .throw (.outOfRange "appendVector: incorrect vector size") z.a := by
      unfold Array.appendVector
      rw [if_neg hv, hb.dataCount]
      simp only
      rw [if_pos hmod']
    rw [hthrow, Outcome.mapState_throw, Outcome.tryCatch_throw]
    rw [hback _ hfit]
    simp only [hfit, false_imp_iff, not_false_eq_true, true_imp_iff, true_and]

/-- The times that rise are all taken, then the rest decides; or the run ends before. -/
theorem holds_appendVector_iff (hz : z.Matched) (ha : z.a.dim.v ≠ []) (hv : z.a.v ≠ [])
    (hh : ∀ c ∈ z.idx.v, c.Hosted) (hmem : mem.length < 2 ^ 62) (hb : Carries mem ts data)
    (hne : ts ≠ []) : z.VectorAllOrNothing heap mem ts data ↔
      (z.Fitting ts data → z.Granted heap ts data) ∧ (¬z.Fitting ts data → z.GoesBack ts) := by
  obtain ⟨c, hc⟩ := hz.column
  obtain ⟨n, hd⟩ := hz.vector
  have hcm : c ∈ z.idx.v := by rw [hc]; exact List.mem_singleton_self c
  obtain ⟨nm, hn⟩ : ∃ nm, z.idx.names = [nm] := by
    have hlen := hz.idxNames
    rw [Vector.size, hd] at hlen
    exact List.length_eq_one_iff.1 hlen
  have hrow := hz.idxRows c hcm
  have hnr : z.idx.nrows = n.toNat := by rw [nrows, hd]
  -- a block is small, so no sum of counts wraps
  have hlt : z.idx.nrows + ts.length < 2 ^ 64 := by
    have hfit := (hh c hcm).fits
    have hblock := (hh c hcm).block
    rw [Fits, show Flat.width dtime = 8 from rfl, hrow] at hfit
    have htimes := hb.times
    unfold viewElts at htimes
    split at htimes
    · next h =>
        rw [show Flat.width dtime = 8 from rfl] at h
        omega
    · cases htimes
  have hlast : ∀ t ∈ (rising z.lastTime ts).head?, ∀ e c', c.push_back dtime.less t = .throw e c' →
      z.idx.concatAll dtime.less heap (rising z.lastTime ts) =
        .throw e { z.idx with v := [c'] } := by
    intro t ht e c' hpush
    obtain ⟨xs, hxs⟩ := List.head?_eq_some_iff.1 ht
    obtain ⟨dim, -, hone⟩ := @concatOne_of_vector _ _ dtime.less heap _ _ _ _ t ZString.empty hc hd
      hn
    rw [hxs, concatAll, hone, hpush]
    rfl
  rw [VectorAllOrNothing, appendVector_eq hz ha hmem hb hne hc hn hlt]
  have hgoes : z.GoesBack ts ↔
      (∃ t ∈ (rising z.lastTime ts).head?, ∃ e c', c.push_back dtime.less t = .throw e c') ∨
      (∃ c', c.pushAll dtime.less (rising z.lastTime ts) = .ok () c') ∧
        ∃ nm', addnames (rising z.lastTime ts).length nm = .ok () nm' ∧
          Restores z.idx.nrows nm nm' := by
    rw [GoesBack, hc, hn]
    simp only [List.mem_singleton, forall_eq, exists_eq_left]
  have hgranted (h : z.Granted heap ts data) :
      (∃ c', c.pushAll dtime.less ts = .ok () c') ∧
        ∃ nm', addnames ts.length nm = .ok () nm' :=
    ⟨h.times c hcm, h.idxNames nm (by rw [hn]; exact List.mem_singleton_self nm)⟩
  by_cases hg : (∃ c', c.pushAll dtime.less (rising z.lastTime ts) = .ok () c') ∧
      ∃ nm', addnames (rising z.lastTime ts).length nm = .ok () nm'
  · obtain ⟨⟨c', hpush⟩, nm', hadd⟩ := hg
    obtain ⟨i, hall, hi, hid, hin⟩ := @concatAll_granted _ _ dtime.less heap z.idx c n nm _ c' nm' hc hd
      hn hpush hadd
    -- nothing is refused at the first time
    have hgoes : z.GoesBack ts ↔ Restores z.idx.nrows nm nm' := by
      rw [hgoes]
      constructor
      · rintro (⟨t, ht, e, c₁, hthrow⟩ | ⟨-, nm₁, hnm₁, hback⟩)
        · rw [hlast t ht e c₁ hthrow] at hall
          cases hall
        · rw [hadd] at hnm₁
          cases hnm₁
          exact hback
      · intro hback
        exact .inr ⟨⟨c', hpush⟩, nm', hadd, hback⟩
    rw [hall, Outcome.mapState_ok, Outcome.bind_ok, hgoes]
    by_cases hrise : rising z.lastTime ts = ts
    · rw [hrise] at hpush hadd hid
      have him : (n + UInt64.ofNat ts.length).toNat = z.idx.nrows + ts.length := by
        rw [UInt64.toNat_add, UInt64.toNat_ofNat', ← hnr,
          Nat.mod_eq_of_lt (show ts.length < 2 ^ 64 by omega), Nat.mod_eq_of_lt hlt]
      rw [if_pos hrise, holds_appendDoubles_iff hz ha hv hh hb hne hc hn hlt hrise hpush hi hid him
        hin]
      refine and_congr_left fun _ => imp_congr_right fun _ => ⟨fun h => ?_, fun h => ?_⟩
      · refine ⟨?_, ?_, h.1, h.2⟩
        · rw [hc, List.forall_mem_singleton]
          exact ⟨c', hpush⟩
        · rw [hn, List.forall_mem_singleton]
          exact ⟨nm', hadd⟩
      · exact ⟨h.doubles, h.aNames⟩
    · have hfit : ¬z.Fitting ts data := fun h => hrise h.rising
      obtain ⟨hcv, halloc⟩ := pushAll_eq_ok dtime.less hpush
      rw [if_neg hrise]
      simp only [hfit, false_imp_iff, not_false_eq_true, true_imp_iff, true_and, false_and]
      exact @holds_rollback_iff heap z c nm (fun _ _ => False) i c' nm' _ _ hz hh hc hn
        ⟨⟨_, hcv⟩, halloc⟩ hi hid hin
  · have hno (h : z.Fitting ts data) : ¬z.Granted heap ts data := by
      intro hgr
      rw [h.rising] at hg
      exact hg (hgranted hgr)
    -- the elements are not those of `z` where the column is longer
    have hlonger : ∀ e (i : Array dtime) (c' : Vector dtime), i.v = [c'] → c.size < c'.size →
        ¬(Outcome.throw e { z with idx := i } : Outcome Exn zts Unit).Holds
          (fun _ z' => z.Fitting ts data ∧ z.Extended ts data z')
          fun _ z' => ¬z.Fitting ts data ∧ z.Unchanged z' := by
      intro e i c' hi hsize h
      have hidx := h.2.idx
      simp only [hi, hc, List.map_singleton, List.cons.injEq, and_true] at hidx
      rw [Vector.size, Vector.size, hidx] at hsize
      exact Nat.lt_irrefl _ hsize
    have hnot (h : ¬∃ t ∈ (rising z.lastTime ts).head?, ∃ e c',
        c.push_back dtime.less t = .throw e c') : ¬z.GoesBack ts := by
      rw [hgoes]
      rintro (hfirst | ⟨hpush, nm', hadd, -⟩)
      · exact h hfirst
      · exact hg ⟨hpush, nm', hadd⟩
    rcases @concatAll_refused _ _ dtime.less heap z.idx c n nm _ hc hd hn hg with
      ⟨t, e, c', ht, hpush, hall⟩ | hall | ⟨e, i, c', hall, hi, hsize⟩
    · rw [hall, Outcome.mapState_throw, Outcome.bind_throw, Outcome.holds_throw]
      refine ⟨fun h => ⟨fun hfit => absurd hfit h.1, fun _ => ?_⟩, fun h => ⟨?_, ?_⟩⟩
      · exact hgoes.2 (.inl ⟨t, ht, e, c', hpush⟩)
      · exact fun hfit => hno hfit (h.1 hfit)
      · refine ⟨?_, rfl, rfl, rfl, rfl, rfl⟩
        show [c'].map (·.v) = z.idx.v.map (·.v)
        rw [hc, List.map_singleton, List.map_singleton, push_back_eq_throw dtime.less hpush]
    · rw [hall]
      refine ⟨False.elim, fun h => ?_⟩
      by_cases hfit : z.Fitting ts data
      · exact hno hfit (h.1 hfit)
      · refine absurd (h.2 hfit) (hnot ?_)
        rintro ⟨t, ht, e, c', hpush⟩
        rw [hlast t ht e c' hpush] at hall
        cases hall
    · rw [hall, Outcome.mapState_throw, Outcome.bind_throw]
      refine ⟨fun h => absurd h (hlonger e i c' hi hsize), fun h => ?_⟩
      by_cases hfit : z.Fitting ts data
      · exact absurd (h.1 hfit) (hno hfit)
      · refine absurd (h.2 hfit) (hnot ?_)
        rintro ⟨t, ht, e₁, c₁, hpush⟩
        rw [hlast t ht e₁ c₁ hpush] at hall
        cases hall
        cases hi
        have hlen : c'.size = c.size :=
          congrArg List.length (push_back_eq_throw dtime.less hpush)
        omega

end Run

/-- `appendVector` is all or nothing exactly when the buffer meets the condition. -/
theorem vectorAllOrNothing_iff_meets (heap : Allocator) (mem : List UInt8) (ts : List dtime)
    (data : List Double) (z : zts) (hz : z.Matched) (ha : z.a.dim.v ≠ []) (hv : z.a.v ≠ [])
    (hh : ∀ c ∈ z.idx.v, c.Hosted) (hmem : mem.length < 2 ^ 62) (hb : Carries mem ts data) :
    z.VectorAllOrNothing heap mem ts data ↔ z.VectorMeets heap ts data := by
  rw [VectorMeets]
  by_cases hne : ts = []
  · have hnull : ¬ z.a.dim.size = 0 := fun h0 => ha (List.eq_nil_of_length_eq_zero h0)
    have hcount := hb.count
    rw [hne] at hcount
    rw [VectorAllOrNothing, appendVector, if_neg hnull, hcount]
    simp only [List.length_nil, if_true, Outcome.holds_throw, hne, ne_eq, not_true_eq_false,
      false_imp_iff, iff_true]
    exact ⟨fun h => h.nonempty rfl, rfl, rfl, rfl, rfl, rfl, rfl⟩
  · rw [holds_appendVector_iff hz ha hv hh hmem hb hne]
    exact ⟨fun h _ => h, fun h => h hne⟩

/-- The time 2 and the value 4. -/
def twoFour : List UInt8 :=
  (columnOf dtime.less [⟨2⟩]).toBuffer ++ ((columnOf Double.less [⟨4⟩]).toBuffer ++ [])

theorem carries_twoFour : Carries twoFour [⟨2⟩] [⟨4⟩] :=
  carries_toBuffer [] (by decide) (by decide)

theorem vectorAllOrNothing_iff_meets_one :
    (seriesOf [⟨1⟩] [⟨5⟩]).VectorAllOrNothing plentiful twoFour [⟨2⟩] [⟨4⟩] ↔
      (seriesOf [⟨1⟩] [⟨5⟩]).VectorMeets plentiful [⟨2⟩] [⟨4⟩] :=
  vectorAllOrNothing_iff_meets plentiful _ _ _ _
    (matched_seriesOf rfl (by decide) (List.isChain_singleton _)) (List.cons_ne_nil _ _)
    (List.cons_ne_nil _ _) (hosted_seriesOf (by decide) (by decide)).idxCols (by
      rw [twoFour, List.length_append, List.length_append, Vector.length_toBuffer,
        Vector.length_toBuffer]
      decide) carries_twoFour

/-- Without memory for the names of the new row, the data keeps the double whose time went
back. -/
theorem not_vectorAllOrNothing_noMemory :
    (seriesOf [⟨1⟩] [⟨5⟩]).Matched ∧ Carries twoFour [⟨2⟩] [⟨4⟩] ∧
      ¬(seriesOf [⟨1⟩] [⟨5⟩]).VectorAllOrNothing (memallocator 0) twoFour [⟨2⟩] [⟨4⟩] := by
  have hrun : ((seriesOf [⟨1⟩] [⟨5⟩]).appendVector (memallocator 0) twoFour).state?.map
      (fun z' => (z'.idx.v.map Vector.size, z'.a.v.map Vector.size)) = some ([1], [2]) := by
    decide +kernel
  refine ⟨matched_seriesOf rfl (by decide) (List.isChain_singleton _), carries_twoFour, ?_⟩
  rw [VectorAllOrNothing]
  intro h
  cases hr : (seriesOf [⟨1⟩] [⟨5⟩]).appendVector (memallocator 0) twoFour with
  | fault =>
      rw [hr] at h
      exact h
  | throw e z' =>
      rw [hr] at h hrun
      have hlen := congrArg (List.map List.length) h.2.a
      rw [List.map_map] at hlen
      have := (Prod.mk.inj (Option.some.inj hrun)).2
      rw [show List.map Vector.size z'.a.v = List.map (List.length ∘ fun c => c.v) z'.a.v from rfl,
        hlen] at this
      exact absurd this (by decide)
  | ok u z' =>
      rw [hr] at h hrun
      have hlen := congrArg (List.map List.length) h.2.times
      rw [List.map_map] at hlen
      have := (Prod.mk.inj (Option.some.inj hrun)).1
      rw [show List.map Vector.size z'.idx.v = List.map (List.length ∘ fun c => c.v) z'.idx.v
        from rfl, hlen] at this
      exact absurd this (by decide)

end zts

end Ztsdb.Arr
