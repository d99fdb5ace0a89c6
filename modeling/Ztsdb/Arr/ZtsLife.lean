import Mathlib
import Ztsdb.Arr.MakeShape
import Ztsdb.Arr.ZtsAtomic

/-!
# The life of a series

A series is built, appended to, bound, cut and copied, and any of that may throw. Over
all of it the index should have one strictly ascending time for each row of the data.

It does as long as each step keeps to its condition. A constructor that takes two arrays
believes their shapes and the flag of the index; the one that reserves rows has none; a
vertical bind concatenates the times before anything is checked, and turns data of one
dimension into a row; a command that throws midway leaves what it did. The conditions
say, of the state before the step and its arguments, that none of that comes about.
-/

namespace Ztsdb.Arr

open Ztsdb.Lib

namespace zts

open Ztsdb.Arr.Vector Ztsdb.Arr.Array

/-- The index has as many elements as the data has rows, strictly ascending, and so has
every column. Data without dimensions has no rows to compare with. -/
structure Sound (z : zts) : Prop where
  index : ∃ c, z.idx.v = [c] ∧ c.size = z.idx.nrows ∧
    c.v.IsChain fun s t => dtime.less s t = true
  rows : z.a.dim.v ≠ [] → z.a.nrows = z.idx.nrows
  columns : ∀ c ∈ z.a.v, c.size = z.a.nrows

/-! ## Steps -/

/-- A series from what is no series. -/
inductive Make where
  | rsv (heap : Allocator) (dim : Vector idx_type) (cnames : List (Vector ZString))
  | parts (heap : Allocator) (dim : Vector idx_type) (idx : Vector dtime) (vals : Vector Double)
      (cnames : List (Vector ZString)) (allocf_a allocf_idx : AllocFactory)
  | arrays (idx : Array dtime) (a : Array Double) (allocf_a allocf_idx : AllocFactory)
  | files (files_a : Files Double) (files_idx : Files dtime)
      (allocf_a allocf_idx : AllocFactory)

def Make.run : Make → Outcome Exn Unit zts
  | .rsv heap dim cnames => ofRsv heap dim cnames
  | .parts heap dim idx vals cnames allocf_a allocf_idx =>
    ofParts heap dim idx vals cnames allocf_a allocf_idx
  | .arrays idx a allocf_a allocf_idx => ofArrays idx a allocf_a allocf_idx
  | .files files_a files_idx allocf_a allocf_idx => ofFiles files_a files_idx allocf_a allocf_idx

/-- A series from another one. -/
inductive Derive where
  | copy (allocf_a allocf_idx : AllocFactory)
  | subsetRows (heap : Allocator) (n frm : Nat)

def Derive.run : Derive → zts → Outcome Exn Unit zts
  | .copy allocf_a allocf_idx, z => z.copy allocf_a allocf_idx
  | .subsetRows heap n frm, z => z.subsetRows heap n frm

/-- A command on a series. -/
inductive Op where
  | append (heap : Allocator) (mem : List UInt8)
  | appendVector (heap : Allocator) (mem : List UInt8)
  | resize (heap : Allocator) (sz frm : Nat)
  | abind (heap : Allocator) (u : zts) (d : Nat) (pre : List UInt8)
  | abindSelf (heap : Allocator) (d : Nat)
  | abindArray (heap : Allocator) (u : Array Double) (d : Nat) (pre : List UInt8)

def Op.run : Op → zts → Outcome Exn zts Unit
  | .append heap mem, z => (z.append heap mem mem.length).bind fun _ z => .ok () z
  | .appendVector heap mem, z => z.appendVector heap mem
  | .resize heap sz frm, z => z.resize heap sz frm
  | .abind heap u d pre, z => zts.abind heap u d pre z
  | .abindSelf heap d, z => z.abindSelf heap d
  | .abindArray heap u d pre, z => zts.abindArray heap u d pre z

/-- The other series a command reads. -/
def Op.operands : Op → List zts
  | .abind _ u _ _ => [u]
  | _ => []

/-- The series that some run of steps, each under its condition, leaves: returned, thrown
over, or, where a step leaves its storage, any at all. -/
inductive Reach (M : Make → Prop) (D : Derive → zts → Prop) (C : Op → zts → Prop) : zts → Prop
  | make {m : Make} {z : zts} : M m → m.run = .ok z () → Reach M D C z
  | derive {d : Derive} {z z' : zts} : Reach M D C z → D d z → d.run z = .ok z' () →
      Reach M D C z'
  | step {op : Op} {z z' : zts} : Reach M D C z → (∀ u ∈ op.operands, Reach M D C u) → C op z →
      (op.run z).state? = some z' → Reach M D C z'
  | wild {op : Op} {z z' : zts} : Reach M D C z → (∀ u ∈ op.operands, Reach M D C u) → C op z →
      op.run z = .fault → Reach M D C z'

/-! ## Conditions -/

/-- Files that hold an array: the columns it asks for, each with its rows. -/
structure Filed {T : Type} (files : Files T) : Prop where
  few : ∀ dim, files.dim = some dim → colsOf dim.v < 2 ^ 31
  rows : ∀ dim j c, files.dim = some dim → files.column j = some c →
    c.size = (dim.v.map UInt64.toNat).headD 0

/-- Nothing is reserved, what is given has its shape, and no flag of an index is wrong. -/
def Make.Safe : Make → Prop
  | .rsv _ dim _ => colsOf dim.v < 2 ^ 31 ∧ ∀ d, dim.v.head? = some d → d = 0
  | .parts _ dim idx _ _ _ _ => colsOf dim.v < 2 ^ 31 ∧ idx.size < 2 ^ 64
  | .arrays idx a _ _ => a.Shaped ∧ idx.Shaped ∧
      ∀ c ∈ idx.v, c.ordered = true → c.v.IsChain fun s t => dtime.less s t = true
  | .files files_a files_idx _ _ => Filed files_a ∧ Filed files_idx ∧
      ∀ j c, files_idx.column j = some c → c.ordered = true →
        c.v.IsChain fun s t => dtime.less s t = true

/-- The range of rows does not wrap. -/
def Derive.Safe : Derive → zts → Prop
  | .copy _ _, _ => True
  | .subsetRows _ n frm, z => z.a.dim.v ≠ [] ∧ frm + n < 2 ^ 64

/-- `j` empty names behind the others. -/
def addnames : Nat → Dname → Outcome Exn Dname Unit
  | 0, nm => .ok () nm
  | j + 1, nm => (addnames j nm).bind fun _ nm => nm.addname ZString.empty

/-- The buffer holds the times it announces, no request for them is refused, they can be
taken back, and data that has as many rows is taken. -/
def CanAppendVector (heap : Allocator) (mem : List UInt8) (z : zts) : Prop :=
  ∀ k, viewSize mem = some k → k ≠ 0 → z.a.dim.v ≠ [] → ∃ ts,
    viewElts dtime mem k = some ts ∧ z.idx.nrows + k < 2 ^ 64 ∧
    (∀ c ∈ z.idx.v, c.Hosted ∧ ∃ c', c.pushAll dtime.less ts = .ok () c') ∧
    (∀ nm ∈ z.idx.names, ∀ j ≤ k, ∃ nm' nm'', addnames j nm = .ok () nm' ∧
      nm'.resize z.idx.nrows 0 = .ok () nm'') ∧
    ∀ m, viewSize (mem.drop (wrap (sizeofRawVector + wrap (k * Flat.width dtime)))) = some m →
      m % z.a.v.length = 0 → m / z.a.v.length = k → ∃ a', z.a.appendVector Double.less heap
        (mem.drop (wrap (sizeofRawVector + wrap (k * Flat.width dtime)))) = .ok () a'

/-- Rows are only cut off, from the index and the data alike. -/
def CanResize (heap : Allocator) (sz frm : Nat) (z : zts) : Prop :=
  frm + sz ≤ z.idx.nrows ∧ (z.a.v = [] → z.a.dim.v = []) ∧
    ((∃ e cs, resizeCols sz frm z.idx.v = .throw e cs) ∨
      (∃ i, z.idx.resize dtime.less heap sz frm = .ok () i) ∧
        ∃ a', z.a.resize Double.less heap sz frm = .ok () a')

/-- Columns of `u` are bound in as many rows, or refused for their extents. -/
def CanBindColumns (heap : Allocator) (u : Array Double) (d : Nat) (pre : List UInt8) (z : zts) :
    Prop :=
  u.Shaped ∧ u.dim.v ≠ [] ∧ (z.a.dim.v = [] → u.nrows = z.idx.nrows) ∧
    z.a.v.length + u.v.length < 2 ^ 31 ∧
    (checkdims z.a.dim.v u.dim.size (fun j => (u.dim.v[j]?).map UInt64.toNat) d = some true →
      ∃ a', Array.abind Double.less heap u d pre z.a = .ok () a')

/-- The rows of `u` come after those of `z`, neither data is a vector of more or fewer
rows than one, and both binds return. -/
def CanBindRows (heap : Allocator) (u : zts) (pre : List UInt8) (z : zts) : Prop :=
  Before z u ∧ z.idx.nrows + u.idx.nrows < 2 ^ 64 ∧ u.a.dim.v ≠ [] ∧
    (z.a.dim.v = [] → z.idx.nrows = 0) ∧
    (z.a.dim.size = 1 → z.a.nrows = 1) ∧ (u.a.dim.size = 1 → u.a.nrows = 1) ∧
    (∃ i, Array.concat dtime.less heap u.idx [] z.idx = .ok () i) ∧
    ∃ a', Array.abind Double.less heap u.a 0 pre z.a = .ok () a'

/-- The step keeps inside its storage, and its update is not left half done. -/
def Op.Safe (op : Op) (z : zts) : Prop :=
  op.run z ≠ .fault ∧
  match op with
  | .append heap mem => z.Hosted heap ∧ mem.length < 2 ^ 62 ∧ z.Meets heap mem
  | .appendVector heap mem => z.CanAppendVector heap mem
  | .resize heap sz frm => z.CanResize heap sz frm
  | .abind heap u d pre =>
    if d = 0 then CanBindRows heap u pre z else z.CanBindColumns heap u.a d pre
  | .abindSelf heap d =>
    d = 0 → z.idx.nrows = 0 ∧ ∃ i, Array.concat dtime.less heap z.idx [] z.idx = .ok () i
  | .abindArray heap u d pre => d ≠ 0 → z.CanBindColumns heap u d pre

/-! ## The invariant -/

/-- What every step keeps: both arrays have their shapes, too. -/
structure Inv (z : zts) : Prop where
  idx : z.idx.Shaped
  a : z.a.Shaped
  vector : z.idx.dim.size = 1
  rows : z.a.dim.v ≠ [] → z.a.nrows = z.idx.nrows
  ascending : ∀ c ∈ z.idx.v, c.v.IsChain fun s t => dtime.less s t = true

theorem Inv.column {z : zts} (h : z.Inv) : ∃ c, z.idx.v = [c] := by
  have hlen := h.idx.cols
  obtain ⟨d, hd⟩ := List.length_eq_one_iff.1 h.vector
  rw [hd] at hlen
  exact List.length_eq_one_iff.1 hlen

theorem Inv.dim {z : zts} (h : z.Inv) : ∃ n, z.idx.dim.v = [n] := List.length_eq_one_iff.1 h.vector

theorem Inv.sound {z : zts} (h : z.Inv) : z.Sound := by
  obtain ⟨c, hc⟩ := h.column
  have hmem : c ∈ z.idx.v := by rw [hc]; exact List.mem_singleton_self c
  exact ⟨⟨c, hc, h.idx.rows c hmem, h.ascending c hmem⟩, h.rows, h.a.rows⟩

/-- A null array has no columns. -/
theorem Inv.null {z : zts} (h : z.Inv) (hnil : z.a.dim.v = []) : z.a.v = [] := by
  have hlen := h.a.cols
  rw [hnil] at hlen
  exact List.eq_nil_of_length_eq_zero hlen

theorem checkDims_eq_none {a : Array Double} {i : Array dtime} (h : checkDims a i = none) :
    i.dim.size = 1 ∧ (a.dim.size ≠ 0 → i.size = a.nrows) := by
  rw [checkDims] at h
  by_cases hvec : i.dim.size = 1
  · rw [if_neg (by rw [not_not]; exact hvec)] at h
    refine ⟨hvec, fun hne => ?_⟩
    rw [if_pos hne] at h
    by_contra hsize
    rw [if_pos hsize] at h
    cases h
  · rw [if_pos hvec] at h
    cases h

/-- What the end of a constructor checks, of two arrays with their shapes. -/
theorem finish_inv {order : Bool} {a : Array Double} {i : Array dtime} {z : zts} {u : Unit}
    (ha : a.Shaped) (hi : i.Shaped)
    (hasc : ∀ c ∈ i.v, (order = true → c.ordered = true) →
      c.v.IsChain fun s t => dtime.less s t = true)
    (h : finish order a i = .ok z u) : z.Inv := by
  unfold finish at h
  split at h
  · cases h
  · cases h
  next i' hdrop =>
  obtain ⟨hi', hnr, hv⟩ := drop_eq_ok hi hdrop
  split at h
  · cases h
  next hcheck =>
  obtain ⟨hvec, hsize⟩ := checkDims_eq_none hcheck
  have hordered : order = true → i'.isOrdered = true := by
    intro ho
    split at h
    · cases h
    · next hflag =>
        rwa [ho, Bool.true_and, Bool.not_eq_true, Bool.not_eq_false'] at hflag
  have hz : z = { a, idx := i' } := by
    split at h
    · cases h
    · cases h
      rfl
  subst hz
  refine ⟨hi', ha, hvec, ?_, ?_⟩
  · intro hne
    obtain ⟨d, hd⟩ := List.length_eq_one_iff.1 hvec
    have hlen := hi'.cols
    rw [hd] at hlen
    have hnz : a.dim.size ≠ 0 := fun h0 => hne (List.eq_nil_of_length_eq_zero h0)
    have hsize := hsize hnz
    rw [Array.size, hlen] at hsize
    show a.nrows = i'.nrows
    have hlt : i'.nrows < 2 ^ 64 := by
      rw [nrows, hd]
      exact d.toNat_lt
    rw [← hsize]
    show wrap (1 * i'.nrows) = i'.nrows
    rw [Nat.one_mul, wrap_of_lt hlt]
  · intro c hc
    have hall := fun ho => List.all_eq_true.1 (hordered ho) c hc
    rw [hv] at hc
    exact hasc c hc hall

theorem shaped_copy {T : Type} [Raw T] {a a' : Array T} {allocf : AllocFactory} {u : Unit}
    (ha : a.Shaped) (h : a.copy allocf = .ok a' u) : a'.Shaped := by
  obtain ⟨hd, hn, hv⟩ := Array.copy_eq_ok h
  exact ha.congr hd hn (content_eq_iff.1 hv).1

theorem shaped_ofFiles {T : Type} {files : Files T} {allocf : AllocFactory} {a : Array T} {u : Unit}
    (hf : Filed files) (h : Array.ofFiles files allocf = .ok a u) :
    a.Shaped ∧ ∀ c ∈ a.v, ∃ j, files.column j = some c := by
  rw [Array.ofFiles, Outcome.bind_eq_ok] at h
  obtain ⟨dim, _, hdim, h⟩ := h
  rw [Outcome.bind_eq_ok] at h
  obtain ⟨v, _, hcols, h⟩ := h
  rw [Outcome.bind_eq_ok] at h
  obtain ⟨names, _, hnames, h⟩ := h
  cases h
  have hmapped {U : Type} {file : Option (Vector U)} {s : Vector U} {w : Unit}
      (hm : mapped file = .ok s w) : file = some s := by
    cases file with
    | none => cases hm
    | some s' =>
        cases hm
        rfl
  have hdim := hmapped hdim
  have hall := Outcome.collect_eq_ok hcols
  have hfew := hf.few dim hdim
  have hfrom : ∀ c ∈ v, ∃ j, files.column j = some c := by
    intro c hc
    obtain ⟨i, hi, rfl⟩ := List.getElem_of_mem hc
    have hmk := (List.forall₂_iff_get.1 hall).2 i (by rw [hall.length_eq]; exact hi) hi
    rw [List.get_eq_getElem, List.getElem_map] at hmk
    exact ⟨_, hmapped hmk⟩
  have hlen : v.length = colsOf dim.v := by
    rw [← hall.length_eq, List.length_map, List.length_range, ncolsOf_eq (by omega)]
  refine ⟨⟨hlen, by rw [hlen]; exact hfew, ?_, ?_⟩, hfrom⟩
  · intro c hc
    obtain ⟨j, hj⟩ := hfrom c hc
    rw [hf.rows dim j c hdim hj, nrows]
    cases dim.v <;> rfl
  · rw [← (Outcome.collect_eq_ok hnames).length_eq, List.length_map, List.length_zipIdx]
    rfl

/-- The constructors. -/
theorem make_inv {m : Make} {z : zts} (hm : m.Safe) (h : m.run = .ok z ()) : z.Inv := by
  cases m with
  | rsv heap dim cnames =>
      rw [Make.run, ofRsv, Outcome.bind_eq_ok] at h
      obtain ⟨a, _, ha, h⟩ := h
      obtain ⟨hfew, hzero⟩ := hm
      split at h
      · cases h
      next d ds hd =>
      obtain rfl := hzero d (by rw [hd]; rfl)
      rw [Outcome.bind_eq_ok] at h
      obtain ⟨idim, _, hidim, h⟩ := h
      rw [Outcome.bind_eq_ok] at h
      obtain ⟨i, _, hi, h⟩ := h
      have hidv : idim.v = [0] := by
        obtain ⟨b, -, -, heq⟩ := construct_eq_ok hidim
        rw [heq]
      have hshape {T : Type} [Raw T] {b : Array T} {dm : Vector idx_type}
          {nms : List (Vector ZString)} {f : AllocFactory} {w : Unit} (hb : Array.ofRsv dm nms f = .ok b w)
          (hc : colsOf dm.v < 2 ^ 31) (h0 : dm.v.head? = some 0) : b.Shaped := by
        obtain ⟨hbd, hblen, hbrows, hbn⟩ := ofRsv_eq_ok hb
        rw [ncolsOf_eq (by omega)] at hblen
        obtain ⟨ds, hds⟩ := List.head?_eq_some_iff.1 h0
        refine ⟨by rw [hblen, hbd], by rw [hblen]; exact hc, ?_, by rw [hbn, Vector.size, Vector.size, hbd]⟩
        rw [nrows, hbd, hds]
        exact hbrows
      have hishape : i.Shaped := hshape hi (by rw [hidv]; decide) (by rw [hidv]; rfl)
      refine finish_inv (hshape ha hfew (by rw [hd]; rfl)) hishape ?_ h
      intro c hc _
      have hzero := (ofRsv_eq_ok hi).2.2.1 c hc
      rw [List.eq_nil_of_length_eq_zero hzero]
      exact List.isChain_nil
  | parts heap dim idx vals cnames allocf_a allocf_idx =>
      rw [Make.run, ofParts, Outcome.bind_eq_ok] at h
      obtain ⟨a, _, ha, h⟩ := h
      obtain ⟨hfew, hlt⟩ := hm
      rw [Outcome.bind_eq_ok] at h
      obtain ⟨idim, _, hidim, h⟩ := h
      rw [Outcome.bind_eq_ok] at h
      obtain ⟨i, _, hi, h⟩ := h
      have hidv : idim.v = [UInt64.ofNat idx.size] := by
        obtain ⟨b, -, -, heq⟩ := construct_eq_ok hidim
        rw [heq]
      have hishape : i.Shaped :=
        ofVector_shaped dtime.less (by rw [hidv]; show 1 < 2 ^ 31; norm_num) hi
      refine finish_inv (ofVector_shaped Double.less hfew ha) hishape ?_ h
      intro c hc hflag
      obtain ⟨c', hc', -, hchain⟩ := ofVector_vector dtime.less hidv hlt hi
      rw [hc', List.mem_singleton] at hc
      subst hc
      exact hchain (hflag rfl)
  | arrays idx a allocf_a allocf_idx =>
      rw [Make.run, ofArrays, Outcome.bind_eq_ok] at h
      obtain ⟨a', _, ha, h⟩ := h
      rw [Outcome.bind_eq_ok] at h
      obtain ⟨i, _, hi, h⟩ := h
      obtain ⟨hashape, hishape, hflags⟩ := hm
      refine finish_inv (shaped_copy hashape ha) (shaped_copy hishape hi) ?_ h
      intro c hc hflag
      have hcont := (Array.copy_eq_ok hi).2.2
      have hmem : (c.v, c.ordered) ∈ content idx.v := by
        rw [← hcont]
        exact List.mem_map_of_mem hc
      obtain ⟨c', hc', heq⟩ := List.mem_map.1 hmem
      obtain ⟨hv, ho⟩ := Prod.mk.inj heq
      rw [← hv]
      exact hflags c' hc' (by rw [ho]; exact hflag rfl)
  | files files_a files_idx allocf_a allocf_idx =>
      rw [Make.run, ofFiles, Outcome.bind_eq_ok] at h
      obtain ⟨a, _, ha, h⟩ := h
      rw [Outcome.bind_eq_ok] at h
      obtain ⟨i, _, hi, h⟩ := h
      obtain ⟨hfa, hfi, hflags⟩ := hm
      obtain ⟨hishape, hfrom⟩ := shaped_ofFiles hfi hi
      refine finish_inv (shaped_ofFiles hfa ha).1 hishape ?_ h
      intro c hc hflag
      obtain ⟨j, hj⟩ := hfrom c hc
      exact hflags j c hj (hflag rfl)

/-- Copies and row subsets. -/
theorem derive_inv {d : Derive} {z z' : zts} (hz : z.Inv) (hd : d.Safe z)
    (h : d.run z = .ok z' ()) : z'.Inv := by
  cases d with
  | copy allocf_a allocf_idx =>
      rw [Derive.run, copy, Outcome.bind_eq_ok] at h
      obtain ⟨a', _, ha, h⟩ := h
      rw [Outcome.bind_eq_ok] at h
      obtain ⟨i, _, hi, h⟩ := h
      refine finish_inv (shaped_copy hz.a ha) (shaped_copy hz.idx hi) ?_ h
      intro c hc _
      have hv := (content_eq_iff.1 (Array.copy_eq_ok hi).2.2).1
      have hmem : c.v ∈ z.idx.v.map (·.v) := by
        rw [← hv]
        exact List.mem_map_of_mem hc
      obtain ⟨c', hc', heq⟩ := List.mem_map.1 hmem
      rw [← heq]
      exact hz.ascending c' hc'
  | subsetRows heap n frm =>
      rw [Derive.run, subsetRows, Outcome.bind_eq_ok] at h
      obtain ⟨i, _, hi, h⟩ := h
      rw [Outcome.bind_eq_ok] at h
      obtain ⟨a, _, ha, h⟩ := h
      obtain ⟨hne, hsum⟩ := hd
      obtain ⟨m, hm⟩ := hz.dim
      obtain ⟨hishape, -, -, hiv⟩ := subsetRows_eq_ok dtime.less hz.idx
        (by rw [hm]; exact List.cons_ne_nil m []) hsum hi
      obtain ⟨hashape, -, -, -⟩ := subsetRows_eq_ok Double.less hz.a hne hsum ha
      refine make_inv (m := .arrays i a (memFactory heap) (memFactory heap))
        ⟨hashape, hishape, ?_⟩ h
      intro c hc _
      have hmem : c.v ∈ i.v.map (·.v) := List.mem_map_of_mem hc
      rw [hiv] at hmem
      obtain ⟨c', hc', heq⟩ := List.mem_map.1 hmem
      rw [← heq]
      exact ((hz.ascending c' hc').drop frm).take n

end zts

end Ztsdb.Arr
