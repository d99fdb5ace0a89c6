import Mathlib
import Ztsdb.Arr.ZtsReach
import Ztsdb.Lib.Raises

/-!
# What a refused `abind` leaves

`abind` looks at the extents before it changes anything, so an array whose extents do not fit
is as it was. But a vector that rows are bound to is turned into a row first: when the other
array does not fit, it stays turned.

To tell the refusal from what else is thrown, no other command of `abind` throws it.
-/

namespace Ztsdb.Arr

open Ztsdb.Lib Ztsdb.Lib.Outcome

/-- What `abind` throws when the extents do not fit. -/
def refusal : Exn := .rangeError "incorrect dimensions for abind"

/-- Any other exception. -/
def Other (e : Exn) : Prop := e ≠ refusal

instance (e : Exn) : Decidable (Other e) := inferInstanceAs (Decidable (_ ≠ _))

theorem other_dimnames (s : String) : Other (.rangeError ("length of 'dimnames' [" ++ s)) := by
  intro heq
  have hlist := congrArg String.toList (Exn.rangeError.inj heq)
  have hl : "length of 'dimnames' [".toList = 'l' :: "ength of 'dimnames' [".toList := by decide
  have hi : "incorrect dimensions for abind".toList =
      'i' :: "ncorrect dimensions for abind".toList := by decide
  rw [String.toList_append, hl, hi, List.cons_append] at hlist
  exact absurd (List.cons.inj hlist).1 (by decide)

/-! ## The exceptions of a vector -/

namespace Vector

variable {T : Type} (O : T → T → Bool)

theorem setv_raises (i : Nat) (t : T) (s : Vector T) : (s.setv O i t).Raises Other := by
  rw [setv]
  split
  · exact raises_throw (by decide)
  · exact raises_ok

variable [Raw T]

theorem construct_raises (what : String) (alloc : Option Allocator) (capacity : Nat)
    (elts : Allocator → List T) (ordered : Bool) :
    (construct what alloc capacity elts ordered).Raises Other := by
  unfold construct
  split
  · exact raises_throw nofun
  · simp only
    split
    · split
      · exact raises_ok
      · exact raises_fault
    · exact raises_throw nofun

theorem place_raises (x : T) (s : Vector T) : (s.place O x).Raises Other := by
  rw [place]
  split
  · exact raises_ok
  · exact raises_fault

theorem push_back_raises (x : T) (s : Vector T) : (s.push_back O x).Raises Other := by
  rw [push_back]
  split
  · split
    · exact raises_throw (by decide)
    · simp only
      split
      · exact place_raises O x _
      · exact raises_throw (by decide)
  · exact place_raises O x s

theorem pushAll_raises (xs : List T) (s : Vector T) : (s.pushAll O xs).Raises Other := by
  induction xs generalizing s with
  | nil => exact raises_ok
  | cons x xs ih => exact (push_back_raises O x s).bind fun _ s => ih s

theorem resize_raises (n frm : Nat) (s : Vector T) : (s.resize n frm).Raises Other := by
  rw [resize]
  split
  · exact raises_throw (by decide)
  · split
    · split
      · exact raises_throw (by decide)
      · simp only
        split
        · split
          · exact raises_ok
          · exact raises_fault
        · exact raises_throw (by decide)
    · exact raises_ok

theorem init_raises (count : Nat) (value : T) (s : Vector T) :
    (s.init O count value).Raises Other := by
  refine (resize_raises count 0 s).bind fun _ s => ?_
  split
  · exact raises_ok
  · exact raises_fault

theorem insertEnd_raises (xs : List T) (s : Vector T) : (s.insertEnd O xs).Raises Other := by
  rw [insertEnd]
  split
  · exact raises_ok
  · refine (resize_raises _ 0 s).bind fun _ s' => ?_
    split
    · exact raises_ok
    · exact raises_fault

end Vector

/-! ## The exceptions of the names -/

namespace Dname

open Ztsdb.Arr.Vector

theorem ofNames_raises (n : Nat) (names : Vector ZString) : (ofNames n names).Raises Other := by
  rw [ofNames]
  split
  · exact raises_throw (by decide)
  · exact raises_ok

theorem ofExtent_raises (heap : Allocator) (n : Nat) : (ofExtent heap n).Raises Other := by
  have hfill := construct_raises "Vector<T>: null allocator" (some heap) (growCapacity 0)
    (fun _ => List.replicate 0 ZString.empty) (if 0 > 1 then ZString.less .empty .empty else true)
  rw [ofExtent]
  split
  · exact raises_ok
  · next e _ he => exact raises_throw (hfill e _ he)
  · exact raises_fault

theorem copy_raises (alloc : Allocator) (d : Dname) : (d.copy alloc).Raises Other :=
  (construct_raises _ _ _ _ _).bind fun _ _ => raises_ok

theorem prefixFrom_raises (pre : List UInt8) (k : Nat) (names : Vector ZString) :
    (prefixFrom pre k names).Raises Other := by
  induction k generalizing names with
  | zero => exact raises_ok
  | succ k ih =>
      rw [prefixFrom]
      split
      · exact (setv_raises _ _ _ names).bind fun _ names => ih names
      · exact raises_fault

theorem addprefix_raises (pre : List UInt8) (d : Dname) :
    Raises Other <| addprefix pre d := by
  unfold addprefix
  split
  · exact raises_ok
  · refine (Raises.bind ?_ fun _ names => prefixFrom_raises pre _ names).mapState
    split
    · exact init_raises _ _ _ _
    · exact raises_ok

theorem nostrings_other {heap : Allocator} {n : Nat} {e : Exn}
    (h : nostrings heap n = .error e) : Other e := by
  rw [nostrings] at h
  split at h
  · cases h
    exact nofun
  · split at h
    · cases h
    · cases h
      exact nofun

theorem addafter_raises (heap : Allocator) (dn d : Dname) :
    (addafter heap dn d).Raises Other := by
  rw [addafter]
  refine (Raises.mapState ?_).bind fun _ d' => raises_ok
  split
  · split
    · exact raises_ok
    · exact (init_raises _ _ _ _).bind fun _ names => insertEnd_raises _ _ names
  · split
    · split
      · exact insertEnd_raises _ _ _
      · next e he => exact raises_throw (nostrings_other he)
    · exact insertEnd_raises _ _ _

end Dname

/-! ## The exceptions of an array -/

namespace Array

open Ztsdb.Arr.Vector

variable {T : Type} (O : T → T → Bool)

theorem takeNames_raises (heap : Allocator) (us : List Dname) (d i : Nat) (nms : List Dname) :
    (takeNames heap us d i nms).Raises Other := by
  induction nms generalizing i with
  | nil => exact raises_ok
  | cons nm nms ih =>
      rw [takeNames]
      split
      · next u _ =>
          split
          · split
            · exact (ih (i + 1)).mapState
            · next e _ he => exact raises_throw (Dname.copy_raises heap u e _ he)
            · exact raises_fault
          · exact (ih (i + 1)).mapState
      · exact (ih (i + 1)).mapState

theorem buildName_raises (allocf : AllocFactory) (names_p : List (Vector ZString)) (j : Nat)
    (d : idx_type) : (buildName allocf names_p j d).Raises Other := by
  have hunnamed : ((Vector.ofFill ZString.less 0 ZString.empty
      (some (allocf.named s!"names{j}"))).bind fun names _ =>
        Dname.ofNames d.toNat names).Raises Other :=
    (construct_raises _ _ _ _ _).bind fun names _ => Dname.ofNames_raises _ names
  rw [buildName]
  split
  · exact hunnamed
  · split
    · split
      · rw [String.append_assoc]
        exact raises_throw (other_dimnames _)
      · exact (construct_raises _ _ _ _ _).bind fun names _ => Dname.ofNames_raises _ names
    · exact hunnamed

theorem buildNames_raises (dim : List idx_type) (allocf : AllocFactory)
    (names_p : List (Vector ZString)) : (buildNames dim allocf names_p).Raises Other := by
  rw [buildNames]
  split
  · rw [String.append_assoc, String.append_assoc, String.append_assoc]
    exact raises_throw (other_dimnames _)
  · refine raises_collect fun o ho => ?_
    obtain ⟨⟨d, j⟩, -, rfl⟩ := List.mem_map.mp ho
    exact buildName_raises allocf names_p j d

theorem swapCols_raises (k : Nat) (q : Cursor) (v : List (Vector T)) :
    (swapCols k q v).Raises Other := by
  induction k generalizing q v with
  | zero => exact raises_ok
  | succ k ih =>
      rw [swapCols]
      split
      · exact ih _ _
      · exact raises_fault

theorem setDim_raises (d : Nat) (f : idx_type → idx_type) (a : Array T) :
    (a.setDim d f).Raises Other := by
  rw [setDim]
  split
  · exact raises_fault
  · exact (setv_raises _ _ _ _).mapState

theorem onName_raises {f : Dname → Outcome Exn Dname Unit} (hf : ∀ nm, (f nm).Raises Other)
    (d : Nat) (a : Array T) : (a.onName d f).Raises Other := by
  rw [onName]
  split
  · exact raises_fault
  · exact (hf _).mapState

theorem newNames_raises (heap : Allocator) (u : Array T) (d : Nat) (pre : List UInt8) :
    (newNames heap u d pre).Raises Other := by
  refine Raises.bind ?_ fun newnames _ => ?_
  · split
    · split
      · exact Dname.copy_raises heap _
      · exact raises_fault
    · exact Dname.ofExtent_raises heap 1
  · split
    · exact raises_ok
    · next e _ he => exact raises_throw (Dname.addprefix_raises pre newnames e _ he)
    · exact raises_fault

theorem pushDim_raises (n : Nat) (a : Array T) : (a.pushDim n).Raises Other :=
  (push_back_raises lessIdx _ _).mapState

theorem pushName_raises (j n : Nat) (a : Array T) : (a.pushName j n).Raises Other := by
  have hnames : ((Vector.ofFill ZString.less 0 ZString.empty
      (some (a.allocf.named s!"names{j}"))).bind fun names _ =>
        Dname.ofNames n names).Raises Other :=
    (construct_raises _ _ _ _ _).bind fun names _ => Dname.ofNames_raises n names
  rw [pushName]
  split
  · exact raises_ok
  · next e _ he => exact raises_throw (hnames e _ he)
  · exact raises_fault

theorem addDims_raises (namesFirst : Bool) (j : Nat) (ns : List Nat) (a : Array T) :
    (a.addDims namesFirst j ns).Raises Other := by
  induction ns generalizing j a with
  | nil => exact raises_ok
  | cons n ns ih =>
      rw [addDims]
      refine Raises.bind ?_ fun _ a => ih (j + 1) a
      split
      · exact (pushName_raises j n a).bind fun _ a => pushDim_raises n a
      · exact (pushDim_raises n a).bind fun _ a => pushName_raises j n a

variable [Raw T]

theorem newCols_raises (allocf : AllocFactory) (d j k : Nat) (cs : List (Vector T)) :
    (newCols allocf d j k cs).Raises Other := by
  induction k generalizing j cs with
  | zero => exact raises_ok
  | succ k ih =>
      rw [newCols]
      split
      · exact ih _ _
      · next e _ he => exact raises_throw (construct_raises _ _ _ _ _ e _ he)
      · exact raises_fault

theorem bindRows_raises (allocf : AllocFactory) (j : Nat) (us cs : List (Vector T)) :
    (bindRows O allocf j us cs).Raises Other := by
  induction us generalizing j cs with
  | nil => cases cs <;> exact raises_ok
  | cons u us ih =>
      cases cs with
      | cons c cs =>
          rw [bindRows]
          split
          · exact (ih (j + 1) cs).mapState
          · next e _ he => exact raises_throw (pushAll_raises O _ _ e _ he)
          · exact raises_fault
      | nil =>
          rw [bindRows]
          split
          · split
            · exact (ih (j + 1) []).mapState
            · next e _ he => exact raises_throw (pushAll_raises O _ _ e _ he)
            · exact raises_fault
          · next e _ he => exact raises_throw (construct_raises _ _ _ _ _ e _ he)
          · exact raises_fault

theorem fillCols_raises (us : List (Vector T)) (k : Nat) (q : Cursor) (v : List (Vector T)) :
    (fillCols O us k q v).Raises Other := by
  induction k generalizing q v with
  | zero => exact raises_ok
  | succ k ih =>
      rw [fillCols]
      split
      · exact raises_fault
      · simp only
        split
        · split
          · exact ih _ _
          · exact raises_fault
        · split
          · exact ih _ _
          · next e _ he => exact raises_throw (pushAll_raises O _ _ e _ he)
          · exact raises_fault

theorem bindCols_raises (us : List (Vector T)) (ucols cols n : Nat) (q : Cursor)
    (v : List (Vector T)) : (bindCols O us ucols cols n q v).Raises Other := by
  induction n generalizing q v with
  | zero => exact raises_ok
  | succ n ih =>
      rw [bindCols]
      refine (fillCols_raises O us ucols _ v).bind fun q v => ?_
      split
      · exact (swapCols_raises cols q v).bind fun q v => ih q v
      · exact ih q v

theorem bindColumns_raises (u : Array T) (d : Nat) (a : Array T) :
    (bindColumns O u d a).Raises Other := by
  rw [bindColumns]
  refine (newCols_raises _ _ _ _ _).mapState.bind fun _ a => ?_
  split
  · exact raises_fault
  · exact (bindCols_raises O _ _ _ _ _ _).mapState

theorem cutColumn_raises (v_p : Vector T) (d : Nat) (allocf : AllocFactory) (n : Nat) :
    (cutColumn O v_p d allocf n).Raises Other := by
  rw [cutColumn]
  split
  · exact construct_raises _ _ _ _ _
  · exact construct_raises _ _ _ _ _
  · exact construct_raises _ _ _ _ _

theorem ofVector_raises (dim_p : Vector idx_type) (v_p : Vector T)
    (names_p : List (Vector ZString)) (allocf : AllocFactory) :
    (ofVector O dim_p v_p names_p allocf).Raises Other := by
  rw [ofVector]
  refine (construct_raises _ _ _ _ _).bind fun dim _ => ?_
  simp only
  split
  · exact raises_throw (by decide)
  · refine Raises.bind (raises_collect fun o ho => ?_) fun v _ => ?_
    · obtain ⟨n, -, rfl⟩ := List.mem_map.mp ho
      exact cutColumn_raises O _ _ _ n
    · exact (buildNames_raises _ _ _).bind fun names _ => raises_ok

theorem transpose_raises (heap : Allocator) (t : Array T) :
    (transpose O heap t).Raises Other := by
  rw [transpose]
  split
  · refine (construct_raises _ _ _ _ _).bind fun dim _ => ?_
    refine (construct_raises _ _ _ _ _).bind fun none _ => ?_
    exact (construct_raises _ _ _ _ _).bind fun v_p _ => ofVector_raises O _ _ _ _
  · exact raises_fault

theorem copy_raises (u : Array T) (allocf : AllocFactory) : (u.copy allocf).Raises Other := by
  refine (construct_raises _ _ _ _ _).bind fun dim _ => ?_
  refine Raises.bind (raises_collect fun o ho => ?_) fun v _ =>
    Raises.bind (raises_collect fun o ho => ?_) fun names _ => raises_ok
  · obtain ⟨⟨c, i⟩, -, rfl⟩ := List.mem_map.mp ho
    exact construct_raises _ _ _ _ _
  · obtain ⟨⟨nm, i⟩, -, rfl⟩ := List.mem_map.mp ho
    refine (construct_raises _ _ _ _ _).bind fun names _ => ?_
    split
    · exact Dname.ofNames_raises _ names
    · exact raises_throw nofun

/-! ## Refusals -/

/-- The refusal comes from the check, with nothing changed. -/
theorem abindRest_refused {heap : Allocator} {u a a' : Array T} {d : Nat} {pre : List UInt8} :
    abindRest O heap u d pre a = .throw refusal a' ↔
      checkdims a.dim.v u.dim.size (fun j => (u.dim.v[j]?).map UInt64.toNat) d = some false ∧
        a' = a := by
  constructor
  · intro h
    unfold abindRest at h
    split at h
    · cases h
    · next hcheck =>
        cases h
        exact ⟨hcheck, rfl⟩
    · next hcheck =>
        have hother : Other refusal := by
          refine Raises.bind ?_ (fun _ b => Raises.bind ?_ fun _ b => Raises.bind ?_
            fun _ b => ?_) refusal a' h
          · split
            · exact addDims_raises _ _ _ _
            · exact raises_ok
          · exact addDims_raises _ _ _ _
          · split
            · exact (bindRows_raises O _ _ _ _).mapState
            · exact bindColumns_raises O u d b
          · split
            · exact raises_fault
            · next e _ he => exact raises_throw (newNames_raises heap u d pre e _ he)
            · next newnames _ _ =>
                refine (onName_raises (fun nm => Dname.addafter_raises heap newnames nm) d b).bind
                  fun _ b => ?_
                refine (takeNames_raises heap u.names d 0 b.names).mapState.bind fun _ b => ?_
                exact setDim_raises d _ b
        exact absurd rfl hother
  · intro h
    unfold abindRest
    rw [h.1, h.2]
    rfl

/-- The extents of an array whose rows go under a row of `n`. -/
def RowFits (n : idx_type) : List idx_type → Prop
  | [] => True
  | [m] => m = n
  | _ :: m :: ms => m = n ∧ ∀ k ∈ ms, k = 1

instance (n : idx_type) : (l : List idx_type) → Decidable (RowFits n l)
  | [] => inferInstanceAs (Decidable True)
  | [m] => inferInstanceAs (Decidable (m = n))
  | _ :: m :: ms => inferInstanceAs (Decidable (m = n ∧ ∀ k ∈ ms, k = 1))

theorem checkOnes_eq {l ms : List idx_type} {i j : Nat} (hi : i < j) (hms : l.drop j = ms) :
    checkOnes (fun j => (l[j]?).map UInt64.toNat) i j ms.length =
      some (decide (∀ k ∈ ms, k = 1)) := by
  induction ms generalizing j with
  | nil => simp [checkOnes]
  | cons m ms ih =>
      have hm : l[j]? = some m := by
        have h0 := congrArg (fun l => l[0]?) hms
        simp only [List.getElem?_drop, Nat.add_zero, List.getElem?_cons_zero] at h0
        exact h0
      have hrest : l.drop (j + 1) = ms := by
        rw [← List.drop_drop, hms]
        rfl
      have hone : m.toNat ≠ 1 ↔ m ≠ 1 := by
        rw [Ne, Ne, ← UInt64.toNat_inj]
        rfl
      rw [List.length_cons, checkOnes, if_neg (by omega), hm, Option.map_some]
      simp only
      by_cases h : m = 1
      · rw [if_neg (by rw [hone]; exact not_not.mpr h), ih (by omega) hrest]
        simp only [List.forall_mem_cons, h, true_and]
      · rw [if_pos (hone.mpr h)]
        simp only [List.forall_mem_cons, h, false_and, decide_false]

/-- The check of a row of `n` against extents that are not those of a vector. -/
theorem checkdims_row {n : idx_type} {l : List idx_type} (hl : l.length ≠ 1) :
    checkdims [1, n] l.length (fun j => (l[j]?).map UInt64.toNat) 0 = some false ↔
      ¬RowFits n l := by
  match l, hl with
  | [], _ => simp [checkdims, RowFits]
  | [m], hl => exact absurd rfl hl
  | x :: m :: ms, _ =>
      have hup : min ([1, n] : List idx_type).length (x :: m :: ms).length = 2 := by simp
      have hones := @checkOnes_eq (x :: m :: ms) ms 0 2 (by omega) rfl
      have hne : n.toNat ≠ m.toNat ↔ m ≠ n := by
        rw [ne_comm, Ne, UInt64.toNat_inj]
      have hsame : checkSame (fun j => ((x :: m :: ms)[j]?).map UInt64.toNat) 0 0 2 [1, n] =
          some (decide (m = n)) := by
        rw [checkSame, if_pos rfl, checkSame, if_neg (by decide)]
        simp only [Nat.zero_add, List.getElem?_cons_succ, List.getElem?_cons_zero, Option.map_some,
          hne]
        split
        · next h => rw [decide_eq_false h]
        · next h =>
            rw [decide_eq_true (not_not.mp h)]
            rfl
      rw [checkdims, if_neg (by simp)]
      by_cases hm : m = n
      · have hnone : checkOnes (fun j => (([1, n] : List idx_type)[j]?).map UInt64.toNat) 0 2
            (([1, n] : List idx_type).length - 2) = some true := rfl
        rw [decide_eq_true hm] at hsame
        simp only [hup, hsame, hnone]
        rw [show (x :: m :: ms).length - 2 = ms.length from rfl, hones, Option.some_inj,
          decide_eq_false_iff_not, RowFits, and_iff_right hm]
      · rw [decide_eq_false hm] at hsame
        simp only [hup, hsame, RowFits, hm, false_and, not_false_eq_true]

theorem transpose_dims {heap : Allocator} {t r : Array T} {w : Unit}
    (h : transpose O heap t = .ok r w) :
    ∃ n ns, t.dim.v = n :: ns ∧ r.dim.v = [1, n] := by
  rw [transpose] at h
  split at h
  · next c cs nm nms n ns hc hnm hn =>
      rw [Outcome.bind_eq_ok] at h
      obtain ⟨dim, _, hdim, h⟩ := h
      rw [Outcome.bind_eq_ok] at h
      obtain ⟨none, _, hnone, h⟩ := h
      rw [Outcome.bind_eq_ok] at h
      obtain ⟨v_p, _, hv, h⟩ := h
      obtain ⟨alloc, -, -, hdv⟩ := construct_eq_ok hdim
      obtain ⟨hd, -⟩ := ofVector_eq_ok O h
      exact ⟨n, ns, hn, by rw [hd, hdv]⟩
  · cases h

/-- The elements, the extents and the names of two arrays are the same. -/
def SameContents (a a' : Array T) : Prop :=
  a.v.map (·.v) = a'.v.map (·.v) ∧ a.dim.v = a'.dim.v ∧
    a.names.map (fun nm => (nm.sz, nm.names.v)) = a'.names.map fun nm => (nm.sz, nm.names.v)

/-- A refused `abind` leaves the array as it was. -/
def RefusalKeeps (heap : Allocator) (u : Array T) (d : Nat) (pre : List UInt8) (a : Array T) :
    Prop :=
  ∀ a', abind O heap u d pre a = .throw refusal a' → SameContents a' a

/-- There is memory for the two arrays as `abind` takes them when it turns the first. -/
def Turns (heap : Allocator) (u a : Array T) : Prop :=
  (∃ r, transpose O heap a = .ok r ()) ∧
    ∃ r, (if u.dim.size = 1 then transpose O heap u else u.copy (memFactory heap)) = .ok r ()

/-- What is bound under a turned vector of `n`. -/
theorem turned_check {heap : Allocator} {u u' : Array T} {n : idx_type} {w : Unit}
    (h : (if u.dim.size = 1 then transpose O heap u else u.copy (memFactory heap)) = .ok u' w) :
    checkdims [1, n] u'.dim.size (fun j => (u'.dim.v[j]?).map UInt64.toNat) 0 = some false ↔
      ¬RowFits n u.dim.v := by
  split at h
  · next hone =>
      obtain ⟨m, ms, hm, hdim⟩ := transpose_dims O h
      rw [Vector.size, hm] at hone
      obtain rfl : ms = [] := List.eq_nil_of_length_eq_zero (Nat.succ.inj hone)
      rw [Vector.size, checkdims_row (by rw [hdim]; exact (Nat.succ_ne_self 1)), hdim, hm]
      simp [RowFits]
  · next hne =>
      obtain ⟨hdim, -⟩ := copy_eq_ok h
      rw [Vector.size, checkdims_row (by rw [hdim]; exact hne), hdim]

/-- Rows that do not fit under a vector leave it turned. -/
theorem abind_turned {heap : Allocator} {u u' a r : Array T} {n : idx_type} {w : Unit}
    (pre : List UInt8) (hn : a.dim.v = [n]) (hr : transpose O heap a = .ok r w)
    (hu : (if u.dim.size = 1 then transpose O heap u else u.copy (memFactory heap)) = .ok u' w)
    (hfit : ¬RowFits n u.dim.v) :
    abind O heap u 0 pre a = .throw refusal r ∧ r.dim.v ≠ a.dim.v := by
  obtain ⟨n', ns, hn', hdim⟩ := transpose_dims O hr
  obtain ⟨rfl, -⟩ := List.cons.inj (hn.symm.trans hn')
  constructor
  · rw [abind, if_pos ⟨rfl, by rw [Vector.size, hn]; rfl⟩, hr]
    simp only [hu]
    rw [abindRest_refused, hdim, turned_check O hu]
    exact ⟨hfit, rfl⟩
  · rw [hdim, hn]
    exact fun hnil => by cases hnil

/-- A refused `abind` leaves the array as it was, unless it was a vector that was turned for
rows that do not fit. -/
theorem refusalKeeps_iff {heap : Allocator} {u a : Array T} {d : Nat} {pre : List UInt8} :
    RefusalKeeps O heap u d pre a ↔
      (d = 0 → ∀ n, a.dim.v = [n] → Turns O heap u a → RowFits n u.dim.v) := by
  by_cases hvec : d = 0 ∧ a.dim.size = 1
  · obtain ⟨rfl, hone⟩ := hvec
    constructor
    · intro hkeeps _ n hn hturns
      by_contra hfit
      obtain ⟨⟨r, hr⟩, u', hu'⟩ := hturns
      obtain ⟨hthrow, hdim⟩ := abind_turned O pre hn hr hu' hfit
      exact hdim (hkeeps r hthrow).2.1
    · intro hcond a' hthrow
      rw [abind, if_pos ⟨rfl, hone⟩] at hthrow
      split at hthrow
      · cases hthrow
      · next e s he =>
          cases hthrow
          exact absurd rfl (transpose_raises O heap a refusal s he)
      · next r _ hr =>
          split at hthrow
          · cases hthrow
          · next e s he =>
              cases hthrow
              have hother : Other refusal := by
                split at he
                · exact transpose_raises O heap u refusal s he
                · exact copy_raises u (memFactory heap) refusal s he
              exact absurd rfl hother
          · next u' _ hu' =>
              obtain ⟨n, ns, hn, hdim⟩ := transpose_dims O hr
              rw [Vector.size, hn] at hone
              obtain rfl : ns = [] := List.eq_nil_of_length_eq_zero (Nat.succ.inj hone)
              rw [abindRest_refused, hdim, turned_check O hu'] at hthrow
              exact absurd (hcond rfl n hn ⟨⟨r, hr⟩, u', hu'⟩) hthrow.1
  · refine iff_of_true (fun a' hthrow => ?_) fun hd n hn => ?_
    · have hsame : a' = a := by
        rw [abind, if_neg hvec] at hthrow
        split at hthrow
        · split at hthrow
          · cases hthrow
          · next e s he =>
              cases hthrow
              rfl
          · exact ((abindRest_refused O).mp hthrow).2
        · exact ((abindRest_refused O).mp hthrow).2
      rw [hsame]
      exact ⟨rfl, rfl, rfl⟩
    · exact absurd ⟨hd, by rw [Vector.size, hn]; rfl⟩ hvec

/-- Three elements do not go under two, which are a row of extents 1 and 2 from then on. -/
theorem not_refusalKeeps :
    ¬∀ (heap : Allocator) (u a : Array idx_type) (d : Nat) (pre : List UInt8),
      a.Shaped → u.Shaped → RefusalKeeps lessIdx heap u d pre a := by
  intro h
  obtain ⟨a, u, r, u', ha, hu, hn, hr, hu', hfit⟩ : ∃ a u r u' : Array idx_type,
      ofVector lessIdx (zts.granted [2]) (zts.granted [5, 6]) []
        (memFactory (memallocator 1000000)) = .ok a () ∧
      ofVector lessIdx (zts.granted [3]) (zts.granted [7, 8, 9]) []
        (memFactory (memallocator 1000000)) = .ok u () ∧
      a.dim.v = [2] ∧ transpose lessIdx (memallocator 1000000) a = .ok r () ∧
      (if u.dim.size = 1 then transpose lessIdx (memallocator 1000000) u
        else u.copy (memFactory (memallocator 1000000))) = .ok u' () ∧ ¬RowFits 2 u.dim.v :=
    ⟨_, _, _, _, rfl, rfl, rfl, rfl, rfl, by decide⟩
  have hkeeps := h (memallocator 1000000) u a 0 [] (ofVector_shaped lessIdx (by decide) ha)
    (ofVector_shaped lessIdx (by decide) hu)
  obtain ⟨hthrow, hdim⟩ := abind_turned lessIdx [] hn hr hu' hfit
  exact hdim (hkeeps r hthrow).2.1

end Array

end Ztsdb.Arr
