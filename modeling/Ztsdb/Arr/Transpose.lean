import Mathlib
import Ztsdb.Arr.Bind
import Ztsdb.Arr.MakeShape
import Ztsdb.Lib.Loop

/-!
# The transpose of a matrix

The transpose is built over columns without contents that are flagged as ordered. It is filled
column by column, each from its first place on, and every write compares with the place before;
so at the end of a column its flag tells whether it ascends, whatever was in the storage.

The names of the two dimensions change places. A dimension without names has an empty vector of
them, and that is what the new dimension gets.
-/

namespace Ztsdb.Arr

open Ztsdb.Lib Ztsdb.Lib.Outcome

namespace Array

variable {T : Type} [Raw T] (O : T → T → Bool)

/-- `Array(noinit_tag, dim, names)`: columns of the extent, whatever their storage holds. -/
def ofNoinit (dim_p : Vector idx_type) (names_p : List (Vector ZString)) (allocf : AllocFactory) :
    Outcome Exn Unit (Array T) :=
  (dim_p.copy (some (allocf.named "dim"))).bind fun dim _ =>
    match dim.v with
    | [] => .ok { dim, v := [], names := [], allocf } ()
    | d :: _ =>
      (Outcome.collect ((List.range (ncolsOf dim.v)).map fun n =>
        Vector.ofNoinit d.toNat (some (allocf.column n)))).bind fun v _ =>
          (buildNames dim.v allocf names_p).bind fun names _ =>
            .ok { dim, v, names, allocf } ()

/-- `getdim(d)`. -/
def getdim (a : Array T) (d : Nat) : Outcome Exn Unit idx_type :=
  match a.dim.v[d]? with
  | some n => .ok n ()
  | none => .throw (.outOfRange "getdim: dimension out of range") ()

/-- `getnames(d)`. -/
def getnames (a : Array T) (d : Nat) : Outcome Exn Unit Dname :=
  match a.names[d]? with
  | some nm => .ok nm ()
  | none => .throw (.outOfRange "getnames: dimension out of range") ()

/-- `setv_checkbefore(a.getcol(j), k, t.getcol(k)[j])`. -/
def setFrom (t : Array T) (j k : Nat) (a : Array T) : Outcome Exn (Array T) Unit :=
  match a.v[j]?, t.v[k]? with
  | some c, some tc =>
    match tc.v[j]? with
    | some x => (c.setv_checkbefore O k x).mapState fun c => { a with v := a.v.set j c }
    | none => if tc.size = 0 then .fault else .throw (.outOfRange "subscript out of bounds") a
  | _, _ => .throw (.outOfRange "getcol: column out of range") a

/-- `transpose` of an array of two dimensions. -/
def transpose2 (heap : Allocator) (t : Array T) : Outcome Exn Unit (Array T) :=
  (t.getdim 1).bind fun d1 _ => (t.getdim 0).bind fun d0 _ =>
    (Vector.ofList lessIdx [d1, d0] (some heap)).bind fun dim _ =>
      (t.getnames 1).bind fun nm1 _ => (nm1.names.copy (some heap)).bind fun names1 _ =>
        (t.getnames 0).bind fun nm0 _ => (nm0.names.copy (some heap)).bind fun names0 _ =>
          (ofNoinit dim [names1, names0] (memFactory heap)).bind fun a _ =>
            (a.getdim 1).bind fun cols _ => (a.getdim 0).bind fun rows _ =>
              match forUp (fun j => forUp (setFrom O t j) rows.toNat 0) cols.toNat 0 a with
              | .ok _ a => .ok a ()
              | .throw e _ => .throw e ()
              | .fault => .fault

/-- `transpose`. -/
def transposed (heap : Allocator) (t : Array T) : Outcome Exn Unit (Array T) :=
  if t.dim.size = 1 then t.transpose O heap
  else if t.dim.size = 2 then t.transpose2 O heap
  else .throw (.rangeError "argument is not a matrix") ()

/-- `Array::operator==`. -/
def eqv [DecidableEq T] (a u : Array T) : Bool :=
  decide (a.dim.v = u.dim.v) &&
    ((List.range u.names.length).all fun j =>
      match a.names[j]?, u.names[j]? with
      | some nm, some nm' => decide (nm.sz = nm'.sz ∧ nm.names.v = nm'.names.v)
      | _, _ => false) &&
    (List.range u.v.length).all fun j =>
      match a.v[j]?, u.v[j]? with
      | some c, some c' => decide (c.v = c'.v)
      | _, _ => false

/-- The element in row `i` and column `j`. -/
def elt (a : Array T) (i j : Nat) : Option T := (a.v[j]?).bind fun c => c.v[i]?

end Array

/-! ## What a matrix and its transpose are -/

/-- Names for the places of a dimension, or none. -/
structure Dname.Names (nm : Dname) (n : Nat) : Prop where
  sz : nm.sz = n
  size : nm.names.size = 0 ∨ nm.names.size = n
  room : nm.names.size ≤ nm.names.capacity

variable {T : Type} [Raw T] (O : T → T → Bool)

/-- The names of a dimension of extent `n`, copied from `names`. -/
structure Dname.Copied (nm : Dname) (names : Vector ZString) (n : Nat) : Prop where
  sz : nm.sz = n
  eq : nm.names.v = names.v
  capacity : nm.names.capacity = names.capacity ∨
    names.v = [] ∧ nm.names.capacity = growCapacity 0

/-- An array of `r` rows and `c` columns. -/
structure Array.Matrix (t : Array T) (r c : idx_type) : Prop where
  dim : t.dim.v = [r, c]
  cols : t.v.length = c.toNat
  rows : ∀ col ∈ t.v, col.size = r.toNat
  names : ∃ nm0 nm1, t.names = [nm0, nm1] ∧ nm0.Names r.toNat ∧ nm1.Names c.toNat

/-- Rows and columns change places, with their names, and the flags tell which columns ascend. -/
structure Array.IsTranspose (t a : Array T) : Prop where
  dim : a.dim.v = t.dim.v.reverse
  elt : ∀ j k, a.elt j k = t.elt k j
  names : a.names.map (fun nm => (nm.sz, nm.names.v)) =
    (t.names.map fun nm => (nm.sz, nm.names.v)).reverse
  flags : ∀ c ∈ a.v, c.ordered = true ↔ c.v.IsChain fun x y => O x y = true

/-- `malloc` cannot give all of memory. -/
def Allocator.Mallocs (heap : Allocator) : Prop := ∀ n, heap.grant 0 n = true → n < sizeMax

/-- The sizes of the blocks that a matrix and its transpose are made of. -/
def Array.blocks (t : Array T) : List Nat :=
  getTotalSize 8 (growCapacity 2) :: getTotalSize STRING_SIZE (growCapacity 0) ::
    (t.dim.v.map (fun d => getTotalSize (Flat.width T) (growCapacity d.toNat)) ++
      t.names.map fun nm => getTotalSize STRING_SIZE nm.names.capacity)

/-- `malloc` refuses a block of one of the sizes. -/
def Allocator.Refuses (heap : Allocator) (sizes : List Nat) (e : Exn) : Prop :=
  e = .systemError "malloc" ∧ ∃ n ∈ sizes, heap.grant 0 n = false

/-! ## Making the parts -/

theorem holds_bind {ε σ α β : Type} {o : Outcome ε σ α} {k : α → σ → Outcome ε σ β}
    {Q : α → σ → Prop} {Q' : β → σ → Prop} {R : ε → σ → Prop} (h : o.Holds Q R)
    (hk : ∀ a s, Q a s → (k a s).Holds Q' R) : (o.bind k).Holds Q' R := by
  cases o with
  | ok a s => exact hk a s h
  | throw e s => exact h
  | fault => exact h

/-- A block that is granted has room for what it was asked for. -/
theorem le_of_lt_sizeMax {w n : Nat} (hw : 0 < w) (h : getTotalSize w n < sizeMax) :
    n < sizeMax ∧ sizeofRawVector + n * w ≤ getTotalSize w n := by
  rw [getTotalSize] at h
  split at h
  · exact absurd h (lt_irrefl _)
  · next hsmall =>
      rcases Nat.eq_zero_or_pos n with rfl | hn
      · refine ⟨by decide, getTotalSize_of_lt ?_⟩
        rw [Nat.zero_mul]
        decide
      · have hle : n ≤ sizeMax / w - sizeofRawVector := by
          by_contra hgt
          exact hsmall ⟨hn, by omega⟩
        have hmul : n * w ≤ (sizeMax / w - sizeofRawVector) * w := Nat.mul_le_mul_right w hle
        have hdiv := Nat.div_mul_le_self sizeMax w
        rw [Nat.sub_mul] at hmul
        have hnw := Nat.mul_le_mul_left n hw
        have h24 : sizeofRawVector * 1 ≤ sizeofRawVector * w := Nat.mul_le_mul_left _ hw
        have hraw : sizeofRawVector = 24 := rfl
        have hmax : sizeMax = 2 ^ 64 - 1 := rfl
        have hpos : 0 < n * w := Nat.mul_pos hn hw
        exact ⟨by omega, getTotalSize_of_lt (by omega)⟩

theorem collect_holds {ε α : Type} {Q : α → Prop} {R : ε → Unit → Prop}
    {os : List (Outcome ε Unit α)} (h : ∀ o ∈ os, o.Holds (fun a _ => Q a) R) :
    (Outcome.collect os).Holds (fun as _ => as.length = os.length ∧ ∀ a ∈ as, Q a) R := by
  induction os with
  | nil => exact ⟨rfl, nofun⟩
  | cons o os ih =>
      rw [Outcome.collect]
      refine holds_bind (h o List.mem_cons_self) fun a _ ha => ?_
      refine holds_bind (ih fun o ho => h o (.tail _ ho)) fun as _ has => ?_
      refine ⟨by rw [List.length_cons, List.length_cons, has.1], fun x hx => ?_⟩
      rcases List.mem_cons.mp hx with rfl | hx
      · exact ha
      · exact has.2 x hx

section Parts

variable {heap : Allocator} (hheap : heap.Mallocs) {sizes : List Nat}
include hheap

theorem construct_holds {what : String} {capacity : Nat} {elts : Allocator → List T}
    {ordered : Bool} (hle : capacity < sizeMax → (elts heap).length ≤ capacity)
    (hsz : getTotalSize (Flat.width T) capacity ∈ sizes) :
    (Vector.construct what (some heap) capacity elts ordered).Holds
      (fun s _ => s = ⟨elts heap, ordered, capacity, getTotalSize (Flat.width T) capacity, some heap⟩)
      (fun e _ => heap.Refuses sizes e) := by
  rw [Vector.construct]
  split
  · next hgrant =>
      obtain ⟨hcap, hroom⟩ := le_of_lt_sizeMax Flat.width_pos (hheap _ hgrant)
      have hmul := Nat.mul_le_mul_right (Flat.width T) (hle hcap)
      rw [if_pos (by omega)]
      exact rfl
  · next hno => exact ⟨rfl, _, hsz, by simpa using hno⟩

theorem ofNoinit_holds {n : Nat}
    (hsz : getTotalSize (Flat.width T) (growCapacity n) ∈ sizes) :
    (Vector.ofNoinit (T := T) n (some heap)).Holds
      (fun s _ => s.size = n ∧ s.ordered = true) (fun e _ => heap.Refuses sizes e) := by
  refine (construct_holds hheap (fun hcap => ?_) hsz).imp ?_ fun _ _ h => h
  · rw [List.length_map, List.length_range]
    exact (lt_growCapacity hcap).le
  · rintro s _ rfl
    exact ⟨by rw [Vector.size, List.length_map, List.length_range], rfl⟩

theorem copy_holds {s : Vector T} (hs : s.size ≤ s.capacity)
    (hsz : getTotalSize (Flat.width T) s.capacity ∈ sizes) :
    (s.copy (some heap)).Holds (fun s' _ => s'.v = s.v ∧ s'.capacity = s.capacity)
      (fun e _ => heap.Refuses sizes e) := by
  refine (construct_holds hheap (fun _ => hs) hsz).imp ?_ fun _ _ h => h
  rintro s' _ rfl
  exact ⟨rfl, rfl⟩

/-- The names of a dimension are copied where there are any. -/
theorem buildName_holds {names_p : List (Vector ZString)} {j : Nat} {d : idx_type}
    {names : Vector ZString} (hj : names_p[j]? = some names)
    (hsize : names.size = 0 ∨ names.size = d.toNat) (hroom : names.size ≤ names.capacity)
    (hsz : getTotalSize STRING_SIZE names.capacity ∈ sizes)
    (hsz0 : getTotalSize STRING_SIZE (growCapacity 0) ∈ sizes) :
    (Array.buildName (memFactory heap) names_p j d).Holds (fun nm _ => nm.Copied names d.toNat)
      (fun e _ => heap.Refuses sizes e) := by
  rw [Array.buildName, hj]
  simp only
  split
  · next hpos =>
      have hd : names.size = d.toNat := hsize.resolve_left hpos.ne'
      rw [if_neg (not_not.mpr hd)]
      refine holds_bind (copy_holds hheap hroom hsz) fun s _ ⟨hv, hcap⟩ => ?_
      have hssize : s.size = d.toNat := by rw [Vector.size, hv, ← hd, Vector.size]
      rw [Dname.ofNames, if_neg (fun h => h.2 hssize)]
      exact ⟨rfl, hv, .inl hcap⟩
  · next hzero =>
      have hnil : names.v = [] := List.length_eq_zero_iff.mp (by
        rw [Vector.size] at hzero
        omega)
      refine holds_bind (construct_holds hheap (by simp) hsz0) fun s _ hs => ?_
      subst hs
      rw [Dname.ofNames, if_neg (fun h => h.1 rfl)]
      exact ⟨rfl, hnil.symm, .inr ⟨hnil, rfl⟩⟩

/-- An array without contents, over two dimensions and their names. -/
theorem ofNoinit2_holds {dim : Vector idx_type} {d1 d0 : idx_type} {names1 names0 : Vector ZString}
    (hdim : dim.v = [d1, d0]) (hdimroom : dim.size ≤ dim.capacity)
    (hdimsz : getTotalSize (Flat.width idx_type) dim.capacity ∈ sizes)
    (hcolsz : getTotalSize (Flat.width T) (growCapacity d1.toNat) ∈ sizes)
    (hsize1 : names1.size = 0 ∨ names1.size = d1.toNat) (hroom1 : names1.size ≤ names1.capacity)
    (hsz1 : getTotalSize STRING_SIZE names1.capacity ∈ sizes)
    (hsize0 : names0.size = 0 ∨ names0.size = d0.toNat) (hroom0 : names0.size ≤ names0.capacity)
    (hsz0 : getTotalSize STRING_SIZE names0.capacity ∈ sizes)
    (hsz : getTotalSize STRING_SIZE (growCapacity 0) ∈ sizes) :
    (Array.ofNoinit (T := T) dim [names1, names0] (memFactory heap)).Holds
      (fun a _ => a.dim.v = [d1, d0] ∧ a.v.length = d0.toNat ∧
        (∀ c ∈ a.v, c.size = d1.toNat ∧ c.ordered = true) ∧
        ∃ nm1 nm0, a.names = [nm1, nm0] ∧ nm1.Copied names1 d1.toNat ∧ nm0.Copied names0 d0.toNat)
      (fun e _ => heap.Refuses sizes e) := by
  rw [Array.ofNoinit]
  refine holds_bind (copy_holds hheap hdimroom hdimsz) fun dim' _ hcopy => ?_
  have hdim' := hcopy.1
  rw [hdim] at hdim'
  have hcols : Array.ncolsOf [d1, d0] = d0.toNat := by
    show wrap (1 * d0.toNat) = d0.toNat
    rw [Nat.one_mul]
    exact Nat.mod_eq_of_lt d0.toNat_lt
  rw [hdim']
  simp only [hcols]
  refine holds_bind (collect_holds (Q := fun c => c.size = d1.toNat ∧ c.ordered = true) fun o ho => ?_)
    fun v _ hcols => ?_
  · obtain ⟨n, -, rfl⟩ := List.mem_map.mp ho
    exact ofNoinit_holds hheap hcolsz
  · obtain ⟨hlen, hv⟩ := hcols
    rw [List.length_map, List.length_range] at hlen
    rw [Array.buildNames, if_neg (fun h => h.2 rfl)]
    refine holds_bind (Q := fun names _ => ∃ nm1 nm0 : Dname, names = [nm1, nm0] ∧
      nm1.Copied names1 d1.toNat ∧ nm0.Copied names0 d0.toNat) ?_
      fun names _ hnames => ⟨hdim', hlen, hv, hnames⟩
    refine holds_bind (buildName_holds hheap rfl hsize1 hroom1 hsz1 hsz) fun nm1 _ h1 => ?_
    refine holds_bind (Q := fun names _ => ∃ nm0 : Dname, names = [nm0] ∧
      nm0.Copied names0 d0.toNat) ?_ fun names _ hnames => ?_
    · exact holds_bind (buildName_holds hheap rfl hsize0 hroom0 hsz0 hsz) fun nm0 _ h0 =>
        ⟨nm0, rfl, h0⟩
    · obtain ⟨nm0, rfl, h0⟩ := hnames
      exact ⟨nm1, nm0, rfl, h1, h0⟩

end Parts

/-! ## Filling the columns -/

section Fill

variable {O}

omit [Raw T]

/-- The elements of row `j`. -/
def Array.row (t : Array T) (j : Nat) : List T := t.v.filterMap fun c => c.v[j]?

/-- A column whose first `k` places have been written with those of `l`. -/
def Vector.filled (O : T → T → Bool) (l : List T) (k : Nat) (c : Vector T) : Vector T :=
  { c with v := l.take k ++ c.v.drop k, ordered := adjacent O (l.take k) }

/-- One write: the flag says whether what has been written so far ascends. -/
theorem setv_checkbefore_filled {l : List T} {c : Vector T} {k : Nat} {x : T}
    (hlen : l.length = c.size) (hx : l[k]? = some x) :
    (c.filled O l k).setv_checkbefore O k x = .ok () (c.filled O l (k + 1)) := by
  obtain ⟨hk, -⟩ := List.getElem?_eq_some_iff.mp hx
  rw [Vector.size] at hlen
  have htake : (l.take k).length = k := by rw [List.length_take]; omega
  have hsucc : l.take (k + 1) = l.take k ++ [x] := by
    rw [List.take_add_one, hx]
    rfl
  have hset : (l.take k ++ c.v.drop k).set k x = l.take (k + 1) ++ c.v.drop (k + 1) := by
    rw [List.set_append_right _ _ htake.le, htake, Nat.sub_self,
      List.drop_eq_getElem_cons (hlen ▸ hk), List.set_cons_zero, hsucc, List.append_assoc]
    rfl
  have hbefore : before O (l.take k ++ c.v.drop k) k x = before O (l.take k) k x := by
    have h : before O (l.take k ++ c.v.drop k) (l.take k).length x =
        before O (l.take k) (l.take k).length x := before_append_left
    rwa [htake] at h
  have hflag : (adjacent O (l.take k) && before O (l.take k) k x) = adjacent O (l.take (k + 1)) := by
    rw [hsucc, Bool.eq_iff_iff, Bool.and_eq_true, adjacent_iff, adjacent_iff, isChain_append_seam, seam]
    simp only [List.head?_cons, htake, List.isChain_singleton, true_and]
  have hsize : ¬ (c.filled O l k).size ≤ k := by
    rw [Vector.size, Vector.filled, List.length_append, htake, List.length_drop]
    omega
  rw [Vector.setv_checkbefore, if_neg hsize]
  simp only [Vector.filled, hset, hbefore, hflag]

theorem filled_zero {l : List T} {c : Vector T} (hc : c.ordered = true) : c.filled O l 0 = c := by
  rw [Vector.filled, List.take_zero, List.nil_append, List.drop_zero]
  show ({ c with ordered := true } : Vector T) = c
  rw [← hc]

/-- The columns before `j` are filled. -/
def Array.filled (O : T → T → Bool) (t a : Array T) (j : Nat) : Array T :=
  { a with v := a.v.mapIdx fun i c => if i < j then c.filled O (t.row i) c.size else c }

/-- The matrix `a` has the extents of the transpose of `t`, and columns flagged as ordered. -/
structure Array.Blank (t a : Array T) : Prop where
  rows : ∀ col ∈ t.v, col.size = a.v.length
  size : ∀ c ∈ a.v, c.size = t.v.length
  ordered : ∀ c ∈ a.v, c.ordered = true

variable {t a : Array T}

theorem getElem?_filterMap {α β : Type} {f : α → Option β} {l : List α}
    (h : ∀ x ∈ l, (f x).isSome) (k : Nat) : (l.filterMap f)[k]? = l[k]?.bind f := by
  induction l generalizing k with
  | nil => rfl
  | cons x l ih =>
      obtain ⟨y, hy⟩ := Option.isSome_iff_exists.mp (h x List.mem_cons_self)
      rw [List.filterMap_cons_some hy]
      cases k with
      | zero => exact hy.symm
      | succ k => exact ih (fun z hz => h z (.tail _ hz)) k

theorem Array.Blank.getElem?_row (h : t.Blank a) {j : Nat} (hj : j < a.v.length) (k : Nat) :
    (t.row j)[k]? = t.elt j k :=
  getElem?_filterMap (fun c hc => by
    rw [List.getElem?_eq_getElem (by have := h.rows c hc; rw [Vector.size] at this; omega)]
    rfl) k

theorem Array.Blank.length_row (h : t.Blank a) {j : Nat} (hj : j < a.v.length) :
    (t.row j).length = t.v.length := by
  rw [Array.row, List.length_filterMap_eq_countP, List.countP_eq_length]
  intro c hc
  rw [List.getElem?_eq_getElem (by have := h.rows c hc; rw [Vector.size] at this; omega)]
  rfl

theorem Array.getElem?_filled (t a : Array T) (i j : Nat) : (t.filled O a j).v[i]? =
    a.v[i]?.map fun c => if i < j then c.filled O (t.row i) c.size else c :=
  List.getElem?_mapIdx

theorem Array.filled_zero (t a : Array T) : t.filled O a 0 = a := by
  have hv : (t.filled O a 0).v = a.v := List.ext_getElem? fun i => by
    rw [Array.getElem?_filled]
    simp only [Nat.not_lt_zero, if_false, Option.map_id']
  show { a with v := (t.filled O a 0).v } = a
  rw [hv]

/-- A column is filled from its first place on. -/
theorem forUp_setFrom (h : t.Blank a) {j : Nat} (hj : j < a.v.length) :
    forUp (Array.setFrom O t j) t.v.length 0 (t.filled O a j) = .ok () (t.filled O a (j + 1)) := by
  have hc : a.v[j]? = some a.v[j] := List.getElem?_eq_getElem hj
  have hlen : (t.filled O a j).v.length = a.v.length := List.length_mapIdx
  have hsize : a.v[j].size = t.v.length := h.size _ (List.getElem_mem hj)
  let S (k : Nat) : Array T :=
    { t.filled O a j with v := (t.filled O a j).v.set j (a.v[j].filled O (t.row j) k) }
  have hfirst : S 0 = t.filled O a j := by
    have hv : (S 0).v = (t.filled O a j).v := List.ext_getElem? fun i => by
      show ((t.filled O a j).v.set j _)[i]? = _
      rw [filled_zero (h.ordered _ (List.getElem_mem hj)), List.getElem?_set]
      split
      · next hij =>
          subst hij
          rw [if_pos (by omega), Array.getElem?_filled, hc, Option.map_some, if_neg (lt_irrefl _)]
      · rfl
    show { t.filled O a j with v := (S 0).v } = _
    rw [hv]
  have hlast : S t.v.length = t.filled O a (j + 1) := by
    have hv : (S t.v.length).v = (t.filled O a (j + 1)).v := List.ext_getElem? fun i => by
      show ((t.filled O a j).v.set j _)[i]? = _
      rw [List.getElem?_set, Array.getElem?_filled, Array.getElem?_filled]
      split
      · next hij =>
          subst hij
          rw [if_pos (by omega), hc, Option.map_some, if_pos (Nat.lt_succ_self _), hsize]
      · next hij =>
          have hiff : i < j ↔ i < j + 1 := by omega
          simp only [hiff]
    show { a with v := (S t.v.length).v } = { a with v := (t.filled O a (j + 1)).v }
    rw [hv]
  have hstep : ∀ k, 0 ≤ k → k < 0 + t.v.length →
      Array.setFrom O t j k (S k) = .ok () (S (k + 1)) := by
    intro k _ hk
    rw [Nat.zero_add] at hk
    have hSj : (S k).v[j]? = some (a.v[j].filled O (t.row j) k) := by
      show ((t.filled O a j).v.set j _)[j]? = _
      rw [List.getElem?_set_self (by omega)]
    have hcol : j < t.v[k].v.length := by
      have := h.rows _ (List.getElem_mem hk)
      rw [Vector.size] at this
      omega
    have hrow : (t.row j)[k]? = some t.v[k].v[j] := by
      rw [h.getElem?_row hj, Array.elt, List.getElem?_eq_getElem hk]
      exact List.getElem?_eq_getElem hcol
    have hwrite := setv_checkbefore_filled (O := O) (c := a.v[j])
      ((h.length_row hj).trans hsize.symm) hrow
    rw [Array.setFrom, hSj, List.getElem?_eq_getElem hk]
    simp only
    rw [List.getElem?_eq_getElem hcol]
    simp only
    rw [hwrite]
    have hv : (S k).v.set j (a.v[j].filled O (t.row j) (k + 1)) = (S (k + 1)).v := List.set_set _
    exact congrArg (fun l => Outcome.ok () { t.filled O a j with v := l }) hv
  have hrun := forUp_eq_ok (S := S) hstep
  rwa [hfirst, Nat.zero_add, hlast] at hrun

theorem forUp_forUp_setFrom (h : t.Blank a) :
    forUp (fun j => forUp (Array.setFrom O t j) t.v.length 0) a.v.length 0 a =
      .ok () (t.filled O a a.v.length) := by
  have hrun : forUp (fun j => forUp (Array.setFrom O t j) t.v.length 0) a.v.length 0
      (t.filled O a 0) = .ok () (t.filled O a (0 + a.v.length)) :=
    forUp_eq_ok (S := t.filled O a) fun j _ hj => forUp_setFrom h (by omega)
  rwa [Array.filled_zero, Nat.zero_add] at hrun

/-- The filled columns are the rows of `t`, and their flags say which of them ascend. -/
theorem Array.Blank.filled_get (h : t.Blank a) {i : Nat} (hi : i < a.v.length) :
    (t.filled O a a.v.length).v[i]? =
      some { a.v[i] with v := t.row i, ordered := adjacent O (t.row i) } := by
  have htake : (t.row i).take t.v.length = t.row i := by
    rw [← h.length_row hi, List.take_length]
  have hsize := h.size _ (List.getElem_mem hi)
  have hdrop : a.v[i].v.drop t.v.length = [] := by
    rw [← hsize, Vector.size, List.drop_length]
  rw [Array.getElem?_filled, List.getElem?_eq_getElem hi, Option.map_some, if_pos hi,
    Vector.filled, hsize, htake, hdrop, List.append_nil]

theorem Array.Blank.elt_filled (h : t.Blank a) (j k : Nat) :
    (t.filled O a a.v.length).elt j k = t.elt k j := by
  rw [Array.elt]
  by_cases hk : k < a.v.length
  · rw [h.filled_get hk, Option.bind_some]
    exact h.getElem?_row hk j
  · rw [Array.getElem?_filled, List.getElem?_eq_none (by omega), Option.map_none, Option.bind_none,
      Array.elt]
    cases hc : t.v[j]? with
    | none => rfl
    | some c =>
        have hsize := h.rows c (List.mem_of_getElem? hc)
        rw [Vector.size] at hsize
        rw [Option.bind_some, List.getElem?_eq_none (by omega)]

theorem Array.Blank.of_mem_filled (h : t.Blank a) {c : Vector T}
    (hc : c ∈ (t.filled O a a.v.length).v) : c.size = t.v.length ∧
      (c.ordered = true ↔ c.v.IsChain fun x y => O x y = true) := by
  obtain ⟨i, hi, rfl⟩ := List.mem_iff_getElem.mp hc
  have hlt : i < a.v.length := by
    rw [Array.filled, List.length_mapIdx] at hi
    exact hi
  have hget := (List.getElem?_eq_getElem hi).symm.trans (h.filled_get hlt)
  rw [Option.some.inj hget]
  exact ⟨h.length_row hlt, adjacent_iff⟩

end Fill

/-! ## The transpose -/

variable {t : Array T} {r c : idx_type} {heap : Allocator}

theorem Array.Matrix.mem_blocks (h : t.Matrix r c) :
    getTotalSize 8 (growCapacity 2) ∈ t.blocks ∧
      getTotalSize STRING_SIZE (growCapacity 0) ∈ t.blocks ∧
      getTotalSize (Flat.width T) (growCapacity r.toNat) ∈ t.blocks ∧
      getTotalSize (Flat.width T) (growCapacity c.toNat) ∈ t.blocks ∧
      ∀ nm ∈ t.names, getTotalSize STRING_SIZE nm.names.capacity ∈ t.blocks := by
  have hdims : ∀ d ∈ [r, c],
      getTotalSize (Flat.width T) (growCapacity d.toNat) ∈ t.blocks := fun d hd =>
    .tail _ (.tail _ (List.mem_append_left _ (List.mem_map.mpr ⟨d, h.dim ▸ hd, rfl⟩)))
  exact ⟨List.mem_cons_self, .tail _ List.mem_cons_self, hdims r List.mem_cons_self,
    hdims c (.tail _ List.mem_cons_self), fun nm hnm =>
      .tail _ (.tail _ (List.mem_append_right _ (List.mem_map.mpr ⟨nm, hnm, rfl⟩)))⟩

theorem Dname.Names.size_of {nm : Dname} {n : Nat} {names : Vector ZString} (h : nm.Names n)
    (hv : names.v = nm.names.v) : names.size = 0 ∨ names.size = n := by
  rw [Vector.size, hv]
  exact h.size

theorem Dname.Names.room_of {nm : Dname} {n : Nat} {names : Vector ZString} (h : nm.Names n)
    (hv : names.v = nm.names.v) (hcap : names.capacity = nm.names.capacity) :
    names.size ≤ names.capacity := by
  rw [Vector.size, hv, hcap]
  exact h.room

/-- A copy of a copy. -/
theorem Dname.Copied.of {anm nm : Dname} {names : Vector ZString} {n : Nat}
    (ha : anm.Copied names n) (h : nm.Names n) (hv : names.v = nm.names.v)
    (hcap : names.capacity = nm.names.capacity) :
    anm.Names n ∧ (anm.sz, anm.names.v) = (nm.sz, nm.names.v) ∧
      (anm.names.capacity = nm.names.capacity ∨ anm.names.capacity = growCapacity 0) := by
  have hasize : anm.names.v = nm.names.v := ha.eq.trans hv
  refine ⟨⟨ha.sz, h.size_of hasize, ?_⟩, by rw [hasize, ha.sz, h.sz],
    hcap ▸ ha.capacity.imp_right And.right⟩
  rcases ha.capacity with h' | ⟨hnil, -⟩
  · exact h.room_of hasize (h'.trans hcap)
  · rw [Vector.size, ha.eq, hnil]
    exact Nat.zero_le _

/-- The filled array is the transpose. -/
theorem Array.Matrix.filled_isTranspose {a : Array T} (h : t.Matrix r c) (hblank : t.Blank a)
    (hadim : a.dim.v = [c, r]) (halen : a.v.length = r.toNat) {nm0 nm1 anm0 anm1 : Dname}
    (hnames : t.names = [nm0, nm1]) (hanames : a.names = [anm1, anm0])
    (h0 : anm0.Names r.toNat ∧ (anm0.sz, anm0.names.v) = (nm0.sz, nm0.names.v) ∧
      (anm0.names.capacity = nm0.names.capacity ∨ anm0.names.capacity = growCapacity 0))
    (h1 : anm1.Names c.toNat ∧ (anm1.sz, anm1.names.v) = (nm1.sz, nm1.names.v) ∧
      (anm1.names.capacity = nm1.names.capacity ∨ anm1.names.capacity = growCapacity 0)) :
    t.IsTranspose O (t.filled O a a.v.length) ∧ (t.filled O a a.v.length).Matrix c r ∧
      (t.filled O a a.v.length).blocks ⊆ t.blocks := by
  have hdim : (t.filled O a a.v.length).dim.v = [c, r] := hadim
  have hnm : (t.filled O a a.v.length).names = [anm1, anm0] := hanames
  refine ⟨⟨?_, fun j k => hblank.elt_filled j k, ?_, fun c hc => (hblank.of_mem_filled hc).2⟩,
    ⟨hdim, ?_, fun col hcol => ?_, anm1, anm0, hnm, h1.1, h0.1⟩, ?_⟩
  · rw [hdim, h.dim]
    rfl
  · rw [hnm, hnames, List.map_cons, List.map_cons, List.map_nil, h1.2.1, h0.2.1]
    rfl
  · rw [Array.filled, List.length_mapIdx, halen]
  · exact (hblank.of_mem_filled hcol).1.trans h.cols
  · obtain ⟨hb2, hb0, hbr, hbc, hbn⟩ := h.mem_blocks
    have hb : ∀ {nm anm : Dname}, nm ∈ t.names → anm.names.capacity = nm.names.capacity ∨
        anm.names.capacity = growCapacity 0 →
        getTotalSize STRING_SIZE anm.names.capacity ∈ t.blocks := by
      rintro nm anm hmem (hcap | hcap)
      · exact hcap ▸ hbn nm hmem
      · exact hcap ▸ hb0
    have hb0' := hb (hnames ▸ List.mem_cons_self) h0.2.2
    have hb1' := hb (hnames ▸ .tail _ List.mem_cons_self) h1.2.2
    intro n hn
    rw [Array.blocks, hdim, hnm] at hn
    simp only [List.map_cons, List.map_nil, List.cons_append, List.nil_append, List.mem_cons,
      List.not_mem_nil, or_false] at hn
    rcases hn with rfl | rfl | rfl | rfl | rfl | rfl
    · exact hb2
    · exact hb0
    · exact hbc
    · exact hbr
    · exact hb1'
    · exact hb0'

theorem transpose2_holds (h : t.Matrix r c) (hheap : heap.Mallocs) :
    (t.transpose2 O heap).Holds (fun a _ => t.IsTranspose O a ∧ a.Matrix c r ∧ a.blocks ⊆ t.blocks)
      (fun e _ => heap.Refuses t.blocks e) := by
  obtain ⟨nm0, nm1, hnames, h0, h1⟩ := h.names
  have hdim0 : t.getdim 0 = .ok r () := by rw [Array.getdim, h.dim]; rfl
  have hdim1 : t.getdim 1 = .ok c () := by rw [Array.getdim, h.dim]; rfl
  have hnm0 : t.getnames 0 = .ok nm0 () := by rw [Array.getnames, hnames]; rfl
  have hnm1 : t.getnames 1 = .ok nm1 () := by rw [Array.getnames, hnames]; rfl
  rw [Array.transpose2, hdim1, hdim0]
  simp only [bind_ok]
  have hdimlen : (2 : Nat) ≤ growCapacity 2 := by decide
  refine holds_bind (construct_holds hheap (fun _ => hdimlen) (h.mem_blocks.1)) fun dim _ hdim => ?_
  subst hdim
  rw [hnm1, hnm0]
  simp only [bind_ok]
  have hblk0 := (h.mem_blocks.2.2.2.2 nm0 (by rw [hnames]; exact List.mem_cons_self))
  have hblk1 := (h.mem_blocks.2.2.2.2 nm1 (by rw [hnames]; exact .tail _ List.mem_cons_self))
  refine holds_bind (copy_holds hheap h1.room hblk1) fun names1 _ ⟨hv1, hcap1⟩ => ?_
  refine holds_bind (copy_holds hheap h0.room hblk0) fun names0 _ ⟨hv0, hcap0⟩ => ?_
  refine holds_bind (ofNoinit2_holds (T := T) hheap rfl hdimlen h.mem_blocks.1
    h.mem_blocks.2.2.2.1 (h1.size_of hv1) (h1.room_of hv1 hcap1) (hcap1 ▸ hblk1)
    (h0.size_of hv0) (h0.room_of hv0 hcap0) (hcap0 ▸ hblk0) h.mem_blocks.2.1)
    fun a _ ⟨hadim, halen, hacols, anm1, anm0, hanames, ha1, ha0⟩ => ?_
  have hblank : t.Blank a :=
    ⟨fun col hcol => (h.rows col hcol).trans halen.symm,
      fun col hcol => (hacols col hcol).1.trans h.cols.symm, fun col hcol => (hacols col hcol).2⟩
  have hadim0 : a.getdim 0 = .ok c () := by rw [Array.getdim, hadim]; rfl
  have hadim1 : a.getdim 1 = .ok r () := by rw [Array.getdim, hadim]; rfl
  rw [hadim1, hadim0]
  simp only [bind_ok]
  rw [← halen, ← h.cols, forUp_forUp_setFrom hblank]
  exact h.filled_isTranspose O hblank hadim halen hnames hanames (ha0.of h0 hv0 hcap0)
    (ha1.of h1 hv1 hcap1)

theorem transposed_holds (h : t.Matrix r c) (hheap : heap.Mallocs) :
    (t.transposed O heap).Holds
      (fun a _ => t.IsTranspose O a ∧ a.Matrix c r ∧ a.blocks ⊆ t.blocks)
      (fun e _ => heap.Refuses t.blocks e) := by
  have hsize : t.dim.size = 2 := by
    rw [Vector.size, h.dim]
    rfl
  rw [Array.transposed, if_neg (by omega), if_pos hsize]
  exact transpose2_holds O h hheap

omit [Raw T] in
/-- The elements of a matrix say what its columns are. -/
theorem Array.Matrix.cols_eq {a : Array T} (h : t.Matrix r c) (ha : a.Matrix r c)
    (helt : ∀ i j, a.elt i j = t.elt i j) : a.v.map (fun col => col.v) = t.v.map fun col => col.v := by
  have hlen : a.v.length = t.v.length := ha.cols.trans h.cols.symm
  apply List.ext_getElem (by rw [List.length_map, List.length_map, hlen])
  intro j hj hj'
  rw [List.length_map] at hj hj'
  rw [List.getElem_map, List.getElem_map]
  apply List.ext_getElem?
  intro i
  have h' := helt i j
  rwa [Array.elt, Array.elt, List.getElem?_eq_getElem hj, List.getElem?_eq_getElem hj',
    Option.bind_some, Option.bind_some] at h'

omit [Raw T] in
/-- Arrays with the same extents, names and elements are equal. -/
theorem Array.eqv_of [DecidableEq T] {a : Array T} (hdim : a.dim.v = t.dim.v)
    (hnames : a.names.map (fun nm => (nm.sz, nm.names.v)) =
      t.names.map fun nm => (nm.sz, nm.names.v))
    (hcols : a.v.map (fun col => col.v) = t.v.map fun col => col.v) : a.eqv t = true := by
  rw [Array.eqv, Bool.and_eq_true, Bool.and_eq_true, List.all_eq_true, List.all_eq_true]
  refine ⟨⟨decide_eq_true hdim, fun j hj => ?_⟩, fun j hj => ?_⟩
  · have hget := congrArg (fun l => l[j]?) hnames
    simp only [List.getElem?_map] at hget
    rw [List.getElem?_eq_getElem (List.mem_range.mp hj)] at hget ⊢
    obtain ⟨nm, hnm, heq⟩ := Option.map_eq_some_iff.mp hget
    rw [hnm]
    exact decide_eq_true ⟨congrArg Prod.fst heq, congrArg Prod.snd heq⟩
  · have hget := congrArg (fun l => l[j]?) hcols
    simp only [List.getElem?_map] at hget
    rw [List.getElem?_eq_getElem (List.mem_range.mp hj)] at hget ⊢
    obtain ⟨col, hcol, heq⟩ := Option.map_eq_some_iff.mp hget
    rw [hcol]
    exact decide_eq_true heq

/-- The transpose of a matrix, and that of the transpose. -/
theorem transpose_transpose [DecidableEq T] (t : Array T) (r c : idx_type) (h : t.Matrix r c)
    (heap : Allocator) (hheap : heap.Mallocs) :
    (t.transposed O heap).Holds (fun a _ => t.IsTranspose O a ∧ a.Matrix c r)
        (fun e _ => heap.Refuses t.blocks e) ∧
      ((t.transposed O heap).bind fun a _ => a.transposed O heap).Holds (fun a _ => a.eqv t = true)
        (fun e _ => heap.Refuses t.blocks e) := by
  have hfirst := transposed_holds O h hheap
  refine ⟨hfirst.imp (fun _ _ ha => ⟨ha.1, ha.2.1⟩) fun _ _ he => he, ?_⟩
  refine holds_bind hfirst fun a _ ⟨hta, ha, hblocks⟩ => ?_
  refine (transposed_holds O ha hheap).imp (fun a' _ ⟨haa, ha', _⟩ => ?_)
    fun e _ ⟨he, n, hn, hno⟩ => ⟨he, n, hblocks hn, hno⟩
  refine Array.eqv_of ?_ ?_ (h.cols_eq ha' fun i j => (haa.elt i j).trans (hta.elt j i))
  · rw [haa.dim, hta.dim, List.reverse_reverse]
  · rw [haa.names, hta.names, List.reverse_reverse]

/-- A vector with room for 16 elements. -/
def sixteen {T : Type} (v : List T) : Vector T := ⟨v, true, 16, 0, none⟩

/-- A row of two columns, of which only the columns have names. -/
def namedRow : Array idx_type where
  dim := sixteen [1, 2]
  v := [sixteen [5], sixteen [3]]
  names := [⟨1, sixteen []⟩, ⟨2, sixteen [ZString.ofString [97], ZString.ofString [98]]⟩]
  allocf := memFactory (memallocator 1000000)

theorem transpose_transpose_namedRow :
    (namedRow.transposed lessIdx (memallocator 1000000)).Holds
        (fun a _ => namedRow.IsTranspose lessIdx a ∧ a.Matrix 2 1)
        (fun e _ => (memallocator 1000000).Refuses namedRow.blocks e) ∧
      ((namedRow.transposed lessIdx (memallocator 1000000)).bind fun a _ =>
        a.transposed lessIdx (memallocator 1000000)).Holds (fun a _ => a.eqv namedRow = true)
        (fun e _ => (memallocator 1000000).Refuses namedRow.blocks e) := by
  refine transpose_transpose lessIdx namedRow 1 2 ⟨rfl, rfl, ?_, _, _, rfl, ?_, ?_⟩
    (memallocator 1000000) fun n hn => ?_
  · intro col hcol
    simp only [namedRow, List.mem_cons, List.not_mem_nil, or_false] at hcol
    rcases hcol with rfl | rfl
    · rfl
    · rfl
  · exact ⟨rfl, .inl rfl, by decide⟩
  · exact ⟨rfl, .inr rfl, by decide⟩
  · have hle : 0 = 0 ∧ n ≤ 1000000 := of_decide_eq_true hn
    have hmax : sizeMax = 2 ^ 64 - 1 := rfl
    omega

end Ztsdb.Arr
