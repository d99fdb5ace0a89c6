import Mathlib
import Ztsdb.Arr.VectorSize
import Ztsdb.Arr.Zts

/-!
# A written array appended to another

`to_buffer` writes the extents and then the columns; `append` finds them again by
the sizes it reads on the way. The induction is over the columns of the two arrays
together, with the part of the buffer that has been read as its running argument:
the offset the reader carries is the length of that part.

The flag of a column after the append is the conjunction of the two flags and the
order over the seam, so it stays exact when both were.
-/

namespace Ztsdb.Arr

open Ztsdb.Lib

namespace Vector

section Flags

variable {T : Type}

/-- The flag is true exactly when the elements are strictly ascending. -/
def Exact (O : T → T → Bool) (s : Vector T) : Prop :=
  s.ordered = true ↔ s.v.IsChain (fun a b => O a b = true)

/-- `c'` is `c` followed by `y`, with the flag an append computes. -/
def Appended (O : T → T → Bool) (c y c' : Vector T) : Prop :=
  c'.v = c.v ++ y.v ∧
    c'.ordered = if y.size = 0 then c.ordered else c.ordered && y.ordered && seam O c.v y.v

theorem Appended.exact {O : T → T → Bool} {c y c' : Vector T} (h : Appended O c y c')
    (hc : Exact O c) (hy : Exact O y) : Exact O c' := by
  rw [Exact, h.1, h.2, isChain_append_seam]
  split
  · next h0 =>
      have hnil : y.v = [] := List.eq_nil_of_length_eq_zero h0
      rw [hnil]
      simp only [List.isChain_nil, seam, List.head?_nil, and_true]
      exact hc
  · rw [Bool.and_eq_true, Bool.and_eq_true, and_assoc]
    exact and_congr hc (and_congr hy Iff.rfl)

end Flags

variable {T : Type} [Raw T] (O : T → T → Bool)

/-- The elements are inside the block, and the allocator has room for `n` of them. -/
structure HasRoom (s : Vector T) (n : Nat) : Prop where
  fits : s.Fits s.size
  granted : ∃ a, s.alloc = some a ∧
    a.grant 0 (memsize (Flat.width T) (growCapacity n)) = true
  small : sizeofRawVector + growCapacity n * Flat.width T < 2 ^ 64

/-- A vector that has room takes all that another one wrote. -/
theorem append_toBuffer_of_room (rest : List UInt8) {len : Nat} {c y : Vector T}
    (hroom : c.HasRoom (c.size + y.size)) (hlen : y.getBufferSize ≤ len)
    (hlt : y.getBufferSize < 2 ^ 64) :
    ∃ c', c.append O (y.toBuffer ++ rest) len = .ok y.getBufferSize c' ∧
      Appended O c y c' := by
  obtain ⟨a, ha, hg⟩ := hroom.granted
  have h24 : y.getBufferSize = sizeofRawVector + y.size * Flat.width T := rfl
  have hn : y.size * Flat.width T < 2 ^ 64 := by omega
  have hcap := le_growCapacity_of_fits hroom.small
  have hle := Nat.le_mul_of_pos_right (growCapacity (c.size + y.size)) (Flat.width_pos (T := T))
  have hsmall := hroom.small
  have hwrap : wrap (c.size + y.size) = c.size + y.size := wrap_of_lt (by omega)
  have hdec : Flat.decode y.size (slice sizeofRawVector (y.size * Flat.width T)
      (y.toBuffer ++ rest)) = y.v := by
    have h := Flat.decode_encode y.v []
    rw [List.append_nil] at h
    rw [slice_toBuffer, Vector.size, h]
  have hmem : sizeofRawVector + y.size * Flat.width T ≤ (y.toBuffer ++ rest).length := by
    rw [List.length_append, length_toBuffer]
    omega
  rw [append_toBuffer O y rest len c hlt, if_neg (by omega), if_neg (by omega), appendElts,
    hwrap]
  -- the block after the resize, whether there was one or not
  obtain ⟨t, ht, hsize, htake, hfit, hord⟩ : ∃ t, c.resize (c.size + y.size) 0 = .ok () t ∧
      t.size = c.v.length + y.size ∧ t.v.take c.v.length = c.v ∧ t.Fits t.size ∧
      t.ordered = c.ordered := by
    by_cases h0 : y.size = 0
    · rw [h0, Nat.add_zero]
      exact ⟨c, resize_same c, rfl, List.take_of_length_le (Nat.le_refl _), hroom.fits, rfl⟩
    · refine ⟨c.grown a (c.size + y.size), ?_, size_grown _ _ _,
        take_redim (Nat.le_add_right _ _), ?_, rfl⟩
      · rw [resize_zero_granted (by omega) ha hg, if_pos (by rw [memsize_of_lt hsmall]; omega)]
      · have hmul := Nat.mul_le_mul_right (Flat.width T) hcap.le
        rw [Fits, size_grown]
        show _ ≤ memsize _ _
        rw [memsize_of_lt hsmall]
        omega
  have hcopy := copyElts_of_fits O (y.toBuffer ++ rest) y.ordered hsize htake hfit hn hmem
  rw [hdec, hord] at hcopy
  rw [ht, Outcome.bind_ok, show c.size = c.v.length from rfl, hcopy, Outcome.bind_ok]
  exact ⟨_, rfl, rfl, rfl⟩

end Vector

namespace Array

open Ztsdb.Arr.Vector

variable {T : Type} [Raw T] (O : T → T → Bool)

/-! ## The columns -/

theorem appendCols_toBuffer (rest : List UInt8) {cs ys : List (Vector T)} {buflen : Nat}
    (h : List.Forall₂ (fun c y => c.HasRoom (c.size + y.size)) cs ys) (front : List UInt8)
    (hlen : (front ++ (ys.flatMap Vector.toBuffer ++ rest)).length ≤ buflen)
    (hlt : buflen < 2 ^ 64) :
    ∃ cs', appendCols O (front ++ (ys.flatMap Vector.toBuffer ++ rest)) buflen front.length cs
        = .ok (front.length + (ys.map Vector.getBufferSize).sum) cs' ∧
      List.Forall₂ (fun cy c' => Appended O cy.1 cy.2 c') (cs.zip ys) cs' := by
  induction h generalizing front with
  | nil => exact ⟨[], rfl, .nil⟩
  | @cons c y cs ys hroom hrest ih =>
      have hassoc : front ++ ((y :: ys).flatMap Vector.toBuffer ++ rest) =
          (front ++ y.toBuffer) ++ (ys.flatMap Vector.toBuffer ++ rest) := by
        simp only [List.flatMap_cons, List.append_assoc]
      have hdrop : (front ++ ((y :: ys).flatMap Vector.toBuffer ++ rest)).drop front.length =
          y.toBuffer ++ (ys.flatMap Vector.toBuffer ++ rest) := by
        rw [List.drop_left, List.flatMap_cons, List.append_assoc]
      have hlen' := hlen
      rw [hassoc] at hlen'
      simp only [List.length_append, length_toBuffer] at hlen'
      obtain ⟨c', hc', happ⟩ := append_toBuffer_of_room O
        (ys.flatMap Vector.toBuffer ++ rest) hroom
        (show y.getBufferSize ≤ wsub buflen front.length by rw [wsub_of_le hlt (by omega)]; omega) (by omega)
      obtain ⟨cs', hcs', hall⟩ := ih (front ++ y.toBuffer) (by
        rw [hassoc] at hlen
        exact hlen)
      refine ⟨c' :: cs', ?_, .cons happ hall⟩
      rw [appendCols, hdrop, hc']
      simp only
      rw [hassoc, wrap_of_lt (by omega)]
      rw [List.length_append, length_toBuffer] at hcs'
      rw [hcs', Outcome.mapState_ok, List.map_cons, List.sum_cons, Nat.add_assoc]

/-! ## The extents -/

theorem checkSame_true {u : Nat → Option Nat} {i j k : Nat} {v : List idx_type}
    (h : checkSame u i j k v = some true) {m : Nat} {x : idx_type} (hm : m < k)
    (hx : v[m]? = some x) (hi : j + m ≠ i) : u (j + m) = some x.toNat := by
  induction k generalizing j v m with
  | zero => omega
  | succ k ih =>
      cases v with
      | nil => simp at hx
      | cons y v =>
          rw [checkSame] at h
          cases m with
          | zero =>
              rw [List.getElem?_cons_zero] at hx
              cases hx
              rw [Nat.add_zero] at hi ⊢
              rw [if_neg hi] at h
              split at h
              · cases h
              · next w hw =>
                  split at h
                  · cases h
                  · next heq => rw [hw, not_not.mp heq]
          | succ m =>
              rw [List.getElem?_cons_succ] at hx
              have hrest : checkSame u i (j + 1) k v = some true := by
                split at h
                · exact h
                · split at h
                  · cases h
                  · split at h
                    · cases h
                    · exact h
              have := ih hrest (m := m) (by omega) hx (by omega)
              rwa [Nat.add_right_comm, Nat.add_assoc] at this

theorem checkOnes_true {u : Nat → Option Nat} {i j k : Nat}
    (h : checkOnes u i j k = some true) {m : Nat} (hm : m < k) (hi : j + m ≠ i) :
    u (j + m) = some 1 := by
  induction k generalizing j m with
  | zero => omega
  | succ k ih =>
      rw [checkOnes] at h
      cases m with
      | zero =>
          rw [Nat.add_zero] at hi ⊢
          rw [if_neg hi] at h
          split at h
          · cases h
          · next w hw =>
              split at h
              · cases h
              · next heq => rw [hw, not_not.mp heq]
      | succ m =>
          have hrest : checkOnes u i (j + 1) k = some true := by
            split at h
            · exact h
            · split at h
              · cases h
              · split at h
                · cases h
                · exact h
          have := ih hrest (m := m) (by omega) (by omega)
          rwa [Nat.add_right_comm, Nat.add_assoc] at this

theorem checkSame_congr {u u' : Nat → Option Nat} {i j k : Nat} {v : List idx_type}
    (h : ∀ m, m < k → u (j + m) = u' (j + m)) :
    checkSame u i j k v = checkSame u' i j k v := by
  induction k generalizing j v with
  | zero => cases v <;> rfl
  | succ k ih =>
      cases v with
      | nil => rfl
      | cons y v =>
          have h0 : u j = u' j := h 0 (by omega)
          have hrest : checkSame u i (j + 1) k v = checkSame u' i (j + 1) k v := by
            apply ih
            intro m hm
            have := h (m + 1) (by omega)
            rwa [Nat.add_right_comm, Nat.add_assoc] at *
          rw [checkSame, checkSame, h0, hrest]

theorem checkOnes_congr {u u' : Nat → Option Nat} {i j k : Nat}
    (h : ∀ m, m < k → u (j + m) = u' (j + m)) : checkOnes u i j k = checkOnes u' i j k := by
  induction k generalizing j with
  | zero => rfl
  | succ k ih =>
      have h0 : u j = u' j := h 0 (by omega)
      have hrest : checkOnes u i (j + 1) k = checkOnes u' i (j + 1) k := by
        apply ih
        intro m hm
        have := h (m + 1) (by omega)
        rwa [Nat.add_right_comm, Nat.add_assoc] at *
      rw [checkOnes, checkOnes, h0, hrest]

/-- Only the extents there are count. -/
theorem checkdims_congr {v : List idx_type} {un i : Nat} {u u' : Nat → Option Nat}
    (h : ∀ j, j < un → u j = u' j) : checkdims v un u i = checkdims v un u' i := by
  have hsame : checkSame u i 0 (min v.length un) v = checkSame u' i 0 (min v.length un) v := by
    apply checkSame_congr
    intro m hm
    exact h _ (by omega)
  have hones : checkOnes u i (min v.length un) (un - min v.length un) =
      checkOnes u' i (min v.length un) (un - min v.length un) := by
    apply checkOnes_congr
    intro m hm
    exact h _ (by omega)
  simp only [checkdims, hsame, hones]

/-- The extents `v` and `w` in dimension `j`, 1 where one of them has no such dimension. -/
theorem getD_eq_of_checkdims {v w : List idx_type} {i : Nat} (hv : v ≠ []) (hw : w ≠ [])
    (h : checkdims v w.length (fun j => (w[j]?).map UInt64.toNat) i = some true) {j : Nat}
    (hj : j ≠ i) : (v.map UInt64.toNat).getD j 1 = (w.map UInt64.toNat).getD j 1 := by
  have hvl := List.length_pos_of_ne_nil hv
  have hwl := List.length_pos_of_ne_nil hw
  have hor : ¬ (v.length = 0 ∨ w.length = 0) := by omega
  simp only [checkdims, if_neg hor] at h
  -- the three loops
  split at h
  · next hsame =>
      split at h
      · next hones =>
          rw [List.getD_eq_getElem?_getD, List.getD_eq_getElem?_getD, List.getElem?_map,
            List.getElem?_map]
          rcases Nat.lt_or_ge j (min v.length w.length) with hlt | hge
          · have hx : v[j]? = some v[j] := List.getElem?_eq_getElem (by omega)
            have := checkSame_true hsame hlt hx (by omega)
            rw [Nat.zero_add] at this
            rw [this, hx]
            rfl
          · rcases Nat.lt_or_ge j v.length with hjv | hjv
            · have := checkOnes_true hones (m := j - min v.length w.length) (by omega) (by omega)
              rw [Nat.add_sub_cancel' hge] at this
              rw [this, List.getElem?_eq_none (by omega)]
              rfl
            · rw [List.getElem?_eq_none hjv]
              rcases Nat.lt_or_ge j w.length with hjw | hjw
              · have := checkOnes_true h (m := j - min v.length w.length) (by omega) (by omega)
                rw [Nat.add_sub_cancel' hge] at this
                rw [this]
                rfl
              · rw [List.getElem?_eq_none hjw]
      · next hno => exact absurd h (hno · )
  · next hno => exact absurd h (hno · )

theorem prod_eq_of_getD {l l' : List Nat} (h : ∀ j, l.getD j 1 = l'.getD j 1) :
    l.prod = l'.prod := by
  induction l generalizing l' with
  | nil =>
      rw [List.prod_nil, List.prod_eq_one]
      intro x hx
      obtain ⟨j, hj, rfl⟩ := List.getElem_of_mem hx
      have := h j
      rwa [List.getD_nil, List.getD_eq_getElem _ _ hj, eq_comm] at this
  | cons a l ih =>
      cases l' with
      | nil =>
          have ha := h 0
          rw [List.getD_cons_zero, List.getD_nil] at ha
          rw [List.prod_cons, ha, Nat.one_mul]
          apply ih
          intro j
          exact h (j + 1)
      | cons b l' =>
          have hab := h 0
          rw [List.getD_cons_zero, List.getD_cons_zero] at hab
          rw [List.prod_cons, List.prod_cons, hab]
          congr 1
          apply ih
          intro j
          exact h (j + 1)

/-- Arrays that can be bound in the first dimension have as many columns. -/
theorem prod_tail_of_checkdims {v w : List idx_type} (hv : v ≠ []) (hw : w ≠ [])
    (h : checkdims v w.length (fun j => (w[j]?).map UInt64.toNat) 0 = some true) :
    ((v.drop 1).map UInt64.toNat).prod = ((w.drop 1).map UInt64.toNat).prod := by
  apply prod_eq_of_getD
  intro j
  have := getD_eq_of_checkdims hv hw h (Nat.succ_ne_zero j)
  cases v with
  | nil => exact absurd rfl hv
  | cons x v =>
      cases w with
      | nil => exact absurd rfl hw
      | cons y w => exact this

/-- The extents of a written array, read in place. -/
theorem viewElt_toBuffer (d : Vector idx_type) (rest : List UInt8) {j : Nat}
    (hj : j < d.size) :
    viewElt (d.toBuffer ++ rest) j = (d.v[j]?).map UInt64.toNat := by
  have hx : d.v[j]? = some d.v[j] := List.getElem?_eq_getElem hj
  have hsplit : d.v = d.v.take j ++ (d.v[j] :: d.v.drop (j + 1)) := by
    rw [← List.drop_eq_getElem_cons hj, List.take_append_drop]
  have hmem : d.toBuffer ++ rest =
      (leBytes 8 (Raw.typenumber idx_type) ++ (leBytes 8 d.size ++
        (leBytes 8 (if d.ordered then 1 else 0) ++ Flat.encode (d.v.take j)))) ++
      (leBytes 8 d.v[j].toNat ++ (Flat.encode (d.v.drop (j + 1)) ++ rest)) := by
    have henc : Flat.encode d.v = Flat.encode (d.v.take j) ++
        (leBytes 8 d.v[j].toNat ++ Flat.encode (d.v.drop (j + 1))) := by
      conv_lhs => rw [hsplit]
      rw [Flat.encode_append, Flat.encode_cons]
      rfl
    rw [toBuffer_append, henc]
    simp only [List.append_assoc]
  have hlen : (d.v.take j).length = j := by
    rw [List.length_take, ← Vector.size]
    omega
  rw [viewElt, hmem, hx]
  refine readWord_leBytes ?_ d.v[j].toNat_lt
  simp only [List.length_append, length_leBytes, Flat.length_encode, hlen, sizeofRawVector]
  show 24 + 8 * j = 8 + (8 + (8 + j * 8))
  omega

/-! ## Whole arrays -/

/-- As many columns as the extents say, all as long as the first extent. -/
structure Coherent (a : Array T) : Prop where
  dims : a.dim.v ≠ []
  cols : a.v.length = ((a.dim.v.drop 1).map UInt64.toNat).prod
  rows : ∀ c ∈ a.v, c.size = a.nrows

/-- The allocators of the columns have room for `n` more rows, and the names of the
rows can be extended by as many. -/
structure HasRoom (heap : Allocator) (n : Nat) (a : Array T) : Prop where
  cols : ∀ c ∈ a.v, c.HasRoom (a.nrows + n)
  names : ∃ nm nms nm', a.names = nm :: nms ∧ nm.addrows heap n = .ok () nm'

/-- `a'` has the rows of `a` and then those of `y`. -/
structure RowsOf (a y a' : Array T) : Prop where
  cols : a'.v.map (·.v) = List.zipWith (fun c u => c.v ++ u.v) a.v y.v
  nrows : a'.nrows = a.nrows + y.nrows
  dims : a'.dim.v.drop 1 = a.dim.v.drop 1
  flags : ∀ c ∈ a'.v, Exact O c

omit [Raw T] in
theorem addRows_ok {heap : Allocator} {n : Nat} {a : Array T} {nm nm' : Dname}
    {nms : List Dname} (hn : a.names = nm :: nms) (hadd : nm.addrows heap n = .ok () nm')
    {d : idx_type} {ds : List idx_type} (hd : a.dim.v = d :: ds) :
    ∃ a', addRows heap n a = .ok () a' ∧ a'.v = a.v ∧
      a'.dim.v = (d + UInt64.ofNat n) :: ds := by
  have hsize : ¬ a.dim.size ≤ 0 := by
    rw [Vector.size, hd, List.length_cons]
    omega
  simp only [addRows, hn, hadd, Outcome.mapState_ok, Outcome.bind_ok, hd, setv, if_neg hsize]
  exact ⟨_, rfl, rfl, rfl⟩

omit [Raw T] in
theorem forall₂_appended_cols {cs ys cs' : List (Vector T)} (hlen : cs.length = ys.length)
    (h : List.Forall₂ (fun cy c' => Appended O cy.1 cy.2 c') (cs.zip ys) cs')
    (hc : ∀ c ∈ cs, Exact O c) (hy : ∀ y ∈ ys, Exact O y) :
    cs'.map (·.v) = List.zipWith (fun c u => c.v ++ u.v) cs ys ∧ ∀ c ∈ cs', Exact O c := by
  induction cs generalizing ys cs' with
  | nil =>
      rw [List.zip_nil_left] at h
      cases h
      refine ⟨rfl, fun c hmem => by cases hmem⟩
  | cons c cs ih =>
      cases ys with
      | nil => cases hlen
      | cons y ys =>
          rw [List.zip_cons_cons] at h
          obtain ⟨c', cs', happ, hrest, rfl⟩ := List.forall₂_cons_left_iff.1 h
          obtain ⟨hcols, hflags⟩ := ih (by simpa using hlen) hrest
            (fun c hmem => hc c (List.mem_cons_of_mem _ hmem))
            (fun y hmem => hy y (List.mem_cons_of_mem _ hmem))
          refine ⟨?_, ?_⟩
          · rw [List.map_cons, hcols, happ.1]
            rfl
          · intro d hd
            rcases List.mem_cons.1 hd with rfl | hd
            · exact happ.exact (hc c List.mem_cons_self) (hy y List.mem_cons_self)
            · exact hflags d hd

theorem length_toBuffer (a : Array T) :
    a.toBuffer.length = a.dim.getBufferSize + (a.v.map Vector.getBufferSize).sum := by
  rw [toBuffer, List.length_append, Vector.length_toBuffer, List.length_flatMap]
  simp only [Vector.length_toBuffer]

/-- `getBufferSize` multiplies by the first column's size; it is the length of what is
written when all columns are as long. -/
theorem getBufferSize_eq {a : Array T} (h : a.Coherent) (hv : a.v ≠ []) :
    a.getBufferSize = some a.toBuffer.length := by
  have hsum : ∀ cs : List (Vector T), (∀ c ∈ cs, c.size = a.nrows) →
      (cs.map Vector.getBufferSize).sum =
        cs.length * (sizeofRawVector + a.nrows * Flat.width T) := by
    intro cs hcs
    induction cs with
    | nil => simp
    | cons c cs ih =>
        rw [List.map_cons, List.sum_cons, ih fun d hd => hcs d (List.mem_cons_of_mem _ hd),
          Vector.getBufferSize, hcs c List.mem_cons_self, List.length_cons]
        ring
  rw [length_toBuffer, hsum a.v h.rows, getBufferSize]
  cases hcs : a.v with
  | nil => exact absurd hcs hv
  | cons c cs =>
      have hc : c.size = a.nrows := h.rows c (by rw [hcs]; exact List.mem_cons_self)
      simp only [Vector.getBufferSize, hc]

/-- Reading back a written array appends its rows. -/
theorem append_toBuffer (rest : List UInt8) {heap : Allocator} {a y : Array T}
    (ha : a.Coherent) (hy : y.Coherent) (hyv : y.v ≠ [])
    (hfa : ∀ c ∈ a.v, Exact O c) (hfy : ∀ c ∈ y.v, Exact O c)
    (hcompat : checkdims a.dim.v y.dim.size (fun j => (y.dim.v[j]?).map UInt64.toNat) 0 =
      some true)
    (hroom : a.HasRoom heap y.nrows) (hlt : (y.toBuffer ++ rest).length < 2 ^ 64) :
    ∃ a', a.append O heap (y.toBuffer ++ rest) (y.toBuffer ++ rest).length =
        .ok y.toBuffer.length a' ∧ RowsOf O a y a' := by
  obtain ⟨d, ds, hd⟩ := List.exists_cons_of_ne_nil ha.dims
  obtain ⟨e, es, he⟩ := List.exists_cons_of_ne_nil hy.dims
  obtain ⟨nm, nms, nm', hn, hadd⟩ := hroom.names
  have hdimlen : y.dim.getBufferSize = sizeofRawVector + y.dim.size * 8 := rfl
  have hlen := hlt
  rw [List.length_append, length_toBuffer] at hlen
  have hsplit : y.toBuffer ++ rest =
      y.dim.toBuffer ++ (y.v.flatMap Vector.toBuffer ++ rest) := by
    rw [toBuffer, List.append_assoc]
  -- the header of the extents
  have hsize : viewSize (y.toBuffer ++ rest) = some y.dim.size := by
    rw [hsplit]
    exact readWord_toBuffer_size _ _ (by omega)
  have hcheck : checkdims a.dim.v y.dim.size (viewElt (y.toBuffer ++ rest)) 0 = some true := by
    rw [← hcompat]
    apply checkdims_congr
    intro j hj
    rw [hsplit]
    exact viewElt_toBuffer _ _ hj
  have hrows : viewElt (y.toBuffer ++ rest) 0 = some e.toNat := by
    rw [hsplit, viewElt_toBuffer _ _ (by rw [Vector.size, he, List.length_cons]; omega), he]
    rfl
  -- the columns, pairwise
  have hcols : a.v.length = y.v.length := by
    rw [ha.cols, hy.cols]
    exact prod_tail_of_checkdims ha.dims hy.dims hcompat
  have hpairs : List.Forall₂ (fun c u => c.HasRoom (c.size + u.size)) a.v y.v := by
    rw [List.forall₂_iff_get]
    refine ⟨hcols, fun i hi hi' => ?_⟩
    rw [ha.rows _ (List.get_mem _ _), hy.rows _ (List.get_mem _ _)]
    exact hroom.cols _ (List.get_mem _ _)
  obtain ⟨cs', hcs', happ⟩ := appendCols_toBuffer O rest hpairs y.dim.toBuffer
    (le_of_eq (by rw [hsplit])) hlt
  rw [← hsplit] at hcs'
  obtain ⟨hv, hflags⟩ := forall₂_appended_cols O hcols happ hfa hfy
  -- the extent
  obtain ⟨a', ha', hv', hdim'⟩ := addRows_ok (a := { a with v := cs' }) hn
    (show nm.addrows heap e.toNat = .ok () nm' by
      rw [← hadd, nrows, he]) hd
  refine ⟨a', ?_, ?_⟩
  · have hoff : wrap (sizeofRawVector + wrap (8 * y.dim.size)) = y.dim.toBuffer.length := by
      rw [Vector.length_toBuffer, wrap_of_lt (show 8 * y.dim.size < 2 ^ 64 by omega),
        wrap_of_lt (by omega)]
      omega
    simp only [append, hd, hsize]
    rw [← hd, hcheck]
    simp only [hoff]
    rw [hcs', Outcome.tryCatch_ok, Outcome.mapState_ok, Outcome.bind_ok, hrows]
    simp only
    rw [ha', Outcome.bind_ok, Vector.length_toBuffer, length_toBuffer]
  · refine ⟨by rw [hv']; exact hv, ?_, by rw [hdim', hd]; rfl, by rw [hv']; exact hflags⟩
    have hav : a.v ≠ [] := by
      intro hnil
      rw [hnil] at hcols
      exact hyv (List.eq_nil_of_length_eq_zero hcols.symm)
    obtain ⟨c, cs, hcs⟩ := List.exists_cons_of_ne_nil hav
    have hc := hroom.cols c (by rw [hcs]; exact List.mem_cons_self)
    have hle := Nat.le_mul_of_pos_right (growCapacity (a.nrows + y.nrows))
      (Flat.width_pos (T := T))
    have hcap := le_growCapacity_of_fits hc.small
    have hsmall := hc.small
    rw [nrows, nrows, hd, he] at hsmall hcap hle
    rw [nrows, nrows, nrows, hdim', hd, he]
    simp only at hsmall hcap hle ⊢
    rw [UInt64.toNat_add, UInt64.ofNat_toNat, Nat.mod_eq_of_lt (by omega)]

end Array

/-! ## Time series -/

namespace zts

open Ztsdb.Arr.Vector Ztsdb.Arr.Array

/-- The index is a vector of as many ascending times as the data has rows, and the flags
are exact. -/
structure Coherent (z : zts) : Prop where
  idx : z.idx.Coherent
  a : z.a.Coherent
  vector : z.idx.dim.size = 1
  rows : z.idx.nrows = z.a.nrows
  idxFlags : ∀ c ∈ z.idx.v, Exact dtime.less c
  aFlags : ∀ c ∈ z.a.v, Exact Double.less c
  ascending : ∀ c ∈ z.idx.v, c.v.IsChain (fun s t => dtime.less s t = true)

/-- The one column of the index. -/
theorem Coherent.idx_cols {z : zts} (h : z.Coherent) : ∃ c, z.idx.v = [c] := by
  have hlen := h.idx.cols
  have h1 := h.vector
  rw [Vector.size] at h1
  obtain ⟨d, hd⟩ := List.length_eq_one_iff.1 h1
  rw [hd] at hlen
  exact List.length_eq_one_iff.1 hlen

/-- The last time of `x` comes before the first of `z`. -/
def Before (x z : zts) : Prop :=
  ∀ c ∈ x.idx.v, ∀ u ∈ z.idx.v, ∀ s, c.v.getLast? = some s → ∀ t, u.v.head? = some t →
    dtime.less s t = true

theorem append_toBuffer (rest : List UInt8) {heap : Allocator} {x z : zts}
    (hx : x.Coherent) (hz : z.Coherent) (hzv : z.a.v ≠ [])
    (hcompat : checkdims x.a.dim.v z.a.dim.size
      (fun j => (z.a.dim.v[j]?).map UInt64.toNat) 0 = some true)
    (hbefore : Before x z) (hidx : x.idx.HasRoom heap z.idx.nrows)
    (ha : x.a.HasRoom heap z.a.nrows)
    (hlt : (z.toBuffer 0 ++ rest).length < 2 ^ 64) :
    ∃ z', x.append heap (z.toBuffer 0 ++ rest) (z.toBuffer 0 ++ rest).length =
        .ok z.a.toBuffer.length z' ∧
      RowsOf dtime.less x.idx z.idx z'.idx ∧ RowsOf Double.less x.a z.a z'.a := by
  obtain ⟨c, hc⟩ := hx.idx_cols
  obtain ⟨u, hu⟩ := hz.idx_cols
  have hmem : z.toBuffer 0 ++ rest = z.idx.toBuffer ++ (z.a.toBuffer ++ rest) := by
    rw [toBuffer, List.replicate_zero, List.nil_append, List.append_assoc]
  rw [hmem] at hlt ⊢
  -- the index: two vectors, so any two extents are compatible
  have hvector : checkdims x.idx.dim.v z.idx.dim.size
      (fun j => (z.idx.dim.v[j]?).map UInt64.toNat) 0 = some true := by
    have h1 := hx.vector
    rw [Vector.size] at h1
    obtain ⟨d, hd⟩ := List.length_eq_one_iff.1 h1
    rw [hd, hz.vector]
    rfl
  obtain ⟨i', hi', hrows⟩ := Array.append_toBuffer dtime.less (z.a.toBuffer ++ rest) hx.idx
    hz.idx (by rw [hu]; exact List.cons_ne_nil _ _) hx.idxFlags hz.idxFlags hvector hidx hlt
  have hordered : i'.isOrdered = true := by
    rw [isOrdered, List.all_eq_true]
    intro c' hc'
    have hcv : c'.v ∈ i'.v.map (·.v) := List.mem_map_of_mem hc'
    rw [hrows.cols, hc, hu, List.zipWith_cons_cons, List.zipWith_nil_left,
      List.mem_singleton] at hcv
    apply (hrows.flags c' hc').2
    rw [hcv, isChain_append_seam]
    have hcm : c ∈ x.idx.v := by rw [hc]; exact List.mem_singleton_self c
    have hum : u ∈ z.idx.v := by rw [hu]; exact List.mem_singleton_self u
    refine ⟨hx.ascending c hcm, hz.ascending u hum, ?_⟩
    rw [seam_iff]
    exact hbefore c hcm u hum
  -- the data
  rw [List.length_append] at hlt
  obtain ⟨a', ha', harows⟩ := Array.append_toBuffer Double.less rest hx.a hz.a hzv
    hx.aFlags hz.aFlags hcompat ha (by omega)
  have hnull : ¬ x.a.dim.size = 0 := by
    rw [Vector.size]
    exact fun h => hx.a.dims (List.eq_nil_of_length_eq_zero h)
  refine ⟨{ idx := i', a := a' }, ?_, hrows, harows⟩
  rw [append, if_neg hnull, hi', Outcome.mapState_ok, Outcome.bind_ok]
  simp only
  rw [if_pos hordered, List.drop_left, List.length_append, wsub_of_le hlt (by omega),
    Nat.add_sub_cancel_left, ha']
  rfl

end zts

/-- What `to_buffer` writes of an array or of a time series, whatever follows it in
memory, `append` reads back: exactly its bytes, exactly its rows. -/
theorem append_written :
    (∀ (T : Type) [Raw T] (O : T → T → Bool) (heap : Allocator) (a y : Array T)
      (rest : List UInt8), a.Coherent → y.Coherent → a.v ≠ [] → y.v ≠ [] →
      (∀ c ∈ a.v, Vector.Exact O c) → (∀ c ∈ y.v, Vector.Exact O c) →
      Array.checkdims a.dim.v y.dim.size (fun j => (y.dim.v[j]?).map UInt64.toNat) 0 =
        some true →
      a.HasRoom heap y.nrows → (y.toBuffer ++ rest).length < 2 ^ 64 →
      ∃ k a', a.append O heap (y.toBuffer ++ rest) (y.toBuffer ++ rest).length = .ok k a' ∧
        y.getBufferSize = some k ∧ Array.RowsOf O a y a') ∧
    (∀ (heap : Allocator) (x z : zts) (offset : Nat) (rest : List UInt8),
      x.Coherent → z.Coherent → x.a.v ≠ [] → z.a.v ≠ [] →
      Array.checkdims x.a.dim.v z.a.dim.size
        (fun j => (z.a.dim.v[j]?).map UInt64.toNat) 0 = some true →
      zts.Before x z → x.idx.HasRoom heap z.idx.nrows → x.a.HasRoom heap z.a.nrows →
      ((z.toBuffer offset).drop offset ++ rest).length < 2 ^ 64 →
      ∃ k z', x.append heap ((z.toBuffer offset).drop offset ++ rest)
          ((z.toBuffer offset).drop offset ++ rest).length = .ok k z' ∧
        Array.RowsOf dtime.less x.idx z.idx z'.idx ∧
        Array.RowsOf Double.less x.a z.a z'.a) := by
  refine ⟨?_, ?_⟩
  · intro T _ O heap a y rest ha hy _ hyv hfa hfy hcompat hroom hlt
    obtain ⟨a', ha', hrows⟩ := Array.append_toBuffer O rest ha hy hyv hfa hfy hcompat hroom hlt
    exact ⟨_, a', ha', Array.getBufferSize_eq hy hyv, hrows⟩
  · intro heap x z offset rest hx hz _ hzv hcompat hbefore hidx ha hlt
    have hdrop : (z.toBuffer offset).drop offset = z.toBuffer 0 := by
      rw [zts.toBuffer, zts.toBuffer, List.drop_left' List.length_replicate,
        List.replicate_zero, List.nil_append]
    rw [hdrop] at hlt ⊢
    obtain ⟨z', hz', hi, hd⟩ := zts.append_toBuffer rest hx hz hzv hcompat hbefore hidx ha hlt
    exact ⟨_, z', hz', hi, hd⟩

/-! A vector, an array and a time series in a gigabyte of memory. -/

def plentiful : Allocator := memallocator (2 ^ 30)

def columnOf {T : Type} [Raw T] (O : T → T → Bool) (l : List T) : Vector T where
  v := l
  ordered := adjacent O l
  capacity := 1024
  block := sizeofRawVector + 1024 * Flat.width T
  alloc := some plentiful

def vectorOf {T : Type} [Raw T] (O : T → T → Bool) (l : List T) : Array T where
  dim := columnOf lessIdx [UInt64.ofNat l.length]
  v := [columnOf O l]
  names := [{ sz := l.length, names := columnOf ZString.less [] }]
  allocf := { column := fun _ => plentiful, named := fun _ => plentiful }

def seriesOf (times : List dtime) (values : List Double) : zts where
  idx := vectorOf dtime.less times
  a := vectorOf Double.less values

theorem exact_columnOf {T : Type} [Raw T] (O : T → T → Bool) (l : List T) :
    Vector.Exact O (columnOf O l) := adjacent_iff

theorem coherent_vectorOf {T : Type} [Raw T] (O : T → T → Bool) {l : List T}
    (h : l.length < 2 ^ 64) : (vectorOf O l).Coherent := by
  refine ⟨List.cons_ne_nil _ _, rfl, ?_⟩
  intro c hc
  rw [List.mem_singleton.1 hc]
  show l.length = (UInt64.ofNat l.length).toNat
  rw [UInt64.toNat_ofNat', Nat.mod_eq_of_lt h]

theorem hasRoom_vectorOf {T : Type} [Raw T] (O : T → T → Bool) {l : List T} {n : Nat}
    (hl : l.length + n < 512) (hw : Flat.width T ≤ 128) (hlt : l.length < 2 ^ 64) :
    (vectorOf O l).HasRoom plentiful n := by
  have hcap (m : Nat) (hm : m < 512) : growCapacity m = 1024 := by
    rw [growCapacity_of_le (by simp only [sizeMax]; omega), if_pos hm]
  have hrows : (vectorOf O l).nrows = l.length := by
    show (UInt64.ofNat l.length).toNat = l.length
    rw [UInt64.toNat_ofNat', Nat.mod_eq_of_lt hlt]
  refine ⟨?_, ⟨_, _, _, rfl, rfl⟩⟩
  intro c hc
  rw [List.mem_singleton.1 hc, hrows]
  have h24 : sizeofRawVector = 24 := rfl
  have hsmall : sizeofRawVector + 1024 * Flat.width T < 2 ^ 64 := by omega
  refine ⟨?_, ⟨plentiful, rfl, ?_⟩, ?_⟩
  · have := Nat.mul_le_mul_right (Flat.width T) (show l.length ≤ 1024 by omega)
    exact Nat.add_le_add_left this _
  · rw [hcap _ hl, memsize_of_lt hsmall]
    exact decide_eq_true ⟨rfl, by norm_num; omega⟩
  · rw [hcap _ hl]
    exact hsmall

theorem length_vectorOf {T : Type} [Raw T] (O : T → T → Bool) (l : List T) :
    (vectorOf O l).toBuffer.length = 56 + l.length * Flat.width T := by
  rw [Array.length_toBuffer]
  show 24 + 1 * 8 + (24 + l.length * Flat.width T + 0) = _
  omega

theorem append_written_vectors :
    (∃ k a', (vectorOf lessIdx [1, 2]).append lessIdx plentiful
        ((vectorOf lessIdx [3]).toBuffer ++ []) ((vectorOf lessIdx [3]).toBuffer ++ []).length =
          .ok k a' ∧
      (vectorOf lessIdx [3]).getBufferSize = some k ∧
      Array.RowsOf lessIdx (vectorOf lessIdx [1, 2]) (vectorOf lessIdx [3]) a') ∧
    (∃ k z', (seriesOf [⟨1⟩] [⟨5⟩]).append plentiful
        (((seriesOf [⟨2⟩] [⟨4⟩]).toBuffer 3).drop 3 ++ [7])
        (((seriesOf [⟨2⟩] [⟨4⟩]).toBuffer 3).drop 3 ++ [7]).length = .ok k z' ∧
      Array.RowsOf dtime.less (seriesOf [⟨1⟩] [⟨5⟩]).idx (seriesOf [⟨2⟩] [⟨4⟩]).idx z'.idx ∧
      Array.RowsOf Double.less (seriesOf [⟨1⟩] [⟨5⟩]).a (seriesOf [⟨2⟩] [⟨4⟩]).a z'.a) := by
  have hflags {T : Type} [Raw T] (O : T → T → Bool) (l : List T) :
      ∀ c ∈ (vectorOf O l).v, Vector.Exact O c := by
    intro c hc
    rw [List.mem_singleton.1 hc]
    exact exact_columnOf O l
  have hcoherent (t : dtime) (x : Double) : (seriesOf [t] [x]).Coherent := by
    have hone : 1 < 2 ^ 64 := by decide
    refine ⟨coherent_vectorOf _ hone, coherent_vectorOf _ hone, rfl, rfl,
      hflags _ _, hflags _ _, ?_⟩
    intro c hc
    rw [List.mem_singleton.1 hc]
    exact List.isChain_singleton t
  refine ⟨append_written.1 idx_type lessIdx plentiful (vectorOf lessIdx [1, 2])
    (vectorOf lessIdx [3]) [] (coherent_vectorOf _ (by decide)) (coherent_vectorOf _ (by decide))
    (List.cons_ne_nil _ _) (List.cons_ne_nil _ _) (hflags _ _) (hflags _ _) rfl
    (hasRoom_vectorOf _ (by decide) (by decide) (by decide)) ?_,
    append_written.2 plentiful (seriesOf [⟨1⟩] [⟨5⟩]) (seriesOf [⟨2⟩] [⟨4⟩]) 3 [7]
      (hcoherent _ _) (hcoherent _ _) (List.cons_ne_nil _ _) (List.cons_ne_nil _ _) rfl ?_
      (hasRoom_vectorOf _ (by decide) (by decide) (by decide))
      (hasRoom_vectorOf _ (by decide) (by decide) (by decide)) ?_⟩
  · rw [List.append_nil, length_vectorOf]
    decide
  · intro c hc u hu
    rw [List.mem_singleton.1 hc, List.mem_singleton.1 hu]
    rintro s ⟨⟩ t ⟨⟩
    rfl
  · rw [zts.toBuffer, List.drop_left' List.length_replicate, List.length_append,
      List.length_append, seriesOf, length_vectorOf, length_vectorOf]
    decide

end Ztsdb.Arr
