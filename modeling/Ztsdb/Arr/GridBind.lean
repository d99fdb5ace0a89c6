import Mathlib
import Ztsdb.Arr.GridSubset
import Ztsdb.Arr.BindCols

/-!
# Binding, element by element

`abind` on what arrays hold, without a prefix for the names. In a dimension other than the
first, the columns of the other array go slice by slice, the last ones first, into new
columns at the end, and the columns that were there change places with those still empty;
the three offsets are `size_t` that wrap below zero, and the products of the extents go
through an `int`.
-/

namespace Ztsdb.Arr

open Ztsdb.Lib

namespace Names

def hasNames (d : Names) : Bool := decide (d.sz ≠ 0 ∧ d.sz = d.names.length)

/-- `addafter(dn)`: when either side has names, the other gets empty ones. -/
def addNames (dn d : Names) : Names :=
  { sz := wrap (d.sz + dn.sz)
    names :=
      if d.names = [] then
        if dn.names = [] then [] else List.replicate d.sz ZString.empty ++ dn.names
      else if dn.names = [] then d.names ++ List.replicate dn.sz ZString.empty
      else d.names ++ dn.names }

end Names

namespace Grid

variable {T : Type}

/-- `checkdims(v, u, i)`. -/
def checkdims (v u : List Nat) (i : Nat) : Bool :=
  if v.length = 0 ∨ u.length = 0 then true
  else
    let up := min v.length u.length
    ((List.range up).all fun j => decide (j = i) || decide (v[j]? = u[j]?)) &&
      -- if different number of dims, then they have to be all 1
      ((List.range' up (v.length - up)).all fun j => decide (j = i) || decide (v[j]? = some 1)) &&
      (List.range' up (u.length - up)).all fun j => decide (j = i) || decide (u[j]? = some 1)

/-- `transpose` of a vector: a matrix of one row. -/
def transpose (t : Grid T) : Outcome Exn Unit (Grid T) :=
  match t.v, t.names, t.dim with
  | c :: _, nm :: _, n :: _ => .ok ⟨[1, n], c.map fun x => [x], [.ofExtent 1, ⟨n, nm.names⟩]⟩ ()
  | _, _, _ => .fault

/-- The extents that `abind` gives to an array without any: those of `u`, 0 in
dimension `d`. -/
def nullDims (u : Grid T) (d : Nat) : List Nat :=
  u.dim.zipIdx.map fun (x, j) => if j = d then 0 else x

/-- More dimensions, of extents `ns`. -/
def addDims (ns : List Nat) (a : Grid T) : Grid T :=
  { a with dim := a.dim ++ ns, names := a.names ++ ns.map Names.ofExtent }

/-- The rows of `u` pushed onto the columns; a column that is not there is made. -/
def bindRows : List (List T) → List (List T) → List (List T)
  | [], cs => cs
  | u :: us, c :: cs => (c ++ u) :: bindRows us cs
  | u :: us, [] => u :: bindRows us []

/-- `accumulate(…, 1, multiplies<idx_type>())`. -/
def intProd (ds : List Nat) : Nat := ds.foldl (fun acc d => Array.intOf (wrap (acc * d))) 1

/-- `k` columns of `u` are copied, the last ones first; `none` when there is no such column. -/
def fillCols (us : List (List T)) : Nat → Array.Cursor → List (List T) →
    Option (Array.Cursor × List (List T))
  | 0, q, v => some (q, v)
  | k + 1, q, v =>
    match us[q.uoff]? with
    | none => none
    | some u =>
      let next : Array.Cursor := { q with
        destoff := wsub q.destoff 1
        uoff := if 0 < q.uoff then q.uoff - 1 else q.uoff
        needSwap := if 0 < q.uoff then q.needSwap else false }
      match v[q.destoff]? with
      | none => if u = [] then fillCols us k next v else none
      | some c => fillCols us k next (v.set q.destoff (c ++ u))

/-- `k` columns change places, the last ones first. -/
def swapCols : Nat → Array.Cursor → List (List T) → Option (Array.Cursor × List (List T))
  | 0, q, v => some (q, v)
  | k + 1, q, v =>
    match v[q.srcoff]?, v[q.destoff]? with
    | some c, some c' =>
      swapCols k { q with destoff := wsub q.destoff 1, srcoff := wsub q.srcoff 1 }
        ((v.set q.srcoff c').set q.destoff c)
    | _, _ => none

/-- `n` rounds: a slice of `u` is copied, then a slice of the array moved up. -/
def bindCols (us : List (List T)) (ucols cols : Nat) : Nat → Array.Cursor → List (List T) →
    Option (List (List T))
  | 0, _, v => some v
  | n + 1, q, v =>
    (fillCols us ucols { q with needSwap := true } v).bind fun p =>
      if p.1.needSwap then
        (swapCols cols p.1 p.2).bind fun p => bindCols us ucols cols n p.1 p.2
      else bindCols us ucols cols n p.1 p.2

/-- The columns of `abind` in a dimension `d` other than the first. -/
def bindColumns (u : Grid T) (d : Nat) (a : Grid T) : Option (List (List T)) :=
  if u.dim = [] then none
  else
    let v := a.v ++ List.replicate u.v.length []
    let ucols := intProd ((u.dim.drop 1).take d)
    let cols := intProd ((a.dim.drop 1).take d)
    let n := intProd (a.dim.drop (d + 1))
    let q : Array.Cursor := {
      destoff := wsub v.length 1
      srcoff := wsub a.v.length 1
      uoff := wsub u.v.length 1
      needSwap := true }
    bindCols u.v ucols cols n q v

/-- The names that an array without names takes over from `u`, dimension by dimension
from `i` on. -/
def takeNames (us : List Names) (d : Nat) : Nat → List Names → List Names
  | _, [] => []
  | i, nm :: nms =>
    (match us[i]? with
      | some u => if i ≠ d ∧ nm.hasNames = false ∧ u.hasNames = true then u else nm
      | none => nm) :: takeNames us d (i + 1) nms

/-- The names in dimension `d` that come with `u`. -/
def newNames (u : Grid T) (d : Nat) : Option Names :=
  if d < u.dim.length then u.names[d]? else some (.ofExtent 1)

/-- The columns `v` with the names and the extents that go with them. -/
def withColumns (u : Grid T) (d : Nat) (a : Grid T) (v : List (List T)) : Outcome Exn Unit (Grid T) :=
  match newNames u d, a.names[d]?, a.dim[d]? with
  | some newnames, some nm, some x =>
    .ok ⟨a.dim.set d (wrap (x + u.dim.getD d 1)), v,
      takeNames u.names d 0 (a.names.set d (newnames.addNames nm))⟩ ()
  | _, _, _ => .fault

/-- `abind` of two arrays none of which is a vector to be turned into a row. -/
def abindRest (u : Grid T) (d : Nat) (a : Grid T) : Outcome Exn Unit (Grid T) :=
  if checkdims a.dim u.dim d = false then
    .throw (.rangeError "incorrect dimensions for abind") ()
  else
    let a := if a.dim = [] then addDims (nullDims u d) a else a
    let a := addDims (Array.moreDims a.v.isEmpty a.dim.length d) a
    (if d = 0 then some (bindRows u.v a.v) else bindColumns u d a).elim .fault (withColumns u d a)

/-- `abind(u, d)` of an array other than this one. -/
def abind (u : Grid T) (d : Nat) (a : Grid T) : Outcome Exn Unit (Grid T) :=
  if d = 0 ∧ a.dim.length = 1 then
    (transpose a).bind fun a _ =>
      (if u.dim.length = 1 then transpose u else .ok u ()).bind fun u _ => abindRest u 0 a
  else if d = 0 ∧ u.dim.length = 1 then
    (transpose u).bind fun u _ => abindRest u 0 a
  else abindRest u d a

/-! ## The loops over the columns -/

theorem set_last_empty (A D : List (List T)) (m : Nat) (x : List T) :
    (A ++ List.replicate (m + 1) [] ++ D).set (A.length + m) x =
      A ++ List.replicate m [] ++ (x :: D) := by
  have hsplit : A ++ List.replicate (m + 1) [] ++ D = (A ++ List.replicate m []) ++ ([] :: D) := by
    rw [List.replicate_succ', ← List.append_assoc, List.append_assoc]
    rfl
  have hlen : A.length + m = (A ++ List.replicate m ([] : List T)).length := by
    rw [List.length_append, List.length_replicate]
  rw [hsplit, hlen, List.set_append_right _ _ (Nat.le_refl _), Nat.sub_self, List.set_cons_zero]

theorem getElem?_last_empty (A D : List (List T)) (m : Nat) :
    (A ++ List.replicate (m + 1) [] ++ D)[A.length + m]? = some [] := by
  rw [List.append_assoc, List.getElem?_append_right (Nat.le_add_right _ _), Nat.add_sub_cancel_left,
    List.getElem?_append_left (by rw [List.length_replicate]; omega), List.getElem?_replicate,
    if_pos (Nat.lt_succ_self m)]

/-- The last `k` of the first `r` columns of `us` go into the last `k` empty columns. The first
column of all turns the swaps off. -/
theorem fillCols_eq {us : List (List T)} {A : List (List T)} {m k r : Nat} {D : List (List T)}
    {q : Array.Cursor} (hr : r ≤ us.length) (hk : k ≤ r) (hrlt : r < 2 ^ 64)
    (hlt : A.length + m + k < 2 ^ 64) (hdest : q.destoff = wsub (A.length + m + k) 1)
    (huoff : q.uoff = wsub r 1) (hswap : q.needSwap = true) :
    ∃ q', fillCols us k q (A ++ List.replicate (m + k) [] ++ D) =
        some (q', A ++ List.replicate m [] ++ ((us.drop (r - k)).take k ++ D)) ∧
      q'.destoff = wsub (A.length + m) 1 ∧ q'.srcoff = q.srcoff ∧
      (q'.needSwap = true → q'.uoff = wsub (r - k) 1) ∧ (q'.needSwap = false → k = r ∧ 0 < k) := by
  induction k generalizing r D q with
  | zero =>
      refine ⟨q, rfl, hdest, rfl, fun _ => huoff, fun h => ?_⟩
      rw [hswap] at h
      cases h
  | succ k ih =>
      obtain ⟨dest, src, uoff, need⟩ := q
      have hd : dest = A.length + (m + k) := by
        rw [show dest = _ from hdest, wsub_of_le hlt (by omega)]
        omega
      have hu : uoff = r - 1 := by rw [show uoff = _ from huoff, wsub_of_le hrlt (by omega)]
      have hn : need = true := hswap
      clear hdest huoff hswap
      subst hd hu hn
      have hx : us[r - 1]? = some us[r - 1] := List.getElem?_eq_getElem (by omega)
      have hlast := getElem?_last_empty A D (m + k)
      have hset := set_last_empty A D (m + k) us[r - 1]
      rw [← Nat.add_assoc m k 1, fillCols]
      simp only [hx, hlast, List.nil_append, hset]
      rcases Nat.lt_or_ge 1 r with hr1 | hr1
      · -- a column of `u` is left after this one
        have hpos : 0 < r - 1 := by omega
        rw [if_pos hpos, if_pos hpos]
        obtain ⟨q', hfill, hd', hs', htrue, hfalse⟩ := @ih (r - 1) (us[r - 1] :: D)
          ⟨wsub (A.length + (m + k)) 1, src, r - 1 - 1, true⟩ (by omega) (by omega) (by omega) (by omega)
          (by rw [Nat.add_assoc]) (wsub_of_le (by omega) hpos).symm rfl
        have hsub : r - 1 - k = r - (k + 1) := by omega
        rw [hsub] at hfill htrue
        refine ⟨q', ?_, hd', hs', htrue, fun h => ?_⟩
        · have hget : (us.drop (r - (k + 1)))[k]? = some us[r - 1] := by
            rw [List.getElem?_drop, ← hx]
            congr 1
            omega
          rw [hfill, List.take_add_one, hget, List.append_assoc (List.take k _)]
          rfl
        · have hkr := hfalse h
          omega
      · -- the last column of `u`
        obtain rfl : k = 0 := by omega
        obtain rfl : r = 1 := by omega
        refine ⟨⟨wsub (A.length + m) 1, src, 0, false⟩, ?_, rfl, rfl, nofun, fun _ => ⟨rfl, Nat.one_pos⟩⟩
        have hone : (us.drop 0).take 1 = [us[0]] := by
          rw [List.drop_zero, List.take_one, List.head?_eq_getElem?, hx]
          rfl
        rw [fillCols, if_neg (Nat.lt_irrefl _), if_neg (Nat.lt_irrefl _), hone]
        rfl

/-- One column changes places with the last empty one, or stays where it is. -/
theorem swap_one (A D : List (List T)) (m : Nat) (x : List T) :
    ∃ c', (A ++ [x] ++ List.replicate m [] ++ D)[A.length + m]? = some c' ∧
      ((A ++ [x] ++ List.replicate m [] ++ D).set A.length c').set (A.length + m) x =
        A ++ List.replicate m [] ++ (x :: D) := by
  have hset (y : List T) : (A ++ [x] ++ List.replicate m [] ++ D).set A.length y =
      A ++ [y] ++ List.replicate m [] ++ D := by
    rw [List.append_assoc, List.append_assoc, List.append_assoc, List.append_assoc,
      List.set_append_right _ _ (Nat.le_refl _), Nat.sub_self]
    rfl
  cases m with
  | zero =>
      refine ⟨x, ?_, ?_⟩
      · rw [List.replicate_zero, List.append_nil, List.append_assoc, Nat.add_zero,
          List.getElem?_append_right (Nat.le_refl _), Nat.sub_self]
        rfl
      · rw [hset, Nat.add_zero, hset]
        simp
  | succ m =>
      have hget : (A ++ [x] ++ List.replicate (m + 1) [] ++ D)[A.length + (m + 1)]? = some [] := by
        have h := getElem?_last_empty (A ++ [x]) D m
        rw [List.length_append, List.length_singleton, Nat.add_assoc, Nat.add_comm 1] at h
        exact h
      have hempty : A ++ [[]] ++ List.replicate (m + 1) [] ++ D = A ++ List.replicate (m + 1 + 1) [] ++ D := by
        rw [List.append_assoc A]
        rfl
      refine ⟨[], hget, ?_⟩
      rw [hset, hempty, set_last_empty]

/-- The last `k` columns move up behind the empty ones. -/
theorem swapCols_eq {A B D : List (List T)} {m k : Nat} {q : Array.Cursor} (hB : B.length = k)
    (hlt : A.length + k + m < 2 ^ 64) (hdest : q.destoff = wsub (A.length + k + m) 1)
    (hsrc : q.srcoff = wsub (A.length + k) 1) :
    ∃ q', swapCols k q (A ++ B ++ List.replicate m [] ++ D) =
        some (q', A ++ List.replicate m [] ++ (B ++ D)) ∧
      q'.destoff = wsub (A.length + m) 1 ∧ q'.srcoff = wsub A.length 1 ∧ q'.uoff = q.uoff := by
  induction k generalizing B D q with
  | zero =>
      obtain rfl := List.length_eq_zero_iff.1 hB
      exact ⟨q, by rw [List.append_nil]; rfl, hdest, hsrc, rfl⟩
  | succ k ih =>
      obtain ⟨B, x, rfl⟩ : ∃ B' x, B = B' ++ [x] := by
        rcases List.eq_nil_or_concat B with rfl | ⟨B', x, hB'⟩
        · cases hB
        · exact ⟨B', x, by rw [hB', List.concat_eq_append]⟩
      have hB' : B.length = k := by
        rw [List.length_append, List.length_singleton] at hB
        exact Nat.succ.inj hB
      have hAB : (A ++ B).length = A.length + k := by rw [List.length_append, hB']
      have hs : q.srcoff = (A ++ B).length := by
        rw [hsrc, wsub_of_le (by omega) (by omega)]
        omega
      have hd : q.destoff = (A ++ B).length + m := by
        rw [hdest, wsub_of_le hlt (by omega)]
        omega
      obtain ⟨c', hget, hswap⟩ := swap_one (A ++ B) D m x
      have hx : (A ++ B ++ [x] ++ List.replicate m [] ++ D)[(A ++ B).length]? = some x := by
        rw [List.append_assoc, List.append_assoc, List.getElem?_append_right (Nat.le_refl _), Nat.sub_self]
        rfl
      rw [← List.append_assoc A B [x], swapCols, hs, hd, hx, hget]
      simp only [hswap]
      obtain ⟨q', hrun, hd', hs', hu'⟩ := @ih B (x :: D)
        { q with destoff := wsub ((A ++ B).length + m) 1, srcoff := wsub (A ++ B).length 1 } hB' (by omega)
        (by rw [hAB]) (by rw [hAB])
      refine ⟨q', ?_, hd', hs', hu'⟩
      rw [hrun, List.append_assoc B [x] D]
      rfl

/-- Slices of `ts` and of `us` in turn. -/
def blocks {α : Type} (cols ucols : Nat) (ts us : List α) (n : Nat) : List α :=
  (List.range n).flatMap fun j => (ts.drop (j * cols)).take cols ++ (us.drop (j * ucols)).take ucols

theorem blocks_succ {α : Type} (cols ucols : Nat) (ts us : List α) (n : Nat) :
    blocks cols ucols ts us (n + 1) = blocks cols ucols ts us n ++
      ((ts.drop (n * cols)).take cols ++ (us.drop (n * ucols)).take ucols) := by
  rw [blocks, List.range_succ, List.flatMap_append, List.flatMap_singleton]
  rfl

/-- `n` rounds put the slices in turn. -/
theorem bindCols_eq {ts us : List (List T)} {cols ucols n : Nat} {D : List (List T)} {q : Array.Cursor}
    (hts : n * cols ≤ ts.length) (hus : n * ucols ≤ us.length) (hlt : n * cols + n * ucols < 2 ^ 64)
    (hdest : q.destoff = wsub (n * cols + n * ucols) 1) (hsrc : q.srcoff = wsub (n * cols) 1)
    (huoff : q.uoff = wsub (n * ucols) 1) :
    bindCols us ucols cols n q (ts.take (n * cols) ++ List.replicate (n * ucols) [] ++ D) =
      some (blocks cols ucols ts us n ++ D) := by
  induction n generalizing D q with
  | zero =>
      rw [Nat.zero_mul, Nat.zero_mul, bindCols, List.take_zero]
      rfl
  | succ n ih =>
      rw [Nat.succ_mul] at hts hsrc
      rw [Nat.succ_mul] at hus huoff
      rw [Nat.succ_mul, Nat.succ_mul] at hlt hdest
      have htake : (ts.take (n * cols + cols)).length = n * cols + cols := List.length_take_of_le hts
      rw [Nat.succ_mul n cols, Nat.succ_mul n ucols, bindCols]
      obtain ⟨q1, hfill, hd1, hs1, htrue, hfalse⟩ := @fillCols_eq T us (ts.take (n * cols + cols)) (n * ucols)
        ucols (n * ucols + ucols) D { q with needSwap := true } hus (Nat.le_add_left _ _) (by omega)
        (by rw [htake]; omega) (by rw [htake, hdest]; congr 1; omega) huoff rfl
      rw [Nat.add_sub_cancel] at hfill htrue
      rw [hfill, Option.bind_some]
      show (if q1.needSwap = true then _ else _) = _
      have hslice : ts.take (n * cols + cols) = ts.take (n * cols) ++ (ts.drop (n * cols)).take cols :=
        List.take_add
      have hfront : (ts.take (n * cols)).length = n * cols := List.length_take_of_le (by omega)
      by_cases hswap : q1.needSwap = true
      · rw [if_pos hswap, hslice]
        obtain ⟨q2, hrun, hd2, hs2, hu2⟩ := @swapCols_eq T (ts.take (n * cols))
          ((ts.drop (n * cols)).take cols) ((us.drop (n * ucols)).take ucols ++ D) (n * ucols) cols q1
          (List.length_take_of_le (by rw [List.length_drop]; omega)) (by rw [hfront]; omega)
          (by rw [hfront, hd1, htake]) (by rw [hfront, hs1]; exact hsrc)
        rw [hrun, Option.bind_some]
        rw [ih (by omega) (by omega) (by omega) (by rw [hd2, hfront]) (by rw [hs2, hfront])
          (hu2.trans (htrue hswap)), blocks_succ, List.append_assoc, List.append_assoc]
      · -- the last column of `u` was taken, so this was the last round
        obtain ⟨heq, hpos⟩ := hfalse (by simpa using hswap)
        obtain rfl : n = 0 := by
          rcases Nat.mul_eq_zero.1 (show n * ucols = 0 by omega) with hn | hu
          · exact hn
          · omega
        rw [if_neg hswap, bindCols, blocks_succ]
        simp [blocks]

/-- The column at a place of the slices in turn. -/
theorem getElem?_blocks {α : Type} {cols ucols n : Nat} {ts us : List α} (hts : n * cols ≤ ts.length)
    (hus : n * ucols ≤ us.length) {i j : Nat} (hi : i < cols + ucols) (hj : j < n) :
    (blocks cols ucols ts us n)[i + (cols + ucols) * j]? =
      if i < cols then ts[i + cols * j]? else us[i - cols + ucols * j]? := by
  have hcut {k m : Nat} {l : List α} (h : n * m ≤ l.length) (hk : k < n) :
      ((l.drop (k * m)).take m).length = m := by
    have hle : k * m + m ≤ n * m := by
      rw [← Nat.succ_mul]
      exact Nat.mul_le_mul_right m hk
    exact List.length_take_of_le (by rw [List.length_drop]; omega)
  have hlen : ∀ k ∈ List.range n,
      ((ts.drop (k * cols)).take cols ++ (us.drop (k * ucols)).take ucols).length = cols + ucols := by
    intro k hk
    have hk' := List.mem_range.1 hk
    rw [List.length_append, hcut hts hk', hcut hus hk']
  rw [blocks, getElem?_flatMap hlen hi, List.getElem?_range hj]
  show ((ts.drop (j * cols)).take cols ++ (us.drop (j * ucols)).take ucols)[i]? = _
  split
  next hlt =>
    rw [List.getElem?_append_left (by rw [hcut hts hj]; exact hlt), List.getElem?_take_of_lt hlt,
      List.getElem?_drop, Nat.add_comm, Nat.mul_comm]
  next hge =>
    rw [List.getElem?_append_right (by rw [hcut hts hj]; omega), hcut hts hj,
      List.getElem?_take_of_lt (by omega), List.getElem?_drop, Nat.add_comm, Nat.mul_comm]

theorem length_blocks {α : Type} {cols ucols n : Nat} {ts us : List α} (hts : n * cols ≤ ts.length)
    (hus : n * ucols ≤ us.length) : (blocks cols ucols ts us n).length = n * (cols + ucols) := by
  induction n with
  | zero => rw [Nat.zero_mul]; rfl
  | succ n ih =>
      rw [Nat.succ_mul] at hts hus
      rw [blocks_succ, List.length_append, ih (by omega) (by omega), List.length_append,
        List.length_take_of_le (by rw [List.length_drop]; omega),
        List.length_take_of_le (by rw [List.length_drop]; omega), Nat.succ_mul]

end Grid

end Ztsdb.Arr
