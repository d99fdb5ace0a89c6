import Mathlib
import Ztsdb.Arr.Columns

/-!
# Moving, rotating and differences

`move_inplace`, `rotate_inplace` and `diff_inplace` shift the columns of an array by `n` rows,
downwards for a positive `n`. The loops of each direction go over cells that they overwrite, in
the order in which no cell is overwritten before it is read.

Nothing is checked beforehand: an `n` beyond the rows is noticed where a cell is read or written
that is not there. Upwards that is the first cell that is read; downwards no cell is read, and
the vacated cells are written until there are no more.
-/

namespace Ztsdb.Arr

open Ztsdb.Lib

namespace Columns

variable {T : Type}

/-- The difference of two cells, NaN where one of them is. -/
def sub [Sub T] (x y : Option T) : Option T := x.bind fun a => y.map fun b => a - b

/-- `r - n` for an `n` that is not positive, `m = -n`. -/
def rowAfter (r m : Nat) : Nat := wrap (r + m)

/-- `setv(col, r, nan)` for the `k` rows from `r` on. -/
def vacate (k r : Nat) (col : List (Option T)) : Outcome Exn (List (Option T)) Unit :=
  forUp (fun r col => setv r none col) k r col

/-- One column of `move_inplace`. -/
def moveCol (rows : Nat) (n : Int) (col : List (Option T)) : Outcome Exn (List (Option T)) Unit :=
  if 0 < n then
    let n := n.toNat
    (forDown (fun r col => (read col col (r - n)).bind fun x col => setv r x col) n
      (wsub rows 1) col).bind fun _ col => vacate n 0 col
  else
    let m := (-n).toNat
    let upto := wsub rows m
    (forUp (fun r col => (read col col (rowAfter r m)).bind fun x col => setv r x col)
      upto 0 col).bind fun _ col => vacate (rows - upto) upto col

def move_inplace (n : Int) (a : Columns (Option T)) :
    Outcome Exn (List (List (Option T))) Unit :=
  eachCol (moveCol a.rows n) a.v

/-- One column of `diff_inplace`. -/
def diffCol [Sub T] (rows : Nat) (n : Int) (col : List (Option T)) : Outcome Exn (List (Option T)) Unit :=
  if 0 < n then
    let n := n.toNat
    (forDown (fun r col => (read col col r).bind fun x col =>
      (read col col (r - n)).bind fun y col => setv r (sub x y) col) n
        (wsub rows 1) col).bind fun _ col => vacate n 0 col
  else
    let m := (-n).toNat
    let upto := wsub rows m
    (forUp (fun r col => (read col col r).bind fun x col =>
      (read col col (rowAfter r m)).bind fun y col => setv r (sub x y) col)
        upto 0 col).bind fun _ col => vacate (rows - upto) upto col

def diff_inplace [Sub T] (n : Int) (a : Columns (Option T)) :
    Outcome Exn (List (List (Option T))) Unit :=
  eachCol (diffCol a.rows n) a.v

/-- `v[i] = x` for the temporary of `rotate_inplace`, which has no bound check. -/
def keep {α : Type} (i : Nat) (x : α) (s : List α × List α) : Outcome Exn (List α × List α) Unit :=
  if i < s.2.length then .ok () (s.1, s.2.set i x) else .fault

/-- `setv(col, r, v[i])`. -/
def putBack {α : Type} (r i : Nat) (s : List α × List α) : Outcome Exn (List α × List α) Unit :=
  match s.2[i]? with
  | none => .fault
  | some x => (setv r x s.1).mapState fun col => (col, s.2)

/-- One column of `rotate_inplace`, with the temporary. -/
def rotateCol (rows : Nat) (n : Int) (s : List (Option T) × List (Option T)) :
    Outcome Exn (List (Option T) × List (Option T)) Unit :=
  if 0 < n then
    let n := n.toNat
    let frm := wsub rows n
    (forUp (fun r s => (read s s.1 r).bind fun x s => keep (r - frm) x s) (rows - frm) frm s).bind
      fun _ s => (forDown (fun r s => (read s s.1 (r - n)).bind fun x s =>
        (setv r x s.1).mapState fun col => (col, s.2)) n (wsub rows 1) s).bind
          fun _ s => forUp (fun r s => putBack r r s) n 0 s
  else
    let m := (-n).toNat
    let upto := wsub rows m
    (forUp (fun r s => (read s s.1 r).bind fun x s => keep r x s) m 0 s).bind
      fun _ s => (forUp (fun r s => (read s s.1 (rowAfter r m)).bind fun x s =>
        (setv r x s.1).mapState fun col => (col, s.2)) upto 0 s).bind
          fun _ s => forUp (fun r s => putBack r (r - upto) s) (rows - upto) upto s

/-- `rotate_inplace`; the temporary has `|n|` zeros at first. -/
def rotate_inplace [Zero T] (n : Int) (a : Columns (Option T)) :
    Outcome Exn (List (List (Option T))) Unit :=
  (eachColWith (rotateCol a.rows n) a.v (List.replicate n.natAbs (some 0))).mapState Prod.fst

/-! ## What they are for -/

/-- The cell of row `i`, NaN where there is none. -/
def cell (col : List (Option T)) (i : Int) : Option T :=
  if 0 ≤ i then (col[i.toNat]?).join else none

/-- Each cell is the one `n` rows before. -/
def moved (n : Int) (col : List (Option T)) : List (Option T) :=
  tab col.length fun r => cell col (r - n)

/-- Each cell less the one `n` rows before. -/
def diffed [Sub T] (n : Int) (col : List (Option T)) : List (Option T) :=
  tab col.length fun r => sub (cell col r) (cell col (r - n))

/-- The last `n` cells come first; for a negative `n`, the first ones come last. -/
def rotated (n : Int) (col : List (Option T)) : List (Option T) :=
  col.rotate ((-n) % col.length).toNat

/-! ## The loops -/

section Loops

variable {α : Type} {body : Nat → List α → Outcome Exn (List α) Unit} {g h : Nat → α} {rows : Nat}

/-- A loop upwards that writes each of its cells once, from cells not yet written. -/
theorem forUp_tab {k r : Nat} (hk : r + k ≤ rows)
    (hbody : ∀ i h', r ≤ i → i < r + k → (∀ j, i ≤ j → h' j = h j) →
      body i (tab rows h') = setv i (g i) (tab rows h')) :
    forUp body k r (tab rows h) =
      .ok () (tab rows fun i => if r ≤ i ∧ i < r + k then g i else h i) := by
  have hstep (i : Nat) (hi : r ≤ i) (hi' : i < r + k) :
      body i (tab rows fun j => if r ≤ j ∧ j < i then g j else h j) =
        .ok () (tab rows fun j => if r ≤ j ∧ j < i + 1 then g j else h j) := by
    rw [hbody i _ hi hi' fun j hj => if_neg (by omega), setv_tab _ _ (by omega)]
    congr 1
    refine tab_congr fun j _ => ?_
    by_cases hij : j = i
    · subst hij
      rw [Function.update_self, if_pos ⟨hi, Nat.lt_succ_self j⟩]
    · rw [Function.update_of_ne hij]
      congr 1
      exact propext ⟨fun hj => by omega, fun hj => by omega⟩
  have hstart : tab rows h = tab rows fun j => if r ≤ j ∧ j < r then g j else h j :=
    tab_congr fun j _ => (if_neg (by omega)).symm
  rw [hstart]
  exact @forUp_eq_ok Exn (List α) body (fun k => tab rows fun j => if r ≤ j ∧ j < k then g j else h j)
    k r hstep

/-- A loop downwards that does. -/
theorem forDown_tab {n : Nat} (hn : 0 < n) (hrows : n ≤ rows)
    (hbody : ∀ i h', n ≤ i → i < rows → (∀ j, j ≤ i → h' j = h j) →
      body i (tab rows h') = setv i (g i) (tab rows h')) :
    forDown body n (rows - 1) (tab rows h) = .ok () (tab rows fun i => if n ≤ i then g i else h i) := by
  have hstep (i : Nat) (hi : n ≤ i) (hi' : i ≤ rows - 1) :
      body i (tab rows fun j => if i + 1 ≤ j then g j else h j) =
        .ok () (tab rows fun j => if i ≤ j then g j else h j) := by
    rw [hbody i _ hi (by omega) fun j hj => if_neg (by omega), setv_tab _ _ (by omega)]
    congr 1
    refine tab_congr fun j _ => ?_
    by_cases hij : j = i
    · subst hij
      rw [Function.update_self, if_pos le_rfl]
    · rw [Function.update_of_ne hij]
      congr 1
      exact propext ⟨fun hj => by omega, fun hj => by omega⟩
  have hstart : tab rows h = tab rows fun j => if rows - 1 + 1 ≤ j then g j else h j :=
    tab_congr fun j hj => (if_neg (by omega)).symm
  rw [hstart]
  exact @forDown_eq_ok Exn (List α) body (fun k => tab rows fun j => if k ≤ j then g j else h j)
    n (rows - 1) hn (by omega) hstep

/-- Cells written without being read, until there are no more. -/
theorem forUp_beyond {k : Nat} (hk : rows < k)
    (hbody : ∀ i h', i < k → body i (tab rows h') = setv i (g i) (tab rows h')) :
    forUp body k 0 (tab rows h) =
      .throw (.rangeError "subscript out of bounds") (tab rows g) := by
  obtain ⟨m, rfl⟩ : ∃ m, k = rows + (m + 1) := ⟨k - rows - 1, by omega⟩
  rw [forUp_add, forUp_tab (k := rows) (r := 0) (g := g) (by omega)
    fun i h' _ hi _ => hbody i h' (by omega), Outcome.bind_ok]
  have hall : (tab rows fun i => if 0 ≤ i ∧ i < 0 + rows then g i else h i) = tab rows g :=
    tab_congr fun i hi => if_pos (by omega)
  rw [hall, forUp, hbody _ _ (by omega), setv_beyond _ (by rw [length_tab]; omega)]
  rfl

end Loops

/-! ## One column -/

section Column

variable {h : Nat → Option T} {rows : Nat} {n : Int}

theorem cell_tab {i : Int} (h0 : 0 ≤ i) (hi : i < rows) : cell (tab rows h) i = h i.toNat := by
  rw [cell, if_pos h0, getElem?_tab h (by omega)]
  rfl

theorem cell_none {col : List (Option T)} {i : Int} (hi : i < 0 ∨ (col.length : Int) ≤ i) :
    cell col i = none := by
  rw [cell]
  split
  · rw [List.getElem?_eq_none (by omega)]
    rfl
  · rfl

theorem vacate_tab {k r : Nat} (hk : r + k ≤ rows) :
    vacate k r (tab rows h) = .ok () (tab rows fun i => if r ≤ i ∧ i < r + k then none else h i) :=
  forUp_tab hk fun _ _ _ _ _ => rfl

theorem vacate_beyond {k : Nat} (hk : rows < k) :
    vacate k 0 (tab rows h) = .throw (.rangeError "subscript out of bounds") (tab rows fun _ => none) :=
  forUp_beyond hk fun _ _ _ => rfl

/-- What the two halves of a shift come to. -/
theorem shift_down {body : Nat → List (Option T) → Outcome Exn (List (Option T)) Unit}
    {g : Nat → Option T} (hrows : rows < 2 ^ 64) (hn : 0 < n) (hle : n.toNat ≤ rows)
    (hbody : ∀ i h', n.toNat ≤ i → i < rows → (∀ j, j ≤ i → h' j = h j) →
      body i (tab rows h') = setv i (g i) (tab rows h')) :
    (forDown body n.toNat (wsub rows 1) (tab rows h)).bind (fun _ col => vacate n.toNat 0 col) =
      .ok () (tab rows fun i => if n.toNat ≤ i then g i else none) := by
  rw [wsub_of_le hrows (by omega), forDown_tab (by omega) hle hbody, Outcome.bind_ok,
    vacate_tab (by omega)]
  congr 1
  refine tab_congr fun i hi => ?_
  by_cases hin : i < n.toNat
  · rw [if_pos (by omega), if_neg (by omega)]
  · rw [if_neg (by omega), if_pos (by omega), if_pos (by omega)]

theorem shift_up {body : Nat → List (Option T) → Outcome Exn (List (Option T)) Unit}
    {g : Nat → Option T} {m : Nat} (hrows : rows < 2 ^ 64) (hle : m ≤ rows)
    (hbody : ∀ i h', i < rows - m → (∀ j, i ≤ j → h' j = h j) →
      body i (tab rows h') = setv i (g i) (tab rows h')) :
    (forUp body (wsub rows m) 0 (tab rows h)).bind
        (fun _ col => vacate (rows - wsub rows m) (wsub rows m) col) =
      .ok () (tab rows fun i => if i < rows - m then g i else none) := by
  rw [wsub_of_le hrows hle, forUp_tab (by omega) fun i h' _ hi => hbody i h' (by omega),
    Outcome.bind_ok, vacate_tab (by omega)]
  congr 1
  refine tab_congr fun i hi => ?_
  by_cases hin : i < rows - m
  · rw [if_neg (by omega), if_pos (by omega), if_pos hin]
  · rw [if_pos (by omega), if_neg hin]

/-- Upwards by as many rows: the row that is read is there, and not yet written. -/
theorem rowAfter_of_lt {r m : Nat} (hrows : rows < 2 ^ 64) (hr : r < rows - m) :
    rowAfter r m = r + m := wrap_of_lt (by omega)

theorem moveCol_tab (hrows : rows < 2 ^ 64) (hle : n.natAbs ≤ rows) :
    moveCol rows n (tab rows h) = .ok () (moved n (tab rows h)) := by
  rw [moveCol, moved, length_tab]
  split
  · next hn =>
      refine (shift_down (g := fun i => h (i - n.toNat)) hrows hn (by omega) fun i h' hi hi' hsame => ?_).trans ?_
      · rw [read_tab _ _ (by omega), Outcome.bind_ok, hsame _ (by omega)]
      · congr 1
        refine tab_congr fun i hi => ?_
        split
        · rw [cell_tab (by omega) (by omega)]
          congr 1
          omega
        · rw [cell_none (.inl (by omega))]
  · next hn =>
      refine (shift_up (g := fun i => h (i + (-n).toNat)) hrows (by omega) fun i h' hi hsame => ?_).trans ?_
      · rw [rowAfter_of_lt hrows hi, read_tab _ _ (by omega), Outcome.bind_ok, hsame _ (by omega)]
      · congr 1
        refine tab_congr fun i hi => ?_
        split
        · rw [cell_tab (by omega) (by omega)]
          congr 1
          omega
        · rw [cell_none (.inr (by rw [length_tab]; omega))]

theorem diffCol_tab [Sub T] (hrows : rows < 2 ^ 64) (hle : n.natAbs ≤ rows) :
    diffCol rows n (tab rows h) = .ok () (diffed n (tab rows h)) := by
  rw [diffCol, diffed, length_tab]
  have hnone (x : Option T) : sub x none = none := by cases x <;> rfl
  split
  · next hn =>
      refine (shift_down (g := fun i => sub (h i) (h (i - n.toNat))) hrows hn (by omega)
        fun i h' hi hi' hsame => ?_).trans ?_
      · rw [read_tab _ _ hi', Outcome.bind_ok, read_tab _ _ (by omega), Outcome.bind_ok,
          hsame i le_rfl, hsame _ (by omega)]
      · congr 1
        refine tab_congr fun i hi => ?_
        split
        · rw [cell_tab (by omega) (by omega), cell_tab (by omega) (by omega)]
          congr 2
          omega
        · rw [cell_none (i := i - n) (.inl (by omega)), hnone]
  · next hn =>
      refine (shift_up (g := fun i => sub (h i) (h (i + (-n).toNat))) hrows (by omega)
        fun i h' hi hsame => ?_).trans ?_
      · rw [rowAfter_of_lt hrows hi, read_tab _ _ (by omega), Outcome.bind_ok,
          read_tab _ _ (by omega), Outcome.bind_ok, hsame i le_rfl, hsame _ (by omega)]
      · congr 1
        refine tab_congr fun i hi => ?_
        split
        · rw [cell_tab (by omega) (by omega), cell_tab (by omega) (by omega)]
          congr 2
          omega
        · rw [cell_none (i := i - n) (.inr (by rw [length_tab]; omega)), hnone]

/-! The temporary of a rotation is carried along. -/

theorem save_step {k frm i : Nat} {u : Nat → Option T} (hi : frm ≤ i) (hi' : i < frm + k)
    (hrow : i < rows) :
    ((read (tab rows h, tab k fun j => if frm + j < i then h (frm + j) else u j) (tab rows h) i).bind
        fun x s => keep (i - frm) x s) =
      .ok () (tab rows h, tab k fun j => if frm + j < i + 1 then h (frm + j) else u j) := by
  rw [read_tab _ _ hrow, Outcome.bind_ok, keep, if_pos (by rw [length_tab]; omega), set_tab]
  congr 2
  refine tab_congr fun j _ => ?_
  by_cases hij : j = i - frm
  · subst hij
    rw [Function.update_self, if_pos (by omega), Nat.add_sub_cancel' hi]
  · rw [Function.update_of_ne hij]
    congr 1
    exact propext ⟨fun hj => by omega, fun hj => by omega⟩

theorem save_tab {k frm : Nat} {u : Nat → Option T}
    {body : Nat → List (Option T) × List (Option T) →
      Outcome Exn (List (Option T) × List (Option T)) Unit}
    (hbody : ∀ i s, body i s = (read s s.1 i).bind fun x s => keep (i - frm) x s)
    (hk : frm + k ≤ rows) :
    forUp body k frm (tab rows h, tab k u) = .ok () (tab rows h, tab k fun j => h (frm + j)) := by
  have hstart : tab k u = tab k fun j => if frm + j < frm then h (frm + j) else u j :=
    tab_congr fun j _ => (if_neg (by omega)).symm
  have hend : (tab k fun j => h (frm + j)) =
      tab k fun j => if frm + j < frm + k then h (frm + j) else u j :=
    tab_congr fun j hj => (if_pos (by omega)).symm
  rw [hstart, hend]
  exact @forUp_eq_ok Exn _ body
    (fun i => (tab rows h, tab k fun j => if frm + j < i then h (frm + j) else u j)) k frm
    fun i hi hi' => (hbody i _).trans (save_step hi hi' (by omega))

theorem putBack_tab {col : List (Option T)} {r i m : Nat} {u : Nat → Option T} (hi : i < m) :
    putBack r i (col, tab m u) = (setv r (u i) col).mapState fun col => (col, tab m u) := by
  rw [putBack, getElem?_tab u hi]

theorem shift_part {r i : Nat} {col t : List (Option T)} :
    ((read (col, t) col i).bind fun x s => (setv r x s.1).mapState fun col => (col, s.2)) =
      ((read col col i).bind fun x col => setv r x col).mapState fun col => (col, t) := by
  unfold read
  split
  · rfl
  · split <;> rfl

theorem rotated_tab {i : Nat} (hi : i < rows) :
    (rotated n (tab rows h))[i]? = some (h ((i + ((-n) % rows).toNat) % rows)) := by
  have hlen : (tab rows h).length = rows := length_tab rows h
  rw [rotated, List.getElem?_rotate (by rw [hlen]; exact hi), hlen,
    getElem?_tab _ (Nat.mod_lt _ (by omega))]

theorem eq_rotated {g : Nat → Option T}
    (hg : ∀ i, i < rows → g i = h ((i + ((-n) % rows).toNat) % rows)) :
    tab rows g = rotated n (tab rows h) := by
  apply List.ext_getElem?
  intro i
  rcases Nat.lt_or_ge i rows with hi | hi
  · rw [getElem?_tab g hi, rotated_tab hi, hg i hi]
  · rw [List.getElem?_eq_none (by rw [length_tab]; exact hi),
      List.getElem?_eq_none (by rw [rotated, List.length_rotate, length_tab]; exact hi)]

/-- The row that comes to row `i`. -/
theorem rotate_index {i : Nat} (hi : i < rows) (hle : n.natAbs ≤ rows) :
    (i + ((-n) % rows).toNat) % rows =
      if 0 < n then if i < n.toNat then rows - n.toNat + i else i - n.toNat
      else if i < rows - (-n).toNat then i + (-n).toNat else i - (rows - (-n).toNat) := by
  split
  · next hn =>
      have hmod : ((-n) % rows).toNat = (rows - n.toNat) % rows := by
        have hcast : ((rows - n.toNat : Nat) : Int) = -n + rows := by omega
        rw [← Int.add_emod_right, ← hcast, ← Int.natCast_mod, Int.toNat_natCast]
      rw [hmod, Nat.add_mod_mod]
      split
      · rw [Nat.mod_eq_of_lt (by omega)]
        omega
      · rw [show i + (rows - n.toNat) = rows + (i - n.toNat) by omega, Nat.add_mod_left,
          Nat.mod_eq_of_lt (by omega)]
  · next hn =>
      have hmod : ((-n) % rows).toNat = (-n).toNat % rows := by
        have hcast : (((-n).toNat : Nat) : Int) = -n := by omega
        rw [← hcast, ← Int.natCast_mod, Int.toNat_natCast, Int.toNat_natCast]
      rw [hmod, Nat.add_mod_mod]
      split
      · exact Nat.mod_eq_of_lt (by omega)
      · rw [show i + (-n).toNat = rows + (i - (rows - (-n).toNat)) by omega, Nat.add_mod_left,
          Nat.mod_eq_of_lt (by omega)]

/-- Downwards. -/
theorem rotateCol_down {u : Nat → Option T} (hrows : rows < 2 ^ 64) (hle : n.natAbs ≤ rows)
    (hn : 0 < n) : ∃ u', rotateCol rows n (tab rows h, tab n.natAbs u) =
      .ok () (rotated n (tab rows h), tab n.natAbs u') := by
  rw [rotateCol, if_pos hn]
  have habs : n.natAbs = n.toNat := by omega
  have hfrm : rows - wsub rows n.toNat = n.toNat := by
    rw [wsub_of_le hrows (by omega)]
    omega
  refine ⟨fun j => h (wsub rows n.toNat + j), ?_⟩
  rw [habs]
  simp only
  rw [hfrm, save_tab (fun _ _ => rfl) (by rw [wsub_of_le hrows (by omega)]; omega),
    Outcome.bind_ok, wsub_of_le hrows (by omega), wsub_of_le hrows (by omega)]
  generalize hu : (fun j => h (rows - n.toNat + j)) = u'
  rw [forDown_mapState (f := fun col => (col, tab n.toNat u')) fun i col _ _ => shift_part,
    forDown_tab (g := fun i => h (i - n.toNat)) (by omega) (by omega) fun i h' hi hi' hsame => by
      rw [read_tab _ _ (by omega), Outcome.bind_ok, hsame _ (by omega)],
    Outcome.mapState_ok, Outcome.bind_ok,
    forUp_mapState (f := fun col => (col, tab n.toNat u')) fun i col _ hi => putBack_tab (by omega),
    forUp_tab (g := u') (by omega) fun i h' _ _ _ => rfl, Outcome.mapState_ok]
  congr 2
  refine eq_rotated fun i hi => ?_
  rw [rotate_index hi hle, if_pos hn, ← hu]
  by_cases hin : i < n.toNat
  · rw [if_pos (by omega), if_pos hin]
  · rw [if_neg (by omega), if_neg hin, if_pos (by omega)]

/-- Upwards. -/
theorem rotateCol_up {u : Nat → Option T} (hrows : rows < 2 ^ 64) (hle : n.natAbs ≤ rows)
    (hn : ¬0 < n) : ∃ u', rotateCol rows n (tab rows h, tab n.natAbs u) =
      .ok () (rotated n (tab rows h), tab n.natAbs u') := by
  rw [rotateCol, if_neg hn]
  have habs : n.natAbs = (-n).toNat := by omega
  have hupto : wsub rows (-n).toNat = rows - (-n).toNat := wsub_of_le hrows (by omega)
  have hrest : rows - (rows - (-n).toNat) = (-n).toNat := by omega
  refine ⟨fun j => h (0 + j), ?_⟩
  rw [habs]
  simp only
  rw [@save_tab T h rows (-n).toNat 0 u _ (fun i s => by rw [Nat.sub_zero]) (by omega),
    Outcome.bind_ok, hupto, hrest]
  generalize hu : (fun j => h (0 + j)) = u'
  rw [forUp_mapState (f := fun col => (col, tab (-n).toNat u')) fun i col _ _ => shift_part,
    forUp_tab (g := fun i => h (i + (-n).toNat)) (by omega) fun i h' _ hi hsame => by
      rw [rowAfter_of_lt hrows (by omega), read_tab _ _ (by omega), Outcome.bind_ok,
        hsame _ (by omega)],
    Outcome.mapState_ok, Outcome.bind_ok,
    forUp_mapState (f := fun col => (col, tab (-n).toNat u')) fun i col hi hi' =>
      putBack_tab (by omega),
    forUp_tab (g := fun i => u' (i - (rows - (-n).toNat))) (by omega) fun i h' _ _ _ => rfl,
    Outcome.mapState_ok]
  congr 2
  refine eq_rotated fun i hi => ?_
  rw [rotate_index hi hle, if_neg hn, ← hu]
  by_cases hin : i < rows - (-n).toNat
  · rw [if_neg (by omega), if_pos (by omega), if_pos hin]
  · rw [if_pos (by omega), if_neg hin]
    simp only [Nat.zero_add]

theorem rotateCol_tab {u : Nat → Option T} (hrows : rows < 2 ^ 64) (hle : n.natAbs ≤ rows) :
    ∃ u', rotateCol rows n (tab rows h, tab n.natAbs u) =
      .ok () (rotated n (tab rows h), tab n.natAbs u') := by
  by_cases hn : 0 < n
  · exact rotateCol_down hrows hle hn
  · exact rotateCol_up hrows hle hn

/-! Beyond the rows, downwards: the column is written over before anything is noticed. -/

theorem wsub_beyond {m : Nat} (hm : m < 2 ^ 63 + 1) (h : rows < m) : rows < wsub rows m := by
  rw [wsub, wrap]
  omega

theorem moveCol_beyond (hrows : rows < 2 ^ 64) (hpos : 0 < rows) (hn : (rows : Int) < n) :
    moveCol rows n (tab rows h) =
      .throw (.rangeError "subscript out of bounds") (tab rows fun _ => none) := by
  rw [moveCol, if_pos (by omega)]
  simp only
  rw [wsub_of_le hrows hpos, forDown_below (by omega), Outcome.bind_ok, vacate_beyond (by omega)]

theorem rotateCol_beyond {u : Nat → Option T} (hrows : rows < 2 ^ 64) (hpos : 0 < rows)
    (hn : (rows : Int) < n) (hn' : n < 2 ^ 63) :
    rotateCol rows n (tab rows h, tab n.natAbs u) =
      .throw (.rangeError "subscript out of bounds") (tab rows u, tab n.natAbs u) := by
  rw [rotateCol, if_pos (by omega)]
  simp only
  have hover := @wsub_beyond rows n.toNat (by omega) (by omega)
  rw [show rows - wsub rows n.toNat = 0 by omega, forUp, Outcome.bind_ok, wsub_of_le hrows hpos,
    forDown_below (by omega), Outcome.bind_ok,
    forUp_mapState (f := fun col => (col, tab n.natAbs u)) fun i col _ hi => putBack_tab (by omega),
    forUp_beyond (g := u) (by omega) fun i h' _ => rfl, Outcome.mapState_throw]

/-! Beyond the rows, upwards: the first cell to be read is not there. -/

theorem forUp_first {α : Type} {body : Nat → List α → Outcome Exn (List α) Unit} {k : Nat}
    {col : List α} {o : Outcome Exn (List α) Unit} (hk : 0 < k) (hbody : body 0 col = o)
    (ho : ∀ f : Unit → List α → Outcome Exn (List α) Unit, o.bind f = o) : forUp body k 0 col = o := by
  obtain ⟨k, rfl⟩ := Nat.exists_eq_succ_of_ne_zero (Nat.pos_iff_ne_zero.1 hk)
  rw [forUp, hbody, ho]

theorem rowAfter_zero {m : Nat} (hm : m < 2 ^ 63 + 1) : rowAfter 0 m = m := by
  rw [rowAfter, Nat.zero_add, wrap_of_lt (by omega)]

theorem moveCol_above {col : List (Option T)} (hcol : col.length = rows) (hpos : 0 < rows)
    (hn : n < -rows) (hn' : -2 ^ 63 ≤ n) :
    moveCol rows n col = .throw (.outOfRange "subscript out of bounds") col := by
  have hne : col ≠ [] := List.ne_nil_of_length_pos (by omega)
  have hover := @wsub_beyond rows (-n).toNat (by omega) (by omega)
  rw [moveCol, if_neg (by omega)]
  simp only
  rw [forUp_first (by omega) (by rw [rowAfter_zero (by omega), read_beyond _ hne (by omega),
    Outcome.bind_throw]) fun _ => rfl, Outcome.bind_throw]

/-- An empty column is read outside of what it holds. -/
theorem moveCol_empty (hn : n ≠ 0) (hn' : -2 ^ 63 ≤ n) (hn'' : n < 2 ^ 63) :
    moveCol (T := T) 0 n [] = .fault := by
  rw [moveCol]
  split
  · next hpos =>
      have hlast : wsub 0 1 = 2 ^ 64 - 1 := rfl
      simp only
      rw [hlast, forDown_first (by omega) (by omega)]
      rfl
  · next hneg =>
      have hupto := @wsub_beyond 0 (-n).toNat (by omega) (by omega)
      simp only
      rw [forUp_first hupto rfl fun _ => rfl]
      rfl

theorem diffCol_above [Sub T] {col : List (Option T)} (hcol : col.length = rows) (hpos : 0 < rows)
    (hn : n < -rows) (hn' : -2 ^ 63 ≤ n) :
    diffCol rows n col = .throw (.outOfRange "subscript out of bounds") col := by
  have hne : col ≠ [] := List.ne_nil_of_length_pos (by omega)
  have hover := @wsub_beyond rows (-n).toNat (by omega) (by omega)
  obtain ⟨x, hx⟩ : ∃ x, read col col 0 = .ok x col := by
    rw [read, if_neg hne, List.getElem?_eq_getElem (by omega)]
    exact ⟨_, rfl⟩
  rw [diffCol, if_neg (by omega)]
  simp only
  rw [forUp_first (by omega) (by rw [hx, Outcome.bind_ok, rowAfter_zero (by omega),
    read_beyond _ hne (by omega), Outcome.bind_throw]) fun _ => rfl, Outcome.bind_throw]

theorem rotateCol_above {u : Nat → Option T} (hpos : 0 < rows) (hn : n < -rows) :
    ∃ t, rotateCol rows n (tab rows h, tab n.natAbs u) =
      .throw (.outOfRange "subscript out of bounds") (tab rows h, t) := by
  have habs : n.natAbs = (-n).toNat := by omega
  refine ⟨tab (-n).toNat fun j => if 0 + j < 0 + rows then h (0 + j) else u j, ?_⟩
  rw [rotateCol, if_neg (by omega), habs]
  simp only
  have hstart : tab (-n).toNat u = tab (-n).toNat fun j => if 0 + j < 0 then h (0 + j) else u j :=
    tab_congr fun j _ => (if_neg (by omega)).symm
  rw [hstart, @forUp_eq_stop Exn _ _
    (fun i => (tab rows h, tab (-n).toNat fun j => if 0 + j < i then h (0 + j) else u j)) rows
    (-n).toNat 0 (.throw (.outOfRange "subscript out of bounds") _) (by omega)
    (fun i hi hi' => save_step hi (by omega) (by omega))
    (by rw [read_beyond _ (tab_ne_nil h hpos) (by rw [length_tab, Nat.zero_add]), Outcome.bind_throw])
    fun _ => rfl, Outcome.bind_throw]

end Column

/-! ## The whole array -/

section Whole

variable {n : Int}

theorem move_inplace_eq {a : Columns (Option T)} (hle : n.natAbs ≤ a.rows) :
    move_inplace n a = .ok () (a.v.map (moved n)) := by
  refine eachCol_eq_ok fun c hc => ?_
  obtain ⟨h, rfl⟩ := exists_tab hc
  exact moveCol_tab a.rows_lt hle

theorem diff_inplace_eq [Sub T] {a : Columns (Option T)} (hle : n.natAbs ≤ a.rows) :
    diff_inplace n a = .ok () (a.v.map (diffed n)) := by
  refine eachCol_eq_ok fun c hc => ?_
  obtain ⟨h, rfl⟩ := exists_tab hc
  exact diffCol_tab a.rows_lt hle

theorem rotate_inplace_eq [Zero T] {a : Columns (Option T)} (hle : n.natAbs ≤ a.rows) :
    rotate_inplace n a = .ok () (a.v.map (rotated n)) := by
  obtain ⟨t, hrun, -⟩ := eachColWith_eq_ok (f := rotateCol a.rows n)
    (g := rotated (T := T) n)
    (P := fun t => ∃ u : Nat → Option T, t = tab n.natAbs u) (t := List.replicate n.natAbs (some 0))
    (fun c hc t ht => by
      obtain ⟨h, rfl⟩ := exists_tab hc
      obtain ⟨u, rfl⟩ := ht
      obtain ⟨u', hu'⟩ := @rotateCol_tab T h a.rows n u a.rows_lt hle
      exact ⟨_, hu', u', rfl⟩)
    ⟨fun _ => some 0, by rw [tab, List.map_const', List.length_range]⟩
  rw [rotate_inplace, hrun, Outcome.mapState_ok]

/-- A rotation and its opposite. -/
theorem rotated_neg (col : List (Option T)) : rotated (-n) (rotated n col) = col := by
  rcases Nat.eq_zero_or_pos col.length with hnil | hpos
  · rw [List.eq_nil_of_length_eq_zero hnil]
    rfl
  · have hlen : (rotated n col).length = col.length := List.length_rotate ..
    rw [rotated, hlen, rotated, List.rotate_rotate, Int.neg_neg]
    have h1 := Int.emod_nonneg (-n) (b := col.length) (by omega)
    have h2 := Int.emod_nonneg n (b := col.length) (by omega)
    have hdvd : (col.length : Int) ∣ -n % col.length + n % col.length := by
      rw [Int.dvd_iff_emod_eq_zero, ← Int.add_emod, Int.add_comm, Int.add_right_neg, Int.zero_emod]
    rw [← Int.toNat_of_nonneg h1, ← Int.toNat_of_nonneg h2, ← Int.natCast_add,
      Int.natCast_dvd_natCast] at hdvd
    obtain ⟨k, hk⟩ := hdvd
    rw [hk, List.rotate_length_mul]

/-- What is asked of the three functions. -/
structure ShiftsBy [Sub T] [Zero T] (n : Int) (a : Columns (Option T)) : Prop where
  within : n.natAbs ≤ a.rows →
    move_inplace n a = .ok () (a.v.map (moved n)) ∧
      rotate_inplace n a = .ok () (a.v.map (rotated n)) ∧
        diff_inplace n a = .ok () (a.v.map (diffed n))
  back : n.natAbs ≤ a.rows → ∀ b : Columns (Option T), b.rows = a.rows →
    rotate_inplace n a = .ok () b.v → rotate_inplace (-n) b = .ok () a.v
  beyond : a.rows < n.natAbs →
    (∃ e, move_inplace n a = .throw e a.v) ∧ (∃ e, rotate_inplace n a = .throw e a.v) ∧
      ∃ e, diff_inplace n a = .throw e a.v

theorem replicate_eq_tab (k : Nat) (x : Option T) : List.replicate k x = tab k fun _ => x := by
  rw [tab, List.map_const', List.length_range]

/-- Upwards beyond the rows the first read throws, with nothing changed. -/
theorem throws_above [Sub T] [Zero T] {a : Columns (Option T)} (hn : -2 ^ 63 ≤ n) (hneg : n < 0)
    (hover : a.rows < n.natAbs) (hpos : 0 < a.rows) (hne : a.v ≠ []) :
    (∃ e, move_inplace n a = .throw e a.v) ∧ (∃ e, rotate_inplace n a = .throw e a.v) ∧
      ∃ e, diff_inplace n a = .throw e a.v := by
  obtain ⟨c, cs, hv⟩ := List.exists_cons_of_ne_nil hne
  have hc : c ∈ a.v := by
    rw [hv]
    exact List.mem_cons_self
  have hlen := a.full c hc
  refine ⟨⟨.outOfRange "subscript out of bounds", ?_⟩, ⟨.outOfRange "subscript out of bounds", ?_⟩,
    ⟨.outOfRange "subscript out of bounds", ?_⟩⟩
  · rw [move_inplace, hv, eachCol_throw (moveCol_above hlen hpos (by omega) hn)]
  · obtain ⟨h, rfl⟩ := exists_tab hc
    obtain ⟨t, ht⟩ := @rotateCol_above T h a.rows n (fun _ => some 0) hpos (by omega)
    rw [rotate_inplace, hv, replicate_eq_tab, eachColWith_throw ht]
    rfl
  · rw [diff_inplace, hv, eachCol_throw (diffCol_above hlen hpos (by omega) hn)]

/-- Downwards beyond the rows the first cell is NaN for the one and zero for the other. -/
theorem not_both_throw [Sub T] [Zero T] {a : Columns (Option T)} {e e' : Exn} (hn : n < 2 ^ 63)
    (hover : (a.rows : Int) < n) (hpos : 0 < a.rows) (hne : a.v ≠ []) :
    ¬ (move_inplace n a = .throw e a.v ∧ rotate_inplace n a = .throw e' a.v) := by
  intro ⟨hmove, hrotate⟩
  obtain ⟨c, cs, hv⟩ := List.exists_cons_of_ne_nil hne
  have hc : c ∈ a.v := by
    rw [hv]
    exact List.mem_cons_self
  obtain ⟨h, rfl⟩ := exists_tab hc
  rw [move_inplace, hv, eachCol_throw (moveCol_beyond a.rows_lt hpos hover)] at hmove
  rw [rotate_inplace, hv, replicate_eq_tab,
    eachColWith_throw (rotateCol_beyond a.rows_lt hpos hover hn)] at hrotate
  injection hmove with _ hmove
  injection hrotate with _ hrotate
  have hnan := tab_inj (List.cons.inj hmove).1 hpos
  have hzero := tab_inj (List.cons.inj hrotate).1 hpos
  rw [← hnan] at hzero
  cases hzero

/-- They do as asked when `n` is within the rows, and upwards beyond them as long as there is
a cell that can be read at all. -/
theorem shiftsBy_iff [Sub T] [Zero T] {a : Columns (Option T)} (hn : -2 ^ 63 ≤ n) (hn' : n < 2 ^ 63) :
    ShiftsBy n a ↔ n.natAbs ≤ a.rows ∨ n < 0 ∧ 0 < a.rows ∧ a.v ≠ [] := by
  constructor
  · intro h
    by_contra hnot
    have hover : a.rows < n.natAbs := by
      by_contra hle
      exact hnot (.inl (Nat.not_lt.1 hle))
    obtain ⟨⟨e, hmove⟩, ⟨e', hrotate⟩, -⟩ := h.beyond hover
    by_cases hne : a.v = []
    · rw [move_inplace, hne] at hmove
      cases hmove
    rcases Nat.eq_zero_or_pos a.rows with hzero | hpos
    · obtain ⟨c, cs, hv⟩ := List.exists_cons_of_ne_nil hne
      have hnil : c = [] := List.eq_nil_of_length_eq_zero
        ((a.full c (by rw [hv]; exact List.mem_cons_self)).trans hzero)
      rw [move_inplace, hv, hnil, hzero, eachCol_fault (moveCol_empty (by omega) hn hn')] at hmove
      cases hmove
    · have hdown : (a.rows : Int) < n := by
        by_contra hup
        exact hnot (.inr ⟨by omega, hpos, hne⟩)
      exact not_both_throw hn' hdown hpos hne ⟨hmove, hrotate⟩
  · intro h
    refine ⟨fun hle => ⟨move_inplace_eq hle, rotate_inplace_eq hle, diff_inplace_eq hle⟩, ?_, ?_⟩
    · intro hle b hrows hb
      rw [rotate_inplace_eq hle] at hb
      injection hb with _ hb
      rw [rotate_inplace_eq (by rw [Int.natAbs_neg, hrows]; exact hle), ← hb, List.map_map]
      congr 1
      exact List.map_id'' (f := rotated (-n) ∘ rotated n) (fun c => rotated_neg c) a.v
    · intro hover
      obtain ⟨hneg, hpos, hne⟩ := h.resolve_left (Nat.not_le.2 hover)
      exact throws_above hn hneg hover hpos hne

/-- Two columns of three rows, one missing cell, and a shift by more than the rows upwards. -/
theorem shiftsBy_iff_three :
    ShiftsBy (-4) (⟨3, [[some 1, none, some 3], [some 4, some 5, some 6]], by decide, by decide, by decide⟩ :
      Columns (Option Int)) :=
  (shiftsBy_iff (by decide) (by decide)).2 (.inr ⟨by decide, by decide, List.cons_ne_nil _ _⟩)

/-- By more than the rows downwards: the column is lost. -/
theorem not_shiftsBy :
    ¬ ShiftsBy 3 (⟨2, [[some 1, some 2]], by decide, by decide, by decide⟩ : Columns (Option Int)) := by
  intro h
  obtain ⟨⟨e, hmove⟩, -, -⟩ := h.beyond (by decide)
  have hrun : move_inplace 3 (⟨2, [[some 1, some 2]], by decide, by decide, by decide⟩ : Columns (Option Int)) =
      .throw (.rangeError "subscript out of bounds") [[none, none]] := rfl
  rw [hrun] at hmove
  injection hmove with _ hmove
  exact absurd hmove (by decide)

end Whole

end Columns

end Ztsdb.Arr
