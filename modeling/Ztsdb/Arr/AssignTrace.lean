import Mathlib
import Ztsdb.Arr.Vector
import Ztsdb.Lib.Outcome

/-!
# The writes of an assignment

Which places an assignment writes, and where it stops, depends on its indices and on the
shape of the array alone. A `Trace` is that: the columns it comes to, the writes with the
place of the replacement each of them takes, and an end. What the columns and the replacement
hold is only looked at when the trace is executed.

Of a trace it can be seen whether it comes to its end (`fits`), and whether it stops before
it has written anything (`barren`). In between it leaves an array that is neither what it was
nor what it was to become: `exec_of_barren` and `exec_of_fits` have the two good cases, and
`wrote_of_throw` has the bad one.
-/

namespace Ztsdb.Arr

open Ztsdb.Lib

inductive Trace where
  | done
  | fail (e : Exn)
  | fault
  | column (col : Nat) (rest : Trace)
  | write (col pos place : Nat) (checkbefore : Bool) (rest : Trace)

/-- The element at place `pos` of a column. -/
def cell {T : Type} (cols : List (Vector T)) (col pos : Nat) : Option T :=
  cols[col]?.bind fun c => c.v[pos]?

namespace Trace

section Exec

variable {T : Type} (O : T → T → Bool) (src : Nat → Option T)

/-- The trace on the columns; `src` has the replacements by their places. -/
def exec : Trace → List (Vector T) → Outcome Exn (List (Vector T)) Unit
  | .done, cols => .ok () cols
  | .fail e, cols => .throw e cols
  | .fault, _ => .fault
  | .column col t, cols =>
    if cols.length ≤ col then .throw (.rangeError "subscript out of bounds") cols
    else t.exec cols
  | .write col pos place checkbefore t, cols =>
    match src place with
    | none => .throw (.outOfRange "subscript out of bounds") cols
    | some x =>
      match cols[col]? with
      | none => .fault
      | some c =>
        ((if checkbefore then c.setv_checkbefore O pos x else c.setv O pos x).mapState
          fun c => cols.set col c).bind fun _ cols => t.exec cols

end Exec

/-! ## What can be seen of a trace -/

section Shape

variable (sizes : List Nat) (avail : Nat → Bool)

/-- Every column and every place of it is there, and so is every replacement. -/
def fits : Trace → Bool
  | .done => true
  | .fail _ => false
  | .fault => false
  | .column col t => decide (col < sizes.length) && t.fits
  | .write col pos place _ t =>
    avail place && (sizes[col]?.any fun m => decide (pos < m)) && t.fits

/-- It stops before the first write. -/
def barren : Trace → Bool
  | .done => false
  | .fail _ => true
  | .fault => false
  | .column col t => decide (sizes.length ≤ col) || t.barren
  | .write col pos place _ _ => !avail place || sizes[col]?.any fun m => decide (m ≤ pos)

end Shape

/-- A write goes to this place. -/
def writesTo (col pos : Nat) : Trace → Bool
  | .column _ t => t.writesTo col pos
  | .write c p _ _ t => (decide (c = col) && decide (p = pos)) || t.writesTo col pos
  | _ => false

/-! ## One write -/

section Write

variable {T : Type} {O : T → T → Bool} {cols : List (Vector T)} {col pos : Nat} {c : Vector T}
  {x : T} {checkbefore : Bool}

/-- A write past the end throws, any other changes one element, and maybe the flag. -/
theorem write_cases : (c.size ≤ pos ∧ ∃ e,
      (if checkbefore then c.setv_checkbefore O pos x else c.setv O pos x) = .throw e c) ∨
    pos < c.size ∧ ∃ o,
      (if checkbefore then c.setv_checkbefore O pos x else c.setv O pos x) =
        .ok () { c with v := c.v.set pos x, ordered := o } := by
  rcases Nat.lt_or_ge pos c.size with hlt | hle
  · refine .inr ⟨hlt, ?_⟩
    cases checkbefore with
    | true => exact ⟨_, if_neg (Nat.not_le_of_lt hlt)⟩
    | false => exact ⟨_, if_neg (Nat.not_le_of_lt hlt)⟩
  · refine .inl ⟨hle, ?_⟩
    cases checkbefore with
    | true => exact ⟨_, if_pos hle⟩
    | false => exact ⟨_, if_pos hle⟩

theorem sizes_set (hc : cols[col]? = some c) {o : Bool} :
    (cols.set col { c with v := c.v.set pos x, ordered := o }).map Vector.size =
      cols.map Vector.size := by
  rw [List.map_set]
  refine List.ext_getElem? fun j => ?_
  rw [List.getElem?_set]
  split
  · next hj =>
      subst hj
      obtain ⟨hlt, rfl⟩ := List.getElem?_eq_some_iff.1 hc
      rw [if_pos (by rwa [List.length_map]), List.getElem?_map, hc, Vector.size,
        List.length_set]
      rfl
  · rfl

theorem cell_set_self (hc : cols[col]? = some c) (hp : pos < c.size) {o : Bool} :
    cell (cols.set col { c with v := c.v.set pos x, ordered := o }) col pos = some x := by
  obtain ⟨hlt, -⟩ := List.getElem?_eq_some_iff.1 hc
  rw [cell, List.getElem?_set_self hlt, Option.bind_some, List.getElem?_set_self hp]

theorem cell_set_ne (hc : cols[col]? = some c) {col' pos' : Nat} (h : ¬(col = col' ∧ pos = pos'))
    {o : Bool} :
    cell (cols.set col { c with v := c.v.set pos x, ordered := o }) col' pos' =
      cell cols col' pos' := by
  rw [cell, cell]
  by_cases hcol : col = col'
  · subst hcol
    obtain ⟨hlt, -⟩ := List.getElem?_eq_some_iff.1 hc
    rw [List.getElem?_set_self hlt, hc, Option.bind_some, Option.bind_some,
      List.getElem?_set_ne fun hp => h ⟨rfl, hp⟩]
  · rw [List.getElem?_set_ne hcol]

end Write

/-! ## Executions -/

section Run

variable {T : Type} {O : T → T → Bool} {src : Nat → Option T} {sizes : List Nat}
  {avail : Nat → Bool} {t : Trace} {cols cols' : List (Vector T)}

/-- A write finds nothing to write or no place for it, or it is made and the rest follows. -/
theorem exec_write (col pos place : Nat) (checkbefore : Bool) (t : Trace)
    (cols : List (Vector T)) :
    ((src place = none ∨ ∃ c, cols[col]? = some c ∧ c.size ≤ pos) ∧
        ∃ e, (write col pos place checkbefore t).exec O src cols = .throw e cols) ∨
      ((∃ x, src place = some x) ∧ cols[col]? = none ∧
        (write col pos place checkbefore t).exec O src cols = .fault) ∨
      ∃ x c o, src place = some x ∧ cols[col]? = some c ∧ pos < c.size ∧
        (write col pos place checkbefore t).exec O src cols =
          t.exec O src (cols.set col { c with v := c.v.set pos x, ordered := o }) := by
  rw [exec]
  cases hx : src place with
  | none => exact .inl ⟨.inl rfl, _, rfl⟩
  | some x =>
      cases hc : cols[col]? with
      | none => exact .inr (.inl ⟨⟨x, rfl⟩, rfl, rfl⟩)
      | some c =>
          rcases @write_cases T O pos c x checkbefore with ⟨hle, e, hwrite⟩ | ⟨hlt, o, hwrite⟩
          · refine .inl ⟨.inr ⟨c, rfl, hle⟩, e, ?_⟩
            obtain ⟨hcol, rfl⟩ := List.getElem?_eq_some_iff.1 hc
            simp only [hwrite, Outcome.mapState_throw, Outcome.bind_throw,
              List.set_getElem_self hcol]
          · refine .inr (.inr ⟨x, c, o, rfl, rfl, hlt, ?_⟩)
            simp only [hwrite, Outcome.mapState_ok, Outcome.bind_ok]

/-- A trace that fits is executed: every place it writes has a replacement, the others have
what they had. -/
theorem exec_of_fits (havail : ∀ k, avail k = (src k).isSome)
    (hsizes : cols.map Vector.size = sizes) (h : t.fits sizes avail = true) :
    ∃ cols', t.exec O src cols = .ok () cols' ∧ ∀ col pos,
      (t.writesTo col pos = true → ∃ k x, src k = some x ∧ cell cols' col pos = some x) ∧
        (t.writesTo col pos = false → cell cols' col pos = cell cols col pos) := by
  induction t generalizing cols with
  | done => exact ⟨cols, rfl, fun _ _ => ⟨nofun, fun _ => rfl⟩⟩
  | fail e => cases h
  | fault => cases h
  | column col t ih =>
      rw [fits, Bool.and_eq_true, decide_eq_true_eq] at h
      obtain ⟨cols', hexec, hcells⟩ := ih hsizes h.2
      refine ⟨cols', ?_, hcells⟩
      rw [exec, if_neg, hexec]
      rw [← hsizes, List.length_map] at h
      exact Nat.not_le_of_lt h.1
  | write col pos place cb t ih =>
      rw [fits, Bool.and_eq_true, Bool.and_eq_true, havail, ← hsizes, List.getElem?_map] at h
      obtain ⟨⟨hsome, hin⟩, hfits⟩ := h
      rcases @exec_write T O src col pos place cb t cols with
        ⟨hnone | ⟨c, hc, hle⟩, -⟩ | ⟨-, hc, -⟩ | ⟨x, c, o, hx, hc, hp, hexec⟩
      · rw [hnone] at hsome
        cases hsome
      · rw [hc] at hin
        exact absurd (of_decide_eq_true hin) (Nat.not_lt_of_le hle)
      · rw [hc] at hin
        cases hin
      rw [hsizes] at hfits
      obtain ⟨cols', hrest, hcells⟩ := ih ((sizes_set hc).trans hsizes) hfits
      refine ⟨cols', hexec.trans hrest, fun col' pos' => ?_⟩
      obtain ⟨hto, hnot⟩ := hcells col' pos'
      rw [writesTo]
      by_cases hthis : col = col' ∧ pos = pos'
      · obtain ⟨rfl, rfl⟩ := hthis
        refine ⟨fun _ => ?_, by simp⟩
        cases hlater : t.writesTo col pos with
        | true => exact hto hlater
        | false => exact ⟨place, x, hx, by rw [hnot hlater, cell_set_self hc hp]⟩
      · have hno : (decide (col = col') && decide (pos = pos')) = false := by
          rw [← Bool.decide_and]
          exact decide_eq_false hthis
        rw [hno, Bool.false_or]
        exact ⟨hto, fun hlater => by rw [hnot hlater, cell_set_ne hc hthis]⟩

/-- Nothing else is executed to its end. -/
theorem fits_of_ok (havail : ∀ k, avail k = (src k).isSome)
    (hsizes : cols.map Vector.size = sizes) (h : t.exec O src cols = .ok () cols') :
    t.fits sizes avail = true := by
  induction t generalizing cols with
  | done => rfl
  | fail e => cases h
  | fault => cases h
  | column col t ih =>
      rw [exec] at h
      split at h
      · cases h
      · next hlt =>
          rw [fits, Bool.and_eq_true, decide_eq_true_eq, ← hsizes, List.length_map, hsizes]
          exact ⟨Nat.lt_of_not_le hlt, ih hsizes h⟩
  | write col pos place cb t ih =>
      rcases @exec_write T O src col pos place cb t cols with
        ⟨-, e, hthrow⟩ | ⟨-, -, hfault⟩ | ⟨x, c, o, hx, hc, hp, hexec⟩
      · rw [hthrow] at h
        cases h
      · rw [hfault] at h
        cases h
      · have hrest := ih ((sizes_set hc).trans hsizes) (hexec.symm.trans h)
        have hin : (sizes[col]?.any fun m => decide (pos < m)) = true := by
          rw [← hsizes, List.getElem?_map, hc]
          exact decide_eq_true hp
        rw [fits, havail, hx, hin, hrest]
        rfl

/-- A barren trace throws, and leaves the columns alone. -/
theorem exec_of_barren (havail : ∀ k, avail k = (src k).isSome)
    (hsizes : cols.map Vector.size = sizes) (h : t.barren sizes avail = true) :
    ∃ e, t.exec O src cols = .throw e cols := by
  induction t with
  | done => cases h
  | fail e => exact ⟨e, rfl⟩
  | fault => cases h
  | column col t ih =>
      rw [exec]
      split
      · exact ⟨_, rfl⟩
      · next hlt =>
          rw [barren, ← hsizes, List.length_map, decide_eq_false hlt, Bool.false_or, hsizes] at h
          exact ih h
  | write col pos place cb t ih =>
      rw [barren, havail, ← hsizes, List.getElem?_map] at h
      rcases @exec_write T O src col pos place cb t cols with
        ⟨-, hthrow⟩ | ⟨⟨x, hx⟩, hc, -⟩ | ⟨x, c, o, hx, hc, hp, -⟩
      · exact hthrow
      · rw [hx, hc] at h
        cases h
      · rw [hx, hc] at h
        simp only [Option.isSome_some, Bool.not_true, Option.map_some, Option.any_some,
          Bool.false_or, decide_eq_true_eq] at h
        exact absurd hp (Nat.not_lt_of_le h)

/-! One replacement for all places. -/

/-- What was replaced stays so. -/
theorem cell_keeps {v : T} (hsrc : ∀ k x, src k = some x → x = v) {e : Exn}
    (h : t.exec O src cols = .throw e cols') {col pos : Nat} (hcell : cell cols col pos = some v) :
    cell cols' col pos = some v := by
  induction t generalizing cols with
  | done => cases h
  | fail e =>
      cases h
      exact hcell
  | fault => cases h
  | column col t ih =>
      rw [exec] at h
      split at h
      · cases h
        exact hcell
      · exact ih h hcell
  | write col' pos' place cb t ih =>
      rcases @exec_write T O src col' pos' place cb t cols with
        ⟨-, e, hthrow⟩ | ⟨-, -, hfault⟩ | ⟨x, c, o, hx, hc, hp, hexec⟩
      · rw [hthrow] at h
        cases h
        exact hcell
      · rw [hfault] at h
        cases h
      · refine ih (hexec.symm.trans h) ?_
        by_cases hthis : col' = col ∧ pos' = pos
        · obtain ⟨rfl, rfl⟩ := hthis
          rw [cell_set_self hc hp, hsrc place x hx]
        · rw [cell_set_ne hc hthis, hcell]

/-- A trace that is not barren and throws has replaced something. -/
theorem wrote_of_throw {v : T} (hsrc : ∀ k x, src k = some x → x = v)
    (havail : ∀ k, avail k = (src k).isSome) (hsizes : cols.map Vector.size = sizes)
    (hbarren : t.barren sizes avail = false) {e : Exn}
    (h : t.exec O src cols = .throw e cols') : ∃ col pos, cell cols' col pos = some v := by
  induction t generalizing cols with
  | done => cases h
  | fail e => cases hbarren
  | fault => cases h
  | column col t ih =>
      rw [barren, Bool.or_eq_false_iff, ← hsizes, List.length_map, hsizes] at hbarren
      rw [exec, if_neg (of_decide_eq_false hbarren.1)] at h
      exact ih hsizes hbarren.2 h
  | write col pos place cb t ih =>
      rw [barren, havail, ← hsizes, List.getElem?_map] at hbarren
      rcases @exec_write T O src col pos place cb t cols with
        ⟨hnone | ⟨c, hc, hle⟩, -⟩ | ⟨-, -, hfault⟩ | ⟨x, c, o, hx, hc, hp, hexec⟩
      · rw [hnone] at hbarren
        cases hbarren
      · rw [hc] at hbarren
        simp [hle] at hbarren
      · rw [hfault] at h
        cases h
      · refine ⟨col, pos, cell_keeps hsrc (hexec.symm.trans h) ?_⟩
        rw [cell_set_self hc hp, hsrc place x hx]

end Run

end Trace

end Ztsdb.Arr
