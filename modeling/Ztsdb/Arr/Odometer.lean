import Mathlib
import Ztsdb.Arr.GridVector

/-!
# The odometer over the columns

The cursors of the indices of all dimensions but the first turn like an odometer, the first
of them fastest. What it shows, one reading after the other, are the tuples of the selected
positions; `after` says which are left to come, and each turn takes the first of them.
-/

namespace Ztsdb.Arr

open Ztsdb.Lib

/-- The tuples of one position of each list, the first position moving fastest. -/
def combos : List (List Nat) → List (List Nat)
  | [] => [[]]
  | ps :: pss => (combos pss).flatMap fun t => ps.map (· :: t)

theorem length_combos (pss : List (List Nat)) :
    (combos pss).length = (pss.map List.length).prod := by
  induction pss with
  | nil => rfl
  | cons ps pss ih =>
      rw [combos, List.length_flatMap, List.map_cons, List.prod_cons, ← ih]
      simp [Nat.mul_comm]

theorem length_combos_positions (is : List Index) :
    (combos (is.map Index.positions)).length = (is.map Indexing.size).prod := by
  rw [length_combos, List.map_map]
  exact congrArg List.prod (List.map_congr_left fun i _ => i.length_positions)

/-- One wheel: the position it shows, those to come before it starts again, and all of them. -/
structure Wheel where
  x : Nat
  l : List Nat
  ps : List Nat

def current (ws : List Wheel) : List Nat := ws.map Wheel.x

/-- The readings to come. -/
def after : List Wheel → List (List Nat)
  | [] => []
  | w :: ws => w.l.map (· :: current ws) ++ (after ws).flatMap fun t => w.ps.map (· :: t)

/-- The cursors stand where the wheels say. -/
inductive Turned : List Index → List IdxPos → List Wheel → Prop
  | nil : Turned [] [] []
  | cons {i : Index} {c e : IdxPos} {is : List Index} {cs : List IdxPos} {ws : List Wheel} {l l0 : List Nat}
      (hc : Remains i e c l) (he : Remains i e e l0) (hs : Turned is cs ws) :
      Turned (i :: is) (c :: cs) (⟨c.val, l, e.val :: l0⟩ :: ws)

theorem nexts_turned {is : List Index} {cs : List IdxPos} {ws : List Wheel} (h : Turned is cs ws) :
    (Index.nexts is cs = none ∧ after ws = []) ∨
      ∃ cs' ws', Index.nexts is cs = some cs' ∧ Turned is cs' ws' ∧ after ws = current ws' :: after ws' := by
  induction h with
  | nil => exact .inl ⟨rfl, rfl⟩
  | @cons i c e is cs ws l l0 hc he hs ih =>
      cases l with
      | cons y l =>
          obtain ⟨k, hn, hrem⟩ := hc
          refine .inr ⟨⟨y, k⟩ :: cs, ⟨y, l, e.val :: l0⟩ :: ws, ?_, .cons hrem he hs, rfl⟩
          rw [Index.nexts, hn]
      | nil =>
          have hn : Indexing.getnext i c = (false, e) := hc
          rcases ih with ⟨hnone, hafter⟩ | ⟨cs', ws', hsome, hturn, hafter⟩
          · refine .inl ⟨?_, ?_⟩
            · rw [Index.nexts, hn]
              simp only [hnone, Option.map_none]
            · rw [after, hafter]
              rfl
          · refine .inr ⟨e :: cs', ⟨e.val, l0, e.val :: l0⟩ :: ws', ?_, .cons he he hturn, ?_⟩
            · rw [Index.nexts, hn]
              simp only [hsome, Option.map_some]
            · rw [after, hafter]
              rfl

theorem firsts_turned {is : List Index} (h : ∀ i ∈ is, Cycles i i.positions) :
    (Index.firsts is = none ∧ combos (is.map Index.positions) = []) ∨
      ∃ cs ws, Index.firsts is = some cs ∧ Turned is cs ws ∧
        combos (is.map Index.positions) = current ws :: after ws := by
  induction is with
  | nil => exact .inr ⟨[], [], rfl, .nil, rfl⟩
  | cons i is ih =>
      have hi := h i List.mem_cons_self
      rw [Index.firsts, List.map_cons, combos]
      cases hp : i.positions with
      | nil =>
          rw [hp] at hi
          refine .inl ⟨?_, by simp⟩
          rw [← Prod.mk.eta (p := Indexing.getfirst i ⟨0, 0⟩), hi ⟨0, 0⟩]
      | cons x l =>
          rw [hp] at hi
          obtain ⟨k, hget, hrem⟩ := hi
          rw [hget]
          rcases ih fun j hj => h j (List.mem_cons_of_mem i hj) with ⟨hnone, hnil⟩ | ⟨cs, ws, hsome, hturn, hcomb⟩
          · refine .inl ⟨?_, ?_⟩
            · simp only [hnone, Option.map_none]
            · rw [hnil]
              rfl
          · refine .inr ⟨⟨x, k⟩ :: cs, ⟨x, l, x :: l⟩ :: ws, ?_, .cons hrem hrem hturn, ?_⟩
            · simp only [hsome, Option.map_some]
            · rw [hcomb]
              rfl

/-- The column of a tuple. -/
def columnAt (dim t : List Nat) : Except Exn Nat := Index.column 1 0 dim (t.map fun x => ⟨x, 0⟩)

theorem column_turned {is : List Index} {cs : List IdxPos} {ws : List Wheel} (h : Turned is cs ws)
    (mul col : Nat) (dim : List Nat) :
    Index.column mul col dim cs = Index.column mul col dim ((current ws).map fun x => ⟨x, 0⟩) := by
  induction h generalizing mul col dim with
  | nil => rfl
  | cons hc he hs ih =>
      cases dim with
      | nil => rfl
      | cons d dim =>
          show (if _ then _ else Index.column _ _ dim _) = (if _ then _ else Index.column _ _ dim _)
          rw [ih]
          rfl

/-- What the loop does, tuple by tuple. -/
def runCols {σ : Type} (dim : List Nat) (body : Nat → σ → Outcome Exn Unit σ) :
    List (List Nat) → σ → Outcome Exn Unit σ
  | [], s => .ok s ()
  | t :: ts, s =>
    (thrown (columnAt dim t)).bind fun col _ => (body col s).bind fun s _ => runCols dim body ts s

theorem shown_turned {is : List Index} {cs : List IdxPos} {ws : List Wheel} (h : Turned is cs ws)
    (dim : List Nat) :
    Index.shown dim (some cs) = (columnAt dim (current ws)).map fun col => some (col, cs) := by
  rw [Index.shown, column_turned h]
  rfl

theorem eachCol_turned {σ : Type} {is : List Index} {cs : List IdxPos} {ws : List Wheel}
    (h : Turned is cs ws) (dim : List Nat) (body : Nat → σ → Outcome Exn Unit σ) (s : σ) {fuel : Nat}
    (hf : (after ws).length + 1 < fuel) :
    ((thrown (Index.shown dim (some cs))).bind fun r _ => eachCol is dim body fuel r s) =
      runCols dim body (current ws :: after ws) s := by
  induction fuel generalizing cs ws s with
  | zero => cases hf
  | succ fuel ih =>
      rw [shown_turned h, runCols]
      cases hcol : columnAt dim (current ws) with
      | error e => rfl
      | ok col =>
          show eachCol is dim body (fuel + 1) (some (col, cs)) s = (body col s).bind _
          rw [eachCol]
          congr 1
          funext s' _
          rw [Index.getnextcol]
          rcases nexts_turned h with ⟨hnone, hafter⟩ | ⟨cs', ws', hsome, hturn, hafter⟩
          · rw [hnone, hafter]
            cases fuel with
            | zero => exact absurd hf (by omega)
            | succ fuel => rfl
          · rw [hsome, hafter]
            rw [hafter, List.length_cons] at hf
            exact ih hturn s' (by omega)

/-- The loop goes over the tuples of the selected positions. -/
theorem eachCol_eq {σ : Type} {is : List Index} (h : ∀ i ∈ is, Cycles i i.positions) (dim : List Nat)
    (body : Nat → σ → Outcome Exn Unit σ) (s : σ) :
    ((thrown (Index.getfirstcol is dim)).bind fun r _ =>
        eachCol is dim body ((is.map Indexing.size).prod + 1) r s) =
      runCols dim body (combos (is.map Index.positions)) s := by
  have hlen := length_combos_positions is
  rw [Index.getfirstcol]
  rcases firsts_turned h with ⟨hnone, hnil⟩ | ⟨cs, ws, hsome, hturn, hcomb⟩
  · rw [hnone, hnil]
    rfl
  · rw [hcomb, List.length_cons] at hlen
    rw [hsome, hcomb]
    exact eachCol_turned hturn dim body s (by omega)

/-! ## Places -/

/-- The place of the tuple `t` among all of extents `dim`, the first moving fastest. -/
def lin : List Nat → List Nat → Nat
  | d :: dim, x :: t => x + d * lin dim t
  | _, _ => 0

/-- Each position is below its extent. -/
def Below (t dim : List Nat) : Prop := List.Forall₂ (· < ·) t dim

/-- A place in a row, and the number of the row, give a place among all. -/
theorem add_mul_lt {x d y n : Nat} (hx : x < d) (hy : y < n) : x + d * y < d * n := by
  calc x + d * y < d + d * y := Nat.add_lt_add_right hx _
    _ = d * (y + 1) := by rw [Nat.mul_succ, Nat.add_comm]
    _ ≤ d * n := Nat.mul_le_mul_left d hy

theorem lin_lt {t dim : List Nat} (h : Below t dim) : lin dim t < dim.prod := by
  induction h with
  | nil => exact Nat.one_pos
  | cons hx _ ih =>
      rw [lin, List.prod_cons]
      exact add_mul_lt hx ih

theorem column_of_below {t dim : List Nat} (h : Below t dim) (mul col : Nat) :
    Index.column mul col dim (t.map fun x => ⟨x, 0⟩) = .ok (col + mul * lin dim t) := by
  induction h generalizing mul col with
  | nil => rfl
  | @cons x d t dim hx _ ih =>
      rw [List.map_cons, Index.column, if_neg (Nat.not_le_of_lt hx), ih, lin]
      congr 1
      ring

theorem columnAt_below {t dim : List Nat} (h : Below t dim) : columnAt dim t = .ok (lin dim t) := by
  rw [columnAt, column_of_below h, Nat.zero_add, Nat.one_mul]

theorem column_of_not_below {t dim : List Nat} (hlen : t.length = dim.length) (h : ¬ Below t dim)
    (mul col : Nat) :
    Index.column mul col dim (t.map fun x => ⟨x, 0⟩) =
      .error (.rangeError "subscript out of bounds") := by
  induction t generalizing dim mul col with
  | nil =>
      rw [List.length_nil, eq_comm, List.length_eq_zero_iff] at hlen
      subst hlen
      exact absurd .nil h
  | cons x t ih =>
      cases dim with
      | nil => cases hlen
      | cons d dim =>
          rw [List.map_cons, Index.column]
          split
          next => rfl
          next hx =>
            exact ih (Nat.succ.inj hlen) (fun hb => h (.cons (Nat.lt_of_not_le hx) hb)) _ _

theorem mem_combos {pss : List (List Nat)} {t : List Nat} :
    t ∈ combos pss ↔ List.Forall₂ (fun x ps => x ∈ ps) t pss := by
  induction pss generalizing t with
  | nil => simp [combos]
  | cons ps pss ih =>
      rw [combos, List.mem_flatMap]
      constructor
      · rintro ⟨u, hu, ht⟩
        obtain ⟨x, hx, rfl⟩ := List.mem_map.1 ht
        exact .cons hx (ih.1 hu)
      · rintro (_ | ⟨hx, hu⟩)
        exact ⟨_, ih.2 hu, List.mem_map.2 ⟨_, hx, rfl⟩⟩

/-- The positions that a tuple of places selects. -/
def selected : List (List Nat) → List Nat → List Nat
  | ps :: pss, x :: q => ps.getD x 0 :: selected pss q
  | _, _ => []

/-- In a list of lists of one length, the element `i` of the list `k`. -/
theorem getElem?_flatMap {α β : Type} {f : α → List β} {R : Nat} {l : List α}
    (h : ∀ a ∈ l, (f a).length = R) {i k : Nat} (hi : i < R) :
    (l.flatMap f)[i + R * k]? = l[k]?.bind fun a => (f a)[i]? := by
  induction l generalizing k with
  | nil => rfl
  | cons a l ih =>
      have ha := h a List.mem_cons_self
      have htail := fun b hb => h b (List.mem_cons_of_mem a hb)
      rw [List.flatMap_cons]
      cases k with
      | zero =>
          rw [Nat.mul_zero, Nat.add_zero, List.getElem?_append_left (by rw [ha]; exact hi)]
          rfl
      | succ k =>
          rw [List.getElem?_append_right (by rw [ha, Nat.mul_succ]; omega), ha,
            show i + R * (k + 1) - R = i + R * k by rw [Nat.mul_succ]; omega, ih htail]
          rfl

theorem getElem?_combos {pss : List (List Nat)} {q : List Nat} (h : Below q (pss.map List.length)) :
    (combos pss)[lin (pss.map List.length) q]? = some (selected pss q) := by
  induction pss generalizing q with
  | nil =>
      cases h
      rfl
  | cons ps pss ih =>
      rw [List.map_cons] at h
      cases h with
      | @cons x _ q _ hx hq =>
          rw [combos, List.map_cons, lin, getElem?_flatMap (R := ps.length) (by simp) hx, ih hq]
          show (ps.map (· :: selected pss q))[x]? = some (ps.getD x 0 :: selected pss q)
          rw [List.getElem?_map, List.getElem?_eq_getElem hx, List.getD_eq_getElem?_getD,
            List.getElem?_eq_getElem hx]
          rfl

end Ztsdb.Arr
