import Mathlib
import Ztsdb.Arr.VectorSet

/-!
# Indices

An index selects positions of a dimension. It is read in two ways: a cursor moves over the
positions with `getfirst` and `getnext`, and goes back to the first one when it is through;
and `subset` takes the elements of a vector in a loop of its own. `trueSize` is computed in
a third way.

The cursor of a logical index moves two places at a time: it sees a selected position only
where it is an odd number of places away from the one before.
-/

namespace Ztsdb.Arr

open Ztsdb.Lib

/-- Where a cursor is: the position, and the place of it in what the index holds. -/
structure IdxPos where
  val : Nat
  i : Nat
  deriving DecidableEq, Repr

/-- What the indices have in common. -/
class Indexing (I : Type) where
  getfirst : I → IdxPos → Bool × IdxPos
  getnext : I → IdxPos → Bool × IdxPos
  trueSize : I → Nat
  size : I → Nat

/-- `rv.push_back(v[j])`. -/
def pushAt {T : Type} (v : List T) (j : Nat) (rv : List T) : Except Exn (List T) :=
  match v[j]? with
  | some x => .ok (rv ++ [x])
  | none => .error (.outOfRange "subscript out of bounds")

/-- One push for each of the positions. -/
def pushEach {T : Type} (v : List T) : List Nat → List T → Except Exn (List T)
  | [], rv => .ok rv
  | j :: js, rv => (pushAt v j rv).bind (pushEach v js)

theorem pushEach_eq_ok {T : Type} {v : List T} {js : List Nat} {rv r : List T}
    (h : pushEach v js rv = .ok r) : ∃ l, r = rv ++ l ∧ l.map some = js.map (v[·]?) := by
  induction js generalizing rv with
  | nil =>
      cases h
      exact ⟨[], (List.append_nil _).symm, rfl⟩
  | cons j js ih =>
      rw [pushEach, pushAt] at h
      cases hj : v[j]? with
      | none =>
          rw [hj] at h
          cases h
      | some x =>
          rw [hj] at h
          obtain ⟨l, hr, hl⟩ := ih h
          exact ⟨x :: l, by rw [hr, List.append_assoc]; rfl, by simp [hl, hj]⟩

theorem pushEach_of_lt {T : Type} {v : List T} {js : List Nat} (rv : List T)
    (h : ∀ j ∈ js, j < v.length) : ∃ l, pushEach v js rv = .ok (rv ++ l) := by
  induction js generalizing rv with
  | nil => exact ⟨[], by rw [List.append_nil]; rfl⟩
  | cons j js ih =>
      have hj := h j List.mem_cons_self
      obtain ⟨l, hl⟩ := ih (rv ++ [v[j]]) fun k hk => h k (List.mem_cons_of_mem j hk)
      refine ⟨v[j] :: l, ?_⟩
      rw [pushEach, pushAt, List.getElem?_eq_getElem hj]
      show pushEach v js (rv ++ [v[j]]) = _
      rw [hl, List.append_assoc]
      rfl

theorem pushEach_range' {T : Type} (p w rv : List T) :
    pushEach (p ++ w) (List.range' p.length w.length) rv = .ok (rv ++ w) := by
  induction w generalizing p rv with
  | nil =>
      rw [List.append_nil rv]
      rfl
  | cons x w ih =>
      have hx : (p ++ x :: w)[p.length]? = some x := by simp
      have h := ih (p ++ [x]) (rv ++ [x])
      rw [List.append_assoc, List.append_assoc, List.length_append] at h
      rw [List.length_cons, List.range'_succ, pushEach, pushAt, hx]
      exact h

theorem pushEach_append {T : Type} {v : List T} (js ks : List Nat) (rv : List T) :
    pushEach v (js ++ ks) rv = (pushEach v js rv).bind (pushEach v ks) := by
  induction js generalizing rv with
  | nil => rfl
  | cons j js ih =>
      simp only [List.cons_append, pushEach]
      cases pushAt v j rv with
      | error e => rfl
      | ok r => exact ih r

/-! ## All positions -/

structure NullIndex where
  sz : Nat

namespace NullIndex

def getfirst (idx : NullIndex) (_ : IdxPos) : Bool × IdxPos := (decide (idx.sz > 0), ⟨0, 0⟩)

def getnext (idx : NullIndex) (c : IdxPos) : Bool × IdxPos :=
  if c.i + 1 < idx.sz then (true, ⟨c.i + 1, c.i + 1⟩) else (false, ⟨0, 0⟩)

def size (idx : NullIndex) : Nat := idx.sz

def trueSize (idx : NullIndex) : Nat := idx.size

/-- `rv = v`. -/
def subset {T : Type} (_ : NullIndex) (_ v : List T) : Except Exn (List T) := .ok v

end NullIndex

/-! ## Listed positions -/

structure IntIndex where
  vi : List Nat

namespace IntIndex

def getfirst (idx : IntIndex) (c : IdxPos) : Bool × IdxPos :=
  match idx.vi with
  | [] => (false, c)
  | x :: _ => (true, ⟨x, 0⟩)

def getnext (idx : IntIndex) (c : IdxPos) : Bool × IdxPos :=
  if idx.vi = [] then (false, c)
  else match idx.vi[c.i + 1]? with
    | some x => (true, ⟨x, c.i + 1⟩)
    | none => (false, (idx.getfirst c).2)

def trueSize (idx : IntIndex) : Nat := idx.vi.length

def size (idx : IntIndex) : Nat := idx.trueSize

/-- The loop of `subset`. -/
def subsetLoop {T : Type} (v : List T) : List Nat → List T → Except Exn (List T)
  | [], rv => .ok rv
  | j :: vi, rv =>
    if v.length ≤ j then .error (.rangeError "subscript out of bounds")
    else (pushAt v j rv).bind (subsetLoop v vi)

def subset {T : Type} (idx : IntIndex) (rv v : List T) : Except Exn (List T) :=
  subsetLoop v idx.vi rv

end IntIndex

/-! ## All positions but listed ones -/

/-- What the constructor makes of the positions to leave out: they ascend, and all are
below the extent. -/
structure IntIndexNeg where
  vi : List Nat
  sz : Nat
  asc : vi.Pairwise (· < ·)
  lt : ∀ x ∈ vi, x < sz

namespace IntIndexNeg

theorem isChain_lt {l : List Nat} (h : l.Pairwise (· ≤ ·)) (hne : l.IsChain (· ≠ ·)) :
    l.IsChain (· < ·) := by
  induction l with
  | nil => exact .nil
  | cons a l ih =>
      cases l with
      | nil => exact .singleton a
      | cons b l =>
          obtain ⟨hab, hl⟩ := List.isChain_cons_cons.1 hne
          have hle := (List.pairwise_cons.1 h).1 b List.mem_cons_self
          exact List.isChain_cons_cons.2 ⟨lt_of_le_of_ne hle hab, ih h.of_cons hl⟩

/-- Positions that are not in order are sorted, and each is kept once. -/
def ascending (sort : StdSort (Vector.less (T := Nat))) (l : List Nat) : List Nat :=
  if l ≠ [] ∧ adjacent Vector.less l = false then (sort.run l).destutter (· ≠ ·) else l

theorem ascending_asc (sort : StdSort (Vector.less (T := Nat))) (l : List Nat) :
    (ascending sort l).Pairwise (· < ·) := by
  rw [ascending]
  split
  next =>
    have hle : ((sort.run l).destutter (· ≠ ·)).Pairwise (· ≤ ·) :=
      (Vector.sorted_run sort l).sublist (List.destutter_sublist _ _)
    have hne := List.isChain_destutter (R := fun a b : Nat => a ≠ b) (sort.run l)
    exact List.isChain_iff_pairwise.1 (isChain_lt hle hne)
  next h =>
    by_cases hl : l = []
    · subst hl
      exact .nil
    · have hadj : adjacent Vector.less l = true := by
        simpa [hl] using h
      exact List.isChain_iff_pairwise.1
        ((adjacent_iff.1 hadj).imp fun a b h => by simpa [Vector.less] using h)

/-- The constructor. -/
def make (sort : StdSort (Vector.less (T := Nat))) (l : List Nat) (sz : Nat) :
    Except Exn IntIndexNeg :=
  if h : ∀ x ∈ ascending sort l, x < sz then
    .ok ⟨ascending sort l, sz, ascending_asc sort l, h⟩
  else .error (.rangeError "subscript out of bounds")

/-- Past the listed positions that come one after the other from `iv` on. -/
def skip (sz : Nat) : Nat → Nat → List Nat → IdxPos
  | iv, ii, [] => ⟨iv, ii⟩
  | iv, ii, x :: vi => if x = iv then skip sz (if iv < sz then iv + 1 else iv) (ii + 1) vi else ⟨iv, ii⟩

def getfirst (idx : IntIndexNeg) (_ : IdxPos) : Bool × IdxPos :=
  let c := skip idx.sz 0 0 idx.vi
  if c.val = idx.sz then (false, ⟨0, 0⟩) else (true, c)

def getnext (idx : IntIndexNeg) (c : IdxPos) : Bool × IdxPos :=
  let c' := skip idx.sz (c.val + 1) c.i (idx.vi.drop c.i)
  if c'.val = idx.sz then (false, (idx.getfirst c').2) else (true, c')

def trueSize (idx : IntIndexNeg) : Nat := idx.sz - idx.vi.length

def size (idx : IntIndexNeg) : Nat := idx.trueSize

/-- The loop of `subset`: `k` positions from `j` on. -/
def subsetLoop {T : Type} (v : List T) : Nat → Nat → List Nat → List T → Except Exn (List T)
  | 0, _, _, rv => .ok rv
  | k + 1, j, [], rv => (pushAt v j rv).bind (subsetLoop v k (j + 1) [])
  | k + 1, j, x :: vi, rv =>
    if x = j then subsetLoop v k (j + 1) vi rv
    else (pushAt v j rv).bind (subsetLoop v k (j + 1) (x :: vi))

def subset {T : Type} (idx : IntIndexNeg) (rv v : List T) : Except Exn (List T) :=
  subsetLoop v idx.sz 0 idx.vi rv

end IntIndexNeg

/-! ## A truth value for each position -/

structure BoolIndex where
  vb : List Bool

namespace BoolIndex

/-- The first selected position, from `i` on. -/
def scan : Nat → List Bool → Option Nat
  | _, [] => none
  | i, b :: vb => if b then some i else scan (i + 1) vb

/-- The loop of `getnext`, which moves two places at a time. -/
def hop : Nat → List Bool → Option Nat
  | _, [] => none
  | i, [b] => if b then some i else none
  | i, b :: _ :: vb => if b then some i else hop (i + 2) vb

def getfirst (idx : BoolIndex) (c : IdxPos) : Bool × IdxPos :=
  match scan 0 idx.vb with
  | some i => (true, ⟨i, i⟩)
  | none => (false, ⟨c.val, idx.vb.length⟩)

def getnext (idx : BoolIndex) (c : IdxPos) : Bool × IdxPos :=
  match hop (c.i + 1) (idx.vb.drop (c.i + 1)) with
  | some i => (true, ⟨i, i⟩)
  | none => (false, (idx.getfirst c).2)

def size (idx : BoolIndex) : Nat := idx.vb.count true

def trueSize (idx : BoolIndex) : Nat := idx.size

/-- The loop of `subset`, from position `j` on. -/
def subsetLoop {T : Type} (v : List T) : Nat → List Bool → List T → Except Exn (List T)
  | _, [], rv => .ok rv
  | j, b :: vb, rv =>
    if b then (pushAt v j rv).bind (subsetLoop v (j + 1) vb) else subsetLoop v (j + 1) vb rv

def subset {T : Type} (idx : BoolIndex) (rv v : List T) : Except Exn (List T) :=
  subsetLoop v 0 idx.vb rv

/-- The selected positions, from `i` on. -/
def trues : Nat → List Bool → List Nat
  | _, [] => []
  | i, b :: vb => if b then i :: trues (i + 1) vb else trues (i + 1) vb

end BoolIndex

/-- The indices whose positions do not depend on times or names. -/
inductive Index where
  | null (idx : NullIndex)
  | int (idx : IntIndex)
  | intNeg (idx : IntIndexNeg)
  | bool (idx : BoolIndex)

instance : Indexing Index where
  getfirst
    | .null idx => idx.getfirst
    | .int idx => idx.getfirst
    | .intNeg idx => idx.getfirst
    | .bool idx => idx.getfirst
  getnext
    | .null idx => idx.getnext
    | .int idx => idx.getnext
    | .intNeg idx => idx.getnext
    | .bool idx => idx.getnext
  trueSize
    | .null idx => idx.trueSize
    | .int idx => idx.trueSize
    | .intNeg idx => idx.trueSize
    | .bool idx => idx.trueSize
  size
    | .null idx => idx.size
    | .int idx => idx.size
    | .intNeg idx => idx.size
    | .bool idx => idx.size

/-- `subset(rv, v)`. -/
def Index.subset {T : Type} : Index → List T → List T → Except Exn (List T)
  | .null idx => idx.subset
  | .int idx => idx.subset
  | .intNeg idx => idx.subset
  | .bool idx => idx.subset

/-! ## Sweeps -/

section Sweep

variable {I : Type} [Indexing I]

/-- The positions `getnext` moves to until it returns false, and where it leaves the cursor. -/
def sweepFrom (idx : I) : Nat → IdxPos → Option (List Nat × IdxPos)
  | 0, _ => none
  | fuel + 1, c =>
    match Indexing.getnext idx c with
    | (true, c') => (sweepFrom idx fuel c').map fun p => (c'.val :: p.1, p.2)
    | (false, c') => some ([], c')

/-- `getfirst`, and then `getnext` until it returns false. -/
def sweep (idx : I) (fuel : Nat) (c : IdxPos) : Option (List Nat × IdxPos) :=
  match Indexing.getfirst idx c with
  | (true, c') => (sweepFrom idx fuel c').map fun p => (c'.val :: p.1, p.2)
  | (false, c') => some ([], c')

/-- `P c l`: the positions after the cursor are `l`. -/
theorem sweepFrom_of {idx : I} {e : IdxPos} (P : IdxPos → List Nat → Prop)
    (hnil : ∀ c, P c [] → Indexing.getnext idx c = (false, e))
    (hcons : ∀ c x l, P c (x :: l) → ∃ i, Indexing.getnext idx c = (true, ⟨x, i⟩) ∧ P ⟨x, i⟩ l)
    {c : IdxPos} {l : List Nat} (h : P c l) {fuel : Nat} (hf : l.length < fuel) :
    sweepFrom idx fuel c = some (l, e) := by
  induction l generalizing c fuel with
  | nil =>
      cases fuel with
      | zero => cases hf
      | succ fuel => rw [sweepFrom, hnil c h]
  | cons x l ih =>
      cases fuel with
      | zero => cases hf
      | succ fuel =>
          obtain ⟨i, hn, hP⟩ := hcons c x l h
          rw [sweepFrom, hn]
          simp only [ih hP (Nat.lt_of_succ_lt_succ hf), Option.map_some]

/-- The same, where the cursor does not go back to the first position. -/
theorem exists_sweepFrom {idx : I} (P : IdxPos → List Nat → Prop)
    (hnil : ∀ c, P c [] → (Indexing.getnext idx c).1 = false)
    (hcons : ∀ c x l, P c (x :: l) → ∃ i, Indexing.getnext idx c = (true, ⟨x, i⟩) ∧ P ⟨x, i⟩ l)
    {c : IdxPos} {l : List Nat} (h : P c l) :
    ∃ e, sweepFrom idx (l.length + 1) c = some (l, e) := by
  induction l generalizing c with
  | nil =>
      refine ⟨(Indexing.getnext idx c).2, ?_⟩
      rw [List.length_nil, sweepFrom, ← Prod.mk.eta (p := Indexing.getnext idx c), hnil c h]
  | cons x l ih =>
      obtain ⟨i, hn, hP⟩ := hcons c x l h
      obtain ⟨e, he⟩ := ih hP
      refine ⟨e, ?_⟩
      rw [List.length_cons, sweepFrom, hn]
      simp only [he, Option.map_some]

theorem sweepFrom_unique {idx : I} {m n : Nat} {c : IdxPos} {r r' : List Nat × IdxPos}
    (h : sweepFrom idx m c = some r) (h' : sweepFrom idx n c = some r') : r = r' := by
  induction m generalizing n c r r' with
  | zero => cases h
  | succ m ih =>
      cases n with
      | zero => cases h'
      | succ n =>
          rw [sweepFrom] at h h'
          cases hn : Indexing.getnext idx c with
          | mk b c' =>
              rw [hn] at h h'
              cases b with
              | false =>
                  cases h
                  cases h'
                  rfl
              | true =>
                  obtain ⟨p, hp, rfl⟩ := Option.map_eq_some_iff.1 h
                  obtain ⟨p', hp', rfl⟩ := Option.map_eq_some_iff.1 h'
                  rw [ih hp hp']

theorem sweep_unique {idx : I} {m n : Nat} {c : IdxPos} {r r' : List Nat × IdxPos}
    (h : sweep idx m c = some r) (h' : sweep idx n c = some r') : r = r' := by
  rw [sweep] at h h'
  cases hn : Indexing.getfirst idx c with
  | mk b c' =>
      rw [hn] at h h'
      cases b with
      | false =>
          cases h
          cases h'
          rfl
      | true =>
          obtain ⟨p, hp, rfl⟩ := Option.map_eq_some_iff.1 h
          obtain ⟨p', hp', rfl⟩ := Option.map_eq_some_iff.1 h'
          rw [sweepFrom_unique hp hp']

end Sweep

/-- Cursor, size and subset of an index agree over an extent: however the cursor stood, it
visits `trueSize` positions, those that `subset` takes, and is then back at the first one,
ready for the same sweep. -/
def Agrees (idx : Index) (n : Nat) : Prop :=
  ∀ c, ∃ fuel l e, sweep idx fuel c = some (l, e) ∧ l.length = Indexing.trueSize idx ∧
    (∀ (T : Type) (v r : List T), v.length = n → idx.subset [] v = .ok r →
      r.map some = l.map (v[·]?)) ∧
    (l ≠ [] → e = (Indexing.getfirst idx c).2 ∧ sweepFrom idx fuel e = some (l.tail, e))

/-- From the cursor on, `getnext` goes over the positions `l` and then back to `e`. -/
def Remains (idx : Index) (e : IdxPos) : IdxPos → List Nat → Prop
  | c, [] => Indexing.getnext idx c = (false, e)
  | c, x :: l => ∃ i, Indexing.getnext idx c = (true, ⟨x, i⟩) ∧ Remains idx e ⟨x, i⟩ l

/-- The cursor goes over the positions `ps`, again and again. -/
def Cycles (idx : Index) : List Nat → Prop
  | [] => ∀ c, (Indexing.getfirst idx c).1 = false
  | x :: l => ∃ i, (∀ c, Indexing.getfirst idx c = (true, ⟨x, i⟩)) ∧ Remains idx ⟨x, i⟩ ⟨x, i⟩ l

theorem remains_of {idx : Index} {e : IdxPos} (P : IdxPos → List Nat → Prop)
    (hnil : ∀ c, P c [] → Indexing.getnext idx c = (false, e))
    (hcons : ∀ c x l, P c (x :: l) → ∃ i, Indexing.getnext idx c = (true, ⟨x, i⟩) ∧ P ⟨x, i⟩ l)
    {c : IdxPos} {l : List Nat} (h : P c l) : Remains idx e c l := by
  induction l generalizing c with
  | nil => exact hnil c h
  | cons x l ih =>
      obtain ⟨i, hn, hP⟩ := hcons c x l h
      exact ⟨i, hn, ih hP⟩

/-- `P c l`: the positions after the cursor are `l`; together they are `ps`. -/
theorem cycles_of {idx : Index} (ps : List Nat) (P : IdxPos → List Nat → Prop)
    (hempty : ps = [] → ∀ c, (Indexing.getfirst idx c).1 = false)
    (hfirst : ∀ x l, ps = x :: l → ∃ i, (∀ c, Indexing.getfirst idx c = (true, ⟨x, i⟩)) ∧ P ⟨x, i⟩ l)
    (hnil : ∀ c, P c [] → Indexing.getnext idx c = (false, (Indexing.getfirst idx c).2))
    (hcons : ∀ c x l, P c (x :: l) → ∃ i, Indexing.getnext idx c = (true, ⟨x, i⟩) ∧ P ⟨x, i⟩ l) :
    Cycles idx ps := by
  cases ps with
  | nil => exact hempty rfl
  | cons x l =>
      obtain ⟨i, hget, hP⟩ := hfirst x l rfl
      refine ⟨i, hget, remains_of P (fun c hc => ?_) hcons hP⟩
      rw [hnil c hc, hget]

theorem sweepFrom_of_remains {idx : Index} {e c : IdxPos} {l : List Nat} (h : Remains idx e c l) :
    sweepFrom idx (l.length + 1) c = some (l, e) :=
  sweepFrom_of (Remains idx e) (fun _ h => h) (fun _ _ _ h => h) h (Nat.lt_succ_self _)

theorem agrees_of {idx : Index} {n : Nat} {ps : List Nat} (h : Cycles idx ps)
    (hsize : ps.length = Indexing.trueSize idx)
    (hsub : ∀ (T : Type) (v r : List T), v.length = n → idx.subset [] v = .ok r →
      pushEach v ps [] = .ok r) : Agrees idx n := by
  intro c
  have htake (T : Type) (v r : List T) (hv : v.length = n) (h : idx.subset [] v = .ok r) :
      r.map some = ps.map (v[·]?) := by
    obtain ⟨l, rfl, hl⟩ := pushEach_eq_ok (hsub T v r hv h)
    exact hl
  cases ps with
  | nil =>
      refine ⟨0, [], (Indexing.getfirst idx c).2, ?_, hsize, htake, nofun⟩
      rw [sweep, ← Prod.mk.eta (p := Indexing.getfirst idx c), h c]
  | cons x l =>
      obtain ⟨i, hget, hrem⟩ := h
      have hrun := sweepFrom_of_remains hrem
      refine ⟨l.length + 1, x :: l, ⟨x, i⟩, ?_, hsize, htake, fun _ => ⟨?_, hrun⟩⟩
      · rw [sweep, hget]
        simp only [hrun, Option.map_some]
      · rw [hget]

namespace NullIndex

theorem cycles (idx : NullIndex) : Cycles (Index.null idx) (List.range' 0 idx.sz) := by
  refine cycles_of _ (fun c l => c.i < idx.sz ∧ l = List.range' (c.i + 1) (idx.sz - (c.i + 1)))
    ?_ ?_ ?_ ?_
  · intro h c
    show decide (idx.sz > 0) = false
    have hsz : idx.sz = 0 := by simpa using h
    simp [hsz]
  · intro x l h
    have hpos : 0 < idx.sz := by
      rcases Nat.eq_zero_or_pos idx.sz with h0 | h0
      · rw [h0] at h
        cases h
      · exact h0
    obtain ⟨k, hk⟩ := Nat.exists_eq_add_of_lt hpos
    rw [hk, Nat.zero_add, List.range'_succ] at h
    cases h
    refine ⟨0, fun c => ?_, hpos, ?_⟩
    · show (decide (idx.sz > 0), _) = _
      rw [decide_eq_true hpos]
    · show List.range' 1 k = List.range' 1 (idx.sz - 1)
      rw [hk, Nat.zero_add, Nat.add_sub_cancel]
  · rintro c ⟨hlt, hl⟩
    have hend : ¬ c.i + 1 < idx.sz := by
      have hlen := congrArg List.length hl
      simp only [List.length_nil, List.length_range'] at hlen
      omega
    exact if_neg hend
  · rintro c x l ⟨hlt, hl⟩
    have hmore : c.i + 1 < idx.sz := by
      have hlen := congrArg List.length hl
      simp only [List.length_cons, List.length_range'] at hlen
      omega
    rw [show idx.sz - (c.i + 1) = idx.sz - (c.i + 1 + 1) + 1 by omega, List.range'_succ] at hl
    cases hl
    exact ⟨c.i + 1, if_pos hmore, hmore, rfl⟩

theorem agrees (idx : NullIndex) : Agrees (Index.null idx) idx.sz := by
  refine agrees_of idx.cycles List.length_range' fun T v r hv h => ?_
  cases h
  rw [← hv]
  exact pushEach_range' [] v []

end NullIndex

namespace IntIndex

theorem subsetLoop_eq_ok {T : Type} {v : List T} {vi : List Nat} {rv r : List T} :
    subsetLoop v vi rv = .ok r ↔ pushEach v vi rv = .ok r := by
  induction vi generalizing rv with
  | nil => rfl
  | cons j vi ih =>
      rw [subsetLoop, pushEach]
      split
      next hle =>
        simp [pushAt, List.getElem?_eq_none hle, Except.bind]
      next hlt =>
        rw [pushAt, List.getElem?_eq_getElem (Nat.lt_of_not_le hlt)]
        exact ih

theorem cycles (idx : IntIndex) : Cycles (Index.int idx) idx.vi := by
  refine cycles_of _ (fun c l => c.i < idx.vi.length ∧ l = idx.vi.drop (c.i + 1)) ?_ ?_ ?_ ?_
  · intro h c
    show (idx.getfirst c).1 = false
    rw [getfirst, h]
  · intro x l h
    refine ⟨0, fun c => ?_, ?_, ?_⟩
    · show idx.getfirst c = _
      rw [getfirst, h]
    · rw [h]
      exact Nat.succ_pos _
    · rw [h]
      rfl
  · rintro c ⟨hlt, hl⟩
    show idx.getnext c = _
    have hne : idx.vi ≠ [] := List.ne_nil_of_length_pos (Nat.zero_lt_of_lt hlt)
    rw [getnext, if_neg hne, List.getElem?_eq_none (List.drop_eq_nil_iff.1 hl.symm)]
    rfl
  · rintro c x l ⟨hlt, hl⟩
    have hne : idx.vi ≠ [] := List.ne_nil_of_length_pos (Nat.zero_lt_of_lt hlt)
    have hmore : c.i + 1 < idx.vi.length := by
      by_contra hno
      rw [List.drop_eq_nil_of_le (Nat.le_of_not_lt hno)] at hl
      cases hl
    rw [List.drop_eq_getElem_cons hmore] at hl
    cases hl
    refine ⟨c.i + 1, ?_, hmore, rfl⟩
    show idx.getnext c = _
    rw [getnext, if_neg hne, List.getElem?_eq_getElem hmore]

theorem agrees (idx : IntIndex) (n : Nat) : Agrees (Index.int idx) n :=
  agrees_of idx.cycles rfl fun _ _ _ _ h => subsetLoop_eq_ok.1 h

end IntIndex

namespace IntIndexNeg

/-- The positions from `j` on, `k` of them, that are not listed. -/
def others (k j : Nat) (vi : List Nat) : List Nat := (List.range' j k).filter fun x => !vi.contains x

theorem others_mem {k j : Nat} {vi : List Nat} (h : j ∈ vi) :
    others (k + 1) j vi = others k (j + 1) vi := by
  rw [others, List.range'_succ, List.filter_cons_of_neg (by simpa using h), others]

theorem others_not_mem {k j : Nat} {vi : List Nat} (h : j ∉ vi) :
    others (k + 1) j vi = j :: others k (j + 1) vi := by
  rw [others, List.range'_succ, List.filter_cons_of_pos (by simpa using h), others]

theorem others_succ_cons {k j : Nat} {vi : List Nat} :
    others (k + 1) j (j :: vi) = others k (j + 1) vi := by
  rw [others_mem List.mem_cons_self, others, others]
  apply List.filter_congr
  intro x hx
  have hne : x ≠ j := by
    rw [List.mem_range'_1] at hx
    omega
  simp [hne]

theorem others_succ {k j : Nat} {vi : List Nat} (h : ∀ x ∈ vi, j < x) :
    others (k + 1) j vi = j :: others k (j + 1) vi :=
  others_not_mem fun hm => Nat.lt_irrefl j (h j hm)

theorem others_add {k m j : Nat} {vi : List Nat} :
    others (k + m) j vi = others k j vi ++ others m (j + k) vi := by
  rw [others, ← List.range'_append_1, List.filter_append]
  rfl

/-- What a list of positions that is looked at from `j` on has to satisfy. -/
structure Ahead (sz j : Nat) (vi : List Nat) : Prop where
  asc : vi.Pairwise (· < ·)
  ge : ∀ x ∈ vi, j ≤ x
  lt : ∀ x ∈ vi, x < sz

theorem Ahead.tail {sz j : Nat} {vi : List Nat} (h : Ahead sz j (j :: vi)) : Ahead sz (j + 1) vi :=
  ⟨h.asc.of_cons, (List.pairwise_cons.1 h.asc).1, fun x hx => h.lt x (List.mem_cons_of_mem j hx)⟩

theorem Ahead.next {sz j x : Nat} {vi : List Nat} (h : Ahead sz j (x :: vi)) (hne : x ≠ j) :
    ∀ y ∈ x :: vi, j < y := by
  have hlt : j < x := lt_of_le_of_ne (h.ge x List.mem_cons_self) (Ne.symm hne)
  intro y hy
  rcases List.mem_cons.1 hy with rfl | hy
  · exact hlt
  · exact hlt.trans ((List.pairwise_cons.1 h.asc).1 y hy)

theorem subsetLoop_eq {T : Type} {v : List T} (k j : Nat) (vi : List Nat) (rv : List T)
    (h : Ahead (j + k) j vi) : subsetLoop v k j vi rv = pushEach v (others k j vi) rv := by
  induction k generalizing j vi rv with
  | zero => rfl
  | succ k ih =>
      cases vi with
      | nil =>
          rw [others_succ fun x hx => absurd hx List.not_mem_nil, subsetLoop, pushEach]
          congr 1
          funext r
          exact ih (j + 1) [] r ⟨.nil, nofun, nofun⟩
      | cons x vi =>
          rw [subsetLoop]
          split
          next hx =>
            subst hx
            rw [others_succ_cons]
            refine ih (x + 1) vi rv ?_
            rw [Nat.add_assoc, Nat.add_comm 1]
            exact h.tail
          next hne =>
            have hahead := h.next hne
            rw [others_succ hahead, pushEach]
            congr 1
            funext r
            refine ih (j + 1) (x :: vi) r ⟨h.asc, hahead, fun y hy => ?_⟩
            have hy' := h.lt y hy
            omega

/-- The cursor after the listed positions it goes past. -/
theorem skip_spec (sz j ii : Nat) (vi : List Nat) (h : Ahead sz j vi) (hj : j ≤ sz) :
    ∃ m, skip sz j ii vi = ⟨j + m, ii + m⟩ ∧ j + m ≤ sz ∧
      others (sz - j) j vi = others (sz - (j + m)) (j + m) (vi.drop m) ∧
      ∀ x ∈ vi.drop m, j + m < x ∧ x < sz := by
  induction vi generalizing j ii with
  | nil => exact ⟨0, rfl, hj, rfl, nofun⟩
  | cons x vi ih =>
      rw [skip]
      split
      next hx =>
        subst hx
        have hlt : x < sz := h.lt x List.mem_cons_self
        obtain ⟨m, hs, hle, ho, ha⟩ := ih (x + 1) (ii + 1) h.tail hlt
        refine ⟨m + 1, ?_, by omega, ?_, ?_⟩
        · rw [if_pos hlt, hs, Nat.add_right_comm, Nat.add_right_comm ii, Nat.add_assoc, Nat.add_assoc]
        · rw [show sz - x = sz - (x + 1) + 1 by omega, others_succ_cons, ho, List.drop_succ_cons,
            show x + 1 + m = x + (m + 1) by omega]
        · rw [List.drop_succ_cons]
          intro y hy
          have hy' := ha y hy
          omega
      next hne =>
        exact ⟨0, rfl, hj, rfl, fun y hy => ⟨h.next hne y hy, h.lt y hy⟩⟩

/-- The positions after the cursor. -/
def Follows (idx : IntIndexNeg) (c : IdxPos) (l : List Nat) : Prop :=
  c.val < idx.sz ∧ (∀ x ∈ idx.vi.drop c.i, c.val < x) ∧
    l = others (idx.sz - (c.val + 1)) (c.val + 1) (idx.vi.drop c.i)

/-- A cursor that has gone past the listed positions is at the next one that is not. -/
theorem skip_follows (idx : IntIndexNeg) (j ii : Nat) (hj : j ≤ idx.sz)
    (h : ∀ x ∈ idx.vi.drop ii, j ≤ x) :
    ((skip idx.sz j ii (idx.vi.drop ii)).val = idx.sz ∧
      others (idx.sz - j) j (idx.vi.drop ii) = []) ∨
    ((skip idx.sz j ii (idx.vi.drop ii)).val ≠ idx.sz ∧
      ∃ l, others (idx.sz - j) j (idx.vi.drop ii) = (skip idx.sz j ii (idx.vi.drop ii)).val :: l ∧
        idx.Follows (skip idx.sz j ii (idx.vi.drop ii)) l) := by
  obtain ⟨m, hs, hle, ho, ha⟩ := skip_spec idx.sz j ii (idx.vi.drop ii)
    ⟨idx.asc.sublist (List.drop_sublist _ _), h, fun x hx => idx.lt x (List.mem_of_mem_drop hx)⟩ hj
  rw [hs, ho]
  rw [List.drop_drop] at ha ⊢
  rcases Nat.lt_or_ge (j + m) idx.sz with hlt | hge
  · refine .inr ⟨Nat.ne_of_lt hlt, _, ?_, hlt, fun x hx => (ha x hx).1, rfl⟩
    rw [show idx.sz - (j + m) = idx.sz - (j + m + 1) + 1 by omega,
      others_succ fun x hx => (ha x hx).1]
  · refine .inl ⟨Nat.le_antisymm hle hge, ?_⟩
    rw [Nat.sub_eq_zero_of_le hge]
    rfl

theorem length_others (k j : Nat) (vi : List Nat) (h : Ahead (j + k) j vi) :
    (others k j vi).length + vi.length = k := by
  induction k generalizing j vi with
  | zero =>
      cases vi with
      | nil => rfl
      | cons x vi =>
          have hge := h.ge x List.mem_cons_self
          have hlt := h.lt x List.mem_cons_self
          omega
  | succ k ih =>
      have hnext : j + 1 + k = j + (k + 1) := by omega
      by_cases hx : ∃ vi', vi = j :: vi'
      · obtain ⟨vi', rfl⟩ := hx
        have hlen := ih (j + 1) vi' (hnext ▸ h.tail)
        rw [others_succ_cons, List.length_cons]
        omega
      · have hahead : ∀ y ∈ vi, j < y := by
          cases vi with
          | nil => exact fun y hy => absurd hy List.not_mem_nil
          | cons x vi => exact h.next fun heq => hx ⟨vi, by rw [heq]⟩
        have hlen := ih (j + 1) vi ⟨h.asc, hahead, fun y hy => hnext ▸ h.lt y hy⟩
        rw [others_succ hahead, List.length_cons]
        omega

theorem ahead_zero (idx : IntIndexNeg) : Ahead (0 + idx.sz) 0 idx.vi :=
  ⟨idx.asc, fun x _ => Nat.zero_le x, fun x hx => (Nat.zero_add idx.sz).symm ▸ idx.lt x hx⟩

theorem cycles (idx : IntIndexNeg) : Cycles (Index.intNeg idx) (others idx.sz 0 idx.vi) := by
  have hstart := skip_follows idx 0 0 (Nat.zero_le _) fun x _ => Nat.zero_le x
  rw [Nat.sub_zero, List.drop_zero] at hstart
  have hget (c : IdxPos) : idx.getfirst c = if (skip idx.sz 0 0 idx.vi).val = idx.sz then
      (false, ⟨0, 0⟩) else (true, skip idx.sz 0 0 idx.vi) := rfl
  refine cycles_of _ idx.Follows ?_ ?_ ?_ ?_
  · intro h c
    show (idx.getfirst c).1 = false
    rcases hstart with ⟨hend, -⟩ | ⟨-, l, hl, -⟩
    · rw [hget, if_pos hend]
    · rw [h] at hl
      cases hl
  · intro x l h
    rcases hstart with ⟨-, hl⟩ | ⟨hne, l', hl, hf⟩
    · rw [h] at hl
      cases hl
    · rw [h] at hl
      cases hl
      exact ⟨_, fun c => by
        show idx.getfirst c = _
        rw [hget, if_neg hne], hf⟩
  · rintro c ⟨hlt, hgt, hl⟩
    show idx.getnext c = _
    rcases skip_follows idx (c.val + 1) c.i hlt hgt with ⟨hend, -⟩ | ⟨-, l, hl', -⟩
    · rw [getnext]
      exact if_pos hend
    · rw [← hl] at hl'
      cases hl'
  · rintro c x l ⟨hlt, hgt, hl⟩
    rcases skip_follows idx (c.val + 1) c.i hlt hgt with ⟨-, hl'⟩ | ⟨hne, l', hl', hf⟩
    · rw [← hl] at hl'
      cases hl'
    · rw [← hl] at hl'
      cases hl'
      exact ⟨_, if_neg hne, hf⟩

theorem length_positions (idx : IntIndexNeg) : (others idx.sz 0 idx.vi).length = idx.trueSize := by
  have hlen := length_others idx.sz 0 idx.vi idx.ahead_zero
  rw [trueSize]
  omega

theorem agrees (idx : IntIndexNeg) : Agrees (Index.intNeg idx) idx.sz := by
  refine agrees_of idx.cycles idx.length_positions fun T v r _ h => ?_
  rw [← subsetLoop_eq idx.sz 0 idx.vi [] idx.ahead_zero]
  exact h

end IntIndexNeg

namespace BoolIndex

theorem trues_cons (k : Nat) (b : Bool) (vb : List Bool) :
    trues k (b :: vb) = if b then k :: trues (k + 1) vb else trues (k + 1) vb := rfl

theorem mem_trues {p k : Nat} {vb : List Bool} :
    p ∈ trues k vb ↔ k ≤ p ∧ vb[p - k]? = some true := by
  induction vb generalizing k with
  | nil => exact ⟨fun h => absurd h List.not_mem_nil, by simp⟩
  | cons b vb ih =>
      have hmem : p ∈ trues (k + 1) vb ↔ k < p ∧ (b :: vb)[p - k]? = some true := by
        rw [ih]
        refine and_congr_right fun hlt => ?_
        rw [show p - k = p - (k + 1) + 1 by omega, List.getElem?_cons_succ]
      rw [trues_cons]
      rcases Nat.lt_trichotomy p k with hlt | rfl | hlt
      · have hno : ¬ k < p := Nat.lt_asymm hlt
        cases b <;> simp [hmem, hno, Nat.ne_of_lt hlt, Nat.not_le_of_lt hlt]
      · cases b <;> simp [hmem]
      · cases b <;> simp [hmem, hlt, Nat.ne_of_gt hlt, Nat.le_of_lt hlt]

theorem trues_asc (k : Nat) (vb : List Bool) : (trues k vb).Pairwise (· < ·) := by
  induction vb generalizing k with
  | nil => exact .nil
  | cons b vb ih =>
      rw [trues_cons]
      split
      · exact List.pairwise_cons.2 ⟨fun p hp => (mem_trues.1 hp).1, ih (k + 1)⟩
      · exact ih (k + 1)

theorem length_trues (k : Nat) (vb : List Bool) : (trues k vb).length = vb.count true := by
  induction vb generalizing k with
  | nil => rfl
  | cons b vb ih => cases b <;> simp [trues_cons, ih]

/-- What follows a selected position. -/
theorem trues_tail {k p : Nat} {vb : List Bool} {l : List Nat} (h : trues k vb = p :: l) :
    k ≤ p ∧ l = trues (p + 1) (vb.drop (p + 1 - k)) := by
  induction vb generalizing k with
  | nil => cases h
  | cons b vb ih =>
      rw [trues_cons] at h
      split at h
      · cases h
        exact ⟨le_rfl, by rw [Nat.add_sub_cancel_left]; rfl⟩
      · obtain ⟨hle, hl⟩ := ih h
        refine ⟨Nat.le_of_succ_le hle, ?_⟩
        rw [hl, show p + 1 - k = p + 1 - (k + 1) + 1 by omega, List.drop_succ_cons]

theorem scan_eq (k : Nat) (vb : List Bool) : scan k vb = (trues k vb).head? := by
  induction vb generalizing k with
  | nil => rfl
  | cons b vb ih => cases b <;> simp [scan, trues_cons, ih]

theorem subsetLoop_eq {T : Type} {v : List T} (k : Nat) (vb : List Bool) (rv : List T) :
    subsetLoop v k vb rv = pushEach v (trues k vb) rv := by
  induction vb generalizing k rv with
  | nil => rfl
  | cons b vb ih =>
      cases b with
      | false => exact ih (k + 1) rv
      | true =>
          show (pushAt v k rv).bind _ = (pushAt v k rv).bind _
          congr 1
          funext r
          exact ih (k + 1) r

/-- The cursor finds what is an even number of places ahead of where it looks first. -/
theorem hop_mem {k p : Nat} {vb : List Bool} (h : hop k vb = some p) :
    p ∈ trues k vb ∧ (p - k) % 2 = 0 := by
  induction k, vb using hop.induct with
  | case1 k => cases h
  | case2 k => cases h; simp [trues_cons]
  | case3 k b hb => simp [hop, hb] at h
  | case4 k b' vb =>
      cases h
      simp [trues_cons]
  | case5 k b b' vb hb ih =>
      rw [Bool.not_eq_true] at hb
      subst hb
      obtain ⟨hm, heven⟩ := ih h
      obtain ⟨hle, hp⟩ := mem_trues.1 hm
      refine ⟨mem_trues.2 ⟨by omega, ?_⟩, by omega⟩
      rwa [show p - k = p - (k + 2) + 1 + 1 by omega, List.getElem?_cons_succ,
        List.getElem?_cons_succ]

theorem hop_nil {k : Nat} {vb : List Bool} (h : trues k vb = []) : hop k vb = none := by
  cases hp : hop k vb with
  | none => rfl
  | some p => exact absurd (h ▸ (hop_mem hp).1) List.not_mem_nil

theorem hop_cons {k p : Nat} {vb : List Bool} {l : List Nat} (h : trues k vb = p :: l)
    (heven : (p - k) % 2 = 0) : hop k vb = some p := by
  induction k, vb using hop.induct with
  | case1 k => cases h
  | case2 k => cases h; rfl
  | case3 k b hb =>
      rw [trues_cons, if_neg hb] at h
      cases h
  | case4 k b' vb =>
      cases h
      rfl
  | case5 k b b' vb hb ih =>
      rw [Bool.not_eq_true] at hb
      subst hb
      cases b' with
      | false =>
          have hle := (trues_tail (k := k + 2) h).1
          exact ih h (by omega)
      | true =>
          cases h
          omega

/-- Each selected position is an odd number of places behind the one before. -/
def OddSteps (l : List Nat) : Prop := l.IsChain fun p q => (q - p) % 2 = 1

instance (l : List Nat) : Decidable (OddSteps l) :=
  inferInstanceAs (Decidable (l.IsChain fun p q => (q - p) % 2 = 1))

/-- The positions after the cursor. -/
def Follows (idx : BoolIndex) (c : IdxPos) (l : List Nat) : Prop :=
  l = trues (c.i + 1) (idx.vb.drop (c.i + 1)) ∧ OddSteps (c.i :: l)

theorem cycles (idx : BoolIndex) (h : OddSteps (trues 0 idx.vb)) :
    Cycles (Index.bool idx) (trues 0 idx.vb) := by
  refine cycles_of _ idx.Follows ?_ ?_ ?_ ?_
  · intro hnil c
    show (idx.getfirst c).1 = false
    rw [getfirst, scan_eq, hnil]
    rfl
  · intro x l hl
    refine ⟨x, fun c => ?_, ?_, hl ▸ h⟩
    · show idx.getfirst c = _
      rw [getfirst, scan_eq, hl]
      rfl
    · exact (trues_tail hl).2
  · rintro c ⟨hl, -⟩
    show idx.getnext c = _
    rw [getnext, hop_nil hl.symm]
    rfl
  · rintro c x l ⟨hl, hodd⟩
    obtain ⟨hstep, hodd'⟩ := List.isChain_cons_cons.1 hodd
    obtain ⟨hle, hl'⟩ := trues_tail hl.symm
    refine ⟨x, ?_, ?_, hodd'⟩
    · show idx.getnext c = _
      rw [getnext, hop_cons hl.symm (by omega)]
    · show l = trues (x + 1) (idx.vb.drop (x + 1))
      rw [hl', List.drop_drop, show c.i + 1 + (x + 1 - (c.i + 1)) = x + 1 by omega]

theorem agrees (idx : BoolIndex) (n : Nat) (h : OddSteps (trues 0 idx.vb)) :
    Agrees (Index.bool idx) n := by
  refine agrees_of (idx.cycles h) (length_trues 0 idx.vb) fun T v r _ hr => ?_
  rw [← subsetLoop_eq]
  exact hr

/-- Wherever the cursor goes, it makes odd steps over selected positions. -/
theorem sweepFrom_mem {idx : BoolIndex} {fuel : Nat} {c e : IdxPos} {l : List Nat}
    (hc : c.val = c.i) (h : sweepFrom (Index.bool idx) fuel c = some (l, e)) :
    (c.i :: l).IsChain (fun p q => p < q ∧ (q - p) % 2 = 1) ∧ ∀ p ∈ l, p ∈ trues 0 idx.vb := by
  induction fuel generalizing c l with
  | zero => cases h
  | succ fuel ih =>
      rw [sweepFrom] at h
      have hnext : Indexing.getnext (Index.bool idx) c = idx.getnext c := rfl
      rw [hnext, getnext] at h
      cases hp : hop (c.i + 1) (idx.vb.drop (c.i + 1)) with
      | none =>
          rw [hp] at h
          cases h
          exact ⟨.singleton _, nofun⟩
      | some p =>
          rw [hp] at h
          simp only [Option.map_eq_some_iff, Prod.exists, Prod.mk.injEq] at h
          obtain ⟨l', e', hrun, rfl, rfl⟩ := h
          obtain ⟨hchain, hmem⟩ := ih rfl hrun
          obtain ⟨hm, heven⟩ := hop_mem hp
          obtain ⟨hle, hget⟩ := mem_trues.1 hm
          refine ⟨List.isChain_cons_cons.2 ⟨⟨hle, by omega⟩, hchain⟩, fun q hq => ?_⟩
          rcases List.mem_cons.1 hq with rfl | hq
          · rw [List.getElem?_drop] at hget
            exact mem_trues.2 ⟨Nat.zero_le _, by rw [← hget]; congr 1; omega⟩
          · exact hmem q hq

theorem oddSteps_of_agrees (idx : BoolIndex) (n : Nat) (h : Agrees (Index.bool idx) n) :
    OddSteps (trues 0 idx.vb) := by
  obtain ⟨fuel, l, e, hrun, hlen, -, -⟩ := h ⟨0, 0⟩
  have hfirst : Indexing.getfirst (Index.bool idx) ⟨0, 0⟩ = idx.getfirst ⟨0, 0⟩ := rfl
  have hcount : l.length = (trues 0 idx.vb).length := hlen.trans (length_trues 0 idx.vb).symm
  rw [sweep, hfirst, getfirst, scan_eq] at hrun
  cases hl : trues 0 idx.vb with
  | nil => exact .nil
  | cons p ps =>
      rw [hl] at hrun
      simp only [List.head?_cons, Option.map_eq_some_iff, Prod.exists, Prod.mk.injEq] at hrun
      obtain ⟨l', e', hrun, rfl, rfl⟩ := hrun
      obtain ⟨hchain, hmem⟩ := sweepFrom_mem rfl hrun
      -- as many positions as are selected, all of them selected, in order: they are the same
      have hasc : (p :: l').Pairwise (· < ·) :=
        List.isChain_iff_pairwise.1 (hchain.imp fun _ _ h => h.1)
      have hsub : p :: l' ⊆ trues 0 idx.vb := by
        intro q hq
        rcases List.mem_cons.1 hq with rfl | hq
        · rw [hl]
          exact List.mem_cons_self
        · exact hmem q hq
      have hperm : (p :: l').Perm (trues 0 idx.vb) :=
        (List.subperm_of_subset (hasc.imp Nat.ne_of_lt) hsub).perm_of_length_le hcount.ge
      have heq := hperm.eq_of_pairwise (fun a b _ _ hab hba => absurd hab (Nat.lt_asymm hba)) hasc
        (trues_asc 0 idx.vb)
      rw [← hl, ← heq]
      exact hchain.imp fun _ _ h => h.2

end BoolIndex

/-- An index over an extent. -/
def Index.Over (n : Nat) : Index → Prop
  | .null idx => idx.sz = n
  | .int _ => True
  | .intNeg idx => idx.sz = n
  | .bool _ => True

/-- The positions that the index selects. -/
def Index.positions : Index → List Nat
  | .null idx => List.range' 0 idx.sz
  | .int idx => idx.vi
  | .intNeg idx => IntIndexNeg.others idx.sz 0 idx.vi
  | .bool idx => BoolIndex.trues 0 idx.vb

theorem Index.length_positions (idx : Index) : idx.positions.length = Indexing.size idx := by
  cases idx with
  | null idx => exact List.length_range'
  | int idx => rfl
  | intNeg idx => exact idx.length_positions
  | bool idx => exact BoolIndex.length_trues 0 idx.vb

/-- The positions that the cursor of the index has to go over are an odd number of places
apart, if it is a logical one. -/
def Index.OddSteps : Index → Prop
  | .bool idx => BoolIndex.OddSteps (BoolIndex.trues 0 idx.vb)
  | _ => True

/-- Cursor, size and subset agree exactly when the index is not a logical one with two
selected positions next to each other an even number of places apart. -/
theorem Index.agrees_iff (idx : Index) (n : Nat) (h : idx.Over n) :
    Agrees idx n ↔ idx.OddSteps := by
  cases idx with
  | null idx =>
      refine iff_of_true ?_ trivial
      rw [← show idx.sz = n from h]
      exact idx.agrees
  | int idx => exact iff_of_true (idx.agrees n) trivial
  | intNeg idx =>
      refine iff_of_true ?_ trivial
      rw [← show idx.sz = n from h]
      exact idx.agrees
  | bool idx => exact ⟨idx.oddSteps_of_agrees n, idx.agrees n⟩

/-- The first and the last of four positions. -/
theorem Index.agrees_iff_four : Agrees (Index.bool ⟨[true, false, false, true]⟩) 4 :=
  (Index.agrees_iff (.bool ⟨[true, false, false, true]⟩) 4 trivial).2 (by
    show BoolIndex.OddSteps _
    decide)

/-- The first and the last of three: the cursor never gets to the last. -/
theorem Index.not_agrees : ¬ Agrees (Index.bool ⟨[true, false, true]⟩) 3 := by
  intro h
  obtain ⟨fuel, l, e, hrun, hlen, -⟩ := h ⟨0, 0⟩
  have hone : l = [0] := by
    cases fuel with
    | zero => simp [sweep, sweepFrom, Indexing.getfirst, BoolIndex.getfirst, BoolIndex.scan] at hrun
    | succ fuel =>
        simp [sweep, sweepFrom, Indexing.getfirst, Indexing.getnext, BoolIndex.getfirst,
          BoolIndex.getnext, BoolIndex.scan, BoolIndex.hop] at hrun
        exact hrun.1.symm
  rw [hone] at hlen
  exact absurd hlen (by decide)

end Ztsdb.Arr
