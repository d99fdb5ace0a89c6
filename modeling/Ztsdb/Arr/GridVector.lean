import Mathlib
import Ztsdb.Arr.Grid

/-!
# An array taken as a vector

With a single index, an array of more dimensions is gone through column by column, and the
index resumes where it was at the end of the column before. That selects what the index
selects of the vector of all elements when the positions come in the order of the columns;
an integer index of another order is left where it first goes back, and one that is out of
bounds is not noticed. With no index at all each column takes the place of the one before.
-/

namespace Ztsdb.Arr

open Ztsdb.Lib

/-- An index over a vector of `n` elements. -/
def Index.Fits (n : Nat) : Index → Prop
  | .null idx => idx.sz = n
  | .int _ => True
  | .intNeg idx => idx.sz = n
  | .bool idx => idx.vb.length = n

theorem pushEach_ok {T : Type} {v : List T} {js : List Nat} (rv : List T)
    (h : ∀ j ∈ js, j < v.length) :
    ∃ l, pushEach v js rv = .ok (rv ++ l) ∧ l.length = js.length := by
  obtain ⟨l, hl⟩ := pushEach_of_lt rv h
  obtain ⟨l', heq, hmap⟩ := pushEach_eq_ok hl
  rw [List.append_cancel_left heq] at hl
  exact ⟨l', hl, by simpa using congrArg List.length hmap⟩

/-- `subset` takes the selected positions, or throws. -/
theorem Index.subset_eq {T : Type} {i : Index} {l : List T} (h : i.Fits l.length) :
    (∀ p ∈ i.positions, p < l.length) ∧ i.subset [] l = pushEach l i.positions [] ∨
      (¬ ∀ p ∈ i.positions, p < l.length) ∧
        i.subset [] l = .error (.rangeError "subscript out of bounds") := by
  cases i with
  | null idx =>
      have hsz : idx.sz = l.length := h
      refine .inl ⟨fun p hp => ?_, ?_⟩
      · rw [positions, List.mem_range'_1] at hp
        omega
      · rw [positions, hsz]
        exact (pushEach_range' [] l []).symm
  | int idx =>
      have hthrow (vi : List Nat) (rv : List T) (hno : ¬ ∀ p ∈ vi, p < l.length) :
          IntIndex.subsetLoop l vi rv = .error (.rangeError "subscript out of bounds") := by
        induction vi generalizing rv with
        | nil => exact absurd nofun hno
        | cons x vi ih =>
            rw [IntIndex.subsetLoop]
            split
            next => rfl
            next hx =>
              rw [pushAt, List.getElem?_eq_getElem (Nat.lt_of_not_le hx)]
              refine ih _ fun hall => hno fun p hp => ?_
              rcases List.mem_cons.1 hp with rfl | hp
              · exact Nat.lt_of_not_le hx
              · exact hall p hp
      by_cases hall : ∀ p ∈ idx.vi, p < l.length
      · obtain ⟨r, hr⟩ := pushEach_of_lt ([] : List T) hall
        exact .inl ⟨hall, (IntIndex.subsetLoop_eq_ok.2 hr).trans hr.symm⟩
      · exact .inr ⟨hall, hthrow idx.vi [] hall⟩
  | intNeg idx =>
      have hsz : idx.sz = l.length := h
      refine .inl ⟨fun p hp => ?_, IntIndexNeg.subsetLoop_eq idx.sz 0 idx.vi [] idx.ahead_zero⟩
      have hmem := (List.mem_filter.1 hp).1
      rw [List.mem_range'_1] at hmem
      omega
  | bool idx =>
      have hsz : idx.vb.length = l.length := h
      refine .inl ⟨fun p hp => ?_, BoolIndex.subsetLoop_eq 0 idx.vb []⟩
      obtain ⟨-, hget⟩ := BoolIndex.mem_trues.1 hp
      have hlt := (List.getElem?_eq_some_iff.1 hget).1
      omega

/-- With one selected position, the cursor is there first. -/
theorem Index.getfirst_single {i : Index} {p : Nat} (h : i.positions = [p]) :
    ∃ k, Indexing.getfirst i ⟨0, 0⟩ = (true, ⟨p, k⟩) := by
  have hc : Cycles i [p] := by
    rw [← h]
    cases i with
    | null idx => exact idx.cycles
    | int idx => exact idx.cycles
    | intNeg idx => exact idx.cycles
    | bool idx =>
        refine idx.cycles ?_
        rw [show BoolIndex.trues 0 idx.vb = [p] from h]
        exact .singleton p
  exact hc.imp fun _ hk => hk.1 _

namespace Grid

variable {T : Type}

/-- A vector of `l` without names. -/
def ofVector (l : List T) : Grid T := ⟨[l.length], [l], [.ofExtent l.length]⟩

/-- What the operator does on a vector. -/
theorem subset_vector {i : Index} {l : List T} (h : i.Fits l.length) :
    (ofVector l).subset [i] true 0 =
      (thrown (i.subset [] l)).bind fun r _ => .ok (ofVector r) () := by
  have hsize := i.length_positions
  have hstart : (ofVector l).subset [i] true 0 = (ofVector l).subsetAll [i] true 0 := rfl
  rw [hstart]
  by_cases hone : Indexing.size i = 1
  · -- a single position: the first dimension is dropped
    rw [hone, List.length_eq_one_iff] at hsize
    obtain ⟨p, hp⟩ := hsize
    obtain ⟨k, hget⟩ := Index.getfirst_single hp
    rcases Index.subset_eq h with ⟨hall, hsub⟩ | ⟨hno, hsub⟩
    · have hlt : p < l.length := hall p (hp ▸ List.mem_cons_self)
      rw [hsub, hp]
      simp [subsetAll, ofVector, hone, dropDims, hget, hlt, not_le_of_gt hlt, Index.getfirstcol, Index.firsts,
        Index.shown, Index.column, thrown, eachCol, pushElt, Index.getnextcol, Index.nexts,
        resultNames, dropped, pushEach, pushAt, Names.ofExtent, Except.map, Except.bind]
    · have hge : l.length ≤ p := by
        rw [hp] at hno
        simpa using hno
      rw [hsub]
      simp [subsetAll, ofVector, hone, hget, hge, thrown]
  · rcases Index.subset_eq h with ⟨hall, hsub⟩ | ⟨hno, hsub⟩
    · obtain ⟨r, hr, hlen⟩ := pushEach_ok [] hall
      rw [hsub, hr]
      rw [hsize] at hlen
      have hone' : ¬ r.length = 1 := by rw [hlen]; exact hone
      simp [subsetAll, ofVector, dropDims, Index.getfirstcol, Index.firsts, Index.shown,
        Index.column, thrown, eachCol, pushCol, Index.getnextcol, Index.nexts, resultNames,
        dropped, Names.ofExtent, Except.map, hsub, hr, correctDim, ← hlen, hone']
    · rw [hsub]
      simp [subsetAll, ofVector, hone, dropDims, Index.getfirstcol, Index.firsts,
        Index.shown, Index.column, thrown, eachCol, pushCol, Except.map, hsub]

end Grid

/-! ## The columns one after the other

`F` is all elements, `P` those of the columns that are done. -/

section Columns

variable {T : Type}

theorem getElem?_column {P F v rest : List T} (hF : F = P ++ (v ++ rest)) {x : Nat}
    (hge : P.length ≤ x) (hlt : x < P.length + v.length) : v[x - P.length]? = F[x]? := by
  rw [hF, List.getElem?_append_right hge, List.getElem?_append_left (by omega)]

namespace IntIndex

/-- Whether a listed position is in the column. -/
def Inside (pos R x : Nat) : Prop := pos ≤ x ∧ x < pos + R

theorem subsetColLoop_eq {P F v rest : List T} (hF : F = P ++ (v ++ rest)) (ii : Nat) (vi : List Nat)
    (rv : List T) : ∃ m ≤ vi.length, subsetColLoop v P.length ii vi rv =
      (pushEach F (vi.take m) rv).map (fun r => (r, ii + m)) ∧
        (∀ x ∈ vi.take m, Inside P.length v.length x) ∧
        ∀ x ∈ (vi.drop m).head?, ¬ Inside P.length v.length x := by
  induction vi generalizing ii rv with
  | nil => exact ⟨0, le_rfl, rfl, nofun, nofun⟩
  | cons x vi ih =>
      rw [subsetColLoop]
      split
      next hout =>
        refine ⟨0, Nat.zero_le _, rfl, nofun, ?_⟩
        rintro _ ⟨⟩ ⟨h1, h2⟩
        omega
      next hin =>
        have hins : Inside P.length v.length x := ⟨by omega, by omega⟩
        have hget := getElem?_column hF hins.1 hins.2
        have hlt : x - P.length < v.length := by
          obtain ⟨h1, h2⟩ := hins
          omega
        rw [List.getElem?_eq_getElem hlt] at hget
        obtain ⟨m, hm, hrun, hall, hhead⟩ := ih (ii + 1) (rv ++ [v[x - P.length]])
        refine ⟨m + 1, Nat.succ_le_succ hm, ?_, ?_, hhead⟩
        · rw [List.take_succ_cons, pushEach, pushAt, pushAt, ← hget, List.getElem?_eq_getElem hlt]
          show subsetColLoop v P.length (ii + 1) vi (rv ++ [v[x - P.length]]) =
            (pushEach F (vi.take m) (rv ++ [v[x - P.length]])).map _
          rw [hrun, show ii + 1 + m = ii + (m + 1) by omega]
        · rw [List.take_succ_cons]
          intro y hy
          rcases List.mem_cons.1 hy with rfl | hy
          · exact hins
          · exact hall y hy

/-- The positions come in the order of the columns of `R` elements. -/
def InColumns (R : Nat) (vi : List Nat) : Prop := vi.Pairwise fun p q => p / R ≤ q / R

theorem inColumns_split {R k m : Nat} {vi : List Nat} {n : Nat}
    (hall : ∀ x ∈ vi.take m, Inside (R * k) R x)
    (hhead : ∀ x ∈ (vi.drop m).head?, ¬ Inside (R * k) R x) (hn : R * k + R ≤ n) :
    ((∀ x ∈ vi.drop m, R * k + R ≤ x ∧ x < n) ∧ InColumns R (vi.drop m)) ↔
      (∀ x ∈ vi, R * k ≤ x ∧ x < n) ∧ InColumns R vi := by
  have hcol {x : Nat} (hx : Inside (R * k) R x) : x / R = k := by
    obtain ⟨h1, h2⟩ := hx
    have hR : 0 < R := by omega
    exact Nat.div_eq_of_lt_le (by rwa [Nat.mul_comm]) (by rwa [Nat.succ_mul, Nat.mul_comm k])
  have hlater {x : Nat} (hR : 0 < R) (hx : R * k + R ≤ x) : k ≤ x / R := by
    rw [Nat.le_div_iff_mul_le hR, Nat.mul_comm]
    omega
  constructor
  · rintro ⟨hr, hp⟩
    refine ⟨fun x hx => ?_, ?_⟩
    · rw [← List.take_append_drop m vi, List.mem_append] at hx
      rcases hx with hx | hx
      · obtain ⟨h1, h2⟩ := hall x hx
        omega
      · have h1 := hr x hx
        omega
    · rw [← List.take_append_drop m vi]
      refine List.pairwise_append.2 ⟨?_, hp, fun x hx y hy => ?_⟩
      · refine List.pairwise_of_forall_mem_list fun x hx y hy => ?_
        rw [hcol (hall x hx), hcol (hall y hy)]
      · have hR : 0 < R := by
          obtain ⟨h1, h2⟩ := hall x hx
          omega
        rw [hcol (hall x hx)]
        exact hlater hR (hr y hy).1
  · rintro ⟨hr, hp⟩
    have hp' : InColumns R (vi.drop m) := hp.sublist (List.drop_sublist _ _)
    refine ⟨?_, hp'⟩
    cases hd : vi.drop m with
    | nil => nofun
    | cons y l =>
        rw [hd] at hp' hhead
        have hmem : ∀ x ∈ y :: l, x ∈ vi := fun x hx => List.mem_of_mem_drop (hd ▸ hx)
        have hy : R * k + R ≤ y := by
          by_contra hno
          exact hhead y rfl ⟨(hr y (hmem y List.mem_cons_self)).1, by omega⟩
        intro x hx
        refine ⟨?_, (hr x (hmem x hx)).2⟩
        rcases List.mem_cons.1 hx with rfl | hx'
        · exact hy
        · rcases Nat.eq_zero_or_pos R with rfl | hR
          · have h1 := (hr x (hmem x hx)).1
            omega
          · have hle := (List.pairwise_cons.1 hp').1 x hx'
            have hk : k + 1 ≤ y / R := by
              rw [Nat.le_div_iff_mul_le hR, Nat.mul_comm, Nat.mul_succ]
              exact hy
            have hx2 := hk.trans hle
            rw [Nat.le_div_iff_mul_le hR, Nat.mul_comm, Nat.mul_succ] at hx2
            exact hx2

/-- What is taken over the columns: the listed positions up to where they go back. -/
theorem subsetOneLoop_eq (idx : IntIndex) {R : Nat} {F : List T} {cs : List (List T)} {P : List T} {k : Nat}
    (hF : F = P ++ cs.flatten) (hP : P.length = R * k) (hR : ∀ v ∈ cs, v.length = R) (c : IdxPos)
    (rv : List T) :
    ∃ m ≤ (idx.vi.drop c.i).length, Grid.subsetOneLoop (.int idx) R cs rv c P.length =
        pushEach F ((idx.vi.drop c.i).take m) rv ∧
      (∀ x ∈ (idx.vi.drop c.i).take m, x < F.length) ∧
      (m = (idx.vi.drop c.i).length ↔
        (∀ x ∈ idx.vi.drop c.i, P.length ≤ x ∧ x < F.length) ∧ InColumns R (idx.vi.drop c.i)) := by
  induction cs generalizing P k c rv with
  | nil =>
      have hFP : F = P := by
        rw [hF, List.flatten_nil, List.append_nil]
      refine ⟨0, Nat.zero_le _, rfl, nofun, ?_⟩
      constructor
      · intro h0
        rw [List.eq_nil_of_length_eq_zero h0.symm]
        exact ⟨nofun, .nil⟩
      · rintro ⟨hr, -⟩
        cases hd : idx.vi.drop c.i with
        | nil => rfl
        | cons x l =>
            have h1 := hr x (hd ▸ List.mem_cons_self)
            rw [hFP] at h1
            omega
  | cons v cs ih =>
      have hv : v.length = R := hR v List.mem_cons_self
      obtain ⟨m, hm, hrun, hall, hhead⟩ := subsetColLoop_eq
        (hF.trans (by rw [List.flatten_cons])) c.i (idx.vi.drop c.i) rv
      rw [hv] at hall hhead
      have hall' : ∀ x ∈ (idx.vi.drop c.i).take m, x < F.length := by
        intro x hx
        obtain ⟨h1, h2⟩ := hall x hx
        rw [hF, List.length_append, List.flatten_cons, List.length_append, hv]
        omega
      obtain ⟨r, hr, -⟩ := pushEach_ok rv hall'
      have hF' : F = (P ++ v) ++ cs.flatten := by
        rw [hF, List.flatten_cons, List.append_assoc]
      have hlen : (P ++ v).length = P.length + R := by
        rw [List.length_append, hv]
      obtain ⟨m', hm', hrun', hlt', hiff⟩ := @ih (P ++ v) (k + 1) hF'
        (by rw [hlen, hP]; exact (Nat.mul_succ R k).symm) (fun w hw => hR w (List.mem_cons_of_mem v hw))
        { c with i := c.i + m } (rv ++ r)
      simp only [← List.drop_drop] at hm' hrun' hlt' hiff
      have hleft : ((idx.vi.drop c.i).drop m).length = (idx.vi.drop c.i).length - m := List.length_drop
      rw [hleft] at hm' hiff
      refine ⟨m + m', by omega, ?_, ?_, ?_⟩
      · rw [Grid.subsetOneLoop, List.take_add, pushEach_append, hr]
        show (((subsetColLoop v P.length c.i (idx.vi.drop c.i) rv).map _).bind _) = _
        rw [hrun, hr]
        show Grid.subsetOneLoop (.int idx) R cs (rv ++ r) { c with i := c.i + m } (P.length + R) = _
        rw [← hlen, hrun']
        rfl
      · rw [List.take_add]
        intro x hx
        rcases List.mem_append.1 hx with hx | hx
        · exact hall' x hx
        · exact hlt' x hx
      · rw [hP] at hall hhead
        rw [hlen, hP] at hiff
        rw [hP, ← inColumns_split hall hhead, ← hiff]
        · omega
        · rw [hF', List.length_append, hlen, hP]
          omega

end IntIndex

theorem length_le_of_columns {P F : List T} {v : List T} {cs : List (List T)}
    (hF : F = P ++ (v :: cs).flatten) : P.length + v.length ≤ F.length := by
  rw [hF, List.length_append, List.flatten_cons, List.length_append]
  omega

namespace IntIndexNeg

/-- The place in the listed positions where those before `iv` end. -/
structure Cut (vi : List Nat) (iv ii : Nat) : Prop where
  before : ∀ x ∈ vi.take ii, x < iv
  after : ∀ x ∈ vi.drop ii, iv ≤ x

theorem Cut.mem_iff {vi : List Nat} {iv ii : Nat} (h : Cut vi iv ii) (hasc : vi.Pairwise (· < ·)) :
    (vi.drop ii).head? = some iv ↔ iv ∈ vi := by
  constructor
  · intro hhead
    exact List.mem_of_mem_drop (List.mem_of_head? hhead)
  · intro hmem
    rw [← List.take_append_drop ii vi, List.mem_append] at hmem
    rcases hmem with hmem | hmem
    · exact absurd (h.before iv hmem) (Nat.lt_irrefl iv)
    · have hasc' : (vi.drop ii).Pairwise (· < ·) := hasc.sublist (List.drop_sublist _ _)
      cases hd : vi.drop ii with
      | nil =>
          rw [hd] at hmem
          cases hmem
      | cons x l =>
          rw [hd] at hmem hasc'
          have hx := h.after x (hd ▸ List.mem_cons_self)
          rcases List.mem_cons.1 hmem with rfl | hmem
          · rfl
          · have hlt := (List.pairwise_cons.1 hasc').1 iv hmem
            omega

theorem Cut.listed {vi : List Nat} {iv ii : Nat} (h : Cut vi iv ii) (hasc : vi.Pairwise (· < ·))
    (hhead : (vi.drop ii).head? = some iv) : Cut vi (iv + 1) (ii + 1) := by
  have hasc' : (vi.drop ii).Pairwise (· < ·) := hasc.sublist (List.drop_sublist _ _)
  have hget : vi[ii]? = some iv := by
    rw [← hhead, List.head?_drop]
  refine ⟨fun x hx => ?_, fun x hx => ?_⟩
  · rw [List.take_add_one, hget, List.mem_append] at hx
    rcases hx with hx | hx
    · exact Nat.lt_succ_of_lt (h.before x hx)
    · rw [List.mem_singleton.1 hx]
      exact Nat.lt_succ_self iv
  · cases hd : vi.drop ii with
    | nil =>
        rw [hd] at hhead
        cases hhead
    | cons y l =>
        rw [hd] at hhead hasc'
        cases hhead
        rw [← List.drop_drop, hd] at hx
        exact (List.pairwise_cons.1 hasc').1 x hx

theorem Cut.skipped {vi : List Nat} {iv ii : Nat} (h : Cut vi iv ii) (hno : iv ∉ vi) :
    Cut vi (iv + 1) ii := by
  refine ⟨fun x hx => Nat.lt_succ_of_lt (h.before x hx), fun x hx => ?_⟩
  have hge := h.after x hx
  have hne : x ≠ iv := fun heq => hno (heq ▸ List.mem_of_mem_drop hx)
  omega

theorem subsetColLoop_eq {P F v rest : List T} (hF : F = P ++ (v ++ rest)) {full : List Nat}
    (hasc : full.Pairwise (· < ·)) (k iv ii : Nat) (rv : List T) (hc : Cut full iv ii)
    (hge : P.length ≤ iv) (hle : iv ≤ P.length + v.length) (hk : P.length + v.length ≤ iv + k) :
    ∃ ii', Cut full (P.length + v.length) ii' ∧
      subsetColLoop v P.length k iv ii (full.drop ii) rv =
        (pushEach F (others (P.length + v.length - iv) iv full) rv).map fun r =>
          (r, ⟨P.length + v.length, ii'⟩) := by
  induction k generalizing iv ii rv with
  | zero =>
      have heq : iv = P.length + v.length := by omega
      subst heq
      refine ⟨ii, hc, ?_⟩
      rw [Nat.sub_self]
      rfl
  | succ k ih =>
      rw [subsetColLoop]
      split
      next hend =>
        have heq : iv = P.length + v.length := by omega
        subst heq
        refine ⟨ii, hc, ?_⟩
        rw [Nat.sub_self]
        rfl
      next hlt =>
        have hsub : P.length + v.length - iv = P.length + v.length - (iv + 1) + 1 := by omega
        rw [hsub]
        split
        next hhead =>
          obtain ⟨ii', hc', hrun⟩ := ih (iv + 1) (ii + 1) rv (hc.listed hasc hhead) (by omega)
            (by omega) (by omega)
          refine ⟨ii', hc', ?_⟩
          rw [others_mem ((hc.mem_iff hasc).1 hhead), List.tail_drop, hrun]
        next hhead =>
          have hno : iv ∉ full := fun hm => hhead ((hc.mem_iff hasc).2 hm)
          have hin : iv - P.length < v.length := by omega
          have hget := getElem?_column hF hge (by omega)
          rw [List.getElem?_eq_getElem hin] at hget
          obtain ⟨ii', hc', hrun⟩ := ih (iv + 1) ii (rv ++ [v[iv - P.length]]) (hc.skipped hno)
            (by omega) (by omega) (by omega)
          refine ⟨ii', hc', ?_⟩
          rw [others_not_mem hno, pushEach, pushAt, pushAt, ← hget, List.getElem?_eq_getElem hin]
          exact hrun

theorem subsetOneLoop_eq (idx : IntIndexNeg) {R : Nat} {F : List T} {cs : List (List T)} {P : List T}
    (hF : F = P ++ cs.flatten) (hsz : idx.sz = F.length) (hR : ∀ v ∈ cs, v.length = R) (ii : Nat)
    (hc : Cut idx.vi P.length ii) (rv : List T) :
    Grid.subsetOneLoop (.intNeg idx) R cs rv ⟨P.length, ii⟩ P.length =
      pushEach F (others (F.length - P.length) P.length idx.vi) rv := by
  induction cs generalizing P ii rv with
  | nil =>
      rw [hF, List.flatten_nil, List.append_nil, Nat.sub_self]
      rfl
  | cons v cs ih =>
      have hv : v.length = R := hR v List.mem_cons_self
      have hle := length_le_of_columns hF
      obtain ⟨ii', hc', hrun⟩ := subsetColLoop_eq (hF.trans (by rw [List.flatten_cons])) idx.asc
        (idx.sz - P.length) P.length ii rv hc le_rfl (Nat.le_add_right _ _) (by omega)
      rw [Nat.add_sub_cancel_left] at hrun
      have hall : ∀ x ∈ others v.length P.length idx.vi, x < F.length := by
        intro x hx
        have hmem := (List.mem_filter.1 hx).1
        rw [List.mem_range'_1] at hmem
        omega
      obtain ⟨r, hr, -⟩ := pushEach_ok rv hall
      have hlen : (P ++ v).length = P.length + v.length := List.length_append
      have hrec := @ih (P ++ v) (by rw [hF, List.flatten_cons, List.append_assoc])
        (fun w hw => hR w (List.mem_cons_of_mem v hw)) ii' (by rw [hlen]; exact hc') (rv ++ r)
      rw [Grid.subsetOneLoop]
      show (subsetColLoop v P.length (idx.sz - P.length) P.length ii (idx.vi.drop ii) rv).bind _ = _
      rw [hrun, hr]
      show Grid.subsetOneLoop (.intNeg idx) R cs (rv ++ r) ⟨P.length + v.length, ii'⟩ (P.length + R) = _
      rw [← hv] at hrec ⊢
      rw [← hlen, hrec, show F.length - P.length = v.length + (F.length - (P ++ v).length) by
        omega, others_add, pushEach_append, hr, hlen]
      rfl

end IntIndexNeg

namespace BoolIndex

theorem trues_append {k : Nat} {l l' : List Bool} :
    trues k (l ++ l') = trues k l ++ trues (k + l.length) l' := by
  induction l generalizing k with
  | nil => rfl
  | cons b l ih =>
      rw [List.cons_append, trues, trues, ih, List.length_cons,
        show k + (l.length + 1) = k + 1 + l.length by omega]
      split <;> rfl

theorem subsetColLoop_eq {P F v rest : List T} (hF : F = P ++ (v ++ rest)) {vb : List Bool} (rv : List T)
    (hlen : v.length ≤ vb.length) : subsetColLoop v P.length vb rv =
      (pushEach F (trues P.length (vb.take v.length)) rv).map fun r => (r, P.length + v.length) := by
  induction v generalizing P vb rv with
  | nil => rfl
  | cons x v ih =>
      cases vb with
      | nil => cases hlen
      | cons b vb =>
          have hF' : F = (P ++ [x]) ++ (v ++ rest) := by
            rw [hF, List.append_assoc]
            rfl
          have hx : F[P.length]? = some x := by
            rw [hF]
            simp
          have hplen : (P ++ [x]).length = P.length + 1 := List.length_append
          have hrec (rv : List T) := @ih (P ++ [x]) hF' vb rv (Nat.le_of_succ_le_succ hlen)
          rw [hplen] at hrec
          rw [subsetColLoop, hrec, List.length_cons, List.take_succ_cons, trues]
          cases b with
          | false =>
              show _ = (pushEach F (trues (P.length + 1) (vb.take v.length)) rv).map _
              rw [show P.length + (v.length + 1) = P.length + 1 + v.length by omega]
              rfl
          | true =>
              show _ = (pushEach F (P.length :: trues (P.length + 1) (vb.take v.length)) rv).map _
              rw [pushEach, pushAt, hx, show P.length + (v.length + 1) = P.length + 1 + v.length by omega]
              rfl

theorem subsetOneLoop_eq (idx : BoolIndex) {R : Nat} {F : List T} {cs : List (List T)} {P : List T}
    (hF : F = P ++ cs.flatten) (hsz : idx.vb.length = F.length) (hR : ∀ v ∈ cs, v.length = R)
    (val : Nat) (rv : List T) :
    Grid.subsetOneLoop (.bool idx) R cs rv ⟨val, P.length⟩ P.length =
      pushEach F (trues P.length (idx.vb.drop P.length)) rv := by
  induction cs generalizing P rv with
  | nil =>
      have hend : idx.vb.drop P.length = [] := by
        rw [List.drop_eq_nil_iff, hsz, hF, List.flatten_nil, List.append_nil]
      rw [hend]
      rfl
  | cons v cs ih =>
      have hv : v.length = R := hR v List.mem_cons_self
      have hle := length_le_of_columns hF
      have hrun := @subsetColLoop_eq T P F v cs.flatten (hF.trans (by rw [List.flatten_cons])) (idx.vb.drop P.length) rv
        (by rw [List.length_drop]; omega)
      have hall : ∀ x ∈ trues P.length ((idx.vb.drop P.length).take v.length), x < F.length := by
        intro x hx
        obtain ⟨h1, h2⟩ := mem_trues.1 hx
        have h3 := (List.getElem?_eq_some_iff.1 h2).1
        rw [List.length_take] at h3
        omega
      obtain ⟨r, hr, -⟩ := pushEach_ok rv hall
      have hlen : (P ++ v).length = P.length + v.length := List.length_append
      have hrec := @ih (P ++ v) (by rw [hF, List.flatten_cons, List.append_assoc])
        (fun w hw => hR w (List.mem_cons_of_mem v hw)) (rv ++ r)
      have hsplit : trues P.length (idx.vb.drop P.length) =
          trues P.length ((idx.vb.drop P.length).take v.length) ++
            trues (P ++ v).length (idx.vb.drop (P ++ v).length) := by
        conv_lhs => rw [← List.take_append_drop v.length (idx.vb.drop P.length)]
        rw [trues_append, List.drop_drop, hlen, List.length_take, List.length_drop,
          Nat.min_eq_left (by omega)]
      rw [Grid.subsetOneLoop]
      show ((subsetColLoop v P.length (idx.vb.drop P.length) rv).map _).bind _ = _
      rw [hrun, hr]
      show Grid.subsetOneLoop (.bool idx) R cs (rv ++ r) ⟨val, P.length + v.length⟩ (P.length + R) = _
      rw [← hv] at hrec ⊢
      rw [← hlen, hrec, hsplit, pushEach_append, hr]
      rfl

end BoolIndex

theorem NullIndex.subsetOneLoop_eq (idx : NullIndex) (R : Nat) (cs : List (List T)) (rv : List T)
    (c : IdxPos) (pos : Nat) :
    Grid.subsetOneLoop (.null idx) R cs rv c pos = .ok (cs.getLast?.getD rv) := by
  induction cs generalizing rv pos with
  | nil => rfl
  | cons v cs ih =>
      rw [Grid.subsetOneLoop]
      show Grid.subsetOneLoop (.null idx) R cs v c (pos + R) = _
      rw [ih]
      cases cs with
      | nil => rfl
      | cons w cs =>
          rw [List.getLast?_cons_cons, List.getLast?_eq_some_getLast (List.cons_ne_nil w cs)]
          rfl

end Columns

/-- What a single index has to be for an array of `k` columns of `R` elements. -/
def Index.ByColumns (R k : Nat) : Index → Prop
  | .null _ => k ≤ 1 ∨ R = 0
  | .int idx => (∀ x ∈ idx.vi, x < R * k) ∧ IntIndex.InColumns R idx.vi
  | _ => True

theorem length_flatten_columns {T : Type} {R : Nat} {cs : List (List T)} (h : ∀ v ∈ cs, v.length = R) :
    cs.flatten.length = R * cs.length := by
  induction cs with
  | nil => rfl
  | cons v cs ih =>
      rw [List.flatten_cons, List.length_append, h v List.mem_cons_self,
        ih fun w hw => h w (List.mem_cons_of_mem v hw), List.length_cons, Nat.mul_succ, Nat.add_comm]

namespace Grid

variable {T : Type}

theorem ofVector_injective {l l' : List T} (h : ofVector l = ofVector l') : l = l' := by
  injection h with _ hv
  injection hv

/-- A single index selects from an array what it selects from the vector of its elements,
or fails as there, exactly when it is no null index over several columns, and no integer
index that is out of bounds or goes back to an earlier column. -/
theorem subset_one_iff (a : Grid T) (h : a.WellFormed) (hdim : 1 < a.dim.length) (i : Index)
    (hi : i.Fits a.v.flatten.length) :
    a.subset [i] true 0 = a.asVector.subset [i] true 0 ↔
      i.ByColumns (a.dim.headD 0) a.v.length := by
  have hvec := subset_vector hi
  have hone : a.subset [i] true 0 = (thrown (subsetOneLoop i (a.dim.headD 0) a.v [] ⟨0, 0⟩ 0)).bind
      fun rv _ => .ok (ofVector rv) () := by
    rw [subset, if_pos hdim]
    rfl
  have htotal := length_flatten_columns h.rows
  rw [show a.asVector = ofVector a.v.flatten from rfl, hvec, hone]
  have heq {r r' : List T} : (Outcome.ok (ofVector r) () : Outcome Exn Unit (Grid T)) =
      .ok (ofVector r') () ↔ r = r' :=
    ⟨fun h => ofVector_injective (Outcome.ok.inj h).1, fun h => by rw [h]⟩
  cases i with
  | null idx =>
      rw [NullIndex.subsetOneLoop_eq]
      show Outcome.ok (ofVector (a.v.getLast?.getD [])) () = .ok (ofVector a.v.flatten) () ↔ _
      rw [heq, Index.ByColumns]
      have hlen {v : List T} (hv : v ∈ a.v) := h.rows v hv
      cases hv : a.v with
      | nil => simp
      | cons v vs =>
          cases vs with
          | nil => simp
          | cons w cs =>
              have hmem : (w :: cs).getLast (List.cons_ne_nil w cs) ∈ a.v := by
                rw [hv]
                exact List.mem_cons_of_mem v (List.getLast_mem _)
              have hlast := h.rows _ hmem
              rw [hv] at htotal
              rw [List.getLast?_cons_cons, List.getLast?_eq_some_getLast (List.cons_ne_nil w cs),
                Option.getD_some]
              constructor
              · intro hsame
                rw [← hsame, hlast, List.length_cons, Nat.mul_succ] at htotal
                exact .inr (by
                  rw [List.length_cons, Nat.mul_succ] at htotal
                  omega)
              · rintro (hk | hR)
                · simp at hk
                · rw [hR, Nat.zero_mul] at htotal
                  rw [hR] at hlast
                  rw [List.eq_nil_of_length_eq_zero htotal, List.eq_nil_of_length_eq_zero hlast]
  | int idx =>
      obtain ⟨m, hm, hrun, hlt, hiff⟩ := IntIndex.subsetOneLoop_eq idx
        (List.nil_append a.v.flatten).symm (Nat.mul_zero (a.dim.headD 0)).symm h.rows ⟨0, 0⟩ []
      simp only [List.drop_zero, List.length_nil] at hm hrun hlt hiff
      obtain ⟨r, hr, hrlen⟩ := pushEach_ok [] hlt
      rw [hrun, hr]
      rw [htotal] at hiff
      have hcond : Index.ByColumns (a.dim.headD 0) a.v.length (.int idx) ↔ m = idx.vi.length := by
        rw [hiff, Index.ByColumns]
        simp
      rw [hcond]
      rcases Index.subset_eq hi with ⟨hall, hsub⟩ | ⟨hno, hsub⟩
      · obtain ⟨r', hr', hrlen'⟩ := pushEach_ok [] hall
        rw [hsub, hr']
        show Outcome.ok (ofVector r) () = .ok (ofVector r') () ↔ _
        rw [heq]
        have hlen : r.length = m := by
          rw [hrlen, List.length_take, Nat.min_eq_left hm]
        have hlen' : r'.length = idx.vi.length := hrlen'
        constructor
        · intro hsame
          rw [← hlen, hsame, hlen']
        · intro hfull
          rw [hfull, List.take_length] at hr
          have hsame := hr.symm.trans hr'
          exact Except.ok.inj hsame
      · rw [hsub]
        refine iff_of_false ?_ fun hfull => hno fun p hp => ?_
        · intro hbad
          cases hbad
        · have hp' := ((hiff.1 hfull).1 p hp).2
          rw [htotal]
          exact hp'
  | intNeg idx =>
      have hsz : idx.sz = a.v.flatten.length := hi
      have hrun := IntIndexNeg.subsetOneLoop_eq idx (List.nil_append a.v.flatten).symm hsz h.rows 0
        ⟨nofun, fun x _ => Nat.zero_le x⟩ []
      refine iff_of_true ?_ trivial
      have hsub : Index.subset (.intNeg idx) [] a.v.flatten =
          pushEach a.v.flatten (IntIndexNeg.others idx.sz 0 idx.vi) [] :=
        IntIndexNeg.subsetLoop_eq idx.sz 0 idx.vi [] idx.ahead_zero
      rw [hsub, hsz]
      exact congrArg (fun r => (thrown r).bind fun rv _ => .ok (ofVector rv) ()) hrun
  | bool idx =>
      have hsz : idx.vb.length = a.v.flatten.length := hi
      have hrun := BoolIndex.subsetOneLoop_eq idx (List.nil_append a.v.flatten).symm hsz h.rows 0 []
      refine iff_of_true ?_ trivial
      have hsub : Index.subset (.bool idx) [] a.v.flatten =
          pushEach a.v.flatten (BoolIndex.trues 0 idx.vb) [] := BoolIndex.subsetLoop_eq 0 idx.vb []
      rw [hsub]
      exact congrArg (fun r => (thrown r).bind fun rv _ => .ok (ofVector rv) ()) hrun

/-- Two columns of two elements, and the last and the first of them. -/
def twoByTwo : Grid Nat := ⟨[2, 2], [[10, 11], [12, 13]], [.ofExtent 2, .ofExtent 2]⟩

theorem twoByTwo_wellFormed : twoByTwo.WellFormed :=
  ⟨by decide, by decide, by decide, by decide, by decide⟩

theorem subset_one_iff_two :
    twoByTwo.subset [.int ⟨[1, 0, 3]⟩] true 0 = twoByTwo.asVector.subset [.int ⟨[1, 0, 3]⟩] true 0 :=
  (subset_one_iff twoByTwo twoByTwo_wellFormed (by decide) (.int ⟨[1, 0, 3]⟩) trivial).2
    ⟨by decide, by
      show List.Pairwise _ _
      decide⟩

theorem not_subset_one :
    ¬ twoByTwo.subset [.int ⟨[3, 0]⟩] true 0 = twoByTwo.asVector.subset [.int ⟨[3, 0]⟩] true 0 := by
  intro h
  have h1 : twoByTwo.subset [.int ⟨[3, 0]⟩] true 0 = .ok (ofVector [13]) () := rfl
  have h2 : twoByTwo.asVector.subset [.int ⟨[3, 0]⟩] true 0 = .ok (ofVector [13, 10]) () := rfl
  rw [h1, h2] at h
  exact absurd (ofVector_injective (Outcome.ok.inj h).1) (by decide)

end Grid

end Ztsdb.Arr
